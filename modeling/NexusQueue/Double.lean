/-
# Double-precision numbers

A finite double is kept as the rational it stands for.  `fl` rounds a rational to the
nearest double, to the one with an even last place between two of them; it is monotone
(`fl_mono`), and it leaves the halves below `2 ^ 52` alone (`fl_half`).  `Number` adds the
infinities and the number that is none.

The two signs of zero are not told apart.
-/
import Mathlib.Data.Int.Log
import Mathlib.Tactic

namespace Double

/-! ## Rounding to an integer -/

/-- The nearest integer, the even one if there are two. -/
def roundEven (q : ℚ) : ℤ :=
  let n := ⌊q⌋
  if q - n < 1 / 2 then n
  else if 1 / 2 < q - n then n + 1
  else if n % 2 = 0 then n
  else n + 1

/-- Rounding goes to one of the two neighbours. -/
theorem roundEven_bounds (q : ℚ) : ⌊q⌋ ≤ roundEven q ∧ roundEven q ≤ ⌊q⌋ + 1 := by
  unfold roundEven
  dsimp only
  split_ifs <;> omega

/-- An integer stays what it is. -/
theorem roundEven_intCast (n : ℤ) : roundEven (n : ℚ) = n := by
  unfold roundEven
  rw [Int.floor_intCast]
  norm_num

/-- Rounding keeps the order. -/
theorem roundEven_mono {p q : ℚ} (h : p ≤ q) : roundEven p ≤ roundEven q := by
  have hfloor : ⌊p⌋ ≤ ⌊q⌋ := Int.floor_le_floor h
  by_cases heq : ⌊p⌋ = ⌊q⌋
  · -- in one interval the fractions are compared
    unfold roundEven
    rw [heq]
    dsimp only
    split_ifs <;> first | omega | (exfalso; linarith)
  · have hp := (roundEven_bounds p).2
    have hq := (roundEven_bounds q).1
    omega

/-! ## Rounding to a double -/

/-- The exponent of the last place of a double of the magnitude of `q`. -/
def place (q : ℚ) : ℤ := max (Int.log 2 q - 52) (-1074)

/-- The nearest double to a number that is not negative, were there no largest one. -/
def roundPos (q : ℚ) : ℚ := roundEven (q / 2 ^ place q) * 2 ^ place q

/-- The nearest double, were there no largest one. -/
def fl (q : ℚ) : ℚ := if q < 0 then -roundPos (-q) else roundPos q

/-- A power of two is positive. -/
theorem two_zpow_pos (e : ℤ) : (0 : ℚ) < 2 ^ e := zpow_pos (by norm_num) e

/-- A multiple of the last place is a double. -/
theorem roundPos_multiple {q : ℚ} {n : ℤ} (h : q = n * 2 ^ place q) : roundPos q = q := by
  have hpos := two_zpow_pos (place q)
  have hdiv : q / 2 ^ place q = n := by
    rw [div_eq_iff hpos.ne']
    exact h
  rw [roundPos, hdiv, roundEven_intCast]
  exact h.symm

/-- Zero is a double. -/
theorem roundPos_zero : roundPos 0 = 0 := roundPos_multiple (n := 0) (by norm_num)

/-- A number is less than `2 ^ 53` of its last places. -/
theorem lt_place (q : ℚ) : q < 2 ^ (place q + 53) := by
  have hlt : q < ((2 : ℕ) : ℚ) ^ (Int.log 2 q + 1) := Int.lt_zpow_succ_log_self (by norm_num) q
  have hle : Int.log 2 q + 1 ≤ place q + 53 := by
    have := le_max_left (Int.log 2 q - 52) (-1074)
    unfold place
    omega
  calc q < (2 : ℚ) ^ (Int.log 2 q + 1) := by exact_mod_cast hlt
    _ ≤ 2 ^ (place q + 53) := zpow_le_zpow_right₀ (by norm_num) hle

/-- Rounding up ends at the next power of two at the latest. -/
theorem roundPos_le (q : ℚ) : roundPos q ≤ 2 ^ (place q + 53) := by
  have hpos := two_zpow_pos (place q)
  have hdiv : q / 2 ^ place q ≤ ((2 ^ 53 : ℤ) : ℚ) := by
    rw [div_le_iff₀ hpos]
    have hsplit : (2 : ℚ) ^ (place q + 53) = 2 ^ (53 : ℤ) * 2 ^ place q := by
      rw [add_comm, zpow_add₀ (by norm_num)]
    calc q ≤ 2 ^ (place q + 53) := (lt_place q).le
      _ = ((2 ^ 53 : ℤ) : ℚ) * 2 ^ place q := by rw [hsplit]; norm_num
  have hround : roundEven (q / 2 ^ place q) ≤ 2 ^ 53 := by
    have := roundEven_mono hdiv
    rwa [roundEven_intCast] at this
  calc roundPos q = roundEven (q / 2 ^ place q) * 2 ^ place q := rfl
    _ ≤ ((2 ^ 53 : ℤ) : ℚ) * 2 ^ place q := by
        have : ((roundEven (q / 2 ^ place q) : ℤ) : ℚ) ≤ ((2 ^ 53 : ℤ) : ℚ) := by
          exact_mod_cast hround
        exact mul_le_mul_of_nonneg_right this hpos.le
    _ = 2 ^ (place q + 53) := by
        rw [add_comm (place q), zpow_add₀ (by norm_num)]
        norm_num

/-- Rounding down ends at the power of two below at the latest, where there is one. -/
theorem le_roundPos {q : ℚ} (hq : 0 < q) (hplace : place q = Int.log 2 q - 52) :
    (2 : ℚ) ^ (place q + 52) ≤ roundPos q := by
  have hpos := two_zpow_pos (place q)
  have hlow : (2 : ℚ) ^ Int.log 2 q ≤ q := by
    have := Int.zpow_log_le_self (b := 2) (by norm_num) hq
    exact_mod_cast this
  have hdiv : ((2 ^ 52 : ℤ) : ℚ) ≤ q / 2 ^ place q := by
    rw [le_div_iff₀ hpos]
    calc ((2 ^ 52 : ℤ) : ℚ) * 2 ^ place q = 2 ^ (52 + place q) := by
          rw [zpow_add₀ (by norm_num)]
          norm_num
      _ = 2 ^ Int.log 2 q := by rw [hplace]; congr 1; omega
      _ ≤ q := hlow
  have hround : (2 ^ 52 : ℤ) ≤ roundEven (q / 2 ^ place q) := by
    have := roundEven_mono hdiv
    rwa [roundEven_intCast] at this
  calc (2 : ℚ) ^ (place q + 52) = ((2 ^ 52 : ℤ) : ℚ) * 2 ^ place q := by
        rw [add_comm, zpow_add₀ (by norm_num)]
        norm_num
    _ ≤ roundEven (q / 2 ^ place q) * 2 ^ place q := by
        have : ((2 ^ 52 : ℤ) : ℚ) ≤ ((roundEven (q / 2 ^ place q) : ℤ) : ℚ) := by
          exact_mod_cast hround
        exact mul_le_mul_of_nonneg_right this hpos.le

/-- A double that is rounded from a number that is not negative is not negative. -/
theorem roundPos_nonneg {q : ℚ} (hq : 0 ≤ q) : 0 ≤ roundPos q := by
  have hpos := two_zpow_pos (place q)
  have hround : 0 ≤ roundEven (q / 2 ^ place q) := by
    have := roundEven_mono (p := ((0 : ℤ) : ℚ)) (q := q / 2 ^ place q)
      (by simpa using div_nonneg hq hpos.le)
    rwa [roundEven_intCast] at this
  exact mul_nonneg (by exact_mod_cast hround) hpos.le

/-- Rounding keeps the order of positive numbers. -/
theorem roundPos_mono {p q : ℚ} (hp : 0 < p) (h : p ≤ q) : roundPos p ≤ roundPos q := by
  have hlog : Int.log 2 p ≤ Int.log 2 q := Int.log_mono_right hp h
  have hplace : place p ≤ place q := max_le_max (by omega) le_rfl
  rcases hplace.eq_or_lt with heq | hlt
  · -- the same last place: integers are rounded
    have hpos := two_zpow_pos (place q)
    have hround : roundEven (p / 2 ^ place q) ≤ roundEven (q / 2 ^ place q) :=
      roundEven_mono (div_le_div_of_nonneg_right h hpos.le)
    unfold roundPos
    rw [heq]
    exact mul_le_mul_of_nonneg_right (by exact_mod_cast hround) hpos.le
  · -- a power of two lies between the two
    have hnormal : place q = Int.log 2 q - 52 := by
      unfold place at hlt ⊢
      omega
    calc roundPos p ≤ 2 ^ (place p + 53) := roundPos_le p
      _ ≤ 2 ^ (place q + 52) := zpow_le_zpow_right₀ (by norm_num) (by omega)
      _ ≤ roundPos q := le_roundPos (hp.trans_le h) hnormal

/-- **Rounding keeps the order.** -/
theorem fl_mono {p q : ℚ} (h : p ≤ q) : fl p ≤ fl q := by
  unfold fl
  by_cases hp : p < 0
  · rw [if_pos hp]
    by_cases hq : q < 0
    · rw [if_pos hq]
      exact neg_le_neg (roundPos_mono (neg_pos.mpr hq) (neg_le_neg h))
    · rw [if_neg hq]
      have hleft := roundPos_nonneg (neg_nonneg.mpr hp.le)
      have hright := roundPos_nonneg (not_lt.mp hq)
      linarith
  · rw [if_neg hp, if_neg (by linarith)]
    rcases (not_lt.mp hp).eq_or_lt with hzero | hpos
    · rw [← hzero, roundPos_zero]
      exact roundPos_nonneg (hzero.le.trans h)
    · exact roundPos_mono hpos h

/-- A half below `2 ^ 52` that is not negative is a double. -/
theorem roundPos_half {k : ℤ} (hk : 0 ≤ k) (hlt : k < 2 ^ 53) :
    roundPos ((k : ℚ) / 2) = (k : ℚ) / 2 := by
  rcases hk.eq_or_lt with rfl | hpos
  · rw [Int.cast_zero, zero_div, roundPos_zero]
  · have hq : (0 : ℚ) < (k : ℚ) / 2 := by positivity
    have hlog : Int.log 2 ((k : ℚ) / 2) ≤ 51 := by
      have hle := Int.zpow_log_le_self (b := 2) (by norm_num) hq
      have hbound : (k : ℚ) / 2 < 2 ^ (52 : ℤ) := by
        have : (k : ℚ) < 2 ^ 53 := by exact_mod_cast hlt
        rw [div_lt_iff₀ (by norm_num)]
        calc (k : ℚ) < 2 ^ 53 := this
          _ = 2 ^ (52 : ℤ) * 2 := by norm_num
      have hpow : (2 : ℚ) ^ Int.log 2 ((k : ℚ) / 2) < 2 ^ (52 : ℤ) :=
        lt_of_le_of_lt (by exact_mod_cast hle) hbound
      have := (zpow_lt_zpow_iff_right₀ (by norm_num : (1 : ℚ) < 2)).mp hpow
      omega
    have hplace : place ((k : ℚ) / 2) ≤ -1 := max_le (by omega) (by norm_num)
    -- the last place divides one half
    obtain ⟨n, hn⟩ : ∃ n : ℕ, place ((k : ℚ) / 2) = -1 - n := ⟨(-1 - place ((k : ℚ) / 2)).toNat, by omega⟩
    refine roundPos_multiple (n := k * 2 ^ n) ?_
    rw [hn, show (-1 - (n : ℤ)) = -((n + 1 : ℕ) : ℤ) by push_cast; ring, zpow_neg,
      zpow_natCast, pow_succ]
    push_cast
    field_simp

/-- **A half below `2 ^ 52` is a double.** -/
theorem fl_half {k : ℤ} (h : |k| < 2 ^ 53) : fl ((k : ℚ) / 2) = (k : ℚ) / 2 := by
  obtain ⟨hlow, hhigh⟩ := abs_lt.mp h
  unfold fl
  by_cases hneg : (k : ℚ) / 2 < 0
  · have hk : k < 0 := by
      have : (k : ℚ) < 0 := by linarith
      exact_mod_cast this
    have hflip : -((k : ℚ) / 2) = ((-k : ℤ) : ℚ) / 2 := by push_cast; ring
    rw [if_pos hneg, hflip, roundPos_half (by omega) (by omega)]
    push_cast
    ring
  · have hk : 0 ≤ k := by
      have : (0 : ℚ) ≤ (k : ℚ) := by linarith
      exact_mod_cast this
    rw [if_neg hneg, roundPos_half hk hhigh]

/-- An integer below `2 ^ 52` is a double. -/
theorem fl_int {n : ℤ} (h : |n| < 2 ^ 52) : fl (n : ℚ) = n := by
  obtain ⟨hlow, hhigh⟩ := abs_lt.mp h
  have hhalf := fl_half (k := 2 * n) (abs_lt.mpr ⟨by omega, by omega⟩)
  have hcast : ((2 * n : ℤ) : ℚ) / 2 = n := by push_cast; ring
  rwa [hcast] at hhalf

/-- A bound that is an integer is not crossed. -/
theorem fl_le_int {q : ℚ} {n : ℤ} (h : |n| < 2 ^ 52) (hq : q ≤ n) : fl q ≤ n :=
  (fl_mono hq).trans (fl_int h).le

/-- A bound that is an integer is not crossed. -/
theorem int_le_fl {q : ℚ} {n : ℤ} (h : |n| < 2 ^ 52) (hq : (n : ℚ) ≤ q) : (n : ℚ) ≤ fl q :=
  (fl_int h).ge.trans (fl_mono hq)

/-! ## Numbers -/

/-- A double: no number, an infinity, or a finite one. -/
inductive Number where
  | nan
  | inf (negative : Bool)
  | fin (q : ℚ)
  deriving DecidableEq

namespace Number

/-- The double nearest to a rational; beyond the largest finite one that is an infinity. -/
def ofRat (q : ℚ) : Number :=
  if (2 : ℚ) ^ 1024 ≤ |fl q| then .inf (decide (q < 0)) else .fin (fl q)

/-- The sum of two doubles. -/
def add : Number → Number → Number
  | .fin p, .fin q => ofRat (p + q)
  | .inf a, .inf b => if a = b then .inf a else .nan
  | .inf a, .fin _ => .inf a
  | .fin _, .inf b => .inf b
  | .nan, _ => .nan
  | _, .nan => .nan

/-- The negative of a double. -/
def neg : Number → Number
  | .nan => .nan
  | .inf a => .inf (!a)
  | .fin q => .fin (-q)

/-- The difference of two doubles. -/
def sub (a b : Number) : Number := add a (neg b)

/-- The smaller one of two doubles, none if one of them is none. -/
def min : Number → Number → Number
  | .fin p, .fin q => .fin (Min.min p q)
  | .inf true, .inf _ => .inf true
  | .inf false, .inf b => .inf b
  | .inf a, .fin q => if a then .inf true else .fin q
  | .fin p, .inf b => if b then .inf true else .fin p
  | .nan, _ => .nan
  | _, .nan => .nan

/-- Zero and what is no number count as false. -/
def truthy : Number → Bool
  | .nan => false
  | .inf _ => true
  | .fin q => q ≠ 0

/-- A finite double is the rational rounded. -/
theorem eq_fl_of_ofRat {p q : ℚ} (h : ofRat p = .fin q) : q = fl p := by
  unfold ofRat at h
  split at h
  · cases h
  · cases h
    rfl

/-- A small integer is a double. -/
theorem ofRat_int {n : ℤ} (h : |n| < 2 ^ 52) : ofRat (n : ℚ) = .fin n := by
  have hsmall : |(n : ℚ)| < 2 ^ 1024 := by
    have hcast : |(n : ℚ)| < 2 ^ 52 := by exact_mod_cast h
    exact hcast.trans (pow_lt_pow_right₀ (by norm_num) (by norm_num))
  rw [ofRat, fl_int h, if_neg (not_le.mpr hsmall)]

/-- A sum is finite only if both numbers are. -/
theorem add_eq_fin {a b : Number} {q : ℚ} (h : add a b = .fin q) :
    ∃ x y, a = .fin x ∧ b = .fin y ∧ q = fl (x + y) := by
  rcases a with _ | a | x <;> rcases b with _ | b | y
  case fin.fin => exact ⟨x, y, rfl, rfl, eq_fl_of_ofRat h⟩
  case inf.inf =>
      change (if a = b then Number.inf a else Number.nan) = _ at h
      split at h <;> cases h
  all_goals cases h

/-- A difference is finite only if both numbers are. -/
theorem sub_eq_fin {a : Number} {y q : ℚ} (h : sub a (.fin y) = .fin q) :
    ∃ x, a = .fin x ∧ q = fl (x - y) := by
  obtain ⟨x, z, hx, hz, hq⟩ := add_eq_fin h
  cases hz
  exact ⟨x, hx, by rw [hq, sub_eq_add_neg]⟩

/-- Small integers are added exactly. -/
theorem add_int {m n : ℤ} (h : |m + n| < 2 ^ 52) :
    add (.fin m) (.fin n) = .fin ((m + n : ℤ) : ℚ) := by
  have hcast : (m : ℚ) + n = ((m + n : ℤ) : ℚ) := by push_cast; rfl
  change ofRat ((m : ℚ) + n) = _
  rw [hcast, ofRat_int h]

end Number

end Double
