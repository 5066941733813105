/-
# The two limiters

The token bucket is implemented twice: as a Lua script, which runs as one command, and as
`checkLimitFallback`.  They decode the stored bucket differently, but every bucket that
either of them has written has both fields, so they agree check by check.

What the checks of a bucket have granted is then a matter of one recurrence: the level
rises with the clock, is cut off at the capacity, and falls by one with every grant.

Arithmetic is exact, and a number is read back as it was written.
-/
import NexusQueue.Sequential
import NexusQueue.Throttle

namespace NexusQueue

namespace Limiter

/-! ## The script -/

/-- `RateLimiter.LUA_SCRIPT` on the stored bucket: the answer and the bucket written
back. -/
def luaScript (config : RateLimitConfig) (now : ℕ) (data : RateHash) : (Bool × ℚ) × RateHash :=
  -- the fields found are taken one by one
  let tokens := data.tokens.getD config.maxTokens
  let lastRefill := data.lastRefill.getD now
  let elapsed := (now - lastRefill) / 1000
  let newTokens := min config.maxTokens (tokens + elapsed * config.refillRate)
  if 1 ≤ newTokens then
    ((true, 0), data.merge { tokens := some (newTokens - 1), lastRefill := some (now : ℚ) })
  else
    ((false, ⌈(1 - newTokens) / config.refillRate * 1000⌉),
      data.merge { tokens := some newTokens, lastRefill := some (now : ℚ) })

/-- What `checkLimitFallback` does to the stored bucket when it runs alone. -/
def fallback (config : RateLimitConfig) (now : ℕ) (data : RateHash) : (Bool × ℚ) × RateHash :=
  let newTokens := RateLimiter.refilled config now data
  if 1 ≤ newTokens then
    ((true, 0), data.merge { tokens := some (newTokens - 1), lastRefill := some (now : ℚ) })
  else
    ((false, RateLimiter.retryAfter config newTokens),
      data.merge { tokens := some newTokens, lastRefill := some (now : ℚ) })

/-- Which implementation makes a check. -/
inductive Variant where
  | lua
  | fallback
  deriving DecidableEq

/-- One check of the bucket of a queue at time `now`: the script is one command, and the
fallback is run alone by some task. -/
inductive Check (env : Env) (q : QueueName) (config : RateLimitConfig) (now : ℕ)
    (data : RateHash) : Variant → Bool × ℚ → RateHash → Prop
  | lua : Check env q config now data .lua (luaScript config now data).1
      (luaScript config now data).2
  | fallback {t : Task} {s s' : World} {result} : s.clock = now →
      s.redis.rates (redisKeys.rateLimit q) = data →
      Prog.Runs (alone env t) s (RateLimiter.checkLimitFallback q config) (.ok result) s' →
      Check env q config now data .fallback result (s'.redis.rates (redisKeys.rateLimit q))

/-- A sequence of checks, each with its time and its implementation, and what each of them
answers and leaves behind. -/
inductive Checks (env : Env) (q : QueueName) (config : RateLimitConfig) :
    RateHash → List (ℕ × Variant) → List ((Bool × ℚ) × RateHash) → Prop
  | nil {data} : Checks env q config data [] []
  | cons {data now v result data' rest out} : Check env q config now data v result data' →
      Checks env q config data' rest out →
      Checks env q config data ((now, v) :: rest) ((result, data') :: out)

/-- A bucket that is absent, or was left by a check. -/
def Left (data : RateHash) : Prop := data.tokens.isSome = data.lastRefill.isSome

section Agree

variable {env : Env} {t : Task} {q : QueueName} {config : RateLimitConfig} {now : ℕ}
  {data data' : RateHash} {v : Variant} {result : Bool × ℚ} {s s' : World}

/-- **The fallback, run alone, does what `fallback` says.** -/
theorem fallback_of_runs
    (h : Prog.Runs (alone env t) s (RateLimiter.checkLimitFallback q config) (.ok result) s') :
    (result, s'.redis.rates (redisKeys.rateLimit q)) =
      fallback config s.clock (s.redis.rates (redisKeys.rateLimit q)) := by
  suffices hends : Prog.Ends (alone env t) s (RateLimiter.checkLimitFallback q config)
      fun x s' => ∀ result, x = .ok result → (result, s'.redis.rates (redisKeys.rateLimit q)) =
        fallback config s.clock (s.redis.rates (redisKeys.rateLimit q)) from hends _ _ h _ rfl
  refine Prog.ends_step ?_ ?_
  · intro now s₁ hnow
    obtain ⟨o, ha⟩ := answer_of_alone hnow rfl
    cases ha
    refine Prog.ends_step (fun data s₁ hdata => ?_) (fun e s₁ _ result hr => by cases hr)
    obtain ⟨o, ha⟩ := answer_of_alone hdata rfl
    cases ha
    unfold fallback
    dsimp only
    split
    · refine Prog.ends_step (fun _ s₂ hset => ?_) (fun e s₂ _ result hr => by cases hr)
      obtain ⟨o, ha⟩ := answer_of_alone hset rfl
      cases ha
      refine Prog.ends_pure fun result hr => ?_
      cases hr
      simp [Write.apply]
    · refine Prog.ends_step (fun _ s₂ hset => ?_) (fun e s₂ _ result hr => by cases hr)
      obtain ⟨o, ha⟩ := answer_of_alone hset rfl
      cases ha
      refine Prog.ends_pure fun result hr => ?_
      cases hr
      simp [Write.apply]
  · intro e s₁ _ result hr
    cases hr

/-- On a bucket that is absent or was left by a check, both decode the same. -/
theorem lua_eq_fallback (h : Left data) : luaScript config now data = fallback config now data := by
  obtain ⟨_ | tokens, _ | last⟩ := data
  case none.some | some.none => cases h
  all_goals rfl

/-- A check of such a bucket does what `fallback` says. -/
theorem check_eq (hdata : Left data) (h : Check env q config now data v result data') :
    (result, data') = fallback config now data := by
  cases h with
  | lua => rw [← lua_eq_fallback hdata]
  | fallback hclock hrates hrun => rw [← hclock, ← hrates, fallback_of_runs hrun]

/-- Every check can be made, by the fallback as by the script. -/
theorem exists_check (env : Env) (q : QueueName) (config : RateLimitConfig) (now : ℕ)
    (data : RateHash) (v : Variant) : ∃ result data', Check env q config now data v result data' := by
  cases v with
  | lua => exact ⟨_, _, .lua⟩
  | fallback =>
      set s : World := { clock := now, redis := { rates := fun _ => data } } with hs
      have read : ∀ (c : Cmd) (r : Except Err c.Resp) (s' : World),
          s.answer env .plain c = some (r, s') → c.unreadable = false → alone env .tick s c r s' :=
        fun c r s' h hc => alone_of_answer rfl rfl h hc
      have hset : ∀ (f : RateHash) (result : Bool × ℚ), ∃ s', Prog.Runs (alone env .tick) s (do
          redis.hsetRate (redisKeys.rateLimit q) f
          pure result) (.ok result) s' :=
        fun f result => ⟨_, .call (read (.write _) (.ok ()) _ rfl rfl) .ret⟩
      obtain ⟨result, s', hrun⟩ : ∃ result s', Prog.Runs (alone env .tick) s
          (RateLimiter.checkLimitFallback q config) (.ok result) s' := by
        by_cases hone : 1 ≤ RateLimiter.refilled config now data
        · obtain ⟨s', hend⟩ := hset _ (true, 0)
          refine ⟨(true, 0), s', .call (read .now (.ok now) s rfl rfl)
            (.call (read (.hgetallRate (redisKeys.rateLimit q)) (.ok data) s rfl rfl) ?_)⟩
          change Prog.Runs _ _ (if _ then _ else _) _ _
          rw [if_pos hone]
          exact hend
        · obtain ⟨s', hend⟩ := hset _
            (false, RateLimiter.retryAfter config (RateLimiter.refilled config now data))
          refine ⟨(false, RateLimiter.retryAfter config (RateLimiter.refilled config now data)),
            s', .call (read .now (.ok now) s rfl rfl)
            (.call (read (.hgetallRate (redisKeys.rateLimit q)) (.ok data) s rfl rfl) ?_)⟩
          change Prog.Runs _ _ (if _ then _ else _) _ _
          rw [if_neg hone]
          exact hend
      exact ⟨result, _, .fallback rfl rfl hrun⟩

/-- So every sequence of checks can be made. -/
theorem exists_checks (env : Env) (q : QueueName) (config : RateLimitConfig) (data : RateHash)
    (l : List (ℕ × Variant)) : ∃ out, Checks env q config data l out := by
  induction l generalizing data with
  | nil => exact ⟨[], .nil⟩
  | cons c l ih =>
      obtain ⟨result, data', hcheck⟩ := exists_check env q config c.1 data c.2
      obtain ⟨out, hrest⟩ := ih data'
      exact ⟨_, .cons hcheck hrest⟩

/-- The bucket a check leaves has both fields. -/
theorem left_fallback : Left (fallback config now data).2 := by
  unfold fallback
  dsimp only
  split <;> rfl

theorem left_of_check (hdata : Left data) (h : Check env q config now data v result data') :
    Left data' := by
  rw [show data' = (fallback config now data).2 from congrArg Prod.snd (check_eq hdata h)]
  exact left_fallback

/-- **The two limiters are the same function.**  Checks at the same times answer the same
and leave the same buckets, whichever implementation makes each of them. -/
theorem limiters_agree {l l' : List (ℕ × Variant)} {out out' : List ((Bool × ℚ) × RateHash)}
    (hdata : Left data) (htimes : l.map Prod.fst = l'.map Prod.fst)
    (h : Checks env q config data l out) (h' : Checks env q config data l' out') : out = out' := by
  induction h generalizing l' out' with
  | nil =>
      rw [List.map_nil, eq_comm, List.map_eq_nil_iff] at htimes
      subst htimes
      cases h'
      rfl
  | @cons data now v result data₁ rest out hcheck _ ih =>
      cases h' with
      | nil => cases htimes
      | @cons _ now' v' result' data₁' rest' out' hcheck' hrest' =>
          obtain ⟨hnow, hrest⟩ := List.cons.inj htimes
          have hsame : (result, data₁) = (result', data₁') := by
            rw [check_eq hdata hcheck, check_eq hdata hcheck']
            exact congrArg (fun n => fallback config n data) hnow
          cases hsame
          rw [ih (left_of_check hdata hcheck) hrest hrest']

/-! ## What is granted -/

open TokenBucket (asks ask after)

/-- The rate per millisecond. -/
abbrev perMs (config : RateLimitConfig) : ℚ := config.refillRate / 1000

/-- `fallback` asks the bucket. -/
theorem fallback_asks (config : RateLimitConfig) (now : ℕ) (data : RateHash) :
    (fallback config now data).1.1 =
        (ask config.maxTokens (perMs config) (Throttle.bucketOf data) now).1 ∧
      Throttle.bucketOf (fallback config now data).2 =
        some (ask config.maxTokens (perMs config) (Throttle.bucketOf data) now).2 := by
  have hrefill := Throttle.refilled_eq config now data
  unfold fallback ask
  dsimp only
  rw [← hrefill]
  split
  · exact ⟨rfl, rfl⟩
  · exact ⟨rfl, rfl⟩

/-- What a sequence of checks answers is what the bucket answers. -/
theorem asks_of_checks {l : List (ℕ × Variant)} {out : List ((Bool × ℚ) × RateHash)}
    (hdata : Left data) (h : Checks env q config data l out) :
    out.map (·.1.1) = asks config.maxTokens (perMs config) (Throttle.bucketOf data)
      (l.map fun c => (c.1 : ℚ)) := by
  induction h with
  | nil => rfl
  | @cons data now v result data₁ rest out hcheck _ ih =>
      have heq := check_eq hdata hcheck
      obtain ⟨hanswer, hbucket⟩ := fallback_asks config now data
      rw [← heq] at hanswer hbucket
      rw [List.map_cons, List.map_cons, asks, ih (left_of_check hdata hcheck), hbucket, hanswer]

/-- **The bound of the bucket.**  Among consecutive checks from the `i`-th to the `j`-th,
which is allowed, at most the capacity and what is refilled between the two readings of
the clock are allowed, in whatever order the readings are. -/
theorem allowed_le {l : List (ℕ × Variant)} {out : List ((Bool × ℚ) × RateHash)} {i j a z : ℕ}
    (hdata : Left data) (h : Checks env q config data l out) (hij : i ≤ j)
    (ha : (l.map Prod.fst)[i]? = some a) (hz : (l.map Prod.fst)[j]? = some z)
    (hallow : (out.map (·.1.1))[j]? = some true) :
    ((((out.map (·.1.1)).drop i).take (j + 1 - i)).count true : ℚ) ≤
      config.maxTokens + config.refillRate * (z - a) / 1000 := by
  rw [asks_of_checks hdata h] at hallow ⊢
  set ts : List ℚ := l.map fun c => (c.1 : ℚ) with hts
  have htimes : ∀ k : ℕ, ts[k]? = (l.map Prod.fst)[k]?.map (Nat.cast : ℕ → ℚ) := by
    intro k
    simp [hts, Option.map_map]
    rfl
  have ha' : ts[i]? = some (a : ℚ) := by rw [htimes, ha]; rfl
  have hz' : ts[j]? = some (z : ℚ) := by rw [htimes, hz]; rfl
  obtain ⟨hjlt, hjz⟩ := List.getElem?_eq_some_iff.mp hz'
  -- the sequence before the window, the window without its last check, and the rest
  obtain ⟨mid, hmid⟩ : ∃ mid, ts.drop i = mid ++ (z : ℚ) :: ts.drop (j + 1) ∧
      mid.length = j - i := by
    refine ⟨(ts.drop i).take (j - i), ?_, by simp; omega⟩
    have hdrop : (ts.drop i).drop (j - i) = (z : ℚ) :: ts.drop (j + 1) := by
      rw [List.drop_drop, Nat.add_sub_cancel' hij, List.drop_eq_getElem_cons hjlt, hjz]
    rw [← hdrop, List.take_append_drop]
  have hsplit : ts = ts.take i ++ (mid ++ [(z : ℚ)] ++ ts.drop (j + 1)) := by
    conv_lhs => rw [← List.take_append_drop i ts, hmid.1]
    simp
  have hi : (ts.take i).length = i := by
    rw [List.length_take]
    omega
  set b := after config.maxTokens (perMs config) (Throttle.bucketOf data) (ts.take i) with hb
  have hasks : asks config.maxTokens (perMs config) (Throttle.bucketOf data) ts =
      asks config.maxTokens (perMs config) (Throttle.bucketOf data) (ts.take i) ++
        (asks config.maxTokens (perMs config) b (mid ++ [(z : ℚ)]) ++
          asks config.maxTokens (perMs config) (after config.maxTokens (perMs config) b
            (mid ++ [(z : ℚ)])) (ts.drop (j + 1))) := by
    conv_lhs => rw [hsplit]
    rw [TokenBucket.asks_append, TokenBucket.asks_append]
  have hwindow : ((asks config.maxTokens (perMs config) (Throttle.bucketOf data) ts).drop i).take
      (j + 1 - i) = asks config.maxTokens (perMs config) b (mid ++ [(z : ℚ)]) := by
    rw [hasks, List.drop_left' (by simp [hi]), List.take_left' (by simp [hmid.2]; omega)]
  rw [hwindow]
  have hhead : (mid ++ [(z : ℚ)]).head? = some (a : ℚ) := by
    have hfirst : (ts.drop i).head? = some (a : ℚ) := by
      rw [List.head?_drop, ha']
    rw [hmid.1] at hfirst
    cases mid with
    | nil => simpa using hfirst
    | cons x mid => simpa using hfirst
  have hlast : (ask config.maxTokens (perMs config)
      (after config.maxTokens (perMs config) b mid) z).1 = true := by
    rw [hasks, List.getElem?_append_right (by simp [hi, hij])] at hallow
    have hlen : j - (asks config.maxTokens (perMs config) (Throttle.bucketOf data)
        (ts.take i)).length = mid.length := by
      simp [hi, hmid.2]
    rw [hlen, List.getElem?_append_left (by simp), TokenBucket.asks_append,
      List.getElem?_append_right (by simp)] at hallow
    simpa [asks] using hallow
  have hbound := TokenBucket.count_asks_le hhead hlast
  have hrate : config.maxTokens + perMs config * (z - a) =
      config.maxTokens + config.refillRate * (z - a) / 1000 := by
    unfold perMs
    ring
  rwa [← hrate]

/-! ## When to come back -/

/-- **The wait is exact.**  A check that is denied says how long to wait: at least one
millisecond, and of the checks that follow, whichever implementation makes them, those
made earlier are denied and the first one made no earlier is allowed. -/
theorem retryAfter_exact {l : List (ℕ × Variant)} {out : List ((Bool × ℚ) × RateHash)} {m : ℚ}
    (hcap : 1 ≤ config.maxTokens) (hrate : 0 < config.refillRate) (hdata : Left data)
    (hdeny : Check env q config now data v (false, m) data')
    (h : Checks env q config data' l out) :
    1 ≤ m ∧ ∀ k s : ℕ, (l.map Prod.fst)[k]? = some s →
      (∀ i < k, ∀ s' : ℕ, (l.map Prod.fst)[i]? = some s' → (s' : ℚ) < now + m) →
      (out.map (·.1.1))[k]? = some (decide (now + m ≤ (s : ℚ))) := by
  have hleft := left_of_check hdata hdeny
  have heq := check_eq hdata hdeny
  set n := RateLimiter.refilled config now data with hn
  -- the denied check has written its level back
  have hlow : n < 1 := by
    by_contra hhigh
    rw [fallback, if_pos (not_lt.mp hhigh)] at heq
    cases heq
  rw [fallback, if_neg (not_le.mpr hlow)] at heq
  obtain ⟨hanswer, hwritten⟩ := Prod.mk.inj heq
  have hm : m = (⌈(1 - n) / config.refillRate * 1000⌉ : ℤ) := congrArg Prod.snd hanswer
  have hbucket : Throttle.bucketOf data' = some ⟨n, now⟩ := by
    rw [hwritten]
    rfl
  have hdeficit : 0 < (1 - n) / config.refillRate * 1000 := by
    have hpos : 0 < 1 - n := sub_pos.mpr hlow
    positivity
  -- the line has reached one exactly when the wait is over
  have hline : ∀ s : ℕ, 1 ≤ (TokenBucket.Bucket.mk n (now : ℚ)).level (perMs config) s ↔
      now + m ≤ (s : ℚ) := by
    intro s
    have hceil : (1 - n) / config.refillRate * 1000 ≤ (s : ℚ) - now ↔ m ≤ (s : ℚ) - now := by
      have hint : ((s : ℚ) - now) = (((s : ℤ) - now : ℤ) : ℚ) := by push_cast; ring
      rw [hm, hint, Int.cast_le, Int.ceil_le]
    have hscale : (1 - n) / config.refillRate * 1000 ≤ (s : ℚ) - now ↔
        1 ≤ n + ((s : ℚ) - now) * (config.refillRate / 1000) := by
      rw [div_mul_eq_mul_div, div_le_iff₀ hrate]
      constructor <;> intro hle <;> linarith
    rw [TokenBucket.Bucket.level, perMs, ← hscale, hceil]
    constructor <;> intro hle <;> linarith
  constructor
  · rw [hm]
    exact_mod_cast Int.one_le_ceil_iff.mpr hdeficit
  · intro k s hk hbefore
    have htimes : ∀ i : ℕ, (l.map fun c => (c.1 : ℚ))[i]? =
        (l.map Prod.fst)[i]?.map (Nat.cast : ℕ → ℚ) := by
      intro i
      simp [Option.map_map]
      rfl
    rw [asks_of_checks hleft h, hbucket]
    rw [TokenBucket.asks_line (t := (s : ℚ)) hcap (by rw [htimes, hk]; rfl) fun i hi s' hs' => ?_]
    · rw [decide_eq_decide.mpr (hline s)]
    · rw [htimes, Option.map_eq_some_iff] at hs'
      obtain ⟨u, hu, rfl⟩ := hs'
      exact not_le.mp fun hone => not_le.mpr (hbefore i hi u hu) ((hline u).mp hone)

/-! ## One bucket -/

/-- One token, and one more for every second. -/
def slow : RateLimitConfig := { maxTokens := 1, refillRate := 1 }

/-- The two limiters on a new bucket, the script first or the fallback first. -/
theorem limiters_agree_mixed : ∃ out out',
    Checks sample "default" slow {} [(0, .lua), (400, .fallback)] out ∧
      Checks sample "default" slow {} [(0, .fallback), (400, .lua)] out' ∧ out = out' := by
  obtain ⟨out, h⟩ := exists_checks sample "default" slow {} [(0, .lua), (400, .fallback)]
  obtain ⟨out', h'⟩ := exists_checks sample "default" slow {} [(0, .fallback), (400, .lua)]
  exact ⟨out, out', h, h', limiters_agree (show Left {} from rfl) (by decide) h h'⟩

/-- The bound is met: the clock of the second check is behind, and it is denied; the third
one is allowed a second after the first. -/
theorem allowed_le_skewed : ∃ out,
    Checks sample "default" slow {} [(2000, .lua), (500, .lua), (3000, .lua)] out ∧
      ((((out.map (·.1.1)).drop 0).take (2 + 1 - 0)).count true : ℚ) ≤
        1 + 1 * ((3000 : ℕ) - (2000 : ℕ)) / 1000 := by
  have h : Checks sample "default" slow {} [(2000, .lua), (500, .lua), (3000, .lua)] _ :=
    .cons .lua (.cons .lua (.cons .lua .nil))
  refine ⟨_, h, allowed_le (show Left {} from rfl) h (by decide) rfl rfl ?_⟩
  decide +kernel

/-- A token has been taken at time 0.  The check at 200 is denied and has to wait for 800
milliseconds: the next one, at 400, is denied as well, and the one at 1000 is allowed. -/
theorem retryAfter_two_checks : ∃ data' out,
    Check sample "default" slow 200 { tokens := some 0, lastRefill := some 0 } .lua (false, 800)
      data' ∧
      Checks sample "default" slow data' [(400, .fallback), (1000, .lua)] out ∧
      1 ≤ (800 : ℚ) ∧ (out.map (·.1.1))[0]? = some false ∧ (out.map (·.1.1))[1]? = some true := by
  have hdeny : Check sample "default" slow 200 { tokens := some 0, lastRefill := some 0 } .lua
      _ _ := .lua
  have hm : (luaScript slow 200 { tokens := some 0, lastRefill := some 0 }).1 = (false, 800) := by
    decide +kernel
  rw [hm] at hdeny
  obtain ⟨out, h⟩ := exists_checks sample "default" slow
    (luaScript slow 200 { tokens := some 0, lastRefill := some 0 }).2
    [(400, .fallback), (1000, .lua)]
  obtain ⟨hone, hlater⟩ := retryAfter_exact (by decide) (by decide)
    (show Left { tokens := some 0, lastRefill := some 0 } from rfl) hdeny h
  refine ⟨_, out, hdeny, h, hone, ?_, ?_⟩
  · rw [hlater 0 400 rfl fun i hi => by omega]
    decide +kernel
  · rw [hlater 1 1000 rfl fun i hi s' hs' => ?_]
    · decide +kernel
    · -- the check in between comes before the wait is over
      obtain rfl : i = 0 := by omega
      obtain rfl : 400 = s' := Option.some.inj hs'
      norm_num

end Agree

end Limiter

end NexusQueue
