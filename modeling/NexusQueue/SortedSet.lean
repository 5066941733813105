/-
# Sorted sets

Members with scores, each member at most once, kept in order of score and, at
equal scores, of member.  Both facts are fields, so every value is a sorted set.

* `score?`, `zadd`, `zrem`, `rangeByScore`: lookup, insertion (which moves a
  member that is already there), removal and range;
* `score?_zadd`, `score?_zrem`, `mem_rangeByScore`, `pairwise_rangeByScore`:
  everything a client can observe, in terms of `score?`.
-/
import Mathlib.Tactic
import Mathlib.Data.List.Sort

namespace SortedSet

variable {α β : Type} [LinearOrder α] [LinearOrder β]

/-- The order of the entries: score first, then member. -/
def Before (a b : α × β) : Prop := a.2 < b.2 ∨ a.2 = b.2 ∧ a.1 ≤ b.1

instance : DecidableRel (Before : α × β → α × β → Prop) := fun a b =>
  inferInstanceAs (Decidable (a.2 < b.2 ∨ a.2 = b.2 ∧ a.1 ≤ b.1))

instance : Std.Total (Before : α × β → α × β → Prop) where
  total a b := by
    rcases lt_trichotomy a.2 b.2 with h | h | h
    · exact Or.inl (Or.inl h)
    · rcases le_total a.1 b.1 with h' | h'
      · exact Or.inl (Or.inr ⟨h, h'⟩)
      · exact Or.inr (Or.inr ⟨h.symm, h'⟩)
    · exact Or.inr (Or.inl h)

instance : IsTrans (α × β) Before where
  trans a b c hab hbc := by
    rcases hab with hab | ⟨hab, hab'⟩ <;> rcases hbc with hbc | ⟨hbc, hbc'⟩
    · exact Or.inl (hab.trans hbc)
    · exact Or.inl (hbc ▸ hab)
    · exact Or.inl (hab ▸ hbc)
    · exact Or.inr ⟨hab.trans hbc, hab'.trans hbc'⟩

end SortedSet

/-- A sorted set with members `α` and scores `β`. -/
structure SortedSet (α β : Type) [LinearOrder α] [LinearOrder β] where
  entries : List (α × β)
  nodup : (entries.map Prod.fst).Nodup
  sorted : entries.Pairwise SortedSet.Before

namespace SortedSet

variable {α β : Type} [LinearOrder α] [LinearOrder β]

/-- The sorted set without members. -/
def empty : SortedSet α β := ⟨[], by simp, by simp⟩

instance : EmptyCollection (SortedSet α β) := ⟨empty⟩

instance : Inhabited (SortedSet α β) := ⟨empty⟩

/-- The score of a member. -/
def score? (z : SortedSet α β) (m : α) : Option β :=
  (z.entries.find? fun e => e.1 = m).map Prod.snd

/-- `m` is a member. -/
instance : Membership α (SortedSet α β) := ⟨fun z m => ∃ s, z.score? m = some s⟩

/-- Remove a member. -/
def zrem (z : SortedSet α β) (m : α) : SortedSet α β where
  entries := z.entries.filter fun e => e.1 ≠ m
  nodup := z.nodup.sublist (List.filter_sublist.map _)
  sorted := z.sorted.filter _

/-- Add a member, or give it a new score. -/
def zadd (z : SortedSet α β) (s : β) (m : α) : SortedSet α β where
  entries := (z.zrem m).entries.orderedInsert Before (m, s)
  nodup := by
    have hperm := (List.perm_orderedInsert Before (m, s) (z.zrem m).entries).map Prod.fst
    rw [hperm.nodup_iff, List.map_cons, List.nodup_cons]
    refine ⟨?_, (z.zrem m).nodup⟩
    simp [zrem]
  sorted := List.Pairwise.orderedInsert _ _ (z.zrem m).sorted

/-- The members whose score is at most `max`, in order; all of them when there
is no bound. -/
def rangeByScore (z : SortedSet α β) (max : Option β) : List α :=
  (z.entries.filter fun e => max.elim true fun b => decide (e.2 ≤ b)).map Prod.fst

/-- A score is the score of an entry. -/
theorem score?_eq_some_iff (z : SortedSet α β) (m : α) (s : β) :
    z.score? m = some s ↔ (m, s) ∈ z.entries := by
  constructor
  · intro h
    obtain ⟨e, he, rfl⟩ := Option.map_eq_some_iff.mp h
    have hm : e.1 = m := by simpa using List.find?_some he
    subst hm
    exact List.mem_of_find?_eq_some he
  · intro h
    have hsome : (z.entries.find? fun e => e.1 = m).isSome := by
      rw [List.find?_isSome]
      exact ⟨_, h, by simp⟩
    obtain ⟨e, he⟩ := Option.isSome_iff_exists.mp hsome
    have hm : e.1 = m := by simpa using List.find?_some he
    have heq : e = (m, s) :=
      List.inj_on_of_nodup_map z.nodup (List.mem_of_find?_eq_some he) h hm
    rw [score?, he, heq]
    rfl

@[simp] theorem score?_empty (m : α) : (∅ : SortedSet α β).score? m = none := rfl

instance (z : SortedSet α β) (m : α) : Decidable (m ∈ z) :=
  decidable_of_iff (z.score? m).isSome Option.isSome_iff_exists

theorem mem_iff (z : SortedSet α β) (m : α) : m ∈ z ↔ ∃ s, z.score? m = some s := Iff.rfl

@[simp] theorem not_mem_empty (m : α) : m ∉ (∅ : SortedSet α β) := by
  rintro ⟨s, hs⟩
  cases hs

/-- After a removal the member is gone and all others keep their scores. -/
@[simp] theorem score?_zrem (z : SortedSet α β) (m x : α) :
    (z.zrem m).score? x = if x = m then none else z.score? x := by
  ext s
  rw [score?_eq_some_iff]
  by_cases h : x = m
  · simp [zrem, h]
  · simp [zrem, h, score?_eq_some_iff]

/-- After an insertion the member has the new score and all others keep
theirs. -/
@[simp] theorem score?_zadd (z : SortedSet α β) (s : β) (m x : α) :
    (z.zadd s m).score? x = if x = m then some s else z.score? x := by
  ext t
  rw [score?_eq_some_iff]
  simp only [zadd, List.mem_orderedInsert]
  by_cases h : x = m
  · subst h
    simp [zrem, eq_comm]
  · simp [zrem, h, score?_eq_some_iff]

/-- The range is what has a score within the bound. -/
theorem mem_rangeByScore (z : SortedSet α β) (max : Option β) (m : α) :
    m ∈ z.rangeByScore max ↔ ∃ s, z.score? m = some s ∧ ∀ b, max = some b → s ≤ b := by
  simp only [rangeByScore, List.mem_map, List.mem_filter, score?_eq_some_iff]
  constructor
  · rintro ⟨e, ⟨he, hb⟩, rfl⟩
    refine ⟨e.2, he, fun b hmax => ?_⟩
    subst hmax
    simpa using hb
  · rintro ⟨s, hs, hb⟩
    refine ⟨(m, s), ⟨hs, ?_⟩, rfl⟩
    cases max with
    | none => rfl
    | some b => simpa using hb b rfl

/-- A range lists a member once. -/
theorem nodup_rangeByScore (z : SortedSet α β) (max : Option β) : (z.rangeByScore max).Nodup :=
  z.nodup.sublist (List.filter_sublist.map _)

/-- A range is in order of the scores. -/
theorem pairwise_rangeByScore (z : SortedSet α β) (max : Option β) :
    (z.rangeByScore max).Pairwise fun m m' =>
      ∀ s s', z.score? m = some s → z.score? m' = some s' → s ≤ s' := by
  have hscore : ∀ e ∈ z.entries, ∀ s, z.score? e.1 = some s → s = e.2 := by
    intro e he s hs
    rw [(score?_eq_some_iff z e.1 e.2).mpr he] at hs
    exact (Option.some.inj hs).symm
  unfold rangeByScore
  refine List.pairwise_map.mpr ((z.sorted.filter _).imp_of_mem ?_)
  intro e e' he he' hbefore s s' hs hs'
  rw [hscore e (List.mem_of_mem_filter he) s hs, hscore e' (List.mem_of_mem_filter he') s' hs']
  rcases hbefore with hlt | ⟨heq, -⟩
  · exact hlt.le
  · exact heq.le

@[simp] theorem mem_zrem (z : SortedSet α β) (m x : α) :
    x ∈ z.zrem m ↔ x ≠ m ∧ x ∈ z := by
  rw [mem_iff, mem_iff]
  by_cases h : x = m <;> simp [h]

@[simp] theorem mem_zadd (z : SortedSet α β) (s : β) (m x : α) :
    x ∈ z.zadd s m ↔ x = m ∨ x ∈ z := by
  rw [mem_iff, mem_iff]
  by_cases h : x = m <;> simp [h]

/-- Removing what is not there changes nothing. -/
theorem zrem_of_not_mem {z : SortedSet α β} {m : α} (h : m ∉ z) : z.zrem m = z := by
  have hent : (z.zrem m).entries = z.entries := by
    refine List.filter_eq_self.mpr fun e he => ?_
    simp only [decide_not, Bool.not_eq_true', decide_eq_false_iff_not]
    rintro rfl
    exact h ⟨e.2, (score?_eq_some_iff z e.1 e.2).mpr he⟩
  cases z
  simpa [zrem] using hent

end SortedSet
