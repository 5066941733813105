/-
# Refining a simpler system

A pool may be looked at through a relation to the states of a simpler system.  It refines
the system if whatever it is related to makes at most one step when the pool does.  Then
every run of the pool is a run of the system.

* `Machine.Refines` and its run lemma `Machine.Refines.run`;
* `Discipline.Sound.fires`: in a pool of a sound discipline, what a command does to the
  store and to the total of what is held and counted;
* boards: things that are in one of several places each, of which one moves at a time,
  along the legs of a graph; every thing then walks along the graph (`Board.walk`), and
  it stays where no leg leaves (`Board.final`).
-/
import NexusQueue.Discipline

namespace Machine

variable {S T C : Type} {R : C → Type} {E A O D : Type} {B : Type}
variable {M : Machine S T C R E A O D} {ok : Config S T C R E A → Choice T O D → Prop}
  {init : Config S T C R E A → Prop} {c c' : Config S T C R E A}

/-- What is reachable from a reachable pool is reachable. -/
theorem Reach.trans (hc : M.Reach ok init c) (h : M.Reach ok (· = c) c') : M.Reach ok init c' := by
  induction h with
  | init hi => exact hi ▸ hc
  | step ch _ hok hs ih => exact .step ch ih hok hs

/-- When the pool makes a step, what it is related to makes at most one. -/
def Refines (M : Machine S T C R E A O D) (ok : Config S T C R E A → Choice T O D → Prop)
    (init : Config S T C R E A → Prop) (rel : Config S T C R E A → B → Prop)
    (step : B → B → Prop) : Prop :=
  ∀ c ch c' a, M.Reach ok init c → ok c ch → M.step c ch = some c' → rel c a →
    ∃ a', Relation.ReflGen step a a' ∧ rel c' a'

/-- **Run lemma.**  Every run of the pool is a run of the system it refines. -/
theorem Refines.run {rel : Config S T C R E A → B → Prop} {step : B → B → Prop}
    (h : M.Refines ok init rel step) (hc : M.Reach ok init c) {a : B} (ha : rel c a)
    (hc' : M.Reach ok (· = c) c') : ∃ a', Relation.ReflTransGen step a a' ∧ rel c' a' := by
  induction hc' with
  | init hi => exact ⟨a, .refl, hi ▸ ha⟩
  | step ch hprev hok hs ih =>
      obtain ⟨b, hab, hb⟩ := ih
      obtain ⟨a', hba, ha'⟩ := h _ ch _ b (hc.trans hprev) hok hs hb
      exact ⟨a', hab.trans hba.to_reflTransGen, ha'⟩

end Machine

/-! ## One command of a pool -/

namespace Discipline

variable {S T C : Type} {R : C → Type} {E A O D L G : Type} [AddCommMonoid G]
variable {M : Machine S T C R E A O D} {P : Protocol T C R E L} {Δ : Discipline M P G}
  {ok : Config S T C R E A → Choice T O D → Prop} {c c' : Config S T C R E A}

/-- A command of a pool fires, and the total changes by what the process holds before and
after, what the command counts for, and what the tasks it starts hold. -/
theorem Sound.fires (h : Δ.Sound ok) (hc : Δ.PoolOk c) {i : ℕ} {o : O} (hok : ok c (.call i o))
    (hs : M.step c (.call i o) = some c') :
    ∃ t l cmd r F, Δ.Fires c.store t l cmd o r c'.store F ∧ Δ.total c.pool = Δ.val t l + F ∧
      Δ.total c'.pool =
        Δ.val t (P.next t l cmd r) + (Δ.emit t l cmd r + Δ.starts (M.forks t cmd r) + F) := by
  obtain ⟨p, cmd, k, r, s', hp, -, hprog, hex, rfl⟩ := Machine.step_call hs
  obtain ⟨hgood, hloc, hfol⟩ := hc.2 p (List.mem_of_getElem? hp)
  rw [hprog] at hfol
  obtain ⟨F, hF, hset, -⟩ := exists_sum_set Δ.gauge hp
  have htotal : Δ.total c.pool = Δ.val p.task (P.phase p.task p.hist) +
      (P.tally Δ.emit p.task p.hist + F) := by
    rw [total, hF, gauge, add_assoc]
  have hinv := hc.1
  have hallow := h.allows c i o p cmd k hok hc hp hprog
  rw [htotal] at hinv hallow
  refine ⟨p.task, P.phase p.task p.hist, cmd, r, P.tally Δ.emit p.task p.hist + F,
    ⟨hgood, hinv, hloc, hfol.1, hallow, hex⟩, htotal, ?_⟩
  rw [total_append, total_spawn, total, hset, gauge_resume]
  abel

end Discipline

/-! ## Boards -/

namespace Board

variable {J P : Type} [DecidableEq J] {leg : Option P → P → Prop} {a a' : J → Option P}

/-- One thing moves along a leg, all others stay. -/
inductive Step (leg : Option P → P → Prop) : (J → Option P) → (J → Option P) → Prop
  | move (a : J → Option P) (j : J) (p : P) (h : leg (a j) p) :
      Step leg a (Function.update a j (some p))

/-- A walk along the legs. -/
def Walk (leg : Option P → P → Prop) : Option P → Option P → Prop :=
  Relation.ReflTransGen fun x y => ∃ p, y = some p ∧ leg x p

/-- In every run every thing walks along the legs. -/
theorem walk (h : Relation.ReflTransGen (Step leg) a a') (j : J) : Walk leg (a j) (a' j) := by
  induction h with
  | refl => exact .refl
  | tail _ hstep ih =>
      cases hstep with
      | move j' p hleg =>
          by_cases hj : j = j'
          · subst hj
            refine ih.tail ⟨p, ?_, hleg⟩
            rw [Function.update_self]
          · rwa [Function.update_of_ne hj]

/-- A walk does not leave a place that no leg leaves. -/
theorem walk_final {p : P} (hfinal : ∀ p', ¬ leg (some p) p') {x : Option P}
    (h : Walk leg (some p) x) : x = some p := by
  induction h with
  | refl => rfl
  | tail _ hleg ih =>
      obtain ⟨p', -, hleg⟩ := hleg
      rw [ih] at hleg
      exact absurd hleg (hfinal p')

/-- A thing stays in a place that no leg leaves. -/
theorem final {p : P} (hfinal : ∀ p', ¬ leg (some p) p')
    (h : Relation.ReflTransGen (Step leg) a a') {j : J} (hj : a j = some p) : a' j = some p := by
  have hwalk := walk h j
  rw [hj] at hwalk
  exact walk_final hfinal hwalk

end Board
