/-
# Journals

A machine that writes down what happens: the events of all processes, oldest first, are kept
beside the store.  Nothing else changes, so every run has a journal (`Reach.journaled`), and
what is proved about the journals of all runs is proved about all runs.
-/
import NexusQueue.Pool

variable {S T C : Type} {R : C → Type} {E A O D : Type}

namespace Machine

/-- The machine with a journal. -/
def journal (M : Machine S T C R E A O D) : Machine (S × List (Event C R E)) T C R E A O D where
  body := M.body
  exec s t c o := (M.exec s.1 t c o).map fun rs => (rs.1, rs.2, s.2 ++ [⟨c, rs.1⟩])
  forks := M.forks
  drift s d := (M.drift s.1 d).map fun s' => (s', s.2)

variable {M : Machine S T C R E A O D}

/-- A command is executed and written down. -/
theorem journal_exec {s s' : S × List (Event C R E)} {t : T} {c : C} {o : O} {r : Except E (R c)}
    (h : M.journal.exec s t c o = some (r, s')) :
    M.exec s.1 t c o = some (r, s'.1) ∧ s'.2 = s.2 ++ [⟨c, r⟩] := by
  obtain ⟨⟨r', s₁⟩, hex, heq⟩ := Option.map_eq_some_iff.mp h
  cases heq
  exact ⟨hex, rfl⟩

/-- The environment writes nothing down. -/
theorem journal_drift {s s' : S × List (Event C R E)} {d : D}
    (h : M.journal.drift s d = some s') : M.drift s.1 d = some s'.1 ∧ s'.2 = s.2 := by
  obtain ⟨s₁, hd, rfl⟩ := Option.map_eq_some_iff.mp h
  exact ⟨hd, rfl⟩

end Machine

/-- A pool without its journal. -/
def Config.unjournaled (c : Config (S × List (Event C R E)) T C R E A) : Config S T C R E A where
  store := c.store.1
  pool := c.pool

namespace Machine

variable {M : Machine S T C R E A O D}

/-- What a machine can do it can do with a journal. -/
theorem step_journal {c c' : Config S T C R E A} {ch : Choice T O D}
    (h : M.step c ch = some c') (j : List (Event C R E)) :
    ∃ d, M.journal.step ⟨(c.store, j), c.pool⟩ ch = some d ∧ d.unjournaled = c' := by
  cases ch with
  | start t =>
      cases h
      exact ⟨_, rfl, rfl⟩
  | call i o =>
      obtain ⟨p, cmd, k, r, s, hp, hrun, hprog, hex, rfl⟩ := step_call h
      refine ⟨⟨(s, j ++ [⟨cmd, r⟩]), _⟩, ?_, rfl⟩
      simp only [step, hp, hrun, hprog]
      have hexec : M.journal.exec (c.store, j) p.task cmd o = some (r, s, j ++ [⟨cmd, r⟩]) := by
        show (M.exec c.store p.task cmd o).map _ = _
        rw [hex]
        rfl
      rw [hexec]
      rfl
  | halt i =>
      obtain ⟨p, hp, rfl⟩ := step_halt h
      refine ⟨⟨(c.store, j), _⟩, ?_, rfl⟩
      simp only [step, hp]
  | drift d =>
      obtain ⟨s, hd, rfl⟩ := step_drift h
      refine ⟨⟨(s, j), c.pool⟩, ?_, rfl⟩
      show ((M.drift c.store d).map fun s' => (s', j)).map _ = _
      rw [hd]
      rfl

/-- **Every run has a journal.** -/
theorem Reach.journaled {ok : Config S T C R E A → Choice T O D → Prop}
    {init : Config S T C R E A → Prop} {c : Config S T C R E A} (hc : M.Reach ok init c) :
    ∃ d, M.journal.Reach (fun d ch => ok d.unjournaled ch)
      (fun d => init d.unjournaled ∧ d.store.2 = []) d ∧ d.unjournaled = c := by
  induction hc with
  | @init c hi => exact ⟨⟨(c.store, []), c.pool⟩, .init ⟨hi, rfl⟩, rfl⟩
  | step ch _ hok hs ih =>
      obtain ⟨d, hd, rfl⟩ := ih
      obtain ⟨d', hstep, rfl⟩ := step_journal hs d.store.2
      exact ⟨d', .step ch hd hok hstep, rfl⟩

end Machine
