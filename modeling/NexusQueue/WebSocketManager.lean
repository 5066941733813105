/-
# The connection of the dashboard (`dashboard/src/ws.ts`)

One `WebSocketManager` serves all components of the page.  It opens a socket when a
component subscribes; when the socket closes it sets a timer for the next attempt, and each
further failure doubles the delay, up to half a minute.

Sockets and timers belong to the browser, which may deliver their events in any order.  As
long as nobody calls `disconnect`, and no component does, the page never has two
connections, and after a failure an attempt is always pending (`one_connection`); the delays
double from one opening to the next (`delays_double`).
-/
import Mathlib.Data.List.Nodup
import Mathlib.Data.List.Range
import Mathlib.Tactic.Ring

namespace NexusQueue

namespace Dashboard

/-! ## The page -/

/-- The `readyState` of a socket.  A socket is closed once its `close` event has fired. -/
inductive ReadyState where
  | connecting
  | opened
  | closing
  | closed
  deriving DecidableEq

/-- A `Set` of listeners, in order of insertion. -/
structure Listeners (L : Type) where
  elems : List L := []
  nodup : elems.Nodup := by simp

/-- The fields of the manager.  Sockets are numbered in the order of their creation. -/
structure WebSocketManager (L : Type) where
  ws : Option ℕ := none
  listeners : Listeners L := {}
  reconnectDelay : ℕ := 1000
  shouldReconnect : Bool := true

/-- The manager, and what the browser keeps for it: the sockets, the delays of the timers
that are pending, the calls of listeners so far, and the delays of all timers so far. -/
structure Page (L ε : Type) where
  manager : WebSocketManager L := {}
  sockets : List ReadyState := []
  timers : List ℕ := []
  calls : List (L × ε) := []
  delays : List ℕ := []

def maxReconnectDelay : ℕ := 30000

variable {L ε : Type} {p p' : Page L ε}

/-- `listeners.add`. -/
def Listeners.add [DecidableEq L] (s : Listeners L) (l : L) : Listeners L :=
  if h : l ∈ s.elems then s
  else ⟨s.elems ++ [l], List.nodup_append.mpr ⟨s.nodup, List.nodup_singleton l, by
    rintro a ha b hb rfl
    exact h (List.mem_singleton.mp hb ▸ ha)⟩⟩

/-- `listeners.delete`. -/
def Listeners.delete [DecidableEq L] (s : Listeners L) (l : L) : Listeners L :=
  ⟨s.elems.erase l, s.nodup.erase l⟩

theorem Listeners.mem_add [DecidableEq L] (s : Listeners L) (l l' : L) :
    l ∈ (s.add l').elems ↔ l ∈ s.elems ∨ l = l' := by
  unfold Listeners.add
  split
  · rename_i h
    constructor
    · exact Or.inl
    · rintro (hl | rfl)
      · exact hl
      · exact h
  · rw [List.mem_append, List.mem_singleton]

theorem Listeners.mem_delete [DecidableEq L] (s : Listeners L) (l l' : L) :
    l ∈ (s.delete l').elems ↔ l ∈ s.elems ∧ l' ≠ l := by
  show l ∈ s.elems.erase l' ↔ _
  rw [s.nodup.mem_erase_iff, and_comm, ne_comm]

namespace Page

/-- What `onclose` does, and the `catch` of `connect` as well: forget the socket and set a
timer. -/
def onclose (p : Page L ε) : Page L ε :=
  if p.manager.shouldReconnect then
    { p with
      manager :=
        { p.manager with
          ws := none
          reconnectDelay := min (p.manager.reconnectDelay * 2) maxReconnectDelay }
      timers := p.timers ++ [p.manager.reconnectDelay]
      delays := p.delays ++ [p.manager.reconnectDelay] }
  else { p with manager := { p.manager with ws := none } }

/-- `connect`.  The constructor of the socket may throw. -/
def connect (p : Page L ε) (constructs : Bool) : Page L ε :=
  match p.manager.ws with
  | some _ => p
  | none =>
      if constructs then
        { p with
          manager :=
            { p.manager with shouldReconnect := true, ws := some p.sockets.length }
          sockets := p.sockets ++ [.connecting] }
      else onclose { p with manager := { p.manager with shouldReconnect := true } }

/-- `close` of a socket.  Its `close` event comes later. -/
def close (p : Page L ε) (i : ℕ) : Page L ε :=
  { p with sockets := p.sockets.modify i fun r => if r = .closed then .closed else .closing }

/-- `this.ws?.close()` -/
def closeCurrent (p : Page L ε) : Page L ε := p.manager.ws.elim p p.close

/-- `disconnect`. -/
def disconnect (p : Page L ε) : Page L ε :=
  let p := closeCurrent { p with manager := { p.manager with shouldReconnect := false } }
  { p with manager := { p.manager with ws := none } }

/-- `subscribe`. -/
def subscribe [DecidableEq L] (p : Page L ε) (l : L) (constructs : Bool) : Page L ε :=
  let p := { p with manager := { p.manager with listeners := p.manager.listeners.add l } }
  if p.manager.ws.isNone then p.connect constructs else p

/-- What `subscribe` returns. -/
def unsubscribe [DecidableEq L] (p : Page L ε) (l : L) : Page L ε :=
  { p with manager := { p.manager with listeners := p.manager.listeners.delete l } }

/-- `onopen`. -/
def onopen (p : Page L ε) : Page L ε :=
  { p with manager := { p.manager with reconnectDelay := 1000 } }

/-- The listeners that `forEach` calls: one that throws is the last one. -/
def called (throws : L → ε → Bool) (e : ε) : List L → List L
  | [] => []
  | l :: ls => if throws l e then [l] else l :: called throws e ls

/-- `onmessage`.  Malformed data is ignored. -/
def onmessage (throws : L → ε → Bool) (p : Page L ε) : Option ε → Page L ε
  | none => p
  | some e =>
      { p with calls :=
          p.calls ++ (called throws e p.manager.listeners.elems).map fun l => (l, e) }

end Page

/-! ## What happens to it -/

/-- Calls of the components, and events of the browser.  Data that is not JSON is `none`; a
connection that fails fires `error` and `close` one right after the other. -/
inductive PageEvent (L ε : Type) where
  | subscribe (l : L) (constructs : Bool)
  | unsubscribe (l : L)
  | disconnect
  | opened (i : ℕ)
  | message (i : ℕ) (data : Option ε)
  | closed (i : ℕ) (failed : Bool)
  | timeout (k : ℕ) (constructs : Bool)

/-- One event; `none` if the browser does not fire it in this state. -/
def Page.step [DecidableEq L] (throws : L → ε → Bool) (p : Page L ε) :
    PageEvent L ε → Option (Page L ε)
  | .subscribe l constructs => some (p.subscribe l constructs)
  | .unsubscribe l => some (p.unsubscribe l)
  | .disconnect => some p.disconnect
  | .opened i =>
      if p.sockets[i]? = some .connecting then
        some (onopen { p with sockets := p.sockets.set i .opened })
      else none
  | .message i data =>
      if p.sockets[i]? = some .opened then some (p.onmessage throws data) else none
  | .closed i failed =>
      if i < p.sockets.length ∧ p.sockets[i]? ≠ some .closed then
        let p := { p with sockets := p.sockets.set i .closed }
        -- `onerror` closes the current socket, whichever has failed
        some (if failed then p.closeCurrent.onclose else p.onclose)
      else none
  | .timeout k constructs =>
      if k < p.timers.length then
        some ({ p with timers := p.timers.eraseIdx k }.connect constructs)
      else none

/-- The events, one after the other. -/
def Page.run [DecidableEq L] (throws : L → ε → Bool) (p : Page L ε) :
    List (PageEvent L ε) → Option (Page L ε)
  | [] => some p
  | e :: es => (p.step throws e).bind fun p => p.run throws es

/-! ## The delays -/

namespace Page

variable {throws : L → ε → Bool}

/-- After this many failures in a row. -/
def delayAfter (d k : ℕ) : ℕ := min (d * 2 ^ k) maxReconnectDelay

/-- Since some moment, when the delay was `d`, the connection has been lost `n` times. -/
structure Backoff (d : ℕ) (before : List ℕ) (n : ℕ) (p : Page L ε) : Prop where
  delay : p.manager.reconnectDelay = delayAfter d n
  delays : p.delays = before ++ (List.range n).map (delayAfter d)

/-- Only a lost connection changes the delay. -/
theorem Backoff.same {d n : ℕ} {before : List ℕ} (h : Backoff d before n p)
    (hdelay : p'.manager.reconnectDelay = p.manager.reconnectDelay)
    (hdelays : p'.delays = p.delays) : Backoff d before n p' :=
  ⟨hdelay.trans h.delay, hdelays.trans h.delays⟩

/-- Doubling the delay once more. -/
theorem delayAfter_succ (d n : ℕ) :
    min (delayAfter d n * 2) maxReconnectDelay = delayAfter d (n + 1) := by
  have hpow : d * 2 ^ (n + 1) = d * 2 ^ n * 2 := by
    rw [pow_succ, mul_assoc]
  unfold delayAfter
  rw [hpow]
  omega

/-- A lost connection is one more failure, unless the page has disconnected. -/
theorem Backoff.onclose {d n : ℕ} {before : List ℕ} (h : Backoff d before n p) :
    ∃ m, Backoff d before m p.onclose := by
  unfold Page.onclose
  split
  · refine ⟨n + 1, ?_, ?_⟩
    · show min (p.manager.reconnectDelay * 2) maxReconnectDelay = _
      rw [h.delay, delayAfter_succ]
    · show p.delays ++ [p.manager.reconnectDelay] = _
      rw [h.delays, h.delay, List.range_succ, List.map_append, List.append_assoc]
      rfl
  · exact ⟨n, h.same rfl rfl⟩

theorem Backoff.connect {d n : ℕ} {before : List ℕ} (h : Backoff d before n p) (b : Bool) :
    ∃ m, Backoff d before m (p.connect b) := by
  unfold Page.connect
  split
  · exact ⟨n, h⟩
  · split
    · exact ⟨n, h.same rfl rfl⟩
    · have hon : Backoff d before n
          { p with manager := { p.manager with shouldReconnect := true } } := h.same rfl rfl
      exact hon.onclose

theorem Backoff.closeCurrent {d n : ℕ} {before : List ℕ} (h : Backoff d before n p) :
    Backoff d before n p.closeCurrent := by
  unfold Page.closeCurrent
  cases p.manager.ws with
  | none => exact h
  | some i => exact h.same rfl rfl

/-- **Step lemma.**  An event other than an opening only adds failures. -/
theorem Backoff.step [DecidableEq L] {d n : ℕ} {before : List ℕ} {e : PageEvent L ε}
    (h : Backoff d before n p) (hopen : ∀ i, e ≠ .opened i) (hs : p.step throws e = some p') :
    ∃ m, Backoff d before m p' := by
  cases e with
  | subscribe l b =>
      cases hs
      have hadd : Backoff d before n
          { p with manager := { p.manager with listeners := p.manager.listeners.add l } } :=
        h.same rfl rfl
      unfold Page.subscribe
      dsimp only
      split
      · exact hadd.connect b
      · exact ⟨n, hadd⟩
  | unsubscribe l =>
      cases hs
      exact ⟨n, h.same rfl rfl⟩
  | disconnect =>
      cases hs
      have hoff : Backoff d before n
          { p with manager := { p.manager with shouldReconnect := false } } := h.same rfl rfl
      exact ⟨n, hoff.closeCurrent.same rfl rfl⟩
  | opened i => exact absurd rfl (hopen i)
  | message i data =>
      obtain ⟨-, hs⟩ := Option.ite_none_right_eq_some.mp hs
      cases hs
      cases data with
      | none => exact ⟨n, h⟩
      | some e => exact ⟨n, h.same rfl rfl⟩
  | closed i failed =>
      obtain ⟨-, hs⟩ := Option.ite_none_right_eq_some.mp hs
      cases hs
      have hset : Backoff d before n { p with sockets := p.sockets.set i .closed } :=
        h.same rfl rfl
      cases failed with
      | false => exact hset.onclose
      | true => exact hset.closeCurrent.onclose
  | timeout k b =>
      obtain ⟨-, hs⟩ := Option.ite_none_right_eq_some.mp hs
      cases hs
      have htimer : Backoff d before n { p with timers := p.timers.eraseIdx k } := h.same rfl rfl
      exact htimer.connect b

/-- **Run lemma.** -/
theorem Backoff.run [DecidableEq L] {d n : ℕ} {before : List ℕ} {es : List (PageEvent L ε)}
    (h : Backoff d before n p) (hopen : ∀ i, .opened i ∉ es) (hs : p.run throws es = some p') :
    ∃ m, Backoff d before m p' := by
  induction es generalizing p n with
  | nil =>
      cases hs
      exact ⟨n, h⟩
  | cons e es ih =>
      obtain ⟨p₁, hp₁, hrest⟩ := Option.bind_eq_some_iff.mp hs
      obtain ⟨m, hm⟩ := h.step (fun i hi => hopen i (hi ▸ List.mem_cons_self)) hp₁
      exact ih hm (fun i hi => hopen i (List.mem_cons_of_mem _ hi)) hrest

/-- A run is a run of its first events, and then of the others. -/
theorem run_append [DecidableEq L] {es es' : List (PageEvent L ε)} :
    p.run throws (es ++ es') = (p.run throws es).bind fun p => p.run throws es' := by
  induction es generalizing p with
  | nil => rfl
  | cons e es ih =>
      show (p.step throws e).bind _ = ((p.step throws e).bind _).bind _
      rw [Option.bind_assoc]
      congr 1
      funext p₁
      exact ih

/-- **The delays double from one opening to the next**: the `k`-th failure in a row sets a
timer of `1000 * 2 ^ k` milliseconds, but of half a minute at most. -/
theorem delays_double [DecidableEq L] {es es' : List (PageEvent L ε)}
    (hp : ({} : Page L ε).run throws es = some p)
    (hfresh : es = [] ∨ ∃ es₀ i, es = es₀ ++ [.opened i]) (hopen : ∀ i, .opened i ∉ es')
    (hp' : p.run throws es' = some p') :
    ∃ n, p'.delays = p.delays ++ (List.range n).map fun k => min (1000 * 2 ^ k) 30000 := by
  have hdelay : p.manager.reconnectDelay = 1000 := by
    rcases hfresh with rfl | ⟨es₀, i, rfl⟩
    · cases hp
      rfl
    · rw [run_append] at hp
      obtain ⟨p₁, -, hlast⟩ := Option.bind_eq_some_iff.mp hp
      obtain ⟨p₂, hp₂, hnil⟩ := Option.bind_eq_some_iff.mp hlast
      obtain ⟨-, hopened⟩ := Option.ite_none_right_eq_some.mp hp₂
      cases hopened
      cases hnil
      rfl
  have hstart : Backoff 1000 p.delays 0 p := ⟨by rw [hdelay]; rfl, by simp⟩
  obtain ⟨n, hn⟩ := hstart.run hopen hp'
  exact ⟨n, hn.delays⟩

/-- Two failures in a row. -/
theorem delays_double_twice : ∃ p, ({} : Page ℕ ℕ).run (fun _ _ => false)
    [.subscribe 7 false, .timeout 0 false] = some p ∧
      ∃ n, p.delays = [] ++ (List.range n).map fun k => min (1000 * 2 ^ k) 30000 := by
  obtain ⟨p, hp⟩ : ∃ p, ({} : Page ℕ ℕ).run (fun _ _ => false)
      [.subscribe 7 false, .timeout 0 false] = some p := ⟨_, rfl⟩
  exact ⟨p, hp, delays_double rfl (Or.inl rfl) (by simp) hp⟩

/-! ## The connection -/

/-- The `i`-th socket has not been closed. -/
def Live (p : Page L ε) (i : ℕ) : Prop := ∃ r, p.sockets[i]? = some r ∧ r ≠ .closed

/-- After `n` subscriptions: the socket of the manager is the only one, and without one there
is a timer. -/
structure Single (n : ℕ) (p : Page L ε) : Prop where
  reconnects : p.manager.shouldReconnect = true
  live : ∀ i, p.Live i ↔ p.manager.ws = some i
  attempts : p.timers.length + (if p.manager.ws.isSome then 1 else 0) ≤ n
  pending : 0 < n → p.manager.ws = none → p.timers ≠ []

/-- The last socket has been closed. -/
theorem single_onclose {n : ℕ} (hon : p.manager.shouldReconnect = true) (hdead : ∀ i, ¬ p.Live i)
    (htimers : p.timers.length < n) : Single n p.onclose := by
  have hlost : p.onclose = { p with
      manager :=
        { p.manager with
          ws := none
          reconnectDelay := min (p.manager.reconnectDelay * 2) maxReconnectDelay }
      timers := p.timers ++ [p.manager.reconnectDelay]
      delays := p.delays ++ [p.manager.reconnectDelay] } := by
    unfold Page.onclose
    rw [if_pos hon]
  rw [hlost]
  refine ⟨hon, fun i => ⟨fun hi => absurd hi (hdead i), fun hi => by cases hi⟩, ?_, ?_⟩
  · show (p.timers ++ [p.manager.reconnectDelay]).length + 0 ≤ n
    rw [List.length_append, List.length_singleton]
    omega
  · intro _ _
    show p.timers ++ [p.manager.reconnectDelay] ≠ []
    simp

/-- A connection is made when there is none. -/
theorem single_connect {n : ℕ} (hnone : p.manager.ws = none) (hdead : ∀ i, ¬ p.Live i)
    (htimers : p.timers.length < n) (b : Bool) : Single n (p.connect b) := by
  unfold Page.connect
  rw [hnone]
  dsimp only
  cases b with
  | false =>
      have hon : Single n (onclose
          { p with manager := { p.manager with shouldReconnect := true, ws := none } }) :=
        single_onclose rfl hdead htimers
      exact hon
  | true =>
      refine ⟨rfl, fun i => ?_, ?_, fun _ hws => by cases hws⟩
      · show (∃ r, (p.sockets ++ [ReadyState.connecting])[i]? = some r ∧ r ≠ .closed) ↔
          some p.sockets.length = some i
        rw [Option.some_inj, eq_comm]
        constructor
        · rintro ⟨r, hr, hne⟩
          by_contra hi
          have hlt : i < p.sockets.length := by
            obtain ⟨hlt, -⟩ := List.getElem?_eq_some_iff.mp hr
            rw [List.length_append, List.length_singleton] at hlt
            omega
          rw [List.getElem?_append_left hlt] at hr
          exact hdead i ⟨r, hr, hne⟩
        · rintro rfl
          exact ⟨.connecting, List.getElem?_concat_length, by decide⟩
      · exact htimers

variable {n : ℕ}

/-- Without a socket, every socket has been closed. -/
theorem Single.dead (h : Single n p) (hnone : p.manager.ws = none) (i : ℕ) : ¬ p.Live i := by
  rw [h.live, hnone]
  simp

/-- What neither the sockets nor the timers depend on may change. -/
theorem Single.same (h : Single n p) (hws : p'.manager.ws = p.manager.ws)
    (hon : p'.manager.shouldReconnect = p.manager.shouldReconnect)
    (hsockets : p'.sockets = p.sockets) (htimers : p'.timers = p.timers) : Single n p' := by
  refine ⟨hon.trans h.reconnects, fun i => ?_, ?_, fun hn hnone => ?_⟩
  · rw [hws, ← h.live, Live, Live, hsockets]
  · rw [hws, htimers]
    exact h.attempts
  · rw [htimers]
    exact h.pending hn (hws.symm.trans hnone)

/-- Somebody subscribes. -/
theorem Single.subscribe [DecidableEq L] (h : Single n p) (l : L) (b : Bool) :
    Single (n + 1) (p.subscribe l b) := by
  let p₁ : Page L ε :=
    { p with manager := { p.manager with listeners := p.manager.listeners.add l } }
  have h₁ : Single n p₁ := h.same rfl rfl rfl rfl
  have hattempts := h₁.attempts
  show Single (n + 1) (if p₁.manager.ws.isNone then p₁.connect b else p₁)
  split
  · rename_i hnone
    have hws : p₁.manager.ws = none := Option.isNone_iff_eq_none.mp hnone
    refine single_connect hws (h₁.dead hws) ?_ b
    omega
  · rename_i hsome
    refine ⟨h₁.reconnects, h₁.live, hattempts.trans (Nat.le_succ n), fun _ hws => ?_⟩
    exact absurd (Option.isNone_iff_eq_none.mpr hws) hsome

/-- A timer fires. -/
theorem Single.timeout (h : Single n p) {k : ℕ} (hk : k < p.timers.length) (b : Bool) :
    Single n ({ p with timers := p.timers.eraseIdx k }.connect b) := by
  have hlength : (p.timers.eraseIdx k).length = p.timers.length - 1 :=
    List.length_eraseIdx_of_lt hk
  have hattempts := h.attempts
  let p₁ : Page L ε := { p with timers := p.timers.eraseIdx k }
  show Single n (p₁.connect b)
  cases hws : p.manager.ws with
  | none =>
      have hdead : ∀ i, ¬ p₁.Live i := h.dead hws
      have hnone : p₁.manager.ws = none := hws
      refine single_connect hnone hdead ?_ b
      show (p.timers.eraseIdx k).length < n
      omega
  | some i =>
      have hstay : p₁.connect b = p₁ := by
        show Page.connect { p with timers := p.timers.eraseIdx k } b = _
        unfold Page.connect
        dsimp only
        rw [hws]
      rw [hstay]
      refine ⟨h.reconnects, h.live, ?_, fun _ hnone => ?_⟩
      · show (p.timers.eraseIdx k).length + (if p.manager.ws.isSome then 1 else 0) ≤ n
        omega
      · cases hws.symm.trans hnone

/-- A socket opens. -/
theorem Single.opened (h : Single n p) {i : ℕ} (hi : p.sockets[i]? = some .connecting) :
    Single n (onopen { p with sockets := p.sockets.set i .opened }) := by
  refine ⟨h.reconnects, fun j => ?_, h.attempts, h.pending⟩
  refine Iff.trans ?_ (h.live j)
  show (∃ r, (p.sockets.set i .opened)[j]? = some r ∧ r ≠ .closed) ↔ p.Live j
  by_cases hj : i = j
  · subst hj
    obtain ⟨hlt, -⟩ := List.getElem?_eq_some_iff.mp hi
    rw [List.getElem?_set_self hlt]
    exact iff_of_true ⟨_, rfl, by decide⟩ ⟨_, hi, by decide⟩
  · rw [List.getElem?_set_ne hj]
    rfl

/-- `close` does not fire the `close` event. -/
theorem live_closeCurrent (p : Page L ε) (j : ℕ) : p.closeCurrent.Live j ↔ p.Live j := by
  unfold closeCurrent
  cases p.manager.ws with
  | none => rfl
  | some i =>
      show (∃ r, (p.sockets.modify i _)[j]? = some r ∧ r ≠ .closed) ↔ _
      rw [List.getElem?_modify]
      unfold Live
      cases p.sockets[j]? with
      | none => simp
      | some r => cases r <;> by_cases hij : i = j <;> simp [hij]

/-- The manager keeps its fields but for the socket. -/
theorem closeCurrent_frame (p : Page L ε) :
    p.closeCurrent.manager = p.manager ∧ p.closeCurrent.timers = p.timers := by
  unfold closeCurrent
  cases p.manager.ws with
  | none => exact ⟨rfl, rfl⟩
  | some i => exact ⟨rfl, rfl⟩

/-- A socket closes. -/
theorem Single.closed (h : Single n p) {i : ℕ} (hlt : i < p.sockets.length)
    (hi : p.sockets[i]? ≠ some .closed) (failed : Bool) :
    Single n (if failed then
        { p with sockets := p.sockets.set i .closed }.closeCurrent.onclose
      else { p with sockets := p.sockets.set i .closed }.onclose) := by
  let p₁ : Page L ε := { p with sockets := p.sockets.set i .closed }
  have hws : p.manager.ws = some i := by
    rw [← h.live]
    refine ⟨p.sockets[i], List.getElem?_eq_getElem hlt, fun hclosed => hi ?_⟩
    rw [List.getElem?_eq_getElem hlt, hclosed]
  have htimers : p.timers.length < n := by
    have hattempts := h.attempts
    rw [hws] at hattempts
    exact hattempts
  have hdead : ∀ j, ¬ p₁.Live j := by
    rintro j ⟨r, hr, hne⟩
    change (p.sockets.set i .closed)[j]? = some r at hr
    by_cases hj : i = j
    · subst hj
      rw [List.getElem?_set_self hlt] at hr
      exact hne (Option.some.inj hr).symm
    · rw [List.getElem?_set_ne hj] at hr
      have hcur := (h.live j).mp ⟨r, hr, hne⟩
      rw [hws] at hcur
      exact hj (Option.some.inj hcur)
  show Single n (if failed then p₁.closeCurrent.onclose else p₁.onclose)
  obtain ⟨hmanager, hkept⟩ := closeCurrent_frame p₁
  split
  · -- the current socket is the one that has failed, so `close` finds it closed
    refine single_onclose ?_ (fun j hj => hdead j ((live_closeCurrent p₁ j).mp hj)) ?_
    · rw [hmanager]
      exact h.reconnects
    · rw [hkept]
      exact htimers
  · have hon : p₁.manager.shouldReconnect = true := h.reconnects
    exact single_onclose hon hdead htimers

/-- How often somebody has subscribed. -/
def subscriptions : List (PageEvent L ε) → ℕ
  | [] => 0
  | .subscribe _ _ :: es => subscriptions es + 1
  | _ :: es => subscriptions es

/-- **Run lemma.** -/
theorem Single.run [DecidableEq L] {es : List (PageEvent L ε)} (h : Single n p)
    (hstay : .disconnect ∉ es) (hs : p.run throws es = some p') :
    Single (n + subscriptions es) p' := by
  induction es generalizing p n with
  | nil =>
      cases hs
      exact h
  | cons e es ih =>
      obtain ⟨p₁, hp₁, hrest⟩ := Option.bind_eq_some_iff.mp hs
      have hstay' : .disconnect ∉ es := fun hd => hstay (List.mem_cons_of_mem _ hd)
      cases e with
      | subscribe l b =>
          cases hp₁
          have hrun := ih (h.subscribe l b) hstay' hrest
          rwa [Nat.add_right_comm] at hrun
      | unsubscribe l =>
          cases hp₁
          have hless : Single n (p.unsubscribe l) := h.same rfl rfl rfl rfl
          exact ih hless hstay' hrest
      | disconnect => exact absurd List.mem_cons_self hstay
      | opened i =>
          obtain ⟨hi, hp₁⟩ := Option.ite_none_right_eq_some.mp hp₁
          cases hp₁
          exact ih (h.opened hi) hstay' hrest
      | message i data =>
          obtain ⟨-, hp₁⟩ := Option.ite_none_right_eq_some.mp hp₁
          cases hp₁
          cases data with
          | none => exact ih h hstay' hrest
          | some e =>
              have hcalled : Single n (p.onmessage throws (some e)) := h.same rfl rfl rfl rfl
              exact ih hcalled hstay' hrest
      | closed i failed =>
          obtain ⟨⟨hlt, hi⟩, hp₁⟩ := Option.ite_none_right_eq_some.mp hp₁
          cases hp₁
          exact ih (h.closed hlt hi failed) hstay' hrest
      | timeout k b =>
          obtain ⟨hk, hp₁⟩ := Option.ite_none_right_eq_some.mp hp₁
          cases hp₁
          exact ih (h.timeout hk b) hstay' hrest

/-- **The page has one connection at most, and never gives up**: without `disconnect`, the
socket of the manager is the only one that has not been closed, while there is none a timer
is pending, and there are no more timers than subscriptions. -/
theorem one_connection [DecidableEq L] {es : List (PageEvent L ε)} (hstay : .disconnect ∉ es)
    (hp : ({} : Page L ε).run throws es = some p) :
    (∀ i, p.Live i ↔ p.manager.ws = some i) ∧
      (0 < subscriptions es → p.manager.ws = none → p.timers ≠ []) ∧
      p.timers.length + (if p.manager.ws.isSome then 1 else 0) ≤ subscriptions es := by
  have hstart : Single 0 ({} : Page L ε) := by
    refine ⟨rfl, fun i => ⟨?_, fun hi => by cases hi⟩, le_rfl, fun h => absurd h (lt_irrefl 0)⟩
    rintro ⟨r, hr, -⟩
    cases hr
  have hend := hstart.run hstay hp
  rw [Nat.zero_add] at hend
  exact ⟨hend.live, hend.pending, hend.attempts⟩

/-- A connection that fails, and the attempt after it. -/
def failing : List (PageEvent ℕ ℕ) := [.subscribe 7 true, .closed 0 true, .timeout 0 true]

theorem one_connection_failing : ∃ p, ({} : Page ℕ ℕ).run (fun _ _ => false) failing = some p ∧
    p.Live 1 ∧ ¬ p.Live 0 := by
  obtain ⟨p, hp, hws⟩ : ∃ p, ({} : Page ℕ ℕ).run (fun _ _ => false) failing = some p ∧
      p.manager.ws = some 1 := ⟨_, rfl, rfl⟩
  obtain ⟨hlive, -⟩ := one_connection (by simp [failing]) hp
  refine ⟨p, hp, (hlive 1).mpr hws, fun hdead => ?_⟩
  cases hws.symm.trans ((hlive 0).mp hdead)

/-- With `disconnect` there may be two: the old socket closes after the new one has been made,
and the manager forgets the new one. -/
example : (({} : Page ℕ ℕ).run (fun _ _ => false) [.subscribe 7 true, .opened 0, .disconnect,
    .subscribe 8 true, .closed 0 false, .timeout 0 true]).map Page.sockets =
      some [.closed, .connecting, .connecting] := by decide

/-! ## The messages -/

/-- The messages that arrive while `l` is subscribed. -/
def heard [DecidableEq L] (l : L) : Bool → List (PageEvent L ε) → List ε
  | _, [] => []
  | on, .subscribe l' _ :: es => heard l (on || l = l') es
  | on, .unsubscribe l' :: es => heard l (on && l' ≠ l) es
  | on, .message _ (some e) :: es => (if on then [e] else []) ++ heard l on es
  | on, _ :: es => heard l on es

/-- What a listener has been called with. -/
def callsOf [DecidableEq L] (p : Page L ε) (l : L) : List ε :=
  (p.calls.filter (·.1 = l)).map Prod.snd

/-- The connection is no business of the listeners. -/
theorem connect_frame (p : Page L ε) (b : Bool) :
    (p.connect b).manager.listeners = p.manager.listeners ∧ (p.connect b).calls = p.calls := by
  unfold Page.connect
  split
  · exact ⟨rfl, rfl⟩
  · split
    · exact ⟨rfl, rfl⟩
    · unfold Page.onclose
      split <;> exact ⟨rfl, rfl⟩

theorem onclose_frame (p : Page L ε) :
    p.onclose.manager.listeners = p.manager.listeners ∧ p.onclose.calls = p.calls := by
  unfold Page.onclose
  split <;> exact ⟨rfl, rfl⟩

theorem closeCurrent_calls (p : Page L ε) : p.closeCurrent.calls = p.calls := by
  unfold closeCurrent
  cases p.manager.ws with
  | none => rfl
  | some i => rfl

theorem closed_frame (p : Page L ε) (failed : Bool) :
    (if failed then p.closeCurrent.onclose else p.onclose).manager.listeners =
        p.manager.listeners ∧
      (if failed then p.closeCurrent.onclose else p.onclose).calls = p.calls := by
  cases failed with
  | false => exact onclose_frame p
  | true =>
      obtain ⟨hset, hcalls⟩ := onclose_frame p.closeCurrent
      rw [(closeCurrent_frame p).1] at hset
      exact ⟨hset, hcalls.trans (closeCurrent_calls p)⟩

theorem subscribe_frame [DecidableEq L] (p : Page L ε) (l : L) (b : Bool) :
    (p.subscribe l b).manager.listeners = p.manager.listeners.add l ∧
      (p.subscribe l b).calls = p.calls := by
  unfold Page.subscribe
  dsimp only
  split
  · exact connect_frame _ b
  · exact ⟨rfl, rfl⟩

/-- If no listener throws, all are called. -/
theorem called_all (hthrows : ∀ l e, throws l e = false) (e : ε) (ls : List L) :
    called throws e ls = ls := by
  induction ls with
  | nil => rfl
  | cons l ls ih =>
      show (if throws l e then [l] else l :: called throws e ls) = l :: ls
      rw [hthrows, if_neg Bool.false_ne_true, ih]

/-- A message reaches every listener once. -/
theorem callsOf_onmessage [DecidableEq L] (hthrows : ∀ l e, throws l e = false) (p : Page L ε)
    (e : ε) (l : L) :
    (p.onmessage throws (some e)).callsOf l =
      p.callsOf l ++ if l ∈ p.manager.listeners.elems then [e] else [] := by
  have hone : ((p.manager.listeners.elems.map fun l => (l, e)).filter (·.1 = l)).map Prod.snd =
      if l ∈ p.manager.listeners.elems then [e] else [] := by
    rw [List.filter_map, List.map_map]
    show (p.manager.listeners.elems.filter fun l' => l' = l).map (fun _ => e) = _
    rw [List.map_const', ← List.countP_eq_length_filter]
    show List.replicate (p.manager.listeners.elems.count l) e = _
    rw [p.manager.listeners.nodup.count]
    split <;> rfl
  show ((p.calls ++ _).filter _).map Prod.snd = _
  rw [called_all hthrows, List.filter_append, List.map_append, hone]
  rfl

/-- **Run lemma.**  A listener is called once for each message that arrives while it is
subscribed. -/
theorem callsOf_run [DecidableEq L] (hthrows : ∀ l e, throws l e = false)
    {es : List (PageEvent L ε)} (l : L) (hs : p.run throws es = some p') :
    p'.callsOf l = p.callsOf l ++ heard l (l ∈ p.manager.listeners.elems) es := by
  induction es generalizing p with
  | nil =>
      cases hs
      exact (List.append_nil _).symm
  | cons e es ih =>
      obtain ⟨p₁, hp₁, hrest⟩ := Option.bind_eq_some_iff.mp hs
      rw [ih hrest]
      -- nothing but a message calls, and nothing but the components changes the set
      have hquiet : p₁.manager.listeners = p.manager.listeners → p₁.calls = p.calls →
          p₁.callsOf l ++ heard l (l ∈ p₁.manager.listeners.elems) es =
            p.callsOf l ++ heard l (l ∈ p.manager.listeners.elems) es := by
        intro hset hcalls
        rw [callsOf, callsOf, hset, hcalls]
      cases e with
      | subscribe l' b =>
          cases hp₁
          obtain ⟨hset, hcalls⟩ := subscribe_frame p l' b
          rw [callsOf, callsOf, hset, hcalls]
          rw [decide_eq_decide.mpr (Listeners.mem_add p.manager.listeners l l'), Bool.decide_or]
          rfl
      | unsubscribe l' =>
          cases hp₁
          show _ ++ heard l (decide (l ∈ (p.manager.listeners.delete l').elems)) es = _
          rw [decide_eq_decide.mpr (Listeners.mem_delete p.manager.listeners l l'), Bool.decide_and]
          rfl
      | disconnect =>
          cases hp₁
          have hframe := closeCurrent_frame
            { p with manager := { p.manager with shouldReconnect := false } }
          refine hquiet ?_ (closeCurrent_calls _)
          show (closeCurrent _).manager.listeners = _
          rw [hframe.1]
      | opened i =>
          obtain ⟨-, hp₁⟩ := Option.ite_none_right_eq_some.mp hp₁
          cases hp₁
          exact hquiet rfl rfl
      | message i data =>
          obtain ⟨-, hp₁⟩ := Option.ite_none_right_eq_some.mp hp₁
          cases hp₁
          cases data with
          | none => rfl
          | some e =>
              rw [callsOf_onmessage hthrows, List.append_assoc]
              show _ ++ (_ ++ heard l (l ∈ p.manager.listeners.elems) es) =
                _ ++ ((if decide (l ∈ p.manager.listeners.elems) then [e] else []) ++ _)
              simp only [decide_eq_true_eq]
      | closed i failed =>
          obtain ⟨-, hp₁⟩ := Option.ite_none_right_eq_some.mp hp₁
          cases hp₁
          obtain ⟨hset, hcalls⟩ := closed_frame { p with sockets := p.sockets.set i .closed } failed
          exact hquiet hset hcalls
      | timeout k b =>
          obtain ⟨-, hp₁⟩ := Option.ite_none_right_eq_some.mp hp₁
          cases hp₁
          exact hquiet (connect_frame _ b).1 (connect_frame _ b).2

/-- What the listener of `JobTable` does to the events it shows. -/
def receive (prev : List ε) (event : ε) : List ε := (event :: prev).take 100

/-- It keeps the last hundred. -/
theorem foldl_receive (es : List ε) : es.foldl receive [] = es.reverse.take 100 := by
  induction es using List.reverseRecOn with
  | nil => rfl
  | append_singleton es e ih =>
      rw [List.foldl_append, ih, List.reverse_append]
      show (e :: es.reverse.take 100).take 100 = (e :: es.reverse).take 100
      rw [List.take_succ_cons, List.take_succ_cons, List.take_take]
      rfl

/-- **The live table**: whatever the connection goes through, a listener has been called
exactly once, in order, for each message that has arrived while it was subscribed, so the
table shows the last hundred of them, newest first. -/
theorem live_table [DecidableEq L] {es : List (PageEvent L ε)} (l : L)
    (hthrows : ∀ l e, throws l e = false) (hp : ({} : Page L ε).run throws es = some p) :
    p.callsOf l = heard l false es ∧
      (p.callsOf l).foldl receive [] = (heard l false es).reverse.take 100 := by
  have hcalls : p.callsOf l = heard l false es := by
    rw [callsOf_run hthrows l hp]
    rfl
  refine ⟨hcalls, ?_⟩
  rw [hcalls, foldl_receive]

/-- A table that is mounted twice, and a message that is no JSON. -/
def mounted : List (PageEvent ℕ ℕ) :=
  [.subscribe 7 true, .subscribe 7 true, .opened 0, .message 0 (some 1), .message 0 none,
    .message 0 (some 2)]

theorem live_table_mounted : ∃ p, ({} : Page ℕ ℕ).run (fun _ _ => false) mounted = some p ∧
    p.callsOf 7 = [1, 2] ∧ (p.callsOf 7).foldl receive [] = [2, 1] := by
  obtain ⟨p, hp⟩ : ∃ p, ({} : Page ℕ ℕ).run (fun _ _ => false) mounted = some p := ⟨_, rfl⟩
  exact ⟨p, hp, live_table 7 (fun _ _ => rfl) hp⟩

end Page

end Dashboard

end NexusQueue
