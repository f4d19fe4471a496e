import Poco.Lib.NodeList
import Poco.Lib.Runs
import Mathlib.Logic.Function.Basic

/-! # `Poco::TimedNotificationQueue`

The queue is a `std::multimap` from a clock value to a notification.  A consumer takes the
iterator of the first entry in one critical section, reads through it and sleeps without
the lock, and erases through it in a later critical section.

* A step (`Act`) is one critical section, one use of an iterator outside the lock, one
  clock reading or the return of a wait.  `thread t` says where the thread `t` is; the
  phases name the places of `waitDequeueNotification` and `wait`.  `step t` is the next
  step of a thread that does not wait for the event, `signalled t` and `timeout t` are the
  two outcomes of a `tryWait`; time passes with `advance`.
* `exec` is `none` when a step is not enabled, and also when an iterator would be used that
  designates no entry: the source has no defined behaviour there.
* The documentation of the class allows only one thread at a time to dequeue, and no
  `clear` meanwhile.  `Allowed` is this restriction.  Without it an iterator can dangle
  (`iterator_dangles`), with it every run is safe (`delivers_due_once`).
* `log` records what happened and is read by no step. -/

namespace Poco.Foundation

open Poco.Lib

variable {N : Type}

namespace TimedNotificationQueue

/-- An entry of the multimap: the clock value and the notification, with its ticket. -/
structure Entry (N : Type) where
  clock : ℤ
  pNf : N
  ticket : ℕ
  deriving DecidableEq

/-- Where a thread is; `ms` is the remaining timeout in milliseconds, if there is one. -/
inductive Phase
  /-- Outside the dequeue functions. -/
  | idle
  /-- Before the critical section at the head of the loop. -/
  | top (ms : Option ℤ)
  /-- Before the first use of the iterator of the first entry. -/
  | peeked (it : ℕ) (ms : Option ℤ)
  /-- At the head of the loop of `wait`; `entered` is the clock value read before. -/
  | waitLoop (it : ℕ) (interval : ℤ) (ms : Option ℤ) (entered : ℤ)
  /-- In the `tryWait` of `wait`, since the clock value `since`. -/
  | inWait (it : ℕ) (interval since : ℤ) (ms : Option ℤ) (entered : ℤ)
  /-- Before the critical section `dequeueOne`. -/
  | dequeue (it : ℕ)
  /-- In the `wait` for a first entry, without timeout. -/
  | emptyWait
  /-- Before the test of the remaining timeout. -/
  | tail (ms : ℤ)
  /-- In the `tryWait` with the remaining timeout. -/
  | tailWait (ms since : ℤ)
  deriving DecidableEq

/-- The iterator a thread holds. -/
def Phase.iterator : Phase → Option ℕ
  | .peeked it _ => some it
  | .waitLoop it .. => some it
  | .inWait it .. => some it
  | .dequeue it => some it
  | _ => none

/-- The iterator the next step of a thread dereferences or erases. -/
def Phase.uses : Phase → Option ℕ
  | .peeked it _ => some it
  | .dequeue it => some it
  | _ => none

/-- A notification returned to a consumer: by which thread, when, and whether by
`dequeueNextNotification`, which does not look at the clock. -/
structure Delivery (N : Type) where
  thread : ℕ
  entry : Entry N
  time : ℤ
  regardless : Bool

/-- The record of a run. -/
structure Log (N : Type) where
  enqueued : List (Entry N)
  delivered : List (Delivery N)
  discarded : List (Entry N)

end TimedNotificationQueue

open TimedNotificationQueue in
/-- The data members of the queue, the clock and the threads. -/
structure TimedNotificationQueue (N : Type) where
  _nfQueue : NodeList (Entry N)
  _nfAvailable : Bool
  now : ℤ
  thread : ℕ → Phase
  log : Log N

namespace TimedNotificationQueue

/-- A new queue, at time 0. -/
def init : TimedNotificationQueue N :=
  ⟨.empty, false, 0, fun _ => .idle, ⟨[], [], []⟩⟩

/-! ### Steps -/

/-- A thread goes to another phase. -/
def goto (t : ℕ) (p : Phase) (s : TimedNotificationQueue N) : TimedNotificationQueue N :=
  { s with thread := Function.update s.thread t p }

/-- The critical section of `enqueueNotification`.  The overload for a `Timestamp` computes
the clock value before. -/
def enqueueNotification (pNf : N) (clock : ℤ) (s : TimedNotificationQueue N) :
    TimedNotificationQueue N :=
  let e : Entry N := ⟨clock, pNf, s.log.enqueued.length⟩
  { s with
    _nfQueue := s._nfQueue.insertWhere (fun e' => decide (e'.clock ≤ clock)) e
    _nfAvailable := true
    log := { s.log with enqueued := s.log.enqueued ++ [e] } }

/-- Erase through an iterator and return the notification. -/
def take (t it : ℕ) (e : Entry N) (regardless : Bool) (s : TimedNotificationQueue N) :
    TimedNotificationQueue N :=
  { s with
    _nfQueue := s._nfQueue.erase it
    thread := Function.update s.thread t .idle
    log := { s.log with delivered := s.log.delivered ++ [⟨t, e, s.now, regardless⟩] } }

/-- `dequeueNotification`. -/
def dequeueNotification (t : ℕ) (s : TimedNotificationQueue N) : TimedNotificationQueue N :=
  match s._nfQueue.nodes with
  | [] => s
  | (it, e) :: _ => if e.clock - s.now ≤ 0 then s.take t it e false else s

/-- `dequeueNextNotification`. -/
def dequeueNextNotification (t : ℕ) (s : TimedNotificationQueue N) : TimedNotificationQueue N :=
  match s._nfQueue.nodes with
  | [] => s
  | (it, e) :: _ => s.take t it e true

/-- The head of the loop: `while (true)`, or `while (milliseconds >= 0)`. -/
def loopHead : Option ℤ → Phase
  | none => .top none
  | some ms => if 0 ≤ ms then .top (some ms) else .idle

/-- The milliseconds that remain after a wait since `since`. -/
def remaining (ms since now : ℤ) : ℤ := ms - (now - since + 999) / 1000

/-- The next step of a thread that does not wait for the event. -/
def next (t : ℕ) (s : TimedNotificationQueue N) : Option (TimedNotificationQueue N) :=
  match s.thread t with
  | .top ms =>
      match s._nfQueue.nodes, ms with
      | (it, _) :: _, ms => some (s.goto t (.peeked it ms))
      | [], none => some (s.goto t .emptyWait)
      | [], some ms => some (s.goto t (.tail ms))
  | .peeked it ms =>
      (s._nfQueue.deref it).map fun e =>
        let sleep := e.clock - s.now
        if sleep ≤ 0 then s.goto t (.dequeue it)
        else match ms with
          | none => s.goto t (.waitLoop it sleep none s.now)
          | some m =>
              if sleep ≤ 1000 * m then s.goto t (.waitLoop it sleep (some m) s.now)
              else s.goto t (.tail m)
  | .waitLoop it interval ms entered =>
      if 0 < interval then some (s.goto t (.inWait it interval s.now ms entered))
      else some (s.goto t (.dequeue it))
  | .dequeue it => (s._nfQueue.deref it).map fun e => s.take t it e false
  | .tail ms => if 0 < ms then some (s.goto t (.tailWait ms s.now)) else some (s.goto t .idle)
  | _ => none

/-- A wait for the event returns because the event is set; the event resets itself. -/
def signalled (t : ℕ) (s : TimedNotificationQueue N) : Option (TimedNotificationQueue N) :=
  let s' := { s with _nfAvailable := false }
  match s._nfAvailable, s.thread t with
  | true, .inWait _ _ _ ms entered => some (s'.goto t (loopHead (ms.map (remaining · entered s.now))))
  | true, .emptyWait => some (s'.goto t (.top none))
  | true, .tailWait ms since => some (s'.goto t (loopHead (some (remaining ms since s.now))))
  | _, _ => none

/-- A `tryWait` returns `false`. -/
def timeout (t : ℕ) (s : TimedNotificationQueue N) : Option (TimedNotificationQueue N) :=
  match s.thread t with
  | .inWait it interval since ms entered =>
      some (s.goto t (.waitLoop it (interval - (s.now - since)) ms entered))
  | .tailWait ms since => some (s.goto t (loopHead (some (remaining ms since s.now))))
  | _ => none

/-- `clear`. -/
def clear (s : TimedNotificationQueue N) : TimedNotificationQueue N :=
  { s with
    _nfQueue := s._nfQueue.clear
    log := { s.log with discarded := s.log.discarded ++ s._nfQueue.values } }

/-- The steps of the system; `t` is the thread that makes the step. -/
inductive Act (N : Type)
  | advance (d : ℕ)
  | enqueueNotification (pNf : N) (clock : ℤ)
  | dequeueNotification (t : ℕ)
  | dequeueNextNotification (t : ℕ)
  | waitDequeueNotification (t : ℕ) (ms : Option ℤ)
  | next (t : ℕ)
  | signalled (t : ℕ)
  | timeout (t : ℕ)
  | clear

/-- What a step does, if it is enabled. -/
def exec (s : TimedNotificationQueue N) : Act N → Option (TimedNotificationQueue N)
  | .advance d => some { s with now := s.now + d }
  | .enqueueNotification pNf clock => some (s.enqueueNotification pNf clock)
  | .dequeueNotification t => if s.thread t = .idle then some (s.dequeueNotification t) else none
  | .dequeueNextNotification t =>
      if s.thread t = .idle then some (s.dequeueNextNotification t) else none
  | .waitDequeueNotification t ms =>
      if s.thread t = .idle then some (s.goto t (loopHead ms)) else none
  | .next t => s.next t
  | .signalled t => s.signalled t
  | .timeout t => s.timeout t
  | .clear => some s.clear

/-- The step relation. -/
def Step (s : TimedNotificationQueue N) (a : Act N) (s' : TimedNotificationQueue N) : Prop :=
  s.exec a = some s'

/-- The documented restriction: a thread starts to dequeue, or clears the queue, only while
no thread is inside a dequeue function. -/
def Allowed (s : TimedNotificationQueue N) : Act N → Prop
  | .dequeueNotification _ => ∀ t, s.thread t = .idle
  | .dequeueNextNotification _ => ∀ t, s.thread t = .idle
  | .waitDequeueNotification _ _ => ∀ t, s.thread t = .idle
  | .clear => ∀ t, s.thread t = .idle
  | _ => True

/-! ### The invariant of the allowed runs -/

/-- What the sleep of a thread knows of the clock value of its entry. -/
def Phase.Timely (now clock : ℤ) : Phase → Prop
  | .waitLoop _ interval _ _ => clock ≤ now + interval
  | .inWait _ interval since _ _ => since ≤ now ∧ clock ≤ since + interval
  | .dequeue _ => clock ≤ now
  | _ => True

/-- Every notification enqueued is in exactly one place and none was returned too early; at
most one thread is inside a dequeue function, and its iterator designates an entry. -/
structure Inv (s : TimedNotificationQueue N) : Prop where
  tickets : s.log.enqueued.map Entry.ticket = List.range s.log.enqueued.length
  total : s.log.enqueued.Perm
    (s._nfQueue.values ++ s.log.delivered.map Delivery.entry ++ s.log.discarded)
  timely : ∀ d ∈ s.log.delivered, d.regardless = false → d.entry.clock ≤ d.time
  sole : ∀ t t', s.thread t ≠ .idle → s.thread t' ≠ .idle → t = t'
  holds : ∀ t it, (s.thread t).iterator = some it →
    ∃ e, (it, e) ∈ s._nfQueue.nodes ∧ (s.thread t).Timely s.now e.clock

theorem inv_init : Inv (init : TimedNotificationQueue N) := by
  refine ⟨rfl, List.Perm.refl _, fun d hd => absurd hd List.not_mem_nil, ?_, ?_⟩
  · intro t t' ht
    exact absurd rfl ht
  · intro t it ht
    cases ht

section steps

variable {s : TimedNotificationQueue N}

theorem Inv.others (h : s.Inv) {t : ℕ} (ht : s.thread t ≠ .idle) {t' : ℕ} (hne : t' ≠ t) :
    s.thread t' = .idle := by
  by_contra ht'
  exact hne (h.sole t' t ht' ht)

theorem Inv.nodup (h : s.Inv) : s.log.enqueued.Nodup := by
  apply List.Nodup.of_map Entry.ticket
  rw [h.tickets]
  exact List.nodup_range

/-- A thread goes to another phase while the others are outside. -/
theorem Inv.goto (h : s.Inv) {t : ℕ} {p : Phase} (hidle : ∀ t', t' ≠ t → s.thread t' = .idle)
    (hp : ∀ it, p.iterator = some it →
      ∃ e, (it, e) ∈ s._nfQueue.nodes ∧ p.Timely s.now e.clock) : (s.goto t p).Inv := by
  have hself : ∀ t', Function.update s.thread t p t' ≠ .idle → t' = t := by
    intro t' ht'
    by_contra hne
    rw [Function.update_of_ne hne] at ht'
    exact ht' (hidle t' hne)
  refine ⟨h.tickets, h.total, h.timely, fun t₁ t₂ h₁ h₂ => ?_, fun t' it ht' => ?_⟩
  · rw [hself t₁ h₁, hself t₂ h₂]
  · have htt' : t' = t := by
      apply hself
      intro hidle'
      simp only [TimedNotificationQueue.goto, hidle'] at ht'
      cases ht'
    subst htt'
    simp only [TimedNotificationQueue.goto, Function.update_self] at ht' ⊢
    exact hp it ht'

/-- A thread takes an entry while the others are outside. -/
theorem Inv.take [DecidableEq N] (h : s.Inv) {t it : ℕ} {e : Entry N} {regardless : Bool}
    (hidle : ∀ t', t' ≠ t → s.thread t' = .idle) (hm : (it, e) ∈ s._nfQueue.nodes)
    (he : regardless = false → e.clock ≤ s.now) : (s.take t it e regardless).Inv := by
  have hall : ∀ t', Function.update s.thread t .idle t' = .idle := by
    intro t'
    by_cases hne : t' = t
    · subst hne
      exact Function.update_self ..
    · rw [Function.update_of_ne hne]
      exact hidle t' hne
  refine ⟨h.tickets, ?_, ?_, fun t₁ t₂ h₁ _ => absurd (hall t₁) h₁, fun t' it' ht' => ?_⟩
  · have ht := h.total
    have hq := NodeList.values_erase hm
    rw [List.perm_iff_count] at ht hq ⊢
    intro a
    have h1 := ht a
    have h2 := hq a
    simp only [TimedNotificationQueue.take, List.map_append, List.map_cons, List.map_nil,
      List.count_append, List.count_cons, List.count_nil] at h1 h2 ⊢
    omega
  · intro d hd
    rcases List.mem_append.mp hd with hd | hd
    · exact h.timely d hd
    · rw [List.mem_singleton.mp hd]
      exact he
  · simp only [TimedNotificationQueue.take, hall t'] at ht'
    cases ht'

theorem Inv.enqueueNotification [DecidableEq N] (h : s.Inv) (pNf : N) (clock : ℤ) :
    (s.enqueueNotification pNf clock).Inv := by
  refine ⟨?_, ?_, h.timely, h.sole, fun t it ht => ?_⟩
  · simp only [TimedNotificationQueue.enqueueNotification]
    rw [List.map_append, h.tickets, List.length_append, List.length_singleton, List.range_succ]
    rfl
  · have ht := h.total
    have hq := NodeList.values_insertWhere (fun e' : Entry N => decide (e'.clock ≤ clock))
      ⟨clock, pNf, s.log.enqueued.length⟩ s._nfQueue
    rw [List.perm_iff_count] at ht hq ⊢
    intro a
    have h1 := ht a
    have h2 := hq a
    simp only [TimedNotificationQueue.enqueueNotification, List.count_append, List.count_cons,
      List.count_nil] at h1 h2 ⊢
    omega
  · obtain ⟨e, hm, htime⟩ := h.holds t it ht
    exact ⟨e, NodeList.mem_insertWhere.mpr (Or.inr hm), htime⟩

theorem Inv.advance (h : s.Inv) (d : ℕ) : Inv { s with now := s.now + d } := by
  refine ⟨h.tickets, h.total, h.timely, h.sole, fun t it ht => ?_⟩
  obtain ⟨e, hm, htime⟩ := h.holds t it ht
  refine ⟨e, hm, ?_⟩
  dsimp only
  cases hp : s.thread t with
  | waitLoop it interval ms entered =>
      simp only [hp, Phase.Timely] at htime ⊢
      omega
  | inWait it interval since ms entered =>
      simp only [hp, Phase.Timely] at htime ⊢
      omega
  | dequeue it =>
      simp only [hp, Phase.Timely] at htime ⊢
      omega
  | _ => trivial

/-- A thread that holds no iterator goes to a phase without one. -/
theorem Inv.goto_free (h : s.Inv) {t : ℕ} {p : Phase} (ht : s.thread t ≠ .idle)
    (hp : p.iterator = none) : (s.goto t p).Inv := by
  apply h.goto (fun t' hne => h.others ht hne)
  intro it hit
  rw [hp] at hit
  cases hit

theorem loopHead_iterator (ms : Option ℤ) : (loopHead ms).iterator = none := by
  cases ms with
  | none => rfl
  | some ms =>
      simp only [loopHead]
      split_ifs <;> rfl

/-- The sleep of a thread that uses its iterator: the interval covers the time until the
entry is due. -/
theorem Inv.next [DecidableEq N] (h : s.Inv) {t : ℕ} {s' : TimedNotificationQueue N}
    (hs : s.next t = some s') : s'.Inv := by
  unfold TimedNotificationQueue.next at hs
  split at hs
  · next ms ht =>
      have hne : s.thread t ≠ .idle := by simp [ht]
      split at hs
      · next it e rest hq =>
          obtain rfl := Option.some.inj hs
          apply h.goto (fun t' htt' => h.others hne htt')
          intro it' hit'
          obtain rfl := Option.some.inj hit'
          exact ⟨e, by rw [hq]; exact List.mem_cons_self, trivial⟩
      · obtain rfl := Option.some.inj hs
        exact h.goto_free hne rfl
      · obtain rfl := Option.some.inj hs
        exact h.goto_free hne rfl
  · next it ms ht =>
      have hne : s.thread t ≠ .idle := by simp [ht]
      obtain ⟨e, hd, rfl⟩ := Option.map_eq_some_iff.mp hs
      have hm := NodeList.deref_eq_some.mp hd
      have hgoto : ∀ p : Phase, p.iterator = some it → p.Timely s.now e.clock →
          (s.goto t p).Inv := by
        intro p hp htime
        apply h.goto (fun t' htt' => h.others hne htt')
        intro it' hit'
        rw [hp] at hit'
        obtain rfl := Option.some.inj hit'
        exact ⟨e, hm, htime⟩
      dsimp only
      split_ifs with hle
      · exact hgoto _ rfl (by simp only [Phase.Timely]; omega)
      · split
        · exact hgoto _ rfl (by simp only [Phase.Timely]; omega)
        · split_ifs
          · exact hgoto _ rfl (by simp only [Phase.Timely]; omega)
          · exact h.goto_free hne rfl
  · next it interval ms entered ht =>
      have hne : s.thread t ≠ .idle := by simp [ht]
      obtain ⟨e, hm, htime⟩ := h.holds t it (by rw [ht]; rfl)
      simp only [ht, Phase.Timely] at htime
      split_ifs at hs with hpos
      · obtain rfl := Option.some.inj hs
        apply h.goto (fun t' htt' => h.others hne htt')
        intro it' hit'
        obtain rfl := Option.some.inj hit'
        exact ⟨e, hm, le_rfl, htime⟩
      · obtain rfl := Option.some.inj hs
        apply h.goto (fun t' htt' => h.others hne htt')
        intro it' hit'
        obtain rfl := Option.some.inj hit'
        refine ⟨e, hm, ?_⟩
        simp only [Phase.Timely]
        omega
  · next it ht =>
      have hne : s.thread t ≠ .idle := by simp [ht]
      obtain ⟨e, hd, rfl⟩ := Option.map_eq_some_iff.mp hs
      obtain ⟨e', hm, htime⟩ := h.holds t it (by rw [ht]; rfl)
      obtain rfl := NodeList.eq_of_mem hm (NodeList.deref_eq_some.mp hd)
      simp only [ht, Phase.Timely] at htime
      exact h.take (fun t' htt' => h.others hne htt') hm fun _ => htime
  · next ms ht =>
      have hne : s.thread t ≠ .idle := by simp [ht]
      split_ifs at hs
      · obtain rfl := Option.some.inj hs
        exact h.goto_free hne rfl
      · obtain rfl := Option.some.inj hs
        exact h.goto_free hne rfl
  · cases hs

theorem Inv.signalled (h : s.Inv) {t : ℕ} {s' : TimedNotificationQueue N}
    (hs : s.signalled t = some s') : s'.Inv := by
  have hreset : Inv { s with _nfAvailable := false } :=
    ⟨h.tickets, h.total, h.timely, h.sole, h.holds⟩
  unfold TimedNotificationQueue.signalled at hs
  dsimp only at hs
  split at hs
  · next ht =>
      obtain rfl := Option.some.inj hs
      refine hreset.goto_free (t := t) ?_ (loopHead_iterator _)
      simp [ht]
  · next ht =>
      obtain rfl := Option.some.inj hs
      refine hreset.goto_free (t := t) ?_ rfl
      simp [ht]
  · next ht =>
      obtain rfl := Option.some.inj hs
      refine hreset.goto_free (t := t) ?_ (loopHead_iterator _)
      simp [ht]
  · cases hs

theorem Inv.timeout (h : s.Inv) {t : ℕ} {s' : TimedNotificationQueue N}
    (hs : s.timeout t = some s') : s'.Inv := by
  unfold TimedNotificationQueue.timeout at hs
  split at hs
  · next it interval since ms entered ht =>
      have hne : s.thread t ≠ .idle := by simp [ht]
      obtain rfl := Option.some.inj hs
      obtain ⟨e, hm, htime⟩ := h.holds t it (by rw [ht]; rfl)
      simp only [ht, Phase.Timely] at htime
      apply h.goto (fun t' htt' => h.others hne htt')
      intro it' hit'
      obtain rfl := Option.some.inj hit'
      refine ⟨e, hm, ?_⟩
      simp only [Phase.Timely]
      omega
  · next ms since ht =>
      obtain rfl := Option.some.inj hs
      refine h.goto_free (t := t) ?_ (loopHead_iterator _)
      simp [ht]
  · cases hs

theorem Inv.clear (h : s.Inv) (hidle : ∀ t, s.thread t = .idle) : s.clear.Inv := by
  refine ⟨h.tickets, h.total.trans ?_, h.timely, h.sole, fun t it ht => ?_⟩
  · simp only [TimedNotificationQueue.clear, NodeList.clear, NodeList.values, List.map_nil,
      List.nil_append]
    rw [List.append_assoc]
    apply List.perm_append_comm.trans
    rw [List.append_assoc]
  · simp only [TimedNotificationQueue.clear, hidle t] at ht
    cases ht

theorem Inv.step [DecidableEq N] (h : s.Inv) {a : Act N} {s' : TimedNotificationQueue N}
    (hs : Guarded Allowed Step s a s') : s'.Inv := by
  obtain ⟨hallowed, hs⟩ := hs
  unfold Step at hs
  cases a with
  | advance d =>
      obtain rfl := Option.some.inj hs
      exact h.advance d
  | enqueueNotification pNf clock =>
      obtain rfl := Option.some.inj hs
      exact h.enqueueNotification pNf clock
  | dequeueNotification t =>
      simp only [exec, hallowed t, if_true, Option.some_inj] at hs
      subst hs
      unfold TimedNotificationQueue.dequeueNotification
      split
      · exact h
      · next it e rest hq =>
          split_ifs with hle
          · apply h.take (fun t' _ => hallowed t') (by rw [hq]; exact List.mem_cons_self)
            intro _
            omega
          · exact h
  | dequeueNextNotification t =>
      simp only [exec, hallowed t, if_true, Option.some_inj] at hs
      subst hs
      unfold TimedNotificationQueue.dequeueNextNotification
      split
      · exact h
      · next it e rest hq =>
          apply h.take (fun t' _ => hallowed t') (by rw [hq]; exact List.mem_cons_self)
          intro hf
          cases hf
  | waitDequeueNotification t ms =>
      simp only [exec, hallowed t, if_true, Option.some_inj] at hs
      subst hs
      apply h.goto (fun t' _ => hallowed t')
      intro it hit
      rw [loopHead_iterator] at hit
      cases hit
  | next t => exact h.next hs
  | signalled t => exact h.signalled hs
  | timeout t => exact h.timeout hs
  | clear =>
      obtain rfl := Option.some.inj hs
      exact h.clear hallowed

end steps

/-- **Delivery under the documented restriction.**  In every state of a run in which a
thread enters a dequeue function, or calls `clear`, only while no thread is inside one: each
notification enqueued is in exactly one place (the queue, returned to a consumer, discarded
by `clear`), none was returned before its clock value (`dequeueNextNotification` apart), and
every iterator that a thread is about to use designates an entry of the queue. -/
theorem delivers_due_once [DecidableEq N] {acts : List (Act N)} {s : TimedNotificationQueue N}
    (h : Run (Guarded Allowed Step) init acts s) :
    s.log.enqueued.Nodup ∧
      s.log.enqueued.Perm
        (s._nfQueue.values ++ s.log.delivered.map Delivery.entry ++ s.log.discarded) ∧
      (∀ d ∈ s.log.delivered, d.regardless = false → d.entry.clock ≤ d.time) ∧
      ∀ t it, (s.thread t).uses = some it → (s._nfQueue.deref it).isSome := by
  have hinv : s.Inv := h.invariant (fun _ _ _ hi hs => hi.step hs) inv_init
  refine ⟨hinv.nodup, hinv.total, hinv.timely, fun t it hit => ?_⟩
  have hiter : (s.thread t).iterator = some it := by
    cases hp : s.thread t <;> simp_all [Phase.uses, Phase.iterator]
  obtain ⟨e, hm, -⟩ := hinv.holds t it hiter
  rw [NodeList.deref_eq_some.mpr hm]
  rfl

/-- One consumer sleeps twice until the entry is due. -/
theorem delivers_due_once_small :
    ∃ s : TimedNotificationQueue ℕ,
      s.log.delivered.map (fun d => (d.thread, d.entry.pNf, d.time)) = [(1, 7, 20)] ∧
      ∀ d ∈ s.log.delivered, d.regardless = false → d.entry.clock ≤ d.time :=
  have hrun : Run (Guarded Allowed Step) (init : TimedNotificationQueue ℕ)
      [.enqueueNotification 7 20, .waitDequeueNotification 1 none, .next 1, .next 1, .next 1,
        .advance 15, .timeout 1, .next 1, .advance 5, .timeout 1, .next 1, .next 1] _ :=
    .cons ⟨trivial, rfl⟩ <| .cons ⟨fun _ => rfl, rfl⟩ <| .cons ⟨trivial, rfl⟩ <|
    .cons ⟨trivial, rfl⟩ <| .cons ⟨trivial, rfl⟩ <| .cons ⟨trivial, rfl⟩ <|
    .cons ⟨trivial, rfl⟩ <| .cons ⟨trivial, rfl⟩ <| .cons ⟨trivial, rfl⟩ <|
    .cons ⟨trivial, rfl⟩ <| .cons ⟨trivial, rfl⟩ <| .cons ⟨trivial, rfl⟩ <| .refl _
  ⟨_, by rfl, (delivers_due_once hrun).2.2.1⟩

/-- Without the restriction an iterator can dangle.  Two consumers take the iterator of the
same entry, due at time 0; after the first has erased it, the second is about to use it.  Or
`clear` is called between the two critical sections of one consumer. -/
theorem iterator_dangles :
    (∃ (s : TimedNotificationQueue ℕ) (it : ℕ),
      Run Step init [.enqueueNotification 7 0, .waitDequeueNotification 1 none,
        .waitDequeueNotification 2 none, .next 1, .next 2, .next 1, .next 2, .next 1] s ∧
      (s.thread 2).uses = some it ∧ (s._nfQueue.deref it).isSome = false) ∧
    ∃ (s : TimedNotificationQueue ℕ) (it : ℕ),
      Run Step init [.enqueueNotification 7 0, .waitDequeueNotification 1 none, .next 1,
        .clear] s ∧
      (s.thread 1).uses = some it ∧ (s._nfQueue.deref it).isSome = false := by
  constructor
  · let acts : List (Act ℕ) := [.enqueueNotification 7 0, .waitDequeueNotification 1 none,
      .waitDequeueNotification 2 none, .next 1, .next 2, .next 1, .next 2, .next 1]
    let s := (acts.foldlM exec init).get (by rfl)
    exact ⟨s, 0, Run.of_foldlM (Option.some_get _).symm, by rfl, by rfl⟩
  · let acts : List (Act ℕ) := [.enqueueNotification 7 0, .waitDequeueNotification 1 none,
      .next 1, .clear]
    let s := (acts.foldlM exec init).get (by rfl)
    exact ⟨s, 0, Run.of_foldlM (Option.some_get _).symm, by rfl, by rfl⟩

end TimedNotificationQueue

end Poco.Foundation
