import Poco.Lib.NodeList
import Poco.Lib.Runs
import Mathlib.Logic.Function.Basic

/-! # `Poco::NotificationQueue`

Any number of threads share a queue.  A consumer that finds it empty allocates a
`WaitInfo`, registers it in `_waitQueue` and waits for its event outside the lock; a
producer hands a notification directly to the first registered `WaitInfo`.

* A step (`Act`) is one critical section of one of the functions, or one of the two
  outcomes of a wait.  `timeout` is a `tryWait` that returns `false`: it may do so at any
  moment, also when the event has been signalled meanwhile.  `exec` says what a step does
  and `none` when it is not enabled.
* The `WaitInfo`s on the heap are nodes (`Poco.Lib.NodeList`); a pointer is an identifier.
* `log` records what happened and is read by no step: every notification gets a `ticket`
  when it is enqueued, so that the same object enqueued twice counts twice. -/

namespace Poco.Foundation

open Poco.Lib

variable {N : Type}

namespace NotificationQueue

/-- A notification in the queue: a pointer, and when and how it was enqueued. -/
structure Entry (N : Type) where
  ticket : ℕ
  pNf : N
  urgent : Bool
  deriving DecidableEq

/-- `NotificationQueue::WaitInfo`: the notification handed over and whether the event is set. -/
structure WaitInfo (N : Type) where
  pNf : Option (Entry N)
  nfAvailable : Bool

/-- Where a thread is: outside, waiting for its event (with a timeout or not), or past the
timeout and about to take the lock again. -/
inductive Phase
  | idle
  | waiting (pWI : ℕ) (timed : Bool)
  | timedOut (pWI : ℕ)
  deriving DecidableEq

/-- The `WaitInfo` a thread holds. -/
def Phase.pWI : Phase → Option ℕ
  | .idle => none
  | .waiting pWI _ => some pWI
  | .timedOut pWI => some pWI

/-- The record of a run. -/
structure Log (N : Type) where
  /-- All notifications enqueued, in order. -/
  enqueued : List (Entry N)
  /-- Notifications that left the queue for a consumer, in the order they left. -/
  left : List (Entry N)
  /-- Notifications returned to a consumer, with the thread. -/
  delivered : List (ℕ × Entry N)
  /-- Notifications dropped by `clear` and `remove`. -/
  discarded : List (Entry N)

end NotificationQueue

open NotificationQueue in
/-- The data members of the queue, the `WaitInfo`s on the heap, and the threads. -/
structure NotificationQueue (N : Type) where
  _nfQueue : List (Entry N)
  _waitQueue : List ℕ
  _wokeUp : Bool
  heap : NodeList (WaitInfo N)
  thread : ℕ → Phase
  log : Log N

namespace NotificationQueue

/-- A new queue. -/
def init : NotificationQueue N :=
  ⟨[], [], false, .empty, fun _ => .idle, ⟨[], [], [], []⟩⟩

/-- The notifications handed over to the `WaitInfo`s on a heap. -/
def heldIn (heap : NodeList (WaitInfo N)) : List (Entry N) := heap.values.filterMap WaitInfo.pNf

/-- The notifications handed over and not yet returned. -/
def held (s : NotificationQueue N) : List (Entry N) := heldIn s.heap

/-! ### Critical sections -/

/-- The critical section of `enqueueNotification` (at the back) and of
`enqueueUrgentNotification` (at the front). -/
def enqueue (urgent : Bool) (pNf : N) (s : NotificationQueue N) : NotificationQueue N :=
  let e : Entry N := ⟨s.log.enqueued.length, pNf, urgent⟩
  let log := { s.log with enqueued := s.log.enqueued ++ [e] }
  match s._waitQueue with
  | [] =>
      { s with
        _wokeUp := false
        _nfQueue := if urgent then e :: s._nfQueue else s._nfQueue ++ [e]
        log := log }
  | pWI :: rest =>
      { s with
        _wokeUp := false
        _waitQueue := rest
        heap := s.heap.modify pWI fun _ => ⟨some e, true⟩
        log := { log with left := log.left ++ [e] } }

/-- A thread returns from a dequeue function. -/
def giveBack (t : ℕ) (pNf : Option (Entry N)) (s : NotificationQueue N) : NotificationQueue N :=
  { s with
    thread := Function.update s.thread t .idle
    log := { s.log with delivered := s.log.delivered ++ (pNf.map (t, ·)).toList } }

/-- `dequeueOne` and the return of its result. -/
def dequeueOne (t : ℕ) (s : NotificationQueue N) : NotificationQueue N :=
  match s._nfQueue with
  | [] => s.giveBack t none
  | e :: rest =>
      giveBack t (some e)
        { s with _nfQueue := rest, log := { s.log with left := s.log.left ++ [e] } }

/-- The first critical section of `waitDequeueNotification`. -/
def waitDequeue (t : ℕ) (timed : Bool) (s : NotificationQueue N) : NotificationQueue N :=
  if s._nfQueue ≠ [] then s.dequeueOne t
  else if s._wokeUp then s.giveBack t none
  else
    { s with
      heap := s.heap.pushFront ⟨none, false⟩
      _waitQueue := s._waitQueue ++ [s.heap.next]
      thread := Function.update s.thread t (.waiting s.heap.next timed) }

/-- What a thread does with its `WaitInfo` at the end: take the notification, `delete`. -/
def takeAndDelete (t pWI : ℕ) (s : NotificationQueue N) : Option (NotificationQueue N) :=
  (s.heap.deref pWI).map fun info =>
    giveBack t info.pNf { s with heap := s.heap.erase pWI }

/-- `wakeUpAll`. -/
def wakeUpAll (s : NotificationQueue N) : NotificationQueue N :=
  { s with
    _wokeUp := true
    _waitQueue := []
    heap := s._waitQueue.foldl
      (fun heap pWI => heap.modify pWI fun info => { info with nfAvailable := true }) s.heap }

/-- `clear`. -/
def clear (s : NotificationQueue N) : NotificationQueue N :=
  { s with
    _nfQueue := []
    log := { s.log with discarded := s.log.discarded ++ s._nfQueue } }

/-- `remove`: the first entry with this pointer. -/
def remove [DecidableEq N] (pNf : N) (s : NotificationQueue N) : NotificationQueue N :=
  { s with
    _nfQueue := s._nfQueue.eraseP (fun e => e.pNf = pNf)
    log := { s.log with
      discarded := s.log.discarded ++ (s._nfQueue.find? (fun e => e.pNf = pNf)).toList } }

/-- `dispatch`: the whole queue goes to the notification center, under the lock. -/
def dispatch (t : ℕ) (s : NotificationQueue N) : NotificationQueue N :=
  { s with
    _nfQueue := []
    log := { s.log with
      left := s.log.left ++ s._nfQueue
      delivered := s.log.delivered ++ s._nfQueue.map (t, ·) } }

/-- The steps of the system; `t` is the thread that makes the step. -/
inductive Act (N : Type)
  | enqueueNotification (pNf : N)
  | enqueueUrgentNotification (pNf : N)
  | dequeueNotification (t : ℕ)
  | waitDequeueNotification (t : ℕ) (timed : Bool)
  | signalled (t : ℕ)
  | timeout (t : ℕ)
  | deregister (t : ℕ)
  | wakeUpAll
  | clear
  | remove (pNf : N)
  | dispatch (t : ℕ)

variable [DecidableEq N]

/-- What a step does, if it is enabled. -/
def exec (s : NotificationQueue N) : Act N → Option (NotificationQueue N)
  | .enqueueNotification pNf => some (s.enqueue false pNf)
  | .enqueueUrgentNotification pNf => some (s.enqueue true pNf)
  | .dequeueNotification t => if s.thread t = .idle then some (s.dequeueOne t) else none
  | .waitDequeueNotification t timed =>
      if s.thread t = .idle then some (s.waitDequeue t timed) else none
  | .signalled t =>
      match s.thread t with
      | .waiting pWI _ =>
          -- `wait` returns only when the event is set
          if ((s.heap.deref pWI).any WaitInfo.nfAvailable) then s.takeAndDelete t pWI else none
      | _ => none
  | .timeout t =>
      match s.thread t with
      | .waiting pWI true => some { s with thread := Function.update s.thread t (.timedOut pWI) }
      | _ => none
  | .deregister t =>
      match s.thread t with
      | .timedOut pWI => takeAndDelete t pWI { s with _waitQueue := s._waitQueue.erase pWI }
      | _ => none
  | .wakeUpAll => some s.wakeUpAll
  | .clear => some s.clear
  | .remove pNf => some (s.remove pNf)
  | .dispatch t => if s.thread t = .idle then some (s.dispatch t) else none

/-- The step relation. -/
def Step (s : NotificationQueue N) (a : Act N) (s' : NotificationQueue N) : Prop :=
  s.exec a = some s'

/-! ### The waiting threads -/

section registered

omit [DecidableEq N]

/-- The heap, the wait queue and the threads fit together: the registered `WaitInfo`s are
unsignalled and empty, all others are signalled, and each belongs to exactly one thread. -/
structure Registered (heap : NodeList (WaitInfo N)) (waitQueue : List ℕ) (thread : ℕ → Phase) :
    Prop where
  nodup : waitQueue.Nodup
  unset : ∀ w ∈ waitQueue, (w, ⟨none, false⟩) ∈ heap.nodes
  signalled : ∀ w info, (w, info) ∈ heap.nodes → w ∉ waitQueue → info.nfAvailable = true
  owned : ∀ w info, (w, info) ∈ heap.nodes → ∃ t, (thread t).pWI = some w
  live : ∀ t w, (thread t).pWI = some w → ∃ info, (w, info) ∈ heap.nodes
  unique : ∀ t t' w, (thread t).pWI = some w → (thread t').pWI = some w → t = t'

variable {heap : NodeList (WaitInfo N)} {waitQueue : List ℕ} {thread : ℕ → Phase}

theorem registered_init : Registered (NodeList.empty : NodeList (WaitInfo N)) [] (fun _ => .idle) := by
  constructor <;> simp [NodeList.empty, Phase.pWI]

/-- Taking the first `WaitInfo` from the wait queue and signalling it. -/
theorem Registered.pop {w : ℕ} {rest : List ℕ} (h : Registered heap (w :: rest) thread)
    (f : WaitInfo N → WaitInfo N) (hf : (f ⟨none, false⟩).nfAvailable = true) :
    Registered (heap.modify w f) rest thread := by
  obtain ⟨hw, hrest⟩ := List.nodup_cons.mp h.nodup
  have hself := h.unset w List.mem_cons_self
  have hold : ∀ {w' info}, (w', info) ∈ (heap.modify w f).nodes →
      ∃ info', (w', info') ∈ heap.nodes := by
    intro w' info hm
    rcases NodeList.mem_modify.mp hm with ⟨-, hm⟩ | ⟨a, ha, heq⟩
    · exact ⟨info, hm⟩
    · obtain ⟨rfl, -⟩ := Prod.mk.inj heq
      exact ⟨a, ha⟩
  constructor
  · exact hrest
  · intro w' hw'
    have hne : w' ≠ w := fun heq => hw (heq ▸ hw')
    exact NodeList.mem_modify.mpr (Or.inl ⟨hne, h.unset w' (List.mem_cons_of_mem _ hw')⟩)
  · intro w' info hm hw'
    rcases NodeList.mem_modify.mp hm with ⟨hne, hm⟩ | ⟨a, ha, heq⟩
    · apply h.signalled w' info hm
      intro hmem
      rcases List.mem_cons.mp hmem with heq | hmem
      · exact hne heq
      · exact hw' hmem
    · obtain ⟨-, rfl⟩ := Prod.mk.inj heq
      rw [NodeList.eq_of_mem ha hself]
      exact hf
  · intro w' info hm
    obtain ⟨info', hm'⟩ := hold hm
    exact h.owned w' info' hm'
  · intro t w' ht
    obtain ⟨info, hm⟩ := h.live t w' ht
    by_cases hne : w' = w
    · subst hne
      exact ⟨f info, NodeList.mem_modify.mpr (Or.inr ⟨info, hm, rfl⟩)⟩
    · exact ⟨info, NodeList.mem_modify.mpr (Or.inl ⟨hne, hm⟩)⟩
  · exact h.unique

/-- A thread outside allocates and registers a `WaitInfo`. -/
theorem Registered.register (h : Registered heap waitQueue thread) {t : ℕ}
    (ht : thread t = .idle) (timed : Bool) :
    Registered (heap.pushFront ⟨none, false⟩) (waitQueue ++ [heap.next])
      (Function.update thread t (.waiting heap.next timed)) := by
  have hfresh : ∀ info, (heap.next, info) ∉ heap.nodes :=
    fun info hm => Nat.lt_irrefl _ (heap.fresh _ hm)
  have hmem : ∀ n, n ∈ (heap.pushFront ⟨none, false⟩).nodes ↔
      n = (heap.next, ⟨none, false⟩) ∨ n ∈ heap.nodes := fun n => NodeList.mem_insertWhere
  have hne : ∀ t' w, t' ≠ t → (Function.update thread t (.waiting heap.next timed) t').pWI = some w →
      (thread t').pWI = some w := by
    intro t' w htt' hw
    rwa [Function.update_of_ne htt'] at hw
  have hself : ∀ w, (Function.update thread t (.waiting heap.next timed) t).pWI = some w →
      w = heap.next := by
    intro w hw
    rw [Function.update_self] at hw
    exact (Option.some.inj hw).symm
  constructor
  · refine List.nodup_append.mpr ⟨h.nodup, List.nodup_singleton _, fun w hw w' hw' heq => ?_⟩
    rw [List.mem_singleton.mp hw'] at heq
    exact hfresh _ (heq ▸ h.unset w hw)
  · intro w hw
    rw [hmem]
    rcases List.mem_append.mp hw with hw | hw
    · exact Or.inr (h.unset w hw)
    · rw [List.mem_singleton.mp hw]
      exact Or.inl rfl
  · intro w info hm hw
    rw [List.mem_append, not_or, List.mem_singleton] at hw
    rcases (hmem _).mp hm with heq | hm
    · exact absurd (congrArg Prod.fst heq) hw.2
    · exact h.signalled w info hm hw.1
  · intro w info hm
    rcases (hmem _).mp hm with heq | hm
    · refine ⟨t, ?_⟩
      rw [Function.update_self, (Prod.mk.inj heq).1]
      rfl
    · obtain ⟨t', ht'⟩ := h.owned w info hm
      refine ⟨t', ?_⟩
      have htt' : t' ≠ t := by
        rintro rfl
        rw [ht] at ht'
        cases ht'
      rw [Function.update_of_ne htt']
      exact ht'
  · intro t' w hw
    by_cases htt' : t' = t
    · subst htt'
      rw [hself w hw]
      exact ⟨_, (hmem _).mpr (Or.inl rfl)⟩
    · obtain ⟨info, hm⟩ := h.live t' w (hne t' w htt' hw)
      exact ⟨info, (hmem _).mpr (Or.inr hm)⟩
  · intro t₁ t₂ w h₁ h₂
    by_cases ht₁ : t₁ = t
    · by_cases ht₂ : t₂ = t
      · rw [ht₁, ht₂]
      · subst ht₁
        obtain ⟨info, hm⟩ := h.live t₂ w (hne t₂ w ht₂ h₂)
        rw [hself w h₁] at hm
        exact absurd hm (hfresh info)
    · by_cases ht₂ : t₂ = t
      · subst ht₂
        obtain ⟨info, hm⟩ := h.live t₁ w (hne t₁ w ht₁ h₁)
        rw [hself w h₂] at hm
        exact absurd hm (hfresh info)
      · exact h.unique t₁ t₂ w (hne t₁ w ht₁ h₁) (hne t₂ w ht₂ h₂)

/-- A thread that keeps its `WaitInfo` may change its phase. -/
theorem Registered.phase (h : Registered heap waitQueue thread) {t : ℕ} {p : Phase}
    (hp : p.pWI = (thread t).pWI) : Registered heap waitQueue (Function.update thread t p) := by
  have hpWI : ∀ t', (Function.update thread t p t').pWI = (thread t').pWI := by
    intro t'
    by_cases htt' : t' = t
    · subst htt'
      rw [Function.update_self, hp]
    · rw [Function.update_of_ne htt']
  refine ⟨h.nodup, h.unset, h.signalled, fun w info hm => ?_, fun t' w hw => ?_,
    fun t₁ t₂ w h₁ h₂ => ?_⟩
  · obtain ⟨t', ht'⟩ := h.owned w info hm
    exact ⟨t', by rw [hpWI, ht']⟩
  · rw [hpWI] at hw
    exact h.live t' w hw
  · rw [hpWI] at h₁ h₂
    exact h.unique t₁ t₂ w h₁ h₂

theorem Registered.release (h : Registered heap waitQueue thread) {t w : ℕ}
    (ht : (thread t).pWI = some w) :
    Registered (heap.erase w) (waitQueue.erase w) (Function.update thread t .idle) := by
  have hne : ∀ t' w', (Function.update thread t .idle t').pWI = some w' →
      t' ≠ t ∧ (thread t').pWI = some w' := by
    intro t' w' hw'
    by_cases htt' : t' = t
    · subst htt'
      rw [Function.update_self] at hw'
      cases hw'
    · rw [Function.update_of_ne htt'] at hw'
      exact ⟨htt', hw'⟩
  constructor
  · exact h.nodup.erase w
  · intro w' hw'
    rw [h.nodup.mem_erase_iff] at hw'
    exact NodeList.mem_erase.mpr ⟨h.unset w' hw'.2, hw'.1⟩
  · intro w' info hm hw'
    obtain ⟨hm, hww'⟩ := NodeList.mem_erase.mp hm
    rw [h.nodup.mem_erase_iff, not_and] at hw'
    exact h.signalled w' info hm (hw' hww')
  · intro w' info hm
    obtain ⟨hm, hww'⟩ := NodeList.mem_erase.mp hm
    obtain ⟨t', ht'⟩ := h.owned w' info hm
    refine ⟨t', ?_⟩
    have htt' : t' ≠ t := by
      rintro rfl
      rw [ht] at ht'
      exact hww' (Option.some.inj ht').symm
    rw [Function.update_of_ne htt']
    exact ht'
  · intro t' w' hw'
    obtain ⟨htt', hw'⟩ := hne t' w' hw'
    obtain ⟨info, hm⟩ := h.live t' w' hw'
    refine ⟨info, NodeList.mem_erase.mpr ⟨hm, ?_⟩⟩
    rintro rfl
    exact htt' (h.unique t' t w' hw' ht)
  · intro t₁ t₂ w' h₁ h₂
    exact h.unique t₁ t₂ w' (hne t₁ w' h₁).2 (hne t₂ w' h₂).2

end registered

/-! ### Conservation and order -/

section accounts

omit [DecidableEq N] in
theorem heldIn_erase {heap : NodeList (WaitInfo N)} {w : ℕ} {info : WaitInfo N}
    (h : (w, info) ∈ heap.nodes) : (heldIn heap).Perm (info.pNf.toList ++ heldIn (heap.erase w)) := by
  obtain ⟨l₁, l₂, hl, he, -⟩ := NodeList.exists_split h
  simp only [heldIn, NodeList.values, hl, he, List.map_append, List.map_cons,
    List.filterMap_append]
  cases hp : info.pNf with
  | none => simp [hp]
  | some e =>
      rw [List.filterMap_cons_some hp]
      exact List.perm_middle

omit [DecidableEq N] in
theorem heldIn_modify {heap : NodeList (WaitInfo N)} {w : ℕ}
    (h : (w, ⟨none, false⟩) ∈ heap.nodes) (f : WaitInfo N → WaitInfo N) :
    (heldIn (heap.modify w f)).Perm ((f ⟨none, false⟩).pNf.toList ++ heldIn heap) := by
  obtain ⟨l₁, l₂, hl, -, hm⟩ := NodeList.exists_split h
  simp only [heldIn, NodeList.values, hl, hm f, List.map_append, List.map_cons,
    List.filterMap_append]
  rw [List.filterMap_cons_none (by rfl : (⟨none, false⟩ : WaitInfo N).pNf = none)]
  cases hp : (f ⟨none, false⟩).pNf with
  | none => simp [hp]
  | some e =>
      rw [List.filterMap_cons_some hp]
      exact List.perm_middle

/-- Every notification enqueued is in exactly one place: in the queue, handed over, returned
to a consumer or discarded; those that left the queue are the handed over and the returned. -/
structure Conserved (nfQueue held : List (Entry N)) (log : Log N) : Prop where
  tickets : log.enqueued.map Entry.ticket = List.range log.enqueued.length
  total : log.enqueued.Perm (nfQueue ++ held ++ log.delivered.map Prod.snd ++ log.discarded)
  left : log.left.Perm (held ++ log.delivered.map Prod.snd)

/-- The notifications that are not urgent have left and leave the queue in the order of
their tickets. -/
structure Ordered (nfQueue : List (Entry N)) (log : Log N) : Prop where
  fifo : ((log.left ++ nfQueue).filter (fun e => !e.urgent)).Pairwise (·.ticket < ·.ticket)
  bound : ∀ e ∈ log.left ++ nfQueue, e.ticket < log.enqueued.length

variable {nfQueue held : List (Entry N)} {log : Log N}

omit [DecidableEq N] in
theorem Conserved.nodup (h : Conserved nfQueue held log) : log.enqueued.Nodup := by
  apply List.Nodup.of_map Entry.ticket
  rw [h.tickets]
  exact List.nodup_range

omit [DecidableEq N] in
/-- The record of a notification that has just been enqueued. -/
theorem tickets_append (h : log.enqueued.map Entry.ticket = List.range log.enqueued.length)
    {e : Entry N} (he : e.ticket = log.enqueued.length) :
    (log.enqueued ++ [e]).map Entry.ticket = List.range (log.enqueued ++ [e]).length := by
  rw [List.map_append, h, List.length_append, List.length_singleton, List.range_succ,
    List.map_singleton, he]

theorem Conserved.push (h : Conserved nfQueue held log) {e : Entry N}
    (he : e.ticket = log.enqueued.length) {nfQueue' : List (Entry N)}
    (hq : nfQueue'.Perm (e :: nfQueue)) :
    Conserved nfQueue' held { log with enqueued := log.enqueued ++ [e] } := by
  refine ⟨tickets_append h.tickets he, ?_, h.left⟩
  have ht := h.total
  rw [List.perm_iff_count] at ht hq ⊢
  intro a
  have h1 := ht a
  have h2 := hq a
  simp only [List.count_append, List.count_cons, List.count_nil] at h1 h2 ⊢
  omega

theorem Conserved.handOver (h : Conserved nfQueue held log) {e : Entry N}
    (he : e.ticket = log.enqueued.length) {held' : List (Entry N)}
    (hh : held'.Perm (e :: held)) :
    Conserved nfQueue held'
      { log with enqueued := log.enqueued ++ [e], left := log.left ++ [e] } := by
  have ht := h.total
  have hl := h.left
  rw [List.perm_iff_count] at ht hl hh
  refine ⟨tickets_append h.tickets he, ?_, ?_⟩
  · rw [List.perm_iff_count]
    intro a
    have h1 := ht a
    have h2 := hh a
    simp only [List.count_append, List.count_cons, List.count_nil] at h1 h2 ⊢
    omega
  · rw [List.perm_iff_count]
    intro a
    have h1 := hl a
    have h2 := hh a
    simp only [List.count_append, List.count_cons, List.count_nil] at h1 h2 ⊢
    omega

theorem Conserved.leave (out : List (Entry N)) {rest : List (Entry N)}
    (h : Conserved (out ++ rest) held log)
    {back : List (ℕ × Entry N)} (hb : back.map Prod.snd = out) :
    Conserved rest held
      { log with left := log.left ++ out, delivered := log.delivered ++ back } := by
  have ht := h.total
  have hl := h.left
  rw [List.perm_iff_count] at ht hl
  refine ⟨h.tickets, ?_, ?_⟩
  · rw [List.perm_iff_count]
    intro a
    have h1 := ht a
    simp only [List.count_append, List.map_append, hb] at h1 ⊢
    omega
  · rw [List.perm_iff_count]
    intro a
    have h1 := hl a
    simp only [List.count_append, List.map_append, hb] at h1 ⊢
    omega

theorem Conserved.giveBack (h : Conserved nfQueue held log) {held' : List (Entry N)}
    (pNf : Option (Entry N)) (hh : held.Perm (pNf.toList ++ held')) (t : ℕ) :
    Conserved nfQueue held'
      { log with delivered := log.delivered ++ (pNf.map (t, ·)).toList } := by
  have hb : ((pNf.map (t, ·)).toList).map Prod.snd = pNf.toList := by
    cases pNf <;> rfl
  have ht := h.total
  have hl := h.left
  rw [List.perm_iff_count] at ht hl hh
  refine ⟨h.tickets, ?_, ?_⟩
  · rw [List.perm_iff_count]
    intro a
    have h1 := ht a
    have h2 := hh a
    simp only [List.count_append, List.map_append, hb] at h1 h2 ⊢
    omega
  · rw [List.perm_iff_count]
    intro a
    have h1 := hl a
    have h2 := hh a
    simp only [List.count_append, List.map_append, hb] at h1 h2 ⊢
    omega

theorem Conserved.discard (h : Conserved nfQueue held log) {rest out : List (Entry N)}
    (hq : nfQueue.Perm (out ++ rest)) :
    Conserved rest held { log with discarded := log.discarded ++ out } := by
  have ht := h.total
  rw [List.perm_iff_count] at ht hq
  refine ⟨h.tickets, ?_, h.left⟩
  rw [List.perm_iff_count]
  intro a
  have h1 := ht a
  have h2 := hq a
  simp only [List.count_append] at h1 h2 ⊢
  omega

omit [DecidableEq N] in
/-- An urgent notification goes to the front of the queue. -/
theorem Ordered.pushFront (h : Ordered nfQueue log) {e : Entry N}
    (he : e.ticket = log.enqueued.length) (hu : e.urgent = true) :
    Ordered (e :: nfQueue) { log with enqueued := log.enqueued ++ [e] } := by
  constructor
  · have hf := h.fifo
    rw [List.filter_append] at hf ⊢
    rw [List.filter_cons_of_neg (by simp [hu])]
    exact hf
  · intro a ha
    simp only [List.mem_append, List.mem_cons, List.length_append, List.length_singleton] at ha ⊢
    rcases ha with ha | rfl | ha
    · exact Nat.lt_succ_of_lt (h.bound a (List.mem_append_left _ ha))
    · omega
    · exact Nat.lt_succ_of_lt (h.bound a (List.mem_append_right _ ha))

omit [DecidableEq N] in
theorem Ordered.snoc (h : Ordered nfQueue log) {e : Entry N}
    (he : e.ticket = log.enqueued.length) {left' nfQueue' : List (Entry N)}
    (heq : left' ++ nfQueue' = log.left ++ nfQueue ++ [e]) :
    Ordered nfQueue' { log with enqueued := log.enqueued ++ [e], left := left' } := by
  constructor
  · simp only [heq, List.filter_append]
    rw [← List.filter_append]
    refine List.pairwise_append.mpr ⟨h.fifo, ?_, fun a ha b hb => ?_⟩
    · exact (List.pairwise_singleton _ e).sublist List.filter_sublist
    · have hb' := List.mem_singleton.mp (List.mem_of_mem_filter hb)
      rw [hb', he]
      exact h.bound a (List.mem_of_mem_filter ha)
  · intro a ha
    simp only [heq, List.mem_append, List.mem_singleton, List.length_append,
      List.length_singleton] at ha ⊢
    rcases ha with ha | rfl
    · exact Nat.lt_succ_of_lt (h.bound a (List.mem_append.mpr ha))
    · omega

omit [DecidableEq N] in
theorem Ordered.sublist (h : Ordered nfQueue log) {log' : Log N} {nfQueue' : List (Entry N)}
    (hs : (log'.left ++ nfQueue').Sublist (log.left ++ nfQueue))
    (hl : log'.enqueued = log.enqueued) : Ordered nfQueue' log' := by
  refine ⟨h.fifo.sublist (hs.filter _), fun a ha => ?_⟩
  rw [hl]
  exact h.bound a (hs.subset ha)

end accounts

/-! ### Every run -/

/-- The invariant of the system. -/
structure Inv (s : NotificationQueue N) : Prop where
  registered : Registered s.heap s._waitQueue s.thread
  conserved : Conserved s._nfQueue s.held s.log
  ordered : Ordered s._nfQueue s.log
  empty : s._waitQueue ≠ [] → s._nfQueue = []

omit [DecidableEq N] in
theorem inv_init : Inv (init : NotificationQueue N) := by
  refine ⟨registered_init, ⟨rfl, ?_, ?_⟩, ⟨?_, ?_⟩, fun _ => rfl⟩
  · exact List.Perm.refl _
  · exact List.Perm.refl _
  · exact List.Pairwise.nil
  · exact fun e he => absurd he List.not_mem_nil

theorem Inv.enqueue {s : NotificationQueue N} (h : s.Inv) (urgent : Bool) (pNf : N) :
    (s.enqueue urgent pNf).Inv := by
  unfold NotificationQueue.enqueue
  dsimp only
  split
  · next hw =>
      refine ⟨?_, ?_, ?_, fun hne => absurd hw hne⟩
      · exact h.registered
      · apply h.conserved.push rfl
        split_ifs
        · exact List.Perm.refl _
        · exact List.perm_append_singleton _ _
      · cases urgent with
        | true => exact h.ordered.pushFront rfl rfl
        | false => exact h.ordered.snoc rfl (List.append_assoc _ _ _).symm
  · next pWI rest hw =>
      have hreg := h.registered
      rw [hw] at hreg
      have hq : s._nfQueue = [] := h.empty (by rw [hw]; simp)
      refine ⟨?_, ?_, ?_, fun _ => hq⟩
      · dsimp only
        exact hreg.pop _ rfl
      · exact h.conserved.handOver rfl
          (heldIn_modify (hreg.unset pWI List.mem_cons_self) _)
      · apply h.ordered.snoc rfl
        rw [hq, List.append_nil, List.append_nil]

omit [DecidableEq N] in
theorem registered_update_idle {s : NotificationQueue N} (h : s.Inv) {t : ℕ}
    (ht : s.thread t = .idle) :
    Registered s.heap s._waitQueue (Function.update s.thread t .idle) :=
  h.registered.phase (by rw [ht])

theorem Inv.dequeueOne {s : NotificationQueue N} (h : s.Inv) {t : ℕ} (ht : s.thread t = .idle) :
    (s.dequeueOne t).Inv := by
  unfold NotificationQueue.dequeueOne
  split
  · refine ⟨registered_update_idle h ht, ?_, ?_, h.empty⟩
    · exact h.conserved.giveBack none (List.Perm.refl _) t
    · exact h.ordered.sublist (List.Sublist.refl _) rfl
  · next e rest hq =>
      refine ⟨registered_update_idle h ht, ?_, ?_, fun hne => ?_⟩
      · have hc := h.conserved
        rw [hq] at hc
        exact Conserved.leave [e] hc rfl
      · refine h.ordered.sublist ?_ rfl
        rw [hq]
        simp [giveBack]
      · have := h.empty hne
        rw [hq] at this
        cases this

theorem Inv.waitDequeue {s : NotificationQueue N} (h : s.Inv) {t : ℕ} (ht : s.thread t = .idle)
    (timed : Bool) : (s.waitDequeue t timed).Inv := by
  unfold NotificationQueue.waitDequeue
  split_ifs with hq hw
  · exact h.dequeueOne ht
  · refine ⟨registered_update_idle h ht, ?_, ?_, h.empty⟩
    · exact h.conserved.giveBack none (List.Perm.refl _) t
    · exact h.ordered.sublist (List.Sublist.refl _) rfl
  · refine ⟨h.registered.register ht timed, ?_, h.ordered, fun _ => by simpa using hq⟩
    have hheld : heldIn (s.heap.pushFront ⟨none, false⟩) = s.held := by
      simp [heldIn, held, NodeList.values_pushFront]
    have hc := h.conserved
    rw [← hheld] at hc
    exact hc

/-- A thread takes what its `WaitInfo` holds, deregisters and deletes it. -/
theorem Inv.takeAndDelete {s s' : NotificationQueue N} (h : s.Inv) {t pWI : ℕ}
    (ht : (s.thread t).pWI = some pWI)
    (hs : takeAndDelete t pWI { s with _waitQueue := s._waitQueue.erase pWI } = some s') :
    s'.Inv := by
  obtain ⟨info, hd, rfl⟩ := Option.map_eq_some_iff.mp hs
  have hm : (pWI, info) ∈ s.heap.nodes := NodeList.deref_eq_some.mp hd
  refine ⟨h.registered.release ht, ?_, ?_, fun hne => ?_⟩
  · exact h.conserved.giveBack _ (heldIn_erase hm) t
  · exact h.ordered.sublist (List.Sublist.refl _) rfl
  · refine h.empty fun hnil => hne ?_
    simp [giveBack, hnil]

omit [DecidableEq N] in
theorem Inv.wakeUpAll {s : NotificationQueue N} (h : s.Inv) : s.wakeUpAll.Inv := by
  have hfold : ∀ (ws : List ℕ) (heap : NodeList (WaitInfo N)), Registered heap ws s.thread →
      let heap' := ws.foldl
        (fun heap pWI => heap.modify pWI fun info => { info with nfAvailable := true }) heap
      Registered heap' [] s.thread ∧ (heldIn heap').Perm (heldIn heap) := by
    intro ws
    induction ws with
    | nil => exact fun heap hr => ⟨hr, List.Perm.refl _⟩
    | cons w ws ih =>
        intro heap hr
        have hmod := heldIn_modify (hr.unset w List.mem_cons_self)
          (fun info => { info with nfAvailable := true })
        obtain ⟨h1, h2⟩ := ih _ (hr.pop (fun info => { info with nfAvailable := true }) rfl)
        exact ⟨h1, h2.trans hmod⟩
  obtain ⟨hreg, hheld⟩ := hfold s._waitQueue s.heap h.registered
  have hc := h.conserved
  refine ⟨hreg, ⟨hc.tickets, hc.total.trans ?_, hc.left.trans ?_⟩, h.ordered,
    fun hne => absurd rfl hne⟩
  · exact ((hheld.symm.append_left _).append_right _).append_right _
  · exact hheld.symm.append_right _

theorem Inv.clear {s : NotificationQueue N} (h : s.Inv) : s.clear.Inv := by
  refine ⟨h.registered, h.conserved.discard (List.Perm.of_eq (List.append_nil _).symm), ?_, fun _ => rfl⟩
  refine h.ordered.sublist ?_ rfl
  simp [NotificationQueue.clear]

omit [DecidableEq N] in
/-- The first element that satisfies a predicate and the others. -/
theorem perm_find_eraseP (p : Entry N → Bool) (l : List (Entry N)) :
    l.Perm ((l.find? p).toList ++ l.eraseP p) := by
  induction l with
  | nil => simp
  | cons a l ih =>
      cases hp : p a with
      | true => simp [hp]
      | false =>
          rw [List.find?_cons_of_neg (by simp [hp]), List.eraseP_cons_of_neg (by simp [hp])]
          exact (ih.cons a).trans List.perm_middle.symm

theorem Inv.remove {s : NotificationQueue N} (h : s.Inv) (pNf : N) : (s.remove pNf).Inv := by
  refine ⟨h.registered, h.conserved.discard (perm_find_eraseP _ _), ?_, fun hne => ?_⟩
  · exact h.ordered.sublist (List.eraseP_sublist.append_left _) rfl
  · have hnil : s._nfQueue = [] := h.empty hne
    simp [NotificationQueue.remove, hnil]

theorem Inv.dispatch {s : NotificationQueue N} (h : s.Inv) (t : ℕ) : (s.dispatch t).Inv := by
  refine ⟨h.registered, ?_, ?_, fun _ => rfl⟩
  · have hc := h.conserved
    rw [← List.append_nil s._nfQueue] at hc
    apply hc.leave s._nfQueue
    rw [List.map_map]
    exact List.map_id _
  · refine h.ordered.sublist ?_ rfl
    simp [NotificationQueue.dispatch]

theorem Inv.step {s s' : NotificationQueue N} {a : Act N} (h : s.Inv) (hs : Step s a s') :
    s'.Inv := by
  unfold Step at hs
  cases a with
  | enqueueNotification pNf =>
      obtain rfl := Option.some.inj hs
      exact h.enqueue false pNf
  | enqueueUrgentNotification pNf =>
      obtain rfl := Option.some.inj hs
      exact h.enqueue true pNf
  | dequeueNotification t =>
      simp only [exec, Option.ite_none_right_eq_some, Option.some_inj] at hs
      obtain ⟨ht, rfl⟩ := hs
      exact h.dequeueOne ht
  | waitDequeueNotification t timed =>
      simp only [exec, Option.ite_none_right_eq_some, Option.some_inj] at hs
      obtain ⟨ht, rfl⟩ := hs
      exact h.waitDequeue ht timed
  | signalled t =>
      simp only [exec] at hs
      split at hs
      · next pWI timed ht =>
          simp only [Option.ite_none_right_eq_some] at hs
          obtain ⟨hset, hs⟩ := hs
          -- a signalled `WaitInfo` is not registered any more
          have hw : pWI ∉ s._waitQueue := by
            intro hmem
            rw [NodeList.deref_eq_some.mpr (h.registered.unset pWI hmem)] at hset
            cases hset
          apply h.takeAndDelete (t := t) (by rw [ht]; rfl)
          rw [List.erase_of_not_mem hw]
          exact hs
      · cases hs
  | timeout t =>
      simp only [exec] at hs
      split at hs
      · next pWI ht =>
          obtain rfl := Option.some.inj hs
          exact ⟨h.registered.phase (by rw [ht]; rfl), h.conserved, h.ordered, h.empty⟩
      · cases hs
  | deregister t =>
      simp only [exec] at hs
      split at hs
      · next pWI ht => exact h.takeAndDelete (by rw [ht]; rfl) hs
      · cases hs
  | wakeUpAll =>
      obtain rfl := Option.some.inj hs
      exact h.wakeUpAll
  | clear =>
      obtain rfl := Option.some.inj hs
      exact h.clear
  | remove pNf =>
      obtain rfl := Option.some.inj hs
      exact h.remove pNf
  | dispatch t =>
      simp only [exec, Option.ite_none_right_eq_some, Option.some_inj] at hs
      obtain ⟨ht, rfl⟩ := hs
      exact h.dispatch t

/-- The next step of a thread that waits or has timed out. -/
def resume (t : ℕ) : Phase → Act N
  | .timedOut _ => .deregister t
  | _ => .signalled t

/-- A notification that was handed over belongs to one thread, whose next step returns it. -/
theorem Inv.held_returned {s : NotificationQueue N} (h : s.Inv) {e : Entry N} (he : e ∈ s.held) :
    ∃ t s', s.exec (resume t (s.thread t)) = some s' ∧
      s'.log.delivered = s.log.delivered ++ [(t, e)] := by
  obtain ⟨info, hv, hp⟩ := List.mem_filterMap.mp he
  obtain ⟨⟨w, info'⟩, hm, rfl⟩ := List.mem_map.mp hv
  obtain ⟨t, ht⟩ := h.registered.owned w info' hm
  have hd := NodeList.deref_eq_some.mpr hm
  have hw : w ∉ s._waitQueue := by
    intro hmem
    have heq := NodeList.eq_of_mem (h.registered.unset w hmem) hm
    rw [← heq] at hp
    cases hp
  have hset := h.registered.signalled w info' hm hw
  have htake : ∀ s₁ : NotificationQueue N, s₁.heap = s.heap → s₁.log = s.log →
      ∃ s', s₁.takeAndDelete t w = some s' ∧
        s'.log.delivered = s.log.delivered ++ [(t, e)] := by
    intro s₁ hheap hlog
    refine ⟨giveBack t info'.pNf { s₁ with heap := s₁.heap.erase w }, ?_, ?_⟩
    · simp [NotificationQueue.takeAndDelete, hheap, hd]
    · simp [NotificationQueue.giveBack, hlog, show info'.pNf = some e from hp]
  refine ⟨t, ?_⟩
  cases hph : s.thread t with
  | idle =>
      rw [hph] at ht
      cases ht
  | waiting pWI timed =>
      rw [hph] at ht
      obtain rfl := Option.some.inj ht
      obtain ⟨s', hs', hlog⟩ := htake s rfl rfl
      refine ⟨s', ?_, hlog⟩
      simp [resume, exec, hph, hd, hset, hs']
  | timedOut pWI =>
      rw [hph] at ht
      obtain rfl := Option.some.inj ht
      obtain ⟨s', hs', hlog⟩ := htake { s with _waitQueue := s._waitQueue.erase pWI } rfl rfl
      refine ⟨s', ?_, hlog⟩
      simp [resume, exec, hph, hs']

/-- **Delivery.**  In every state any interleaving of the critical sections reaches: each
notification enqueued is in exactly one place (the queue, handed over to one waiting consumer
whose next step returns it, returned to a consumer, or discarded by `clear` or `remove`); the
queue is empty whenever a consumer is registered as waiting; and the notifications that are
not urgent leave the queue in the order they were enqueued. -/
theorem delivers_once_in_order {acts : List (Act N)} {s : NotificationQueue N}
    (h : Run Step init acts s) :
    s.log.enqueued.Nodup ∧
      s.log.enqueued.Perm
        (s._nfQueue ++ s.held ++ s.log.delivered.map Prod.snd ++ s.log.discarded) ∧
      (∀ e ∈ s.held, ∃ t s', s.exec (resume t (s.thread t)) = some s' ∧
        s'.log.delivered = s.log.delivered ++ [(t, e)]) ∧
      (s._waitQueue ≠ [] → s._nfQueue = []) ∧
      s.log.left.Perm (s.held ++ s.log.delivered.map Prod.snd) ∧
      ((s.log.left ++ s._nfQueue).filter (fun e => !e.urgent)).Pairwise (·.ticket < ·.ticket) := by
  have hinv : s.Inv := h.invariant (fun _ _ _ hi hs => hi.step hs) inv_init
  exact ⟨hinv.conserved.nodup, hinv.conserved.total, fun e he => hinv.held_returned he,
    hinv.empty, hinv.conserved.left, hinv.ordered.fifo⟩

/-- A consumer times out, and a producer hands over a notification before the consumer has
the lock again: the consumer returns it. -/
theorem delivers_once_in_order_race :
    ∃ s : NotificationQueue ℕ,
      Run Step init [.waitDequeueNotification 1 true, .timeout 1, .enqueueNotification 7,
        .deregister 1] s ∧
      s.log.delivered = [(1, ⟨0, 7, false⟩)] ∧
      s.log.enqueued.Perm
        (s._nfQueue ++ s.held ++ s.log.delivered.map Prod.snd ++ s.log.discarded) :=
  let acts : List (Act ℕ) := [.waitDequeueNotification 1 true, .timeout 1,
    .enqueueNotification 7, .deregister 1]
  let s := (acts.foldlM exec init).get (by rfl)
  have hrun : Run Step init acts s := Run.of_foldlM (Option.some_get _).symm
  ⟨s, hrun, by rfl, (delivers_once_in_order hrun).2.1⟩

end NotificationQueue

end Poco.Foundation
