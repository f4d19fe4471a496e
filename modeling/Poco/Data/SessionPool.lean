import Poco.Lib.Runs
import Mathlib.Data.List.Nodup
import Mathlib.Data.Int.Notation
import Mathlib.Logic.Function.Basic

/-! # `Poco::Data::SessionPool`

Clients take sessions from the pool and return them, a janitor timer closes idle ones, and
`shutdown` closes all.  Every function first looks at the flag `_shutdown` without the lock
and then enters its critical section.

* A step (`Act`) is a look at the flag or one critical section.  What the database does
  (`isGood`, `reset`, the creation of a session) is part of the label of the step.
* A session is the number of its `PooledSessionHolder`; a client is one
  `PooledSessionImpl`, which keeps its holder until `close` has returned normally.
* `log` records what happened and is read by no step; so are `failed`, the sessions whose
  return ended in an exception, `closed`, that `shutdown` has emptied the lists, and
  `returned`, that a call of `shutdown` has returned.

`Safe` is the accounting of the pool.  It fails when the flag changes between the look at it
and the critical section, when a session whose return has failed is returned again, or when
a second `shutdown` returns before the first one is done (`accounting_fails`).  `Allowed` excludes
these steps, and every run without them is safe (`accounting_holds`). -/

namespace Poco.Data

open Poco.Lib

/-- The outcome of `isGood`. -/
inductive Health
  | good
  | bad
  | throws
  deriving DecidableEq

/-- Where a client is. -/
inductive Client
  /-- Without a session. -/
  | idle
  /-- In `get`, past the look at the flag. -/
  | getting
  /-- With a session. -/
  | holds (h : ℕ)
  /-- In `putBack`, past the look at the flag. -/
  | returning (h : ℕ)
  deriving DecidableEq

/-- The session of a client. -/
def Client.holder : Client → Option ℕ
  | .holds h => some h
  | .returning h => some h
  | _ => none

/-- Where a thread is in `shutdown`. -/
inductive Closing
  | outside
  /-- Before `_janitorTimer.stop()`. -/
  | stopping
  /-- Before the critical section. -/
  | locking
  deriving DecidableEq

/-- The record of a run. -/
structure PoolLog where
  /-- The values of `_nSessions` after each session the janitor has closed. -/
  janitorClosed : List ℤ
  /-- How many sessions were handed out after a `shutdown` had returned. -/
  late : ℕ
  /-- How many calls of `putBack` ended in the bugcheck for an unknown session. -/
  unknown : ℕ

/-- The data members of the pool, the clients, the janitor and the threads in `shutdown`. -/
structure SessionPool where
  _minSessions : ℤ
  _maxSessions : ℤ
  _nSessions : ℤ
  _idleSessions : List ℕ
  _activeSessions : List ℕ
  _shutdown : Bool
  nextHolder : ℕ
  client : ℕ → Client
  /-- The timer callback is past the look at the flag. -/
  janitorInside : Bool
  timerStopped : Bool
  closing : ℕ → Closing
  failed : List ℕ
  closed : Bool
  returned : Bool
  log : PoolLog

namespace SessionPool

/-- The constructor. -/
def init (minSessions maxSessions : ℤ) : SessionPool where
  _minSessions := minSessions
  _maxSessions := maxSessions
  _nSessions := 0
  _idleSessions := []
  _activeSessions := []
  _shutdown := false
  nextHolder := 0
  client := fun _ => .idle
  janitorInside := false
  timerStopped := false
  closing := fun _ => .outside
  failed := []
  closed := false
  returned := false
  log := ⟨[], 0, 0⟩

/-! ### Critical sections -/

/-- The loop of `purgeDeadSessions`: the sessions kept, how many were erased, and whether
`isGood` has thrown. -/
def purgeLoop (health : ℕ → Health) : List ℕ → List ℕ × ℕ × Bool
  | [] => ([], 0, false)
  | h :: hs =>
      match health h with
      | .good => (h :: (purgeLoop health hs).1, (purgeLoop health hs).2)
      | .bad => ((purgeLoop health hs).1, (purgeLoop health hs).2.1 + 1, (purgeLoop health hs).2.2)
      | .throws => (h :: hs, 0, true)

/-- `purgeDeadSessions`: the pool afterwards and whether `isGood` has thrown. -/
def purgeDeadSessions (health : ℕ → Health) (s : SessionPool) : SessionPool × Bool :=
  if s._shutdown then (s, false)
  else
    let (kept, erased, threw) := purgeLoop health s._idleSessions
    ({ s with _idleSessions := kept, _nSessions := s._nSessions - erased }, threw)

/-- A client goes to another place. -/
def goto (c : ℕ) (p : Client) (s : SessionPool) : SessionPool :=
  { s with client := Function.update s.client c p }

/-- A session goes from the front of the idle list to the client. -/
def handOut (c h : ℕ) (rest : List ℕ) (s : SessionPool) : SessionPool :=
  goto c (.holds h)
    { s with
      _activeSessions := h :: s._activeSessions
      _idleSessions := rest
      log := { s.log with late := s.log.late + if s.returned then 1 else 0 } }

/-- The critical section of `get`; `create` says whether a new session can be created. -/
def get (c : ℕ) (health : ℕ → Health) (create : Bool) (s : SessionPool) : SessionPool :=
  let (s, threw) := s.purgeDeadSessions health
  if threw then s.goto c .idle
  else
    match s._idleSessions with
    | h :: rest => s.handOut c h rest
    | [] =>
        if s._nSessions < s._maxSessions then
          if create then
            handOut c s.nextHolder []
              { s with _nSessions := s._nSessions + 1, nextHolder := s.nextHolder + 1 }
          else s.goto c .idle
        else s.goto c .idle

/-- The critical section of `putBack`, and what `close` does afterwards: an exception leaves
the client with its holder. -/
def putBack (c h : ℕ) (health : Health) (reset : Bool) (s : SessionPool) : SessionPool :=
  if h ∈ s._activeSessions then
    let s := { s with _activeSessions := s._activeSessions.erase h }
    match health, reset with
    | .good, true => goto c .idle { s with _idleSessions := s._idleSessions ++ [h] }
    | .bad, _ => goto c .idle { s with _nSessions := s._nSessions - 1 }
    | _, _ => goto c (.holds h) { s with _nSessions := s._nSessions - 1, failed := h :: s.failed }
  else goto c (.holds h) { s with log := { s.log with unknown := s.log.unknown + 1 } }

/-- The loop of `onJanitorTimer`: the sessions kept, `_nSessions`, and its values after each
session closed. -/
def janitorLoop (minSessions : ℤ) (tooLong : ℕ → Bool) (health : ℕ → Health) :
    List ℕ → ℤ → List ℕ × ℤ × List ℤ
  | [], n => ([], n, [])
  | h :: hs, n =>
      if minSessions < n then
        if tooLong h || health h == .bad then
          let (kept, n', closed) := janitorLoop minSessions tooLong health hs (n - 1)
          (kept, n', (n - 1) :: closed)
        else if health h = .throws then (h :: hs, n, [])
        else
          let (kept, n', closed) := janitorLoop minSessions tooLong health hs n
          (h :: kept, n', closed)
      else (h :: hs, n, [])

/-- The critical section of `onJanitorTimer`. -/
def onJanitorTimer (tooLong : ℕ → Bool) (health : ℕ → Health) (s : SessionPool) : SessionPool :=
  let (kept, n, closed) :=
    janitorLoop s._minSessions tooLong health s._idleSessions s._nSessions
  { s with
    _idleSessions := kept
    _nSessions := n
    janitorInside := false
    log := { s.log with janitorClosed := s.log.janitorClosed ++ closed } }

/-- `closeAll`: what it does to `_nSessions`; the list is empty afterwards. -/
def closeAll (sessions : List ℕ) (n : ℤ) : ℤ :=
  sessions.foldl (fun n _ => if 0 < n then n - 1 else n) n

/-- The critical section of `shutdown`. -/
def closeSessions (t : ℕ) (s : SessionPool) : SessionPool :=
  { s with
    _nSessions := closeAll s._activeSessions (closeAll s._idleSessions s._nSessions)
    _idleSessions := []
    _activeSessions := []
    closing := Function.update s.closing t .outside
    closed := true
    returned := true }

/-! ### Steps -/

/-- The steps of the system, with the client or thread that makes them and the outcomes of
the calls to the database. -/
inductive Act
  | getCheck (c : ℕ)
  | getLocked (c : ℕ) (health : ℕ → Health) (create : Bool)
  | closeCheck (c : ℕ)
  | putBackLocked (c : ℕ) (health : Health) (reset : Bool)
  | janitorCheck
  | janitorLocked (tooLong : ℕ → Bool) (health : ℕ → Health)
  | shutdownCall (t : ℕ)
  | timerStop (t : ℕ)
  | shutdownLocked (t : ℕ)

/-- What a step does, if it is enabled. -/
def exec (s : SessionPool) : Act → Option SessionPool
  | .getCheck c =>
      if s.client c = .idle then
        -- a shut down pool throws `InvalidAccessException`
        some (if s._shutdown then s else s.goto c .getting)
      else none
  | .getLocked c health create =>
      if s.client c = .getting then some (s.get c health create) else none
  | .closeCheck c =>
      match s.client c with
      | .holds h => some (s.goto c (if s._shutdown then .idle else .returning h))
      | _ => none
  | .putBackLocked c health reset =>
      match s.client c with
      | .returning h => some (s.putBack c h health reset)
      | _ => none
  | .janitorCheck =>
      if s.janitorInside || s.timerStopped then none
      else some { s with janitorInside := !s._shutdown }
  | .janitorLocked tooLong health =>
      if s.janitorInside then some (s.onJanitorTimer tooLong health) else none
  | .shutdownCall t =>
      if s.closing t = .outside then
        some (if s._shutdown then { s with returned := true }
          else { s with _shutdown := true, closing := Function.update s.closing t .stopping })
      else none
  | .timerStop t =>
      -- `stop` waits for a running callback
      if s.closing t = .stopping ∧ s.janitorInside = false then
        some { s with timerStopped := true, closing := Function.update s.closing t .locking }
      else none
  | .shutdownLocked t => if s.closing t = .locking then some (s.closeSessions t) else none

/-- The step relation. -/
def Step (s : SessionPool) (a : Act) (s' : SessionPool) : Prop := s.exec a = some s'

/-- The steps that do not meet a shutdown or a failed return halfway: once `shutdown` has
emptied the lists no critical section of `get` creates a session and none of `putBack` is
entered, a session whose return has failed is not returned again, and `shutdown` is not
called while another call is about to empty the lists. -/
def Allowed (s : SessionPool) : Act → Prop
  | .getLocked _ _ create => s.closed = true → ¬ (create = true ∧ s._nSessions < s._maxSessions)
  | .putBackLocked c _ _ =>
      s.closed = false ∧ ∀ h, s.client c = .returning h → h ∉ s.failed
  | .shutdownCall _ => s._shutdown = true → s.closed = true
  | _ => True

/-- The accounting of the pool. -/
structure Safe (s : SessionPool) : Prop where
  allocated : s._nSessions = s._activeSessions.length + s._idleSessions.length
  capacity : s._nSessions ≤ s._maxSessions
  /-- A session is held by at most one client, -/
  oneClient : ∀ c c' h, (s.client c).holder = some h → (s.client c').holder = some h → c = c'
  /-- or it is once in the idle list. -/
  notIdle : ∀ c h, (s.client c).holder = some h → h ∉ s._idleSessions
  onceIdle : s._idleSessions.Nodup
  janitor : ∀ n ∈ s.log.janitorClosed, s._minSessions ≤ n
  afterShutdown : s.returned = true → s._idleSessions = [] ∧ s._activeSessions = []
  notLate : s.log.late = 0
  known : s.log.unknown = 0

/-! ### The loops -/

theorem purgeLoop_spec (health : ℕ → Health) (l : List ℕ) :
    (purgeLoop health l).1.Sublist l ∧
      (purgeLoop health l).1.length + (purgeLoop health l).2.1 = l.length := by
  induction l with
  | nil => exact ⟨List.Sublist.refl _, rfl⟩
  | cons h hs ih =>
      obtain ⟨hsub, hlen⟩ := ih
      unfold purgeLoop
      split
      · refine ⟨hsub.cons_cons h, ?_⟩
        simp only [List.length_cons]
        omega
      · refine ⟨hsub.cons h, ?_⟩
        simp only [List.length_cons]
        omega
      · exact ⟨List.Sublist.refl _, rfl⟩

/-- The janitor closes some of the sessions, none of them at or below the minimum. -/
theorem janitorLoop_spec (minSessions : ℤ) (tooLong : ℕ → Bool) (health : ℕ → Health)
    (l : List ℕ) (n : ℤ) :
    let r := janitorLoop minSessions tooLong health l n
    r.1.Sublist l ∧ r.2.1 - r.1.length = n - l.length ∧ r.2.1 ≤ n ∧
      ∀ m ∈ r.2.2, minSessions ≤ m := by
  induction l generalizing n with
  | nil => exact ⟨List.Sublist.refl _, rfl, Int.le_refl _, fun m hm => absurd hm List.not_mem_nil⟩
  | cons h hs ih =>
      have hstop : (h :: hs).Sublist (h :: hs) ∧ n - (h :: hs).length = n - (h :: hs).length ∧
          n ≤ n ∧ ∀ m ∈ ([] : List ℤ), minSessions ≤ m :=
        ⟨List.Sublist.refl _, rfl, Int.le_refl _, fun m hm => absurd hm List.not_mem_nil⟩
      dsimp only
      unfold janitorLoop
      split_ifs with hmin hclose hthrows
      · have hih := ih (n - 1)
        generalize janitorLoop minSessions tooLong health hs (n - 1) = r at hih ⊢
        obtain ⟨kept, n', closed⟩ := r
        obtain ⟨hsub, hlen, hle, hall⟩ := hih
        dsimp only at hsub hlen hle hall ⊢
        refine ⟨hsub.cons h, ?_, ?_, ?_⟩
        · simp only [List.length_cons]
          push_cast
          omega
        · omega
        · intro m hm
          rcases List.mem_cons.mp hm with rfl | hm
          · omega
          · exact hall m hm
      · exact hstop
      · have hih := ih n
        generalize janitorLoop minSessions tooLong health hs n = r at hih ⊢
        obtain ⟨kept, n', closed⟩ := r
        obtain ⟨hsub, hlen, hle, hall⟩ := hih
        dsimp only at hsub hlen hle hall ⊢
        refine ⟨hsub.cons_cons h, ?_, hle, hall⟩
        simp only [List.length_cons]
        push_cast
        omega
      · exact hstop

theorem closeAll_eq {l : List ℕ} {n : ℤ} (h : l.length ≤ n) : closeAll l n = n - l.length := by
  induction l generalizing n with
  | nil => simp [closeAll]
  | cons a l ih =>
      simp only [List.length_cons] at h
      push_cast at h
      have hpos : 0 < n := by omega
      have hfold : closeAll (a :: l) n = closeAll l (n - 1) := by
        simp [closeAll, hpos]
      rw [hfold, ih (by omega)]
      simp only [List.length_cons]
      push_cast
      omega

/-! ### The invariant of the allowed runs -/

/-- The accounting, and what it rests on. -/
structure Inv (s : SessionPool) : Prop extends Safe s where
  nodup : (s._idleSessions ++ s._activeSessions).Nodup
  fresh : ∀ h ∈ s._idleSessions ++ s._activeSessions, h < s.nextHolder
  freshHeld : ∀ c h, (s.client c).holder = some h → h < s.nextHolder
  heldActive : ∀ c h, (s.client c).holder = some h →
    h ∈ s._activeSessions ∨ h ∈ s.failed ∨ s.closed = true
  closedEmpty : s.closed = true → s._idleSessions = [] ∧ s._activeSessions = []
  returnedClosed : s.returned = true → s.closed = true

theorem inv_init (minSessions : ℤ) {maxSessions : ℤ} (h : 0 ≤ maxSessions) :
    (init minSessions maxSessions).Inv := by
  constructor
  · constructor <;> simp [init, Client.holder, h]
  all_goals simp [init, Client.holder]

section steps

variable {s : SessionPool}

/-- `shutdown` has not returned from a pool whose sessions are not closed. -/
theorem Inv.returned_eq_false (h : s.Inv) (hclosed : s.closed = false) : s.returned = false := by
  by_contra hr
  have := h.returnedClosed (by simpa using hr)
  rw [hclosed] at this
  cases this

/-- Sessions stay with one client each when only `c` and `k` change: no other client has `k`. -/
theorem Inv.oneClient_update (h : s.Inv) {client' : ℕ → Client} {c k : ℕ}
    (hold : ∀ {c' x}, (client' c').holder = some x →
      (c' = c ∧ x = k) ∨ (x ≠ k ∧ (s.client c').holder = some x))
    (c₁ c₂ x : ℕ) (h₁ : (client' c₁).holder = some x) (h₂ : (client' c₂).holder = some x) :
    c₁ = c₂ := by
  rcases hold h₁ with ⟨rfl, rfl⟩ | ⟨hx₁, h₁⟩
  · rcases hold h₂ with ⟨rfl, -⟩ | ⟨hx₂, -⟩
    · rfl
    · exact absurd rfl hx₂
  · rcases hold h₂ with ⟨-, rfl⟩ | ⟨-, h₂⟩
    · exact absurd rfl hx₁
    · exact h.oneClient c₁ c₂ x h₁ h₂

theorem Inv.goto_free (h : s.Inv) (c : ℕ) {p : Client} (hp : p.holder = none) :
    (s.goto c p).Inv := by
  have hold : ∀ {c' k}, (Function.update s.client c p c').holder = some k →
      (s.client c').holder = some k := by
    intro c' k hk
    by_cases hc : c' = c
    · subst hc
      rw [Function.update_self, hp] at hk
      cases hk
    · rwa [Function.update_of_ne hc] at hk
  refine ⟨⟨h.allocated, h.capacity, ?_, ?_, h.onceIdle, h.janitor, h.afterShutdown, h.notLate,
    h.known⟩, h.nodup, h.fresh, ?_, ?_, h.closedEmpty, h.returnedClosed⟩
  · intro c₁ c₂ k h₁ h₂
    exact h.oneClient c₁ c₂ k (hold h₁) (hold h₂)
  · intro c' k hk
    exact h.notIdle c' k (hold hk)
  · intro c' k hk
    exact h.freshHeld c' k (hold hk)
  · intro c' k hk
    exact h.heldActive c' k (hold hk)

theorem Inv.goto_same (h : s.Inv) {c : ℕ} {p : Client} (hp : p.holder = (s.client c).holder) :
    (s.goto c p).Inv := by
  have hsame : ∀ c', (Function.update s.client c p c').holder = (s.client c').holder := by
    intro c'
    by_cases hc : c' = c
    · subst hc
      rw [Function.update_self, hp]
    · rw [Function.update_of_ne hc]
  refine ⟨⟨h.allocated, h.capacity, ?_, ?_, h.onceIdle, h.janitor, h.afterShutdown, h.notLate,
    h.known⟩, h.nodup, h.fresh, ?_, ?_, h.closedEmpty, h.returnedClosed⟩
  · intro c₁ c₂ k h₁ h₂
    simp only [SessionPool.goto, hsame] at h₁ h₂
    exact h.oneClient c₁ c₂ k h₁ h₂
  · intro c' k hk
    simp only [SessionPool.goto, hsame] at hk
    exact h.notIdle c' k hk
  · intro c' k hk
    simp only [SessionPool.goto, hsame] at hk
    exact h.freshHeld c' k hk
  · intro c' k hk
    simp only [SessionPool.goto, hsame] at hk
    exact h.heldActive c' k hk

theorem Inv.shrink (h : s.Inv) {kept : List ℕ} {n : ℤ} (hsub : kept.Sublist s._idleSessions)
    (hn : n - kept.length = s._nSessions - s._idleSessions.length) :
    Inv { s with _idleSessions := kept, _nSessions := n } := by
  have hlen := hsub.length_le
  have hall := h.allocated
  have hcap := h.capacity
  have hempty : s._idleSessions = [] → kept = [] := fun he => List.sublist_nil.mp (he ▸ hsub)
  refine ⟨⟨?_, ?_, h.oneClient, ?_, h.onceIdle.sublist hsub, h.janitor, ?_, h.notLate, h.known⟩,
    h.nodup.sublist (hsub.append_right _), ?_, h.freshHeld, h.heldActive, ?_, h.returnedClosed⟩
  · dsimp only
    omega
  · dsimp only
    omega
  · intro c k hk hmem
    exact h.notIdle c k hk (hsub.subset hmem)
  · intro hr
    exact ⟨hempty (h.afterShutdown hr).1, (h.afterShutdown hr).2⟩
  · intro k hk
    exact h.fresh k ((hsub.append_right _).subset hk)
  · intro hc
    exact ⟨hempty (h.closedEmpty hc).1, (h.closedEmpty hc).2⟩

theorem Inv.purgeDeadSessions (h : s.Inv) (health : ℕ → Health) :
    (s.purgeDeadSessions health).1.Inv := by
  unfold SessionPool.purgeDeadSessions
  split_ifs
  · exact h
  · have hspec := purgeLoop_spec health s._idleSessions
    generalize purgeLoop health s._idleSessions = r at hspec ⊢
    obtain ⟨kept, erased, threw⟩ := r
    obtain ⟨hsub, hlen⟩ := hspec
    dsimp only at hsub hlen ⊢
    apply h.shrink hsub
    omega

theorem Inv.create (h : s.Inv) (hidle : s._idleSessions = []) (hclosed : s.closed = false)
    (hn : s._nSessions < s._maxSessions) :
    Inv { s with
      _idleSessions := [s.nextHolder]
      _nSessions := s._nSessions + 1
      nextHolder := s.nextHolder + 1 } := by
  have hall := h.allocated
  have hnew : s.nextHolder ∉ s._activeSessions := by
    intro hm
    exact Nat.lt_irrefl _ (h.fresh _ (List.mem_append_right _ hm))
  have hr := h.returned_eq_false hclosed
  refine ⟨⟨?_, ?_, h.oneClient, ?_, List.nodup_singleton _, h.janitor, ?_, h.notLate, h.known⟩,
    ?_, ?_, ?_, h.heldActive, ?_, h.returnedClosed⟩
  · simp only [hidle, List.length_nil, List.length_singleton] at hall ⊢
    push_cast at hall ⊢
    omega
  · dsimp only
    omega
  · intro c k hk hmem
    rw [List.mem_singleton.mp hmem] at hk
    exact Nat.lt_irrefl _ (h.freshHeld c _ hk)
  · intro hr'
    rw [hr] at hr'
    cases hr'
  · have hn' := h.nodup
    rw [hidle] at hn'
    exact List.nodup_cons.mpr ⟨hnew, hn'⟩
  · intro k hk
    rcases List.mem_cons.mp hk with rfl | hk
    · exact Nat.lt_succ_self _
    · exact Nat.lt_succ_of_lt (h.fresh k (List.mem_append_right _ hk))
  · intro c k hk
    exact Nat.lt_succ_of_lt (h.freshHeld c k hk)
  · intro hc
    rw [hclosed] at hc
    cases hc

/-- The first idle session goes to a client that has none. -/
theorem Inv.handOut (h : s.Inv) {c k : ℕ} {rest : List ℕ} (hidle : s._idleSessions = k :: rest)
    (hc : (s.client c).holder = none) : (s.handOut c k rest).Inv := by
  have hall := h.allocated
  have hclosed : s.closed = false := by
    by_contra hcl
    have := (h.closedEmpty (by simpa using hcl)).1
    rw [hidle] at this
    cases this
  have hr := h.returned_eq_false hclosed
  have hkmem : k ∈ s._idleSessions := by
    rw [hidle]
    exact List.mem_cons_self
  have hnone : ∀ c', (s.client c').holder ≠ some k := fun c' hk => h.notIdle c' k hk hkmem
  have hn := h.nodup
  rw [hidle, List.cons_append] at hn
  have hold : ∀ {c' k'}, (Function.update s.client c (.holds k) c').holder = some k' →
      (c' = c ∧ k' = k) ∨ (k' ≠ k ∧ (s.client c').holder = some k') := by
    intro c' k' hk'
    by_cases hcc : c' = c
    · subst hcc
      rw [Function.update_self] at hk'
      exact Or.inl ⟨rfl, (Option.some.inj hk').symm⟩
    · rw [Function.update_of_ne hcc] at hk'
      refine Or.inr ⟨?_, hk'⟩
      rintro rfl
      exact hnone c' hk'
  refine ⟨⟨?_, h.capacity, ?_, ?_, ?_, h.janitor, ?_, ?_, h.known⟩, ?_, ?_, ?_, ?_, ?_,
    h.returnedClosed⟩
  · simp only [SessionPool.handOut, SessionPool.goto, hidle, List.length_cons] at hall ⊢
    push_cast at hall ⊢
    omega
  · exact h.oneClient_update hold
  · intro c' k' hk' hmem
    rcases hold hk' with ⟨-, rfl⟩ | ⟨-, hk'⟩
    · exact (List.nodup_cons.mp hn).1 (List.mem_append_left _ hmem)
    · apply h.notIdle c' k' hk'
      rw [hidle]
      exact List.mem_cons_of_mem _ hmem
  · have hi := h.onceIdle
    rw [hidle] at hi
    exact (List.nodup_cons.mp hi).2
  · intro hr'
    simp only [SessionPool.handOut, SessionPool.goto, hr] at hr'
    cases hr'
  · simp [SessionPool.handOut, SessionPool.goto, hr, h.notLate]
  · exact List.perm_middle.nodup_iff.mpr hn
  · intro k' hk'
    apply h.fresh k'
    rw [hidle, List.cons_append]
    exact List.perm_middle.mem_iff.mp hk'
  · intro c' k' hk'
    rcases hold hk' with ⟨-, rfl⟩ | ⟨-, hk'⟩
    · exact h.fresh k' (List.mem_append_left _ hkmem)
    · exact h.freshHeld c' k' hk'
  · intro c' k' hk'
    rcases hold hk' with ⟨-, rfl⟩ | ⟨-, hk'⟩
    · exact Or.inl List.mem_cons_self
    · rcases h.heldActive c' k' hk' with hm | hm | hm
      · exact Or.inl (List.mem_cons_of_mem _ hm)
      · exact Or.inr (Or.inl hm)
      · exact Or.inr (Or.inr hm)
  · intro hcl
    simp only [SessionPool.handOut, SessionPool.goto, hclosed] at hcl
    cases hcl

theorem purgeDeadSessions_frame (s : SessionPool) (health : ℕ → Health) :
    let s' := (s.purgeDeadSessions health).1
    s'.client = s.client ∧ s'.closed = s.closed ∧ s'._maxSessions = s._maxSessions ∧
      (s._idleSessions = [] → s'._nSessions = s._nSessions) := by
  unfold SessionPool.purgeDeadSessions
  split_ifs
  · exact ⟨rfl, rfl, rfl, fun _ => rfl⟩
  · refine ⟨rfl, rfl, rfl, fun hidle => ?_⟩
    simp [hidle, purgeLoop]

theorem Inv.get (h : s.Inv) {c : ℕ} (hc : s.client c = .getting) (health : ℕ → Health)
    {create : Bool}
    (hallowed : s.closed = true → ¬ (create = true ∧ s._nSessions < s._maxSessions)) :
    (s.get c health create).Inv := by
  have hp := h.purgeDeadSessions health
  obtain ⟨hclient, hclosed, hmax, hn⟩ := purgeDeadSessions_frame s health
  unfold SessionPool.get
  generalize s.purgeDeadSessions health = r at hp hclient hclosed hmax hn ⊢
  obtain ⟨s', threw⟩ := r
  dsimp only at hp hclient hclosed hmax hn ⊢
  have hholder : (s'.client c).holder = none := by
    rw [hclient, hc]
    rfl
  cases threw with
  | true => exact hp.goto_free c rfl
  | false =>
      rw [if_neg Bool.false_ne_true]
      cases hidle : s'._idleSessions with
      | cons k rest => exact hp.handOut hidle hholder
      | nil =>
          dsimp only
          split_ifs with hlt hcreate
          · have hopen : s'.closed = false := by
              by_contra hcl
              have hcl' : s.closed = true := by
                rw [← hclosed]
                simpa using hcl
              refine hallowed hcl' ⟨hcreate, ?_⟩
              rw [← hn (h.closedEmpty hcl').1, ← hmax]
              exact hlt
            exact (hp.create hidle hopen hlt).handOut (c := c) rfl hholder
          · exact hp.goto_free c rfl
          · exact hp.goto_free c rfl

/-- A session of a client leaves the active list: for the idle list, or for good. -/
theorem Inv.leave (h : s.Inv) {c k : ℕ} (hc : (s.client c).holder = some k)
    (hk : k ∈ s._activeSessions) (hclosed : s.closed = false) {idle' failed' : List ℕ} {n' : ℤ}
    {p : Client} (hidle : idle' = s._idleSessions ∨ idle' = s._idleSessions ++ [k])
    (hp : p.holder = none ∨ (p.holder = some k ∧ k ∈ failed' ∧ idle' = s._idleSessions))
    (hfailed : ∀ x ∈ s.failed, x ∈ failed')
    (hn : n' = (s._activeSessions.erase k).length + idle'.length) :
    Inv (goto c p { s with
      _activeSessions := s._activeSessions.erase k
      _idleSessions := idle'
      _nSessions := n'
      failed := failed' }) := by
  have hall := h.allocated
  have hcap := h.capacity
  have hlen := List.length_erase_of_mem hk
  have hpos := List.length_pos_of_mem hk
  have hactive : s._activeSessions.Nodup := (List.nodup_append.mp h.nodup).2.1
  have hki : k ∉ s._idleSessions := h.notIdle c k hc
  have hr := h.returned_eq_false hclosed
  have hsub : ∀ x ∈ idle', x ∈ s._idleSessions ∨ x = k := by
    intro x hx
    rcases hidle with rfl | rfl
    · exact Or.inl hx
    · simpa using hx
  -- the other clients keep their sessions, which are not `k`
  have hold : ∀ {c' x}, (Function.update s.client c p c').holder = some x →
      (c' = c ∧ x = k ∧ k ∈ failed' ∧ idle' = s._idleSessions) ∨
        (x ≠ k ∧ (s.client c').holder = some x) := by
    intro c' x hx
    by_cases hcc : c' = c
    · subst hcc
      rw [Function.update_self] at hx
      rcases hp with hp | ⟨hp, hf, hi⟩
      · rw [hp] at hx
        cases hx
      · rw [hp] at hx
        exact Or.inl ⟨rfl, (Option.some.inj hx).symm, hf, hi⟩
    · rw [Function.update_of_ne hcc] at hx
      refine Or.inr ⟨?_, hx⟩
      rintro rfl
      exact hcc (h.oneClient c' c x hx hc)
  have hnodup : (idle' ++ s._activeSessions.erase k).Nodup := by
    rcases hidle with rfl | rfl
    · exact h.nodup.sublist (List.erase_sublist.append_left _)
    · rw [List.append_assoc]
      refine ((List.perm_cons_erase hk).append_left _).nodup_iff.mp h.nodup
  refine ⟨⟨?_, ?_, ?_, ?_, ?_, h.janitor, ?_, h.notLate, h.known⟩, hnodup, ?_, ?_, ?_, ?_,
    h.returnedClosed⟩
  · exact hn
  · simp only [SessionPool.goto]
    rcases hidle with rfl | rfl
    · omega
    · simp only [List.length_append, List.length_singleton] at hn
      push_cast at hn
      omega
  · apply h.oneClient_update
    intro c' x hx
    exact (hold hx).imp_left fun hx => ⟨hx.1, hx.2.1⟩
  · intro c' x hx hmem
    rcases hold hx with ⟨-, rfl, -, hi⟩ | ⟨hne, hx⟩
    · simp only [SessionPool.goto, hi] at hmem
      exact hki hmem
    · rcases hsub x hmem with hm | hm
      · exact h.notIdle c' x hx hm
      · exact hne hm
  · exact (List.nodup_append.mp hnodup).1
  · intro hr'
    simp only [SessionPool.goto, hr] at hr'
    cases hr'
  · intro x hx
    apply h.fresh x
    rcases List.mem_append.mp hx with hx | hx
    · rcases hsub x hx with hm | rfl
      · exact List.mem_append_left _ hm
      · exact List.mem_append_right _ hk
    · exact List.mem_append_right _ (List.mem_of_mem_erase hx)
  · intro c' x hx
    rcases hold hx with ⟨-, rfl, -, -⟩ | ⟨-, hx⟩
    · exact h.freshHeld c x hc
    · exact h.freshHeld c' x hx
  · intro c' x hx
    rcases hold hx with ⟨-, rfl, hf, -⟩ | ⟨hne, hx⟩
    · exact Or.inr (Or.inl hf)
    · rcases h.heldActive c' x hx with hm | hm | hm
      · exact Or.inl ((hactive.mem_erase_iff).mpr ⟨hne, hm⟩)
      · exact Or.inr (Or.inl (hfailed x hm))
      · exact Or.inr (Or.inr hm)
  · intro hcl
    simp only [SessionPool.goto, hclosed] at hcl
    cases hcl

theorem Inv.putBack (h : s.Inv) {c k : ℕ} (hc : s.client c = .returning k)
    (hclosed : s.closed = false) (hk : k ∉ s.failed) (health : Health) (reset : Bool) :
    (s.putBack c k health reset).Inv := by
  have hholder : (s.client c).holder = some k := by
    rw [hc]
    rfl
  have hactive : k ∈ s._activeSessions := by
    rcases h.heldActive c k hholder with hm | hm | hm
    · exact hm
    · exact absurd hm hk
    · rw [hclosed] at hm
      cases hm
  have hall := h.allocated
  have hlen := List.length_erase_of_mem hactive
  have hpos := List.length_pos_of_mem hactive
  simp only [SessionPool.putBack, hactive, if_true]
  split
  · apply h.leave hholder hactive hclosed (Or.inr rfl) (Or.inl rfl) (fun _ hx => hx)
    simp only [List.length_append, List.length_singleton]
    push_cast
    omega
  · apply h.leave hholder hactive hclosed (Or.inl rfl) (Or.inl rfl) (fun _ hx => hx)
    omega
  · refine h.leave hholder hactive hclosed (Or.inl rfl)
      (Or.inr ⟨rfl, List.mem_cons_self, rfl⟩) (fun _ hx => List.mem_cons_of_mem _ hx) ?_
    omega

theorem Inv.onJanitorTimer (h : s.Inv) (tooLong : ℕ → Bool) (health : ℕ → Health) :
    (s.onJanitorTimer tooLong health).Inv := by
  have hspec := janitorLoop_spec s._minSessions tooLong health s._idleSessions s._nSessions
  unfold SessionPool.onJanitorTimer
  generalize janitorLoop s._minSessions tooLong health s._idleSessions s._nSessions = r
    at hspec ⊢
  obtain ⟨kept, n, closed⟩ := r
  obtain ⟨hsub, hn, hle, hmin⟩ := hspec
  dsimp only at hsub hn hle hmin ⊢
  have hs := h.shrink hsub hn
  refine ⟨⟨hs.allocated, hs.capacity, hs.oneClient, hs.notIdle, hs.onceIdle, fun m hm => ?_,
    hs.afterShutdown, hs.notLate, hs.known⟩, hs.nodup, hs.fresh, hs.freshHeld, hs.heldActive,
    hs.closedEmpty, hs.returnedClosed⟩
  rcases List.mem_append.mp hm with hm | hm
  · exact h.janitor m hm
  · exact hmin m hm

theorem Inv.closeSessions (h : s.Inv) (t : ℕ) : (s.closeSessions t).Inv := by
  have hall := h.allocated
  have hcap := h.capacity
  have hn : closeAll s._activeSessions (closeAll s._idleSessions s._nSessions) = 0 := by
    rw [closeAll_eq (l := s._idleSessions) (by omega), closeAll_eq (by omega)]
    omega
  refine ⟨⟨?_, ?_, h.oneClient, fun c k _ => List.not_mem_nil, List.nodup_nil, h.janitor,
    fun _ => ⟨rfl, rfl⟩, h.notLate, h.known⟩, List.nodup_nil, fun k hk => absurd hk List.not_mem_nil,
    h.freshHeld, fun c k _ => Or.inr (Or.inr rfl), fun _ => ⟨rfl, rfl⟩, fun _ => rfl⟩
  · simp [SessionPool.closeSessions, hn]
  · simp only [SessionPool.closeSessions, hn]
    omega

/-- The flag, the timer and the threads in `shutdown` are not part of the accounting. -/
theorem Inv.control (h : s.Inv) (flag inside stopped : Bool) (closing : ℕ → Closing) :
    Inv { s with
      _shutdown := flag
      janitorInside := inside
      timerStopped := stopped
      closing := closing } :=
  ⟨⟨h.allocated, h.capacity, h.oneClient, h.notIdle, h.onceIdle, h.janitor, h.afterShutdown,
    h.notLate, h.known⟩, h.nodup, h.fresh, h.freshHeld, h.heldActive, h.closedEmpty,
    h.returnedClosed⟩

theorem Inv.step (h : s.Inv) {a : Act} {s' : SessionPool}
    (hs : Guarded Allowed Step s a s') : s'.Inv := by
  obtain ⟨hallowed, hs⟩ := hs
  unfold Step at hs
  cases a with
  | getCheck c =>
      simp only [exec, Option.ite_none_right_eq_some, Option.some_inj] at hs
      obtain ⟨-, rfl⟩ := hs
      split_ifs
      · exact h
      · exact h.goto_free c rfl
  | getLocked c health create =>
      simp only [exec, Option.ite_none_right_eq_some, Option.some_inj] at hs
      obtain ⟨hc, rfl⟩ := hs
      exact h.get hc health hallowed
  | closeCheck c =>
      simp only [exec] at hs
      split at hs
      · next k hc =>
          obtain rfl := Option.some.inj hs
          split_ifs
          · exact h.goto_free c rfl
          · exact h.goto_same (by rw [hc]; rfl)
      · cases hs
  | putBackLocked c health reset =>
      simp only [exec] at hs
      split at hs
      · next k hc =>
          obtain rfl := Option.some.inj hs
          exact h.putBack hc hallowed.1 (hallowed.2 k hc) health reset
      · cases hs
  | janitorCheck =>
      simp only [exec] at hs
      split_ifs at hs
      obtain rfl := Option.some.inj hs
      exact h.control s._shutdown (!s._shutdown) s.timerStopped s.closing
  | janitorLocked tooLong health =>
      simp only [exec, Option.ite_none_right_eq_some, Option.some_inj] at hs
      obtain ⟨-, rfl⟩ := hs
      exact h.onJanitorTimer tooLong health
  | shutdownCall t =>
      simp only [exec, Option.ite_none_right_eq_some, Option.some_inj] at hs
      obtain ⟨-, rfl⟩ := hs
      split_ifs with hflag
      · -- a second call returns at once; the lists are empty already
        have hclosed : s.closed = true := hallowed hflag
        exact ⟨⟨h.allocated, h.capacity, h.oneClient, h.notIdle, h.onceIdle, h.janitor,
          fun _ => h.closedEmpty hclosed, h.notLate, h.known⟩, h.nodup, h.fresh, h.freshHeld,
          h.heldActive, h.closedEmpty, fun _ => hclosed⟩
      · exact h.control true s.janitorInside s.timerStopped _
  | timerStop t =>
      simp only [exec, Option.ite_none_right_eq_some, Option.some_inj] at hs
      obtain ⟨-, rfl⟩ := hs
      exact h.control s._shutdown s.janitorInside true _
  | shutdownLocked t =>
      simp only [exec, Option.ite_none_right_eq_some, Option.some_inj] at hs
      obtain ⟨-, rfl⟩ := hs
      exact h.closeSessions t

end steps

/-- **Accounting.**  In every state of a run of a pool with a non-negative capacity in which
all steps are allowed, the accounting of the pool is right. -/
theorem accounting_holds {minSessions maxSessions : ℤ} (hmax : 0 ≤ maxSessions)
    {acts : List Act} {s : SessionPool}
    (h : Run (Guarded Allowed Step) (init minSessions maxSessions) acts s) : s.Safe := by
  have hinv : s.Inv :=
    h.invariant (fun _ _ _ hi hs => hi.step hs) (inv_init minSessions hmax)
  exact hinv.toSafe

/-- Two clients share a pool for two; one session is idle for too long, one is returned bad,
and the pool is shut down. -/
theorem accounting_holds_small : ∃ s : SessionPool, s.Safe ∧ s.returned = true :=
  have hrun : Run (Guarded Allowed Step) (init 0 2)
      [.getCheck 1, .getLocked 1 (fun _ => .good) true, .getCheck 2,
        .getLocked 2 (fun _ => .good) true, .closeCheck 1, .putBackLocked 1 .good true,
        .janitorCheck, .janitorLocked (fun _ => true) (fun _ => .good), .closeCheck 2,
        .putBackLocked 2 .bad true, .shutdownCall 1, .timerStop 1, .shutdownLocked 1] _ :=
    .cons ⟨trivial, rfl⟩ <| .cons ⟨nofun, rfl⟩ <| .cons ⟨trivial, rfl⟩ <| .cons ⟨nofun, rfl⟩ <|
    .cons ⟨trivial, rfl⟩ <| .cons ⟨⟨rfl, fun _ _ => List.not_mem_nil⟩, rfl⟩ <|
    .cons ⟨trivial, rfl⟩ <| .cons ⟨trivial, rfl⟩ <| .cons ⟨trivial, rfl⟩ <|
    .cons ⟨⟨rfl, fun _ _ => List.not_mem_nil⟩, rfl⟩ <| .cons ⟨nofun, rfl⟩ <|
    .cons ⟨trivial, rfl⟩ <| .cons ⟨trivial, rfl⟩ <| .refl _
  ⟨_, accounting_holds (by decide) hrun, by rfl⟩

/-- The accounting fails without the restriction:
* a client is past the look at the flag when `shutdown` runs and returns, and is then handed
  a new session;
* a client is past the look at the flag when `shutdown` empties the lists, and its session is
  unknown;
* the `reset` of a returned session fails, and the destructor of the client returns it again;
* a second `shutdown` returns while the first has not yet emptied the lists. -/
theorem accounting_fails :
    (∃ s, Run Step (init 0 2) [.getCheck 1, .shutdownCall 9, .timerStop 9, .shutdownLocked 9,
        .getLocked 1 (fun _ => .good) true] s ∧
      s.log.late = 1 ∧ s.returned = true ∧ s._activeSessions = [0] ∧ ¬ s.Safe) ∧
    (∃ s, Run Step (init 0 2) [.getCheck 1, .getLocked 1 (fun _ => .good) true, .closeCheck 1,
        .shutdownCall 9, .timerStop 9, .shutdownLocked 9, .putBackLocked 1 .good true] s ∧
      s.log.unknown = 1 ∧ ¬ s.Safe) ∧
    (∃ s, Run Step (init 0 2) [.getCheck 1, .getLocked 1 (fun _ => .good) true, .closeCheck 1,
        .putBackLocked 1 .good false, .closeCheck 1, .putBackLocked 1 .good true] s ∧
      s.log.unknown = 1 ∧ ¬ s.Safe) ∧
    ∃ s, Run Step (init 0 2) [.getCheck 1, .getLocked 1 (fun _ => .good) true, .shutdownCall 8,
        .shutdownCall 9] s ∧
      s.returned = true ∧ s._activeSessions = [0] ∧ ¬ s.Safe := by
  have hlate : ∀ s : SessionPool, s.log.late = 1 → ¬ s.Safe := by
    intro s h hs
    rw [hs.notLate] at h
    cases h
  have hunknown : ∀ s : SessionPool, s.log.unknown = 1 → ¬ s.Safe := by
    intro s h hs
    rw [hs.known] at h
    cases h
  have hkept : ∀ s : SessionPool, s.returned = true → s._activeSessions = [0] → ¬ s.Safe := by
    intro s hr ha hs
    rw [(hs.afterShutdown hr).2] at ha
    cases ha
  refine ⟨?_, ?_, ?_, ?_⟩
  · exact ⟨_, .cons rfl <| .cons rfl <| .cons rfl <| .cons rfl <| .cons rfl <| .refl _, rfl, rfl,
      rfl, hlate _ rfl⟩
  · exact ⟨_, .cons rfl <| .cons rfl <| .cons rfl <| .cons rfl <| .cons rfl <| .cons rfl <|
      .cons rfl <| .refl _, rfl, hunknown _ rfl⟩
  · exact ⟨_, .cons rfl <| .cons rfl <| .cons rfl <| .cons rfl <| .cons rfl <| .cons rfl <|
      .refl _, rfl, hunknown _ rfl⟩
  · exact ⟨_, .cons rfl <| .cons rfl <| .cons rfl <| .cons rfl <| .refl _, rfl, rfl,
      hkept _ rfl rfl⟩

end SessionPool

end Poco.Data
