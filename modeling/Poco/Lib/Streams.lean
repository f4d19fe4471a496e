import Mathlib.Data.List.Basic
import Mathlib.Data.Nat.Basic

/-! # Reading bytes in a stateful program

A stateful program that may stop is an `EStateM` computation; `bind_of_ok` runs it call by
call.  A `Source` is anything that hands out bytes one at a time and takes one back.
`Reads s bs s'` says that the next bytes of `s` are `bs` and that `s'` is the source after
them.  A stream buffer that computes its bytes `Delivers` them one after another and `Drains` when the
end of file follows.

Programs that look at one byte ahead keep it beside the source: `Ahead ch s bs s'` says that
`ch` is the first byte of `bs`, and that the others come from `s`.  `collect` is the loop that
takes bytes while they meet a test. -/

namespace Poco.Lib

variable {ε σ α β : Type}

/-- A call that succeeds hands its result to what follows. -/
theorem bind_of_ok {x : EStateM ε σ α} {f : α → EStateM ε σ β} {s s' : σ} {a : α}
    (h : x s = .ok a s') : (x >>= f) s = f a s' := by
  simp [bind, EStateM.bind, h]

theorem bind_of_error {x : EStateM ε σ α} {f : α → EStateM ε σ β} {s s' : σ} {e : ε}
    (h : x s = .error e s') : (x >>= f) s = .error e s' := by
  simp [bind, EStateM.bind, h]

/-- A computation that succeeds is two calls that succeed. -/
theorem exists_of_bind_ok {x : EStateM ε σ α} {f : α → EStateM ε σ β} {s s' : σ} {b : β}
    (h : (x >>= f) s = .ok b s') : ∃ a t, x s = .ok a t ∧ f a t = .ok b s' := by
  cases hx : x s with
  | ok a t =>
      rw [bind_of_ok hx] at h
      exact ⟨a, t, rfl, h⟩
  | error e t =>
      rw [bind_of_error hx] at h
      cases h

theorem get_run (s : σ) : (get : EStateM ε σ σ) s = .ok s s := rfl

theorem modify_run (f : σ → σ) (s : σ) : (modify f : EStateM ε σ PUnit) s = .ok ⟨⟩ (f s) := rfl

theorem throw_run (e : ε) (s : σ) : (throw e : EStateM ε σ α) s = .error e s := rfl

theorem get_bind (f : σ → EStateM ε σ β) (s : σ) : ((get : EStateM ε σ σ) >>= f) s = f s s := rfl

theorem set_bind (s' : σ) (f : PUnit → EStateM ε σ β) (s : σ) :
    ((set s' : EStateM ε σ PUnit) >>= f) s = f ⟨⟩ s' := rfl

/-- The state in which a call ends. -/
def finalState : EStateM.Result ε σ α → σ
  | .ok _ s => s
  | .error _ s => s

/-- The value a call returns. -/
def returned : EStateM.Result ε σ α → Except ε α
  | .ok a _ => .ok a
  | .error e _ => .error e

theorem ok_of_returned {x : EStateM.Result ε σ α} {a : α} (h : returned x = .ok a) :
    x = .ok a (finalState x) := by
  cases x with
  | ok b s =>
      cases h
      rfl
  | error e s => cases h

theorem error_of_returned {x : EStateM.Result ε σ α} {e : ε} (h : returned x = .error e) :
    x = .error e (finalState x) := by
  cases x with
  | ok a s => cases h
  | error e' s =>
      cases h
      rfl

/-- Where `P` holds of the state before a call, `Q` holds after it, however it ends. -/
def Leads (P Q : σ → Prop) (x : EStateM ε σ α) : Prop := ∀ s, P s → Q (finalState (x s))

/-- A call keeps a condition on the state. -/
def Preserves (P : σ → Prop) (x : EStateM ε σ α) : Prop := Leads P P x

section Preserves

variable {P Q R : σ → Prop} {x : EStateM ε σ α} {f : α → EStateM ε σ β}

/-- Of two calls the second starts where the first has ended, unless the first fails. -/
theorem Leads.bind (hx : Leads P R x) (hfail : ∀ s, R s → Q s) (hf : ∀ a, Leads R Q (f a)) :
    Leads P Q (x >>= f) := by
  intro s h
  have hfirst := hx s h
  cases hr : x s with
  | ok a t =>
      rw [hr] at hfirst
      rw [bind_of_ok hr]
      exact hf a t hfirst
  | error e t =>
      rw [hr] at hfirst
      rw [bind_of_error hr]
      exact hfail t hfirst

theorem Preserves.pure (a : α) : Preserves P (pure a : EStateM ε σ α) := fun _ h => h

theorem Preserves.throw (e : ε) : Preserves P (throw e : EStateM ε σ α) := fun _ h => h

theorem Preserves.bind (hx : Preserves P x) (hf : ∀ a, Preserves P (f a)) : Preserves P (x >>= f) :=
  Leads.bind hx (fun _ h => h) hf

theorem Preserves.get_bind {f : σ → EStateM ε σ β} (hf : ∀ s, P s → P (finalState (f s s))) :
    Preserves P (get >>= f) := fun s h => hf s h

end Preserves

/-! ### Reading to the end -/

/-- The bytes that `read` returns one after another, and the state behind them. -/
inductive Delivers (read : EStateM ε σ (Option UInt8)) : σ → List UInt8 → σ → Prop
  | nil (s : σ) : Delivers read s [] s
  | cons {s t s' : σ} {c : UInt8} {bs : List UInt8} :
      read s = .ok (some c) t → Delivers read t bs s' → Delivers read s (c :: bs) s'

/-- The bytes up to the end of file. -/
def Drains (read : EStateM ε σ (Option UInt8)) (s : σ) (bs : List UInt8) (s' : σ) : Prop :=
  ∃ t, Delivers read s bs t ∧ read t = .ok none s'

/-- A call fails after some bytes. -/
def Fails (read : EStateM ε σ (Option UInt8)) (s : σ) : Prop :=
  ∃ bs t e s', Delivers read s bs t ∧ read t = .error e s'

section

variable {read : EStateM ε σ (Option UInt8)} {s t s' : σ} {c : UInt8} {bs bs' : List UInt8}

theorem drains_nil (h : read s = .ok none s') : Drains read s [] s' := ⟨s, .nil s, h⟩

theorem Drains.cons (h : read s = .ok (some c) t) (hbs : Drains read t bs s') :
    Drains read s (c :: bs) s' := by
  obtain ⟨u, hdel, hend⟩ := hbs
  exact ⟨u, .cons h hdel, hend⟩

/-- The end of file and the bytes before it depend on the first call. -/
theorem Drains.congr (h : read s = read t) (hbs : Drains read t bs s') : Drains read s bs s' := by
  obtain ⟨u, hdel, hend⟩ := hbs
  cases hdel with
  | nil => exact drains_nil (h.trans hend)
  | cons hc hdel => exact ⟨u, .cons (h.trans hc) hdel, hend⟩

/-- There is only one sequence of bytes up to the end of file. -/
theorem Drains.unique {t' : σ} (h : Drains read s bs s') (h' : Drains read s bs' t') : bs = bs' := by
  obtain ⟨t, hdel, hend⟩ := h
  obtain ⟨u, hdel', hend'⟩ := h'
  induction hdel generalizing bs' with
  | nil s =>
      cases hdel' with
      | nil => rfl
      | cons hc _ => simp [hend] at hc
  | cons hc _ ih =>
      cases hdel' with
      | nil => simp [hend'] at hc
      | cons hc' hdel' =>
          obtain ⟨hbyte, hstate⟩ := EStateM.Result.ok.inj (hc.symm.trans hc')
          obtain rfl := Option.some.inj hbyte
          subst hstate
          rw [ih hend hdel']

theorem delivers_steps (state : ℕ → σ)
    (h : ∀ i c, bs[i]? = some c → read (state i) = .ok (some c) (state (i + 1))) :
    Delivers read (state 0) bs (state bs.length) := by
  induction bs generalizing state with
  | nil => exact .nil _
  | cons c bs ih =>
      refine .cons (h 0 c rfl) ?_
      exact ih (fun i => state (i + 1)) fun i d hd => h (i + 1) d hd

theorem Delivers.append (h : Delivers read s bs t) (h' : Delivers read t bs' s') :
    Delivers read s (bs ++ bs') s' := by
  induction h with
  | nil => exact h'
  | cons hc _ ih => exact .cons hc (ih h')

theorem Delivers.drains (h : Delivers read s bs t) (hbs : Drains read t bs' s') :
    Drains read s (bs ++ bs') s' := by
  induction h with
  | nil => exact hbs
  | cons hc _ ih => exact (ih hbs).cons hc

theorem Delivers.fails (h : Delivers read s bs t) (hf : Fails read t) : Fails read s := by
  obtain ⟨bs', u, e, s', hdel, herror⟩ := hf
  exact ⟨bs ++ bs', u, e, s', h.append hdel, herror⟩

theorem Drains.not_fails (h : Drains read s bs s') : ¬Fails read s := by
  rintro ⟨bs', u, e, u', hdel', herror⟩
  obtain ⟨t, hdel, hend⟩ := h
  induction hdel generalizing bs' with
  | nil s =>
      cases hdel' with
      | nil => simp [hend] at herror
      | cons hc _ => simp [hend] at hc
  | cons hc _ ih =>
      cases hdel' with
      | nil => simp [hc] at herror
      | cons hc' hdel' =>
          obtain ⟨-, hstate⟩ := EStateM.Result.ok.inj (hc.symm.trans hc')
          subst hstate
          exact ih _ hdel' hend

end

/-! ### Reading in blocks -/

/-- The blocks that a device returns for buffers of the given sizes, up to the first that is empty. -/
inductive DrainsBlocks (read : ℕ → σ → Except ε (List UInt8 × σ)) : (ℕ → ℕ) → σ → List UInt8 → σ → Prop
  | last {sizes : ℕ → ℕ} {s s' : σ} : read (sizes 0) s = .ok ([], s') → DrainsBlocks read sizes s [] s'
  | block {sizes : ℕ → ℕ} {s t s' : σ} {bs bs' : List UInt8} : read (sizes 0) s = .ok (bs, t) → bs ≠ [] →
      DrainsBlocks read (fun i => sizes (i + 1)) t bs' s' → DrainsBlocks read sizes s (bs ++ bs') s'

section

variable {read : ℕ → σ → Except ε (List UInt8 × σ)} {sizes : ℕ → ℕ} {s t s' t' : σ} {bs bs' : List UInt8}

theorem DrainsBlocks.congr (h : read (sizes 0) s = read (sizes 0) t) (hbs : DrainsBlocks read sizes t bs s') :
    DrainsBlocks read sizes s bs s' := by
  cases hbs with
  | last hlast => exact .last (h.trans hlast)
  | block hblock hne hrest => exact .block (h.trans hblock) hne hrest

theorem DrainsBlocks.unique (h : DrainsBlocks read sizes s bs s') (h' : DrainsBlocks read sizes s bs' t') :
    bs = bs' := by
  induction h generalizing bs' with
  | last hlast =>
      cases h' with
      | last _ => rfl
      | block hblock hne _ => exact absurd (Prod.mk.inj (Except.ok.inj (hlast.symm.trans hblock))).1.symm hne
  | block hblock hne _ ih =>
      cases h' with
      | last hlast => exact absurd (Prod.mk.inj (Except.ok.inj (hblock.symm.trans hlast))).1 hne
      | block hblock' _ hrest =>
          obtain ⟨rfl, rfl⟩ := Prod.mk.inj (Except.ok.inj (hblock.symm.trans hblock'))
          rw [ih hrest]

end

/-! ### Bytes one at a time -/

/-- A source of bytes. -/
class Source (σ : Type) where
  /-- The next byte; `none` at the end. -/
  sbumpc : σ → Option UInt8 × σ
  /-- Take a byte back. -/
  sputbackc : UInt8 → σ → σ

variable [Source σ]

/-- The next bytes of the source. -/
def Reads : σ → List UInt8 → σ → Prop
  | s, [], s' => s' = s
  | s, b :: bs, s' => ∃ t, Source.sbumpc s = (some b, t) ∧ Reads t bs s'

theorem Reads.append {s t u : σ} {bs bs' : List UInt8} (h : Reads s bs t) (h' : Reads t bs' u) :
    Reads s (bs ++ bs') u := by
  induction bs generalizing s with
  | nil =>
      obtain rfl : t = s := h
      exact h'
  | cons b bs ih =>
      obtain ⟨r, hb, hr⟩ := h
      exact ⟨r, hb, ih hr⟩

theorem Reads.split {s u : σ} {bs bs' : List UInt8} (h : Reads s (bs ++ bs') u) :
    ∃ t, Reads s bs t ∧ Reads t bs' u := by
  induction bs generalizing s with
  | nil => exact ⟨s, rfl, h⟩
  | cons b bs ih =>
      obtain ⟨r, hb, hr⟩ := h
      obtain ⟨t, ht, hu⟩ := ih hr
      exact ⟨t, ⟨r, hb, ht⟩, hu⟩

/-- A text is a source. -/
instance : Source (List UInt8) where
  sbumpc
    | [] => (none, [])
    | c :: s => (some c, s)
  sputbackc c s := c :: s

theorem reads_append (bs s : List UInt8) : Reads (bs ++ s) bs s := by
  induction bs with
  | nil => rfl
  | cons b bs ih => exact ⟨bs ++ s, rfl, ih⟩

/-- `sbumpc` as a computation. -/
def bump : EStateM ε σ (Option UInt8) := fun s =>
  let (ch, s) := Source.sbumpc s
  .ok ch s

/-- The bytes `bs` are next, the first of them is `ch`. -/
def Ahead (ch : Option UInt8) (s : σ) (bs : List UInt8) (s' : σ) : Prop :=
  ∃ c tl, bs = c :: tl ∧ ch = some c ∧ Reads s tl s'

theorem bump_ahead {s s' : σ} {bs : List UInt8} (h : Reads s bs s') (hne : bs ≠ []) :
    ∃ ch t, (bump : EStateM ε σ _) s = .ok ch t ∧ Ahead ch t bs s' := by
  cases bs with
  | nil => exact absurd rfl hne
  | cons b bs =>
      obtain ⟨t, hb, ht⟩ := h
      exact ⟨some b, t, by simp [bump, hb], b, bs, rfl, rfl, ht⟩

theorem Ahead.eq_some {ch : Option UInt8} {s s' : σ} {c : UInt8} {bs : List UInt8}
    (h : Ahead ch s (c :: bs) s') : ch = some c := by
  obtain ⟨d, tl, hcons, hch, -⟩ := h
  obtain ⟨rfl, -⟩ := List.cons.inj hcons
  exact hch

theorem Ahead.reads {ch : Option UInt8} {s s' : σ} {c : UInt8} {bs : List UInt8} (h : Ahead ch s (c :: bs) s') :
    Reads s bs s' := by
  obtain ⟨_, _, hcons, -, hr⟩ := h
  obtain ⟨-, rfl⟩ := List.cons.inj hcons
  exact hr

theorem Ahead.bump {ch : Option UInt8} {s s' : σ} {c d : UInt8} {bs : List UInt8}
    (h : Ahead ch s (c :: d :: bs) s') :
    ∃ t, (bump : EStateM ε σ _) s = .ok (some d) t ∧ Ahead (some d) t (d :: bs) s' := by
  obtain ⟨c', tl, hcons, -, hr⟩ := h
  obtain ⟨-, rfl⟩ := List.cons.inj hcons
  obtain ⟨t, hd, ht⟩ := hr
  exact ⟨t, by simp [Poco.Lib.bump, hd], d, bs, rfl, rfl, ht⟩

/-- Take bytes while they meet the test, at most `n`. -/
def collect (p : UInt8 → Bool) : ℕ → Option UInt8 → EStateM ε σ (List UInt8 × Option UInt8)
  | n + 1, some c =>
      if p c then do
        let ch ← bump
        let (bs, ch) ← collect p n ch
        return (c :: bs, ch)
      else
        return ([], some c)
  | _, ch => return ([], ch)

/-- `collect` takes the bytes up to the first one that does not meet the test. -/
theorem Ahead.collect {p : UInt8 → Bool} {n : ℕ} {ch : Option UInt8} {s s' : σ} {bs rest : List UInt8}
    {c : UInt8} (h : Ahead ch s (bs ++ c :: rest) s') (hp : ∀ b ∈ bs, p b = true)
    (hc : p c = false) (hn : bs.length ≤ n) :
    ∃ t, (collect p n ch : EStateM ε σ _) s = .ok (bs, some c) t ∧
      Ahead (some c) t (c :: rest) s' := by
  induction bs generalizing n ch s with
  | nil =>
      obtain rfl := h.eq_some
      refine ⟨s, ?_, h⟩
      cases n with
      | zero => rfl
      | succ n => simp [Poco.Lib.collect, hc, pure, EStateM.pure]
  | cons b bs ih =>
      obtain rfl := h.eq_some
      cases n with
      | zero => simp at hn
      | succ n =>
          obtain ⟨b', tl, hcons, -, hr⟩ := h
          obtain ⟨-, rfl⟩ := List.cons.inj hcons
          obtain ⟨ch, t, hbump, ht⟩ := bump_ahead (ε := ε) hr (by simp)
          obtain ⟨u, hcollect, hu⟩ := ih ht (fun x hx => hp x (List.mem_cons_of_mem _ hx))
            (by simpa using hn)
          refine ⟨u, ?_, hu⟩
          rw [Poco.Lib.collect, if_pos (hp b List.mem_cons_self), bind_of_ok hbump,
            bind_of_ok hcollect]
          rfl

/-- With all the bytes that it may take, `collect` stops whatever the next one is. -/
theorem Ahead.collect_full {p : UInt8 → Bool} {ch : Option UInt8} {s s' : σ} {bs rest : List UInt8} {c : UInt8}
    (h : Ahead ch s (bs ++ c :: rest) s') (hp : ∀ b ∈ bs, p b = true) :
    ∃ t, (Poco.Lib.collect p bs.length ch : EStateM ε σ _) s = .ok (bs, some c) t ∧
      Ahead (some c) t (c :: rest) s' := by
  induction bs generalizing ch s with
  | nil =>
      obtain rfl := h.eq_some
      exact ⟨s, rfl, h⟩
  | cons b bs ih =>
      obtain rfl := h.eq_some
      obtain ⟨b', tl, hcons, -, hr⟩ := h
      obtain ⟨-, rfl⟩ := List.cons.inj hcons
      obtain ⟨ch, t, hbump, ht⟩ := bump_ahead (ε := ε) hr (by simp)
      obtain ⟨u, hcollect, hu⟩ := ih ht fun x hx => hp x (List.mem_cons_of_mem _ hx)
      refine ⟨u, ?_, hu⟩
      rw [List.length_cons, Poco.Lib.collect, if_pos (hp b List.mem_cons_self), bind_of_ok hbump,
        bind_of_ok hcollect]
      rfl

end Poco.Lib
