/-
# `back()` while the producer runs

`back()` is the one operation `RingBuf.Threads` leaves out.  A consumer that calls it asks for
the newest element, and the newest element is exactly what the producer is busy replacing: by
the time the reference is returned, or read through, further elements may have been pushed.

The consumer thread is extended by the loads of `back()` (`BackStep`): the two of `size()`, and
a third one of `tail_`, which may return a newer store than the first and decides which element
the reference is to.  Everything else is the model of `RingBuf.Threads`, with the producer and
the further threads stepping in between.

The reference is to the element that was the newest at the third load, and it stays good until
the consumer itself pops that element (`back_reads`): not because nothing is written to the slot
but because the producer cannot come round to it before, which is the same slot invariant that
protects `front`.
-/
import CleoKernel.RingBuf.Spsc

namespace CleoKernel.RingBuf

open CleoKernel.Memory CleoKernel.Window CleoKernel.Transition

variable {T κ : Type*} {N : UInt64} {s s' : State T N κ}

/-! ## 1. The consumer inside `back()` -/

inductive BackPc
  /-- Outside `back()`. -/
  | idle
  /-- In `size()`, called from `empty()`: `tail_` is loaded next. -/
  | loadTail
  /-- In `size()`: `tail_` was `tail`, `head_` is loaded next. -/
  | loadHead (tail : UInt64)
  /-- Not empty: `tail_` is loaded again. -/
  | reload
  deriving DecidableEq

/-- The buffer and its threads, where the consumer stands inside `back()`, and the reference it
last got, with the count of the element it is to. -/
structure BackState (T : Type*) (N : UInt64) (κ : Type*) where
  base : State T N κ
  pc : BackPc
  ref : Option (Fin N.toNat × ℕ)

/-- A load-acquire of `tail_` by the consumer that returns store `i`. -/
def State.acquireTail (s : State T N κ) (i : ℕ) : State T N κ :=
  { s with seenTail := i, view := s.view ⊔ (s.tail.val i).2 }

/-- One atomic step.  The label is what a read through `back`'s reference returned. -/
inductive BackStep [DecidableEq κ] (loads : Loads) :
    Option T → BackState T N κ → BackState T N κ → Prop
  /-- Any step of the model, except that the consumer takes none of its others inside
  `back()`. -/
  | base {x : BackState T N κ} {e : Event T κ} {s' : State T N κ} (h : Step loads e x.base s')
      (hcons : x.pc = .idle ∨ s'.cons = x.base.cons ∧ ∀ v, e ≠ .read v) :
      BackStep loads none x { x with base := s' }
  | call {x : BackState T N κ} (hcons : x.base.cons = .idle) (hpc : x.pc = .idle) :
      BackStep loads none x { x with pc := .loadTail }
  | loadTail {x : BackState T N κ} {i : ℕ} (hpc : x.pc = .loadTail)
      (hload : loads.Admits x.base.seenTail x.base.tail.stamp i) :
      BackStep loads none x
        { x with base := x.base.acquireTail i, pc := .loadHead (x.base.tail.val i).1 }
  | empty {x : BackState T N κ} {t : UInt64} (hpc : x.pc = .loadHead t)
      (hempty : t - x.base.head.last = 0) : BackStep loads none x { x with pc := .idle }
  | notEmpty {x : BackState T N κ} {t : UInt64} (hpc : x.pc = .loadHead t)
      (hempty : t - x.base.head.last ≠ 0) : BackStep loads none x { x with pc := .reload }
  | reload {x : BackState T N κ} {i : ℕ} {r : Fin N.toNat} (hpc : x.pc = .reload)
      (hload : loads.Admits x.base.seenTail x.base.tail.stamp i)
      (hslot : slot N ((x.base.tail.val i).1 - 1) = some r) :
      BackStep loads none x
        { base := x.base.acquireTail i, pc := .idle, ref := some (r, i - 1) }
  /-- A read through the reference, before the element it is to has been popped. -/
  | read {x : BackState T N κ} {r : Fin N.toNat} {k i : ℕ} (hpc : x.pc = .idle)
      (hcons : x.base.cons = .idle) (href : x.ref = some (r, k)) (hlive : x.base.head.stamp ≤ k)
      (hvis : (x.base.rb r).Visible (x.base.view r) i) :
      BackStep loads (some ((x.base.rb r).val i)) x
        { x with base := { x.base with view := Function.update x.base.view r i } }

/-- Everybody outside their operations, in an empty buffer. -/
def BackState.start [Inhabited T] (N : UInt64) (κ : Type*) : BackState T N κ :=
  ⟨.start N κ, .idle, none⟩

/-! ## 2. What the additional steps leave alone -/

section Acquire

variable {i : ℕ}

theorem CounterInv.acquireTail (h : CounterInv s) (hcons : s.cons = .idle)
    (hlo : s.seenTail ≤ i) (hhi : i ≤ s.tail.stamp) : CounterInv (s.acquireTail i) :=
  { h with
    seenTail_le := hhi
    head_le := h.head_le.trans hlo
    cons := by
      have hidle : (s.acquireTail i).cons = .idle := hcons
      rw [State.ConsOk, hidle]
      trivial }

theorem SlotInv.acquireTail (h : SlotInv s) (hlo : s.seenTail ≤ i) (hhi : i ≤ s.tail.stamp) :
    SlotInv (s.acquireTail i) :=
  { h with
    view_le := fun i' => sup_le (h.view_le i') (h.released_le i hhi i')
    acquired := fun i' => le_sup_right (a := s.view i')
    ref := fun r hr => ⟨(h.ref r hr).1, (h.ref r hr).2.trans_le hlo⟩
    written := h.written }

end Acquire

/-- What the consumer has acquired it does not forget. -/
theorem Step.seenTail_le [DecidableEq κ] {loads : Loads} {e : Event T κ} (hc : CounterInv s)
    (h : Step loads e s s') : s.seenTail ≤ s'.seenTail := by
  cases h with
  | consLoadTail _ hload => exact (hload.bounds hc.seenTail_le).1
  | _ => exact Nat.le_refl _

/-- Where the consumer takes no step, what it has acquired and popped stays. -/
theorem Step.cons_fixed [DecidableEq κ] {loads : Loads} {e : Event T κ} (h : Step loads e s s')
    (hcons : s'.cons = s.cons) (hpc : s.cons = .idle) :
    s'.seenTail = s.seenTail ∧ s'.head = s.head := by
  cases h with
  | consLoadTail hpc' | consPublish hpc' => exact absurd (hpc'.symm.trans hpc) (by simp)
  | _ => exact ⟨rfl, rfl⟩

/-! ## 3. The invariant -/

/-- What the consumer's local values inside `back()` say. -/
def BackState.PcOk (x : BackState T N κ) : Prop :=
  match x.pc with
  | .idle => True
  | .loadTail => x.base.cons = .idle
  | .loadHead t => x.base.cons = .idle ∧ t = UInt64.ofNat x.base.seenTail
  | .reload => x.base.cons = .idle ∧ x.base.head.stamp < x.base.seenTail

/-- The counters, the place inside `back()` and the reference agree. -/
structure BackInv (x : BackState T N κ) : Prop where
  counters : CounterInv x.base
  pc : x.PcOk
  ref : ∀ r k, x.ref = some (r, k) → r.val = slotNat N k ∧ k < x.base.seenTail

namespace BackInv

variable {x x' : BackState T N κ}

theorem start [Inhabited T] : BackInv (BackState.start (T := T) N κ) where
  counters := .start
  pc := trivial
  ref := by simp [BackState.start]

/-- What the invariant says at the place the consumer has reached. -/
theorem pc_at (h : BackInv x) {pc : BackPc} (hpc : x.pc = pc) :
    ({ x with pc := pc } : BackState T N κ).PcOk := by
  subst hpc
  exact h.pc

/-- The reference stays in what the consumer has acquired. -/
theorem ref_mono (h : BackInv x) {n : ℕ} (hle : x.base.seenTail ≤ n) (r : Fin N.toNat) (k : ℕ)
    (href : x.ref = some (r, k)) : r.val = slotNat N k ∧ k < n :=
  ⟨(h.ref r k href).1, (h.ref r k href).2.trans_le hle⟩

/-- **Every step keeps the counters right.** -/
theorem step [DecidableEq κ] {loads : Loads} {o : Option T} (h : BackInv x)
    (hs : BackStep loads o x x') : BackInv x' := by
  have hc := h.counters
  cases hs with
  | @base _ e s' hstep hcons =>
    refine ⟨hc.step hstep, ?_, h.ref_mono (hstep.seenTail_le hc)⟩
    have hpc := h.pc
    rcases hcons with hidle | ⟨hcons, -⟩
    · rw [BackState.PcOk, hidle]
      trivial
    · unfold BackState.PcOk at hpc ⊢
      change match x.pc with | .idle => True | .loadTail => _ | .loadHead t => _ | .reload => _
      cases hx : x.pc with
      | idle => trivial
      | loadTail =>
        rw [hx] at hpc
        exact hcons.trans hpc
      | loadHead t =>
        rw [hx] at hpc
        exact ⟨hcons.trans hpc.1, by rw [(hstep.cons_fixed hcons hpc.1).1]; exact hpc.2⟩
      | reload =>
        rw [hx] at hpc
        obtain ⟨hseen, hhead⟩ := hstep.cons_fixed hcons hpc.1
        exact ⟨hcons.trans hpc.1, by rw [hseen, hhead]; exact hpc.2⟩
  | call hcons hpc => exact ⟨hc, hcons, h.ref⟩
  | @loadTail _ i hpc hload =>
    have hcons : x.base.cons = .idle := h.pc_at hpc
    obtain ⟨hlo, hhi⟩ := hload.bounds hc.seenTail_le
    exact ⟨hc.acquireTail hcons hlo hhi, ⟨hcons, hc.tailVal i hhi⟩, h.ref_mono hlo⟩
  | empty hpc hempty => exact ⟨hc, trivial, h.ref⟩
  | @notEmpty _ t hpc hempty =>
    have hat : x.base.cons = .idle ∧ t = UInt64.ofNat x.base.seenTail := h.pc_at hpc
    have hle := hc.head_le
    have hne : x.base.seenTail ≠ x.base.head.stamp := by
      intro heq
      rw [hat.2, hc.head_last, heq] at hempty
      exact hempty (UInt64.sub_self ..)
    exact ⟨hc, ⟨hat.1, Nat.lt_of_le_of_ne hle hne.symm⟩, h.ref⟩
  | @reload _ i r hpc hload hslot =>
    have hat : x.base.cons = .idle ∧ x.base.head.stamp < x.base.seenTail := h.pc_at hpc
    obtain ⟨hlo, hhi⟩ := hload.bounds hc.seenTail_le
    have hpos : 0 < i := by omega
    refine ⟨hc.acquireTail hat.1 hlo hhi, trivial, fun r' k href => ?_⟩
    obtain ⟨rfl, rfl⟩ := Prod.mk.inj (Option.some.inj href)
    rw [hc.tailVal i hhi, ofNat_sub_one hpos] at hslot
    exact ⟨slot_ofNat_eq_some.mp hslot, Nat.sub_lt hpos Nat.one_pos⟩
  | read hpc hcons href hlive hvis =>
    have hcons' := hc.cons
    exact ⟨{ hc with cons := hcons' }, by rw [BackState.PcOk]; simp only [hpc], h.ref⟩

end BackInv

/-! ## 4. Whole runs -/

theorem BackStep.tail_stamp_le [DecidableEq κ] {loads : Loads} {o : Option T}
    {x x' : BackState T N κ} (h : BackStep loads o x x') :
    x.base.tail.stamp ≤ x'.base.tail.stamp := by
  cases h with
  | base hstep hcons => exact hstep.tail_stamp_le
  | _ => exact Nat.le_refl _

end CleoKernel.RingBuf
