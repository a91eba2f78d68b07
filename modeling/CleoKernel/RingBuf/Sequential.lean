/-
# Called from one thread, the ring buffer is a bounded FIFO queue

The specification is `Fifo T N`: a queue of at most `N` elements in which every element has a
position.  This file lets one client call the whole public interface in any order and compares
every answer with the queue's.

References are part of the comparison.  The client keeps every reference `front` and `back`
have returned and may write through any of them later, as long as the element it refers to is
still held: the specification's `write` is undefined otherwise, which is the client obligation
of every container (a reference to a popped element is dangling).  On the code's side a
reference is a SLOT, on the specification's side a POSITION, and `Represents` says that the
one is the slot of the other.  That a write through a slot changes one queue element and no
other is then a fact about the window of held positions (`Window.slotOf_inj_window`), and it
is where the condition on `N` and on the number of pushes is used.
-/
import CleoKernel.Lib.Transition
import CleoKernel.Lib.Fifo
import CleoKernel.RingBuf.Basic
import Mathlib.Data.List.Forall2

namespace CleoKernel.RingBuf

open CleoKernel.Transition CleoKernel.Window

variable {T : Type*} {N : UInt64}

/-! ## 1. The calls a client makes, and their answers -/

/-- One call of the public interface, or a write through the `k`-th reference returned so
far. -/
inductive Op (T : Type*)
  | push (val : T)
  | pushMove (val : T)
  | pop
  | front
  | back
  | size
  | full
  | empty
  | write (k : ℕ) (v : T)

/-- What the client sees.  `moved` also shows the source object of `push(T&&)` after the call,
and `elem` the value the returned reference refers to. -/
inductive Answer (T : Type*)
  | status (r : Except Error Unit)
  | moved (r : Except Error Unit) (source : T)
  | elem (r : Except Error T)
  | count (n : ℕ)
  | flag (b : Bool)
  | written

/-- The call reported an error. -/
def Answer.Failed : Answer T → Prop
  | .status (.error _) | .moved (.error _) _ | .elem (.error _) => True
  | _ => False

/-- The code's side: the buffer and the references handed out, oldest first. -/
structure Client (T : Type*) (N : UInt64) where
  buf : RingBuffer T N
  refs : List (Fin N.toNat)

/-- A freshly constructed buffer. -/
def Client.start [Inhabited T] (N : UInt64) : Client T N := ⟨.construct N, []⟩

/-- Keep a returned reference, and look at what it refers to. -/
def Client.refer (c : Client T N) : Except Error (Fin N.toNat) → Answer T × Client T N
  | .error e => (.elem (.error e), c)
  | .ok i => (.elem (.ok (c.buf.rb i)), { c with refs := c.refs ++ [i] })

/-- Execute one call on the code's side. -/
def call (moved : T → T) : Machine (Client T N) (Op T) (Answer T)
  | .push val, c => (c.buf.push val).map fun (r, b) => (.status r, { c with buf := b })
  | .pushMove val, c =>
    (c.buf.pushMove moved val).map fun (r, b) => (.moved r.1 r.2, { c with buf := b })
  | .pop, c => some (.status c.buf.pop.1, { c with buf := c.buf.pop.2 })
  | .front, c => c.buf.front.map c.refer
  | .back, c => c.buf.back.map c.refer
  | .size, c => some (.count c.buf.size.toNat, c)
  | .full, c => some (.flag c.buf.full, c)
  | .empty, c => some (.flag c.buf.empty, c)
  | .write k v, c => c.refs[k]?.map fun i => (.written, { c with buf := c.buf.write i v })

/-- The specification's side: the queue and the positions handed out. -/
structure Spec (T : Type*) (cap : ℕ) where
  queue : Fifo T cap
  refs : List ℕ

variable {cap : ℕ}

/-- A queue that never held anything. -/
def Spec.start (T : Type*) (cap : ℕ) : Spec T cap := ⟨.empty T cap, []⟩

/-- Insert, or report `buffer_full`. -/
def Spec.push (s : Spec T cap) (val : T) : Except Error Unit × Spec T cap :=
  match s.queue.push val with
  | none => (.error .bufferFull, s)
  | some q => (.ok (), { s with queue := q })

/-- Remove, or report `buffer_empty`. -/
def Spec.pop (s : Spec T cap) : Except Error Unit × Spec T cap :=
  match s.queue.pop with
  | none => (.error .bufferEmpty, s)
  | some q => (.ok (), { s with queue := q })

/-- Refer to the element at position `p`, or report `buffer_empty`. -/
def Spec.refer (s : Spec T cap) (p : ℕ) : Answer T × Spec T cap :=
  match s.queue.get p with
  | none => (.elem (.error .bufferEmpty), s)
  | some v => (.elem (.ok v), { s with refs := s.refs ++ [p] })

/-- The source object of a push: `after` if the assignment took place, and untouched if the
push failed. -/
def sourceAfter (val after : T) : Except Error Unit → T
  | .ok _ => after
  | .error _ => val

/-- Execute one call on the specification's side. -/
def specCall (moved : T → T) : Machine (Spec T cap) (Op T) (Answer T)
  | .push val, s => some (.status (s.push val).1, (s.push val).2)
  | .pushMove val, s =>
    some (.moved (s.push val).1 (sourceAfter val (moved val) (s.push val).1), (s.push val).2)
  | .pop, s => some (.status s.pop.1, s.pop.2)
  | .front, s => some (s.refer s.queue.removed)
  | .back, s => some (if s.queue.items = [] then (.elem (.error .bufferEmpty), s)
      else s.refer (s.queue.inserted - 1))
  | .size, s => some (.count s.queue.items.length, s)
  | .full, s => some (.flag (s.queue.items.length = cap), s)
  | .empty, s => some (.flag (s.queue.items.length = 0), s)
  | .write k v, s =>
    s.refs[k]?.bind fun p => (s.queue.set p v).map fun q => (.written, { s with queue := q })

/-! ## 2. The simulation relation -/

/-- The code's state holds exactly the queue: the counters are the true counts modulo `2^64`,
every held element is in the slot of its position, and every reference handed out is the slot
of the position handed out. -/
structure Represents (c : Client T N) (s : Spec T N.toNat) : Prop where
  head : c.buf.head = UInt64.ofNat s.queue.removed
  tail : c.buf.tail = UInt64.ofNat s.queue.inserted
  elems : ∀ p v, s.queue.get p = some v → ∃ i : Fin N.toNat,
    i.val = slotNat N p ∧ c.buf.rb i = v
  refs : List.Forall₂ (fun i p => i.val = slotNat N p) c.refs s.refs

/-- The queue's history stays where the slots of held elements are distinct. -/
def Fits (N : UInt64) (s : Spec T N.toNat) : Prop := Coherent wrap N.toNat s.queue.inserted

theorem represents_start [Inhabited T] (N : UInt64) :
    Represents (Client.start (T := T) N) (Spec.start T N.toNat) where
  head := rfl
  tail := rfl
  elems := fun p v h => by
    have hp := Fifo.get_eq_some_holds h
    exact absurd hp.2 (by simp [Spec.start])
  refs := .nil

section Queries

variable {c : Client T N} {s : Spec T N.toNat}

/-- `size()` is the queue's length. -/
theorem Represents.size_eq (h : Represents c s) :
    c.buf.size.toNat = s.queue.items.length := by
  have hb := s.queue.bound
  have hN := N.toNat_lt
  rw [RingBuffer.size, h.head, h.tail, toNat_ofNat_sub s.queue.removed_le_inserted]
  · rw [Fifo.inserted]; omega
  · rw [Fifo.inserted, wrap]; omega

/-- `size() == n`, read on the queue. -/
theorem Represents.size_beq (h : Represents c s) (n : UInt64) :
    (c.buf.size == n) = decide (s.queue.items.length = n.toNat) := by
  rw [Bool.eq_iff_iff, beq_iff_eq, decide_eq_true_iff, ← UInt64.toNat_inj, h.size_eq]

/-- `full()` exactly when `N` elements are held. -/
theorem Represents.full_eq (h : Represents c s) :
    c.buf.full = decide (s.queue.items.length = N.toNat) := h.size_beq N

/-- `empty()` exactly when none is held. -/
theorem Represents.empty_eq (h : Represents c s) :
    c.buf.empty = decide (s.queue.items.length = 0) := h.size_beq 0

end Queries

/-! ## 3. Each call is matched

One lemma for each kind of call that changes something; the queries are immediate. -/

section Calls

variable {c : Client T N} {s : Spec T N.toNat}

/-- A write into the slot of position `p` changes the element at `p` and no other, for held
positions and for the position about to be filled. -/
theorem Represents.elems_write (h : Represents c s) {p : ℕ} {i : Fin N.toNat} {v : T} {top : ℕ}
    (hi : i.val = slotNat N p) (hc : Coherent wrap N.toNat top) (hlo : s.queue.removed ≤ p)
    (hhi : p < s.queue.removed + N.toNat) (hptop : p < top) (htop : s.queue.inserted ≤ top) :
    ∀ p' w, (if p' = p then some v else s.queue.get p') = some w →
      ∃ j : Fin N.toNat, j.val = slotNat N p' ∧ (c.buf.write i v).rb j = w := by
  intro p' w hw
  by_cases heq : p' = p
  · subst heq
    rw [if_pos rfl, Option.some.injEq] at hw
    exact ⟨i, hi, by rw [RingBuffer.write_rb_self, hw]⟩
  · rw [if_neg heq] at hw
    obtain ⟨j, hj, hjw⟩ := h.elems p' w hw
    obtain ⟨hge, hlt⟩ := Fifo.get_eq_some_holds hw
    have hle := s.queue.inserted_le
    have hne : j ≠ i := fun hji => heq <| slotOf_inj_window hc
      ⟨hge, by omega, by omega⟩ ⟨hlo, hhi, hptop⟩ (hj.symm.trans (hji ▸ hi))
    exact ⟨j, hj, by rw [RingBuffer.write_rb_of_ne hne, hjw]⟩

/-- **`push`**: refused with `buffer_full` exactly when the queue is full, otherwise the
element is appended and no held element is disturbed. -/
theorem Represents.pushBody (h : Represents c s) (val after : T) (hfit : Fits N (s.push val).2) :
    ∃ b, c.buf.pushBody val after =
        some (((s.push val).1, sourceAfter val after (s.push val).1), b) ∧
      Represents { c with buf := b } (s.push val).2 := by
  rw [RingBuffer.pushBody, h.full_eq]
  cases hq : s.queue.push val with
  | none =>
    have hlen := Fifo.push_eq_none.mp hq
    have hs : s.push val = (.error .bufferFull, s) := by rw [Spec.push, hq]
    rw [hs]
    exact ⟨c.buf, by simp [hlen, sourceAfter], h⟩
  | some q =>
    obtain ⟨hlt, hrem, hins, hget⟩ := Fifo.push_eq_some hq
    have hs : s.push val = (.ok (), { s with queue := q }) := by rw [Spec.push, hq]
    rw [hs] at hfit ⊢
    have hN : 0 < N.toNat := by omega
    obtain ⟨i, hi⟩ := slot_exists hN c.buf.tail
    have hslot : i.val = slotNat N s.queue.inserted := by
      rw [h.tail] at hi; exact slot_ofNat_eq_some.mp hi
    have hne : ¬ s.queue.items.length = N.toNat := by omega
    refine ⟨{ c.buf.write i val with tail := c.buf.tail + 1 }, ?_, ?_, ?_, ?_, h.refs⟩
    · simp [hne, hi, sourceAfter]
    · exact h.head.trans (by rw [hrem])
    · change c.buf.tail + 1 = UInt64.ofNat q.inserted
      rw [h.tail, hins, ofNat_add_one]
    · intro p w hw
      have hfit' : Coherent wrap N.toNat (s.queue.inserted + 1) := by
        rw [← hins]; exact hfit
      refine h.elems_write (v := val) hslot hfit' s.queue.removed_le_inserted ?_ (by omega)
        (by omega) p w ?_
      · rw [Fifo.inserted]; omega
      · rw [← hget p]; exact hw

/-- **`pop`**: refused with `buffer_empty` exactly when the queue is empty, otherwise the
oldest element leaves the queue (its slot is not touched). -/
theorem Represents.pop (h : Represents c s) :
    c.buf.pop.1 = s.pop.1 ∧ Represents { c with buf := c.buf.pop.2 } s.pop.2 := by
  rw [RingBuffer.pop, h.empty_eq]
  cases hq : s.queue.pop with
  | none =>
    have hlen := Fifo.pop_eq_none.mp hq
    have hs : s.pop = (.error .bufferEmpty, s) := by rw [Spec.pop, hq]
    rw [hs, if_pos (by simpa using hlen)]
    exact ⟨rfl, h⟩
  | some q =>
    obtain ⟨hpos, hrem, hins, hget⟩ := Fifo.pop_eq_some hq
    have hs : s.pop = (.ok (), { s with queue := q }) := by rw [Spec.pop, hq]
    rw [hs, if_neg (by simpa using Nat.ne_of_gt hpos)]
    refine ⟨rfl, ?_, ?_, ?_, h.refs⟩
    · change c.buf.head + 1 = UInt64.ofNat q.removed
      rw [h.head, hrem, ofNat_add_one]
    · exact h.tail.trans (by rw [hins])
    · intro p w hw
      have hw' : (if p = s.queue.removed then none else s.queue.get p) = some w := by
        rw [← hget p]; exact hw
      split at hw'
      · exact absurd hw' (by simp)
      · exact h.elems p w hw'

/-- A reference to the slot of a held position: both sides see the same value and keep the
reference. -/
theorem Represents.refer (h : Represents c s) {p : ℕ} {i : Fin N.toNat}
    (hp : s.queue.Holds p) (hi : i.val = slotNat N p) :
    (c.refer (.ok i)).1 = (s.refer p).1 ∧ Represents (c.refer (.ok i)).2 (s.refer p).2 := by
  obtain ⟨v, hv⟩ := Option.isSome_iff_exists.mp (Fifo.get_isSome.mpr hp)
  obtain ⟨j, hj, hjv⟩ := h.elems p v hv
  have hij : i = j := Fin.ext (hi.trans hj.symm)
  have hs : s.refer p = (.elem (.ok v), { s with refs := s.refs ++ [p] }) := by
    rw [Spec.refer, hv]
  rw [hs, Client.refer, hij, hjv]
  exact ⟨rfl, h.head, h.tail, h.elems,
    List.rel_append h.refs (.cons hj .nil)⟩

/-- **`front`** refers to the oldest element. -/
theorem Represents.front (h : Represents c s) :
    ∃ c', c.buf.front.map c.refer = some ((s.refer s.queue.removed).1, c') ∧
      Represents c' (s.refer s.queue.removed).2 := by
  rw [RingBuffer.front, h.empty_eq]
  by_cases hlen : s.queue.items.length = 0
  · have hnone : s.queue.get s.queue.removed = none := by
      rw [← Option.not_isSome_iff_eq_none, Fifo.get_isSome, Fifo.Holds, Fifo.inserted]; omega
    have hs : s.refer s.queue.removed = (.elem (.error .bufferEmpty), s) := by
      rw [Spec.refer, hnone]
    rw [hs, if_pos (by simpa using hlen)]
    exact ⟨c, rfl, h⟩
  · have hb := s.queue.bound
    obtain ⟨i, hi⟩ := slot_exists (by omega : 0 < N.toNat) c.buf.head
    have hslot : i.val = slotNat N s.queue.removed := by
      rw [h.head] at hi; exact slot_ofNat_eq_some.mp hi
    have hp : s.queue.Holds s.queue.removed := by
      rw [Fifo.Holds, Fifo.inserted]; omega
    obtain ⟨h1, h2⟩ := h.refer hp hslot
    rw [if_neg (by simpa using hlen), hi]
    exact ⟨(c.refer (.ok i)).2, by rw [← h1]; rfl, h2⟩

/-- **`back`** refers to the newest element, also when `tail_` has just wrapped to zero. -/
theorem Represents.back (h : Represents c s) (hlen : ¬ s.queue.items.length = 0) :
    ∃ c', c.buf.back.map c.refer = some ((s.refer (s.queue.inserted - 1)).1, c') ∧
      Represents c' (s.refer (s.queue.inserted - 1)).2 := by
  rw [RingBuffer.back, h.empty_eq, if_neg (by simpa using hlen)]
  have hb := s.queue.bound
  have hins : 0 < s.queue.inserted := by rw [Fifo.inserted]; omega
  obtain ⟨i, hi⟩ := slot_exists (by omega : 0 < N.toNat) (c.buf.tail - 1)
  have hslot : i.val = slotNat N (s.queue.inserted - 1) := by
    rw [h.tail, ofNat_sub_one hins] at hi; exact slot_ofNat_eq_some.mp hi
  have hp : s.queue.Holds (s.queue.inserted - 1) := by
    rw [Fifo.Holds, Fifo.inserted]; omega
  obtain ⟨h1, h2⟩ := h.refer hp hslot
  rw [hi]
  exact ⟨(c.refer (.ok i)).2, by rw [← h1]; rfl, h2⟩

/-- **A write through a reference** to a held element changes that element of the queue. -/
theorem Represents.write (h : Represents c s) {k p : ℕ} {v : T} {q : Fifo T N.toNat}
    (hk : s.refs[k]? = some p) (hq : s.queue.set p v = some q)
    (hfit : Fits N { s with queue := q }) :
    ∃ i, c.refs[k]? = some i ∧
      Represents { c with buf := c.buf.write i v } { s with queue := q } := by
  obtain ⟨hp, hrem, hins, hget⟩ := Fifo.set_eq_some hq
  obtain ⟨hk', hkp⟩ := List.getElem?_eq_some_iff.mp hk
  have hkc : k < c.refs.length := by rw [h.refs.length_eq]; exact hk'
  have hi : (c.refs[k]).val = slotNat N p := by
    rw [← hkp]; exact List.Forall₂.get h.refs hkc hk'
  refine ⟨c.refs[k], List.getElem?_eq_getElem hkc, h.head.trans (by rw [hrem]),
    h.tail.trans (by rw [hins]), ?_, h.refs⟩
  have hfit' : Coherent wrap N.toNat s.queue.inserted := by rw [← hins]; exact hfit
  have hle := s.queue.inserted_le
  intro p' w hw
  refine h.elems_write (v := v) hi hfit' hp.1 (by have := hp.2; omega) hp.2 (Nat.le_refl _)
    p' w ?_
  rw [← hget p']; exact hw

end Calls

/-! ## 4. Whole runs -/

/-- How one specification call moves the number of elements ever inserted. -/
theorem specCall_inserted {moved : T → T} {o : Op T} {s s' : Spec T cap} {a : Answer T}
    (h : specCall moved o s = some (a, s')) :
    s'.queue.inserted = s.queue.inserted ∨
      0 < cap ∧ s'.queue.inserted = s.queue.inserted + 1 := by
  have hpush : ∀ val, (s.push val).2.queue.inserted = s.queue.inserted ∨
      0 < cap ∧ (s.push val).2.queue.inserted = s.queue.inserted + 1 := by
    intro val
    rw [Spec.push]
    cases hq : s.queue.push val with
    | none => exact Or.inl rfl
    | some q =>
      obtain ⟨hlt, -, hins, -⟩ := Fifo.push_eq_some hq
      exact Or.inr ⟨by omega, hins⟩
  have hrefer : ∀ p, (s.refer p).2.queue.inserted = s.queue.inserted := by
    intro p
    rw [Spec.refer]
    cases s.queue.get p <;> rfl
  cases o with
  | push val | pushMove val =>
    simp only [specCall, Option.some.injEq, Prod.mk.injEq] at h
    rw [← h.2]
    exact hpush val
  | pop =>
    simp only [specCall, Option.some.injEq, Prod.mk.injEq] at h
    rw [← h.2, Spec.pop]
    cases hq : s.queue.pop with
    | none => exact Or.inl rfl
    | some q => exact Or.inl (Fifo.pop_eq_some hq).2.2.1
  | front =>
    simp only [specCall, Option.some.injEq] at h
    exact Or.inl (by rw [← hrefer s.queue.removed, h])
  | back =>
    simp only [specCall, Option.some.injEq] at h
    split at h
    · exact Or.inl (by rw [← (Prod.mk.inj h).2])
    · exact Or.inl (by rw [← hrefer (s.queue.inserted - 1), h])
  | size | full | empty =>
    simp only [specCall, Option.some.injEq, Prod.mk.injEq] at h
    exact Or.inl (by rw [← h.2])
  | write k v =>
    simp only [specCall, Option.bind_eq_some_iff, Option.map_eq_some_iff, Prod.mk.injEq] at h
    obtain ⟨p, -, q, hq, -, rfl⟩ := h
    exact Or.inl (Fifo.set_eq_some hq).2.2.1

/-- **One call.**  Whatever the specification answers, the code answers, and the two stay
related; only the call's own outcome has to stay inside the window the slots can tell apart. -/
theorem Represents.call {moved : T → T} {c : Client T N} {s s' : Spec T N.toNat} {o : Op T}
    {a : Answer T} (h : Represents c s) (hs : specCall moved o s = some (a, s'))
    (hfit : Fits N s') : ∃ c', RingBuf.call moved o c = some (a, c') ∧ Represents c' s' := by
  cases o with
  | push val =>
    simp only [specCall, Option.some.injEq, Prod.mk.injEq] at hs
    obtain ⟨rfl, rfl⟩ := hs
    obtain ⟨b, hb, hR⟩ := h.pushBody val val hfit
    exact ⟨{ c with buf := b }, by simp [RingBuf.call, RingBuffer.push, hb], hR⟩
  | pushMove val =>
    simp only [specCall, Option.some.injEq, Prod.mk.injEq] at hs
    obtain ⟨rfl, rfl⟩ := hs
    obtain ⟨b, hb, hR⟩ := h.pushBody val (moved val) hfit
    exact ⟨{ c with buf := b }, by simp [RingBuf.call, RingBuffer.pushMove, hb], hR⟩
  | pop =>
    simp only [specCall, Option.some.injEq, Prod.mk.injEq] at hs
    obtain ⟨rfl, rfl⟩ := hs
    exact ⟨{ c with buf := c.buf.pop.2 }, by rw [RingBuf.call, h.pop.1], h.pop.2⟩
  | front =>
    simp only [specCall, Option.some.injEq] at hs
    obtain ⟨c', hc, hR⟩ := h.front
    rw [hs] at hc hR
    exact ⟨c', hc, hR⟩
  | back =>
    simp only [specCall, Option.some.injEq] at hs
    split at hs
    · rename_i hnil
      obtain ⟨rfl, rfl⟩ := Prod.mk.inj hs
      refine ⟨c, ?_, h⟩
      rw [RingBuf.call, RingBuffer.back, h.empty_eq, hnil]
      rfl
    · rename_i hne
      obtain ⟨c', hc, hR⟩ := h.back (by simpa using hne)
      rw [hs] at hc hR
      exact ⟨c', hc, hR⟩
  | size =>
    simp only [specCall, Option.some.injEq, Prod.mk.injEq] at hs
    obtain ⟨rfl, rfl⟩ := hs
    exact ⟨c, by rw [RingBuf.call, h.size_eq], h⟩
  | full =>
    simp only [specCall, Option.some.injEq, Prod.mk.injEq] at hs
    obtain ⟨rfl, rfl⟩ := hs
    exact ⟨c, by rw [RingBuf.call, h.full_eq], h⟩
  | empty =>
    simp only [specCall, Option.some.injEq, Prod.mk.injEq] at hs
    obtain ⟨rfl, rfl⟩ := hs
    exact ⟨c, by rw [RingBuf.call, h.empty_eq], h⟩
  | write k v =>
    simp only [specCall, Option.bind_eq_some_iff, Option.map_eq_some_iff, Prod.mk.injEq] at hs
    obtain ⟨p, hk, q, hq, rfl, rfl⟩ := hs
    obtain ⟨i, hi, hR⟩ := h.write hk hq hfit
    exact ⟨_, by rw [RingBuf.call, hi]; rfl, hR⟩

/-- A failed call leaves `rb_`, `head_`, `tail_`, the references and the source object of
`push(T&&)` as they were.  This needs no invariant: it holds in every state whatever. -/
theorem call_failed {moved : T → T} {o : Op T} {c c' : Client T N} {a : Answer T}
    (h : call moved o c = some (a, c')) (hf : a.Failed) :
    c' = c ∧ ∀ val, o = .pushMove val → a = .moved (.error .bufferFull) val := by
  have hbody : ∀ {val after : T} {r b}, c.buf.pushBody val after = some (r, b) →
      (b = c.buf ∧ r = (.error .bufferFull, val)) ∨ r.1 = .ok () := by
    intro val after r b hb
    rw [RingBuffer.pushBody] at hb
    split at hb
    · have hb' := Prod.mk.inj (Option.some.inj hb)
      exact Or.inl ⟨hb'.2.symm, hb'.1.symm⟩
    · obtain ⟨i, -, hi⟩ := Option.map_eq_some_iff.mp hb
      exact Or.inr (by rw [← (Prod.mk.inj hi).1])
  have hrefer : ∀ {r}, c.refer r = (a, c') → c' = c := by
    intro r hr
    cases r with
    | error e => exact (Prod.mk.inj hr).2.symm
    | ok i => rw [← (Prod.mk.inj hr).1] at hf; exact hf.elim
  cases o with
  | push val =>
    simp only [call, RingBuffer.push, Option.map_map, Option.map_eq_some_iff, Prod.mk.injEq,
      Function.comp_apply] at h
    obtain ⟨⟨r, b⟩, hb, rfl, rfl⟩ := h
    rcases hbody hb with ⟨rfl, rfl⟩ | hok
    · exact ⟨rfl, by simp⟩
    · simp only [hok] at hf; exact hf.elim
  | pushMove val =>
    simp only [call, RingBuffer.pushMove, Option.map_eq_some_iff, Prod.mk.injEq] at h
    obtain ⟨⟨r, b⟩, hb, rfl, rfl⟩ := h
    rcases hbody hb with ⟨rfl, rfl⟩ | hok
    · exact ⟨rfl, by simp⟩
    · simp only [hok] at hf; exact hf.elim
  | pop =>
    simp only [call, RingBuffer.pop, Option.some.injEq, Prod.mk.injEq] at h
    obtain ⟨rfl, rfl⟩ := h
    split at hf
    · rename_i he; exact ⟨by simp [he], by simp⟩
    · exact hf.elim
  | front | back =>
    obtain ⟨r, -, hr⟩ := Option.map_eq_some_iff.mp h
    exact ⟨hrefer hr, by simp⟩
  | size | full | empty =>
    simp only [call, Option.some.injEq, Prod.mk.injEq] at h
    exact ⟨h.2.symm, by simp⟩
  | write k v =>
    obtain ⟨i, -, hi⟩ := Option.map_eq_some_iff.mp h
    rw [← (Prod.mk.inj hi).1] at hf; exact hf.elim

/-- A queue of capacity zero never holds anything. -/
theorem inserted_of_cap_zero {moved : T → T} {ops : List (Op T)} {answers : List (Answer T)}
    {s : Spec T cap} (hcap : cap = 0)
    (h : (specCall moved).run ops (Spec.start T cap) = some (answers, s)) :
    s.queue.inserted = 0 := by
  refine Machine.run_invariant (I := fun s : Spec T cap => s.queue.inserted = 0) ?_ ops _
    answers s rfl h
  intro o s a s' hs hstep
  rcases specCall_inserted hstep with h1 | ⟨h1, -⟩
  · exact h1.trans hs
  · omega

/-- **The ring buffer refines a bounded FIFO queue.**  Take any calls that are legal for a
queue of capacity `N` (writes go through references to held elements).  If `N` is zero, or
divides `2^64`, or the calls push at most `2^64` elements, then the buffer gives every answer
the queue gives and holds exactly the queue's elements in the end.  The run is defined, so no
remainder by zero was computed on the way, and a failed call changed nothing. -/
theorem call_run_refines_fifo [Inhabited T] (moved : T → T) (N : UInt64) (ops : List (Op T))
    (answers : List (Answer T)) (s : Spec T N.toNat)
    (hspec : (specCall moved).run ops (Spec.start T N.toNat) = some (answers, s))
    (hN : N = 0 ∨ N.toNat ∣ 2 ^ 64 ∨ s.queue.inserted ≤ 2 ^ 64) :
    (∃ c, (call moved).run ops (Client.start N) = some (answers, c) ∧ Represents c s) ∧
      ∀ (o : Op T) (c c' : Client T N) (a : Answer T), call moved o c = some (a, c') →
        a.Failed → c' = c ∧ ∀ val, o = .pushMove val → a = .moved (.error .bufferFull) val := by
  have hfit : Fits N s := by
    rcases hN with rfl | hdvd | hle
    · exact Or.inr (by rw [inserted_of_cap_zero rfl hspec]; exact Nat.zero_le _)
    · exact Or.inl hdvd
    · exact Or.inr hle
  have hback : ∀ (o : Op T) (t : Spec T N.toNat) (a : Answer T) (t' : Spec T N.toNat),
      specCall moved o t = some (a, t') → Fits N t' → Fits N t := by
    intro o t a t' hstep hg
    refine hg.mono ?_
    rcases specCall_inserted hstep with h | ⟨-, h⟩ <;> omega
  exact ⟨Machine.run_refines hback (fun _ _ _ _ _ hR hstep hg => hR.call hstep hg) ops _ _
    answers s (represents_start N) hspec hfit, fun o c c' a => call_failed⟩

/-- The refinement at work: a capacity-two buffer refuses a third element, hands out
references to both elements it holds, and a write through the second one is what `back`
then reads; after two pops it refuses a third. -/
theorem call_run_refines_fifo_two :
    ∃ c, (call (T := ℕ) (fun _ => 0)).run
        [.push 5, .pushMove 6, .pushMove 7, .front, .back, .write 1 8, .pop, .back, .size,
          .pop, .pop] (Client.start 2) =
      some ([.status (.ok ()), .moved (.ok ()) 0, .moved (.error .bufferFull) 7,
        .elem (.ok 5), .elem (.ok 6), .written, .status (.ok ()), .elem (.ok 8), .count 1,
        .status (.ok ()), .status (.error .bufferEmpty)], c) ∧
      Represents c ⟨⟨2, [], Nat.zero_le 2⟩, [0, 1, 1]⟩ :=
  (call_run_refines_fifo (fun _ => 0) 2 _ _ ⟨⟨2, [], Nat.zero_le 2⟩, [0, 1, 1]⟩ rfl
    (Or.inr (Or.inl (by decide)))).1

end CleoKernel.RingBuf
