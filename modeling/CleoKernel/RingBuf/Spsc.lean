/-
# One producer, one consumer: nothing lost, duplicated, reordered or overwritten

The counter invariant of `RingBuf.Threads` bounds the distance between what has been pushed
and what the PRODUCER KNOWS to be popped, and between what has been popped and what the
CONSUMER KNOWS to be pushed.  The check in `full()` or `empty()` and the operation it guards
may be separated by any number of the other side's steps, but those steps only move the
counters in the direction that makes the check more true.

On top of it stands the slot invariant (`SlotInv`).  As long as the slots of a window are
distinct (`State.Fits`), the slot of every element not yet popped holds that element as its
NEWEST store, and every release of `tail_` after that element carries this store in its view.
So once the consumer has acquired such a release, the newest store is the only one it can
read: a read through `front`'s reference returns the oldest element not yet popped, whatever
the producer does meanwhile (`SlotInv.read_eq`).
-/
import CleoKernel.RingBuf.Threads

namespace CleoKernel.RingBuf

open CleoKernel.Memory CleoKernel.Window CleoKernel.Transition

variable {T κ : Type*} {N : UInt64} {s s' : State T N κ}

/-! ## 1. Histories grow at the end -/

section History

variable {α : Type*} {l : List α} {k : ℕ} {v w : α}

/-- Appending disturbs no earlier entry. -/
theorem getElem?_concat (h : l[k]? = some v) : (l ++ [w])[k]? = some v := by
  rw [List.getElem?_append_left (List.getElem?_eq_some_iff.mp h).1, h]

/-- An entry of a list with one more is an earlier entry or the new one. -/
theorem getElem?_concat_cases (h : (l ++ [w])[k]? = some v) :
    l[k]? = some v ∨ k = l.length ∧ w = v := by
  rcases Nat.lt_trichotomy k l.length with hlt | rfl | hgt
  · exact Or.inl (by rwa [List.getElem?_append_left hlt] at h)
  · exact Or.inr ⟨rfl, Option.some.inj (by rwa [List.getElem?_concat_length] at h)⟩
  · have := (List.getElem?_eq_some_iff.mp h).1
    rw [List.length_append, List.length_singleton] at this
    omega

end History

/-! ## 2. The slot invariant -/

/-- The window of elements not yet popped, with room for the one being pushed, has distinct
slots. -/
def State.Fits (s : State T N κ) : Prop := Coherent wrap N.toNat (s.tail.stamp + 1)

/-- A producer about to store `tail_` has the element in its slot. -/
def State.Written (s : State T N κ) : Prop :=
  match s.prod with
  | .publish val _ => ∀ i : Fin N.toNat, i.val = slotNat N s.tail.stamp → (s.rb i).last = val
  | _ => True

/-- The slots, the views of them, and the history agree. -/
structure SlotInv (s : State T N κ) : Prop where
  view_le : ∀ i, s.view i ≤ (s.rb i).stamp
  released_le : ∀ j ≤ s.tail.stamp, ∀ i, (s.tail.val j).2 i ≤ (s.rb i).stamp
  /-- The consumer has joined the view released with the newest `tail_` it loaded. -/
  acquired : ∀ i, (s.tail.val s.seenTail).2 i ≤ s.view i
  ref : ∀ r, s.ref = some r → r.val = slotNat N s.head.stamp ∧ s.head.stamp < s.seenTail
  /-- An element not yet popped is the newest store of its slot. -/
  live : ∀ (k : ℕ) (v : T), s.head.stamp ≤ k → s.pushed[k]? = some v →
    ∀ i : Fin N.toNat, i.val = slotNat N k → (s.rb i).last = v
  /-- Every later release carries that store. -/
  carried : ∀ k j, s.head.stamp ≤ k → k < j → j ≤ s.tail.stamp →
    ∀ i : Fin N.toNat, i.val = slotNat N k → (s.tail.val j).2 i = (s.rb i).stamp
  written : s.Written
  lastRead : ∀ v, s.lastRead = some v → s.pushed[s.head.stamp]? = some v
  popped : ∀ (k : ℕ) (v : T), s.popped[k]? = some (some v) → s.pushed[k]? = some v

/-- **No live slot is written.**  When the producer has room, the slot of the next count is
not the slot of any element still to be popped. -/
theorem CounterInv.slot_fresh (h : CounterInv s) (hf : s.Fits)
    (hroom : s.tail.stamp < s.seenHead + N.toNat) {k : ℕ} (hlo : s.head.stamp ≤ k)
    (hhi : k < s.tail.stamp) : slotNat N k ≠ slotNat N s.tail.stamp := by
  have hseen := h.seenHead_le
  intro heq
  have := slotOf_inj hf (by omega) (by omega) (Nat.lt_succ_self _) heq
  omega

/-- The slot the producer is about to write, and the room it has checked. -/
theorem CounterInv.assign_slot (h : CounterInv s) {val : T} {t : UInt64} {i : Fin N.toNat}
    (hpc : s.prod = .assign val t) (hslot : slot N t = some i) :
    i.val = slotNat N s.tail.stamp ∧ s.tail.stamp < s.seenHead + N.toNat := by
  have hprod : t = UInt64.ofNat s.tail.stamp ∧ s.tail.stamp < s.seenHead + N.toNat := h.prod_at hpc
  rw [hprod.1] at hslot
  exact ⟨slot_ofNat_eq_some.mp hslot, hprod.2⟩

namespace SlotInv

theorem start [Inhabited T] : SlotInv (State.start (T := T) N κ) where
  view_le := fun _ => Nat.le_refl _
  released_le := fun _ _ _ => Nat.le_refl _
  acquired := fun _ => Nat.le_refl _
  ref := by simp [State.start]
  live := by simp [State.start]
  carried := fun k j _ hkj hj => by
    have : j ≤ 0 := hj
    omega
  written := trivial
  lastRead := by simp [State.start]
  popped := by simp [State.start]

/-- **What the consumer reads.**  Through the reference `front` returned, every store the
memory model lets it see is the oldest element not yet popped. -/
theorem read_eq (h : SlotInv s) (hc : CounterInv s) {r : Fin N.toNat} {i : ℕ}
    (href : s.ref = some r) (hvis : (s.rb r).Visible (s.view r) i) :
    s.pushed[s.head.stamp]? = some ((s.rb r).val i) := by
  obtain ⟨hr, hlt⟩ := h.ref r href
  have hseen := hc.seenTail_le
  have hlen : s.head.stamp < s.pushed.length := by rw [hc.pushed_length]; omega
  have hget : s.pushed[s.head.stamp]? = some s.pushed[s.head.stamp] :=
    List.getElem?_eq_getElem hlen
  have hnewest : (s.rb r).stamp ≤ s.view r :=
    (h.carried _ _ (Nat.le_refl _) hlt hseen r hr).symm.le.trans (h.acquired r)
  rw [hvis.eq_last hnewest, h.live _ _ (Nat.le_refl _) hget r hr, hget]

/-- The producer's slot write. -/
theorem assign (h : SlotInv s) (hc : CounterInv s) (hf : s.Fits) {val : T} {t : UInt64}
    {i : Fin N.toNat} (hpc : s.prod = .assign val t) (hslot : slot N t = some i) :
    SlotInv { s with
      rb := Function.update s.rb i ((s.rb i).store val)
      prod := .publish val t } := by
  obtain ⟨hi, hroom⟩ := hc.assign_slot hpc hslot
  -- the written slot is not the slot of an element still to be popped
  have hne : ∀ {k : ℕ} {i' : Fin N.toNat}, s.head.stamp ≤ k → k < s.tail.stamp →
      i'.val = slotNat N k → i' ≠ i := fun hlo hhi hi' heq =>
    hc.slot_fresh hf hroom hlo hhi (by rw [← hi', heq, hi])
  have hgrow : ∀ i', (s.rb i').stamp ≤ (Function.update s.rb i ((s.rb i).store val) i').stamp :=
    (Function.forall_update_iff s.rb fun i' c => (s.rb i').stamp ≤ c.stamp).mpr
      ⟨Nat.le_succ _, fun i' _ => Nat.le_refl _⟩
  refine { h with
    view_le := fun i' => (h.view_le i').trans (hgrow i')
    released_le := fun j hj i' => (h.released_le j hj i').trans (hgrow i')
    live := fun k v hlo hk i' hi' => ?_
    carried := fun k j hlo hkj hj i' hi' => ?_
    written := fun i' hi' => ?_ }
  · have hhi : k < s.tail.stamp := by
      rw [← hc.pushed_length]; exact (List.getElem?_eq_some_iff.mp hk).1
    change (Function.update s.rb i ((s.rb i).store val) i').last = v
    rw [Function.update_of_ne (hne hlo hhi hi')]
    exact h.live k v hlo hk i' hi'
  · change (s.tail.val j).2 i' = (Function.update s.rb i ((s.rb i).store val) i').stamp
    rw [Function.update_of_ne (hne hlo (Nat.lt_of_lt_of_le hkj hj) hi')]
    exact h.carried k j hlo hkj hj i' hi'
  · obtain rfl : i' = i := Fin.ext (hi'.trans hi.symm)
    change (Function.update s.rb i' ((s.rb i').store val) i').last = val
    rw [Function.update_self, Cell.last_store]

/-- The producer's release of `tail_`. -/
theorem publish (h : SlotInv s) (hc : CounterInv s) {val : T} {t : UInt64}
    (hpc : s.prod = .publish val t) :
    SlotInv { s with
      tail := s.tail.store (t + 1, fun i => (s.rb i).stamp)
      prod := .idle
      pushed := s.pushed ++ [val] } := by
  have hwritten := h.written
  rw [State.Written, hpc] at hwritten
  have hlen := hc.pushed_length
  refine { h with
    released_le := ?_
    acquired := fun i => ?_
    live := fun k v hlo hk i hi => ?_
    carried := fun k j hlo hkj hj i hi => ?_
    written := trivial
    lastRead := fun v hv => getElem?_concat (h.lastRead v hv)
    popped := fun k v hk => getElem?_concat (h.popped k v hk) }
  · exact Cell.forall_val_store
      (P := fun _ (p : UInt64 × (Fin N.toNat → ℕ)) => ∀ i, p.2 i ≤ (s.rb i).stamp) h.released_le
      fun _ => Nat.le_refl _
  · change ((s.tail.store _).val s.seenTail).2 i ≤ s.view i
    rw [Cell.val_store_of_le hc.seenTail_le]
    exact h.acquired i
  · rcases getElem?_concat_cases hk with hk' | ⟨rfl, rfl⟩
    · exact h.live k v hlo hk' i hi
    · exact hwritten i (by rwa [hlen] at hi)
  · change ((s.tail.store _).val j).2 i = (s.rb i).stamp
    rcases Nat.lt_or_ge s.tail.stamp j with hj' | hj'
    · obtain rfl : j = s.tail.stamp + 1 := Nat.le_antisymm hj hj'
      rw [Cell.val_store_succ]
    · rw [Cell.val_store_of_le hj']
      exact h.carried k j hlo hkj hj' i hi

/-- **Every step keeps the slots right**, as long as the window it ends with still fits. -/
theorem step [DecidableEq κ] {loads : Loads} {e : Event T κ} (h : SlotInv s)
    (hc : CounterInv s) (hf : s.Fits) (hs : Step loads e s s') : SlotInv s' := by
  cases hs with
  | callPush val hpc => exact { h with written := trivial }
  | prodLoadTail hpc => exact { h with written := trivial }
  | prodFull hpc hload hfull => exact { h with written := trivial }
  | prodNotFull hpc hload hfull => exact { h with written := trivial }
  | prodReload hpc => exact { h with written := trivial }
  | prodAssign hpc hslot => exact h.assign hc hf hpc hslot
  | prodPublish hpc => exact h.publish hc hpc
  | callCons op hpc => exact { h with written := h.written }
  | consLoadTail hpc hload =>
    obtain ⟨hlo, hhi⟩ := hload.bounds hc.seenTail_le
    exact { h with
      view_le := fun i => sup_le (h.view_le i) (h.released_le _ hhi i)
      acquired := fun i => le_sup_right (a := s.view i)
      ref := fun r hr => ⟨(h.ref r hr).1, (h.ref r hr).2.trans_le hlo⟩
      written := h.written }
  | consEmpty hpc hempty => exact { h with written := h.written }
  | consNotEmpty hpc hempty => exact { h with written := h.written }
  | @consFront _ r hpc hslot =>
    have hroom : s.head.stamp < s.seenTail := hc.cons_at hpc
    rw [hc.head_last] at hslot
    refine { h with ref := fun r' hr' => ?_, written := h.written }
    obtain rfl : r = r' := Option.some.inj hr'
    exact ⟨slot_ofNat_eq_some.mp hslot, hroom⟩
  | consReload hpc => exact { h with written := h.written }
  | consPublish hpc =>
    refine { h with
      ref := by simp
      live := fun k v hlo => h.live k v (Nat.le_of_succ_le hlo)
      carried := fun k j hlo => h.carried k j (Nat.le_of_succ_le hlo)
      written := h.written
      lastRead := by simp
      popped := fun k v hk => ?_ }
    rcases getElem?_concat_cases hk with hk' | ⟨rfl, hv⟩
    · exact h.popped k v hk'
    · rw [hc.popped_length]
      exact h.lastRead v hv
  | @consRead _ r i hpc href hvis =>
    have hread := h.read_eq hc href hvis
    have hview : ∀ i', Function.update s.view r i i' ≤ (s.rb i').stamp :=
      (Function.forall_update_iff s.view fun i' t => t ≤ (s.rb i').stamp).mpr
        ⟨hvis.2, fun i' _ => h.view_le i'⟩
    have hacquired : ∀ i', (s.tail.val s.seenTail).2 i' ≤ Function.update s.view r i i' :=
      (Function.forall_update_iff s.view fun i' t => (s.tail.val s.seenTail).2 i' ≤ t).mpr
        ⟨(h.acquired r).trans hvis.1, fun i' _ => h.acquired i'⟩
    exact { h with
      view_le := hview
      acquired := hacquired
      written := h.written
      lastRead := fun v hv => by rw [← Option.some.inj hv]; exact hread }
  | obsLoadTail hpc hload => exact { h with written := h.written }
  | obsLoadHead hpc hload => exact { h with written := h.written }

end SlotInv

/-! ## 3. Whole runs -/

/-- Stores are never taken back. -/
theorem Step.tail_stamp_le [DecidableEq κ] {loads : Loads} {e : Event T κ}
    (h : Step loads e s s') : s.tail.stamp ≤ s'.tail.stamp := by
  cases h with
  | prodPublish => exact Nat.le_succ _
  | _ => exact Nat.le_refl _

/-- The invariant of a run: the counters always, the slots while the window fits. -/
theorem run_invariant [Inhabited T] [DecidableEq κ] {loads : Loads} {tr : List (Event T κ)}
    (h : Run (Step loads) (State.start N κ) tr s) : CounterInv s ∧ (s.Fits → SlotInv s) :=
  h.invariant (I := fun s => CounterInv s ∧ (s.Fits → SlotInv s))
    ⟨.start, fun _ => .start⟩ fun _ s s' hinv hstep =>
      ⟨hinv.1.step hstep, fun hf => by
        have hf' : s.Fits := hf.mono (Nat.succ_le_succ hstep.tail_stamp_le)
        exact (hinv.2 hf').step hinv.1 hf' hstep⟩

/-- **Safety of the ring buffer between one producer and one consumer**, for every
interleaving of their atomic steps and every stale load coherence allows.  If `N` divides
`2^64` or fewer than `2^64` pushes have succeeded:

* what the consumer had read through `front` when it popped the `k`-th time is the `k`-th
  element pushed, so if it always reads first, what it popped is exactly the first elements
  pushed, in order, and every other element pushed is still in its slot;
* the slot the producer is about to write is not the slot of an element not yet popped;
* until it pops, everything the consumer can read through the reference `front` returned is
  the oldest element not yet popped. -/
theorem spsc_safety [Inhabited T] [DecidableEq κ] {tr : List (Event T κ)}
    (h : Run (Step .stale) (State.start N κ) tr s)
    (hN : N.toNat ∣ 2 ^ 64 ∨ s.pushed.length < 2 ^ 64) :
    (s.popped.length ≤ s.pushed.length ∧
      (∀ (k : ℕ) (v : T), s.popped[k]? = some (some v) → s.pushed[k]? = some v) ∧
      ((∀ o ∈ s.popped, o.isSome) →
        s.popped = (s.pushed.take s.popped.length).map some) ∧
      ∀ (k : ℕ) (v : T), s.popped.length ≤ k → s.pushed[k]? = some v →
        ∀ i : Fin N.toNat, i.val = slotNat N k → (s.rb i).last = v) ∧
    (∀ val t i, s.prod = .assign val t → slot N t = some i →
      ∀ k, s.popped.length ≤ k → k < s.pushed.length → i.val ≠ slotNat N k) ∧
    ∀ r i, s.ref = some r → (s.rb r).Visible (s.view r) i →
      s.pushed[s.popped.length]? = some ((s.rb r).val i) := by
  obtain ⟨hc, hslot⟩ := run_invariant h
  have hf : s.Fits := hN.imp id fun hlt => by rw [← hc.pushed_length]; exact hlt
  have hi := hslot hf
  have hle : s.popped.length ≤ s.pushed.length := by
    rw [hc.popped_length, hc.pushed_length]; exact hc.head_le.trans hc.seenTail_le
  refine ⟨⟨hle, hi.popped, fun hread => ?_, ?_⟩, ?_, ?_⟩
  · refine List.ext_getElem (by simp [hle]) fun k h1 h2 => ?_
    obtain ⟨v, hv⟩ := Option.isSome_iff_exists.mp (hread _ (List.getElem_mem h1))
    have hk := hi.popped k v (by rw [List.getElem?_eq_getElem h1, hv])
    have hk' := (List.getElem?_eq_some_iff.mp hk).2
    rw [hv, List.getElem_map, List.getElem_take, hk']
  · rw [hc.popped_length]
    exact hi.live
  · intro val t i hpc hs k hlo hhi
    obtain ⟨hival, hroom⟩ := hc.assign_slot hpc hs
    rw [hc.popped_length] at hlo
    rw [hc.pushed_length] at hhi
    rw [hival]
    exact (hc.slot_fresh hf hroom hlo hhi).symm
  · rw [hc.popped_length]
    exact fun r i href hvis => hi.read_eq hc href hvis

/-- A run of both sides through a buffer of capacity two, with a stale load in it: the
consumer's first `front` still sees the counter from before the push and finds nothing, the
second one sees the push, and the element is read and popped. -/
theorem spsc_run_two : ∃ (tr : List (Event ℕ Empty)) (s : State ℕ 2 Empty),
    Run (Step .stale) (State.start 2 Empty) tr s ∧ s.pushed = [5] ∧ s.popped = [some 5] := by
  have h0 : Run (Step .stale) (State.start (T := ℕ) 2 Empty) [] (State.start 2 Empty) := .start
  have push1 := (h0.next (.callPush 5 rfl)).next (.prodLoadTail rfl)
  have push2 := push1.next (.prodNotFull (i := 0) rfl ⟨by decide, by decide⟩ (by decide))
  have push3 := push2.next (.prodReload rfl)
  have push4 := push3.next (.prodAssign (i := ⟨0, by decide⟩) rfl rfl)
  have push5 := push4.next (.prodPublish rfl)
  have early := ((push5.next (.callCons .front rfl)).next
    (.consLoadTail (i := 0) rfl ⟨by decide, by decide⟩)).next (.consEmpty rfl rfl)
  have front1 := (early.next (.callCons .front rfl)).next
    (.consLoadTail (i := 1) rfl ⟨by decide, by decide⟩)
  have front2 := (front1.next (.consNotEmpty rfl (by decide))).next
    (.consFront (r := ⟨0, by decide⟩) rfl rfl)
  have read := front2.next (.consRead (i := 1) rfl rfl ⟨by decide, by decide⟩)
  have pop1 := (read.next (.callCons .pop rfl)).next
    (.consLoadTail (i := 1) rfl ⟨by decide, by decide⟩)
  have pop2 := (pop1.next (.consNotEmpty rfl (by decide))).next (.consReload rfl)
  exact ⟨_, _, pop2.next (.consPublish rfl), rfl, rfl⟩

/-- Safety on that run: what was popped is the first element pushed. -/
theorem spsc_safety_two : ∃ (tr : List (Event ℕ Empty)) (s : State ℕ 2 Empty),
    Run (Step .stale) (State.start 2 Empty) tr s ∧ s.popped.length = 1 ∧
      s.popped = (s.pushed.take s.popped.length).map some := by
  obtain ⟨tr, s, hrun, hpushed, hpopped⟩ := spsc_run_two
  have hsafe := spsc_safety hrun (Or.inl (by decide))
  exact ⟨tr, s, hrun, by rw [hpopped]; rfl, hsafe.1.2.2.1 (by simp [hpopped])⟩

end CleoKernel.RingBuf
