/-
# No data race on a slot

The counters of the ring buffer are atomic, its slots are not.  So it is not enough that a
read returns the right element, as `RingBuf.Spsc` shows: every two accesses to one slot, one
of them a write, must also be ORDERED by synchronisation, or the program has no meaning at
all.

A run is logged: each write `rb_[tail % N] = val` with the number of pushes completed by then,
each read through `front`'s reference with the number of pops.  These are the epochs of
`Lib.Memory`, because both counters are stored with `memory_order_release`.  `race_free` says
that whoever is about to access a slot has acquired, through the loads in `size()`, a counter
value stored after every earlier access of the other side to that slot.  The producer learns
that a slot has been read from `head_`, the consumer that it has been written from `tail_`.
-/
import CleoKernel.RingBuf.Spsc

namespace CleoKernel.RingBuf

open CleoKernel.Memory CleoKernel.Window CleoKernel.Transition

variable {T κ : Type*} {N : UInt64} {s s' : State T N κ}

/-! ## 1. The log -/

/-- The accesses to the slots, oldest first. -/
structure SlotLog (N : UInt64) where
  writes : List (Access (Fin N.toNat))
  reads : List (Access (Fin N.toNat))

/-- The write a step makes: `rb_[tail % N] = val`. -/
def writeAccess (s s' : State T N κ) : List (Access (Fin N.toNat)) :=
  match s.prod, s'.prod with
  | .assign _ t, .publish _ _ => (slot N t).toList.map (⟨·, s.tail.stamp⟩)
  | _, _ => []

/-- The read a step makes: the one through the reference. -/
def readAccess (e : Event T κ) (s : State T N κ) : List (Access (Fin N.toNat)) :=
  match e with
  | .read _ => s.ref.toList.map (⟨·, s.head.stamp⟩)
  | _ => []

/-- A step, with its accesses logged. -/
def Logged [DecidableEq κ] (loads : Loads) (e : Event T κ) (x x' : State T N κ × SlotLog N) :
    Prop :=
  Step loads e x.1 x'.1 ∧
    x'.2 = ⟨x.2.writes ++ writeAccess x.1 x'.1, x.2.reads ++ readAccess e x.1⟩

theorem mem_writeAccess {a : Access (Fin N.toNat)} (h : a ∈ writeAccess s s') :
    ∃ val t, s.prod = .assign val t ∧ slot N t = some a.loc ∧ a.epoch = s.tail.stamp := by
  unfold writeAccess at h
  split at h
  · rename_i val t _ _ hpc _
    simp only [List.mem_map, Option.mem_toList] at h
    obtain ⟨i, hslot, rfl⟩ := h
    exact ⟨val, t, hpc, hslot, rfl⟩
  · exact absurd h List.not_mem_nil

theorem mem_readAccess {e : Event T κ} {a : Access (Fin N.toNat)} (h : a ∈ readAccess e s) :
    s.ref = some a.loc ∧ a.epoch = s.head.stamp := by
  unfold readAccess at h
  split at h
  · simp only [List.mem_map, Option.mem_toList] at h
    obtain ⟨r, href, rfl⟩ := h
    exact ⟨href, rfl⟩
  · exact absurd h List.not_mem_nil

/-! ## 2. What the log says

The epoch of an access is the true count of the element it was about, and it stays inside the
bounds the counter invariant gives that count. -/

/-- Every access was to the slot of its own epoch, by a side that had checked. -/
structure LogInv (s : State T N κ) (log : SlotLog N) : Prop where
  writes : ∀ a ∈ log.writes, a.loc.val = slotNat N a.epoch ∧ a.epoch ≤ s.tail.stamp ∧
    a.epoch < s.seenHead + N.toNat
  reads : ∀ a ∈ log.reads, a.loc.val = slotNat N a.epoch ∧ a.epoch < s.tail.stamp

/-- What the producer has acquired it does not forget. -/
theorem Step.seenHead_le [DecidableEq κ] {loads : Loads} {e : Event T κ} (hc : CounterInv s)
    (h : Step loads e s s') : s.seenHead ≤ s'.seenHead := by
  cases h with
  | prodFull _ hload _ | prodNotFull _ hload _ => exact (hload.bounds hc.seenHead_le).1
  | _ => exact Nat.le_refl _

namespace LogInv

variable {log : SlotLog N}

/-- **Every step keeps the log right.** -/
theorem step [DecidableEq κ] {loads : Loads} {e : Event T κ} (h : LogInv s log)
    (hc : CounterInv s) (hi : SlotInv s) (hs : Step loads e s s') :
    LogInv s' ⟨log.writes ++ writeAccess s s', log.reads ++ readAccess e s⟩ where
  writes := by
    have htail := hs.tail_stamp_le
    have hseen := hs.seenHead_le hc
    intro a ha
    rcases List.mem_append.mp ha with ha | ha
    · obtain ⟨hloc, hle, hlt⟩ := h.writes a ha
      exact ⟨hloc, by omega, by omega⟩
    · obtain ⟨val, t, hpc, hslot, hepoch⟩ := mem_writeAccess ha
      obtain ⟨hloc, hroom⟩ := hc.assign_slot hpc hslot
      exact ⟨hepoch ▸ hloc, by omega, by omega⟩
  reads := by
    have htail := hs.tail_stamp_le
    have hseenT := hc.seenTail_le
    intro a ha
    rcases List.mem_append.mp ha with ha | ha
    · obtain ⟨hloc, hlt⟩ := h.reads a ha
      exact ⟨hloc, by omega⟩
    · obtain ⟨href, hepoch⟩ := mem_readAccess ha
      obtain ⟨hloc, hlt⟩ := hi.ref a.loc href
      exact ⟨hepoch ▸ hloc, by omega⟩

/-- The producer's next write comes after every read of that slot. -/
theorem reads_ordered (h : LogInv s log) (hc : CounterInv s) (hf : s.Fits) {val : T}
    {t : UInt64} {i : Fin N.toNat} (hpc : s.prod = .assign val t) (hslot : slot N t = some i) :
    Ordered log.reads i s.seenHead := by
  obtain ⟨hi, hroom⟩ := hc.assign_slot hpc hslot
  rintro a ha rfl
  obtain ⟨hloc, hlt⟩ := h.reads a ha
  by_contra hge
  have := slotOf_inj hf hlt.le (by omega) (Nat.lt_succ_self _) (hloc.symm.trans hi)
  omega

/-- The consumer's next read comes after every write of that slot. -/
theorem writes_ordered (h : LogInv s log) (hc : CounterInv s) (hi : SlotInv s) (hf : s.Fits)
    {r : Fin N.toNat} (href : s.ref = some r) : Ordered log.writes r s.seenTail := by
  obtain ⟨hr, hlt⟩ := hi.ref r href
  have hseenH := hc.seenHead_le
  rintro a ha rfl
  obtain ⟨hloc, hle, hroom⟩ := h.writes a ha
  by_contra hge
  have := slotOf_inj hf (by omega) (by omega) (Nat.lt_succ_of_le hle) (hr.symm.trans hloc)
  omega

end LogInv

/-! ## 3. Whole runs -/

/-- **The slots are free of data races.**  In every run of one producer, one consumer and any
number of further threads, with loads as stale as coherence allows, if `N` divides `2^64` or
fewer than `2^64` pushes have succeeded: when the producer is about to write a slot, every
earlier read of that slot happened before the store of `head_` it has acquired, and when the
consumer may read a slot, every earlier write to that slot happened before the store of
`tail_` it has acquired. -/
theorem race_free [Inhabited T] [DecidableEq κ] {loads : Loads} {tr : List (Event T κ)}
    {log : SlotLog N} (h : Run (Logged loads) (State.start N κ, ⟨[], []⟩) tr (s, log))
    (hN : N.toNat ∣ 2 ^ 64 ∨ s.pushed.length < 2 ^ 64) :
    (∀ val t i, s.prod = .assign val t → slot N t = some i → Ordered log.reads i s.seenHead) ∧
    ∀ r, s.ref = some r → Ordered log.writes r s.seenTail := by
  obtain ⟨hc, hrest⟩ := h.invariant
    (I := fun x => CounterInv x.1 ∧ (x.1.Fits → SlotInv x.1 ∧ LogInv x.1 x.2))
    ⟨.start, fun _ => ⟨.start, ⟨by simp, by simp⟩⟩⟩ fun e x x' hinv hstep => by
      obtain ⟨hs, hlog⟩ := hstep
      refine ⟨hinv.1.step hs, fun hf => ?_⟩
      have hf' : x.1.Fits := hf.mono (Nat.succ_le_succ hs.tail_stamp_le)
      obtain ⟨hi, hl⟩ := hinv.2 hf'
      exact ⟨hi.step hinv.1 hf' hs, hlog ▸ hl.step hinv.1 hi hs⟩
  have hf : s.Fits := hN.imp id fun hlt => by rw [← hc.pushed_length]; exact hlt
  obtain ⟨hi, hl⟩ := hrest hf
  exact ⟨fun val t i hpc hslot => hl.reads_ordered hc hf hpc hslot,
    fun r href => hl.writes_ordered hc hi hf href⟩

/-- A buffer of one slot, filled, read, emptied and about to be filled again: the one read of
the slot is ordered before the write that comes next. -/
theorem race_free_one : ∃ (tr : List (Event ℕ Empty)) (s : State ℕ 1 Empty) (log : SlotLog 1),
    Run (Logged .stale) (State.start 1 Empty, ⟨[], []⟩) tr (s, log) ∧ s.prod = .assign 6 1 ∧
      log.reads = [⟨⟨0, by decide⟩, 0⟩] ∧ Ordered log.reads ⟨0, by decide⟩ s.seenHead := by
  have step : ∀ {tr e} {s s' : State ℕ 1 Empty} {log : SlotLog 1},
      Run (Logged .stale) (State.start 1 Empty, ⟨[], []⟩) tr (s, log) → Step .stale e s s' →
        Run (Logged .stale) (State.start 1 Empty, ⟨[], []⟩) (tr ++ [e])
          (s', ⟨log.writes ++ writeAccess s s', log.reads ++ readAccess e s⟩) :=
    fun h he => h.next ⟨he, rfl⟩
  have push1 := step (step .start (.callPush 5 rfl)) (.prodLoadTail rfl)
  have push2 := step push1 (.prodNotFull (i := 0) rfl ⟨by decide, by decide⟩ (by decide))
  have push3 := step (step push2 (.prodReload rfl)) (.prodAssign (i := ⟨0, by decide⟩) rfl rfl)
  have front1 := step (step push3 (.prodPublish rfl)) (.callCons .front rfl)
  have front2 := step front1 (.consLoadTail (i := 1) rfl ⟨by decide, by decide⟩)
  have front3 := step (step front2 (.consNotEmpty rfl (by decide)))
    (.consFront (r := ⟨0, by decide⟩) rfl rfl)
  have read := step front3 (.consRead (i := 1) rfl rfl ⟨by decide, by decide⟩)
  have pop1 := step (step read (.callCons .pop rfl))
    (.consLoadTail (i := 1) rfl ⟨by decide, by decide⟩)
  have pop2 := step (step pop1 (.consNotEmpty rfl (by decide))) (.consReload rfl)
  have push4 := step (step pop2 (.consPublish rfl)) (.callPush 6 rfl)
  have push5 := step (step push4 (.prodLoadTail rfl))
    (.prodNotFull (i := 1) rfl ⟨by decide, by decide⟩ (by decide))
  have push6 := step push5 (.prodReload rfl)
  exact ⟨_, _, _, push6, rfl, rfl, (race_free push6 (Or.inl (by decide))).1 6 1 _ rfl rfl⟩

end CleoKernel.RingBuf
