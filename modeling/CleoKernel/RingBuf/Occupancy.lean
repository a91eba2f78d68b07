/-
# What `size()` returns to whom

`size()` loads `tail_` and then `head_`.  For the producer and for the consumer one of the two
counters is its own, so nothing it depends on can move the wrong way between the loads, and
the difference is a true distance of at most `N` (`CounterInv.prod_size`,
`CounterInv.cons_size`).  A third thread owns neither counter.  Between its two loads the
producer may push and the consumer may pop, and once more elements have been popped than had
been pushed at the first load, the unsigned difference wraps.

`size_in_range_iff` says for every run exactly when every value `size()` returned is at most
`N`, and `size_wraps_one` exhibits a run of a capacity-one buffer in which a polling thread is
told that the buffer holds `2^64 - 1` elements.
-/
import CleoKernel.RingBuf.Threads

namespace CleoKernel.RingBuf

open CleoKernel.Memory CleoKernel.Transition

variable {T κ : Type*} {N : UInt64} {s s' : State T N κ}

/-! ## 1. The property and its exact condition -/

/-- If the step reports a value of `size()`, that value is at most the capacity. -/
def Event.SizeInRange (N : UInt64) : Event T κ → Prop
  | .size _ _ _ n => n ≤ N
  | _ => True

/-- The condition on a further thread's evaluation of `size()`: when it loads `head_`, no more
elements have been popped than had been pushed when it loaded `tail_` (or so many more that
the excess comes within `N` below a multiple of `2^64`, or hits it). -/
def Event.NotOvertaken (N : UInt64) : Event T κ → Prop
  | .size (.observer _) pushes pops _ =>
    pops ≤ pushes ∨ (pops - pushes) % wrap = 0 ∨ wrap - N.toNat ≤ (pops - pushes) % wrap
  | _ => True

/-- The difference of two counters when the second has overtaken the first. -/
theorem toNat_ofNat_sub_of_lt {t h : ℕ} (hlt : t < h) :
    (UInt64.ofNat t - UInt64.ofNat h).toNat = (wrap - (h - t) % wrap) % wrap := by
  rw [UInt64.toNat_sub]
  simp only [UInt64.toNat_ofNat', wrap]
  omega

/-! ## 2. One step -/

/-- The producer's and the consumer's own `size()` never exceeds the capacity, however stale
the loads. -/
theorem CounterInv.own_size_le [DecidableEq κ] {loads : Loads} {who : Caller κ}
    {pushes pops : ℕ} {n : UInt64} (h : CounterInv s)
    (hs : Step loads (.size (T := T) who pushes pops n) s s') (hwho : ∀ k, who ≠ .observer k) :
    n ≤ N := by
  have htail := h.tail_le
  have hhead := h.head_le
  have hseenT := h.seenTail_le
  have hseenH := h.seenHead_le
  rw [UInt64.le_iff_toNat_le]
  cases hs with
  | prodFull hpc hload _ | prodNotFull hpc hload _ =>
    obtain ⟨hlo, hhi⟩ := hload.bounds h.seenHead_le
    rw [(h.prod_size hpc hlo hhi).2]
    omega
  | consEmpty hpc _ | consNotEmpty hpc _ =>
    rw [h.cons_size hpc]
    omega
  | obsLoadHead hpc hload => exact absurd rfl (hwho _)

/-- A further thread's `size()` is in range exactly when the condition holds, if its loads
return the current values. -/
theorem CounterInv.observer_size_le_iff [DecidableEq κ] {k : κ} {pushes pops : ℕ} {n : UInt64}
    (h : CounterInv s) (hs : Step .current (.size (T := T) (.observer k) pushes pops n) s s') :
    n ≤ N ↔ Event.NotOvertaken N (.size (T := T) (.observer k) pushes pops n) := by
  have hN := N.toNat_lt
  rw [UInt64.le_iff_toNat_le]
  cases hs with
  | obsLoadHead hpc hload =>
    obtain rfl : pops = s.head.stamp := hload
    have hobs := h.obs k
    rw [hpc] at hobs
    obtain ⟨rfl, -, hbound⟩ := hobs
    rw [h.headVal _ (Nat.le_refl _), Event.NotOvertaken]
    by_cases hle : s.head.stamp ≤ pushes
    · rw [toNat_ofNat_sub hle (by rw [wrap]; omega)]
      exact ⟨fun _ => Or.inl hle, fun _ => by omega⟩
    · rw [toNat_ofNat_sub_of_lt (by omega), wrap]
      omega

/-- Every step, whoever takes it. -/
theorem CounterInv.sizeInRange_iff [DecidableEq κ] {e : Event T κ} (h : CounterInv s)
    (hs : Step .current e s s') : e.SizeInRange N ↔ e.NotOvertaken N := by
  cases e with
  | silent | read v => exact Iff.rfl
  | size who pushes pops n =>
    cases who with
    | producer | consumer =>
      exact ⟨fun _ => trivial, fun _ => h.own_size_le hs (by simp)⟩
    | observer k => exact h.observer_size_le_iff hs

/-! ## 3. Whole runs -/

/-- **Exactly when `size()` stays in range.**  In every run in which loads return current
values, every value `size()` returned to the producer, the consumer and the further threads is
at most `N` if and only if no further thread's load of `head_` had been overtaken. -/
theorem size_in_range_iff [Inhabited T] [DecidableEq κ] {tr : List (Event T κ)}
    (h : Run (Step .current) (State.start N κ) tr s) :
    (∀ e ∈ tr, e.SizeInRange N) ↔ ∀ e ∈ tr, e.NotOvertaken N := by
  have key : ∀ e ∈ tr, e.SizeInRange N ↔ e.NotOvertaken N :=
    h.forall_label CounterInv.start (fun _ _ _ => CounterInv.step)
      fun _ _ _ => CounterInv.sizeInRange_iff
  exact forall₂_congr key

/-- **A polling thread can be told that a capacity-one buffer holds `2^64 - 1` elements.**  It
loads `tail_` while the buffer is new; then the producer pushes and the consumer pops, and
only then it loads `head_`. -/
theorem size_wraps_run : ∃ (tr : List (Event ℕ Unit)) (s : State ℕ 1 Unit),
    Run (Step .current) (State.start 1 Unit) tr s ∧
      .size (.observer ()) 0 1 18446744073709551615 ∈ tr := by
  have h0 : Run (Step .current) (State.start (T := ℕ) 1 Unit) [] (State.start 1 Unit) := .start
  have poll := h0.next (.obsLoadTail (k := ()) (i := 0) rfl rfl)
  have push1 := (poll.next (.callPush 5 rfl)).next (.prodLoadTail rfl)
  have push2 := push1.next (.prodNotFull (i := 0) rfl rfl (by decide))
  have push3 := (push2.next (.prodReload rfl)).next (.prodAssign (i := ⟨0, by decide⟩) rfl rfl)
  have push4 := push3.next (.prodPublish rfl)
  have pop1 := (push4.next (.callCons .pop rfl)).next (.consLoadTail (i := 1) rfl rfl)
  have pop2 := (pop1.next (.consNotEmpty rfl (by decide))).next (.consReload rfl)
  have pop3 := pop2.next (.consPublish rfl)
  exact ⟨_, _, pop3.next (.obsLoadHead (k := ()) (t := 0) (i := 0) (j := 1) rfl rfl),
    List.mem_append_right _ (List.mem_singleton.mpr rfl)⟩

/-- The characterisation on that run. -/
theorem size_in_range_iff_one : ∃ (tr : List (Event ℕ Unit)) (s : State ℕ 1 Unit),
    Run (Step .current) (State.start 1 Unit) tr s ∧
      .size (.observer ()) 0 1 18446744073709551615 ∈ tr ∧
      ((∀ e ∈ tr, e.SizeInRange 1) ↔ ∀ e ∈ tr, e.NotOvertaken 1) := by
  obtain ⟨tr, s, hrun, hmem⟩ := size_wraps_run
  exact ⟨tr, s, hrun, hmem, size_in_range_iff hrun⟩

/-- That every caller sees at most `N` is false at capacity one. -/
theorem size_wraps_one :
    ¬ ∀ (tr : List (Event ℕ Unit)) (s : State ℕ 1 Unit),
      Run (Step .current) (State.start 1 Unit) tr s → ∀ e ∈ tr, e.SizeInRange 1 := by
  intro hall
  obtain ⟨tr, s, hrun, hmem⟩ := size_wraps_run
  have hle : (18446744073709551615 : UInt64) ≤ 1 := hall tr s hrun _ hmem
  exact absurd hle (by decide)

end CleoKernel.RingBuf
