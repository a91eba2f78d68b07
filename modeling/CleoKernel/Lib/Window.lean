/-
# Windows of a wrapping counter, projected on a ring

A counter that only ever counts up is kept modulo `M`; its `k`-th value selects the slot
`(k mod M) mod N` of a ring of `N` slots.  A ring buffer holds its elements in the slots of a
window `[a, a + N)` of such counts, and is sound exactly as far as the map from the window to
the slots is injective.

* `slotOf_inj`: inside a window of length `N` the slots are distinct when `N` divides `M`, or
  when the counts of the window have not passed `M` yet.
* `slotOf_collision`: when `N` does not divide `M`, the window that starts at `M - 1`, the
  last count before the wrap, meets its own first slot again after `M mod N < N` counts.

So `N ∣ M` is not only enough for every window, it is also necessary.
-/
import Mathlib.Data.Nat.ModEq

namespace CleoKernel.Window

/-- The slot, in a ring of `N`, of count `k` of a counter kept modulo `M`. -/
def slotOf (M N k : ℕ) : ℕ := k % M % N

/-- Before the counter wraps, the slot is the count modulo the ring size. -/
theorem slotOf_of_lt {M N k : ℕ} (h : k < M) : slotOf M N k = k % N := by
  rw [slotOf, Nat.mod_eq_of_lt h]

/-- When the ring size divides the modulus, the wrap is invisible. -/
theorem slotOf_of_dvd {M N : ℕ} (h : N ∣ M) (k : ℕ) : slotOf M N k = k % N := by
  rw [slotOf, Nat.mod_mod_of_dvd k h]

/-- Two counts less than `N` apart with the same residue modulo `N` are equal. -/
theorem eq_of_mod_eq {N a b : ℕ} (hab : a ≤ b) (hlt : b < a + N) (h : a % N = b % N) :
    a = b := by
  have hdvd : N ∣ b - a := (Nat.modEq_iff_dvd' hab).mp h
  have hzero : b - a = 0 := Nat.eq_zero_of_dvd_of_lt hdvd (by omega)
  omega

/-- The side condition under which a window that ends before count `top` is injective: the
wrap is invisible, or it has not happened. -/
def Coherent (M N top : ℕ) : Prop := N ∣ M ∨ top ≤ M

/-- A shorter history is coherent when a longer one is. -/
theorem Coherent.mono {M N top top' : ℕ} (h : Coherent M N top) (hle : top' ≤ top) :
    Coherent M N top' :=
  h.imp id hle.trans

/-- **Distinct counts of one window have distinct slots.** -/
theorem slotOf_inj {M N top a b : ℕ} (hc : Coherent M N top) (hab : a ≤ b) (hlt : b < a + N)
    (htop : b < top) (h : slotOf M N a = slotOf M N b) : a = b := by
  rcases hc with hdvd | hle
  · rw [slotOf_of_dvd hdvd, slotOf_of_dvd hdvd] at h
    exact eq_of_mod_eq hab hlt h
  · rw [slotOf_of_lt (by omega), slotOf_of_lt (by omega)] at h
    exact eq_of_mod_eq hab hlt h

/-- The form used with an unordered pair of counts: both lie in `[lo, lo + N)`. -/
theorem slotOf_inj_window {M N top lo a b : ℕ} (hc : Coherent M N top)
    (ha : lo ≤ a ∧ a < lo + N ∧ a < top) (hb : lo ≤ b ∧ b < lo + N ∧ b < top)
    (h : slotOf M N a = slotOf M N b) : a = b := by
  rcases Nat.le_total a b with hab | hab
  · exact slotOf_inj hc hab (by omega) hb.2.2 h
  · exact (slotOf_inj hc hab (by omega) ha.2.2 h.symm).symm

/-- **Without divisibility the wrap makes two counts of one window collide.**  Count `M - 1`
and the count `M mod N` later share a slot, although they are less than `N` apart. -/
theorem slotOf_collision {M N : ℕ} (hN : 0 < N) (hM : 0 < M) (h : ¬ N ∣ M) :
    slotOf M N (M - 1) = slotOf M N (M - 1 + M % N) := by
  have hr : 0 < M % N := Nat.pos_of_ne_zero fun h0 => h (Nat.dvd_of_mod_eq_zero h0)
  have hrN : M % N < N := Nat.mod_lt M hN
  have hrM : M % N ≤ M := Nat.mod_le M N
  -- past the wrap the counter restarts at zero
  have hwrap : (M - 1 + M % N) % M = M % N - 1 := by
    rw [show M - 1 + M % N = M + (M % N - 1) by omega, Nat.add_mod_left,
      Nat.mod_eq_of_lt (by omega)]
  -- and the last count before it sits one slot below `M mod N`
  have hlast : (M - 1) % N = M % N - 1 := by
    have hdm := Nat.div_add_mod M N
    rw [show M - 1 = M % N - 1 + N * (M / N) by omega, Nat.add_mul_mod_self_left,
      Nat.mod_eq_of_lt (by omega)]
  rw [slotOf, slotOf, hwrap, Nat.mod_eq_of_lt (by omega : M - 1 < M), hlast,
    Nat.mod_eq_of_lt (by omega : M % N - 1 < N)]

end CleoKernel.Window
