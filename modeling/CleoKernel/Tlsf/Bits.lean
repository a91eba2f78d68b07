/-
# The bit helpers

`tlsf` finds the leading bit of a size in two ways.  `fls`, which the mappings use, subtracts a
count of leading zeros from the width of its operand; `floor_log2_const` shifts the operand,
converted to `size_t`, to the right until nothing but the leading bit is left.
`has_single_bit` asks whether that is all there was, by the `x & (x - 1)` trick.

`bits_agree`: on every operand but zero, of every unsigned type of up to 64 bits, the two give
the one `k` with `2^k <= x < 2^(k+1)`, and `has_single_bit` says whether `x` is `2^k`.  `bool` is
not meant: it takes eight bits, and its leading zeros are counted in one.
-/
import CleoKernel.Tlsf.Basic
import CleoKernel.Lib.Transition

namespace CleoKernel.Tlsf

open CleoKernel.Checked CleoKernel.Transition

/-! ## 1. The helpers -/

/-- `has_single_bit(x)`. -/
def hasSingleBit (x : SizeT) : Bool := x != 0 && (x &&& (x - 1)) == 0

/-- The variables of `floor_log2_const`. -/
structure Log2State where
  x : SizeT
  result : Unsigned
  deriving DecidableEq, Repr

/-- The loop is over when `x > 1` is false. -/
def Log2State.done (s : Log2State) : Bool := !(1 < s.x)

/-- `x >>= 1; ++result;` -/
def Log2State.turn (s : Log2State) : Option (List Unit × Log2State) :=
  some ([], ⟨s.x >>> 1, s.result + 1⟩)

/-- `floor_log2_const(x)`, if its loop is over after at most `fuel` turns. -/
def floorLog2Const (fuel : ℕ) (x : SizeT) : Option Unsigned :=
  (runUntil Log2State.turn Log2State.done fuel ⟨x, 0⟩).map fun r => r.2.result

/-! ## 2. The loop -/

variable {w k : ℕ} {x : SizeT} {r : Unsigned}

theorem toNat_one : (1 : SizeT).toNat = 1 := rfl

/-- As long as `x` has `k` bits below the leading one, there are `k` turns to go. -/
theorem log2_reaches (hlo : 2 ^ k ≤ x.toNat) (hhi : x.toNat < 2 ^ (k + 1)) :
    Reaches Log2State.turn Log2State.done k ⟨x, r⟩ [] ⟨1, r + .ofNat 32 k⟩ := by
  induction k generalizing x r with
  | zero =>
    obtain rfl : x = 1 := BitVec.eq_of_toNat_eq (by rw [toNat_one]; omega)
    rw [show r + .ofNat 32 0 = r from BitVec.add_zero r]
    exact Reaches.done rfl
  | succ k ih =>
    have hhalf : (x >>> 1).toNat = x.toNat / 2 := by
      rw [BitVec.toNat_ushiftRight, Nat.shiftRight_eq_div_pow, Nat.pow_one]
    have hturn : (⟨x, r⟩ : Log2State).turn = some ([], ⟨x >>> 1, r + 1⟩) := rfl
    have hmore : (⟨x, r⟩ : Log2State).done = false := by
      have hgt : 1 < x := by
        rw [BitVec.lt_def, toNat_one]
        omega
      rw [Log2State.done, decide_eq_true hgt, Bool.not_true]
    have hcount : r + 1 + .ofNat 32 k = r + .ofNat 32 (k + 1) := by
      rw [BitVec.add_assoc, Nat.add_comm k 1, BitVec.ofNat_add]
      rfl
    have hrest := ih (x := x >>> 1) (r := r + 1) (by omega) (by omega)
    rw [hcount] at hrest
    exact Reaches.step hmore hturn hrest

/-- **The loop computes the binary logarithm**, in that many turns. -/
theorem floorLog2Const_eq (hx : x ≠ 0) {fuel : ℕ} (hfuel : x.toNat.log2 ≤ fuel) :
    floorLog2Const fuel x = some (.ofNat 32 x.toNat.log2) := by
  have hne : x.toNat ≠ 0 := fun h => hx (BitVec.eq_of_toNat_eq h)
  have hreach := log2_reaches (r := 0) (Nat.log2_self_le hne) Nat.lt_log2_self
  rw [floorLog2Const, hreach fuel hfuel]
  exact congrArg some (BitVec.zero_add _)

/-! ## 3. Powers of two -/

/-- `x & (x - 1)` takes away the lowest bit that is set, which is all of a power of two. -/
theorem hasSingleBit_iff : hasSingleBit x = true ↔ x.toNat.isPowerOfTwo := by
  rw [← Nat.ne_zero_and_sub_one_eq_zero_iff_isPowerOfTwo]
  by_cases hx : x = 0
  · simp [hx, hasSingleBit]
  · have hne : x.toNat ≠ 0 := fun h => hx (BitVec.eq_of_toNat_eq h)
    have hpred : (x - 1).toNat = x.toNat - 1 :=
      BitVec.toNat_sub_of_le (by rw [BitVec.le_def, toNat_one]; omega)
    have hand : x &&& (x - 1) = 0 ↔ x.toNat &&& (x.toNat - 1) = 0 := by
      rw [← hpred, ← BitVec.toNat_and]
      exact BitVec.toNat_inj.symm
    rw [hasSingleBit, Bool.and_eq_true, bne_iff_ne, beq_iff_eq, hand]
    exact and_congr_left fun _ => iff_of_true hx hne

/-- A power of two is that of its logarithm. -/
theorem isPowerOfTwo_iff {a : ℕ} : a.isPowerOfTwo ↔ a = 2 ^ a.log2 := by
  constructor
  · rintro ⟨k, rfl⟩
    rw [Nat.log2_two_pow]
  · exact fun h => ⟨a.log2, h⟩

/-! ## 4. Agreement -/

/-- What the three helpers say of an operand `x` of `w` bits, which the last two convert to
`size_t`. -/
structure BitsAgree (m : Mode) (x : BitVec w) (k : ℕ) : Prop where
  /-- `k` is the position of the leading bit, and the only one. -/
  leading : ∀ j, 2 ^ j ≤ x.toNat ∧ x.toNat < 2 ^ (j + 1) ↔ j = k
  fls : ∃ v, fls m x = .ok v ∧ v.toNat = k
  /-- The loop takes `k` turns. -/
  floorLog2 : ∃ u : Unsigned, u.toNat = k ∧
    ∀ fuel, k ≤ fuel → floorLog2Const fuel (x.setWidth 64) = some u
  singleBit : hasSingleBit (x.setWidth 64) = true ↔ x.toNat = 2 ^ k

/-- **The bit helpers agree**, on every operand but zero of every width up to that of `size_t`. -/
theorem bits_agree (m : Mode) (hw : w ≤ 64) :
    (∀ x : BitVec w, x ≠ 0 → ∃ k, BitsAgree m x k) ∧ hasSingleBit 0 = false := by
  refine ⟨fun x hx => ⟨x.toNat.log2, ?_⟩, rfl⟩
  have hne : x.toNat ≠ 0 := fun h => hx (BitVec.eq_of_toNat_eq h)
  have hlog : x.toNat.log2 < 64 := Nat.lt_of_lt_of_le (log2_lt_width hne x.isLt) hw
  have hwide : (x.setWidth 64).toNat = x.toNat := BitVec.toNat_setWidth_of_le hw
  constructor
  · intro j
    rw [← Nat.log2_eq_iff hne]
    exact eq_comm
  · have hfls := fls_ofNat (m := m) (Nat.lt_of_le_of_lt hw (by decide)) hne x.isLt
    rw [BitVec.ofNat_toNat, BitVec.setWidth_eq] at hfls
    exact ⟨_, hfls, toNat_ofNat_of_lt (Nat.lt_trans hlog (by decide))⟩
  · refine ⟨_, toNat_ofNat_of_lt (Nat.lt_trans hlog (by decide)), fun fuel hfuel => ?_⟩
    have hne' : x.setWidth 64 ≠ 0 := by
      intro h
      rw [h] at hwide
      exact hne hwide.symm
    rw [floorLog2Const_eq hne' (hwide ▸ hfuel), hwide]
  · rw [hasSingleBit_iff, hwide]
    exact isPowerOfTwo_iff

/-- 200 as an `unsigned char`. -/
theorem bits_agree_char : (∃ k, BitsAgree .exact (200 : BitVec 8) k) ∧ hasSingleBit 0 = false :=
  ⟨(bits_agree .exact (by decide : 8 ≤ 64)).1 200 (by decide),
    (bits_agree .exact (by decide : 8 ≤ 64)).2⟩

end CleoKernel.Tlsf
