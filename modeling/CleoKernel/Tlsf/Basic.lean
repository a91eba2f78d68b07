/-
# The size mapping of `kernel/memory/tlsf/tlsf.hpp`, as the code computes it

The allocator files free blocks in a two-level table of lists.  The first-level index is the
position of the leading bit of the block size, the second-level index the `sli_` bits below
it.  `mapping_insert` computes the list a block is filed in and `mapping_search` the first list
in which every block is large enough for a request.

Everything is computed at the code's own widths, `size_t` of 64 bits and `unsigned` of 32,
in the checked arithmetic of `Lib/Checked.lean`, so that the width of each operand is on the
page: the `1u` of `mapping_search` is a 32-bit operand although everything around it has 64.
The mode says which faults count and is passed through.

The class's other members (`allocate`, `insert`, `coalesce` and so on) are declared without a
body, or with an empty one, so there is nothing of them to model.
-/
import CleoKernel.Lib.Checked

namespace CleoKernel.Tlsf

open CleoKernel.Checked

/-- `cleo::size_t`. -/
abbrev SizeT := BitVec 64

/-- `unsigned`. -/
abbrev Unsigned := BitVec 32

/-! ## 1. Constants -/

/-- `sli_`: how many bits below the leading one the second level looks at. -/
def sli : SizeT := 4

/-- `mbs_`: the smallest block size. -/
def mbs : SizeT := 16

/-- `sl_count_`, which is `(1 << sli_)` computed as an `int`. -/
def slCount : SizeT := ((1 : BitVec 32) <<< sli).setWidth 64

/-! ## 2. The two mappings -/

/-- `tlsf::mapping`: the indices of a list in the table. -/
@[ext] structure Mapping where
  fl : Unsigned
  sl : Unsigned
  deriving DecidableEq, Repr

/-- `fls(size)`, for an unsigned type of `w` bits: the position of the leading bit.  `bool` is not
among them: `sizeof` gives it eight bits, and its leading zeros are counted in one. -/
def fls {w : ℕ} (m : Mode) (size : BitVec w) : Except Fault SizeT := do
  let bitWidth : SizeT := .ofNat 64 w
  let top ← m.sub bitWidth 1
  -- the count is an `int`, at most `w`, and is converted to `size_t` for the difference
  m.sub top (.ofNat 64 (← clz size))

/-- `mapping_insert(size)`. -/
def mappingInsert (m : Mode) (size : SizeT) : Except Fault Mapping := do
  let fl : Unsigned ← m.convert 32 (← fls m size)
  -- `fl` is converted to the type of `sli_` before the difference is taken
  let shifted ← shr size (← m.sub (← m.convert 64 fl) sli)
  let sl : Unsigned ← m.convert 32 (← m.sub shifted slCount)
  return { fl, sl }

/-- The size `mapping_search` hands to `mapping_insert`:
`size + (1u << (fls(size) - sli_)) - 1`. -/
def searchSize (m : Mode) (size : SizeT) : Except Fault SizeT := do
  let mask : Unsigned ← shl (1 : Unsigned) (← m.sub (← fls m size) sli)
  let sum ← m.add size (← m.convert 64 mask)
  m.sub sum 1

/-- `mapping_search(size)`. -/
def mappingSearch (m : Mode) (size : SizeT) : Except Fault Mapping := do
  mappingInsert m (← searchSize m size)

/-! ## 3. What they compute -/

variable {m : Mode}

/-- The leading bit of a number below `2^w` has a position below `w`. -/
theorem log2_lt_width {w a : ℕ} (hpos : a ≠ 0) (ha : a < 2 ^ w) : a.log2 < w :=
  (Nat.log2_lt hpos).mpr ha

/-- `fls` is the binary logarithm, whatever the width of its operand. -/
theorem fls_ofNat {w a : ℕ} (hw : w < 2 ^ 64) (hpos : a ≠ 0) (ha : a < 2 ^ w) :
    fls m (BitVec.ofNat w a) = .ok (.ofNat 64 a.log2) := by
  have hlog : a.log2 < w := log2_lt_width hpos ha
  have htop : m.sub (.ofNat 64 w) 1 = .ok (.ofNat 64 (w - 1)) :=
    m.sub_ofNat hw (Nat.one_le_of_lt hlog)
  have hsub : m.sub (.ofNat 64 (w - 1)) (.ofNat 64 (w - 1 - a.log2)) =
      .ok (.ofNat 64 (w - 1 - (w - 1 - a.log2))) :=
    m.sub_ofNat (Nat.lt_of_le_of_lt (Nat.sub_le w 1) hw) (Nat.sub_le _ _)
  rw [show w - 1 - (w - 1 - a.log2) = a.log2 by omega] at hsub
  simp only [fls, htop, clz_ofNat hpos ha, Except.bind, bind, hsub]

/-- The difference `fl - sli_` of a size that has more than `sli_` bits. -/
theorem sub_sli {a : ℕ} (hle : 4 ≤ a.log2) (hlog : a.log2 < 64) :
    m.sub (.ofNat 64 a.log2) sli = .ok (.ofNat 64 (a.log2 - 4)) :=
  m.sub_ofNat (Nat.lt_trans hlog (by decide)) hle

/-- A size is the 64-bit number with its value. -/
theorem ofNat_toNat (s : SizeT) : BitVec.ofNat 64 s.toNat = s := by
  rw [BitVec.ofNat_toNat, BitVec.setWidth_eq]

end CleoKernel.Tlsf
