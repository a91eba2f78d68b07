/-
# Where the evaluation of `mapping_search` is defined

`mapping_search` takes a `size_t` and computes its rounding mask as `1u << (fls(size) - sli_)`.
The literal has the type `unsigned`, so the shift is a 32-bit one, and a request of `2^36` bytes
or more asks it to shift by 32 or more, which is undefined.  The counterpart in
`mapping_insert`, `size >> (fl - sli_)`, shifts the 64-bit size itself and has no such limit.

`mappingSearch_fault` says that every request from `2^36` on hits that shift, before anything
else goes wrong and in whichever mode, and `searchDefined_iff` that nothing else ever does: the
evaluation is free of faults, and hands on the size it should, exactly below `2^36`.
-/
import CleoKernel.Tlsf.Search
import Mathlib.Data.BitVec

namespace CleoKernel.Tlsf

open CleoKernel.Checked CleoKernel.Binade

variable {m : Mode} {r : SizeT}

/-- The evaluation of `mapping_search(r)` meets no fault, not even one the language would let
pass, and hands `r` plus the rounding mask, less one, to `mapping_insert`. -/
structure SearchDefined (r : SizeT) : Prop where
  evaluates : ∃ p, mappingSearch .exact r = .ok p
  handed : ∃ s, searchSize .exact r = .ok s ∧
    s.toNat = r.toNat + 2 ^ (r.toNat.log2 - sli.toNat) - 1

/-- The shift of the 32-bit one is undefined for every size from `2^36` on. -/
theorem searchSize_fault {a : ℕ} (hlo : 2 ^ 36 ≤ a) (ha : a < 2 ^ 64) :
    searchSize m (.ofNat 64 a) = .error .shiftPastWidth := by
  have hpos : a ≠ 0 := Nat.ne_zero_of_lt ((Nat.two_pow_pos 36).trans_le hlo)
  have hlog : a.log2 < 64 := log2_lt_width hpos ha
  have hbig : 36 ≤ a.log2 := (Nat.le_log2 hpos).mpr hlo
  have hle : 4 ≤ a.log2 := le_trans (by decide) hbig
  have hfls : fls m (BitVec.ofNat 64 a) = .ok (.ofNat 64 a.log2) :=
    fls_ofNat (by decide) hpos ha
  have hsub : m.sub (.ofNat 64 a.log2) sli = .ok (.ofNat 64 (a.log2 - 4)) := sub_sli hle hlog
  have hshl : shl (1 : Unsigned) (BitVec.ofNat 64 (a.log2 - 4)) = .error .shiftPastWidth :=
    shl_of_width_le (by omega) (by omega)
  simp only [searchSize, bind, Except.bind, hfls, hsub, hshl]

/-- **From `2^36` on, `mapping_search` is undefined**, in whichever mode. -/
theorem mappingSearch_fault (hr : 2 ^ 36 ≤ r.toNat) :
    searchSize m r = .error .shiftPastWidth ∧ mappingSearch m r = .error .shiftPastWidth := by
  have hsize : searchSize m r = .error .shiftPastWidth := by
    rw [← searchSize_fault hr r.isLt, ofNat_toNat]
  refine ⟨hsize, ?_⟩
  simp only [mappingSearch, bind, Except.bind, hsize]

/-- **Exactly when `mapping_search` is defined**, from the smallest block size on. -/
theorem searchDefined_iff (hr : mbs ≤ r) : SearchDefined r ↔ r.toNat < 2 ^ 36 := by
  constructor
  · rintro ⟨⟨p, hp⟩, -⟩
    by_contra hge
    rw [(mappingSearch_fault (not_lt.mp hge)).2] at hp
    exact nomatch hp
  · intro hlt
    have hlo := two_pow_le_of_mbs hr
    have hround := roundUp_lt hlo hlt
    constructor
    · exact ⟨_, mappingSearch_eq hr hlt⟩
    · have hsize := searchSize_ofNat (m := .exact) hlo hlt
      rw [BitVec.ofNat_toNat, BitVec.setWidth_eq] at hsize
      exact ⟨_, hsize, toNat_ofNat_of_lt (by omega)⟩

/-- Below and above the bound. -/
theorem searchDefined_iff_boundary :
    (SearchDefined (2 ^ 36 - 1) ↔ (2 ^ 36 - 1 : SizeT).toNat < 2 ^ 36) ∧
      (SearchDefined (2 ^ 36) ↔ (2 ^ 36 : SizeT).toNat < 2 ^ 36) :=
  ⟨searchDefined_iff (by decide), searchDefined_iff (by decide)⟩

/-- A request of 64 GiB already asks for a shift by 32. -/
theorem search_undefined_two_pow_36 :
    ¬ ∀ r : SizeT, mbs ≤ r → r.toNat ≤ 2 ^ 64 - 2 ^ 59 → SearchDefined r := by
  intro hall
  obtain ⟨⟨p, hp⟩, -⟩ := hall (2 ^ 36) (by decide) (by decide)
  rw [(mappingSearch_fault (by decide)).2] at hp
  exact nomatch hp

end CleoKernel.Tlsf
