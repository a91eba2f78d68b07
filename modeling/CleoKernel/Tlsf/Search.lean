/-
# `mapping_search` finds the first list that is large enough throughout

A request of size `r` may be served from a list whose every block is at least `r` long, and
from no other.  `goodFit_iff` says that the list of a class is such a list exactly when `r` is
at most the smallest size of the class, so that the first of them is `r` rounded up, and
`mappingSearch_ofNat` says that rounding up is what the code computes, as long as its 32-bit
shift is defined.

`mappingSearch_firstGoodFit` is the law between the two mappings: the answer is the least good
fit, it is the list of `r` itself exactly when `r` is the smallest size there and the following
list otherwise, and its smallest size exceeds `r` by less than one part in `sl_count_`.
-/
import CleoKernel.Tlsf.Classes

namespace CleoKernel.Tlsf

open CleoKernel.Checked CleoKernel.Binade

variable {m : Mode} {r s : SizeT}

/-! ## 1. What `mapping_search` computes -/

/-- Below `2^36` the mask `1u << (fls(r) - sli_)` shifts by less than 32. -/
theorem log2_lt_of_lt {a : ℕ} (hlo : 2 ^ 4 ≤ a) (ha : a < 2 ^ 36) : a.log2 < 36 :=
  log2_lt_width (by omega) ha

/-- **The size handed to `mapping_insert` is `r` rounded up**, below `2^36`. -/
theorem searchSize_ofNat {a : ℕ} (hlo : 2 ^ 4 ≤ a) (ha : a < 2 ^ 36) :
    searchSize m (.ofNat 64 a) = .ok (.ofNat 64 (roundUp 4 a)) := by
  have hlog : a.log2 < 36 := log2_lt_of_lt hlo ha
  have hle : 4 ≤ a.log2 := le_log2 hlo
  have hmask : 2 ^ (a.log2 - 4) < 2 ^ 32 := Nat.pow_lt_pow_right (by decide) (by omega)
  have hpos : 0 < 2 ^ (a.log2 - 4) := Nat.two_pow_pos _
  have hfls : fls m (BitVec.ofNat 64 a) = .ok (.ofNat 64 a.log2) :=
    fls_ofNat (by decide) (by omega) (by omega)
  have hsub : m.sub (.ofNat 64 a.log2) sli = .ok (.ofNat 64 (a.log2 - 4)) :=
    sub_sli hle (Nat.lt_trans hlog (by decide))
  have hshl : shl (1 : Unsigned) (BitVec.ofNat 64 (a.log2 - 4)) =
      .ok (.ofNat 32 (1 * 2 ^ (a.log2 - 4))) := shl_ofNat (by omega) (by omega)
  rw [Nat.one_mul] at hshl
  have hwide : m.convert 64 (BitVec.ofNat 32 (2 ^ (a.log2 - 4))) =
      .ok (.ofNat 64 (2 ^ (a.log2 - 4))) := m.convert_ofNat hmask (by omega)
  have hadd : m.add (.ofNat 64 a) (.ofNat 64 (2 ^ (a.log2 - 4))) =
      .ok (.ofNat 64 (a + 2 ^ (a.log2 - 4))) := m.add_ofNat (by omega)
  have hone : m.sub (.ofNat 64 (a + 2 ^ (a.log2 - 4))) 1 =
      .ok (.ofNat 64 (a + 2 ^ (a.log2 - 4) - 1)) := m.sub_ofNat (b := 1) (by omega) (by omega)
  simp only [searchSize, bind, Except.bind, hfls, hsub, hshl, hwide, hadd, hone]
  rfl

theorem roundUp_lt {a : ℕ} (hlo : 2 ^ 4 ≤ a) (ha : a < 2 ^ 36) : roundUp 4 a < 2 ^ 37 := by
  have hmask : 2 ^ (a.log2 - 4) ≤ 2 ^ 31 :=
    Nat.pow_le_pow_right (by decide) (by have := log2_lt_of_lt hlo ha; omega)
  rw [roundUp]
  omega

/-- The class of a size rounded up. -/
def ceilClass (a : ℕ) (hlo : 2 ^ 4 ≤ a) : Class 4 := classOf (roundUp 4 a) (hlo.trans le_roundUp)

theorem ceilClass_exp_le {a : ℕ} (hlo : 2 ^ 4 ≤ a) (ha : a < 2 ^ 36) :
    (ceilClass a hlo).exp ≤ 36 := by
  have hne : roundUp 4 a ≠ 0 := by
    have := le_roundUp (k := 4) (s := a)
    omega
  exact Nat.le_of_lt_succ (log2_lt_width hne (roundUp_lt hlo ha))

/-- **`mapping_search` is rounding up**, below `2^36`. -/
theorem mappingSearch_ofNat {a : ℕ} (hlo : 2 ^ 4 ≤ a) (ha : a < 2 ^ 36) :
    mappingSearch m (.ofNat 64 a) = .ok (.ofClass (ceilClass a hlo)) := by
  have hround := roundUp_lt hlo ha
  simp only [mappingSearch, bind, Except.bind, searchSize_ofNat hlo ha]
  exact mappingInsert_ofNat (hlo.trans le_roundUp) (by omega)

theorem mappingSearch_eq (hr : mbs ≤ r) (hr' : r.toNat < 2 ^ 36) :
    mappingSearch m r = .ok (.ofClass (ceilClass r.toNat (two_pow_le_of_mbs hr))) := by
  rw [← mappingSearch_ofNat (two_pow_le_of_mbs hr) hr', ofNat_toNat]

/-! ## 2. Good fits -/

/-- Every block filed in list `p`, or in a later one, is large enough for `r`. -/
def GoodFit (m : Mode) (r : SizeT) (p : Mapping) : Prop :=
  ∀ b q, mbs ≤ b → mappingInsert m b = .ok q → p ≤ q → r ≤ b

/-- **A class is a good fit exactly when its smallest size is large enough.** -/
theorem goodFit_iff {c : Class 4} (hc : c.exp ≤ 63) :
    GoodFit m r (.ofClass c) ↔ r.toNat ≤ c.least := by
  constructor
  · intro h
    have hle := h _ _ (mbs_le_leastSize hc) (mappingInsert_leastSize hc) le_rfl
    rwa [BitVec.le_def, toNat_leastSize hc] at hle
  · intro h b q hb hq hpq
    rw [mappingInsert_eq hb, Except.ok.injEq] at hq
    rw [← hq, Mapping.ofClass_le_iff hc (exp_le_of_mbs hb), ← least_le_iff] at hpq
    exact BitVec.le_def.mpr (h.trans hpq)

/-- The smallest size filed in the list of a class is the smallest number of the class. -/
theorem isLeast_leastSize {c : Class 4} (hc : c.exp ≤ 63) :
    IsLeast {t : SizeT | mbs ≤ t ∧ mappingInsert m t = .ok (.ofClass c)}
      (.ofNat 64 c.least) := by
  constructor
  · exact ⟨mbs_le_leastSize hc, mappingInsert_leastSize hc⟩
  · rintro t ⟨ht, hins⟩
    have hholds := ((mappingInsert_eq_ok_iff ht).mp hins).2
    rw [BitVec.le_def, toNat_leastSize hc]
    exact ((Mapping.holds_ofClass hc).mp hholds).1

/-- A size is the smallest one of its list exactly when it is the smallest of its class. -/
theorem isLeast_self_iff (hr : mbs ≤ r) :
    IsLeast {t | mbs ≤ t ∧ mappingInsert m t = mappingInsert m r} r ↔
      r.toNat = (classOf r.toNat (two_pow_le_of_mbs hr)).least := by
  have hexp := exp_le_of_mbs hr
  rw [mappingInsert_eq hr]
  constructor
  · intro h
    have hle := h.2 (isLeast_leastSize hexp).1
    rw [BitVec.le_def, toNat_leastSize hexp] at hle
    exact le_antisymm hle (classOf_bounds _).1
  · intro h
    have hself : r = .ofNat 64 (classOf r.toNat (two_pow_le_of_mbs hr)).least := by
      rw [← h, ofNat_toNat]
    have hleast := isLeast_leastSize (m := m) hexp
    rwa [← hself] at hleast

/-- The list that follows `p` in lexicographic order. -/
def Mapping.next (p : Mapping) : Mapping :=
  if p.sl.setWidth 64 = slCount - 1 then ⟨p.fl + 1, 0⟩ else ⟨p.fl, p.sl + 1⟩

theorem Mapping.ofClass_next {c : Class 4} (hc : c.exp ≤ 63) :
    ofClass c.next = (ofClass c).next := by
  have hfrac := c.frac_lt
  have hsl := (ofClass_toNat hc).2
  have hlast : (ofClass c).sl.setWidth 64 = slCount - 1 ↔ ¬ c.frac + 1 < 2 ^ 4 := by
    rw [← BitVec.toNat_inj, BitVec.toNat_setWidth, hsl]
    change c.frac % 2 ^ 64 = 15 ↔ _
    omega
  rw [Mapping.next]
  by_cases h : c.frac + 1 < 2 ^ 4
  · rw [if_neg (not_not.mpr h ∘ hlast.mp), Class.next, dif_pos h, ofClass, BitVec.ofNat_add]
    rfl
  · rw [if_pos (hlast.mpr h), Class.next, dif_neg h, ofClass, BitVec.ofNat_add]
    rfl

/-! ## 3. The law between the two mappings -/

/-- List `p` is where a search for `r` should start. -/
structure FirstGoodFit (m : Mode) (r : SizeT) (p : Mapping) : Prop where
  /-- No earlier list guarantees enough room, and `p` does. -/
  least : IsLeast {q : Mapping | q.Valid ∧ GoodFit m r q} p
  /-- `p` is the list of `r` exactly when `r` is the smallest size filed there. -/
  same : mappingInsert m r = .ok p ↔
    IsLeast {t | mbs ≤ t ∧ mappingInsert m t = mappingInsert m r} r
  /-- Otherwise it is the list that follows. -/
  next : ∀ q, mappingInsert m r = .ok q → p ≠ q → p = q.next
  /-- The smallest size filed in `p` is larger than `r` by less than one part in `sl_count_`. -/
  excess : ∃ l, IsLeast {t | mbs ≤ t ∧ mappingInsert m t = .ok p} l ∧ r ≤ l ∧
    slCount.toNat * (l.toNat - r.toNat) < r.toNat

/-- **The good-fit law.** -/
theorem mappingSearch_firstGoodFit (m : Mode) (hr : mbs ≤ r) (hr' : r.toNat < 2 ^ 36) :
    ∃ p, mappingSearch m r = .ok p ∧ FirstGoodFit m r p := by
  have hlo := two_pow_le_of_mbs hr
  have hceil : (ceilClass r.toNat hlo).exp ≤ 63 := (ceilClass_exp_le hlo hr').trans (by decide)
  have hceilLe : r.toNat ≤ (ceilClass r.toNat hlo).least := (le_least_iff hlo).mpr le_rfl
  have hfloor := exp_le_of_mbs hr
  refine ⟨_, mappingSearch_eq hr hr', ⟨⟨?_, ?_⟩, ?_, ?_, ?_⟩⟩
  · exact ⟨Mapping.ofClass_valid hceil, (goodFit_iff hceil).mpr hceilLe⟩
  · rintro q ⟨hvalid, hfit⟩
    rw [← hvalid.ofClass_toClass] at hfit ⊢
    rw [goodFit_iff hvalid.fl_le, le_least_iff hlo] at hfit
    exact (Mapping.ofClass_le_iff hceil hvalid.fl_le).mpr hfit
  · rw [isLeast_self_iff hr, ← classOf_roundUp_eq_iff hlo, mappingInsert_eq hr, Except.ok.injEq,
      Mapping.ofClass_inj hfloor hceil]
    exact eq_comm
  · intro q hq hne
    rw [mappingInsert_eq hr, Except.ok.injEq] at hq
    subst hq
    have hmoved : r.toNat ≠ (classOf r.toNat hlo).least := by
      intro hsame
      rw [ceilClass, classOf_roundUp_of_eq hlo hsame] at hne
      exact hne rfl
    rw [ceilClass, classOf_roundUp_of_ne hlo hmoved, Mapping.ofClass_next hfloor]
  · refine ⟨_, isLeast_leastSize hceil, ?_, ?_⟩
    · rwa [BitVec.le_def, toNat_leastSize hceil]
    · have hexcess : 2 ^ 4 * (ceilClass r.toNat hlo).least < 2 ^ 4 * r.toNat + r.toNat :=
        least_roundUp_excess hlo
      rw [toNat_leastSize hceil]
      change 2 ^ 4 * ((ceilClass r.toNat hlo).least - r.toNat) < r.toNat
      omega

/-- A request of 1000 bytes, in the list of 992 to 1023, is looked for from 1024 on. -/
theorem mappingSearch_firstGoodFit_thousand :
    ∃ p, mappingSearch .exact 1000 = .ok p ∧ FirstGoodFit .exact 1000 p :=
  mappingSearch_firstGoodFit .exact (by decide) (by decide)

end CleoKernel.Tlsf
