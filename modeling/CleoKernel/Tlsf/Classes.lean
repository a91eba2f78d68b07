/-
# `mapping_insert` cuts the sizes into ordered classes

`mapping_insert` is the rounding-down map of `Lib/Binade.lean` with `sli_` bits below the
leading one, computed in fixed-width arithmetic.  `mappingInsert_eq` says so for every size from
`mbs_` on and in both modes of evaluation, hence without losing a bit anywhere, and everything
about the lists follows from the adjunction proved there.

`mappingInsert_partition` collects it: every size is filed in exactly one list, the index pairs
are in range, larger sizes are filed in lexicographically later lists, every pair in range is
used, and two sizes share a list exactly when they lie in the same interval.
-/
import CleoKernel.Tlsf.Basic
import CleoKernel.Lib.Binade

namespace CleoKernel.Tlsf

open CleoKernel.Checked CleoKernel.Binade

variable {m : Mode} {s t : SizeT}

/-! ## 1. Lists in range, and the sizes they are for -/

namespace Mapping

/-- The pair as natural numbers, compared lexicographically. -/
def key (p : Mapping) : ℕ ×ₗ ℕ := toLex (p.fl.toNat, p.sl.toNat)

theorem key_injective : Function.Injective key := by
  intro p q h
  have hpair : (p.fl.toNat, p.sl.toNat) = (q.fl.toNat, q.sl.toNat) := toLex.injective h
  rw [Prod.mk.injEq] at hpair
  exact Mapping.ext (BitVec.eq_of_toNat_eq hpair.1) (BitVec.eq_of_toNat_eq hpair.2)

instance : LinearOrder Mapping := LinearOrder.lift' key key_injective

/-- The indices of a list of the table. -/
structure Valid (p : Mapping) : Prop where
  sli_le : sli.toNat ≤ p.fl.toNat
  fl_le : p.fl.toNat ≤ 63
  sl_lt : p.sl.toNat < slCount.toNat

/-- The interval of sizes the list is for. -/
structure Holds (p : Mapping) (s : SizeT) : Prop where
  lo : (slCount.toNat + p.sl.toNat) * 2 ^ (p.fl.toNat - sli.toNat) ≤ s.toNat
  hi : s.toNat < (slCount.toNat + p.sl.toNat + 1) * 2 ^ (p.fl.toNat - sli.toNat)

/-- The list of a class. -/
def ofClass (c : Class 4) : Mapping := ⟨.ofNat 32 c.exp, .ofNat 32 c.frac⟩

/-- The class of a list in range. -/
def Valid.toClass {p : Mapping} (h : p.Valid) : Class 4 :=
  ⟨p.fl.toNat, p.sl.toNat, h.sli_le, h.sl_lt⟩

@[simp] theorem Valid.ofClass_toClass {p : Mapping} (h : p.Valid) : ofClass h.toClass = p := by
  simp [ofClass, toClass]

/-- In a class of 64-bit sizes both indices fit in `unsigned`. -/
theorem ofClass_toNat {c : Class 4} (h : c.exp ≤ 63) :
    (ofClass c).fl.toNat = c.exp ∧ (ofClass c).sl.toNat = c.frac := by
  have hfrac := c.frac_lt
  exact ⟨toNat_ofNat_of_lt (by omega), toNat_ofNat_of_lt (by omega)⟩

theorem ofClass_valid {c : Class 4} (h : c.exp ≤ 63) : (ofClass c).Valid := by
  obtain ⟨hfl, hsl⟩ := ofClass_toNat h
  constructor
  · rw [hfl]
    exact c.le_exp
  · rwa [hfl]
  · rw [hsl]
    exact c.frac_lt

theorem ofClass_le_iff {c d : Class 4} (hc : c.exp ≤ 63) (hd : d.exp ≤ 63) :
    ofClass c ≤ ofClass d ↔ c ≤ d := by
  obtain ⟨hfl, hsl⟩ := ofClass_toNat hc
  obtain ⟨hfl', hsl'⟩ := ofClass_toNat hd
  have hkey : (ofClass c).key = c.key := by rw [key, hfl, hsl]; rfl
  have hkey' : (ofClass d).key = d.key := by rw [key, hfl', hsl']; rfl
  change (ofClass c).key ≤ (ofClass d).key ↔ c.key ≤ d.key
  rw [hkey, hkey']

theorem ofClass_inj {c d : Class 4} (hc : c.exp ≤ 63) (hd : d.exp ≤ 63) :
    ofClass c = ofClass d ↔ c = d := by
  rw [le_antisymm_iff, le_antisymm_iff, ofClass_le_iff hc hd, ofClass_le_iff hd hc]

/-- The interval of a list is the class. -/
theorem holds_ofClass {c : Class 4} (h : c.exp ≤ 63) :
    (ofClass c).Holds s ↔ c.least ≤ s.toNat ∧ s.toNat < c.next.least := by
  obtain ⟨hfl, hsl⟩ := ofClass_toNat h
  have hnext : c.next.least = (2 ^ 4 + c.frac + 1) * 2 ^ (c.exp - 4) := by
    rw [c.least_next, Class.least, Class.width, Nat.succ_mul]
  rw [hnext]
  constructor
  · rintro ⟨hlo, hhi⟩
    rw [hfl, hsl] at hlo hhi
    exact ⟨hlo, hhi⟩
  · rintro ⟨hlo, hhi⟩
    constructor
    · rw [hfl, hsl]
      exact hlo
    · rw [hfl, hsl]
      exact hhi

end Mapping

/-! ## 2. What `mapping_insert` computes -/

theorem two_pow_le_of_mbs (hs : mbs ≤ s) : 2 ^ 4 ≤ s.toNat := hs

/-- A class of 64-bit sizes has its leading bit below the 64th. -/
theorem classOf_exp_le {a : ℕ} (hlo : 2 ^ 4 ≤ a) (ha : a < 2 ^ 64) : (classOf a hlo).exp ≤ 63 :=
  Nat.le_of_lt_succ (log2_lt_width (by omega) ha)

/-- **`mapping_insert` is rounding down**, in either mode. -/
theorem mappingInsert_ofNat {a : ℕ} (hlo : 2 ^ 4 ≤ a) (ha : a < 2 ^ 64) :
    mappingInsert m (.ofNat 64 a) = .ok (.ofClass (classOf a hlo)) := by
  have hexp : a.log2 ≤ 63 := classOf_exp_le hlo ha
  have hle : 4 ≤ a.log2 := le_log2 hlo
  have hdiv : 2 ^ 4 ≤ a / 2 ^ (a.log2 - 4) := two_pow_le_div hlo
  have hdiv' : a / 2 ^ (a.log2 - 4) < 2 ^ 5 := div_lt_two_pow hlo
  have hfls : fls m (BitVec.ofNat 64 a) = .ok (.ofNat 64 a.log2) :=
    fls_ofNat (by decide) (by omega) ha
  have hfl : m.convert 32 (BitVec.ofNat 64 a.log2) = .ok (.ofNat 32 a.log2) :=
    m.convert_ofNat (by omega) (by omega)
  have hwide : m.convert 64 (BitVec.ofNat 32 a.log2) = .ok (.ofNat 64 a.log2) :=
    m.convert_ofNat (by omega) (by omega)
  have hsub : m.sub (.ofNat 64 a.log2) sli = .ok (.ofNat 64 (a.log2 - 4)) :=
    sub_sli hle (Nat.lt_succ_of_le hexp)
  have hshr : shr (BitVec.ofNat 64 a) (BitVec.ofNat 64 (a.log2 - 4)) =
      .ok (.ofNat 64 (a / 2 ^ (a.log2 - 4))) := shr_ofNat ha (by omega) (by omega)
  have hsl : m.sub (.ofNat 64 (a / 2 ^ (a.log2 - 4))) slCount =
      .ok (.ofNat 64 (a / 2 ^ (a.log2 - 4) - 2 ^ 4)) := m.sub_ofNat (by omega) hdiv
  have hnarrow : m.convert 32 (BitVec.ofNat 64 (a / 2 ^ (a.log2 - 4) - 2 ^ 4)) =
      .ok (.ofNat 32 (a / 2 ^ (a.log2 - 4) - 2 ^ 4)) := m.convert_ofNat (by omega) (by omega)
  simp only [mappingInsert, bind, Except.bind, hfls, hfl, hwide, hsub, hshr, hsl, hnarrow]
  rfl

theorem mappingInsert_eq (hs : mbs ≤ s) :
    mappingInsert m s = .ok (.ofClass (classOf s.toNat (two_pow_le_of_mbs hs))) := by
  rw [← mappingInsert_ofNat (two_pow_le_of_mbs hs) s.isLt, ofNat_toNat]

/-- The class of a 64-bit size is one of 64-bit sizes. -/
theorem exp_le_of_mbs (hs : mbs ≤ s) : (classOf s.toNat (two_pow_le_of_mbs hs)).exp ≤ 63 :=
  classOf_exp_le _ s.isLt

/-- A size is filed in the one list whose interval it lies in. -/
theorem mappingInsert_eq_ok_iff {p : Mapping} (hs : mbs ≤ s) :
    mappingInsert m s = .ok p ↔ p.Valid ∧ p.Holds s := by
  rw [mappingInsert_eq hs, Except.ok.injEq]
  constructor
  · rintro rfl
    exact ⟨Mapping.ofClass_valid (exp_le_of_mbs hs),
      (Mapping.holds_ofClass (exp_le_of_mbs hs)).mpr (classOf_bounds _)⟩
  · rintro ⟨hvalid, hholds⟩
    rw [← hvalid.ofClass_toClass] at hholds ⊢
    rw [Mapping.holds_ofClass hvalid.fl_le] at hholds
    rw [(classOf_eq_iff (two_pow_le_of_mbs hs)).mpr hholds]

/-! ## 3. The smallest size of a list -/

/-- The smallest size of a class of 64-bit sizes is a 64-bit size. -/
theorem least_lt_two_pow {c : Class 4} (h : c.exp ≤ 63) : c.least < 2 ^ 64 :=
  calc c.least < c.next.least := c.least_lt_least_next
    _ ≤ 2 ^ (c.exp + 1) := c.least_next_le
    _ ≤ 2 ^ 64 := Nat.pow_le_pow_right (by decide) (Nat.succ_le_succ h)

/-- The smallest size of a class, as the code holds it. -/
theorem toNat_leastSize {c : Class 4} (h : c.exp ≤ 63) :
    (BitVec.ofNat 64 c.least).toNat = c.least := toNat_ofNat_of_lt (least_lt_two_pow h)

theorem mbs_le_leastSize {c : Class 4} (h : c.exp ≤ 63) : mbs ≤ BitVec.ofNat 64 c.least := by
  rw [BitVec.le_def, toNat_leastSize h]
  exact c.two_pow_le_least_self

theorem mappingInsert_leastSize {c : Class 4} (h : c.exp ≤ 63) :
    mappingInsert m (.ofNat 64 c.least) = .ok (.ofClass c) := by
  rw [mappingInsert_ofNat c.two_pow_le_least_self (least_lt_two_pow h), classOf_least]

/-! ## 4. The partition -/

/-- A size mapping that cuts the sizes from `mbs_` on into ordered classes, one for each pair of
indices in range. -/
structure Partition (f : SizeT → Except Fault Mapping) : Prop where
  /-- Every size is filed, in a list in range, and lies in the list's interval. -/
  filed : ∀ s, mbs ≤ s → ∃ p, f s = .ok p ∧ p.Valid ∧ p.Holds s
  /-- Larger sizes are filed in lists that come later in lexicographic order. -/
  mono : ∀ s t p q, mbs ≤ s → s ≤ t → f s = .ok p → f t = .ok q → p ≤ q
  /-- Every list in range has a size. -/
  onto : ∀ p : Mapping, p.Valid → ∃ s, mbs ≤ s ∧ f s = .ok p
  /-- No size lies in the intervals of two lists. -/
  unique : ∀ s, mbs ≤ s → ∃! p : Mapping, p.Valid ∧ p.Holds s
  /-- Two sizes share a list exactly when they lie in the same interval. -/
  shares : ∀ s t, mbs ≤ s → mbs ≤ t →
    ((∃ p, f s = .ok p ∧ f t = .ok p) ↔ ∃ p : Mapping, p.Valid ∧ p.Holds s ∧ p.Holds t)

/-- **`mapping_insert` partitions the size range into ordered classes**, and no evaluation of it
loses a bit: the exact mode is one of the two. -/
theorem mappingInsert_partition (m : Mode) : Partition (mappingInsert m) where
  filed s hs :=
    ⟨_, mappingInsert_eq hs, (mappingInsert_eq_ok_iff (m := m) hs).mp (mappingInsert_eq hs)⟩
  mono s t p q hs hst hp hq := by
    have ht : mbs ≤ t := BitVec.le_trans hs hst
    rw [mappingInsert_eq hs, Except.ok.injEq] at hp
    rw [mappingInsert_eq ht, Except.ok.injEq] at hq
    rw [← hp, ← hq, Mapping.ofClass_le_iff (exp_le_of_mbs hs) (exp_le_of_mbs ht)]
    exact classOf_mono _ hst
  onto p hp := by
    refine ⟨.ofNat 64 hp.toClass.least, mbs_le_leastSize hp.fl_le, ?_⟩
    rw [mappingInsert_leastSize hp.fl_le, hp.ofClass_toClass]
  unique s hs := by
    refine ⟨_, (mappingInsert_eq_ok_iff hs).mp (mappingInsert_eq (m := .exact) hs), ?_⟩
    intro p hp
    have hp' := (mappingInsert_eq_ok_iff (m := .exact) hs).mpr hp
    rw [mappingInsert_eq hs, Except.ok.injEq] at hp'
    exact hp'.symm
  shares s t hs ht := by
    simp only [mappingInsert_eq_ok_iff hs, mappingInsert_eq_ok_iff ht]
    constructor
    · rintro ⟨p, ⟨hvalid, hholds⟩, -, hholds'⟩
      exact ⟨p, hvalid, hholds, hholds'⟩
    · rintro ⟨p, hvalid, hholds, hholds'⟩
      exact ⟨p, ⟨hvalid, hholds⟩, hvalid, hholds'⟩

end CleoKernel.Tlsf
