/-
# The memory layout of `kernel-qemu-aarch64.ld`

The linker script places `.text`, `.rodata`, `.data` and `.bss` one after the other in the 128M
of RAM at `0x40000000`.  Inside `.bss` it aligns the location counter to 16 and only then defines
`__bss_start`; `__bss_end` is wherever the section happens to end.  After it the counter is
aligned to 16 again, and the stack takes the 64 KB from there up to `__stack_top`.

A `Layout` is a placement with the order and the alignment of the script as fields, and `link`
computes the one the script produces from the sizes and alignments of the sections.
`exists_link` says that the fields leave nothing out: every layout is one the script produces.
-/
import Mathlib.Order.Interval.Set.Basic
import Mathlib.Algebra.Order.Group.Nat

namespace CleoKernel.Boot

/-! ## 1. Aligning the location counter -/

/-- `ALIGN(a)` at location `n`: the next multiple of `a`. -/
def align (a n : ℕ) : ℕ := (n + a - 1) / a * a

theorem le_align {a n : ℕ} (ha : 0 < a) : n ≤ align a n := by
  have hdiv := Nat.div_add_mod (n + a - 1) a
  have hmod := Nat.mod_lt (n + a - 1) ha
  rw [Nat.mul_comm] at hdiv
  rw [align]
  omega

theorem dvd_align {a n : ℕ} : a ∣ align a n := Nat.dvd_mul_left a _

/-- The next multiple of `a` is at most any other one. -/
theorem align_le {a n m : ℕ} (ha : 0 < a) (hm : a ∣ m) (h : n ≤ m) : align a n ≤ m := by
  obtain ⟨q, rfl⟩ := hm
  rw [align, Nat.mul_comm a q]
  apply Nat.mul_le_mul_right
  rw [← Nat.lt_succ_iff, Nat.div_lt_iff_lt_mul ha, Nat.succ_mul, Nat.mul_comm q a]
  omega

/-- Aligning to an address not below `n` jumps there. -/
theorem align_of_le {a n : ℕ} (hn : 0 < n) (h : n ≤ a) : align a n = a := by
  have hdiv : (n + a - 1) / a = 1 := by
    rw [Nat.div_eq_iff (by omega)]
    omega
  rw [align, hdiv, Nat.one_mul]

theorem align_of_dvd {a n : ℕ} (ha : 0 < a) (h : a ∣ n) : align a n = n :=
  Nat.le_antisymm (align_le ha h le_rfl) (le_align ha)

/-! ## 2. Layouts -/

/-- `ORIGIN(ram)`. -/
def ramOrigin : ℕ := 0x40000000

/-- `ORIGIN(ram) + LENGTH(ram)`. -/
def ramEnd : ℕ := ramOrigin + 128 * 2 ^ 20

/-- The size of the stack. -/
def stackSize : ℕ := 65536

/-- A placement of the sections.  Between two sections there may be padding. -/
structure Layout where
  textEnd : ℕ
  rodataStart : ℕ
  rodataEnd : ℕ
  dataStart : ℕ
  dataEnd : ℕ
  /-- `__bss_start` -/
  bssStart : ℕ
  /-- `__bss_end` -/
  bssEnd : ℕ
  text_le : ramOrigin ≤ textEnd
  rodata_ge : textEnd ≤ rodataStart
  rodata_le : rodataStart ≤ rodataEnd
  data_ge : rodataEnd ≤ dataStart
  data_le : dataStart ≤ dataEnd
  bss_ge : dataEnd ≤ bssStart
  bss_aligned : 16 ∣ bssStart
  bss_le : bssStart ≤ bssEnd
  bss_fits : bssEnd ≤ ramEnd

namespace Layout

/-- Where the stack area starts: `. = ALIGN(16)` after `.bss`. -/
def stackStart (L : Layout) : ℕ := align 16 L.bssEnd

/-- `__stack_top`. -/
def stackTop (L : Layout) : ℕ := L.stackStart + stackSize

/-- The addresses of `.text`, `.rodata`, `.data` and the stack area. -/
def live (L : Layout) : Set ℕ :=
  Set.Ico ramOrigin L.textEnd ∪ Set.Ico L.rodataStart L.rodataEnd ∪
    Set.Ico L.dataStart L.dataEnd ∪ Set.Ico L.stackStart L.stackTop

/-- **What is live lies clear of the last word of `.bss`**: the script aligns the stack to 16,
so also past an unaligned `__bss_end`. -/
theorem live_outside {L : Layout} {p : ℕ} (h : p ∈ L.live) :
    p < L.bssStart ∨ align 8 L.bssEnd ≤ p := by
  have htext := L.text_le
  have hrodata := L.rodata_ge
  have hrodata' := L.rodata_le
  have hdata := L.data_ge
  have hdata' := L.data_le
  have hbss := L.bss_ge
  rcases h with ((⟨-, hp⟩ | ⟨-, hp⟩) | ⟨-, hp⟩) | ⟨hp, -⟩
  · exact Or.inl (by omega)
  · exact Or.inl (by omega)
  · exact Or.inl (by omega)
  · right
    have h8 : 8 ∣ align 16 L.bssEnd := Nat.dvd_trans (by decide) dvd_align
    exact (align_le (by decide) h8 (le_align (by decide))).trans hp

end Layout

/-! ## 3. The script -/

/-- What the linker knows of the input: the size of each output section, and the alignment it
inherits from its parts. -/
structure Sections where
  textSize : ℕ
  rodataAlign : ℕ
  rodataSize : ℕ
  dataAlign : ℕ
  dataSize : ℕ
  bssAlign : ℕ
  bssSize : ℕ
  rodataAlign_pos : 0 < rodataAlign
  dataAlign_pos : 0 < dataAlign
  bssAlign_pos : 0 < bssAlign

/-- Run the script.  It fails when the sections do not fit into the region. -/
def link (s : Sections) : Option Layout :=
  let textEnd := ramOrigin + s.textSize
  let rodataStart := align s.rodataAlign textEnd
  let rodataEnd := rodataStart + s.rodataSize
  let dataStart := align s.dataAlign rodataEnd
  let dataEnd := dataStart + s.dataSize
  let bssStart := align 16 (align s.bssAlign dataEnd)
  let bssEnd := bssStart + s.bssSize
  if hfits : bssEnd ≤ ramEnd then
    some {
      textEnd, rodataStart, rodataEnd, dataStart, dataEnd, bssStart, bssEnd
      text_le := Nat.le_add_right _ _
      rodata_ge := le_align s.rodataAlign_pos
      rodata_le := Nat.le_add_right _ _
      data_ge := le_align s.dataAlign_pos
      data_le := Nat.le_add_right _ _
      bss_ge := (le_align s.bssAlign_pos).trans (le_align (by decide))
      bss_aligned := dvd_align
      bss_le := Nat.le_add_right _ _
      bss_fits := hfits }
  else none

/-- **Every layout is produced by the script**, from sections of suitable sizes. -/
theorem exists_link (L : Layout) : ∃ s, link s = some L := by
  have horigin : 0 < ramOrigin := by decide
  have htext := L.text_le
  have hrodata := L.rodata_ge
  have hrodata' := L.rodata_le
  have hdata := L.data_ge
  have hdata' := L.data_le
  have hbss := L.bss_ge
  have hbss' := L.bss_le
  refine ⟨{
    textSize := L.textEnd - ramOrigin
    rodataAlign := L.rodataStart
    rodataSize := L.rodataEnd - L.rodataStart
    dataAlign := L.dataStart
    dataSize := L.dataEnd - L.dataStart
    bssAlign := L.bssStart
    bssSize := L.bssEnd - L.bssStart
    rodataAlign_pos := by omega
    dataAlign_pos := by omega
    bssAlign_pos := by omega }, ?_⟩
  have h1 : ramOrigin + (L.textEnd - ramOrigin) = L.textEnd := by omega
  have h2 : L.rodataStart + (L.rodataEnd - L.rodataStart) = L.rodataEnd := by omega
  have h3 : L.dataStart + (L.dataEnd - L.dataStart) = L.dataEnd := by omega
  have h4 : L.bssStart + (L.bssEnd - L.bssStart) = L.bssEnd := by omega
  simp only [link, h1, align_of_le (show 0 < L.textEnd by omega) hrodata, h2,
    align_of_le (show 0 < L.rodataEnd by omega) hdata, h3,
    align_of_le (show 0 < L.dataEnd by omega) hbss, align_of_dvd (by decide) L.bss_aligned, h4,
    L.bss_fits, dif_pos]

/-- A `.bss` of 13 bytes ends three bytes before the stack area. -/
example : (link ⟨100, 8, 12, 8, 4, 8, 13, by decide, by decide, by decide⟩).map
    (fun L => (L.bssStart, L.bssEnd, L.stackStart)) =
      some (0x40000080, 0x4000008d, 0x40000090) := rfl

end CleoKernel.Boot
