/-
# `_start` of `boot.S` clears `.bss` and nothing that is live

The start-up code sets the stack pointer and then walks `x0` from `__bss_start` in steps of
eight, storing a zero doubleword each time, until `x0` has reached `__bss_end`.  Two things
about it depend on the linker script.  The exit test is a signed comparison, which is right
because both symbols lie in RAM, far below `2^63`.  And the last store may run up to seven bytes
past `__bss_end`, which has no alignment, into what the second `ALIGN(16)` of the script keeps
free.

`loop_reaches` is the loop, by induction on the number of stores still to come.
`start_clears_bss` is the whole start-up code from `_start` to `bss_done`, for every layout and
every initial state.
-/
import CleoKernel.Boot.Layout
import CleoKernel.Lib.Aarch64
import CleoKernel.Lib.Transition

namespace CleoKernel.Boot

open CleoKernel.Aarch64 CleoKernel.Checked CleoKernel.Transition

/-! ## 1. The code -/

/-- `_start`.  The script keeps `.text.boot` in front of all other code. -/
def startAddr : Addr := .ofNat 64 ramOrigin

/-- `bss_clear`. -/
def bssClear : Addr := startAddr + 16

/-- `bss_done`. -/
def bssDone : Addr := startAddr + 32

/-- `hang`. -/
def hang : Addr := startAddr + 36

/-- The instructions of `boot.S`, in order. -/
def source (L : Layout) (kmain : Addr) : List Instr := [
  .ldrLit 0 (.ofNat 64 L.stackTop),
  .movSp 0,
  .ldrLit 0 (.ofNat 64 L.bssStart),
  .ldrLit 1 (.ofNat 64 L.bssEnd),
  -- bss_clear:
  .cmp 0 1,
  .bGe bssDone,
  .strPost none 0 8,
  .b bssClear,
  -- bss_done:
  .bl kmain,
  -- hang:
  .wfe,
  .b hang]

/-- The instruction at an address. -/
def code (L : Layout) (kmain pc : Addr) : Option Instr :=
  if (pc - startAddr).toNat % 4 = 0 then (source L kmain)[(pc - startAddr).toNat / 4]? else none

/-- Has control reached `bss_done`? -/
def atDone (s : Cpu) : Bool := s.pc == bssDone

variable {L : Layout} {kmain : Addr} {s t : Cpu} {stores : List Addr} {a k n : ℕ}

/-- Execution of `_start` up to `bss_done`. -/
def Boots (L : Layout) (kmain : Addr) (n : ℕ) (s : Cpu) (stores : List Addr) (t : Cpu) : Prop :=
  Reaches (Cpu.step (code L kmain)) atDone n s stores t

/-- One instruction, at an address before `bss_done`. -/
theorem Boots.instr {i : Instr} {p : Addr} (hpc : s.pc = p) (hp : p ≠ bssDone)
    (hi : code L kmain p = some i) (h : Boots L kmain n (s.exec i).2 stores t) :
    Boots L kmain (n + 1) s ((s.exec i).1 ++ stores) t := by
  subst hpc
  exact Reaches.step (beq_eq_false_iff_ne.mpr hp) (Cpu.step_eq hi) h

/-! ## 2. Clearing a range -/

/-- The addresses of `k` doublewords from `a` on. -/
def words : ℕ → ℕ → List Addr
  | _, 0 => []
  | a, k + 1 => .ofNat 64 a :: words (a + 8) k

theorem length_words : ∀ a k, (words a k).length = k
  | _, 0 => rfl
  | a, k + 1 => congrArg (· + 1) (length_words (a + 8) k)

/-- Where the doublewords lie. -/
theorem mem_words (hk : a + 8 * k ≤ 2 ^ 64) {w : Addr} (hw : w ∈ words a k) :
    a ≤ w.toNat ∧ w.toNat + 8 ≤ a + 8 * k ∧ (8 ∣ a → 8 ∣ w.toNat) := by
  induction k generalizing a with
  | zero => exact absurd hw (List.not_mem_nil)
  | succ k ih =>
    rcases List.mem_cons.mp hw with rfl | hw
    · have hval : (BitVec.ofNat 64 a).toNat = a := toNat_ofNat_of_lt (by omega)
      rw [hval]
      exact ⟨le_rfl, by omega, id⟩
    · obtain ⟨hlo, hhi, hdvd⟩ := ih (by omega) hw
      exact ⟨by omega, by omega, fun h => hdvd (Nat.dvd_add h (Nat.dvd_refl 8))⟩

/-- `after` is `before` with zeros from `lo` up to `hi`. -/
def Zeroed (lo hi : ℕ) (before after : Mem) : Prop :=
  ∀ p : Addr, after p = if lo ≤ p.toNat ∧ p.toNat < hi then 0 else before p

theorem Zeroed.refl {lo : ℕ} {m : Mem} : Zeroed lo lo m m := by
  intro p
  rw [if_neg (by omega)]

/-- A zero doubleword, and zeros from there on. -/
theorem Zeroed.store {hi : ℕ} {m m' : Mem} (ha : a + 8 ≤ hi) (hhi : hi ≤ 2 ^ 64)
    (h : Zeroed (a + 8) hi (m.store (.ofNat 64 a) 0) m') : Zeroed a hi m m' := by
  intro p
  have hval : (BitVec.ofNat 64 a).toNat = a := toNat_ofNat_of_lt (by omega)
  rw [h p, Mem.store_apply (by omega), hval]
  by_cases hrest : a + 8 ≤ p.toNat ∧ p.toNat < hi
  · rw [if_pos hrest, if_pos (by omega)]
  · rw [if_neg hrest]
    by_cases hword : a ≤ p.toNat ∧ p.toNat < a + 8
    · rw [if_pos hword, if_pos (by omega)]
      simp
    · rw [if_neg hword, if_neg (by omega)]

/-! ## 3. The loop -/

/-- The state in front of the exit test: `x0` has got to `a`. -/
structure AtTest (L : Layout) (a : ℕ) (s : Cpu) : Prop where
  pc : s.pc = bssClear
  x0 : s.x 0 = .ofNat 64 a
  x1 : s.x 1 = .ofNat 64 L.bssEnd

/-- The exit test succeeds from `__bss_end` on. -/
theorem AtTest.exit (kmain : Addr) (h : AtTest L a s) (ha : a < 2 ^ 63) (hend : L.bssEnd < 2 ^ 63)
    (hle : L.bssEnd ≤ a) : ∃ t, Boots L kmain 2 s [] t ∧ t.sp = s.sp ∧ t.mem = s.mem := by
  have hge := (Flags.ge_ofCmp_ofNat ha hend).mpr hle
  obtain ⟨x, sp, flags, pc, mem⟩ := s
  obtain ⟨rfl, hx0, hx1⟩ := h
  simp only at hx0 hx1
  refine ⟨{ x, sp, flags := .ofCmp (x 0) (x 1), pc := bssDone, mem }, ?_, rfl, rfl⟩
  refine Boots.instr (i := .cmp 0 1) (p := bssClear) rfl (by decide) rfl ?_
  refine Boots.instr (i := .bGe bssDone) (p := bssClear + 4) rfl (by decide) rfl ?_
  rw [← hx0, ← hx1] at hge
  simp only [Cpu.exec, Cpu.advance, hge, if_true]
  exact Reaches.done rfl

/-- Before `__bss_end` the loop stores a doubleword and comes back to the test. -/
theorem AtTest.iterate (kmain : Addr) (h : AtTest L a s) (hend : L.bssEnd < 2 ^ 63)
    (hlt : a < L.bssEnd) :
    ∃ u, AtTest L (a + 8) u ∧ u.sp = s.sp ∧ u.mem = s.mem.store (.ofNat 64 a) 0 ∧
      ∀ n stores t, Boots L kmain n u stores t →
        Boots L kmain (n + 4) s (.ofNat 64 a :: stores) t := by
  have hge := mt (Flags.ge_ofCmp_ofNat (hlt.trans hend) hend).mp (not_le.mpr hlt)
  obtain ⟨x, sp, flags, pc, mem⟩ := s
  obtain ⟨rfl, hx0, hx1⟩ := h
  simp only at hx0 hx1
  rw [← hx0, ← hx1] at hge
  refine ⟨{
    x := Function.update x 0 (x 0 + 8)
    sp
    flags := .ofCmp (x 0) (x 1)
    pc := bssClear
    mem := mem.store (x 0) 0 }, ⟨rfl, ?_, ?_⟩, rfl, ?_, ?_⟩
  · simp [hx0, BitVec.ofNat_add]
  · simp [hx1]
  · rw [hx0]
  · intro n stores t ht
    rw [← hx0]
    refine Boots.instr (i := .cmp 0 1) (p := bssClear) rfl (by decide) rfl ?_
    refine Boots.instr (i := .bGe bssDone) (p := bssClear + 4) rfl (by decide) rfl ?_
    simp only [Cpu.exec, Cpu.advance, hge]
    refine Boots.instr (i := .strPost none 0 8) (p := bssClear + 8) rfl (by decide) rfl ?_
    exact Boots.instr (i := .b bssClear) (p := bssClear + 12) rfl (by decide) rfl ht

/-- **The loop**, with `k` stores to come: it stores the `k` doublewords from `a` on, and they
cover what is left of `.bss`. -/
theorem loop_reaches (kmain : Addr) (hend : L.bssEnd + 8 < 2 ^ 63)
    (hk : L.bssEnd ≤ a + 8 * k ∧ a + 8 * k < L.bssEnd + 8) (h : AtTest L a s) :
    ∃ t, Boots L kmain (4 * k + 2) s (words a k) t ∧ t.sp = s.sp ∧
      Zeroed a (a + 8 * k) s.mem t.mem := by
  induction k generalizing a s with
  | zero =>
    obtain ⟨t, hboots, hsp, hmem⟩ := h.exit kmain (by omega) (by omega) hk.1
    refine ⟨t, hboots, hsp, ?_⟩
    rw [hmem]
    exact Zeroed.refl
  | succ k ih =>
    obtain ⟨u, htest, hsp, hmem, hback⟩ := h.iterate kmain (by omega) (by omega)
    have hlast : a + 8 + 8 * k = a + 8 * (k + 1) := by omega
    obtain ⟨t, hboots, hsp', hzero⟩ := ih (by omega) htest
    refine ⟨t, hback _ _ _ hboots, hsp'.trans hsp, ?_⟩
    rw [hmem, hlast] at hzero
    exact hzero.store (by omega) (by omega)

/-! ## 4. From `_start` to `bss_done` -/

/-- What the start-up code has done with memory when it gets to `bss_done`: the contents
`before` and `after`, and the addresses of the doublewords stored. -/
structure ClearsBss (L : Layout) (before : Mem) (stores : List Addr) (after : Mem) : Prop where
  /-- One store for each doubleword begun. -/
  count : stores.length = (L.bssEnd - L.bssStart + 7) / 8
  aligned : ∀ w ∈ stores, 8 ∣ w.toNat
  zero : ∀ p : Addr, L.bssStart ≤ p.toNat → p.toNat < L.bssEnd → after p = 0
  frame : ∀ p : Addr, p.toNat < L.bssStart ∨ align 8 L.bssEnd ≤ p.toNat → after p = before p
  /-- No store touches `.text`, `.rodata`, `.data` or the stack area. -/
  untouched : ∀ p ∈ L.live, ∀ w ∈ stores, ¬ (w.toNat ≤ p ∧ p < w.toNat + 8)

/-- The number of doublewords between `__bss_start` and `__bss_end`. -/
def wordCount (L : Layout) : ℕ := (L.bssEnd - L.bssStart + 7) / 8

/-- The last doubleword ends at `__bss_end` rounded up. -/
theorem bssStart_add_words (L : Layout) : L.bssStart + 8 * wordCount L = align 8 L.bssEnd := by
  have hle := L.bss_le
  obtain ⟨q, hq⟩ := L.bss_aligned
  rw [wordCount, align, hq]
  omega

/-- Both ends of `.bss` are far below `2^63`. -/
theorem bssEnd_lt (L : Layout) : L.bssEnd + 8 < 2 ^ 63 :=
  (Nat.add_le_add_right L.bss_fits 8).trans_lt (by decide)

/-- The four instructions in front of the loop. -/
theorem start_reaches (L : Layout) (kmain : Addr) (s : Cpu) :
    ∃ u, AtTest L L.bssStart u ∧ u.sp = .ofNat 64 L.stackTop ∧ u.mem = s.mem ∧
      ∀ n stores t, Boots L kmain n u stores t →
        Boots L kmain (n + 4) { s with pc := startAddr } stores t := by
  obtain ⟨x, sp, flags, pc, mem⟩ := s
  refine ⟨{
    x := Function.update (Function.update (Function.update x 0 (.ofNat 64 L.stackTop)) 0
      (.ofNat 64 L.bssStart)) 1 (.ofNat 64 L.bssEnd)
    sp := .ofNat 64 L.stackTop
    flags
    pc := bssClear
    mem }, ⟨rfl, by simp, by simp⟩, rfl, rfl, ?_⟩
  intro n stores t ht
  refine Boots.instr (i := .ldrLit 0 _) (p := startAddr) rfl (by decide) rfl ?_
  refine Boots.instr (i := .movSp 0) (p := startAddr + 4) rfl (by decide) rfl ?_
  refine Boots.instr (i := .ldrLit 0 _) (p := startAddr + 8) rfl (by decide) rfl ?_
  refine Boots.instr (i := .ldrLit 1 _) (p := startAddr + 12) rfl (by decide) rfl ?_
  exact ht

/-- **The start-up code clears `.bss` and nothing that is live**, for every layout, every
initial state and every address of `kmain`. -/
theorem start_clears_bss (L : Layout) (kmain : Addr) (s : Cpu) :
    ∃ stores t, Boots L kmain (4 * stores.length + 6) { s with pc := startAddr } stores t ∧
      t.sp = .ofNat 64 L.stackTop ∧ ClearsBss L s.mem stores t.mem := by
  have hend := bssEnd_lt L
  have hwords := bssStart_add_words L
  have hle := L.bss_le
  have hcover : L.bssEnd ≤ L.bssStart + 8 * wordCount L ∧
      L.bssStart + 8 * wordCount L < L.bssEnd + 8 := by
    rw [wordCount]
    omega
  obtain ⟨u, htest, hsp, hmem, hback⟩ := start_reaches L kmain s
  obtain ⟨t, hboots, hsp', hzero⟩ := loop_reaches kmain hend hcover htest
  rw [hmem] at hzero
  have hinside : ∀ w ∈ words L.bssStart (wordCount L),
      L.bssStart ≤ w.toNat ∧ w.toNat + 8 ≤ align 8 L.bssEnd ∧ 8 ∣ w.toNat := by
    intro w hw
    obtain ⟨hlo, hhi, hdvd⟩ := mem_words (by omega) hw
    rw [hwords] at hhi
    exact ⟨hlo, hhi, hdvd (Nat.dvd_trans (by decide) L.bss_aligned)⟩
  rw [hwords] at hzero hcover
  refine ⟨words L.bssStart (wordCount L), t, ?_, hsp'.trans hsp, ?_⟩
  · rw [length_words]
    exact hback _ _ _ hboots
  · constructor
    · rw [length_words, wordCount]
    · exact fun w hw => (hinside w hw).2.2
    · intro p hlo hhi
      rw [hzero p, if_pos ⟨hlo, hhi.trans_le hcover.1⟩]
    · intro p hp
      rw [hzero p, if_neg (by omega)]
    · rintro p hp w hw ⟨hwp, hpw⟩
      obtain ⟨hlo, hhi, -⟩ := hinside w hw
      rcases Layout.live_outside hp with hout | hout <;> omega

end CleoKernel.Boot
