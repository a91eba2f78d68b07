/-
# What `kmain` is handed, and what becomes of the core if it returns

`RingBuf` and `Tlsf` are C++ and rely on an environment that `boot.S` has to set up: a stack,
zeroed static storage, initialised data left alone.  `start_clears_bss` follows the start-up
code to `bss_done`.  This module takes the last step, the `bl`, and looks both ways from there.

* At the entry of `kmain` (`Entered`) the stack pointer is the 16-aligned top of 64 KB that no
  section reaches into, the link register holds the address of `hang`, and `.bss` is clear.
* The linker script reserves those 64 KB by moving the location counter and checks nothing:
  the stack lies in RAM exactly when `.bss` ends 64 KB before the end of RAM.
* If `kmain` returns, the core stays in the two instructions at `hang` for ever.  It stores
  nothing, and neither the memory nor the stack pointer changes again (`Parked`).
-/
import CleoKernel.Boot.Start

namespace CleoKernel.Boot

open CleoKernel.Aarch64 CleoKernel.Checked CleoKernel.Transition

variable {L : Layout} {kmain : Addr} {s t u : Cpu} {n : ℕ}

/-! ## 1. The stack -/

/-- No section reaches into the stack area. -/
theorem Layout.bssEnd_le_stackStart (L : Layout) : L.bssEnd ≤ L.stackStart := le_align (by decide)

/-- `__stack_top` is an address. -/
theorem Layout.stackTop_lt (L : Layout) : L.stackTop < 2 ^ 64 := by
  have halign : L.stackStart ≤ ramEnd := align_le (by decide) (by decide) L.bss_fits
  have hend : ramEnd + stackSize < 2 ^ 64 := by decide
  rw [stackTop]
  omega

/-- The ABI wants the stack pointer aligned to 16, and the script's `ALIGN(16)` provides it. -/
theorem Layout.stackTop_aligned (L : Layout) : 16 ∣ L.stackTop :=
  Nat.dvd_add dvd_align (by decide)

/-- **The stack lies in RAM exactly when there is room for it**, which nothing in the script
checks. -/
theorem Layout.stackTop_le_ramEnd_iff (L : Layout) :
    L.stackTop ≤ ramEnd ↔ L.bssEnd + stackSize ≤ ramEnd := by
  have hle := L.bssEnd_le_stackStart
  rw [stackTop]
  constructor
  · intro h
    omega
  · intro h
    have hstart : L.stackStart ≤ ramEnd - stackSize :=
      align_le (by decide) (by decide) (Nat.le_sub_of_add_le h)
    omega

/-! ## 2. The entry of `kmain` -/

/-- The state in which `kmain` is entered, when memory held `before` at `_start`. -/
structure Entered (L : Layout) (kmain : Addr) (before : Mem) (t : Cpu) : Prop where
  pc : t.pc = kmain
  link : t.x 30 = hang
  sp : t.sp.toNat = L.stackTop
  sp_aligned : 16 ∣ t.sp.toNat
  /-- The 64 KB below the stack pointer are clear of every section. -/
  stack : L.bssEnd + stackSize ≤ t.sp.toNat
  in_ram : t.sp.toNat ≤ ramEnd ↔ L.bssEnd + stackSize ≤ ramEnd
  cleared : ∃ stores, ClearsBss L before stores t.mem

/-- The `bl` at `bss_done`. -/
theorem step_bssDone (hpc : s.pc = bssDone) :
    s.step (code L kmain) = some ([], { s.set 30 hang with pc := kmain }) := by
  have hcode : code L kmain s.pc = some (.bl kmain) := by
    rw [hpc]
    rfl
  rw [Cpu.step_eq hcode, Cpu.exec, hpc]
  rfl

/-- From `_start` to the first instruction of `kmain`, in one run. -/
theorem start_enters (L : Layout) (kmain : Addr) (s : Cpu) :
    ∃ n stores t,
      runFor (Cpu.step (code L kmain)) n { s with pc := startAddr } = some (stores, t) ∧
      n ≤ 4 * stores.length + 7 ∧ ClearsBss L s.mem stores t.mem ∧
      Entered L kmain s.mem t := by
  obtain ⟨stores, t, hboots, hsp, hclear⟩ := start_clears_bss L kmain s
  obtain ⟨hstop, n, hn, hrun⟩ := runFor_of_runUntil (hboots _ (Nat.le_refl _))
  have hpc : t.pc = bssDone := beq_iff_eq.mp hstop
  have hcall := runFor_last hrun (step_bssDone hpc)
  rw [List.append_nil] at hcall
  have hsp' : t.sp.toNat = L.stackTop := by
    rw [hsp]
    exact toNat_ofNat_of_lt L.stackTop_lt
  refine ⟨n + 1, stores, _, hcall, Nat.succ_le_succ hn, hclear, ?_⟩
  constructor
  · rfl
  · exact Function.update_self (30 : Reg) hang t.x
  · exact hsp'
  · exact hsp' ▸ L.stackTop_aligned
  · exact hsp' ▸ Nat.add_le_add_right L.bssEnd_le_stackStart _
  · exact hsp' ▸ L.stackTop_le_ramEnd_iff
  · exact ⟨stores, hclear⟩

/-! ## 3. After `kmain` -/

/-- The core is in the loop at `hang`, with the registers, the stack pointer and the memory of
`u`. -/
structure Parked (u s : Cpu) : Prop where
  pc : s.pc = hang ∨ s.pc = hang + 4
  x : s.x = u.x
  sp : s.sp = u.sp
  mem : s.mem = u.mem

/-- The two instructions at `hang` lead to each other. -/
theorem Parked.step (L : Layout) (kmain : Addr) (h : Parked u s) :
    ∃ s', s.step (code L kmain) = some ([], s') ∧ Parked u s' := by
  rcases h.pc with hpc | hpc
  · have hcode : code L kmain s.pc = some .wfe := by
      rw [hpc]
      rfl
    exact ⟨s.advance, Cpu.step_eq hcode, Or.inr (congrArg (· + 4) hpc), h.x, h.sp, h.mem⟩
  · have hcode : code L kmain s.pc = some (.b hang) := by
      rw [hpc]
      rfl
    exact ⟨{ s with pc := hang }, Cpu.step_eq hcode, Or.inl rfl, h.x, h.sp, h.mem⟩

/-- **`boot.S` around `kmain`**, for every layout, every initial state and every address of
`kmain`: the core gets from `_start` to the entry of `kmain` with the environment `Entered`
describes, and from the address `kmain` would return to, with whatever it left behind, the core
never leaves `hang`, stores nothing and changes nothing.  Instructions are fetched from a table
beside the memory, so the code itself is taken not to be overwritten. -/
theorem boot_around_kmain (L : Layout) (kmain : Addr) (s : Cpu) :
    ∃ n stores t,
      runFor (Cpu.step (code L kmain)) n { s with pc := startAddr } = some (stores, t) ∧
      n ≤ 4 * stores.length + 7 ∧ Entered L kmain s.mem t ∧
      ∀ u : Cpu, u.pc = t.x 30 → ∀ m,
        ∃ v, runFor (Cpu.step (code L kmain)) m u = some ([], v) ∧ Parked u v := by
  obtain ⟨n, stores, t, hrun, hn, -, hentered⟩ := start_enters L kmain s
  refine ⟨n, stores, t, hrun, hn, hentered, fun u hu m => ?_⟩
  have hparked : Parked u u := ⟨Or.inl (hu.trans hentered.link), rfl, rfl, rfl⟩
  exact runFor_silent (fun s hs => hs.step L kmain) hparked m

end CleoKernel.Boot
