/-
# A fragment of the AArch64 instruction set

The instructions a start-up routine consists of: loading constants, setting the stack pointer,
comparing, branching, and storing a doubleword with post-increment.  A state holds the general
registers, the stack pointer, the condition flags, the program counter and a memory of bytes;
`exec` is the effect of one instruction, and it reports the address of a store.

Code is fetched by address from a table that stands beside the memory.  A program that is shown
not to write the memory its code occupies, literal pool included, runs in the same way when it
is fetched from there.

Two facts carry the arithmetic.  `Flags.ge_ofCmp`: the condition `ge`, which the flags express
as `N = V`, is the signed comparison, also where the subtraction overflows.  `Mem.store_apply`:
a store writes exactly the eight bytes from its address on.
-/
import CleoKernel.Lib.Checked
import Mathlib.Algebra.GroupWithZero.Nat
import Mathlib.Logic.Function.Basic
import Mathlib.Order.Basic

namespace CleoKernel.Aarch64

open CleoKernel.Checked

/-! ## 1. Memory -/

/-- An address. -/
abbrev Addr := BitVec 64

/-- A doubleword. -/
abbrev Word := BitVec 64

/-- The contents of memory, byte by byte. -/
abbrev Mem := Addr → BitVec 8

/-- Store a doubleword, least significant byte first. -/
def Mem.store (m : Mem) (a : Addr) (v : Word) : Mem := fun p =>
  if (p - a).toNat < 8 then v.extractLsb' (8 * (p - a).toNat) 8 else m p

/-- **A store writes the eight bytes from its address on**, and no other. -/
theorem Mem.store_apply {m : Mem} {a p : Addr} {v : Word} (ha : a.toNat + 8 ≤ 2 ^ 64) :
    m.store a v p = if a.toNat ≤ p.toNat ∧ p.toNat < a.toNat + 8
      then v.extractLsb' (8 * (p.toNat - a.toNat)) 8 else m p := by
  have hp := p.isLt
  by_cases hle : a.toNat ≤ p.toNat
  · have hsub : (p - a).toNat = p.toNat - a.toNat := BitVec.toNat_sub_of_le hle
    rw [Mem.store, hsub]
    refine if_congr ?_ rfl rfl
    omega
  · -- below the address the difference wraps
    have hsub : (p - a).toNat = 2 ^ 64 - a.toNat + p.toNat := by
      rw [BitVec.toNat_sub, Nat.mod_eq_of_lt (by omega)]
    rw [Mem.store, if_neg (by omega), if_neg (by omega)]

/-! ## 2. Condition flags -/

/-- `N`, `Z`, `C` and `V`. -/
structure Flags where
  n : Bool
  z : Bool
  c : Bool
  v : Bool
  deriving DecidableEq, Repr

/-- The flags `cmp a, b` sets, those of the subtraction `a - b`. -/
def Flags.ofCmp (a b : Word) : Flags where
  n := (a - b).msb
  z := a == b
  c := b.ule a
  v := a.ssubOverflow b

/-- The condition `ge`. -/
def Flags.ge (f : Flags) : Bool := f.n == f.v

/-- **The condition `ge` is signed comparison.** -/
theorem Flags.ge_ofCmp (a b : Word) : (Flags.ofCmp a b).ge = true ↔ b.toInt ≤ a.toInt := by
  have ha := a.toInt_lt
  have hb := b.toInt_lt
  have ha' := a.le_toInt
  have hb' := b.le_toInt
  have hmsb : (a - b).msb = decide ((a - b).toInt < 0) := BitVec.msb_eq_toInt
  rw [Flags.ge, Flags.ofCmp, beq_iff_eq, hmsb, BitVec.toInt_sub, BitVec.ssubOverflow,
    Int.bmod_def, Bool.eq_iff_iff]
  simp only [decide_eq_true_iff, Bool.or_eq_true]
  split <;> omega

/-- Below `2^63` that is the comparison of the addresses. -/
theorem Flags.ge_ofCmp_ofNat {a b : ℕ} (ha : a < 2 ^ 63) (hb : b < 2 ^ 63) :
    (Flags.ofCmp (.ofNat 64 a) (.ofNat 64 b)).ge = true ↔ b ≤ a := by
  have hint : ∀ n : ℕ, n < 2 ^ 63 → (BitVec.ofNat 64 n).toInt = n := by
    intro n hn
    have hval : (BitVec.ofNat 64 n).toNat = n := toNat_ofNat_of_lt (by omega)
    rw [BitVec.toInt_eq_toNat_of_lt (by omega), hval]
  rw [Flags.ge_ofCmp, hint a ha, hint b hb, Int.ofNat_le]

/-! ## 3. Instructions -/

/-- A general register, `x0` to `x30`. -/
abbrev Reg := Fin 31

/-- Registers are written as numerals. -/
instance instNeZeroReg : NeZero 31 := ⟨Nat.succ_ne_zero 30⟩

/-- The instructions of the fragment.  `none`, as the register stored, is `xzr`. -/
inductive Instr
  | ldrLit (t : Reg) (value : Word)
  | movSp (n : Reg)
  | cmp (n m : Reg)
  | bGe (target : Addr)
  | strPost (t : Option Reg) (n : Reg) (imm : Word)
  | b (target : Addr)
  | bl (target : Addr)
  | wfe

/-- The state of a core. -/
structure Cpu where
  x : Reg → Word
  sp : Word
  flags : Flags
  pc : Addr
  mem : Mem

namespace Cpu

/-- The next instruction in line. -/
def advance (s : Cpu) : Cpu := { s with pc := s.pc + 4 }

/-- Set a register. -/
def set (s : Cpu) (r : Reg) (v : Word) : Cpu := { s with x := Function.update s.x r v }

/-- The doubleword a store writes. -/
def source (s : Cpu) : Option Reg → Word
  | some r => s.x r
  | none => 0

/-- The effect of an instruction, and the addresses of the doublewords it stores. -/
def exec (s : Cpu) : Instr → List Addr × Cpu
  | .ldrLit t value => ([], (s.set t value).advance)
  | .movSp n => ([], { s with sp := s.x n }.advance)
  | .cmp n m => ([], { s with flags := .ofCmp (s.x n) (s.x m) }.advance)
  | .bGe target => ([], if s.flags.ge then { s with pc := target } else s.advance)
  | .strPost t n imm =>
    ([s.x n], ({ s with mem := s.mem.store (s.x n) (s.source t) }.set n (s.x n + imm)).advance)
  | .b target => ([], { s with pc := target })
  | .bl target => ([], { s.set 30 (s.pc + 4) with pc := target })
  | .wfe => ([], s.advance)

/-- Fetch and execute.  There is no step from an address that holds none of the code. -/
def step (code : Addr → Option Instr) (s : Cpu) : Option (List Addr × Cpu) :=
  (code s.pc).map s.exec

theorem step_eq {code : Addr → Option Instr} {s : Cpu} {i : Instr} (h : code s.pc = some i) :
    s.step code = some (s.exec i) := by
  rw [step, h, Option.map_some]

end Cpu

end CleoKernel.Aarch64
