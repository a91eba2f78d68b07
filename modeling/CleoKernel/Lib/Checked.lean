/-
# Fixed-width arithmetic that reports its faults

The arithmetic of C and C++ on unsigned operands, with the operand widths explicit and the
result in `Except Fault`.  Shifting by the operand's own width or more, and counting the
leading zeros of zero, are undefined and always a fault.  Unsigned sums and differences that
leave the range, and conversions that drop bits, are defined by the language, and still rarely
what was meant; a `Mode` says whether they count.

Operands of different widths do not meet by accident: a conversion has to be written, so that
the width at which an expression is computed can be read off it.

The lemmas of the second section compute on operands written `BitVec.ofNat w a`.  Each holds in
both modes, since it has the hypothesis under which nothing is lost; a chain of them therefore
proves at once what an expression computes and that it computes it exactly.
-/
import Mathlib.Algebra.Group.Nat.Defs

namespace CleoKernel.Checked

/-! ## 1. Operations -/

/-- What can go wrong in an evaluation. -/
inductive Fault
  | clzOfZero
  | shiftPastWidth
  | belowZero
  | sumWraps
  | bitsLost
  deriving DecidableEq, Repr

/-- Which faults count: those the language leaves undefined, or also every operation whose
result is not the mathematical one. -/
inductive Mode
  | language
  | exact
  deriving DecidableEq, Repr

variable {w v a b n : ℕ}

/-- Count leading zeros; undefined at zero. -/
def clz (x : BitVec w) : Except Fault ℕ :=
  if x = 0 then .error .clzOfZero else .ok x.clz.toNat

/-- `x << n`, at the width of `x`. -/
def shl (x : BitVec w) (n : BitVec v) : Except Fault (BitVec w) :=
  if n.toNat < w then .ok (x <<< n.toNat) else .error .shiftPastWidth

/-- `x >> n`, at the width of `x`. -/
def shr (x : BitVec w) (n : BitVec v) : Except Fault (BitVec w) :=
  if n.toNat < w then .ok (x >>> n.toNat) else .error .shiftPastWidth

namespace Mode

/-- `x` if nothing was lost, and otherwise the fault, when it counts. -/
def guard (m : Mode) (fault : Fault) (kept : Bool) (x : BitVec w) : Except Fault (BitVec w) :=
  if m = .exact ∧ kept = false then .error fault else .ok x

/-- `x + y`. -/
def add (m : Mode) (x y : BitVec w) : Except Fault (BitVec w) :=
  m.guard .sumWraps (x.toNat + y.toNat < 2 ^ w) (x + y)

/-- `x - y`. -/
def sub (m : Mode) (x y : BitVec w) : Except Fault (BitVec w) :=
  m.guard .belowZero (y.toNat ≤ x.toNat) (x - y)

/-- Conversion to width `v`. -/
def convert (m : Mode) (v : ℕ) (x : BitVec w) : Except Fault (BitVec v) :=
  m.guard .bitsLost (x.toNat < 2 ^ v) (x.setWidth v)

end Mode

/-! ## 2. Computing without loss -/

theorem toNat_ofNat_of_lt (h : a < 2 ^ w) : (BitVec.ofNat w a).toNat = a := by
  rw [BitVec.toNat_ofNat, Nat.mod_eq_of_lt h]

namespace Mode

theorem guard_kept (m : Mode) {fault : Fault} {kept : Bool} (h : kept = true) (x : BitVec w) :
    m.guard fault kept x = .ok x := by
  rw [guard, if_neg]
  rintro ⟨-, hlost⟩
  rw [h] at hlost
  exact absurd hlost (by decide)

theorem add_ofNat (m : Mode) (h : a + b < 2 ^ w) :
    m.add (.ofNat w a) (.ofNat w b) = .ok (.ofNat w (a + b)) := by
  have ha : (BitVec.ofNat w a).toNat = a :=
    toNat_ofNat_of_lt (Nat.lt_of_le_of_lt (Nat.le_add_right a b) h)
  have hb : (BitVec.ofNat w b).toNat = b :=
    toNat_ofNat_of_lt (Nat.lt_of_le_of_lt (Nat.le_add_left b a) h)
  rw [add, ha, hb, guard_kept m (decide_eq_true h), BitVec.ofNat_add]

theorem sub_ofNat (m : Mode) (ha : a < 2 ^ w) (h : b ≤ a) :
    m.sub (.ofNat w a) (.ofNat w b) = .ok (.ofNat w (a - b)) := by
  have hb : b < 2 ^ w := Nat.lt_of_le_of_lt h ha
  rw [sub, toNat_ofNat_of_lt ha, toNat_ofNat_of_lt hb, guard_kept m (decide_eq_true h),
    BitVec.ofNat_sub_ofNat_of_le _ _ hb h]

theorem convert_ofNat (m : Mode) (ha : a < 2 ^ w) (h : a < 2 ^ v) :
    m.convert v (.ofNat w a) = .ok (.ofNat v a) := by
  rw [convert, toNat_ofNat_of_lt ha, guard_kept m (decide_eq_true h)]
  congr 1
  apply BitVec.eq_of_toNat_eq
  rw [BitVec.toNat_setWidth, toNat_ofNat_of_lt ha, BitVec.toNat_ofNat]

end Mode

theorem shr_ofNat (ha : a < 2 ^ w) (hn : n < 2 ^ v) (h : n < w) :
    shr (.ofNat w a) (.ofNat v n) = .ok (.ofNat w (a / 2 ^ n)) := by
  have hval : (BitVec.ofNat v n).toNat = n := toNat_ofNat_of_lt hn
  rw [shr, hval, if_pos h]
  congr 1
  apply BitVec.eq_of_toNat_eq
  rw [BitVec.toNat_ushiftRight, toNat_ofNat_of_lt ha, Nat.shiftRight_eq_div_pow,
    toNat_ofNat_of_lt (Nat.lt_of_le_of_lt (Nat.div_le_self _ _) ha)]

theorem shl_ofNat (hn : n < 2 ^ v) (h : n < w) :
    shl (.ofNat w a) (.ofNat v n) = .ok (.ofNat w (a * 2 ^ n)) := by
  have hval : (BitVec.ofNat v n).toNat = n := toNat_ofNat_of_lt hn
  rw [shl, hval, if_pos h]
  congr 1
  apply BitVec.eq_of_toNat_eq
  rw [BitVec.toNat_shiftLeft, BitVec.toNat_ofNat, BitVec.toNat_ofNat, Nat.shiftLeft_eq,
    Nat.mod_mul_mod]

/-- **Shifting by the width or more is a fault in every mode.** -/
theorem shl_of_width_le {x : BitVec w} (hn : n < 2 ^ v) (h : w ≤ n) :
    shl x (.ofNat v n) = .error .shiftPastWidth := by
  have hval : (BitVec.ofNat v n).toNat = n := toNat_ofNat_of_lt hn
  rw [shl, hval, if_neg (Nat.not_lt.mpr h)]

/-- The leading zeros of a number stand above its leading bit. -/
theorem clz_ofNat (hpos : a ≠ 0) (ha : a < 2 ^ w) :
    clz (.ofNat w a) = .ok (w - 1 - a.log2) := by
  have hval : (BitVec.ofNat w a).toNat = a := toNat_ofNat_of_lt ha
  have hne : BitVec.ofNat w a ≠ 0 := by
    intro h
    rw [h] at hval
    exact hpos hval.symm
  have hhi := BitVec.toNat_lt_two_pow_sub_clz (x := BitVec.ofNat w a)
  rw [hval] at hhi
  -- there are fewer leading zeros than bits, since `a` is not zero
  have hclz : (BitVec.ofNat w a).clz.toNat < w := by
    apply Nat.lt_of_not_le
    intro hge
    rw [Nat.sub_eq_zero_of_le hge] at hhi
    exact hpos (Nat.lt_one_iff.mp hhi)
  have hlo := BitVec.two_pow_sub_clz_le_toNat_of_ne_zero (Nat.zero_lt_of_lt hclz) hne
  rw [hval] at hlo
  have hlog : a.log2 = w - 1 - (BitVec.ofNat w a).clz.toNat := by
    rw [Nat.log2_eq_iff hpos, show w - 1 - (BitVec.ofNat w a).clz.toNat + 1 =
      w - (BitVec.ofNat w a).clz.toNat by omega]
    exact ⟨hlo, hhi⟩
  rw [clz, if_neg hne, hlog]
  congr 1
  omega

end CleoKernel.Checked
