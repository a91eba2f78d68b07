/-
# Size classes with a leading bit and `k` bits below it

A segregated allocator, a histogram or a short floating-point format files a number `s` under
the position `e` of its leading bit and the `k` bits that follow it.  The classes so obtained
cut `[2^k, ∞)` into intervals: `2^k` of them, all `2^(e-k)` wide, in each binade `[2^e, 2^(e+1))`.

The whole theory follows from one map, `Class.least`, from a class to its smallest member.  It
is strictly monotone for the lexicographic order (`Class.least_strictMono`), and both ways of
going back from numbers to classes are adjoint to it:

* `least_le_iff`: `c.least ≤ s ↔ c ≤ classOf s`, rounding down;
* `le_least_iff`: `s ≤ c.least ↔ classOf (roundUp s) ≤ c`, rounding up, where `roundUp` adds
  the width of the class of `s`, less one.

Crossing into the next binade needs no case of its own anywhere but in `Class.next`.
-/
import Mathlib.Data.Prod.Lex
import Mathlib.Order.Bounds.Basic
import Mathlib.Tactic.Ring
import Mathlib.Tactic.Linarith

namespace CleoKernel.Binade

variable {k s t : ℕ}

/-! ## 1. Classes and their order -/

/-- A class: the position of the leading bit, and the `k` bits below it. -/
@[ext] structure Class (k : ℕ) where
  exp : ℕ
  frac : ℕ
  le_exp : k ≤ exp
  frac_lt : frac < 2 ^ k

namespace Class

/-- Classes are compared by leading bit first. -/
def key (c : Class k) : ℕ ×ₗ ℕ := toLex (c.exp, c.frac)

theorem key_injective : Function.Injective (key (k := k)) := by
  intro c d h
  have hpair : (c.exp, c.frac) = (d.exp, d.frac) := toLex.injective h
  rw [Prod.mk.injEq] at hpair
  exact Class.ext hpair.1 hpair.2

instance : LinearOrder (Class k) := LinearOrder.lift' key key_injective

theorem lt_iff {c d : Class k} :
    c < d ↔ c.exp < d.exp ∨ c.exp = d.exp ∧ c.frac < d.frac := Prod.Lex.toLex_lt_toLex

theorem le_iff {c d : Class k} :
    c ≤ d ↔ c.exp < d.exp ∨ c.exp = d.exp ∧ c.frac ≤ d.frac := Prod.Lex.toLex_le_toLex

/-- How many numbers the class holds. -/
def width (c : Class k) : ℕ := 2 ^ (c.exp - k)

/-- The smallest number of the class. -/
def least (c : Class k) : ℕ := (2 ^ k + c.frac) * c.width

/-- The class that follows: one up in the low bits, or, from the last of a binade, the first
of the next one. -/
def next (c : Class k) : Class k :=
  if h : c.frac + 1 < 2 ^ k then ⟨c.exp, c.frac + 1, c.le_exp, h⟩
  else ⟨c.exp + 1, 0, Nat.le_succ_of_le c.le_exp, Nat.two_pow_pos k⟩

theorem width_pos (c : Class k) : 0 < c.width := Nat.two_pow_pos _

theorem two_pow_mul_width (c : Class k) : 2 ^ k * c.width = 2 ^ c.exp := by
  rw [width, ← Nat.pow_add, Nat.add_sub_cancel' c.le_exp]

/-- **A class ends where the next one starts**, also across a binade. -/
theorem least_next (c : Class k) : c.next.least = c.least + c.width := by
  have hlt := c.frac_lt
  rw [next]
  split
  · simp only [least, width]
    ring
  · have hlast : 2 ^ k = c.frac + 1 := by omega
    have hdouble : 2 ^ (c.exp + 1 - k) = 2 * 2 ^ (c.exp - k) := by
      rw [Nat.succ_sub c.le_exp, Nat.pow_succ, Nat.mul_comm]
    simp only [least, width, hdouble]
    rw [hlast]
    ring

theorem least_lt_least_next (c : Class k) : c.least < c.next.least := by
  rw [c.least_next]
  exact Nat.lt_add_of_pos_right c.width_pos

/-- The numbers of a class lie in its binade. -/
theorem two_pow_le_least (c : Class k) : 2 ^ c.exp ≤ c.least := by
  rw [← c.two_pow_mul_width, least]
  exact Nat.mul_le_mul_right _ (Nat.le_add_right _ _)

theorem least_next_le (c : Class k) : c.next.least ≤ 2 ^ (c.exp + 1) := by
  have hfrac : 2 ^ k + c.frac + 1 ≤ 2 * 2 ^ k := by
    have := c.frac_lt
    omega
  calc c.next.least = (2 ^ k + c.frac + 1) * c.width := by rw [least_next, least]; ring
    _ ≤ 2 * 2 ^ k * c.width := Nat.mul_le_mul_right _ hfrac
    _ = 2 ^ (c.exp + 1) := by rw [Nat.mul_assoc, two_pow_mul_width, Nat.pow_succ, Nat.mul_comm]

theorem two_pow_le_least_self (c : Class k) : 2 ^ k ≤ c.least :=
  (Nat.pow_le_pow_right (by decide) c.le_exp).trans c.two_pow_le_least

/-- `next` is the immediate successor. -/
theorem next_le_of_lt {c d : Class k} (h : c < d) : c.next ≤ d := by
  rw [le_iff, next]
  rcases lt_iff.mp h with hexp | ⟨hexp, hfrac⟩
  · split
    · exact Or.inl hexp
    · rcases Nat.lt_or_eq_of_le (Nat.succ_le_of_lt hexp) with hlt | heq
      · exact Or.inl hlt
      · exact Or.inr ⟨heq, Nat.zero_le _⟩
  · have hd := d.frac_lt
    rw [dif_pos (by omega)]
    exact Or.inr ⟨hexp, hfrac⟩

/-- **The smallest members are ordered as the classes are.** -/
theorem least_strictMono : StrictMono (least (k := k)) := by
  intro c d h
  rcases lt_iff.mp h with hexp | ⟨hexp, hfrac⟩
  · calc c.least < c.next.least := c.least_lt_least_next
      _ ≤ 2 ^ (c.exp + 1) := c.least_next_le
      _ ≤ 2 ^ d.exp := Nat.pow_le_pow_right (by decide) hexp
      _ ≤ d.least := d.two_pow_le_least
  · have hwidth : c.width = d.width := by rw [width, width, hexp]
    rw [least, least, hwidth]
    exact Nat.mul_lt_mul_of_pos_right (Nat.add_lt_add_left hfrac _) d.width_pos

theorem lt_next (c : Class k) : c < c.next :=
  least_strictMono.lt_iff_lt.mp c.least_lt_least_next

end Class

/-! ## 2. Rounding down: the class of a number -/

/-- The position of the leading bit of `s`, counted from the `k`-th. -/
theorem le_log2 (hs : 2 ^ k ≤ s) : k ≤ s.log2 :=
  (Nat.le_log2 (Nat.ne_zero_of_lt ((Nat.two_pow_pos k).trans_le hs))).mpr hs

/-- The leading `k + 1` bits of `s` start with a one. -/
theorem two_pow_le_div (hs : 2 ^ k ≤ s) : 2 ^ k ≤ s / 2 ^ (s.log2 - k) := by
  have hpos : s ≠ 0 := Nat.ne_zero_of_lt ((Nat.two_pow_pos k).trans_le hs)
  rw [Nat.le_div_iff_mul_le (Nat.two_pow_pos _), ← Nat.pow_add,
    Nat.add_sub_cancel' (le_log2 hs)]
  exact Nat.log2_self_le hpos

theorem div_lt_two_pow (hs : 2 ^ k ≤ s) : s / 2 ^ (s.log2 - k) < 2 ^ (k + 1) := by
  rw [Nat.div_lt_iff_lt_mul (Nat.two_pow_pos _), ← Nat.pow_add,
    show k + 1 + (s.log2 - k) = s.log2 + 1 by have := le_log2 hs; omega]
  exact Nat.lt_log2_self

/-- The class of a number that has at least `k + 1` bits. -/
def classOf (s : ℕ) (hs : 2 ^ k ≤ s) : Class k where
  exp := s.log2
  frac := s / 2 ^ (s.log2 - k) - 2 ^ k
  le_exp := le_log2 hs
  frac_lt := by
    have hlt := div_lt_two_pow hs
    rw [Nat.pow_succ] at hlt
    have hpos := Nat.two_pow_pos k
    omega

/-- The class of a number starts at its leading `k + 1` bits. -/
theorem least_classOf (hs : 2 ^ k ≤ s) :
    (classOf s hs).least = s / 2 ^ (s.log2 - k) * 2 ^ (s.log2 - k) := by
  rw [Class.least, Class.width, classOf]
  rw [Nat.add_sub_cancel' (two_pow_le_div hs)]

/-- Every number lies in its class. -/
theorem classOf_bounds (hs : 2 ^ k ≤ s) :
    (classOf s hs).least ≤ s ∧ s < (classOf s hs).next.least := by
  rw [Class.least_next, least_classOf hs]
  refine ⟨Nat.div_mul_le_self _ _, ?_⟩
  change s < s / 2 ^ (s.log2 - k) * 2 ^ (s.log2 - k) + 2 ^ (s.log2 - k)
  exact Nat.lt_div_mul_add (Nat.two_pow_pos _)

/-- **Rounding down is adjoint to `least`.** -/
theorem least_le_iff (hs : 2 ^ k ≤ s) {c : Class k} : c.least ≤ s ↔ c ≤ classOf s hs := by
  constructor
  · intro hle
    by_contra hnot
    have hnext : (classOf s hs).next.least ≤ c.least :=
      Class.least_strictMono.monotone (Class.next_le_of_lt (not_le.mp hnot))
    exact absurd (classOf_bounds hs).2 (not_lt.mpr (hnext.trans hle))
  · intro hle
    exact (Class.least_strictMono.monotone hle).trans (classOf_bounds hs).1

/-- The class of a number is the one interval it lies in. -/
theorem classOf_eq_iff (hs : 2 ^ k ≤ s) {c : Class k} :
    classOf s hs = c ↔ c.least ≤ s ∧ s < c.next.least := by
  constructor
  · rintro rfl
    exact classOf_bounds hs
  · rintro ⟨hlo, hhi⟩
    refine le_antisymm ?_ ((least_le_iff hs).mp hlo)
    by_contra hnot
    have hnext := (least_le_iff hs).mpr (Class.next_le_of_lt (not_le.mp hnot))
    exact absurd hhi (not_lt.mpr hnext)

/-- Larger numbers have larger classes. -/
theorem classOf_mono (hs : 2 ^ k ≤ s) (hst : s ≤ t) :
    classOf s hs ≤ classOf t (hs.trans hst) :=
  (least_le_iff _).mp ((classOf_bounds hs).1.trans hst)

/-- Every class is the class of its smallest member. -/
theorem classOf_least (c : Class k) : classOf c.least c.two_pow_le_least_self = c :=
  (classOf_eq_iff _).mpr ⟨le_rfl, c.least_lt_least_next⟩

/-! ## 3. Rounding up: the least class that lies at or above a number -/

/-- The number whose class is `s` rounded up: `s` plus the width of its class, less one. -/
def roundUp (k s : ℕ) : ℕ := s + 2 ^ (s.log2 - k) - 1

theorem le_roundUp : s ≤ roundUp k s :=
  Nat.le_sub_one_of_lt (Nat.lt_add_of_pos_right (Nat.two_pow_pos _))

/-- The rounded number, in terms of the class. -/
theorem roundUp_eq (hs : 2 ^ k ≤ s) : roundUp k s = s + (classOf s hs).width - 1 := rfl

/-- The smallest member of a class keeps its class. -/
theorem classOf_roundUp_of_eq (hs : 2 ^ k ≤ s) (h : s = (classOf s hs).least) :
    classOf (roundUp k s) (hs.trans le_roundUp) = classOf s hs := by
  have hwidth := (classOf s hs).width_pos
  rw [classOf_eq_iff, Class.least_next, roundUp_eq hs]
  omega

/-- Every other member moves to the class that follows, and not beyond it. -/
theorem classOf_roundUp_of_ne (hs : 2 ^ k ≤ s) (h : s ≠ (classOf s hs).least) :
    classOf (roundUp k s) (hs.trans le_roundUp) = (classOf s hs).next := by
  obtain ⟨hlo, hhi⟩ := classOf_bounds hs
  have hwidth : (classOf s hs).width ≤ (classOf s hs).next.width := by
    have hexp : (classOf s hs).exp ≤ (classOf s hs).next.exp := by
      rcases Class.lt_iff.mp (classOf s hs).lt_next with hlt | ⟨heq, -⟩
      · exact hlt.le
      · exact heq.le
    exact Nat.pow_le_pow_right (by decide) (Nat.sub_le_sub_right hexp k)
  have hend := (classOf s hs).least_next
  have hend' := (classOf s hs).next.least_next
  have hpos := (classOf s hs).width_pos
  rw [classOf_eq_iff, roundUp_eq hs]
  omega

/-- Rounding up stays in the class only at its smallest member. -/
theorem classOf_roundUp_eq_iff (hs : 2 ^ k ≤ s) :
    classOf (roundUp k s) (hs.trans le_roundUp) = classOf s hs ↔ s = (classOf s hs).least := by
  constructor
  · intro hsame
    by_contra hne
    rw [classOf_roundUp_of_ne hs hne] at hsame
    exact absurd hsame (classOf s hs).lt_next.ne'
  · exact classOf_roundUp_of_eq hs

/-- **Rounding up is adjoint to `least` from the other side.** -/
theorem le_least_iff (hs : 2 ^ k ≤ s) {c : Class k} :
    s ≤ c.least ↔ classOf (roundUp k s) (hs.trans le_roundUp) ≤ c := by
  obtain ⟨hlo, hhi⟩ := classOf_bounds hs
  by_cases heq : s = (classOf s hs).least
  · rw [classOf_roundUp_of_eq hs heq, ← Class.least_strictMono.le_iff_le, ← heq]
  · rw [classOf_roundUp_of_ne hs heq]
    constructor
    · intro hle
      have hlt : (classOf s hs).least < c.least := (lt_of_le_of_ne hlo (Ne.symm heq)).trans_le hle
      exact Class.next_le_of_lt (Class.least_strictMono.lt_iff_lt.mp hlt)
    · intro hle
      exact hhi.le.trans (Class.least_strictMono.monotone hle)

/-- **The excess of rounding up** is less than one part in `2^k` of the number. -/
theorem least_roundUp_excess (hs : 2 ^ k ≤ s) :
    2 ^ k * (classOf (roundUp k s) (hs.trans le_roundUp)).least < 2 ^ k * s + s := by
  obtain ⟨hlo, hhi⟩ := classOf_bounds hs
  have hpos : 0 < s := (Nat.two_pow_pos k).trans_le hs
  by_cases heq : s = (classOf s hs).least
  · rw [classOf_roundUp_of_eq hs heq, ← heq]
    omega
  · have hlt : (classOf s hs).least < s := lt_of_le_of_ne hlo (Ne.symm heq)
    have hwidth : 2 ^ k * (classOf s hs).width ≤ (classOf s hs).least := by
      rw [Class.two_pow_mul_width]
      exact Class.two_pow_le_least _
    rw [classOf_roundUp_of_ne hs heq, Class.least_next, Nat.mul_add]
    have := Nat.mul_le_mul_left (2 ^ k) hlo
    omega

end CleoKernel.Binade
