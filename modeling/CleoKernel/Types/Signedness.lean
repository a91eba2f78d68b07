/-
# `is_signed` and `is_unsigned`

The two traits do not list types; they compute `T(-1) < T(0)` and `T(0) < T(-1)`.  The model
therefore needs the values that arithmetic types have (`Numbers`): an integer type keeps a number
modulo a power of two, and which representative it keeps is its signedness; `bool` keeps whether
it is zero; a floating-point type keeps the two numbers asked about as they are.

`signedness` says that the computed answer is the right one.  The two traits split the arithmetic
types between them; what `make_signed` makes is signed, and what `make_unsigned` makes is
unsigned; and each of these leaves the set of values of an integer type alone exactly on the
types of which the corresponding trait is true.
-/
import CleoKernel.Types.Sign
import Mathlib.Algebra.Group.Nat.Defs
import Mathlib.Data.Int.Notation

namespace CleoKernel.Types

/-! ## 1. Values -/

/-- What `w` bits keep of a number, read with or without a sign. -/
def keep (sign : Bool) (w : ℕ) (n : ℤ) : ℤ :=
  if sign then n.bmod (2 ^ w) else n % (2 ^ w : ℕ)

/-- What an implementation says about the values of its arithmetic types.  Integer types have no
padding. -/
structure Numbers extends DataModel where
  charBit : ℕ
  charBit_pos : 0 < charBit
  size_pos : ∀ k, 0 < size k
  /-- Is `char` signed? -/
  charSigned : Bool
  /-- Is `wchar_t`? -/
  wcharSigned : Bool

namespace Numbers

variable (N : Numbers)

/-- The width of an integer type. -/
def width (k : Arithmetic) : ℕ := N.charBit * N.size k

/-- Which representatives an integer type keeps. -/
def keepsSign : Arithmetic → Bool
  | .char => N.charSigned
  | .wchar => N.wcharSigned
  | .signedChar | .short | .int | .long | .longLong => true
  | _ => false

/-- The value of `T(n)`, for numbers that floating-point types can represent. -/
def value : Arithmetic → ℤ → ℤ
  | .bool, n => if n = 0 then 0 else 1
  | .float, n | .double, n | .longDouble, n => n
  | k, n => keep (N.keepsSign k) (N.width k) n

/-- `T(m) < T(n)`.  The promotions to `int` keep the values. -/
def less (k : Arithmetic) (m n : ℤ) : Bool := N.value k m < N.value k n

/-- `is_signed_v`. -/
def isSigned (t : Ty) : Bool :=
  match t.isArithmetic, t with
  | true, .plain (.arithmetic _ k) => N.less k (-1) 0
  | _, _ => false

/-- `is_unsigned_v`. -/
def isUnsigned (t : Ty) : Bool :=
  match t.isArithmetic, t with
  | true, .plain (.arithmetic _ k) => N.less k 0 (-1)
  | _, _ => false

/-- Either of them. -/
def is : Sign → Ty → Bool
  | .signed => N.isSigned
  | .unsigned => N.isUnsigned

/-- Is the number a value of the type? -/
def Holds (t : Ty) (n : ℤ) : Prop :=
  match t with
  | .plain (.arithmetic _ k) => N.value k n = n
  | _ => False

end Numbers

/-! ## 2. What becomes of minus one -/

theorem keep_zero (sign : Bool) (w : ℕ) : keep sign w 0 = 0 := by
  cases sign <;> simp [keep]

/-- With a sign, minus one stays what it is. -/
theorem keep_signed_neg_one {w : ℕ} (hw : 0 < w) : keep true w (-1) = -1 := by
  have hpow : 2 ≤ 2 ^ w := Nat.le_self_pow (Nat.ne_of_gt hw) 2
  exact Int.bmod_eq_of_le_mul_two (by omega) (by omega)

/-- Without, it becomes the greatest number. -/
theorem keep_unsigned_neg_one {w : ℕ} (hw : 0 < w) : 0 < keep false w (-1) := by
  have hpow : 2 ≤ 2 ^ w := Nat.le_self_pow (Nat.ne_of_gt hw) 2
  change 0 < (-1 : ℤ) % (2 ^ w : ℕ)
  rw [← Int.add_emod_right, Int.emod_eq_of_lt (by omega) (by omega)]
  omega

/-- What minus one becomes tells the two readings apart. -/
theorem keep_neg_one_iff (sign : Bool) {w : ℕ} (hw : 0 < w) :
    keep sign w (-1) = -1 ↔ sign = true := by
  have hpos := keep_unsigned_neg_one hw
  cases sign with
  | true => exact iff_of_true (keep_signed_neg_one hw) rfl
  | false => exact iff_of_false (by omega) Bool.false_ne_true

namespace Numbers

variable {N : Numbers} {k l : Arithmetic} {n : ℤ}

/-- The types whose values are kept in bits. -/
def InBits (k : Arithmetic) : Prop := k ∉ [.bool, .float, .double, .longDouble]

instance : Decidable (InBits k) := inferInstanceAs (Decidable (_ ∉ _))

theorem value_inBits (h : InBits k) : N.value k n = keep (N.keepsSign k) (N.width k) n := by
  cases k with
  | bool | float | double | longDouble => exact absurd h (by decide)
  | _ => rfl

theorem width_pos (N : Numbers) (k : Arithmetic) : 0 < N.width k :=
  Nat.mul_pos N.charBit_pos (N.size_pos k)

/-- Does the type have a value below zero? -/
def negative (N : Numbers) (k : Arithmetic) : Bool :=
  N.keepsSign k || k.category = .floatingPoint

theorem value_zero (N : Numbers) (k : Arithmetic) : N.value k 0 = 0 := by
  by_cases h : InBits k
  · rw [value_inBits h, keep_zero]
  · cases k with
    | bool | float | double | longDouble => rfl
    | _ => exact absurd (by decide) h

theorem negative_inBits (h : InBits k) : N.negative k = N.keepsSign k := by
  cases k with
  | bool | float | double | longDouble => exact absurd h (by decide)
  | _ => exact Bool.or_false _

/-- Minus one is a value of the type, or has become a positive one. -/
theorem value_neg_one (N : Numbers) (k : Arithmetic) :
    N.negative k = true ∧ N.value k (-1) = -1 ∨ N.negative k = false ∧ 0 < N.value k (-1) := by
  by_cases h : InBits k
  · rw [negative_inBits h, value_inBits h]
    cases N.keepsSign k with
    | true => exact Or.inl ⟨rfl, keep_signed_neg_one (N.width_pos k)⟩
    | false => exact Or.inr ⟨rfl, keep_unsigned_neg_one (N.width_pos k)⟩
  · cases k with
    | bool => exact Or.inr ⟨rfl, Int.one_pos⟩
    | float | double | longDouble => exact Or.inl ⟨rfl, rfl⟩
    | _ => exact absurd (by decide) h

theorem less_eq (N : Numbers) (k : Arithmetic) :
    N.less k (-1) 0 = N.negative k ∧ N.less k 0 (-1) = !N.negative k := by
  rw [less, less, value_zero]
  rcases N.value_neg_one k with ⟨hnegative, hvalue⟩ | ⟨hnegative, hvalue⟩
  · rw [hnegative, hvalue]
    decide
  · rw [hnegative]
    exact ⟨decide_eq_false (Int.not_lt.mpr (Int.le_of_lt hvalue)), decide_eq_true hvalue⟩

/-- The two traits split the arithmetic types. -/
theorem isUnsigned_eq (N : Numbers) (t : Ty) :
    N.isUnsigned t = (t.isArithmetic && !N.isSigned t) := by
  cases harith : t.isArithmetic with
  | false => simp [isUnsigned, harith]
  | true =>
    rcases t with o | o | o
    · cases o with
      | arithmetic cv k => simp [isUnsigned, isSigned, harith, N.less_eq k]
      | _ => exact nomatch harith
    · exact nomatch harith
    · exact nomatch harith

/-! ## 3. With `make_signed` and `make_unsigned` -/

theorem is_inBits {cv : CV} {s : Sign} (h : InBits k) :
    N.is s (.plain (.arithmetic cv k)) = decide (N.keepsSign k = (s == .signed)) := by
  have harith : (Ty.plain (.arithmetic cv k)).isArithmetic = true := by
    cases k with
    | bool | float | double | longDouble => exact absurd h (by decide)
    | _ => rfl
  have hnegative := negative_inBits (N := N) h
  cases s with
  | signed => simp [is, isSigned, harith, N.less_eq k, hnegative]
  | unsigned =>
    cases hsign : N.keepsSign k <;> simp [is, isUnsigned, harith, N.less_eq k, hnegative, hsign]

theorem inBits_integer (s : Sign) (r : Rank) : InBits (s.integer r) := by
  cases s <;> cases r <;> decide

theorem keepsSign_integer (N : Numbers) (s : Sign) (r : Rank) :
    N.keepsSign (s.integer r) = (s == .signed) := by
  cases s <;> cases r <;> rfl

/-- Types of one size have the same values if and only if they have the same signedness. -/
theorem holds_iff (hk : InBits k) (hl : InBits l) (hsize : N.size k = N.size l) (c d : CV) :
    (∀ n, N.Holds (.plain (.arithmetic c k)) n ↔ N.Holds (.plain (.arithmetic d l)) n) ↔
      N.keepsSign k = N.keepsSign l := by
  have hwidth : N.width k = N.width l := congrArg (N.charBit * ·) hsize
  constructor
  · intro h
    have hone := h (-1)
    rw [Holds, Holds, value_inBits hk, value_inBits hl, hwidth, keep_neg_one_iff _ (N.width_pos l),
      keep_neg_one_iff _ (N.width_pos l)] at hone
    exact Bool.eq_iff_iff.mpr hone
  · intro h n
    rw [Holds, Holds, value_inBits hk, value_inBits hl, hwidth, h]

/-- A type with a counterpart has the values of the counterpart exactly if the trait holds. -/
theorem is_make_iff {s : Sign} {t u : Ty} (hmake : s.make N.toDataModel t = .ok (some u))
    (harith : t.isArithmetic = true) :
    N.is s t = true ↔ ∀ n, N.Holds t n ↔ N.Holds u n := by
  have hmeaning := signMeaning N.toDataModel s t
  have hsign : t.HasSign := by
    by_contra h
    exact nomatch hmake.symm.trans (hmeaning.absent.mpr h)
  obtain ⟨r, rfl, hsize, -⟩ := hmeaning.result u hmake
  rcases t with o | o | o
  · cases o with
    | arithmetic cv k =>
      have hk : InBits k := (hasSign_arithmetic cv k).mp hsign
      have hvalues := holds_iff (N := N) hk (inBits_integer s r) hsize.symm cv cv
      rw [is_inBits hk, decide_eq_true_iff]
      rw [keepsSign_integer] at hvalues
      exact hvalues.symm
    | _ => exact nomatch harith
  · exact nomatch harith
  · exact nomatch harith

end Numbers

/-- **The computed signedness is the signedness.**  An arithmetic type is signed or unsigned and
never both, and no other type is either; `make_signed` makes signed types and `make_unsigned`
unsigned ones; and on an integer type with a counterpart the trait tells whether the values of the
counterpart are its own. -/
theorem signedness (N : Numbers) (t : Ty) :
    (N.isSigned t || N.isUnsigned t) = t.isArithmetic ∧
    (N.isSigned t && N.isUnsigned t) = false ∧
    ∀ s u, s.make N.toDataModel t = .ok (some u) →
      N.is s u = true ∧
        (t.isArithmetic = true → (N.is s t = true ↔ ∀ n, N.Holds t n ↔ N.Holds u n)) := by
  have hsplit : N.isSigned t = true → t.isArithmetic = true := by
    intro h
    by_contra harith
    simp [Numbers.isSigned, harith] at h
  rw [N.isUnsigned_eq]
  refine ⟨?_, ?_, fun s u hmake => ⟨?_, Numbers.is_make_iff hmake⟩⟩
  · cases hsigned : N.isSigned t with
    | true => exact (hsplit hsigned).symm
    | false => simp
  · cases hsigned : N.isSigned t <;> simp
  · obtain ⟨r, rfl, -⟩ := (signMeaning N.toDataModel s t).result u hmake
    change N.is s (.plain (.arithmetic _ _)) = true
    rw [Numbers.is_inBits (Numbers.inBits_integer s r), Numbers.keepsSign_integer]
    exact decide_eq_true rfl

/-- The machine the kernel runs on. -/
def Numbers.aarch64 : Numbers where
  size
    | .bool | .char | .signedChar | .unsignedChar | .char8 => 1
    | .char16 | .short | .unsignedShort => 2
    | .wchar | .char32 | .int | .unsignedInt | .float => 4
    | .long | .unsignedLong | .longLong | .unsignedLongLong | .double => 8
    | .longDouble => 16
  enumSize _ := 4
  unsigned_size r := by cases r <;> rfl
  charBit := 8
  charBit_pos := by decide
  size_pos k := by cases k <;> decide
  charSigned := false
  wcharSigned := false

/-- There `char` is unsigned, and `make_signed` changes its values. -/
theorem signedness_char :
    let char := Ty.plain (.arithmetic .none .char)
    let signedChar := Ty.plain (.arithmetic .none .signedChar)
    Numbers.aarch64.isSigned signedChar = true ∧
      ¬ ∀ n, Numbers.aarch64.Holds char n ↔ Numbers.aarch64.Holds signedChar n := by
  intro char signedChar
  have h := (signedness Numbers.aarch64 char).2.2 .signed signedChar rfl
  exact ⟨h.1, fun hvalues => absurd ((h.2 rfl).mpr hvalues) (by decide)⟩

end CleoKernel.Types
