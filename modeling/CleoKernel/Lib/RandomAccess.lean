/-
# Random-access iterators

An iterator type is a type of values with the operations of `Ops`.  An operation that has no
defined behaviour at its operands is `none` there: `++` at the end of a range, `*` past it, the
difference of iterators into different ranges.

Iterators are compared with their own `==`, which need not be the equality of their
representations.  `Ops.Same` is that relation, `Ops.SameOpt` extends it to results that may be
undefined.  `Ops.Laws` are the laws of a random-access iterator, stated up to `Same`.

What follows from the laws alone:

* differences are antisymmetric and add up (`Laws.diff_neg`, `Laws.diff_trans`), so the six
  comparisons are one total order on each range (`Laws.totalOrder`);
* a loop that steps `++` from `a` until `== b` reads `a[0]`, `a[1]`, ... and stops at `b`, if
  `b - a` is not negative (`Laws.walk_reaches`).

`Ops.Agrees` says when two iterator types cannot be told apart by any operation.
-/
import CleoKernel.Lib.Transition
import Mathlib.Data.Int.Order.Basic

namespace CleoKernel.RandomAccess

open CleoKernel.Transition

variable {I J R P X : Type*}

/-! ## 1. Operations -/

/-- The operations of an iterator type with values `I`: `R` is its reference type, `P` its
pointer type and `X` the type of `iter_move`. -/
structure Ops (I R P X : Type*) where
  /-- `++a` -/
  preIncr : I → Option I
  /-- `--a` -/
  preDecr : I → Option I
  /-- `a++`: the value of the expression, and that of `a` afterwards -/
  postIncr : I → Option (I × I)
  /-- `a--` -/
  postDecr : I → Option (I × I)
  /-- `a += n` -/
  addAssign : I → ℤ → Option I
  /-- `a -= n` -/
  subAssign : I → ℤ → Option I
  /-- `a + n` -/
  add : I → ℤ → Option I
  /-- `n + a` -/
  addLeft : ℤ → I → Option I
  /-- `a - n` -/
  sub : I → ℤ → Option I
  /-- `a - b` -/
  diff : I → I → Option ℤ
  eq : I → I → Option Bool
  ne : I → I → Option Bool
  lt : I → I → Option Bool
  le : I → I → Option Bool
  gt : I → I → Option Bool
  ge : I → I → Option Bool
  /-- `*a` -/
  deref : I → Option R
  /-- `a[n]` -/
  index : I → ℤ → Option R
  /-- `a.operator->()`, if the type has it -/
  arrow : Option (I → Option P)
  /-- An `iter_move` of the type's own -/
  customIterMove : Option (I → Option X)
  /-- The pointer to what a reference refers to -/
  addressOf : R → P
  /-- A reference as something to move from: cast to an rvalue if it is an lvalue -/
  moved : R → X

/-- `n` steps of a partial operation. -/
def steps (f : I → Option I) : ℕ → I → Option I
  | 0, a => some a
  | n + 1, a => (f a).bind (steps f n)

namespace Ops

/-- `a == b`. -/
def Same (o : Ops I R P X) (a b : I) : Prop := o.eq a b = some true

/-- Both undefined, or both defined and equal. -/
abbrev SameOpt (o : Ops I R P X) : Option I → Option I → Prop := Option.Rel o.Same

/-- The same for the two values of a postfix operation. -/
abbrev SamePair (o : Ops I R P X) : Option (I × I) → Option (I × I) → Prop :=
  Option.Rel fun p q => o.Same p.1 q.1 ∧ o.Same p.2 q.2

/-- `ranges::iter_move(a)`: the type's own `iter_move` if it has one, otherwise `*a` to move
from. -/
def rangesIterMove (o : Ops I R P X) (a : I) : Option X :=
  match o.customIterMove with
  | some f => f a
  | none => (o.deref a).map o.moved

/-! ## 2. Laws -/

/-- The laws of a random-access iterator. -/
structure Laws (o : Ops I R P X) : Prop where
  refl : ∀ a, o.Same a a
  symm : ∀ {a b}, o.Same a b → o.Same b a
  trans : ∀ {a b c}, o.Same a b → o.Same b c → o.Same a c
  /-- Equal iterators are not told apart. -/
  preIncr_congr : ∀ {a b}, o.Same a b → o.SameOpt (o.preIncr a) (o.preIncr b)
  preDecr_congr : ∀ {a b}, o.Same a b → o.SameOpt (o.preDecr a) (o.preDecr b)
  diff_congr : ∀ {a b c d}, o.Same a b → o.Same c d → o.diff a c = o.diff b d
  deref_congr : ∀ {a b}, o.Same a b → o.deref a = o.deref b
  /-- `++` and `--` are inverse to each other. -/
  preDecr_preIncr : ∀ {a b}, o.preIncr a = some b → o.SameOpt (o.preDecr b) (some a)
  preIncr_preDecr : ∀ {a b}, o.preDecr a = some b → o.SameOpt (o.preIncr b) (some a)
  postIncr : ∀ a, o.SamePair (o.postIncr a) ((o.preIncr a).map fun b => (a, b))
  postDecr : ∀ a, o.SamePair (o.postDecr a) ((o.preDecr a).map fun b => (a, b))
  /-- An offset is so many single steps, in one direction or the other. -/
  add_ofNat : ∀ a (n : ℕ), o.SameOpt (o.add a n) (steps o.preIncr n a)
  add_neg : ∀ a (n : ℕ), o.SameOpt (o.add a (-n)) (steps o.preDecr n a)
  addAssign : ∀ a n, o.SameOpt (o.addAssign a n) (o.add a n)
  addLeft : ∀ a n, o.SameOpt (o.addLeft n a) (o.add a n)
  sub : ∀ a n, o.SameOpt (o.sub a n) (o.add a (-n))
  subAssign : ∀ a n, o.SameOpt (o.subAssign a n) (o.add a (-n))
  /-- `b - a` is the offset from `a` to `b`. -/
  add_diff : ∀ {a b n}, o.diff b a = some n → o.SameOpt (o.add a n) (some b)
  diff_add : ∀ {a b n}, o.add a n = some b → o.diff b a = some n
  /-- The comparisons ask for its sign. -/
  eq : ∀ {a b n}, o.diff b a = some n → o.eq a b = some (decide (n = 0))
  ne : ∀ {a b n}, o.diff b a = some n → o.ne a b = some (decide (n ≠ 0))
  lt : ∀ {a b n}, o.diff b a = some n → o.lt a b = some (decide (0 < n))
  le : ∀ {a b n}, o.diff b a = some n → o.le a b = some (decide (0 ≤ n))
  gt : ∀ {a b n}, o.diff b a = some n → o.gt a b = some (decide (n < 0))
  ge : ∀ {a b n}, o.diff b a = some n → o.ge a b = some (decide (n ≤ 0))
  /-- There is an element exactly where there is a next iterator. -/
  preIncr_isSome : ∀ a, (o.preIncr a).isSome = (o.deref a).isSome
  index : ∀ a n, o.index a n = (o.add a n).bind o.deref
  arrow : ∀ f ∈ o.arrow, ∀ {a r}, o.deref a = some r → f a = some (o.addressOf r)
  /-- `iter_move` moves from the element the iterator denotes. -/
  iterMove : ∀ a, o.rangesIterMove a = (o.deref a).map o.moved

end Ops

/-! ## 3. Steps -/

section Steps

variable {f : I → Option I} {n : ℕ} {a b : I}

theorem steps_succ (f : I → Option I) (n : ℕ) (a : I) :
    steps f (n + 1) a = (f a).bind (steps f n) := rfl

/-- The last step instead of the first. -/
theorem steps_succ_last (f : I → Option I) (n : ℕ) (a : I) :
    steps f (n + 1) a = (steps f n a).bind f := by
  induction n generalizing a with
  | zero => cases h : f a <;> simp [steps, h]
  | succ n ih =>
    rw [steps_succ, steps_succ f n a]
    cases f a with
    | none => rfl
    | some b => exact ih b

/-- Steps of an operation seen through `g`. -/
theorem steps_map {g : I → J} {f' : J → Option J} (h : ∀ a, f' (g a) = (f a).map g) (n : ℕ)
    (a : I) : steps f' n (g a) = (steps f n a).map g := by
  induction n generalizing a with
  | zero => rfl
  | succ n ih =>
    rw [steps_succ, steps_succ, h]
    cases f a with
    | none => rfl
    | some b => exact ih b

end Steps

namespace Ops

variable {o : Ops I R P X} {a b c : I} {x y z : Option I} {m n : ℤ} {k : ℕ}

theorem sameOpt_some_iff : o.SameOpt x (some b) ↔ ∃ a, x = some a ∧ o.Same a b := by
  constructor
  · rintro ⟨h⟩
    exact ⟨_, rfl, h⟩
  · rintro ⟨a, rfl, h⟩
    exact .some h

theorem samePair_refl (hrefl : ∀ a, o.Same a a) (p : Option (I × I)) : o.SamePair p p := by
  cases p with
  | none => exact .none
  | some p => exact .some ⟨hrefl p.1, hrefl p.2⟩

namespace Laws

theorem sameOpt_refl (h : o.Laws) (x : Option I) : o.SameOpt x x := by
  cases x with
  | none => exact .none
  | some a => exact .some (h.refl a)

theorem sameOpt_symm (h : o.Laws) (hxy : o.SameOpt x y) : o.SameOpt y x := by
  cases hxy with
  | none => exact .none
  | some hab => exact .some (h.symm hab)

theorem sameOpt_trans (h : o.Laws) (hxy : o.SameOpt x y) (hyz : o.SameOpt y z) :
    o.SameOpt x z := by
  cases hxy with
  | none => exact hyz
  | some hab =>
    cases hyz with
    | some hbc => exact .some (h.trans hab hbc)

/-- Equal results are dereferenced alike. -/
theorem bind_deref (h : o.Laws) (hxy : o.SameOpt x y) : x.bind o.deref = y.bind o.deref := by
  cases hxy with
  | none => rfl
  | some hab => exact h.deref_congr hab

end Laws

/-- Go on from equal results in a way that respects `==`. -/
theorem sameOpt_bind {f g : I → Option I} (hxy : o.SameOpt x y)
    (hfg : ∀ {a b}, o.Same a b → o.SameOpt (f a) (g b)) : o.SameOpt (x.bind f) (y.bind g) := by
  cases hxy with
  | none => exact .none
  | some hab => exact hfg hab

/-- What respects `==` still does after `n` steps. -/
theorem steps_congr {f : I → Option I} (hf : ∀ {a b}, o.Same a b → o.SameOpt (f a) (f b))
    (n : ℕ) (hab : o.Same a b) : o.SameOpt (steps f n a) (steps f n b) := by
  induction n generalizing a b with
  | zero => exact .some hab
  | succ n ih => exact sameOpt_bind (hf hab) ih

/-- Steps there and back, for an operation `f` that `g` undoes. -/
theorem steps_back (h : o.Laws) {f g : I → Option I}
    (hg : ∀ {a b}, o.Same a b → o.SameOpt (g a) (g b))
    (hgf : ∀ {a b}, f a = some b → o.SameOpt (g b) (some a)) (n : ℕ)
    (hab : steps f n a = some b) : o.SameOpt (steps g n b) (some a) := by
  induction n generalizing a with
  | zero =>
    rw [steps, Option.some.injEq] at hab
    rw [hab]
    exact h.sameOpt_refl (some b)
  | succ n ih =>
    rw [steps_succ] at hab
    obtain ⟨c, hac, hcb⟩ := Option.bind_eq_some_iff.mp hab
    obtain ⟨c', hc', hcc⟩ := sameOpt_some_iff.mp (ih hcb)
    rw [steps_succ_last, hc', Option.bind_some]
    exact h.sameOpt_trans (hg hcc) (hgf hac)

/-- One step more. -/
theorem steps_next {f : I → Option I} (hf : ∀ {a b}, o.Same a b → o.SameOpt (f a) (f b))
    (hk : o.SameOpt (steps f k a) (some b)) (hb : f b = some c) :
    o.SameOpt (steps f (k + 1) a) (some c) := by
  rw [steps_succ_last, ← hb]
  exact sameOpt_bind hk hf

/-- One step less, by an operation `g` that undoes `f`. -/
theorem steps_undo (h : o.Laws) {f g : I → Option I}
    (hg : ∀ {a b}, o.Same a b → o.SameOpt (g a) (g b))
    (hgf : ∀ {a b}, f a = some b → o.SameOpt (g b) (some a))
    (hk : o.SameOpt (steps f (k + 1) a) (some b)) (hb : g b = some c) :
    o.SameOpt (steps f k a) (some c) := by
  obtain ⟨b', hb', hbb⟩ := sameOpt_some_iff.mp hk
  rw [steps_succ_last] at hb'
  obtain ⟨d, hd, hdb⟩ := Option.bind_eq_some_iff.mp hb'
  have hgb : o.SameOpt (g b) (some d) := h.sameOpt_trans (hg (h.symm hbb)) (hgf hdb)
  rw [hd, ← hb]
  exact h.sameOpt_symm hgb

/-! ## 4. Differences and the order -/

namespace Laws

/-- The difference is the offset that leads from one to the other. -/
theorem diff_eq_iff (h : o.Laws) : o.diff b a = some n ↔ o.SameOpt (o.add a n) (some b) := by
  constructor
  · exact h.add_diff
  · intro hadd
    obtain ⟨b', hb', hbb⟩ := sameOpt_some_iff.mp hadd
    rw [← h.diff_add hb']
    exact h.diff_congr (h.symm hbb) (h.refl a)

theorem diff_eq_ofNat_iff (h : o.Laws) :
    o.diff b a = some (k : ℤ) ↔ o.SameOpt (steps o.preIncr k a) (some b) := by
  rw [h.diff_eq_iff]
  exact ⟨h.sameOpt_trans (h.sameOpt_symm (h.add_ofNat a k)), h.sameOpt_trans (h.add_ofNat a k)⟩

theorem diff_eq_neg_iff (h : o.Laws) :
    o.diff b a = some (-(k : ℤ)) ↔ o.SameOpt (steps o.preDecr k a) (some b) := by
  rw [h.diff_eq_iff]
  exact ⟨h.sameOpt_trans (h.sameOpt_symm (h.add_neg a k)), h.sameOpt_trans (h.add_neg a k)⟩

theorem diff_self (h : o.Laws) (a : I) : o.diff a a = some 0 :=
  (h.diff_eq_ofNat_iff (k := 0)).mpr (h.sameOpt_refl (some a))

/-- **Differences are antisymmetric.** -/
theorem diff_neg (h : o.Laws) (hn : o.diff b a = some n) : o.diff a b = some (-n) := by
  obtain ⟨k, rfl | rfl⟩ := n.eq_nat_or_neg
  · obtain ⟨b', hb', hbb⟩ := sameOpt_some_iff.mp (h.diff_eq_ofNat_iff.mp hn)
    have hback := steps_back h h.preDecr_congr h.preDecr_preIncr k hb'
    exact h.diff_eq_neg_iff.mpr
      (h.sameOpt_trans (steps_congr h.preDecr_congr k (h.symm hbb)) hback)
  · obtain ⟨b', hb', hbb⟩ := sameOpt_some_iff.mp (h.diff_eq_neg_iff.mp hn)
    have hback := steps_back h h.preIncr_congr h.preIncr_preDecr k hb'
    rw [Int.neg_neg]
    exact h.diff_eq_ofNat_iff.mpr
      (h.sameOpt_trans (steps_congr h.preIncr_congr k (h.symm hbb)) hback)

/-- A step forward adds one, from wherever the difference is taken. -/
theorem diff_preIncr (h : o.Laws) (hn : o.diff b a = some n) (hb : o.preIncr b = some c) :
    o.diff c a = some (n + 1) := by
  rcases lt_or_ge n 0 with hneg | hpos
  · obtain ⟨k, rfl⟩ : ∃ k : ℕ, n = -((k + 1 : ℕ) : ℤ) := ⟨(-n - 1).toNat, by omega⟩
    have hk := steps_undo h h.preIncr_congr h.preIncr_preDecr (h.diff_eq_neg_iff.mp hn) hb
    rw [show -((k + 1 : ℕ) : ℤ) + 1 = -(k : ℤ) by omega]
    exact h.diff_eq_neg_iff.mpr hk
  · obtain ⟨k, rfl⟩ := Int.eq_ofNat_of_zero_le hpos
    exact h.diff_eq_ofNat_iff.mpr (steps_next h.preIncr_congr (h.diff_eq_ofNat_iff.mp hn) hb)

/-- A step back takes one away. -/
theorem diff_preDecr (h : o.Laws) (hn : o.diff b a = some n) (hb : o.preDecr b = some c) :
    o.diff c a = some (n - 1) := by
  rcases lt_or_ge 0 n with hpos | hneg
  · obtain ⟨k, rfl⟩ : ∃ k : ℕ, n = ((k + 1 : ℕ) : ℤ) := ⟨(n - 1).toNat, by omega⟩
    have hk := steps_undo h h.preDecr_congr h.preDecr_preIncr (h.diff_eq_ofNat_iff.mp hn) hb
    rw [show ((k + 1 : ℕ) : ℤ) - 1 = (k : ℤ) by omega]
    exact h.diff_eq_ofNat_iff.mpr hk
  · obtain ⟨k, rfl⟩ : ∃ k : ℕ, n = -(k : ℤ) := ⟨(-n).toNat, by omega⟩
    rw [show -(k : ℤ) - 1 = -((k + 1 : ℕ) : ℤ) by omega]
    exact h.diff_eq_neg_iff.mpr (steps_next h.preDecr_congr (h.diff_eq_neg_iff.mp hn) hb)

/-- `k` steps of an operation that changes differences by `d`. -/
theorem diff_steps {f : I → Option I} {d : ℤ}
    (hf : ∀ {b c n}, o.diff b a = some n → f b = some c → o.diff c a = some (n + d))
    (hm : o.diff b a = some m) (hc : steps f k b = some c) : o.diff c a = some (m + k * d) := by
  induction k generalizing c with
  | zero =>
    rw [steps, Option.some.injEq] at hc
    rw [← hc, hm]
    congr 1
    omega
  | succ k ih =>
    rw [steps_succ_last] at hc
    obtain ⟨e, he, hec⟩ := Option.bind_eq_some_iff.mp hc
    rw [hf (ih he) hec, Int.natCast_succ, Int.add_mul, Int.one_mul, Int.add_assoc]

/-- **Differences add up.** -/
theorem diff_trans (h : o.Laws) (hm : o.diff b a = some m) (hn : o.diff c b = some n) :
    o.diff c a = some (m + n) := by
  obtain ⟨k, rfl | rfl⟩ := n.eq_nat_or_neg
  · obtain ⟨c', hc', hcc⟩ := sameOpt_some_iff.mp (h.diff_eq_ofNat_iff.mp hn)
    rw [h.diff_congr (h.symm hcc) (h.refl a), diff_steps h.diff_preIncr hm hc', Int.mul_one]
  · obtain ⟨c', hc', hcc⟩ := sameOpt_some_iff.mp (h.diff_eq_neg_iff.mp hn)
    have hdecr : ∀ {b c n}, o.diff b a = some n → o.preDecr b = some c →
        o.diff c a = some (n + -1) := h.diff_preDecr
    rw [h.diff_congr (h.symm hcc) (h.refl a), diff_steps hdecr hm hc', Int.mul_neg, Int.mul_one]

end Laws

/-- The six comparisons are those of one total order, wherever iterators can be subtracted. -/
structure TotalOrder (o : Ops I R P X) : Prop where
  le_refl : ∀ a, o.le a a = some true
  le_trans : ∀ {a b c m n}, o.diff b a = some m → o.diff c b = some n →
    o.le a b = some true → o.le b c = some true → o.le a c = some true
  le_antisymm : ∀ {a b n}, o.diff b a = some n →
    o.le a b = some true → o.le b a = some true → o.Same a b
  le_total : ∀ {a b n}, o.diff b a = some n → o.le a b = some true ∨ o.le b a = some true
  eq_iff : ∀ {a b n}, o.diff b a = some n →
    (o.eq a b = some true ↔ o.le a b = some true ∧ o.le b a = some true)
  ne_eq : ∀ {a b n}, o.diff b a = some n → o.ne a b = (o.eq a b).map not
  lt_eq : ∀ {a b n}, o.diff b a = some n → o.lt a b = (o.le b a).map not
  gt_eq : ∀ {a b n}, o.diff b a = some n → o.gt a b = o.lt b a
  ge_eq : ∀ {a b n}, o.diff b a = some n → o.ge a b = o.le b a
  /-- `a < b` exactly when `b - a > 0`. -/
  lt_iff : ∀ {a b n}, o.diff b a = some n → (o.lt a b = some true ↔ 0 < n)

theorem Laws.totalOrder (h : o.Laws) : o.TotalOrder where
  le_refl a := by rw [h.le (h.diff_self a)]; rfl
  le_trans hm hn := by
    rw [h.le hm, h.le hn, h.le (h.diff_trans hm hn)]
    simp only [Option.some.injEq, decide_eq_true_eq]
    omega
  le_antisymm hn := by
    rw [Same, h.le hn, h.le (h.diff_neg hn), h.eq hn]
    simp only [Option.some.injEq, decide_eq_true_eq]
    omega
  le_total hn := by
    rw [h.le hn, h.le (h.diff_neg hn)]
    simp only [Option.some.injEq, decide_eq_true_eq]
    omega
  eq_iff hn := by
    rw [h.eq hn, h.le hn, h.le (h.diff_neg hn)]
    simp only [Option.some.injEq, decide_eq_true_eq]
    omega
  ne_eq hn := by
    rw [h.ne hn, h.eq hn, Option.map_some, decide_not]
  lt_eq hn := by
    rw [h.lt hn, h.le (h.diff_neg hn), Option.map_some, ← decide_not]
    simp only [Option.some.injEq, decide_eq_decide]
    omega
  gt_eq hn := by
    rw [h.gt hn, h.lt (h.diff_neg hn)]
    simp only [Option.some.injEq, decide_eq_decide]
    omega
  ge_eq hn := by
    rw [h.ge hn, h.le (h.diff_neg hn)]
    simp only [Option.some.injEq, decide_eq_decide]
    omega
  lt_iff hn := by
    rw [h.lt hn, Option.some.injEq, decide_eq_true_eq]

/-! ## 5. Reading a range -/

/-- One turn of the loop `for (; !(a == last); ++a)` that reads `*a`. -/
def walkStep (o : Ops I R P X) (last a : I) : Option (List R × I) :=
  (o.eq a last).bind fun _ => (o.deref a).bind fun r => (o.preIncr a).map fun b => ([r], b)

/-- Is the loop over? -/
def walkEnd (o : Ops I R P X) (last a : I) : Bool := o.eq a last == some true

/-- After a step the offsets are one less. -/
theorem Laws.index_succ (h : o.Laws) (hb : o.preIncr a = some b) (i : ℕ) :
    o.index a (i + 1 : ℕ) = o.index b i := by
  rw [h.index, h.index, h.bind_deref (h.add_ofNat a (i + 1)), h.bind_deref (h.add_ofNat b i),
    steps_succ, hb, Option.bind_some]

theorem Laws.index_zero (h : o.Laws) (a : I) : o.index a 0 = o.deref a := by
  rw [h.index]
  exact h.bind_deref (h.add_ofNat a 0)

/-- **The loop reads `a[0]`, `a[1]`, ... up to `last`**, each once, and stops there. -/
theorem Laws.walk_reaches (h : o.Laws) {last : I} (n : ℕ) (hn : o.diff last a = some (n : ℤ)) :
    ∃ rs u, Reaches (o.walkStep last) (o.walkEnd last) n a rs u ∧ o.Same u last ∧
      rs.map some = (List.range n).map fun i : ℕ => o.index a i := by
  induction n generalizing a with
  | zero =>
    have heq : o.Same a last := h.eq hn
    refine ⟨[], a, Reaches.done ?_, heq, rfl⟩
    rw [walkEnd, heq, beq_self_eq_true]
  | succ n ih =>
    have hpos : ((n + 1 : ℕ) : ℤ) ≠ 0 := by omega
    have hne : o.eq a last = some false := (h.eq hn).trans (congrArg some (decide_eq_false hpos))
    obtain ⟨u, hu, hulast⟩ := sameOpt_some_iff.mp (h.diff_eq_ofNat_iff.mp hn)
    obtain ⟨b, hb, hbu⟩ := Option.bind_eq_some_iff.mp hu
    have hbn : o.diff last b = some (n : ℤ) :=
      h.diff_eq_ofNat_iff.mpr (sameOpt_some_iff.mpr ⟨u, hbu, hulast⟩)
    obtain ⟨r, hr⟩ : ∃ r, o.deref a = some r := by
      rw [← Option.isSome_iff_exists, ← h.preIncr_isSome, hb, Option.isSome_some]
    obtain ⟨rs, v, hreach, hv, hrs⟩ := ih hbn
    refine ⟨[r] ++ rs, v, Reaches.step ?_ ?_ hreach, hv, ?_⟩
    · rw [walkEnd, hne]
      rfl
    · rw [walkStep, hne, hr, hb]
      rfl
    · rw [List.range_succ_eq_map, List.map_cons, List.map_map, List.singleton_append,
        List.map_cons, hrs, Int.ofNat_zero, h.index_zero, hr]
      congr 1
      exact List.map_congr_left fun i _ => (h.index_succ hb i).symm

/-! ## 6. Iterator types that cannot be told apart -/

variable {o' : Ops J R P X} {f : I → J}

/-- Every operation of `o'` at `f a` does what that of `o` does at `a`. -/
structure Agrees (o : Ops I R P X) (o' : Ops J R P X) (f : I → J) : Prop where
  preIncr : ∀ a, o'.SameOpt (o'.preIncr (f a)) ((o.preIncr a).map f)
  preDecr : ∀ a, o'.SameOpt (o'.preDecr (f a)) ((o.preDecr a).map f)
  postIncr : ∀ a, o'.SamePair (o'.postIncr (f a)) ((o.postIncr a).map (Prod.map f f))
  postDecr : ∀ a, o'.SamePair (o'.postDecr (f a)) ((o.postDecr a).map (Prod.map f f))
  addAssign : ∀ a n, o'.SameOpt (o'.addAssign (f a) n) ((o.addAssign a n).map f)
  subAssign : ∀ a n, o'.SameOpt (o'.subAssign (f a) n) ((o.subAssign a n).map f)
  add : ∀ a n, o'.SameOpt (o'.add (f a) n) ((o.add a n).map f)
  addLeft : ∀ a n, o'.SameOpt (o'.addLeft n (f a)) ((o.addLeft n a).map f)
  sub : ∀ a n, o'.SameOpt (o'.sub (f a) n) ((o.sub a n).map f)
  diff : ∀ a b, o'.diff (f a) (f b) = o.diff a b
  eq : ∀ a b, o'.eq (f a) (f b) = o.eq a b
  ne : ∀ a b, o'.ne (f a) (f b) = o.ne a b
  lt : ∀ a b, o'.lt (f a) (f b) = o.lt a b
  le : ∀ a b, o'.le (f a) (f b) = o.le a b
  gt : ∀ a b, o'.gt (f a) (f b) = o.gt a b
  ge : ∀ a b, o'.ge (f a) (f b) = o.ge a b
  deref : ∀ a, o'.deref (f a) = o.deref a
  index : ∀ a n, o'.index (f a) n = o.index a n
  /-- Where there is an element to point to. -/
  arrow : ∀ g ∈ o.arrow, ∃ g' ∈ o'.arrow, ∀ a r, o.deref a = some r → g' (f a) = g a
  iterMove : ∀ a, o'.rangesIterMove (f a) = o.rangesIterMove a

end Ops

end CleoKernel.RandomAccess
