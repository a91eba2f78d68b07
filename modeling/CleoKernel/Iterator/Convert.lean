/-
# Reverse iterators of two types

`reverse_iterator` is used with more than one base iterator at a time: an array has `iterator` and
`const_iterator`, and its reverse iterators are converted into each other, assigned to each
other, compared and subtracted.  A converted reverse iterator is one on the converted base, and
the operators on two types call those of the two bases, with the operands turned round where
the order is.

A reference is given by the element it refers to, so what a conversion has to keep is what
`Ops.Agrees` says: no operation tells the converted iterator from the original.  Then reversing
keeps it (`agrees_convert`), and an operator on two types is the operator on one of them, after
converting (`via_reverse`).  `reverse_iterator_conversions` says so for every depth of nesting.
-/
import CleoKernel.Iterator.Array

namespace CleoKernel.Iterator

open CleoKernel.RandomAccess

variable {I J K R P X : Type*} {o : Ops I R P X} {o' : Ops J R P X} {q : Ops K R P X}
  {f : I → J} {f' : I → K}

/-! ## 1. The code -/

/-- The comparisons and the difference of two iterators of different types. -/
structure Mixed (I J : Type*) where
  eq : I → J → Option Bool
  ne : I → J → Option Bool
  lt : I → J → Option Bool
  le : I → J → Option Bool
  gt : I → J → Option Bool
  ge : I → J → Option Bool
  diff : I → J → Option ℤ

namespace ReverseIterator

/-- `reverse_iterator(const reverse_iterator<U>& other)`: `current_(other.base())`. -/
def convert (f : I → J) (other : ReverseIterator I) : ReverseIterator J := ⟨f other.base⟩

/-- `*this = other`, for another type of `other`: `current_ = other.base()`. -/
def assign (a : J → I → J) (r : ReverseIterator J) (other : ReverseIterator I) :
    ReverseIterator J := ⟨a r.current other.base⟩

/-- The operators on `reverse_iterator<Iter1>` and `reverse_iterator<Iter2>`, given those of the
bases in either order. -/
def mixed (c : Mixed I J) (d : Mixed J I) : Mixed (ReverseIterator I) (ReverseIterator J) where
  eq lhs rhs := c.eq lhs.base rhs.base
  ne lhs rhs := c.ne lhs.base rhs.base
  lt lhs rhs := d.lt rhs.base lhs.base
  le lhs rhs := d.le rhs.base lhs.base
  gt lhs rhs := d.gt rhs.base lhs.base
  ge lhs rhs := d.ge rhs.base lhs.base
  diff lhs rhs := d.diff rhs.base lhs.base

end ReverseIterator

open ReverseIterator

/-- Conversion under `k` adaptors. -/
def nestedConvert (f : I → J) : (k : ℕ) → Nested I k → Nested J k
  | 0 => f
  | k + 1 => convert (nestedConvert f k)

/-- Assignment under `k` adaptors. -/
def nestedAssign (a : J → I → J) : (k : ℕ) → Nested J k → Nested I k → Nested J k
  | 0 => a
  | k + 1 => assign (nestedAssign a k)

/-- The operators under `k` adaptors, in either order. -/
def nestedMixed (c : Mixed I J) (d : Mixed J I) :
    (k : ℕ) → Mixed (Nested I k) (Nested J k) × Mixed (Nested J k) (Nested I k)
  | 0 => (c, d)
  | k + 1 =>
    let (c', d') := nestedMixed c d k
    (mixed c' d', mixed d' c')

/-! ## 2. Reversing keeps a conversion -/

/-- Wrapping what has been converted. -/
theorem sameOpt_convert {x : Option I} {y : Option J} (h : o'.SameOpt y (x.map f)) :
    (ops o').SameOpt (y.map mk) ((x.map mk).map (convert f)) := by
  have hmap : (x.map mk).map (convert f) = (x.map f).map mk := by
    rw [Option.map_map, Option.map_map]
    rfl
  rw [hmap]
  exact sameOpt_map h

/-- The iterator that a postfix operation returns is the converted one. -/
theorem samePair_convert (h' : o'.Laws) {a : I} {x : Option I} {y : Option J}
    (h : o'.SameOpt y (x.map f)) :
    (ops o').SamePair (y.map fun c => (convert f ⟨a⟩, ⟨c⟩))
      ((x.map fun c => ((⟨a⟩ : ReverseIterator I), (⟨c⟩ : ReverseIterator I))).map
        (Prod.map (convert f) (convert f))) := by
  cases x with
  | none =>
    cases h
    exact .none
  | some b =>
    cases h with
    | some hcb => exact .some ⟨h'.refl _, hcb⟩

/-- What follows an operation that agrees, if equal iterators are not told apart by it. -/
theorem bind_convert {α : Type*} {g : J → Option α} {g' : I → Option α}
    (hg : ∀ {a b}, o'.Same a b → g a = g b) (hgf : ∀ a, g (f a) = g' a) {x : Option I}
    {y : Option J} (h : o'.SameOpt y (x.map f)) : y.bind g = x.bind g' := by
  cases x with
  | none =>
    cases h
    rfl
  | some b =>
    cases h with
    | some hcb => exact (hg hcb).trans (hgf b)

theorem deref_convert (h' : o'.Laws) (hf : o.Agrees o' f) (a : I) :
    (ops o').deref (convert f ⟨a⟩) = (ops o).deref ⟨a⟩ :=
  bind_convert h'.deref_congr hf.deref (hf.preDecr a)

/-- The element a reverse iterator denotes is one of the base iterator's. -/
theorem exists_deref {r : ReverseIterator I} {x : R} (hx : (ops o).deref r = some x) :
    ∃ d, o.preDecr r.current = some d ∧ o.deref d = some x :=
  Option.bind_eq_some_iff.mp hx

/-- **Reversing keeps a conversion.** -/
theorem agrees_convert (h : o.Laws) (h' : o'.Laws) (hf : o.Agrees o' f) :
    (ops o).Agrees (ops o') (convert f) where
  preIncr a := sameOpt_convert (hf.preDecr a.current)
  preDecr a := sameOpt_convert (hf.preIncr a.current)
  postIncr a := samePair_convert h' (hf.preDecr a.current)
  postDecr a := samePair_convert h' (hf.preIncr a.current)
  addAssign a n := sameOpt_convert (hf.subAssign a.current n)
  subAssign a n := sameOpt_convert (hf.addAssign a.current n)
  add a n := sameOpt_convert (hf.sub a.current n)
  addLeft a n := sameOpt_convert (hf.sub a.current n)
  sub a n := sameOpt_convert (hf.add a.current n)
  diff a b := hf.diff b.current a.current
  eq a b := hf.eq a.current b.current
  ne a b := hf.ne a.current b.current
  lt a b := hf.lt b.current a.current
  le a b := hf.le b.current a.current
  gt a b := hf.gt b.current a.current
  ge a b := hf.ge b.current a.current
  deref a := deref_convert h' hf a.current
  index a n := by
    rw [(laws h').index, (laws h).index]
    exact bind_convert (f := convert f) (laws h').deref_congr
      (fun b => deref_convert h' hf b.current) (sameOpt_convert (hf.sub a.current n))
  arrow g hg := by
    obtain ⟨g₀, hg₀, rfl⟩ := Option.mem_map.mp hg
    obtain ⟨g₀', hg₀', hagree⟩ := hf.arrow g₀ hg₀
    refine ⟨_, Option.mem_map_of_mem _ hg₀', fun a x hx => ?_⟩
    have hx' : (ops o').deref (convert f a) = some x := (deref_convert h' hf a.current).trans hx
    obtain ⟨d, hd, hdx⟩ := exists_deref hx
    -- both are the address of the element
    have hleft := (laws h').arrow _ (Option.mem_map_of_mem _ hg₀') hx'
    have hright : g₀ d = some (o'.addressOf x) := by
      rw [← hagree d x hdx]
      exact h'.arrow g₀' hg₀' ((hf.deref d).trans hdx)
    change _ = (o.preDecr a.current).bind g₀
    rw [hleft, hd, Option.bind_some, hright]
    rfl
  iterMove a := by
    rw [(laws h').iterMove, (laws h).iterMove, deref_convert h' hf]
    cases hx : (ops o).deref a with
    | none => rfl
    | some x =>
      obtain ⟨d, -, hdx⟩ := exists_deref hx
      have hmove := hf.iterMove d
      rw [h'.iterMove, h.iterMove, hf.deref, hdx] at hmove
      exact hmove

/-- **At every depth.** -/
theorem nested_agrees_convert (h : o.Laws) (h' : o'.Laws) (hf : o.Agrees o' f) (k : ℕ) :
    (nested o k).Agrees (nested o' k) (nestedConvert f k) := by
  induction k with
  | zero => exact hf
  | succ k ih => exact agrees_convert (nested_laws h k) (nested_laws h' k) ih

/-- Assigning makes the same iterator as converting, if it does for the bases. -/
theorem nestedAssign_eq {a : J → I → J} (ha : ∀ j i, a j i = f i) (k : ℕ) (y : Nested J k)
    (x : Nested I k) : nestedAssign a k y x = nestedConvert f k x := by
  induction k with
  | zero => exact ha y x
  | succ k ih => exact congrArg mk (ih y.current x.base)

/-! ## 3. Operators on two types -/

/-- The operators are those of one type, after converting both operands to it. -/
structure Mixed.Via (c : Mixed I J) (q : Ops K R P X) (f : I → K) (g : J → K) : Prop where
  eq : ∀ a b, c.eq a b = q.eq (f a) (g b)
  ne : ∀ a b, c.ne a b = q.ne (f a) (g b)
  lt : ∀ a b, c.lt a b = q.lt (f a) (g b)
  le : ∀ a b, c.le a b = q.le (f a) (g b)
  gt : ∀ a b, c.gt a b = q.gt (f a) (g b)
  ge : ∀ a b, c.ge a b = q.ge (f a) (g b)
  diff : ∀ a b, c.diff a b = q.diff (f a) (g b)

/-- Reversing turns the operands round on both sides. -/
theorem via_reverse {c : Mixed I J} {d : Mixed J I} {g : J → K} (hc : c.Via q f' g)
    (hd : d.Via q g f') : (mixed c d).Via (ops q) (convert f') (convert g) where
  eq a b := hc.eq a.base b.base
  ne a b := hc.ne a.base b.base
  lt a b := hd.lt b.base a.base
  le a b := hd.le b.base a.base
  gt a b := hd.gt b.base a.base
  ge a b := hd.ge b.base a.base
  diff a b := hd.diff b.base a.base

theorem nested_via {c : Mixed I J} {d : Mixed J I} {g : J → K} (hc : c.Via q f' g)
    (hd : d.Via q g f') (k : ℕ) :
    (nestedMixed c d k).1.Via (nested q k) (nestedConvert f' k) (nestedConvert g k) ∧
      (nestedMixed c d k).2.Via (nested q k) (nestedConvert g k) (nestedConvert f' k) := by
  induction k with
  | zero => exact ⟨hc, hd⟩
  | succ k ih => exact ⟨via_reverse ih.1 ih.2, via_reverse ih.2 ih.1⟩

/-- **Reverse iterators of two types**, one of which converts to the other: at every depth no
operation tells the converted iterator from the original, assigning makes the converted
iterator, and the operators on the two types in either order are those of the second after
converting, hence those of one total order. -/
theorem reverse_iterator_conversions (h : o.Laws) (h' : o'.Laws) (hf : o.Agrees o' f)
    {a : J → I → J} (ha : ∀ j i, a j i = f i) {c : Mixed I J} {d : Mixed J I}
    (hc : c.Via o' f id) (hd : d.Via o' id f) (k : ℕ) :
    (nested o k).Agrees (nested o' k) (nestedConvert f k) ∧
      (∀ y x, nestedAssign a k y x = nestedConvert f k x) ∧
      (nestedMixed c d k).1.Via (nested o' k) (nestedConvert f k) id ∧
      (nestedMixed c d k).2.Via (nested o' k) id (nestedConvert f k) ∧
      (nested o' k).TotalOrder := by
  have hid : ∀ k, nestedConvert (id : J → J) k = id := by
    intro k
    induction k with
    | zero => rfl
    | succ k ih => exact funext fun r => congrArg mk (congrFun ih r.current)
  obtain ⟨hvia, hvia'⟩ := nested_via hc hd k
  rw [hid] at hvia hvia'
  exact ⟨nested_agrees_convert h h' hf k, nestedAssign_eq ha k, hvia, hvia',
    (nested_laws h' k).totalOrder⟩

/-- No operation tells an iterator from itself. -/
theorem agrees_id (h : o.Laws) : o.Agrees o id where
  preIncr a := by rw [Option.map_id]; exact h.sameOpt_refl _
  preDecr a := by rw [Option.map_id]; exact h.sameOpt_refl _
  postIncr a := by rw [Prod.map_id, Option.map_id]; exact Ops.samePair_refl h.refl _
  postDecr a := by rw [Prod.map_id, Option.map_id]; exact Ops.samePair_refl h.refl _
  addAssign a n := by rw [Option.map_id]; exact h.sameOpt_refl _
  subAssign a n := by rw [Option.map_id]; exact h.sameOpt_refl _
  add a n := by rw [Option.map_id]; exact h.sameOpt_refl _
  addLeft a n := by rw [Option.map_id]; exact h.sameOpt_refl _
  sub a n := by rw [Option.map_id]; exact h.sameOpt_refl _
  diff a b := rfl
  eq a b := rfl
  ne a b := rfl
  lt a b := rfl
  le a b := rfl
  gt a b := rfl
  ge a b := rfl
  deref a := rfl
  index a n := rfl
  arrow g hg := ⟨g, hg, fun _ _ _ => rfl⟩
  iterMove a := rfl

/-- The operators of one type, as operators on two. -/
def Mixed.same (o : Ops I R P X) : Mixed I I := ⟨o.eq, o.ne, o.lt, o.le, o.gt, o.ge, o.diff⟩

theorem Mixed.same_via (o : Ops I R P X) : (Mixed.same o).Via o id id :=
  ⟨fun _ _ => rfl, fun _ _ => rfl, fun _ _ => rfl, fun _ _ => rfl, fun _ _ => rfl,
    fun _ _ => rfl, fun _ _ => rfl⟩

/-- Pointers into a buffer of three, to elements and to constant elements, under two adaptors. -/
theorem reverse_iterator_conversions_three :
    let o := Pointer.ops 3
    (nested o 2).Agrees (nested o 2) (nestedConvert id 2) ∧
      (∀ y x, nestedAssign (fun _ i => i) 2 y x = nestedConvert (id : Pointer 3 → _) 2 x) ∧
      (nestedMixed (.same o) (.same o) 2).1.Via (nested o 2) (nestedConvert id 2) id ∧
      (nestedMixed (.same o) (.same o) 2).2.Via (nested o 2) id (nestedConvert id 2) ∧
      (nested o 2).TotalOrder :=
  reverse_iterator_conversions (Pointer.laws 3) (Pointer.laws 3) (agrees_id (Pointer.laws 3))
    (fun _ _ => rfl) (Mixed.same_via _) (Mixed.same_via _) 2

end CleoKernel.Iterator
