/-
# Swapping, filling and destroying arrays

What `cleo::swap`, `ranges::swap`, `array::swap`, `array::fill` and `destroy_at` do to objects in
memory.  Memory is addressed in units of one element; an array of arrays is a `Shape`, and its
elements follow one another without gaps.

`ranges::swap` calls itself on the elements of an array and ends at elements that are no arrays.
There it uses the type's own `swap` if argument-dependent lookup finds one, and three moves
otherwise.  `array::swap` is one loop and always moves.  Both exchange the two operands whole,
and nothing else, whatever moving leaves behind and also when the operands are one object
(`rangesSwap_exchanges`, `arraySwap_exchanges`); so they agree wherever both apply.

`fill` takes its value by reference, and the reference may be to an element of the very array
being filled (`fill_fills`).  `destroy_at` destroys every element of an array of arrays once, in
the order of addresses (`destroyAt_eq`).
-/
import CleoKernel.Lib.Exchange
import Mathlib.Data.List.Range

namespace CleoKernel.Objects

open CleoKernel.Exchange

/-! ## 1. Arrays of arrays -/

/-- An element, or an array of `n` objects of one shape. -/
inductive Shape
  | element
  | array (n : ℕ) (elem : Shape)
  deriving DecidableEq, Repr

/-- How many elements an object has. -/
def Shape.size : Shape → ℕ
  | .element => 1
  | .array n elem => n * elem.size

/-- The elements in memory. -/
abbrev Mem (T : Type*) := ℕ → T

variable {T : Type*} {s : Shape} {a b n : ℕ} {m m' : Mem T}

/-- Two objects of one type are one object or lie apart. -/
def OneOrApart (n a b : ℕ) : Prop := a = b ∨ a + n ≤ b ∨ b + n ≤ a

theorem OneOrApart.apart (h : OneOrApart n a b) : Apart n (a + ·) (b + ·) where
  left i hi j hj heq := Nat.add_left_cancel heq
  right i hi j hj heq := Nat.add_left_cancel heq
  cross i hi j hj heq := by
    have heq : a + i = b + j := heq
    rcases h with rfl | h | h
    · exact Nat.add_left_cancel heq
    · omega
    · omega

/-- The two objects have changed places. -/
abbrev ObjectsExchanged (n a b : ℕ) (m m' : Mem T) : Prop :=
  Exchanged n (a + ·) (b + ·) m m'

/-! ## 2. Swapping -/

/-- What an element type brings along. -/
structure Element (T : Type*) where
  moves : Moves T
  /-- The `swap` that argument-dependent lookup finds for two lvalues, for a class or enumeration
  that has one. -/
  adlSwap : Option (ℕ → ℕ → Mem T → Mem T)

/-- `cleo::swap(a, b)`. -/
def cleoSwap (e : Element T) (a b : ℕ) (m : Mem T) : Mem T := swap e.moves a b m

/-- `ranges::swap(a, b)`. -/
def rangesSwap (e : Element T) : Shape → ℕ → ℕ → Mem T → Mem T
  | .element, a, b, m =>
    match e.adlSwap with
    | some f => f a b m
    | none => swap e.moves a b m
  | .array n elem, a, b, m =>
    forUpTo (fun i => rangesSwap e elem (a + i * elem.size) (b + i * elem.size)) n m

/-- `x.swap(y)`, for arrays of `n` elements whose buffers are at `a` and `b`. -/
def arraySwap (e : Element T) (n a b : ℕ) (m : Mem T) : Mem T :=
  forUpTo (fun i => cleoSwap e (a + i) (b + i)) n m

/-- A type's own `swap` exchanges two elements. -/
def Element.Lawful (e : Element T) : Prop :=
  ∀ f ∈ e.adlSwap, ∀ a b m, f a b m = m ∘ Equiv.swap a b

/-- At an element there is nothing to choose between the two branches. -/
theorem rangesSwap_element {e : Element T} (he : e.Lawful) (a b : ℕ) (m : Mem T) :
    rangesSwap e .element a b m = m ∘ Equiv.swap a b := by
  rw [rangesSwap]
  split
  · rename_i f hf
    exact he f (by rw [hf]; rfl) a b m
  · exact swap_eq e.moves a b m

/-- The families of the `i`th blocks, said from the start of the blocks. -/
theorem shift_block (a i k : ℕ) : (fun j => a + (i * k + j)) = (a + i * k + ·) := by
  funext j
  exact (Nat.add_assoc ..).symm

/-- **`ranges::swap` exchanges two objects of any shape**, and nothing else, by induction on
the shape: a loop over the elements at each level. -/
theorem rangesSwap_exchanges {e : Element T} (he : e.Lawful) (h : OneOrApart s.size a b)
    (m : Mem T) : ObjectsExchanged s.size a b m (rangesSwap e s a b m) := by
  induction s generalizing a b m with
  | element =>
    rw [rangesSwap_element he]
    exact Exchanged.transpose
  | array n elem ih =>
    rw [rangesSwap]
    refine Exchanged.forUpTo h.apart fun i hi m => ?_
    rw [shift_block, shift_block]
    apply ih
    -- the blocks are one object or lie apart, as the arrays do
    have hend : i * elem.size + elem.size ≤ n * elem.size := by
      rw [← Nat.succ_mul]
      exact Nat.mul_le_mul_right _ hi
    rw [Shape.size] at h
    rcases h with rfl | h | h
    · exact Or.inl rfl
    · exact Or.inr (Or.inl (by omega))
    · exact Or.inr (Or.inr (by omega))

/-- **`array::swap` exchanges the two buffers**, and nothing else. -/
theorem arraySwap_exchanges (e : Element T) (h : OneOrApart n a b) (m : Mem T) :
    ObjectsExchanged n a b m (arraySwap e n a b m) := by
  have hloop : Exchanged (n * 1) (a + ·) (b + ·) m (arraySwap e n a b m) := by
    refine Exchanged.forUpTo (by rw [Nat.mul_one]; exact h.apart) fun i _ m => ?_
    rw [shift_block, shift_block, Nat.mul_one, cleoSwap, swap_eq]
    exact Exchanged.transpose
  rwa [Nat.mul_one] at hloop

/-- **Swapping arrays of any dimensions**, as one statement.  `ranges::swap` exchanges the two
objects and nothing else, swapping again restores everything, and on arrays of elements the
member function does the same, although it never uses the elements' own `swap`. -/
theorem swap_objects {e : Element T} (he : e.Lawful) (h : OneOrApart s.size a b) (m : Mem T) :
    ObjectsExchanged s.size a b m (rangesSwap e s a b m) ∧
      rangesSwap e s a b (rangesSwap e s a b m) = m ∧
      arraySwap e s.size a b m = rangesSwap e s a b m := by
  have hswap := rangesSwap_exchanges he h m
  refine ⟨hswap, ?_, (arraySwap_exchanges e h m).unique hswap⟩
  exact (rangesSwap_exchanges he h _).unique hswap.symm

/-- Two arrays of two arrays of three, whose elements are left at zero by a move. -/
theorem swap_objects_two_three :
    let e : Element ℕ := ⟨⟨fun _ => 0, fun _ => 0⟩, none⟩
    let s : Shape := .array 2 (.array 3 .element)
    ObjectsExchanged 6 10 20 id (rangesSwap e s 10 20 id) ∧
      rangesSwap e s 10 20 (rangesSwap e s 10 20 id) = id ∧
      arraySwap e 6 10 20 id = rangesSwap e s 10 20 id := by
  intro e s
  have he : e.Lawful := fun f hf => absurd hf (Option.not_mem_none f)
  exact swap_objects (s := s) he (Or.inr (Or.inl (by decide))) id

/-! ## 3. Filling -/

/-- `fill(value)`, for the array of `n` elements at `a` and a reference to the element at `v`:
`buffer[i] = value` copies what is at `v` by then. -/
def fill (n a v : ℕ) (m : Mem T) : Mem T :=
  forUpTo (fun i m => Function.update m (a + i) (m v)) n m

/-- **`fill` fills**, also with an element of the array itself. -/
theorem fill_fills (n a v : ℕ) (m : Mem T) :
    (∀ i < n, fill n a v m (a + i) = m v) ∧ (∀ x, x < a ∨ a + n ≤ x → fill n a v m x = m x) ∧
      fill n a v m v = m v := by
  induction n with
  | zero => exact ⟨fun i hi => absurd hi (Nat.not_lt_zero i), fun _ _ => rfl, rfl⟩
  | succ n ih =>
    obtain ⟨hfilled, hframe, hvalue⟩ := ih
    have hstep : fill (n + 1) a v m = Function.update (fill n a v m) (a + n) (m v) := by
      change Function.update (fill n a v m) (a + n) (fill n a v m v) = _
      rw [hvalue]
    rw [hstep]
    refine ⟨fun i hi => ?_, fun x hx => ?_, ?_⟩
    · rcases Nat.eq_or_lt_of_le (Nat.le_of_lt_succ hi) with rfl | hlt
      · rw [Function.update_self]
      · rw [Function.update_of_ne (by omega), hfilled i hlt]
    · rw [Function.update_of_ne (by omega), hframe x (by omega)]
    · -- the reference may be to the element just written
      rcases eq_or_ne v (a + n) with heq | hne
      · rw [heq, Function.update_self, ← heq]
      · rw [Function.update_of_ne hne, hvalue]

/-! ## 4. Destroying -/

/-- `destroy_at(p)`: the addresses of the elements whose destructors are called, in order. -/
def destroyAt : Shape → ℕ → List ℕ
  | .element, a => [a]
  | .array n elem, a => (List.range n).flatMap fun i => destroyAt elem (a + i * elem.size)

/-- **`destroy_at` destroys every element once**, in the order of addresses, at any number of
dimensions. -/
theorem destroyAt_eq (s : Shape) (a : ℕ) : destroyAt s a = List.range' a s.size := by
  induction s generalizing a with
  | element => rfl
  | array n elem ih =>
    simp only [destroyAt, ih, Shape.size]
    induction n with
    | zero => rw [Nat.zero_mul]; rfl
    | succ n ihn =>
      rw [List.range_succ, List.flatMap_append, ihn, List.flatMap_singleton,
        List.range'_append_1, Nat.succ_mul]

end CleoKernel.Objects
