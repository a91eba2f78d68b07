/-
# `cleo::array` as a store

Any number of arrays `cleo::array<T, N>` lie in memory, apart from one another, and a program
uses them: it reads and writes elements through every way the class offers to reach one, fills,
swaps and assigns.  The code works on memory, loop by loop and element by element (`call`).
What it is for is said without memory: each array is a vector of `N` values, and the operations
are those of vectors (`spec`).

`array_refines` connects the two.  Reading the vectors off memory commutes with every program:
the answers are the same, the program is undefined on memory exactly when one of its accesses is
outside a vector, and it leaves the rest of memory alone.  That covers what is easily got wrong:
a `fill` whose argument is an element of the array being filled, an array swapped with itself,
assigned to itself and moved to itself.
-/
import CleoKernel.Iterator.Array
import CleoKernel.Objects.Swap

namespace CleoKernel.Objects

open CleoKernel.Exchange CleoKernel.RandomAccess CleoKernel.Transition

/-! ## 1. Elements -/

/-- The ways to reach an element of an array. -/
inductive Path
  /-- `at(pos)` and `operator[]`, which does not check either -/
  | at_ (pos : ℕ)
  | front
  | back
  /-- `data()[n]` -/
  | data (n : ℤ)
  /-- `begin()[n]` -/
  | begin_ (n : ℤ)
  /-- `rbegin()[n]` -/
  | rbegin (n : ℤ)
  deriving DecidableEq, Repr

/-- `buffer[n]`. -/
def subscript (N : ℕ) (n : ℤ) : Option (Fin N) :=
  (Iterator.Pointer.ops N).index ⟨0, N.succ_pos⟩ n

/-- The element reached in an array of `N`. -/
def Path.element {T : Type*} {N : ℕ} (a : Iterator.Array T N) : Path → Option (Fin N)
  | .at_ pos => subscript N pos
  | .front => subscript N 0
  | .back => subscript N ((N - 1 : ℕ) : ℤ)
  | .data n => subscript N n
  | .begin_ n => (Iterator.Pointer.ops N).index a.begin n
  | .rbegin n => (Iterator.Array.reverseOps N).index a.rbegin n

/-- Which position of a vector of `N` a path means. -/
def Path.position (N : ℕ) : Path → ℤ
  | .at_ pos => pos
  | .front => 0
  | .back => N - 1
  | .data n | .begin_ n => n
  | .rbegin n => N - 1 - n

/-- The element at a position, if there is one. -/
def elementAt (N : ℕ) (z : ℤ) : Option (Fin N) :=
  if h : 0 ≤ z ∧ z < N then some ⟨z.toNat, by omega⟩ else none

variable {T : Type*} {N : ℕ}

theorem elementAt_eq_some {z : ℤ} {i : Fin N} : elementAt N z = some i ↔ z = i := by
  have hi := i.isLt
  rw [elementAt]
  split
  · rw [Option.some.injEq, Fin.ext_iff]
    simp only
    omega
  · constructor
    · exact fun h => nomatch h
    · intro h
      omega

open Iterator in
/-- `p[n]` is the element at the sum. -/
theorem index_eq (p : Pointer N) (n : ℤ) : (Pointer.ops N).index p n = elementAt N (p + n) := by
  apply Option.ext
  intro i
  change (Pointer.offset p n).bind Pointer.deref = some i ↔ _
  rw [Option.bind_eq_some_iff, elementAt_eq_some]
  constructor
  · rintro ⟨q, hq, hi⟩
    rw [← Pointer.offset_eq_some.mp hq, Pointer.deref_eq_some.mp hi]
  · intro h
    exact ⟨i.castSucc, Pointer.offset_eq_some.mpr h.symm, Pointer.deref_eq_some.mpr rfl⟩

theorem subscript_eq (n : ℤ) : subscript N n = elementAt N n := by
  rw [subscript, index_eq]
  exact congrArg _ (Int.zero_add n)

open Iterator in
/-- `rbegin()[n]` steps back twice: by `n` from the end, and by one more to read. -/
theorem rbegin_index (a : Iterator.Array T N) (n : ℤ) :
    (Array.reverseOps N).index a.rbegin n = elementAt N (N - 1 - n) := by
  apply Option.ext
  intro i
  change ((Pointer.offset (Fin.last N) (-n)).map ReverseIterator.mk).bind
    (fun r => (Pointer.offset r.current (-1)).bind Pointer.deref) = some i ↔ _
  simp only [Option.bind_eq_some_iff, Option.map_eq_some_iff, elementAt_eq_some,
    Pointer.offset_eq_some, Pointer.deref_eq_some, Fin.val_last]
  constructor
  · rintro ⟨_, ⟨q, hq, rfl⟩, r, hr, hi⟩
    simp only at hr
    omega
  · intro h
    refine ⟨⟨i.succ⟩, ⟨i.succ, ?_, rfl⟩, i.castSucc, ?_, rfl⟩
    · rw [Fin.val_succ]
      omega
    · rw [Fin.val_succ, Fin.val_castSucc]
      omega

/-- **Every path reaches the position it means.** -/
theorem Path.element_eq (a : Iterator.Array T N) (e : Path) :
    e.element a = elementAt N (e.position N) := by
  have hpos := a.pos
  cases e with
  | at_ pos => exact subscript_eq pos
  | front => exact subscript_eq 0
  | back =>
    rw [element, subscript_eq, position]
    congr 1
    omega
  | data n => exact subscript_eq n
  | begin_ n => exact subscript_eq n
  | rbegin n => exact rbegin_index a n

/-! ## 2. The arrays of a program -/

/-- `c` is not in the block of `n` cells at `a`. -/
abbrev Outside (n a c : ℕ) : Prop := c < a ∨ a + n ≤ c

/-- Where the arrays are, and what their elements are like.  A temporary that a call needs is
apart from them all. -/
structure Placement (ι T : Type*) (N : ℕ) where
  pos : 0 < N
  base : ι → ℕ
  temporary : ℕ
  element : Element T
  apart : ∀ x y, x ≠ y → base x + N ≤ base y ∨ base y + N ≤ base x
  temporary_apart : ∀ x, Outside N (base x) temporary

variable {ι : Type*} {P : Placement ι T N} {m m' : Mem T} {x y : ι}

/-- The arrays, read off memory. -/
def Placement.shown (P : Placement ι T N) (m : Mem T) (x : ι) : Fin N → T :=
  fun i => m (P.base x + i)

/-- An array as an object. -/
def Placement.array (P : Placement ι T N) (m : Mem T) (x : ι) : Iterator.Array T N :=
  ⟨P.pos, P.shown m x⟩

/-- An address that is part of no array and of no temporary. -/
def Placement.Elsewhere (P : Placement ι T N) (a : ℕ) : Prop :=
  a ≠ P.temporary ∧ ∀ x, Outside N (P.base x) a

/-- The argument of `fill`. -/
inductive Value (ι T : Type*)
  | temporary (v : T)
  /-- a reference to an element of some array -/
  | element (y : ι) (e : Path)

/-- The operations on arrays. -/
inductive ArrayOp (ι T : Type*)
  /-- The value of an element. -/
  | read (x : ι) (e : Path)
  /-- `x[e] = v` -/
  | write (x : ι) (e : Path) (v : T)
  | fill (x : ι) (v : Value ι T)
  /-- `x.swap(y)` -/
  | swap (x y : ι)
  /-- `x = y` -/
  | copy (x y : ι)
  /-- `x = move(y)` -/
  | move (x y : ι)

/-- `x = y`, for arrays at `a` and `b`: the defaulted operator assigns element by element. -/
def copyAssign (n a b : ℕ) (m : Mem T) : Mem T :=
  forUpTo (fun i m => Function.update m (a + i) (m (b + i))) n m

/-- `x = move(y)`, for arrays at `a` and `b`. -/
def moveAssignArray (e : Element T) (n a b : ℕ) (m : Mem T) : Mem T :=
  forUpTo (fun i => moveAssign e.moves (a + i) (b + i)) n m

/-- What the code does to memory.  Only reads answer. -/
def Placement.call (P : Placement ι T N) : Machine (Mem T) (ArrayOp ι T) (Option T)
  | .read x e, m =>
    (e.element (P.array m x)).map fun (i : Fin N) => (some (m (P.base x + i)), m)
  | .write x e v, m =>
    (e.element (P.array m x)).map fun (i : Fin N) => (none, Function.update m (P.base x + i) v)
  | .fill x (.temporary v), m =>
    some (none, fill N (P.base x) P.temporary (Function.update m P.temporary v))
  | .fill x (.element y e), m =>
    (e.element (P.array m y)).map fun (i : Fin N) => (none, fill N (P.base x) (P.base y + i) m)
  | .swap x y, m => some (none, arraySwap P.element N (P.base x) (P.base y) m)
  | .copy x y, m => some (none, copyAssign N (P.base x) (P.base y) m)
  | .move x y, m => some (none, moveAssignArray P.element N (P.base x) (P.base y) m)

/-! ## 3. The vectors they stand for -/

/-- The value a `fill` copies. -/
def Value.value (c : ι → Fin N → T) : Value ι T → Option T
  | .temporary v => some v
  | .element y e => (elementAt N (e.position N)).map (c y)

/-- A vector is moved element by element. -/
def vectorMoves (μ : Moves T) (N : ℕ) : Moves (Fin N → T) where
  moved v i := μ.moved (v i)
  selfMoved v i := μ.selfMoved (v i)

/-- What the operations mean for vectors. -/
def spec [DecidableEq ι] (μ : Moves T) (N : ℕ) : Machine (ι → Fin N → T) (ArrayOp ι T) (Option T)
  | .read x e, c => (elementAt N (e.position N)).map fun i => (some (c x i), c)
  | .write x e v, c => (elementAt N (e.position N)).map fun i =>
    (none, Function.update c x (Function.update (c x) i v))
  | .fill x v, c => (v.value c).map fun v => (none, Function.update c x fun _ => v)
  | .swap x y, c => some (none, c ∘ Equiv.swap x y)
  | .copy x y, c => some (none, Function.update c x (c y))
  | .move x y, c => some (none, moveAssign (vectorMoves μ N) x y c)

/-! ## 4. One operation -/

/-- Loops that assign element by element do to each pair what one assignment does. -/
theorem forUpTo_assign (assign : ℕ → ℕ → Mem T → Mem T)
    (hframe : ∀ a b m c, c ≠ a → c ≠ b → assign a b m c = m c)
    (hlocal : ∀ a b m m', m a = m' a → m b = m' b →
      assign a b m a = assign a b m' a ∧ assign a b m b = assign a b m' b)
    {n a b : ℕ} (h : OneOrApart n a b) (m : Mem T) :
    (∀ i < n,
      forUpTo (fun i => assign (a + i) (b + i)) n m (a + i) = assign (a + i) (b + i) m (a + i) ∧
      forUpTo (fun i => assign (a + i) (b + i)) n m (b + i) = assign (a + i) (b + i) m (b + i)) ∧
      ∀ c, Outside n a c → Outside n b c →
        forUpTo (fun i => assign (a + i) (b + i)) n m c = m c := by
  obtain ⟨hdone, hrest⟩ := forUpTo_own (fun i => assign (a + i) (b + i))
    (fun c i => c = a + i ∨ c = b + i) (n := n)
    (fun i hi j hj c hci hcj => by unfold OneOrApart at h; omega)
    (fun i _ m c hc => hframe _ _ m c (not_or.mp hc).1 (not_or.mp hc).2)
    (fun i _ m m' hm c hc => by
      obtain ⟨ha, hb⟩ := hlocal (a + i) (b + i) m m' (hm _ (Or.inl rfl)) (hm _ (Or.inr rfl))
      rcases hc with rfl | rfl
      · exact ha
      · exact hb) m
  refine ⟨fun i hi => ⟨hdone i hi _ (Or.inl rfl), hdone i hi _ (Or.inr rfl)⟩, fun c ha hb => ?_⟩
  exact hrest c fun i hi hc => by omega

namespace Placement

/-- Two arrays are one array or lie apart. -/
theorem oneOrApart (P : Placement ι T N) (x y : ι) : OneOrApart N (P.base x) (P.base y) := by
  by_cases h : x = y
  · exact Or.inl (congrArg P.base h)
  · exact Or.inr (P.apart x y h)

/-- No element of another array is in the block of this one. -/
theorem outside (P : Placement ι T N) (h : y ≠ x) (i : Fin N) :
    Outside N (P.base x) (P.base y + i) := by
  have hi := i.isLt
  have hap := P.apart x y (Ne.symm h)
  unfold Outside
  omega

/-- The memory `m` has become `m'`, where the arrays are `c`, and is unchanged elsewhere. -/
structure Becomes (P : Placement ι T N) (m m' : Mem T) (c : ι → Fin N → T) : Prop where
  shown : P.shown m' = c
  elsewhere : ∀ a, P.Elsewhere a → m' a = m a

theorem becomes_shown (m : Mem T) : P.Becomes m m (P.shown m) where
  shown := rfl
  elsewhere _ _ := rfl

/-- The step on memory and the step on the vectors: the same answer, and memory shows the vectors
afterwards. -/
abbrev Matches (P : Placement ι T N) (m : Mem T) (p : Option T × Mem T)
    (q : Option T × (ι → Fin N → T)) : Prop :=
  p.1 = q.1 ∧ P.Becomes m p.2 q.2

/-- An operation on one element is undefined when the element is. -/
theorem rel_map {r : Fin N → Option T} {f : Fin N → Mem T} {g : Fin N → ι → Fin N → T}
    (h : ∀ i, P.Becomes m (f i) (g i)) (e : Option (Fin N)) :
    Option.Rel (P.Matches m) (e.map fun i => (r i, f i)) (e.map fun i => (r i, g i)) := by
  cases e with
  | none => exact .none
  | some i => exact .some ⟨rfl, h i⟩

variable [DecidableEq ι]

/-- One array has been written. -/
theorem becomes_update {w : Fin N → T} (hx : ∀ i : Fin N, m' (P.base x + i) = w i)
    (hframe : ∀ a, a ≠ P.temporary → Outside N (P.base x) a → m' a = m a) :
    P.Becomes m m' (Function.update (P.shown m) x w) where
  shown := by
    funext z i
    by_cases hz : z = x
    · subst hz
      rw [Function.update_self]
      exact hx i
    · rw [Function.update_of_ne hz]
      refine hframe _ ?_ (P.outside hz i)
      have htmp := P.temporary_apart z
      have hi := i.isLt
      omega
  elsewhere a ha := hframe a ha.1 (ha.2 x)

/-- Two arrays have been written. -/
theorem becomes_of_two {c : ι → Fin N → T} (hx : ∀ i : Fin N, m' (P.base x + i) = c x i)
    (hy : ∀ i : Fin N, m' (P.base y + i) = c y i)
    (hc : ∀ z, z ≠ x → z ≠ y → c z = P.shown m z)
    (hframe : ∀ a, Outside N (P.base x) a → Outside N (P.base y) a → m' a = m a) :
    P.Becomes m m' c where
  shown := by
    funext z i
    by_cases hzx : z = x
    · subst hzx
      exact hx i
    · by_cases hzy : z = y
      · subst hzy
        exact hy i
      · rw [hc z hzx hzy]
        exact hframe _ (P.outside hzx i) (P.outside hzy i)
  elsewhere a ha := hframe a (ha.2 x) (ha.2 y)

theorem write_becomes (P : Placement ι T N) (x : ι) (i : Fin N) (v : T) (m : Mem T) :
    P.Becomes m (Function.update m (P.base x + i) v)
      (Function.update (P.shown m) x (Function.update (P.shown m x) i v)) := by
  have hi := i.isLt
  refine becomes_update (fun j => ?_) fun a _ ha => ?_
  · by_cases hj : j = i
    · rw [hj, Function.update_self, Function.update_self]
    · rw [Function.update_of_ne hj, Function.update_of_ne]
      · rfl
      · exact fun h => hj (Fin.ext (Nat.add_left_cancel h))
  · exact Function.update_of_ne (by omega) _ _

/-- `fill` with a temporary. -/
theorem fill_temporary_becomes (P : Placement ι T N) (x : ι) (v : T) (m : Mem T) :
    P.Becomes m (fill N (P.base x) P.temporary (Function.update m P.temporary v))
      (Function.update (P.shown m) x fun _ => v) := by
  obtain ⟨hfill, hframe, -⟩ := fill_fills N (P.base x) P.temporary (Function.update m P.temporary v)
  refine becomes_update (fun i => ?_) fun a htmp ha => ?_
  · rw [hfill i i.isLt, Function.update_self]
  · rw [hframe a ha, Function.update_of_ne htmp]

/-- `fill` with an element, which may be one of the array's own. -/
theorem fill_element_becomes (P : Placement ι T N) (x y : ι) (i : Fin N) (m : Mem T) :
    P.Becomes m (fill N (P.base x) (P.base y + i) m)
      (Function.update (P.shown m) x fun _ => P.shown m y i) := by
  obtain ⟨hfill, hframe, -⟩ := fill_fills N (P.base x) (P.base y + i) m
  exact becomes_update (fun j => hfill j j.isLt) fun a _ ha => hframe a ha

theorem swap_becomes (P : Placement ι T N) (x y : ι) (m : Mem T) :
    P.Becomes m (arraySwap P.element N (P.base x) (P.base y) m)
      (P.shown m ∘ Equiv.swap x y) := by
  have hswap := arraySwap_exchanges P.element (P.oneOrApart x y) m
  refine becomes_of_two (x := x) (y := y) (fun i => ?_) (fun i => ?_) (fun z hzx hzy => ?_)
    fun a hax hay => ?_
  · rw [Function.comp_apply, Equiv.swap_apply_left]
    exact hswap.left i i.isLt
  · rw [Function.comp_apply, Equiv.swap_apply_right]
    exact hswap.right i i.isLt
  · rw [Function.comp_apply, Equiv.swap_apply_of_ne_of_ne hzx hzy]
  · exact hswap.frame a fun i hi => ⟨by omega, by omega⟩

theorem copy_becomes (P : Placement ι T N) (x y : ι) (m : Mem T) :
    P.Becomes m (copyAssign N (P.base x) (P.base y) m)
      (Function.update (P.shown m) x (P.shown m y)) := by
  obtain ⟨hdone, hrest⟩ := forUpTo_assign
    (fun a b m => Function.update m a (m b))
    (fun a b m c ha _ => Function.update_of_ne ha _ _)
    (fun a b m m' ha hb => by
      by_cases hab : b = a
      · simp only [hab, Function.update_self]
        exact ⟨ha, ha⟩
      · simp only [Function.update_self, Function.update_of_ne hab]
        exact ⟨hb, hb⟩)
    (P.oneOrApart x y) m
  refine becomes_of_two (x := x) (y := y) (fun i => ?_) (fun i => ?_) (fun z hzx _ => ?_) hrest
  · rw [Function.update_self, copyAssign, (hdone i i.isLt).1, Function.update_self]
    rfl
  · rw [copyAssign, (hdone i i.isLt).2]
    by_cases hyx : y = x
    · subst hyx
      rw [Function.update_self, Function.update_self]
      rfl
    · have hne : P.base y + i ≠ P.base x + i := by
        have hap := P.apart x y (Ne.symm hyx)
        have hi := i.isLt
        omega
      rw [Function.update_of_ne hyx, Function.update_of_ne hne]
      rfl
  · exact Function.update_of_ne hzx _ _

theorem move_becomes (P : Placement ι T N) (x y : ι) (m : Mem T) :
    P.Becomes m (moveAssignArray P.element N (P.base x) (P.base y) m)
      (moveAssign (vectorMoves P.element.moves N) x y (P.shown m)) := by
  have hlocal : ∀ a b (m m' : Mem T), m a = m' a → m b = m' b →
      moveAssign P.element.moves a b m a = moveAssign P.element.moves a b m' a ∧
        moveAssign P.element.moves a b m b = moveAssign P.element.moves a b m' b := by
    intro a b m m' ha hb
    by_cases hab : a = b
    · subst hab
      simp only [moveAssign_self, Function.update_self, ha, and_self]
    · simp only [moveAssign_left _ hab, moveAssign_right _ hab, hb, and_self]
  obtain ⟨hdone, hrest⟩ := forUpTo_assign (moveAssign P.element.moves)
    (fun a b m c ha hb => moveAssign_of_ne P.element.moves ha hb) hlocal (P.oneOrApart x y) m
  by_cases hxy : x = y
  · subst hxy
    have hself : ∀ i : Fin N,
        moveAssignArray P.element N (P.base x) (P.base x) m (P.base x + i) =
          P.element.moves.selfMoved (m (P.base x + i)) := by
      intro i
      rw [moveAssignArray, (hdone i i.isLt).1, moveAssign_self, Function.update_self]
    rw [moveAssign_self]
    exact becomes_update hself fun a _ ha => hrest a ha ha
  · have hne : ∀ i : Fin N, P.base x + i ≠ P.base y + i := by
      intro i
      have hap := P.apart x y hxy
      have hi := i.isLt
      omega
    refine becomes_of_two (x := x) (y := y) (fun i => ?_) (fun i => ?_) (fun z hzx hzy => ?_) hrest
    · rw [moveAssign_left _ hxy, moveAssignArray, (hdone i i.isLt).1, moveAssign_left _ (hne i)]
      rfl
    · rw [moveAssign_right _ hxy, moveAssignArray, (hdone i i.isLt).2, moveAssign_right _ (hne i)]
      rfl
    · exact moveAssign_of_ne _ hzx hzy

/-- **One operation** on memory is that operation on the vectors, undefined on both or on
none. -/
theorem call_matches (P : Placement ι T N) (o : ArrayOp ι T) (m : Mem T) :
    Option.Rel (P.Matches m) (P.call o m) (spec P.element.moves N o (P.shown m)) := by
  cases o with
  | read x e =>
    rw [call, spec, Path.element_eq]
    exact rel_map (fun _ => becomes_shown m) _
  | write x e v =>
    rw [call, spec, Path.element_eq]
    exact rel_map (fun i => P.write_becomes x i v m) _
  | fill x v =>
    cases v with
    | temporary v => exact .some ⟨rfl, P.fill_temporary_becomes x v m⟩
    | element y e =>
      rw [call, spec, Path.element_eq, Value.value, Option.map_map]
      exact rel_map (fun i => P.fill_element_becomes x y i m) _
  | swap x y => exact .some ⟨rfl, P.swap_becomes x y m⟩
  | copy x y => exact .some ⟨rfl, P.copy_becomes x y m⟩
  | move x y => exact .some ⟨rfl, P.move_becomes x y m⟩

theorem call_shown (P : Placement ι T N) (o : ArrayOp ι T) (m : Mem T) :
    (P.call o m).map (Prod.map id P.shown) = spec P.element.moves N o (P.shown m) := by
  have h := P.call_matches o m
  generalize P.call o m = p, spec P.element.moves N o (P.shown m) = q at h ⊢
  cases h with
  | none => rfl
  | some h => exact congrArg some (Prod.ext h.1 h.2.shown)

theorem call_elsewhere (P : Placement ι T N) {o : ArrayOp ι T} {r : Option T}
    (h : P.call o m = some (r, m')) {a : ℕ} (ha : P.Elsewhere a) : m' a = m a := by
  have hrel := P.call_matches o m
  rw [h] at hrel
  generalize spec P.element.moves N o (P.shown m) = q at hrel
  cases hrel with
  | some hrel => exact hrel.2.elsewhere a ha

end Placement

/-! ## 5. Programs -/

variable [DecidableEq ι]

/-- **`cleo::array` is a vector**, in every program and wherever the arrays lie. -/
theorem array_refines (P : Placement ι T N) (os : List (ArrayOp ι T)) (m : Mem T) :
    (P.call.run os m).map (Prod.map id P.shown) = (spec P.element.moves N).run os (P.shown m) ∧
      ∀ rs m', P.call.run os m = some (rs, m') → ∀ a, P.Elsewhere a → m' a = m a := by
  refine ⟨Machine.run_map (P.call_shown) os m, fun rs m' h a ha => ?_⟩
  exact Machine.run_invariant (I := fun u => u a = m a)
    (fun _ _ _ _ hu hstep => (P.call_elsewhere hstep ha).trans hu) os m rs m' rfl h

/-- Two arrays of three, and elements that a move leaves at zero. -/
def twoOfThree : Placement Bool ℕ 3 where
  pos := by decide
  base x := if x then 10 else 20
  temporary := 0
  element := ⟨⟨fun _ => 0, fun _ => 0⟩, none⟩
  apart := by decide
  temporary_apart := by decide

/-- Filled with its own last element, and moved away. -/
example : (twoOfThree.call.run [.fill true (.element true (.rbegin 0)), .move false true,
    .read false (.at_ 1), .read true .back] id).map Prod.fst =
      some [none, none, some 12, some 0] := by decide

end CleoKernel.Objects
