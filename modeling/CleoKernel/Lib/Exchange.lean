/-
# Exchanging objects by moves

Objects live at locations `ι`, and a state of memory says what value each of them has.  Moving
is destructive: it leaves some value behind in the source, and what an object is left with that
is moved to itself is anybody's guess.  Both are parameters (`Moves`), so that what is proved
holds of any type.

* `swap` is the usual three moves.  Whatever moving leaves behind, and also when both operands
  are the same object, it composes the memory with the transposition of the two locations
  (`swap_eq`).
* `Exchanged k p q m m'` says that the `k` objects at `p 0`, `p 1`, ... and those at `q 0`,
  `q 1`, ... have changed places and nothing else has happened.  Two families may coincide but
  not overlap otherwise (`Apart`).  Exchanges of consecutive blocks add up
  (`Exchanged.append`), so a loop that exchanges block by block exchanges everything
  (`Exchanged.forUpTo`).
* A loop whose turns keep to cells of their own, which no other turn reads or writes, does to
  each cell what the one turn it belongs to does to it (`forUpTo_own`).
-/
import Mathlib.Logic.Equiv.Basic

namespace CleoKernel.Exchange

variable {ι T σ : Type*}

/-! ## 1. Moving -/

/-- What moving leaves behind. -/
structure Moves (T : Type*) where
  /-- in the source, when the target is another object -/
  moved : T → T
  /-- in an object moved to itself -/
  selfMoved : T → T

section Moving

variable [DecidableEq ι] (μ : Moves T) {a b : ι} {m : ι → T}

/-- `T tmp = move(a)`: the value of `tmp`, and the memory. -/
def moveOut (a : ι) (m : ι → T) : T × (ι → T) := (m a, Function.update m a (μ.moved (m a)))

/-- `a = move(b)`. -/
def moveAssign (a b : ι) (m : ι → T) : ι → T :=
  if a = b then Function.update m a (μ.selfMoved (m a))
  else Function.update (Function.update m a (m b)) b (μ.moved (m b))

theorem moveAssign_self (a : ι) (m : ι → T) :
    moveAssign μ a a m = Function.update m a (μ.selfMoved (m a)) := if_pos rfl

theorem moveAssign_left (h : a ≠ b) : moveAssign μ a b m a = m b := by
  rw [moveAssign, if_neg h, Function.update_of_ne h, Function.update_self]

theorem moveAssign_right (h : a ≠ b) : moveAssign μ a b m b = μ.moved (m b) := by
  rw [moveAssign, if_neg h, Function.update_self]

theorem moveAssign_of_ne {c : ι} (ha : c ≠ a) (hb : c ≠ b) : moveAssign μ a b m c = m c := by
  rw [moveAssign]
  split
  · exact Function.update_of_ne ha _ _
  · rw [Function.update_of_ne hb, Function.update_of_ne ha]

/-- `T tmp = move(a); a = move(b); b = move(tmp);` -/
def swap (a b : ι) (m : ι → T) : ι → T :=
  let (tmp, m₁) := moveOut μ a m
  Function.update (moveAssign μ a b m₁) b tmp

/-- **Three moves are a transposition**, whatever they leave behind on the way. -/
theorem swap_eq (a b : ι) (m : ι → T) : swap μ a b m = m ∘ Equiv.swap a b := by
  funext x
  simp only [swap, moveOut, moveAssign, Function.comp_apply]
  by_cases hab : a = b
  · subst hab
    rw [if_pos rfl, Function.update_idem, Function.update_idem, Function.update_eq_self,
      Equiv.swap_self, Equiv.refl_apply]
  · rw [if_neg hab, Function.update_idem]
    by_cases hxb : x = b
    · rw [hxb, Function.update_self, Equiv.swap_apply_right]
    · rw [Function.update_of_ne hxb]
      by_cases hxa : x = a
      · rw [hxa, Function.update_self, Function.update_of_ne (Ne.symm hab),
          Equiv.swap_apply_left]
      · rw [Function.update_of_ne hxa, Function.update_of_ne hxa,
          Equiv.swap_apply_of_ne_of_ne hxa hxb]

end Moving

/-! ## 2. Exchanging families of objects -/

/-- Two families of `k` locations that coincide or have nothing in common, without
repetitions. -/
structure Apart (k : ℕ) (p q : ℕ → ι) : Prop where
  left : ∀ i < k, ∀ j < k, p i = p j → i = j
  right : ∀ i < k, ∀ j < k, q i = q j → i = j
  cross : ∀ i < k, ∀ j < k, p i = q j → i = j

/-- The objects at `p` and those at `q` have changed places, and nothing else has changed. -/
structure Exchanged (k : ℕ) (p q : ℕ → ι) (m m' : ι → T) : Prop where
  left : ∀ i < k, m' (p i) = m (q i)
  right : ∀ i < k, m' (q i) = m (p i)
  frame : ∀ x, (∀ i < k, x ≠ p i ∧ x ≠ q i) → m' x = m x

variable {k l n : ℕ} {p q : ℕ → ι} {m m' m'' : ι → T}

theorem Apart.mono (h : Apart k p q) (hle : l ≤ k) : Apart l p q where
  left i hi j hj := h.left i (Nat.lt_of_lt_of_le hi hle) j (Nat.lt_of_lt_of_le hj hle)
  right i hi j hj := h.right i (Nat.lt_of_lt_of_le hi hle) j (Nat.lt_of_lt_of_le hj hle)
  cross i hi j hj := h.cross i (Nat.lt_of_lt_of_le hi hle) j (Nat.lt_of_lt_of_le hj hle)

namespace Exchanged

theorem zero : Exchanged 0 p q m m where
  left i hi := absurd hi (Nat.not_lt_zero i)
  right i hi := absurd hi (Nat.not_lt_zero i)
  frame _ _ := rfl

/-- One transposition exchanges two objects. -/
theorem transpose [DecidableEq ι] : Exchanged 1 p q m (m ∘ Equiv.swap (p 0) (q 0)) where
  left i hi := by
    obtain rfl := Nat.lt_one_iff.mp hi
    exact congrArg m (Equiv.swap_apply_left ..)
  right i hi := by
    obtain rfl := Nat.lt_one_iff.mp hi
    exact congrArg m (Equiv.swap_apply_right ..)
  frame x hx := congrArg m (Equiv.swap_apply_of_ne_of_ne (hx 0 Nat.one_pos).1 (hx 0 Nat.one_pos).2)

/-- **Consecutive blocks add up.** -/
theorem append (hap : Apart (k + l) p q) (h : Exchanged k p q m m')
    (h' : Exchanged l (fun j => p (k + j)) (fun j => q (k + j)) m' m'') :
    Exchanged (k + l) p q m m'' := by
  -- a location of the first block is none of the second, and the other way round
  have hfirst : ∀ i < k, ∀ x, (x = p i ∨ x = q i) → ∀ j < l, x ≠ p (k + j) ∧ x ≠ q (k + j) := by
    intro i hi x hx j hj
    have hik : i < k + l := by omega
    have hjk : k + j < k + l := by omega
    rcases hx with rfl | rfl
    · exact ⟨fun h => by have := hap.left i hik (k + j) hjk h; omega,
        fun h => by have := hap.cross i hik (k + j) hjk h; omega⟩
    · exact ⟨fun h => by have := hap.cross (k + j) hjk i hik h.symm; omega,
        fun h => by have := hap.right i hik (k + j) hjk h; omega⟩
  have hsecond : ∀ j < l, ∀ x, (x = p (k + j) ∨ x = q (k + j)) → ∀ i < k, x ≠ p i ∧ x ≠ q i := by
    intro j hj x hx i hi
    refine ⟨fun h => ?_, fun h => ?_⟩
    · have hne := hfirst i hi x (Or.inl h) j hj
      exact hx.elim hne.1 hne.2
    · have hne := hfirst i hi x (Or.inr h) j hj
      exact hx.elim hne.1 hne.2
  refine ⟨fun i hi => ?_, fun i hi => ?_, fun x hx => ?_⟩
  · rcases Nat.lt_or_ge i k with hlt | hge
    · rw [h'.frame _ (hfirst i hlt _ (Or.inl rfl)), h.left i hlt]
    · obtain ⟨j, rfl⟩ := Nat.exists_eq_add_of_le hge
      have hj : j < l := by omega
      rw [h'.left j hj, h.frame _ (hsecond j hj _ (Or.inr rfl))]
  · rcases Nat.lt_or_ge i k with hlt | hge
    · rw [h'.frame _ (hfirst i hlt _ (Or.inr rfl)), h.right i hlt]
    · obtain ⟨j, rfl⟩ := Nat.exists_eq_add_of_le hge
      have hj : j < l := by omega
      rw [h'.right j hj, h.frame _ (hsecond j hj _ (Or.inl rfl))]
  · rw [h'.frame x fun j hj => hx (k + j) (by omega), h.frame x fun i hi => hx i (by omega)]

/-- What an exchange ends in is determined. -/
theorem unique (h : Exchanged k p q m m') (h' : Exchanged k p q m m'') : m' = m'' := by
  funext x
  by_cases hx : ∀ i < k, x ≠ p i ∧ x ≠ q i
  · rw [h.frame x hx, h'.frame x hx]
  · simp only [not_forall, not_and_or, not_not] at hx
    obtain ⟨i, hi, rfl | rfl⟩ := hx
    · rw [h.left i hi, h'.left i hi]
    · rw [h.right i hi, h'.right i hi]

/-- Exchanging twice restores everything. -/
theorem symm (h : Exchanged k p q m m') : Exchanged k p q m' m where
  left i hi := (h.right i hi).symm
  right i hi := (h.left i hi).symm
  frame x hx := (h.frame x hx).symm

end Exchanged

/-! ## 3. Loops -/

/-- `for (i = 0; i < n; ++i) body(i);` -/
def forUpTo (body : ℕ → σ → σ) : ℕ → σ → σ
  | 0, s => s
  | n + 1, s => body n (forUpTo body n s)

/-- **Turn by turn.**  If every turn writes only cells it owns, and what it writes there depends
on these cells alone, the loop does to the cells of a turn what that turn would do to them at
the start. -/
theorem forUpTo_own (body : ℕ → (ι → T) → ι → T) (own : ι → ℕ → Prop)
    (hown : ∀ i < n, ∀ j < n, ∀ x, own x i → own x j → i = j)
    (hframe : ∀ i < n, ∀ m x, ¬ own x i → body i m x = m x)
    (hlocal : ∀ i < n, ∀ m m', (∀ x, own x i → m x = m' x) →
      ∀ x, own x i → body i m x = body i m' x) (m : ι → T) :
    (∀ i < n, ∀ x, own x i → forUpTo body n m x = body i m x) ∧
      ∀ x, (∀ i < n, ¬ own x i) → forUpTo body n m x = m x := by
  induction n with
  | zero => exact ⟨fun i hi => absurd hi (Nat.not_lt_zero i), fun _ _ => rfl⟩
  | succ n ih =>
    have hlt : ∀ i < n, i < n + 1 := fun i => Nat.lt_succ_of_lt
    have hn : n < n + 1 := Nat.lt_succ_self n
    obtain ⟨hdone, hrest⟩ := ih (fun i hi j hj => hown i (hlt i hi) j (hlt j hj))
      (fun i hi => hframe i (hlt i hi)) (fun i hi => hlocal i (hlt i hi))
    refine ⟨fun i hi x hx => ?_, fun x hx => ?_⟩
    · rcases Nat.eq_or_lt_of_le (Nat.le_of_lt_succ hi) with rfl | hin
      · -- the cells of the last turn are as they were at the start
        refine hlocal i hi _ _ (fun y hy => hrest y fun j hj hyj => ?_) x hx
        exact Nat.ne_of_gt hj (hown i hi j (hlt j hj) y hy hyj)
      · have hne : ¬ own x n := fun hxn => Nat.ne_of_lt hin (hown i hi n hn x hx hxn)
        calc body n (forUpTo body n m) x = forUpTo body n m x := hframe n hn _ x hne
          _ = body i m x := hdone i hin x hx
    · calc body n (forUpTo body n m) x = forUpTo body n m x := hframe n hn _ x (hx n hn)
        _ = m x := hrest x fun i hi => hx i (hlt i hi)

/-- **Block by block.**  If each turn of a loop exchanges the next `k` objects, the loop
exchanges them all. -/
theorem Exchanged.forUpTo {body : ℕ → (ι → T) → ι → T} (hap : Apart (n * k) p q)
    (hbody : ∀ i < n, ∀ m,
      Exchanged k (fun j => p (i * k + j)) (fun j => q (i * k + j)) m (body i m)) :
    Exchanged (n * k) p q m (forUpTo body n m) := by
  induction n with
  | zero =>
    rw [Nat.zero_mul]
    exact .zero
  | succ n ih =>
    rw [Nat.succ_mul] at hap ⊢
    have hrest := ih (hap.mono (Nat.le_add_right _ _)) fun i hi => hbody i (Nat.lt_succ_of_lt hi)
    exact .append hap hrest (hbody n (Nat.lt_succ_self n) _)

end CleoKernel.Exchange
