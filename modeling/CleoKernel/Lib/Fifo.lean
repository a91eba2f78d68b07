/-
# Bounded first-in first-out queues with addressable elements

A queue of capacity `cap` is the list of its elements, oldest first, together with the number
of elements removed so far.  The latter gives every element a POSITION that never changes
while the element is held: the first element ever inserted has position `0`, the next one
`1`, and so on.  A position is what a reference to an element denotes, so that overwriting
through a reference is an operation of the abstract queue as well (`Fifo.set`).

The capacity bound is a field: an overfull queue cannot be built.
-/
import Mathlib.Data.List.Basic

namespace CleoKernel

/-- A queue of at most `cap` elements. -/
structure Fifo (α : Type*) (cap : ℕ) where
  /-- How many elements have been removed: the position of the oldest element held. -/
  removed : ℕ
  /-- The elements held, oldest first. -/
  items : List α
  bound : items.length ≤ cap

namespace Fifo

variable {α : Type*} {cap : ℕ}

/-- The queue that holds nothing and never did. -/
def empty (α : Type*) (cap : ℕ) : Fifo α cap := ⟨0, [], Nat.zero_le cap⟩

/-- How many elements have ever been inserted: the position the next one will get. -/
def inserted (q : Fifo α cap) : ℕ := q.removed + q.items.length

/-- The element at position `p` is in the queue. -/
def Holds (q : Fifo α cap) (p : ℕ) : Prop := q.removed ≤ p ∧ p < q.inserted

instance (q : Fifo α cap) (p : ℕ) : Decidable (q.Holds p) := by
  unfold Holds; infer_instance

/-- Insert behind the newest element; impossible when `cap` elements are held. -/
def push (q : Fifo α cap) (v : α) : Option (Fifo α cap) :=
  if h : q.items.length < cap then
    some ⟨q.removed, q.items ++ [v], by rw [List.length_append]; exact h⟩
  else none

/-- Remove the oldest element; impossible when none is held. -/
def pop (q : Fifo α cap) : Option (Fifo α cap) :=
  if q.items = [] then none
  else some ⟨q.removed + 1, q.items.tail, by
    rw [List.length_tail]; exact Nat.le_trans (Nat.sub_le _ _) q.bound⟩

/-- The element at a position. -/
def get (q : Fifo α cap) (p : ℕ) : Option α :=
  if q.removed ≤ p then q.items[p - q.removed]? else none

/-- Overwrite the element at a position; impossible when the queue does not hold it. -/
def set (q : Fifo α cap) (p : ℕ) (v : α) : Option (Fifo α cap) :=
  if q.Holds p then
    some ⟨q.removed, q.items.set (p - q.removed) v, by rw [List.length_set]; exact q.bound⟩
  else none

@[simp] theorem inserted_empty : (empty α cap).inserted = 0 := rfl

theorem removed_le_inserted (q : Fifo α cap) : q.removed ≤ q.inserted := Nat.le_add_right _ _

theorem inserted_le (q : Fifo α cap) : q.inserted ≤ q.removed + cap :=
  Nat.add_le_add_left q.bound _

/-- A successful insertion, said through positions. -/
theorem push_eq_some {q q' : Fifo α cap} {v : α} (h : q.push v = some q') :
    q.items.length < cap ∧ q'.removed = q.removed ∧ q'.inserted = q.inserted + 1 ∧
      ∀ p, q'.get p = if p = q.inserted then some v else q.get p := by
  unfold push at h
  split at h
  · rename_i hlt
    rw [Option.some.injEq] at h
    subst h
    refine ⟨hlt, rfl, by simp only [inserted, List.length_append, List.length_singleton]; omega,
      fun p => ?_⟩
    have hi : q.inserted = q.removed + q.items.length := rfl
    simp only [get]
    by_cases hp : q.removed ≤ p
    · rw [if_pos hp, if_pos hp, List.getElem?_append]
      by_cases hlen : p - q.removed < q.items.length
      · rw [if_pos hlen, if_neg (by omega)]
      · rw [if_neg hlen, List.getElem?_singleton]
        by_cases heq : p = q.inserted
        · rw [if_pos (by omega), if_pos heq]
        · rw [if_neg (by omega), if_neg heq, List.getElem?_eq_none (by omega)]
    · rw [if_neg hp, if_neg hp, if_neg (by omega)]
  · exact absurd h (by simp)

theorem push_eq_none {q : Fifo α cap} {v : α} : q.push v = none ↔ q.items.length = cap := by
  have := q.bound
  unfold push
  split
  · simp only [reduceCtorEq, false_iff]; omega
  · simp only [true_iff]; omega

/-- A successful insertion, said through the elements. -/
theorem push_items {q q' : Fifo α cap} {v : α} (h : q.push v = some q') :
    q'.items = q.items ++ [v] := by
  unfold push at h
  split at h
  · rw [← Option.some.inj h]
  · exact absurd h (by simp)

/-- A successful removal, said through positions. -/
theorem pop_eq_some {q q' : Fifo α cap} (h : q.pop = some q') :
    0 < q.items.length ∧ q'.removed = q.removed + 1 ∧ q'.inserted = q.inserted ∧
      ∀ p, q'.get p = if p = q.removed then none else q.get p := by
  unfold pop at h
  split at h
  · exact absurd h (by simp)
  · rename_i hne
    rw [Option.some.injEq] at h
    subst h
    have hpos : 0 < q.items.length := List.length_pos_of_ne_nil hne
    refine ⟨hpos, rfl, by simp only [inserted, List.length_tail]; omega, fun p => ?_⟩
    simp only [get, List.getElem?_tail]
    by_cases hp : q.removed + 1 ≤ p
    · rw [if_pos hp, if_neg (by omega), if_pos (by omega),
        show p - (q.removed + 1) + 1 = p - q.removed by omega]
    · by_cases heq : p = q.removed
      · rw [if_neg hp, if_pos heq]
      · rw [if_neg hp, if_neg heq, if_neg (by omega)]

theorem pop_eq_none {q : Fifo α cap} : q.pop = none ↔ q.items.length = 0 := by
  unfold pop
  split
  · rename_i h; simp [h]
  · rename_i h; simp [h]

/-- A successful removal, said through the elements. -/
theorem pop_items {q q' : Fifo α cap} (h : q.pop = some q') : q'.items = q.items.tail := by
  unfold pop at h
  split at h
  · exact absurd h (by simp)
  · rw [← Option.some.inj h]

/-- An overwrite, said through positions: that element changes and no other. -/
theorem set_eq_some {q q' : Fifo α cap} {p : ℕ} {v : α} (h : q.set p v = some q') :
    q.Holds p ∧ q'.removed = q.removed ∧ q'.inserted = q.inserted ∧
      ∀ p', q'.get p' = if p' = p then some v else q.get p' := by
  unfold set at h
  split at h
  · rename_i hp
    rw [Option.some.injEq] at h
    subst h
    have hr := hp.1
    have hi := hp.2
    rw [inserted] at hi
    refine ⟨hp, rfl, by simp only [inserted, List.length_set], fun p' => ?_⟩
    simp only [get]
    by_cases hle : q.removed ≤ p'
    · rw [if_pos hle, if_pos hle, List.getElem?_set]
      by_cases heq : p' = p
      · subst heq; rw [if_pos rfl, if_pos (by omega), if_pos rfl]
      · rw [if_neg (by omega), if_neg heq]
    · rw [if_neg hle, if_neg hle, if_neg (by omega)]
  · exact absurd h (by simp)

/-- Exactly the held positions have an element. -/
theorem get_isSome {q : Fifo α cap} {p : ℕ} : (q.get p).isSome ↔ q.Holds p := by
  have hi : q.inserted = q.removed + q.items.length := rfl
  unfold get Holds
  split
  · rw [isSome_getElem?]; omega
  · simp only [Option.isSome_none, Bool.false_eq_true, false_iff]; omega

theorem get_eq_some_holds {q : Fifo α cap} {p : ℕ} {v : α} (h : q.get p = some v) :
    q.Holds p :=
  get_isSome.mp (by rw [h]; rfl)

end Fifo

end CleoKernel
