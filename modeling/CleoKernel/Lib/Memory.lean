/-
# Shared cells with a modification order, and release/acquire views

The stores to one shared variable are totally ordered, in every memory model of interest.  A
`Cell` records that order: `val i` is the value of the `i`-th store and `stamp` the index of
the newest one, with index `0` for the initial value.  A thread that has seen the store with
index `lo` may later load any store that is not older (`Visible`).

For a whole family of cells `ι`, what a thread is guaranteed to see is a VIEW `ι → ℕ`, the
oldest store of each cell it may still load.  Release/acquire is the rule that moves views
between threads: a release store carries the view of the thread that makes it, so it is a
store of a pair `(value, view)`, and an acquire load of that store joins the carried view into
the loader's (`⊔`, pointwise).

`Loads` is the one knob: `stale` is the rule above, and `current` restricts a run to loads
that return the newest store, as in an interleaving of atomic steps.

An access to plain memory is stamped with its EPOCH, the number of release stores its thread
had made to its own variable by then.  It is sequenced before the next of them, so it happens
before everything another thread does once that thread has acquired that store or a later one
(`Ordered`).  A data race is a pair of conflicting accesses that are not so ordered.
-/
import Mathlib.Order.Lattice
import Mathlib.Logic.Function.Basic

namespace CleoKernel.Memory

/-- A shared variable with its stores, oldest first.  Indices above `stamp` mean nothing. -/
structure Cell (α : Type*) where
  stamp : ℕ
  val : ℕ → α

namespace Cell

variable {α : Type*}

/-- A variable nobody has stored to yet. -/
def init (v : α) : Cell α := ⟨0, fun _ => v⟩

/-- The newest value. -/
def last (c : Cell α) : α := c.val c.stamp

/-- Add a store at the end of the modification order. -/
def store (c : Cell α) (v : α) : Cell α :=
  ⟨c.stamp + 1, Function.update c.val (c.stamp + 1) v⟩

/-- Store `i` may be returned to a thread that has already seen store `lo`. -/
def Visible (c : Cell α) (lo i : ℕ) : Prop := lo ≤ i ∧ i ≤ c.stamp

@[simp] theorem stamp_init (v : α) : (init v).stamp = 0 := rfl

@[simp] theorem val_init (v : α) (i : ℕ) : (init v).val i = v := rfl

@[simp] theorem last_init (v : α) : (init v).last = v := rfl

@[simp] theorem stamp_store (c : Cell α) (v : α) : (c.store v).stamp = c.stamp + 1 := rfl

@[simp] theorem last_store (c : Cell α) (v : α) : (c.store v).last = v :=
  Function.update_self ..

/-- Older stores stay where they are in the modification order. -/
theorem val_store_of_le {c : Cell α} {v : α} {i : ℕ} (h : i ≤ c.stamp) :
    (c.store v).val i = c.val i :=
  Function.update_of_ne (Nat.ne_of_lt (Nat.lt_succ_of_le h)) ..

theorem val_store_succ (c : Cell α) (v : α) : (c.store v).val (c.stamp + 1) = v :=
  Function.update_self ..

/-- A property of every store, kept by one more. -/
theorem forall_val_store {c : Cell α} {v : α} {P : ℕ → α → Prop}
    (h : ∀ i ≤ c.stamp, P i (c.val i)) (hv : P (c.stamp + 1) v) :
    ∀ i ≤ (c.store v).stamp, P i ((c.store v).val i) := by
  intro i hi
  rcases Nat.lt_or_ge c.stamp i with hlt | hle
  · obtain rfl : i = c.stamp + 1 := Nat.le_antisymm hi hlt
    rw [val_store_succ]
    exact hv
  · rw [val_store_of_le hle]
    exact h i hle

/-- A thread that has seen the newest store can load nothing else. -/
theorem Visible.eq_last {c : Cell α} {lo i : ℕ} (h : c.Visible lo i) (hlo : c.stamp ≤ lo) :
    c.val i = c.last := by
  rw [last, Nat.le_antisymm h.2 (hlo.trans h.1)]

end Cell

/-- Which store a load of another thread's variable may return. -/
inductive Loads
  | stale
  | current
  deriving DecidableEq

/-- Whether a load may return store `i`, when the loader has seen `lo` and the newest is
`stamp`. -/
def Loads.Admits : Loads → (lo stamp i : ℕ) → Prop
  | .stale, lo, stamp, i => lo ≤ i ∧ i ≤ stamp
  | .current, _, stamp, i => i = stamp

/-- Under either rule a load goes neither back nor beyond the newest store. -/
theorem Loads.Admits.bounds {m : Loads} {lo stamp i : ℕ} (h : m.Admits lo stamp i)
    (hlo : lo ≤ stamp) : lo ≤ i ∧ i ≤ stamp := by
  cases m with
  | stale => exact h
  | current => obtain rfl : i = stamp := h; exact ⟨hlo, Nat.le_refl _⟩

/-- An access to a plain location, with the epoch of the thread that made it. -/
structure Access (ι : Type*) where
  loc : ι
  epoch : ℕ

/-- Every logged access to `i` happened before the present of a thread that has acquired the
release store number `seen` of the accesses' thread. -/
def Ordered {ι : Type*} (log : List (Access ι)) (i : ι) (seen : ℕ) : Prop :=
  ∀ a ∈ log, a.loc = i → a.epoch < seen

end CleoKernel.Memory
