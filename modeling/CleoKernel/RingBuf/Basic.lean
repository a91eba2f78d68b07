/-
# The ring buffer of `kernel/ring_buf.hpp`, as the code computes it

`RingBuffer<T, N>` keeps its elements in a `std::array<T, N>` addressed by two 64-bit
counters.  `head_` counts the elements ever popped and `tail_` the elements ever pushed; both
wrap modulo `2^64`, and the element with count `k` lives in the slot `k % N`.

The model keeps the code's own widths: the capacity and the counters are `UInt64`, so every
subtraction and increment wraps where the code's does.  Two things can go wrong in C++ that a
total Lean function would hide, and both are kept visible:

* the slot index `k % N` is undefined when `N` is `0`; `slot` is `none` there, and an
  operation that computes a slot index inherits it;
* a reference returned by `front` or `back` is the slot it refers to, so that a later write
  through it goes wherever that slot is, not to "the front".

`std::expected` is `Except Error`.  An operation that fails answers with the buffer it was
given, exactly as the early `return` leaves the object.
-/
import CleoKernel.Lib.Window
import Mathlib.Logic.Function.Basic

namespace CleoKernel.RingBuf

open CleoKernel.Window

/-! ## 1. `kernel/error.hpp` -/

/-- `cleo::error`. -/
inductive Error
  | ok
  -- generic
  | invalidArgument
  | invalidState
  | notFound
  | unsupported
  -- memory
  | outOfMemory
  -- IPC
  | bufferFull
  | bufferEmpty
  deriving DecidableEq, Repr

/-! ## 2. The class and its operations -/

/-- The data members `rb_`, `head_` and `tail_`. -/
structure RingBuffer (T : Type*) (N : UInt64) where
  rb : Fin N.toNat → T
  head : UInt64
  tail : UInt64

/-- The index `i % N` into `rb_`.  The remainder by zero is undefined behaviour. -/
def slot (N i : UInt64) : Option (Fin N.toNat) :=
  if h : 0 < N.toNat then
    some ⟨(i % N).toNat, by rw [UInt64.toNat_mod]; exact Nat.mod_lt _ h⟩
  else none

namespace RingBuffer

variable {T : Type*} {N : UInt64}

/-- `RingBuffer()`: the array is value-initialised, both counters start at zero. -/
def construct [Inhabited T] (N : UInt64) : RingBuffer T N := ⟨fun _ => default, 0, 0⟩

/-- `size()`: an unsigned difference, so it wraps. -/
def size (b : RingBuffer T N) : UInt64 := b.tail - b.head

/-- `full()`. -/
def full (b : RingBuffer T N) : Bool := b.size == N

/-- `empty()`. -/
def empty (b : RingBuffer T N) : Bool := b.size == 0

/-- `*r = v`, for a reference `r` into the array. -/
def write (b : RingBuffer T N) (r : Fin N.toNat) (v : T) : RingBuffer T N :=
  { b with rb := Function.update b.rb r v }

@[simp] theorem write_rb_self (b : RingBuffer T N) (r : Fin N.toNat) (v : T) :
    (b.write r v).rb r = v := Function.update_self ..

theorem write_rb_of_ne {b : RingBuffer T N} {r i : Fin N.toNat} {v : T} (h : i ≠ r) :
    (b.write r v).rb i = b.rb i := Function.update_of_ne h ..

/-- The body the two `push` overloads share.  `val` is the value assigned into the array and
`after` is what the assignment leaves in the source object. -/
def pushBody (b : RingBuffer T N) (val after : T) :
    Option ((Except Error Unit × T) × RingBuffer T N) :=
  if b.full then some ((.error .bufferFull, val), b)
  else (slot N b.tail).map fun i => ((.ok (), after), { b.write i val with tail := b.tail + 1 })

/-- `push(const T& val)`: copy assignment leaves the source alone. -/
def push (b : RingBuffer T N) (val : T) : Option (Except Error Unit × RingBuffer T N) :=
  (b.pushBody val val).map fun (r, b') => (r.1, b')

/-- `push(T&& val)`: move assignment leaves the source in the state `moved val`. -/
def pushMove (moved : T → T) (b : RingBuffer T N) (val : T) :
    Option ((Except Error Unit × T) × RingBuffer T N) :=
  b.pushBody val (moved val)

/-- `pop()`: the slot is not cleared. -/
def pop (b : RingBuffer T N) : Except Error Unit × RingBuffer T N :=
  if b.empty then (.error .bufferEmpty, b)
  else (.ok (), { b with head := b.head + 1 })

/-- `front()`: a reference to slot `head % N`. -/
def front (b : RingBuffer T N) : Option (Except Error (Fin N.toNat)) :=
  if b.empty then some (.error .bufferEmpty)
  else (slot N b.head).map .ok

/-- `back()`: a reference to slot `(tail - 1) % N`. -/
def back (b : RingBuffer T N) : Option (Except Error (Fin N.toNat)) :=
  if b.empty then some (.error .bufferEmpty)
  else (slot N (b.tail - 1)).map .ok

end RingBuffer

/-! ## 3. Counters and slots, read through the true counts

A counter that has been incremented `k` times holds `UInt64.ofNat k`.  The lemmas below are
the only place where wrapping arithmetic is opened up; everything later speaks of true
counts. -/

/-- The modulus of the two counters. -/
abbrev wrap : ℕ := 2 ^ 64

/-- The slot of the element with true count `k`. -/
abbrev slotNat (N : UInt64) (k : ℕ) : ℕ := slotOf wrap N.toNat k

/-- A slot index is computed exactly when the capacity is not zero, and it is the slot of the
true count. -/
theorem slot_ofNat_eq_some {N : UInt64} {k : ℕ} {i : Fin N.toNat} :
    slot N (UInt64.ofNat k) = some i ↔ i.val = slotNat N k := by
  have hpos : 0 < N.toNat := i.pos
  simp only [slot, hpos, dite_true, Option.some.injEq, Fin.ext_iff, UInt64.toNat_mod,
    UInt64.toNat_ofNat', slotNat, slotOf]
  exact eq_comm

/-- With a positive capacity every counter value has a slot. -/
theorem slot_exists {N : UInt64} (hN : 0 < N.toNat) (i : UInt64) : ∃ s, slot N i = some s := by
  rw [slot, dif_pos hN]
  exact ⟨_, rfl⟩

/-- Incrementing a counter increments its true count. -/
@[simp] theorem ofNat_add_one (k : ℕ) : UInt64.ofNat k + 1 = UInt64.ofNat (k + 1) := by
  rw [← UInt64.toNat_inj, UInt64.toNat_add]
  simp only [UInt64.toNat_ofNat', UInt64.toNat_one]
  omega

/-- Decrementing a positive counter decrements its true count. -/
theorem ofNat_sub_one {k : ℕ} (hk : 0 < k) : UInt64.ofNat k - 1 = UInt64.ofNat (k - 1) := by
  rw [← UInt64.toNat_inj, UInt64.toNat_sub]
  simp only [UInt64.toNat_ofNat', UInt64.toNat_one]
  omega

/-- **The wrapping difference of two counters is their true distance**, wherever they stand
relative to the wrap, as long as that distance fits in 64 bits. -/
theorem toNat_ofNat_sub {t h : ℕ} (hle : h ≤ t) (hlt : t - h < wrap) :
    (UInt64.ofNat t - UInt64.ofNat h).toNat = t - h := by
  rw [UInt64.toNat_sub]
  simp only [UInt64.toNat_ofNat']
  rw [wrap] at hlt
  omega

/-- `size() == n`, read on true counts. -/
theorem ofNat_sub_beq {t h : ℕ} (hle : h ≤ t) (hlt : t - h < wrap) (n : UInt64) :
    (UInt64.ofNat t - UInt64.ofNat h == n) = decide (t - h = n.toNat) := by
  rw [Bool.eq_iff_iff, beq_iff_eq, decide_eq_true_iff, ← UInt64.toNat_inj,
    toNat_ofNat_sub hle hlt]

end CleoKernel.RingBuf
