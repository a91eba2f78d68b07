/-
# The ring buffer under concurrent callers, one atomic step at a time

One producer calls `push`, one consumer calls `front` and `pop` and reads through the
reference `front` returned, and any number of further threads call `size`, `full` and
`empty`.  Every load and store of a counter and every access to a slot is a step of its own,
so any number of the other threads' steps may fall between two of them: in particular between
the two loads of `size()`, and between the `full()` or `empty()` check and the operation it
guards.

What a load may return is the memory model of `Lib.Memory`.  A thread's own counter is
always read exactly.  A load of a counter written by another thread may be stale, but never
older than what that side has already seen (`seenHead`, `seenTail`).  The store of `tail_` is
a release and carries the producer's view of the slots, which is exact because the producer is
the only writer; the consumer's load of `tail_` is an acquire and takes that view over.  What
a read through a reference may return is bounded by that view alone, so nothing is assumed
about slot accesses beyond release/acquire.

The last three fields of the state are history: what has been pushed, what the consumer has
read since its last pop, and what it had read when it popped.
-/
import CleoKernel.Lib.Memory
import CleoKernel.Lib.Transition
import CleoKernel.RingBuf.Basic

namespace CleoKernel.RingBuf

open CleoKernel.Memory

/-! ## 1. Where each thread stands -/

/-- The producer inside `push(val)`.  The two overloads take the same steps. -/
inductive ProdPc (T : Type*)
  | idle
  /-- In `size()`, called from `full()`: `tail_` is loaded next. -/
  | loadTail (val : T)
  /-- In `size()`: `tail_` was `tail`, `head_` is loaded next. -/
  | loadHead (val : T) (tail : UInt64)
  /-- Not full: `tail_` is loaded again. -/
  | reload (val : T)
  /-- `rb_[tail % N] = val` is next. -/
  | assign (val : T) (tail : UInt64)
  /-- The slot is written, `tail_ = tail + 1` is stored next. -/
  | publish (val : T) (tail : UInt64)

/-- The consumer's two operations. -/
inductive ConsOp
  | front
  | pop
  deriving DecidableEq

/-- The consumer inside `front()` or `pop()`. -/
inductive ConsPc
  | idle
  /-- In `size()`, called from `empty()`: `tail_` is loaded next. -/
  | loadTail (op : ConsOp)
  /-- In `size()`: `tail_` was `tail`, `head_` is loaded next. -/
  | loadHead (op : ConsOp) (tail : UInt64)
  /-- Not empty: `head_` is loaded again. -/
  | reload (op : ConsOp)
  /-- In `pop()`: `head_ = head + 1` is stored next. -/
  | publish (head : UInt64)

/-- A further thread inside `size()`, called directly or from `full()` or `empty()`.  `pushes`
is which store of `tail_` it loaded. -/
inductive ObsPc
  | idle
  | loadHead (tail : UInt64) (pushes : ℕ)

/-- Who evaluated `size()`. -/
inductive Caller (κ : Type*)
  | producer
  | consumer
  | observer (k : κ)

/-- What a step shows.  `size` reports a value `size()` returned, with the number of pushes
and of pops that were behind the two counter values it loaded. -/
inductive Event (T κ : Type*)
  | silent
  | size (who : Caller κ) (pushes pops : ℕ) (n : UInt64)
  | read (v : T)

/-! ## 2. The shared state and the threads' views -/

/-- The buffer, the three kinds of threads, and the history. -/
structure State (T : Type*) (N : UInt64) (κ : Type*) where
  rb : Fin N.toNat → Cell T
  head : Cell UInt64
  /-- Each store of `tail_` with the view of the slots it released. -/
  tail : Cell (UInt64 × (Fin N.toNat → ℕ))
  prod : ProdPc T
  /-- The newest store of `head_` the producer has loaded. -/
  seenHead : ℕ
  cons : ConsPc
  /-- The newest store of `tail_` the consumer has loaded. -/
  seenTail : ℕ
  /-- The consumer's view of the slots. -/
  view : Fin N.toNat → ℕ
  /-- The reference `front` returned, until its element is popped. -/
  ref : Option (Fin N.toNat)
  obs : κ → ObsPc
  pushed : List T
  lastRead : Option T
  popped : List (Option T)

variable {T κ : Type*} {N : UInt64}

/-- A freshly constructed buffer, every thread outside its operations. -/
def State.start [Inhabited T] (N : UInt64) (κ : Type*) : State T N κ where
  rb := fun _ => .init default
  head := .init 0
  tail := .init (0, fun _ => 0)
  prod := .idle
  seenHead := 0
  cons := .idle
  seenTail := 0
  view := fun _ => 0
  ref := none
  obs := fun _ => .idle
  pushed := []
  lastRead := none
  popped := []

/-! ## 3. The steps -/

/-- One atomic step of one thread. -/
inductive Step [DecidableEq κ] (loads : Loads) : Event T κ → State T N κ → State T N κ → Prop
  -- the producer
  | callPush {s : State T N κ} (val : T) (hpc : s.prod = .idle) :
      Step loads .silent s { s with prod := .loadTail val }
  | prodLoadTail {s : State T N κ} {val : T} (hpc : s.prod = .loadTail val) :
      Step loads .silent s { s with prod := .loadHead val s.tail.last.1 }
  | prodFull {s : State T N κ} {val : T} {t : UInt64} {i : ℕ} (hpc : s.prod = .loadHead val t)
      (hload : loads.Admits s.seenHead s.head.stamp i) (hfull : t - s.head.val i = N) :
      Step loads (.size .producer s.tail.stamp i (t - s.head.val i)) s
        { s with prod := .idle, seenHead := i }
  | prodNotFull {s : State T N κ} {val : T} {t : UInt64} {i : ℕ}
      (hpc : s.prod = .loadHead val t) (hload : loads.Admits s.seenHead s.head.stamp i)
      (hfull : t - s.head.val i ≠ N) :
      Step loads (.size .producer s.tail.stamp i (t - s.head.val i)) s
        { s with prod := .reload val, seenHead := i }
  | prodReload {s : State T N κ} {val : T} (hpc : s.prod = .reload val) :
      Step loads .silent s { s with prod := .assign val s.tail.last.1 }
  | prodAssign {s : State T N κ} {val : T} {t : UInt64} {i : Fin N.toNat}
      (hpc : s.prod = .assign val t) (hslot : slot N t = some i) :
      Step loads .silent s
        { s with
          rb := Function.update s.rb i ((s.rb i).store val)
          prod := .publish val t }
  | prodPublish {s : State T N κ} {val : T} {t : UInt64} (hpc : s.prod = .publish val t) :
      Step loads .silent s
        { s with
          tail := s.tail.store (t + 1, fun i => (s.rb i).stamp)
          prod := .idle
          pushed := s.pushed ++ [val] }
  -- the consumer
  | callCons {s : State T N κ} (op : ConsOp) (hpc : s.cons = .idle) :
      Step loads .silent s { s with cons := .loadTail op }
  | consLoadTail {s : State T N κ} {op : ConsOp} {i : ℕ} (hpc : s.cons = .loadTail op)
      (hload : loads.Admits s.seenTail s.tail.stamp i) :
      Step loads .silent s
        { s with
          cons := .loadHead op (s.tail.val i).1
          seenTail := i
          view := s.view ⊔ (s.tail.val i).2 }
  | consEmpty {s : State T N κ} {op : ConsOp} {t : UInt64} (hpc : s.cons = .loadHead op t)
      (hempty : t - s.head.last = 0) :
      Step loads (.size .consumer s.seenTail s.head.stamp (t - s.head.last)) s
        { s with cons := .idle }
  | consNotEmpty {s : State T N κ} {op : ConsOp} {t : UInt64} (hpc : s.cons = .loadHead op t)
      (hempty : t - s.head.last ≠ 0) :
      Step loads (.size .consumer s.seenTail s.head.stamp (t - s.head.last)) s
        { s with cons := .reload op }
  | consFront {s : State T N κ} {r : Fin N.toNat} (hpc : s.cons = .reload .front)
      (hslot : slot N s.head.last = some r) :
      Step loads .silent s { s with cons := .idle, ref := some r }
  | consReload {s : State T N κ} (hpc : s.cons = .reload .pop) :
      Step loads .silent s { s with cons := .publish s.head.last }
  | consPublish {s : State T N κ} {h : UInt64} (hpc : s.cons = .publish h) :
      Step loads .silent s
        { s with
          head := s.head.store (h + 1)
          cons := .idle
          ref := none
          lastRead := none
          popped := s.popped ++ [s.lastRead] }
  | consRead {s : State T N κ} {r : Fin N.toNat} {i : ℕ} (hpc : s.cons = .idle)
      (href : s.ref = some r) (hvis : (s.rb r).Visible (s.view r) i) :
      Step loads (.read ((s.rb r).val i)) s
        { s with
          view := Function.update s.view r i
          lastRead := some ((s.rb r).val i) }
  -- the further threads
  | obsLoadTail {s : State T N κ} {k : κ} {i : ℕ} (hpc : s.obs k = .idle)
      (hload : loads.Admits 0 s.tail.stamp i) :
      Step loads .silent s
        { s with obs := Function.update s.obs k (.loadHead (s.tail.val i).1 i) }
  | obsLoadHead {s : State T N κ} {k : κ} {t : UInt64} {i j : ℕ} (hpc : s.obs k = .loadHead t i)
      (hload : loads.Admits 0 s.head.stamp j) :
      Step loads (.size (.observer k) i j (t - s.head.val j)) s
        { s with obs := Function.update s.obs k .idle }

/-! ## 4. What the counters say

The part of the invariant that does not look at the slots: true counts behind every counter
value, and the chain `pops ≤ pushes the consumer has seen ≤ pushes ≤ pops the producer has
seen + N`.  It holds for every capacity and every length of run. -/

/-- What the producer's local values say about the shared state. -/
def State.ProdOk (s : State T N κ) : Prop :=
  match s.prod with
  | .idle | .loadTail _ => True
  | .loadHead _ t => t = UInt64.ofNat s.tail.stamp
  | .reload _ => s.tail.stamp < s.seenHead + N.toNat
  | .assign _ t | .publish _ t =>
    t = UInt64.ofNat s.tail.stamp ∧ s.tail.stamp < s.seenHead + N.toNat

/-- What the consumer's local values say about the shared state. -/
def State.ConsOk (s : State T N κ) : Prop :=
  match s.cons with
  | .idle | .loadTail _ => True
  | .loadHead _ t => t = UInt64.ofNat s.seenTail
  | .reload _ => s.head.stamp < s.seenTail
  | .publish h => h = UInt64.ofNat s.head.stamp ∧ s.head.stamp < s.seenTail

/-- What a further thread's local values say about the shared state. -/
def State.ObsOk (s : State T N κ) : ObsPc → Prop
  | .idle => True
  | .loadHead t i => t = UInt64.ofNat i ∧ i ≤ s.tail.stamp ∧ i ≤ s.head.stamp + N.toNat

/-- The counters, the views of them, and the program points agree. -/
structure CounterInv (s : State T N κ) : Prop where
  headVal : ∀ i ≤ s.head.stamp, s.head.val i = UInt64.ofNat i
  tailVal : ∀ i ≤ s.tail.stamp, (s.tail.val i).1 = UInt64.ofNat i
  seenHead_le : s.seenHead ≤ s.head.stamp
  seenTail_le : s.seenTail ≤ s.tail.stamp
  head_le : s.head.stamp ≤ s.seenTail
  tail_le : s.tail.stamp ≤ s.seenHead + N.toNat
  prod : s.ProdOk
  cons : s.ConsOk
  obs : ∀ k, s.ObsOk (s.obs k)
  pushed_length : s.pushed.length = s.tail.stamp
  popped_length : s.popped.length = s.head.stamp

namespace CounterInv

variable {s : State T N κ}

theorem start [Inhabited T] : CounterInv (State.start (T := T) N κ) where
  headVal := fun i hi => by rw [Nat.le_zero.mp hi]; rfl
  tailVal := fun i hi => by rw [Nat.le_zero.mp hi]; rfl
  seenHead_le := Nat.le_refl _
  seenTail_le := Nat.le_refl _
  head_le := Nat.le_refl _
  tail_le := Nat.zero_le _
  prod := trivial
  cons := trivial
  obs := fun _ => trivial
  pushed_length := rfl
  popped_length := rfl

theorem head_last (h : CounterInv s) : s.head.last = UInt64.ofNat s.head.stamp :=
  h.headVal _ (Nat.le_refl _)

theorem tail_last (h : CounterInv s) : s.tail.last.1 = UInt64.ofNat s.tail.stamp :=
  h.tailVal _ (Nat.le_refl _)

/-- What the invariant says at the program point the producer has reached. -/
theorem prod_at (h : CounterInv s) {pc : ProdPc T} (hpc : s.prod = pc) :
    ({ s with prod := pc } : State T N κ).ProdOk := by
  subst hpc
  exact h.prod

/-- The same for the consumer. -/
theorem cons_at (h : CounterInv s) {pc : ConsPc} (hpc : s.cons = pc) :
    ({ s with cons := pc } : State T N κ).ConsOk := by
  subst hpc
  exact h.cons

/-- A further thread that has moved on is right if its own local values are. -/
theorem obs_update [DecidableEq κ] (h : CounterInv s) {k : κ} {pc : ObsPc} (hpc : s.ObsOk pc) :
    ∀ k', s.ObsOk (Function.update s.obs k pc k') :=
  (Function.forall_update_iff s.obs fun _ => s.ObsOk).mpr ⟨hpc, fun k' _ => h.obs k'⟩

/-- A further thread's local values survive any step that moves the counters forward. -/
theorem obsOk_mono {s' : State T N κ} {pc : ObsPc} (h : s.ObsOk pc)
    (htail : s.tail.stamp ≤ s'.tail.stamp) (hhead : s.head.stamp ≤ s'.head.stamp) :
    s'.ObsOk pc := by
  cases pc with
  | idle => trivial
  | loadHead t i => exact ⟨h.1, h.2.1.trans htail, h.2.2.trans (Nat.add_le_add_right hhead _)⟩

/-- The value the producer's `size()` returns, and why comparing it with `N` is right: it is
the true distance to some number of pops the producer has seen. -/
theorem prod_size (h : CounterInv s) {val : T} {t : UInt64} {i : ℕ}
    (hpc : s.prod = .loadHead val t) (hlo : s.seenHead ≤ i) (hhi : i ≤ s.head.stamp) :
    i ≤ s.tail.stamp ∧ (t - s.head.val i).toNat = s.tail.stamp - i := by
  have ht : t = UInt64.ofNat s.tail.stamp := h.prod_at hpc
  have h1 := h.seenTail_le
  have h2 := h.head_le
  have h3 := h.tail_le
  have hN := N.toNat_lt
  refine ⟨by omega, ?_⟩
  rw [ht, h.headVal i hhi, toNat_ofNat_sub (by omega) (by rw [wrap]; omega)]

/-- The value the consumer's `size()` returns. -/
theorem cons_size (h : CounterInv s) {op : ConsOp} {t : UInt64} (hpc : s.cons = .loadHead op t) :
    (t - s.head.last).toNat = s.seenTail - s.head.stamp := by
  have ht : t = UInt64.ofNat s.seenTail := h.cons_at hpc
  have h1 := h.seenTail_le
  have h2 := h.head_le
  have h3 := h.tail_le
  have h4 := h.seenHead_le
  have hN := N.toNat_lt
  rw [ht, h.head_last, toNat_ofNat_sub h2 (by rw [wrap]; omega)]

/-- **Every step keeps the counters right**, however stale the loads. -/
theorem step [DecidableEq κ] {loads : Loads} {e : Event T κ} {s' : State T N κ}
    (h : CounterInv s) (hs : Step loads e s s') : CounterInv s' := by
  cases hs with
  | callPush val hpc => exact { h with prod := trivial }
  | prodLoadTail hpc => exact { h with prod := h.tail_last }
  | prodFull hpc hload hfull =>
    obtain ⟨hlo, hhi⟩ := hload.bounds h.seenHead_le
    have htail := h.tail_le.trans (Nat.add_le_add_right hlo _)
    exact { h with seenHead_le := hhi, tail_le := htail, prod := trivial }
  | @prodNotFull _ val t i hpc hload hfull =>
    obtain ⟨hlo, hhi⟩ := hload.bounds h.seenHead_le
    obtain ⟨hle, hsize⟩ := h.prod_size hpc hlo hhi
    have hne : s.tail.stamp - i ≠ N.toNat := fun heq =>
      hfull (UInt64.toNat_inj.mp (hsize.trans heq))
    have htail := h.tail_le
    refine { h with seenHead_le := hhi, tail_le := ?_, prod := ?_ }
    · change s.tail.stamp ≤ i + N.toNat; omega
    · change s.tail.stamp < i + N.toNat; omega
  | prodReload hpc =>
    have hroom : s.tail.stamp < s.seenHead + N.toNat := h.prod_at hpc
    exact { h with prod := ⟨h.tail_last, hroom⟩ }
  | prodAssign hpc hslot => exact { h with prod := h.prod_at hpc }
  | @prodPublish _ val t hpc =>
    have hroom : t = UInt64.ofNat s.tail.stamp ∧ s.tail.stamp < s.seenHead + N.toNat :=
      h.prod_at hpc
    have hval : ∀ i ≤ s.tail.stamp + 1,
        ((s.tail.store (t + 1, fun i => (s.rb i).stamp)).val i).1 = UInt64.ofNat i :=
      Cell.forall_val_store (P := fun i (p : UInt64 × (Fin N.toNat → ℕ)) => p.1 = .ofNat i)
        h.tailVal (by rw [hroom.1, ofNat_add_one])
    refine { h with
      tailVal := hval
      seenTail_le := h.seenTail_le.trans (Nat.le_succ _)
      tail_le := hroom.2
      prod := trivial
      cons := h.cons
      obs := fun k => obsOk_mono (h.obs k) (Nat.le_succ _) (Nat.le_refl _)
      pushed_length := ?_ }
    rw [List.length_append, h.pushed_length]
    rfl
  | callCons op hpc => exact { h with cons := trivial }
  | @consLoadTail _ op i hpc hload =>
    obtain ⟨hlo, hhi⟩ := hload.bounds h.seenTail_le
    exact { h with
      seenTail_le := hhi
      head_le := h.head_le.trans hlo
      cons := h.tailVal i hhi }
  | consEmpty hpc hempty => exact { h with cons := trivial }
  | @consNotEmpty _ op t hpc hempty =>
    have hsize := h.cons_size hpc
    have hne : s.seenTail - s.head.stamp ≠ 0 := fun heq =>
      hempty (UInt64.toNat_inj.mp (hsize.trans heq))
    refine { h with cons := ?_ }
    change s.head.stamp < s.seenTail
    omega
  | consFront hpc hslot => exact { h with cons := trivial }
  | consReload hpc =>
    have hroom : s.head.stamp < s.seenTail := h.cons_at hpc
    exact { h with cons := ⟨h.head_last, hroom⟩ }
  | @consPublish _ hd hpc =>
    have hroom : hd = UInt64.ofNat s.head.stamp ∧ s.head.stamp < s.seenTail := h.cons_at hpc
    have hval : ∀ i ≤ s.head.stamp + 1, (s.head.store (hd + 1)).val i = UInt64.ofNat i :=
      Cell.forall_val_store (P := fun i v => v = UInt64.ofNat i) h.headVal
        (by rw [hroom.1, ofNat_add_one])
    refine { h with
      headVal := hval
      seenHead_le := h.seenHead_le.trans (Nat.le_succ _)
      head_le := hroom.2
      cons := trivial
      prod := h.prod
      obs := fun k => obsOk_mono (h.obs k) (Nat.le_refl _) (Nat.le_succ _)
      popped_length := ?_ }
    rw [List.length_append, h.popped_length]
    rfl
  | consRead hpc href hvis => exact { h with cons := h.cons }
  | @obsLoadTail _ k i hpc hload =>
    obtain ⟨-, hhi⟩ := hload.bounds (Nat.zero_le _)
    have hroom := h.tail_le.trans (Nat.add_le_add_right h.seenHead_le _)
    exact { h with obs := h.obs_update ⟨h.tailVal i hhi, hhi, hhi.trans hroom⟩ }
  | obsLoadHead hpc hload => exact { h with obs := h.obs_update trivial }

end CounterInv

end CleoKernel.RingBuf
