/-
# The ring buffer is a linearizable queue

`RingBuf.Spsc` says what ends up where.  This module says what the two sides may CONCLUDE from
the replies they get, by comparing the buffer with an atomic queue in the sense of
`Lib.Atomic`: a bounded first-in first-out queue together with the one thing the code adds to
it, a reference to the oldest element that the consumer may hold (`Lent`).

What a step of the code shows is read off the program counters (`shown`): a call where a side
enters an operation, a return with its reply where it leaves, and both for a read through
`front`'s reference, which is a single load.  The instants at which the operations take effect
are

* a successful `push`: the release store of `tail_`; a refused one: the load of `head_`;
* a successful `pop`: the store of `head_`; a successful `front`: the second load of `head_`;
* a refused `front` or `pop`: the load of `tail_`.  `head_` is loaded only afterwards, but the
  consumer is the only one to change it, so the refusal is already decided
  (`State.consStatus`).

`spsc_linearizable` holds for both rules about loads.  When loads are current, a refusal means
that the queue was full, or empty, at some instant inside the operation.  When loads may be
stale it need not have been, and only refusals lose their meaning: what is pushed, popped and
read is still in sequence.
-/
import CleoKernel.Lib.Atomic
import CleoKernel.Lib.Fifo
import CleoKernel.RingBuf.Spsc

namespace CleoKernel.RingBuf

open CleoKernel.Atomic CleoKernel.Memory CleoKernel.Window CleoKernel.Transition

variable {T κ : Type*} {N : UInt64} {s s' : State T N κ} {cap : ℕ}

/-! ## 1. The atomic object -/

/-- The two sides of the buffer. -/
inductive Side
  | producer
  | consumer
  deriving DecidableEq

/-- What a side can ask for. -/
inductive Request (T : Type*)
  | push (val : T)
  | front
  | pop
  /-- A read through the reference the last `front` returned. -/
  | read

inductive Reply (T : Type*)
  | done
  | failed (e : Error)
  | value (v : T)

/-- A queue, and whether the consumer holds a reference to its oldest element. -/
structure Lent (T : Type*) (cap : ℕ) where
  queue : Fifo T cap
  lent : Bool

/-- The replies the queue may give, and what they do to it.  A refusal is a statement about
the queue only when loads are current. -/
inductive Does (loads : Loads) : Request T → Lent T cap → Reply T → Lent T cap → Prop
  | push {x : Lent T cap} {val : T} {queue : Fifo T cap} (h : x.queue.push val = some queue) :
      Does loads (.push val) x .done { x with queue := queue }
  | pushFull {x : Lent T cap} {val : T} (h : loads = .current → x.queue.push val = none) :
      Does loads (.push val) x (.failed .bufferFull) x
  | front {x : Lent T cap} (h : x.queue.items ≠ []) :
      Does loads .front x .done { x with lent := true }
  | frontEmpty {x : Lent T cap} (h : loads = .current → x.queue.items = []) :
      Does loads .front x (.failed .bufferEmpty) x
  | pop {x : Lent T cap} {queue : Fifo T cap} (h : x.queue.pop = some queue) :
      Does loads .pop x .done ⟨queue, false⟩
  | popEmpty {x : Lent T cap} (h : loads = .current → x.queue.pop = none) :
      Does loads .pop x (.failed .bufferEmpty) x
  | read {x : Lent T cap} {v : T} (hlent : x.lent = true) (h : x.queue.items.head? = some v) :
      Does loads .read x (.value v) x

/-! ## 2. What a step of the code shows -/

def ConsOp.request : ConsOp → Request T
  | .front => .front
  | .pop => .pop

/-- The producer enters `push`, or leaves it. -/
def prodActs : ProdPc T → ProdPc T → List (Act Side (Request T) (Reply T))
  | .idle, .loadTail val => [.call .producer (.push val)]
  | .loadHead .., .idle => [.ret .producer (.failed .bufferFull)]
  | .publish .., .idle => [.ret .producer .done]
  | _, _ => []

/-- The consumer enters `front` or `pop`, or leaves it. -/
def consActs : ConsPc → ConsPc → List (Act Side (Request T) (Reply T))
  | .idle, .loadTail op => [.call .consumer op.request]
  | .loadHead .., .idle => [.ret .consumer (.failed .bufferEmpty)]
  | .reload _, .idle => [.ret .consumer .done]
  | .publish _, .idle => [.ret .consumer .done]
  | _, _ => []

/-- A read is a call and a return at once. -/
@[simp] def Event.readActs : Event T κ → List (Act Side (Request T) (Reply T))
  | .read v => [.call .consumer .read, .ret .consumer (.value v)]
  | _ => []

/-- Everything a step shows.  The further threads show nothing. -/
@[simp] def shown (e : Event T κ) (s s' : State T N κ) : List (Act Side (Request T) (Reply T)) :=
  e.readActs ++ (prodActs s.prod s'.prod ++ consActs s.cons s'.cons)

/-- A step, labelled with what it shows. -/
def Shows [DecidableEq κ] (loads : Loads) (as : List (Act Side (Request T) (Reply T)))
    (s s' : State T N κ) : Prop :=
  ∃ e, Step loads e s s' ∧ as = shown e s s'

@[simp] theorem prodActs_self (pc : ProdPc T) : prodActs pc pc = [] := by cases pc <;> rfl

@[simp] theorem consActs_self (pc : ConsPc) : consActs (T := T) pc pc = [] := by
  cases pc <;> rfl

/-! ## 3. How far the two sides have got -/

/-- A `push` takes effect where it returns. -/
def ProdPc.status : ProdPc T → Status (Request T) (Reply T)
  | .idle => .idle
  | .loadTail val | .loadHead val _ | .reload val | .assign val _ | .publish val _ =>
    .called (.push val)

/-- A refused `front` or `pop` takes effect at its load of `tail_`, before it returns. -/
def State.consStatus (s : State T N κ) : Status (Request T) (Reply T) :=
  match s.cons with
  | .idle => .idle
  | .loadTail op | .reload op => .called op.request
  | .loadHead op _ =>
    if s.seenTail = s.head.stamp then .done (.failed .bufferEmpty) else .called op.request
  | .publish _ => .called .pop

/-- The atomic queue holds what has been pushed and not yet popped, and the two sides stand
inside their operations where the code does. -/
structure Abstracts (s : State T N κ)
    (q : Atomic.State (Lent T N.toNat) Side (Request T) (Reply T)) : Prop where
  items : q.obj.queue.items = s.pushed.drop s.head.stamp
  lent : q.obj.lent = s.ref.isSome
  prod : q.procs .producer = s.prod.status
  cons : q.procs .consumer = s.consStatus

namespace Abstracts

variable {q : Atomic.State (Lent T N.toNat) Side (Request T) (Reply T)}

theorem start [Inhabited T] : Abstracts (State.start (T := T) N κ)
    (.start ⟨.empty T N.toNat, false⟩) := ⟨rfl, rfl, rfl, rfl⟩

/-- The queue is as long as the true counters are apart. -/
theorem length (h : Abstracts s q) (hc : CounterInv s) :
    q.obj.queue.items.length = s.tail.stamp - s.head.stamp := by
  rw [h.items, List.length_drop, hc.pushed_length]

section Moves

variable {x : Lent T N.toNat} {st : Status (Request T) (Reply T)}

/-- The producer moves on, with the queue where the code has it. -/
theorem prod_move (h : Abstracts s q) (hitems : x.queue.items = s'.pushed.drop s'.head.stamp)
    (hlent : x.lent = s'.ref.isSome) (hst : st = s'.prod.status)
    (hcons : s'.consStatus = s.consStatus) :
    Abstracts s' ((q.set x).move .producer st) where
  items := hitems
  lent := hlent
  prod := State.move_procs_self.trans hst
  cons := (State.move_procs_of_ne (by decide)).trans (h.cons.trans hcons.symm)

/-- The consumer moves on, with the queue where the code has it. -/
theorem cons_move (h : Abstracts s q) (hitems : x.queue.items = s'.pushed.drop s'.head.stamp)
    (hlent : x.lent = s'.ref.isSome) (hst : st = s'.consStatus) (hprod : s'.prod = s.prod) :
    Abstracts s' ((q.set x).move .consumer st) where
  items := hitems
  lent := hlent
  prod := (State.move_procs_of_ne (by decide)).trans (h.prod.trans (by rw [hprod]))
  cons := State.move_procs_self.trans hst

end Moves

/-- The next insertion, and what it shows. -/
theorem follow {loads : Loads} {x₀ : Lent T N.toNat}
    {hist as as' : List (Act Side (Request T) (Reply T))} (h : Abstracts s' q)
    (hlin : Linearizes (Does loads) x₀ (hist ++ as) q) (has : as' = as) :
    ∃ q', Linearizes (Does loads) x₀ (hist ++ as') q' ∧ Abstracts s' q' :=
  ⟨q, has ▸ hlin, h⟩

/-- A step that shows nothing and takes no effect. -/
theorem stutter {loads : Loads} {x₀ : Lent T N.toNat}
    {hist as : List (Act Side (Request T) (Reply T))} (h : Abstracts s' q)
    (hlin : Linearizes (Does loads) x₀ hist q) (has : as = []) :
    ∃ q', Linearizes (Does loads) x₀ (hist ++ as) q' ∧ Abstracts s' q' :=
  h.follow (by rwa [List.append_nil]) has

end Abstracts

/-! ## 4. Steps and runs -/

/-- **Every step of the code extends the insertion** by what the step shows, and at the
instants named above by an effect. -/
theorem Abstracts.step [DecidableEq κ] {loads : Loads} {e : Event T κ} {x₀ : Lent T N.toNat}
    {hist : List (Act Side (Request T) (Reply T))}
    {q : Atomic.State (Lent T N.toNat) Side (Request T) (Reply T)} (h : Abstracts s q)
    (hc : CounterInv s) (hi : SlotInv s) (hlin : Linearizes (Does loads) x₀ hist q)
    (hs : Step loads e s s') :
    ∃ q', Linearizes (Does loads) x₀ (hist ++ shown e s s') q' ∧ Abstracts s' q' := by
  have hprod := h.prod
  have hcons := h.cons
  have hlen := h.length hc
  have hseenT := hc.seenTail_le
  have hhead := hc.head_le
  cases hs with
  | callPush val hpc =>
    rw [hpc] at hprod
    exact follow (h.prod_move h.items h.lent rfl rfl) (hlin.call hprod) (by simp [hpc, prodActs])
  | prodLoadTail hpc =>
    exact stutter ⟨h.items, h.lent, by rw [hprod, hpc]; rfl, hcons⟩ hlin (by simp [hpc, prodActs])
  | @prodFull _ val t i hpc hload hfull =>
    obtain ⟨hlo, hhi⟩ := hload.bounds hc.seenHead_le
    obtain ⟨hle, hsize⟩ := hc.prod_size hpc hlo hhi
    have hrefuse : loads = .current → q.obj.queue.push val = none := by
      rintro rfl
      obtain rfl : i = s.head.stamp := hload
      rw [Fifo.push_eq_none, hlen, ← hsize, hfull]
    rw [hpc] at hprod
    exact follow (h.prod_move h.items h.lent rfl rfl)
      (hlin.effect_ret hprod (.pushFull hrefuse)) (by simp [hpc, prodActs])
  | prodNotFull hpc hload hfull =>
    exact stutter ⟨h.items, h.lent, by rw [hprod, hpc]; rfl, hcons⟩ hlin (by simp [hpc, prodActs])
  | prodReload hpc =>
    exact stutter ⟨h.items, h.lent, by rw [hprod, hpc]; rfl, hcons⟩ hlin (by simp [hpc, prodActs])
  | prodAssign hpc hslot =>
    exact stutter ⟨h.items, h.lent, by rw [hprod, hpc]; rfl, hcons⟩ hlin (by simp [hpc, prodActs])
  | @prodPublish _ val t hpc =>
    have hroom : t = UInt64.ofNat s.tail.stamp ∧ s.tail.stamp < s.seenHead + N.toNat :=
      hc.prod_at hpc
    have hseenH := hc.seenHead_le
    obtain ⟨queue, hpush⟩ : ∃ queue, q.obj.queue.push val = some queue := by
      rw [← Option.ne_none_iff_exists', ne_eq, Fifo.push_eq_none, hlen]
      omega
    rw [hpc] at hprod
    refine follow (h.prod_move (x := { q.obj with queue := queue }) ?_ h.lent rfl rfl)
      (hlin.effect_ret hprod (.push hpush)) (by simp [hpc, prodActs])
    change queue.items = (s.pushed ++ [val]).drop s.head.stamp
    rw [Fifo.push_items hpush, h.items, List.drop_append_of_le_length]
    rw [hc.pushed_length]
    omega
  | callCons op hpc =>
    rw [State.consStatus, hpc] at hcons
    exact follow (h.cons_move h.items h.lent rfl rfl) (hlin.call hcons) (by simp [hpc, consActs])
  | @consLoadTail _ op i hpc hload =>
    rw [State.consStatus, hpc] at hcons
    by_cases heq : i = s.head.stamp
    · -- nothing to pop or to refer to: the refusal is decided here
      have hempty : loads = .current → q.obj.queue.items = [] := by
        rintro rfl
        obtain rfl : i = s.tail.stamp := hload
        rw [← List.length_eq_zero_iff, hlen, heq, Nat.sub_self]
      have hrefuse : Does loads op.request q.obj (.failed .bufferEmpty) q.obj := by
        cases op with
        | front => exact .frontEmpty hempty
        | pop => exact .popEmpty fun hcur => Fifo.pop_eq_none.mpr (by simp [hempty hcur])
      exact follow (h.cons_move h.items h.lent (if_pos heq).symm rfl)
        ((List.append_nil hist).symm ▸ hlin.effect hcons hrefuse) (by simp [hpc, consActs])
    · exact stutter ⟨h.items, h.lent, hprod, hcons.trans (if_neg heq).symm⟩ hlin
        (by simp [hpc, consActs])
  | @consEmpty _ op t hpc hempty =>
    have hsize := hc.cons_size hpc
    have heq : s.seenTail = s.head.stamp := by
      rw [hempty, UInt64.toNat_zero] at hsize
      omega
    rw [State.consStatus, hpc] at hcons
    exact follow (h.cons_move h.items h.lent rfl rfl) (hlin.ret (hcons.trans (if_pos heq)))
      (by simp [hpc, consActs])
  | @consNotEmpty _ op t hpc hempty =>
    have hsize := hc.cons_size hpc
    have hne : s.seenTail ≠ s.head.stamp := fun heq =>
      hempty (UInt64.toNat_inj.mp (by rw [hsize, heq, Nat.sub_self]; rfl))
    rw [State.consStatus, hpc] at hcons
    exact stutter ⟨h.items, h.lent, hprod, hcons.trans (if_neg hne)⟩ hlin (by simp [hpc, consActs])
  | @consFront _ r hpc hslot =>
    have hroom : s.head.stamp < s.seenTail := hc.cons_at hpc
    have hne : q.obj.queue.items ≠ [] := by
      rw [← List.length_pos_iff, hlen]
      omega
    rw [State.consStatus, hpc] at hcons
    exact follow (h.cons_move (x := { q.obj with lent := true }) h.items rfl rfl rfl)
      (hlin.effect_ret hcons (.front hne)) (by simp [hpc, consActs])
  | consReload hpc =>
    rw [State.consStatus, hpc] at hcons
    exact stutter ⟨h.items, h.lent, hprod, hcons⟩ hlin (by simp [hpc, consActs])
  | @consPublish _ hd hpc =>
    have hroom : hd = UInt64.ofNat s.head.stamp ∧ s.head.stamp < s.seenTail := hc.cons_at hpc
    obtain ⟨queue, hpop⟩ : ∃ queue, q.obj.queue.pop = some queue := by
      rw [← Option.ne_none_iff_exists', ne_eq, Fifo.pop_eq_none, hlen]
      omega
    rw [State.consStatus, hpc] at hcons
    refine follow (h.cons_move (x := ⟨queue, false⟩) ?_ rfl rfl rfl)
      (hlin.effect_ret hcons (.pop hpop)) (by simp [hpc, consActs])
    change queue.items = s.pushed.drop (s.head.stamp + 1)
    rw [Fifo.pop_items hpop, h.items, List.tail_drop]
  | @consRead _ r i hpc href hvis =>
    have hread := hi.read_eq hc href hvis
    have hhead? : q.obj.queue.items.head? = some ((s.rb r).val i) := by
      rw [h.items, List.head?_drop, hread]
    rw [State.consStatus, hpc] at hcons
    have hstatus : s.consStatus = .idle := by rw [State.consStatus, hpc]
    exact follow (h.cons_move h.items h.lent hstatus.symm rfl)
      (hlin.whole hcons (.read (by rw [h.lent, href]; rfl) hhead?)) (by simp)
  | obsLoadTail hpc hload => exact stutter ⟨h.items, h.lent, hprod, hcons⟩ hlin (by simp)
  | obsLoadHead hpc hload => exact stutter ⟨h.items, h.lent, hprod, hcons⟩ hlin (by simp)

/-- What a run that shows its calls and returns keeps. -/
theorem shows_invariant [Inhabited T] [DecidableEq κ] {loads : Loads}
    {hist : List (List (Act Side (Request T) (Reply T)))}
    (h : Run (Shows loads) (State.start N κ) hist s) : CounterInv s :=
  h.invariant CounterInv.start fun _ _ _ hc hstep => by
    obtain ⟨e, he, -⟩ := hstep
    exact hc.step he

/-- **The ring buffer is a linearizable queue**, for one producer, one consumer and any number
of further threads, every interleaving of their atomic steps and either rule about loads.  If
`N` divides `2^64` or fewer than `2^64` pushes have succeeded, the calls and returns the two
sides have seen are those of an atomic queue of capacity `N`: each operation takes effect at
one instant between its call and its return, in sequence.  The queue then holds what has been
pushed and not yet popped. -/
theorem spsc_linearizable [Inhabited T] [DecidableEq κ] {loads : Loads}
    {hist : List (List (Act Side (Request T) (Reply T)))}
    (h : Run (Shows loads) (State.start N κ) hist s)
    (hN : N.toNat ∣ 2 ^ 64 ∨ s.pushed.length < 2 ^ 64) :
    ∃ q, Linearizes (Does loads) ⟨.empty T N.toNat, false⟩ hist.flatten q ∧
      q.obj.queue.items = s.pushed.drop s.popped.length := by
  have hend := shows_invariant h
  have hf : s.Fits := hN.imp id fun hlt => by rw [← hend.pushed_length]; exact hlt
  obtain ⟨q, hlin, hc, hi, habs⟩ := Linearizes.of_run
    (R := fun s q => CounterInv s ∧ SlotInv s ∧ Abstracts s q) h hf
    (fun _ s s' hstep hf' => by
      obtain ⟨e, he, -⟩ := hstep
      exact hf'.mono (Nat.succ_le_succ he.tail_stamp_le))
    ⟨.start, .start, .start⟩
    (fun hist _ s s' q hR hstep hf' hlin => by
      obtain ⟨e, he, rfl⟩ := hstep
      obtain ⟨hc, hi, habs⟩ := hR
      have hf : s.Fits := hf'.mono (Nat.succ_le_succ he.tail_stamp_le)
      obtain ⟨q', hlin', habs'⟩ := habs.step hc hi hlin he
      exact ⟨q', hlin', hc.step he, hi.step hc hf he, habs'⟩)
  exact ⟨q, hlin, by rw [habs.items, hc.popped_length]⟩

/-- The history of a push, a front, a read and a pop, one after the other, with a refused
`front` before the push has been released. -/
theorem spsc_linearizable_two : ∃ q : Atomic.State (Lent ℕ 2) Side (Request ℕ) (Reply ℕ),
    Linearizes (Does .current) ⟨.empty ℕ 2, false⟩
      [.call .producer (.push 5), .call .consumer .front, .ret .consumer (.failed .bufferEmpty),
        .ret .producer .done, .call .consumer .front, .ret .consumer .done,
        .call .consumer .read, .ret .consumer (.value 5),
        .call .consumer .pop, .ret .consumer .done] q ∧ q.obj.queue.items = [] := by
  have step : ∀ {hist e} {s s' : State ℕ 2 Empty},
      Run (Shows .current) (State.start 2 Empty) hist s → Step .current e s s' →
        Run (Shows .current) (State.start 2 Empty) (hist ++ [shown e s s']) s' :=
    fun h he => h.next ⟨_, he, rfl⟩
  have push1 := step (step .start (.callPush 5 rfl)) (.prodLoadTail rfl)
  have push2 := step push1 (.prodNotFull (i := 0) rfl rfl (by decide))
  have push3 := step (step push2 (.prodReload rfl)) (.prodAssign (i := ⟨0, by decide⟩) rfl rfl)
  have early := step (step (step push3 (.callCons .front rfl)) (.consLoadTail (i := 0) rfl rfl))
    (.consEmpty rfl rfl)
  have push4 := step early (.prodPublish rfl)
  have front1 := step (step push4 (.callCons .front rfl)) (.consLoadTail (i := 1) rfl rfl)
  have front2 := step (step front1 (.consNotEmpty rfl (by decide)))
    (.consFront (r := ⟨0, by decide⟩) rfl rfl)
  have read := step front2 (.consRead (i := 1) rfl rfl ⟨by decide, by decide⟩)
  have pop1 := step (step read (.callCons .pop rfl)) (.consLoadTail (i := 1) rfl rfl)
  have pop2 := step (step pop1 (.consNotEmpty rfl (by decide))) (.consReload rfl)
  exact spsc_linearizable (step pop2 (.consPublish rfl)) (Or.inl (by decide))

end CleoKernel.RingBuf
