/-
# Neither side ever waits

`push`, `front` and `pop` contain no loop and no lock.  What this buys is WAIT-FREEDOM: an
operation under way returns after a bounded number of its own steps, whatever the other
threads do in between, and at no point does it depend on one of them taking a step.

The two halves are `CounterInv.can_step` (from every reachable state the side inside an
operation can take a step) and `Step.left_lt` (every step of its own brings it closer to the
return, and steps of the others leave it where it is).  `wait_free` puts them together.  The
first half is the one that could fail: a side would be stuck if the slot index `k % N` it has
to compute next were undefined, and the counter invariant is what excludes `N = 0` there.
-/
import CleoKernel.RingBuf.Linear

namespace CleoKernel.RingBuf

open CleoKernel.Atomic CleoKernel.Memory CleoKernel.Transition

variable {T κ : Type*} {N : UInt64} {s s' : State T N κ}

/-! ## 1. How far from the return -/

/-- How many steps `push` has at most left. -/
def ProdPc.left : ProdPc T → ℕ
  | .idle => 0
  | .publish .. => 1
  | .assign .. => 2
  | .reload _ => 3
  | .loadHead .. => 4
  | .loadTail _ => 5

/-- How many steps `front` or `pop` has at most left. -/
def ConsPc.left : ConsPc → ℕ
  | .idle => 0
  | .publish _ => 1
  | .reload _ => 2
  | .loadHead .. => 3
  | .loadTail _ => 4

/-- How many steps a side has at most left; `0` outside its operations. -/
def State.left (s : State T N κ) : Side → ℕ
  | .producer => s.prod.left
  | .consumer => s.cons.left

/-- The bound for a whole operation, from its call on. -/
def Side.budget : Side → ℕ
  | .producer => 5
  | .consumer => 4

theorem State.left_le_budget (s : State T N κ) (p : Side) : s.left p ≤ p.budget := by
  cases p with
  | producer => cases h : s.prod <;> simp [State.left, Side.budget, ProdPc.left, h]
  | consumer => cases h : s.cons <;> simp [State.left, Side.budget, ConsPc.left, h]

/-- A step, labelled with whether side `p` took it and with what it shows. -/
def Watched [DecidableEq κ] (loads : Loads) (p : Side)
    (l : Bool × List (Act Side (Request T) (Reply T))) (s s' : State T N κ) : Prop :=
  ∃ e, Step loads e s s' ∧ l = (decide (s'.left p ≠ s.left p), shown e s s')

/-- What is shown contains no return of `p`. -/
def Pending (p : Side) (l : Bool × List (Act Side (Request T) (Reply T))) : Prop :=
  ∀ r, Act.ret p r ∉ l.2

/-! ## 2. Every own step leads on, and one is always possible -/

/-- **A step of `p` inside an operation brings it closer to the return**, and reaches the end
only by returning. -/
theorem Step.left_lt [DecidableEq κ] {loads : Loads} {e : Event T κ} {p : Side}
    (h : Step loads e s s') (hin : s.left p ≠ 0) (hmoved : s'.left p ≠ s.left p) :
    s'.left p < s.left p ∧ (s'.left p = 0 → ∃ r, Act.ret p r ∈ shown e s s') := by
  cases p with
  | producer =>
    cases h with
    | callPush val hpc => exact absurd (by rw [State.left, hpc]; rfl) hin
    | prodLoadTail hpc | prodNotFull hpc | prodReload hpc | prodAssign hpc =>
      simp [State.left, hpc, ProdPc.left]
    | prodFull hpc | prodPublish hpc => simp [State.left, hpc, ProdPc.left, prodActs]
    | _ => exact absurd rfl hmoved
  | consumer =>
    cases h with
    | callCons op hpc => exact absurd (by rw [State.left, hpc]; rfl) hin
    | consLoadTail hpc | consNotEmpty hpc | consReload hpc =>
      simp [State.left, hpc, ConsPc.left]
    | consEmpty hpc | consFront hpc | consPublish hpc =>
      simp [State.left, hpc, ConsPc.left, consActs]
    | _ => exact absurd rfl hmoved

/-- A load of the other side's counter can always return the newest store. -/
theorem admits_newest {loads : Loads} {lo stamp : ℕ} (h : lo ≤ stamp) :
    loads.Admits lo stamp stamp := by
  cases loads with
  | stale => exact ⟨h, Nat.le_refl _⟩
  | current => rfl

/-- **A side inside an operation is never blocked**: it has a step of its own to take. -/
theorem CounterInv.can_step [DecidableEq κ] {loads : Loads} {p : Side} (h : CounterInv s)
    (hin : s.left p ≠ 0) : ∃ e s', Step loads e s s' ∧ s'.left p ≠ s.left p := by
  have hhead := h.head_le
  have hseenT := h.seenTail_le
  have htail := h.tail_le
  have hseenH := h.seenHead_le
  cases p with
  | producer =>
    have hload : loads.Admits s.seenHead s.head.stamp s.head.stamp := admits_newest hseenH
    cases hpc : s.prod with
    | idle => exact absurd (by rw [State.left, hpc]; rfl) hin
    | loadTail val => exact ⟨_, _, .prodLoadTail hpc, by simp [State.left, hpc, ProdPc.left]⟩
    | loadHead val t =>
      by_cases hfull : t - s.head.val s.head.stamp = N
      · exact ⟨_, _, .prodFull hpc hload hfull, by simp [State.left, hpc, ProdPc.left]⟩
      · exact ⟨_, _, .prodNotFull hpc hload hfull, by simp [State.left, hpc, ProdPc.left]⟩
    | reload val => exact ⟨_, _, .prodReload hpc, by simp [State.left, hpc, ProdPc.left]⟩
    | assign val t =>
      -- there is room, so there are slots
      have hroom : t = UInt64.ofNat s.tail.stamp ∧ s.tail.stamp < s.seenHead + N.toNat :=
        h.prod_at hpc
      obtain ⟨i, hslot⟩ := slot_exists (N := N) (by omega) t
      exact ⟨_, _, .prodAssign hpc hslot, by simp [State.left, hpc, ProdPc.left]⟩
    | publish val t => exact ⟨_, _, .prodPublish hpc, by simp [State.left, hpc, ProdPc.left]⟩
  | consumer =>
    cases hpc : s.cons with
    | idle => exact absurd (by rw [State.left, hpc]; rfl) hin
    | loadTail op =>
      exact ⟨_, _, .consLoadTail hpc (admits_newest hseenT), by
        simp [State.left, hpc, ConsPc.left]⟩
    | loadHead op t =>
      by_cases hempty : t - s.head.last = 0
      · exact ⟨_, _, .consEmpty hpc hempty, by simp [State.left, hpc, ConsPc.left]⟩
      · exact ⟨_, _, .consNotEmpty hpc hempty, by simp [State.left, hpc, ConsPc.left]⟩
    | reload op =>
      cases op with
      | front =>
        have hroom : s.head.stamp < s.seenTail := h.cons_at hpc
        obtain ⟨r, hslot⟩ := slot_exists (N := N) (by omega) s.head.last
        exact ⟨_, _, .consFront hpc hslot, by simp [State.left, hpc, ConsPc.left]⟩
      | pop => exact ⟨_, _, .consReload hpc, by simp [State.left, hpc, ConsPc.left]⟩
    | publish hd => exact ⟨_, _, .consPublish hpc, by simp [State.left, hpc, ConsPc.left]⟩

/-! ## 3. Whole runs -/

/-- **The operations are wait-free.**  In every reachable state in which a side is inside an
operation, that side can take a step, and in every continuation of the run, however the steps
of all threads interleave, the operation has returned by the time its side has taken as many
steps as it had left: at most five for `push` and four for `front` and `pop`. -/
theorem wait_free [Inhabited T] [DecidableEq κ] {loads : Loads} {p : Side}
    {tr : List (Event T κ)} (h : Run (Step loads) (State.start N κ) tr s) (hin : s.left p ≠ 0) :
    (∃ e s', Step loads e s s' ∧ s'.left p < s.left p) ∧
    ∀ (ls : List (Bool × List (Act Side (Request T) (Reply T)))) (s' : State T N κ),
      Run (Watched loads p) s ls s' → p.budget ≤ ls.countP (·.1) →
        ∃ l ∈ ls, ∃ r, Act.ret p r ∈ l.2 := by
  have hc : CounterInv s := h.invariant .start fun _ _ _ hc hstep => hc.step hstep
  refine ⟨?_, fun ls s' hrun hcount => ?_⟩
  · obtain ⟨e, s', hstep, hmoved⟩ : ∃ e s', Step loads e s s' ∧ s'.left p ≠ s.left p :=
      hc.can_step hin
    exact ⟨e, s', hstep, (hstep.left_lt hin hmoved).1⟩
  · by_contra hnone
    have hquiet : ∀ l ∈ ls, Pending p l := fun l hl r hr => hnone ⟨l, hl, r, hr⟩
    obtain ⟨hpos, hle⟩ := hrun.rank_add_countP_le (I := fun s => s.left p ≠ 0)
      (fun s => s.left p) (·.1) hquiet hin
      (fun l s s' hin hpend hstep => by
        obtain ⟨e, hstep, rfl⟩ := hstep
        by_cases hmoved : s'.left p = s.left p
        · exact ⟨hmoved ▸ hin, by simp [hmoved]⟩
        · obtain ⟨hlt, hret⟩ := hstep.left_lt hin hmoved
          refine ⟨fun hzero => ?_, by rw [if_pos (decide_eq_true hmoved)]; exact hlt⟩
          obtain ⟨r, hr⟩ := hret hzero
          exact hpend r hr)
    have hbudget := s.left_le_budget p
    omega

/-- A push into a buffer of capacity two that has just been called: five steps of the producer,
with the first step of a `front` among them, contain its return. -/
theorem wait_free_two : ∃ (ls : List (Bool × List (Act Side (Request ℕ) (Reply ℕ))))
    (s' : State ℕ 2 Empty),
    Run (Watched .stale .producer) { State.start 2 Empty with prod := .loadTail 5 } ls s' ∧
      ls.length = 6 ∧ ∃ l ∈ ls, ∃ r, Act.ret .producer r ∈ l.2 := by
  have called : Run (Step .stale) (State.start (T := ℕ) 2 Empty) [.silent]
      { State.start 2 Empty with prod := .loadTail 5 } := .next .start (.callPush 5 rfl)
  have step : ∀ {ls e} {s₀ s s' : State ℕ 2 Empty}, Run (Watched .stale .producer) s₀ ls s →
      Step .stale e s s' → Run (Watched .stale .producer) s₀
        (ls ++ [(decide (s'.left .producer ≠ s.left .producer), shown e s s')]) s' :=
    fun h he => h.next ⟨_, he, rfl⟩
  have push0 : Run (Watched .stale .producer)
      { State.start (T := ℕ) 2 Empty with prod := .loadTail 5 } []
      { State.start 2 Empty with prod := .loadTail 5 } := .start
  have push1 := step (step push0 (.prodLoadTail rfl)) (.callCons .front rfl)
  have push2 := step push1 (.prodNotFull (i := 0) rfl ⟨by decide, by decide⟩ (by decide))
  have push3 := step (step push2 (.prodReload rfl)) (.prodAssign (i := ⟨0, by decide⟩) rfl rfl)
  have push4 := step push3 (.prodPublish rfl)
  exact ⟨_, _, push4, rfl, (wait_free called (by decide)).2 _ _ push4 (by decide)⟩

end CleoKernel.RingBuf
