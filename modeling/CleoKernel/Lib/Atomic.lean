/-
# Atomic objects: linearizable histories

A HISTORY of a concurrent object is the list of what its callers see: calls and returns.  It
is linearizable when the operations could have happened one at a time: one can insert into the
history, for every operation that has returned and perhaps for some that are still under way,
ONE instant at which the operation takes effect, so that

* this instant lies between the operation's call and its return, and the reply returned is the
  one fixed at that instant (`Turns`), and
* the operations and replies, in the order of these instants, are a sequential execution of
  the object's specification.

`Linearizes spec x₀ as q` says this of the history `as`; `q` records where the insertion has
got to: the state of the sequential object, and for each caller whether it is outside, inside
an operation that has not taken effect yet, or inside one that has.

A history is linearized while it happens.  The four rules `Linearizes.start`, `.call`,
`.effect` and `.ret` extend the insertion by one line, and `Linearizes.of_run` is the
simulation rule: if every step of an implementation is answered by such lines, every run's
history is linearizable.  The specification is a relation, so that an object may be allowed
several replies.
-/
import CleoKernel.Lib.Transition
import Mathlib.Logic.Function.Basic

namespace CleoKernel.Atomic

open CleoKernel.Transition

variable {σ π ω ρ τ : Type*}

/-! ## 1. Histories and insertions -/

/-- What the callers of an object see. -/
inductive Act (π ω ρ : Type*)
  | call (p : π) (o : ω)
  | ret (p : π) (r : ρ)

/-- A line of a history with its instants inserted. -/
inductive Line (π ω ρ : Type*)
  | act (a : Act π ω ρ)
  /-- Here the operation `o` that `p` called takes effect and its reply is fixed. -/
  | effect (p : π) (o : ω) (r : ρ)

namespace Line

/-- The line as it stands in the history. -/
def act? : Line π ω ρ → Option (Act π ω ρ)
  | .act a => some a
  | .effect .. => none

/-- The line as it stands in the sequential execution. -/
def effect? : Line π ω ρ → Option (ω × ρ)
  | .act _ => none
  | .effect _ o r => some (o, r)

/-- Whose line it is. -/
def proc : Line π ω ρ → π
  | .act (.call p _) | .act (.ret p _) | .effect p _ _ => p

end Line

/-- Where a caller stands. -/
inductive Status (ω ρ : Type*)
  | idle
  | called (o : ω)
  | done (r : ρ)

/-- The lines of caller `p` are whole operations, each a call, its effect and the return of the
reply fixed there, and then as much of one more operation as the status says. -/
inductive Turns (p : π) : List (Line π ω ρ) → Status ω ρ → Prop
  | nil : Turns p [] .idle
  | call {ls : List (Line π ω ρ)} (o : ω) :
      Turns p ls .idle → Turns p (ls ++ [.act (.call p o)]) (.called o)
  | effect {ls : List (Line π ω ρ)} {o : ω} (r : ρ) :
      Turns p ls (.called o) → Turns p (ls ++ [.effect p o r]) (.done r)
  | ret {ls : List (Line π ω ρ)} {r : ρ} :
      Turns p ls (.done r) → Turns p (ls ++ [.act (.ret p r)]) .idle
  | other {ls : List (Line π ω ρ)} {st : Status ω ρ} {l : Line π ω ρ} :
      Turns p ls st → l.proc ≠ p → Turns p (ls ++ [l]) st

/-- How far an insertion has got. -/
structure State (σ π ω ρ : Type*) where
  obj : σ
  procs : π → Status ω ρ

namespace State

/-- Nobody has called anything. -/
def start (x₀ : σ) : State σ π ω ρ := ⟨x₀, fun _ => .idle⟩

/-- The sequential object moves to `x`. -/
def set (q : State σ π ω ρ) (x : σ) : State σ π ω ρ := { q with obj := x }

/-- Caller `p` moves to `st`. -/
def move [DecidableEq π] (q : State σ π ω ρ) (p : π) (st : Status ω ρ) : State σ π ω ρ :=
  { q with procs := Function.update q.procs p st }

@[simp] theorem set_obj (q : State σ π ω ρ) (x : σ) : (q.set x).obj = x := rfl

@[simp] theorem set_procs (q : State σ π ω ρ) (x : σ) : (q.set x).procs = q.procs := rfl

variable [DecidableEq π] {q : State σ π ω ρ} {p p' : π} {st : Status ω ρ}

@[simp] theorem move_obj : (q.move p st).obj = q.obj := rfl

@[simp] theorem move_procs_self : (q.move p st).procs p = st := Function.update_self ..

@[simp] theorem move_move (st' : Status ω ρ) : (q.move p st).move p st' = q.move p st' := by
  simp only [move, Function.update_idem]

theorem move_procs_of_ne (h : p' ≠ p) : (q.move p st).procs p' = q.procs p' :=
  Function.update_of_ne h ..

end State

/-- One sequential operation with its reply. -/
abbrev Sequential (spec : ω → σ → ρ → σ → Prop) (e : ω × ρ) (x y : σ) : Prop :=
  spec e.1 x e.2 y

/-- **The history `as` is linearizable**, with the object started in `x₀`: instants can be
inserted into it that lie inside their operations and execute `spec` in sequence. -/
def Linearizes (spec : ω → σ → ρ → σ → Prop) (x₀ : σ) (as : List (Act π ω ρ))
    (q : State σ π ω ρ) : Prop :=
  ∃ ls : List (Line π ω ρ), ls.filterMap Line.act? = as ∧ (∀ p, Turns p ls (q.procs p)) ∧
    Run (Sequential spec) x₀ (ls.filterMap Line.effect?) q.obj

/-! ## 2. Linearizing while the history happens -/

namespace Linearizes

variable {spec : ω → σ → ρ → σ → Prop} {x₀ : σ} {as : List (Act π ω ρ)} {q : State σ π ω ρ}

theorem start : Linearizes spec x₀ ([] : List (Act π ω ρ)) (.start x₀) :=
  ⟨[], rfl, fun _ => .nil, .start⟩

section Rules

variable [DecidableEq π] {p : π} {o : ω} {r : ρ} {x : σ}

/-- A line of `p` moves `p` on and leaves everybody else where they are. -/
theorem turns_move {ls : List (Line π ω ρ)} {l : Line π ω ρ} {st : Status ω ρ}
    (h : ∀ p', Turns p' ls (q.procs p')) (hl : l.proc = p) (hp : Turns p (ls ++ [l]) st) :
    ∀ p', Turns p' (ls ++ [l]) ((q.move p st).procs p') :=
  (Function.forall_update_iff q.procs fun p' st => Turns p' (ls ++ [l]) st).mpr
    ⟨hp, fun p' hne => .other (h p') fun heq => hne (heq.symm.trans hl)⟩

/-- A caller outside the object calls. -/
theorem call (h : Linearizes spec x₀ as q) (hp : q.procs p = .idle) :
    Linearizes spec x₀ (as ++ [.call p o]) (q.move p (.called o)) := by
  obtain ⟨ls, rfl, hturns, hrun⟩ := h
  refine ⟨ls ++ [.act (.call p o)], List.filterMap_append, turns_move hturns rfl ?_, ?_⟩
  · exact .call o (hp ▸ hturns p)
  · rw [List.filterMap_append, show [Line.act (.call p o)].filterMap Line.effect? = [] from rfl,
      List.append_nil]
    exact hrun

/-- An operation under way takes effect. -/
theorem effect (h : Linearizes spec x₀ as q) (hp : q.procs p = .called o)
    (hspec : spec o q.obj r x) : Linearizes spec x₀ as ((q.set x).move p (.done r)) := by
  obtain ⟨ls, rfl, hturns, hrun⟩ := h
  refine ⟨ls ++ [.effect p o r], ?_, turns_move (q := q.set x) hturns rfl ?_, ?_⟩
  · rw [List.filterMap_append, show [Line.effect p o r].filterMap Line.act? = [] from rfl,
      List.append_nil]
  · exact .effect r (hp ▸ hturns p)
  · rw [List.filterMap_append]
    exact hrun.next hspec

/-- An operation that has taken effect returns its reply. -/
theorem ret (h : Linearizes spec x₀ as q) (hp : q.procs p = .done r) :
    Linearizes spec x₀ (as ++ [.ret p r]) (q.move p .idle) := by
  obtain ⟨ls, rfl, hturns, hrun⟩ := h
  refine ⟨ls ++ [.act (.ret p r)], List.filterMap_append, turns_move hturns rfl ?_, ?_⟩
  · exact .ret (hp ▸ hturns p)
  · rw [List.filterMap_append, show [Line.act (.ret p r)].filterMap Line.effect? = [] from rfl,
      List.append_nil]
    exact hrun

/-- An operation that takes effect where it returns. -/
theorem effect_ret (h : Linearizes spec x₀ as q) (hp : q.procs p = .called o)
    (hspec : spec o q.obj r x) :
    Linearizes spec x₀ (as ++ [.ret p r]) ((q.set x).move p .idle) := by
  have hret := (h.effect hp hspec).ret State.move_procs_self
  rwa [State.move_move] at hret

/-- An operation that is over as soon as it is called. -/
theorem whole (h : Linearizes spec x₀ as q) (hp : q.procs p = .idle) (hspec : spec o q.obj r x) :
    Linearizes spec x₀ (as ++ [.call p o, .ret p r]) ((q.set x).move p .idle) := by
  have hret := (h.call (o := o) hp).effect_ret State.move_procs_self hspec
  rw [List.append_assoc] at hret
  change Linearizes spec x₀ _ (((q.set x).move p _).move p .idle) at hret
  rwa [State.move_move] at hret

end Rules

/-- **The simulation rule.**  `R` relates states of the implementation to insertions under way.
If every step that ends inside `good` can be followed by extending the insertion with what the
step shows, every run that ends inside `good` is linearizable.  A step never enters `good` from
outside, so it is asked of the end of the run alone. -/
theorem of_run {step : List (Act π ω ρ) → τ → τ → Prop} {R : τ → State σ π ω ρ → Prop}
    {good : τ → Prop} {s₀ s : τ} {shown : List (List (Act π ω ρ))}
    (h : Run step s₀ shown s) (hgood : good s)
    (hback : ∀ as s s', step as s s' → good s' → good s) (hinit : R s₀ (.start x₀))
    (hsim : ∀ hist as s s' q, R s q → step as s s' → good s' → Linearizes spec x₀ hist q →
      ∃ q', Linearizes spec x₀ (hist ++ as) q' ∧ R s' q') :
    ∃ q, Linearizes spec x₀ shown.flatten q ∧ R s q := by
  induction h with
  | start => exact ⟨.start x₀, start, hinit⟩
  | @next shown as s s' _ hstep ih =>
    obtain ⟨q, hlin, hR⟩ := ih (hback as s s' hstep hgood)
    obtain ⟨q', hlin', hR'⟩ := hsim shown.flatten as s s' q hR hstep hgood hlin
    exact ⟨q', by rwa [List.flatten_append, List.flatten_singleton], hR'⟩

end Linearizes

end CleoKernel.Atomic
