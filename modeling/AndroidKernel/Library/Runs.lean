import Mathlib.Logic.Relation

/-!
# Runs of a labelled transition system

`Reaches step ok` is reachability along transitions whose label and source state satisfy a
guard. `Reaches.invariant` is the induction over runs that every safety result of this
development uses: a predicate that each guarded transition preserves holds in every state a
run reaches.
-/

namespace AndroidKernel.Library

universe u v

variable {State : Type u} {Op : Type v}

/-- One transition whose label meets the guard `ok` in the state it starts from. -/
def GuardedStep (step : State → Op → State → Prop) (ok : State → Op → Prop) (s t : State) : Prop :=
  ∃ op, ok s op ∧ step s op t

/-- A finite run leads from the first state to the second, each transition meeting `ok`. -/
def Reaches (step : State → Op → State → Prop) (ok : State → Op → Prop) : State → State → Prop :=
  Relation.ReflTransGen (GuardedStep step ok)

/-- The guard that admits every transition. -/
def anyStep (_ : State) (_ : Op) : Prop := True

variable {step : State → Op → State → Prop} {ok : State → Op → Prop}

/-- The empty run. -/
theorem Reaches.refl (s : State) : Reaches step ok s s :=
  Relation.ReflTransGen.refl

/-- A run followed by one more guarded transition. -/
theorem Reaches.tail {s t u : State} {op : Op} (hrun : Reaches step ok s t)
    (hstep : step t op u) (hok : ok t op) : Reaches step ok s u :=
  Relation.ReflTransGen.tail hrun ⟨op, hok, hstep⟩

/-- A run under a guard is a run under any weaker one. -/
theorem Reaches.mono {ok' : State → Op → Prop} (hok : ∀ s op, ok s op → ok' s op) {s t : State}
    (hrun : Reaches step ok s t) : Reaches step ok' s t := by
  induction hrun with
  | refl => exact .refl s
  | tail _ hlast ih =>
    obtain ⟨op, h, hlast⟩ := hlast
    exact ih.tail hlast (hok _ op h)

/-- A predicate kept by every guarded transition holds at the end of every run. -/
theorem Reaches.invariant (inv : State → Prop)
    (hstep : ∀ s op t, inv s → ok s op → step s op t → inv t)
    {s t : State} (hrun : Reaches step ok s t) (hinit : inv s) : inv t := by
  induction hrun with
  | refl => exact hinit
  | tail _ hlast ih =>
    obtain ⟨op, hok, hlast⟩ := hlast
    exact hstep _ op _ ih hok hlast

/-- A list of labels, executed one after another, is a run. -/
theorem reaches_foldl (next : State → Op → State) (ops : List Op) (s : State) :
    Reaches (fun s op t => next s op = t) anyStep s (ops.foldl next s) := by
  induction ops generalizing s with
  | nil => exact .refl s
  | cons op ops ih => exact ((Reaches.refl s).tail rfl trivial).trans (ih (next s op))

/-- The same for labels that may have no result. -/
theorem reaches_foldlM (next : State → Op → Option State) {ops : List Op} {s t : State}
    (h : ops.foldlM next s = some t) : Reaches (fun s op t => next s op = some t) anyStep s t := by
  induction ops generalizing s with
  | nil =>
    obtain rfl : s = t := Option.some.inj h
    exact .refl s
  | cons op ops ih =>
    rw [List.foldlM_cons] at h
    obtain ⟨u, hu, hrest⟩ := Option.bind_eq_some_iff.mp h
    exact ((Reaches.refl s).tail hu trivial).trans (ih hrest)

end AndroidKernel.Library
