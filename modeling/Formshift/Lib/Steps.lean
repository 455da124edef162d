/-
Formshift/Lib/Steps.lean

Runs of a system whose step is a partial function of the state and an action:
the action names every choice the environment makes (which thread moves, what
a call returns), and a guard says which actions may be taken.

`Fires` is the step relation, Mathlib's `ReflTransGen` its runs.  The rules:
an invariant of the steps is an invariant of the runs (`Reaches.invariant`), a
simulation of the steps is one of the runs (`Reaches.simulates`), a measure
that every step lowers ends the runs (`terminates_of_wellFounded`), and a list of
actions that executes is a run (`reaches_of_runActs`).
-/
import Mathlib

namespace Steps

variable {σ α : Type*}

/-- One step by some permitted action. -/
def Fires (step : σ → α → Option σ) (ok : σ → α → Prop) (s t : σ) : Prop :=
  ∃ a, ok s a ∧ step s a = some t

/-- The states a run from `s` can be in. -/
abbrev Reaches (R : σ → σ → Prop) : σ → σ → Prop := Relation.ReflTransGen R

/-- **The invariant rule**: what holds at the start and survives every step
holds throughout. -/
theorem Reaches.invariant {R : σ → σ → Prop} {I : σ → Prop} (hstep : ∀ s t, R s t → I s → I t)
    {s t : σ} (h : Reaches R s t) (hs : I s) : I t := by
  induction h with
  | refl => exact hs
  | tail _ hst ih => exact hstep _ _ hst ih

/-- The invariant rule with a second invariant already known along the run. -/
theorem Reaches.invariant_of {R : σ → σ → Prop} {J I : σ → Prop}
    (hJ : ∀ s t, R s t → J s → J t) (hI : ∀ s t, R s t → J s → I s → I t)
    {s t : σ} (h : Reaches R s t) (hsJ : J s) (hs : I s) : I t :=
  (Reaches.invariant (I := fun s => J s ∧ I s)
    (fun s t hst hs => ⟨hJ s t hst hs.1, hI s t hst hs.1 hs.2⟩) h ⟨hsJ, hs⟩).2

/-- **The simulation rule**: where a second system can follow every step, in any
number of its own, it can follow every run. -/
theorem Reaches.simulates {τ : Type*} {R : σ → σ → Prop} {R' : τ → τ → Prop} {M : σ → τ → Prop}
    (hstep : ∀ s s' t, R s s' → M s t → ∃ t', Reaches R' t t' ∧ M s' t') {s s' : σ} {t : τ}
    (h : Reaches R s s') (hM : M s t) : ∃ t', Reaches R' t t' ∧ M s' t' := by
  induction h with
  | refl => exact ⟨t, Relation.ReflTransGen.refl, hM⟩
  | tail _ hs ih =>
      obtain ⟨t', hrun, hM'⟩ := ih
      obtain ⟨t'', hrest, hM''⟩ := hstep _ _ _ hs hM'
      exact ⟨t'', hrun.trans hrest, hM''⟩

/-- No run from `s` goes on for ever. -/
def Terminates (R : σ → σ → Prop) (s : σ) : Prop := Acc (fun t s => R s t) s

/-- A measure in a well-founded order that every step lowers, where an invariant
holds, ends the run. -/
theorem terminates_of_wellFounded {β : Type*} [Preorder β] [WellFoundedLT β]
    {R : σ → σ → Prop} {I : σ → Prop} {m : σ → β} (hI : ∀ s t, R s t → I s → I t)
    (hm : ∀ s t, R s t → I s → m t < m s) {s : σ} (hs : I s) : Terminates R s := by
  induction hn : m s using WellFoundedLT.induction generalizing s with
  | ind n ih =>
      subst hn
      exact Acc.intro s fun t hst => ih (m t) (hm s t hst hs) (hI s t hst hs) rfl

/-- The same with a number. -/
theorem terminates_of_measure {R : σ → σ → Prop} {I : σ → Prop} {m : σ → Nat}
    (hI : ∀ s t, R s t → I s → I t) (hm : ∀ s t, R s t → I s → m t < m s) {s : σ} (hs : I s) :
    Terminates R s :=
  terminates_of_wellFounded hI hm hs

/-- A run that cannot go on for ever, and is stuck only in `final` states, can
be carried on into one. -/
theorem Terminates.reaches_final {R : σ → σ → Prop} {final : σ → Prop} {s : σ}
    (h : Terminates R s) (hlive : ∀ t, Reaches R s t → final t ∨ ∃ u, R t u) :
    ∃ t, Reaches R s t ∧ final t := by
  induction h with
  | intro s _ ih =>
      rcases hlive s Relation.ReflTransGen.refl with hs | ⟨u, hu⟩
      · exact ⟨s, Relation.ReflTransGen.refl, hs⟩
      · obtain ⟨t, ht, hfinal⟩ := ih u hu fun t ht => hlive t (ht.head hu)
        exact ⟨t, ht.head hu, hfinal⟩

/-- Execute a list of actions. -/
def runActs (step : σ → α → Option σ) : List α → σ → Option σ
  | [], s => some s
  | a :: as, s => (step s a).bind (runActs step as)

/-- An executed list of permitted actions is a run. -/
theorem reaches_of_runActs {step : σ → α → Option σ} {ok : σ → α → Prop} (hok : ∀ s a, ok s a) :
    ∀ {as : List α} {s t : σ}, runActs step as s = some t → Reaches (Fires step ok) s t
  | [], _, _, h => Option.some.inj h ▸ Relation.ReflTransGen.refl
  | _ :: _, _, _, h => by
      obtain ⟨u, hu, hrest⟩ := Option.bind_eq_some_iff.mp h
      exact (reaches_of_runActs hok hrest).head ⟨_, hok _ _, hu⟩

/-- The step, where the guard allows it. -/
def guarded (step : σ → α → Option σ) (ok : σ → α → Prop) [∀ s a, Decidable (ok s a)] (s : σ)
    (a : α) : Option σ :=
  if ok s a then step s a else none

/-- An executed list of actions whose guards are checked is a run. -/
theorem reaches_of_guarded {step : σ → α → Option σ} {ok : σ → α → Prop}
    [∀ s a, Decidable (ok s a)] {as : List α} {s t : σ}
    (h : runActs (guarded step ok) as s = some t) : Reaches (Fires step ok) s t := by
  have hrun : Reaches (Fires (guarded step ok) fun _ _ => True) s t :=
    reaches_of_runActs (fun _ _ => trivial) h
  refine hrun.lift id fun u v ⟨a, _, hs⟩ => ?_
  unfold guarded at hs
  split at hs
  · rename_i hok
    exact ⟨a, hok, hs⟩
  · cases hs

end Steps
