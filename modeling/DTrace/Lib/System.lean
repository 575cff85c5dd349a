import Mathlib.Data.List.Basic

/-!
# Guarded transition systems

A system is an executable step function: `step s e` is `some s'` when event `e` can happen in
`s`. Two readings of it are used together:

* `runIf ok` replays a list of events and stops at a step that does not meet the condition
  `ok` on the state before it, so a concrete scenario is decided by evaluation;
* `Reach ok` collects the states reached through steps that all meet `ok`, with its induction
  rule `Reach.invariant`.

`Reach.of_runIf` takes a replayed scenario into the second. For properties of whole runs,
`AllStates P` and `AllSteps ok` speak of every state and of every step on the way;
`allStates_iff_allSteps` is the rule by which one is the same as the other.
-/

structure TransitionSystem (S E : Type*) where
  init : S
  step : S → E → Option S

namespace TransitionSystem

variable {S E : Type*} (sys : TransitionSystem S E)

def runIf (ok : S → E → Prop) [∀ s e, Decidable (ok s e)] : S → List E → Option S
  | s, [] => some s
  | s, e :: es => if ok s e then (sys.step s e).bind fun s' => runIf ok s' es else none

/-- States reached from the initial one through steps that meet `ok`. -/
inductive Reach (ok : S → E → Prop) : S → Prop
  | init : Reach ok sys.init
  | step {s s' : S} {e : E} : Reach ok s → ok s e → sys.step s e = some s' → Reach ok s'

variable {sys} {ok : S → E → Prop}

/-- What holds initially and is kept by every step that meets the condition holds in every
reached state. -/
theorem Reach.invariant {P : S → Prop} (hinit : P sys.init)
    (hstep : ∀ s e s', P s → ok s e → sys.step s e = some s' → P s')
    {s : S} (h : sys.Reach ok s) : P s := by
  induction h with
  | init => exact hinit
  | step _ hok hse ih => exact hstep _ _ _ ih hok hse

theorem Reach.of_runIf [∀ s e, Decidable (ok s e)] {s s' : S} {es : List E}
    (h : sys.Reach ok s) (hrun : sys.runIf ok s es = some s') : sys.Reach ok s' := by
  induction es generalizing s with
  | nil => exact Option.some.inj hrun ▸ h
  | cons e es ih =>
    rw [runIf] at hrun
    by_cases hok : ok s e
    · rw [if_pos hok] at hrun
      obtain ⟨_, hstep, hrest⟩ := Option.bind_eq_some_iff.mp hrun
      exact ih (h.step hok hstep) hrest
    · rw [if_neg hok] at hrun
      cases hrun

/-! ## Whole runs -/

/-- Every state from `s` on along the events, as far as they can happen. -/
def AllStates (sys : TransitionSystem S E) (P : S → Prop) : S → List E → Prop
  | s, [] => P s
  | s, e :: es => P s ∧ ∀ s' ∈ sys.step s e, AllStates sys P s' es

/-- Every step along the events, as far as they can happen. -/
def AllSteps (sys : TransitionSystem S E) (ok : S → E → Prop) : S → List E → Prop
  | _, [] => True
  | s, e :: es => ∀ s' ∈ sys.step s e, ok s e ∧ AllSteps sys ok s' es

/-- If each step from a state with `I` and `P` keeps `I`, and keeps `P` exactly when it meets
`ok`, then `P` holds all along a run exactly when every step of it meets `ok`. -/
theorem allStates_iff_allSteps {I P : S → Prop}
    (hinv : ∀ s e s', I s → sys.step s e = some s' → I s')
    (hstep : ∀ s e s', I s → P s → sys.step s e = some s' → (P s' ↔ ok s e))
    {s : S} (hI : I s) (hP : P s) (es : List E) :
    sys.AllStates P s es ↔ sys.AllSteps ok s es := by
  induction es generalizing s with
  | nil => exact iff_of_true hP trivial
  | cons e es ih =>
    constructor
    · intro h s' hs'
      have hP' : P s' := by
        cases es with
        | nil => exact h.2 s' hs'
        | cons e' es' => exact (h.2 s' hs').1
      exact ⟨(hstep s e s' hI hP hs').mp hP', (ih (hinv s e s' hI hs') hP').mp (h.2 s' hs')⟩
    · intro h
      refine ⟨hP, fun s' hs' => ?_⟩
      obtain ⟨hok, hrest⟩ := h s' hs'
      exact (ih (hinv s e s' hI hs') ((hstep s e s' hI hP hs').mpr hok)).mpr hrest

end TransitionSystem
