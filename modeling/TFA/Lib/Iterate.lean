/-
  Loops that end with a result.

  A step takes a state to the next one or ends the loop with a result; `run` repeats it, with
  fuel.

  * `endsWith_iff`: the loop ends with a result that has a property exactly if it visits a
    state that ends it so;
  * `not_endsWith_of_stuck`: a state that is its own next one keeps the loop for ever.
-/
import Mathlib.Data.Nat.Notation
import Mathlib.Logic.Relation

namespace TFA.Iterate

variable {σ ρ : Type*} (step : σ → σ ⊕ ρ)

/-- The loop. -/
def run : ℕ → σ → Option ρ
  | 0, _ => none
  | fuel + 1, s =>
    match step s with
    | .inl s => run fuel s
    | .inr r => some r

/-- One state after another. -/
def Next (s s' : σ) : Prop := step s = .inl s'

/-- The states that the loop goes through. -/
abbrev Visits : σ → σ → Prop := Relation.ReflTransGen (Next step)

/-- The loop ends with a result that has a property. -/
def EndsWith (Q : ρ → Prop) (s : σ) : Prop := ∃ fuel r, run step fuel s = some r ∧ Q r

section
variable {step} {s s' : σ} {r : ρ} {Q : ρ → Prop}

/-- From one state to the next one. -/
theorem endsWith_next (h : step s = .inl s') : EndsWith step Q s ↔ EndsWith step Q s' := by
  constructor
  · rintro ⟨fuel, r, hrun, hQ⟩
    cases fuel with
    | zero => cases hrun
    | succ fuel =>
      rw [run, h] at hrun
      exact ⟨fuel, r, hrun, hQ⟩
  · rintro ⟨fuel, r, hrun, hQ⟩
    exact ⟨fuel + 1, r, by rw [run, h]; exact hrun, hQ⟩

/-- The end of the loop. -/
theorem endsWith_end (h : step s = .inr r) : EndsWith step Q s ↔ Q r := by
  constructor
  · rintro ⟨fuel, r', hrun, hQ⟩
    cases fuel with
    | zero => cases hrun
    | succ fuel =>
      rw [run, h] at hrun
      cases hrun
      exact hQ
  · intro hQ
    exact ⟨1, r, by rw [run, h], hQ⟩

theorem Visits.endsWith_iff (h : Visits step s s') : EndsWith step Q s ↔ EndsWith step Q s' := by
  induction h with
  | refl => exact Iff.rfl
  | tail _ hnext ih => exact ih.trans (endsWith_next hnext)

/-- A result comes from a state that was visited. -/
theorem endsWith_iff : EndsWith step Q s ↔ ∃ s' r, Visits step s s' ∧ step s' = .inr r ∧ Q r := by
  constructor
  · rintro ⟨fuel, r, hrun, hQ⟩
    induction fuel generalizing s with
    | zero => cases hrun
    | succ fuel ih =>
      rw [run] at hrun
      split at hrun
      case h_1 s' hstep =>
        obtain ⟨s'', r', hvisits, hend, hQ'⟩ := ih hrun
        exact ⟨s'', r', .head hstep hvisits, hend, hQ'⟩
      case h_2 r' hstep =>
        cases hrun
        exact ⟨s, r, .refl, hstep, hQ⟩
  · rintro ⟨s', r, hvisits, hend, hQ⟩
    exact hvisits.endsWith_iff.2 ((endsWith_end hend).2 hQ)

/-- A loop that comes to a state that is its own next one does not end. -/
theorem not_endsWith_of_stuck (h : step s = .inl s) : ¬ EndsWith step Q s := by
  rintro ⟨fuel, r, hrun, -⟩
  induction fuel with
  | zero => cases hrun
  | succ fuel ih =>
    rw [run, h] at hrun
    exact ih hrun

end

end TFA.Iterate
