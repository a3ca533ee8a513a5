/-
  Phases that are repeated until nothing changes.

  A sweep takes a step for each element of a list, and says whether a step has reported a
  change; the sweeps of a phase end with the first one without a change.  A step may fail.

  * `sweeps_eq_foldlM`: steps that never report a change make one sweep;
  * `foldlM_rel`, `exists_foldlM_of_mem`: what every step keeps, the steps of a list keep, and
    each element has its step between the first and the last state.
-/
import Mathlib.Data.List.Basic
import Mathlib.Order.Defs.Unbundled

namespace TFA.Sweeps

variable {α σ : Type*}

section
variable (step : σ → α → Option (Bool × σ))

/-- One sweep. -/
def sweep (l : List α) (s : σ) : Option (Bool × σ) :=
  l.foldlM (fun (r : Bool × σ) a => (step r.2 a).map fun r' => (r.1 || r'.1, r'.2)) (false, s)

/-- The sweeps of a phase, with fuel. -/
def sweeps : ℕ → List α → σ → Option σ
  | 0, _, _ => none
  | fuel + 1, l, s =>
    match sweep step l s with
    | none => none
    | some (true, s) => sweeps fuel l s
    | some (false, s) => some s

end

section
variable {f : σ → α → Option σ} {l : List α} {s s' : σ}

theorem sweep_unchanged (again : Bool) :
    l.foldlM (fun (r : Bool × σ) a => ((f r.2 a).map (Prod.mk false)).map fun r' =>
      (r.1 || r'.1, r'.2)) (again, s) = (l.foldlM f s).map (Prod.mk again) := by
  induction l generalizing s with
  | nil => rfl
  | cons a l ih =>
    rw [List.foldlM_cons, List.foldlM_cons]
    cases f s a with
    | none => rfl
    | some s₁ =>
      simp only [Option.map_some, Bool.or_false, Option.bind_eq_bind, Option.bind_some]
      exact ih

/-- **One sweep.** -/
theorem sweeps_eq_foldlM (fuel : ℕ) :
    sweeps (fun s a => (f s a).map (Prod.mk false)) (fuel + 1) l s = l.foldlM f s := by
  rw [sweeps, sweep, sweep_unchanged]
  cases l.foldlM f s <;> rfl

/-- A relation that every step keeps. -/
theorem foldlM_rel {r : σ → σ → Prop} [IsPreorder σ r]
    (hstep : ∀ a ∈ l, ∀ s s', f s a = some s' → r s s') (h : l.foldlM f s = some s') :
    r s s' := by
  induction l generalizing s with
  | nil =>
    obtain rfl := Option.some.inj h
    exact refl_of r s
  | cons a l ih =>
    rw [List.foldlM_cons] at h
    obtain ⟨s₁, hfirst, hrest⟩ := Option.bind_eq_some_iff.1 h
    exact trans_of r (hstep a (by simp) s s₁ hfirst) (ih (fun b hb => hstep b (by simp [hb])) hrest)

/-- Each element has its step. -/
theorem exists_foldlM_of_mem {r : σ → σ → Prop} [IsPreorder σ r]
    (hstep : ∀ a ∈ l, ∀ s s', f s a = some s' → r s s') (h : l.foldlM f s = some s') {a : α}
    (ha : a ∈ l) : ∃ s₁ s₂, r s s₁ ∧ f s₁ a = some s₂ ∧ r s₂ s' := by
  induction l generalizing s with
  | nil => cases ha
  | cons b l ih =>
    rw [List.foldlM_cons] at h
    obtain ⟨s₁, hfirst, hrest⟩ := Option.bind_eq_some_iff.1 h
    have hl : ∀ c ∈ l, ∀ s s', f s c = some s' → r s s' := fun c hc => hstep c (by simp [hc])
    rcases List.mem_cons.1 ha with rfl | ha
    · exact ⟨s, s₁, refl_of r s, hfirst, foldlM_rel hl hrest⟩
    · obtain ⟨s₂, s₃, hbefore, hstep', hafter⟩ := ih hl hrest ha
      exact ⟨s₂, s₃, trans_of r (hstep b (by simp) s s₁ hfirst) hbefore, hstep', hafter⟩

end

end TFA.Sweeps
