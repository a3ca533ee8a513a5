/-
  Runs of a loop whose body goes through phases.

  A phase performs a list of actions, which may depend on the state that the phase starts
  in.  `Runs` is a list of actions that are all allowed by a condition when they are
  performed; `PhaseStep` is one phase, and a run of the loop is a chain of phases.

  What every allowed action keeps, a run of the loop keeps (`phases_induction`,
  `phases_rel`); what a run does not keep, one of its actions has changed
  (`phases_change`).
-/
import Mathlib.Data.List.Nodup
import Mathlib.Logic.Relation
import Mathlib.Order.Defs.Unbundled

namespace TFA.Actions

variable {σ α π : Type*}

section
variable (perform : σ → α → σ) (C : σ → α → Prop)

/-- The actions lead from one state to another, and each is allowed where it is
    performed. -/
inductive Runs : List α → σ → σ → Prop
  | nil {s} : Runs [] s s
  | cons {s s' a l} (hC : C s a) (h : Runs l (perform s a) s') : Runs (a :: l) s s'

variable (next : π → π) (actions : π → σ → List α → Prop)

/-- One phase. -/
inductive PhaseStep : π × σ → π × σ → Prop
  | phase {p s s' l} (hl : actions p s l) (h : Runs perform C l s s') :
      PhaseStep (p, s) (next p, s')

end

section
variable {perform : σ → α → σ} {C C' : σ → α → Prop} {next : π → π}
  {actions : π → σ → List α → Prop} {l : List α} {s s' : σ} {x y : π × σ}

theorem Runs.mono (hC : ∀ s a, C s a → C' s a) (h : Runs perform C l s s') :
    Runs perform C' l s s' := by
  induction h with
  | nil => exact .nil
  | cons ha _ ih => exact .cons (hC _ _ ha) ih

/-- An invariant of the actions holds after a run. -/
theorem Runs.induction {I : σ → Prop} (hstep : ∀ s a, C s a → I s → I (perform s a))
    (h : Runs perform C l s s') (hs : I s) : I s' := by
  induction h with
  | nil => exact hs
  | cons hC _ ih => exact ih (hstep _ _ hC hs)

/-- A preorder that the actions go along. -/
theorem Runs.rel {r : σ → σ → Prop} [IsPreorder σ r] (hstep : ∀ s a, C s a → r s (perform s a))
    (h : Runs perform C l s s') : r s s' := by
  induction h with
  | nil => exact refl_of r _
  | cons hC _ ih => exact trans_of r (hstep _ _ hC) ih

/-- A preorder that the actions of the list go along. -/
theorem Runs.rel_of_mem {r : σ → σ → Prop} [IsPreorder σ r]
    (hstep : ∀ a ∈ l, ∀ s, C s a → r s (perform s a)) (h : Runs perform C l s s') : r s s' := by
  induction h with
  | nil => exact refl_of r _
  | cons hC _ ih =>
    exact trans_of r (hstep _ List.mem_cons_self _ hC)
      (ih fun a ha => hstep a (List.mem_cons_of_mem _ ha))

/-- If one of the actions for an element is allowed in every state, there is a run with one
    for each element of a list. -/
theorem exists_runs_map {β γ : Type*} {I : σ → Prop} [DecidableEq β] {act : β → γ → α}
    [Inhabited γ] (hallowed : ∀ s, I s → ∀ b, ∃ c, C s (act b c))
    (hI : ∀ s a, I s → I (perform s a)) {bs : List β} (hbs : bs.Nodup) (hs : I s) :
    ∃ (c : β → γ) (s' : σ), Runs perform C (bs.map fun b => act b (c b)) s s' := by
  induction bs generalizing s with
  | nil => exact ⟨fun _ => default, s, .nil⟩
  | cons b bs ih =>
    rw [List.nodup_cons] at hbs
    obtain ⟨c₀, hc₀⟩ := hallowed s hs b
    obtain ⟨c, s', hrun⟩ := ih hbs.2 (hI s (act b c₀) hs)
    refine ⟨Function.update c b c₀, s', ?_⟩
    have htail : (bs.map fun b' => act b' (Function.update c b c₀ b')) =
        bs.map fun b' => act b' (c b') := by
      refine List.map_congr_left fun b' hb' => ?_
      rw [Function.update_of_ne]
      rintro rfl
      exact hbs.1 hb'
    rw [List.map_cons, htail, Function.update_self]
    exact .cons hc₀ hrun

/-- Actions that are always allowed can be performed. -/
theorem exists_runs_of_mem (h : ∀ a ∈ l, ∀ s, C s a) (s : σ) : ∃ s', Runs perform C l s s' := by
  induction l generalizing s with
  | nil => exact ⟨s, .nil⟩
  | cons a l ih =>
    obtain ⟨s', hrun⟩ := ih (fun b hb => h b (List.mem_cons_of_mem _ hb)) (perform s a)
    exact ⟨s', .cons (h a List.mem_cons_self s) hrun⟩

/-! ## Phases -/

theorem phases_mono (hC : ∀ s a, C s a → C' s a)
    (h : Relation.ReflTransGen (PhaseStep perform C next actions) x y) :
    Relation.ReflTransGen (PhaseStep perform C' next actions) x y := by
  induction h with
  | refl => exact .refl
  | tail _ hstep ih =>
    cases hstep with
    | phase hl hrun => exact ih.tail (.phase hl (hrun.mono hC))

/-- An invariant of the actions holds after every phase. -/
theorem phases_induction {I : σ → Prop} (hstep : ∀ s a, C s a → I s → I (perform s a))
    (h : Relation.ReflTransGen (PhaseStep perform C next actions) x y) (hx : I x.2) : I y.2 := by
  induction h with
  | refl => exact hx
  | tail _ hphase ih =>
    cases hphase with
    | phase _ hrun => exact hrun.induction hstep ih

/-- In a run of the loop from `x` to `y`, the state `s` is reached, the allowed action `a` comes
    next, and the rest of the run leads on to `y`. -/
def Comes (perform : σ → α → σ) (C : σ → α → Prop) (next : π → π)
    (actions : π → σ → List α → Prop) (x : π × σ) (s : σ) (a : α) (y : π × σ) : Prop :=
  ∃ p s₀ s₁ before after, Relation.ReflTransGen (PhaseStep perform C next actions) x (p, s₀) ∧
    actions p s₀ (before ++ a :: after) ∧ Runs perform C before s₀ s ∧ C s a ∧
    Runs perform C after (perform s a) s₁ ∧
    Relation.ReflTransGen (PhaseStep perform C next actions) (next p, s₁) y

theorem Comes.allowed {s : σ} {a : α} (h : Comes perform C next actions x s a y) : C s a := by
  obtain ⟨_, _, _, _, _, -, -, -, ha, -, -⟩ := h
  exact ha

/-- An invariant of the actions holds where one of them comes. -/
theorem Comes.induction {I : σ → Prop} {s : σ} {a : α}
    (hstep : ∀ s a, C s a → I s → I (perform s a)) (h : Comes perform C next actions x s a y)
    (hx : I x.2) : I s := by
  obtain ⟨_, _, _, _, _, hloop, -, hbefore, -, -, -⟩ := h
  exact hbefore.induction hstep (phases_induction hstep hloop hx)

/-- One more phase at the end. -/
theorem Comes.tail {s : σ} {a : α} {z : π × σ} (h : Comes perform C next actions x s a y)
    (hphase : PhaseStep perform C next actions y z) : Comes perform C next actions x s a z := by
  obtain ⟨p, s₀, s₁, before, after, hx, hl, hbefore, ha, hafter, hy⟩ := h
  exact ⟨p, s₀, s₁, before, after, hx, hl, hbefore, ha, hafter, hy.tail hphase⟩

theorem Runs.change {I : σ → Prop} (h : Runs perform C l s s') (hs : I s) (hs' : ¬ I s') :
    ∃ before a after s₁, l = before ++ a :: after ∧ Runs perform C before s s₁ ∧ C s₁ a ∧
      Runs perform C after (perform s₁ a) s' ∧ I s₁ ∧ ¬ I (perform s₁ a) := by
  induction h with
  | nil => exact absurd hs hs'
  | @cons s s' a l hC hrest ih =>
    by_cases ha : I (perform s a)
    · obtain ⟨before, b, after, s₁, rfl, hbefore, hb, hafter, hI, hno⟩ := ih ha hs'
      exact ⟨a :: before, b, after, s₁, rfl, .cons hC hbefore, hb, hafter, hI, hno⟩
    · exact ⟨[], a, l, s, rfl, .nil, hC, hrest, hs, ha⟩

/-- What holds at the start of a run and not at its end is changed by an action of it. -/
theorem phases_change {I : σ → Prop}
    (h : Relation.ReflTransGen (PhaseStep perform C next actions) x y) (hx : I x.2)
    (hy : ¬ I y.2) :
    ∃ s a, Comes perform C next actions x s a y ∧ I s ∧ ¬ I (perform s a) := by
  induction h with
  | refl => exact absurd hx hy
  | @tail y z hxy hphase ih =>
    by_cases hI : I y.2
    · cases hphase with
      | phase hl hrun =>
        obtain ⟨before, a, after, s₁, rfl, hbefore, ha, hafter, hs₁, hno⟩ := hrun.change hI hy
        exact ⟨s₁, a, ⟨_, _, _, before, after, hxy, hl, hbefore, ha, hafter, .refl⟩, hs₁, hno⟩
    · obtain ⟨s, a, hcomes, hs, hno⟩ := ih hI
      exact ⟨s, a, hcomes.tail hphase, hs, hno⟩

/-- A preorder that the actions go along, from one phase to any later one. -/
theorem phases_rel {r : σ → σ → Prop} [IsPreorder σ r]
    (hstep : ∀ s a, C s a → r s (perform s a))
    (h : Relation.ReflTransGen (PhaseStep perform C next actions) x y) : r x.2 y.2 := by
  induction h with
  | refl => exact refl_of r _
  | tail _ hphase ih =>
    cases hphase with
    | phase _ hrun => exact trans_of r ih (hrun.rel hstep)

end

end TFA.Actions
