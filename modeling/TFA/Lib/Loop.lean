/-
  Loops with early exits.

  `forBreak` goes through a list until a round asks for a `break`; a round of
  `forReturn` may leave the surrounding function as well, with the state that is
  then returned; `runs` repeats a step until there is none.

  Each loop comes with a rule for a reflexive and transitive relation that every
  round keeps between the state before it and the state after it.
-/
import Mathlib.Data.Nat.Notation
import Mathlib.Logic.Relation
import Mathlib.Order.Defs.Unbundled

namespace TFA.Loop

variable {α σ : Type*}

/-- An invariant is kept. -/
def Keeps (I : σ → Prop) (s s' : σ) : Prop := I s → I s'

instance (I : σ → Prop) : IsPreorder σ (Keeps I) where
  refl _ h := h
  trans _ _ _ h h' hs := h' (h hs)

/-! ## Loops over a list -/

/-- The rounds of a list, up to the first one that asks for a `break`. -/
def forBreak (body : α → σ → σ × Bool) : List α → σ → σ
  | [], s => s
  | a :: l, s =>
    match body a s with
    | (s, true) => s
    | (s, false) => forBreak body l s

/-- The rounds of a list, up to the first one that returns: `.error` holds the
    state that is returned, `.ok` the state after the loop. -/
def forReturn (body : α → σ → Except σ σ) : List α → σ → Except σ σ
  | [], s => .ok s
  | a :: l, s =>
    match body a s with
    | .error s => .error s
    | .ok s => forReturn body l s

section
variable {r : σ → σ → Prop} [IsPreorder σ r]

theorem foldl_rel {body : σ → α → σ} {l : List α} (h : ∀ a ∈ l, ∀ s, r s (body s a)) (s : σ) :
    r s (l.foldl body s) := by
  induction l generalizing s with
  | nil => exact refl_of r s
  | cons a l ih =>
    have hhead := h a (by simp) s
    exact trans_of r hhead (ih (fun b hb => h b (by simp [hb])) (body s a))

theorem forBreak_rel {body : α → σ → σ × Bool} {l : List α}
    (h : ∀ a ∈ l, ∀ s, r s (body a s).1) (s : σ) : r s (forBreak body l s) := by
  induction l generalizing s with
  | nil => exact refl_of r s
  | cons a l ih =>
    have hhead := h a (by simp) s
    unfold forBreak
    split
    case h_1 s' heq => rwa [heq] at hhead
    case h_2 s' heq =>
      rw [heq] at hhead
      exact trans_of r hhead (ih (fun b hb => h b (by simp [hb])) s')

/-- The state that a loop ends in, or that it returns. -/
def final : Except σ σ → σ
  | .error s => s
  | .ok s => s

theorem forReturn_rel {body : α → σ → Except σ σ} {l : List α}
    (h : ∀ a ∈ l, ∀ s, r s (final (body a s))) (s : σ) : r s (final (forReturn body l s)) := by
  induction l generalizing s with
  | nil => exact refl_of r s
  | cons a l ih =>
    have hhead := h a (by simp) s
    unfold forReturn
    split
    case h_1 s' heq => rwa [heq] at hhead
    case h_2 s' heq =>
      rw [heq] at hhead
      exact trans_of r hhead (ih (fun b hb => h b (by simp [hb])) s')

/-- Every element has its round. -/
theorem foldl_visits {body : σ → α → σ} {l : List α} (h : ∀ a ∈ l, ∀ s, r s (body s a)) {a : α}
    (ha : a ∈ l) (s : σ) : ∃ s₁, r s s₁ ∧ r (body s₁ a) (l.foldl body s) := by
  induction l generalizing s with
  | nil => cases ha
  | cons b l ih =>
    have htail : ∀ c ∈ l, ∀ s, r s (body s c) := fun c hc => h c (by simp [hc])
    rcases List.mem_cons.1 ha with rfl | ha
    · exact ⟨s, refl_of r s, foldl_rel htail _⟩
    · obtain ⟨s₁, h₁, h₂⟩ := ih htail ha (body s b)
      exact ⟨s₁, trans_of r (h b (by simp) s) h₁, h₂⟩

/-- What every round keeps once a round has brought it about holds after the loop. -/
theorem foldl_reaches {I J : σ → Prop} {body : σ → α → σ} {l : List α} {a : α} (ha : a ∈ l)
    (hI : ∀ s b, I s → I (body s b)) (hJ : ∀ s b, J s → J (body s b))
    (hIJ : ∀ s, I s → J (body s a)) {s : σ} (h : I s) : J (l.foldl body s) := by
  obtain ⟨before, after, rfl⟩ := List.append_of_mem ha
  rw [List.foldl_append, List.foldl_cons]
  have hbefore : I (before.foldl body s) := List.foldlRecOn before body h fun s hs b _ => hI s b hs
  exact List.foldlRecOn after body (hIJ _ hbefore) fun s hs b _ => hJ s b hs

/-- Every element has its round, unless a round before it asks for a `break`. -/
theorem forBreak_visits {body : α → σ → σ × Bool} {l : List α}
    (h : ∀ a ∈ l, ∀ s, r s (body a s).1) {a : α} (ha : a ∈ l) (s : σ) :
    (∃ s₁, r s s₁ ∧ r (body a s₁).1 (forBreak body l s)) ∨
      ∃ b ∈ l, ∃ s₁, body b s₁ = (forBreak body l s, true) := by
  induction l generalizing s with
  | nil => cases ha
  | cons b l ih =>
    have hb := h b (by simp) s
    have htail : ∀ c ∈ l, ∀ s, r s (body c s).1 := fun c hc => h c (by simp [hc])
    unfold forBreak
    split
    case h_1 s' heq => exact Or.inr ⟨b, by simp, s, heq⟩
    case h_2 s' heq =>
      rw [heq] at hb
      rcases List.mem_cons.1 ha with rfl | ha
      · refine Or.inl ⟨s, refl_of r s, ?_⟩
        rw [heq]
        exact forBreak_rel htail s'
      · rcases ih htail ha s' with ⟨s₁, h₁, h₂⟩ | ⟨c, hc, s₁, hs₁⟩
        · exact Or.inl ⟨s₁, trans_of r hb h₁, h₂⟩
        · exact Or.inr ⟨c, by simp [hc], s₁, hs₁⟩

/-- Every element has its round, if no round returns. -/
theorem forReturn_visits {body : α → σ → Except σ σ} {l : List α}
    (h : ∀ a ∈ l, ∀ s, r s (final (body a s))) {a : α} (ha : a ∈ l) {s s' : σ}
    (hok : forReturn body l s = .ok s') : ∃ s₁, r s s₁ ∧ r (final (body a s₁)) s' := by
  induction l generalizing s with
  | nil => cases ha
  | cons b l ih =>
    have hb := h b (by simp) s
    have htail : ∀ c ∈ l, ∀ s, r s (final (body c s)) := fun c hc => h c (by simp [hc])
    unfold forReturn at hok
    split at hok
    case h_1 => cases hok
    case h_2 s₂ heq =>
      rw [heq] at hb
      rcases List.mem_cons.1 ha with rfl | ha
      · refine ⟨s, refl_of r s, ?_⟩
        have hrest := forReturn_rel htail s₂
        rw [hok] at hrest
        rw [heq]
        exact hrest
      · obtain ⟨s₁, h₁, h₂⟩ := ih htail ha hok
        exact ⟨s₁, trans_of r hb h₁, h₂⟩

/-- A loop that returns does so in a round. -/
theorem forReturn_error {body : α → σ → Except σ σ} {l : List α} {s s' : σ}
    (herror : forReturn body l s = .error s') : ∃ a ∈ l, ∃ s₁, body a s₁ = .error s' := by
  induction l generalizing s with
  | nil => cases herror
  | cons b l ih =>
    unfold forReturn at herror
    split at herror
    case h_1 s₁ heq =>
      cases herror
      exact ⟨b, by simp, s, heq⟩
    case h_2 s₁ heq =>
      obtain ⟨a, ha, s₂, hs₂⟩ := ih herror
      exact ⟨a, by simp [ha], s₂, hs₂⟩

end

/-! ## Steps until there is none -/

/-- The first state without a step, if the fuel leads to one. -/
def runs (step : σ → Option σ) : ℕ → σ → Option σ
  | 0, _ => none
  | fuel + 1, s =>
    match step s with
    | none => some s
    | some s' => runs step fuel s'

/-- `s'` comes after `s`. -/
def Reaches (step : σ → Option σ) : σ → σ → Prop :=
  Relation.ReflTransGen fun s s' => step s = some s'

section
variable {step : σ → Option σ} {s s' : σ}

theorem runs_spec {fuel : ℕ} (h : runs step fuel s = some s') :
    Reaches step s s' ∧ step s' = none := by
  induction fuel generalizing s with
  | zero => cases h
  | succ fuel ih =>
    unfold runs at h
    split at h
    case h_1 hnone =>
      cases h
      exact ⟨.refl, hnone⟩
    case h_2 s₁ hs₁ =>
      obtain ⟨hreach, hend⟩ := ih h
      exact ⟨.head hs₁ hreach, hend⟩

/-- More fuel leads to the same end. -/
theorem runs_mono {fuel fuel' : ℕ} (h : runs step fuel s = some s') (hle : fuel ≤ fuel') :
    runs step fuel' s = some s' := by
  induction fuel generalizing fuel' s with
  | zero => cases h
  | succ fuel ih =>
    obtain ⟨fuel', rfl⟩ : ∃ k, fuel' = k + 1 := ⟨fuel' - 1, by omega⟩
    unfold runs at h ⊢
    split at h
    case h_1 => exact h
    case h_2 s₁ hs₁ => exact ih h (by omega)

/-- **Loops that end.**  A loop ends if an invariant holds of its start and every step
    keeps the invariant and goes down in a well-founded relation. -/
theorem exists_runs {I : σ → Prop} {r : σ → σ → Prop} (hwf : WellFounded r)
    (hstep : ∀ s s', I s → step s = some s' → I s' ∧ r s' s) (hs : I s) :
    ∃ fuel s', runs step fuel s = some s' ∧ I s' := by
  induction s using hwf.induction with
  | _ s ih =>
    cases hnext : step s with
    | none => exact ⟨1, s, by unfold runs; rw [hnext], hs⟩
    | some s₁ =>
      obtain ⟨hs₁, hlt⟩ := hstep s s₁ hs hnext
      obtain ⟨fuel, s', hrun, hs'⟩ := ih s₁ hlt hs₁
      refine ⟨fuel + 1, s', ?_, hs'⟩
      unfold runs
      rw [hnext]
      exact hrun

theorem reaches_rel {r : σ → σ → Prop} [IsPreorder σ r] (h : ∀ s s', step s = some s' → r s s')
    (hreach : Reaches step s s') : r s s' := by
  induction hreach with
  | refl => exact refl_of r s
  | tail _ hstep ih => exact trans_of r ih (h _ _ hstep)

/-- The states of a run. -/
def states (step : σ → Option σ) : ℕ → σ → List σ
  | 0, s => [s]
  | fuel + 1, s =>
    s :: match step s with
      | none => []
      | some s' => states step fuel s'

/-- A run that ends passes through every state that comes after its start. -/
theorem mem_states_of_reaches {fuel : ℕ} {t : σ} (h : runs step fuel s = some t)
    (hreach : Reaches step s s') : s' ∈ states step fuel s := by
  induction fuel generalizing s with
  | zero => cases h
  | succ fuel ih =>
    unfold states
    rcases hreach.cases_head with rfl | ⟨s₁, hs₁, hreach⟩
    · exact List.mem_cons_self
    · unfold runs at h
      rw [hs₁] at h
      rw [hs₁]
      exact List.mem_cons_of_mem _ (ih h hreach)

/-- What a quantity is at the end of a run, it has been since the last step that
    changed it, or all along. -/
theorem reaches_last_change {β : Type*} (f : σ → β) (hreach : Reaches step s s') :
    f s' = f s ∨ ∃ s₁ s₂, Reaches step s s₁ ∧ step s₁ = some s₂ ∧ Reaches step s₂ s' ∧
      f s₂ ≠ f s₁ ∧ f s' = f s₂ := by
  induction hreach with
  | refl => exact Or.inl rfl
  | @tail a b hsa hab ih =>
    by_cases hchange : f b = f a
    · rcases ih with hsame | ⟨s₁, s₂, h₁, h₁₂, h₂, hne, hlast⟩
      · exact Or.inl (hchange.trans hsame)
      · exact Or.inr ⟨s₁, s₂, h₁, h₁₂, h₂.tail hab, hne, hchange.trans hlast⟩
    · exact Or.inr ⟨a, b, hsa, hab, .refl, hchange, rfl⟩

end

end TFA.Loop
