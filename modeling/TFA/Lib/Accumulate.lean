/-
  Operations that add facts to a state.

  What an operation adds is fixed beforehand: it does not depend on what the state holds
  already, as long as an invariant holds.  A fold over such operations then adds what its
  elements add, in whatever order they come and however often (`facts_foldl_congr`).
-/
import Mathlib.Data.Set.Lattice

namespace TFA.Accumulate

section
variable {σ Φ α : Type*} {I : σ → Prop} {facts : σ → Set Φ} {f g : σ → σ} {s : σ}

/-- The operation adds these facts, and keeps the invariant. -/
structure Adds (I : σ → Prop) (facts : σ → Set Φ) (Δ : Set Φ) (f : σ → σ) : Prop where
  keeps : ∀ s, I s → I (f s)
  facts : ∀ s, I s → facts (f s) = facts s ∪ Δ

/-- The facts that the operation adds are fixed. -/
def Additive (I : σ → Prop) (facts : σ → Set Φ) (f : σ → σ) : Prop :=
  ∃ Δ, Adds I facts Δ f

/-! ## Closure -/

theorem Adds.additive {Δ : Set Φ} (h : Adds I facts Δ f) : Additive I facts f := ⟨Δ, h⟩

theorem additive_id : Additive I facts fun s => s :=
  ⟨∅, fun _ h => h, fun _ _ => (Set.union_empty _).symm⟩

theorem Adds.comp {Δ Δ' : Set Φ} (hf : Adds I facts Δ f) (hg : Adds I facts Δ' g) :
    Adds I facts (Δ ∪ Δ') fun s => g (f s) where
  keeps s h := hg.keeps _ (hf.keeps s h)
  facts s h := by rw [hg.facts _ (hf.keeps s h), hf.facts s h, Set.union_assoc]

theorem Additive.comp (hf : Additive I facts f) (hg : Additive I facts g) :
    Additive I facts fun s => g (f s) := by
  obtain ⟨Δ, hf⟩ := hf
  obtain ⟨Δ', hg⟩ := hg
  exact (hf.comp hg).additive

/-- An operation that is given in another way on the states of the invariant. -/
theorem Additive.congr (hf : Additive I facts f) (h : ∀ s, I s → g s = f s) :
    Additive I facts g := by
  obtain ⟨Δ, hf⟩ := hf
  refine ⟨Δ, fun s hs => ?_, fun s hs => ?_⟩
  · rw [h s hs]
    exact hf.keeps s hs
  · rw [h s hs]
    exact hf.facts s hs

/-! ## Folds -/

/-- A fold adds what its elements add. -/
theorem adds_foldl {op : σ → α → σ} {Δ : α → Set Φ} {l : List α}
    (h : ∀ a ∈ l, Adds I facts (Δ a) fun s => op s a) :
    Adds I facts (⋃ a ∈ l, Δ a) fun s => l.foldl op s := by
  induction l with
  | nil =>
    refine ⟨fun _ hs => hs, fun s _ => ?_⟩
    simp
  | cons a l ih =>
    have hcons := (h a (by simp)).comp (ih fun b hb => h b (List.mem_cons_of_mem a hb))
    refine ⟨hcons.keeps, fun s hs => ?_⟩
    rw [List.foldl_cons, hcons.facts s hs]
    simp

/-- The facts of the elements, chosen together. -/
theorem exists_adds {op : σ → α → σ} {l : List α}
    (h : ∀ a ∈ l, Additive I facts fun s => op s a) :
    ∃ Δ : α → Set Φ, ∀ a ∈ l, Adds I facts (Δ a) fun s => op s a := by
  have hΔ : ∀ a, ∃ Δ, a ∈ l → Adds I facts Δ fun s => op s a := by
    intro a
    by_cases ha : a ∈ l
    · obtain ⟨Δ, hadds⟩ := h a ha
      exact ⟨Δ, fun _ => hadds⟩
    · exact ⟨∅, fun hmem => absurd hmem ha⟩
  choose Δ hΔ using hΔ
  exact ⟨Δ, hΔ⟩

theorem additive_foldl {op : σ → α → σ} {l : List α}
    (h : ∀ a ∈ l, Additive I facts fun s => op s a) :
    Additive I facts fun s => l.foldl op s := by
  obtain ⟨Δ, hΔ⟩ := exists_adds h
  exact (adds_foldl hΔ).additive

/-- **Neither the order nor repetitions matter**: folds over the same elements end with
    the same facts. -/
theorem facts_foldl_congr {op : σ → α → σ} {l l' : List α}
    (h : ∀ a ∈ l, Additive I facts fun s => op s a) (hl : ∀ a, a ∈ l ↔ a ∈ l') (hs : I s) :
    facts (l.foldl op s) = facts (l'.foldl op s) := by
  obtain ⟨Δ, hΔ⟩ := exists_adds h
  rw [(adds_foldl hΔ).facts s hs, (adds_foldl fun a ha => hΔ a ((hl a).2 ha)).facts s hs]
  simp only [hl]

/-! ## Facts stay -/

theorem Additive.subset (hf : Additive I facts f) (hs : I s) : facts s ⊆ facts (f s) := by
  obtain ⟨Δ, hf⟩ := hf
  rw [hf.facts s hs]
  exact Set.subset_union_left

theorem Additive.keeps (hf : Additive I facts f) (hs : I s) : I (f s) := by
  obtain ⟨Δ, hf⟩ := hf
  exact hf.keeps s hs

/-- What one element of a fold brings about, and more facts leave as it is, holds in the end. -/
theorem foldl_of_mem {op : σ → α → σ} {l : List α} {a : α} {Q : Set Φ → Prop}
    (hQ : ∀ R R', R ⊆ R' → Q R → Q R') (hop : ∀ b ∈ l, Additive I facts fun s => op s b)
    (ha : a ∈ l) (h : ∀ s, I s → Q (facts (op s a))) (hs : I s) : Q (facts (l.foldl op s)) := by
  obtain ⟨before, after, rfl⟩ := List.append_of_mem ha
  have hbefore : Additive I facts fun s => before.foldl op s :=
    additive_foldl fun b hb => hop b (List.mem_append_left _ hb)
  have hafter : Additive I facts fun s => after.foldl op s :=
    additive_foldl fun b hb => hop b (List.mem_append_right _ (List.mem_cons_of_mem a hb))
  have hmid : I (before.foldl op s) := hbefore.keeps hs
  rw [List.foldl_append, List.foldl_cons]
  exact hQ _ _ (hafter.subset ((hop a ha).keeps hmid)) (h _ hmid)

end

end TFA.Accumulate
