/-
  Does the alias rule return?  (`TBAATools.cc`)

  The metadata of the loaded modules is not verified, and the walks to the root and up the
  ancestry chains remember nothing of where they have been.

  * `RootLoops`, `ChainLoops`: a walk comes back to a descriptor, or to a descriptor at the
    same offset;
  * `returns_iff`: in a finite graph, the rule returns for two tags exactly if no walk that
    it makes does so.
-/
import TFA.TBAA.Metadata
import TFA.Lib.Chain
import Mathlib.Data.Finite.Prod
import Mathlib.Order.Interval.Finset.Nat

namespace TFA

open Chain

namespace MDGraph

section
variable (G : MDGraph)

/-- One step of the walk to the root. -/
def rootStep (Cur : MDNode) : Option MDNode :=
  if G.isRootNode Cur then none
  else if G.isScalarDesc Cur then G.nodeAt Cur 1 else none

/-- One step of an ancestry chain. -/
def chainStep (cur : MDNode × ℕ) : Option (MDNode × ℕ) := G.immediateParent cur.1 cur.2

/-- The walk to the root of an access tag comes back to a descriptor. -/
def RootLoops (Tag : MDNode) : Prop :=
  ∃ AccessTy, G.nodeAt Tag 1 = some AccessTy ∧ Loops G.rootStep AccessTy

/-- The ancestry chain comes back to a descriptor at the same offset. -/
def ChainLoops (cur : MDNode × ℕ) : Prop := Loops G.chainStep cur

/-- The rule returns for two tags. -/
def Returns (A B : MDNode) : Prop := ∃ fuel, (G.mayAliasByTBAAWithin fuel A B).isSome

/-- No walk that the rule makes for two tags comes back: the walks to the roots for different
    tags that parse, if their bases differ or their offsets do not, and the chains if the
    roots are the same, too. -/
def NoLoops (A B : MDNode) : Prop :=
  A ≠ B → ∀ a b, G.getBaseAndOffsetFromTag A = some a → G.getBaseAndOffsetFromTag B = some b →
    ¬ (a.1 = b.1 ∧ a.2 ≠ b.2) →
      (¬ G.RootLoops A ∧ ¬ G.RootLoops B) ∧
        ((∃ R, G.Root A R ∧ G.Root B R) → ¬ G.ChainLoops a ∧ ¬ G.ChainLoops b)

end

section
variable {G : MDGraph} {fuel : ℕ} {A B Tag : MDNode}

theorem scalarRoot_isSome_iff {N : MDNode} :
    (G.scalarRoot fuel N).isSome ↔ (follow G.rootStep fuel N).isSome := by
  induction fuel generalizing N with
  | zero => simp [scalarRoot, follow]
  | succ fuel ih =>
    unfold scalarRoot follow
    by_cases hroot : G.isRootNode N = true
    · simp [rootStep, hroot]
    · by_cases hscalar : G.isScalarDesc N = true
      · have hstep : G.rootStep N = G.nodeAt N 1 := by simp [rootStep, hroot, hscalar]
        rw [if_neg hroot, if_pos hscalar, hstep]
        cases G.nodeAt N 1 with
        | none => rfl
        | some P =>
          dsimp only
          rw [Option.isSome_map]
          exact ih
      · simp [rootStep, hroot, hscalar]

theorem ancestryChain_eq_follow {cur : MDNode × ℕ} :
    G.ancestryChain fuel cur = follow G.chainStep fuel cur := by
  induction fuel generalizing cur with
  | zero => rfl
  | succ fuel ih =>
    unfold ancestryChain follow chainStep
    cases G.immediateParent cur.1 cur.2 with
    | none => rfl
    | some parent =>
      dsimp only
      rw [ih]
      rfl

/-- Offsets do not grow along a chain. -/
theorem immediateParent_le {N P : MDNode} {o o' : ℕ}
    (h : G.immediateParent N o = some (P, o')) : o' ≤ o := by
  unfold immediateParent at h
  split at h
  · split at h
    · cases h
    · obtain ⟨Q, -, hP⟩ := Option.map_eq_some_iff.1 h
      cases hP
      exact Nat.zero_le o
  · split at h
    · obtain ⟨q, -, hP⟩ := Option.map_eq_some_iff.1 h
      cases hP
      exact Nat.sub_le o q.2
    · cases h

theorem snd_le_of_reaches {p q : MDNode × ℕ} (h : Reaches G.chainStep p q) : q.2 ≤ p.2 := by
  induction h with
  | refl => exact le_rfl
  | tail _ hstep ih => exact (immediateParent_le hstep).trans ih

theorem operands_ne_nil_of_rootStep {N : MDNode} (h : G.rootStep N ≠ none) :
    G.operands N ≠ [] := by
  intro hnil
  unfold rootStep isRootNode at h
  simp [hnil] at h

theorem operands_ne_nil_of_chainStep {p : MDNode × ℕ} (h : G.chainStep p ≠ none) :
    G.operands p.1 ≠ [] := by
  intro hnil
  unfold chainStep immediateParent isScalarDesc isStructDesc at h
  simp [hnil] at h

/-! ## The walks -/

section
variable (hfin : {N | G.operands N ≠ []}.Finite)
include hfin

/-- The walk to the root ends exactly if it does not come back. -/
theorem exists_root_iff :
    (∃ fuel, (G.getTBAARootFromTag fuel Tag).isSome) ↔ ¬ G.RootLoops Tag := by
  unfold getTBAARootFromTag RootLoops
  cases G.nodeAt Tag 1 with
  | none => simp
  | some AccessTy =>
    simp only [scalarRoot_isSome_iff, Option.some.injEq, exists_eq_left']
    exact exists_follow_iff hfin fun N _ hN => operands_ne_nil_of_rootStep hN

/-- An ancestry chain ends exactly if it does not come back. -/
theorem exists_chain_iff {cur : MDNode × ℕ} :
    (∃ fuel, (G.ancestryChain fuel cur).isSome) ↔ ¬ G.ChainLoops cur := by
  simp only [ancestryChain_eq_follow]
  refine exists_follow_iff (hfin.prod (Set.finite_Iic cur.2)) fun p hp hnext => ?_
  exact ⟨operands_ne_nil_of_chainStep hnext, snd_le_of_reaches hp⟩

end

theorem getTBAARootFromTag_isSome_mono {fuel' : ℕ} (h : fuel ≤ fuel')
    (hs : (G.getTBAARootFromTag fuel Tag).isSome) :
    (G.getTBAARootFromTag fuel' Tag).isSome := by
  unfold getTBAARootFromTag at hs ⊢
  cases hN : G.nodeAt Tag 1 with
  | none => rfl
  | some AccessTy =>
    rw [hN] at hs
    exact scalarRoot_isSome_iff.2 (follow_mono h (scalarRoot_isSome_iff.1 hs))

theorem ancestryChain_isSome_mono {fuel' : ℕ} {cur : MDNode × ℕ} (h : fuel ≤ fuel')
    (hs : (G.ancestryChain fuel cur).isSome) : (G.ancestryChain fuel' cur).isSome := by
  rw [ancestryChain_eq_follow] at hs ⊢
  exact follow_mono h hs

/-- The roots are found and are the same exactly if both tags lead to one root. -/
theorem same_root_iff {oA oB : Option MDNode} (hA : G.getTBAARootFromTag fuel A = some oA)
    (hB : G.getTBAARootFromTag fuel B = some oB) :
    (∃ R, oA = some R ∧ oB = some R) ↔ ∃ R, G.Root A R ∧ G.Root B R := by
  refine exists_congr fun R => ?_
  rw [getTBAARootFromTag_spec hA, getTBAARootFromTag_spec hB]

/-- Within some fuel, the rule returns if the walks that it makes do. -/
theorem mayAliasByTBAAWithin_isSome_iff :
    (G.mayAliasByTBAAWithin fuel A B).isSome ↔
      (A ≠ B → ∀ a b, G.getBaseAndOffsetFromTag A = some a →
        G.getBaseAndOffsetFromTag B = some b → ¬ (a.1 = b.1 ∧ a.2 ≠ b.2) →
          ((G.getTBAARootFromTag fuel A).isSome ∧ (G.getTBAARootFromTag fuel B).isSome) ∧
            ((∃ R, G.Root A R ∧ G.Root B R) →
              (G.ancestryChain fuel a).isSome ∧ (G.ancestryChain fuel b).isSome)) := by
  unfold mayAliasByTBAAWithin
  by_cases hsame : A = B
  · simp [hsame]
  rw [if_neg hsame]
  cases hA : G.getBaseAndOffsetFromTag A with
  | none => simp
  | some a =>
    cases hB : G.getBaseAndOffsetFromTag B with
    | none => simp
    | some b =>
      have hall : ∀ p : MDNode × ℕ → MDNode × ℕ → Prop,
          (A ≠ B → ∀ a' b', some a = some a' → some b = some b' → p a' b') ↔ p a b := by
        intro p
        refine ⟨fun h => h hsame a b rfl rfl, ?_⟩
        rintro h - a' b' ⟨⟩ ⟨⟩
        exact h
      rw [hall fun a b => ¬ (a.1 = b.1 ∧ a.2 ≠ b.2) → _]
      dsimp only
      by_cases hother : a.1 = b.1 ∧ a.2 ≠ b.2
      · rw [if_pos hother]
        exact iff_of_true rfl fun h => absurd hother h
      rw [if_neg hother, imp_iff_right hother]
      cases hoA : G.getTBAARootFromTag fuel A with
      | none => simp
      | some oA =>
        cases hoB : G.getTBAARootFromTag fuel B with
        | none => simp
        | some oB =>
          rw [← same_root_iff hoA hoB]
          cases oA with
          | none => simp
          | some RA =>
            cases oB with
            | none => simp
            | some RB =>
              by_cases hroots : RA = RB
              · subst hroots
                cases G.ancestryChain fuel a <;> cases G.ancestryChain fuel b <;> simp
              · simp [hroots, Ne.symm hroots]

section
variable (hfin : {N | G.operands N ≠ []}.Finite)
include hfin

theorem noLoops_of_returns (h : G.Returns A B) : G.NoLoops A B := by
  unfold NoLoops
  simp only [← exists_root_iff hfin, ← exists_chain_iff hfin]
  obtain ⟨fuel, h⟩ := h
  intro hne a b ha hb hother
  obtain ⟨⟨hA, hB⟩, hchains⟩ := mayAliasByTBAAWithin_isSome_iff.1 h hne a b ha hb hother
  exact ⟨⟨⟨fuel, hA⟩, ⟨fuel, hB⟩⟩, fun hroot =>
    ⟨⟨fuel, (hchains hroot).1⟩, ⟨fuel, (hchains hroot).2⟩⟩⟩

theorem returns_of_noLoops (h : G.NoLoops A B) : G.Returns A B := by
  unfold NoLoops at h
  simp only [← exists_root_iff hfin, ← exists_chain_iff hfin] at h
  unfold Returns
  simp only [mayAliasByTBAAWithin_isSome_iff]
  by_cases hwalks : A ≠ B ∧ ∃ a b, G.getBaseAndOffsetFromTag A = some a ∧
      G.getBaseAndOffsetFromTag B = some b ∧ ¬ (a.1 = b.1 ∧ a.2 ≠ b.2)
  case neg =>
    refine ⟨0, fun hne a b ha hb hother => ?_⟩
    exact absurd ⟨hne, a, b, ha, hb, hother⟩ hwalks
  obtain ⟨hne, a, b, ha, hb, hother⟩ := hwalks
  obtain ⟨⟨⟨fA, hA⟩, ⟨fB, hB⟩⟩, hchains⟩ := h hne a b ha hb hother
  -- one fuel that is enough for all walks that are made
  obtain ⟨f, hf⟩ : ∃ f, (∃ R, G.Root A R ∧ G.Root B R) →
      (G.ancestryChain f a).isSome ∧ (G.ancestryChain f b).isSome := by
    by_cases hroot : ∃ R, G.Root A R ∧ G.Root B R
    · obtain ⟨⟨fa, hfa⟩, ⟨fb, hfb⟩⟩ := hchains hroot
      exact ⟨max fa fb, fun _ => ⟨ancestryChain_isSome_mono (le_max_left fa fb) hfa,
        ancestryChain_isSome_mono (le_max_right fa fb) hfb⟩⟩
    · exact ⟨0, fun h => absurd h hroot⟩
  refine ⟨fA + fB + f, fun _ a' b' ha' hb' _ => ?_⟩
  obtain rfl : a = a' := Option.some.inj (ha.symm.trans ha')
  obtain rfl : b = b' := Option.some.inj (hb.symm.trans hb')
  refine ⟨⟨?_, ?_⟩, fun hroot => ⟨?_, ?_⟩⟩
  · exact getTBAARootFromTag_isSome_mono (by omega) hA
  · exact getTBAARootFromTag_isSome_mono (by omega) hB
  · exact ancestryChain_isSome_mono (by omega) (hf hroot).1
  · exact ancestryChain_isSome_mono (by omega) (hf hroot).2

/-- **Termination.**  In a finite graph, the rule returns for two tags exactly if no walk
    that it makes for them comes back. -/
theorem returns_iff : G.Returns A B ↔ G.NoLoops A B :=
  ⟨noLoops_of_returns hfin, returns_of_noLoops hfin⟩

end

end

/-- The metadata of finitely many nodes on which no walk comes back, as it is handed to the
    alias analyses. -/
def toTBAAGraph (G : MDGraph) (hfin : {N | G.operands N ≠ []}.Finite)
    (hloops : ∀ A B, G.NoLoops A B) : TBAAGraph where
  toMDGraph := G
  fuel A B := Nat.find (returns_of_noLoops hfin (hloops A B))
  returns A B := Nat.find_spec (returns_of_noLoops hfin (hloops A B))

/-- Operands of a lower rank lead no walk back. -/
theorem noLoops_of_rank {G : MDGraph} {rank : MDNode → ℕ}
    (hfin : {N | G.operands N ≠ []}.Finite)
    (hrank : ∀ N P, .node P ∈ G.operands N → rank P < rank N) (A B : MDNode) : G.NoLoops A B :=
  noLoops_of_returns hfin ⟨_, mayAliasByTBAAWithin_isSome hrank A B⟩

/-! ## A type that is its own parent -/

/-- The scalar `0` is its own parent; `1` and `2` are tags of accesses to it, the second
    one of constant memory. -/
def ownParent : MDGraph where
  operands N := match N with
    | 0 => [.string "int", .node 0]
    | 1 => [.node 0, .node 0, .constInt 0]
    | 2 => [.node 0, .node 0, .constInt 0, .constInt 1]
    | _ => []

theorem finite_ownParent : {N | ownParent.operands N ≠ []}.Finite := by
  refine (Set.finite_Iic 2).subset fun N hN => ?_
  rcases N with _ | _ | _ | N
  · simp
  · simp
  · simp
  · exact absurd rfl hN

/-- The walk to the root does not end. -/
theorem rule_diverges :
    ¬ ∀ G : MDGraph, {N | G.operands N ≠ []}.Finite → ∀ A B, G.Returns A B := by
  intro h
  obtain ⟨fuel, hfuel⟩ := h ownParent finite_ownParent 1 2
  have hroot : ∀ fuel, ownParent.scalarRoot fuel 0 = none := by
    intro fuel
    induction fuel with
    | zero => rfl
    | succ fuel ih => exact ih
  have hA : (ownParent.getTBAARootFromTag fuel 1).isSome :=
    (mayAliasByTBAAWithin_isSome_iff.1 hfuel (by decide) (0, 0) (0, 0) rfl rfl (by simp)).1.1
  have hnone : ownParent.getTBAARootFromTag fuel 1 = none := hroot fuel
  rw [hnone] at hA
  cases hA

/-- The scalar `1` under the root `0`, and the tags `2` and `3` of accesses to it. -/
def rootedScalar : MDGraph where
  operands N := match N with
    | 0 => [.string "root"]
    | 1 => [.string "int", .node 0, .constInt 0]
    | 2 => [.node 1, .node 1, .constInt 0]
    | 3 => [.node 1, .node 1, .constInt 0, .constInt 1]
    | _ => []

theorem finite_rootedScalar : {N | rootedScalar.operands N ≠ []}.Finite := by
  refine (Set.finite_Iic 3).subset fun N hN => ?_
  rcases N with _ | _ | _ | _ | N
  · simp
  · simp
  · simp
  · simp
  · exact absurd rfl hN

theorem rank_rootedScalar (N P : MDNode) (h : .node P ∈ rootedScalar.operands N) :
    id P < id N := by
  rcases N with _ | _ | _ | _ | N
  · simp [rootedScalar] at h
  · obtain rfl : P = 0 := by simpa [rootedScalar] using h
    decide
  · obtain rfl : P = 1 := by simpa [rootedScalar] using h
    decide
  · obtain rfl : P = 1 := by simpa [rootedScalar] using h
    decide
  · simp [rootedScalar] at h

/-- For the two tags it walks to the root and up both chains. -/
theorem returns_rootedScalar : rootedScalar.Returns 2 3 :=
  (returns_iff finite_rootedScalar).2 (noLoops_of_rank finite_rootedScalar rank_rootedScalar 2 3)

end MDGraph

end TFA
