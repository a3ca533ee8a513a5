/-
  Tags from several LLVM contexts.

  Every input file is loaded in a context of its own, so one type description
  that two modules share is two graphs of metadata nodes with no node in common.

  * `StructuralCopy` is a tag `B'` with the same structure as `B`, owned by
    another context;
  * `mayAliasByTBAAWithin_cross`: on tags of two contexts the alias rule only asks
    whether both are well formed down to a root, and then answers "no alias";
  * `mayAliasByTBAAWithin_copy_iff`: hence the copy of a tag is answered like the tag
    itself exactly where the answer inside one context is already that.
-/
import TFA.TBAA.Metadata
import Mathlib.Data.Set.Function
import Mathlib.Tactic.Tauto

namespace TFA

namespace MDOperand

/-- Rename the nodes that an operand refers to. -/
def map (f : MDNode → MDNode) : MDOperand → MDOperand
  | .node N => .node (f N)
  | op => op

variable (f : MDNode → MDNode) (op : MDOperand)

@[simp] theorem isString_map : (op.map f).isString = op.isString := by cases op <;> rfl

@[simp] theorem asNode_map : (op.map f).asNode = op.asNode.map f := by cases op <;> rfl

@[simp] theorem asConstInt_map : (op.map f).asConstInt = op.asConstInt := by cases op <;> rfl

end MDOperand

namespace MDGraph

variable {Ctx : Type*} (G : MDGraph) (owner : MDNode → Ctx)

/-- The operands of a node are nodes of its own context. -/
def OwnsOperands : Prop := ∀ N P, .node P ∈ G.operands N → owner P = owner N

/-- `B'` is a structural copy of `B` in another context: `copy` maps the nodes
    below `B` one to one to nodes of the context of `B'`, operand by operand. -/
structure StructuralCopy (B B' : MDNode) where
  copied : Set MDNode
  copy : MDNode → MDNode
  start : B ∈ copied
  copy_start : copy B = B'
  below : ∀ N ∈ copied, ∀ P, .node P ∈ G.operands N → P ∈ copied
  operands : ∀ N ∈ copied, G.operands (copy N) = (G.operands N).map (MDOperand.map copy)
  injOn : Set.InjOn copy copied
  other : owner B ≠ owner B'

variable {G owner} {A B B' : MDNode}

/-! ## A copy has the shape of the original -/

section
variable (c : StructuralCopy G owner B B') {N : MDNode} (hN : N ∈ c.copied)
include hN

theorem isRootNode_copy : G.isRootNode (c.copy N) = G.isRootNode N := by
  unfold isRootNode
  rw [c.operands N hN]
  rcases G.operands N with - | ⟨a, - | ⟨b, l⟩⟩ <;> simp

theorem isScalarDesc_copy : G.isScalarDesc (c.copy N) = G.isScalarDesc N := by
  unfold isScalarDesc
  rw [c.operands N hN]
  rcases G.operands N with - | ⟨a, - | ⟨b, - | ⟨d, - | ⟨e, l⟩⟩⟩⟩ <;> simp

theorem nodeAt_copy (i : ℕ) : G.nodeAt (c.copy N) i = (G.nodeAt N i).map c.copy := by
  unfold nodeAt
  rw [c.operands N hN, List.getElem?_map]
  cases (G.operands N)[i]? <;> simp

theorem getBaseAndOffsetFromTag_copy :
    G.getBaseAndOffsetFromTag (c.copy N) =
      (G.getBaseAndOffsetFromTag N).map fun p => (c.copy p.1, p.2) := by
  unfold getBaseAndOffsetFromTag
  rw [c.operands N hN]
  rcases G.operands N with - | ⟨a, - | ⟨b, - | ⟨d, l⟩⟩⟩
  · rfl
  · rfl
  · rfl
  · simp only [List.map_cons, MDOperand.asNode_map, MDOperand.asConstInt_map]
    cases a.asNode <;> cases d.asConstInt <;> rfl

theorem scalarParent_copy {P : MDNode} (h : G.ScalarParent N P) :
    P ∈ c.copied ∧ G.ScalarParent (c.copy N) (c.copy P) := by
  obtain ⟨hroot, hsc, hP⟩ := h
  refine ⟨c.below N hN P (mem_operands_of_nodeAt hP), ?_, ?_, ?_⟩
  · rw [isRootNode_copy c hN]; exact hroot
  · rw [isScalarDesc_copy c hN]; exact hsc
  · rw [nodeAt_copy c hN, hP]; rfl

theorem of_scalarParent_copy {Q : MDNode} (h : G.ScalarParent (c.copy N) Q) :
    ∃ P, Q = c.copy P ∧ P ∈ c.copied ∧ G.ScalarParent N P := by
  obtain ⟨hroot, hsc, hQ⟩ := h
  rw [isRootNode_copy c hN] at hroot
  rw [isScalarDesc_copy c hN] at hsc
  rw [nodeAt_copy c hN] at hQ
  obtain ⟨P, hP, rfl⟩ := Option.map_eq_some_iff.1 hQ
  exact ⟨P, rfl, c.below N hN P (mem_operands_of_nodeAt hP), hroot, hsc, hP⟩

end

section
variable (c : StructuralCopy G owner B B')
include c

theorem root_copy : (∃ R, G.Root B' R) ↔ ∃ R, G.Root B R := by
  rw [← c.copy_start]
  constructor
  · rintro ⟨R, T, hT, hr, hR⟩
    rw [nodeAt_copy c c.start] at hT
    obtain ⟨S, hS, rfl⟩ := Option.map_eq_some_iff.1 hT
    have hmem := c.below B c.start S (mem_operands_of_nodeAt hS)
    obtain ⟨Q, rfl, hQ, hSQ⟩ : ∃ Q, R = c.copy Q ∧ Q ∈ c.copied ∧
        Relation.ReflTransGen G.ScalarParent S Q := by
      clear hR
      induction hr with
      | refl => exact ⟨S, rfl, hmem, .refl⟩
      | tail _ hstep ih =>
        obtain ⟨Q, rfl, hQ, hSQ⟩ := ih
        obtain ⟨P, rfl, hP, hQP⟩ := of_scalarParent_copy c hQ hstep
        exact ⟨P, rfl, hP, hSQ.tail hQP⟩
    rw [isRootNode_copy c hQ] at hR
    exact ⟨Q, S, hS, hSQ, hR⟩
  · rintro ⟨R, S, hS, hr, hR⟩
    have hmem := c.below B c.start S (mem_operands_of_nodeAt hS)
    have hcopy : R ∈ c.copied ∧ Relation.ReflTransGen G.ScalarParent (c.copy S) (c.copy R) := by
      clear hR
      induction hr with
      | refl => exact ⟨hmem, .refl⟩
      | tail _ hstep ih =>
        obtain ⟨hP, hQP⟩ := scalarParent_copy c ih.1 hstep
        exact ⟨hP, ih.2.tail hQP⟩
    refine ⟨c.copy R, c.copy S, ?_, hcopy.2, ?_⟩
    · rw [nodeAt_copy c c.start, hS]; rfl
    · rw [isRootNode_copy c hcopy.1]; exact hR

theorem bothRooted_copy : G.BothRooted A B' ↔ G.BothRooted A B := by
  have hroot := root_copy c
  have hbase := getBaseAndOffsetFromTag_copy c c.start
  rw [c.copy_start] at hbase
  constructor
  · rintro ⟨a, b', RA, R', ha, hb', hRA, hR'⟩
    obtain ⟨b, hb, -⟩ := Option.map_eq_some_iff.1 (hbase ▸ hb')
    obtain ⟨R, hR⟩ := hroot.1 ⟨R', hR'⟩
    exact ⟨a, b, RA, R, ha, hb, hRA, hR⟩
  · rintro ⟨a, b, RA, R, ha, hb, hRA, hR⟩
    obtain ⟨R', hR'⟩ := hroot.2 ⟨R, hR⟩
    exact ⟨a, _, RA, R', ha, by rw [hbase, hb]; rfl, hRA, hR'⟩

end

/-! ## Tags of two contexts -/

theorem owner_base (hown : G.OwnsOperands owner) {a : MDNode × ℕ}
    (h : G.getBaseAndOffsetFromTag A = some a) : owner a.1 = owner A := by
  unfold getBaseAndOffsetFromTag at h
  split at h
  case h_1 base _ offset _ hops =>
    split at h
    case h_1 Base Offset hb _ =>
      cases h
      refine hown A _ ?_
      rw [hops, MDOperand.asNode_eq_some.1 hb]; simp
    · cases h
  · cases h

theorem owner_root (hown : G.OwnsOperands owner) {R : MDNode} (h : G.Root A R) :
    owner R = owner A := by
  obtain ⟨T, hT, hr, -⟩ := h
  have hstart := hown A T (mem_operands_of_nodeAt hT)
  induction hr with
  | refl => exact hstart
  | tail _ hstep ih => exact (hown _ _ (mem_operands_of_nodeAt hstep.2.2)).trans ih

theorem bothRooted_of_unrelated (h : G.Unrelated A B) : G.BothRooted A B := by
  obtain ⟨a, b, RA, RB, ha, hb, hRA, hRB, -⟩ := h
  exact ⟨a, b, RA, RB, ha, hb, hRA, hRB⟩

/-- **Across contexts.**  No node is shared, so the rule can only answer "no
    alias", and does so as soon as both tags are well formed. -/
theorem mayAliasByTBAAWithin_cross (hown : G.OwnsOperands owner) (hAB : owner A ≠ owner B)
    {fuel : ℕ} {r : Bool} (h : G.mayAliasByTBAAWithin fuel A B = some r) :
    r = false ↔ G.BothRooted A B := by
  rw [mayAliasByTBAAWithin_eq_false h]
  constructor
  · rintro ⟨-, ⟨a, b, ha, hb, hbase, -⟩ | hun⟩
    · refine absurd ?_ hAB
      rw [← owner_base hown ha, ← owner_base hown hb, hbase]
    · exact bothRooted_of_unrelated hun
  · rintro ⟨a, b, RA, RB, ha, hb, hRA, hRB⟩
    refine ⟨fun h => hAB (h ▸ rfl), Or.inr ⟨a, b, RA, RB, ha, hb, hRA, hRB, Or.inl fun hR => ?_⟩⟩
    exact hAB (by rw [← owner_root hown hRA, ← owner_root hown hRB, hR])

variable (G) in
/-- Two tags of one context on which the rule answers as it would across
    contexts: well-formed tags that are kept apart by offset, root or ancestry,
    or tags of which one is malformed and that no offset keeps apart. -/
def AnswersAsAcross (A X : MDNode) : Prop :=
  (G.BothRooted A X ∧ A ≠ X ∧ (G.OtherOffset A X ∨ G.Unrelated A X)) ∨
    (¬ G.BothRooted A X ∧ (A = X ∨ ¬ G.OtherOffset A X))

theorem answersAsAcross_iff {fuel : ℕ} {r : Bool} (h : G.mayAliasByTBAAWithin fuel A B = some r) :
    G.AnswersAsAcross A B ↔ (r = false ↔ G.BothRooted A B) := by
  rw [mayAliasByTBAAWithin_eq_false h]
  unfold AnswersAsAcross
  by_cases hroot : G.BothRooted A B
  · simp [hroot]
  · have hrelated : ¬ G.Unrelated A B := fun hun => hroot (bothRooted_of_unrelated hun)
    simp [hroot, hrelated, or_iff_not_imp_left]

/-- The alias rule answers a tag of another module like the copy of that tag,
    exactly for the tags `A` of neither context and for those on which the rule
    inside their own context answers as it does across contexts. -/
theorem mayAliasByTBAAWithin_copy_iff (hown : G.OwnsOperands owner)
    (c : StructuralCopy G owner B B') {fuel fuel' : ℕ} {r r' : Bool}
    (h : G.mayAliasByTBAAWithin fuel A B = some r)
    (h' : G.mayAliasByTBAAWithin fuel' A B' = some r') :
    r' = r ↔ (owner A = owner B → G.AnswersAsAcross A B) ∧
      (owner A = owner B' → G.AnswersAsAcross A B') := by
  have hroot := bothRooted_copy (A := A) c
  have hother := c.other
  have heq : r' = r ↔ (r' = false ↔ r = false) := by cases r <;> cases r' <;> simp
  rw [heq, answersAsAcross_iff h, answersAsAcross_iff h']
  by_cases hB : owner A = owner B
  · have hB' : owner A ≠ owner B' := fun h => hother (hB.symm.trans h)
    rw [mayAliasByTBAAWithin_cross hown hB' h', imp_iff_right hB,
      and_iff_left fun h => absurd h hB', hroot]
    exact iff_comm
  · rw [mayAliasByTBAAWithin_cross hown hB h, and_iff_right fun h => absurd h hB]
    by_cases hB' : owner A = owner B'
    · rw [imp_iff_right hB', hroot]
    · rw [mayAliasByTBAAWithin_cross hown hB' h']
      exact iff_of_true hroot fun h => absurd h hB'

/-! ## One description in two modules -/

/-- Two modules that both describe one pointer access: nodes `1`, `2`, `3` and
    their copies `11`, `12`, `13` (root, scalar type, access tag). -/
def twoModules : MDGraph where
  operands
    | 1 | 11 => [.string "Simple C/C++ TBAA"]
    | 2 => [.string "any pointer", .node 1, .constInt 0]
    | 12 => [.string "any pointer", .node 11, .constInt 0]
    | 3 => [.node 2, .node 2, .constInt 0]
    | 13 => [.node 12, .node 12, .constInt 0]
    | _ => []

/-- The nodes above `10` belong to the second module. -/
def inSecondModule (N : MDNode) : Bool := decide (10 < N)

theorem twoModules_owns : twoModules.OwnsOperands inSecondModule := by
  intro N P h
  simp only [twoModules] at h
  split at h <;> simp at h <;> subst h <;> rfl

/-- The tag of the second module is a copy of the tag of the first. -/
def twoModulesCopy : twoModules.StructuralCopy inSecondModule 3 13 where
  copied := {1, 2, 3}
  copy N := N + 10
  start := by simp
  copy_start := rfl
  below := by rintro N (rfl | rfl | rfl) P hP <;> simp [twoModules] at hP <;> simp [hP]
  operands := by rintro N (rfl | rfl | rfl) <;> rfl
  injOn := fun N _ M _ h => Nat.add_right_cancel h
  other := by decide

/-- A tag is kept apart from its own copy. -/
theorem mayAliasByTBAA_ne_copy :
    ¬ ∀ (G : MDGraph) (owner : MDNode → Bool) (A B B' : MDNode) (fuel fuel' : ℕ) (r r' : Bool),
      G.OwnsOperands owner → Nonempty (G.StructuralCopy owner B B') →
      G.mayAliasByTBAAWithin fuel A B = some r → G.mayAliasByTBAAWithin fuel' A B' = some r' →
      r' = r := by
  intro h
  have := h twoModules inSecondModule 3 3 13 4 4 true false twoModules_owns ⟨twoModulesCopy⟩
    (by decide) (by decide)
  cases this

theorem mayAliasByTBAA_copy_iff_twoModules :
    false = true ↔ (inSecondModule 3 = inSecondModule 3 → twoModules.AnswersAsAcross 3 3) ∧
      (inSecondModule 3 = inSecondModule 13 → twoModules.AnswersAsAcross 3 13) :=
  mayAliasByTBAAWithin_copy_iff twoModules_owns twoModulesCopy
    (show twoModules.mayAliasByTBAAWithin 4 3 3 = some true by decide)
    (show twoModules.mayAliasByTBAAWithin 4 3 13 = some false by decide)

end MDGraph

end TFA
