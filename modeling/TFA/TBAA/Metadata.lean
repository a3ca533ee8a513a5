/-
  Type-based alias analysis metadata (`TBAATools.cc`).

  A metadata node is an address; what it holds is its operand list.  Access
  tags, scalar descriptors, struct descriptors and roots are recognised by the
  shape of their operands.

  * `mayAliasByTBAAWithin` is the struct-path alias rule.  The two walks it makes (to
    the root of an access type, up the parents of a base type) follow operands
    for as long as these lead on, so they take fuel and may run out of it on a
    cyclic graph;
  * `Root` and `Ancestor` say what the walks compute, and `mayAliasByTBAAWithin_eq`
    what the rule answers whenever it returns;
  * a `TBAAGraph` is a graph on which the rule returns for all tags, as it does
    on an acyclic one (`TBAAGraph.ofRank`); on it `mayAliasByTBAA` is total.
-/
import Mathlib.Logic.Relation
import Mathlib.Order.Basic

namespace TFA

/-- The address of an `MDNode`. -/
abbrev MDNode := ℕ

/-- An operand of an `MDNode`, as far as TBAA looks at it. -/
inductive MDOperand where
  /-- an `MDString` -/
  | string (s : String)
  /-- an `MDNode` -/
  | node (N : MDNode)
  /-- a `ConstantInt` behind a `ConstantAsMetadata`, by its `getZExtValue` -/
  | constInt (val : ℕ)
  /-- anything else -/
  | other
deriving DecidableEq

namespace MDOperand

/-- `isa<MDString>`. -/
def isString : MDOperand → Bool
  | .string _ => true
  | _ => false

/-- `dyn_cast<MDNode>`. -/
def asNode : MDOperand → Option MDNode
  | .node N => some N
  | _ => none

/-- `mdconst::dyn_extract<ConstantInt>` and its `getZExtValue`. -/
def asConstInt : MDOperand → Option ℕ
  | .constInt val => some val
  | _ => none

@[simp] theorem asNode_eq_some {op : MDOperand} {N : MDNode} :
    op.asNode = some N ↔ op = .node N := by
  cases op <;> simp [asNode]

end MDOperand

/-- The metadata nodes of the loaded modules. -/
structure MDGraph where
  operands : MDNode → List MDOperand

namespace MDGraph

variable (G : MDGraph)

/-! ## Shapes of nodes -/

/-- Root node: no operands, or exactly one `MDString`. -/
def isRootNode (N : MDNode) : Bool :=
  match G.operands N with
  | [] => true
  | [op] => op.isString
  | _ => false

/-- Scalar type descriptor: a name, a parent, and perhaps one more operand. -/
def isScalarDesc (N : MDNode) : Bool :=
  match G.operands N with
  | [name, parent] | [name, parent, _] => name.isString && parent.asNode.isSome
  | _ => false

/-- Struct type descriptor: a name, and `(fieldTy, fieldOffset)` pairs. -/
def isStructDesc (N : MDNode) : Bool :=
  match G.operands N with
  | [] => false
  | name :: fields => decide (1 < fields.length + 1) && decide ((fields.length + 1) % 2 = 1) &&
      name.isString

/-- `dyn_cast<MDNode>` of the operand at `i`. -/
def nodeAt (N : MDNode) (i : ℕ) : Option MDNode := (G.operands N)[i]?.bind MDOperand.asNode

/-- The base type and the offset of an access tag `(BaseTy, AccessTy, Offset, [const])`. -/
def getBaseAndOffsetFromTag (Tag : MDNode) : Option (MDNode × ℕ) :=
  match G.operands Tag with
  | base :: _ :: offset :: _ =>
    match base.asNode, offset.asConstInt with
    | some Base, some Offset => some (Base, Offset)
    | _, _ => none
  | _ => none

/-! ## The two walks -/

/-- Follow scalar parents until a root; `some none` is the source's `nullptr`. -/
def scalarRoot : ℕ → MDNode → Option (Option MDNode)
  | 0, _ => none
  | fuel + 1, Cur =>
    if G.isRootNode Cur then some (some Cur)
    else if G.isScalarDesc Cur then
      match G.nodeAt Cur 1 with
      | some Parent => scalarRoot fuel Parent
      | none => some none
    else some none

/-- The root of an access tag, from its access type. -/
def getTBAARootFromTag (fuel : ℕ) (Tag : MDNode) : Option (Option MDNode) :=
  match G.nodeAt Tag 1 with
  | some AccessTy => G.scalarRoot fuel AccessTy
  | none => some none

/-- The loop over the `(fieldTy, fieldOffset)` pairs: the last field at or
    before `Offset`, skipping pairs of another shape. -/
def chooseField (Offset : ℕ) : List MDOperand → Option (MDNode × ℕ) → Option (MDNode × ℕ)
  | ty :: off :: rest, chosen =>
    match ty.asNode, off.asConstInt with
    | some FieldTy, some FieldOff =>
      if Offset < FieldOff then chosen else chooseField Offset rest (some (FieldTy, FieldOff))
    | _, _ => chooseField Offset rest chosen
  | _, chosen => chosen

/-- `ImmediateParent(BaseTy, Offset)`: the parent of a scalar at offset `0`, the
    field of a struct that holds the offset. -/
def immediateParent (BaseTy : MDNode) (Offset : ℕ) : Option (MDNode × ℕ) :=
  if G.isScalarDesc BaseTy then
    if Offset ≠ 0 then none else (G.nodeAt BaseTy 1).map fun Parent => (Parent, 0)
  else if G.isStructDesc BaseTy then
    (chooseField Offset (G.operands BaseTy).tail none).map fun p => (p.1, Offset - p.2)
  else none

/-- The ancestry chain of `(CurBase, CurOff)`, itself first. -/
def ancestryChain : ℕ → MDNode × ℕ → Option (List (MDNode × ℕ))
  | 0, _ => none
  | fuel + 1, cur =>
    match G.immediateParent cur.1 cur.2 with
    | none => some [cur]
    | some parent => (ancestryChain fuel parent).map (cur :: ·)

/-- The struct-path alias rule on two access tags; `none` when a walk has not
    ended within the fuel. -/
def mayAliasByTBAAWithin (fuel : ℕ) (A B : MDNode) : Option Bool :=
  if A = B then some true
  else
    match G.getBaseAndOffsetFromTag A, G.getBaseAndOffsetFromTag B with
    | some (BaseA, OffA), some (BaseB, OffB) =>
      if BaseA = BaseB ∧ OffA ≠ OffB then some false
      else do
        let RootA ← G.getTBAARootFromTag fuel A
        let RootB ← G.getTBAARootFromTag fuel B
        match RootA, RootB with
        | some RootA, some RootB =>
          if RootA ≠ RootB then some false
          else do
            let ChainA ← G.ancestryChain fuel (BaseA, OffA)
            let ChainB ← G.ancestryChain fuel (BaseB, OffB)
            some (decide ((BaseA, OffA) ∈ ChainB) || decide ((BaseB, OffB) ∈ ChainA))
        | _, _ => some true
    | _, _ => some true

/-! ## What the walks compute -/

/-- `P` is the parent of the scalar descriptor `N`. -/
def ScalarParent (N P : MDNode) : Prop :=
  G.isRootNode N = false ∧ G.isScalarDesc N = true ∧ G.nodeAt N 1 = some P

/-- `R` is the root that the access type of `Tag` leads to. -/
def Root (Tag R : MDNode) : Prop :=
  ∃ AccessTy, G.nodeAt Tag 1 = some AccessTy ∧
    Relation.ReflTransGen G.ScalarParent AccessTy R ∧ G.isRootNode R = true

/-- `q` is on the ancestry chain of `p`. -/
def Ancestor (p q : MDNode × ℕ) : Prop :=
  Relation.ReflTransGen (fun p q => G.immediateParent p.1 p.2 = some q) p q

section
variable {G}

theorem scalarRoot_spec {fuel : ℕ} {N : MDNode} {o : Option MDNode}
    (h : G.scalarRoot fuel N = some o) (R : MDNode) :
    o = some R ↔ Relation.ReflTransGen G.ScalarParent N R ∧ G.isRootNode R = true := by
  induction fuel generalizing N with
  | zero => simp [scalarRoot] at h
  | succ fuel ih =>
    -- a node that is a root, or that has no scalar parent, ends every chain
    have hend : (∀ P, ¬ G.ScalarParent N P) →
        (Relation.ReflTransGen G.ScalarParent N R ↔ N = R) := fun hN =>
      ⟨fun hr => (Relation.ReflTransGen.cases_head hr).resolve_right
        fun ⟨P, hP, _⟩ => hN P hP, fun hr => hr ▸ .refl⟩
    simp only [scalarRoot] at h
    split at h
    case isTrue hroot =>
      rw [hend fun P hP => absurd hroot (by simp [hP.1]), ← Option.some.inj h]
      constructor
      · rintro ⟨⟩; exact ⟨rfl, hroot⟩
      · rintro ⟨rfl, _⟩; rfl
    case isFalse hroot =>
      have hdead : (∀ P, ¬ G.ScalarParent N P) → (some none = some o) →
          (o = some R ↔ Relation.ReflTransGen G.ScalarParent N R ∧ G.isRootNode R = true) := by
        intro hN ho
        rw [hend hN, ← Option.some.inj ho]
        refine ⟨(nomatch ·), fun hc => absurd hc.2 ?_⟩
        rw [← hc.1]; exact hroot
      split at h
      case isTrue hsc =>
        split at h
        case h_1 P hP =>
          rw [ih h]
          constructor
          · exact fun ⟨hr, hR⟩ => ⟨.head ⟨by simpa using hroot, hsc, hP⟩ hr, hR⟩
          · rintro ⟨hr, hR⟩
            rcases Relation.ReflTransGen.cases_head hr with rfl | ⟨Q, hQ, hQR⟩
            · exact absurd hR hroot
            · rw [Option.some.inj (hP.symm.trans hQ.2.2)]; exact ⟨hQR, hR⟩
        case h_2 hP => exact hdead (fun P hQ => by have := hQ.2.2; simp [hP] at this) h
      case isFalse hsc => exact hdead (fun P hQ => hsc hQ.2.1) h

theorem getTBAARootFromTag_spec {fuel : ℕ} {Tag : MDNode} {o : Option MDNode}
    (h : G.getTBAARootFromTag fuel Tag = some o) (R : MDNode) : o = some R ↔ G.Root Tag R := by
  unfold getTBAARootFromTag at h
  unfold Root
  split at h
  case h_1 AccessTy hA => rw [scalarRoot_spec h]; simp [hA]
  case h_2 hA => rw [← Option.some.inj h]; simp [hA]

theorem ancestryChain_spec {fuel : ℕ} {p : MDNode × ℕ} {l : List (MDNode × ℕ)}
    (h : G.ancestryChain fuel p = some l) (q : MDNode × ℕ) : q ∈ l ↔ G.Ancestor p q := by
  induction fuel generalizing p l with
  | zero => simp [ancestryChain] at h
  | succ fuel ih =>
    simp only [ancestryChain] at h
    unfold Ancestor at ih ⊢
    rw [Relation.ReflTransGen.cases_head_iff]
    split at h
    case h_1 hp => rw [← Option.some.inj h]; simp [hp, eq_comm]
    case h_2 parent hp =>
      obtain ⟨l', hl', rfl⟩ := Option.map_eq_some_iff.1 h
      rw [List.mem_cons, ih hl']
      simp [hp, eq_comm]

/-! ## What the rule answers -/

variable (G) in
/-- Both tags parse, and both lead to a root. -/
def BothRooted (A B : MDNode) : Prop :=
  ∃ a b RA RB, G.getBaseAndOffsetFromTag A = some a ∧ G.getBaseAndOffsetFromTag B = some b ∧
    G.Root A RA ∧ G.Root B RB

variable (G) in
/-- The two tags access different offsets of one base type. -/
def OtherOffset (A B : MDNode) : Prop :=
  ∃ a b, G.getBaseAndOffsetFromTag A = some a ∧ G.getBaseAndOffsetFromTag B = some b ∧
    a.1 = b.1 ∧ a.2 ≠ b.2

variable (G) in
/-- Roots differ, or neither access is an ancestor of the other. -/
def Unrelated (A B : MDNode) : Prop :=
  ∃ a b RA RB, G.getBaseAndOffsetFromTag A = some a ∧ G.getBaseAndOffsetFromTag B = some b ∧
    G.Root A RA ∧ G.Root B RB ∧ (RA ≠ RB ∨ ¬ G.Ancestor a b ∧ ¬ G.Ancestor b a)

/-- **The rule.**  Whenever it returns, the answer is "no alias" exactly for
    two tags that access different offsets of one base type, or are unrelated. -/
theorem mayAliasByTBAAWithin_eq_false {fuel : ℕ} {A B : MDNode} {r : Bool}
    (h : G.mayAliasByTBAAWithin fuel A B = some r) :
    r = false ↔ A ≠ B ∧ (G.OtherOffset A B ∨ G.Unrelated A B) := by
  unfold mayAliasByTBAAWithin at h
  split at h
  case isTrue hAB => simp [← Option.some.inj h, hAB]
  case isFalse hAB =>
    split at h
    case h_2 hbad =>
      have hno : ∀ a b, G.getBaseAndOffsetFromTag A = some a →
          G.getBaseAndOffsetFromTag B ≠ some b := fun a b ha hb => hbad _ _ _ _ ha hb
      rw [← Option.some.inj h]
      constructor
      · intro hc; cases hc
      · rintro ⟨-, ⟨a, b, ha, hb, -⟩ | ⟨a, b, _, _, ha, hb, -⟩⟩ <;> exact absurd hb (hno a b ha)
    case h_1 BaseA OffA BaseB OffB hA hB =>
      have hother : G.OtherOffset A B ↔ BaseA = BaseB ∧ OffA ≠ OffB := by
        unfold OtherOffset; simp [hA, hB]
      split at h
      case isTrue hoff => simp [← Option.some.inj h, hAB, hother.2 hoff]
      case isFalse hoff =>
        simp only [Option.bind_eq_bind, Option.bind_eq_some_iff] at h
        obtain ⟨oA, hoA, oB, hoB, h⟩ := h
        have hRA := getTBAARootFromTag_spec hoA
        have hRB := getTBAARootFromTag_spec hoB
        rw [hother, or_iff_right hoff]
        split at h
        case h_2 hnone =>
          rw [← Option.some.inj h]
          constructor
          · intro hc; cases hc
          · rintro ⟨-, a, b, RA, RB, -, -, hA', hB', -⟩
            exact absurd ((hRB RB).2 hB') (hnone RA RB ((hRA RA).2 hA'))
        case h_1 RA RB =>
          have hun : G.Unrelated A B ↔ RA ≠ RB ∨ ¬ G.Ancestor (BaseA, OffA) (BaseB, OffB) ∧
              ¬ G.Ancestor (BaseB, OffB) (BaseA, OffA) := by
            unfold Unrelated; simp [hA, hB, ← hRA, ← hRB]
          rw [hun]
          split at h
          case isTrue hR => simp [← Option.some.inj h, hAB, hR]
          case isFalse hR =>
            simp only [Option.bind_eq_some_iff] at h
            obtain ⟨lA, hlA, lB, hlB, h⟩ := h
            rw [← Option.some.inj h]
            simp [ancestryChain_spec hlA, ancestryChain_spec hlB, hAB, hR, and_comm]

theorem OtherOffset.symm {A B : MDNode} (h : G.OtherOffset A B) : G.OtherOffset B A := by
  obtain ⟨a, b, ha, hb, h1, h2⟩ := h
  exact ⟨b, a, hb, ha, h1.symm, h2.symm⟩

theorem Unrelated.symm {A B : MDNode} (h : G.Unrelated A B) : G.Unrelated B A := by
  obtain ⟨a, b, RA, RB, ha, hb, hRA, hRB, h⟩ := h
  exact ⟨b, a, RB, RA, hb, ha, hRB, hRA, h.imp Ne.symm And.symm⟩

end

/-! ## Termination on acyclic graphs -/

section
variable {G} {rank : MDNode → ℕ}

theorem mem_operands_of_nodeAt {N P : MDNode} {i : ℕ} (h : G.nodeAt N i = some P) :
    .node P ∈ G.operands N := by
  obtain ⟨op, hop, hP⟩ := Option.bind_eq_some_iff.1 h
  rw [MDOperand.asNode_eq_some] at hP
  exact hP ▸ List.mem_of_getElem? hop

theorem mem_of_chooseField {Offset : ℕ} {l : List MDOperand} {chosen : Option (MDNode × ℕ)}
    {p : MDNode × ℕ} (h : chooseField Offset l chosen = some p) :
    .node p.1 ∈ l ∨ chosen = some p := by
  induction l, chosen using chooseField.induct Offset with
  | case1 ty off rest chosen FieldTy FieldOff hoff hty hlt =>
    simp only [chooseField, hty, hoff, hlt, if_true] at h
    exact Or.inr h
  | case2 ty off rest chosen FieldTy FieldOff hoff hty hlt ih =>
    simp only [chooseField, hty, hoff, hlt, if_false] at h
    rcases ih h with h | h
    · exact Or.inl (by simp [h])
    · rw [← Option.some.inj h, MDOperand.asNode_eq_some.1 hty]; exact Or.inl (by simp)
  | case3 ty off rest chosen hbad ih =>
    rw [chooseField] at h
    split at h
    · exact absurd ‹_› (hbad _ _ ‹_›)
    · exact (ih h).imp_left fun h => by simp [h]
  | case4 l chosen hl =>
    have : chooseField Offset l chosen = chosen := by
      unfold chooseField; split
      · exact absurd rfl (hl _ _ _)
      · rfl
    exact Or.inr (this ▸ h)

theorem mem_operands_of_immediateParent {N P : MDNode} {o o' : ℕ}
    (h : G.immediateParent N o = some (P, o')) : .node P ∈ G.operands N := by
  unfold immediateParent at h
  split at h
  · split at h
    · cases h
    · obtain ⟨Q, hQ, hP⟩ := Option.map_eq_some_iff.1 h
      cases hP; exact mem_operands_of_nodeAt hQ
  · split at h
    · obtain ⟨q, hq, hP⟩ := Option.map_eq_some_iff.1 h
      cases hP
      rcases mem_of_chooseField hq with hq | hq
      · exact List.mem_of_mem_tail hq
      · cases hq
    · cases h

variable (hrank : ∀ N P, .node P ∈ G.operands N → rank P < rank N)
include hrank

theorem scalarRoot_isSome {fuel : ℕ} {N : MDNode} (h : rank N < fuel) :
    (G.scalarRoot fuel N).isSome := by
  induction fuel generalizing N with
  | zero => omega
  | succ fuel ih =>
    simp only [scalarRoot]
    split
    · rfl
    · split
      · split
        case h_1 P hP =>
          have := hrank N P (mem_operands_of_nodeAt hP)
          exact ih (by omega)
        · rfl
      · rfl

theorem getTBAARootFromTag_isSome {fuel : ℕ} {Tag : MDNode} (h : rank Tag ≤ fuel) :
    (G.getTBAARootFromTag fuel Tag).isSome := by
  unfold getTBAARootFromTag
  split
  case h_1 AccessTy hA =>
    have := hrank Tag AccessTy (mem_operands_of_nodeAt hA)
    exact scalarRoot_isSome hrank (by omega)
  · rfl

theorem ancestryChain_isSome {fuel : ℕ} {p : MDNode × ℕ} (h : rank p.1 < fuel) :
    (G.ancestryChain fuel p).isSome := by
  induction fuel generalizing p with
  | zero => omega
  | succ fuel ih =>
    simp only [ancestryChain]
    split
    · rfl
    case h_2 q hq =>
      have := hrank p.1 q.1 (mem_operands_of_immediateParent hq)
      rw [Option.isSome_map]; exact ih (by omega)

theorem mayAliasByTBAAWithin_isSome (A B : MDNode) :
    (G.mayAliasByTBAAWithin (rank A + rank B) A B).isSome := by
  have hbase : ∀ {T N o}, G.getBaseAndOffsetFromTag T = some (N, o) → rank N < rank T := by
    intro T N o h
    refine hrank T N ?_
    unfold getBaseAndOffsetFromTag at h
    split at h
    case h_1 base _ offset _ hops =>
      split at h
      case h_1 Base Offset hb ho =>
        cases h; rw [hops, MDOperand.asNode_eq_some.1 hb]; simp
      · cases h
    · cases h
  obtain ⟨oA, hoA⟩ : ∃ o, G.getTBAARootFromTag (rank A + rank B) A = some o :=
    Option.isSome_iff_exists.1 (getTBAARootFromTag_isSome hrank (Nat.le_add_right _ _))
  obtain ⟨oB, hoB⟩ : ∃ o, G.getTBAARootFromTag (rank A + rank B) B = some o :=
    Option.isSome_iff_exists.1 (getTBAARootFromTag_isSome hrank (Nat.le_add_left _ _))
  unfold mayAliasByTBAAWithin
  split
  · rfl
  · split
    case h_1 BaseA OffA BaseB OffB hA hB =>
      have hA := hbase hA
      have hB := hbase hB
      obtain ⟨lA, hlA⟩ : ∃ l, G.ancestryChain (rank A + rank B) (BaseA, OffA) = some l :=
        Option.isSome_iff_exists.1 (ancestryChain_isSome hrank (by simp only; omega))
      obtain ⟨lB, hlB⟩ : ∃ l, G.ancestryChain (rank A + rank B) (BaseB, OffB) = some l :=
        Option.isSome_iff_exists.1 (ancestryChain_isSome hrank (by simp only; omega))
      split
      · rfl
      · simp only [hoA, hoB, hlA, hlB, Option.bind_eq_bind, Option.bind_some]
        split
        · split <;> rfl
        · rfl
    · rfl

end

end MDGraph

/-! ## Graphs on which the rule returns -/

/-- A metadata graph on which the alias rule returns for every two tags. -/
structure TBAAGraph extends MDGraph where
  fuel : MDNode → MDNode → ℕ
  returns : ∀ A B, (toMDGraph.mayAliasByTBAAWithin (fuel A B) A B).isSome

namespace TBAAGraph

/-- An acyclic graph, given by a rank that decreases along operands. -/
def ofRank (G : MDGraph) (rank : MDNode → ℕ)
    (hrank : ∀ N P, .node P ∈ G.operands N → rank P < rank N) : TBAAGraph where
  toMDGraph := G
  fuel A B := rank A + rank B
  returns := MDGraph.mayAliasByTBAAWithin_isSome hrank

/-- The graph of modules without metadata. -/
def empty : TBAAGraph := ofRank ⟨fun _ => []⟩ (fun _ => 0) (by simp)

variable (G : TBAAGraph)

/-- `mayAliasByTBAA`: a missing tag may alias with everything. -/
def mayAliasByTBAA : Option MDNode → Option MDNode → Bool
  | some A, some B => (G.mayAliasByTBAAWithin (G.fuel A B) A B).get (G.returns A B)
  | _, _ => true

theorem mayAliasByTBAA_eq_false {A B : MDNode} :
    G.mayAliasByTBAA (some A) (some B) = false ↔
      A ≠ B ∧ (G.OtherOffset A B ∨ G.Unrelated A B) :=
  MDGraph.mayAliasByTBAAWithin_eq_false (Option.some_get (G.returns A B)).symm

@[simp] theorem mayAliasByTBAA_none_left (B : Option MDNode) :
    G.mayAliasByTBAA none B = true := by cases B <;> rfl

@[simp] theorem mayAliasByTBAA_none_right (A : Option MDNode) :
    G.mayAliasByTBAA A none = true := by cases A <;> rfl

@[simp] theorem mayAliasByTBAA_self (A : Option MDNode) : G.mayAliasByTBAA A A = true := by
  cases A with
  | none => rfl
  | some A => rw [← Bool.not_eq_false, mayAliasByTBAA_eq_false]; exact fun h => h.1 rfl

theorem mayAliasByTBAA_comm (A B : Option MDNode) :
    G.mayAliasByTBAA A B = G.mayAliasByTBAA B A := by
  cases A <;> cases B <;> try simp
  rw [Bool.eq_iff_iff, ← not_iff_not]
  simp only [Bool.not_eq_true, mayAliasByTBAA_eq_false]
  exact ⟨fun h => ⟨h.1.symm, h.2.imp .symm .symm⟩, fun h => ⟨h.1.symm, h.2.imp .symm .symm⟩⟩

end TBAAGraph

end TFA
