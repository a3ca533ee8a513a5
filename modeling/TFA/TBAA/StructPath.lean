/-
  The struct-path rule (`TBAATools.cc`).

  A descriptor is a root, a scalar or a struct; the code tells them apart by the shape of
  their operands.  A struct with one field has the shape of a scalar, with its offset in the
  place of the scalar's third operand.

  * `TypeGraph`: an acyclic graph of well-formed descriptors; `TypeGraph.parent` is the
    parent that the rule speaks of, `MDGraph.chainStep` the one that the code takes;
  * `Parts`: on the way from one access to another, the two part at a struct with one field;
  * `structPathRule_iff`: the code answers as the rule exactly if they do not part.
-/
import TFA.TBAA.Termination

namespace TFA

open Chain

/-- A type descriptor. -/
inductive TypeDesc where
  | root (name : Option String)
  | scalar (name : String) (parent : MDNode) (offset : Option ℕ)
  | struct (name : String) (fields : List (MDNode × ℕ))

/-- The operands of the fields. -/
def fieldOperands (fields : List (MDNode × ℕ)) : List MDOperand :=
  fields.flatMap fun f => [.node f.1, .constInt f.2]

/-- The operands of a descriptor. -/
def TypeDesc.operands : TypeDesc → List MDOperand
  | .root none => []
  | .root (some name) => [.string name]
  | .scalar name parent none => [.string name, .node parent]
  | .scalar name parent (some offset) => [.string name, .node parent, .constInt offset]
  | .struct name fields => .string name :: fieldOperands fields

/-- An acyclic graph of well-formed type descriptors, among other nodes. -/
structure TypeGraph extends MDGraph where
  desc : MDNode → Option TypeDesc
  operands_eq : ∀ N d, desc N = some d → operands N = d.operands
  rank : MDNode → ℕ
  rank_lt : ∀ N P, .node P ∈ operands N → rank P < rank N
  /-- the parent of a scalar is a scalar or a root -/
  parent_desc : ∀ N name P offset, desc N = some (.scalar name P offset) →
    (∃ name, desc P = some (.root name)) ∨ ∃ name Q offset, desc P = some (.scalar name Q offset)
  fields_ne_nil : ∀ N name fields, desc N = some (.struct name fields) → fields ≠ []
  sorted : ∀ N name fields, desc N = some (.struct name fields) →
    fields.Pairwise fun f f' => f.2 ≤ f'.2
  field_desc : ∀ N name fields, desc N = some (.struct name fields) →
    ∀ f ∈ fields, (desc f.1).isSome

namespace TypeGraph

section
variable (D : TypeGraph)

/-- The graph as one on which the rule returns. -/
def toTBAAGraph : TBAAGraph := .ofRank D.toMDGraph D.rank D.rank_lt

/-- The parent of a type at an offset: for a scalar at `0` its parent at `0`, for a struct
    its last field at or before the offset. -/
def parent (p : MDNode × ℕ) : Option (MDNode × ℕ) :=
  match D.desc p.1 with
  | some (.scalar _ P _) => if p.2 = 0 then some (P, 0) else none
  | some (.struct _ fields) =>
    (fields.filter fun f => f.2 ≤ p.2).getLast?.map fun f => (f.1, p.2 - f.2)
  | _ => none

/-- A well-formed access tag: a descriptor, a scalar and an offset. -/
structure IsTag (Tag : MDNode) (p : MDNode × ℕ) : Prop where
  operands : ∃ AccessTy rest,
    D.operands Tag = .node p.1 :: .node AccessTy :: .constInt p.2 :: rest ∧
      ∃ name P offset, D.desc AccessTy = some (.scalar name P offset)
  base : (D.desc p.1).isSome

/-- The root of an access tag: the scalar parents of its access type lead to it. -/
def RootOf (Tag R : MDNode) : Prop :=
  ∃ AccessTy, D.nodeAt Tag 1 = some AccessTy ∧
    Relation.ReflTransGen (fun N P => ∃ name offset, D.desc N = some (.scalar name P offset))
      AccessTy R ∧ ∃ name, D.desc R = some (.root name)

/-- The rule for two accesses: one is reached from the other by steps to the parent. -/
def StructPathRule (A B : MDNode) (a b : MDNode × ℕ) : Prop :=
  D.toTBAAGraph.mayAliasByTBAA (some A) (some B) = true ↔
    Reaches D.parent a b ∨ Reaches D.parent b a

/-- A struct with one field, at an offset behind its start that the field begins at or
    before: the rule has a parent, the code takes the struct for a scalar. -/
def OnlyRule (p : MDNode × ℕ) : Prop :=
  ∃ name T d, D.desc p.1 = some (.struct name [(T, d)]) ∧ p.2 ≠ 0 ∧ d ≤ p.2

/-- A struct with one field behind its start, at offset `0`: the rule has no parent, the code
    takes the type of the field for one. -/
def OnlyCode (p : MDNode × ℕ) : Prop :=
  ∃ name T d, D.desc p.1 = some (.struct name [(T, d)]) ∧ p.2 = 0 ∧ 0 < d

/-- On the way from one access to the other, by the rule or by the code, the two part. -/
def Parts (a b : MDNode × ℕ) : Prop :=
  (∃ p, Reaches D.parent a p ∧ D.OnlyRule p ∧ Relation.TransGen (Next D.parent) p b) ∨
    ∃ p, Reaches D.chainStep a p ∧ D.OnlyCode p ∧ Relation.TransGen (Next D.chainStep) p b

end

section
variable {D : TypeGraph} {N P : MDNode} {p q : MDNode × ℕ} {o : ℕ} {name : String}
  {fields : List (MDNode × ℕ)}

/-! ## The shapes of the descriptors -/

theorem chooseField_eq {l : List (MDNode × ℕ)} (h : l.Pairwise fun f f' => f.2 ≤ f'.2)
    (chosen : Option (MDNode × ℕ)) :
    MDGraph.chooseField o (fieldOperands l) chosen =
      ((l.filter fun f => f.2 ≤ o).getLast?).or chosen := by
  induction l generalizing chosen with
  | nil => rfl
  | cons f l ih =>
    obtain ⟨hfirst, hrest⟩ := List.pairwise_cons.1 h
    have hcons : fieldOperands (f :: l) = .node f.1 :: .constInt f.2 :: fieldOperands l := rfl
    rw [hcons, MDGraph.chooseField]
    simp only [MDOperand.asNode, MDOperand.asConstInt]
    by_cases hlt : o < f.2
    · -- the fields behind this one begin behind the offset, too
      have hnone : (f :: l).filter (fun f => f.2 ≤ o) = [] := by
        refine List.filter_eq_nil_iff.2 fun g hg => ?_
        rcases List.mem_cons.1 hg with rfl | hg
        · simpa using hlt
        · have hle := hfirst g hg
          simp only [decide_eq_true_eq]
          omega
      rw [if_pos hlt, hnone]
      rfl
    · have hle : f.2 ≤ o := by omega
      rw [if_neg hlt, ih hrest, List.filter_cons_of_pos (by simpa using hle), List.getLast?_cons]
      cases (l.filter fun f => f.2 ≤ o).getLast? <;> rfl

theorem chainStep_root {name : Option String} (h : D.desc p.1 = some (.root name)) :
    D.chainStep p = none := by
  have hops := D.operands_eq _ _ h
  unfold MDGraph.chainStep MDGraph.immediateParent MDGraph.isScalarDesc MDGraph.isStructDesc
  rw [hops]
  cases name <;> simp [TypeDesc.operands]

theorem chainStep_scalar {offset : Option ℕ} (h : D.desc p.1 = some (.scalar name P offset)) :
    D.chainStep p = D.parent p := by
  have hops := D.operands_eq _ _ h
  unfold MDGraph.chainStep MDGraph.immediateParent MDGraph.isScalarDesc MDGraph.nodeAt parent
  rw [hops, h]
  cases offset <;> simp [TypeDesc.operands, MDOperand.isString, MDOperand.asNode]

/-- A struct with one field is taken for a scalar. -/
theorem chainStep_single {T : MDNode} {d : ℕ} (h : D.desc p.1 = some (.struct name [(T, d)])) :
    D.chainStep p = if p.2 = 0 then some (T, 0) else none := by
  have hops := D.operands_eq _ _ h
  unfold MDGraph.chainStep MDGraph.immediateParent MDGraph.isScalarDesc MDGraph.nodeAt
  rw [hops]
  simp [TypeDesc.operands, fieldOperands, MDOperand.isString, MDOperand.asNode]

theorem parent_single {T : MDNode} {d : ℕ} (h : D.desc p.1 = some (.struct name [(T, d)])) :
    D.parent p = if d ≤ p.2 then some (T, p.2 - d) else none := by
  unfold parent
  rw [h]
  by_cases hd : d ≤ p.2
  · simp [hd]
  · simp [hd]

/-- A struct with more fields is taken for what it is. -/
theorem chainStep_struct {f f' : MDNode × ℕ}
    (h : D.desc p.1 = some (.struct name (f :: f' :: fields))) : D.chainStep p = D.parent p := by
  have hops := D.operands_eq _ _ h
  have hscalar : D.isScalarDesc p.1 = false := by
    unfold MDGraph.isScalarDesc
    rw [hops]
    simp [TypeDesc.operands, fieldOperands]
  have hlength : ∀ l : List (MDNode × ℕ), (fieldOperands l).length = 2 * l.length := by
    intro l
    simp [fieldOperands, mul_comm]
  have hstruct : D.isStructDesc p.1 = true := by
    unfold MDGraph.isStructDesc
    rw [hops]
    simp only [TypeDesc.operands, hlength, List.length_cons, MDOperand.isString, Bool.and_true,
      Bool.and_eq_true, decide_eq_true_eq]
    omega
  unfold MDGraph.chainStep MDGraph.immediateParent parent
  rw [hscalar, hstruct, hops, h]
  simp only [Bool.false_eq_true, if_false, if_true, TypeDesc.operands, List.tail_cons]
  rw [chooseField_eq (D.sorted _ _ _ h), Option.or_none]

/-- **One step.**  The rule and the code take the same parent, but at a struct with one
    field. -/
theorem step_cases (hp : (D.desc p.1).isSome) :
    D.chainStep p = D.parent p ∨
      ∃ name T d, D.desc p.1 = some (.struct name [(T, d)]) ∧
        D.parent p = (if d ≤ p.2 then some (T, p.2 - d) else none) ∧
        D.chainStep p = if p.2 = 0 then some (T, 0) else none := by
  obtain ⟨desc, h⟩ := Option.isSome_iff_exists.1 hp
  cases desc with
  | root name =>
    refine Or.inl ?_
    rw [chainStep_root h, parent, h]
  | scalar name P offset => exact Or.inl (chainStep_scalar h)
  | struct name fields =>
    cases fields with
    | nil => exact absurd rfl (D.fields_ne_nil _ _ _ h)
    | cons f fields =>
      cases fields with
      | nil => exact Or.inr ⟨name, f.1, f.2, h, parent_single h, chainStep_single h⟩
      | cons f' fields => exact Or.inl (chainStep_struct h)

/-- Where both have a parent, it is the same. -/
theorem parents_agree {q q' : MDNode × ℕ} (hp : (D.desc p.1).isSome) (hq : D.parent p = some q)
    (hq' : D.chainStep p = some q') : q = q' := by
  rcases step_cases hp with heq | ⟨name, T, d, -, hrule, hcode⟩
  · rw [heq, hq] at hq'
    exact Option.some.inj hq'
  · rw [hrule] at hq
    rw [hcode] at hq'
    split at hq'
    case isTrue h0 =>
      split at hq
      case isTrue hd =>
        cases hq
        cases hq'
        rw [h0, Nat.zero_sub]
      case isFalse => cases hq
    case isFalse => cases hq'

theorem onlyRule_iff (hp : (D.desc p.1).isSome) :
    D.OnlyRule p ↔ D.parent p ≠ none ∧ D.chainStep p = none := by
  constructor
  · rintro ⟨name, T, d, h, hne, hle⟩
    rw [parent_single h, chainStep_single h, if_pos hle, if_neg hne]
    exact ⟨Option.some_ne_none _, rfl⟩
  · rintro ⟨hrule, hcode⟩
    rcases step_cases hp with heq | ⟨name, T, d, h, hrule', hcode'⟩
    · rw [heq] at hcode
      exact absurd hcode hrule
    · rw [hrule'] at hrule
      rw [hcode'] at hcode
      refine ⟨name, T, d, h, ?_, ?_⟩
      · intro h0
        rw [if_pos h0] at hcode
        cases hcode
      · by_contra hd
        exact hrule (if_neg hd)

theorem onlyCode_iff (hp : (D.desc p.1).isSome) :
    D.OnlyCode p ↔ D.chainStep p ≠ none ∧ D.parent p = none := by
  constructor
  · rintro ⟨name, T, d, h, h0, hlt⟩
    have hd : ¬ d ≤ p.2 := by omega
    rw [parent_single h, chainStep_single h, if_pos h0, if_neg hd]
    exact ⟨Option.some_ne_none _, rfl⟩
  · rintro ⟨hcode, hrule⟩
    rcases step_cases hp with heq | ⟨name, T, d, h, hrule', hcode'⟩
    · rw [heq] at hcode
      exact absurd hrule hcode
    · rw [hrule'] at hrule
      rw [hcode'] at hcode
      refine ⟨name, T, d, h, ?_, ?_⟩
      · by_contra h0
        exact hcode (if_neg h0)
      · by_contra hd
        rw [if_pos (by omega)] at hrule
        cases hrule

/-! ## The two chains -/

/-- The parent is an operand, and a descriptor. -/
theorem parent_mem (h : D.parent p = some q) :
    .node q.1 ∈ D.operands p.1 ∧ (D.desc q.1).isSome := by
  unfold parent at h
  split at h
  case h_1 name P offset hdesc =>
    split at h
    case isFalse => cases h
    cases h
    refine ⟨?_, ?_⟩
    · rw [D.operands_eq _ _ hdesc]
      cases offset <;> simp [TypeDesc.operands]
    · rcases D.parent_desc _ _ _ _ hdesc with ⟨name, hP⟩ | ⟨name, Q, offset, hP⟩
      · rw [hP]
        rfl
      · rw [hP]
        rfl
  case h_2 name fields hdesc =>
    obtain ⟨f, hf, hq⟩ := Option.map_eq_some_iff.1 h
    cases hq
    have hmem : f ∈ fields := (List.mem_filter.1 (List.mem_of_getLast? hf)).1
    refine ⟨?_, D.field_desc _ _ _ hdesc f hmem⟩
    rw [D.operands_eq _ _ hdesc]
    refine List.mem_cons_of_mem _ (List.mem_flatMap.2 ⟨f, hmem, ?_⟩)
    simp
  case h_3 => cases h

theorem desc_of_chainStep (hp : (D.desc p.1).isSome) (h : D.chainStep p = some q) :
    (D.desc q.1).isSome := by
  rcases step_cases hp with heq | ⟨name, T, d, hdesc, -, hcode⟩
  · exact (parent_mem (heq ▸ h)).2
  · rw [hcode] at h
    split at h
    case isTrue =>
      cases h
      exact D.field_desc _ _ _ hdesc (T, d) (List.mem_singleton_self _)
    case isFalse => cases h

theorem rank_parent (p q : MDNode × ℕ) (h : D.parent p = some q) : D.rank q.1 < D.rank p.1 :=
  D.rank_lt _ _ (parent_mem h).1

theorem rank_chainStep (p q : MDNode × ℕ) (h : D.chainStep p = some q) :
    D.rank q.1 < D.rank p.1 :=
  D.rank_lt _ _ (MDGraph.mem_operands_of_immediateParent h)

theorem parent_irrefl (p : MDNode × ℕ) : ¬ Relation.TransGen (Next D.parent) p p :=
  fun hp => lt_irrefl _ (lt_of_transGen (fun p => D.rank p.1) rank_parent hp)

theorem chainStep_irrefl (p : MDNode × ℕ) : ¬ Relation.TransGen (Next D.chainStep) p p :=
  fun hp => lt_irrefl _ (lt_of_transGen (fun p => D.rank p.1) rank_chainStep hp)

/-- **Where the two part.**  They part on the way from one access to another exactly if the
    other one is reached by the rule or by the code, but not by both. -/
theorem parts_iff {a b : MDNode × ℕ} (ha : (D.desc a.1).isSome) :
    D.Parts a b ↔ ¬ (Reaches D.parent a b ↔ Reaches D.chainStep a b) := by
  have hrule : Reaches D.parent a b ∧ ¬ Reaches D.chainStep a b ↔
      ∃ p, Reaches D.parent a p ∧ D.OnlyRule p ∧ Relation.TransGen (Next D.parent) p b := by
    rw [parted_iff (fun p q _ h => (parent_mem h).2) (fun p q q' hp => parents_agree hp)
      parent_irrefl ha]
    refine exists_congr fun p => and_congr_right fun hp => and_congr_left fun hb => ?_
    have hdesc := hp.invariant (fun p q _ h => (parent_mem h).2) ha
    obtain ⟨q, hq, -⟩ := Relation.TransGen.head'_iff.1 hb
    have hsome : D.parent p ≠ none := Option.ne_none_iff_exists'.2 ⟨q, hq⟩
    rw [onlyRule_iff hdesc, and_iff_right hsome]
  have hcode : Reaches D.chainStep a b ∧ ¬ Reaches D.parent a b ↔
      ∃ p, Reaches D.chainStep a p ∧ D.OnlyCode p ∧
        Relation.TransGen (Next D.chainStep) p b := by
    rw [parted_iff (fun p q => desc_of_chainStep)
      (fun p q q' hp h h' => (parents_agree hp h' h).symm) chainStep_irrefl ha]
    refine exists_congr fun p => and_congr_right fun hp => and_congr_left fun hb => ?_
    have hdesc := hp.invariant (fun p q => desc_of_chainStep) ha
    obtain ⟨q, hq, -⟩ := Relation.TransGen.head'_iff.1 hb
    have hsome : D.chainStep p ≠ none := Option.ne_none_iff_exists'.2 ⟨q, hq⟩
    rw [onlyCode_iff hdesc, and_iff_right hsome]
  unfold Parts
  rw [← hrule, ← hcode]
  tauto

/-! ## The rule -/

/-- The root of an access type is the one that the code finds. -/
theorem RootOf.root {Tag R : MDNode} (h : D.RootOf Tag R) : D.Root Tag R := by
  obtain ⟨AccessTy, hnode, hchain, name, hroot⟩ := h
  refine ⟨AccessTy, hnode, ?_, ?_⟩
  · refine Relation.ReflTransGen.mono (fun N P hP => ?_) _ _ hchain
    obtain ⟨name, offset, hdesc⟩ := hP
    have hops := D.operands_eq _ _ hdesc
    unfold MDGraph.ScalarParent MDGraph.isRootNode MDGraph.isScalarDesc MDGraph.nodeAt
    rw [hops]
    cases offset <;> simp [TypeDesc.operands, MDOperand.isString, MDOperand.asNode]
  · unfold MDGraph.isRootNode
    rw [D.operands_eq _ _ hroot]
    cases name <;> simp [TypeDesc.operands, MDOperand.isString]

/-- A tag has one root. -/
theorem root_unique {Tag R R' : MDNode} (h : D.Root Tag R) (h' : D.Root Tag R') : R = R' := by
  obtain ⟨o, ho⟩ := Option.isSome_iff_exists.1
    (MDGraph.getTBAARootFromTag_isSome D.rank_lt (le_refl (D.rank Tag)))
  have hR := (MDGraph.getTBAARootFromTag_spec ho R).2 h
  have hR' := (MDGraph.getTBAARootFromTag_spec ho R').2 h'
  exact Option.some.inj (hR.symm.trans hR')

/-- What the code answers for two tags with the same root. -/
theorem mayAlias_iff {A B : MDNode} {a b : MDNode × ℕ} (hne : A ≠ B) (hA : D.IsTag A a)
    (hB : D.IsTag B b) (hroot : ∃ R, D.RootOf A R ∧ D.RootOf B R) :
    D.toTBAAGraph.mayAliasByTBAA (some A) (some B) = true ↔
      Reaches D.chainStep a b ∨ Reaches D.chainStep b a := by
  obtain ⟨R, hRA, hRB⟩ := hroot
  have hparse : ∀ {Tag p}, D.IsTag Tag p → D.getBaseAndOffsetFromTag Tag = some p := by
    intro Tag p h
    obtain ⟨AccessTy, rest, hops, -⟩ := h.operands
    unfold MDGraph.getBaseAndOffsetFromTag
    rw [hops]
    rfl
  have hother : D.OtherOffset A B ↔ a.1 = b.1 ∧ a.2 ≠ b.2 := by
    simp [MDGraph.OtherOffset, hparse hA, hparse hB]
  have hun : D.Unrelated A B ↔ ¬ Reaches D.chainStep a b ∧ ¬ Reaches D.chainStep b a := by
    constructor
    · rintro ⟨a', b', RA, RB, ha', hb', hRA', hRB', h⟩
      obtain rfl : a = a' := Option.some.inj ((hparse hA).symm.trans ha')
      obtain rfl : b = b' := Option.some.inj ((hparse hB).symm.trans hb')
      refine h.resolve_left fun hdiff => hdiff ?_
      exact (root_unique hRA' hRA.root).trans (root_unique hRB.root hRB')
    · intro h
      exact ⟨a, b, R, R, hparse hA, hparse hB, hRA.root, hRB.root, Or.inr h⟩
  have hfalse : D.toTBAAGraph.mayAliasByTBAA (some A) (some B) = false ↔
      A ≠ B ∧ (D.OtherOffset A B ∨ D.Unrelated A B) := TBAAGraph.mayAliasByTBAA_eq_false _
  -- a base type is not met again at another offset
  have hdown : ∀ {p q}, Reaches D.chainStep p q → p.1 = q.1 → p = q := by
    intro p q h hbase
    rcases eq_or_lt_of_reaches (fun p => D.rank p.1) rank_chainStep h with heq | hlt
    · exact heq
    · simp only [hbase, lt_irrefl] at hlt
  rw [← Bool.not_eq_false, hfalse, and_iff_right hne, hother, hun]
  constructor
  · intro h
    by_contra hno
    exact h (Or.inr (not_or.1 hno))
  · rintro h (⟨hbase, hoff⟩ | ⟨hab, hba⟩)
    · rcases h with h | h
      · exact hoff (congrArg Prod.snd (hdown h hbase))
      · exact hoff (congrArg Prod.snd (hdown h hbase.symm)).symm
    · exact h.elim hab hba

/-- **The struct-path rule.**  For two well-formed tags with one root, the code answers as
    the rule exactly if they do not part at a struct with one field, on the way from one
    access to the other. -/
theorem structPathRule_iff {A B : MDNode} {a b : MDNode × ℕ} (hne : A ≠ B) (hA : D.IsTag A a)
    (hB : D.IsTag B b) (hroot : ∃ R, D.RootOf A R ∧ D.RootOf B R) :
    D.StructPathRule A B a b ↔ ¬ D.Parts a b ∧ ¬ D.Parts b a := by
  unfold StructPathRule
  rw [mayAlias_iff hne hA hB hroot, parts_iff hA.base, parts_iff hB.base, not_not, not_not]
  constructor
  · intro h
    by_cases heq : a = b
    · subst heq
      exact ⟨iff_of_true .refl .refl, iff_of_true .refl .refl⟩
    -- only one of the two can reach the other one
    have hrule : ∀ {p q}, p ≠ q → Reaches D.parent p q → D.rank q.1 < D.rank p.1 :=
      fun hpq hr =>
        (eq_or_lt_of_reaches (fun p => D.rank p.1) rank_parent hr).resolve_left hpq
    have hcode : ∀ {p q}, p ≠ q → Reaches D.chainStep p q → D.rank q.1 < D.rank p.1 :=
      fun hpq hr =>
        (eq_or_lt_of_reaches (fun p => D.rank p.1) rank_chainStep hr).resolve_left hpq
    have hab := hrule heq
    have hab' := hcode heq
    have hba := hrule (Ne.symm heq)
    have hba' := hcode (Ne.symm heq)
    by_cases hlt : D.rank b.1 < D.rank a.1
    · have hno : ¬ Reaches D.parent b a := fun hr => absurd (hba hr) hlt.asymm
      have hno' : ¬ Reaches D.chainStep b a := fun hr => absurd (hba' hr) hlt.asymm
      rw [or_iff_left hno, or_iff_left hno'] at h
      exact ⟨h.symm, iff_of_false hno hno'⟩
    · have hno : ¬ Reaches D.parent a b := fun hr => hlt (hab hr)
      have hno' : ¬ Reaches D.chainStep a b := fun hr => hlt (hab' hr)
      rw [or_iff_right hno, or_iff_right hno'] at h
      exact ⟨iff_of_false hno hno', h.symm⟩
  · rintro ⟨hab, hba⟩
    rw [hab, hba]

end

/-! ## A class with one field -/

/-- A class `D` with an `int` at `8`, behind the pointer to its table of functions, and a
    struct `S` with two of them; `4`, `5` and `6` are accesses to the field of `D`, to an
    `int`, and to the second field of `S`. -/
def oneField : TypeGraph where
  operands N := match N with
    | 0 => [.string "root"]
    | 1 => [.string "int", .node 0, .constInt 0]
    | 2 => [.string "D", .node 1, .constInt 8]
    | 3 => [.string "S", .node 1, .constInt 0, .node 1, .constInt 4]
    | 4 => [.node 2, .node 1, .constInt 8]
    | 5 => [.node 1, .node 1, .constInt 0]
    | 6 => [.node 3, .node 1, .constInt 4]
    | _ => []
  desc N := match N with
    | 0 => some (.root (some "root"))
    | 1 => some (.scalar "int" 0 (some 0))
    | 2 => some (.struct "D" [(1, 8)])
    | 3 => some (.struct "S" [(1, 0), (1, 4)])
    | _ => none
  operands_eq N d h := by
    rcases N with _ | _ | _ | _ | N <;> simp at h <;> subst h <;> rfl
  rank N := N
  rank_lt N P h := by
    rcases N with _ | _ | _ | _ | _ | _ | _ | N <;> simp at h <;> rcases h with rfl | rfl <;> decide
  parent_desc N name P offset h := by
    rcases N with _ | _ | _ | _ | N <;> simp at h
    obtain ⟨-, rfl, -⟩ := h
    exact Or.inl ⟨_, rfl⟩
  fields_ne_nil N name fields h := by
    rcases N with _ | _ | _ | _ | N <;> simp at h
    · rw [← h.2]
      exact List.cons_ne_nil _ _
    · rw [← h.2]
      exact List.cons_ne_nil _ _
  sorted N name fields h := by
    rcases N with _ | _ | _ | _ | N <;> simp at h
    · rw [← h.2]
      simp
    · rw [← h.2]
      simp
  field_desc N name fields h f hf := by
    rcases N with _ | _ | _ | _ | N <;> simp at h
    · rw [← h.2, List.mem_singleton] at hf
      subst hf
      rfl
    · simp only [← h.2, List.mem_cons, List.not_mem_nil, or_false] at hf
      rcases hf with rfl | rfl
      · rfl
      · rfl

theorem isTag_oneField : oneField.IsTag 4 (2, 8) ∧ oneField.IsTag 5 (1, 0) ∧
    oneField.IsTag 6 (3, 4) :=
  ⟨⟨⟨1, [], rfl, _, _, _, rfl⟩, rfl⟩, ⟨⟨1, [], rfl, _, _, _, rfl⟩, rfl⟩,
    ⟨⟨1, [], rfl, _, _, _, rfl⟩, rfl⟩⟩

theorem rootOf_oneField : oneField.RootOf 4 0 ∧ oneField.RootOf 5 0 ∧ oneField.RootOf 6 0 :=
  ⟨⟨1, rfl, .single ⟨_, _, rfl⟩, _, rfl⟩, ⟨1, rfl, .single ⟨_, _, rfl⟩, _, rfl⟩,
    ⟨1, rfl, .single ⟨_, _, rfl⟩, _, rfl⟩⟩

/-- The field of the class is an `int`, and the code says that the two do not alias. -/
theorem one_field_missed :
    ¬ ∀ (D : TypeGraph) (A B : MDNode) (a b : MDNode × ℕ), A ≠ B → D.IsTag A a → D.IsTag B b →
      (∃ R, D.RootOf A R ∧ D.RootOf B R) → D.StructPathRule A B a b := by
  intro h
  have hrule := h oneField 4 5 (2, 8) (1, 0) (by decide) isTag_oneField.1 isTag_oneField.2.1
    ⟨0, rootOf_oneField.1, rootOf_oneField.2.1⟩
  have hreach : Reaches oneField.parent (2, 8) (1, 0) := .single rfl
  have hno : oneField.toTBAAGraph.mayAliasByTBAA (some 4) (some 5) = false := by decide
  have hyes := hrule.2 (Or.inl hreach)
  rw [hno] at hyes
  cases hyes

/-- The field of a struct with two fields is found. -/
theorem structPathRule_oneField : oneField.StructPathRule 6 5 (3, 4) (1, 0) := by
  refine (structPathRule_iff (by decide) isTag_oneField.2.2 isTag_oneField.2.1
    ⟨0, rootOf_oneField.2.2, rootOf_oneField.2.1⟩).2 ⟨?_, ?_⟩
  · rw [parts_iff rfl, not_not]
    exact iff_of_true (.single rfl) (.single rfl)
  · rw [parts_iff rfl, not_not]
    refine iff_of_false (fun hr => ?_) (fun hr => ?_)
    · exact absurd (eq_or_lt_of_reaches (fun p => oneField.rank p.1) rank_parent hr) (by decide)
    · exact absurd (eq_or_lt_of_reaches (fun p => oneField.rank p.1) rank_chainStep hr)
        (by decide)

end TypeGraph

end TFA
