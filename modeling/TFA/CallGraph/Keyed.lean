/-
  The keys of the escaped fields.

  A store to an escaped field is recorded under the hash of the field, and the field
  is looked up again by this hash.  `EscapesKeyed` says that a field with the same name
  and index is found; the initialization sees to it (`escapesKeyed_doInitialization`).
-/
import TFA.CallGraph.Confinement

namespace TFA

namespace LayerMaps

/-- The hash of a struct field. -/
def FieldHash (T : TypeTable) (m : LayerMaps) (k : Key) : Prop :=
  ∃ CT : CompositeType, T.isStructTy CT.1 = true ∧ k = m.layerHash T CT

/-- Stores are recorded under hashes of struct fields. -/
structure EscapesKeyed (T : TypeTable) (m : LayerMaps) : Prop extends WellKeyed T m where
  stores : ∀ k, m.escapedStoreMap k ≠ ∅ → FieldHash T m k

section
variable {T : TypeTable} {m m' : LayerMaps} {k : Key} {CT : CompositeType}

theorem escapesKeyed_empty (names : Key → Option String) :
    EscapesKeyed T { Global_Literal_Struct_Map := names } where
  toWellKeyed := wellKeyed_empty names
  stores _ h := absurd rfl h

theorem FieldHash.congr (h : FieldHash T m k)
    (hnames : m'.Global_Literal_Struct_Map = m.Global_Literal_Struct_Map) : FieldHash T m' k := by
  obtain ⟨CT, hCT, hk⟩ := h
  exact ⟨CT, hCT, by rw [hk, layerHash_congr hnames]⟩

/-- The field that is looked up for the hash of a field has this hash. -/
theorem EscapesKeyed.field (h : EscapesKeyed T m) (hk : FieldHash T m k)
    (hCT : m.hashIDTypeMap k = some CT) : T.isStructTy CT.1 = true ∧ k = m.layerHash T CT := by
  obtain ⟨CT', -, rfl⟩ := hk
  rcases h.layer _ _ hCT with hidx | hlayer
  · -- the hash of a name is no hash of a type
    cases hidx
  · exact hlayer

/-- What does not touch these maps. -/
theorem EscapesKeyed.congr (h : EscapesKeyed T m) (htype : m'.hashTypeMap = m.hashTypeMap)
    (hlayer : m'.hashIDTypeMap = m.hashIDTypeMap)
    (hnames : m'.Global_Literal_Struct_Map = m.Global_Literal_Struct_Map)
    (hstores : m'.escapedStoreMap = m.escapedStoreMap) : EscapesKeyed T m' := by
  have hhash : m'.layerHash T = m.layerHash T := layerHash_congr hnames
  refine ⟨⟨?_, ?_⟩, ?_⟩
  · rw [htype]
    exact h.type
  · rw [hlayer]
    unfold Fits
    rw [hhash]
    exact h.layer
  · rw [hstores]
    exact fun k hk => (h.stores k hk).congr hnames

/-- A field under a hash that fits it. -/
theorem EscapesKeyed.update_layer (h : EscapesKeyed T m) (hk : Fits T m k CT)
    (hlayer : m'.hashIDTypeMap = Function.update m.hashIDTypeMap k (some CT))
    (htype : m'.hashTypeMap = m.hashTypeMap)
    (hnames : m'.Global_Literal_Struct_Map = m.Global_Literal_Struct_Map)
    (hstores : m'.escapedStoreMap = m.escapedStoreMap) : EscapesKeyed T m' := by
  have hupdated : EscapesKeyed T
      { m with hashIDTypeMap := Function.update m.hashIDTypeMap k (some CT) } :=
    ⟨⟨h.type, layer_update h.layer hk⟩, h.stores⟩
  exact hupdated.congr htype hlayer hnames hstores

theorem EscapesKeyed.insert_layer (h : EscapesKeyed T m) (hCT : T.isStructTy CT.1 = true) :
    EscapesKeyed T { m with
      hashIDTypeMap := Function.update m.hashIDTypeMap (m.layerHash T CT) (some CT) } :=
  h.update_layer (Or.inr ⟨hCT, rfl⟩) rfl rfl rfl rfl

theorem EscapesKeyed.foldl {α : Type*} {f : LayerMaps → α → LayerMaps} {l : List α}
    (hf : ∀ a ∈ l, ∀ m, EscapesKeyed T m → EscapesKeyed T (f m a)) (h : EscapesKeyed T m) :
    EscapesKeyed T (l.foldl f m) :=
  List.foldlRecOn l f h fun m hm a ha => hf a ha m hm

theorem EscapesKeyed.recordTypes (h : EscapesKeyed T m) (CT : CompositeType) :
    EscapesKeyed T (m.recordTypes T CT) := by
  have htypes : EscapesKeyed T { m with
      hashTypeMap := Function.update m.hashTypeMap (T.typeHash CT.1) (some CT.1) } :=
    ⟨⟨type_update h.type CT.1, h.layer⟩, h.stores⟩
  exact htypes.update_layer (k := T.typeIdxHash CT.1 CT.2) (Or.inl rfl) rfl rfl rfl rfl

theorem EscapesKeyed.recordSig (h : EscapesKeyed T m) (hashes : Finset Key) (F : Func) :
    EscapesKeyed T (m.recordSig hashes F) := h.congr rfl rfl rfl rfl

theorem EscapesKeyed.recordEmptyTy (h : EscapesKeyed T m) (k : Key) (F : Func) :
    EscapesKeyed T (m.recordEmptyTy k F) := h.congr rfl rfl rfl rfl

theorem EscapesKeyed.recordLayer (h : EscapesKeyed T m) (F : Func)
    (hCT : T.isStructTy CT.1 = true) : EscapesKeyed T (m.recordLayer T F CT) :=
  h.update_layer (k := m.layerHash T CT) (Or.inr ⟨hCT, rfl⟩) rfl rfl rfl rfl

theorem EscapesKeyed.transitType (h : EscapesKeyed T m) (a b : Ty) (i j : ℤ) :
    EscapesKeyed T (m.transitType T a b i j) := by
  refine ⟨h.toWellKeyed.transitType, ?_⟩
  have hsame : (m.transitType T a b i j).escapedStoreMap = m.escapedStoreMap ∧
      (m.transitType T a b i j).Global_Literal_Struct_Map = m.Global_Literal_Struct_Map := by
    unfold LayerMaps.transitType
    dsimp only
    split <;> exact ⟨rfl, rfl⟩
  rw [hsame.1]
  exact fun k hk => (h.stores k hk).congr hsame.2

theorem EscapesKeyed.transitStructs (h : EscapesKeyed T m) (types : Ty × Ty) :
    EscapesKeyed T (m.transitStructs T types) := by
  unfold LayerMaps.transitStructs
  split
  · exact h.transitType _ _ _ _
  · exact h

theorem EscapesKeyed.confine (h : EscapesKeyed T m) {From To : CompositeType}
    (hTo : T.isStructTy To.1 = true) (hFrom : T.isStructTy From.1 = true) :
    EscapesKeyed T (confine T From m To) := by
  refine ⟨h.toWellKeyed.confine hTo hFrom, ?_⟩
  have hsame : (LayerMaps.confine T From m To).escapedStoreMap = m.escapedStoreMap ∧
      (LayerMaps.confine T From m To).Global_Literal_Struct_Map = m.Global_Literal_Struct_Map := by
    unfold LayerMaps.confine
    split <;> exact ⟨rfl, rfl⟩
  rw [hsame.1]
  exact fun k hk => (h.stores k hk).congr hsame.2

theorem EscapesKeyed.escapeType (h : EscapesKeyed T m) (SI : Value) (t : Ty) (i : ℤ) :
    EscapesKeyed T (m.escapeType T SI t i) := by
  unfold LayerMaps.escapeType
  split
  case isTrue hs =>
    have hfield : T.isStructTy ((t, i) : CompositeType).1 = true := hs
    have hlayer := h.insert_layer hfield
    refine ⟨⟨hlayer.type, hlayer.layer⟩, ?_⟩
    intro k hk
    by_cases heq : k = m.layerHash T (t, i)
    · exact ⟨(t, i), hs, heq⟩
    · refine h.stores k ?_
      dsimp only at hk
      rwa [Function.update_of_ne heq] at hk
  · exact h

end

end LayerMaps

namespace TypedProgram

open LayerMaps

section
variable {P : TypedProgram} {m : LayerMaps}

theorem escapesKeyed_updateStructInfo (h : EscapesKeyed P.T m) (F : Func) (CT : CompositeType) :
    EscapesKeyed P.T (P.updateStructInfo F CT m) := by
  have hesc : EscapesKeyed P.T (m.recordEmptyTy (P.funcHash F) F) := h.recordEmptyTy _ _
  have hnamed : EscapesKeyed P.T
      (if P.getName F ≠ "" then m.recordEmptyTy (P.funcHash F) F else m) := by
    split
    · exact hesc
    · exact h
  unfold updateStructInfo
  dsimp only
  generalize (if P.getName F ≠ "" then m.recordEmptyTy (P.funcHash F) F else m) = named at hnamed ⊢
  split_ifs with hunion hs
  · exact hesc
  · split
    · split_ifs
      · exact hnamed
      · exact h.recordLayer F hs
    · exact hnamed
  · exact hnamed.congr rfl rfl rfl rfl
  · exact hnamed
  · exact h.recordLayer F hs
  · exact hesc

theorem escapesKeyed_recordFunc (h : EscapesKeyed P.T m) (CT : CompositeType) (F : Func) :
    EscapesKeyed P.T (P.recordFunc CT m F) := by
  refine escapesKeyed_updateStructInfo ?_ F CT
  exact h.congr rfl rfl rfl rfl

theorem escapesKeyed_confineFunction (h : EscapesKeyed P.T m) (PO : Value) (i : ℤ) (F : Func) :
    EscapesKeyed P.T (P.confineFunction PO i m F) := by
  unfold confineFunction
  dsimp only
  split
  · refine h.foldl fun CT _ m hm => ?_
    exact (hm.recordTypes _).foldl fun F _ m hm => escapesKeyed_recordFunc hm _ F
  · exact h.foldl fun F _ m hm => (hm.recordSig _ F).recordEmptyTy _ F

theorem escapesKeyed_confineVector (h : EscapesKeyed P.T m) (VO PO : Value) (t : Ty) :
    EscapesKeyed P.T (P.confineVector VO PO t m) := by
  unfold confineVector
  split
  · refine h.foldl fun e _ m hm => ?_
    split
    · exact escapesKeyed_confineFunction hm _ _ _
    · exact hm
  · exact h

theorem escapesKeyed_escapeLayers (h : EscapesKeyed P.T m) (SI PO : Value) :
    EscapesKeyed P.T (P.escapeLayers SI PO m) :=
  h.foldl fun CT _ _ hm => hm.escapeType SI CT.1 CT.2

theorem escapesKeyed_propagateType (h : EscapesKeyed P.T m) (PO : Value) {From : CompositeType}
    (hFrom : P.T.isStructTy From.1 = true) : EscapesKeyed P.T (P.propagateType PO m From) :=
  h.foldl fun _ hTo _ hm => hm.confine (isStructTy_of_layer hTo) hFrom

theorem escapesKeyed_typeConfineInStore_new (h : EscapesKeyed P.T m) (SI : Value) :
    EscapesKeyed P.T (P.typeConfineInStore_new m SI) := by
  unfold typeConfineInStore_new
  split
  case h_1 VO PO _ =>
    have hprop : EscapesKeyed P.T
        ((P.nextLayerBaseType_new m.Global_Literal_Struct_Map VO .Recall_Mode).2.foldl
          (P.propagateType PO) m) :=
      h.foldl fun _ hFrom _ hm => escapesKeyed_propagateType hm PO (isStructTy_of_layer hFrom)
    dsimp only
    split
    · exact h
    split
    · exact hprop
    split
    · exact escapesKeyed_escapeLayers hprop _ _
    split
    · exact escapesKeyed_confineVector h _ _ _
    split
    · exact escapesKeyed_confineFunction h _ _ _
    split
    · exact escapesKeyed_escapeLayers h _ _
    · exact h
  · exact h

theorem escapesKeyed_typeConfineInInitializer (h : EscapesKeyed P.T m) (GV : Value) :
    EscapesKeyed P.T (P.typeConfineInInitializer m GV) := by
  have hoperands : ∀ m U, EscapesKeyed P.T m → EscapesKeyed P.T (P.confineOperands m U) := by
    intro m U hm
    refine hm.foldl fun e _ m hm => ?_
    split
    · exact hm.foldl fun F _ m hm => escapesKeyed_recordFunc (hm.recordTypes _) _ F
    · exact hm
  unfold typeConfineInInitializer
  split
  · split_ifs
    · exact h
    · exact h
    · exact h.foldl fun U _ m hm => hoperands m U hm
  · exact h

theorem escapesKeyed_typeConfineInCast (h : EscapesKeyed P.T m) (a b : Ty) :
    EscapesKeyed P.T (P.typeConfineInCast a b m) := by
  unfold typeConfineInCast
  split
  · exact h.transitType _ _ _ _
  · exact h

theorem escapesKeyed_handleIndirectCast (h : EscapesKeyed P.T m) (a b : Ty) (V W : Value) :
    EscapesKeyed P.T (P.handleIndirectCast a b V W m) := by
  unfold handleIndirectCast
  split
  · split
    · dsimp only
      split
      · exact (h.transitStructs _).foldl fun types _ m hm => hm.transitStructs types
      · exact h.transitStructs _
    · exact h
  · exact h

theorem escapesKeyed_visitInst (h : EscapesKeyed P.T m) (I : Value) :
    EscapesKeyed P.T (P.visitInst m I) := by
  unfold visitInst
  split
  · exact escapesKeyed_typeConfineInStore_new h I
  · split
    · split
      · exact escapesKeyed_handleIndirectCast (escapesKeyed_typeConfineInCast h _ _) _ _ _ _
      · exact h
    · exact h
  · exact h

theorem escapesKeyed_visitCast (h : EscapesKeyed P.T m) (Cast : Value) :
    EscapesKeyed P.T (P.visitCast m Cast) := by
  unfold visitCast
  split
  · exact escapesKeyed_typeConfineInCast (escapesKeyed_handleIndirectCast h _ _ _ _) _ _
  · exact h

theorem escapesKeyed_visitFunction (h : EscapesKeyed P.T m) (F : Func) :
    EscapesKeyed P.T (P.visitFunction m F) := by
  have hinsts : EscapesKeyed P.T
      ((inOrder (P.castSet F)).foldl P.visitCast ((P.insts F).foldl P.visitInst m)) :=
    (h.foldl fun I _ m hm => escapesKeyed_visitInst hm I).foldl fun Cast _ m hm =>
      escapesKeyed_visitCast hm Cast
  unfold visitFunction
  dsimp only
  split_ifs
  · exact h.congr rfl rfl rfl rfl
  · exact h
  · exact hinsts.recordSig _ F
  · exact hinsts

theorem escapesKeyed_visitGlobal (h : EscapesKeyed P.T m) (GV : Value) :
    EscapesKeyed P.T (P.visitGlobal m GV) := by
  unfold visitGlobal
  split
  · exact h
  · exact escapesKeyed_typeConfineInInitializer h GV

theorem escapesKeyed_doInitialization (h : EscapesKeyed P.T m) (M : LLVMModule) :
    EscapesKeyed P.T (P.doInitialization m M) :=
  (h.foldl fun GV _ _ hm => escapesKeyed_visitGlobal hm GV).foldl fun F _ _ hm =>
    escapesKeyed_visitFunction hm F

end

end TypedProgram

end TFA
