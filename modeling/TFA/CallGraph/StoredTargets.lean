/-
  Functions that are put into fields are targets of the calls through these fields
  (`doInitialization` and `doModulePass` in `CallGraph.cc`, `typeConfineInInitializer` in
  `InitinGlobal.cc`, `propagateType` in `LayerAnalysis.cc`, `findCalleesWithMLTA` in
  `TypeAnalysis.cc`).

  * `PutInto`: a store of a tracked value or an initializer puts a function into a field,
    and a store of what such a field holds takes it on to the next one;
  * `Traced`: what the maps have to hold for a function and a field, as a set of facts;
    the initialization sees to it (`traced_putInto`);
  * `Traced.query`: a query of the field then finds the function or reports an escape;
  * `targets_callGraph`: what the call graph pass enters for a call whose layers all get
    some function of its type, if all literal structs have names.
-/
import TFA.CallGraph.NameEntries
import TFA.CallGraph.RecordOrder
import TFA.CallGraph.Stored
import TFA.CallGraph.Recorder

namespace TFA

open Worklist LayerMaps Accumulate TypedProgram

namespace CallProgram

section
variable (P : CallProgram) (m₀ : LayerMaps)

/-- The initializer of the variable is gone through. -/
def GoesThrough (GV Ini : Value) : Prop :=
  ¬ (containsSub (P.getName GV) ".str." = true ∨
      (["_ZTV", "_ZN", "_ZTI"].any fun s => s.toList.isPrefixOf (P.getName GV).toList) = true) ∧
    P.getInitializer GV = some Ini ∧ P.kind Ini = .constantAggregate ∧
    ¬ (P.getName GV = "llvm.used" ∨ P.getName GV = "llvm.compiler.used")

instance (GV Ini : Value) : Decidable (P.GoesThrough GV Ini) :=
  inferInstanceAs (Decidable (_ ∧ _))

/-- An instruction of the modules. -/
def IsInst (Ms : List LLVMModule) (I : Value) : Prop :=
  ∃ M ∈ Ms, ∃ F ∈ M.functions, P.isDeclaration F = false ∧ I ∈ P.insts F

/-- A function is put into a field: by a store of a value that it reaches, by the
    initializer of a global, or by a store of what another field holds.  The field may be
    that of a type that looks the same. -/
inductive PutInto (Ms : List LLVMModule) (f : Func) : CompositeType → Prop
  | store {SI VO PO F CT} (hSI : P.IsInst Ms SI) (hkind : P.kind SI = .instruction .store)
      (hops : P.operands SI = [VO, PO]) (hreach : P.Reaches F VO) (hF : P.kind F = .function)
      (hf : f ∈ P.definitions F) (htracked : P.Tracked m₀.Global_Literal_Struct_Map VO F)
      (hCT : CT ∈ P.layersOf m₀.Global_Literal_Struct_Map PO) : PutInto Ms f CT
  | init {M GV Ini U O F} {i : ℕ} (hM : M ∈ Ms) (hGV : GV ∈ M.globals)
      (hIni : P.GoesThrough GV Ini)
      (hU : Relation.ReflTransGen (fun V W => W ∈ P.nestedAggregates V) Ini U)
      (hO : (P.operands U)[i]? = some O) (hF : P.initializerFunc O = some F)
      (hf : f ∈ P.definitions F) : PutInto Ms f (P.getType U, (i : ℤ))
  | flow {SI VO PO From To} (hSI : P.IsInst Ms SI) (hkind : P.kind SI = .instruction .store)
      (hops : P.operands SI = [VO, PO]) (hVO : P.kind VO ≠ .constantData)
      (hFrom : From ∈ P.layersOf m₀.Global_Literal_Struct_Map VO)
      (hTo : To ∈ P.layersOf m₀.Global_Literal_Struct_Map PO) (h : PutInto Ms f From) :
      PutInto Ms f To
  | looksSame {CT CT'} (h : PutInto Ms f CT) (hseen : m₀.seenLayer P.T CT' = m₀.seenLayer P.T CT) :
      PutInto Ms f CT'

/-- A function of the type of a call, whose address is taken. -/
def Candidate (Ms : List LLVMModule) (CI : Value) (f : Func) : Prop :=
  P.funcHash f = P.callHash CI ∧
    ∃ M ∈ Ms, f ∈ M.functions ∧ P.isDeclaration f = false ∧ P.hasAddressTaken f = true

/-- The layers that the called operand is known to come from. -/
def calledLayers (CI : Value) : Bool × List CompositeType :=
  match P.getCalledOperand CI with
  | some CV => P.nextLayerBaseType_new m₀.Global_Literal_Struct_Map CV .Precise_Mode
  | none => (false, [])

/-- What a call may go to, as far as its layers tell: if they are not known, to every
    function of its type, and otherwise to those that are put into one of them, as long as
    each of them gets some function of the type. -/
def MayCall (Ms : List LLVMModule) (CI : Value) (f : Func) : Prop :=
  P.Candidate Ms CI f ∧
    ((P.calledLayers m₀ CI).1 = true →
      (∃ CT ∈ (P.calledLayers m₀ CI).2, P.PutInto m₀ Ms f CT) ∧
      ∀ CT ∈ (P.calledLayers m₀ CI).2, ∃ g, P.Candidate Ms CI g ∧ P.PutInto m₀ Ms g CT)

/-- The maps let the layer `From` flow into the layer `To`. -/
def Flow (R : Set Fact) (To From : CompositeType) : Prop :=
  P.T.isStructTy From.1 = true ∧
    .confine (m₀.layerHash P.T To) (m₀.layerHash P.T From) ∈ R ∧
    .layer (m₀.layerHash P.T From) ∈ R

/-- The function is recorded under its own type, or for something that flows into the
    layer, or this has escaped. -/
def Traced (f : Func) (CT : CompositeType) (R : Set Fact) : Prop :=
  .emptyTy (P.funcHash f) f ∈ R ∨
    ∃ CT', Relation.ReflTransGen (P.Flow m₀ R) CT CT' ∧
      (P.T.isStructTy CT'.1 = true ∧ .escape (m₀.layerHash P.T CT') ∈ R ∨
        .func (m₀.layerHash P.T CT') f ∈ R ∧ .sig (P.funcHash f) f ∈ R)

end

section
variable {P : CallProgram} {m₀ m : LayerMaps} {Ms : List LLVMModule} {M : LLVMModule}
  {f F : Func} {CT CT' From To : CompositeType} {SI VO PO GV Ini U V CI : Value}
  {R R' : Set Fact}

/-! ## Rules for the facts -/

theorem Flow.mono (hR : R ⊆ R') (h : P.Flow m₀ R To From) : P.Flow m₀ R' To From :=
  ⟨h.1, hR h.2.1, hR h.2.2⟩

theorem Traced.mono (hR : R ⊆ R') (h : P.Traced m₀ f CT R) : P.Traced m₀ f CT R' := by
  rcases h with hempty | ⟨CT', hflow, hCT'⟩
  · exact Or.inl (hR hempty)
  · refine Or.inr ⟨CT', Relation.ReflTransGen.mono (fun _ _ => Flow.mono hR) _ _ hflow, ?_⟩
    exact hCT'.imp (fun h => ⟨h.1, hR h.2⟩) fun h => ⟨hR h.1, hR h.2⟩

theorem traced_of_escape (hstruct : P.T.isStructTy CT.1 = true)
    (h : .escape (m₀.layerHash P.T CT) ∈ R) : P.Traced m₀ f CT R :=
  Or.inr ⟨CT, .refl, Or.inl ⟨hstruct, h⟩⟩

theorem traced_of_func (h : .func (m₀.layerHash P.T CT) f ∈ R)
    (hsig : .sig (P.funcHash f) f ∈ R) : P.Traced m₀ f CT R :=
  Or.inr ⟨CT, .refl, Or.inr ⟨h, hsig⟩⟩

/-- What is traced to a layer is traced to those that it flows into. -/
theorem Traced.flow (h : P.Traced m₀ f From R) (hflow : P.Flow m₀ R To From) :
    P.Traced m₀ f To R := by
  rcases h with hempty | ⟨CT', hchain, hCT'⟩
  · exact Or.inl hempty
  · exact Or.inr ⟨CT', hchain.head hflow, hCT'⟩

/-- Layers that look the same are asked for with the same hash. -/
theorem Traced.looksSame (h : P.Traced m₀ f CT R)
    (hseen : m₀.seenLayer P.T CT' = m₀.seenLayer P.T CT) : P.Traced m₀ f CT' R := by
  obtain ⟨htype, hi⟩ := Prod.mk.inj hseen
  obtain ⟨hstruct, hname⟩ := Prod.mk.inj htype
  have hhash : m₀.layerHash P.T CT' = m₀.layerHash P.T CT := by
    rw [LayerMaps.layerHash, LayerMaps.layerHash, hname, hi]
  rcases h with hempty | ⟨D, hchain, hD⟩
  · exact Or.inl hempty
  · rcases hchain.cases_head with rfl | ⟨C, hstep, hrest⟩
    · refine Or.inr ⟨CT', .refl, ?_⟩
      rw [hstruct, hhash]
      exact hD
    · refine Or.inr ⟨D, hrest.head ?_, hD⟩
      rw [Flow, hhash]
      exact hstep

/-! ## Stores -/

theorem traced_recordFunc (hname : P.getName f ≠ "") (hm : Named P.T m₀ m) :
    P.Traced m₀ f CT (P.recordFunc CT m f).records := by
  have hsig : f ∈ (P.recordFunc CT m f).sigFuncsMap (P.funcHash f) :=
    mem_sigFuncsMap_recordFunc CT m f
  rcases P.updateStructInfo_cases f CT _ with hempty | hlayer | hnone
  · exact Or.inl hempty
  · refine traced_of_func ?_ hsig
    rw [← hm.layerHash]
    exact hlayer
  · exact absurd hnone hname

theorem traced_recordUnknown : P.Traced m₀ f CT (P.recordUnknown m f).records := by
  refine Or.inl ?_
  show f ∈ (P.recordUnknown m f).Global_EmptyTy_Funcs (P.funcHash f)
  simp [recordUnknown, recordEmptyTy]

theorem traced_escapeLayers (hm : Named P.T m₀ m)
    (hCT : CT ∈ P.layersOf m₀.Global_Literal_Struct_Map PO) :
    P.Traced m₀ f CT (P.escapeLayers SI PO m).records := by
  have hstruct : P.T.isStructTy CT.1 = true := isStructTy_of_layer hCT
  rw [escapeLayers, hm.names]
  refine foldl_of_mem (fun _ _ => Traced.mono) (fun CT _ => additive_escapeType SI CT.1 CT.2) hCT
    (fun m hm => traced_of_escape hstruct ?_) hm
  rw [← hm.layerHash]
  show m.layerHash P.T CT ∈ (m.escapeType P.T SI CT.1 CT.2).typeEscapeSet
  simp [escapeType, hstruct]

theorem traced_confineFunction (hP : P.FuncsNamed) (hF : P.kind F = .function)
    (hf : f ∈ P.definitions F) (hm : Named P.T m₀ m)
    (hCT : CT ∈ P.layersOf m₀.Global_Literal_Struct_Map PO) :
    P.Traced m₀ f CT (P.confineFunction PO 0 m F).records := by
  have hname : ∀ G ∈ inOrder (P.definitions F), P.getName G ≠ "" :=
    fun G hG => hP.definitions hF (mem_inOrder.1 hG)
  have hmem : f ∈ inOrder (P.definitions F) := mem_inOrder.2 hf
  unfold confineFunction
  rw [hm.names]
  dsimp only
  split
  case isTrue hprecise =>
    rw [layersOf, nextLayerBaseType_of_precise hprecise] at hCT
    refine foldl_of_mem (fun _ _ => Traced.mono) (fun CT _ => ?_) hCT (fun m hm => ?_) hm
    · exact (additive_recordTypes _).comp
        (additive_foldl fun G hG => additive_recordFunc _ G (hname G hG))
    · rw [add_zero]
      exact foldl_of_mem (fun _ _ => Traced.mono)
        (fun G hG => additive_recordFunc CT G (hname G hG)) hmem
        (fun m hm => traced_recordFunc (hname f hmem) hm) ((additive_recordTypes CT).keeps hm)
  case isFalse =>
    exact foldl_of_mem (fun _ _ => Traced.mono) (fun G _ => additive_recordUnknown G) hmem
      (fun m hm => traced_recordUnknown) hm

/-- One store of a tracked value. -/
theorem traced_typeConfineInStore_new (hP : P.FuncsNamed) (hops : P.operands SI = [VO, PO])
    (hreach : P.Reaches F VO) (hF : P.kind F = .function) (hf : f ∈ P.definitions F)
    (htracked : P.Tracked m₀.Global_Literal_Struct_Map VO F) (hm : Named P.T m₀ m)
    (hCT : CT ∈ P.layersOf m₀.Global_Literal_Struct_Map PO) :
    P.Traced m₀ f CT (P.typeConfineInStore_new m SI).records := by
  obtain ⟨hfalse, hcases⟩ := htracked
  simp only [typeConfineInStore_new, hops, if_neg hreach.not_constant.1, hm.names, hfalse,
    Bool.false_eq_true, if_false]
  split
  case isTrue =>
    -- the layers of the value are confined, those of the pointer escape
    have hadditive : Additive (Named P.T m₀) records fun m =>
        (P.layersOf m₀.Global_Literal_Struct_Map VO).foldl (P.propagateType PO) m :=
      additive_foldl fun From _ => additive_propagateType PO From
    exact traced_escapeLayers (hadditive.keeps hm) hCT
  case isFalse hempty =>
    obtain ⟨hbase, hfunc⟩ := hcases.resolve_left hempty
    rw [hbase]
    dsimp only
    cases hF' : P.getBaseFunction (P.stripPointerCasts VO) with
    | some F' =>
      rw [hF'] at hfunc
      exact traced_confineFunction hP (hfunc ▸ hF) (hfunc ▸ hf) hm hCT
    | none =>
      rw [hF'] at hfunc
      dsimp only at hfunc ⊢
      rw [if_pos hfunc]
      exact traced_escapeLayers hm hCT

/-! ## Flows between fields -/

theorem flow_confine (hm : Named P.T m₀ m) (hstruct : P.T.isStructTy From.1 = true)
    (hne : To ≠ From) : P.Flow m₀ (confine P.T From m To).records To From := by
  refine ⟨hstruct, ?_, ?_⟩
  · rw [← hm.layerHash]
    show (m.layerHash P.T To, m.layerHash P.T From) ∈ (confine P.T From m To).typeConfineMap
    rw [confine, if_neg hne]
    exact mem_addEntry.2 (Or.inr rfl)
  · rw [← hm.layerHash]
    show ((confine P.T From m To).hashIDTypeMap (m.layerHash P.T From)).isSome = true
    rw [confine, if_neg hne]
    simp

theorem flow_propagateType (hm : Named P.T m₀ m) (hstruct : P.T.isStructTy From.1 = true)
    (hne : To ≠ From) (hTo : To ∈ P.layersOf m₀.Global_Literal_Struct_Map PO) :
    P.Flow m₀ (P.propagateType PO m From).records To From := by
  rw [TypedProgram.propagateType, hm.names, LayerMaps.propagateType]
  exact foldl_of_mem (fun _ _ => Flow.mono) (fun To _ => additive_confine From To) hTo
    (fun m hm => flow_confine hm hstruct hne) hm

/-- A store of what a field holds. -/
theorem flow_typeConfineInStore_new (hops : P.operands SI = [VO, PO])
    (hVO : P.kind VO ≠ .constantData) (hm : Named P.T m₀ m) (hne : To ≠ From)
    (hFrom : From ∈ P.layersOf m₀.Global_Literal_Struct_Map VO)
    (hTo : To ∈ P.layersOf m₀.Global_Literal_Struct_Map PO) :
    P.Flow m₀ (P.typeConfineInStore_new m SI).records To From := by
  have hstruct : P.T.isStructTy From.1 = true := isStructTy_of_layer hFrom
  have hadditive : Additive (Named P.T m₀) records fun m =>
      (P.layersOf m₀.Global_Literal_Struct_Map VO).foldl (P.propagateType PO) m :=
    additive_foldl fun From _ => additive_propagateType PO From
  have hprop : P.Flow m₀ ((P.layersOf m₀.Global_Literal_Struct_Map VO).foldl
      (P.propagateType PO) m).records To From :=
    foldl_of_mem (fun _ _ => Flow.mono) (fun From _ => additive_propagateType PO From) hFrom
      (fun m hm => flow_propagateType hm hstruct hne hTo) hm
  have hsome : (P.nextLayerBaseType_new m₀.Global_Literal_Struct_Map VO .Recall_Mode).2 ≠ [] :=
    List.ne_nil_of_mem hFrom
  simp only [typeConfineInStore_new, hops, if_neg hVO, hm.names, if_pos hsome]
  split
  case isTrue => exact hprop
  case isFalse => exact Flow.mono ((additive_escapeLayers SI PO).subset (hadditive.keeps hm)) hprop

/-! ## Initializers -/

/-- The fuel is enough for all aggregates of an initializer. -/
theorem enough_aggregates (Ini : Value) :
    Enough P.nestedAggregates (insert Ini P.values)
      (∑ U ∈ P.values, (P.operands U).length + 2) [Ini] ∅ := by
  have hle : ∀ U, (P.nestedAggregates U).length ≤ (P.operands U).length :=
    fun U => List.length_filter_le _ _
  refine ⟨by simp, ?_, ?_⟩
  · intro V _ U hU
    have hmem : U ∈ P.operands V := (List.mem_filter.1 hU).1
    exact Finset.mem_insert_of_mem (P.mem_values U V hmem).1
  · have hsum : ∑ U ∈ insert Ini P.values, (P.nestedAggregates U).length ≤
        ∑ U ∈ P.values, (P.operands U).length := by
      by_cases hIni : Ini ∈ P.values
      · rw [Finset.insert_eq_of_mem hIni]
        exact Finset.sum_le_sum fun U _ => hle U
      · -- such a value has no operands
        have hnil : P.operands Ini = [] := by
          refine List.eq_nil_iff_forall_not_mem.2 fun o ho => ?_
          exact hIni (P.mem_values o Ini ho).2
        have hzero : (P.nestedAggregates Ini).length = 0 := by
          have hnone := hle Ini
          rw [hnil] at hnone
          exact Nat.le_zero.1 hnone
        rw [Finset.sum_insert hIni, hzero, zero_add]
        exact Finset.sum_le_sum fun U _ => hle U
    rw [Finset.sdiff_empty, List.length_singleton]
    omega

/-- One aggregate. -/
theorem traced_confineOperands (hP : P.FuncsNamed) {j : ℕ} {O : Value}
    (hO : (P.operands U)[j]? = some O) (hF : P.initializerFunc O = some F)
    (hf : f ∈ P.definitions F) (hm : Named P.T m₀ m) :
    P.Traced m₀ f (P.getType U, (j : ℤ)) (P.confineOperands m U).records := by
  have hname : ∀ {O' F'}, P.initializerFunc O' = some F' →
      ∀ G ∈ inOrder (P.definitions F'), P.getName G ≠ "" :=
    fun hF' G hG => hP.definitions (kind_of_initializerFunc hF') (mem_inOrder.1 hG)
  have hmem : (O, j) ∈ (P.operands U).zipIdx := List.mem_zipIdx_iff_getElem?.2 hO
  refine foldl_of_mem (I := Named P.T m₀) (fun _ _ => Traced.mono) (fun e _ => ?_) hmem
    (fun m hm => ?_) hm
  · split
    case h_1 F' hF' =>
      exact additive_foldl fun G hG =>
        (additive_recordTypes _).comp (additive_recordFunc _ G (hname hF' G hG))
    · exact additive_id
  · simp only [hF]
    refine foldl_of_mem (I := Named P.T m₀) (fun _ _ => Traced.mono) (fun G hG => ?_)
      (mem_inOrder.2 hf) (fun m hm => ?_) hm
    · exact (additive_recordTypes _).comp (additive_recordFunc _ G (hname hF G hG))
    · exact traced_recordFunc (hname hF f (mem_inOrder.2 hf)) ((additive_recordTypes _).keeps hm)

/-- One initializer. -/
theorem traced_visitGlobal (hP : P.FuncsNamed) {j : ℕ} {O : Value} (hIni : P.GoesThrough GV Ini)
    (hU : Relation.ReflTransGen (fun V W => W ∈ P.nestedAggregates V) Ini U)
    (hO : (P.operands U)[j]? = some O) (hF : P.initializerFunc O = some F)
    (hf : f ∈ P.definitions F) (hm : Named P.T m₀ m) :
    P.Traced m₀ f (P.getType U, (j : ℤ)) (P.visitGlobal m GV).records := by
  obtain ⟨hname, hini, hkind, hused⟩ := hIni
  have horder : U ∈ bfsOrder P.nestedAggregates (∑ U ∈ P.values, (P.operands U).length + 2)
      [Ini] ∅ := (mem_bfsOrder_iff (enough_aggregates Ini)).2 ⟨Ini, by simp, hU⟩
  rw [visitGlobal, if_neg hname, typeConfineInInitializer, hini]
  simp only [hkind, ne_eq, not_true_eq_false, if_false, if_neg hused]
  exact foldl_of_mem (fun _ _ => Traced.mono) (fun U _ => additive_confineOperands hP U) horder
    (fun m hm => traced_confineOperands hP hO hF hf hm) hm

/-! ## All modules -/

/-- What one visit brings about holds after all of them. -/
theorem foldl_of_visit {Q : Set Fact → Prop} (hP : P.FuncsNamed)
    (hQ : ∀ R R', R ⊆ R' → Q R → Q R') {V : Value ⊕ Value} (hV : V ∈ Ms.flatMap visits)
    (h : ∀ m, Named P.T m₀ m → Q (P.visit m V).records) (hm : Named P.T m₀ m) :
    Q (Ms.foldl P.doInitialization m).records := by
  rw [foldl_doInitialization]
  exact foldl_of_mem hQ (fun V _ => additive_visit hP V) hV h hm

theorem foldl_of_inst {Q : Set Fact → Prop} (hP : P.FuncsNamed)
    (hQ : ∀ R R', R ⊆ R' → Q R → Q R') {I : Value} (hI : P.IsInst Ms I)
    (h : ∀ m, Named P.T m₀ m → Q (P.visitInst m I).records) (hm : Named P.T m₀ m) :
    Q (Ms.foldl P.doInitialization m).records := by
  obtain ⟨M, hM, F, hF, hbody, hI⟩ := hI
  have hV : .inr F ∈ Ms.flatMap visits :=
    List.mem_flatMap.2 ⟨M, hM, List.mem_append_right _ (List.mem_map_of_mem hF)⟩
  refine foldl_of_visit hP hQ hV (fun m hm => ?_) hm
  have hinsts : Additive (Named P.T m₀) records fun m => (P.insts F).foldl P.visitInst m :=
    additive_foldl fun I _ => additive_visitInst hP I
  have hcasts : Additive (Named P.T m₀) records fun m =>
      (inOrder (P.castSet F)).foldl P.visitCast m :=
    additive_foldl fun Cast _ => additive_visitCast Cast
  have hafter : Q ((inOrder (P.castSet F)).foldl P.visitCast
      ((P.insts F).foldl P.visitInst m)).records :=
    hQ _ _ (hcasts.subset (hinsts.keeps hm))
      (foldl_of_mem hQ (fun I _ => additive_visitInst hP I) hI h hm)
  show Q (P.visitFunction m F).records
  rw [visitFunction, hbody]
  simp only [Bool.false_eq_true, if_false]
  split
  case isTrue =>
    exact hQ _ _ ((additive_recordSig _ F).subset (hcasts.keeps (hinsts.keeps hm))) hafter
  case isFalse => exact hafter

/-- **The initialization.**  What the modules put into the fields is traced to them. -/
theorem traced_putInto (hP : P.FuncsNamed) (h : P.PutInto m₀ Ms f CT) (hm : Named P.T m₀ m) :
    P.Traced m₀ f CT (Ms.foldl P.doInitialization m).records := by
  induction h with
  | store hSI hkind hops hreach hF hf htracked hCT =>
    refine foldl_of_inst hP (fun _ _ => Traced.mono) hSI (fun m hm => ?_) hm
    rw [visitInst, hkind]
    exact traced_typeConfineInStore_new hP hops hreach hF hf htracked hm hCT
  | init hM hGV hIni hU hO hF hf =>
    have hV : .inl _ ∈ Ms.flatMap visits :=
      List.mem_flatMap.2 ⟨_, hM, List.mem_append_left _ (List.mem_map_of_mem hGV)⟩
    exact foldl_of_visit hP (fun _ _ => Traced.mono) hV
      (fun m hm => traced_visitGlobal hP hIni hU hO hF hf hm) hm
  | @flow SI VO PO From To hSI hkind hops hVO hFrom hTo _ ih =>
    by_cases hne : To = From
    · exact hne ▸ ih
    · refine ih.flow (foldl_of_inst hP (fun _ _ => Flow.mono) hSI (fun m hm => ?_) hm)
      rw [visitInst, hkind]
      exact flow_typeConfineInStore_new hops hVO hm hne hFrom hTo
  | looksSame _ hseen ih => exact ih.looksSame hseen

/-- A function whose address is taken is recorded under its type. -/
theorem Candidate.sig (h : P.Candidate Ms CI f) :
    f ∈ (Ms.foldl P.doInitialization m).sigFuncsMap (P.callHash CI) := by
  obtain ⟨htype, M, hM, hf, hbody, htaken⟩ := h
  rw [← htype]
  obtain ⟨Ms₁, Ms₂, rfl⟩ := List.append_of_mem hM
  obtain ⟨Fs₁, Fs₂, hFs⟩ := List.append_of_mem hf
  rw [List.foldl_append, List.foldl_cons]
  refine (grows_foldl grows_doInitialization Ms₂ _).sig _ ?_
  rw [TypedProgram.doInitialization, hFs, List.foldl_append, List.foldl_cons]
  refine (grows_foldl grows_visitFunction Fs₂ _).sig _ ?_
  simp [visitFunction, hbody, htaken, recordSig]

/-! ## The query -/

/-- A chain of flows is one of entries of the confinement map. -/
theorem transGen_of_flows (hhash : m.layerHash P.T = m₀.layerHash P.T)
    (h : Relation.TransGen (P.Flow m₀ m.records) CT CT') :
    Relation.TransGen (Step (entries m.typeConfineMap)) (m.layerHash P.T CT)
      (m.layerHash P.T CT') := by
  refine Relation.TransGen.lift (m.layerHash P.T) (fun To From hflow => ?_) _ _ h
  rw [hhash]
  exact mem_entries.2 hflow.2.1

/-- The layer at the end of a chain can be looked up. -/
theorem exists_layer (h : Relation.TransGen (P.Flow m₀ m.records) CT CT') :
    (m.hashIDTypeMap (m₀.layerHash P.T CT')).isSome = true ∧ P.T.isStructTy CT'.1 = true := by
  cases h with
  | single hflow => exact ⟨hflow.2.2, hflow.1⟩
  | tail _ hflow => exact ⟨hflow.2.2, hflow.1⟩

/-- **A query** of a layer that the function is traced to. -/
theorem Traced.query (h : P.Traced m₀ f CT m.records) (hkeyed : EscapesKeyed P.T m)
    (hnames : m.Global_Literal_Struct_Map = m₀.Global_Literal_Struct_Map) {Pre : Finset Func}
    (hPre : m.sigFuncsMap (P.funcHash f) ⊆ Pre) (n : ℕ) :
    (m.findCalleesWithTwoLayerTA P.T P.getName P.order (P.funcHash f) Pre CT.1 CT.2
        n).escape.isSome ∨
      f ∈ (m.findCalleesWithTwoLayerTA P.T P.getName P.order (P.funcHash f) Pre CT.1 CT.2
        n).FS := by
  have hhash : m.layerHash P.T = m₀.layerHash P.T := layerHash_congr hnames
  rcases h with hempty | ⟨CT', hchain, hCT'⟩
  · exact Recorded.query (Or.inr hempty) hPre n
  rw [← hhash] at hCT'
  rcases Relation.reflTransGen_iff_eq_or_transGen.1 hchain with rfl | htrans
  · rcases hCT' with ⟨hstruct, hesc⟩ | ⟨hf, hsig⟩
    · obtain ⟨k, hk⟩ := Option.isSome_iff_exists.1 (isEscape_isSome.2 ⟨hstruct, hesc⟩)
      refine Or.inl ?_
      rw [findCalleesWithTwoLayerTA, hk]
      rfl
    · exact Recorded.query (Or.inl ⟨Finset.mem_union_right _ hf, hsig⟩) hPre n
  · -- the search along the confinements passes the end of the chain
    have hpassed : Passed P.T m CT.1 CT.2 (m.layerStop P.T (m.layerHash P.T CT'))
        (m.layerFuncs P.T (m.layerHash P.T CT')) := .layers (transGen_of_flows hhash htrans)
    obtain ⟨hlayer, hstruct⟩ := exists_layer htrans
    obtain ⟨D, hD⟩ := Option.isSome_iff_exists.1 hlayer
    rw [← hhash] at hD
    rcases findCalleesWithTwoLayerTA_cases (T := P.T) (m := m) (t := CT.1) (i := CT.2) P.getName
      P.order (P.funcHash f) Pre n with ⟨k, hk, -⟩ | ⟨-, hno, hfuncs⟩
    · exact Or.inl (by rw [hk]; rfl)
    · rcases hCT' with ⟨-, hesc⟩ | ⟨hf, hsig⟩
      · obtain ⟨hDstruct, hDhash⟩ := hkeyed.field ⟨CT', hstruct, rfl⟩ hD
        have hDesc : m.layerHash P.T D ∈ m.typeEscapeSet := hDhash ▸ hesc
        obtain ⟨k, hk⟩ := Option.isSome_iff_exists.1
          (isEscape_isSome (T := P.T) (m := m).2 ⟨hDstruct, hDesc⟩)
        refine absurd ?_ (hno k (m.layerFuncs P.T (m.layerHash P.T CT')))
        have hstop : m.layerStop P.T (m.layerHash P.T CT') = some k := by
          rw [layerStop, hD]
          exact hk
        rw [← hstop]
        exact hpassed
      · refine Or.inr (hfuncs _ _ hpassed f ?_ (hPre hsig))
        rw [layerFuncs, hD]
        exact Finset.mem_union_left _ hf

/-- The maps of a pass over the calls. -/
structure After (P : CallProgram) (m₀ : LayerMaps) (Ms : List LLVMModule) (m : LayerMaps) :
    Prop extends EscapesKeyed P.T m where
  names : m.Global_Literal_Struct_Map = m₀.Global_Literal_Struct_Map
  records : (Ms.foldl P.doInitialization m₀).records ⊆ m.records

theorem After.query (h : P.After m₀ Ms m) (hP : P.FuncsNamed) (hput : P.PutInto m₀ Ms f CT)
    (htype : P.funcHash f = P.callHash CI) {S : Finset Func}
    (hS : m.sigFuncsMap (P.callHash CI) ⊆ S) :
    m.Escapes P.T P.getName P.order (P.callHash CI) CT ∨
      f ∈ m.layerTargets P.T P.getName P.order (P.callHash CI) S CT := by
  have htraced : P.Traced m₀ f CT m.records :=
    (traced_putInto hP hput ⟨rfl, subset_rfl, fun _ => Or.inl⟩).mono h.records
  have hquery := htraced.query h.toEscapesKeyed h.names (htype ▸ hS) 0
  rw [htype] at hquery
  rcases hquery with hesc | hf
  · refine Or.inl ?_
    by_contra hno
    rw [← escape_isNone_iff S 0, ← Option.not_isSome, hesc] at hno
    cases hno
  · exact Or.inr hf

/-- **A call.**  What it may go to is found in all maps that come after the initialization. -/
theorem MayCall.mem (h : P.MayCall m₀ Ms CI f) (hP : P.FuncsNamed) (hm : P.After m₀ Ms m) :
    f ∈ (P.findCalleesWithMLTA m CI).2 := by
  obtain ⟨hcandidate, hlayers⟩ := h
  have hfact : Fact.sig (P.callHash CI) f ∈ (Ms.foldl P.doInitialization m₀).records :=
    hcandidate.sig
  have hsig : f ∈ m.sigFuncsMap (P.callHash CI) := hm.records hfact
  have hafter : P.afterOneLayer m CI = m := afterOneLayer_of_mem hsig
  have hone : (P.operandInfo m CI).oneLayer = m.sigFuncsMap (P.callHash CI) := by
    show (P.afterOneLayer m CI).sigFuncsMap (P.callHash CI) = _
    rw [hafter]
  have hnext : ((P.operandInfo m CI).layer_result, (P.operandInfo m CI).TyList) =
      P.calledLayers m₀ CI := by
    rw [calledLayers, ← hm.names]
    rfl
  have hresult : (P.operandInfo m CI).layer_result = (P.calledLayers m₀ CI).1 :=
    congrArg Prod.fst hnext
  have hTyList : (P.operandInfo m CI).TyList = (P.calledLayers m₀ CI).2 :=
    congrArg Prod.snd hnext
  have hne : m.sigFuncsMap (P.callHash CI) ≠ ∅ := Finset.ne_empty_of_mem hsig
  rw [CallProgram.findCalleesWithMLTA, hafter, LayerMaps.findCalleesWithMLTA, hone, if_neg hne,
    hresult, hTyList]
  by_cases hprecise : (P.calledLayers m₀ CI).1 = true
  · rw [if_pos hprecise]
    obtain ⟨⟨CT, hCT, hput⟩, hall⟩ := hlayers hprecise
    show f ∈ (resolveTAResult ((P.calledLayers m₀ CI).2.foldl
      (m.analyzeLayer P.T P.getName P.order (P.callHash CI)) _)).2
    rw [resolve_of_noBlank]
    · unfold combined
      split
      case isTrue => exact hsig
      case isFalse hesc =>
        refine Finset.mem_biUnion.2 ⟨CT, List.mem_toFinset.2 hCT, ?_⟩
        exact (hm.query hP hput hcandidate.1 subset_rfl).resolve_left fun h => hesc ⟨CT, hCT, h⟩
    · intro CT hCT hblank
      obtain ⟨g, hg, hput⟩ := hall CT hCT
      rcases hm.query hP hput hg.1 subset_rfl with hesc | hmem
      · exact hblank.1 hesc
      · exact Finset.notMem_empty g (hblank.2 ▸ hmem)
  · rw [if_neg hprecise]
    exact hsig

/-! ## The pass -/

theorem After.afterOneLayer (h : P.After m₀ Ms m) (CI : Value) :
    P.After m₀ Ms (P.afterOneLayer m CI) := by
  unfold CallProgram.afterOneLayer
  split
  case isTrue =>
    unfold resolveVariableParameters
    split
    case isTrue =>
      have hself : Named P.T m m := ⟨rfl, subset_rfl, fun _ => Or.inl⟩
      exact ⟨h.toEscapesKeyed.congr rfl rfl rfl rfl, h.names,
        h.records.trans ((additive_sigFuncsMap _ _).subset hself)⟩
    case isFalse => exact h
  case isFalse => exact h

theorem after_initialization (names : Key → Option String) (unions : Finset Key) :
    P.After (builtTypes names unions) Ms
      (Ms.foldl P.doInitialization (builtTypes names unions)) where
  toEscapesKeyed := (escapesKeyed_builtTypes names unions).foldl fun M _ _ hm =>
    escapesKeyed_doInitialization hm M
  names := (grows_foldl grows_doInitialization Ms _).names
  records := subset_rfl

/-- The maps after the pass over the calls, and what the pass has entered. -/
theorem found_callGraph (hP : P.FuncsNamed) {names : Key → Option String} {unions : Finset Key}
    (h : P.MayCall (builtTypes names unions) Ms CI f) :
    P.After (builtTypes names unions) Ms (P.callGraph (builtTypes names unions) Ms).layers ∧
      (((P.callGraph (builtTypes names unions) Ms).Global_MLTA_Reualt_Map CI).isSome →
        f ∈ (P.callGraph (builtTypes names unions) Ms).ICallees CI) := by
  refine callGraph_induction (I := fun g => P.After (builtTypes names unions) Ms g.layers ∧
    ((g.Global_MLTA_Reualt_Map CI).isSome → f ∈ g.ICallees CI)) ?_
    ⟨after_initialization names unions, fun h => by cases h⟩
  rintro M - F - CI' - g id ⟨hg, hfound⟩
  rcases P.visitCall_cases F g id CI' with heq | ⟨-, hnew, heq⟩ | ⟨-, -, heq⟩
  · rw [heq]
    exact ⟨hg, hfound⟩
  · rw [heq, visitIndirectCall, if_neg hnew]
    refine ⟨hg.afterOneLayer CI', fun hsome => ?_⟩
    dsimp only at hsome ⊢
    by_cases hCI : CI = CI'
    · subst hCI
      rw [Function.update_self]
      exact h.mem hP hg
    · rw [Function.update_of_ne hCI] at hsome ⊢
      exact hfound hsome
  · rw [heq]
    exact ⟨hg, hfound⟩

/-- **The call graph.**  If all literal structs have names, no query makes an entry for one, and
    a call that the pass has entered has all functions among its targets that it may call
    through its layers. -/
theorem targets_callGraph (hP : P.FuncsNamed) (B : P.NamedLiterals)
    (h : P.MayCall (builtTypes B.names B.unions) Ms CI f)
    (hentered : ((P.callGraph (builtTypes B.names B.unions)
      Ms).Global_MLTA_Reualt_Map CI).isSome) :
    (∀ q, (P.runQuery (P.callGraph (builtTypes B.names B.unions) Ms).layers
      q).Global_Literal_Struct_Map = B.names) ∧
    f ∈ (P.callGraph (builtTypes B.names B.unions) Ms).ICallees CI :=
  ⟨B.runQuery (found_callGraph hP h).1.names, (found_callGraph hP h).2 hentered⟩

end

/-! ## A function that moves on -/

/-- Pointers, the structs `A` and `B`, and integers. -/
def typesOfFields : TypeTable where
  print t := match t with | 0 => "ptr" | 1 => "%struct.A" | 2 => "%struct.B" | _ => "i32"
  isStructTy t := t = 1 ∨ t = 2
  isArrayTy _ := false
  isLiteral _ := false
  getStructName t := if t = 1 then "struct.A" else if t = 2 then "struct.B" else ""
  isPointerTy t := t = 0
  same_print t t' h := by
    rcases t with _ | _ | _ | t <;> rcases t' with _ | _ | _ | t' <;> simp_all

/-- `struct A ops = { f }; run(q) { q->hook = ops.hook; q->hook(); }`, with a `B` at `q`: the
    functions `0` and `1`, the global `4` with its initializer `3`, the store `9` of what is
    loaded from the field `6`, the call `12` of what is loaded from there. -/
def fieldToField : CallProgram where
  toProgram :=
    { Program.ofTable
        [(.function, []), (.function, []), (.constantData, []), (.constantAggregate, [0]),
          (.globalVariable, [3]), (.argument, []), (.instruction .getElementPtr, [4, 2, 2]),
          (.instruction .load, [6]), (.instruction .getElementPtr, [5, 2, 2]),
          (.instruction .store, [7, 8]), (.instruction .getElementPtr, [5, 2, 2]),
          (.instruction .load, [10]), (.instruction .call, [11]), (.instruction .ret, [])]
        (by decide) with
      getName := fun v => if v = 0 then "f" else if v = 4 then "ops" else "run"
      getInitializer := fun v => if v = 4 then some 3 else none
      getSExtValue := fun v => if v = 2 then some 0 else none
      insts := fun F => if F = 1 then [6, 7, 8, 9, 10, 11, 12, 13] else [13]
      isDeclaration := fun _ => false
      hasAddressTaken := fun F => F = 0 }
  T := typesOfFields
  getType v := if v = 3 then 1 else if v = 2 then 3 else 0
  getSourceElementType v := if v = 6 then 1 else 2

abbrev fieldModules : List LLVMModule :=
  [{ globals := [], functions := [1] }, { globals := [4], functions := [0] }]

/-- The function of the initializer is taken on to the field of the call. -/
theorem putInto_fieldToField :
    fieldToField.PutInto (builtTypes (fun _ => none) ∅) fieldModules 0 (2, 0) := by
  have hSI : fieldToField.IsInst fieldModules 9 :=
    ⟨{ globals := [], functions := [1] }, by simp, 1, by simp, rfl, by decide⟩
  have hinit : fieldToField.PutInto (builtTypes (fun _ => none) ∅) fieldModules 0 (1, 0) :=
    .init (M := { globals := [4], functions := [0] }) (i := 0) (by simp) (by simp)
      (by decide : fieldToField.GoesThrough 4 3) .refl rfl rfl (by decide)
  exact .flow hSI rfl rfl (by decide) (by decide) (by decide) hinit

theorem funcsNamed_fieldToField : fieldToField.FuncsNamed := by
  refine ⟨fun F _ => ?_, fun k F hk => by cases hk⟩
  show (if F = 0 then "f" else if F = 4 then "ops" else "run") ≠ ""
  split_ifs <;> decide

/-- The call is to the field. -/
theorem mayCall_fieldToField :
    fieldToField.MayCall (builtTypes (fun _ => none) ∅) fieldModules 12 0 := by
  have hcandidate : fieldToField.Candidate fieldModules 12 0 :=
    ⟨rfl, { globals := [4], functions := [0] }, by simp, by simp, rfl, rfl⟩
  have hlayers : (fieldToField.calledLayers (builtTypes (fun _ => none) ∅) 12).2 = [(2, 0)] := by
    decide
  refine ⟨hcandidate, fun _ => ?_⟩
  rw [hlayers]
  refine ⟨⟨(2, 0), List.mem_singleton_self _, putInto_fieldToField⟩, fun CT hCT => ?_⟩
  rw [List.mem_singleton.1 hCT]
  exact ⟨0, hcandidate, putInto_fieldToField⟩

/-- There are no literal structs. -/
def literals_fieldToField : fieldToField.NamedLiterals where
  names _ := none
  unions := ∅
  named t _ h := by cases h

theorem targets_callGraph_fieldToField :
    0 ∈ (fieldToField.callGraph (builtTypes (fun _ => none) ∅) fieldModules).ICallees 12 :=
  (targets_callGraph funcsNamed_fieldToField literals_fieldToField mayCall_fieldToField
    (by decide)).2

end CallProgram

end TFA
