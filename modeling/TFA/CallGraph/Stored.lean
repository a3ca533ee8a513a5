/-
  Functions that are stored to a layer are found there.

  A function that reaches the value operand of a store should be a target of every
  layer of the pointer operand, unless the layer has escaped.

  * `Reaches`: a function reaches a value through casts, phis, selects and loads;
  * `Tracked`: the analysis sees where the value operand comes from, or sees that it
    does not;
  * `Stored`: what the maps have to hold for a layer and a function.  A store whose
    value is tracked sees to it (`stored_typeConfineInStore_new`), and it stays so
    to the end of the initialization;
  * `target_of_store`: what a query of the layer then returns;
  * `stored_of_not_tracked`: a store of any other value adds nothing;
  * `target_of_store_lost`: a function that is loaded from an initialized global
    before it is stored is not recorded at all.
-/
import TFA.CallGraph.MLTA
import TFA.CallGraph.Confinement

namespace TFA

open LayerMaps

namespace TypedProgram

section
variable (P : TypedProgram)

/-- The address of a function reaches a value. -/
inductive Reaches (F : Func) : Value → Prop
  | self (hF : P.kind F = .function) : Reaches F F
  | cast {V o op} (hV : P.kind V = .instruction op ∨ P.kind V = .constantExpr op)
      (hop : isCastOpcode op = true) (ho : P.operand0 V = some o) (h : Reaches F o) : Reaches F V
  | phi {V o} (hV : P.kind V = .instruction .phi) (ho : o ∈ P.operands V) (h : Reaches F o) :
      Reaches F V
  | select {V o} (hV : P.kind V = .instruction .select) (ho : o ∈ (P.operands V).drop 1)
      (h : Reaches F o) : Reaches F V
  /-- a load from a global with the function as initializer -/
  | init {V g} (hV : P.kind V = .instruction .load) (hg : P.operands V = [g])
      (hkind : P.kind g = .globalVariable) (hinit : P.getInitializer g = some F)
      (hF : P.kind F = .function) : Reaches F V
  /-- a load from a pointer that a store writes to -/
  | load {V p SI w} (hV : P.kind V = .instruction .load) (hp : P.operands V = [p])
      (hSI : P.kind SI = .instruction .store) (hw : P.operands SI = [w, p]) (h : Reaches F w) :
      Reaches F V

/-- The layers of a pointer. -/
def layersOf (names : Key → Option String) (PO : Value) : List CompositeType :=
  (P.nextLayerBaseType_new names PO .Recall_Mode).2

/-- `nextLayerBaseType_new` fails on a value, so that something is done about it: it
    has layers, or it has no base type and is the function itself or a pointer. -/
def Tracked (names : Key → Option String) (VO : Value) (F : Func) : Prop :=
  (P.nextLayerBaseType_new names VO .Recall_Mode).1 = false ∧
    (P.layersOf names VO ≠ [] ∨ P.getBaseType VO = none ∧
      match P.getBaseFunction (P.stripPointerCasts VO) with
      | some F' => F' = F
      | none => P.T.isPointerTy (P.getType VO) = true)

instance (names : Key → Option String) (VO : Value) (F : Func) :
    Decidable (P.Tracked names VO F) := by
  unfold Tracked
  cases P.getBaseFunction (P.stripPointerCasts VO) <;> infer_instance

/-- The layer has escaped, the function is recorded for it, or the function is
    recorded under its own type. -/
def Stored (f : Func) (CT : CompositeType) (m : LayerMaps) : Prop :=
  (P.T.isStructTy CT.1 = true ∧ m.layerHash P.T CT ∈ m.typeEscapeSet) ∨
    (f ∈ m.typeFuncsMap (P.T.typeIdxHash CT.1 CT.2) ∧ f ∈ m.sigFuncsMap (P.funcHash f)) ∨
    f ∈ m.Global_EmptyTy_Funcs (P.funcHash f)

/-- The function is recorded for the layer, or under its own type. -/
def Recorded (f : Func) (CT : CompositeType) (m : LayerMaps) : Prop :=
  f ∈ m.typeFuncsMap (P.T.typeIdxHash CT.1 CT.2) ∪ m.typeFuncsMap (m.layerHash P.T CT) ∧
      f ∈ m.sigFuncsMap (P.funcHash f) ∨
    f ∈ m.Global_EmptyTy_Funcs (P.funcHash f)

end

section
variable {P : TypedProgram} {m m' : LayerMaps} {f F : Func} {CT : CompositeType}
  {SI VO PO : Value}

/-- A value that a function reaches is no data and no aggregate. -/
theorem Reaches.not_constant (h : P.Reaches F VO) :
    P.kind VO ≠ .constantData ∧ P.kind VO ≠ .constantAggregate := by
  cases h with
  | self hF => simp [hF]
  | cast hV => rcases hV with hV | hV <;> simp [hV]
  | phi hV => simp [hV]
  | select hV => simp [hV]
  | init hV => simp [hV]
  | load hV => simp [hV]

theorem Stored.grows (h : P.Stored f CT m) (hg : Grows m m') : P.Stored f CT m' := by
  have hL : m'.layerHash P.T = m.layerHash P.T := layerHash_congr hg.names
  rcases h with ⟨hs, hesc⟩ | ⟨hf, hsig⟩ | hf
  · exact Or.inl ⟨hs, by rw [hL]; exact hg.escaped hesc⟩
  · exact Or.inr (Or.inl ⟨hg.funcs _ hf, hg.sig _ hsig⟩)
  · exact Or.inr (Or.inr (hg.emptyTy _ hf))

/-- What one step of a loop records is recorded in the end. -/
theorem stored_foldl {α : Type*} {g : LayerMaps → α → LayerMaps} (hg : ∀ m a, Grows m (g m a))
    {l : List α} {a : α} (ha : a ∈ l) (h : ∀ m', Grows m m' → P.Stored f CT (g m' a)) :
    P.Stored f CT (l.foldl g m) := by
  obtain ⟨before, after, rfl⟩ := List.append_of_mem ha
  rw [List.foldl_append, List.foldl_cons]
  exact (h _ (grows_foldl hg before m)).grows (grows_foldl hg after _)

/-! ## One store -/

theorem stored_escapeLayers (hCT : CT ∈ P.layersOf m.Global_Literal_Struct_Map PO) :
    P.Stored f CT (P.escapeLayers SI PO m) := by
  refine stored_foldl (fun _ _ => grows_escapeType _ _ _) hCT ?_
  intro m' _
  have hs : P.T.isStructTy CT.1 = true := isStructTy_of_layer hCT
  refine Or.inl ⟨hs, ?_⟩
  rw [escapeType, if_pos hs]
  exact Finset.mem_insert_self _ _

theorem stored_recordFunc : P.Stored f CT (P.recordFunc CT m f) := by
  refine Stored.grows ?_ (grows_updateStructInfo f CT)
  exact Or.inr (Or.inl ⟨by simp [recordSig], by simp [recordSig]⟩)

theorem stored_recordUnknown : P.Stored f CT (P.recordUnknown m f) :=
  Or.inr (Or.inr (by simp [recordUnknown, recordEmptyTy]))

theorem stored_confineFunction (hf : f ∈ P.definitions F)
    (hCT : CT ∈ P.layersOf m.Global_Literal_Struct_Map PO) :
    P.Stored f CT (P.confineFunction PO 0 m F) := by
  unfold confineFunction
  dsimp only
  split
  case isTrue hprecise =>
    rw [layersOf, nextLayerBaseType_of_precise hprecise] at hCT
    refine stored_foldl (fun m _ => ?_) hCT ?_
    · exact (grows_recordTypes _).trans (grows_foldl (grows_recordFunc _) _ _)
    · intro m' _
      rw [add_zero]
      exact stored_foldl (grows_recordFunc CT) (mem_inOrder.2 hf) fun _ _ => stored_recordFunc
  case isFalse =>
    exact stored_foldl grows_recordUnknown (mem_inOrder.2 hf) fun _ _ => stored_recordUnknown

/-- **One store.**  A store of a tracked value records the functions that reach it for
    the layers of the pointer. -/
theorem stored_typeConfineInStore_new (hops : P.operands SI = [VO, PO]) (hreach : P.Reaches F VO)
    (hf : f ∈ P.definitions F) (htracked : P.Tracked m.Global_Literal_Struct_Map VO F)
    (hCT : CT ∈ P.layersOf m.Global_Literal_Struct_Map PO) :
    P.Stored f CT (P.typeConfineInStore_new m SI) := by
  obtain ⟨hfalse, hcases⟩ := htracked
  simp only [typeConfineInStore_new, hops, if_neg hreach.not_constant.1, hfalse,
    Bool.false_eq_true, if_false]
  split
  case isTrue =>
    -- the layers of the value are confined, those of the pointer escape
    have hg := grows_foldl (grows_propagateType (P := P) PO)
      (P.layersOf m.Global_Literal_Struct_Map VO) m
    exact stored_escapeLayers (by rwa [← hg.names] at hCT)
  case isFalse hempty =>
    obtain ⟨hbase, hfunc⟩ := hcases.resolve_left hempty
    rw [hbase]
    dsimp only
    cases hF : P.getBaseFunction (P.stripPointerCasts VO) with
    | some F' =>
      rw [hF] at hfunc
      exact stored_confineFunction (hfunc ▸ hf) hCT
    | none =>
      rw [hF] at hfunc
      dsimp only at hfunc ⊢
      rw [if_pos hfunc]
      exact stored_escapeLayers hCT

/-- A store of any other value that the function reaches records nothing for it. -/
theorem stored_of_not_tracked (hops : P.operands SI = [VO, PO]) (hreach : P.Reaches F VO)
    (hstrip : ∀ F', P.getBaseFunction (P.stripPointerCasts VO) = some F' → F' = F)
    (htracked : ¬ P.Tracked m.Global_Literal_Struct_Map VO F)
    (h : P.Stored f CT (P.typeConfineInStore_new m SI)) : P.Stored f CT m := by
  simp only [typeConfineInStore_new, hops, if_neg hreach.not_constant.1] at h
  split at h
  case isTrue => exact h.grows (grows_of_foldl (fun _ _ => grows_of_propagateType _ _ _) _ _)
  case isFalse hnext =>
    rw [Bool.not_eq_true] at hnext
    split at h
    case isTrue hlayers => exact absurd ⟨hnext, Or.inl hlayers⟩ htracked
    case isFalse =>
      split at h
      case h_1 t ht => rwa [confineVector, if_neg (by simp [hreach.not_constant.2])] at h
      case h_2 hbase =>
        cases hF : P.getBaseFunction (P.stripPointerCasts VO) with
        | some F' =>
          exact absurd ⟨hnext, Or.inr ⟨hbase, by rw [hF]; exact hstrip F' hF⟩⟩ htracked
        | none =>
          rw [hF] at h
          dsimp only at h
          split at h
          case isTrue hptr => exact absurd ⟨hnext, Or.inr ⟨hbase, by rw [hF]; exact hptr⟩⟩ htracked
          case isFalse => exact h

/-! ## The query -/

/-- A query of a layer that the function is recorded for returns it, or reports an escape
    of something that flows into the layer. -/
theorem Recorded.query (h : P.Recorded f CT m) {Pre : Finset Func}
    (hPre : m.sigFuncsMap (P.funcHash f) ⊆ Pre) (n : ℕ) :
    (m.findCalleesWithTwoLayerTA P.T P.getName P.order (P.funcHash f) Pre CT.1 CT.2
        n).escape.isSome ∨
      f ∈ (m.findCalleesWithTwoLayerTA P.T P.getName P.order (P.funcHash f) Pre CT.1 CT.2
        n).FS := by
  have hcases := findCalleesWithTwoLayerTA_cases (T := P.T) (m := m) (t := CT.1) (i := CT.2)
    P.getName P.order (P.funcHash f) Pre n
  rcases hcases with ⟨k, hk, -⟩ | ⟨hnone, -, hfuncs⟩
  · exact Or.inl (by rw [hk]; rfl)
  · refine Or.inr ?_
    rcases h with ⟨hf, hsig⟩ | hf
    · exact hfuncs _ _ .start f hf (hPre hsig)
    · obtain ⟨r, hr⟩ := exists_merge_set P.T m P.getName P.order (P.funcHash f) CT.1 CT.2
      have hok := (hr Pre n).1
      rw [(hr Pre n).2]
      rw [hnone] at hok
      cases r with
      | error k => cases hok
      | ok merge_set => exact Finset.mem_union_right _ hf

/-- A query of the layer, at a call of the type of the function and with at least the
    functions of that type. -/
theorem Stored.query (h : P.Stored f CT m) {Pre : Finset Func}
    (hPre : m.sigFuncsMap (P.funcHash f) ⊆ Pre) (n : ℕ) :
    (m.findCalleesWithTwoLayerTA P.T P.getName P.order (P.funcHash f) Pre CT.1 CT.2
        n).escape.isSome ∨
      f ∈ (m.findCalleesWithTwoLayerTA P.T P.getName P.order (P.funcHash f) Pre CT.1 CT.2
        n).FS := by
  rcases h with ⟨hs, hesc⟩ | ⟨hf, hsig⟩ | hf
  · obtain ⟨k, hk⟩ := Option.isSome_iff_exists.1 (isEscape_isSome.2 ⟨hs, hesc⟩)
    refine Or.inl ?_
    rw [findCalleesWithTwoLayerTA, hk]
    rfl
  · exact Recorded.query (Or.inl ⟨Finset.mem_union_left _ hf, hsig⟩) hPre n
  · exact Recorded.query (Or.inr hf) hPre n

/-! ## All modules -/

/-- **Stores of tracked values.**  After the initialization over all modules, a query of
    a layer of the pointer reports an escape or returns the function. -/
theorem target_of_store {Ms : List LLVMModule} {M : LLVMModule} (hM : M ∈ Ms) {F₀ : Func}
    (hF₀ : F₀ ∈ M.functions) (hbody : P.isDeclaration F₀ = false) (hSI : SI ∈ P.insts F₀)
    (hstore : P.kind SI = .instruction .store) (hops : P.operands SI = [VO, PO])
    (hreach : P.Reaches F VO) (hf : f ∈ P.definitions F)
    (htracked : P.Tracked m.Global_Literal_Struct_Map VO F)
    (hCT : CT ∈ P.layersOf m.Global_Literal_Struct_Map PO) {Pre : Finset Func}
    (hPre : (Ms.foldl P.doInitialization m).sigFuncsMap (P.funcHash f) ⊆ Pre) (n : ℕ) :
    ((Ms.foldl P.doInitialization m).findCalleesWithTwoLayerTA P.T P.getName P.order
      (P.funcHash f) Pre CT.1 CT.2 n).escape.isSome ∨
    f ∈ ((Ms.foldl P.doInitialization m).findCalleesWithTwoLayerTA P.T P.getName P.order
      (P.funcHash f) Pre CT.1 CT.2 n).FS := by
  refine Stored.query ?_ hPre n
  refine stored_foldl grows_doInitialization hM fun m₁ hg₁ => ?_
  refine stored_foldl grows_visitFunction hF₀ fun m₂ hg₂ => ?_
  refine Stored.grows ?_ (grows_afterInsts m₂ F₀ hbody)
  refine stored_foldl grows_visitInst hSI fun m₃ hg₃ => ?_
  have hg : Grows m m₃ :=
    hg₁.trans ((grows_foldl grows_visitGlobal M.globals m₁).trans (hg₂.trans hg₃))
  rw [visitInst, hstore]
  rw [← hg.names] at htracked hCT
  exact stored_typeConfineInStore_new hops hreach hf htracked hCT

end

/-! ## A function that is loaded before it is stored -/

/-- Pointers, the struct `A` and integers. -/
def typesOfStore : TypeTable where
  print t := match t with | 0 => "ptr" | 1 => "%struct.A" | _ => "i32"
  isStructTy t := t = 1
  isArrayTy _ := false
  isLiteral _ := false
  getStructName t := if t = 1 then "struct.A" else ""
  isPointerTy t := t = 0
  same_print t t' h := by
    rcases t with _ | _ | t <;> rcases t' with _ | _ | t' <;> simp_all

/-- The global `1` is initialized with the function `0`.  The function `2` loads it to
    `5`, and stores `VO` to the field `6` of a struct on the stack. -/
def storeToField (VO : Fin 9) : TypedProgram where
  toProgram :=
    { Program.ofTable
        [(.function, []), (.globalVariable, [0]), (.function, []), (.constantData, []),
          (.instruction .alloca, [3]), (.instruction .load, [1]),
          (.instruction .getElementPtr, [4, 3, 3]), (.instruction .store, [VO, 6]),
          (.instruction .ret, [])]
        (by revert VO; decide) with
      getName := fun v => if v = 0 then "f" else ""
      getInitializer := fun v => if v = 1 then some 0 else none
      getSExtValue := fun v => if v = 3 then some 0 else none
      insts := fun F => if F = 0 then [8] else if F = 2 then [4, 5, 6, 7] else []
      isDeclaration := fun _ => false
      hasAddressTaken := fun F => F = 0 }
  T := typesOfStore
  getType v := if v = 3 then 2 else 0
  getSourceElementType _ := 1
  getAllocatedType _ := 1

abbrev oneModule : List LLVMModule := [{ globals := [1], functions := [0, 2] }]

/-- The function reaches what is stored to the field and is the one-layer set; nothing
    has escaped, and it is not found there. -/
theorem target_of_store_lost :
    (storeToField 5).Reaches 0 5 ∧ (storeToField 5).operands 7 = [5, 6] ∧
    (1, 0) ∈ (storeToField 5).layersOf (fun _ => none) 6 ∧
    (oneModule.foldl (storeToField 5).doInitialization {}).sigFuncsMap
      ((storeToField 5).funcHash 0) = {0} ∧
    ((oneModule.foldl (storeToField 5).doInitialization {}).findCalleesWithTwoLayerTA typesOfStore
      (storeToField 5).getName (storeToField 5).order ((storeToField 5).funcHash 0) {0} 1 0
        0).escape = none ∧
    0 ∉ ((oneModule.foldl (storeToField 5).doInitialization {}).findCalleesWithTwoLayerTA
      typesOfStore (storeToField 5).getName (storeToField 5).order ((storeToField 5).funcHash 0)
        {0} 1 0 0).FS := by
  refine ⟨.init rfl rfl rfl rfl rfl, rfl, ?_, ?_, ?_, ?_⟩
  · decide
  · decide
  · decide
  · decide

/-- Stored directly, it is found. -/
theorem target_of_store_direct :
    ((oneModule.foldl (storeToField 0).doInitialization {}).findCalleesWithTwoLayerTA typesOfStore
      (storeToField 0).getName (storeToField 0).order ((storeToField 0).funcHash 0) {0} 1 0
        0).escape.isSome ∨
    0 ∈ ((oneModule.foldl (storeToField 0).doInitialization {}).findCalleesWithTwoLayerTA
      typesOfStore (storeToField 0).getName (storeToField 0).order ((storeToField 0).funcHash 0)
        {0} 1 0 0).FS := by
  have hM : { globals := [1], functions := [0, 2] } ∈ oneModule := List.mem_singleton_self _
  have hF₀ : 2 ∈ [0, 2] := by decide
  have hSI : 7 ∈ (storeToField 0).insts 2 := by decide
  have hops : (storeToField 0).operands 7 = [0, 6] := rfl
  have hreach : (storeToField 0).Reaches 0 0 := .self rfl
  have hCT : (1, 0) ∈ (storeToField 0).layersOf ({} : LayerMaps).Global_Literal_Struct_Map 6 := by
    decide
  have hPre : (oneModule.foldl (storeToField 0).doInitialization {}).sigFuncsMap
      ((storeToField 0).funcHash 0) ⊆ {0} := by decide
  exact target_of_store hM hF₀ rfl hSI rfl hops hreach (by decide) (by decide) hCT hPre 0

end TypedProgram

end TFA
