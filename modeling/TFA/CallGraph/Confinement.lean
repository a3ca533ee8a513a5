/-
  Type confinement (`CallGraph.cc`, `InitinGlobal.cc`, `CallGraphTools.cc`).

  `doInitialization` goes through the initializers of the globals and the stores
  and casts of the functions, and fills the maps of `LayerMaps`: functions are
  recorded for the layers that they are stored to, layers that are stored to other
  layers are confined to them, and a layer escapes when the source of a store to it
  is not known.

  * `getGlobalFuncs` is that of `CallGraphPass`, with its fallback;
  * entries for statistics and reports are left out;
  * `Grows`: nothing that a query reads gets lost while the maps are filled
    (`grows_doInitialization`).
-/
import TFA.CallGraph.Layers

namespace TFA

open Worklist

namespace LayerMaps

/-- The entries of a layer in the maps from hashes to types. -/
def recordTypes (T : TypeTable) (m : LayerMaps) (CT : CompositeType) : LayerMaps :=
  { m with
    hashTypeMap := Function.update m.hashTypeMap (T.typeHash CT.1) (some CT.1)
    hashIDTypeMap := Function.update m.hashIDTypeMap (T.typeIdxHash CT.1 CT.2) (some CT) }

/-- Record a function under hashes of function types. -/
def recordSig (hashes : Finset Key) (F : Func) (m : LayerMaps) : LayerMaps :=
  { m with
    sigFuncsMap := fun k => if k ∈ hashes then insert F (m.sigFuncsMap k) else m.sigFuncsMap k }

/-- A cast between two types, as far as they are different structs. -/
def transitStructs (T : TypeTable) (m : LayerMaps) (types : Ty × Ty) : LayerMaps :=
  if types.1 ≠ types.2 ∧ T.isStructTy types.1 ∧ T.isStructTy types.2 then
    m.transitType T types.2 types.1 (-1) (-1)
  else m

end LayerMaps

/-- The globals and the functions of a module. -/
structure LLVMModule where
  globals : List Value
  functions : List Value

namespace TypedProgram

section
variable (P : TypedProgram)

/-! ## Functions -/

/-- `funcHash` without the name. -/
def funcHash (F : Func) : Key := P.T.typeHash (P.getFunctionType F)

/-- `CallGraphPass::getGlobalFuncs`.  An entry that is missing reads as a null pointer,
    which is left out. -/
def getGlobalFuncs (F : Func) : Finset Func :=
  let FSet := (P.Ctx.GlobalFuncs (P.getName F)).image P.Ctx.Global_Unique_Func_Map
  let FSet := if FSet = ∅ then
      {P.Ctx.Global_Unique_Func_Map (funcInfoHash P.str_hash P.toProgram F)}
    else FSet
  FSet.eraseNone

/-- A function, or what its declaration stands for. -/
def definitions (F : Func) : Finset Func :=
  if P.isDeclaration F then P.getGlobalFuncs F else {F}

/-- `updateStructInfo`. -/
def updateStructInfo (F : Func) (CT : CompositeType) (m : LayerMaps) : LayerMaps :=
  let escaped := m.recordEmptyTy (P.funcHash F) F
  let named := if P.getName F ≠ "" then escaped else m
  let t := CT.1
  if P.T.typeHash t ∈ m.Globa_Union_Set then escaped
  else if P.T.isStructTy t then
    if P.T.isLiteral t then
      match m.Global_Literal_Struct_Map (P.T.typeHash t) with
      | some TyName =>
        if containsSub TyName "union." ∨ containsSub TyName ".anon" then named
        else m.recordLayer P.T F CT
      | none => named
    else
      let TyName := P.T.getStructName t
      if containsSub TyName "union." then
        { named with Globa_Union_Set := insert (P.T.typeHash t) m.Globa_Union_Set }
      else if containsSub TyName ".anon" then named
      else m.recordLayer P.T F CT
  else escaped

/-- Record a function for a layer. -/
def recordFunc (CT : CompositeType) (m : LayerMaps) (F : Func) : LayerMaps :=
  let m := { m with
    typeFuncsMap := Function.update m.typeFuncsMap (P.T.typeIdxHash CT.1 CT.2)
      (insert F (m.typeFuncsMap (P.T.typeIdxHash CT.1 CT.2))) }
  P.updateStructInfo F CT
    (m.recordSig (insert (P.funcHash F) (P.Global_Arg_Cast_Func_Map F)) F)

/-- Record a function that is stored to an unknown place. -/
def recordUnknown (m : LayerMaps) (F : Func) : LayerMaps :=
  (m.recordSig {P.funcHash F} F).recordEmptyTy (P.funcHash F) F

/-! ## Stores -/

/-- A function, or an element of a vector of functions, is stored to `PO`. -/
def confineFunction (PO : Value) (i : ℤ) (m : LayerMaps) (F : Func) : LayerMaps :=
  let FSet := inOrder (P.definitions F)
  let next := P.nextLayerBaseType_new m.Global_Literal_Struct_Map PO .Precise_Mode
  if next.1 then
    next.2.foldl (fun m CT =>
      FSet.foldl (P.recordFunc (CT.1, CT.2 + i)) (m.recordTypes P.T (CT.1, CT.2 + i))) m
  else FSet.foldl P.recordUnknown m

/-- The elements of a constant vector of pointers. -/
def confineVector (VO PO : Value) (VO_BTy : Ty) (m : LayerMaps) : LayerMaps :=
  if P.T.isVectorTy VO_BTy ∧ P.T.isPointerTy (P.T.getScalarType VO_BTy) ∧
      P.kind VO = .constantAggregate ∧ P.T.isVectorTy (P.getType VO) then
    (P.operands VO).zipIdx.foldl (fun m e =>
      match P.getBaseFunction (P.stripPointerCasts e.1) with
      | some F => P.confineFunction PO e.2 m F
      | none => m) m
  else m

/-- The layers of the pointer escape. -/
def escapeLayers (SI PO : Value) (m : LayerMaps) : LayerMaps :=
  (P.nextLayerBaseType_new m.Global_Literal_Struct_Map PO .Recall_Mode).2.foldl
    (fun m CT => m.escapeType P.T SI CT.1 CT.2) m

/-- `propagateType`: the layer flows into those of the pointer. -/
def propagateType (PO : Value) (m : LayerMaps) (From : CompositeType) : LayerMaps :=
  m.propagateType P.T (P.nextLayerBaseType_new m.Global_Literal_Struct_Map PO .Recall_Mode).2
    From.1 From.2

/-- `typeConfineInStore_new`.  `trackFuncPointer` fails at once, as the type of a
    pointer is no function type. -/
def typeConfineInStore_new (m : LayerMaps) (SI : Value) : LayerMaps :=
  match P.operands SI with
  | [VO, PO] =>
    if P.kind VO = .constantData then m
    else
      let next := P.nextLayerBaseType_new m.Global_Literal_Struct_Map VO .Recall_Mode
      if next.1 then next.2.foldl (P.propagateType PO) m
      else if next.2 ≠ [] then P.escapeLayers SI PO (next.2.foldl (P.propagateType PO) m)
      else
        match P.getBaseType VO with
        | some VO_BTy => P.confineVector VO PO VO_BTy m
        | none =>
          match P.getBaseFunction (P.stripPointerCasts VO) with
          | some F => P.confineFunction PO 0 m F
          | none => if P.T.isPointerTy (P.getType VO) then P.escapeLayers SI PO m else m
  | _ => m

/-! ## Initializers -/

/-- The function that an operand of an initializer is, or is a cast of. -/
def initializerFunc (O : Value) : Option Func :=
  if P.kind O = .function then some O
  else if P.T.isCompositeType (P.getType O) then none
  else if P.T.isPointerTy (P.getType O) ∧ (P.kind O).isOperator .bitCast then
    (P.operand0 O).filter (P.kind · = .function)
  else none

/-- The loop over the operands of an aggregate. -/
def confineOperands (m : LayerMaps) (U : Value) : LayerMaps :=
  (P.operands U).zipIdx.foldl (fun m e =>
    match P.initializerFunc e.1 with
    | some F =>
      (inOrder (P.definitions F)).foldl (fun m F =>
        P.recordFunc (P.getType U, e.2) (m.recordTypes P.T (P.getType U, e.2)) F) m
    | none => m) m

/-- The aggregates within an aggregate. -/
def nestedAggregates (U : Value) : List Value :=
  (P.operands U).filter fun O => P.kind O ≠ .function ∧ P.T.isCompositeType (P.getType O)

/-- `typeConfineInInitializer`. -/
def typeConfineInInitializer (m : LayerMaps) (GV : Value) : LayerMaps :=
  match P.getInitializer GV with
  | some Ini =>
    if P.kind Ini ≠ .constantAggregate then m
    else if P.getName GV = "llvm.used" ∨ P.getName GV = "llvm.compiler.used" then m
    else
      (bfsOrder P.nestedAggregates (∑ U ∈ P.values, (P.operands U).length + 2) [Ini] ∅).foldl
        P.confineOperands m
  | none => m

/-! ## Casts -/

/-- `typeConfineInCast`. -/
def typeConfineInCast (FromTy ToTy : Ty) (m : LayerMaps) : LayerMaps :=
  if P.T.isCompositeType FromTy then m.transitType P.T ToTy FromTy (-1) (-1) else m

/-- `getFuncTypeFromValue`. -/
def getFuncTypeFromValue (V : Value) : Option Ty :=
  let V := P.stripPointerCasts V
  if P.kind V = .function then some (P.getFunctionType V)
  else if P.kind V ∈ [.constantExpr .bitCast, .constantExpr .ptrToInt, .constantExpr .intToPtr] then
    ((P.operand0 V).filter (P.kind · = .function)).map P.getFunctionType
  else none

/-- `handleIndirectCast`. -/
def handleIndirectCast (FromTy ToTy : Ty) (FromV ToV : Value) (m : LayerMaps) : LayerMaps :=
  if P.T.isPointerTy FromTy ∧ P.T.isPointerTy ToTy then
    match P.getFuncTypeFromValue FromV, P.getFuncTypeFromValue ToV with
    | some FromFuncTy, some ToFuncTy =>
      let m := m.transitStructs P.T (P.T.getReturnType FromFuncTy, P.T.getReturnType ToFuncTy)
      let FromParams := P.T.getParamTypes FromFuncTy
      let ToParams := P.T.getParamTypes ToFuncTy
      if FromParams.length = ToParams.length then
        (FromParams.zip ToParams).foldl (LayerMaps.transitStructs P.T) m
      else m
    | _, _ => m
  else m

/-- The opcodes of `CastInst`. -/
def isCastOpcode : Opcode → Bool
  | .bitCast | .zExt | .sExt | .trunc | .intToPtr | .ptrToInt => true
  | .other name =>
    name ∈ ["addrspacecast", "fptrunc", "fpext", "fptoui", "fptosi", "uitofp", "sitofp"]
  | _ => false

/-! ## The initialization -/

/-- One instruction. -/
def visitInst (m : LayerMaps) (I : Value) : LayerMaps :=
  match P.kind I with
  | .instruction .store => P.typeConfineInStore_new m I
  | .instruction op =>
    if isCastOpcode op then
      match P.operand0 I with
      | some FromV =>
        P.handleIndirectCast (P.getType FromV) (P.getType I) FromV I
          (P.typeConfineInCast (P.getType FromV) (P.getType I) m)
      | none => m
    else m
  | _ => m

/-- A bitcast that is an operand of some instruction. -/
def visitCast (m : LayerMaps) (Cast : Value) : LayerMaps :=
  match P.operand0 Cast with
  | some FromV =>
    P.typeConfineInCast (P.getType FromV) (P.getType Cast)
      (P.handleIndirectCast (P.getType FromV) (P.getType Cast) FromV Cast m)
  | none => m

/-- The bitcasts among the operands of the instructions. -/
def castSet (F : Func) : Finset Value :=
  ((P.insts F).flatMap P.operands).toFinset.filter fun O => (P.kind O).isOperator .bitCast

/-- One function. -/
def visitFunction (m : LayerMaps) (F : Func) : LayerMaps :=
  if P.isDeclaration F then
    if P.hasAddressTaken F then
      { m with
        sigFuncsMap := Function.update m.sigFuncsMap (P.funcHash F)
          (m.sigFuncsMap (P.funcHash F) ∪ P.getGlobalFuncs F) }
    else m
  else
    let m := (inOrder (P.castSet F)).foldl P.visitCast ((P.insts F).foldl P.visitInst m)
    if P.hasAddressTaken F then m.recordSig {P.funcHash F} F else m

/-- One global variable. -/
def visitGlobal (m : LayerMaps) (GV : Value) : LayerMaps :=
  if containsSub (P.getName GV) ".str." ∨
      ["_ZTV", "_ZN", "_ZTI"].any fun s => s.toList.isPrefixOf (P.getName GV).toList then m
  else P.typeConfineInInitializer m GV

/-- `CallGraphPass::doInitialization`. -/
def doInitialization (m : LayerMaps) (M : LLVMModule) : LayerMaps :=
  M.functions.foldl P.visitFunction (M.globals.foldl P.visitGlobal m)

end

end TypedProgram

/-! ## Recorded facts stay -/

namespace LayerMaps

/-- Nothing that a query reads gets lost. -/
structure Grows (m m' : LayerMaps) : Prop where
  names : m'.Global_Literal_Struct_Map = m.Global_Literal_Struct_Map
  funcs : ∀ k, m.typeFuncsMap k ⊆ m'.typeFuncsMap k
  escaped : m.typeEscapeSet ⊆ m'.typeEscapeSet
  emptyTy : ∀ k, m.Global_EmptyTy_Funcs k ⊆ m'.Global_EmptyTy_Funcs k
  sig : ∀ k, m.sigFuncsMap k ⊆ m'.sigFuncsMap k

section
variable {T : TypeTable} {m m' m'' : LayerMaps}

theorem Grows.refl (m : LayerMaps) : Grows m m :=
  ⟨rfl, fun _ => subset_rfl, subset_rfl, fun _ => subset_rfl, fun _ => subset_rfl⟩

theorem Grows.trans (h : Grows m m') (h' : Grows m' m'') : Grows m m'' where
  names := h'.names.trans h.names
  funcs k := (h.funcs k).trans (h'.funcs k)
  escaped := h.escaped.trans h'.escaped
  emptyTy k := (h.emptyTy k).trans (h'.emptyTy k)
  sig k := (h.sig k).trans (h'.sig k)

theorem grows_foldl {α : Type*} {f : LayerMaps → α → LayerMaps} (h : ∀ m a, Grows m (f m a))
    (l : List α) (m : LayerMaps) : Grows m (l.foldl f m) := by
  induction l generalizing m with
  | nil => exact .refl m
  | cons a l ih => exact (h m a).trans (ih (f m a))

theorem grows_of_foldl {α : Type*} {f : LayerMaps → α → LayerMaps} (h : ∀ m a, Grows (f m a) m)
    (l : List α) (m : LayerMaps) : Grows (l.foldl f m) m := by
  induction l generalizing m with
  | nil => exact .refl m
  | cons a l ih => exact (ih (f m a)).trans (h m a)

theorem subset_update_insert {f : Key → Finset Func} (k₀ k : Key) (F : Func) :
    f k ⊆ Function.update f k₀ (insert F (f k₀)) k := by
  rw [Function.update_apply]
  split
  case isTrue hk => exact hk ▸ Finset.subset_insert F _
  · exact subset_rfl

theorem grows_recordTypes (CT : CompositeType) : Grows m (m.recordTypes T CT) :=
  ⟨rfl, fun _ => subset_rfl, subset_rfl, fun _ => subset_rfl, fun _ => subset_rfl⟩

theorem grows_recordSig (hashes : Finset Key) (F : Func) : Grows m (m.recordSig hashes F) where
  names := rfl
  funcs _ := subset_rfl
  escaped := subset_rfl
  emptyTy _ := subset_rfl
  sig k := by
    simp only [recordSig]
    split
    · exact Finset.subset_insert F _
    · exact subset_rfl

theorem grows_recordEmptyTy (k : Key) (F : Func) : Grows m (m.recordEmptyTy k F) where
  names := rfl
  funcs _ := subset_rfl
  escaped := subset_rfl
  emptyTy k' := subset_update_insert k k' F
  sig _ := subset_rfl

theorem grows_recordLayer (F : Func) (CT : CompositeType) : Grows m (m.recordLayer T F CT) where
  names := rfl
  funcs k := subset_update_insert _ k F
  escaped := subset_rfl
  emptyTy _ := subset_rfl
  sig _ := subset_rfl

theorem grows_transitType (a b : Ty) (i j : ℤ) : Grows m (m.transitType T a b i j) := by
  unfold transitType
  dsimp only
  split <;> exact ⟨rfl, fun _ => subset_rfl, subset_rfl, fun _ => subset_rfl, fun _ => subset_rfl⟩

theorem grows_transitStructs (types : Ty × Ty) : Grows m (m.transitStructs T types) := by
  unfold transitStructs
  split
  · exact grows_transitType _ _ _ _
  · exact .refl m

theorem grows_confine (p q : CompositeType) : Grows m (confine T p m q) := by
  unfold confine
  split
  · exact .refl m
  · exact ⟨rfl, fun _ => subset_rfl, subset_rfl, fun _ => subset_rfl, fun _ => subset_rfl⟩

/-- A confinement adds nothing that a query reads besides. -/
theorem grows_of_confine (p q : CompositeType) : Grows (confine T p m q) m := by
  unfold confine
  split
  · exact .refl m
  · exact ⟨rfl, fun _ => subset_rfl, subset_rfl, fun _ => subset_rfl, fun _ => subset_rfl⟩

theorem grows_escapeType (SI : Value) (t : Ty) (i : ℤ) : Grows m (m.escapeType T SI t i) := by
  unfold escapeType
  split
  · exact ⟨rfl, fun _ => subset_rfl, Finset.subset_insert _ _, fun _ => subset_rfl,
      fun _ => subset_rfl⟩
  · exact .refl m

end

end LayerMaps

namespace TypedProgram

open LayerMaps

section
variable {P : TypedProgram} {m : LayerMaps}

theorem grows_updateStructInfo (F : Func) (CT : CompositeType) :
    Grows m (P.updateStructInfo F CT m) := by
  have hesc : Grows m (m.recordEmptyTy (P.funcHash F) F) := grows_recordEmptyTy _ _
  have hnamed : Grows m (if P.getName F ≠ "" then m.recordEmptyTy (P.funcHash F) F else m) := by
    split
    · exact hesc
    · exact .refl m
  have hlayer : Grows m (m.recordLayer P.T F CT) := grows_recordLayer _ _
  unfold updateStructInfo
  dsimp only
  generalize (if P.getName F ≠ "" then m.recordEmptyTy (P.funcHash F) F else m) = named at hnamed ⊢
  split_ifs
  · exact hesc
  · split
    · split_ifs
      · exact hnamed
      · exact hlayer
    · exact hnamed
  · exact ⟨hnamed.names, hnamed.funcs, hnamed.escaped, hnamed.emptyTy, hnamed.sig⟩
  · exact hnamed
  · exact hlayer
  · exact hesc

theorem grows_recordFunc (CT : CompositeType) (m : LayerMaps) (F : Func) :
    Grows m (P.recordFunc CT m F) := by
  have hfuncs : Grows m { m with
      typeFuncsMap := Function.update m.typeFuncsMap (P.T.typeIdxHash CT.1 CT.2)
        (insert F (m.typeFuncsMap (P.T.typeIdxHash CT.1 CT.2))) } :=
    ⟨rfl, fun k => subset_update_insert _ k F, subset_rfl, fun _ => subset_rfl, fun _ => subset_rfl⟩
  exact hfuncs.trans ((grows_recordSig _ _).trans (grows_updateStructInfo _ _))

theorem grows_recordUnknown (m : LayerMaps) (F : Func) : Grows m (P.recordUnknown m F) :=
  (grows_recordSig _ _).trans (grows_recordEmptyTy _ _)

theorem grows_confineFunction (PO : Value) (i : ℤ) (m : LayerMaps) (F : Func) :
    Grows m (P.confineFunction PO i m F) := by
  unfold confineFunction
  dsimp only
  split
  · refine grows_foldl (fun m CT => ?_) _ _
    exact (grows_recordTypes _).trans (grows_foldl (grows_recordFunc _) _ _)
  · exact grows_foldl grows_recordUnknown _ _

theorem grows_confineVector (VO PO : Value) (t : Ty) : Grows m (P.confineVector VO PO t m) := by
  unfold confineVector
  split
  · refine grows_foldl (fun m e => ?_) _ _
    split
    · exact grows_confineFunction _ _ _ _
    · exact .refl m
  · exact .refl m

theorem grows_escapeLayers (SI PO : Value) : Grows m (P.escapeLayers SI PO m) :=
  grows_foldl (fun _ _ => grows_escapeType _ _ _) _ _

theorem grows_propagateType (PO : Value) (m : LayerMaps) (From : CompositeType) :
    Grows m (P.propagateType PO m From) :=
  grows_foldl (fun _ _ => grows_confine _ _) _ _

theorem grows_of_propagateType (PO : Value) (m : LayerMaps) (From : CompositeType) :
    Grows (P.propagateType PO m From) m :=
  grows_of_foldl (fun _ _ => grows_of_confine _ _) _ _

theorem grows_typeConfineInStore_new (m : LayerMaps) (SI : Value) :
    Grows m (P.typeConfineInStore_new m SI) := by
  unfold typeConfineInStore_new
  split
  case h_1 VO PO _ =>
    have hprop : ∀ L : List CompositeType, Grows m (L.foldl (P.propagateType PO) m) :=
      fun L => grows_foldl (grows_propagateType PO) L m
    dsimp only
    split
    · exact .refl m
    split
    · exact hprop _
    split
    · exact (hprop _).trans (grows_escapeLayers _ _)
    split
    · exact grows_confineVector _ _ _
    split
    · exact grows_confineFunction _ _ _ _
    split
    · exact grows_escapeLayers _ _
    · exact .refl m
  · exact .refl m

theorem grows_typeConfineInInitializer (m : LayerMaps) (GV : Value) :
    Grows m (P.typeConfineInInitializer m GV) := by
  have hoperands : ∀ m U, Grows m (P.confineOperands m U) := by
    intro m U
    refine grows_foldl (fun m e => ?_) _ _
    split
    · exact grows_foldl (fun m F => (grows_recordTypes _).trans (grows_recordFunc _ _ F)) _ _
    · exact .refl m
  unfold typeConfineInInitializer
  split
  · split_ifs
    · exact .refl m
    · exact .refl m
    · exact grows_foldl hoperands _ _
  · exact .refl m

theorem grows_typeConfineInCast (a b : Ty) : Grows m (P.typeConfineInCast a b m) := by
  unfold typeConfineInCast
  split
  · exact grows_transitType _ _ _ _
  · exact .refl m

theorem grows_handleIndirectCast (a b : Ty) (V W : Value) :
    Grows m (P.handleIndirectCast a b V W m) := by
  unfold handleIndirectCast
  split
  · split
    · dsimp only
      split
      · exact (grows_transitStructs _).trans (grows_foldl (fun _ _ => grows_transitStructs _) _ _)
      · exact grows_transitStructs _
    · exact .refl m
  · exact .refl m

theorem grows_visitInst (m : LayerMaps) (I : Value) : Grows m (P.visitInst m I) := by
  unfold visitInst
  split
  · exact grows_typeConfineInStore_new m I
  · split
    · split
      · exact (grows_typeConfineInCast _ _).trans (grows_handleIndirectCast _ _ _ _)
      · exact .refl m
    · exact .refl m
  · exact .refl m

theorem grows_visitCast (m : LayerMaps) (Cast : Value) : Grows m (P.visitCast m Cast) := by
  unfold visitCast
  split
  · exact (grows_handleIndirectCast _ _ _ _).trans (grows_typeConfineInCast _ _)
  · exact .refl m

/-- What follows the instructions of a function. -/
theorem grows_afterInsts (m : LayerMaps) (F : Func) (h : P.isDeclaration F = false) :
    Grows ((P.insts F).foldl P.visitInst m) (P.visitFunction m F) := by
  rw [visitFunction, h]
  have hcasts := grows_foldl (grows_visitCast (P := P)) (inOrder (P.castSet F))
    ((P.insts F).foldl P.visitInst m)
  simp only [Bool.false_eq_true, if_false]
  split
  · exact hcasts.trans (grows_recordSig _ _)
  · exact hcasts

theorem grows_visitFunction (m : LayerMaps) (F : Func) : Grows m (P.visitFunction m F) := by
  cases h : P.isDeclaration F with
  | false => exact (grows_foldl grows_visitInst _ _).trans (grows_afterInsts m F h)
  | true =>
    rw [visitFunction, h]
    simp only [if_true]
    split
    · refine ⟨rfl, fun _ => subset_rfl, subset_rfl, fun _ => subset_rfl, fun k => ?_⟩
      simp only [Function.update_apply]
      split
      case isTrue hk => exact hk ▸ Finset.subset_union_left
      · exact subset_rfl
    · exact .refl m

theorem grows_visitGlobal (m : LayerMaps) (GV : Value) : Grows m (P.visitGlobal m GV) := by
  unfold visitGlobal
  split
  · exact .refl m
  · exact grows_typeConfineInInitializer m GV

theorem grows_doInitialization (m : LayerMaps) (M : LLVMModule) :
    Grows m (P.doInitialization m M) :=
  (grows_foldl grows_visitGlobal _ _).trans (grows_foldl grows_visitFunction _ _)

end

end TypedProgram

end TFA
