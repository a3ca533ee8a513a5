/-
  The one-layer set and the analysis of an indirect call (`getOneLayerResult` and
  `findCalleesWithMLTA` in `TypeAnalysis.cc`, `resolveVariableParameters` and
  `getCPPVirtualFunc` in `CPPHandler.cc`).

  `OperandInfo` is filled in here from the program and the maps.  The maps
  `funcTypeCastMap` and `oneLayerFuncsMap` are never written in this configuration,
  and `getCPPVirtualFunc` never succeeds (`getCPPVirtualFunc_eq_none`).
-/
import TFA.CallGraph.MLTA
import TFA.CallGraph.Confinement

namespace TFA

open Worklist

/-- The loaded modules, with what the passes over the calls read besides. -/
structure CallProgram extends TypedProgram where
  hasInternalLinkage : Func → Bool := fun _ => false
  hasPrivateLinkage : Func → Bool := fun _ => false
  getInstFilename : Value → String := fun _ => ""
  getInstLineNo : Value → ℕ := fun _ => 0
  IcallIgnoreLineNum : List String := []
  IcallIgnoreFileLoc : List String := []
  getTypeID : Ty → ℕ := fun _ => 0
  isFunctionTy : Ty → Bool := fun _ => false
  /-- the type that a `getelementptr` points to -/
  getResultElementType : Value → Ty := fun _ => 0
  /-- these are no casts -/
  stripPointerCasts_eq : ∀ V, kind V = .instruction .ret ∨ kind V = .globalVariable →
    stripPointerCasts V = V := by intros; rfl

/-- `remove(output.begin(), output.end(), ' ')`. -/
def withoutBlanks (output : String) : String := String.ofList (output.toList.filter (· ≠ ' '))

namespace CallProgram

variable (P : CallProgram)

/-- `callHash`. -/
def callHash (CI : Value) : Key := P.T.typeHash (P.getFunctionType CI)

/-! ## Variable parameters -/

/-- The search for a cast between two structs. -/
def castsTo (m : LayerMaps) (CI_check_ty f_check_ty : Ty) : Bool :=
  (bfsOrder (entries m.typeTransitMap) (m.typeTransitMap.length + 2)
      [P.T.typeHash CI_check_ty] ∅).any fun CT =>
    (entries m.typeTransitMap CT).any fun H =>
      match m.hashTypeMap H with
      | some Hty => Hty = f_check_ty ∨
          P.T.isStructTy Hty ∧ m.layerName P.T Hty = m.layerName P.T f_check_ty
      | none => false

/-- May a type of the call stand for a type of a function? -/
def validType (m : LayerMaps) (CI_check_ty f_check_ty : Ty) : Bool :=
  CI_check_ty = f_check_ty ∨
    P.getTypeID CI_check_ty = P.getTypeID f_check_ty ∧
      P.T.isStructTy CI_check_ty ∧ P.T.isStructTy f_check_ty ∧
      (m.layerName P.T CI_check_ty = m.layerName P.T f_check_ty ∨
        P.castsTo m CI_check_ty f_check_ty)

/-- May a call of type `CI_funcTy` go to functions of type `f_funcTy`? -/
def validFuncTy (m : LayerMaps) (CI_funcTy f_funcTy : Ty) : Bool :=
  (P.T.getParamTypes CI_funcTy).length ≤ (P.T.getParamTypes f_funcTy).length ∧
    ((P.T.getReturnType CI_funcTy :: P.T.getParamTypes CI_funcTy).zip
      (P.T.getReturnType f_funcTy :: P.T.getParamTypes f_funcTy)).all fun e =>
        P.validType m e.1 e.2

/-- The keys of `sigFuncsMap`. -/
def sigKeys : Finset Key :=
  P.values.biUnion fun V => insert (P.funcHash V) (P.Global_Arg_Cast_Func_Map V)

/-- `resolveVariableParameters` without casts in the arguments; the functions of a key
    have the type of the first one, in the order of their set. -/
def resolveVariableParameters (m : LayerMaps) (CI : Value) : LayerMaps :=
  if ",...)".toList.isSuffixOf (P.T.print (P.getFunctionType CI)).toList then
    let valid := P.sigKeys.filter fun k =>
      (P.order (m.sigFuncsMap k)).head?.any fun f =>
        P.validFuncTy m (P.getFunctionType CI) (P.getFunctionType f)
    { m with
      sigFuncsMap := Function.update m.sigFuncsMap (P.callHash CI)
        (m.sigFuncsMap (P.callHash CI) ∪ valid.biUnion m.sigFuncsMap) }
  else m

/-- The maps after `getOneLayerResult`. -/
def afterOneLayer (m : LayerMaps) (CI : Value) : LayerMaps :=
  if m.sigFuncsMap (P.callHash CI) = ∅ then P.resolveVariableParameters m CI else m

/-- `getOneLayerResult`. -/
def getOneLayerResult (m : LayerMaps) (CI : Value) : Finset Func :=
  (P.afterOneLayer m CI).sigFuncsMap (P.callHash CI)

/-! ## Virtual calls -/

/-- `getCPPVirtualFunc`: the struct whose table is read. -/
def getCPPVirtualFunc (Idx : ℤ) : ℕ → Value → Option Ty
  | 0, _ => none
  | fuel + 1, V =>
    let onOperand := (P.operand0 V).bind (getCPPVirtualFunc Idx fuel)
    match P.kind V with
    | .constantExpr .getElementPtr | .instruction .getElementPtr =>
      let ElemTy := P.getResultElementType V
      if (P.isFunctionTy ElemTy ∨ P.T.isPointerTy ElemTy) ∧
          (P.operands V).tail.all (fun idx => (P.getSExtValue idx).isSome) ∧
          (P.operands V).tail.length = 1 then onOperand
      else none
    | .instruction .bitCast =>
      let srctoTy := (P.operand0 V).bind fun Op =>
        (match P.kind Op with
          | .constantExpr .getElementPtr | .instruction .getElementPtr =>
            some (P.getSourceElementType Op)
          | .instruction .alloca => some (P.getAllocatedType Op)
          | .globalVariable => some (P.getValueType Op)
          | _ => none).filter fun t => P.T.isStructTy t ∧ P.T.elements t ≠ []
      match srctoTy with
      | some Sty => if 0 ≤ Idx then some Sty else none
      | none => onOperand
    | .instruction .load => onOperand
    | .instruction op => if TypedProgram.isUnaryOpcode op then onOperand else none
    | _ => none

/-- The index that the callers pass is -1. -/
theorem getCPPVirtualFunc_eq_none (fuel : ℕ) (V : Value) :
    P.getCPPVirtualFunc (-1) fuel V = none := by
  induction fuel generalizing V with
  | zero => rfl
  | succ fuel ih =>
    have hop : (P.operand0 V).bind (P.getCPPVirtualFunc (-1) fuel) = none := by
      cases P.operand0 V with
      | none => rfl
      | some o => exact ih o
    have hidx : ¬ (0 : ℤ) ≤ -1 := by omega
    unfold getCPPVirtualFunc
    simp only [hop, hidx, if_false, ite_self]
    split <;> try rfl
    split <;> rfl

/-! ## An indirect call -/

/-- What is known of an indirect call. -/
def operandInfo (m : LayerMaps) (CI : Value) : OperandInfo :=
  let next := match P.getCalledOperand CI with
    | some CV => P.nextLayerBaseType_new m.Global_Literal_Struct_Map CV .Precise_Mode
    | none => (false, [])
  { callHash := P.callHash CI
    oneLayer := P.getOneLayerResult m CI
    layer_result := next.1
    TyList := next.2
    virtualTargets := none }

/-- `findCalleesWithMLTA`: the targets and the entry of `Global_MLTA_Reualt_Map`. -/
def findCalleesWithMLTA (m : LayerMaps) (CI : Value) : TypeAnalyzeResult × Finset Func :=
  (P.afterOneLayer m CI).findCalleesWithMLTA P.T P.getName P.order (P.operandInfo m CI) ∅

/-- The hashes that `isEscape` records on the way; what a layer answers to this does
    not depend on the one-layer set. -/
def escapedTypes (m : LayerMaps) (CI : Value) : Finset Key :=
  let info := P.operandInfo m CI
  if info.oneLayer ≠ ∅ ∧ info.layer_result then
    (info.TyList.filterMap fun CT =>
      ((P.afterOneLayer m CI).findCalleesWithTwoLayerTA P.T P.getName P.order info.callHash ∅
        CT.1 CT.2 0).escape).toFinset
  else ∅

end CallProgram

end TFA
