/-
  Virtual calls (`getTargetsInDerivedClass` and `getCPPVirtualFunc` in `CPPHandler.cc`).

  A virtual call goes to a slot of a class, and its targets are what the vtables of the
  class and of the classes derived from it have for the methods in the slot.

  * `getTargetsInDerivedClass` searches the hierarchy breadth first, but does not go on from
    a class without recorded methods: `searchComplete_iff` says when this does not matter;
  * `VirtualOperand`: the called operands that `getCPPVirtualFunc` recognises.  It never
    sets the index of the slot and fails if the index is negative, as that of the callers is
    (`virtualCall_missed`).
-/
import TFA.CHABuilder.VTables

namespace TFA

open Worklist

namespace ClassMaps

section
variable (m : ClassMaps) (kind : Value → ValueKind) (class_name : String) (Idx : ℤ)

/-- Has the class recorded methods and a recorded vtable? -/
def isRecorded (class_name : String) : Bool :=
  (m.Global_Class_Method_Index_Map class_name).isSome && (m.Global_VTable_Map class_name).isSome

/-- The classes that are queued after a class. -/
def queuedAfter (class_name : String) : List String :=
  if m.isRecorded class_name then targets m.GlobalClassHierarchyMap class_name else []

/-- The classes that the search goes through, in order. -/
def classOrder : List String :=
  bfsOrder m.queuedAfter (m.GlobalClassHierarchyMap.length + 2) [class_name] ∅

/-- What the vtables of a class have for the methods of a set. -/
def functionsFor (method_set : Finset String) (class_name : String) : Finset Func :=
  method_set.biUnion fun method_name =>
    (m.functionsOf class_name method_name).filter fun vf => kind vf = .function

/-- `getTargetsInDerivedClass`. -/
def getTargetsInDerivedClass : Finset Func :=
  if class_name = "" ∨ m.Global_Class_Method_Index_Map class_name = none then ∅
  else
    ((m.classOrder class_name).filter m.isRecorded).toFinset.biUnion
      (m.functionsFor kind (m.methodsAt class_name Idx))

/-! ## When all derived classes are found -/

/-- A class is another one or derived from it. -/
def Derived (C D : String) : Prop :=
  Relation.ReflTransGen (Step (targets m.GlobalClassHierarchyMap)) C D

/-- The same, along classes that are all recorded, up to the last one. -/
def DerivedUnbroken (C D : String) : Prop := Relation.ReflTransGen (Step m.queuedAfter) C D

/-- A function is recorded for a method in the slot of the class, in the vtable of `D`. -/
def Implements (D : String) (F : Func) : Prop :=
  kind F = .function ∧ ∃ method_name ∈ m.methodsAt class_name Idx,
    F ∈ m.functionsOf D method_name

/-- The search comes to an end, with what the class and all derived ones implement. -/
def SearchComplete : Prop :=
  Drains m.queuedAfter [class_name] ∅ (m.classOrder class_name) ∧
    ∀ F, F ∈ m.getTargetsInDerivedClass kind class_name Idx ↔
      ∃ D, m.Derived class_name D ∧ m.Implements kind class_name Idx D F

/-- What a derived class implements, a recorded class does that is not cut off by one that
    is not recorded. -/
def NothingCutOff : Prop :=
  ∀ D F, m.Derived class_name D → m.Implements kind class_name Idx D F →
    class_name ≠ "" ∧ ∃ D', m.DerivedUnbroken class_name D' ∧ m.isRecorded D' = true ∧
      m.Implements kind class_name Idx D' F

end

section
variable {m : ClassMaps} {kind : Value → ValueKind} {C D : String} {Idx : ℤ} {F : Func}

theorem mem_functionsFor {method_set : Finset String} : F ∈ m.functionsFor kind method_set D ↔
    kind F = .function ∧ ∃ method_name ∈ method_set, F ∈ m.functionsOf D method_name := by
  simp only [functionsFor, Finset.mem_biUnion, Finset.mem_filter]
  tauto

variable (m C) in
/-- The fuel of the search is enough. -/
theorem enough_queuedAfter : Enough m.queuedAfter
    (insert C (m.GlobalClassHierarchyMap.map Prod.snd).toFinset)
    (m.GlobalClassHierarchyMap.length + 2) [C] ∅ := by
  refine enough_targets (fun D => ?_) C
  unfold queuedAfter
  split
  · exact Or.inl rfl
  · exact Or.inr rfl

theorem DerivedUnbroken.derived (h : m.DerivedUnbroken C D) : m.Derived C D := by
  refine Relation.ReflTransGen.mono (fun a b hab => ?_) C D h
  unfold Step queuedAfter at hab
  split at hab
  · exact hab
  · simp at hab

/-- What the search finds. -/
theorem mem_getTargetsInDerivedClass
    (hC : (m.Global_Class_Method_Index_Map C).isSome = true) :
    F ∈ m.getTargetsInDerivedClass kind C Idx ↔
      C ≠ "" ∧ ∃ D, m.DerivedUnbroken C D ∧ m.isRecorded D = true ∧
        m.Implements kind C Idx D F := by
  have hsome : m.Global_Class_Method_Index_Map C ≠ none := Option.isSome_iff_ne_none.1 hC
  unfold getTargetsInDerivedClass
  by_cases hname : C = ""
  · simp [hname]
  · rw [if_neg (by simp [hname, hsome])]
    simp only [ne_eq, hname, not_false_eq_true, true_and, Finset.mem_biUnion, List.mem_toFinset,
      List.mem_filter, mem_functionsFor, classOrder, mem_bfsOrder_iff (enough_queuedAfter m C),
      List.mem_singleton, exists_eq_left, and_assoc]
    rfl

/-- **The search of the hierarchy** is complete exactly if nothing is cut off. -/
theorem searchComplete_iff (m : ClassMaps) (kind : Value → ValueKind) (C : String) (Idx : ℤ)
    (hC : (m.Global_Class_Method_Index_Map C).isSome = true) :
    m.SearchComplete kind C Idx ↔ m.NothingCutOff kind C Idx := by
  have hdrains : Drains m.queuedAfter [C] ∅ (m.classOrder C) := (enough_queuedAfter m C).drains
  rw [SearchComplete, and_iff_right hdrains]
  simp only [mem_getTargetsInDerivedClass hC]
  constructor
  · intro hall D F hD hF
    exact (hall F).2 ⟨D, hD, hF⟩
  · intro hcut F
    constructor
    · rintro ⟨-, D, hD, -, hF⟩
      exact ⟨D, hD.derived, hF⟩
    · rintro ⟨D, hD, hF⟩
      exact hcut D F hD hF

end

/-! ## A class without a vtable -/

/-- `C` is derived from `B`, and `B` from `A`; only `A` and `C` have vtables, with the
    functions `0` and `1` for the method `f`. -/
abbrev classesABC : ClassMaps where
  Global_VTable_Map c :=
    if c = "A" then some fun f => if f = "f" then {0} else ∅
    else if c = "C" then some fun f => if f = "f" then {1} else ∅
    else none
  Global_Class_Method_Index_Map c :=
    if c = "A" ∨ c = "C" then some fun k => if k = 0 then {"f"} else ∅ else none
  GlobalClassHierarchyMap := [("A", "B"), ("B", "C")]

/-- The search from `A` ends at `B`. -/
theorem derived_class_missed :
    ¬ ∀ (m : ClassMaps) (kind : Value → ValueKind) (C : String) (Idx : ℤ),
      (m.Global_Class_Method_Index_Map C).isSome = true → m.SearchComplete kind C Idx := by
  intro h
  have hall := (h classesABC (fun _ => .function) "A" 0 (by decide)).2 1
  have hderived : classesABC.Derived "A" "C" :=
    .head (b := "B") (by simp [Step, targets]) (.single (by simp [Step, targets]))
  have hmem := hall.2 ⟨"C", hderived, rfl, "f", by decide, by decide⟩
  exact absurd hmem (by decide)

/-- The same classes, with `C` derived from `A`. -/
abbrev classesAC : ClassMaps := { classesABC with GlobalClassHierarchyMap := [("A", "C")] }

/-- The search from `A` is complete. -/
theorem searchComplete_classesAC : classesAC.SearchComplete (fun _ => .function) "A" 0 := by
  refine (searchComplete_iff classesAC (fun _ => .function) "A" 0 (by decide)).2 ?_
  have hstep : ∀ {c d}, Step (targets classesAC.GlobalClassHierarchyMap) c d →
      c = "A" ∧ d = "C" := by
    intro c d h
    simpa [Step, targets, eq_comm] using h
  intro D F hD hF
  refine ⟨by decide, D, ?_, ?_, hF⟩
  · rcases hD.cases_head with rfl | ⟨c, hc, hrest⟩
    · exact .refl
    · obtain ⟨-, rfl⟩ := hstep hc
      rcases hrest.cases_head with rfl | ⟨d, hd, -⟩
      · exact .single (show "C" ∈ classesAC.queuedAfter "A" by decide)
      · exact absurd (hstep hd).1 (by decide)
  · rcases hD.cases_tail with rfl | ⟨c, -, hc⟩
    · decide
    · rw [(hstep hc).2]
      decide

end ClassMaps

namespace CPPProgram

section
variable (P : CPPProgram)

/-! ## The called operand -/

/-- The struct that a bitcast gets the pointer to a vtable from. -/
def vtableSource (Op : Value) : Option Ty :=
  (match P.kind Op with
    | .constantExpr .getElementPtr | .instruction .getElementPtr =>
      some (P.getSourceElementType Op)
    | .instruction .alloca => some (P.getAllocatedType Op)
    | .globalVariable => some (P.getValueType Op)
    | _ => none).filter fun t => P.T.isStructTy t ∧ P.T.elements t ≠ []

/-- A called operand with the struct that it leads back to, and the index of the
    `getelementptr` on the way, if there is one. -/
inductive VirtualOperand : Value → Option ℤ → Ty → Prop
  | source {V Op S} (hV : P.kind V = .instruction .bitCast) (hOp : P.operand0 V = some Op)
      (hS : P.vtableSource Op = some S) : VirtualOperand V none S
  | slot {V PO idx k S} (hV : (P.kind V).isOperator .getElementPtr = true)
      (hElemTy : P.isFunctionTy (P.getResultElementType V) = true ∨
        P.T.isPointerTy (P.getResultElementType V) = true)
      (hops : P.operands V = [PO, idx]) (hidx : P.getSExtValue idx = some k) (hk : 0 ≤ k)
      (hPO : VirtualOperand PO none S) : VirtualOperand V (some k) S
  | load {V Op k S} (hV : P.kind V = .instruction .load) (hOp : P.operand0 V = some Op)
      (h : VirtualOperand Op k S) : VirtualOperand V k S
  | bitCast {V Op k S} (hV : P.kind V = .instruction .bitCast) (hOp : P.operand0 V = some Op)
      (hS : P.vtableSource Op = none) (h : VirtualOperand Op k S) : VirtualOperand V k S
  | unary {V Op op k S} (hV : P.kind V = .instruction op)
      (hop : TypedProgram.isUnaryOpcode op = true) (hOp : P.operand0 V = some Op)
      (h : VirtualOperand Op k S) : VirtualOperand V k S

/-- The struct and the index after the call of `getCPPVirtualFunc` in
    `findCalleesWithMLTA`, if it succeeds.  The index is -1 before the call, and no case
    sets it. -/
def virtualFunc (fuel : ℕ) (CV : Value) : Option (Ty × ℤ) :=
  (P.getCPPVirtualFunc (-1) fuel CV).map (·, -1)

/-- What is known of an indirect call, with the targets of a virtual call. -/
def operandInfoIn (C : ClassMaps) (m : LayerMaps) (fuel : ℕ) (CI : Value) : OperandInfo :=
  { P.operandInfo m CI with
    virtualTargets := ((P.getCalledOperand CI).bind (P.virtualFunc fuel)).map fun r =>
      C.getTargetsInDerivedClass P.kind (P.T.getStructName r.1) r.2 }

/-- `findCalleesWithMLTA`, with the class hierarchy. -/
def findCalleesIn (C : ClassMaps) (m : LayerMaps) (fuel : ℕ) (CI : Value) :
    TypeAnalyzeResult × Finset Func :=
  (P.afterOneLayer m CI).findCalleesWithMLTA P.T P.getName P.order (P.operandInfoIn C m fuel CI) ∅

/-- A virtual call of the slot `k` of `S` is recognised, and resolved through the class
    hierarchy if the layers say nothing. -/
def ResolvesVirtualCall (C : ClassMaps) (m : LayerMaps) (fuel : ℕ) (CI : Value) (k : ℤ)
    (S : Ty) : Prop :=
  (P.getCalledOperand CI).bind (P.virtualFunc fuel) = some (S, k) ∧
    ((P.operandInfo m CI).oneLayer = ∅ ∨ (P.operandInfo m CI).layer_result = false →
      C.getTargetsInDerivedClass P.kind (P.T.getStructName S) k ≠ ∅ →
      P.findCalleesIn C m fuel CI =
        (.VTable, C.getTargetsInDerivedClass P.kind (P.T.getStructName S) k))

variable {P} {C : ClassMaps} {m : LayerMaps} {fuel : ℕ} {CI CV : Value} {k : ℤ} {S : Ty}

theorem virtualFunc_eq_none : (P.getCalledOperand CI).bind (P.virtualFunc fuel) = none := by
  rw [Option.bind_eq_none_iff]
  intro CV _
  rw [virtualFunc, P.getCPPVirtualFunc_eq_none, Option.map_none]

/-- The class hierarchy is not asked. -/
theorem operandInfoIn_eq : P.operandInfoIn C m fuel CI = P.operandInfo m CI := by
  rw [operandInfoIn, virtualFunc_eq_none]
  rfl

theorem findCalleesIn_eq : P.findCalleesIn C m fuel CI = P.findCalleesWithMLTA m CI := by
  rw [findCalleesIn, operandInfoIn_eq, CallProgram.findCalleesWithMLTA]

/-- Without targets of virtual calls nothing is classified as one. -/
theorem findCalleesIn_ne_vTable : (P.findCalleesIn C m fuel CI).1 ≠ .VTable := by
  rw [findCalleesIn_eq, CallProgram.findCalleesWithMLTA, LayerMaps.findCalleesWithMLTA]
  have hinfo : (P.operandInfo m CI).virtualTargets = none := rfl
  rw [hinfo]
  unfold LayerMaps.resolveTAResult
  grind

theorem getCPPVirtualFunc_bitCast {V Op : Value} {Idx : ℤ}
    (hV : P.kind V = .instruction .bitCast) (hOp : P.operand0 V = some Op) :
    P.getCPPVirtualFunc Idx (fuel + 1) V =
      match P.vtableSource Op with
      | some Sty => if 0 ≤ Idx then some Sty else none
      | none => P.getCPPVirtualFunc Idx fuel Op := by
  conv_lhs => unfold CallProgram.getCPPVirtualFunc
  simp only [hV, hOp, Option.bind_some]
  rfl

/-- The struct is found, but the answer is up to the index before the call. -/
theorem getCPPVirtualFunc_of_virtualOperand {V : Value} {idx : Option ℤ}
    (h : P.VirtualOperand V idx S) : ∃ n, ∀ fuel Idx,
      P.getCPPVirtualFunc Idx (fuel + n) V = if 0 ≤ Idx then some S else none := by
  induction h with
  | @source V Op S hV hOp hS =>
    refine ⟨1, fun fuel Idx => ?_⟩
    rw [getCPPVirtualFunc_bitCast hV hOp, hS]
  | @slot V PO idx k S hV hElemTy hops hidx hk _ ih =>
    obtain ⟨n, ih⟩ := ih
    refine ⟨n + 1, fun fuel Idx => ?_⟩
    have hop : P.operand0 V = some PO := by simp [Program.operand0, hops]
    simp only [ValueKind.isOperator, Bool.or_eq_true, beq_iff_eq] at hV
    rw [← add_assoc, CallProgram.getCPPVirtualFunc]
    rcases hV with hV | hV <;> simp [hV, hop, hops, hidx, hElemTy, ih fuel]
  | @load V Op k S hV hOp _ ih =>
    obtain ⟨n, ih⟩ := ih
    refine ⟨n + 1, fun fuel Idx => ?_⟩
    rw [← add_assoc, CallProgram.getCPPVirtualFunc]
    simp [hV, hOp, ih fuel]
  | @bitCast V Op k S hV hOp hS _ ih =>
    obtain ⟨n, ih⟩ := ih
    refine ⟨n + 1, fun fuel Idx => ?_⟩
    rw [← add_assoc, getCPPVirtualFunc_bitCast hV hOp, hS]
    exact ih fuel Idx
  | @unary V Op op k S hV hop hOp _ ih =>
    obtain ⟨n, ih⟩ := ih
    refine ⟨n + 1, fun fuel Idx => ?_⟩
    rw [← add_assoc, CallProgram.getCPPVirtualFunc]
    cases op with
    | alloca | zExt | sExt | trunc | intToPtr | ptrToInt | other =>
      simp only [hV, hop, hOp, Option.bind_some, ih fuel, if_true]
    | _ => cases hop

/-- **Virtual calls.**  An operand of the right shape would be recognised with any index that
    is not negative, but as it is called it is not, and the call is not classified as
    virtual. -/
theorem virtualCall_missed (C : ClassMaps) (m : LayerMaps)
    (hCV : P.getCalledOperand CI = some CV) (hshape : P.VirtualOperand CV (some k) S) :
    (∃ n, ∀ fuel Idx, (P.getCalledOperand CI).bind (P.getCPPVirtualFunc Idx (fuel + n)) =
      if 0 ≤ Idx then some S else none) ∧
    ∀ fuel, ¬ P.ResolvesVirtualCall C m fuel CI k S ∧
      (P.findCalleesIn C m fuel CI).1 ≠ .VTable := by
  refine ⟨?_, fun fuel => ⟨fun h => ?_, findCalleesIn_ne_vTable⟩⟩
  · rw [hCV]
    exact getCPPVirtualFunc_of_virtualOperand hshape
  · rw [ResolvesVirtualCall, virtualFunc_eq_none] at h
    cases h.1

end

/-! ## A virtual call -/

def typesOfBase : TypeTable where
  print t := if t = 0 then "%class.Base" else "ptr"
  isStructTy t := t = 0
  isArrayTy _ := false
  isLiteral _ := false
  isPointerTy t := t ≠ 0
  elements t := if t = 0 then [1] else []
  getStructName t := if t = 0 then "class.Base" else ""
  same_print := by
    intro T T' h
    by_cases hT : T = 0 <;> by_cases hT' : T' = 0 <;> simp_all

/-- `Base obj; obj.run();` through the vtable: the object `0`, the bitcast `2` to a pointer
    to a vtable, which is loaded as `3`, the slot `4`, which is loaded as `5`, the call `6`,
    and `Base::run`. -/
def callRun : CPPProgram where
  toProgram :=
    { Program.ofTable
        [(.instruction .alloca, []), (.constantData, []), (.instruction .bitCast, [0]),
          (.instruction .load, [2]), (.instruction .getElementPtr, [3, 1]),
          (.instruction .load, [4]), (.instruction .call, [5]), (.function, [])]
        (by decide) with
      getSExtValue := fun v => if v = 1 then some 0 else none
      getName := fun v => if v = 7 then "run" else "" }
  T := typesOfBase
  getType _ := 1
  getResultElementType _ := 1

abbrev classBase : ClassMaps where
  Global_VTable_Map c := if c = "class.Base" then some fun f => if f = "run" then {7} else ∅
    else none
  Global_Class_Method_Index_Map c := if c = "class.Base" then some fun k =>
    if k = 0 then {"run"} else ∅ else none

theorem virtualOperand_callRun : callRun.VirtualOperand 5 (some 0) 0 := by
  have hsource : callRun.VirtualOperand 2 none 0 := @VirtualOperand.source _ _ 0 _ rfl rfl rfl
  have hvtable : callRun.VirtualOperand 3 none 0 := .load rfl rfl hsource
  have hslot : callRun.VirtualOperand 4 (some 0) 0 :=
    @VirtualOperand.slot _ _ 3 1 _ _ rfl (Or.inr rfl) rfl rfl le_rfl hvtable
  exact .load rfl rfl hslot

/-- `Base::run` is not found, although no function has the type of the call. -/
theorem run_missed :
    ¬ ∀ (P : CPPProgram) (C : ClassMaps) (m : LayerMaps) (CI CV : Value) (k : ℤ) (S : Ty),
      P.getCalledOperand CI = some CV → P.VirtualOperand CV (some k) S →
        ∃ n, ∀ fuel, P.ResolvesVirtualCall C m (fuel + n) CI k S := by
  intro h
  obtain ⟨n, hn⟩ := h callRun classBase {} 6 5 0 0 rfl virtualOperand_callRun
  have hres := (hn 0).1
  rw [virtualFunc_eq_none] at hres
  cases hres

theorem virtualCall_missed_callRun :
    ¬ callRun.ResolvesVirtualCall classBase {} 10 6 0 0 ∧
      (callRun.findCalleesIn classBase {} 10 6).1 ≠ .VTable :=
  (@virtualCall_missed callRun 6 5 0 0 classBase {} rfl virtualOperand_callRun).2 10

end CPPProgram

end TFA
