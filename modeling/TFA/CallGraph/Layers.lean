/-
  The layers and the base type of a value (`LayerAnalysis.cc`).

  `nextLayerBaseType_new` walks backwards from a value to the struct fields that it
  is loaded from or points to; `getBaseType` walks to the first composite type.
  Both keep a set of visited values and are instances of `Walk`; `walkFuel` covers
  the values of the program, so that more fuel changes nothing
  (`nextLayerBaseType_fuel`).

  * `LayerStep` are the steps of `nextLayerBaseType_new`; what it vouches for in
    `Precise_Mode` holds of every value that they lead to
    (`nextLayerBaseType_new_precise`).

  In `Recall_Mode` the answer for the pointer of a load is dropped.
-/
import TFA.CallGraph.LayerMaps
import TFA.Lib.Walk

namespace TFA

/-- A program with the types of its values and what the type builder has found out. -/
structure TypedProgram extends Program where
  T : TypeTable
  Ctx : GlobalContext := {}
  str_hash : String → ℕ := String.length
  getType : Value → Ty
  getSourceElementType : Value → Ty := fun _ => 0
  getAllocatedType : Value → Ty := fun _ => 0
  /-- the type of what a global variable holds -/
  getValueType : Value → Ty := fun _ => 0
  getFunctionType : Value → Ty := fun _ => 0
  stripPointerCasts : Value → Value := id
  /-- the hashes of the function types that a function is cast to -/
  Global_Arg_Cast_Func_Map : Value → Finset Key := fun _ => ∅
  /-- how a `SmallPtrSet` of functions is gone through -/
  order : Finset Func → List Func := inOrder
  mem_order : ∀ FS f, f ∈ order FS ↔ f ∈ FS := by intros; exact mem_inOrder

/-- `LayerFlag`. -/
inductive LayerFlag where
  | Precise_Mode | Recall_Mode
deriving DecidableEq

namespace TypedProgram

variable (P : TypedProgram)

/-- The opcodes of `UnaryInstruction`s, loads and bitcasts apart. -/
def isUnaryOpcode : Opcode → Bool
  | .alloca | .zExt | .sExt | .trunc | .intToPtr | .ptrToInt => true
  | .other name => name ∈ ["fneg", "freeze", "extractvalue", "va_arg", "addrspacecast", "fptrunc",
      "fpext", "fptoui", "fptosi", "uitofp", "sitofp"]
  | _ => false

/-- `getGEPLayerTypes`. -/
def getGEPLayerTypes (names : Key → Option String) (GEP : Value) : Bool × List CompositeType :=
  match P.operands GEP with
  | [] => (false, [])
  | PO :: idx =>
    let BTy := P.getSourceElementType GEP
    let ids := idx.filterMap P.getSExtValue
    if P.T.isPointerTy (P.getType PO) = false then (false, [])
    else if P.T.isStructTy BTy = false ∨ ids.length ≠ idx.length then (false, [])
    else
      match ids.head?, ids.getLast? with
      | some Idx_first, some Idx =>
        if Idx < 0 then (false, [])
        else if P.T.checkValidStructName names BTy = false then (false, [])
        else if ids.length < 2 ∨ Idx_first ≠ 0 then (false, [])
        else if ids.length = 2 then (true, [(BTy, Idx)])
        else
          let id_vec := ids.tail.dropLast
          if id_vec.any (· < 0) then (false, [])
          else
            match P.T.getLayerTwoType BTy id_vec with
            | some result_ty =>
              if P.T.checkValidStructName names result_ty then (true, [(result_ty, Idx)])
              else (false, [])
            | none => (false, [])
      | _, _ => (false, [])

/-- The values that stores write to a pointer, constants apart. -/
def storedValues (LPO : Value) : List Value :=
  (P.users LPO).filterMap fun U =>
    if P.kind U = .instruction .store then
      match P.operands U with
      | [vop, pop] => if LPO = pop ∧ P.kind vop ≠ .constantData then some vop else none
      | _ => none
    else none

/-- `nextLayerBaseType_new`, as a walk. -/
def layerWalk (names : Key → Option String) : Walk Value CompositeType where
  stop V :=
    match P.kind V with
    | .argument | .instruction .call | .function | .globalVariable | .globalAlias => true
    | _ => false
  step V :=
    match P.kind V with
    | .constantExpr .getElementPtr | .instruction .getElementPtr =>
      .inl (P.getGEPLayerTypes names V)
    | .constantExpr .bitCast | .instruction .bitCast =>
      .inr ((P.operands V).take 1 |>.map (·, true))
    | .instruction .load =>
      -- the pointer itself does not count
      .inr (((P.operands V).take 1).flatMap fun LPO =>
        (LPO, false) :: (P.storedValues LPO).map (·, true))
    | .instruction .phi => .inr ((P.operands V).map (·, true))
    | .instruction .select => .inr ((P.operands V).drop 1 |>.map (·, true))
    | .instruction op =>
      if isUnaryOpcode op then .inr ((P.operands V).take 1 |>.map (·, true)) else .inl (false, [])
    | _ => .inl (false, [])

/-- Enough for a walk over all values. -/
def walkFuel : ℕ := P.values.card + 1

/-- `nextLayerBaseType_new`, from an empty list and nothing visited. -/
def nextLayerBaseType_new (names : Key → Option String) (V : Value) (Mode : LayerFlag) :
    Bool × List CompositeType :=
  let r := (P.layerWalk names).run (Mode = .Precise_Mode) P.walkFuel V ([], ∅)
  (r.1, r.2.1)

/-- `getBaseType`, as a walk that ends where it finds a type. -/
def baseTypeWalk : Walk Value Ty where
  stop _ := false
  step V :=
    let Ty := P.getType V
    if P.T.isCompositeType Ty then .inl (false, [Ty])
    else
      let ETy :=
        if P.T.isPointerTy Ty then
          match P.kind V with
          | .instruction .alloca => some (P.getAllocatedType V)
          | .globalVariable => some (P.getValueType V)
          | .instruction .getElementPtr => some (P.getSourceElementType V)
          | _ => none
        else none
      match ETy.filter (P.T.isCompositeType ·) with
      | some ETy => .inl (false, [ETy])
      | none =>
        match P.kind V with
        | .constantExpr .bitCast | .instruction .bitCast | .instruction .load =>
          .inr ((P.operands V).take 1 |>.map (·, true))
        | .instruction .select => .inr ((P.operands V).drop 1 |>.take 1 |>.map (·, true))
        | .instruction .phi => .inr ((P.operands V).map (·, true))
        | _ => .inl (true, [])

/-- `getBaseType`. -/
def getBaseType (V : Value) : Option Ty :=
  (P.baseTypeWalk.run true P.walkFuel V ([], ∅)).2.1.head?

/-- `isIntrinsic`. -/
def isIntrinsic (F : Value) : Bool := "llvm.".toList.isPrefixOf (P.getName F).toList

/-- The loop of `getBaseFunction`. -/
def bitcastFunction : ℕ → Value → Option Func
  | 0, _ => none
  | fuel + 1, CV =>
    if (P.kind CV).isOperator .bitCast then
      match P.operand0 CV with
      | some O =>
        if P.kind O = .function ∧ P.isIntrinsic O = false then some O else bitcastFunction fuel O
      | none => none
    else none

/-- `getBaseFunction`. -/
def getBaseFunction (V : Value) : Option Func :=
  if P.kind V = .function ∧ P.isIntrinsic V = false then some V
  else P.bitcastFunction (P.rank V + 1) V

/-! ## The walks in the program -/

section
variable {P} {names : Key → Option String} {V : Value}

theorem mem_storedValues {LPO W : Value} (h : W ∈ P.storedValues LPO) : W ∈ P.values := by
  obtain ⟨U, -, hU⟩ := List.mem_filterMap.1 h
  split at hU
  · split at hU
    case h_1 vop pop hops =>
      split at hU
      · cases hU
        exact (P.mem_values W U (by rw [hops]; simp)).1
      · cases hU
    · cases hU
  · cases hU

theorem map_mem_values {l : List Value} (hl : l ⊆ P.operands V) :
    ∀ c ∈ l.map fun o => (o, true), c.1 ∈ P.values := by
  intro c hc
  obtain ⟨o, ho, rfl⟩ := List.mem_map.1 hc
  exact (P.mem_values o V (hl ho)).1

theorem step_mem_values {cs : List (Value × Bool)}
    (h : (P.layerWalk names).step V = .inr cs) : ∀ c ∈ cs, c.1 ∈ P.values := by
  have htake : ∀ n, (P.operands V).take n ⊆ P.operands V := fun n => List.take_subset _ _
  have hdrop : ∀ n, (P.operands V).drop n ⊆ P.operands V := fun n => List.drop_subset _ _
  simp only [layerWalk] at h
  split at h
  case h_5 =>
    -- a load: the pointer and what is stored to it
    cases h
    intro c hc
    obtain ⟨LPO, hLPO, hc⟩ := List.mem_flatMap.1 hc
    rcases List.mem_cons.1 hc with rfl | hc
    · exact (P.mem_values LPO V (htake 1 hLPO)).1
    · obtain ⟨W, hW, rfl⟩ := List.mem_map.1 hc
      exact mem_storedValues hW
  case h_8 =>
    split at h
    · cases h; exact map_mem_values (htake 1)
    · cases h
  case h_3 | h_4 => cases h; exact map_mem_values (htake 1)
  case h_6 => cases h; exact map_mem_values (List.Subset.refl _)
  case h_7 => cases h; exact map_mem_values (hdrop 1)
  all_goals cases h

theorem baseTypeStep_mem_values {cs : List (Value × Bool)}
    (h : P.baseTypeWalk.step V = .inr cs) : ∀ c ∈ cs, c.1 ∈ P.values := by
  have htake : ∀ n, (P.operands V).take n ⊆ P.operands V := fun n => List.take_subset _ _
  have hdrop : ∀ n, (P.operands V).drop n ⊆ P.operands V := fun n => List.drop_subset _ _
  simp only [baseTypeWalk] at h
  split at h
  · cases h
  · split at h
    · cases h
    · split at h
      case h_1 | h_2 | h_3 => cases h; exact map_mem_values (htake 1)
      case h_4 => cases h; exact map_mem_values (List.Subset.trans (List.take_subset _ _) (hdrop 1))
      case h_5 => cases h; exact map_mem_values (List.Subset.refl _)
      case h_6 => cases h

/-- More fuel changes nothing. -/
theorem nextLayerBaseType_fuel {precise : Bool} {n : ℕ} (hV : V ∈ P.values) :
    (P.layerWalk names).run precise (P.walkFuel + n) V ([], ∅) =
      (P.layerWalk names).run precise P.walkFuel V ([], ∅) := by
  refine Walk.run_eq_run (fun a _ cs h => step_mem_values h) hV ?_ ?_
  · rw [Finset.sdiff_empty, walkFuel]; omega
  · rw [Finset.sdiff_empty, walkFuel]; omega

theorem getBaseType_fuel {n : ℕ} (hV : V ∈ P.values) :
    P.baseTypeWalk.run true (P.walkFuel + n) V ([], ∅) =
      P.baseTypeWalk.run true P.walkFuel V ([], ∅) := by
  refine Walk.run_eq_run (fun a _ cs h => baseTypeStep_mem_values h) hV ?_ ?_
  · rw [Finset.sdiff_empty, walkFuel]; omega
  · rw [Finset.sdiff_empty, walkFuel]; omega

theorem isStructTy_getGEPLayerTypes {CT : CompositeType}
    (h : CT ∈ (P.getGEPLayerTypes names V).2) : P.T.isStructTy CT.1 = true := by
  have hvalid : ∀ {t}, P.T.checkValidStructName names t = true → P.T.isStructTy t = true := by
    intro t ht
    rw [TypeTable.checkValidStructName, Bool.and_eq_true] at ht
    exact ht.1
  unfold getGEPLayerTypes at h
  grind

/-- Layers are structs. -/
theorem isStructTy_of_layer {Mode : LayerFlag} {CT : CompositeType}
    (h : CT ∈ (P.nextLayerBaseType_new names V Mode).2) : P.T.isStructTy CT.1 = true := by
  refine Walk.found_run (W := P.layerWalk names) (Q := fun CT => P.T.isStructTy CT.1 = true) ?_ _ V
    ([], ∅) (by simp) CT h
  intro a r hstep CT hCT
  simp only [layerWalk] at hstep
  split at hstep
  case h_1 | h_2 =>
    cases hstep
    exact isStructTy_getGEPLayerTypes hCT
  case h_8 =>
    split at hstep
    · cases hstep
    · cases hstep; simp at hCT
  case h_9 => cases hstep; simp at hCT
  all_goals cases hstep

/-- When the precise analysis succeeds, the other mode finds the same layers. -/
theorem nextLayerBaseType_of_precise
    (h : (P.nextLayerBaseType_new names V .Precise_Mode).1 = true) :
    P.nextLayerBaseType_new names V .Recall_Mode =
      P.nextLayerBaseType_new names V .Precise_Mode := by
  have hrun : (P.layerWalk names).run false P.walkFuel V ([], ∅) =
      (P.layerWalk names).run true P.walkFuel V ([], ∅) := Walk.run_of_precise _ _ _ h
  simp [nextLayerBaseType_new, hrun]

/-! ## What the precise mode vouches for -/

variable (P) in
/-- `nextLayerBaseType_new` goes on from a value to another one. -/
inductive LayerStep : Value → Value → Prop
  | bitCast {V W} (hV : (P.kind V).isOperator .bitCast = true) (hW : P.operand0 V = some W) :
      LayerStep V W
  | pointer {V W} (hV : P.kind V = .instruction .load) (hW : P.operand0 V = some W) :
      LayerStep V W
  /-- what a user of the pointer of a load stores to it -/
  | stored {V W LPO SI} (hV : P.kind V = .instruction .load) (hLPO : P.operand0 V = some LPO)
      (huser : SI ∈ P.users LPO) (hSI : P.kind SI = .instruction .store)
      (hops : P.operands SI = [W, LPO]) (hW : P.kind W ≠ .constantData) : LayerStep V W
  | phi {V W} (hV : P.kind V = .instruction .phi) (hW : W ∈ P.operands V) : LayerStep V W
  | select {V W} (hV : P.kind V = .instruction .select) (hW : W ∈ (P.operands V).drop 1) :
      LayerStep V W
  | unary {V W op} (hV : P.kind V = .instruction op) (hop : isUnaryOpcode op = true)
      (hW : P.operand0 V = some W) : LayerStep V W

/-- The kinds of values that `nextLayerBaseType_new` has a case for. -/
def layerKind : ValueKind → Bool
  | .constantExpr .getElementPtr | .constantExpr .bitCast => true
  | .instruction .getElementPtr | .instruction .bitCast | .instruction .load
  | .instruction .phi | .instruction .select => true
  | .instruction op => isUnaryOpcode op
  | _ => false

/-- These are neither arguments nor calls nor globals. -/
theorem layerKind_spec {k : ValueKind} (h : layerKind k = true) :
    k ≠ .argument ∧ k ≠ .instruction .call ∧ k ≠ .function ∧ k ≠ .globalVariable ∧
      k ≠ .globalAlias := by
  refine ⟨?_, ?_, ?_, ?_, ?_⟩ <;> rintro rfl <;> cases h

/-- The layers of a `getelementptr` are known and in the list. -/
def LayersIn (P : TypedProgram) (names : Key → Option String) (TyList : List CompositeType)
    (GEP : Value) : Prop :=
  (P.getGEPLayerTypes names GEP).1 = true ∧ (P.getGEPLayerTypes names GEP).2 ⊆ TyList

theorem take_one_of_operand0 {W : Value} (h : P.operand0 V = some W) :
    (P.operands V).take 1 = [W] := by
  unfold Program.operand0 at h
  cases hops : P.operands V with
  | nil => rw [hops] at h; cases h
  | cons o ops =>
    rw [hops] at h
    cases h
    rfl

/-- The walk makes the steps. -/
theorem child_of_layerStep {W : Value} (h : P.LayerStep V W) : (P.layerWalk names).Child V W := by
  cases h with
  | bitCast hV hW =>
    refine ⟨[(W, true)], ?_, by simp⟩
    simp only [ValueKind.isOperator, Bool.or_eq_true, beq_iff_eq] at hV
    rcases hV with hV | hV <;>
      simp only [layerWalk, hV, take_one_of_operand0 hW, List.map_cons, List.map_nil]
  | pointer hV hW =>
    refine ⟨(W, false) :: (P.storedValues W).map (·, true), ?_, by simp⟩
    simp [layerWalk, hV, take_one_of_operand0 hW]
  | @stored LPO SI hV hLPO huser hSI hops hW =>
    refine ⟨(LPO, false) :: (P.storedValues LPO).map (·, true), ?_, ?_⟩
    · simp [layerWalk, hV, take_one_of_operand0 hLPO]
    · have hmem : W ∈ P.storedValues LPO := by
        refine List.mem_filterMap.2 ⟨SI, huser, ?_⟩
        simp [hSI, hops, hW]
      simp [hmem]
  | phi hV hW =>
    refine ⟨(P.operands V).map (·, true), by simp [layerWalk, hV], ?_⟩
    simpa using hW
  | select hV hW =>
    refine ⟨((P.operands V).drop 1).map (·, true), by simp [layerWalk, hV], ?_⟩
    exact List.mem_map.2 ⟨(W, true), List.mem_map.2 ⟨W, hW, rfl⟩, rfl⟩
  | @unary op hV hop hW =>
    refine ⟨[(W, true)], ?_, by simp⟩
    cases op with
    | alloca | zExt | sExt | trunc | intToPtr | ptrToInt | other =>
      simp only [layerWalk, hV, hop, take_one_of_operand0 hW, List.map_cons, List.map_nil, if_true]
    | _ => cases hop

/-- What is well by itself has a kind with a case, and its layers are known. -/
theorem layerKind_of_good {TyList : List CompositeType}
    (h : (P.layerWalk names).Good TyList V) :
    layerKind (P.kind V) = true ∧
      ((P.kind V).isOperator .getElementPtr = true → P.LayersIn names TyList V) := by
  obtain ⟨hstop, hstep⟩ := h
  simp only [layerWalk] at hstop hstep
  cases hV : P.kind V with
  | function | globalVariable | globalAlias | argument => rw [hV] at hstop; cases hstop
  | constantData | constantAggregate | other =>
    rw [hV] at hstep
    cases (hstep _ rfl).1
  | constantExpr op =>
    rw [hV] at hstep
    cases op with
    | getElementPtr => exact ⟨rfl, fun _ => hstep _ rfl⟩
    | bitCast => exact ⟨rfl, fun h => by cases h⟩
    | _ => cases (hstep _ rfl).1
  | instruction op =>
    rw [hV] at hstop hstep
    cases op with
    | getElementPtr => exact ⟨rfl, fun _ => hstep _ rfl⟩
    | bitCast | load | phi | select => exact ⟨rfl, fun h => by cases h⟩
    | call => cases hstop
    | store | ret => cases (hstep _ rfl).1
    | alloca | zExt | sExt | trunc | intToPtr | ptrToInt => exact ⟨rfl, fun h => by cases h⟩
    | other name =>
      refine ⟨?_, fun h => by cases h⟩
      show isUnaryOpcode (.other name) = true
      by_contra hop
      simp only [hop, if_false] at hstep
      cases (hstep _ rfl).1

/-- The recursion ends, also for a value that is not among those of the program. -/
theorem ends_nextLayerBaseType {precise : Bool} :
    (P.layerWalk names).Ends precise V ([], ∅)
      ((P.layerWalk names).run precise P.walkFuel V ([], ∅)) := by
  by_cases hV : V ∈ P.values
  · refine Walk.ends_run (fun a _ cs h => step_mem_values h) hV ?_
    rw [Finset.sdiff_empty, walkFuel]
    omega
  · -- such a value has no operands, so there is nowhere to go
    have hnil : P.operands V = [] := by
      refine List.eq_nil_iff_forall_not_mem.2 fun o ho => ?_
      exact hV (P.mem_values o V ho).2
    have hleaf : ∀ cs, (P.layerWalk names).step V = .inr cs → cs = [] := by
      intro cs h
      simp only [layerWalk, hnil, List.take_nil, List.drop_nil, List.map_nil,
        List.flatMap_nil] at h
      split at h
      case h_8 => split at h <;> cases h; rfl
      all_goals cases h <;> rfl
    unfold walkFuel Walk.run
    split_ifs with hstop hvis
    · exact .refused hstop
    · exact .visited (by simpa using hstop) hvis
    · rw [Bool.not_eq_true] at hstop
      cases hstep : (P.layerWalk names).step V with
      | inl r => exact .decided hstop hvis hstep
      | inr cs =>
        obtain rfl := hleaf cs hstep
        exact .children hstop hvis hstep .nil

/-- **The contract of `Precise_Mode`.**  The recursion ends; if it returns true, every value
    that its steps lead to has a kind with a case, and every `getelementptr` among them
    has its layers in the list. -/
theorem nextLayerBaseType_new_precise (names : Key → Option String) (V : Value) :
    (∃ visited, (P.layerWalk names).Ends true V ([], ∅)
      ((P.nextLayerBaseType_new names V .Precise_Mode).1,
        (P.nextLayerBaseType_new names V .Precise_Mode).2, visited)) ∧
    ((P.nextLayerBaseType_new names V .Precise_Mode).1 = true →
      ∀ W, Relation.ReflTransGen P.LayerStep V W →
        layerKind (P.kind W) = true ∧
        ((P.kind W).isOperator .getElementPtr = true →
          P.LayersIn names (P.nextLayerBaseType_new names V .Precise_Mode).2 W)) := by
  constructor
  · exact ⟨_, ends_nextLayerBaseType⟩
  · intro h W hW
    have hsteps : Relation.ReflTransGen (P.layerWalk names).Child V W :=
      Relation.ReflTransGen.mono (fun _ _ hstep => child_of_layerStep hstep) V W hW
    exact layerKind_of_good (Walk.good_of_reaches h hsteps)

end

end TypedProgram

end TFA
