/-
  Where a value comes from (the loops of `escapeChecker` in `EscapeHandler.cc` and of
  `oneLayerChecker` in `OneLayerHandler.cc`).

  Both functions go backwards from a value through a worklist until they meet functions
  and fields, and give up at the first value that they do not support.  The loops are
  alike but for loads from global variables and for `__symbol_get`, so they are one
  definition here with a `Checker`.

  * `sourceOf`: what is done with a value.  The source type of a bitcast that is not
    known is a null pointer there; it counts as no struct here;
  * `sourceOrder`: the values in the order in which the loop goes through them.  Which
    they are does not depend on what is recorded on the way;
  * `mem_sourceOrder_iff`: they are what the start leads to.
-/
import TFA.CallGraph.ModulePass
import TFA.Alias.Context

namespace TFA

open Worklist

/-- The two loops. -/
inductive Checker where
  | oneLayer | escape
deriving DecidableEq

/-- What the loop does with a value. -/
inductive Source where
  /-- a field that a `getelementptr` points to -/
  | layers (TyList : List CompositeType)
  /-- a function -/
  | base (F : Func)
  /-- further values, possibly none -/
  | pushed (EV : List Value)
  /-- the loop gives up -/
  | unsupported

namespace CallProgram

section
variable (P : CallProgram) (checker : Checker) (g : CallGraph)

/-- An argument: the actual arguments of the callers. -/
def argumentSource (Arg : Value) : Source :=
  let caller := P.getFunction Arg
  let arg_index := (P.args caller).idxOf Arg
  let callset := inOrder (g.Callers caller)
  if callset.all fun cai => arg_index < (P.callArgs cai).length then
    .pushed (callset.filterMap fun cai => (P.callArgs cai)[arg_index]?)
  else .unsupported

/-- The return instructions of the callees. -/
def returnInsts (CAI : Value) : List Value :=
  (inOrder (g.Callees CAI)).flatMap fun f =>
    (P.insts f).filter fun I => P.kind I = .instruction .ret

/-- A call: the return instructions of the callees, and the functions that
    `__symbol_get` may return. -/
def callSource (CAI : Value) : Source :=
  if P.getCalledFuncName CAI ∈ HeapAllocFuncs then .pushed []
  else if checker = .escape ∧ P.getCalledFuncName CAI = "__symbol_get" then
    if P.symbol_get_hander CAI = "" then .unsupported
    else if P.Ctx.GlobalFuncs (P.symbol_get_hander CAI) = ∅ then .pushed []
    else if g.Callees CAI = ∅ then .unsupported
    else .pushed ((P.symbolTargets P.Ctx CAI).filter (P.kind · = .function) ++ P.returnInsts g CAI)
  else if g.Callees CAI = ∅ then .unsupported
  else .pushed (P.returnInsts g CAI)

/-- A load: the pointer and what is stored to it. -/
def loadSource (LI : Value) : Source :=
  match P.operand0 LI with
  | some LPO =>
    if P.kind LPO = .globalVariable then
      match checker with
      | .oneLayer => .unsupported
      | .escape => .pushed [LPO]
    else
      .pushed (LPO :: ((P.users LPO).filter fun U => P.kind U = .instruction .store).filterMap
        P.operand0)
  | none => .unsupported

/-- What the operand of a bitcast points to, as far as it is known.  The checkers
    dereference `FromTy` also where it is null; what is proved here is about programs that
    cast none of the other operands. -/
def castFromTy (Op : Value) : Option Ty :=
  if (P.kind Op).isOperator .getElementPtr then some (P.getSourceElementType Op)
  else if P.kind Op = .instruction .alloca then some (P.getAllocatedType Op)
  else if P.kind Op = .globalVariable then some (P.getValueType Op)
  else none

/-- A bitcast. -/
def bitCastSource (BCI : Value) : Source :=
  match P.operand0 BCI with
  | some Op =>
    if (P.castFromTy Op).any fun t => P.T.isStructTy t ∧
        (containsSub (P.T.getStructName t) ".union" ∨
          containsSub (P.T.getStructName t) ".anon") then .unsupported
    else .pushed [Op]
  | none => .unsupported

/-- What the loop does with a value that is neither a constant, nor a field, nor a
    function. -/
def instSource (TV : Value) : Source :=
  match P.kind TV with
  | .argument => P.argumentSource g TV
  | .instruction .call => P.callSource checker g TV
  | .instruction .load => P.loadSource checker TV
  | .instruction .phi => .pushed ((P.operands TV).filter (P.kind · ≠ .constantData))
  | .constantExpr .bitCast | .instruction .bitCast => P.bitCastSource TV
  | .instruction .intToPtr | .instruction .ptrToInt | .instruction .zExt | .instruction .sExt
  | .instruction .trunc => .pushed (P.operand0 TV).toList
  | .instruction .select => .pushed ((P.operands TV).drop 1)
  | .instruction .alloca => .pushed []
  | .instruction .ret => .pushed (P.getReturnValue TV).toList
  | _ => .unsupported

/-- What the loop does with a value. -/
def sourceOf (TV : Value) : Source :=
  if P.kind TV = .constantData then .pushed []
  else if (P.kind TV).isOperator .getElementPtr then
    let r := P.getGEPLayerTypes g.layers.Global_Literal_Struct_Map TV
    if r.1 then .layers r.2 else .unsupported
  else
    match P.getBaseFunction (P.stripPointerCasts TV) with
    | some F => .base F
    | none => P.instSource checker g TV

/-- The values that are pushed. -/
def nextSources (TV : Value) : List Value :=
  match P.sourceOf checker g TV with
  | .pushed EV => EV
  | _ => []

/-- Does the loop go on after a value? -/
def supported (TV : Value) : Bool :=
  match P.sourceOf checker g TV with
  | .unsupported => false
  | .base F => checker = .escape ∨ P.definitions F ≠ ∅
  | _ => true

/-- All values that the loop may get to. -/
def sourcePool : Finset Value :=
  P.values ∪ P.values.biUnion fun V => (P.nextSources checker g V).toFinset

/-- Enough for a loop over all values. -/
def sourceFuel : ℕ :=
  ∑ V ∈ P.sourcePool checker g, (P.nextSources checker g V).length + 2

/-- The values in the order of the loop, if it does not give up. -/
def sourceOrder (VO : Value) : List Value :=
  bfsOrder (P.nextSources checker g) (P.sourceFuel checker g) [VO] ∅

/-- The values that the loop goes through before it gives up. -/
def checkedSources (VO : Value) : List Value :=
  (P.sourceOrder checker g VO).takeWhile (P.supported checker g)

/-- The loop does not give up. -/
def allSupported (VO : Value) : Bool := (P.sourceOrder checker g VO).all (P.supported checker g)

end

/-! ## What the loop goes through -/

section
variable {P : CallProgram} {checker : Checker} {g : CallGraph} {V W VO : Value}

theorem nextSources_of_function (h : P.kind V = .function) : P.nextSources checker g V = [] := by
  unfold nextSources sourceOf instSource
  rw [h]
  cases P.getBaseFunction (P.stripPointerCasts V) <;> rfl

theorem nextSources_of_ret (h : P.kind V = .instruction .ret) :
    P.nextSources checker g V ⊆ P.operands V := by
  intro W hW
  unfold nextSources sourceOf instSource at hW
  rw [h] at hW
  cases hF : P.getBaseFunction (P.stripPointerCasts V) with
  | some F =>
    rw [hF] at hW
    cases hW
  | none =>
    rw [hF] at hW
    exact List.mem_of_mem_head? (Option.mem_toList.1 hW)

theorem mem_values_of_operands (h : W ∈ P.operands V) : W ∈ P.values := (P.mem_values W V h).1

theorem mem_values_of_operand0 (h : P.operand0 V = some W) : W ∈ P.values :=
  mem_values_of_operands (List.mem_of_mem_head? h)

variable {EV : List Value}

theorem mem_values_of_argumentSource (h : P.argumentSource g V = .pushed EV) (hW : W ∈ EV) :
    W ∈ P.values := by
  unfold argumentSource at h
  dsimp only at h
  split at h
  · cases h
    obtain ⟨cai, -, hcai⟩ := List.mem_filterMap.1 hW
    have hop : W ∈ P.operands cai := (List.dropLast_sublist _).subset (List.mem_of_getElem? hcai)
    exact mem_values_of_operands hop
  · cases h

theorem kind_of_returnInsts (h : W ∈ P.returnInsts g V) : P.kind W = .instruction .ret := by
  obtain ⟨f, -, hW⟩ := List.mem_flatMap.1 h
  exact of_decide_eq_true (List.mem_filter.1 hW).2

theorem kind_of_callSource (h : P.callSource checker g V = .pushed EV) (hW : W ∈ EV) :
    P.kind W = .function ∨ P.kind W = .instruction .ret := by
  unfold callSource at h
  split_ifs at h <;> cases h
  · cases hW
  · cases hW
  · rcases List.mem_append.1 hW with hsym | hret
    · exact Or.inl (of_decide_eq_true (List.mem_filter.1 hsym).2)
    · exact Or.inr (kind_of_returnInsts hret)
  · exact Or.inr (kind_of_returnInsts hW)

theorem mem_values_of_loadSource (h : P.loadSource checker V = .pushed EV) (hW : W ∈ EV) :
    W ∈ P.values := by
  unfold loadSource at h
  split at h
  case h_2 => cases h
  case h_1 LPO hLPO =>
    split at h
    · split at h <;> cases h
      rw [List.mem_singleton.1 hW]
      exact mem_values_of_operand0 hLPO
    · cases h
      rcases List.mem_cons.1 hW with rfl | hW
      · exact mem_values_of_operand0 hLPO
      · obtain ⟨U, -, hU⟩ := List.mem_filterMap.1 hW
        exact mem_values_of_operand0 hU

theorem mem_values_of_bitCastSource (h : P.bitCastSource V = .pushed EV) (hW : W ∈ EV) :
    W ∈ P.values := by
  unfold bitCastSource at h
  split at h
  case h_2 => cases h
  case h_1 Op hOp =>
    split at h <;> cases h
    rw [List.mem_singleton.1 hW]
    exact mem_values_of_operand0 hOp

theorem sourceOf_of_pushed (h : P.sourceOf checker g V = .pushed EV) :
    EV = [] ∨ P.instSource checker g V = .pushed EV := by
  unfold sourceOf at h
  split at h
  · cases h
    exact Or.inl rfl
  · split at h
    · dsimp only at h
      split at h <;> cases h
    · split at h
      · cases h
      · exact Or.inr h

/-- A value that is pushed is an operand of something, a function or a return
    instruction. -/
theorem nextSources_cases (h : W ∈ P.nextSources checker g V) :
    W ∈ P.values ∨ P.kind W = .function ∨ P.kind W = .instruction .ret := by
  have hops : ∀ {l : List Value}, l.Sublist (P.operands V) → W ∈ l → W ∈ P.values :=
    fun hl hW => mem_values_of_operands (hl.subset hW)
  unfold nextSources at h
  split at h
  case h_2 => cases h
  case h_1 EV heq =>
    rcases sourceOf_of_pushed heq with rfl | hinst
    · cases h
    · unfold instSource at hinst
      split at hinst
      case h_1 => exact Or.inl (mem_values_of_argumentSource hinst h)
      case h_2 => exact Or.inr (kind_of_callSource hinst h)
      case h_3 => exact Or.inl (mem_values_of_loadSource hinst h)
      case h_4 => cases hinst; exact Or.inl (hops List.filter_sublist h)
      case h_5 => exact Or.inl (mem_values_of_bitCastSource hinst h)
      case h_6 => exact Or.inl (mem_values_of_bitCastSource hinst h)
      case h_12 => cases hinst; exact Or.inl (hops (List.drop_sublist _ _) h)
      case h_13 => cases hinst; cases h
      case h_15 => cases hinst
      -- casts of integers and pointers, and return instructions
      all_goals
        cases hinst
        exact Or.inl (mem_values_of_operand0 (Option.mem_toList.1 h))

variable (checker g) in
/-- The fuel of the loop is enough. -/
theorem enough_sources (hVO : VO ∈ P.values) :
    Enough (P.nextSources checker g) (P.sourcePool checker g) (P.sourceFuel checker g) [VO] ∅ := by
  refine ⟨?_, ?_, ?_⟩
  · intro V hV
    rw [List.mem_singleton.1 hV]
    exact Finset.mem_union_left _ hVO
  · intro V hV W hW
    have hvalue : V ∈ P.values → W ∈ P.sourcePool checker g := fun hmem =>
      Finset.mem_union_right _ (Finset.mem_biUnion.2 ⟨V, hmem, List.mem_toFinset.2 hW⟩)
    rcases Finset.mem_union.1 hV with hmem | hpushed
    · exact hvalue hmem
    · obtain ⟨U, -, hU⟩ := Finset.mem_biUnion.1 hpushed
      rcases nextSources_cases (List.mem_toFinset.1 hU) with hmem | hfun | hret
      · exact hvalue hmem
      · rw [nextSources_of_function hfun] at hW
        cases hW
      · exact Finset.mem_union_left _ (mem_values_of_operands (nextSources_of_ret hret hW))
  · rw [Finset.sdiff_empty, sourceFuel, List.length_singleton]
    omega

/-- **The loop.**  It goes through what the start leads to. -/
theorem mem_sourceOrder_iff (hVO : VO ∈ P.values) : V ∈ P.sourceOrder checker g VO ↔
    Relation.ReflTransGen (Step (P.nextSources checker g)) VO V := by
  rw [sourceOrder, mem_bfsOrder_iff (enough_sources checker g hVO)]
  simp

variable (P checker g V) in
/-- An instruction is no field. -/
theorem instSource_cases :
    P.instSource checker g V = .unsupported ∨ ∃ EV, P.instSource checker g V = .pushed EV := by
  have hargument : P.argumentSource g V = .unsupported ∨
      ∃ EV, P.argumentSource g V = .pushed EV := by
    unfold argumentSource
    dsimp only
    split <;> simp
  have hcall : P.callSource checker g V = .unsupported ∨
      ∃ EV, P.callSource checker g V = .pushed EV := by
    unfold callSource
    split_ifs <;> simp
  have hload : P.loadSource checker V = .unsupported ∨
      ∃ EV, P.loadSource checker V = .pushed EV := by
    unfold loadSource
    split
    · split
      · cases checker <;> simp
      · simp
    · simp
  have hbitCast : P.bitCastSource V = .unsupported ∨ ∃ EV, P.bitCastSource V = .pushed EV := by
    unfold bitCastSource
    split
    · split <;> simp
    · simp
  unfold instSource
  split
  case h_1 => exact hargument
  case h_2 => exact hcall
  case h_3 => exact hload
  case h_5 => exact hbitCast
  case h_6 => exact hbitCast
  case h_15 => exact Or.inl rfl
  all_goals exact Or.inr ⟨_, rfl⟩

/-- A field that the loop meets belongs to a struct. -/
theorem isStructTy_of_layers {TyList : List CompositeType} {CT : CompositeType}
    (h : P.sourceOf checker g V = .layers TyList) (hCT : CT ∈ TyList) :
    P.T.isStructTy CT.1 = true := by
  unfold sourceOf at h
  split at h
  · cases h
  · split at h
    · dsimp only at h
      split at h
      · cases h
        exact TypedProgram.isStructTy_getGEPLayerTypes hCT
      · cases h
    · split at h
      · cases h
      · rcases P.instSource_cases checker g V with hinst | ⟨EV, hinst⟩ <;>
        · rw [hinst] at h
          cases h

/-- What the loop goes through depends on the maps of the layers only by the names. -/
theorem sourceOf_layers {m : LayerMaps}
    (hnames : m.Global_Literal_Struct_Map = g.layers.Global_Literal_Struct_Map) :
    P.sourceOf checker { g with layers := m } = P.sourceOf checker g := by
  ext TV
  unfold sourceOf
  rw [hnames]
  rfl

theorem checkedSources_of_allSupported (h : P.allSupported checker g VO = true) :
    P.checkedSources checker g VO = P.sourceOrder checker g VO :=
  List.takeWhile_eq_self_iff.2 fun V hV => List.all_eq_true.1 h V hV

end

end CallProgram

end TFA
