/-
  The alias context and the functions analysed in it (`AliasAnalysis.h`,
  `InstHandler.cc`, `analyzeFunction` of `InterAliasAnalysis.cc`).

  Which handlers are called for an instruction does not depend on the graph, so
  `HandleInst` and what it calls are given as lists of handler calls.  The
  context keeps, with the graph, the calls that have built it.
-/
import TFA.Alias.Runs
import TFA.Program

namespace TFA

/-! ## Which handlers are called -/

namespace Program

variable (P : Program) (Ctx : GlobalContext)

/-- A `GEPOperator`, a `BitCastOperator` or a `PtrToIntOperator`. -/
def isOperator (v : Value) : Bool :=
  (P.kind v).isOperator .getElementPtr || (P.kind v).isOperator .bitCast ||
    (P.kind v).isOperator .ptrToInt

/-- An instruction whose opcode is in `BinaryOperandInsts`. -/
def isBinaryOperandInst (v : Value) : Bool :=
  match P.kind v with
  | .instruction op => op.getOpcodeName ∈ BinaryOperandInsts
  | _ => false

def handleOperatorWithin : ℕ → Value → List AliasCall
  | 0, _ => []
  | fuel + 1, v =>
    match P.operand0 v with
    | some op => if P.isOperator v then .move v op :: handleOperatorWithin fuel op else []
    | none => []

/-- `HandleOperator`; operators do not depend on themselves, so the recursion ends
    (`handleOperatorWithin_eq`). -/
def HandleOperator (v : Value) : List AliasCall := P.handleOperatorWithin (P.rank v + 1) v

/-- `isUselessInst`. -/
def isUselessInst (I : Value) : Bool :=
  P.kind I = .instruction .call ∧ P.getCalledFuncName I ∈ DebugFuncs

/-- The functions that a call of `__symbol_get` may return; every hash under a name leads
    to one (`DefinitionsOnly`). -/
def symbolTargets (CAI : Value) : List Value :=
  if P.symbol_get_hander CAI = "" then []
  else (inOrder (Ctx.GlobalFuncs (P.symbol_get_hander CAI))).filterMap Ctx.Global_Unique_Func_Map

/-- `HandleCai`. -/
def HandleCai (CAI : Value) : List AliasCall :=
  .alloc CAI :: (P.operands CAI).map .alloc ++
    if P.getCalledFuncName CAI ∈ CopyFuncs then
      match P.callArgs CAI with
      | dst :: src :: _ => [.move dst src]
      | _ => []
    else if P.getCalledFuncName CAI = "__symbol_get" then (P.symbolTargets Ctx CAI).map (.move CAI)
    else []

/-- The names that `HandleCai` adds to `Global_symbol_get_funcSet`. -/
def symbolNames (CAI : Value) : Finset String :=
  if P.kind CAI = .instruction .call ∧ P.isUselessInst CAI = false ∧
      P.getCalledFuncName CAI ∉ CopyFuncs ∧ P.getCalledFuncName CAI = "__symbol_get" ∧
      P.symbolTargets Ctx CAI ≠ [] then
    {P.symbol_get_hander CAI}
  else ∅

/-- `HandleInst`. -/
def HandleInst (I : Value) : List AliasCall :=
  if P.isUselessInst I then []
  else (P.operands I).flatMap P.HandleOperator ++
    match P.kind I with
    | .instruction .alloca => [.alloc I]
    | .instruction .store =>
      match P.operands I with
      | vop :: pop :: _ => [.store vop pop (P.tbaa I)]
      | _ => []
    | .instruction .load => (P.operand0 I).toList.map fun op => .load I op (P.tbaa I)
    | .instruction .getElementPtr | .instruction .bitCast | .instruction .zExt
    | .instruction .sExt | .instruction .trunc | .instruction .intToPtr
    | .instruction .ptrToInt => (P.operand0 I).toList.map (.move I)
    | .instruction .phi => (P.operands I).map (.move I)
    -- the condition of a select is its first operand
    | .instruction .select => ((P.operands I).drop 1).map (.move I)
    | .instruction .call => P.HandleCai Ctx I
    | .instruction .ret =>
      match P.getReturnValue I with
      | some return_v => if P.kind return_v = .constantData then [] else [.move I return_v]
      | none => []
    | _ => []

/-- `HandleReturn`. -/
def HandleReturn (F cai : Value) : List AliasCall :=
  ((P.insts F).filter (P.kind · = .instruction .ret)).flatMap fun RI =>
    (P.getReturnValue RI).toList.map fun return_v => .move return_v cai

/-- The moves of the actual arguments of a call from the formals of a function. -/
def argMoves (cai f : Value) : List AliasCall :=
  ((P.callArgs cai).zip (P.args f)).map fun (cai_arg, f_arg) => .move cai_arg f_arg

variable {P}

/-- The recursion of `HandleOperator` ends. -/
theorem handleOperatorWithin_eq {fuel fuel' : ℕ} {v : Value} (h : P.rank v < fuel)
    (h' : P.rank v < fuel') : P.handleOperatorWithin fuel v = P.handleOperatorWithin fuel' v := by
  induction fuel generalizing fuel' v with
  | zero => omega
  | succ fuel ih =>
    obtain ⟨fuel', rfl⟩ : ∃ k, fuel' = k + 1 := ⟨fuel' - 1, by omega⟩
    unfold handleOperatorWithin
    cases hop : P.operand0 v with
    | none => rfl
    | some op =>
      dsimp only
      split
      case isFalse => rfl
      case isTrue hv =>
        have hmem : op ∈ P.operands v := List.mem_of_mem_head? hop
        have hlt : P.rank op < P.rank v := by
          refine P.rank_lt v op hmem ?_
          simpa [isOperator, or_assoc] using hv
        have hrest : P.handleOperatorWithin fuel op = P.handleOperatorWithin fuel' op :=
          ih (by omega) (by omega)
        rw [hrest]

theorem HandleOperator_of_isOperator {v op : Value} (hv : P.isOperator v = true)
    (hop : P.operand0 v = some op) : P.HandleOperator v = .move v op :: P.HandleOperator op := by
  have hlt : P.rank op < P.rank v := by
    refine P.rank_lt v op (List.mem_of_mem_head? hop) ?_
    simpa [isOperator, or_assoc] using hv
  unfold HandleOperator
  rw [handleOperatorWithin, hop]
  simp only [hv, if_true]
  rw [handleOperatorWithin_eq hlt (Nat.lt_succ_self _)]

/-! ### Where tags come from -/

variable (P) in
/-- The call has no tag, or that of an instruction. -/
def TagOf (c : AliasCall) : Prop := c.tag = none ∨ ∃ I, c.tag = P.tbaa I

section
variable {Ctx : GlobalContext} {c : AliasCall} {v I F cai f : Value}

theorem tag_handleOperatorWithin {fuel : ℕ} (hc : c ∈ P.handleOperatorWithin fuel v) :
    c.tag = none := by
  induction fuel generalizing v with
  | zero => cases hc
  | succ fuel ih =>
    unfold handleOperatorWithin at hc
    split at hc
    · split at hc
      · rcases List.mem_cons.1 hc with rfl | hc
        · rfl
        · exact ih hc
      · cases hc
    · cases hc

theorem tag_HandleCai (hc : c ∈ P.HandleCai Ctx I) : c.tag = none := by
  unfold HandleCai at hc
  rw [List.mem_append, List.mem_cons, List.mem_map] at hc
  rcases hc with (rfl | ⟨op, -, rfl⟩) | hc
  · rfl
  · rfl
  · split at hc
    · split at hc
      · rw [List.mem_singleton.1 hc]
        rfl
      · cases hc
    · split at hc
      · obtain ⟨f, -, rfl⟩ := List.mem_map.1 hc
        rfl
      · cases hc

theorem tagOf_HandleInst (hc : c ∈ P.HandleInst Ctx I) : P.TagOf c := by
  have hmove : ∀ l : List Value, c ∈ l.map (.move I) → P.TagOf c := by
    intro l hl
    obtain ⟨w, -, rfl⟩ := List.mem_map.1 hl
    exact Or.inl rfl
  unfold HandleInst at hc
  split at hc
  · cases hc
  · rw [List.mem_append, List.mem_flatMap] at hc
    rcases hc with ⟨op, -, hc⟩ | hc
    · exact Or.inl (tag_handleOperatorWithin hc)
    · split at hc
      case h_1 => rw [List.mem_singleton.1 hc]; exact Or.inl rfl
      case h_2 =>
        split at hc
        · rw [List.mem_singleton.1 hc]
          exact Or.inr ⟨I, rfl⟩
        · cases hc
      case h_3 =>
        obtain ⟨op, -, rfl⟩ := List.mem_map.1 hc
        exact Or.inr ⟨I, rfl⟩
      case h_13 => exact Or.inl (tag_HandleCai hc)
      case h_14 =>
        split at hc
        · split at hc
          · cases hc
          · rw [List.mem_singleton.1 hc]
            exact Or.inl rfl
        · cases hc
      case h_15 => cases hc
      all_goals exact hmove _ hc

theorem tag_HandleReturn (hc : c ∈ P.HandleReturn F cai) : c.tag = none := by
  obtain ⟨RI, -, hc⟩ := List.mem_flatMap.1 hc
  obtain ⟨return_v, -, rfl⟩ := List.mem_map.1 hc
  rfl

theorem tag_argMoves (hc : c ∈ P.argMoves cai f) : c.tag = none := by
  obtain ⟨p, -, rfl⟩ := List.mem_map.1 hc
  rfl

end

end Program

/-! ## The context -/

theorem AliasCall.empty_eq_run (tg : TBAAGraph) (P : Program) :
    {} = AliasCall.run tg P.kind [] {} := rfl

/-- `AliasContext`. -/
structure AliasContext (tg : TBAAGraph) (P : Program) where
  graph : AliasGraph := {}
  /-- the handler calls made so far -/
  trace : List AliasCall := []
  graph_eq : graph = AliasCall.run tg P.kind trace {} := by exact AliasCall.empty_eq_run _ _
  Is_Analyze_Success : Bool := true
  failreason : AliasFailureReasons := .none
  AnalyzedFuncSet : Finset Value := ∅
  Global_symbol_get_funcSet : Finset String := ∅

namespace AliasContext

variable {tg : TBAAGraph} {P : Program} (ctx : AliasContext tg P)

/-- Call the handlers. -/
def calls (cs : List AliasCall) : AliasContext tg P :=
  { ctx with
    graph := AliasCall.run tg P.kind cs ctx.graph
    trace := ctx.trace ++ cs
    graph_eq := by rw [ctx.graph_eq, AliasCall.run, AliasCall.run, AliasCall.run,
      List.foldl_append] }

/-- The analysis fails, possibly for a reason. -/
def fail (reason : Option AliasFailureReasons) : AliasContext tg P :=
  { ctx with Is_Analyze_Success := false, failreason := reason.getD ctx.failreason }

/-- `HandleInst` for every instruction of `F`, which then counts as analysed. -/
def HandleInsts (Ctx : GlobalContext) (F : Value) : AliasContext tg P :=
  let ctx := ctx.calls ((P.insts F).flatMap (P.HandleInst Ctx))
  { ctx with
    AnalyzedFuncSet := insert F ctx.AnalyzedFuncSet
    Global_symbol_get_funcSet := ctx.Global_symbol_get_funcSet ∪
      (P.insts F).toFinset.biUnion (P.symbolNames Ctx) }

/-- `analyzeFunction`. -/
def analyzeFunction (Ctx : GlobalContext) (F : Value) : AliasContext tg P :=
  if F ∈ ctx.AnalyzedFuncSet then ctx else ctx.HandleInsts Ctx F

@[simp] theorem trace_calls (cs : List AliasCall) : (ctx.calls cs).trace = ctx.trace ++ cs := rfl
@[simp] theorem success_calls (cs : List AliasCall) :
    (ctx.calls cs).Is_Analyze_Success = ctx.Is_Analyze_Success := rfl
@[simp] theorem trace_fail (r : Option AliasFailureReasons) : (ctx.fail r).trace = ctx.trace := rfl
@[simp] theorem success_fail (r : Option AliasFailureReasons) :
    (ctx.fail r).Is_Analyze_Success = false := rfl

variable {ctx} in
theorem graph_congr {ctx' : AliasContext tg P} (h : ctx'.trace = ctx.trace) :
    ctx'.graph = ctx.graph := by
  rw [ctx'.graph_eq, ctx.graph_eq, h]

theorem success_analyzeFunction (Ctx : GlobalContext) (F : Value) :
    (ctx.analyzeFunction Ctx F).Is_Analyze_Success = ctx.Is_Analyze_Success := by
  unfold analyzeFunction
  split <;> rfl

/-- The trace of `ctx'` is that of `ctx` and more calls, with tags of the program. -/
def TraceExtends (ctx ctx' : AliasContext tg P) : Prop :=
  ∃ cs, ctx'.trace = ctx.trace ++ cs ∧ ∀ c ∈ cs, P.TagOf c

section
variable {ctx ctx' ctx'' : AliasContext tg P}

theorem TraceExtends.of_eq (h : ctx'.trace = ctx.trace) : TraceExtends ctx ctx' :=
  ⟨[], by rw [h, List.append_nil], by simp⟩

theorem TraceExtends.trans (h : TraceExtends ctx ctx') (h' : TraceExtends ctx' ctx'') :
    TraceExtends ctx ctx'' := by
  obtain ⟨cs, heq, htag⟩ := h
  obtain ⟨cs', heq', htag'⟩ := h'
  refine ⟨cs ++ cs', by rw [heq', heq, List.append_assoc], fun c hc => ?_⟩
  rcases List.mem_append.1 hc with hc | hc
  · exact htag c hc
  · exact htag' c hc

theorem TraceExtends.mem (h : TraceExtends ctx ctx') {c : AliasCall} (hc : c ∈ ctx.trace) :
    c ∈ ctx'.trace := by
  obtain ⟨cs, heq, -⟩ := h
  rw [heq]
  exact List.mem_append_left cs hc

theorem traceExtends_HandleInsts (ctx : AliasContext tg P) (Ctx : GlobalContext) (F : Value) :
    TraceExtends ctx (ctx.HandleInsts Ctx F) := by
  refine ⟨(P.insts F).flatMap (P.HandleInst Ctx), rfl, fun c hc => ?_⟩
  obtain ⟨I, -, hc⟩ := List.mem_flatMap.1 hc
  exact Program.tagOf_HandleInst hc

theorem traceExtends_analyzeFunction (ctx : AliasContext tg P) (Ctx : GlobalContext) (F : Value) :
    TraceExtends ctx (ctx.analyzeFunction Ctx F) := by
  unfold analyzeFunction
  split
  · exact .of_eq rfl
  · exact traceExtends_HandleInsts ctx Ctx F

end

end AliasContext

end TFA
