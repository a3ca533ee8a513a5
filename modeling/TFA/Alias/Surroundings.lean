/-
  What the alias analyses bring into the graph around a value.

  * `Around`: the handler calls for what surrounds a value: the calls that it is passed to or
    results from, the callers of its function, the other definitions and the uses of a
    global variable;
  * `Queues`: the global variables that are queued with a global variable;
  * `AtUse`: those for the uses of a function;
  * `around_mem_trace`: if the analysis does not fail, `interCaseHandler` sees to it that all
    of them are made.  A function that is not analysed again has been analysed before
    (`BodiesHandled`), and a loop that is left by a `break` has failed;
  * `queues_mem_LV`, `not_touchesUntracked`: it also queues what goes with the value, and
    fails at arithmetic and at inline assembly;
  * `expanded_of_reaches`: so all of this is done for every value that the loop has gone
    through.
-/
import TFA.Alias.HandleFunc

namespace TFA

open Loop InterState LoopState

/-! ## Handler calls -/

namespace Program

variable (P : Program) (Ctx : GlobalContext)

/-- The handler calls for the instructions of a function. -/
def bodyCalls (F : Value) : List AliasCall := (P.insts F).flatMap (P.HandleInst Ctx)

/-- The handler calls for a call and one of its callees. -/
def calleeCalls (cai f : Value) : List AliasCall :=
  P.HandleReturn f cai ++ P.bodyCalls Ctx f ++ P.argMoves cai f

/-- The handler calls for a function and one of its callers. -/
def callerCalls (cai F : Value) : List AliasCall :=
  P.argMoves cai F ++ P.bodyCalls Ctx (P.getFunction cai)

/-- The handler calls for a return instruction and a call of its function. -/
def returnCalls (RI cai : Value) : List AliasCall :=
  (P.getReturnValue RI).toList.map (fun return_v => .move return_v cai) ++
    P.bodyCalls Ctx (P.getFunction cai)

/-- The handler calls for a global variable and one of its copies. -/
def copyCalls (GV Global_GV : Value) : List AliasCall :=
  (if Global_GV ≠ GV then [.move Global_GV GV] else []) ++
    (P.getInitializer Global_GV).toList.flatMap (P.initializerCalls Global_GV)

/-- The global variable comes from a macro that is known not to matter. -/
def FromSafeMacro (GV : Value) : Prop :=
  containsSub (P.getName GV) "__UNIQUE_ID___addressable" ∧ P.getGlobalMacroSource GV ≠ "" ∧
    Ctx.SafeMacros.any (containsSub (P.getGlobalMacroSource GV))

/-- A global variable with the GUID of `v`. -/
structure IsCopy (v GV : Value) : Prop where
  kind : P.kind v = .globalVariable
  unsafe_macro : ¬ P.FromSafeMacro Ctx v
  guid : GV ∈ Ctx.Global_Unique_GV_Map (P.getGUID v)
  kind_copy : P.kind GV = .globalVariable

/-- The handler calls for what surrounds the value `v`. -/
inductive Around (v : Value) : AliasCall → Prop
  /-- a call that `v` is passed to -/
  | use {cai f c} (hv : P.kind v ≠ .constantData ∧ P.kind v ≠ .function)
      (hcai : P.UsedThrough (followUse P v) v cai) (hne : cai ≠ v)
      (hkind : P.kind cai = .instruction .call) (hf : f ∈ Ctx.Callees cai)
      (hc : c ∈ P.calleeCalls Ctx cai f) : Around v c
  /-- the call that `v` is the result of -/
  | result {f c} (hkind : P.kind v = .instruction .call)
      (hname : P.getCalledFuncName v ∉ HeapAllocFuncs) (hf : f ∈ Ctx.Callees v)
      (hc : c ∈ P.calleeCalls Ctx v f) : Around v c
  /-- a call of the function that `v` is a formal of -/
  | argument {cai c} (hkind : P.kind v = .argument) (hcai : cai ∈ Ctx.Callers (P.getFunction v))
      (hc : c ∈ P.callerCalls Ctx cai (P.getFunction v)) : Around v c
  /-- a call of the function that `v` returns from -/
  | returned {cai c} (hkind : P.kind v = .instruction .ret)
      (hcai : cai ∈ Ctx.Callers (P.getFunction v)) (hc : c ∈ P.returnCalls Ctx v cai) : Around v c
  /-- a copy of `v` -/
  | copy {GV c} (hcopy : P.IsCopy Ctx v GV) (hc : c ∈ P.copyCalls v GV) : Around v c
  /-- a use of a copy -/
  | globalUse {GV U op c} (hcopy : P.IsCopy Ctx v GV)
      (hU : P.UsedThrough (followGlobalUse P) GV U) (hop : P.kind U = .instruction op)
      (hc : c ∈ P.bodyCalls Ctx (P.getFunction U)) : Around v c

variable {P Ctx} in
theorem Around.kind_ne {v : Value} {c : AliasCall} (h : P.Around Ctx v c) :
    P.kind v ≠ .constantData ∧ P.kind v ≠ .function := by
  cases h with
  | use hv => exact hv
  | result hkind | argument hkind | returned hkind =>
    rw [hkind]
    decide
  | copy hcopy | globalUse hcopy =>
    rw [hcopy.kind]
    decide

/-- The global variables that the handler queues with the value `v`. -/
inductive Queues (v : Value) : Value → Prop
  /-- one in the initializer of a copy -/
  | inner {GV Ini g} (hcopy : P.IsCopy Ctx v GV) (hIni : P.getInitializer GV = some Ini)
      (hg : g ∈ P.innerGlobals Ini) : Queues v g
  /-- one that uses a copy -/
  | user {GV U} (hcopy : P.IsCopy Ctx v GV) (hU : P.UsedThrough (followGlobalUse P) GV U)
      (hkind : P.kind U = .globalVariable) : Queues v U

variable {P Ctx} in
theorem Queues.kind {v g : Value} (h : P.Queues Ctx v g) : P.kind v = .globalVariable := by
  cases h with
  | inner hcopy | user hcopy => exact hcopy.kind

variable {P Ctx} in
theorem Queues.kind_global {v g : Value} (h : P.Queues Ctx v g) : P.kind g = .globalVariable := by
  cases h with
  | inner _ _ hg =>
    obtain ⟨U, -, hg⟩ := List.mem_flatMap.1 hg
    exact of_decide_eq_true (List.mem_filter.1 hg).2
  | user _ _ hkind => exact hkind

/-- Arithmetic and inline assembly, for which there are no handlers. -/
def Untracked (I : Value) : Prop :=
  P.isBinaryOperandInst I = true ∨ P.kind I = .instruction .call ∧ P.isInlineAsm I = true

/-- The value is the result or an operand of such an instruction. -/
def TouchesUntracked (v : Value) : Prop :=
  P.Untracked v ∨ ∃ I, P.UsedThrough (followUse P v) v I ∧ P.Untracked I

/-- The handler calls for the uses of a function. -/
inductive AtUse (F : Value) : AliasCall → Prop
  /-- an instruction -/
  | body {U op c} (hU : P.UsedThrough (followFuncUse P) F U) (hop : P.kind U = .instruction op)
      (hc : c ∈ P.bodyCalls Ctx (P.getFunction U)) : AtUse F c
  /-- a call -/
  | callee {cai f c} (hcai : P.UsedThrough (followFuncUse P) F cai)
      (hkind : P.kind cai = .instruction .call) (hf : f ∈ Ctx.Callees cai)
      (hc : c ∈ P.calleeCalls Ctx cai f) : AtUse F c

end Program

variable {tg : TBAAGraph} {P : Program} {Ctx : GlobalContext}

/-! ## Contexts -/

namespace AliasContext

variable {ctx ctx' : AliasContext tg P} {c : AliasCall} {F : Value}

variable (Ctx) in
/-- The calls for the instructions of every function that counts as analysed are made. -/
def BodiesHandled (ctx : AliasContext tg P) : Prop :=
  ∀ F ∈ ctx.AnalyzedFuncSet, ∀ c ∈ P.bodyCalls Ctx F, c ∈ ctx.trace

variable (Ctx) in
/-- `ctx'` comes after `ctx`. -/
structure Follows (ctx ctx' : AliasContext tg P) : Prop where
  trace : ∀ c ∈ ctx.trace, c ∈ ctx'.trace
  bodies : ctx.BodiesHandled Ctx → ctx'.BodiesHandled Ctx
  success : ctx'.Is_Analyze_Success = true → ctx.Is_Analyze_Success = true

theorem Follows.refl (ctx : AliasContext tg P) : ctx.Follows Ctx ctx := ⟨fun _ h => h, id, id⟩

theorem Follows.trans {ctx'' : AliasContext tg P} (h : ctx.Follows Ctx ctx')
    (h' : ctx'.Follows Ctx ctx'') : ctx.Follows Ctx ctx'' :=
  ⟨fun c hc => h'.trace c (h.trace c hc), fun hb => h'.bodies (h.bodies hb),
    fun hs => h.success (h'.success hs)⟩

theorem follows_calls (cs : List AliasCall) (ctx : AliasContext tg P) :
    ctx.Follows Ctx (ctx.calls cs) where
  trace _ hc := List.mem_append_left _ hc
  bodies hb F hF c hc := List.mem_append_left _ (hb F hF c hc)
  success h := h

theorem follows_fail (reason : Option AliasFailureReasons) (ctx : AliasContext tg P) :
    ctx.Follows Ctx (ctx.fail reason) where
  trace _ hc := hc
  bodies hb := hb
  success h := by cases h

theorem follows_HandleInsts (F : Value) (ctx : AliasContext tg P) :
    ctx.Follows Ctx (ctx.HandleInsts Ctx F) where
  trace _ hc := List.mem_append_left _ hc
  bodies hb G hG c hc := by
    rcases Finset.mem_insert.1 hG with rfl | hG
    · exact List.mem_append_right _ hc
    · exact List.mem_append_left _ (hb G hG c hc)
  success h := h

theorem follows_analyzeFunction (F : Value) (ctx : AliasContext tg P) :
    ctx.Follows Ctx (ctx.analyzeFunction Ctx F) := by
  unfold analyzeFunction
  split
  · exact .refl ctx
  · exact follows_HandleInsts F ctx

/-- A function that is not analysed again has been analysed. -/
theorem mem_trace_analyzeFunction (hb : ctx.BodiesHandled Ctx) (hc : c ∈ P.bodyCalls Ctx F) :
    c ∈ (ctx.analyzeFunction Ctx F).trace := by
  unfold analyzeFunction
  split
  case isTrue hF => exact hb F hF c hc
  case isFalse => exact List.mem_append_right _ hc

end AliasContext

/-! ## The handler -/

namespace InterState

variable {s s' : InterState tg P} {c : AliasCall} {reason : Option AliasFailureReasons}
  {v cai f F U GV : Value}

variable (Ctx) in
/-- `s'` comes after `s`. -/
structure Follows (s s' : InterState tg P) : Prop extends
    AliasContext.Follows Ctx s.ctx s'.ctx where
  queue : ∀ y ∈ s.LV, y ∈ s'.LV

instance : IsPreorder (InterState tg P) (Follows Ctx) where
  refl s := ⟨AliasContext.Follows.refl s.ctx, fun _ h => h⟩
  trans _ _ _ h h' := ⟨h.toFollows.trans h'.toFollows, fun y hy => h'.queue y (h.queue y hy)⟩

variable (Ctx) in
/-- What handlers bring about and never undo: that a call is made, or a value queued. -/
def Lasting (J : InterState tg P → Prop) : Prop := ∀ {s s'}, Follows Ctx s s' → J s → J s'

theorem lasting_trace (c : AliasCall) :
    Lasting Ctx fun s : InterState tg P => c ∈ s.ctx.trace := fun h hc => h.trace c hc

theorem lasting_queue (y : Value) : Lasting Ctx fun s : InterState tg P => y ∈ s.LV :=
  fun h hy => h.queue y hy

variable (Ctx) in
theorem follows_calls (cs : List AliasCall) (s : InterState tg P) : Follows Ctx s (s.calls cs) :=
  ⟨AliasContext.follows_calls cs s.ctx, fun _ h => h⟩

variable (Ctx) in
theorem follows_fail (reason : Option AliasFailureReasons) (s : InterState tg P) :
    Follows Ctx s (s.fail reason) := ⟨AliasContext.follows_fail reason s.ctx, fun _ h => h⟩

variable (Ctx) in
theorem follows_push (vs : List Value) (s : InterState tg P) : Follows Ctx s (s.push vs) :=
  ⟨AliasContext.Follows.refl s.ctx, fun _ h => List.mem_append_left vs h⟩

variable (Ctx) in
theorem follows_mark (vs : Finset Value) (s : InterState tg P) : Follows Ctx s (s.mark vs) :=
  ⟨AliasContext.Follows.refl s.ctx, fun _ h => h⟩

variable (Ctx) in
theorem follows_analyzeFunction (F : Value) (s : InterState tg P) :
    Follows Ctx s (s.analyzeFunction Ctx F) :=
  ⟨AliasContext.follows_analyzeFunction F s.ctx, fun _ h => h⟩

variable (Ctx) in
theorem follows_update (reason : Option AliasFailureReasons) (v : Value) (s : InterState tg P) :
    Follows Ctx s (s.update reason v) := by
  have hpush : Follows Ctx s (s.pushTargets v) := follows_push Ctx _ s
  unfold update
  dsimp only
  split
  · exact trans_of _ hpush (follows_fail Ctx reason _)
  · exact hpush

/-- A loop whose rounds fail before they break goes through all elements unless it fails. -/
theorem forBreak_brings {J : InterState tg P → Prop} (hJ : Lasting Ctx J)
    {body : Value → InterState tg P → InterState tg P × Bool}
    {l : List Value} {a : Value} (hfollows : ∀ b ∈ l, ∀ s, Follows Ctx s (body b s).1)
    (hbreak : ∀ b s, (body b s).2 = true → (body b s).1.ctx.Is_Analyze_Success = false)
    (hround : ∀ s, s.ctx.BodiesHandled Ctx → (body a s).1.ctx.Is_Analyze_Success = true →
      J (body a s).1)
    (ha : a ∈ l) (hb : s.ctx.BodiesHandled Ctx)
    (hsucc : (forBreak body l s).ctx.Is_Analyze_Success = true) : J (forBreak body l s) := by
  rcases forBreak_visits hfollows ha s with ⟨s₁, hbefore, hafter⟩ | ⟨b, -, s₁, heq⟩
  · exact hJ hafter (hround s₁ (hbefore.bodies hb) (hafter.success hsucc))
  · have hfail := hbreak b s₁ (congrArg Prod.snd heq)
    rw [heq] at hfail
    exact absurd (hfail.symm.trans hsucc) (by decide)

/-! ### Calls -/

variable (reason v) in
theorem follows_extendCallee (cai f : Value) (s : InterState tg P) :
    Follows Ctx s (extendCallee Ctx reason v cai f s).1 := by
  let s₁ := s.calls (P.HandleReturn f cai)
  let s₂ := (s₁.analyzeFunction Ctx f).mark (P.args f).toFinset
  calc
    Follows Ctx s s₁ := follows_calls Ctx _ s
    Follows Ctx _ (s₁.analyzeFunction Ctx f) := follows_analyzeFunction Ctx f s₁
    Follows Ctx _ s₂ := follows_mark Ctx _ _
    Follows Ctx _ (s₂.calls (P.argMoves cai f)) := follows_calls Ctx _ s₂
    Follows Ctx _ _ := follows_update Ctx reason v _

variable (reason v) in
/-- One callee. -/
theorem mem_trace_extendCallee (hc : c ∈ P.calleeCalls Ctx cai f) (hb : s.ctx.BodiesHandled Ctx) :
    c ∈ (extendCallee Ctx reason v cai f s).1.ctx.trace := by
  let s₁ := s.calls (P.HandleReturn f cai)
  let s₂ := (s₁.analyzeFunction Ctx f).mark (P.args f).toFinset
  have hreturn : Follows Ctx s s₁ := follows_calls Ctx _ s
  have hbody : Follows Ctx s₁ s₂ :=
    trans_of _ (follows_analyzeFunction Ctx f s₁) (follows_mark Ctx _ _)
  refine (follows_update Ctx reason v (s₂.calls (P.argMoves cai f))).trace c ?_
  unfold Program.calleeCalls at hc
  rw [List.mem_append, List.mem_append] at hc
  rcases hc with (hc | hc) | hc
  · exact List.mem_append_left _ (hbody.trace c (List.mem_append_right _ hc))
  · exact List.mem_append_left _ (AliasContext.mem_trace_analyzeFunction (hreturn.bodies hb) hc)
  · exact List.mem_append_right _ hc

variable (Ctx reason v cai) in
theorem follows_extendCall (s : InterState tg P) :
    Follows Ctx s (s.extendCall Ctx reason v cai) :=
  forBreak_rel (fun f _ s => follows_extendCallee reason v cai f s) s

/-- All callees. -/
theorem mem_trace_extendCall (hf : f ∈ Ctx.Callees cai) (hc : c ∈ P.calleeCalls Ctx cai f)
    (hb : s.ctx.BodiesHandled Ctx)
    (hsucc : (s.extendCall Ctx reason v cai).ctx.Is_Analyze_Success = true) :
    c ∈ (s.extendCall Ctx reason v cai).ctx.trace :=
  forBreak_brings (lasting_trace c) (fun f _ s => follows_extendCallee reason v cai f s)
    (fun _ _ h => success_update_of_exceeds h)
    (fun _ hb _ => mem_trace_extendCallee reason v hc hb) hf hb hsucc

variable (Ctx v) in
theorem follows_handleUse (U : Value) (s : InterState tg P) :
    Follows Ctx s (final (handleUse Ctx v U s)) := by
  unfold handleUse
  split
  · exact follows_fail Ctx _ s
  · split
    · exact refl_of (Follows Ctx) s
    · split
      · exact follows_fail Ctx _ s
      · exact trans_of _ (follows_extendCall Ctx (some .exceed_max) v U s)
          (follows_mark Ctx _ _)

/-- The loop over the users returns only if the analysis fails. -/
theorem fail_of_handleUse_error (h : handleUse Ctx v U s = .error s') :
    s'.ctx.Is_Analyze_Success = false := by
  unfold handleUse at h
  split at h
  · cases h
    rfl
  · split at h
    · cases h
    · split at h
      · cases h
        rfl
      · cases h

/-- A call that the value is passed to. -/
theorem mem_trace_handleUse (hne : cai ≠ v) (hkind : P.kind cai = .instruction .call)
    (hf : f ∈ Ctx.Callees cai) (hc : c ∈ P.calleeCalls Ctx cai f) (hb : s.ctx.BodiesHandled Ctx)
    (hsucc : (final (handleUse Ctx v cai s)).ctx.Is_Analyze_Success = true) :
    c ∈ (final (handleUse Ctx v cai s)).ctx.trace := by
  have hbinary : P.isBinaryOperandInst cai = false := by
    unfold Program.isBinaryOperandInst
    rw [hkind]
    rfl
  have hfollow : followUse P v cai = false := by
    simp [followUse, Program.isOperator, hkind, ValueKind.isOperator]
  have hother : ¬ (cai = v ∨ followUse P v cai = true ∨ P.kind cai ≠ .instruction .call) := by
    simp [hne, hfollow, hkind]
  unfold handleUse at hsucc ⊢
  simp only [hbinary, Bool.false_eq_true, if_false, if_neg hother] at hsucc ⊢
  split at hsucc
  case isTrue => cases hsucc
  case isFalse hasm =>
    rw [if_neg hasm]
    exact mem_trace_extendCall hf hc hb hsucc

/-! ### Global variables -/

variable (Ctx) in
theorem follows_handleGlobalUse (v U : Value) (s : InterState tg P) :
    Follows Ctx s (handleGlobalUse Ctx v U s).1 := by
  unfold handleGlobalUse
  split
  · exact trans_of _ (follows_analyzeFunction Ctx _ s)
      (follows_update Ctx _ v (s.analyzeFunction Ctx (P.getFunction U)))
  · exact follows_push Ctx _ s
  · exact refl_of (Follows Ctx) s

theorem fail_of_handleGlobalUse_break (h : (handleGlobalUse Ctx v U s).2 = true) :
    (handleGlobalUse Ctx v U s).1.ctx.Is_Analyze_Success = false := by
  unfold handleGlobalUse at h ⊢
  split at h
  · exact success_update_of_exceeds h
  · cases h
  · cases h

theorem mem_trace_handleGlobalUse {op : Opcode} (hop : P.kind U = .instruction op)
    (hc : c ∈ P.bodyCalls Ctx (P.getFunction U)) (hb : s.ctx.BodiesHandled Ctx) :
    c ∈ (handleGlobalUse Ctx v U s).1.ctx.trace := by
  unfold handleGlobalUse
  rw [hop]
  exact (follows_update Ctx _ v (s.analyzeFunction Ctx (P.getFunction U))).trace c
    (AliasContext.mem_trace_analyzeFunction hb hc)

variable (Ctx) in
theorem follows_analyzeGlobalInitializer (GV : Value) (s : InterState tg P) :
    Follows Ctx s (analyzeGlobalInitializer GV s) := by
  unfold analyzeGlobalInitializer
  split
  · exact trans_of _ (follows_calls Ctx _ s) (follows_push Ctx _ _)
  · exact refl_of (Follows Ctx) s

/-- The moves and the initializer of a copy. -/
theorem mem_trace_copyCalls (hc : c ∈ P.copyCalls v GV) (s : InterState tg P) :
    c ∈ (analyzeGlobalInitializer GV
      (s.calls (if GV ≠ v then [.move GV v] else []))).ctx.trace := by
  rcases List.mem_append.1 hc with hmove | hini
  · exact (follows_analyzeGlobalInitializer {} GV _).trace c (List.mem_append_right _ hmove)
  · obtain ⟨Ini, hIni, hc⟩ := List.mem_flatMap.1 hini
    unfold analyzeGlobalInitializer
    rw [Option.mem_toList.1 hIni]
    exact List.mem_append_right _ hc

variable (Ctx v GV) in
/-- The state after the uses of a copy. -/
def afterUses (s : InterState tg P) : InterState tg P :=
  forBreak (handleGlobalUse Ctx v) (P.throughUsers (followGlobalUse P) GV)
    (analyzeGlobalInitializer GV (s.calls (if GV ≠ v then [.move GV v] else [])))

theorem handleGlobal_eq (hGV : P.kind GV = .globalVariable) (s : InterState tg P) :
    handleGlobal Ctx v GV s =
      if ((s.afterUses Ctx v GV).update (some .exceed_max) v).exceeds then
        ((s.afterUses Ctx v GV).update (some .exceed_max) v, true)
      else (((s.afterUses Ctx v GV).update (some .exceed_max) v).mark {GV}, false) := by
  unfold handleGlobal
  rw [if_neg (not_not.2 hGV)]
  rfl

variable (Ctx v) in
theorem follows_afterUses (GV : Value) (s : InterState tg P) :
    Follows Ctx (analyzeGlobalInitializer GV (s.calls (if GV ≠ v then [.move GV v] else [])))
      (s.afterUses Ctx v GV) :=
  forBreak_rel (fun U _ s => follows_handleGlobalUse Ctx v U s) _

variable (Ctx v) in
/-- After the uses the list of values is updated. -/
theorem follows_handleGlobal_of_uses (hGV : P.kind GV = .globalVariable) (s : InterState tg P) :
    Follows Ctx (s.afterUses Ctx v GV) (handleGlobal Ctx v GV s).1 := by
  have hupdate := follows_update Ctx (some .exceed_max) v (s.afterUses Ctx v GV)
  rw [handleGlobal_eq hGV]
  split
  · exact hupdate
  · exact trans_of _ hupdate (follows_mark Ctx _ _)

variable (Ctx v) in
theorem follows_handleGlobal (GV : Value) (s : InterState tg P) :
    Follows Ctx s (handleGlobal Ctx v GV s).1 := by
  by_cases hGV : P.kind GV = .globalVariable
  · let s₁ := s.calls (if GV ≠ v then [.move GV v] else [])
    calc
      Follows Ctx s s₁ := follows_calls Ctx _ s
      Follows Ctx _ (analyzeGlobalInitializer GV s₁) := follows_analyzeGlobalInitializer Ctx GV s₁
      Follows Ctx _ (s.afterUses Ctx v GV) := follows_afterUses Ctx v GV s
      Follows Ctx _ _ := follows_handleGlobal_of_uses Ctx v hGV s
  · unfold handleGlobal
    rw [if_pos hGV]
    exact refl_of (Follows Ctx) s

theorem fail_of_handleGlobal_break (h : (handleGlobal Ctx v GV s).2 = true) :
    (handleGlobal Ctx v GV s).1.ctx.Is_Analyze_Success = false := by
  by_cases hGV : P.kind GV = .globalVariable
  · rw [handleGlobal_eq hGV] at h ⊢
    split at h
    case isTrue hexceeds =>
      rw [if_pos hexceeds]
      exact success_update_of_exceeds hexceeds
    case isFalse => cases h
  · unfold handleGlobal at h
    rw [if_pos hGV] at h
    cases h

/-- A copy and its initializer. -/
theorem mem_trace_handleGlobal_copy (hGV : P.kind GV = .globalVariable)
    (hc : c ∈ P.copyCalls v GV) (s : InterState tg P) :
    c ∈ (handleGlobal Ctx v GV s).1.ctx.trace :=
  (follows_handleGlobal_of_uses Ctx v hGV s).trace c
    ((follows_afterUses Ctx v GV s).trace c (mem_trace_copyCalls hc s))

/-- The global variables in the initializer of a copy are queued. -/
theorem mem_queue_handleGlobal_inner (hGV : P.kind GV = .globalVariable) {Ini g : Value}
    (hIni : P.getInitializer GV = some Ini) (hg : g ∈ P.innerGlobals Ini) (s : InterState tg P) :
    g ∈ (handleGlobal Ctx v GV s).1.LV := by
  refine (follows_handleGlobal_of_uses Ctx v hGV s).queue g
    ((follows_afterUses Ctx v GV s).queue g ?_)
  unfold analyzeGlobalInitializer
  rw [hIni]
  exact List.mem_append_right _ hg

/-- What is brought about for a use of a copy. -/
theorem handleGlobal_brings {J : InterState tg P → Prop} (hJ : Lasting Ctx J)
    (hGV : P.kind GV = .globalVariable) (hU : P.UsedThrough (followGlobalUse P) GV U)
    (hround : ∀ s : InterState tg P, s.ctx.BodiesHandled Ctx → J (handleGlobalUse Ctx v U s).1)
    (hb : s.ctx.BodiesHandled Ctx)
    (hsucc : (handleGlobal Ctx v GV s).1.ctx.Is_Analyze_Success = true) :
    J (handleGlobal Ctx v GV s).1 := by
  let s₁ := s.calls (if GV ≠ v then [.move GV v] else [])
  have hini : Follows Ctx s (analyzeGlobalInitializer GV s₁) :=
    trans_of _ (follows_calls Ctx _ s) (follows_analyzeGlobalInitializer Ctx GV s₁)
  have hend := follows_handleGlobal_of_uses Ctx v hGV s
  exact hJ hend (forBreak_brings hJ (fun U _ s => follows_handleGlobalUse Ctx v U s)
    (fun _ _ h => fail_of_handleGlobalUse_break h) (fun s hb _ => hround s hb)
    (Program.mem_throughUsers.2 hU) (hini.bodies hb) (hend.success hsucc))

/-! ### Callers -/

variable (Ctx v) in
theorem follows_handleCaller (F cai : Value) (s : InterState tg P) :
    Follows Ctx s (handleCaller Ctx v F cai s).1 := by
  let s₁ := s.calls (P.argMoves cai F)
  calc
    Follows Ctx s s₁ := follows_calls Ctx _ s
    Follows Ctx _ (s₁.analyzeFunction Ctx (P.getFunction cai)) := follows_analyzeFunction Ctx _ s₁
    Follows Ctx _ _ := follows_update Ctx _ v _

theorem mem_trace_handleCaller (hc : c ∈ P.callerCalls Ctx cai F) (hb : s.ctx.BodiesHandled Ctx) :
    c ∈ (handleCaller Ctx v F cai s).1.ctx.trace := by
  let s₁ := s.calls (P.argMoves cai F)
  refine (follows_update Ctx _ v (s₁.analyzeFunction Ctx (P.getFunction cai))).trace c ?_
  rcases List.mem_append.1 hc with hmove | hbody
  · exact (follows_analyzeFunction Ctx _ s₁).trace c (List.mem_append_right _ hmove)
  · exact AliasContext.mem_trace_analyzeFunction ((follows_calls Ctx _ s).bodies hb) hbody

variable (Ctx v) in
theorem follows_handleReturnTo (cai : Value) (s : InterState tg P) :
    Follows Ctx s (handleReturnTo Ctx v cai s).1 := by
  let s₁ := s.calls ((P.getReturnValue v).toList.map fun return_v => .move return_v cai)
  calc
    Follows Ctx s s₁ := follows_calls Ctx _ s
    Follows Ctx _ (s₁.analyzeFunction Ctx (P.getFunction cai)) := follows_analyzeFunction Ctx _ s₁
    Follows Ctx _ _ := follows_update Ctx _ v _

theorem mem_trace_handleReturnTo (hc : c ∈ P.returnCalls Ctx v cai)
    (hb : s.ctx.BodiesHandled Ctx) : c ∈ (handleReturnTo Ctx v cai s).1.ctx.trace := by
  let s₁ := s.calls ((P.getReturnValue v).toList.map fun return_v => .move return_v cai)
  refine (follows_update Ctx _ v (s₁.analyzeFunction Ctx (P.getFunction cai))).trace c ?_
  rcases List.mem_append.1 hc with hmove | hbody
  · exact (follows_analyzeFunction Ctx _ s₁).trace c (List.mem_append_right _ hmove)
  · exact AliasContext.mem_trace_analyzeFunction ((follows_calls Ctx _ s).bodies hb) hbody

/-! ### The whole step -/

variable (Ctx) in
theorem follows_globalCase (v : Value) (s : InterState tg P) :
    Follows Ctx s (globalCase Ctx v s) := by
  unfold globalCase
  split
  · exact refl_of (Follows Ctx) s
  · split
    · exact follows_fail Ctx _ s
    · split
      · exact follows_fail Ctx _ s
      · exact forBreak_rel (fun GV _ s => follows_handleGlobal Ctx v GV s) s

/-- What is brought about for one of the global variables with the GUID of `v`. -/
theorem globalCase_brings {J : InterState tg P → Prop} (hJ : Lasting Ctx J)
    (hcopy : P.IsCopy Ctx v GV)
    (hround : ∀ s : InterState tg P, s.ctx.BodiesHandled Ctx →
      (handleGlobal Ctx v GV s).1.ctx.Is_Analyze_Success = true → J (handleGlobal Ctx v GV s).1)
    (hb : s.ctx.BodiesHandled Ctx) (hsucc : (globalCase Ctx v s).ctx.Is_Analyze_Success = true) :
    J (globalCase Ctx v s) := by
  have hsafe := hcopy.unsafe_macro
  unfold Program.FromSafeMacro at hsafe
  unfold globalCase at hsucc ⊢
  rw [if_neg hsafe] at hsucc ⊢
  split at hsucc
  case isTrue => cases hsucc
  case isFalse hused =>
    rw [if_neg hused]
    split at hsucc
    case isTrue => cases hsucc
    case isFalse hasm =>
      rw [if_neg hasm]
      exact forBreak_brings hJ (fun GV _ s => follows_handleGlobal Ctx v GV s)
        (fun _ _ h => fail_of_handleGlobal_break h) hround (mem_inOrder.2 hcopy.guid) hb hsucc

variable (Ctx) in
theorem follows_kindCase (v : Value) (s : InterState tg P) : Follows Ctx s (kindCase Ctx v s) := by
  unfold kindCase
  split
  · exact follows_globalCase Ctx v s
  · unfold callCase
    split
    · exact follows_fail Ctx _ s
    · split
      · exact refl_of (Follows Ctx) s
      · split
        · exact follows_fail Ctx _ s
        · exact follows_extendCall Ctx (some .exceed_max) v v s
  · exact forBreak_rel (fun cai _ s => follows_handleCaller Ctx v _ cai s) s
  · exact forBreak_rel (fun cai _ s => follows_handleReturnTo Ctx v cai s) s
  · exact refl_of (Follows Ctx) s

variable (Ctx) in
theorem follows_interCaseHandler (v : Value) (s : InterState tg P) :
    Follows Ctx s (interCaseHandler Ctx v s) := by
  unfold interCaseHandler
  split
  · exact refl_of (Follows Ctx) s
  · split
    · exact follows_fail Ctx _ s
    · have huses : Follows Ctx s (final (forReturn (handleUse Ctx v)
          (P.throughUsers (followUse P v) v) s)) :=
        forReturn_rel (fun U _ s => follows_handleUse Ctx v U s) s
      split
      case h_1 s₁ heq =>
        rw [heq] at huses
        exact huses
      case h_2 s₁ heq =>
        rw [heq] at huses
        exact trans_of _ huses (follows_kindCase Ctx v s₁)

/-- The uses come first. -/
theorem interCaseHandler_spec (hdata : P.kind v ≠ .constantData) (hfunction : P.kind v ≠ .function)
    (hsucc : (interCaseHandler Ctx v s).ctx.Is_Analyze_Success = true) :
    ∃ s₁, forReturn (handleUse Ctx v) (P.throughUsers (followUse P v) v) s = .ok s₁ ∧
      interCaseHandler Ctx v s = kindCase Ctx v s₁ := by
  unfold interCaseHandler at hsucc ⊢
  rw [if_neg (not_or.2 ⟨hdata, hfunction⟩)] at hsucc ⊢
  split at hsucc
  case isTrue => cases hsucc
  case isFalse hbinary =>
    rw [if_neg hbinary]
    split at hsucc
    case h_1 s₁ heq =>
      obtain ⟨U, -, s₂, hU⟩ := forReturn_error heq
      exact absurd ((fail_of_handleUse_error hU).symm.trans hsucc) (by decide)
    case h_2 s₁ heq => exact ⟨s₁, heq, rfl⟩

/-- The last part, by the kind of the value. -/
theorem mem_trace_kindCase (h : P.Around Ctx v c)
    (huse : ∀ cai, P.UsedThrough (followUse P v) v cai → cai ≠ v →
      P.kind cai = .instruction .call → ∀ f ∈ Ctx.Callees cai, c ∈ P.calleeCalls Ctx cai f →
      c ∈ s.ctx.trace)
    (hb : s.ctx.BodiesHandled Ctx) (hsucc : (kindCase Ctx v s).ctx.Is_Analyze_Success = true) :
    c ∈ (kindCase Ctx v s).ctx.trace := by
  have hfollows := follows_kindCase Ctx v s
  cases h with
  | use hv hcai hne hkind hf hc => exact hfollows.trace c (huse _ hcai hne hkind _ hf hc)
  | result hkind hname hf hc =>
    unfold kindCase at hsucc ⊢
    rw [hkind] at hsucc ⊢
    dsimp only at hsucc ⊢
    unfold callCase at hsucc ⊢
    split at hsucc
    case isTrue => cases hsucc
    case isFalse hasm =>
      rw [if_neg hasm, if_neg hname]
      split at hsucc
      case isTrue => cases hsucc
      case isFalse hstrip =>
        rw [if_neg hstrip]
        exact mem_trace_extendCall hf hc hb hsucc
  | argument hkind hcai hc =>
    unfold kindCase at hsucc ⊢
    rw [hkind] at hsucc ⊢
    exact forBreak_brings (lasting_trace c) (fun cai _ s => follows_handleCaller Ctx v _ cai s)
      (fun _ _ h => success_update_of_exceeds h) (fun _ hb _ => mem_trace_handleCaller hc hb)
      hcai hb hsucc
  | returned hkind hcai hc =>
    unfold kindCase at hsucc ⊢
    rw [hkind] at hsucc ⊢
    exact forBreak_brings (lasting_trace c) (fun cai _ s => follows_handleReturnTo Ctx v cai s)
      (fun _ _ h => success_update_of_exceeds h) (fun _ hb _ => mem_trace_handleReturnTo hc hb)
      hcai hb hsucc
  | copy hcopy hc =>
    unfold kindCase at hsucc ⊢
    rw [hcopy.kind] at hsucc ⊢
    exact globalCase_brings (lasting_trace c) hcopy
      (fun s _ _ => mem_trace_handleGlobal_copy hcopy.kind_copy hc s) hb hsucc
  | globalUse hcopy hU hop hc =>
    unfold kindCase at hsucc ⊢
    rw [hcopy.kind] at hsucc ⊢
    exact globalCase_brings (lasting_trace c) hcopy
      (fun s hb hs => handleGlobal_brings (lasting_trace c) hcopy.kind_copy hU
        (fun s hb => mem_trace_handleGlobalUse hop hc hb) hb hs) hb hsucc

/-- **The interprocedural step.**  All handler calls for what surrounds the value are made. -/
theorem around_mem_trace (h : P.Around Ctx v c) (hb : s.ctx.BodiesHandled Ctx)
    (hsucc : (interCaseHandler Ctx v s).ctx.Is_Analyze_Success = true) :
    c ∈ (interCaseHandler Ctx v s).ctx.trace := by
  obtain ⟨s₁, huses, heq⟩ := interCaseHandler_spec h.kind_ne.1 h.kind_ne.2 hsucc
  have hrounds : ∀ U ∈ P.throughUsers (followUse P v) v, ∀ s : InterState tg P,
      Follows Ctx s (final (handleUse Ctx v U s)) := fun U _ s => follows_handleUse Ctx v U s
  have hfollows : Follows Ctx s s₁ := by
    have hall := forReturn_rel hrounds s
    rwa [huses] at hall
  rw [heq] at hsucc ⊢
  refine mem_trace_kindCase h (fun cai hcai hne hkind f hf hc => ?_) (hfollows.bodies hb) hsucc
  obtain ⟨s₂, hbefore, hafter⟩ :=
    forReturn_visits hrounds (Program.mem_throughUsers.2 hcai) huses
  exact hafter.trace c (mem_trace_handleUse hne hkind hf hc (hbefore.bodies hb)
    (hafter.success ((follows_kindCase Ctx v s₁).success hsucc)))

/-- The global variables that go with the value are queued. -/
theorem queues_mem_LV {g : Value} (h : P.Queues Ctx v g) (hb : s.ctx.BodiesHandled Ctx)
    (hsucc : (interCaseHandler Ctx v s).ctx.Is_Analyze_Success = true) :
    g ∈ (interCaseHandler Ctx v s).LV := by
  have hkind := h.kind
  obtain ⟨s₁, huses, heq⟩ :=
    interCaseHandler_spec (by rw [hkind]; decide) (by rw [hkind]; decide) hsucc
  have hfollows : Follows Ctx s s₁ := by
    have hall := forReturn_rel (l := P.throughUsers (followUse P v) v)
      (fun U _ s => follows_handleUse Ctx v U s) s
    rwa [huses] at hall
  rw [heq] at hsucc ⊢
  unfold kindCase at hsucc ⊢
  rw [hkind] at hsucc ⊢
  cases h with
  | inner hcopy hIni hg =>
    exact globalCase_brings (lasting_queue g) hcopy
      (fun s _ _ => mem_queue_handleGlobal_inner hcopy.kind_copy hIni hg s)
      (hfollows.bodies hb) hsucc
  | user hcopy hU hkindU =>
    refine globalCase_brings (lasting_queue g) hcopy (fun s hb hs => ?_) (hfollows.bodies hb) hsucc
    refine handleGlobal_brings (lasting_queue g) hcopy.kind_copy hU (fun s hb => ?_) hb hs
    unfold handleGlobalUse
    rw [hkindU]
    exact List.mem_append_right _ (List.mem_singleton_self g)

variable (Ctx) in
theorem fail_of_handleUse_untracked {U : Value} (hne : U ≠ v) (hU : P.Untracked U)
    (s : InterState tg P) : (final (handleUse Ctx v U s)).ctx.Is_Analyze_Success = false := by
  unfold handleUse
  rcases hU with hbinary | ⟨hkind, hasm⟩
  · rw [if_pos hbinary]
    rfl
  · have hbinary : P.isBinaryOperandInst U = false := by
      unfold Program.isBinaryOperandInst
      rw [hkind]
      rfl
    have hfollow : followUse P v U = false := by
      simp [followUse, Program.isOperator, hkind, ValueKind.isOperator]
    simp [hbinary, hne, hfollow, hkind, hasm, final, InterState.fail, AliasContext.fail]

/-- The analysis fails at arithmetic and at inline assembly. -/
theorem not_touchesUntracked (hdata : P.kind v ≠ .constantData) (hfunction : P.kind v ≠ .function)
    (hsucc : (interCaseHandler Ctx v s).ctx.Is_Analyze_Success = true) :
    ¬ P.TouchesUntracked v := by
  obtain ⟨s₁, huses, heq⟩ := interCaseHandler_spec hdata hfunction hsucc
  have hself : ¬ P.Untracked v := by
    rintro (hbinary | ⟨hkind, hasm⟩)
    · unfold interCaseHandler at hsucc
      rw [if_neg (not_or.2 ⟨hdata, hfunction⟩), if_pos hbinary] at hsucc
      cases hsucc
    · rw [heq] at hsucc
      unfold kindCase at hsucc
      rw [hkind] at hsucc
      dsimp only at hsucc
      unfold callCase at hsucc
      rw [if_pos hasm] at hsucc
      cases hsucc
  rintro (h | ⟨I, hI, h⟩)
  · exact hself h
  · by_cases hIv : I = v
    · exact hself (hIv ▸ h)
    · obtain ⟨s₂, -, hafter⟩ := forReturn_visits (fun U _ s => follows_handleUse Ctx v U s)
        (Program.mem_throughUsers.2 hI) huses
      rw [heq] at hsucc
      have hfail := fail_of_handleUse_untracked Ctx hIv h s₂
      have hround := hafter.success ((follows_kindCase Ctx v s₁).success hsucc)
      exact absurd (hfail.symm.trans hround) (by decide)

/-! ### The uses of a function -/

variable (Ctx) in
theorem follows_handleFuncUse (s : InterState tg P) (U : Value) :
    Follows Ctx s (handleFuncUse Ctx s U) := by
  unfold handleFuncUse
  split
  · exact trans_of _ (follows_analyzeFunction Ctx _ s)
      (follows_extendCall Ctx none U U (s.analyzeFunction Ctx (P.getFunction U)))
  · exact follows_analyzeFunction Ctx _ s
  · exact follows_push Ctx _ s
  · exact refl_of (Follows Ctx) s

/-- The function of an instruction is analysed. -/
theorem mem_trace_handleFuncUse_body {op : Opcode} (hop : P.kind U = .instruction op)
    (hc : c ∈ P.bodyCalls Ctx (P.getFunction U)) (hb : s.ctx.BodiesHandled Ctx) :
    c ∈ (handleFuncUse Ctx s U).ctx.trace := by
  have hbody : c ∈ (s.analyzeFunction Ctx (P.getFunction U)).ctx.trace :=
    AliasContext.mem_trace_analyzeFunction hb hc
  unfold handleFuncUse
  rw [hop]
  split
  · exact (follows_extendCall Ctx none U U _).trace c hbody
  · exact hbody
  all_goals simp_all

/-- The callees of a call are gone through. -/
theorem mem_trace_handleFuncUse_callee (hkind : P.kind cai = .instruction .call)
    (hf : f ∈ Ctx.Callees cai) (hc : c ∈ P.calleeCalls Ctx cai f) (hb : s.ctx.BodiesHandled Ctx)
    (hsucc : (handleFuncUse Ctx s cai).ctx.Is_Analyze_Success = true) :
    c ∈ (handleFuncUse Ctx s cai).ctx.trace := by
  unfold handleFuncUse at hsucc ⊢
  rw [hkind] at hsucc ⊢
  exact mem_trace_extendCall hf hc ((follows_analyzeFunction Ctx _ s).bodies hb) hsucc

variable (tg P Ctx) in
theorem bodiesHandled_HandleFuncUses (F : Value) :
    (HandleFuncUses tg P Ctx F).ctx.BodiesHandled Ctx := by
  have hall : Follows Ctx (⟨{}, [], ∅⟩ : InterState tg P) (HandleFuncUses tg P Ctx F) :=
    foldl_rel (fun U _ s => follows_handleFuncUse Ctx s U) _
  exact hall.bodies fun G hG => absurd hG (Finset.notMem_empty G)

/-- **The uses.**  All handler calls for them are made. -/
theorem atUse_mem_trace (h : P.AtUse Ctx F c)
    (hsucc : (HandleFuncUses tg P Ctx F).ctx.Is_Analyze_Success = true) :
    c ∈ (HandleFuncUses tg P Ctx F).ctx.trace := by
  have hbodies : ∀ {s : InterState tg P}, Follows Ctx ⟨{}, [], ∅⟩ s → s.ctx.BodiesHandled Ctx :=
    fun hs => hs.bodies fun G hG => absurd hG (Finset.notMem_empty G)
  have hvisits : ∀ {U}, P.UsedThrough (followFuncUse P) F U →
      ∃ s₁, Follows Ctx (⟨{}, [], ∅⟩ : InterState tg P) s₁ ∧
        Follows Ctx (handleFuncUse Ctx s₁ U) (HandleFuncUses tg P Ctx F) := fun hU =>
    foldl_visits (fun U _ s => follows_handleFuncUse Ctx s U) (Program.mem_throughUsers.2 hU) _
  cases h with
  | body hU hop hc =>
    obtain ⟨s₁, hbefore, hafter⟩ := hvisits hU
    exact hafter.trace c (mem_trace_handleFuncUse_body hop hc (hbodies hbefore))
  | callee hcai hkind hf hc =>
    obtain ⟨s₁, hbefore, hafter⟩ := hvisits hcai
    exact hafter.trace c
      (mem_trace_handleFuncUse_callee hkind hf hc (hbodies hbefore) (hafter.success hsucc))

end InterState

/-! ## The loop -/

namespace LoopState

variable {s s' s₀ : LoopState tg P} {reason : Option AliasFailureReasons}

variable (Ctx) in
/-- A value has been gone through: the handler calls for what surrounds it are made, the global
    variables that go with it are queued, and no arithmetic touches it. -/
structure Done (s : LoopState tg P) (v : Value) : Prop where
  around : ∀ c, P.Around Ctx v c → c ∈ s.ctx.trace
  queues : ∀ g, P.Queues Ctx v g → s.Pending g
  tracked : P.kind v ≠ .constantData → P.kind v ≠ .function → ¬ P.TouchesUntracked v

variable (Ctx) in
/-- Unless the analysis has failed, all values that count as analysed have been gone through,
    but for those of `A`. -/
def Expanded (A : Finset Value) (s : LoopState tg P) : Prop :=
  s.ctx.Is_Analyze_Success = true → s.ctx.BodiesHandled Ctx ∧
    ∀ v ∈ s.AnalyzedList, v ∉ A → s.Done Ctx v

/-- **One round.** -/
theorem Expanded.loopStep {A : Finset Value} (hs : s.Expanded Ctx A)
    (h : loopStep Ctx reason s = some s') : s'.Expanded Ctx A := by
  intro hsucc
  have hlater := later_loopStep h
  have hdone : ∀ v, s.Done Ctx v → s'.Done Ctx v := fun v hv =>
    ⟨fun c hc => hlater.trace.mem (hv.around c hc), fun g hg => hlater.pending g (hv.queues g hg),
      hv.tracked⟩
  obtain ⟨CV, rest, hrun, hlist, ⟨hseen, rfl⟩ | ⟨hstop, hfail, htrace, hl, hA⟩ |
    ⟨hstop, hA, hctx, hl⟩⟩ := loopStep_cases h
  · exact ⟨(hs hsucc).1, fun v hv hvA => hdone v ((hs hsucc).2 v hv hvA)⟩
  · exact absurd (hfail.symm.trans hsucc) (by decide)
  · have hfollows := follows_interCaseHandler Ctx CV ⟨s.ctx, rest, insert CV s.AnalyzedList⟩
    have hsucc' := hctx ▸ hsucc
    obtain ⟨hbodies, hall⟩ := hs (hfollows.success hsucc')
    refine ⟨by rw [hctx]; exact hfollows.bodies hbodies, fun v hv hvA => ?_⟩
    rw [hA] at hv
    rcases Finset.mem_insert.1 hv with rfl | hv
    · refine ⟨fun c hc => ?_, fun g hg => Or.inr ?_, fun hdata hfunction =>
        not_touchesUntracked hdata hfunction hsucc'⟩
      · rw [hctx]
        exact around_mem_trace hc hbodies hsucc'
      · rw [hl]
        exact queues_mem_LV hg hbodies hsucc'
    · exact hdone v (hall v hv hvA)

/-- **All rounds.** -/
theorem expanded_of_reaches (hreach : Reaches (loopStep Ctx reason) s₀ s)
    (hs : s₀.ctx.Is_Analyze_Success = true → s₀.ctx.BodiesHandled Ctx) :
    s.Expanded Ctx s₀.AnalyzedList := by
  have hstart : s₀.Expanded Ctx s₀.AnalyzedList :=
    fun hsucc => ⟨hs hsucc, fun v hv hno => absurd hv hno⟩
  exact reaches_rel (r := Keeps (Expanded Ctx s₀.AnalyzedList))
    (fun _ _ hstep hs => hs.loopStep hstep) hreach hstart

end LoopState

end TFA
