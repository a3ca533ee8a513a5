/-
  The interprocedural step (`InterAliasAnalysis.cc`).

  `interCaseHandler` extends the graph by what surrounds an aliased value (calls
  that it is passed to, calls whose result it is, callers of the function whose
  argument it is, uses and initializers of a global variable) and queues the
  values that have thereby entered its cluster.

  * `Recomputed`: what the handler does to its state.  If it makes any handler
    call and does not fail, the cluster of the value ends up among the values
    that are queued or that the handler counts as analysed;
  * the handler has its own copy of `Analyzed_Set`, into which it also puts
    values that nobody has analysed: `PassedOver` says which.
-/
import TFA.Alias.Context
import TFA.Lib.Loop

namespace TFA

open Loop

/-! ## Uses -/

namespace Program

variable (P : Program)

/-- The users of `v`, and those of every user that the search follows, breadth
    first. -/
def throughUsers (follow : Value → Bool) (v : Value) : List Value :=
  Worklist.bfsOrder (fun U => if follow U then P.users U else [])
    (2 * ∑ U ∈ P.values, (P.users U).length + 1) (P.users v) ∅

/-- `v` is used by `U`, or by something that is followed and leads to `U`. -/
inductive UsedThrough (follow : Value → Bool) (v : Value) : Value → Prop
  | user {U : Value} : U ∈ P.users v → UsedThrough follow v U
  | follow {U W : Value} : UsedThrough follow v U → follow U = true → W ∈ P.users U →
      UsedThrough follow v W

variable {P} in
theorem mem_throughUsers {follow : Value → Bool} {v U : Value} :
    U ∈ P.throughUsers follow v ↔ P.UsedThrough follow v U := by
  have hstep : ∀ a b, Worklist.Step (fun U => if follow U then P.users U else []) a b ↔
      follow a = true ∧ b ∈ P.users a := by
    intro a b
    show b ∈ (if follow a then P.users a else []) ↔ _
    split
    case isTrue ha => simp [ha]
    case isFalse ha => simp [ha]
  have hvalues : ∀ a b, b ∈ P.users a → a ∈ P.values ∧ b ∈ P.values := fun a b hb =>
    P.mem_values a b ((P.mem_users a b).1 hb)
  have henough : Worklist.Enough (fun U => if follow U then P.users U else []) P.values
      (2 * ∑ U ∈ P.values, (P.users U).length + 1) (P.users v) ∅ := by
    refine ⟨fun a ha => (hvalues v a ha).2, fun a _ b hb => ?_, ?_⟩
    · exact (hvalues a b ((hstep a b).1 hb).2).2
    · have hq : (P.users v).length ≤ ∑ U ∈ P.values, (P.users U).length := by
        cases hv : P.users v with
        | nil => simp
        | cons a l =>
          rw [← hv]
          have hmem : v ∈ P.values := (hvalues v a (by simp [hv])).1
          exact Finset.single_le_sum (f := fun U => (P.users U).length)
            (fun _ _ => Nat.zero_le _) hmem
      have hs : ∑ a ∈ P.values \ ∅, (if follow a then P.users a else []).length ≤
          ∑ U ∈ P.values, (P.users U).length := by
        rw [Finset.sdiff_empty]
        refine Finset.sum_le_sum fun a _ => ?_
        split <;> simp
      omega
  rw [throughUsers, Worklist.mem_bfsOrder_iff henough]
  constructor
  · rintro ⟨a, ha, hreach⟩
    induction hreach with
    | refl => exact .user ha
    | tail _ hbc ih => exact .follow ih ((hstep _ _).1 hbc).1 ((hstep _ _).1 hbc).2
  · intro hU
    induction hU with
    | user hU => exact ⟨_, hU, .refl⟩
    | follow _ hf hW ih =>
      obtain ⟨a, ha, hreach⟩ := ih
      exact ⟨a, ha, hreach.tail ((hstep _ _).2 ⟨hf, hW⟩)⟩

/-! ### Initializers -/

/-- The operands of composite type. -/
def compositeOperands (U : Value) : List Value := (P.operands U).filter fun O => P.isCompositeType O

/-- The aggregates of an initializer. -/
def initializerOrder (Ini : Value) : List Value :=
  Worklist.bfsOrder P.compositeOperands (∑ U ∈ P.values, (P.operands U).length + 2) [Ini] ∅

/-- The handler calls of `analyzeGlobalInitializer`. -/
def initializerCalls (GV Ini : Value) : List AliasCall :=
  .move Ini GV :: (P.initializerOrder Ini).flatMap fun U =>
    (P.operands U).flatMap fun O => .storeValues O U :: P.HandleOperator O

/-- The global variables that an initializer contains. -/
def innerGlobals (Ini : Value) : List Value :=
  (P.initializerOrder Ini).flatMap fun U => (P.operands U).filter (P.kind · = .globalVariable)

variable {P} in
theorem tag_initializerCalls {GV Ini : Value} {c : AliasCall}
    (hc : c ∈ P.initializerCalls GV Ini) : c.tag = none := by
  rcases List.mem_cons.1 hc with rfl | hc
  · rfl
  · obtain ⟨U, -, hc⟩ := List.mem_flatMap.1 hc
    obtain ⟨O, -, hc⟩ := List.mem_flatMap.1 hc
    rcases List.mem_cons.1 hc with rfl | hc
    · rfl
    · exact tag_handleOperatorWithin hc

end Program

/-! ## The state of the handler -/

/-- The context and the two lists that `interCaseHandler` works on. -/
structure InterState (tg : TBAAGraph) (P : Program) where
  ctx : AliasContext tg P
  LV : List Value := []
  Analyzed_Set : Finset Value := ∅

namespace InterState

variable {tg : TBAAGraph} {P : Program} (Ctx : GlobalContext) (s : InterState tg P)

def calls (cs : List AliasCall) : InterState tg P := { s with ctx := s.ctx.calls cs }

def analyzeFunction (F : Value) : InterState tg P := { s with ctx := s.ctx.analyzeFunction Ctx F }

def fail (reason : Option AliasFailureReasons) : InterState tg P :=
  { s with ctx := s.ctx.fail reason }

/-- Queue values. -/
def push (vs : List Value) : InterState tg P := { s with LV := s.LV ++ vs }

/-- Count values as analysed. -/
def mark (vs : Finset Value) : InterState tg P := { s with Analyzed_Set := s.Analyzed_Set ∪ vs }

/-- Is the list of values to analyse too long? -/
def exceeds : Bool := MAX_ANALYSIS_NUM < s.LV.length

/-- Queue the cluster of `v`, as far as it is not covered. -/
def pushTargets (v : Value) : InterState tg P :=
  s.push ((inOrder (s.ctx.graph.getClusterValues v ∅)).filter fun target_v =>
    target_v ∉ s.Analyzed_Set ∧ target_v ∉ s.LV)

/-- Queue the cluster of `v`, and fail if the list has become too long. -/
def update (reason : Option AliasFailureReasons) (v : Value) : InterState tg P :=
  let s := s.pushTargets v
  if s.exceeds then s.fail reason else s

/-- One callee of a call, seen from the value `v`. -/
def extendCallee (reason : Option AliasFailureReasons) (v cai f : Value) (s : InterState tg P) :
    InterState tg P × Bool :=
  let s := s.calls (P.HandleReturn f cai)
  let s := s.analyzeFunction Ctx f
  let s := s.mark (P.args f).toFinset
  let s := s.calls (P.argMoves cai f)
  let s := s.update reason v
  (s, s.exceeds)

/-- All callees of a call. -/
def extendCall (reason : Option AliasFailureReasons) (v cai : Value) : InterState tg P :=
  forBreak (extendCallee Ctx reason v cai) (Ctx.Callees cai) s

end InterState

/-! ## The handler -/

section
variable {tg : TBAAGraph} {P : Program} (Ctx : GlobalContext)

variable (P) in
/-- The users whose own users are visited, in the search for the calls that `v` is
    passed to. -/
def followUse (v U : Value) : Bool :=
  U ≠ v && (P.isOperator U || P.kind U = .constantAggregate)

/-- A user of the aliased value. -/
def handleUse (v U : Value) (s : InterState tg P) : Except (InterState tg P) (InterState tg P) :=
  if P.isBinaryOperandInst U then .error (s.fail (some .binary_operation))
  else if U = v ∨ followUse P v U ∨ P.kind U ≠ .instruction .call then .ok s
  else if P.isInlineAsm U then .error (s.fail (some .inline_asm))
  else .ok ((s.extendCall Ctx (some .exceed_max) v U).mark {U})

variable (P) in
/-- The users whose own users are visited, in the search for the uses of a global
    variable. -/
def followGlobalUse (U : Value) : Bool :=
  match P.kind U with
  | .instruction _ => false
  | k => P.isOperator U || k = .constantAggregate

/-- A user of a global variable with the GUID of the aliased one. -/
def handleGlobalUse (v U : Value) (s : InterState tg P) : InterState tg P × Bool :=
  match P.kind U with
  | .instruction _ =>
    let s := s.analyzeFunction Ctx (P.getFunction U)
    let s := s.update (some .exceed_max) v
    (s, s.exceeds)
  | .globalVariable => (s.push [U], false)
  | _ => (s, false)

/-- `analyzeGlobalInitializer`, for a global variable that has one. -/
def analyzeGlobalInitializer (GV : Value) (s : InterState tg P) : InterState tg P :=
  match P.getInitializer GV with
  | some Ini => (s.calls (P.initializerCalls GV Ini)).push (P.innerGlobals Ini)
  | none => s

/-- A global variable with the GUID of the aliased one. -/
def handleGlobal (GV Global_GV : Value) (s : InterState tg P) : InterState tg P × Bool :=
  if P.kind Global_GV ≠ .globalVariable then (s, false)
  else
    let s := s.calls (if Global_GV ≠ GV then [.move Global_GV GV] else [])
    let s := analyzeGlobalInitializer Global_GV s
    let s := forBreak (handleGlobalUse Ctx GV) (P.throughUsers (followGlobalUse P) Global_GV) s
    let s := s.update (some .exceed_max) GV
    if s.exceeds then (s, true) else (s.mark {Global_GV}, false)

/-- The aliased value is a global variable. -/
def globalCase (GV : Value) (s : InterState tg P) : InterState tg P :=
  if containsSub (P.getName GV) "__UNIQUE_ID___addressable" ∧ P.getGlobalMacroSource GV ≠ "" ∧
      Ctx.SafeMacros.any (containsSub (P.getGlobalMacroSource GV)) then s
  else if P.getName GV = "llvm.used" ∨ P.getName GV = "llvm.compiler.used" ∨
      containsSub (P.getName GV) "__start_set" then s.fail (some .llvm_used)
  else if P.hasExternalLinkage GV ∧ (Ctx.Global_Unique_GV_Map (P.getGUID GV)).card = 1 then
    s.fail (some .init_in_asm)
  else forBreak (handleGlobal Ctx GV) (inOrder (Ctx.Global_Unique_GV_Map (P.getGUID GV))) s

/-- The aliased value is the result of a call. -/
def callCase (CAI : Value) (s : InterState tg P) : InterState tg P :=
  if P.isInlineAsm CAI then s.fail (some .inline_asm)
  else if P.getCalledFuncName CAI ∈ HeapAllocFuncs then s
  else if containsSub (P.getCalledFuncName CAI) "llvm.strip.invariant.group" then
    s.fail (some .strip_invariant_group)
  else s.extendCall Ctx (some .exceed_max) CAI CAI

/-- A caller of the function whose argument is the aliased value. -/
def handleCaller (v caller cai : Value) (s : InterState tg P) : InterState tg P × Bool :=
  let s := s.calls (P.argMoves cai caller)
  let s := s.analyzeFunction Ctx (P.getFunction cai)
  let s := s.update (some .exceed_max) v
  (s, s.exceeds)

/-- The aliased value is an argument. -/
def argumentCase (arg : Value) (s : InterState tg P) : InterState tg P :=
  let caller := P.getFunction arg
  forBreak (handleCaller Ctx arg caller) (Ctx.Callers caller) s

/-- A caller of the function that the aliased value returns from. -/
def handleReturnTo (RI cai : Value) (s : InterState tg P) : InterState tg P × Bool :=
  let s := s.calls ((P.getReturnValue RI).toList.map fun return_v => .move return_v cai)
  let s := s.analyzeFunction Ctx (P.getFunction cai)
  let s := s.update (some .exceed_max) RI
  (s, s.exceeds)

/-- The aliased value is a return instruction. -/
def returnCase (RI : Value) (s : InterState tg P) : InterState tg P :=
  forBreak (handleReturnTo Ctx RI) (Ctx.Callers (P.getFunction RI)) s

/-- The last part of `interCaseHandler`, by the kind of the value. -/
def kindCase (aliased_v : Value) (s : InterState tg P) : InterState tg P :=
  match P.kind aliased_v with
  | .globalVariable => globalCase Ctx aliased_v s
  | .instruction .call => callCase Ctx aliased_v s
  | .argument => argumentCase Ctx aliased_v s
  | .instruction .ret => returnCase Ctx aliased_v s
  | _ => s

/-- `interCaseHandler`.  `Analyzed_Set` is passed by value: only the context and
    `LV` of the result are seen by the caller. -/
def interCaseHandler (aliased_v : Value) (s : InterState tg P) : InterState tg P :=
  if P.kind aliased_v = .constantData ∨ P.kind aliased_v = .function then s
  else if P.isBinaryOperandInst aliased_v then s.fail (some .binary_operation)
  else
    -- is the aliased value the argument of some callees?
    match forReturn (handleUse Ctx aliased_v)
        (P.throughUsers (followUse P aliased_v) aliased_v) s with
    | .error s => s
    | .ok s => kindCase Ctx aliased_v s

end

/-! ## What the handler does -/

variable {tg : TBAAGraph} {P : Program} {Ctx : GlobalContext}

namespace InterState

/-- The cluster of `v` is queued or counts as analysed. -/
def Covered (v : Value) (s : InterState tg P) : Prop :=
  ∀ y ∈ s.ctx.graph.getClusterValues v ∅, y ∈ s.Analyzed_Set ∨ y ∈ s.LV

/-- `s'` comes after `s`: more calls, more values on both lists, of which those
    that newly count as analysed are `marks`, and failures stay. -/
structure Extends (marks : Value → Prop) (s s' : InterState tg P) : Prop where
  trace : s.ctx.TraceExtends s'.ctx
  queued : ∀ y ∈ s.LV, y ∈ s'.LV
  analyzed : s.Analyzed_Set ⊆ s'.Analyzed_Set
  marked : ∀ y ∈ s'.Analyzed_Set, y ∈ s.Analyzed_Set ∨ marks y
  success : s'.ctx.Is_Analyze_Success = true → s.ctx.Is_Analyze_Success = true

/-- Moreover, if handlers are called, the cluster of `v` is covered in the end. -/
structure Recomputed (v : Value) (marks : Value → Prop) (s s' : InterState tg P) : Prop
    extends Extends marks s s' where
  covered : s'.ctx.Is_Analyze_Success = true → s'.ctx.trace = s.ctx.trace ∨ s'.Covered v

section
variable {marks : Value → Prop} {v : Value} {s s₁ s₂ : InterState tg P}

theorem Extends.refl (s : InterState tg P) : Extends marks s s where
  trace := .of_eq rfl
  queued _ hy := hy
  analyzed := subset_rfl
  marked _ hy := Or.inl hy
  success h := h

theorem Extends.trans (h₁ : Extends marks s s₁) (h₂ : Extends marks s₁ s₂) :
    Extends marks s s₂ where
  trace := h₁.trace.trans h₂.trace
  queued y hy := h₂.queued y (h₁.queued y hy)
  analyzed := h₁.analyzed.trans h₂.analyzed
  marked y hy := by
    rcases h₂.marked y hy with hy | hy
    · exact h₁.marked y hy
    · exact Or.inr hy
  success h := h₁.success (h₂.success h)

instance : IsPreorder (InterState tg P) (Extends marks) where
  refl := Extends.refl
  trans _ _ _ := Extends.trans

/-- The cluster stays covered as long as no handler is called. -/
theorem Covered.of_extends (h : s₁.Covered v) (hext : Extends marks s₁ s₂)
    (htrace : s₂.ctx.trace = s₁.ctx.trace) : s₂.Covered v := by
  intro y hy
  rw [AliasContext.graph_congr htrace] at hy
  rcases h y hy with hy | hy
  · exact Or.inl (hext.analyzed hy)
  · exact Or.inr (hext.queued y hy)

theorem Recomputed.trans (h₁ : Recomputed v marks s s₁) (h₂ : Recomputed v marks s₁ s₂) :
    Recomputed v marks s s₂ where
  toExtends := h₁.toExtends.trans h₂.toExtends
  covered hsucc := by
    rcases h₂.covered hsucc with hsame | hcov
    · rcases h₁.covered (h₂.success hsucc) with hsame' | hcov
      · exact Or.inl (hsame.trans hsame')
      · exact Or.inr (hcov.of_extends h₂.toExtends hsame)
    · exact Or.inr hcov

theorem Extends.recomputed (h : Extends marks s s₁) (htrace : s₁.ctx.trace = s.ctx.trace) :
    Recomputed v marks s s₁ where
  toExtends := h
  covered _ := Or.inl htrace

instance : IsPreorder (InterState tg P) (Recomputed v marks) where
  refl s := (Extends.refl s).recomputed rfl
  trans _ _ _ := Recomputed.trans

/-! ### The steps -/

theorem extends_calls {cs : List AliasCall} (h : ∀ c ∈ cs, P.TagOf c) (s : InterState tg P) :
    Extends marks s (s.calls cs) where
  trace := ⟨cs, rfl, h⟩
  queued _ hy := hy
  analyzed := subset_rfl
  marked _ hy := Or.inl hy
  success h := h

variable (Ctx) in
theorem extends_analyzeFunction (s : InterState tg P) (F : Value) :
    Extends marks s (s.analyzeFunction Ctx F) where
  trace := s.ctx.traceExtends_analyzeFunction Ctx F
  queued _ hy := hy
  analyzed := subset_rfl
  marked _ hy := Or.inl hy
  success h := by rwa [← s.ctx.success_analyzeFunction Ctx F]

theorem extends_fail (s : InterState tg P) (reason : Option AliasFailureReasons) :
    Extends marks s (s.fail reason) where
  trace := .of_eq rfl
  queued _ hy := hy
  analyzed := subset_rfl
  marked _ hy := Or.inl hy
  success h := by cases h

theorem extends_push (s : InterState tg P) (vs : List Value) : Extends marks s (s.push vs) where
  trace := .of_eq rfl
  queued _ hy := List.mem_append_left _ hy
  analyzed := subset_rfl
  marked _ hy := Or.inl hy
  success h := h

theorem extends_mark {vs : Finset Value} (h : ∀ y ∈ vs, marks y) (s : InterState tg P) :
    Extends marks s (s.mark vs) where
  trace := .of_eq rfl
  queued _ hy := hy
  analyzed := Finset.subset_union_left
  marked y hy := by
    rcases Finset.mem_union.1 hy with hy | hy
    · exact Or.inl hy
    · exact Or.inr (h y hy)
  success h := h

theorem extends_update (s : InterState tg P) (reason : Option AliasFailureReasons) (v : Value) :
    Extends marks s (s.update reason v) := by
  have hpush : Extends marks s (s.pushTargets v) := extends_push s _
  unfold update
  dsimp only
  split
  · exact hpush.trans (extends_fail _ reason)
  · exact hpush

theorem covered_pushTargets (s : InterState tg P) (v : Value) : (s.pushTargets v).Covered v := by
  intro y hy
  have hy' : y ∈ s.ctx.graph.getClusterValues v ∅ := hy
  by_cases hcov : y ∈ s.Analyzed_Set ∨ y ∈ s.LV
  · rcases hcov with hA | hL
    · exact Or.inl hA
    · exact Or.inr (List.mem_append_left _ hL)
  · refine Or.inr (List.mem_append_right _ (List.mem_filter.2 ⟨mem_inOrder.2 hy', ?_⟩))
    simpa using hcov

/-- Whatever comes before it, `update` leaves the cluster covered. -/
theorem Extends.update (h : Extends marks s s₁) (reason : Option AliasFailureReasons) (v : Value) :
    Recomputed v marks s (s₁.update reason v) where
  toExtends := h.trans (extends_update s₁ reason v)
  covered hsucc := by
    unfold InterState.update at hsucc ⊢
    dsimp only at hsucc ⊢
    split at hsucc
    case isTrue => cases hsucc
    case isFalse hshort =>
      rw [if_neg hshort]
      exact Or.inr (covered_pushTargets s₁ v)

theorem recomputed_fail (s : InterState tg P) (reason : Option AliasFailureReasons) :
    Recomputed v marks s (s.fail reason) := (extends_fail s reason).recomputed rfl

theorem recomputed_extendCallee (reason : Option AliasFailureReasons) {cai f : Value}
    (hf : ∀ y ∈ P.args f, marks y) (s : InterState tg P) :
    Recomputed v marks s (extendCallee Ctx reason v cai f s).1 := by
  have hreturn : Extends marks s (s.calls (P.HandleReturn f cai)) :=
    extends_calls (fun c hc => Or.inl (Program.tag_HandleReturn hc)) s
  have hbody := hreturn.trans (extends_analyzeFunction Ctx _ f)
  have hmarks : ∀ y ∈ (P.args f).toFinset, marks y := by simpa using hf
  have hformals := hbody.trans (extends_mark hmarks _)
  have hmoves : ∀ c ∈ P.argMoves cai f, P.TagOf c := fun c hc => Or.inl (Program.tag_argMoves hc)
  exact (hformals.trans (extends_calls hmoves _)).update reason v

variable (Ctx v) in
theorem recomputed_extendCall (reason : Option AliasFailureReasons) {cai : Value}
    (hcai : ∀ f ∈ Ctx.Callees cai, ∀ y ∈ P.args f, marks y) (s : InterState tg P) :
    Recomputed v marks s (s.extendCall Ctx reason v cai) :=
  forBreak_rel (fun f hf s => recomputed_extendCallee reason (hcai f hf) s) s

end

end InterState

/-! ## The handler and its copy of `Analyzed_Set` -/

section
open InterState

variable (P Ctx) in
/-- The values that `interCaseHandler` may put into its copy of `Analyzed_Set` when
    it is called for `v`. -/
inductive PassedOver (v : Value) : Value → Prop
  | formal {cai f y : Value} : P.UsedThrough (followUse P v) v cai →
      P.kind cai = .instruction .call → f ∈ Ctx.Callees cai → y ∈ P.args f → PassedOver v y
  | call {cai : Value} : P.UsedThrough (followUse P v) v cai →
      P.kind cai = .instruction .call → PassedOver v cai
  | formalOfResult {f y : Value} : P.kind v = .instruction .call → f ∈ Ctx.Callees v →
      y ∈ P.args f → PassedOver v y
  | copy {y : Value} : P.kind v = .globalVariable → y ∈ Ctx.Global_Unique_GV_Map (P.getGUID v) →
      P.kind y = .globalVariable → PassedOver v y

variable {v : Value} (s : InterState tg P)

theorem recomputed_handleUse {U : Value} (hU : P.UsedThrough (followUse P v) v U) :
    Recomputed v (PassedOver P Ctx v) s (final (handleUse Ctx v U s)) := by
  unfold handleUse
  split
  · exact recomputed_fail s _
  · split
    · exact refl_of _ s
    case isFalse huse =>
      rw [not_or, not_or, not_not] at huse
      split
      · exact recomputed_fail s _
      · have hcall := recomputed_extendCall Ctx v (some .exceed_max)
          (fun f hf y hy => PassedOver.formal hU huse.2.2 hf hy) s
        have hmark : Extends (PassedOver P Ctx v) (s.extendCall Ctx (some .exceed_max) v U)
            ((s.extendCall Ctx (some .exceed_max) v U).mark {U}) := by
          refine extends_mark (fun y hy => ?_) _
          rw [Finset.mem_singleton.1 hy]
          exact .call hU huse.2.2
        exact hcall.trans (hmark.recomputed rfl)

variable (Ctx) in
theorem extends_handleGlobalUse {marks : Value → Prop} (v U : Value) :
    Extends marks s (handleGlobalUse Ctx v U s).1 := by
  unfold handleGlobalUse
  split
  · exact (extends_analyzeFunction Ctx s _).trans (extends_update _ _ _)
  · exact extends_push s _
  · exact .refl s

theorem extends_analyzeGlobalInitializer {marks : Value → Prop} (GV : Value) :
    Extends marks s (analyzeGlobalInitializer GV s) := by
  unfold analyzeGlobalInitializer
  split
  · exact (extends_calls (fun c hc => Or.inl (Program.tag_initializerCalls hc)) s).trans
      (extends_push _ _)
  · exact .refl s

theorem recomputed_handleGlobal {GV Global_GV : Value} (hGV : P.kind GV = .globalVariable)
    (hmem : Global_GV ∈ Ctx.Global_Unique_GV_Map (P.getGUID GV)) :
    Recomputed GV (PassedOver P Ctx GV) s (handleGlobal Ctx GV Global_GV s).1 := by
  unfold handleGlobal
  split
  · exact refl_of _ s
  case isFalse hkind =>
    rw [not_not] at hkind
    have hmove : Extends (PassedOver P Ctx GV) s
        (s.calls (if Global_GV ≠ GV then [.move Global_GV GV] else [])) := by
      refine extends_calls (fun c hc => ?_) s
      split at hc
      · rw [List.mem_singleton.1 hc]
        exact Or.inl rfl
      · cases hc
    have hini := hmove.trans (extends_analyzeGlobalInitializer _ Global_GV)
    have huses : ∀ s₁ : InterState tg P, Extends (PassedOver P Ctx GV) s₁
        (forBreak (handleGlobalUse Ctx GV) (P.throughUsers (followGlobalUse P) Global_GV) s₁) :=
      forBreak_rel fun U _ s => extends_handleGlobalUse Ctx s GV U
    have hupd := (hini.trans (huses _)).update (some .exceed_max) GV
    dsimp only
    generalize InterState.update _ _ GV = s₂ at hupd ⊢
    split
    · exact hupd
    · refine hupd.trans ((extends_mark (fun y hy => ?_) _).recomputed rfl)
      rw [Finset.mem_singleton.1 hy]
      exact .copy hGV hmem hkind

theorem recomputed_handleCaller {marks : Value → Prop} (caller cai : Value) :
    Recomputed v marks s (handleCaller Ctx v caller cai s).1 :=
  ((extends_calls (fun _ hc => Or.inl (Program.tag_argMoves hc)) s).trans
    (extends_analyzeFunction Ctx _ _)).update _ _

theorem recomputed_handleReturnTo {marks : Value → Prop} (cai : Value) :
    Recomputed v marks s (handleReturnTo Ctx v cai s).1 := by
  have hmove : ∀ c ∈ (P.getReturnValue v).toList.map fun return_v => AliasCall.move return_v cai,
      P.TagOf c := by
    intro c hc
    obtain ⟨return_v, -, rfl⟩ := List.mem_map.1 hc
    exact Or.inl rfl
  exact ((extends_calls hmove s).trans (extends_analyzeFunction Ctx _ _)).update _ _

theorem recomputed_kindCase : Recomputed v (PassedOver P Ctx v) s (kindCase Ctx v s) := by
  unfold kindCase
  split
  case h_1 hkind =>
    unfold globalCase
    split
    · exact refl_of _ s
    · split
      · exact recomputed_fail s _
      · split
        · exact recomputed_fail s _
        · exact forBreak_rel (fun G hG s => recomputed_handleGlobal s hkind (mem_inOrder.1 hG)) s
  case h_2 hkind =>
    unfold callCase
    split
    · exact recomputed_fail s _
    · split
      · exact refl_of _ s
      · split
        · exact recomputed_fail s _
        · exact recomputed_extendCall Ctx v _ (fun f hf y hy => .formalOfResult hkind hf hy) s
  case h_3 =>
    exact forBreak_rel (fun cai _ s => recomputed_handleCaller s _ cai) s
  case h_4 =>
    exact forBreak_rel (fun cai _ s => recomputed_handleReturnTo s cai) s
  case h_5 => exact refl_of _ s

variable (Ctx) in
/-- **The interprocedural step.** -/
theorem recomputed_interCaseHandler (v : Value) :
    Recomputed v (PassedOver P Ctx v) s (interCaseHandler Ctx v s) := by
  unfold interCaseHandler
  split
  · exact refl_of _ s
  · split
    · exact recomputed_fail s _
    · have huses : Recomputed v (PassedOver P Ctx v) s (final (forReturn (handleUse Ctx v)
          (P.throughUsers (followUse P v) v) s)) :=
        forReturn_rel (fun U hU s => recomputed_handleUse s (Program.mem_throughUsers.1 hU)) s
      split
      case h_1 s₁ heq =>
        rw [heq] at huses
        exact huses
      case h_2 s₁ heq =>
        rw [heq] at huses
        exact huses.trans (recomputed_kindCase s₁)

end

end TFA
