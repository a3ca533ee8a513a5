/-
  The alias analysis of an indirect call (`ICallAliasAnalysis.cc`).

  `HandleICall` starts with the cluster of the called operand and hands every
  value that it has not handed over yet to `interCaseHandler`, which queues the
  values that enter the cluster.

  * `analysisLoop` runs `loopStep` until nothing is queued;
  * `cluster_analyzed`: if the last round that extends the graph passes over no
    value of the cluster that is not queued, the whole cluster has been analysed
    in the end.  It may pass over the formals of a callee, which then stay
    unexpanded (`formal_unexpanded`).
-/
import TFA.Alias.Flow
import TFA.Alias.InterCase

namespace TFA

open Loop AliasCall

variable {tg : TBAAGraph} {P : Program} {Ctx : GlobalContext}

/-! ## The loop -/

/-- The state of the loop over `AnalysisList`. -/
structure LoopState (tg : TBAAGraph) (P : Program) where
  ctx : AliasContext tg P
  AnalysisList : List Value := []
  AnalyzedList : Finset Value := ∅
  /-- the loop has been left by a `break` -/
  stopped : Bool := false

variable (Ctx) in
/-- One round of the loop; `reason` is recorded when the analysis is too complex. -/
def loopStep (reason : Option AliasFailureReasons) (s : LoopState tg P) :
    Option (LoopState tg P) :=
  match s.stopped, s.AnalysisList with
  | false, CV :: rest =>
    if CV ∈ s.AnalyzedList then some { s with AnalysisList := rest }
    else
      let s := { s with AnalysisList := rest, AnalyzedList := insert CV s.AnalyzedList }
      if s.ctx.Is_Analyze_Success = false then some { s with stopped := true }
      else if MAX_ANALYSIS_NUM < rest.length then
        some { s with ctx := s.ctx.fail reason, stopped := true }
      else
        let r := interCaseHandler Ctx CV ⟨s.ctx, rest, s.AnalyzedList⟩
        some { s with ctx := r.ctx, AnalysisList := r.LV }
  | _, _ => none

variable (Ctx) in
/-- The state that the loop ends in. -/
def analysisLoop (reason : Option AliasFailureReasons) (fuel : ℕ) (s : LoopState tg P) :
    Option (LoopState tg P) := runs (loopStep Ctx reason) fuel s

variable (tg P Ctx) in
/-- The state before the loop. -/
def HandleICallStart (icall : Value) : LoopState tg P :=
  let ctx : AliasContext tg P := AliasContext.HandleInsts {} Ctx (P.getFunction icall)
  { ctx := ctx
    AnalysisList := match P.getCalledOperand icall with
      | some icall_V => inOrder (ctx.graph.getClusterValues icall_V ∅)
      | none => [] }

variable (tg P Ctx) in
/-- `HandleICall`, up to the end of its loop. -/
def HandleICall (fuel : ℕ) (icall : Value) : Option (LoopState tg P) :=
  analysisLoop Ctx (some .exceed_max) fuel (HandleICallStart tg P Ctx icall)

variable (Ctx) in
/-- The functions that `HandleICall` reports. -/
def LoopState.fset (s : LoopState tg P) (icall_V : Value) : Finset (Option Value) :=
  if s.ctx.Is_Analyze_Success = false then ∅
  else ((s.ctx.graph.getClusterValues icall_V ∅).filter (P.kind · = .function)).biUnion
    (getGlobalFuncs P Ctx)

/-! ## Rounds -/

namespace LoopState

variable {s s' : LoopState tg P} {reason : Option AliasFailureReasons} {y : Value}

/-- `y` has been analysed or is queued. -/
def Pending (s : LoopState tg P) (y : Value) : Prop := y ∈ s.AnalyzedList ∨ y ∈ s.AnalysisList

/-- `s'` comes after `s`. -/
structure Later (s s' : LoopState tg P) : Prop where
  trace : s.ctx.TraceExtends s'.ctx
  pending : ∀ y, s.Pending y → s'.Pending y
  analyzed : s.AnalyzedList ⊆ s'.AnalyzedList
  success : s'.ctx.Is_Analyze_Success = true → s.ctx.Is_Analyze_Success = true
  stopped : (s.stopped = true → s.ctx.Is_Analyze_Success = false) →
    s'.stopped = true → s'.ctx.Is_Analyze_Success = false

instance : IsPreorder (LoopState tg P) Later where
  refl _ := ⟨.of_eq rfl, fun _ h => h, subset_rfl, id, id⟩
  trans _ _ _ h h' := ⟨h.trace.trans h'.trace, fun y hy => h'.pending y (h.pending y hy),
    h.analyzed.trans h'.analyzed, fun hs => h.success (h'.success hs),
    fun hs => h'.stopped (h.stopped hs)⟩

/-- What a round does: it skips a value, leaves the loop, or hands a value to
    `interCaseHandler`. -/
theorem loopStep_cases (h : loopStep Ctx reason s = some s') :
    ∃ CV rest, s.stopped = false ∧ s.AnalysisList = CV :: rest ∧
      ((CV ∈ s.AnalyzedList ∧ s' = { s with AnalysisList := rest }) ∨
       (s'.stopped = true ∧ s'.ctx.Is_Analyze_Success = false ∧ s'.ctx.trace = s.ctx.trace ∧
         s'.AnalysisList = rest ∧ s'.AnalyzedList = insert CV s.AnalyzedList) ∨
       (s'.stopped = false ∧ s'.AnalyzedList = insert CV s.AnalyzedList ∧
         s'.ctx = (interCaseHandler Ctx CV ⟨s.ctx, rest, insert CV s.AnalyzedList⟩).ctx ∧
         s'.AnalysisList =
           (interCaseHandler Ctx CV ⟨s.ctx, rest, insert CV s.AnalyzedList⟩).LV)) := by
  unfold loopStep at h
  split at h
  case h_1 CV rest hrun hlist =>
    refine ⟨CV, rest, hrun, hlist, ?_⟩
    split at h
    case isTrue hseen =>
      cases h
      exact Or.inl ⟨hseen, rfl⟩
    case isFalse =>
      dsimp only at h
      split at h
      case isTrue hfail =>
        cases h
        exact Or.inr (Or.inl ⟨rfl, hfail, rfl, rfl, rfl⟩)
      case isFalse =>
        split at h
        · cases h
          exact Or.inr (Or.inl ⟨rfl, rfl, rfl, rfl, rfl⟩)
        · cases h
          exact Or.inr (Or.inr ⟨hrun, rfl, rfl, rfl⟩)
  case h_2 => cases h

/-- **One round.** -/
theorem later_loopStep (h : loopStep Ctx reason s = some s') : Later s s' := by
  obtain ⟨CV, rest, hrun, hlist, hcases⟩ := loopStep_cases h
  -- the value that is taken counts as analysed
  have hpending : s'.AnalyzedList = insert CV s.AnalyzedList →
      (∀ y ∈ rest, y ∈ s'.AnalysisList) → ∀ y, s.Pending y → s'.Pending y := by
    intro hA hl y hy
    unfold Pending
    rw [hA, Finset.mem_insert]
    rcases hy with hy | hy
    · exact Or.inl (Or.inr hy)
    · rw [hlist] at hy
      rcases List.mem_cons.1 hy with rfl | hy
      · exact Or.inl (Or.inl rfl)
      · exact Or.inr (hl y hy)
  rcases hcases with ⟨hseen, rfl⟩ | ⟨hstop, hfail, htrace, hl, hA⟩ | ⟨hstop, hA, hctx, hl⟩
  · refine ⟨.of_eq rfl, fun y hy => ?_, subset_rfl, id, id⟩
    rcases hy with hy | hy
    · exact Or.inl hy
    · rw [hlist] at hy
      rcases List.mem_cons.1 hy with rfl | hy
      · exact Or.inl hseen
      · exact Or.inr hy
  · refine ⟨.of_eq htrace, hpending hA fun y hy => by rwa [hl],
      by rw [hA]; exact Finset.subset_insert _ _, ?_, fun _ _ => hfail⟩
    rw [hfail]
    intro hs
    cases hs
  · have hext := (recomputed_interCaseHandler Ctx
      ⟨s.ctx, rest, insert CV s.AnalyzedList⟩ CV).toExtends
    refine ⟨by rw [hctx]; exact hext.trace,
      hpending hA fun y hy => by rw [hl]; exact hext.queued y hy,
      by rw [hA]; exact Finset.subset_insert _ _, by rw [hctx]; exact hext.success, ?_⟩
    rw [hstop]
    intro _ hs
    cases hs

/-- A successful round that extends the graph leaves the cluster of the value that
    it has taken covered, except for the values that it passes over. -/
theorem covered_loopStep (h : loopStep Ctx reason s = some s')
    (hsucc : s'.ctx.Is_Analyze_Success = true) (htrace : s'.ctx.trace ≠ s.ctx.trace) :
    ∃ CV, s.AnalysisList.head? = some CV ∧ ∀ y ∈ s'.ctx.graph.getClusterValues CV ∅,
      s'.Pending y ∨ PassedOver P Ctx CV y := by
  obtain ⟨CV, rest, hrun, hlist, ⟨hseen, rfl⟩ | ⟨hstop, hfail, hsame, hl, hA⟩ |
    ⟨hstop, hA, hctx, hl⟩⟩ := loopStep_cases h
  · exact absurd rfl htrace
  · exact absurd hsame htrace
  · have hrec := recomputed_interCaseHandler Ctx
      ⟨s.ctx, rest, insert CV s.AnalyzedList⟩ CV
    rw [hctx] at hsucc htrace
    have hcov := (hrec.covered hsucc).resolve_left htrace
    refine ⟨CV, by rw [hlist]; rfl, fun y hy => ?_⟩
    rw [hctx] at hy
    unfold Pending
    rw [hA, hl]
    rcases hcov y hy with hy | hy
    · rcases hrec.marked y hy with hy | hy
      · exact Or.inl (Or.inl hy)
      · exact Or.inr hy
    · exact Or.inl (Or.inr hy)

/-- After a successful run nothing is queued. -/
theorem AnalysisList_nil (h : loopStep Ctx reason s = none)
    (hstop : s.stopped = true → s.ctx.Is_Analyze_Success = false)
    (hsucc : s.ctx.Is_Analyze_Success = true) : s.AnalysisList = [] := by
  have hrun : s.stopped = false := by
    cases hs : s.stopped with
    | false => rfl
    | true => rw [hstop hs] at hsucc; cases hsucc
  cases hlist : s.AnalysisList with
  | nil => rfl
  | cons CV rest =>
    unfold loopStep at h
    rw [hrun, hlist] at h
    dsimp only at h
    split at h
    · cases h
    · split at h
      · cases h
      · split at h <;> cases h

/-! ## The worklist is complete -/

variable (Ctx) in
/-- In the run from `s₀` to `s`, the last round that extends the graph takes `CV`
    and ends in `s₂`. -/
def LastExtension (reason : Option AliasFailureReasons) (s₀ s : LoopState tg P) (CV : Value)
    (s₂ : LoopState tg P) : Prop :=
  ∃ s₁, Reaches (loopStep Ctx reason) s₀ s₁ ∧ loopStep Ctx reason s₁ = some s₂ ∧
    Reaches (loopStep Ctx reason) s₂ s ∧ s₁.AnalysisList.head? = some CV ∧
    s₂.ctx.trace ≠ s₁.ctx.trace ∧ s.ctx.trace = s₂.ctx.trace

/-- **The worklist.**  In a successful run, the cluster of `V` is analysed or queued
    if it is at the start, and if the last round that extends the graph takes a
    value related to `V` and passes over none that is related to `V` and neither
    analysed nor queued after it. -/
theorem pending_cluster {s₀ : LoopState tg P} {V : Value}
    (hreach : Reaches (loopStep Ctx reason) s₀ s)
    (hstart : ∀ v ∈ s₀.ctx.graph.getClusterValues V ∅, s₀.Pending v)
    (hsucc : s.ctx.Is_Analyze_Success = true) (hsafe : TagSafeRun tg P.kind s.ctx.trace {})
    (hlast : ∀ CV s₂, LastExtension Ctx reason s₀ s CV s₂ →
      Relation.EqvGen (Accepted tg P.kind s.ctx.trace {}) V CV ∧
      ∀ y, PassedOver P Ctx CV y → Relation.EqvGen (Accepted tg P.kind s.ctx.trace {}) V y →
        s₂.Pending y) :
    ∀ v ∈ s.ctx.graph.getClusterValues V ∅, s.Pending v := by
  intro v hv
  have hlater : ∀ {a b : LoopState tg P}, Reaches (loopStep Ctx reason) a b → Later a b :=
    fun h => reaches_rel (fun _ _ hstep => later_loopStep hstep) h
  rcases reaches_last_change (fun s => s.ctx.trace) hreach with
    hsame | ⟨s₁, s₂, h₁, h₁₂, h₂, hne, heq⟩
  · rw [AliasContext.graph_congr hsame] at hv
    exact (hlater hreach).pending v (hstart v hv)
  · obtain ⟨CV, hCV, hcov⟩ := covered_loopStep h₁₂ ((hlater h₂).success hsucc) hne
    obtain ⟨hVCV, hpassed⟩ := hlast CV s₂ ⟨s₁, h₁, h₁₂, h₂, hCV, hne, heq⟩
    -- the clusters of `V` and `CV` are one
    have hrep := tagSafeRun_accepted hsafe
    rw [← s.ctx.graph_eq] at hrep
    have hVnode : (s.ctx.graph.getNode V).isSome := by
      rw [AliasGraph.getClusterValues] at hv
      cases hnode : s.ctx.graph.getNode V with
      | some n => rfl
      | none => rw [hnode] at hv; cases hv
    have hVv := (hrep.mem_cluster_iff hVnode).1 hv
    have hCVnode : (s.ctx.graph.getNode CV).isSome := by
      have hmem := (hrep.mem_cluster_iff hVnode).2 hVCV
      obtain ⟨n, hn⟩ := Option.isSome_iff_exists.1 hVnode
      obtain ⟨m, -, hm⟩ := (AliasGraph.mem_getClusterValues hrep.wf.mirrored hn).1 hmem
      exact Option.isSome_iff_exists.2 ⟨m, (hrep.wf.consistent CV m).2 hm⟩
    have hvCV := (hrep.mem_cluster_iff hCVnode).2 (.trans _ _ _ (.symm _ _ hVCV) hVv)
    rw [AliasContext.graph_congr heq] at hvCV
    rcases hcov v hvCV with hpending | hover
    · exact (hlater h₂).pending v hpending
    · exact (hlater h₂).pending v (hpassed v hover hVv)

end LoopState

open LoopState

/-- **Completeness.**  If the last round that extends the graph takes a value
    related to the called operand, and passes over none that is related to it and
    neither analysed nor queued after it, then a successful `HandleICall` has
    analysed the whole cluster of the called operand. -/
theorem cluster_analyzed {fuel : ℕ} {icall icall_V : Value} {s : LoopState tg P}
    (hV : P.getCalledOperand icall = some icall_V)
    (hrun : HandleICall tg P Ctx fuel icall = some s) (hsucc : s.ctx.Is_Analyze_Success = true)
    (hsafe : TagSafeRun tg P.kind s.ctx.trace {})
    (hlast : ∀ CV s₂,
      LastExtension Ctx (some .exceed_max) (HandleICallStart tg P Ctx icall) s CV s₂ →
      Relation.EqvGen (Accepted tg P.kind s.ctx.trace {}) icall_V CV ∧
      ∀ y, PassedOver P Ctx CV y →
        Relation.EqvGen (Accepted tg P.kind s.ctx.trace {}) icall_V y → s₂.Pending y) :
    ∀ v ∈ s.ctx.graph.getClusterValues icall_V ∅, v ∈ s.AnalyzedList := by
  obtain ⟨hreach, hend⟩ := runs_spec hrun
  have hstart : ∀ v ∈ (HandleICallStart tg P Ctx icall).ctx.graph.getClusterValues icall_V ∅,
      (HandleICallStart tg P Ctx icall).Pending v := by
    intro v hv
    refine Or.inr ?_
    unfold HandleICallStart
    rw [hV]
    exact mem_inOrder.2 hv
  have hlater : Later (HandleICallStart tg P Ctx icall) s :=
    reaches_rel (fun _ _ hstep => later_loopStep hstep) hreach
  have hstop := hlater.stopped (fun h => by cases h)
  intro v hv
  rcases pending_cluster hreach hstart hsucc hsafe hlast v hv with hA | hL
  · exact hA
  · rw [AnalysisList_nil hend hstop hsucc] at hL
    cases hL

/-! ## A completed analysis -/

/-- `h(fp) { fp(); }` and `main() { h(g); }`: the function `0` with the formal `1`
    and the call `2`, the functions `3` and `4`, and the call `5` in `4`. -/
def passedIn : Program :=
  { Program.ofTable [(.function, []), (.argument, []), (.instruction .call, [1]), (.function, []),
      (.function, []), (.instruction .call, [3, 0])] (by decide) with
    args := fun F => if F = 0 then [1] else []
    insts := fun F => if F = 0 then [2] else if F = 4 then [5] else []
    getFunction := fun v => if v = 5 then 4 else 0
    isDeclaration := fun _ => false }

/-- The call graph of `passedIn`. -/
def passedInCtx : GlobalContext where
  Callees CAI := if CAI = 5 then [0] else []
  Callers F := if F = 0 then [5] else []

theorem HandleICall_passedIn : ∀ s, HandleICall .empty passedIn passedInCtx 4 2 = some s →
    s.ctx.Is_Analyze_Success = true ∧
    s.ctx.trace = [.alloc 2, .alloc 1, .move 3 1, .alloc 5, .alloc 3, .alloc 0] ∧
    2 ∉ s.ctx.graph.getClusterValues 1 ∅ ∧ (s.ctx.graph.getNode 1).isSome := by decide

theorem passedOver_passedIn {y : Value} (h : PassedOver passedIn passedInCtx 1 y) : y = 2 := by
  have huser : ∀ U, passedIn.UsedThrough (followUse passedIn 1) 1 U → U = 2 := by
    intro U hU
    have hmem := Program.mem_throughUsers.2 hU
    have horder : passedIn.throughUsers (followUse passedIn 1) 1 = [2] := by decide
    rw [horder] at hmem
    exact List.mem_singleton.1 hmem
  cases h with
  | formal hU _ hf _ =>
    rw [huser _ hU] at hf
    cases hf
  | call hU _ => exact huser _ hU
  | formalOfResult hkind _ _ => cases hkind
  | copy hkind _ _ => cases hkind

/-- The analysis of the call `2` of `passedIn` extends the graph in the round of the
    formal `1`, which passes over the call only. -/
theorem cluster_analyzed_passedIn : ∃ s, HandleICall .empty passedIn passedInCtx 4 2 = some s ∧
    ∀ v ∈ s.ctx.graph.getClusterValues 1 ∅, v ∈ s.AnalyzedList := by
  have hends : (HandleICall .empty passedIn passedInCtx 4 2).isSome = true := by decide
  obtain ⟨s, hs⟩ := Option.isSome_iff_exists.1 hends
  obtain ⟨hsucc, htrace, hout, hnode⟩ := HandleICall_passedIn s hs
  have hsafe : TagSafeRun .empty passedIn.kind s.ctx.trace {} := by
    rw [htrace]
    exact ⟨trivial, trivial, trivial, trivial, trivial, trivial, trivial⟩
  have hrep := tagSafeRun_accepted hsafe
  rw [← s.ctx.graph_eq] at hrep
  have hrounds : ∀ s₁ ∈ states (loopStep passedInCtx (some .exceed_max)) 4
      (HandleICallStart .empty passedIn passedInCtx 2), ∀ s₂,
      loopStep passedInCtx (some .exceed_max) s₁ = some s₂ → s₂.ctx.trace ≠ s₁.ctx.trace →
      s₁.AnalysisList.head? = some 1 := by decide
  refine ⟨s, hs, cluster_analyzed (by decide) hs hsucc hsafe ?_⟩
  rintro CV s₂ ⟨s₁, h₁, h₁₂, -, hCV, hne, -⟩
  have hone := hrounds s₁ (mem_states_of_reaches hs h₁) s₂ h₁₂ hne
  rw [hCV] at hone
  cases hone
  refine ⟨.refl _, fun y hy hrel => ?_⟩
  rw [passedOver_passedIn hy] at hrel
  exact absurd ((hrep.mem_cluster_iff hnode).2 hrel) hout

/-! ## A formal that is never expanded -/

/-- `h(fp) { fp(); g(fp); }` and `g(y) { }`: the function `0` with the formal `1`
    and the calls `2` and `5`, the function `3` with the formal `4`. -/
def passesOn : Program :=
  { Program.ofTable [(.function, []), (.argument, []), (.instruction .call, [1]), (.function, []),
      (.argument, []), (.instruction .call, [1, 3]), (.instruction .ret, [])] (by decide) with
    args := fun F => if F = 0 then [1] else if F = 3 then [4] else []
    insts := fun F => if F = 0 then [2, 5] else if F = 3 then [6] else []
    getFunction := fun v => if v = 4 ∨ v = 6 then 3 else 0
    isDeclaration := fun _ => false }

/-- The call graph of `passesOn`. -/
def passesOnCtx : GlobalContext where
  Callees CAI := if CAI = 5 then [3] else []
  Callers F := if F = 3 then [5] else []

/-- The analysis of the call `2` never expands the formal `4`. -/
theorem formal_unexpanded :
    ¬ ∀ (tg : TBAAGraph) (P : Program) (Ctx : GlobalContext) (fuel : ℕ) (icall icall_V : Value)
      (s : LoopState tg P), P.getCalledOperand icall = some icall_V →
      HandleICall tg P Ctx fuel icall = some s → s.ctx.Is_Analyze_Success = true →
      ∀ v ∈ s.ctx.graph.getClusterValues icall_V ∅, v ∈ s.AnalyzedList := by
  intro h
  have hrun : ∀ s, HandleICall .empty passesOn passesOnCtx 3 2 = some s →
      s.ctx.Is_Analyze_Success = true ∧ 4 ∈ s.ctx.graph.getClusterValues 1 ∅ ∧
        4 ∉ s.AnalyzedList := by decide
  have hends : (HandleICall .empty passesOn passesOnCtx 3 2).isSome = true := by decide
  obtain ⟨s, hs⟩ := Option.isSome_iff_exists.1 hends
  obtain ⟨hsucc, hin, hout⟩ := hrun s hs
  exact hout (h .empty passesOn passesOnCtx 3 2 1 s (by decide) hs hsucc 4 hin)

end TFA
