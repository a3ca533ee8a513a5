/-
  What the alias analyses prune.

  When `FuncAliasAnalysis` or `ICallAliasAnalysis` takes a target away from a call, nothing
  connects the target with the called operand, or the analysis has overlooked it for a reason
  that can be seen in its result (`Overlooks`).

  * `overlooks_funcAlias`, `overlooks_icallAlias`: one action;
  * `pruned_main`: every target that is lost in a run of the main loop;
  * `pruned_main_runTime`: the same against executions (`Forgets`): a target that a call has in
    some execution along the call graph is lost only if something is missed.
-/
import TFA.Alias.RunTime
import TFA.CoAnalysis.Targets

namespace TFA

open Actions AliasCall LoopState FuncAlias

namespace CallProgram

section
variable {tg : TBAAGraph} (P : CallProgram)

/-- If a function that stands for `f` is connected with the called operand `V`, the action misses
    something: `HandleFunc` or `HandleICall` has passed over a value, or the gate has refused
    a call; or the function carries a tag that does not go with that of the operand. -/
def Overlooks (s : CoState) : Action tg P → Value → Value → Func → Prop
  | .funcAlias TargetVec verdict, _, V, f => ∀ F, P.kind F = .function →
    some f ∈ getGlobalFuncs P.toProgram (P.coContext s) F → V ≠ F →
    Analysed P.toProgram (P.coContext s) verdict TargetVec F →
    (verdict F).Is_Analyze_Success = true →
    P.Connected (P.coContext s) (P.AtUse (P.coContext s) F) (P.FirstAtUse F) F V →
    ∃ fuel r, HandleFunc tg P.toProgram (P.coContext s) fuel F = some r ∧
      (CompleteRun tg P.kind r.ctx.trace {} →
        Missed (P.coContext s) (P.AtUse (P.coContext s) F) (P.FirstAtUse F)
          (HandleFuncStart tg P.toProgram (P.coContext s) F) r)
  | .icallAlias _ r, CI, V, f => ∀ F, P.kind F = .function →
    some f ∈ getGlobalFuncs P.toProgram (P.coContext s) F →
    P.Connected (P.coContext s) (· ∈ P.bodyCalls (P.coContext s) (P.getFunction CI)) (· = V) V F →
    CompleteRun tg P.kind r.ctx.trace {} →
    Missed (P.coContext s) (· ∈ P.bodyCalls (P.coContext s) (P.getFunction CI)) (· = V)
        (HandleICallStart tg P.toProgram (P.coContext s) CI) r ∨
      tbaaCompatibleForICall tg r.ctx.graph (r.ctx.graph.getNode V) (r.ctx.graph.getNode f) =
        false
  | _, _, _, _ => True

/-- If a function that stands for `f` is a target of the call in some execution along the call
    graph, the action misses something in the same way, or its pool leads to a global variable
    from a safe macro. -/
def Forgets (s : CoState) : Action tg P → Value → Value → Func → Prop
  | .funcAlias TargetVec verdict, CI, V, f => ∀ F, P.kind F = .function →
    some f ∈ getGlobalFuncs P.toProgram (P.coContext s) F → V ≠ F →
    Analysed P.toProgram (P.coContext s) verdict TargetVec F →
    (verdict F).Is_Analyze_Success = true → P.UsedPlainly (P.coContext s) F →
    P.RunTimeTarget (P.coContext s) CI V F →
    ∃ fuel r, HandleFunc tg P.toProgram (P.coContext s) fuel F = some r ∧
      (CompleteRun tg P.kind r.ctx.trace {} →
        Missed (P.coContext s) (P.AtUse (P.coContext s) F) (P.FirstAtUse F)
            (HandleFuncStart tg P.toProgram (P.coContext s) F) r ∨
          P.StopsAtMacro (P.coContext s) (P.AtUse (P.coContext s) F) (P.FirstAtUse F))
  | .icallAlias _ r, CI, V, f => ∀ F,
    some f ∈ getGlobalFuncs P.toProgram (P.coContext s) F →
    P.RunTimeTarget (P.coContext s) CI V F → CompleteRun tg P.kind r.ctx.trace {} →
    Missed (P.coContext s) (· ∈ P.bodyCalls (P.coContext s) (P.getFunction CI)) (· = V)
        (HandleICallStart tg P.toProgram (P.coContext s) CI) r ∨
      P.StopsAtMacro (P.coContext s) (· ∈ P.bodyCalls (P.coContext s) (P.getFunction CI)) (· = V) ∨
      tbaaCompatibleForICall tg r.ctx.graph (r.ctx.graph.getNode V) (r.ctx.graph.getNode f) =
        false
  | _, _, _, _ => True

end

section
variable {tg : TBAAGraph} {P : CallProgram} {s : CoState} {a : Action tg P} {CI cai V : Value}
  {f : Func} {x y : Phase × CoState} {TargetVec : List Value} {verdict : Value → Verdict}
  {r : LoopState tg P.toProgram}

/-- When `FuncAliasAnalysis` takes a target away, `HandleFunc` has not reported the call for the
    functions that stand for it. -/
theorem not_mem_callset_of_lost {F : Value}
    (hallowed : Allowed tg P s (.funcAlias TargetVec verdict))
    (hlost : P.LostBy s (.funcAlias TargetVec verdict : Action tg P) CI f)
    (hf : some f ∈ getGlobalFuncs P.toProgram (P.coContext s) F)
    (hanalysed : Analysed P.toProgram (P.coContext s) verdict TargetVec F)
    (hsucc : (verdict F).Is_Analyze_Success = true) :
    ∃ fuel r, HandleFunc tg P.toProgram (P.coContext s) fuel F = some r ∧
      r.ctx.Is_Analyze_Success = true ∧ CI ∉ r.callset F := by
  obtain ⟨fuel, r, hrun, hverdict⟩ := hallowed F hanalysed
  have hno : CI ∉ (verdict F).callset :=
    fun hcall => hlost.2.2.2 ⟨F, hanalysed, hsucc, hcall, hf⟩
  rw [hverdict] at hsucc hno
  exact ⟨fuel, r, hrun, hsucc, hno⟩

/-- A function that `FuncAliasAnalysis` does not find at the call. -/
theorem overlooks_funcAlias (hCI : P.CallsThrough CI V)
    (hallowed : Allowed tg P s (.funcAlias TargetVec verdict))
    (hlost : P.LostBy s (.funcAlias TargetVec verdict : Action tg P) CI f) :
    P.Overlooks s (.funcAlias TargetVec verdict : Action tg P) CI V f := by
  intro F _ hf hne hanalysed hsucc hconnected
  obtain ⟨fuel, r, hrun, hrsucc, hno⟩ :=
    not_mem_callset_of_lost hallowed hlost hf hanalysed hsucc
  exact ⟨fuel, r, hrun, fun hcomplete => (complete_HandleFunc hrun hrsucc hcomplete hconnected hne
    hCI.kind hCI.operand).resolve_left hno⟩

/-- A function that `ICallAliasAnalysis` does not find in the cluster of the operand. -/
theorem overlooks_icallAlias (hCI : P.CallsThrough CI V)
    (hallowed : Allowed tg P s (.icallAlias cai r))
    (hlost : P.LostBy s (.icallAlias cai r : Action tg P) CI f) :
    P.Overlooks s (.icallAlias cai r : Action tg P) CI V f := by
  intro F hF hf hconnected hcomplete
  obtain ⟨rfl, hrun, hsucc, hno⟩ := hlost
  obtain ⟨fuel, hrun⟩ := hallowed hrun
  rcases complete_HandleICall hCI hrun hsucc hcomplete hconnected hF with hfset | hmissed
  · exact Or.inr (hno V hCI.operand (hfset hf))
  · exact Or.inl hmissed

/-- A target that is lost is taken away by an action of the run. -/
theorem exists_lostBy (h : MainLoop (Allowed tg P) x y) (hx : f ∈ x.2.ICallees CI)
    (hy : f ∉ y.2.ICallees CI) :
    ∃ s a, Comes (perform tg P) (Allowed tg P) Phase.next (PhaseActions tg P) x s a y ∧
      f ∈ s.ICallees CI ∧ P.LostBy s a CI f := by
  obtain ⟨s, a, hcomes, hs, hno⟩ :=
    phases_change (I := fun s : CoState => f ∈ s.ICallees CI) h hx hy
  exact ⟨s, a, hcomes, hs, (not_mem_perform_iff hs).1 hno⟩

/-- **Losses.**  A target of a call that is lost in a run of the main loop is taken away by an
    action of the run, for its reason; and if this is one of the alias analyses, whatever
    connects the target with the called operand has been overlooked. -/
theorem pruned_main (h : MainLoop (Allowed tg P) x y) (hCI : P.CallsThrough CI V)
    (hx : f ∈ x.2.ICallees CI) (hy : f ∉ y.2.ICallees CI) :
    ∃ s a, Comes (perform tg P) (Allowed tg P) Phase.next (PhaseActions tg P) x s a y ∧
      f ∈ s.ICallees CI ∧ P.LostBy s a CI f ∧ P.Overlooks s a CI V f := by
  obtain ⟨s, a, hcomes, hs, hlost⟩ := exists_lostBy h hx hy
  have hallowed : Allowed tg P s a := hcomes.allowed
  refine ⟨s, a, hcomes, hs, hlost, ?_⟩
  cases a with
  | funcAlias TargetVec verdict => exact overlooks_funcAlias hCI hallowed hlost
  | icallAlias cai r => exact overlooks_icallAlias hCI hallowed hlost
  | oneLayer CI' => trivial
  | unescape hash => trivial
  | rerun CI' => trivial

/-! ## Executions -/

/-- The co-analysis does not change what is assumed of modules. -/
theorem regular_coContext (hP : P.Regular P.Ctx) (s : CoState) : P.Regular (P.coContext s) where
  insts := hP.insts
  args := hP.args
  operands := hP.operands
  initializer := hP.initializer
  aggregates := hP.aggregates
  names := hP.names
  globals := hP.globals

/-- **Losses at run time.**  A target of a call that is lost in a run of the main loop is taken
    away by an action of the run, for its reason; and if this is one of the alias analyses,
    the call has the target in no execution along the call graph, or something is missed. -/
theorem pruned_main_runTime (hP : P.Regular P.Ctx) (h : MainLoop (Allowed tg P) x y)
    (hCI : P.CallsThrough CI V) (hx : f ∈ x.2.ICallees CI) (hy : f ∉ y.2.ICallees CI) :
    ∃ s a, Comes (perform tg P) (Allowed tg P) Phase.next (PhaseActions tg P) x s a y ∧
      f ∈ s.ICallees CI ∧ P.LostBy s a CI f ∧ P.Forgets s a CI V f := by
  obtain ⟨s, a, hcomes, hs, hlost⟩ := exists_lostBy h hx hy
  have hallowed : Allowed tg P s a := hcomes.allowed
  refine ⟨s, a, hcomes, hs, hlost, ?_⟩
  have hP' := regular_coContext hP s
  cases a with
  | funcAlias TargetVec verdict =>
    intro F hF hf hne hanalysed hsucc hplain htarget
    obtain ⟨fuel, r, hrun, hrsucc, hno⟩ :=
      not_mem_callset_of_lost hallowed hlost hf hanalysed hsucc
    exact ⟨fuel, r, hrun, fun hcomplete => (runTime_HandleFunc hP' hF hplain hrun hrsucc
      hcomplete hCI hne htarget).resolve_left hno⟩
  | icallAlias cai r =>
    intro F hf htarget hcomplete
    obtain ⟨rfl, hrun, hsucc, hno⟩ := hlost
    obtain ⟨fuel, hrun⟩ := hallowed hrun
    rcases runTime_HandleICall hP' hCI hrun hsucc hcomplete htarget with hfset | hmissed | hmacros
    · exact Or.inr (Or.inr (hno V hCI.operand (hfset hf)))
    · exact Or.inl hmissed
    · exact Or.inr (Or.inl hmacros)
  | oneLayer CI' => trivial
  | unescape hash => trivial
  | rerun CI' => trivial

end

/-! ## A target that is lost -/

/-- `f` is lost at the call of `asmHook` in the first phase. -/
theorem pruned_main_asmHook : ∃ s a, Comes (perform .empty asmHook) (Allowed .empty asmHook)
    Phase.next (PhaseActions .empty asmHook) (.FuncAliasAnalysis, asmStart) s a
    (.ICallAliasAnalysis, asmErased) ∧
    0 ∈ s.ICallees 9 ∧ asmHook.LostBy s a 9 0 ∧ asmHook.Overlooks s a 9 8 0 := by
  have hlost : 0 ∈ asmStart.ICallees 9 ∧ 0 ∉ asmErased.ICallees 9 := by decide
  exact pruned_main (mainLoop_of_quiet (.single asmErased_phase)) (by decide) hlost.1 hlost.2

theorem regular_asmHook : asmHook.Regular asmHook.Ctx := by
  refine regular_of_values (fun _ => kind_ofTable (by decide)) (by decide) (fun F I hI => ?_)
    (fun F y hy => ?_) (fun CAI F hF => ?_) fun _ => rfl
  · change I ∈ (if F = 0 then [12] else if F = 1 then [4, 6, 7, 13, 8, 9, 10, 11] else []) at hI
    split_ifs at hI with h0 h1
    · rw [List.mem_singleton.1 hI, h0]
      rfl
    · have hall : ∀ I ∈ [4, 6, 7, 13, 8, 9, 10, 11], asmHook.getFunction I = 1 := by decide
      rw [hall I hI, h1]
    · cases hI
  · change y ∈ (if F = 1 then [2] else []) at hy
    split_ifs at hy with h1
    · rw [List.mem_singleton.1 hy, h1]
      decide
    · cases hy
  · obtain ⟨hash, hF⟩ := exists_hash_of_symbolTargets hF
    change (if hash = 0 then some 0 else none) = some F at hF
    split_ifs at hF
    rw [← Option.some.inj hF]
    rfl

/-- The function that is stored to the stack is no target of the call at run time. -/
theorem pruned_main_runTime_asmHook : ∃ s a, Comes (perform .empty asmHook) (Allowed .empty asmHook)
    Phase.next (PhaseActions .empty asmHook) (.FuncAliasAnalysis, asmStart) s a
    (.ICallAliasAnalysis, asmErased) ∧
    0 ∈ s.ICallees 9 ∧ asmHook.LostBy s a 9 0 ∧ asmHook.Forgets s a 9 8 0 := by
  have hlost : 0 ∈ asmStart.ICallees 9 ∧ 0 ∉ asmErased.ICallees 9 := by decide
  exact pruned_main_runTime regular_asmHook (mainLoop_of_quiet (.single asmErased_phase))
    (by decide) hlost.1 hlost.2

end CallProgram

end TFA
