/-
  Do the callers cover the converse of the callees?

  `doModulePass` fills both maps together (`callersCover_callGraph`).  The walk from a
  one-layer call and the second type analysis of an escaped call set the callees alone.

  * `KeepsCallers`: only calls are set anew that are callers of all functions for their type;
  * `callersCover_mainLoop`: then the callers cover the converse after every phase;
  * `callers_missed`: a function that is cast before it is passed on becomes a callee of
    a call that is not among its callers.
-/
import TFA.CoAnalysis.Refinement

namespace TFA

open Actions LayerMaps

namespace CallProgram

/-- Calls that are set anew are callers of all functions for their type. -/
def KeepsCallers {tg : TBAAGraph} (P : CallProgram) (s : CoState) (a : Action tg P) : Prop :=
  P.SetsOnly s (fun CI f => CI ∈ s.Callers f) a

section
variable {tg : TBAAGraph} {P : CallProgram} {s : CoState} {a : Action tg P} {p : Phase}
  {m : LayerMaps} {Ms : List LLVMModule}

/-- **One action.** -/
theorem callersCover_perform (h : CallersCover s.toCallGraph) (hkeeps : P.KeepsCallers s a) :
    CallersCover (perform tg P s a).toCallGraph := by
  unfold CallersCover
  rw [callers_perform]
  intro CI f hf
  by_cases hsets : P.Sets s a CI
  · obtain ⟨FS, hFS, -, hmem⟩ := targets_perform hsets
    rw [hFS, hmem] at hf
    exact of_newTarget hkeeps hsets hf
  · rw [(targets_perform_of_not_sets hsets).1] at hf
    exact h CI f hf

/-- **All phases.**  If calls are set anew only when they are callers of all functions for
    their type, the callers cover the converse of the callees at the start of the main loop
    and after every phase. -/
theorem callersCover_mainLoop
    (h : MainLoop (fun s a => Allowed tg P s a ∧ P.KeepsCallers s a)
      (.FuncAliasAnalysis, P.coStart m Ms) (p, s)) :
    CallersCover s.toCallGraph :=
  phases_induction (I := fun s : CoState => CallersCover s.toCallGraph)
    (fun _ _ ha hs => callersCover_perform hs ha.2) h (callersCover_callGraph m Ms)

end

/-! ## A function that is cast -/

/-- `main() { h((void (*)()) g); }` and `h(fp) { asm(fp); fp(); }`: the function `0`, which
    is stored to the stack and has the type of the call, the function `1`, which has not,
    the function `2` with the argument `3`, the inline assembly `5` and the call `6`, the
    function `7` with the call `9`. -/
def castArgument : CallProgram where
  toProgram :=
    { Program.ofTable
        [(.function, []), (.function, []), (.function, []), (.argument, []), (.other, []),
          (.instruction .call, [3, 4]), (.instruction .call, [3]), (.function, []),
          (.constantExpr .bitCast, [1]), (.instruction .call, [8, 2]), (.instruction .ret, []),
          (.instruction .alloca, [13]), (.instruction .store, [0, 11]), (.constantData, [])]
        (by decide) with
      getName := fun v => if v = 0 then "k" else if v = 1 then "g" else if v = 2 then "h" else
        if v = 7 then "main" else ""
      getFunction := fun v => if v = 9 ∨ v = 11 ∨ v = 12 then 7 else 2
      args := fun F => if F = 2 then [3] else []
      insts := fun F => if F = 2 then [5, 6] else if F = 7 then [11, 12, 9] else
        if F = 0 ∨ F = 1 then [10] else []
      isDeclaration := fun _ => false
      isInlineAsm := fun v => v = 5
      hasAddressTaken := fun F => F ≤ 1 }
  T := typesOfCalls
  Ctx :=
    { GlobalFuncs := fun name => if name = "k" then {0} else if name = "g" then {1} else ∅
      Global_Unique_Func_Map := fun hash => if hash ≤ 1 then some hash else none
      Global_AddressTaken_Func_Set := {0, 1} }
  getType _ := 0
  getFunctionType v := if v = 1 ∨ v = 2 ∨ v = 5 ∨ v = 9 then 4 else 3
  stripPointerCasts v := if v = 8 then 1 else v
  stripPointerCasts_eq := by
    intro V hV
    refine if_neg ?_
    rintro rfl
    exact absurd hV (by decide)

abbrev castModules : List LLVMModule := [{ globals := [], functions := [0, 1, 2, 7] }]

/-- The state before the main loop. -/
def castStart : CoState := castArgument.coStart {} castModules

/-- `FuncAliasAnalysis` erases `k`. -/
def castErased : CoState :=
  castArgument.funcAlias [0, 1] (castArgument.verdictOf .empty castStart 10) castStart

/-- `ICallAliasAnalysis` fails at the inline assembly. -/
def castFailed : CoState :=
  { castErased with
    Global_Alias_Results_Map := Function.update castErased.Global_Alias_Results_Map 6 false }

/-- The first two phases set no callees. -/
theorem castFailed_phases : Relation.ReflTransGen (QuietStep .empty castArgument)
    (.FuncAliasAnalysis, castStart) (.oneLayerHandler, castFailed) := by
  have hends : (HandleICall .empty castArgument.toProgram
      (castArgument.coContext castErased) 10 6).isSome = true := by decide
  refine .head (b := (.ICallAliasAnalysis, castErased)) ?_ (.single ?_)
  · exact phase_funcAlias (by decide) (by decide)
  · exact phase_icallAlias_fails (by decide) hends (by decide)

/-- The walk from the call finds `g`, which does not get the call as a caller. -/
theorem callers_missed :
    ¬ ∀ (tg : TBAAGraph) (P : CallProgram) (m : LayerMaps) (Ms : List LLVMModule) (p : Phase)
      (s : CoState), MainLoop (Allowed tg P) (.FuncAliasAnalysis, P.coStart m Ms) (p, s) →
      ∀ CI, ∀ F ∈ s.Callees CI, CI ∈ s.Callers F := by
  intro h
  have hphases := mainLoop_of_quiet castFailed_phases
  have hwalk : PhaseStep (perform .empty castArgument) (Allowed .empty castArgument) Phase.next
      (PhaseActions .empty castArgument) (.oneLayerHandler, castFailed)
      (.escapeHandler, castArgument.oneLayer 6 castFailed) := by
    refine .phase (l := [.oneLayer 6]) ⟨[6], ?_, rfl⟩ (.cons trivial .nil)
    decide
  have hcallee : 1 ∈ (castArgument.oneLayer 6 castFailed).Callees 6 := by decide
  have hcaller := h .empty castArgument {} castModules .escapeHandler
    (castArgument.oneLayer 6 castFailed) (hphases.tail hwalk) 6 1 hcallee
  exact absurd hcaller (by decide)

/-- `asmHook` when the call is about to be analysed again. -/
abbrev asmUnescaped : CoState :=
  { asmFailed with toCallGraph := asmHook.unescape asmFailed.toCallGraph (.idx (.name "A") 0) }

theorem keepsCallers_asmUnescaped :
    asmHook.KeepsCallers asmUnescaped (.rerun 9 : Action .empty asmHook) := by
  refine fun _ => Or.inr fun f hf => ?_
  have hsig : asmUnescaped.layers.sigFuncsMap (asmHook.callHash 9) = {0} := by decide
  have hempty : asmUnescaped.layers.Global_EmptyTy_Funcs (asmHook.callHash 9) = {0} := by decide
  have hcaller : 9 ∈ asmUnescaped.Callers 0 := by decide
  have hf0 : f = 0 := by
    rcases hf with hf | hf | ⟨⟨hvariadic, -⟩, -⟩
    · rwa [hsig, Finset.mem_singleton] at hf
    · rwa [hempty, Finset.mem_singleton] at hf
    · exact absurd hvariadic (by decide)
  rw [hf0]
  exact hcaller

/-- The call of `asmHook` is set anew to a function of its type. -/
theorem callersCover_asmHook : CallersCover asmAgain.toCallGraph := by
  have hskip : QuietStep .empty asmHook (.oneLayerHandler, asmFailed)
      (.escapeHandler, asmFailed) := phase_oneLayer_skips 9 (by decide) (by decide)
  have hquiet : Relation.ReflTransGen (QuietStep .empty asmHook) (.FuncAliasAnalysis, asmStart)
      (.escapeHandler, asmFailed) := ((Relation.ReflTransGen.single asmErased_phase).tail
    asmFailed_phase).tail hskip
  refine callersCover_mainLoop ((phases_mono (fun _ _ ha => ⟨ha.1, Quiet.setsOnly ha⟩)
    hquiet).tail (.phase (l := [.unescape (.idx (.name "A") 0), .rerun 9])
      ⟨[.idx (.name "A") 0], [9], ?_, ?_, rfl⟩
      (.cons ⟨trivial, trivial⟩ (.cons ⟨trivial, keepsCallers_asmUnescaped⟩ .nil))))
  · decide
  · decide

end CallProgram

end TFA
