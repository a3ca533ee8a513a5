/-
  Does the co-analysis only take targets away?

  The two alias analyses do.  The walk from a one-layer call and the second type analysis
  of an escaped call set the targets anew, whatever is left of the old ones.

  * `SetsOnly`: calls are set anew only while something holds of all functions for their type;
    `of_newTarget`: then it holds of the new targets;
  * `Refines`: only calls are set anew that nothing has been taken away from;
  * `ICallees_mainLoop`: then no phase and no later round adds a target;
  * `target_brought_back`: a function that `FuncAliasAnalysis` has erased is brought back
    by `escapeHandler`.
-/
import TFA.CoAnalysis.Phases
import TFA.CallGraph.Buckets

namespace TFA

open Actions LayerMaps

namespace CallProgram

/-- The calls whose targets only shrink. -/
def Shrinks (s s' : CoState) : Prop := ∀ CI, s'.ICallees CI ⊆ s.ICallees CI

instance : IsPreorder CoState Shrinks where
  refl _ _ := subset_rfl
  trans _ _ _ h h' CI := (h' CI).trans (h CI)

/-! ## Calls that are set anew -/

section
variable (P : CallProgram)

/-- The function is recorded for the type of the call, or for one that it may be cast to if
    there is none for the type itself. -/
def RecordedFor (m : LayerMaps) (CI : Value) (f : Func) : Prop :=
  f ∈ m.sigFuncsMap (P.callHash CI) ∨ f ∈ m.Global_EmptyTy_Funcs (P.callHash CI) ∨
    P.Resolved m CI ∧ P.Accepts (fun _ S => (P.order S).head?) m CI f

/-- The called operand leads back to no functions but those for the type of the call. -/
def LeadsToType (g : CallGraph) (CI : Value) : Prop :=
  ∀ V F, P.Met g CI V → P.sourceOf .oneLayer g V = .base F →
    ∀ f ∈ P.definitions F, P.RecordedFor g.layers CI f

/-- A layer of the call has escaped, and another one is blank. -/
def EscapedAndBlank (m : LayerMaps) (CI : Value) : Prop :=
  (P.operandInfo m CI).layer_result = true ∧
    (∃ CT ∈ (P.operandInfo m CI).TyList,
      (P.afterOneLayer m CI).Escapes P.T P.getName P.order (P.callHash CI) CT) ∧
    ∃ CT ∈ (P.operandInfo m CI).TyList, (P.afterOneLayer m CI).Blank P.T P.getName P.order
      (P.callHash CI) (P.getOneLayerResult m CI) CT

/-- The action sets the targets of a call anew only while something holds of all functions
    for the type of the call. -/
def SetsOnly {tg : TBAAGraph} (s : CoState) (holds : Value → Func → Prop) : Action tg P → Prop
  | .oneLayer CI => P.Sets s (.oneLayer CI : Action tg P) CI →
      P.LeadsToType s.toCallGraph CI ∧ ∀ f, P.RecordedFor s.layers CI f → holds CI f
  | .rerun CI => P.Sets s (.rerun CI : Action tg P) CI →
      P.EscapedAndBlank s.layers CI ∨ ∀ f, P.RecordedFor s.layers CI f → holds CI f
  | _ => True

/-- Calls that are set anew still have all functions for their type. -/
def Refines {tg : TBAAGraph} (s : CoState) (a : Action tg P) : Prop :=
  P.SetsOnly s (fun CI f => f ∈ s.ICallees CI) a

end

section
variable {tg : TBAAGraph} {P : CallProgram} {s s' : CoState} {a : Action tg P} {p p' : Phase}
  {m : LayerMaps} {CI : Value} {CT : CompositeType} {f : Func} {holds : Value → Func → Prop}

theorem recordedFor_of_oneLayer (h : f ∈ P.getOneLayerResult m CI) : P.RecordedFor m CI f := by
  rw [← oneLayerBy_order] at h
  by_cases hres : P.Resolved m CI
  · rw [oneLayerBy_of_resolved hres, mem_matched] at h
    exact Or.inr (Or.inr ⟨hres, h⟩)
  · rw [oneLayerBy_of_not_resolved hres] at h
    exact Or.inl h

theorem emptyTy_afterOneLayer :
    (P.afterOneLayer m CI).Global_EmptyTy_Funcs = m.Global_EmptyTy_Funcs := by
  unfold afterOneLayer resolveVariableParameters
  split_ifs <;> rfl

/-- The targets of a field are among the functions for the type of the call. -/
theorem recordedFor_of_field {n : ℕ}
    (h : f ∈ ((P.afterOneLayer m CI).findCalleesWithTwoLayerTA P.T P.getName P.order (P.callHash CI)
      (P.getOneLayerResult m CI) CT.1 CT.2 n).FS) : P.RecordedFor m CI f := by
  obtain ⟨r, hr⟩ := exists_merge_set P.T (P.afterOneLayer m CI) P.getName P.order (P.callHash CI)
    CT.1 CT.2
  rw [(hr _ _).2] at h
  cases r with
  | error k => exact absurd h (Finset.notMem_empty f)
  | ok merge_set =>
    rw [emptyTy_afterOneLayer, Finset.mem_union] at h
    rcases h with hpre | hempty
    · exact recordedFor_of_oneLayer (Finset.filter_subset _ _ hpre)
    · exact Or.inr (Or.inl hempty)

theorem recordedFor_of_typeTarget (h : P.TypeTarget m CI f) : P.RecordedFor m CI f := by
  obtain ⟨-, h⟩ := h
  split_ifs at h
  · exact recordedFor_of_oneLayer h.2
  · obtain ⟨CT, -, hf⟩ := h
    exact recordedFor_of_field hf
  · exact recordedFor_of_oneLayer h

/-- If a layer has escaped and one is blank, there are no targets. -/
theorem not_typeTarget (h : P.EscapedAndBlank m CI) : ¬ P.TypeTarget m CI f := by
  rintro ⟨-, htarget⟩
  obtain ⟨hlayers, hescaped, CT, hCT, hblank⟩ := h
  rw [if_pos hlayers, if_pos hescaped] at htarget
  exact htarget.1 CT hCT hblank

theorem recordedFor_of_gives {V : Value} (hleads : P.LeadsToType s.toCallGraph CI)
    (hV : P.Met s.toCallGraph CI V) (h : P.Gives s.toCallGraph CI V f) :
    P.RecordedFor s.layers CI f := by
  unfold Gives at h
  split at h
  case h_1 =>
    obtain ⟨CT, -, hf⟩ := h
    exact recordedFor_of_field hf
  case h_2 F hbase => exact hleads V F hV hbase f h
  case h_3 => exact h.elim

/-- **The new targets.**  What holds of all functions for the types of the calls that are set
    anew holds of the targets that are set. -/
theorem of_newTarget (h : P.SetsOnly s holds a) (hsets : P.Sets s a CI)
    (hf : P.NewTarget s a CI f) : holds CI f := by
  cases a with
  | oneLayer CI' =>
    obtain rfl : CI = CI' := hsets.1
    obtain ⟨hleads, hall⟩ := h hsets
    obtain ⟨V, hV, hgives⟩ := hf
    exact hall f (recordedFor_of_gives hleads hV hgives)
  | rerun CI' =>
    obtain rfl : CI = CI' := hsets.1
    rcases h hsets with hblank | hall
    · exact absurd hf (not_typeTarget hblank)
    · exact hall f (recordedFor_of_typeTarget hf)
  | _ => exact hsets.elim

theorem Quiet.setsOnly (h : Quiet tg P s a) : P.SetsOnly s holds a := by
  cases a with
  | oneLayer CI => exact fun hsets => absurd hsets (h.2 CI)
  | rerun CI => exact fun hsets => absurd hsets (h.2 CI)
  | _ => trivial

/-! ## All phases -/

/-- **One action.** -/
theorem shrinks_perform (h : P.Refines s a) : Shrinks s (perform tg P s a) := by
  intro CI
  by_cases hsets : P.Sets s a CI
  · obtain ⟨FS, -, hFS, hmem⟩ := targets_perform hsets
    rw [hFS]
    intro f hf
    exact of_newTarget h hsets ((hmem f).1 hf)
  · exact (targets_perform_of_not_sets hsets).2

/-- **All phases.**  If calls are set anew only as long as they have all functions for their
    type, the targets at the end of a phase are among those at the end of any earlier one. -/
theorem ICallees_mainLoop
    (h : MainLoop (fun s a => Allowed tg P s a ∧ P.Refines s a) (p, s) (p', s')) (CI : Value) :
    s'.ICallees CI ⊆ s.ICallees CI := by
  have hrel : Shrinks (p, s).2 (p', s').2 :=
    phases_rel (fun s a ha => shrinks_perform ha.2) h
  exact hrel CI

end

/-! ## A target that is brought back -/

/-- Pointers, the struct `A`, integers and two types of functions. -/
def typesOfCalls : TypeTable where
  print t := match t with
    | 0 => "ptr" | 1 => "%struct.A" | 2 => "i32" | 3 => "void()" | _ => "void(ptr)"
  isStructTy t := t = 1
  isArrayTy _ := false
  isLiteral _ := false
  getStructName t := if t = 1 then "struct.A" else ""
  isPointerTy t := t = 0
  same_print t t' h := by
    rcases t with _ | _ | _ | _ | t <;> rcases t' with _ | _ | _ | _ | t' <;> simp_all

/-- `run(q) { q->hook = asm(); q->hook(); }`, which also stores `f` to its stack: the
    functions `0` and `1`, the argument `2`, the store `7` of the result of the inline
    assembly `6`, the call `9` of the value that is loaded again. -/
def asmHook : CallProgram where
  toProgram :=
    { Program.ofTable
        [(.function, []), (.function, []), (.argument, []), (.constantData, []),
          (.instruction .getElementPtr, [2, 3, 3]), (.other, []), (.instruction .call, [5]),
          (.instruction .store, [6, 4]), (.instruction .load, [13]), (.instruction .call, [8]),
          (.instruction .alloca, [3]), (.instruction .store, [0, 10]), (.instruction .ret, []),
          (.instruction .getElementPtr, [2, 3, 3])]
        (by decide) with
      getName := fun v => if v = 0 then "f" else if v = 1 then "run" else ""
      getFunction := fun v => if v = 12 then 0 else 1
      args := fun F => if F = 1 then [2] else []
      insts := fun F => if F = 0 then [12] else if F = 1 then [4, 6, 7, 13, 8, 9, 10, 11] else []
      isDeclaration := fun _ => false
      isInlineAsm := fun v => v = 6
      hasAddressTaken := fun F => F = 0
      getSExtValue := fun v => if v = 3 then some 0 else none }
  T := typesOfCalls
  Ctx :=
    { GlobalFuncs := fun name => if name = "f" then {0} else ∅
      Global_Unique_Func_Map := fun hash => if hash = 0 then some 0 else none
      Global_AddressTaken_Func_Set := {0} }
  getType v := if v = 3 then 2 else 0
  getSourceElementType _ := 1
  getFunctionType v := if v = 1 then 4 else 3

abbrev asmModules : List LLVMModule := [{ globals := [], functions := [0, 1] }]

/-- The state before the main loop. -/
def asmStart : CoState := asmHook.coStart {} asmModules

/-- `FuncAliasAnalysis` does not find `f` at the call and erases it. -/
def asmErased : CoState := asmHook.funcAlias [0] (asmHook.verdictOf .empty asmStart 10) asmStart

/-- `ICallAliasAnalysis` fails at the inline assembly. -/
def asmFailed : CoState :=
  { asmErased with
    Global_Alias_Results_Map := Function.update asmErased.Global_Alias_Results_Map 9 false }

/-- `escapeHandler` cannot resolve the field, and analyses the call again. -/
def asmAgain : CoState :=
  asmHook.rerun 9
    { asmFailed with toCallGraph := asmHook.unescape asmFailed.toCallGraph (.idx (.name "A") 0) }

theorem asmErased_phase :
    QuietStep .empty asmHook (.FuncAliasAnalysis, asmStart) (.ICallAliasAnalysis, asmErased) :=
  phase_funcAlias (by decide) (by decide)

theorem asmFailed_phase :
    QuietStep .empty asmHook (.ICallAliasAnalysis, asmErased) (.oneLayerHandler, asmFailed) := by
  have hends : (HandleICall .empty asmHook.toProgram (asmHook.coContext asmErased) 10 9).isSome =
      true := by decide
  exact phase_icallAlias_fails (by decide) hends (by decide)

theorem asmAgain_phases : MainLoop (Allowed .empty asmHook) (.oneLayerHandler, asmFailed)
    (.FuncAliasAnalysis, asmAgain) := by
  -- the call is not one-layer
  have hskip : QuietStep .empty asmHook (.oneLayerHandler, asmFailed)
      (.escapeHandler, asmFailed) := phase_oneLayer_skips 9 (by decide) (by decide)
  refine (mainLoop_of_quiet (.single hskip)).tail ?_
  refine .phase (l := [.unescape (.idx (.name "A") 0), .rerun 9])
    ⟨[.idx (.name "A") 0], [9], ?_, ?_, rfl⟩ (.cons trivial (.cons trivial .nil))
  · decide
  · decide

/-- `escapeHandler` brings back what `FuncAliasAnalysis` has erased. -/
theorem target_brought_back :
    ¬ ∀ (tg : TBAAGraph) (P : CallProgram) (Ms : List LLVMModule) (p p' : Phase)
      (s s' : CoState),
      MainLoop (Allowed tg P) (.FuncAliasAnalysis, P.coStart {} Ms) (p, s) →
      MainLoop (Allowed tg P) (p, s) (p', s') → ∀ CI, s'.ICallees CI ⊆ s.ICallees CI := by
  intro h
  have hshrinks := h .empty asmHook asmModules .ICallAliasAnalysis .FuncAliasAnalysis asmErased
    asmAgain (mainLoop_of_quiet (.single asmErased_phase))
    ((mainLoop_of_quiet (.single asmFailed_phase)).trans asmAgain_phases) 9
  have herased : asmErased.ICallees 9 = ∅ := by decide
  have hagain : asmAgain.ICallees 9 = {0} := by decide
  rw [herased, hagain] at hshrinks
  exact absurd hshrinks (by decide)

/-- The field stays escaped; nothing has been erased yet. -/
abbrev asmEscaped : CoState :=
  { asmStart with toCallGraph := asmHook.unescape asmStart.toCallGraph (.idx (.name "A") 0) }

theorem refines_asmEscaped : asmHook.Refines asmEscaped (.rerun 9 : Action .empty asmHook) := by
  refine fun _ => Or.inr fun f hf => ?_
  have hsig : asmEscaped.layers.sigFuncsMap (asmHook.callHash 9) = {0} := by decide
  have hempty : asmEscaped.layers.Global_EmptyTy_Funcs (asmHook.callHash 9) = {0} := by decide
  have hkept : asmEscaped.ICallees 9 = {0} := by decide
  show f ∈ asmEscaped.ICallees 9
  rw [hkept]
  rcases hf with hf | hf | ⟨⟨hvariadic, -⟩, -⟩
  · rwa [hsig] at hf
  · rwa [hempty] at hf
  · exact absurd hvariadic (by decide)

/-- As long as nothing has been erased, `escapeHandler` sets what has been there. -/
theorem ICallees_asmHook : (asmHook.rerun 9 asmEscaped).ICallees 9 ⊆ asmStart.ICallees 9 := by
  have hphase : MainLoop (fun s a => Allowed .empty asmHook s a ∧ asmHook.Refines s a)
      (.escapeHandler, asmStart) (.FuncAliasAnalysis, asmHook.rerun 9 asmEscaped) := by
    refine .single (.phase (l := [.unescape (.idx (.name "A") 0), .rerun 9])
      ⟨[.idx (.name "A") 0], [9], ?_, ?_, rfl⟩
      (.cons ⟨trivial, trivial⟩ (.cons ⟨trivial, refines_asmEscaped⟩ .nil)))
    · decide
    · decide
  exact ICallees_mainLoop hphase 9

end CallProgram

end TFA
