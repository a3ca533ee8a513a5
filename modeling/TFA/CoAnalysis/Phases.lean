/-
  The co-analysis (the main loop of `Analyzer.cc`, `ICallAliasAnalysis` of
  `ICallAliasAnalysis.cc`, `oneLayerHandler` of `ICallDFAnalysis.cc`, `oneLayerChecker` of
  `OneLayerHandler.cc` and `escapeHandler` of `EscapeHandler.cc`).

  Every round of the loop has four phases: the alias analysis of the address-taken
  functions, that of the indirect calls, the walk from the called operands of one-layer
  calls, and the handler of escaped fields.  A phase is a list of actions here, one for
  a function list, a call or a field, in any order of the keys of the maps.

  * `perform` is what an action does; `Allowed` says that the two alias analyses find
    what `HandleFunc` and `HandleICall` do;
  * `NewTarget`: the targets that an action sets for a call, in terms of the state before;
  * `targets_perform`, `targets_perform_of_not_sets`: an action sets these for a call, or
    takes targets away from it.
-/
import TFA.CallGraph.Escape
import TFA.CallGraph.Duplicates
import TFA.Alias.Pruning
import TFA.Lib.Actions

namespace TFA

open Worklist Actions LayerMaps

/-- What is known during the co-analysis. -/
structure CoState extends CallGraph where
  /-- the calls that the alias analysis has succeeded on -/
  Global_Alias_Results_Map : Value → Bool := fun _ => false
  Global_symbol_get_funcSet : Finset String := ∅

namespace CallProgram

section
variable (P : CallProgram)

/-- The context of the alias analyses. -/
def coContext (s : CoState) : GlobalContext :=
  { P.context s.toCallGraph with Global_symbol_get_funcSet := s.Global_symbol_get_funcSet }

/-! ## The alias analyses -/

/-- `FuncAliasAnalysis`, with the verdicts of `HandleFunc`. -/
def funcAlias (TargetVec : List Value) (verdict : Value → Verdict) (s : CoState) : CoState :=
  let Ctx := FuncAliasAnalysis P.toProgram verdict TargetVec (P.coContext s)
  { s with
    ICallees := Ctx.ICallees
    Global_symbol_get_funcSet := Ctx.Global_symbol_get_funcSet }

/-- The calls that `ICallAliasAnalysis` skips. -/
def skipped (s : CoState) (cai : Value) : Bool :=
  s.Global_MLTA_Reualt_Map cai ∈
    [some TypeAnalyzeResult.NoTwoLayerInfo, some .MissingBaseType, some .VTable]

/-- The targets that are left after a successful `HandleICall`. -/
def resultSet {tg : TBAAGraph} (r : LoopState tg P.toProgram) (Ctx : GlobalContext) (cai : Value)
    (fset : Finset Func) : Finset Func :=
  match P.getCalledOperand cai with
  | some icallV => fset.filter fun f1 => some f1 ∈ r.fset Ctx icallV ∧
      tbaaCompatibleForICall tg r.ctx.graph (r.ctx.graph.getNode icallV) (r.ctx.graph.getNode f1)
  | none => ∅

/-- One call of `ICallAliasAnalysis`; `r` is the result of `HandleICall`. -/
def icallAlias {tg : TBAAGraph} (cai : Value) (r : LoopState tg P.toProgram) (s : CoState) :
    CoState :=
  if skipped s cai ∨ r.ctx.Is_Analyze_Success = false then
    { s with Global_Alias_Results_Map := Function.update s.Global_Alias_Results_Map cai false }
  else
    { s with
      ICallees := Function.update s.ICallees cai
        (P.resultSet r (P.coContext s) cai (s.ICallees cai))
      Global_Alias_Results_Map := Function.update s.Global_Alias_Results_Map cai true }

/-! ## One-layer calls -/

/-- The variables of the walk of `oneLayerChecker`. -/
structure OneLayerState where
  FS : Finset Func := ∅
  TAResultSet : Finset TypeAnalyzeResult := ∅
  /-- what is added to `escapedTypesInTypeAnalysisSet` -/
  escaped : Finset Key := ∅

/-- What a field says about the call. -/
def fieldResult (g : CallGraph) (CI : Value) (CT : CompositeType) : TwoLayerResult :=
  (P.afterOneLayer g.layers CI).findCalleesWithTwoLayerTA P.T P.getName P.order (P.callHash CI)
    (P.getOneLayerResult g.layers CI) CT.1 CT.2 1

/-- A field that the walk meets. -/
def meetField (g : CallGraph) (CI : Value) (st : OneLayerState) (CT : CompositeType) :
    OneLayerState :=
  let FST := P.fieldResult g CI CT
  let st := { st with escaped := st.escaped ∪ FST.escape.toFinset }
  if FST.FS ≠ ∅ then
    { st with FS := st.FS ∪ FST.FS, TAResultSet := insert .TwoLayer st.TAResultSet }
  else if FST.escape = none then
    { st with TAResultSet := insert .NoTwoLayerInfo st.TAResultSet }
  else { st with TAResultSet := insert .TypeEscape st.TAResultSet }

/-- A value that the walk goes through. -/
def meetSource (g : CallGraph) (CI : Value) (st : OneLayerState) (TV : Value) : OneLayerState :=
  match P.sourceOf .oneLayer g TV with
  | .layers TyList => TyList.foldl (P.meetField g CI) st
  | .base F =>
    { st with FS := st.FS ∪ P.definitions F, TAResultSet := insert .OneLayer st.TAResultSet }
  | _ => st

/-- The walk of `oneLayerChecker` from the called operand. -/
def oneLayerWalk (g : CallGraph) (CI : Value) (CV : Value) : OneLayerState :=
  (P.checkedSources .oneLayer g CV).foldl (P.meetSource g CI) {}

/-- The entry of `Global_MLTA_Reualt_Map` after a walk that does not give up. -/
def resolveOneLayer (TAResultSet : Finset TypeAnalyzeResult) : TypeAnalyzeResult :=
  if TAResultSet = {.TwoLayer} then .TwoLayer
  else if TAResultSet = {.OneLayer} then .OneLayer
  else if TAResultSet = {.NoTwoLayerInfo} then .NoTwoLayerInfo
  else if .TypeEscape ∈ TAResultSet then .TypeEscape
  else .MixedLayer

/-- `oneLayerChecker`. -/
def oneLayerChecker (g : CallGraph) (CI : Value) : Bool × CallGraph :=
  match P.getCalledOperand CI with
  | some CV =>
    let st := P.oneLayerWalk g CI CV
    let g' := { g with
      layers := P.afterOneLayer g.layers CI
      escapedTypesInTypeAnalysisSet := g.escapedTypesInTypeAnalysisSet ∪ st.escaped }
    if P.allSupported .oneLayer g CV then
      let TAResult := resolveOneLayer st.TAResultSet
      let g' := { g' with
        Global_MLTA_Reualt_Map := Function.update g.Global_MLTA_Reualt_Map CI (some TAResult) }
      if TAResult = .TypeEscape then (false, g')
      else
        let FS := if TAResult = .NoTwoLayerInfo then ∅ else st.FS
        (true, { g' with
          Callees := Function.update g.Callees CI FS
          ICallees := Function.update g.ICallees CI FS })
    else (false, g')
  | none => (false, g)

/-- The body of `oneLayerHandler`. -/
def oneLayer (CI : Value) (s : CoState) : CoState :=
  if s.Global_Alias_Results_Map CI = false ∧ s.Global_MLTA_Reualt_Map CI = some .OneLayer then
    { s with toCallGraph := (P.oneLayerChecker s.toCallGraph CI).2 }
  else s

/-! ## Escaped calls -/

/-- The call graph after the second analysis of a call. -/
def analyseAgain (g : CallGraph) (CI : Value) : CallGraph :=
  let r := P.findCalleesWithMLTA g.layers CI
  { g with
    layers := P.afterOneLayer g.layers CI
    escapedTypesInTypeAnalysisSet := g.escapedTypesInTypeAnalysisSet ∪ P.escapedTypes g.layers CI
    Callees := Function.update g.Callees CI r.2
    ICallees := Function.update g.ICallees CI r.2
    Global_MLTA_Reualt_Map := Function.update g.Global_MLTA_Reualt_Map CI (some r.1) }

/-- The body of the second loop of `escapeHandler`. -/
def rerun (CI : Value) (s : CoState) : CoState :=
  if s.Global_MLTA_Reualt_Map CI = some .TypeEscape ∧ s.Global_Alias_Results_Map CI = false then
    { s with toCallGraph := P.analyseAgain s.toCallGraph CI }
  else s

end

/-! ## The main loop -/

/-- A part of a phase. -/
inductive Action (tg : TBAAGraph) (P : CallProgram) where
  | funcAlias (TargetVec : List Value) (verdict : Value → Verdict)
  | icallAlias (cai : Value) (r : LoopState tg P.toProgram)
  | oneLayer (CI : Value)
  | unescape (hash : Key)
  | rerun (CI : Value)

/-- The phases of a round. -/
inductive Phase where
  | FuncAliasAnalysis | ICallAliasAnalysis | oneLayerHandler | escapeHandler
deriving DecidableEq

/-- The next phase; the first one of the next round follows the last one. -/
def Phase.next : Phase → Phase
  | .FuncAliasAnalysis => .ICallAliasAnalysis
  | .ICallAliasAnalysis => .oneLayerHandler
  | .oneLayerHandler => .escapeHandler
  | .escapeHandler => .FuncAliasAnalysis

section
variable (tg : TBAAGraph) (P : CallProgram)

/-- What an action does. -/
def perform (s : CoState) : Action tg P → CoState
  | .funcAlias TargetVec verdict => P.funcAlias TargetVec verdict s
  | .icallAlias cai r => P.icallAlias cai r s
  | .oneLayer CI => P.oneLayer CI s
  | .unescape hash => { s with toCallGraph := P.unescape s.toCallGraph hash }
  | .rerun CI => P.rerun CI s

/-- The alias analyses find what `HandleFunc` and `HandleICall` do. -/
def Allowed (s : CoState) : Action tg P → Prop
  | .funcAlias TargetVec verdict => ∀ F,
      FuncAlias.Analysed P.toProgram (P.coContext s) verdict TargetVec F →
      ∃ fuel r, HandleFunc tg P.toProgram (P.coContext s) fuel F = some r ∧ verdict F = r.verdict F
  | .icallAlias cai r => skipped s cai = false →
      ∃ fuel, HandleICall tg P.toProgram (P.coContext s) fuel cai = some r
  | _ => True

/-- The elements of a set, in some order. -/
def Lists {α : Type*} [DecidableEq α] (l : List α) (S : Finset α) : Prop :=
  l.Nodup ∧ l.toFinset = S

instance {α : Type*} [DecidableEq α] (l : List α) (S : Finset α) : Decidable (Lists l S) :=
  inferInstanceAs (Decidable (_ ∧ _))

/-- The keys of `Global_MLTA_Reualt_Map` and `ICallees`; a call has an operand, so it is
    one of the values. -/
def analysedCalls (g : CallGraph) : Finset Value :=
  P.values.filter fun CI => (g.Global_MLTA_Reualt_Map CI).isSome

/-- The actions of a phase. -/
def PhaseActions (p : Phase) (s : CoState) (acts : List (Action tg P)) : Prop :=
  match p with
  | .FuncAliasAnalysis => ∃ TargetVec verdict,
      Lists TargetVec P.Ctx.Global_AddressTaken_Func_Set ∧ acts = [.funcAlias TargetVec verdict]
  | .ICallAliasAnalysis => ∃ (CIs : List Value) (r : Value → LoopState tg P.toProgram),
      Lists CIs (P.analysedCalls s.toCallGraph) ∧ acts = CIs.map fun cai => .icallAlias cai (r cai)
  | .oneLayerHandler => ∃ CIs,
      Lists CIs (P.analysedCalls s.toCallGraph) ∧ acts = CIs.map .oneLayer
  | .escapeHandler => ∃ hashes CIs,
      Lists hashes s.escapedTypesInTypeAnalysisSet ∧
      Lists CIs (P.analysedCalls s.toCallGraph) ∧ acts = hashes.map .unescape ++ CIs.map .rerun

variable {tg P}

/-- Runs of the main loop, all of whose actions meet a condition: from a phase and the
    state that it starts in to a later one. -/
abbrev MainLoop (C : CoState → Action tg P → Prop) : Phase × CoState → Phase × CoState → Prop :=
  Relation.ReflTransGen (PhaseStep (perform tg P) C Phase.next (PhaseActions tg P))

end

/-- The state before the main loop. -/
def coStart (P : CallProgram) (m : LayerMaps) (Ms : List LLVMModule) : CoState where
  toCallGraph := P.callGraph m Ms
  Global_symbol_get_funcSet := P.Ctx.Global_symbol_get_funcSet

/-! ## The targets that a phase sets -/

section
variable (P : CallProgram) (g : CallGraph)

/-- The walk from the called operand of the call leads to `V`. -/
def Met (CI V : Value) : Prop :=
  ∃ CV, P.getCalledOperand CI = some CV ∧
    Relation.ReflTransGen (Step (P.nextSources .oneLayer g)) CV V

/-- `V` is a function that resolves to `f`, or a field with the target `f`. -/
def Gives (CI V : Value) (f : Func) : Prop :=
  match P.sourceOf .oneLayer g V with
  | .layers TyList => ∃ CT ∈ TyList, f ∈ (P.fieldResult g CI CT).FS
  | .base F => f ∈ P.definitions F
  | _ => False

/-- `V` is a field that has escaped. -/
def GivesEscape (CI V : Value) : Prop :=
  match P.sourceOf .oneLayer g V with
  | .layers TyList => ∃ CT ∈ TyList, (P.fieldResult g CI CT).escape.isSome
  | _ => False

/-- The walk goes on after every value, and meets no escaped field. -/
structure WalkSucceeds (CI : Value) : Prop where
  operand : (P.getCalledOperand CI).isSome
  supported : ∀ V, P.Met g CI V → P.supported .oneLayer g V = true
  field : ∀ V, P.Met g CI V → ¬ P.GivesEscape g CI V

/-- What the type analysis finds for a call: the one-layer set if there are no layers, or
    if one has escaped and none is blank; the targets of the layers before the first
    blank one if none has escaped. -/
def TypeTarget (m : LayerMaps) (CI : Value) (f : Func) : Prop :=
  let m' := P.afterOneLayer m CI
  let S := P.getOneLayerResult m CI
  let L := (P.operandInfo m CI).TyList
  S ≠ ∅ ∧
    if (P.operandInfo m CI).layer_result then
      if ∃ CT ∈ L, m'.Escapes P.T P.getName P.order (P.callHash CI) CT then
        (∀ CT ∈ L, ¬ m'.Blank P.T P.getName P.order (P.callHash CI) S CT) ∧ f ∈ S
      else ∃ CT ∈ m'.beforeBlank P.T P.getName P.order (P.callHash CI) S L,
        f ∈ m'.layerTargets P.T P.getName P.order (P.callHash CI) S CT
    else f ∈ S

/-- The action sets the targets of the call. -/
def Sets {tg : TBAAGraph} (s : CoState) : Action tg P → Value → Prop
  | .oneLayer CI, CI' => CI' = CI ∧ s.Global_Alias_Results_Map CI = false ∧
      s.Global_MLTA_Reualt_Map CI = some .OneLayer ∧ P.WalkSucceeds s.toCallGraph CI
  | .rerun CI, CI' => CI' = CI ∧ s.Global_Alias_Results_Map CI = false ∧
      s.Global_MLTA_Reualt_Map CI = some .TypeEscape
  | _, _ => False

/-- What the action sets them to. -/
def NewTarget {tg : TBAAGraph} (s : CoState) : Action tg P → Value → Func → Prop
  | .oneLayer _, CI, f => ∃ V, P.Met s.toCallGraph CI V ∧ P.Gives s.toCallGraph CI V f
  | .rerun _, CI, f => P.TypeTarget s.layers CI f
  | _, _, _ => False

end

/-! ### The walk -/

/-- What the walk adds to its variables: targets, and an escape. -/
structure Adds (gives : Func → Prop) (escapes : Prop) (st st' : OneLayerState) : Prop where
  mem : ∀ f, f ∈ st'.FS ↔ f ∈ st.FS ∨ gives f
  escape : .TypeEscape ∈ st'.TAResultSet ↔ .TypeEscape ∈ st.TAResultSet ∨ escapes
  results : st.TAResultSet ⊆ st'.TAResultSet
  targets : ∀ f, gives f → .TwoLayer ∈ st'.TAResultSet ∨ .OneLayer ∈ st'.TAResultSet

theorem Adds.foldl {α : Type*} {gives : α → Func → Prop} {escapes : α → Prop}
    {body : OneLayerState → α → OneLayerState} {l : List α}
    (h : ∀ a st, Adds (gives a) (escapes a) st (body st a)) (st : OneLayerState) :
    Adds (fun f => ∃ a ∈ l, gives a f) (∃ a ∈ l, escapes a) st (l.foldl body st) := by
  induction l generalizing st with
  | nil => exact ⟨by simp, by simp, subset_rfl, by simp⟩
  | cons a l ih =>
    have hhead := h a st
    have htail := ih (body st a)
    refine ⟨?_, ?_, hhead.results.trans htail.results, ?_⟩
    · intro f
      rw [List.foldl_cons, htail.mem, hhead.mem]
      simp [or_assoc]
    · rw [List.foldl_cons, htail.escape, hhead.escape]
      simp [or_assoc]
    · rintro f ⟨b, hb, hf⟩
      rcases List.mem_cons.1 hb with rfl | hb
      · exact (hhead.targets f hf).imp (fun h => htail.results h) fun h => htail.results h
      · exact htail.targets f ⟨b, hb, hf⟩

section
variable {P : CallProgram} {g : CallGraph} {CI V CV : Value} {f : Func} {st : OneLayerState}
  {CT : CompositeType} {l : List Value} {m : LayerMaps}

theorem adds_meetField (CT : CompositeType) (st : OneLayerState) :
    Adds (· ∈ (P.fieldResult g CI CT).FS) (P.fieldResult g CI CT).escape.isSome st
      (P.meetField g CI st CT) := by
  obtain ⟨r, hr⟩ := exists_merge_set P.T (P.afterOneLayer g.layers CI) P.getName P.order
    (P.callHash CI) CT.1 CT.2
  have hempty : (P.fieldResult g CI CT).escape.isSome → (P.fieldResult g CI CT).FS = ∅ := by
    intro hsome
    rw [fieldResult] at hsome ⊢
    rw [(hr _ _).1] at hsome
    rw [(hr _ _).2]
    cases r with
    | error k => rfl
    | ok merge_set => cases hsome
  unfold meetField
  dsimp only
  split_ifs with hFS hnone
  · have hno : (P.fieldResult g CI CT).escape.isSome = false :=
      Bool.eq_false_iff.2 fun hsome => hFS (hempty hsome)
    exact ⟨by simp, by simp [hno], Finset.subset_insert _ _, by simp⟩
  · rw [not_not] at hFS
    exact ⟨by simp [hFS], by simp [hnone], Finset.subset_insert _ _, by simp [hFS]⟩
  · rw [not_not] at hFS
    have hsome : (P.fieldResult g CI CT).escape.isSome := Option.isSome_iff_ne_none.2 hnone
    exact ⟨by simp [hFS], by simp [hsome], Finset.subset_insert _ _, by simp [hFS]⟩

theorem adds_meetSource (V : Value) (st : OneLayerState) :
    Adds (P.Gives g CI V) (P.GivesEscape g CI V) st (P.meetSource g CI st V) := by
  unfold Gives GivesEscape meetSource
  cases P.sourceOf .oneLayer g V with
  | layers TyList => exact .foldl adds_meetField st
  | base F => exact ⟨by simp, by simp, Finset.subset_insert _ _, by simp⟩
  | pushed EV => exact ⟨by simp, by simp, subset_rfl, by simp⟩
  | unsupported => exact ⟨by simp, by simp, subset_rfl, by simp⟩

theorem resolveOneLayer_eq_typeEscape {TAResultSet : Finset TypeAnalyzeResult} :
    resolveOneLayer TAResultSet = .TypeEscape ↔ .TypeEscape ∈ TAResultSet := by
  unfold resolveOneLayer
  split_ifs with h₁ h₂ h₃ h₄
  · simp [h₁]
  · simp [h₂]
  · simp [h₃]
  · simp [h₄]
  · simp [h₄]

theorem resolveOneLayer_eq_noTwoLayerInfo {TAResultSet : Finset TypeAnalyzeResult}
    (h : resolveOneLayer TAResultSet = .NoTwoLayerInfo) : TAResultSet = {.NoTwoLayerInfo} := by
  unfold resolveOneLayer at h
  split_ifs at h with h₁ h₂ h₃ h₄
  exact h₃

theorem met_iff (hCV : P.getCalledOperand CI = some CV) :
    P.Met g CI V ↔ V ∈ P.sourceOrder .oneLayer g CV := by
  have hvalues : CV ∈ P.values := mem_values_of_operands (List.mem_of_getLast? hCV)
  rw [mem_sourceOrder_iff hvalues, Met, hCV]
  simp

variable (CI) in
/-- What a walk that goes on after every value adds. -/
theorem adds_oneLayerWalk (hall : P.allSupported .oneLayer g CV = true) :
    Adds (fun f => ∃ V ∈ P.sourceOrder .oneLayer g CV, P.Gives g CI V f)
      (∃ V ∈ P.sourceOrder .oneLayer g CV, P.GivesEscape g CI V) {} (P.oneLayerWalk g CI CV) := by
  rw [oneLayerWalk, checkedSources_of_allSupported hall]
  exact .foldl adds_meetSource _

/-- The walk succeeds if all values are supported and no escape is among its results. -/
theorem walkSucceeds_iff (hCV : P.getCalledOperand CI = some CV) :
    P.WalkSucceeds g CI ↔ P.allSupported .oneLayer g CV = true ∧
      resolveOneLayer (P.oneLayerWalk g CI CV).TAResultSet ≠ .TypeEscape := by
  have hescape : P.allSupported .oneLayer g CV = true →
      (resolveOneLayer (P.oneLayerWalk g CI CV).TAResultSet = .TypeEscape ↔
        ∃ V, P.Met g CI V ∧ P.GivesEscape g CI V) := by
    intro hall
    rw [resolveOneLayer_eq_typeEscape, (adds_oneLayerWalk CI hall).escape]
    simp only [met_iff hCV, Finset.notMem_empty, false_or]
  constructor
  · intro h
    have hall : P.allSupported .oneLayer g CV = true :=
      List.all_eq_true.2 fun V hV => h.supported V ((met_iff hCV).2 hV)
    refine ⟨hall, fun hesc => ?_⟩
    obtain ⟨V, hV, hVesc⟩ := (hescape hall).1 hesc
    exact h.field V hV hVesc
  · rintro ⟨hall, hno⟩
    refine ⟨by rw [hCV]; rfl, fun V hV => ?_, fun V hV hVesc => ?_⟩
    · exact List.all_eq_true.1 hall V ((met_iff hCV).1 hV)
    · exact hno ((hescape hall).2 ⟨V, hV, hVesc⟩)

/-- The targets of a walk that goes on after every value: those of the values met, also
    where the result of the walk clears them. -/
theorem mem_oneLayerTargets (hCV : P.getCalledOperand CI = some CV)
    (hall : P.allSupported .oneLayer g CV = true) :
    f ∈ (if resolveOneLayer (P.oneLayerWalk g CI CV).TAResultSet = .NoTwoLayerInfo then ∅
      else (P.oneLayerWalk g CI CV).FS) ↔ ∃ V, P.Met g CI V ∧ P.Gives g CI V f := by
  have hadds := adds_oneLayerWalk CI hall
  have hmem : f ∈ (P.oneLayerWalk g CI CV).FS ↔ ∃ V, P.Met g CI V ∧ P.Gives g CI V f := by
    rw [hadds.mem]
    simp only [met_iff hCV, Finset.notMem_empty, false_or]
  split
  case isFalse => exact hmem
  case isTrue hnone =>
    -- without a two-layer or a one-layer result there are no targets
    rw [← hmem]
    refine iff_of_false (Finset.notMem_empty f) fun hf => ?_
    have hgives := ((hadds.mem f).1 hf).resolve_left (Finset.notMem_empty f)
    have htargets := hadds.targets f hgives
    rw [resolveOneLayer_eq_noTwoLayerInfo hnone] at htargets
    simp at htargets

variable (P g CI) in
/-- **One-layer calls.**  The walk sets the targets of the call to those that it meets, or
    sets no targets. -/
theorem oneLayerChecker_spec : (P.oneLayerChecker g CI).2.Callers = g.Callers ∧
    ((P.WalkSucceeds g CI ∧ ∃ FS : Finset Func,
        (P.oneLayerChecker g CI).2.Callees = Function.update g.Callees CI FS ∧
        (P.oneLayerChecker g CI).2.ICallees = Function.update g.ICallees CI FS ∧
        ∀ f, f ∈ FS ↔ ∃ V, P.Met g CI V ∧ P.Gives g CI V f) ∨
      ¬ P.WalkSucceeds g CI ∧ (P.oneLayerChecker g CI).2.Callees = g.Callees ∧
        (P.oneLayerChecker g CI).2.ICallees = g.ICallees) := by
  unfold oneLayerChecker
  cases hCV : P.getCalledOperand CI with
  | none =>
    refine ⟨rfl, Or.inr ⟨fun h => ?_, rfl, rfl⟩⟩
    have hop := h.operand
    rw [hCV] at hop
    cases hop
  | some CV =>
    rw [walkSucceeds_iff hCV]
    dsimp only
    split
    case isFalse hgiveUp => exact ⟨rfl, Or.inr ⟨fun h => hgiveUp h.1, rfl, rfl⟩⟩
    case isTrue hall =>
      split
      case isTrue hescape => exact ⟨rfl, Or.inr ⟨fun h => h.2 hescape, rfl, rfl⟩⟩
      case isFalse hno =>
        exact ⟨rfl, Or.inl ⟨⟨hall, hno⟩, _, rfl, rfl, fun f => mem_oneLayerTargets hCV hall⟩⟩

/-- **Escaped calls.** -/
theorem mem_findCalleesWithMLTA_iff :
    f ∈ (P.findCalleesWithMLTA m CI).2 ↔ P.TypeTarget m CI f := by
  unfold findCalleesWithMLTA LayerMaps.findCalleesWithMLTA TypeTarget
  dsimp only
  have hS : (P.operandInfo m CI).oneLayer = P.getOneLayerResult m CI := rfl
  have hH : (P.operandInfo m CI).callHash = P.callHash CI := rfl
  have hV : (P.operandInfo m CI).virtualTargets = none := rfl
  rw [hS, hH, hV]
  dsimp only
  by_cases hempty : P.getOneLayerResult m CI = ∅
  · simp [hempty]
  rw [if_neg hempty, and_iff_right hempty]
  by_cases hlayers : (P.operandInfo m CI).layer_result = true
  case neg => rw [if_neg hlayers, if_neg hlayers]
  rw [if_pos hlayers, if_pos hlayers]
  have hunion : ∀ L : List CompositeType, f ∈ (P.afterOneLayer m CI).unionTargets P.T P.getName
      P.order (P.callHash CI) (P.getOneLayerResult m CI) L ↔ ∃ CT ∈ L,
        f ∈ (P.afterOneLayer m CI).layerTargets P.T P.getName P.order (P.callHash CI)
          (P.getOneLayerResult m CI) CT := by
    intro L
    simp [unionTargets]
  rw [← hunion]
  by_cases hblank : ∃ CT ∈ (P.operandInfo m CI).TyList,
      (P.afterOneLayer m CI).Blank P.T P.getName P.order (P.callHash CI)
        (P.getOneLayerResult m CI) CT
  · -- a blank layer clears the one-layer set
    rw [resolve_of_blank hblank]
    split_ifs
    · obtain ⟨CT, hCT, hb⟩ := hblank
      exact iff_of_false (Finset.notMem_empty f) fun h => h.1 CT hCT hb
    · rfl
  · push Not at hblank
    have hall : (P.afterOneLayer m CI).beforeBlank P.T P.getName P.order (P.callHash CI)
        (P.getOneLayerResult m CI) (P.operandInfo m CI).TyList =
        (P.operandInfo m CI).TyList := by
      refine List.takeWhile_eq_self_iff.2 fun CT hCT => ?_
      simpa using hblank CT hCT
    rw [resolve_of_noBlank hblank, combined, hall]
    split_ifs
    · exact (and_iff_right hblank).symm
    · rfl

end

/-! ### The actions -/

section
variable {tg : TBAAGraph} {P : CallProgram} {s : CoState} {CI : Value}

theorem unescape_calls (g : CallGraph) (hash : Key) :
    (P.unescape g hash).Callees = g.Callees ∧ (P.unescape g hash).Callers = g.Callers ∧
      (P.unescape g hash).ICallees = g.ICallees := by
  rcases P.unescape_cases g hash with h | ⟨m, -, -, h | ⟨-, h⟩⟩
  · rw [h]
    exact ⟨rfl, rfl, rfl⟩
  · rw [h]
    exact ⟨rfl, rfl, rfl⟩
  · rw [h]
    exact ⟨rfl, rfl, rfl⟩

theorem updateTargets_subset {P : Program} (st : FuncAlias.State) (ICall : Value)
    (FS : Finset Value) : FuncAlias.updateTargets P st ICall FS ⊆ FS :=
  Finset.sdiff_subset

theorem resultSet_subset {r : LoopState tg P.toProgram} {Ctx : GlobalContext} {fset : Finset Func} :
    P.resultSet r Ctx CI fset ⊆ fset := by
  unfold resultSet
  split
  · exact Finset.filter_subset _ _
  · exact Finset.empty_subset _

/-- The callers are those that the pass has found. -/
theorem callers_perform (s : CoState) (a : Action tg P) :
    (perform tg P s a).Callers = s.Callers := by
  cases a with
  | funcAlias TargetVec verdict => rfl
  | icallAlias cai r =>
    show (P.icallAlias cai r s).Callers = s.Callers
    unfold icallAlias
    split <;> rfl
  | oneLayer CI =>
    show (P.oneLayer CI s).Callers = s.Callers
    unfold oneLayer
    split
    · exact (P.oneLayerChecker_spec s.toCallGraph CI).1
    · rfl
  | unescape hash => exact (unescape_calls s.toCallGraph hash).2.1
  | rerun CI =>
    show (P.rerun CI s).Callers = s.Callers
    unfold rerun
    split <;> rfl

/-- An action that sets the targets of the call sets them to the new ones. -/
theorem targets_perform {a : Action tg P} (h : P.Sets s a CI) : ∃ FS : Finset Func,
    (perform tg P s a).Callees CI = FS ∧ (perform tg P s a).ICallees CI = FS ∧
      ∀ f, f ∈ FS ↔ P.NewTarget s a CI f := by
  cases a with
  | funcAlias TargetVec verdict => exact h.elim
  | icallAlias cai r => exact h.elim
  | unescape hash => exact h.elim
  | oneLayer CI' =>
    obtain ⟨rfl, halias, hentry, hwalk⟩ := h
    obtain ⟨-, ⟨-, FS, hcallees, hicallees, hmem⟩ | ⟨hno, -⟩⟩ :=
      P.oneLayerChecker_spec s.toCallGraph CI
    · refine ⟨FS, ?_, ?_, hmem⟩
      · show (P.oneLayer CI s).Callees CI = FS
        rw [oneLayer, if_pos ⟨halias, hentry⟩, hcallees, Function.update_self]
      · show (P.oneLayer CI s).ICallees CI = FS
        rw [oneLayer, if_pos ⟨halias, hentry⟩, hicallees, Function.update_self]
    · exact absurd hwalk hno
  | rerun CI' =>
    obtain ⟨rfl, halias, hentry⟩ := h
    refine ⟨(P.findCalleesWithMLTA s.layers CI).2, ?_, ?_, fun f => mem_findCalleesWithMLTA_iff⟩
    · show (P.rerun CI s).Callees CI = _
      rw [rerun, if_pos ⟨hentry, halias⟩]
      exact Function.update_self _ _ _
    · show (P.rerun CI s).ICallees CI = _
      rw [rerun, if_pos ⟨hentry, halias⟩]
      exact Function.update_self _ _ _

/-- Any other action takes targets away at most. -/
theorem targets_perform_of_not_sets {a : Action tg P} (h : ¬ P.Sets s a CI) :
    (perform tg P s a).Callees CI = s.Callees CI ∧
      (perform tg P s a).ICallees CI ⊆ s.ICallees CI := by
  cases a with
  | funcAlias TargetVec verdict => exact ⟨rfl, updateTargets_subset _ CI (s.ICallees CI)⟩
  | icallAlias cai r =>
    show (P.icallAlias cai r s).Callees CI = _ ∧ (P.icallAlias cai r s).ICallees CI ⊆ _
    unfold icallAlias
    split
    · exact ⟨rfl, subset_rfl⟩
    · refine ⟨rfl, ?_⟩
      dsimp only
      by_cases heq : CI = cai
      · subst heq
        rw [Function.update_self]
        exact resultSet_subset
      · rw [Function.update_of_ne heq]
  | oneLayer CI' =>
    show (P.oneLayer CI' s).Callees CI = _ ∧ (P.oneLayer CI' s).ICallees CI ⊆ _
    unfold oneLayer
    split
    case isFalse => exact ⟨rfl, subset_rfl⟩
    case isTrue hrun =>
      obtain ⟨-, ⟨hwalk, FS, hcallees, hicallees, -⟩ | ⟨-, hcallees, hicallees⟩⟩ :=
        P.oneLayerChecker_spec s.toCallGraph CI'
      · have hne : CI ≠ CI' := by
          rintro rfl
          exact h ⟨rfl, hrun.1, hrun.2, hwalk⟩
        dsimp only
        rw [hcallees, hicallees, Function.update_of_ne hne, Function.update_of_ne hne]
        exact ⟨rfl, subset_rfl⟩
      · dsimp only
        rw [hcallees, hicallees]
        exact ⟨rfl, subset_rfl⟩
  | unescape hash =>
    obtain ⟨hcallees, -, hicallees⟩ := P.unescape_calls s.toCallGraph hash
    exact ⟨congrFun hcallees CI, (congrFun hicallees CI).subset⟩
  | rerun CI' =>
    show (P.rerun CI' s).Callees CI = _ ∧ (P.rerun CI' s).ICallees CI ⊆ _
    unfold rerun
    split
    case isFalse => exact ⟨rfl, subset_rfl⟩
    case isTrue hrun =>
      have hne : CI ≠ CI' := by
        rintro rfl
        exact h ⟨rfl, hrun.2, hrun.1⟩
      have hother : ∀ {β : Type} (map : Value → β) (v : β),
          Function.update map CI' v CI = map CI := fun map v => Function.update_of_ne hne v map
      exact ⟨hother _ _, (hother _ _).subset⟩

end

/-! ### Runs with a given fuel -/

section
variable (tg : TBAAGraph) (P : CallProgram) (s : CoState) (fuel : ℕ)

/-- What `HandleFunc` finds, if it ends. -/
def verdictOf (F : Value) : Verdict :=
  ((HandleFunc tg P.toProgram (P.coContext s) fuel F).map (·.verdict F)).getD
    { Is_Analyze_Success := false }

variable {tg P s fuel}

theorem allowed_funcAlias {TargetVec : List Value}
    (h : ∀ F ∈ TargetVec, (HandleFunc tg P.toProgram (P.coContext s) fuel F).isSome) :
    Allowed tg P s (.funcAlias TargetVec (P.verdictOf tg s fuel)) := by
  intro F hF
  obtain ⟨r, hr⟩ := Option.isSome_iff_exists.1 (h F hF.mem)
  refine ⟨fuel, r, hr, ?_⟩
  rw [verdictOf, hr]
  rfl

variable (tg P) in
/-- An action that is allowed and sets no targets. -/
def Quiet (s : CoState) (a : Action tg P) : Prop := Allowed tg P s a ∧ ∀ CI, ¬ P.Sets s a CI

variable (tg P) in
/-- A phase that sets no targets. -/
abbrev QuietStep : Phase × CoState → Phase × CoState → Prop :=
  PhaseStep (perform tg P) (Quiet tg P) Phase.next (PhaseActions tg P)

theorem phase_funcAlias {TargetVec : List Value}
    (hlist : Lists TargetVec P.Ctx.Global_AddressTaken_Func_Set)
    (h : ∀ F ∈ TargetVec, (HandleFunc tg P.toProgram (P.coContext s) fuel F).isSome) :
    QuietStep tg P (.FuncAliasAnalysis, s)
      (.ICallAliasAnalysis, P.funcAlias TargetVec (P.verdictOf tg s fuel) s) := by
  have hquiet : Quiet tg P s (.funcAlias TargetVec (P.verdictOf tg s fuel)) :=
    ⟨allowed_funcAlias h, fun _ hsets => hsets⟩
  exact .phase ⟨TargetVec, _, hlist, rfl⟩ (.cons hquiet .nil)

/-- The only call is analysed, with the result `r`. -/
theorem phase_icallAlias {cai : Value} {r : LoopState tg P.toProgram}
    (hlist : Lists [cai] (P.analysedCalls s.toCallGraph))
    (hr : HandleICall tg P.toProgram (P.coContext s) fuel cai = some r) :
    QuietStep tg P (.ICallAliasAnalysis, s) (.oneLayerHandler, P.icallAlias cai r s) := by
  have hquiet : Quiet tg P s (.icallAlias cai r) := ⟨fun _ => ⟨fuel, hr⟩, fun _ hsets => hsets⟩
  exact .phase ⟨[cai], fun _ => r, hlist, rfl⟩ (.cons hquiet .nil)

/-- The analysis of the only call fails. -/
theorem phase_icallAlias_fails {cai : Value}
    (hlist : Lists [cai] (P.analysedCalls s.toCallGraph))
    (hends : (HandleICall tg P.toProgram (P.coContext s) fuel cai).isSome = true)
    (hfails : ∀ r, HandleICall tg P.toProgram (P.coContext s) fuel cai = some r →
      r.ctx.Is_Analyze_Success = false) :
    QuietStep tg P (.ICallAliasAnalysis, s) (.oneLayerHandler, { s with
      Global_Alias_Results_Map := Function.update s.Global_Alias_Results_Map cai false }) := by
  obtain ⟨r, hr⟩ := Option.isSome_iff_exists.1 hends
  have hstep := phase_icallAlias hlist hr
  rwa [icallAlias, if_pos (Or.inr (hfails r hr))] at hstep

/-- The only call is not looked at. -/
theorem phase_oneLayer_skips (CI : Value) (hlist : Lists [CI] (P.analysedCalls s.toCallGraph))
    (hskip : ¬ (s.Global_Alias_Results_Map CI = false ∧
      s.Global_MLTA_Reualt_Map CI = some .OneLayer)) :
    QuietStep tg P (.oneLayerHandler, s) (.escapeHandler, s) := by
  have hsame : perform tg P s (.oneLayer CI) = s := by
    show P.oneLayer CI s = s
    rw [oneLayer, if_neg hskip]
  have hquiet : Quiet tg P s (.oneLayer CI) :=
    ⟨trivial, fun _ hsets => hskip ⟨hsets.2.1, hsets.2.2.1⟩⟩
  have hrun : Runs (perform tg P) (Quiet tg P) [.oneLayer CI] s (perform tg P s (.oneLayer CI)) :=
    .cons hquiet .nil
  rw [hsame] at hrun
  exact .phase ⟨[CI], hlist, rfl⟩ hrun

theorem mainLoop_of_quiet {x y : Phase × CoState} (h : Relation.ReflTransGen (QuietStep tg P) x y) :
    MainLoop (Allowed tg P) x y := phases_mono (fun _ _ ha => ha.1) h

end

end CallProgram

end TFA
