/-
  The alias analysis of a function (`HandleFunc` of `FuncAliasAnalysis.cc`).

  `HandleFunc` goes through the uses of a function first, then through its cluster
  as `HandleICall` does, and reports the calls through a value of the cluster.

  * `move_mem_start`: a call found among the uses has the moves of its arguments
    made for every callee;
  * `mem_callset_of_passedAlong`: an indirect call through a formal that the
    function reaches along calls which all use it is reported.  The formals of
    the callees count as analysed, so a call further down is not seen
    (`second_call_missed`).
-/
import TFA.Alias.HandleICall
import TFA.Alias.FuncAliasAnalysis

namespace TFA

open Loop AliasCall InterState LoopState

variable {tg : TBAAGraph} {P : Program} {Ctx : GlobalContext}

/-! ## The analysis -/

variable (P) in
/-- The users whose own users are visited. -/
def followFuncUse (U : Value) : Bool :=
  match P.kind U with
  | .instruction _ => false
  | k => P.isOperator U || k = .constantAggregate || k = .globalAlias

variable (Ctx) in
/-- A user of the function. -/
def handleFuncUse (s : InterState tg P) (U : Value) : InterState tg P :=
  match P.kind U with
  | .instruction .call => (s.analyzeFunction Ctx (P.getFunction U)).extendCall Ctx none U U
  | .instruction _ => s.analyzeFunction Ctx (P.getFunction U)
  | .globalVariable => s.push [U]
  | _ => s

variable (tg P Ctx) in
/-- The uses of the function; `LV` is `AnalysisList` and `Analyzed_Set` is
    `AnalyzedList`. -/
def HandleFuncUses (F : Value) : InterState tg P :=
  (P.throughUsers (followFuncUse P) F).foldl (handleFuncUse Ctx) { ctx := {} }

variable (tg P Ctx) in
/-- The state before the loop over the cluster. -/
def HandleFuncStart (F : Value) : LoopState tg P :=
  let s := HandleFuncUses tg P Ctx F
  let s := s.push ((inOrder (s.ctx.graph.getClusterValues F ∅)).filter (· ≠ F))
  if s.exceeds then
    { ctx := s.ctx.fail none, AnalysisList := s.LV, AnalyzedList := s.Analyzed_Set,
      stopped := true }
  else { ctx := s.ctx, AnalysisList := s.LV, AnalyzedList := s.Analyzed_Set }

variable (tg P Ctx) in
/-- `HandleFunc`, up to the end of its loop. -/
def HandleFunc (fuel : ℕ) (F : Value) : Option (LoopState tg P) :=
  analysisLoop Ctx none fuel (HandleFuncStart tg P Ctx F)

/-- The calls that `HandleFunc` reports. -/
def LoopState.callset (s : LoopState tg P) (F : Value) : Finset Value :=
  if s.ctx.Is_Analyze_Success = false then ∅
  else (s.ctx.graph.getClusterValues F ∅).biUnion fun aliased_v =>
    ((P.users aliased_v).filter fun U =>
      P.kind U = .instruction .call ∧ P.getCalledOperand U = some aliased_v).toFinset

/-- What `FuncAliasAnalysis` gets from `HandleFunc`. -/
def LoopState.verdict (s : LoopState tg P) (F : Value) : Verdict where
  Is_Analyze_Success := s.ctx.Is_Analyze_Success
  failreason := s.ctx.failreason
  callset := s.callset F
  Global_symbol_get_funcSet := s.ctx.Global_symbol_get_funcSet

/-! ## Calls among the uses -/

section
variable {s : InterState tg P} {reason : Option AliasFailureReasons} {v U cai f a y : Value}

theorem success_update_of_exceeds (h : (s.update reason v).exceeds = true) :
    (s.update reason v).ctx.Is_Analyze_Success = false := by
  unfold InterState.update at h ⊢
  dsimp only at h ⊢
  split
  · rfl
  case isFalse hshort =>
    rw [if_neg hshort] at h
    exact absurd h hshort

/-- The moves of the arguments of a call are made for every callee. -/
theorem move_mem_extendCall (hf : f ∈ Ctx.Callees cai)
    (hpair : (a, y) ∈ (P.callArgs cai).zip (P.args f))
    (hsucc : (s.extendCall Ctx reason v cai).ctx.Is_Analyze_Success = true) :
    .move a y ∈ (s.extendCall Ctx reason v cai).ctx.trace := by
  have hrounds : ∀ g ∈ Ctx.Callees cai, ∀ s : InterState tg P, Extends (fun _ => True) s
      (extendCallee Ctx reason v cai g s).1 := fun g _ s =>
    (recomputed_extendCallee reason (fun _ _ => trivial) s).toExtends
  rcases forBreak_visits hrounds hf s with ⟨s₁, -, hlater⟩ | ⟨g, -, s₁, hbreak⟩
  · -- the moves precede the update of this round
    have hmove : .move a y ∈ P.argMoves cai f := List.mem_map.2 ⟨(a, y), hpair, rfl⟩
    have hext : ∀ s₂ : InterState tg P, Extends (fun _ => True) s₂ (s₂.update reason v) :=
      fun s₂ => extends_update s₂ reason v
    have hupd : ∀ s₂ : InterState tg P, AliasCall.move a y ∈ s₂.ctx.trace →
        .move a y ∈ (s₂.update reason v).ctx.trace := fun s₂ =>
      (hext s₂).trace.mem
    exact hlater.trace.mem (hupd _ (List.mem_append_right _ hmove))
  · -- a round that breaks has failed
    have hfail : (extendCallee Ctx reason v cai g s₁).1.ctx.Is_Analyze_Success = false :=
      success_update_of_exceeds (congrArg Prod.snd hbreak)
    rw [hbreak] at hfail
    exact absurd (hfail.symm.trans hsucc) (by decide)

theorem extends_handleFuncUse (s : InterState tg P) (U : Value) :
    Extends (fun _ => True) s (handleFuncUse Ctx s U) := by
  unfold handleFuncUse
  split
  · exact (extends_analyzeFunction Ctx s _).trans
      (recomputed_extendCall Ctx U none (fun _ _ _ _ => trivial) _).toExtends
  · exact extends_analyzeFunction Ctx s _
  · exact extends_push s _
  · exact .refl s

/-- **Uses.**  A call among the uses of the function has its moves made. -/
theorem move_mem_HandleFuncUses {F : Value} (hU : P.UsedThrough (followFuncUse P) F cai)
    (hkind : P.kind cai = .instruction .call) (hf : f ∈ Ctx.Callees cai)
    (hpair : (a, y) ∈ (P.callArgs cai).zip (P.args f))
    (hsucc : (HandleFuncUses tg P Ctx F).ctx.Is_Analyze_Success = true) :
    .move a y ∈ (HandleFuncUses tg P Ctx F).ctx.trace := by
  obtain ⟨s₁, -, hlater⟩ := foldl_visits (fun U _ s => extends_handleFuncUse s U)
    (Program.mem_throughUsers.2 hU) (⟨{}, [], ∅⟩ : InterState tg P)
  have hround : handleFuncUse Ctx s₁ cai =
      (s₁.analyzeFunction Ctx (P.getFunction cai)).extendCall Ctx none cai cai := by
    unfold handleFuncUse
    rw [hkind]
  rw [hround] at hlater
  exact hlater.trace.mem (move_mem_extendCall hf hpair (hlater.success hsucc))

end

/-! ## The cluster -/

section
variable {s : LoopState tg P} {F : Value}

theorem later_HandleFunc {fuel : ℕ} (h : HandleFunc tg P Ctx fuel F = some s) :
    (HandleFuncUses tg P Ctx F).ctx.TraceExtends s.ctx ∧
      (s.ctx.Is_Analyze_Success = true →
        (HandleFuncUses tg P Ctx F).ctx.Is_Analyze_Success = true) := by
  obtain ⟨hreach, -⟩ := runs_spec h
  have hlater : Later (HandleFuncStart tg P Ctx F) s :=
    reaches_rel (fun _ _ hstep => later_loopStep hstep) hreach
  have hstart : (HandleFuncUses tg P Ctx F).ctx.TraceExtends (HandleFuncStart tg P Ctx F).ctx ∧
      ((HandleFuncStart tg P Ctx F).ctx.Is_Analyze_Success = true →
        (HandleFuncUses tg P Ctx F).ctx.Is_Analyze_Success = true) := by
    unfold HandleFuncStart
    dsimp only
    split
    · exact ⟨.of_eq rfl, fun h => by cases h⟩
    · exact ⟨.of_eq rfl, id⟩
  exact ⟨hstart.1.trans hlater.trace, fun hs => hstart.2 (hlater.success hs)⟩

/-- All calls that the analysis of a function makes carry tags of the program. -/
theorem tagOf_HandleFunc {fuel : ℕ} (h : HandleFunc tg P Ctx fuel F = some s) :
    ∀ c ∈ s.ctx.trace, P.TagOf c := by
  have huses : Extends (fun _ => True) (⟨{}, [], ∅⟩ : InterState tg P)
      (HandleFuncUses tg P Ctx F) := foldl_rel (fun U _ s => extends_handleFuncUse s U) _
  obtain ⟨cs, heq, htag⟩ := huses.trace.trans (later_HandleFunc h).1
  rw [heq]
  exact htag

variable (P Ctx) in
/-- `F` is passed to the formal along calls of functions: `g1(F)`, `g2(x1)` and so
    on; `via` holds of every call and its callee. -/
inductive PassedAlong (via : Value → Value → Prop) (F : Value) : Value → Prop
  | first {cai g x : Value} : via cai g → P.kind cai = .instruction .call → g ∈ Ctx.Callees cai →
      (F, x) ∈ (P.callArgs cai).zip (P.args g) → PassedAlong via F x
  | next {x cai g y : Value} : PassedAlong via F x → via cai g →
      P.kind cai = .instruction .call → g ∈ Ctx.Callees cai →
      (x, y) ∈ (P.callArgs cai).zip (P.args g) → PassedAlong via F y

/-- **Parameter passing.**  An indirect call through a formal that `F` is passed to,
    along calls that are all among the uses of `F`, is reported. -/
theorem mem_callset_of_passedAlong {fuel : ℕ} {x CI : Value}
    (hrun : HandleFunc tg P Ctx fuel F = some s) (hsucc : s.ctx.Is_Analyze_Success = true)
    (htag : ∀ I, P.tbaa I = none) (hsafe : SafeRun tg P.kind s.ctx.trace {})
    (hpass : PassedAlong P Ctx (fun cai _ => P.UsedThrough (followFuncUse P) F cai) F x)
    (hCI : P.kind CI = .instruction .call) (hop : P.getCalledOperand CI = some x) :
    CI ∈ s.callset F := by
  obtain ⟨htrace, hsucc'⟩ := later_HandleFunc hrun
  have htags : ∀ c ∈ s.ctx.trace, c.tag = none := by
    intro c hc
    rcases tagOf_HandleFunc hrun c hc with hnone | ⟨I, hI⟩
    · exact hnone
    · rw [hI, htag]
  have hrep := represents_run htags hsafe
  rw [← s.ctx.graph_eq] at hrep
  have hmove : ∀ {cai g a y}, P.UsedThrough (followFuncUse P) F cai →
      P.kind cai = .instruction .call → g ∈ Ctx.Callees cai →
      (a, y) ∈ (P.callArgs cai).zip (P.args g) → Handled P.kind s.ctx.trace a y := by
    intro cai g a y hU hkind hg hpair
    exact ⟨_, htrace.mem (move_mem_HandleFuncUses hU hkind hg hpair (hsucc' hsucc)), rfl⟩
  have hrel : Relation.EqvGen (Handled P.kind s.ctx.trace) F x ∧
      (s.ctx.graph.getNode F).isSome := by
    clear hop
    induction hpass with
    | first hU hkind hg hpair =>
      have hFx := hmove hU hkind hg hpair
      obtain ⟨n, hn⟩ := hrep.left _ _ hFx
      exact ⟨.rel _ _ hFx, Option.isSome_iff_exists.2 ⟨n, (hrep.wf.consistent _ n).2 hn⟩⟩
    | next _ hU hkind hg hpair ih =>
      obtain ⟨hFx, hnode⟩ := ih
      exact ⟨.trans _ _ _ hFx (.rel _ _ (hmove hU hkind hg hpair)), hnode⟩
  have hx := (hrep.mem_cluster_iff hrel.2).2 hrel.1
  have huser : CI ∈ P.users x := (P.mem_users x CI).2 (List.mem_of_getLast? hop)
  unfold LoopState.callset
  rw [if_neg (by rw [hsucc]; decide)]
  refine Finset.mem_biUnion.2 ⟨x, hx, List.mem_toFinset.2 (List.mem_filter.2 ⟨huser, ?_⟩)⟩
  simpa using ⟨hCI, hop⟩

end

/-! ## One call and two -/

/-- `main() { g(f); }` and `g(x) { x(); }`: the functions `0` and `1`, the call `2` in
    `1`, the function `3` with the formal `4` and the call `5`. -/
def callsBack : Program :=
  { Program.ofTable [(.function, []), (.function, []), (.instruction .call, [0, 3]),
      (.function, []), (.argument, []), (.instruction .call, [4])] (by decide) with
    args := fun F => if F = 3 then [4] else []
    insts := fun F => if F = 1 then [2] else if F = 3 then [5] else []
    getFunction := fun v => if v = 2 then 1 else 3
    isDeclaration := fun _ => false }

/-- The call graph of `callsBack`. -/
def callsBackCtx : GlobalContext where
  Callees CAI := if CAI = 2 then [3] else []
  Callers F := if F = 3 then [2] else []

/-- `main() { g1(f); }`, `g1(x1) { g2(x1, f); }` and `g2(x2, y2) { x2(); }`: the functions `0`
    and `1`, the call `2` in `1`, the function `3` with the formal `4` and the call `5`,
    the function `6` with the formals `7` and `8` and the call `9`. -/
def passesTwice : Program :=
  { Program.ofTable [(.function, []), (.function, []), (.instruction .call, [0, 3]),
      (.function, []), (.argument, []), (.instruction .call, [4, 0, 6]),
      (.function, []), (.argument, []), (.argument, []), (.instruction .call, [7])] (by decide) with
    args := fun F => if F = 3 then [4] else if F = 6 then [7, 8] else []
    insts := fun F => if F = 1 then [2] else if F = 3 then [5] else if F = 6 then [9] else []
    getFunction := fun v => if v = 2 then 1 else if v = 4 ∨ v = 5 then 3 else 6
    isDeclaration := fun _ => false }

/-- The call graph of `passesTwice`. -/
def passesTwiceCtx : GlobalContext where
  Callees CAI := if CAI = 2 then [3] else if CAI = 5 then [6] else []
  Callers F := if F = 3 then [2] else if F = 6 then [5] else []

/-- The call `9` is reported for `0`, which both calls on the way are passed. -/
theorem mem_callset_passesTwice :
    ∃ s, HandleFunc .empty passesTwice passesTwiceCtx 6 0 = some s ∧ 9 ∈ s.callset 0 := by
  have hends : (HandleFunc .empty passesTwice passesTwiceCtx 6 0).isSome = true := by decide
  have hrun : ∀ s, HandleFunc .empty passesTwice passesTwiceCtx 6 0 = some s →
      s.ctx.Is_Analyze_Success = true ∧ SafeRun .empty passesTwice.kind s.ctx.trace {} := by decide
  obtain ⟨s, hs⟩ := Option.isSome_iff_exists.1 hends
  obtain ⟨hsucc, hsafe⟩ := hrun s hs
  have hpair₁ : (0, 4) ∈ (passesTwice.callArgs 2).zip (passesTwice.args 3) := by decide
  have hpair₂ : (4, 7) ∈ (passesTwice.callArgs 5).zip (passesTwice.args 6) := by decide
  have hfirst : PassedAlong passesTwice passesTwiceCtx
      (fun cai _ => passesTwice.UsedThrough (followFuncUse passesTwice) 0 cai) 0 4 :=
    .first (.user (by decide)) (by decide) (by decide) hpair₁
  have hsecond : PassedAlong passesTwice passesTwiceCtx
      (fun cai _ => passesTwice.UsedThrough (followFuncUse passesTwice) 0 cai) 0 7 :=
    .next hfirst (.user (by decide)) (by decide) (by decide) hpair₂
  have hop : passesTwice.getCalledOperand 9 = some 7 := by decide
  exact ⟨s, hs, mem_callset_of_passedAlong hs hsucc (fun _ => rfl) hsafe hsecond (by decide) hop⟩

/-- `main() { g1(f); }`, `g1(x1) { g2(x1); }` and `g2(x2) { x2(); }`: the functions `0`
    and `1`, the call `2` in `1`, the function `3` with the formal `4` and the call
    `5`, the function `6` with the formal `7` and the call `8`. -/
def callsBackTwice : Program :=
  { Program.ofTable [(.function, []), (.function, []), (.instruction .call, [0, 3]),
      (.function, []), (.argument, []), (.instruction .call, [4, 6]),
      (.function, []), (.argument, []), (.instruction .call, [7])] (by decide) with
    args := fun F => if F = 3 then [4] else if F = 6 then [7] else []
    insts := fun F => if F = 1 then [2] else if F = 3 then [5] else if F = 6 then [8] else []
    getFunction := fun v => if v = 2 then 1 else if v = 4 ∨ v = 5 then 3 else 6
    isDeclaration := fun _ => false }

/-- The call graph of `callsBackTwice`. -/
def callsBackTwiceCtx : GlobalContext where
  Callees CAI := if CAI = 2 then [3] else if CAI = 5 then [6] else []
  Callers F := if F = 3 then [2] else if F = 6 then [5] else []

/-- The call `8` is not reported for `0`: the formal `4` counts as analysed. -/
theorem second_call_missed :
    ¬ ∀ (tg : TBAAGraph) (P : Program) (Ctx : GlobalContext) (fuel : ℕ) (F x CI : Value)
      (s : LoopState tg P), (∀ I, P.tbaa I = none) → P.kind F = .function →
      PassedAlong P Ctx (fun cai g => P.getCalledOperand cai = some g) F x →
      P.kind CI = .instruction .call → P.getCalledOperand CI = some x →
      HandleFunc tg P Ctx fuel F = some s → s.ctx.Is_Analyze_Success = true →
      CI ∈ s.callset F := by
  intro h
  have hrun : ∀ s, HandleFunc .empty callsBackTwice callsBackTwiceCtx 5 0 = some s →
      s.ctx.Is_Analyze_Success = true ∧ 8 ∉ s.callset 0 := by decide
  have hends : (HandleFunc .empty callsBackTwice callsBackTwiceCtx 5 0).isSome = true := by decide
  obtain ⟨s, hs⟩ := Option.isSome_iff_exists.1 hends
  obtain ⟨hsucc, hout⟩ := hrun s hs
  have hpair₁ : (0, 4) ∈ (callsBackTwice.callArgs 2).zip (callsBackTwice.args 3) := by decide
  have hpair₂ : (4, 7) ∈ (callsBackTwice.callArgs 5).zip (callsBackTwice.args 6) := by decide
  have hfirst : PassedAlong callsBackTwice callsBackTwiceCtx
      (fun cai g => callsBackTwice.getCalledOperand cai = some g) 0 4 :=
    .first (by decide) (by decide) (by decide) hpair₁
  have hsecond : PassedAlong callsBackTwice callsBackTwiceCtx
      (fun cai g => callsBackTwice.getCalledOperand cai = some g) 0 7 :=
    .next hfirst (by decide) (by decide) (by decide) hpair₂
  exact hout (h .empty callsBackTwice callsBackTwiceCtx 5 0 7 8 s (fun _ => rfl) (by decide)
    hsecond (by decide) (by decide) hs hsucc)

end TFA
