/-
  Reasons for failed analyses.

  Most places that let an analysis fail record a reason; in `HandleFunc` three do not, all of
  them for a list of values that is too long.

  * `Sound`: an analysis that has failed has a reason, and one that has not has a list that
    is not too long.  `interCaseHandler` keeps it (`keeps_interCaseHandler`), so a
    list that is short at the start of the loop is found too long in the handler only;
  * `gathered`: the values that `HandleFunc` starts its loop with;
  * `reasonsGiven_iff`: all failures have reasons, which are recorded, exactly if the lists
    of the functions are short at the start.
-/
import TFA.Alias.HandleFunc

namespace TFA

open Loop FuncAlias InterState LoopState

variable {tg : TBAAGraph} {P : Program} {Ctx : GlobalContext}

/-- An analysis that has failed has a reason. -/
def AliasContext.HasReason (ctx : AliasContext tg P) : Prop :=
  ctx.Is_Analyze_Success = false → ctx.failreason ≠ .none

/-! ## In the handler -/

namespace InterState

def HasReason (s : InterState tg P) : Prop := s.ctx.HasReason

/-- A failure has a reason, and the list is not too long unless there is one. -/
structure Sound (s : InterState tg P) : Prop where
  reason : s.HasReason
  short : s.ctx.Is_Analyze_Success = true → s.exceeds = false

section
variable {s : InterState tg P} {r : AliasFailureReasons} {v cai f F U : Value}

@[simp] theorem hasReason_calls {cs : List AliasCall} : (s.calls cs).HasReason ↔ s.HasReason :=
  Iff.rfl

@[simp] theorem hasReason_mark {vs : Finset Value} : (s.mark vs).HasReason ↔ s.HasReason := Iff.rfl

@[simp] theorem hasReason_push {vs : List Value} : (s.push vs).HasReason ↔ s.HasReason := Iff.rfl

@[simp] theorem hasReason_analyzeFunction : (s.analyzeFunction Ctx F).HasReason ↔ s.HasReason := by
  unfold HasReason InterState.analyzeFunction AliasContext.analyzeFunction
  split <;> exact Iff.rfl

theorem sound_fail (hr : r ≠ .none) : (s.fail (some r)).Sound where
  reason _ := hr
  short h := by cases h

/-- The cluster is queued, and the list is not too long then unless this has a reason. -/
theorem sound_update (h : s.HasReason) (v : Value) : (s.update (some .exceed_max) v).Sound := by
  unfold InterState.update
  dsimp only
  split
  case isTrue => exact sound_fail (by decide)
  case isFalse hshort =>
    exact ⟨h, fun _ => by simpa using hshort⟩

theorem Sound.mark (h : s.Sound) (vs : Finset Value) : (s.mark vs).Sound := ⟨h.reason, h.short⟩

variable (Ctx v cai) in
theorem keeps_extendCallee (f : Value) (s : InterState tg P) :
    Keeps Sound s (extendCallee Ctx (some .exceed_max) v cai f s).1 := by
  intro h
  exact sound_update (by simpa using h.reason) v

variable (Ctx v cai) in
theorem keeps_extendCall (s : InterState tg P) :
    Keeps Sound s (s.extendCall Ctx (some .exceed_max) v cai) :=
  forBreak_rel (fun f _ s => keeps_extendCallee Ctx v cai f s) s

variable (Ctx v) in
theorem keeps_handleUse (U : Value) (s : InterState tg P) :
    Keeps Sound s (final (handleUse Ctx v U s)) := by
  intro h
  unfold handleUse
  split
  · exact sound_fail (by decide)
  · split
    · exact h
    · split
      · exact sound_fail (by decide)
      · exact (keeps_extendCall Ctx v U s h).mark _

variable (Ctx v) in
theorem hasReason_handleGlobalUse (U : Value) (s : InterState tg P) :
    Keeps HasReason s (handleGlobalUse Ctx v U s).1 := by
  intro h
  unfold handleGlobalUse
  split
  · exact (sound_update (by simpa using h) v).reason
  · exact h
  · exact h

theorem hasReason_analyzeGlobalInitializer (GV : Value) (h : s.HasReason) :
    (analyzeGlobalInitializer GV s).HasReason := by
  unfold analyzeGlobalInitializer
  split <;> simpa using h

theorem keeps_handleGlobal (GV Global_GV : Value) (s : InterState tg P) :
    Keeps Sound s (handleGlobal Ctx GV Global_GV s).1 := by
  intro h
  unfold handleGlobal
  split
  · exact h
  · have hini := hasReason_analyzeGlobalInitializer Global_GV
      (hasReason_calls.2 h.reason :
        (s.calls (if Global_GV ≠ GV then [.move Global_GV GV] else [])).HasReason)
    have huses := forBreak_rel (r := Keeps HasReason)
      (fun U (_ : U ∈ P.throughUsers (followGlobalUse P) Global_GV) s =>
        hasReason_handleGlobalUse Ctx GV U s) _ hini
    have hupd := sound_update huses GV
    dsimp only
    generalize InterState.update _ _ GV = s₂ at hupd ⊢
    split
    · exact hupd
    · exact hupd.mark _

theorem keeps_kindCase (s : InterState tg P) : Keeps Sound s (kindCase Ctx v s) := by
  intro h
  unfold kindCase
  split
  · unfold globalCase
    split
    · exact h
    · split
      · exact sound_fail (by decide)
      · split
        · exact sound_fail (by decide)
        · exact forBreak_rel (fun G _ s => keeps_handleGlobal v G s) s h
  · unfold callCase
    split
    · exact sound_fail (by decide)
    · split
      · exact h
      · split
        · exact sound_fail (by decide)
        · exact keeps_extendCall Ctx v v s h
  · refine forBreak_rel (r := Keeps Sound) (fun cai _ s h => ?_) s h
    exact sound_update (by simpa using h.reason) v
  · refine forBreak_rel (r := Keeps Sound) (fun cai _ s h => ?_) s h
    exact sound_update (by simpa using h.reason) v
  · exact h

variable (Ctx v) in
/-- **The handler.** -/
theorem keeps_interCaseHandler (s : InterState tg P) :
    Keeps Sound s (interCaseHandler Ctx v s) := by
  intro h
  unfold interCaseHandler
  split
  · exact h
  · split
    · exact sound_fail (by decide)
    · have huses := forReturn_rel (r := Keeps Sound)
        (fun U (_ : U ∈ P.throughUsers (followUse P v) v) s =>
          keeps_handleUse Ctx v U s) s h
      split
      case h_1 s₁ heq =>
        rw [heq] at huses
        exact huses
      case h_2 s₁ heq =>
        rw [heq] at huses
        exact keeps_kindCase s₁ huses

end

end InterState

/-! ## In the loops -/

section
variable {s s' : LoopState tg P} {cai : Value}

/-- A round with a reason for a list that is too long. -/
theorem keeps_loopStep (h : loopStep Ctx (some .exceed_max) s = some s') :
    Keeps (fun s => s.ctx.HasReason) s s' := by
  intro hs
  unfold loopStep at h
  split at h
  case h_1 CV rest _ _ =>
    split at h
    · cases h
      exact hs
    · dsimp only at h
      split at h
      · cases h
        exact hs
      case isFalse hsucc =>
        split at h
        · cases h
          exact (sound_fail (s := ⟨s.ctx, rest, ∅⟩) (by decide)).reason
        case isFalse hshort =>
          cases h
          refine (keeps_interCaseHandler Ctx CV ⟨s.ctx, rest, _⟩ ⟨hs, fun _ => ?_⟩).reason
          simpa [exceeds] using hshort
  case h_2 => cases h

/-- The state of the loop, as the handler sees it. -/
def LoopState.Sound (s : LoopState tg P) : Prop :=
  InterState.Sound ⟨s.ctx, s.AnalysisList, s.AnalyzedList⟩

/-- A round without such a reason does not need one. -/
theorem keeps_loopStep_none (h : loopStep Ctx none s = some s') : Keeps LoopState.Sound s s' := by
  intro hs
  unfold loopStep at h
  split at h
  case h_1 CV rest _ hlist =>
    have hrest : s.ctx.Is_Analyze_Success = true → ¬ MAX_ANALYSIS_NUM < rest.length := by
      intro hsucc
      have hshort := hs.short hsucc
      simp only [exceeds, hlist, List.length_cons, decide_eq_false_iff_not] at hshort
      omega
    have hs' : InterState.Sound ⟨s.ctx, rest, insert CV s.AnalyzedList⟩ :=
      ⟨hs.reason, fun hsucc => by simpa [exceeds] using hrest hsucc⟩
    split at h
    · cases h
      exact ⟨hs.reason, hs'.short⟩
    · dsimp only at h
      split at h
      · cases h
        exact hs'
      case isFalse hsucc =>
        rw [if_neg (hrest (by simpa using hsucc))] at h
        cases h
        have hkeeps := keeps_interCaseHandler Ctx CV _ hs'
        exact ⟨hkeeps.reason, hkeeps.short⟩
  case h_2 => cases h

/-- **Indirect calls.**  A failure has a reason. -/
theorem hasReason_HandleICall {fuel : ℕ} (h : HandleICall tg P Ctx fuel cai = some s) :
    s.ctx.HasReason := by
  have hstart : (HandleICallStart tg P Ctx cai).ctx.HasReason := fun hfail => by cases hfail
  have hkeeps : Keeps (fun s => s.ctx.HasReason) (HandleICallStart tg P Ctx cai) s :=
    reaches_rel (fun _ _ hstep => keeps_loopStep hstep) (runs_spec h).1
  exact hkeeps hstart

end

/-! ## The uses of a function -/

variable (tg P Ctx) in
/-- The values that `HandleFunc` starts its loop with. -/
def gathered (F : Value) : List Value :=
  (HandleFuncUses tg P Ctx F).LV ++
    (inOrder ((HandleFuncUses tg P Ctx F).ctx.graph.getClusterValues F ∅)).filter (· ≠ F)

/-- No failure has a reason, and none happens while the list is short. -/
structure InterState.Gathering (s : InterState tg P) : Prop where
  reason : s.ctx.failreason = .none
  exceeds : s.ctx.Is_Analyze_Success = false → s.exceeds = true

section
variable {s : InterState tg P} {F : Value}

theorem InterState.Gathering.push (h : s.Gathering) (vs : List Value) : (s.push vs).Gathering where
  reason := h.reason
  exceeds hfail := by
    have hexc := h.exceeds hfail
    simp only [InterState.exceeds, InterState.push, List.length_append, decide_eq_true_eq] at hexc ⊢
    omega

theorem InterState.Gathering.update (h : s.Gathering) (v : Value) :
    (s.update none v).Gathering := by
  have hpush : (s.pushTargets v).Gathering := h.push _
  unfold InterState.update
  dsimp only
  split
  case isTrue hexc => exact ⟨hpush.reason, fun _ => hexc⟩
  case isFalse => exact hpush

variable (Ctx) in
theorem InterState.Gathering.analyzeFunction (h : s.Gathering) (F : Value) :
    (s.analyzeFunction Ctx F).Gathering := by
  unfold InterState.analyzeFunction AliasContext.analyzeFunction
  split <;> exact ⟨h.reason, h.exceeds⟩

theorem keeps_handleFuncUse (U : Value) (s : InterState tg P) :
    Keeps Gathering s (handleFuncUse Ctx s U) := by
  intro h
  unfold handleFuncUse
  split
  · refine forBreak_rel (r := Keeps Gathering) (fun f _ s h => ?_) _ (h.analyzeFunction Ctx _)
    have hcalls : (s.calls (P.HandleReturn f U)).Gathering := ⟨h.reason, h.exceeds⟩
    have hbody := hcalls.analyzeFunction Ctx f
    have hmoves : ((((s.calls (P.HandleReturn f U)).analyzeFunction Ctx f).mark
        (P.args f).toFinset).calls (P.argMoves U f)).Gathering := ⟨hbody.reason, hbody.exceeds⟩
    exact hmoves.update U
  · exact h.analyzeFunction Ctx _
  · exact h.push _
  · exact h

variable (tg P Ctx) in
theorem gathering_HandleFuncUses (F : Value) : (HandleFuncUses tg P Ctx F).Gathering :=
  foldl_rel (r := Keeps Gathering) (fun U _ s => keeps_handleFuncUse U s) _
    ⟨rfl, fun hfail => by cases hfail⟩

variable (tg P Ctx) in
/-- The start of the loop. -/
theorem HandleFuncStart_eq (F : Value) : HandleFuncStart tg P Ctx F =
    if MAX_ANALYSIS_NUM < (gathered tg P Ctx F).length then
      { ctx := (HandleFuncUses tg P Ctx F).ctx.fail none, AnalysisList := gathered tg P Ctx F,
        AnalyzedList := (HandleFuncUses tg P Ctx F).Analyzed_Set, stopped := true }
    else
      { ctx := (HandleFuncUses tg P Ctx F).ctx, AnalysisList := gathered tg P Ctx F,
        AnalyzedList := (HandleFuncUses tg P Ctx F).Analyzed_Set } := by
  unfold HandleFuncStart
  dsimp only
  simp only [exceeds, decide_eq_true_eq]
  rfl

/-- **Functions.**  A failure has a reason if the list is short at the start, and only then. -/
theorem hasReason_HandleFunc_iff :
    (∀ fuel s, HandleFunc tg P Ctx fuel F = some s → s.ctx.HasReason) ↔
      (gathered tg P Ctx F).length ≤ MAX_ANALYSIS_NUM := by
  have hgather := gathering_HandleFuncUses tg P Ctx F
  constructor
  · intro h
    by_contra hlong
    -- the loop is not entered
    have hstart := HandleFuncStart_eq tg P Ctx F
    rw [if_pos (by omega)] at hstart
    have hrun : HandleFunc tg P Ctx 1 F = some (HandleFuncStart tg P Ctx F) := by
      rw [HandleFunc, hstart]
      rfl
    have hreason := h 1 _ hrun (by rw [hstart]; rfl)
    rw [hstart] at hreason
    exact hreason hgather.reason
  · intro hshort fuel s hrun
    have hsound : (HandleFuncStart tg P Ctx F).Sound := by
      rw [HandleFuncStart_eq, if_neg (by omega)]
      refine ⟨fun hfail => ?_, fun _ => by simpa [exceeds] using hshort⟩
      have hpush := (hgather.push ((inOrder ((HandleFuncUses tg P Ctx F).ctx.graph.getClusterValues
        F ∅)).filter (· ≠ F))).exceeds hfail
      simp only [exceeds, decide_eq_true_eq] at hpush
      exact absurd hshort (not_le.2 hpush)
    have hkeeps : Keeps LoopState.Sound (HandleFuncStart tg P Ctx F) s :=
      reaches_rel (fun _ _ hstep => keeps_loopStep_none hstep) (runs_spec hrun).1
    exact (hkeeps hsound).reason

end

/-! ## What is recorded -/

/-- The records of `ICallAliasAnalysis`. -/
structure ICallRecords where
  failure_reasons : AliasFailureReasons → ℕ := fun _ => 0
  Global_ICall_Alias_Result_Map : Value → AliasFailureReasons := fun _ => .none

/-- `ICallAliasAnalysis`, for an indirect call that `HandleICall` has analysed. -/
def recordICall (result : Value → LoopState tg P) (records : ICallRecords) (cai : Value) :
    ICallRecords :=
  if (result cai).ctx.Is_Analyze_Success = false then
    { failure_reasons := Function.update records.failure_reasons (result cai).ctx.failreason
        (records.failure_reasons (result cai).ctx.failreason + 1)
      Global_ICall_Alias_Result_Map :=
        Function.update records.Global_ICall_Alias_Result_Map cai (result cai).ctx.failreason }
  else records

variable (tg P) in
/-- All failures have reasons: those of the functions in one context and of the indirect calls
    in another one, and what both passes record. -/
structure ReasonsGiven (Ctx Ctx' : GlobalContext) (funcs icalls : List Value) : Prop where
  func : ∀ F ∈ funcs, ∀ fuel s, HandleFunc tg P Ctx fuel F = some s → s.ctx.HasReason
  icall : ∀ cai ∈ icalls, ∀ fuel s, HandleICall tg P Ctx' fuel cai = some s → s.ctx.HasReason
  funcRecords : ∀ verdict : Value → Verdict,
    (∀ F, Analysed P Ctx verdict funcs F →
      ∃ fuel s, HandleFunc tg P Ctx fuel F = some s ∧ verdict F = s.verdict F) →
    (analyseTargets P Ctx verdict funcs).failure_reasons .none = 0 ∧
      ∀ F, Analysed P Ctx verdict funcs F → (verdict F).Is_Analyze_Success = false →
        (analyseTargets P Ctx verdict funcs).Global_Func_Alias_Result_Map F ≠ .none
  icallRecords : ∀ result : Value → LoopState tg P,
    (∀ cai ∈ icalls, ∃ fuel, HandleICall tg P Ctx' fuel cai = some (result cai)) →
    (icalls.foldl (recordICall result) {}).failure_reasons .none = 0 ∧
      ∀ cai ∈ icalls, (result cai).ctx.Is_Analyze_Success = false →
        (icalls.foldl (recordICall result) {}).Global_ICall_Alias_Result_Map cai ≠ .none

section
variable {funcs icalls : List Value} {verdict : Value → Verdict}
  {result : Value → LoopState tg P}

/-- The records of the functions, after some rounds. -/
theorem funcRecords_of_reasons (h : ∀ F, Analysed P Ctx verdict funcs F →
      (verdict F).Is_Analyze_Success = false → (verdict F).failreason ≠ .none) :
    (analyseTargets P Ctx verdict funcs).failure_reasons .none = 0 ∧
      ∀ F, Analysed P Ctx verdict funcs F → (verdict F).Is_Analyze_Success = false →
        (analyseTargets P Ctx verdict funcs).Global_Func_Alias_Result_Map F ≠ .none := by
  induction funcs using List.reverseRecOn with
  | nil => exact ⟨rfl, fun F hF => absurd hF.mem (by simp)⟩
  | append_singleton funcs F ih =>
    obtain ⟨hcount, hmap⟩ := ih fun F hF => h F (analysed_append.2 (Or.inl hF))
    rw [analyseTargets_append]
    unfold analyseTarget
    split
    case isFalse hskip =>
      refine ⟨hcount, fun F' hF' hfail => ?_⟩
      rcases analysed_append.1 hF' with hF' | ⟨-, hrun⟩
      · by_cases heq : F' = F
        · simp [heq]
        · simpa [heq] using hmap F' hF' hfail
      · exact absurd hrun hskip
    case isTrue hrun =>
      dsimp only
      split
      case isTrue hfail =>
        have hreason := h F (analysed_append.2 (Or.inr ⟨rfl, hrun⟩)) hfail
        refine ⟨by simpa [Function.update_of_ne hreason.symm] using hcount, fun F' hF' hfail' => ?_⟩
        by_cases heq : F' = F
        · simpa [heq] using hreason
        · have hF'' := (analysed_append.1 hF').resolve_right fun h => heq h.1
          simpa [heq] using hmap F' hF'' hfail'
      case isFalse hsucc =>
        refine ⟨hcount, fun F' hF' hfail' => ?_⟩
        by_cases heq : F' = F
        · simp [heq]
        · have hF'' := (analysed_append.1 hF').resolve_right fun h => heq h.1
          simpa [heq] using hmap F' hF'' hfail'

/-- The records of the indirect calls, after some rounds. -/
theorem icallRecords_of_reasons (h : ∀ cai ∈ icalls, (result cai).ctx.HasReason) :
    (icalls.foldl (recordICall result) {}).failure_reasons .none = 0 ∧
      ∀ cai ∈ icalls, (result cai).ctx.Is_Analyze_Success = false →
        (icalls.foldl (recordICall result) {}).Global_ICall_Alias_Result_Map cai ≠ .none := by
  induction icalls using List.reverseRecOn with
  | nil => exact ⟨rfl, by simp⟩
  | append_singleton icalls cai ih =>
    obtain ⟨hcount, hmap⟩ := ih fun cai hcai => h cai (by simp [hcai])
    rw [List.foldl_concat]
    generalize icalls.foldl (recordICall result) {} = records at hcount hmap ⊢
    unfold recordICall
    split
    case isTrue hfail =>
      have hreason := h cai (by simp) hfail
      refine ⟨by simpa [Function.update_of_ne hreason.symm] using hcount,
        fun cai' hcai' hfail' => ?_⟩
      by_cases heq : cai' = cai
      · simpa [heq] using hreason
      · simpa [heq] using hmap cai' (by simpa [heq] using hcai') hfail'
    case isFalse hsucc =>
      refine ⟨hcount, fun cai' hcai' hfail' => ?_⟩
      rcases List.mem_append.1 hcai' with hcai' | hcai'
      · exact hmap cai' hcai' hfail'
      · rw [List.mem_singleton.1 hcai'] at hfail'
        exact absurd hfail' hsucc

/-- **Reasons.**  All failures have reasons exactly if the lists of the functions are not too
    long at the start of their loops. -/
theorem reasonsGiven_iff (tg : TBAAGraph) (P : Program) (Ctx Ctx' : GlobalContext)
    (funcs icalls : List Value) : ReasonsGiven tg P Ctx Ctx' funcs icalls ↔
      ∀ F ∈ funcs, (gathered tg P Ctx F).length ≤ MAX_ANALYSIS_NUM := by
  constructor
  · intro h F hF
    exact hasReason_HandleFunc_iff.1 (h.func F hF)
  · intro h
    have hfunc : ∀ F ∈ funcs, ∀ fuel s, HandleFunc tg P Ctx fuel F = some s → s.ctx.HasReason :=
      fun F hF => hasReason_HandleFunc_iff.2 (h F hF)
    refine ⟨hfunc, fun _ _ _ _ hrun => hasReason_HandleICall hrun, fun verdict hverdict => ?_,
      fun result hresult => icallRecords_of_reasons fun cai hcai => ?_⟩
    · refine funcRecords_of_reasons fun F hF hfail => ?_
      obtain ⟨fuel, s, hrun, heq⟩ := hverdict F hF
      rw [heq] at hfail ⊢
      exact hfunc F hF.mem fuel s hrun hfail
    · obtain ⟨fuel, hrun⟩ := hresult cai hcai
      exact hasReason_HandleICall hrun

end

/-! ## A function in many global variables -/

/-- The function `0` is the initializer of the global variables `1` to `n`. -/
def inGlobals (n : ℕ) : Program where
  values := Finset.range (n + 1)
  kind v := if v = 0 then .function else .globalVariable
  operands v := if v ∈ List.range' 1 n then [0] else []
  users v := if v = 0 then List.range' 1 n else []
  mem_users v u := by
    by_cases hv : v = 0 <;> by_cases hu : u ∈ List.range' 1 n <;> simp [hv, hu]
  mem_values v u hv := by
    by_cases hu : u ∈ List.range' 1 n
    · rw [if_pos hu, List.mem_singleton] at hv
      rw [List.mem_range'_1] at hu
      simp only [Finset.mem_range, hv]
      omega
    · simp [hu] at hv
  getName _ := ""
  getGUID := id
  getFunction := id
  args _ := []
  insts _ := []
  rank := id
  rank_lt v o _ hop := by
    by_cases hv : v = 0 <;> simp [hv, ValueKind.isOperator] at hop

/-- Global variables among the uses are queued. -/
theorem LV_handleFuncUse_globals {l : List Value} (hl : ∀ U ∈ l, P.kind U = .globalVariable)
    (s : InterState tg P) : (l.foldl (handleFuncUse Ctx) s).LV = s.LV ++ l := by
  induction l generalizing s with
  | nil => simp
  | cons U l ih =>
    have hround : handleFuncUse Ctx s U = s.push [U] := by
      unfold handleFuncUse
      rw [hl U (by simp)]
    rw [List.foldl_cons, hround, ih fun V hV => hl V (by simp [hV])]
    simp [InterState.push]

theorem length_gathered_inGlobals (n : ℕ) : n ≤ (gathered .empty (inGlobals n) {} 0).length := by
  have huses : ∀ U ∈ (inGlobals n).throughUsers (followFuncUse (inGlobals n)) 0,
      (inGlobals n).kind U = .globalVariable := by
    intro U hU
    have hused := Program.mem_throughUsers.1 hU
    clear hU
    induction hused with
    | @user U hU =>
      have hU : U ∈ List.range' 1 n := hU
      rw [List.mem_range'_1] at hU
      simp only [inGlobals]
      rw [if_neg (Nat.ne_of_gt hU.1)]
    | follow _ hfollow _ ih =>
      unfold followFuncUse at hfollow
      rw [ih] at hfollow
      simp [Program.isOperator, ih, ValueKind.isOperator] at hfollow
  have hmem : ∀ U ∈ List.range' 1 n,
      U ∈ (inGlobals n).throughUsers (followFuncUse (inGlobals n)) 0 :=
    fun U hU => Program.mem_throughUsers.2 (.user hU)
  have hcard : n ≤ ((inGlobals n).throughUsers (followFuncUse (inGlobals n)) 0).length := by
    have hsubset : (List.range' 1 n).toFinset ⊆
        ((inGlobals n).throughUsers (followFuncUse (inGlobals n)) 0).toFinset := by
      intro U hU
      exact List.mem_toFinset.2 (hmem U (List.mem_toFinset.1 hU))
    calc n = (List.range' 1 n).toFinset.card := by
          rw [List.toFinset_card_of_nodup (List.nodup_range' 1), List.length_range']
      _ ≤ _ := (Finset.card_le_card hsubset).trans (List.toFinset_card_le _)
  rw [gathered, HandleFuncUses, LV_handleFuncUse_globals huses]
  simp only [List.length_append]
  omega

/-- With 501 such variables the analysis fails without a reason. -/
theorem failure_without_reason :
    ¬ ∀ (tg : TBAAGraph) (P : Program) (Ctx Ctx' : GlobalContext) (funcs icalls : List Value),
      ReasonsGiven tg P Ctx Ctx' funcs icalls := by
  intro h
  have hreasons := h .empty (inGlobals 501) {} {} [0] []
  have hshort := hasReason_HandleFunc_iff.1 (hreasons.func 0 (by simp))
  have hlong := length_gathered_inGlobals 501
  unfold MAX_ANALYSIS_NUM at hshort
  omega

end TFA
