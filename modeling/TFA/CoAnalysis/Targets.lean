/-
  What happens to the targets of an indirect call during the co-analysis.

  * `LostBy`: the reason for which an action takes a target away from a call;
    `not_mem_perform_iff` and `mem_perform_iff` for one action;
  * `target_changes`: in every run, a target that is there first and not in the end is taken
    away by one of its actions for its reason, and one that is new in the end is set by
    one;
  * `UnderCallees`: the targets of a call are among its callees, and only the indirect
    calls that the pass has analysed ever have targets or get other callees
    (`underCallees_main`).
-/
import TFA.CoAnalysis.Rounds

namespace TFA

open Actions DoWhile FuncAlias

namespace CallProgram

section
variable {tg : TBAAGraph} (P : CallProgram)

/-! ## Reasons -/

/-- The action takes the target `f` away from the call: `HandleFunc` has succeeded on it and
    on all functions of its GUID, and no function that resolves to `f` has been found at the
    call; or `HandleICall` has succeeded on the call without it; or the targets are set
    anew, and `f` is none of them. -/
def LostBy (s : CoState) : Action tg P → Value → Func → Prop
  | .funcAlias TargetVec verdict, CI, f =>
    Analysed P.toProgram (P.coContext s) verdict TargetVec f ∧
      (verdict f).Is_Analyze_Success = true ∧
      (∀ F, Analysed P.toProgram (P.coContext s) verdict TargetVec F →
        P.getGUID F = P.getGUID f → (verdict F).Is_Analyze_Success = true) ∧
      ¬ FoundAt P.toProgram (P.coContext s) verdict TargetVec CI f
  | .icallAlias cai r, CI, f =>
    CI = cai ∧ skipped s cai = false ∧ r.ctx.Is_Analyze_Success = true ∧
      ∀ V, P.getCalledOperand cai = some V → some f ∈ r.fset (P.coContext s) V →
        tbaaCompatibleForICall tg r.ctx.graph (r.ctx.graph.getNode V) (r.ctx.graph.getNode f) =
          false
  | a, CI, f => P.Sets s a CI ∧ ¬ P.NewTarget s a CI f

end

section
variable {tg : TBAAGraph} {P : CallProgram} {s : CoState} {a : Action tg P} {CI : Value}
  {f : Func}

theorem not_mem_updateTargets_iff {P : Program} {Ctx : GlobalContext} {verdict : Value → Verdict}
    {TargetVec : List Value} {targets : Finset Value} (hf : f ∈ targets) :
    f ∉ updateTargets P (analyseTargets P Ctx verdict TargetVec) CI targets ↔
      Analysed P Ctx verdict TargetVec f ∧ (verdict f).Is_Analyze_Success = true ∧
      (∀ F, Analysed P Ctx verdict TargetVec F → P.getGUID F = P.getGUID f →
        (verdict F).Is_Analyze_Success = true) ∧ ¬ FoundAt P Ctx verdict TargetVec CI f := by
  have hs := summarisedBy_analyseTargets P Ctx verdict TargetVec
  rw [updateTargets, Finset.mem_sdiff, Finset.mem_filter, hs.succeed, hs.influence, hs.failed]
  simp only [hf, true_and, not_not, and_assoc]
  have hfailed : (¬ ∃ F, Analysed P Ctx verdict TargetVec F ∧
      (verdict F).Is_Analyze_Success = false ∧ P.getGUID F = P.getGUID f) ↔
      ∀ F, Analysed P Ctx verdict TargetVec F → P.getGUID F = P.getGUID f →
        (verdict F).Is_Analyze_Success = true := by
    push Not
    refine forall_congr' fun F => imp_congr_right fun _ => ?_
    cases (verdict F).Is_Analyze_Success <;> simp
  rw [hfailed]

/-- A walk that does not set the targets of a call keeps them. -/
theorem ICallees_oneLayer {CI' : Value} (h : ¬ P.Sets s (.oneLayer CI' : Action tg P) CI) :
    (P.oneLayer CI' s).ICallees CI = s.ICallees CI := by
  unfold oneLayer
  split
  case isFalse => rfl
  case isTrue hrun =>
    obtain ⟨-, ⟨hwalk, FS, -, hicallees, -⟩ | ⟨-, -, hicallees⟩⟩ :=
      P.oneLayerChecker_spec s.toCallGraph CI'
    · have hne : CI ≠ CI' := by
        rintro rfl
        exact h ⟨rfl, hrun.1, hrun.2, hwalk⟩
      dsimp only
      rw [hicallees, Function.update_of_ne hne]
    · exact congrFun hicallees CI

theorem ICallees_rerun {CI' : Value} (h : ¬ P.Sets s (.rerun CI' : Action tg P) CI) :
    (P.rerun CI' s).ICallees CI = s.ICallees CI := by
  unfold rerun
  split
  case isFalse => rfl
  case isTrue hrun =>
    have hne : CI ≠ CI' := by
      rintro rfl
      exact h ⟨rfl, hrun.2, hrun.1⟩
    exact Function.update_of_ne hne _ _

/-- **Losses.** -/
theorem not_mem_perform_iff (hf : f ∈ s.ICallees CI) :
    f ∉ (perform tg P s a).ICallees CI ↔ P.LostBy s a CI f := by
  -- an action other than the alias analyses keeps the targets unless it sets them
  have hset : (∀ CI, ¬ P.Sets s a CI → (perform tg P s a).ICallees CI = s.ICallees CI) →
      (f ∉ (perform tg P s a).ICallees CI ↔ P.Sets s a CI ∧ ¬ P.NewTarget s a CI f) := by
    intro hkeep
    by_cases hsets : P.Sets s a CI
    · obtain ⟨FS, -, hFS, hmem⟩ := targets_perform hsets
      rw [hFS, hmem, and_iff_right hsets]
    · rw [hkeep CI hsets]
      exact iff_of_false (not_not.2 hf) fun h => hsets h.1
  cases a with
  | funcAlias TargetVec verdict => exact not_mem_updateTargets_iff hf
  | icallAlias cai r =>
    show f ∉ (P.icallAlias cai r s).ICallees CI ↔ _
    unfold icallAlias LostBy
    split
    case isTrue hskip =>
      refine iff_of_false (not_not.2 hf) fun h => ?_
      rcases hskip with hskip | hfail
      · rw [h.2.1] at hskip
        cases hskip
      · rw [h.2.2.1] at hfail
        cases hfail
    case isFalse hrun =>
      rw [not_or, Bool.not_eq_true, Bool.not_eq_false] at hrun
      dsimp only
      by_cases hCI : CI = cai
      · subst hCI
        rw [Function.update_self, and_iff_right rfl, and_iff_right hrun.1, and_iff_right hrun.2]
        unfold resultSet
        cases hV : P.getCalledOperand CI with
        | none => simp
        | some V =>
          dsimp only
          rw [Finset.mem_filter, and_iff_right hf, not_and]
          constructor
          · intro hno W hW hfound
            cases hW
            rw [← Bool.not_eq_true]
            exact hno hfound
          · intro hno hfound
            rw [hno V rfl hfound]
            exact Bool.false_ne_true
      · rw [Function.update_of_ne hCI]
        exact iff_of_false (not_not.2 hf) fun h => hCI h.1
  | oneLayer CI' => exact hset fun CI hno => ICallees_oneLayer hno
  | unescape hash =>
    exact hset fun CI _ => congrFun (unescape_calls s.toCallGraph hash).2.2 CI
  | rerun CI' => exact hset fun CI hno => ICallees_rerun hno

/-- **Gains.** -/
theorem mem_perform_iff (hf : f ∉ s.ICallees CI) :
    f ∈ (perform tg P s a).ICallees CI ↔ P.Sets s a CI ∧ P.NewTarget s a CI f := by
  by_cases hsets : P.Sets s a CI
  · obtain ⟨FS, -, hFS, hmem⟩ := targets_perform hsets
    rw [hFS, hmem, and_iff_right hsets]
  · exact iff_of_false (fun h => hf ((targets_perform_of_not_sets hsets).2 h)) fun h => hsets h.1

/-- **Changes.**  A target of a call that is lost in a run of the main loop is taken away by
    an action of the run, for its reason, and one that is gained is among the targets that
    an action of the run sets. -/
theorem target_changes {x y : Phase × CoState} (h : MainLoop (Allowed tg P) x y) (CI : Value)
    (f : Func) :
    (f ∈ x.2.ICallees CI → f ∉ y.2.ICallees CI → ∃ s a,
      Comes (perform tg P) (Allowed tg P) Phase.next (PhaseActions tg P) x s a y ∧
      f ∈ s.ICallees CI ∧ P.LostBy s a CI f) ∧
    (f ∉ x.2.ICallees CI → f ∈ y.2.ICallees CI → ∃ s a,
      Comes (perform tg P) (Allowed tg P) Phase.next (PhaseActions tg P) x s a y ∧
      f ∉ s.ICallees CI ∧ P.Sets s a CI ∧ P.NewTarget s a CI f) := by
  constructor
  · intro hx hy
    obtain ⟨s, a, hcomes, hs, hno⟩ :=
      phases_change (I := fun s : CoState => f ∈ s.ICallees CI) h hx hy
    exact ⟨s, a, hcomes, hs, (not_mem_perform_iff hs).1 hno⟩
  · intro hx hy
    obtain ⟨s, a, hcomes, hs, hno⟩ :=
      phases_change (I := fun s : CoState => f ∉ s.ICallees CI) h hx (not_not.2 hy)
    exact ⟨s, a, hcomes, hs, (mem_perform_iff hs).1 (not_not.1 hno)⟩

end

/-! ## The calls that are looked at -/

/-- `Global_MLTA_Reualt_Map` has an entry for the call. -/
def Entered (g : CallGraph) (CI : Value) : Prop := (g.Global_MLTA_Reualt_Map CI).isSome

/-- The targets of a call are among its callees, and no call has any but those that the pass
    has entered, which are the same as in `g₀`; the others have the callees that they have
    in `g₀`. -/
structure UnderCallees (g₀ g : CallGraph) : Prop where
  targets : ∀ CI, g.ICallees CI ⊆ g.Callees CI
  entered : ∀ CI, Entered g CI ↔ Entered g₀ CI
  empty : ∀ CI, ¬ Entered g₀ CI → g.ICallees CI = ∅
  callees : ∀ CI, ¬ Entered g₀ CI → g.Callees CI = g₀.Callees CI

section
variable {tg : TBAAGraph} {P : CallProgram} {s : CoState} {CI : Value} {g₀ : CallGraph}
  {m : LayerMaps} {Ms : List LLVMModule}

/-- Whatever sets targets is meant for calls with an entry. -/
theorem Sets.entered {a : Action tg P} (h : P.Sets s a CI) : Entered s.toCallGraph CI := by
  cases a with
  | funcAlias TargetVec verdict => exact h.elim
  | icallAlias cai r => exact h.elim
  | unescape hash => exact h.elim
  | oneLayer CI' =>
    obtain ⟨rfl, -, hentry, -⟩ := h
    unfold Entered
    rw [hentry]
    rfl
  | rerun CI' =>
    obtain ⟨rfl, -, hentry⟩ := h
    unfold Entered
    rw [hentry]
    rfl

theorem entered_update {map : Value → Option TypeAnalyzeResult} {CI' : Value}
    {r r' : TypeAnalyzeResult} (h : map CI' = some r) :
    (Function.update map CI' (some r') CI).isSome ↔ (map CI).isSome := by
  by_cases heq : CI = CI'
  · subst heq
    simp [h]
  · rw [Function.update_of_ne heq]

/-- No action adds an entry, or removes one. -/
theorem entered_perform (s : CoState) (a : Action tg P) :
    Entered (perform tg P s a).toCallGraph CI ↔ Entered s.toCallGraph CI := by
  unfold Entered
  cases a with
  | funcAlias TargetVec verdict => exact Iff.rfl
  | icallAlias cai r =>
    show ((P.icallAlias cai r s).Global_MLTA_Reualt_Map CI).isSome ↔ _
    unfold icallAlias
    split <;> exact Iff.rfl
  | oneLayer CI' =>
    show ((P.oneLayer CI' s).Global_MLTA_Reualt_Map CI).isSome ↔ _
    unfold oneLayer
    split
    case isFalse => exact Iff.rfl
    case isTrue hrun =>
      dsimp only
      unfold oneLayerChecker
      split
      case h_2 => exact Iff.rfl
      case h_1 CV hCV =>
        dsimp only
        split
        case isFalse => exact Iff.rfl
        case isTrue =>
          split
          · exact entered_update hrun.2
          · exact entered_update hrun.2
  | unescape hash =>
    show ((P.unescape s.toCallGraph hash).Global_MLTA_Reualt_Map CI).isSome ↔ _
    rcases P.unescape_cases s.toCallGraph hash with h | ⟨m, -, -, h | ⟨-, h⟩⟩ <;> rw [h]
  | rerun CI' =>
    show ((P.rerun CI' s).Global_MLTA_Reualt_Map CI).isSome ↔ _
    unfold rerun
    split
    case isFalse => exact Iff.rfl
    case isTrue hrun => exact entered_update hrun.1

/-- **One action.** -/
theorem UnderCallees.perform (h : UnderCallees g₀ s.toCallGraph) (a : Action tg P) :
    UnderCallees g₀ (perform tg P s a).toCallGraph where
  targets CI := by
    by_cases hsets : P.Sets s a CI
    · obtain ⟨FS, hcallees, hicallees, -⟩ := targets_perform hsets
      rw [hcallees, hicallees]
    · obtain ⟨hcallees, hsub⟩ := targets_perform_of_not_sets hsets
      rw [hcallees]
      exact hsub.trans (h.targets CI)
  entered CI := (entered_perform s a).trans (h.entered CI)
  empty CI hno := by
    have hsets : ¬ P.Sets s a CI := fun hsets => hno ((h.entered CI).1 (Sets.entered hsets))
    have hsub := (targets_perform_of_not_sets hsets).2
    rw [h.empty CI hno] at hsub
    exact Finset.subset_empty.1 hsub
  callees CI hno := by
    have hsets : ¬ P.Sets s a CI := fun hsets => hno ((h.entered CI).1 (Sets.entered hsets))
    rw [(targets_perform_of_not_sets hsets).1, h.callees CI hno]

/-- **The pass.**  Only an indirect call gets targets, with its entry and its callees. -/
theorem underCallees_callGraph (m : LayerMaps) (Ms : List LLVMModule) :
    UnderCallees (P.callGraph m Ms) (P.callGraph m Ms) := by
  have hpass : ∀ CI, (P.callGraph m Ms).ICallees CI ⊆ (P.callGraph m Ms).Callees CI ∧
      (¬ Entered (P.callGraph m Ms) CI ∨ P.isIndirectCall CI = false →
        (P.callGraph m Ms).ICallees CI = ∅) := by
    refine callGraph_induction (I := fun g => ∀ CI, g.ICallees CI ⊆ g.Callees CI ∧
      (¬ Entered g CI ∨ P.isIndirectCall CI = false → g.ICallees CI = ∅)) ?_ ?_
    · intro M _ F _ CI' _ g id hg CI
      rcases P.visitCall_cases F g id CI' with heq | ⟨hind, hseen, heq⟩ | ⟨hdir, -, heq⟩
      · rw [heq]
        exact hg CI
      · rw [heq, visitIndirectCall, if_neg hseen]
        unfold Entered
        dsimp only
        by_cases hCI : CI = CI'
        · subst hCI
          simp only [Function.update_self]
          exact ⟨subset_rfl, fun h => h.elim (fun hno => absurd rfl hno)
            fun hno => absurd hno (by rw [hind]; decide)⟩
        · simp only [Function.update_of_ne hCI]
          exact hg CI
      · rw [heq]
        refine ⟨?_, (hg CI).2⟩
        show g.ICallees CI ⊆ Function.update g.Callees CI' _ CI
        by_cases hCI : CI = CI'
        · subst hCI
          rw [(hg CI).2 (Or.inr hdir)]
          exact Finset.empty_subset _
        · rw [Function.update_of_ne hCI]
          exact (hg CI).1
    · exact fun CI => ⟨Finset.empty_subset _, fun _ => rfl⟩
  exact ⟨fun CI => (hpass CI).1, fun CI => Iff.rfl, fun CI hno => (hpass CI).2 (Or.inl hno),
    fun _ _ => rfl⟩

variable (tg P m Ms) in
/-- **All runs.**  In every state that a phase ends in, and in the last state of the main
    loop, the targets of a call are among its callees, and nothing has changed but at the
    calls that the pass has entered. -/
theorem underCallees_main :
    (∀ p s, MainLoop (Allowed tg P) (.FuncAliasAnalysis, P.coStart m Ms) (p, s) →
      UnderCallees (P.callGraph m Ms) s.toCallGraph) ∧
    ∀ k y, MainRun tg P k (P.mainStart m Ms) y →
      UnderCallees (P.callGraph m Ms) y.toCallGraph := by
  have hphases : ∀ x : Phase × CoState,
      MainLoop (Allowed tg P) (.FuncAliasAnalysis, P.coStart m Ms) x →
      UnderCallees (P.callGraph m Ms) x.2.toCallGraph := fun x h =>
    phases_induction (I := fun s : CoState => UnderCallees (P.callGraph m Ms) s.toCallGraph)
      (fun _ a _ hs => hs.perform a) h (underCallees_callGraph m Ms)
  exact ⟨fun p s h => hphases (p, s) h, fun k y h => hphases _ h.mainLoop⟩

end

/-! ## A target that is lost and brought back -/

/-- `f` is lost at the call of `asmHook` in the first phase, and gained in the last one. -/
theorem target_changes_asmHook :
    (∃ s a, Comes (perform .empty asmHook) (Allowed .empty asmHook) Phase.next
      (PhaseActions .empty asmHook) (.FuncAliasAnalysis, asmStart) s a
      (.ICallAliasAnalysis, asmErased) ∧
      0 ∈ s.ICallees 9 ∧ asmHook.LostBy s a 9 0) ∧
    ∃ s a, Comes (perform .empty asmHook) (Allowed .empty asmHook) Phase.next
      (PhaseActions .empty asmHook) (.oneLayerHandler, asmFailed) s a
      (.FuncAliasAnalysis, asmAgain) ∧
      0 ∉ s.ICallees 9 ∧ asmHook.Sets s a 9 ∧ asmHook.NewTarget s a 9 0 := by
  have hlost : 0 ∈ asmStart.ICallees 9 ∧ 0 ∉ asmErased.ICallees 9 := by decide
  have hgained : 0 ∉ asmFailed.ICallees 9 ∧ 0 ∈ asmAgain.ICallees 9 := by decide
  exact ⟨(target_changes (mainLoop_of_quiet (.single asmErased_phase)) 9 0).1 hlost.1 hlost.2,
    (target_changes asmAgain_phases 9 0).2 hgained.1 hgained.2⟩

/-- The targets of the call of `asmHook` when the loop has ended are callees of it, and no
    other call has any. -/
theorem underCallees_main_asmHook : ∃ k y,
    MainRun .empty asmHook k (asmHook.mainStart {} asmModules) y ∧
      y.ICallees 9 ⊆ y.Callees 9 ∧ y.ICallees 6 = ∅ := by
  obtain ⟨k, y, hrun⟩ := exists_mainRun .empty asmHook {} asmModules holds_asmHook
  have hunder := (underCallees_main .empty asmHook {} asmModules).2 k y hrun
  have hout : ¬ Entered (asmHook.callGraph {} asmModules) 6 := by
    unfold Entered
    decide
  exact ⟨k, y, hrun, hunder.targets 9, hunder.empty 6 hout⟩

end CallProgram

end TFA
