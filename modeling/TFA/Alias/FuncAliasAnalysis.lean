/-
  Function alias analysis (`FuncAliasAnalysis.cc`).

  A first loop hands every address-taken function to `HandleFunc` and records,
  for the functions that the name of a successful one resolves to, the calls it
  was found at.  A second loop erases a successful function from the targets of
  every indirect call that is not recorded for it.

  * `HandleFunc` is a parameter here: it gives a verdict, the calls found, a
    failure reason and names passed to `__symbol_get`.  The first loop runs in
    parallel, so it goes through the functions in any order;
  * `SummarisedBy`: what the first loop has recorded after any number of rounds;
  * `mem_ICallees_iff`: when a target that was found at a call stays its target.
    It need not if its name does not resolve to it.
-/
import TFA.Program

namespace TFA

/-- What `HandleFunc` leaves in its context, and the calls it returns. -/
structure Verdict where
  Is_Analyze_Success : Bool
  failreason : AliasFailureReasons := .none
  callset : Finset Value := ∅
  Global_symbol_get_funcSet : Finset String := ∅
deriving DecidableEq

namespace FuncAlias

/-- The variables of the analysis that both loops share. -/
structure State where
  Global_failed_Func_Set : Finset ℕ := ∅
  Global_symbol_get_funcSet : Finset String := ∅
  SucceedFuncSet : Finset Value := ∅
  /-- the key is a function that a name resolves to, or a null pointer -/
  FuncInfluenceMap : Option Value → Finset Value := fun _ => ∅
  Global_Func_Alias_Result_Map : Value → AliasFailureReasons := fun _ => .none
  failure_reasons : AliasFailureReasons → ℕ := fun _ => 0

section
variable (P : Program) (Ctx : GlobalContext) (HandleFunc : Value → Verdict)

/-- Is `F` handed to `HandleFunc`, or ignored? -/
def Analyses (s : State) (F : Value) : Prop :=
  P.getGUID F ∉ s.Global_failed_Func_Set ∧ P.getName F ∉ s.Global_symbol_get_funcSet

instance (s : State) (F : Value) : Decidable (Analyses P s F) :=
  inferInstanceAs (Decidable (_ ∧ _))

/-- One round of the first loop. -/
def analyseTarget (s : State) (F : Value) : State :=
  if Analyses P s F then
    let r := HandleFunc F
    let s := { s with
      Global_symbol_get_funcSet := s.Global_symbol_get_funcSet ∪ r.Global_symbol_get_funcSet }
    if r.Is_Analyze_Success = false then
      { s with
        failure_reasons := Function.update s.failure_reasons r.failreason
          (s.failure_reasons r.failreason + 1)
        Global_failed_Func_Set := insert (P.getGUID F) s.Global_failed_Func_Set
        Global_Func_Alias_Result_Map :=
          Function.update s.Global_Func_Alias_Result_Map F r.failreason }
    else
      { s with
        SucceedFuncSet := insert F s.SucceedFuncSet
        Global_Func_Alias_Result_Map := Function.update s.Global_Func_Alias_Result_Map F .success
        FuncInfluenceMap := fun f =>
          if f ∈ getGlobalFuncs P Ctx F then s.FuncInfluenceMap f ∪ r.callset
          else s.FuncInfluenceMap f }
  else
    { s with
      Global_Func_Alias_Result_Map :=
        Function.update s.Global_Func_Alias_Result_Map F .ignore_analysis }

/-- The first loop. -/
def analyseTargets (TargetVec : List Value) : State :=
  TargetVec.foldl (analyseTarget P Ctx HandleFunc)
    { Global_symbol_get_funcSet := Ctx.Global_symbol_get_funcSet }

/-- One round of the second loop: the targets that are left of an indirect call. -/
def updateTargets (s : State) (ICall : Value) (ICall_Targets : Finset Value) : Finset Value :=
  ICall_Targets \ s.SucceedFuncSet.filter fun f =>
    P.getGUID f ∉ s.Global_failed_Func_Set ∧ ICall ∉ s.FuncInfluenceMap (some f)

end

end FuncAlias

open FuncAlias

/-- `FuncAliasAnalysis`, with the order in which the first loop takes the
    address-taken functions. -/
def FuncAliasAnalysis (P : Program) (HandleFunc : Value → Verdict) (TargetVec : List Value)
    (Ctx : GlobalContext) : GlobalContext :=
  let s := analyseTargets P Ctx HandleFunc TargetVec
  { Ctx with
    Global_failed_Func_Set := s.Global_failed_Func_Set
    Global_symbol_get_funcSet := s.Global_symbol_get_funcSet
    ICallees := fun ICall => updateTargets P s ICall (Ctx.ICallees ICall) }

namespace FuncAlias

section
variable (P : Program) (Ctx : GlobalContext) (HandleFunc : Value → Verdict)

/-- The first loop hands `F` to `HandleFunc`. -/
def Analysed (TargetVec : List Value) (F : Value) : Prop :=
  ∃ before after, TargetVec = before ++ F :: after ∧
    Analyses P (analyseTargets P Ctx HandleFunc before) F

/-- The first loop hands `F` to `HandleFunc`, which succeeds and finds `F` at the
    call, and the name of `F` resolves to `f`. -/
def FoundAt (TargetVec : List Value) (CI : Value) (f : Value) : Prop :=
  ∃ F, Analysed P Ctx HandleFunc TargetVec F ∧ (HandleFunc F).Is_Analyze_Success = true ∧
    CI ∈ (HandleFunc F).callset ∧ some f ∈ getGlobalFuncs P Ctx F

end

section
variable {P : Program} {Ctx : GlobalContext} {HandleFunc : Value → Verdict}
  {TargetVec : List Value} {F f CI : Value}

theorem analyseTargets_append (TargetVec : List Value) (F : Value) :
    analyseTargets P Ctx HandleFunc (TargetVec ++ [F]) =
      analyseTarget P Ctx HandleFunc (analyseTargets P Ctx HandleFunc TargetVec) F := by
  rw [analyseTargets, analyseTargets, List.foldl_append]
  rfl

theorem analysed_append : Analysed P Ctx HandleFunc (TargetVec ++ [F]) f ↔
    Analysed P Ctx HandleFunc TargetVec f ∨
      f = F ∧ Analyses P (analyseTargets P Ctx HandleFunc TargetVec) F := by
  constructor
  · rintro ⟨before, after, heq, h⟩
    rcases List.eq_nil_or_concat after with rfl | ⟨after, x, rfl⟩
    · obtain ⟨rfl, hF⟩ := List.append_inj' heq rfl
      cases hF
      exact Or.inr ⟨rfl, h⟩
    · have heq' : TargetVec ++ [F] = (before ++ f :: after) ++ [x] := by simpa using heq
      obtain ⟨rfl, -⟩ := List.append_inj' heq' rfl
      exact Or.inl ⟨before, after, rfl, h⟩
  · rintro (⟨before, after, rfl, h⟩ | ⟨rfl, h⟩)
    · exact ⟨before, after ++ [F], by simp, h⟩
    · exact ⟨TargetVec, [], rfl, h⟩

theorem Analysed.mem (h : Analysed P Ctx HandleFunc TargetVec F) : F ∈ TargetVec := by
  obtain ⟨before, after, rfl, -⟩ := h
  simp

variable (P Ctx HandleFunc) in
/-- What the first loop has recorded after the rounds for `TargetVec`. -/
structure SummarisedBy (TargetVec : List Value) (s : State) : Prop where
  failed : ∀ k, k ∈ s.Global_failed_Func_Set ↔
    ∃ F, Analysed P Ctx HandleFunc TargetVec F ∧ (HandleFunc F).Is_Analyze_Success = false ∧
      P.getGUID F = k
  succeed : ∀ F, F ∈ s.SucceedFuncSet ↔
    Analysed P Ctx HandleFunc TargetVec F ∧ (HandleFunc F).Is_Analyze_Success = true
  influence : ∀ f CI, CI ∈ s.FuncInfluenceMap (some f) ↔ FoundAt P Ctx HandleFunc TargetVec CI f

theorem summarisedBy_nil : SummarisedBy P Ctx HandleFunc []
    { Global_symbol_get_funcSet := Ctx.Global_symbol_get_funcSet } := by
  have hnone : ∀ F, ¬ Analysed P Ctx HandleFunc [] F := fun F h => by simpa using h.mem
  constructor <;> simp [FoundAt, hnone]

/-- A round that is not skipped adds its function to those analysed. -/
theorem exists_analysed_append {p : Value → Prop}
    (hrun : Analyses P (analyseTargets P Ctx HandleFunc TargetVec) F) :
    (∃ g, Analysed P Ctx HandleFunc (TargetVec ++ [F]) g ∧ p g) ↔
      (∃ g, Analysed P Ctx HandleFunc TargetVec g ∧ p g) ∨ p F := by
  constructor
  · rintro ⟨g, hg, hp⟩
    rcases analysed_append.1 hg with hg | ⟨rfl, -⟩
    · exact Or.inl ⟨g, hg, hp⟩
    · exact Or.inr hp
  · rintro (⟨g, hg, hp⟩ | hp)
    · exact ⟨g, analysed_append.2 (Or.inl hg), hp⟩
    · exact ⟨F, analysed_append.2 (Or.inr ⟨rfl, hrun⟩), hp⟩

/-- **One round.** -/
theorem SummarisedBy.round {s : State} (hs : s = analyseTargets P Ctx HandleFunc TargetVec)
    (h : SummarisedBy P Ctx HandleFunc TargetVec s) :
    SummarisedBy P Ctx HandleFunc (TargetVec ++ [F]) (analyseTarget P Ctx HandleFunc s F) := by
  subst hs
  unfold analyseTarget
  split
  case isFalse hskip =>
    have hsame : ∀ g, Analysed P Ctx HandleFunc (TargetVec ++ [F]) g ↔
        Analysed P Ctx HandleFunc TargetVec g := by
      intro g
      rw [analysed_append]
      simp [hskip]
    refine ⟨?_, ?_, ?_⟩
    · simpa only [hsame] using h.failed
    · simpa only [hsame] using h.succeed
    · simpa only [FoundAt, hsame] using h.influence
  case isTrue hrun =>
    have hmore : ∀ g, Analysed P Ctx HandleFunc (TargetVec ++ [F]) g ↔
        Analysed P Ctx HandleFunc TargetVec g ∨ g = F := by
      intro g
      rw [analysed_append]
      simp [hrun]
    dsimp only
    split
    case isTrue hfail =>
      refine ⟨?_, ?_, ?_⟩
      · intro k
        have hself : k = P.getGUID F ↔
            (HandleFunc F).Is_Analyze_Success = false ∧ P.getGUID F = k := by
          rw [and_iff_right hfail, eq_comm]
        rw [Finset.mem_insert, h.failed, exists_analysed_append hrun, hself, or_comm]
      · intro g
        rw [h.succeed, hmore]
        refine ⟨fun hg => ⟨Or.inl hg.1, hg.2⟩, ?_⟩
        rintro ⟨hg | rfl, hgs⟩
        · exact ⟨hg, hgs⟩
        · rw [hfail] at hgs
          cases hgs
      · intro f CI
        rw [h.influence, FoundAt, FoundAt, exists_analysed_append hrun]
        simp [hfail]
    case isFalse hsucc =>
      refine ⟨?_, ?_, ?_⟩
      · intro k
        rw [h.failed, exists_analysed_append hrun]
        simp [hsucc]
      · intro g
        rw [Bool.not_eq_false] at hsucc
        rw [Finset.mem_insert, h.succeed, hmore]
        constructor
        · rintro (rfl | hg)
          · exact ⟨Or.inr rfl, hsucc⟩
          · exact ⟨Or.inl hg.1, hg.2⟩
        · rintro ⟨hg | rfl, hgs⟩
          · exact Or.inr ⟨hg, hgs⟩
          · exact Or.inl rfl
      · intro f CI
        have hbefore := h.influence f CI
        rw [FoundAt] at hbefore
        rw [Bool.not_eq_false] at hsucc
        rw [FoundAt, exists_analysed_append hrun, ← hbefore, and_iff_right hsucc]
        dsimp only
        split
        case isTrue hres => rw [Finset.mem_union, and_iff_left hres]
        case isFalse hres => simp [hres]

variable (P Ctx HandleFunc) in
theorem summarisedBy_analyseTargets (TargetVec : List Value) :
    SummarisedBy P Ctx HandleFunc TargetVec (analyseTargets P Ctx HandleFunc TargetVec) := by
  induction TargetVec using List.reverseRecOn with
  | nil => exact summarisedBy_nil
  | append_singleton TargetVec F ih =>
    rw [analyseTargets_append]
    exact ih.round rfl

/-- What the second loop leaves of a target that `HandleFunc` succeeds on. -/
theorem mem_updateTargets_iff (hsucc : (HandleFunc f).Is_Analyze_Success = true)
    {ICall_Targets : Finset Value} (hf : f ∈ ICall_Targets) :
    f ∈ updateTargets P (analyseTargets P Ctx HandleFunc TargetVec) CI ICall_Targets ↔
      ¬ Analysed P Ctx HandleFunc TargetVec f ∨
      (∃ F, Analysed P Ctx HandleFunc TargetVec F ∧ (HandleFunc F).Is_Analyze_Success = false ∧
        P.getGUID F = P.getGUID f) ∨
      FoundAt P Ctx HandleFunc TargetVec CI f := by
  have hs := summarisedBy_analyseTargets P Ctx HandleFunc TargetVec
  rw [updateTargets, Finset.mem_sdiff, Finset.mem_filter, hs.succeed, hs.influence, hs.failed]
  simp only [hf, hsucc, true_and, and_true]
  rw [not_and_or, not_and_or, not_not, not_not]

/-- **What stays.**  A target `f` that `HandleFunc` finds at the call `CI` stays
    its target exactly if it was ignored, or a function with its GUID fails, or
    some function found at `CI` has a name that resolves to `f`. -/
theorem mem_ICallees_iff (hsucc : (HandleFunc f).Is_Analyze_Success = true)
    (hf : f ∈ Ctx.ICallees CI) :
    f ∈ (FuncAliasAnalysis P HandleFunc TargetVec Ctx).ICallees CI ↔
      ¬ Analysed P Ctx HandleFunc TargetVec f ∨
      (∃ F, Analysed P Ctx HandleFunc TargetVec F ∧ (HandleFunc F).Is_Analyze_Success = false ∧
        P.getGUID F = P.getGUID f) ∨
      FoundAt P Ctx HandleFunc TargetVec CI f :=
  mem_updateTargets_iff hsucc hf

end

/-! ## A function that is only declared -/

/-- The function `0` has its address taken and no body. -/
def oneDeclaration : Program :=
  { Program.functionsOnly with getName := fun _ => "f", hasAddressTaken := fun _ => true }

/-- The function `0` is found at the call `1` and erased from it. -/
theorem found_declaration_erased :
    ¬ ∀ (P : Program) (Ctx : GlobalContext) (HandleFunc : Value → Verdict) (TargetVec : List Value)
      (f CI : Value), TargetVec.Nodup →
      (∀ F, F ∈ TargetVec ↔ F ∈ Ctx.Global_AddressTaken_Func_Set) → f ∈ TargetVec →
      (HandleFunc f).Is_Analyze_Success = true → CI ∈ (HandleFunc f).callset →
      f ∈ Ctx.ICallees CI →
      f ∈ (FuncAliasAnalysis P HandleFunc TargetVec Ctx).ICallees CI := by
  intro h
  have hkept := h oneDeclaration
    { doInitialization String.length oneDeclaration [0] {} with ICallees := fun _ => {0} }
    (fun _ => { Is_Analyze_Success := true, callset := {1} }) [0] 0 1 (by decide)
    (by intro F; rfl) (by decide) rfl (by decide) (by decide)
  have herased : 0 ∉ (FuncAliasAnalysis oneDeclaration
      (fun _ => { Is_Analyze_Success := true, callset := {1} }) [0]
      { doInitialization String.length oneDeclaration [0] {} with
        ICallees := fun _ => {0} }).ICallees 1 := by decide
  exact herased hkept

theorem mem_ICallees_iff_oneDeclaration :
    0 ∈ (FuncAliasAnalysis oneDeclaration
      (fun _ => { Is_Analyze_Success := true, callset := {1} }) [0]
      { ICallees := fun _ => {0} }).ICallees 1 ↔
      ¬ Analysed oneDeclaration { ICallees := fun _ => {0} }
        (fun _ => { Is_Analyze_Success := true, callset := {1} }) [0] 0 ∨
      (∃ F, Analysed oneDeclaration { ICallees := fun _ => {0} }
        (fun _ => { Is_Analyze_Success := true, callset := {1} }) [0] F ∧ true = false ∧
        oneDeclaration.getGUID F = oneDeclaration.getGUID 0) ∨
      FoundAt oneDeclaration { ICallees := fun _ => {0} }
        (fun _ => { Is_Analyze_Success := true, callset := {1} }) [0] 1 0 :=
  mem_ICallees_iff rfl (by decide)

end FuncAlias

end TFA
