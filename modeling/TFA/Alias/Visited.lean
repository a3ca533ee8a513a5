/-
  What the alias analyses do not find.

  * `Explained`: an analysis has made no calls that are not in the pool and queued no values
    that are not visited, which every handler keeps (`explained_interCaseHandler`);
  * `found_HandleICall`, `found_HandleFunc`: so what it reports is connected by the pool,
    however it ends and whatever the tags are.
-/
import TFA.Alias.Complete

namespace TFA

open Loop AliasCall InterState LoopState

variable {tg : TBAAGraph} {P : Program} {Ctx : GlobalContext} {given : AliasCall → Prop}
  {first : Value → Prop}

/-! ## The handler -/

namespace InterState

variable {s : InterState tg P} {cs : List AliasCall} {vs : List Value} {v cai f F U GV : Value}

variable (Ctx given first) in
/-- Only calls of the pool are made, and only visited values are queued. -/
structure Explained (s : InterState tg P) : Prop where
  trace : ∀ c ∈ s.ctx.trace, P.Pool Ctx given first c
  queue : ∀ v ∈ s.LV, P.Visited Ctx given first v

/-- A cluster is connected by the pool. -/
theorem Explained.connected (h : s.Explained Ctx given first) {V : Value}
    (hv : v ∈ s.ctx.graph.getClusterValues V ∅) :
    P.Connected Ctx given first V v := by
  rw [s.ctx.graph_eq] at hv
  refine (mem_getClusterValues_sound tg P.kind s.ctx.trace hv).mono ?_
  rintro a b ⟨c, hc, hop⟩
  exact ⟨c, h.trace c hc, hop⟩

theorem explained_calls (hcs : ∀ c ∈ cs, P.Pool Ctx given first c) (s : InterState tg P) :
    Keeps (Explained Ctx given first) s (s.calls cs) := by
  intro h
  refine ⟨fun c hc => ?_, h.queue⟩
  rcases List.mem_append.1 hc with hc | hc
  · exact h.trace c hc
  · exact hcs c hc

theorem explained_fail (s : InterState tg P) (reason : Option AliasFailureReasons) :
    Keeps (Explained Ctx given first) s (s.fail reason) := fun h => ⟨h.trace, h.queue⟩

theorem explained_mark (s : InterState tg P) (marks : Finset Value) :
    Keeps (Explained Ctx given first) s (s.mark marks) := fun h => ⟨h.trace, h.queue⟩

theorem explained_push (hvs : ∀ y ∈ vs, P.Visited Ctx given first y) (s : InterState tg P) :
    Keeps (Explained Ctx given first) s (s.push vs) := by
  intro h
  refine ⟨h.trace, fun y hy => ?_⟩
  rcases List.mem_append.1 hy with hy | hy
  · exact h.queue y hy
  · exact hvs y hy

theorem explained_analyzeFunction (hF : ∀ c ∈ P.bodyCalls Ctx F, P.Pool Ctx given first c)
    (s : InterState tg P) : Keeps (Explained Ctx given first) s (s.analyzeFunction Ctx F) := by
  intro h
  refine ⟨fun c hc => ?_, h.queue⟩
  unfold InterState.analyzeFunction AliasContext.analyzeFunction at hc
  dsimp only at hc
  split at hc
  · exact h.trace c hc
  · rcases List.mem_append.1 hc with hc | hc
    · exact h.trace c hc
    · exact hF c hc

theorem explained_update (hv : P.Visited Ctx given first v) (s : InterState tg P)
    (reason : Option AliasFailureReasons) :
    Keeps (Explained Ctx given first) s (s.update reason v) := by
  intro h
  have hpush : (s.pushTargets v).Explained Ctx given first := by
    refine explained_push (fun y hy => ?_) s h
    exact hv.connected (h.connected (mem_inOrder.1 (List.mem_filter.1 hy).1))
  unfold InterState.update
  dsimp only
  split
  · exact explained_fail _ reason hpush
  · exact hpush

/-- All callees of a call. -/
theorem explained_extendCall (hv : P.Visited Ctx given first v)
    (hcai : ∀ f ∈ Ctx.Callees cai, ∀ c ∈ P.calleeCalls Ctx cai f, P.Pool Ctx given first c)
    (s : InterState tg P) (reason : Option AliasFailureReasons) :
    Keeps (Explained Ctx given first) s (s.extendCall Ctx reason v cai) := by
  refine forBreak_rel (r := Keeps (Explained Ctx given first)) (fun f hf s h => ?_) s
  have hcalls := hcai f hf
  unfold Program.calleeCalls at hcalls
  simp only [List.mem_append] at hcalls
  have hreturn := explained_calls (fun c hc => hcalls c (Or.inl (Or.inl hc))) s h
  have hbody := explained_analyzeFunction (fun c hc => hcalls c (Or.inl (Or.inr hc))) _ hreturn
  have hformals := explained_mark _ (P.args f).toFinset hbody
  have hmoves := explained_calls (fun c hc => hcalls c (Or.inr hc)) _ hformals
  exact explained_update hv _ reason hmoves

theorem explained_handleUse (hv : P.Visited Ctx given first v)
    (hkind : P.kind v ≠ .constantData ∧ P.kind v ≠ .function)
    (hU : P.UsedThrough (followUse P v) v U) (s : InterState tg P) :
    Keeps (Explained Ctx given first) s (final (handleUse Ctx v U s)) := by
  unfold handleUse
  split
  · exact explained_fail s _
  · split
    · exact refl_of _ s
    case isFalse hcall =>
      push Not at hcall
      split
      · exact explained_fail s _
      · intro h
        refine explained_mark _ _ (explained_extendCall hv (fun f hf c hc => ?_) s _ h)
        exact Or.inr ⟨v, hv, .use hkind hU hcall.1 hcall.2.2 hf hc⟩

/-! ### Global variables -/

theorem explained_handleGlobalUse (hv : P.Visited Ctx given first v) (hcopy : P.IsCopy Ctx v GV)
    (hU : P.UsedThrough (followGlobalUse P) GV U) (s : InterState tg P) :
    Keeps (Explained Ctx given first) s (handleGlobalUse Ctx v U s).1 := by
  unfold handleGlobalUse
  split
  case h_1 op hop =>
    intro h
    have hbody := explained_analyzeFunction
      (fun c hc => Or.inr ⟨v, hv, .globalUse hcopy hU hop hc⟩) s h
    exact explained_update hv _ _ hbody
  case h_2 hkind =>
    refine explained_push (fun y hy => ?_) s
    rw [List.mem_singleton.1 hy]
    exact .queued hv (.user hcopy hU hkind)
  case h_3 => exact refl_of _ s

theorem explained_analyzeGlobalInitializer (hv : P.Visited Ctx given first v)
    (hcopy : P.IsCopy Ctx v GV) (s : InterState tg P) :
    Keeps (Explained Ctx given first) s (analyzeGlobalInitializer GV s) := by
  unfold analyzeGlobalInitializer
  split
  case h_2 => exact refl_of _ s
  case h_1 Ini hIni =>
    intro h
    have hcalls : (s.calls (P.initializerCalls GV Ini)).Explained Ctx given first := by
      refine explained_calls (fun c hc => Or.inr ⟨v, hv, .copy hcopy ?_⟩) s h
      refine List.mem_append_right _ (List.mem_flatMap.2 ⟨Ini, ?_, hc⟩)
      exact Option.mem_toList.2 hIni
    exact explained_push (fun g hg => .queued hv (.inner hcopy hIni hg)) _ hcalls

theorem explained_handleGlobal (hv : P.Visited Ctx given first v) (hcopy : P.IsCopy Ctx v GV)
    (s : InterState tg P) : Keeps (Explained Ctx given first) s (handleGlobal Ctx v GV s).1 := by
  intro h
  have hmove : (s.calls (if GV ≠ v then [.move GV v] else [])).Explained Ctx given first :=
    explained_calls (fun c hc => Or.inr ⟨v, hv, .copy hcopy (List.mem_append_left _ hc)⟩) s h
  have hini := explained_analyzeGlobalInitializer hv hcopy _ hmove
  have huses : (s.afterUses Ctx v GV).Explained Ctx given first :=
    forBreak_rel (r := Keeps (Explained Ctx given first))
      (fun U hU s => explained_handleGlobalUse hv hcopy (Program.mem_throughUsers.1 hU) s) _ hini
  have hupdate := explained_update hv _ (some .exceed_max) huses
  unfold handleGlobal
  rw [if_neg (not_not.2 hcopy.kind_copy)]
  show (if ((s.afterUses Ctx v GV).update (some .exceed_max) v).exceeds = true then _
    else _ : InterState tg P × Bool).1.Explained Ctx given first
  split
  · exact hupdate
  · exact explained_mark _ _ hupdate

/-! ### The whole step -/

theorem explained_kindCase (hv : P.Visited Ctx given first v) (s : InterState tg P) :
    Keeps (Explained Ctx given first) s (kindCase Ctx v s) := by
  unfold kindCase
  split
  case h_1 hkind =>
    unfold globalCase
    split
    · exact refl_of _ s
    case isFalse hmacro =>
      split
      · exact explained_fail s _
      · split
        · exact explained_fail s _
        · refine forBreak_rel (r := Keeps (Explained Ctx given first)) (fun GV hGV s => ?_) s
          by_cases hcopy : P.kind GV = .globalVariable
          · exact explained_handleGlobal hv ⟨hkind, hmacro, mem_inOrder.1 hGV, hcopy⟩ s
          · unfold handleGlobal
            rw [if_pos hcopy]
            exact refl_of _ s
  case h_2 hkind =>
    unfold callCase
    split
    · exact explained_fail s _
    · split
      · exact refl_of _ s
      case isFalse hname =>
        split
        · exact explained_fail s _
        · exact explained_extendCall hv
            (fun f hf c hc => Or.inr ⟨v, hv, .result hkind hname hf hc⟩) s _
  case h_3 hkind =>
    refine forBreak_rel (r := Keeps (Explained Ctx given first)) (fun cai hcai s h => ?_) s
    have hpool : ∀ c ∈ P.callerCalls Ctx cai (P.getFunction v), P.Pool Ctx given first c :=
      fun c hc => Or.inr ⟨v, hv, .argument hkind hcai hc⟩
    have hmoves := explained_calls (fun c hc => hpool c (List.mem_append_left _ hc)) s h
    have hbody := explained_analyzeFunction
      (fun c hc => hpool c (List.mem_append_right _ hc)) _ hmoves
    exact explained_update hv _ _ hbody
  case h_4 hkind =>
    refine forBreak_rel (r := Keeps (Explained Ctx given first)) (fun cai hcai s h => ?_) s
    have hpool : ∀ c ∈ P.returnCalls Ctx v cai, P.Pool Ctx given first c :=
      fun c hc => Or.inr ⟨v, hv, .returned hkind hcai hc⟩
    have hmoves := explained_calls (fun c hc => hpool c (List.mem_append_left _ hc)) s h
    have hbody := explained_analyzeFunction
      (fun c hc => hpool c (List.mem_append_right _ hc)) _ hmoves
    exact explained_update hv _ _ hbody
  case h_5 => exact refl_of _ s

/-- **The interprocedural step.** -/
theorem explained_interCaseHandler (hv : P.Visited Ctx given first v) (s : InterState tg P) :
    Keeps (Explained Ctx given first) s (interCaseHandler Ctx v s) := by
  unfold interCaseHandler
  split
  · exact refl_of _ s
  case isFalse hkind =>
    rw [not_or] at hkind
    split
    · exact explained_fail s _
    · have huses : Keeps (Explained Ctx given first) s (final (forReturn (handleUse Ctx v)
          (P.throughUsers (followUse P v) v) s)) :=
        forReturn_rel (fun U hU s =>
          explained_handleUse hv hkind (Program.mem_throughUsers.1 hU) s) s
      split
      case h_1 s₁ heq =>
        rw [heq] at huses
        exact huses
      case h_2 s₁ heq =>
        rw [heq] at huses
        exact trans_of _ huses (explained_kindCase hv s₁)

end InterState

/-! ## The loop -/

namespace LoopState

variable {s s' s₀ : LoopState tg P} {reason : Option AliasFailureReasons}

variable (Ctx given first) in
/-- The same of the state of the loop. -/
def Explained (s : LoopState tg P) : Prop :=
  InterState.Explained Ctx given first (⟨s.ctx, s.AnalysisList, s.AnalyzedList⟩ : InterState tg P)

/-- **One round.** -/
theorem Explained.loopStep (hs : s.Explained Ctx given first)
    (h : loopStep Ctx reason s = some s') : s'.Explained Ctx given first := by
  obtain ⟨CV, rest, -, hlist, hcases⟩ := loopStep_cases h
  have hCV : P.Visited Ctx given first CV := hs.queue CV (by simp [hlist])
  have hrest : ∀ y ∈ rest, P.Visited Ctx given first y :=
    fun y hy => hs.queue y (by simp [hlist, hy])
  rcases hcases with ⟨-, rfl⟩ | ⟨-, -, htrace, hl, -⟩ | ⟨-, -, hctx, hl⟩
  · exact ⟨hs.trace, hrest⟩
  · refine ⟨?_, ?_⟩
    · show ∀ c ∈ s'.ctx.trace, _
      rw [htrace]
      exact hs.trace
    · show ∀ v ∈ s'.AnalysisList, _
      rw [hl]
      exact hrest
  · have hstep := explained_interCaseHandler hCV ⟨s.ctx, rest, insert CV s.AnalyzedList⟩
      ⟨hs.trace, hrest⟩
    refine ⟨?_, ?_⟩
    · show ∀ c ∈ s'.ctx.trace, _
      rw [hctx]
      exact hstep.trace
    · show ∀ v ∈ s'.AnalysisList, _
      rw [hl]
      exact hstep.queue

/-- **All rounds.** -/
theorem Explained.reaches (hs : s₀.Explained Ctx given first)
    (hreach : Reaches (TFA.loopStep Ctx reason) s₀ s) : s.Explained Ctx given first :=
  reaches_rel (r := Keeps (Explained Ctx given first))
    (fun _ _ hstep hs => hs.loopStep hstep) hreach hs

end LoopState

/-! ## What is reported -/

section
variable {icall icall_V F V CI : Value} {s : LoopState tg P} {fuel : ℕ} {f : Option Value}

/-- **Indirect calls.**  Whatever `HandleICall` reports is what a function stands for that the
    pool connects with the called operand. -/
theorem found_HandleICall (hV : P.getCalledOperand icall = some icall_V)
    (hrun : HandleICall tg P Ctx fuel icall = some s) (hf : f ∈ s.fset Ctx icall_V) :
    ∃ F, P.kind F = .function ∧ f ∈ getGlobalFuncs P Ctx F ∧
      Relation.EqvGen
        (P.Pooled Ctx (· ∈ P.bodyCalls Ctx (P.getFunction icall)) (· = icall_V)) icall_V F := by
  obtain ⟨hreach, -⟩ := runs_spec hrun
  have hbody : InterState.Explained Ctx (· ∈ P.bodyCalls Ctx (P.getFunction icall)) (· = icall_V)
      (⟨({} : AliasContext tg P).HandleInsts Ctx (P.getFunction icall), [], ∅⟩ :
        InterState tg P) :=
    ⟨fun c hc => Or.inl hc, fun v hv => by cases hv⟩
  have hstart : (HandleICallStart tg P Ctx icall).Explained Ctx
      (· ∈ P.bodyCalls Ctx (P.getFunction icall)) (· = icall_V) := by
    refine ⟨hbody.trace, fun v hv => ?_⟩
    unfold HandleICallStart at hv
    rw [hV] at hv
    have hvisited : P.Visited Ctx (· ∈ P.bodyCalls Ctx (P.getFunction icall)) (· = icall_V)
        icall_V := .first rfl
    exact hvisited.connected (hbody.connected (mem_inOrder.1 hv))
  have hend := hstart.reaches hreach
  unfold LoopState.fset at hf
  split at hf
  · cases hf
  · obtain ⟨F, hF, hf⟩ := Finset.mem_biUnion.1 hf
    obtain ⟨hmem, hkind⟩ := Finset.mem_filter.1 hF
    exact ⟨F, hkind, hf, InterState.Explained.connected hend hmem⟩

theorem explained_handleFuncUse {U : Value} (hU : P.UsedThrough (followFuncUse P) F U)
    (s : InterState tg P) : Keeps (InterState.Explained Ctx (P.AtUse Ctx F) (P.FirstAtUse F)) s
      (handleFuncUse Ctx s U) := by
  unfold handleFuncUse
  split
  case h_1 hkind =>
    intro h
    have hbody := explained_analyzeFunction (fun c hc => Or.inl (.body hU hkind hc)) s h
    have hvisited : P.Visited Ctx (P.AtUse Ctx F) (P.FirstAtUse F) U :=
      .first (Or.inr ⟨hU, Or.inl hkind⟩)
    exact explained_extendCall hvisited
      (fun f hf c hc => Or.inl (.callee hU hkind hf hc)) _ none hbody
  case h_2 op _ hop => exact explained_analyzeFunction (fun c hc => Or.inl (.body hU hop hc)) s
  case h_3 hkind =>
    refine explained_push (fun y hy => ?_) s
    rw [List.mem_singleton.1 hy]
    exact .first (Or.inr ⟨hU, Or.inr hkind⟩)
  case h_4 => exact refl_of _ s

/-- **Functions.**  Every call that `HandleFunc` reports is through a value that the pool
    connects with the function. -/
theorem found_HandleFunc (hrun : HandleFunc tg P Ctx fuel F = some s) (hCI : CI ∈ s.callset F) :
    ∃ V, P.kind CI = .instruction .call ∧ P.getCalledOperand CI = some V ∧
      Relation.EqvGen (P.Pooled Ctx (P.AtUse Ctx F) (P.FirstAtUse F)) F V := by
  obtain ⟨hreach, -⟩ := runs_spec hrun
  have huses : InterState.Explained Ctx (P.AtUse Ctx F) (P.FirstAtUse F)
      (HandleFuncUses tg P Ctx F) := by
    refine foldl_rel (r := Keeps (InterState.Explained Ctx (P.AtUse Ctx F) (P.FirstAtUse F)))
      (fun U hU s => explained_handleFuncUse (Program.mem_throughUsers.1 hU) s) _ ?_
    exact InterState.Explained.mk (fun c hc => by cases hc) fun v hv => by cases hv
  have hvisited : P.Visited Ctx (P.AtUse Ctx F) (P.FirstAtUse F) F := .first (Or.inl rfl)
  have hpush : InterState.Explained Ctx (P.AtUse Ctx F) (P.FirstAtUse F)
      ((HandleFuncUses tg P Ctx F).push ((inOrder ((HandleFuncUses tg P
        Ctx F).ctx.graph.getClusterValues F ∅)).filter (· ≠ F))) := by
    refine explained_push (fun y hy => ?_) _ huses
    exact hvisited.connected (huses.connected (mem_inOrder.1 (List.mem_filter.1 hy).1))
  have hstart : (HandleFuncStart tg P Ctx F).Explained Ctx (P.AtUse Ctx F) (P.FirstAtUse F) := by
    unfold HandleFuncStart
    dsimp only
    split
    · exact ⟨hpush.trace, hpush.queue⟩
    · exact ⟨hpush.trace, hpush.queue⟩
  have hend := hstart.reaches hreach
  unfold LoopState.callset at hCI
  split at hCI
  · cases hCI
  · obtain ⟨V, hV, hCI⟩ := Finset.mem_biUnion.1 hCI
    obtain ⟨-, hcall⟩ := List.mem_filter.1 (List.mem_toFinset.1 hCI)
    rw [decide_eq_true_eq] at hcall
    exact ⟨V, hcall.1, hcall.2, InterState.Explained.connected hend hV⟩

end

/-! ## An argument -/

/-- The function that is reported for the call `2` of `passedIn` is connected with its
    operand. -/
theorem found_HandleICall_passedIn : ∃ s, HandleICall .empty passedIn passedInFuncs 4 2 = some s ∧
    ∃ F, passedIn.kind F = .function ∧ some 3 ∈ getGlobalFuncs passedIn passedInFuncs F ∧
      Relation.EqvGen (passedIn.Pooled passedInFuncs
        (· ∈ passedIn.bodyCalls passedInFuncs (passedIn.getFunction 2)) (· = 1)) 1 F := by
  have hends : (HandleICall .empty passedIn passedInFuncs 4 2).isSome = true := by decide
  have hall : ∀ s, HandleICall .empty passedIn passedInFuncs 4 2 = some s →
      some 3 ∈ s.fset passedInFuncs 1 := by decide
  obtain ⟨s, hs⟩ := Option.isSome_iff_exists.1 hends
  exact ⟨s, hs, found_HandleICall (by decide) hs (hall s hs)⟩

/-- The call that is reported for the function of `callsBack` is through a value that is
    connected with it. -/
theorem found_HandleFunc_callsBack : ∃ s, HandleFunc .empty callsBack callsBackCtx 5 0 = some s ∧
    ∃ V, callsBack.kind 5 = .instruction .call ∧ callsBack.getCalledOperand 5 = some V ∧
      Relation.EqvGen (callsBack.Pooled callsBackCtx (callsBack.AtUse callsBackCtx 0)
        (callsBack.FirstAtUse 0)) 0 V := by
  have hends : (HandleFunc .empty callsBack callsBackCtx 5 0).isSome = true := by decide
  have hall : ∀ s, HandleFunc .empty callsBack callsBackCtx 5 0 = some s → 5 ∈ s.callset 0 := by
    decide
  obtain ⟨s, hs⟩ := Option.isSome_iff_exists.1 hends
  exact ⟨s, hs, found_HandleFunc hs (hall s hs)⟩

end TFA
