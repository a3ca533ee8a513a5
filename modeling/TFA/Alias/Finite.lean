/-
  The alias analyses of a finite program end.

  `HandleICall` and `HandleFunc` loop until `AnalysisList` is empty.  `interCaseHandler`
  may queue a value that has been analysed before, so the list alone does not get
  shorter, but a value that is taken is either dropped or new among the analysed ones.

  * `Holds`: a set holds all the values that the handlers can come across;
  * `within_interCaseHandler`: the handler queues no others, and gives no others a
    node;
  * `exists_analysisLoop`: so the loop ends, from every such state.
-/
import TFA.Alias.HandleFunc
import TFA.Alias.TwoRuns
import TFA.TBAA.Termination

namespace TFA

open Loop AliasCall InterState LoopState

variable {tg : TBAAGraph} {P : Program} {Ctx : GlobalContext} {U : Finset Value}

/-! ## Values that the analyses can come across -/

/-- `U` holds the operands and users, the instructions and formals, the initializers, and
    the values that the maps of the context lead to. -/
structure Program.Holds (P : Program) (Ctx : GlobalContext) (U : Finset Value) : Prop where
  values : P.values ⊆ U
  insts : ∀ F, ∀ I ∈ P.insts F, I ∈ U
  args : ∀ F, ∀ y ∈ P.args F, y ∈ U
  initializer : ∀ GV Ini, P.getInitializer GV = some Ini → Ini ∈ U
  unique_func : ∀ hash F, Ctx.Global_Unique_Func_Map hash = some F → F ∈ U
  unique_gv : ∀ guid, Ctx.Global_Unique_GV_Map guid ⊆ U
  callers : ∀ F, ∀ cai ∈ Ctx.Callers F, cai ∈ U

/-- The call gives nodes to values of `U` only. -/
def AliasCall.Within (kind : Value → ValueKind) (U : Finset Value) (c : AliasCall) : Prop :=
  ∀ v ∈ c.values kind, v ∈ U

/-- The handlers have come across values of `U` only. -/
structure InterState.Within (U : Finset Value) (s : InterState tg P) : Prop where
  trace : ∀ c ∈ s.ctx.trace, c.Within P.kind U
  queue : ∀ v ∈ s.LV, v ∈ U

/-! ### Calls -/

namespace Program

section
variable {kind : Value → ValueKind} {c : AliasCall} {v w I F cai GV Ini : Value}

theorem within_move (hv : v ∈ U) (hw : w ∈ U) : (AliasCall.move v w).Within kind U := by
  intro x hx
  rcases List.mem_pair.1 hx with rfl | rfl
  · exact hv
  · exact hw

theorem within_store (hv : v ∈ U) (hw : w ∈ U) (tag : Option MDNode) :
    (AliasCall.store v w tag).Within kind U ∧ (AliasCall.storeValues v w).Within kind U := by
  have hmove : (AliasCall.move v w).Within kind U := within_move hv hw
  have hpair : ∀ x ∈ (if kind v = .constantData then [] else [v, w]), x ∈ U := by
    intro x hx
    split at hx
    · cases hx
    · exact hmove x hx
  exact ⟨hpair, hpair⟩

theorem within_alloc (hv : v ∈ U) : (AliasCall.alloc v).Within kind U := by
  intro x hx
  rwa [List.mem_singleton.1 hx]

theorem Holds.operand (h : P.Holds Ctx U) (hv : v ∈ P.operands w) : v ∈ U ∧ w ∈ U :=
  ⟨h.values (P.mem_values v w hv).1, h.values (P.mem_values v w hv).2⟩

theorem Holds.operand0 (h : P.Holds Ctx U) (hv : P.operand0 w = some v) : v ∈ U ∧ w ∈ U :=
  h.operand (List.mem_of_mem_head? hv)

theorem Holds.within_HandleOperator (h : P.Holds Ctx U) (hc : c ∈ P.HandleOperator v) :
    c.Within P.kind U := by
  unfold HandleOperator at hc
  generalize P.rank v + 1 = fuel at hc
  induction fuel generalizing v with
  | zero => cases hc
  | succ fuel ih =>
    unfold handleOperatorWithin at hc
    split at hc
    case h_2 => cases hc
    case h_1 op hop =>
      split at hc
      · rcases List.mem_cons.1 hc with rfl | hc
        · exact within_move (h.operand0 hop).2 (h.operand0 hop).1
        · exact ih hc
      · cases hc

theorem Holds.symbolTargets (h : P.Holds Ctx U) (hv : v ∈ P.symbolTargets Ctx cai) : v ∈ U := by
  unfold Program.symbolTargets at hv
  split at hv
  · cases hv
  · obtain ⟨hash, -, hF⟩ := List.mem_filterMap.1 hv
    exact h.unique_func hash v hF

theorem Holds.within_HandleCai (h : P.Holds Ctx U) (hI : I ∈ U) (hc : c ∈ P.HandleCai Ctx I) :
    c.Within P.kind U := by
  have harg : ∀ x ∈ P.callArgs I, x ∈ U := fun x hx => (h.operand (List.dropLast_subset _ hx)).1
  unfold HandleCai at hc
  rw [List.mem_append, List.mem_cons, List.mem_map] at hc
  rcases hc with (rfl | ⟨op, hop, rfl⟩) | hc
  · exact within_alloc hI
  · exact within_alloc (h.operand hop).1
  · split at hc
    · split at hc
      case h_1 dst src _ heq =>
        rw [List.mem_singleton.1 hc]
        exact within_move (harg dst (by simp [heq])) (harg src (by simp [heq]))
      case h_2 => cases hc
    · split at hc
      · obtain ⟨f, hf, rfl⟩ := List.mem_map.1 hc
        exact within_move hI (h.symbolTargets hf)
      · cases hc

theorem Holds.within_HandleInst (h : P.Holds Ctx U) (hI : I ∈ U) (hc : c ∈ P.HandleInst Ctx I) :
    c.Within P.kind U := by
  have hmoves : ∀ l : List Value, (∀ x ∈ l, x ∈ U) → c ∈ l.map (.move I) → c.Within P.kind U := by
    intro l hl hmem
    obtain ⟨w, hw, rfl⟩ := List.mem_map.1 hmem
    exact within_move hI (hl w hw)
  have hfirst : ∀ x ∈ (P.operand0 I).toList, x ∈ U := fun x hx =>
    (h.operand0 (Option.mem_toList.1 hx)).1
  unfold HandleInst at hc
  split at hc
  · cases hc
  · rw [List.mem_append, List.mem_flatMap] at hc
    rcases hc with ⟨op, -, hc⟩ | hc
    · exact h.within_HandleOperator hc
    · split at hc
      case h_1 =>
        rw [List.mem_singleton.1 hc]
        exact within_alloc hI
      case h_2 =>
        split at hc
        case h_1 vop pop _ heq =>
          rw [List.mem_singleton.1 hc]
          exact (within_store (h.operand (w := I) (by simp [heq])).1
            (h.operand (w := I) (by simp [heq])).1 _).1
        case h_2 => cases hc
      case h_3 =>
        obtain ⟨op, hop, rfl⟩ := List.mem_map.1 hc
        have hmove : (AliasCall.move I op).Within P.kind U := within_move hI (hfirst op hop)
        exact hmove
      case h_11 => exact hmoves _ (fun x hx => (h.operand hx).1) hc
      case h_12 => exact hmoves _ (fun x hx => (h.operand (List.drop_subset _ _ hx)).1) hc
      case h_13 => exact h.within_HandleCai hI hc
      case h_14 =>
        split at hc
        case h_1 return_v hret =>
          split at hc
          · cases hc
          · rw [List.mem_singleton.1 hc]
            exact within_move hI (h.operand0 hret).1
        case h_2 => cases hc
      case h_15 => cases hc
      all_goals exact hmoves _ hfirst hc

theorem Holds.within_HandleReturn (h : P.Holds Ctx U) (F : Value) (hcai : cai ∈ U) :
    ∀ c ∈ P.HandleReturn F cai, c.Within P.kind U := by
  intro c hc
  obtain ⟨RI, -, hc⟩ := List.mem_flatMap.1 hc
  obtain ⟨return_v, hret, rfl⟩ := List.mem_map.1 hc
  exact within_move (h.operand0 (Option.mem_toList.1 hret)).1 hcai

theorem Holds.within_argMoves (h : P.Holds Ctx U) (cai F : Value) :
    ∀ c ∈ P.argMoves cai F, c.Within P.kind U := by
  intro c hc
  obtain ⟨⟨a, y⟩, hp, rfl⟩ := List.mem_map.1 hc
  obtain ⟨ha, hy⟩ := List.of_mem_zip hp
  exact within_move (h.operand (List.dropLast_subset _ ha)).1 (h.args F y hy)

theorem Holds.within_initializerCalls (h : P.Holds Ctx U) (hGV : GV ∈ U)
    (hIni : P.getInitializer GV = some Ini) (hc : c ∈ P.initializerCalls GV Ini) :
    c.Within P.kind U := by
  rcases List.mem_cons.1 hc with rfl | hc
  · exact within_move (h.initializer GV Ini hIni) hGV
  · obtain ⟨V, -, hc⟩ := List.mem_flatMap.1 hc
    obtain ⟨O, hO, hc⟩ := List.mem_flatMap.1 hc
    rcases List.mem_cons.1 hc with rfl | hc
    · exact (within_store (h.operand hO).1 (h.operand hO).2 none).2
    · exact h.within_HandleOperator hc

theorem Holds.throughUsers (h : P.Holds Ctx U) {follow : Value → Bool}
    (hv : v ∈ P.throughUsers follow w) : v ∈ U := by
  have huser : ∀ {a b : Value}, b ∈ P.users a → b ∈ U := fun hb =>
    (h.operand ((P.mem_users _ _).1 hb)).2
  cases mem_throughUsers.1 hv with
  | user hu => exact huser hu
  | follow _ _ hu => exact huser hu

end

end Program

/-! ### The interprocedural step -/

namespace InterState

section
variable {s : InterState tg P} {cs : List AliasCall} {vs : List Value} {v caller cai F GV V : Value}

/-- Only values that have a node are in a cluster. -/
theorem Within.cluster (h : s.Within U) {y : Value} (hy : y ∈ s.ctx.graph.getClusterValues v ∅) :
    y ∈ U := by
  have hnode : (s.ctx.graph.getNode y).isSome := by
    unfold AliasGraph.getClusterValues at hy
    split at hy
    · cases hy
    · obtain ⟨n, -, hn⟩ := Finset.mem_biUnion.1 hy
      have hcons := (sane_run tg P.kind AliasGraph.sane_empty s.ctx.trace).consistent
      rw [← s.ctx.graph_eq] at hcons
      exact Option.isSome_iff_exists.2 ⟨n, (hcons y n).2 hn⟩
  rw [s.ctx.graph_eq, isSome_run tg AliasGraph.sane_empty] at hnode
  rcases hnode with ⟨c, hc, hmem⟩ | hnone
  · exact h.trace c hc y hmem
  · cases hnone

theorem within_calls (hcs : ∀ c ∈ cs, c.Within P.kind U) (s : InterState tg P) :
    Keeps (Within U) s (s.calls cs) := by
  intro h
  refine ⟨fun c hc => ?_, h.queue⟩
  rcases List.mem_append.1 hc with hc | hc
  · exact h.trace c hc
  · exact hcs c hc

theorem within_fail (s : InterState tg P) (reason : Option AliasFailureReasons) :
    Keeps (Within U) s (s.fail reason) := fun h => ⟨h.trace, h.queue⟩

theorem within_mark (s : InterState tg P) (marks : Finset Value) :
    Keeps (Within U) s (s.mark marks) := fun h => ⟨h.trace, h.queue⟩

theorem within_push (hvs : ∀ y ∈ vs, y ∈ U) (s : InterState tg P) :
    Keeps (Within U) s (s.push vs) := by
  intro h
  refine ⟨h.trace, fun y hy => ?_⟩
  rcases List.mem_append.1 hy with hy | hy
  · exact h.queue y hy
  · exact hvs y hy

theorem within_analyzeFunction (hU : P.Holds Ctx U) (F : Value) (s : InterState tg P) :
    Keeps (Within U) s (s.analyzeFunction Ctx F) := by
  intro h
  refine ⟨fun c hc => ?_, h.queue⟩
  unfold InterState.analyzeFunction AliasContext.analyzeFunction at hc
  dsimp only at hc
  split at hc
  · exact h.trace c hc
  · rcases List.mem_append.1 hc with hc | hc
    · exact h.trace c hc
    · obtain ⟨I, hI, hc⟩ := List.mem_flatMap.1 hc
      exact hU.within_HandleInst (hU.insts F I hI) hc

theorem within_update (s : InterState tg P) (reason : Option AliasFailureReasons) (v : Value) :
    Keeps (Within U) s (s.update reason v) := by
  intro h
  have hpush : (s.pushTargets v).Within U := by
    refine within_push (fun y hy => ?_) s h
    exact h.cluster (mem_inOrder.1 (List.mem_filter.1 hy).1)
  unfold InterState.update
  dsimp only
  split
  · exact within_fail _ reason hpush
  · exact hpush

theorem within_extendCallee (hU : P.Holds Ctx U) (hcai : cai ∈ U)
    (reason : Option AliasFailureReasons) (v f : Value) (s : InterState tg P) :
    Keeps (Within U) s (extendCallee Ctx reason v cai f s).1 := by
  intro h
  have hreturn := within_calls (hU.within_HandleReturn f hcai) s h
  have hbody := within_analyzeFunction hU f _ hreturn
  have hformals := within_mark _ (P.args f).toFinset hbody
  have hmoves := within_calls (hU.within_argMoves cai f) _ hformals
  exact within_update _ reason v hmoves

theorem within_extendCall (hU : P.Holds Ctx U) (hcai : cai ∈ U)
    (reason : Option AliasFailureReasons) (v : Value) (s : InterState tg P) :
    Keeps (Within U) s (s.extendCall Ctx reason v cai) :=
  forBreak_rel (fun f _ s => within_extendCallee hU hcai reason v f s) s

end

end InterState

section
variable (hU : P.Holds Ctx U) (s : InterState tg P) {v GV V : Value}
include hU

theorem within_handleUse (hV : V ∈ U) :
    Keeps (InterState.Within U) s (final (handleUse Ctx v V s)) := by
  unfold handleUse
  split
  · exact within_fail s _
  · split
    · exact refl_of _ s
    · split
      · exact within_fail s _
      · intro h
        exact within_mark _ _ (within_extendCall hU hV _ v s h)

theorem within_handleGlobalUse (hV : V ∈ U) :
    Keeps (InterState.Within U) s (handleGlobalUse Ctx v V s).1 := by
  unfold handleGlobalUse
  split
  · intro h
    exact within_update _ _ v (within_analyzeFunction hU _ s h)
  · refine within_push (fun y hy => ?_) s
    rwa [List.mem_singleton.1 hy]
  · exact refl_of _ s

theorem within_analyzeGlobalInitializer (hGV : GV ∈ U) :
    Keeps (InterState.Within U) s (analyzeGlobalInitializer GV s) := by
  unfold analyzeGlobalInitializer
  split
  case h_2 => exact refl_of _ s
  case h_1 Ini hIni =>
    intro h
    have hcalls := within_calls (fun c hc => hU.within_initializerCalls hGV hIni hc) s h
    refine within_push (fun y hy => ?_) _ hcalls
    obtain ⟨V, -, hy⟩ := List.mem_flatMap.1 hy
    exact (hU.operand (List.mem_filter.1 hy).1).1

theorem within_handleGlobal (hGV : GV ∈ U) (hV : V ∈ U) :
    Keeps (InterState.Within U) s (handleGlobal Ctx GV V s).1 := by
  unfold handleGlobal
  split
  · exact refl_of _ s
  · intro h
    have hmove : (s.calls (if V ≠ GV then [.move V GV] else [])).Within U := by
      refine within_calls (fun c hc => ?_) s h
      split at hc
      · rw [List.mem_singleton.1 hc]
        exact Program.within_move hV hGV
      · cases hc
    have hini := within_analyzeGlobalInitializer hU _ hV hmove
    have huses : ∀ s₁ : InterState tg P, Keeps (InterState.Within U) s₁
        (forBreak (handleGlobalUse Ctx GV) (P.throughUsers (followGlobalUse P) V) s₁) :=
      forBreak_rel fun y hy s => within_handleGlobalUse hU s (hU.throughUsers hy)
    have hupd := within_update _ (some .exceed_max) GV (huses _ hini)
    dsimp only
    generalize InterState.update _ _ GV = s₂ at hupd ⊢
    split
    · exact hupd
    · exact within_mark s₂ {V} hupd

theorem within_handleCaller (caller : Value) (cai : Value) :
    Keeps (InterState.Within U) s (handleCaller Ctx v caller cai s).1 := by
  intro h
  have hmoves := within_calls (hU.within_argMoves cai caller) s h
  exact within_update _ _ v (within_analyzeFunction hU _ _ hmoves)

theorem within_handleReturnTo (hV : V ∈ U) :
    Keeps (InterState.Within U) s (handleReturnTo Ctx v V s).1 := by
  intro h
  have hmoves : (s.calls ((P.getReturnValue v).toList.map fun return_v =>
      .move return_v V)).Within U := by
    refine within_calls (fun c hc => ?_) s h
    obtain ⟨return_v, hret, rfl⟩ := List.mem_map.1 hc
    exact Program.within_move (hU.operand0 (Option.mem_toList.1 hret)).1 hV
  exact within_update _ _ v (within_analyzeFunction hU _ _ hmoves)

theorem within_kindCase (hv : v ∈ U) : Keeps (InterState.Within U) s (kindCase Ctx v s) := by
  unfold kindCase
  split
  case h_1 =>
    unfold globalCase
    split
    · exact refl_of _ s
    · split
      · exact within_fail s _
      · split
        · exact within_fail s _
        · exact forBreak_rel (fun G hG s =>
            within_handleGlobal hU s hv (hU.unique_gv _ (mem_inOrder.1 hG))) s
  case h_2 =>
    unfold callCase
    split
    · exact within_fail s _
    · split
      · exact refl_of _ s
      · split
        · exact within_fail s _
        · exact within_extendCall hU hv _ v s
  case h_3 => exact forBreak_rel (fun cai _ s => within_handleCaller hU s _ cai) s
  case h_4 => exact forBreak_rel (fun cai hcai s =>
      within_handleReturnTo hU s (hU.callers _ cai hcai)) s
  case h_5 => exact refl_of _ s

/-- **The interprocedural step.**  No value from outside is queued or gets a node. -/
theorem within_interCaseHandler (hv : v ∈ U) :
    Keeps (InterState.Within U) s (interCaseHandler Ctx v s) := by
  unfold interCaseHandler
  split
  · exact refl_of _ s
  · split
    · exact within_fail s _
    · have huses : Keeps (InterState.Within U) s (final (forReturn (handleUse Ctx v)
          (P.throughUsers (followUse P v) v) s)) :=
        forReturn_rel (fun y hy s => within_handleUse hU s (hU.throughUsers hy)) s
      split
      case h_1 s₁ heq =>
        rw [heq] at huses
        exact huses
      case h_2 s₁ heq =>
        rw [heq] at huses
        exact trans_of _ huses (within_kindCase hU s₁ hv)

end

/-! ## The loops -/

namespace LoopState

section
variable {s s' : LoopState tg P} {reason : Option AliasFailureReasons} {icall F : Value}

/-- The loop has come across values of `U` only. -/
def Within (U : Finset Value) (s : LoopState tg P) : Prop :=
  InterState.Within U (⟨s.ctx, s.AnalysisList, s.AnalyzedList⟩ : InterState tg P)

/-- The order that the rounds go down in: values of `U` are analysed, or the list gets
    shorter. -/
def Before (U : Finset Value) (s' s : LoopState tg P) : Prop :=
  Prod.Lex (· < ·) (· < ·) ((U \ s'.AnalyzedList).card, s'.AnalysisList.length)
    ((U \ s.AnalyzedList).card, s.AnalysisList.length)

theorem wellFounded_before (U : Finset Value) :
    WellFounded (Before U : LoopState tg P → LoopState tg P → Prop) :=
  InvImage.wf _ (WellFounded.prod_lex wellFounded_lt wellFounded_lt)

/-- **One round.** -/
theorem within_loopStep (hU : P.Holds Ctx U) (hs : s.Within U)
    (h : loopStep Ctx reason s = some s') : s'.Within U ∧ Before U s' s := by
  obtain ⟨CV, rest, hrun, hlist, hcases⟩ := loopStep_cases h
  have hCV : CV ∈ U := hs.queue CV (by simp [hlist])
  have hrest : ∀ y ∈ rest, y ∈ U := fun y hy => hs.queue y (by simp [hlist, hy])
  by_cases hseen : CV ∈ s.AnalyzedList
  · -- the list gets shorter
    have hskip : s' = { s with AnalysisList := rest } := by
      unfold loopStep at h
      rw [hrun, hlist] at h
      simp only [hseen, if_true, Option.some.injEq] at h
      rw [← h, hrun]
    subst hskip
    refine ⟨⟨hs.trace, hrest⟩, .right _ ?_⟩
    simp [hlist]
  · -- one more value of `U` has been analysed
    have hfresh : s'.AnalyzedList = insert CV s.AnalyzedList → Before U s' s := by
      intro hA
      refine .left _ _ ?_
      rw [hA]
      refine Finset.card_lt_card ⟨Finset.sdiff_subset_sdiff subset_rfl (Finset.subset_insert _ _),
        fun hsub => ?_⟩
      have hout := hsub (Finset.mem_sdiff.2 ⟨hCV, hseen⟩)
      exact (Finset.mem_sdiff.1 hout).2 (Finset.mem_insert_self _ _)
    rcases hcases with ⟨hdone, -⟩ | ⟨-, -, htrace, hl, hA⟩ | ⟨-, hA, hctx, hl⟩
    · exact absurd hdone hseen
    · refine ⟨⟨fun c hc => hs.trace c ?_, fun y hy => hrest y ?_⟩, hfresh hA⟩
      · rwa [← htrace]
      · rwa [← hl]
    · have hinter := within_interCaseHandler hU
        (⟨s.ctx, rest, insert CV s.AnalyzedList⟩ : InterState tg P) hCV ⟨hs.trace, hrest⟩
      refine ⟨⟨fun c hc => hinter.trace c ?_, fun y hy => hinter.queue y ?_⟩, hfresh hA⟩
      · rwa [← hctx]
      · rwa [← hl]

/-- **The loop ends**, from every state whose values are in `U`. -/
theorem exists_analysisLoop (hU : P.Holds Ctx U) (reason : Option AliasFailureReasons)
    (hs : s.Within U) :
    ∃ fuel r, analysisLoop Ctx reason fuel s = some r ∧ r.Within U :=
  exists_runs (wellFounded_before U) (fun _ _ hs h => within_loopStep hU hs h) hs

variable (tg) in
theorem within_HandleICallStart (hU : P.Holds Ctx U) (icall : Value) :
    (HandleICallStart tg P Ctx icall).Within U := by
  have hempty : InterState.Within U (⟨{}, [], ∅⟩ : InterState tg P) :=
    ⟨fun c hc => absurd hc (List.not_mem_nil), fun y hy => absurd hy (List.not_mem_nil)⟩
  have hinsts := within_analyzeFunction hU (P.getFunction icall) _ hempty
  refine ⟨hinsts.trace, fun y hy => ?_⟩
  unfold HandleICallStart at hy
  dsimp only at hy
  split at hy
  · exact hinsts.cluster (mem_inOrder.1 hy)
  · cases hy

variable (tg) in
theorem within_HandleFuncUses (hU : P.Holds Ctx U) (F : Value) :
    (HandleFuncUses tg P Ctx F).Within U := by
  have hempty : InterState.Within U (⟨{}, [], ∅⟩ : InterState tg P) :=
    ⟨fun c hc => absurd hc List.not_mem_nil, fun y hy => absurd hy List.not_mem_nil⟩
  refine foldl_rel (r := Keeps (InterState.Within U)) (fun V hV s => ?_) _ hempty
  have hVU : V ∈ U := hU.throughUsers hV
  unfold handleFuncUse
  split
  · exact trans_of _ (within_analyzeFunction hU (P.getFunction V) s)
      (within_extendCall hU hVU none V _)
  · exact within_analyzeFunction hU _ s
  · refine within_push (fun y hy => ?_) s
    rwa [List.mem_singleton.1 hy]
  · exact refl_of _ s

variable (tg) in
theorem within_HandleFuncStart (hU : P.Holds Ctx U) (F : Value) :
    (HandleFuncStart tg P Ctx F).Within U := by
  have huses := within_HandleFuncUses tg hU F
  have hpush : ((HandleFuncUses tg P Ctx F).push ((inOrder
      ((HandleFuncUses tg P Ctx F).ctx.graph.getClusterValues F ∅)).filter (· ≠ F))).Within U := by
    refine within_push (fun y hy => ?_) _ huses
    exact huses.cluster (mem_inOrder.1 (List.mem_filter.1 hy).1)
  unfold HandleFuncStart
  dsimp only
  split
  · exact ⟨hpush.trace, hpush.queue⟩
  · exact hpush

end

end LoopState

/-! ## The analyses -/

variable (tg) in
theorem exists_HandleICall (hU : P.Holds Ctx U) (icall : Value) :
    ∃ n r, ∀ fuel ≥ n, HandleICall tg P Ctx fuel icall = some r := by
  obtain ⟨n, r, hr, -⟩ := exists_analysisLoop hU (some .exceed_max)
    (within_HandleICallStart tg hU icall)
  exact ⟨n, r, fun fuel hfuel => runs_mono hr hfuel⟩

variable (tg) in
theorem exists_HandleFunc (hU : P.Holds Ctx U) (F : Value) :
    ∃ n r, ∀ fuel ≥ n, HandleFunc tg P Ctx fuel F = some r := by
  obtain ⟨n, r, hr, -⟩ := exists_analysisLoop hU none (within_HandleFuncStart tg hU F)
  exact ⟨n, r, fun fuel hfuel => runs_mono hr hfuel⟩

/-- The values of `callsBackTwice`, which has no initializers and no names to resolve. -/
theorem holds_callsBackTwice :
    callsBackTwice.Holds callsBackTwiceCtx (Finset.range 9) where
  values := by decide
  insts F I hI := by
    show I ∈ Finset.range 9
    have hI' : I ∈ (if F = 1 then [2] else if F = 3 then [5] else if F = 6 then [8] else []) := hI
    split_ifs at hI' <;> simp_all
  args F y hy := by
    have hy' : y ∈ (if F = 3 then [4] else if F = 6 then [7] else []) := hy
    split_ifs at hy' <;> simp_all
  initializer GV Ini h := by cases h
  unique_func hash F h := by cases h
  unique_gv guid := Finset.empty_subset _
  callers F cai hcai := by
    have hcai' : cai ∈ (if F = 3 then [2] else if F = 6 then [5] else []) := hcai
    split_ifs at hcai' <;> simp_all

theorem finite_twoScalars : {N | MDGraph.twoScalars.operands N ≠ []}.Finite := by
  refine (Set.finite_Iic 5).subset fun N hN => ?_
  rcases N with _ | _ | _ | _ | _ | _ | N
  · exact absurd rfl hN
  · simp
  · simp
  · simp
  · simp
  · simp
  · exact absurd rfl hN

theorem noLoops_twoScalars (A B : MDNode) : MDGraph.twoScalars.NoLoops A B :=
  MDGraph.noLoops_of_rank finite_twoScalars MDGraph.twoScalars_rank A B

end TFA
