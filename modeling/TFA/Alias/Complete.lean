/-
  What the alias analyses find.

  * `ComesTo`: the values that the loop comes to: those in the cluster of a value that it starts
    from, or of a global variable that it goes through;
  * `Missed`: it has passed over one of them that it should have gone through, or the gate has
    refused a call that joins one of them, each time it was made;
  * `Succeeds.mem_cluster`: unless something is missed, all values that the pool connects with
    a first one are in its cluster in the end;
  * `complete_HandleICall`, `complete_HandleFunc`: what this means for the targets of an
    indirect call, and for the calls of a function.
-/
import TFA.Alias.Pool

namespace TFA

open Loop AliasCall InterState LoopState

variable {tg : TBAAGraph} {P : Program} {Ctx : GlobalContext} {given : AliasCall → Prop}
  {first : Value → Prop}

/-! ## The cluster -/

namespace LoopState

variable {s₀ s : LoopState tg P} {V a b u v : Value} {c : AliasCall}

variable (first) in
/-- The loop comes to the value. -/
def ComesTo (s : LoopState tg P) (u : Value) : Prop :=
  ∃ w, (first w ∨ P.kind w = .globalVariable ∧ w ∈ s.AnalyzedList) ∧
    (u = w ∨ u ∈ s.ctx.graph.getClusterValues w ∅)

/-- Something that belongs to a cluster may be missing there. -/
inductive Missed (Ctx : GlobalContext) (given : AliasCall → Prop) (first : Value → Prop)
    (s₀ s : LoopState tg P) : Prop
  /-- the loop has come to a value and passed over it, and not all is done for it -/
  | passedOver {u : Value} (hvisited : P.Visited Ctx given first u) (hu : s.ComesTo first u)
      (hpassed : u ∉ s.AnalyzedList ∨ u ∈ s₀.AnalyzedList) (hno : ¬ s.Done Ctx u)
  /-- the gate has refused a call with a value that the loop has come to -/
  | refused {a b : Value} {c : AliasCall} (hvisited : P.Visited Ctx given first a)
      (ha : s.ComesTo first a) (hop : c.Joins P.kind a b) (hc : c ∈ s.ctx.trace)
      (hno : ¬ AcceptedRun tg P.kind c s.ctx.trace {})

/-- The loop has succeeded: nothing is queued, all that has been taken from the queue has been
    gone through, and the calls of the start are made. -/
structure Succeeds (Ctx : GlobalContext) (given : AliasCall → Prop) (s₀ s : LoopState tg P) :
    Prop where
  complete : CompleteRun tg P.kind s.ctx.trace {}
  expanded : ∀ v ∈ s.AnalyzedList, v ∉ s₀.AnalyzedList → s.Done Ctx v
  queue : s.AnalysisList = []
  given : ∀ c, given c → c ∈ s.ctx.trace

/-- A value that the loop has come to has been gone through, unless something is missed. -/
theorem Succeeds.done (h : Succeeds Ctx given s₀ s) (hvisited : P.Visited Ctx given first u)
    (hu : s.ComesTo first u) : s.Done Ctx u ∨ Missed Ctx given first s₀ s := by
  by_cases hdone : s.Done Ctx u
  · exact Or.inl hdone
  · refine Or.inr (.passedOver hvisited hu ?_ hdone)
    by_contra htaken
    push Not at htaken
    exact hdone (h.expanded u htaken.1 htaken.2)

theorem isSome_of_mem_trace (hc : c ∈ s.ctx.trace) (ha : a ∈ c.values P.kind) :
    (s.ctx.graph.getNode a).isSome := by
  rw [s.ctx.graph_eq, isSome_run tg AliasGraph.sane_empty]
  exact Or.inl ⟨c, hc, ha⟩

/-- A call that joins a value of a cluster takes the other value in. -/
theorem mem_cluster_of_joins (hcomplete : CompleteRun tg P.kind s.ctx.trace {})
    (ha : a = V ∨ a ∈ s.ctx.graph.getClusterValues V ∅) (hc : c ∈ s.ctx.trace)
    (haccepted : AcceptedRun tg P.kind c s.ctx.trace {}) (hop : c.Joins P.kind a b) :
    b ∈ s.ctx.graph.getClusterValues V ∅ := by
  have hrep := completeRun_accepted hcomplete
  rw [← s.ctx.graph_eq] at hrep
  have hnode : (s.ctx.graph.getNode V).isSome := by
    rcases ha with rfl | ha
    · exact isSome_of_mem_trace hc hop.mem_values
    · exact isSome_of_mem_cluster ha
  rw [hrep.mem_cluster_iff hnode] at ha ⊢
  have hVa : Relation.EqvGen (Accepted tg P.kind s.ctx.trace {}) V a := by
    rcases ha with rfl | ha
    · exact .refl a
    · exact ha
  refine .trans _ _ _ hVa ?_
  rcases hop with hop | hop
  · exact .rel _ _ ⟨c, haccepted, hop⟩
  · exact .symm _ _ (.rel _ _ ⟨c, haccepted, hop⟩)

/-- A call that has been made takes the loop from one value to another one. -/
theorem comesTo_of_joins (hcomplete : CompleteRun tg P.kind s.ctx.trace {})
    (hvisited : P.Visited Ctx given first a) (ha : s.ComesTo first a) (hc : c ∈ s.ctx.trace)
    (hop : c.Joins P.kind a b) : s.ComesTo first b ∨ Missed Ctx given first s₀ s := by
  by_cases haccepted : AcceptedRun tg P.kind c s.ctx.trace {}
  · obtain ⟨w, hw, haw⟩ := ha
    exact Or.inl ⟨w, hw, Or.inr (mem_cluster_of_joins hcomplete haw hc haccepted hop)⟩
  · exact Or.inr (.refused hvisited ha hop hc haccepted)

/-- The loop comes to all visited values. -/
theorem Succeeds.comesTo (h : Succeeds Ctx given s₀ s) (hu : P.Visited Ctx given first u) :
    s.ComesTo first u ∨ Missed Ctx given first s₀ s := by
  induction hu with
  | @first v hv => exact Or.inl ⟨v, Or.inl hv, Or.inl rfl⟩
  | given ha hc hop ih =>
    rcases ih with hcomes | hmissed
    · exact comesTo_of_joins h.complete ha hcomes (h.given _ hc) hop
    · exact Or.inr hmissed
  | around hu ha hc hop ihu iha =>
    rcases ihu with hcomesu | hmissed
    · rcases iha with hcomesa | hmissed
      · rcases h.done hu hcomesu with hdone | hmissed
        · exact comesTo_of_joins h.complete ha hcomesa (hdone.around _ hc) hop
        · exact Or.inr hmissed
      · exact Or.inr hmissed
    · exact Or.inr hmissed
  | @queued v g hv hg ih =>
    rcases ih with hcomes | hmissed
    · rcases h.done hv hcomes with hdone | hmissed
      · -- nothing is queued in the end
        have hanalyzed : g ∈ s.AnalyzedList := by
          rcases hdone.queues g hg with hanalyzed | hqueued
          · exact hanalyzed
          · rw [h.queue] at hqueued
            cases hqueued
        exact Or.inl ⟨g, Or.inr ⟨hg.kind_global, hanalyzed⟩, Or.inl rfl⟩
      · exact Or.inr hmissed
    · exact Or.inr hmissed

/-- All that belongs to a visited value is done. -/
theorem Succeeds.done_of_visited (h : Succeeds Ctx given s₀ s)
    (hu : P.Visited Ctx given first u) : s.Done Ctx u ∨ Missed Ctx given first s₀ s := by
  rcases h.comesTo hu with hcomes | hmissed
  · exact h.done hu hcomes
  · exact Or.inr hmissed

/-- All calls of the pool are made. -/
theorem Succeeds.mem_trace (h : Succeeds Ctx given s₀ s) (hc : P.Pool Ctx given first c) :
    c ∈ s.ctx.trace ∨ Missed Ctx given first s₀ s := by
  rcases hc with hc | ⟨u, hu, hc⟩
  · exact Or.inl (h.given c hc)
  · exact (h.done_of_visited hu).imp_left fun hdone => hdone.around c hc

/-- **The cluster.**  Unless something is missed, it has what is connected with its first
    value. -/
theorem Succeeds.mem_cluster (h : Succeeds Ctx given s₀ s)
    (hv : P.Connected Ctx given first V v) (hV : first V) :
    v = V ∨ v ∈ s.ctx.graph.getClusterValues V ∅ ∨ Missed Ctx given first s₀ s := by
  by_cases hmissed : Missed Ctx given first s₀ s
  · exact Or.inr (Or.inr hmissed)
  · have hmem : P.Visited Ctx given first v ∧
        (v = V ∨ v ∈ s.ctx.graph.getClusterValues V ∅) := by
      refine Program.connected_induction (I := fun a => P.Visited Ctx given first a ∧
        (a = V ∨ a ∈ s.ctx.graph.getClusterValues V ∅)) hv ?_ ⟨.first hV, Or.inl rfl⟩
      rintro c a b hc hop ⟨hvisited, ha⟩
      have htrace : c ∈ s.ctx.trace := (h.mem_trace hc).resolve_right hmissed
      have haccepted : AcceptedRun tg P.kind c s.ctx.trace {} := by
        by_contra hno
        exact hmissed (.refused hvisited ⟨V, Or.inl hV, ha⟩ hop htrace hno)
      exact ⟨hvisited.joins hc hop,
        Or.inr (mem_cluster_of_joins h.complete ha htrace haccepted hop)⟩
    rcases hmem.2 with heq | hcluster
    · exact Or.inl heq
    · exact Or.inr (Or.inl hcluster)

end LoopState

/-! ## Indirect calls -/

/-- A call through `V` that is among the instructions of its function. -/
structure Program.CallsThrough (P : Program) (CI V : Value) : Prop where
  kind : P.kind CI = .instruction .call
  operand : P.getCalledOperand CI = some V
  inst : CI ∈ P.insts (P.getFunction CI)
  useful : P.isUselessInst CI = false

instance (P : Program) (CI V : Value) : Decidable (P.CallsThrough CI V) :=
  decidable_of_iff (P.kind CI = .instruction .call ∧ P.getCalledOperand CI = some V ∧
      CI ∈ P.insts (P.getFunction CI) ∧ P.isUselessInst CI = false)
    ⟨fun h => ⟨h.1, h.2.1, h.2.2.1, h.2.2.2⟩, fun h => ⟨h.1, h.2, h.3, h.4⟩⟩

section
variable {icall icall_V v : Value} {s : LoopState tg P} {fuel : ℕ}

/-- The called operand gets a node first of all. -/
theorem alloc_mem_bodyCalls (hicall : P.CallsThrough icall icall_V) :
    .alloc icall_V ∈ P.bodyCalls Ctx (P.getFunction icall) := by
  refine List.mem_flatMap.2 ⟨icall, hicall.inst, ?_⟩
  have hcai : .alloc icall_V ∈ P.HandleCai Ctx icall := by
    unfold Program.HandleCai
    refine List.mem_append_left _ (List.mem_cons_of_mem _ (List.mem_map_of_mem ?_))
    exact List.mem_of_getLast? hicall.operand
  unfold Program.HandleInst
  rw [if_neg (by simp [hicall.useful]), hicall.kind]
  exact List.mem_append_right _ hcai

theorem succeeds_HandleICall (hrun : HandleICall tg P Ctx fuel icall = some s)
    (hsucc : s.ctx.Is_Analyze_Success = true)
    (hcomplete : CompleteRun tg P.kind s.ctx.trace {}) :
    Succeeds Ctx (· ∈ P.bodyCalls Ctx (P.getFunction icall)) (HandleICallStart tg P Ctx icall)
      s := by
  obtain ⟨hreach, hend⟩ := runs_spec hrun
  have hbodies : (HandleICallStart tg P Ctx icall).ctx.BodiesHandled Ctx :=
    (AliasContext.follows_HandleInsts (P.getFunction icall) ({} : AliasContext tg P)).bodies
      fun F hF => absurd hF (Finset.notMem_empty F)
  have hlater : Later (HandleICallStart tg P Ctx icall) s :=
    reaches_rel (fun _ _ hstep => later_loopStep hstep) hreach
  exact
    { complete := hcomplete
      expanded := (expanded_of_reaches hreach (fun _ => hbodies) hsucc).2
      queue := AnalysisList_nil hend (hlater.stopped fun h => by cases h) hsucc
      given := fun c hc => hlater.trace.mem (List.mem_append_right _ hc) }

/-- When `HandleICall` succeeds, every value that is connected with the called operand is in
    its cluster, unless something is missed. -/
theorem mem_cluster_HandleICall (hicall : P.CallsThrough icall icall_V)
    (hrun : HandleICall tg P Ctx fuel icall = some s)
    (hsucc : s.ctx.Is_Analyze_Success = true) (hcomplete : CompleteRun tg P.kind s.ctx.trace {})
    (h : P.Connected Ctx (· ∈ P.bodyCalls Ctx (P.getFunction icall)) (· = icall_V) icall_V v) :
    v ∈ s.ctx.graph.getClusterValues icall_V ∅ ∨
      Missed Ctx (· ∈ P.bodyCalls Ctx (P.getFunction icall)) (· = icall_V)
        (HandleICallStart tg P Ctx icall) s := by
  have hend := succeeds_HandleICall hrun hsucc hcomplete
  rcases hend.mem_cluster h rfl with rfl | hmem
  · -- the operand itself
    have hrep := completeRun_accepted hcomplete
    rw [← s.ctx.graph_eq] at hrep
    have hnode : (s.ctx.graph.getNode v).isSome :=
      isSome_of_mem_trace (hend.given _ (alloc_mem_bodyCalls hicall))
        (List.mem_singleton_self v)
    exact Or.inl ((hrep.mem_cluster_iff hnode).2 (.refl v))
  · exact hmem

/-- What a function of the cluster stands for is reported. -/
theorem mem_fset {F : Value} {f : Option Value} (hsucc : s.ctx.Is_Analyze_Success = true)
    (hmem : F ∈ s.ctx.graph.getClusterValues icall_V ∅) (hF : P.kind F = .function)
    (hf : f ∈ getGlobalFuncs P Ctx F) : f ∈ s.fset Ctx icall_V := by
  unfold LoopState.fset
  rw [if_neg (by rw [hsucc]; decide)]
  exact Finset.mem_biUnion.2 ⟨F, Finset.mem_filter.2 ⟨hmem, hF⟩, hf⟩

/-- **Indirect calls.**  When `HandleICall` succeeds, it reports what every function stands
    for that the pool connects with the called operand, unless something is missed. -/
theorem complete_HandleICall {F : Value} (hicall : P.CallsThrough icall icall_V)
    (hrun : HandleICall tg P Ctx fuel icall = some s)
    (hsucc : s.ctx.Is_Analyze_Success = true) (hcomplete : CompleteRun tg P.kind s.ctx.trace {})
    (h : P.Connected Ctx (· ∈ P.bodyCalls Ctx (P.getFunction icall)) (· = icall_V) icall_V F)
    (hF : P.kind F = .function) :
    getGlobalFuncs P Ctx F ⊆ s.fset Ctx icall_V ∨
      Missed Ctx (· ∈ P.bodyCalls Ctx (P.getFunction icall)) (· = icall_V)
        (HandleICallStart tg P Ctx icall) s :=
  (mem_cluster_HandleICall hicall hrun hsucc hcomplete h).imp_left
    fun hmem _ hf => mem_fset hsucc hmem hF hf

end

/-! ## Functions -/

section
variable {F v CI : Value} {s : LoopState tg P} {fuel : ℕ}

theorem succeeds_HandleFunc (hrun : HandleFunc tg P Ctx fuel F = some s)
    (hsucc : s.ctx.Is_Analyze_Success = true)
    (hcomplete : CompleteRun tg P.kind s.ctx.trace {}) :
    Succeeds Ctx (P.AtUse Ctx F) (HandleFuncStart tg P Ctx F) s := by
  obtain ⟨hreach, hend⟩ := runs_spec hrun
  obtain ⟨htrace, hsucc'⟩ := later_HandleFunc hrun
  have huses := bodiesHandled_HandleFuncUses tg P Ctx F
  have hstart : (HandleFuncStart tg P Ctx F).ctx.BodiesHandled Ctx ∧
      ((HandleFuncStart tg P Ctx F).stopped = true →
        (HandleFuncStart tg P Ctx F).ctx.Is_Analyze_Success = false) := by
    unfold HandleFuncStart
    dsimp only
    split
    · exact ⟨huses, fun _ => rfl⟩
    · exact ⟨huses, fun h => by cases h⟩
  have hlater : Later (HandleFuncStart tg P Ctx F) s :=
    reaches_rel (fun _ _ hstep => later_loopStep hstep) hreach
  exact
    { complete := hcomplete
      expanded := (expanded_of_reaches hreach (fun _ => hstart.1) hsucc).2
      queue := AnalysisList_nil hend (hlater.stopped hstart.2) hsucc
      given := fun c hc => htrace.mem (atUse_mem_trace hc (hsucc' hsucc)) }

/-- When `HandleFunc` succeeds, every value that is connected with the function is in its
    cluster, unless something is missed. -/
theorem mem_cluster_HandleFunc (hrun : HandleFunc tg P Ctx fuel F = some s)
    (hsucc : s.ctx.Is_Analyze_Success = true) (hcomplete : CompleteRun tg P.kind s.ctx.trace {})
    (h : P.Connected Ctx (P.AtUse Ctx F) (P.FirstAtUse F) F v) (hne : v ≠ F) :
    v ∈ s.ctx.graph.getClusterValues F ∅ ∨
      Missed Ctx (P.AtUse Ctx F) (P.FirstAtUse F) (HandleFuncStart tg P Ctx F) s :=
  ((succeeds_HandleFunc hrun hsucc hcomplete).mem_cluster h (Or.inl rfl)).resolve_left hne

/-- A call through a value of the cluster is reported. -/
theorem mem_callset (hsucc : s.ctx.Is_Analyze_Success = true)
    (hmem : v ∈ s.ctx.graph.getClusterValues F ∅) (hkind : P.kind CI = .instruction .call)
    (hV : P.getCalledOperand CI = some v) : CI ∈ s.callset F := by
  have huser : CI ∈ P.users v := (P.mem_users v CI).2 (List.mem_of_getLast? hV)
  unfold LoopState.callset
  rw [if_neg (by rw [hsucc]; decide)]
  refine Finset.mem_biUnion.2 ⟨v, hmem, List.mem_toFinset.2 (List.mem_filter.2 ⟨huser, ?_⟩)⟩
  simpa using ⟨hkind, hV⟩

/-- **Functions.**  When `HandleFunc` succeeds, it reports every indirect call through a
    value that the pool connects with the function, unless something is missed. -/
theorem complete_HandleFunc (hrun : HandleFunc tg P Ctx fuel F = some s)
    (hsucc : s.ctx.Is_Analyze_Success = true) (hcomplete : CompleteRun tg P.kind s.ctx.trace {})
    (h : P.Connected Ctx (P.AtUse Ctx F) (P.FirstAtUse F) F v) (hne : v ≠ F)
    (hkind : P.kind CI = .instruction .call) (hV : P.getCalledOperand CI = some v) :
    CI ∈ s.callset F ∨
      Missed Ctx (P.AtUse Ctx F) (P.FirstAtUse F) (HandleFuncStart tg P Ctx F) s :=
  (mem_cluster_HandleFunc hrun hsucc hcomplete h hne).imp_left
    fun hmem => mem_callset hsucc hmem hkind hV

end

/-! ## An argument -/

/-- The call graph of `passedIn`, with its one definition that is passed. -/
def passedInFuncs : GlobalContext :=
  { passedInCtx with
    GlobalFuncs := fun _ => {0}
    Global_Unique_Func_Map := fun hash => if hash = 0 then some 3 else none }

/-- The caller passes the function `3` for the formal `1`. -/
theorem connected_passedIn : passedIn.Connected passedInFuncs
    (· ∈ passedIn.bodyCalls passedInFuncs (passedIn.getFunction 2)) (· = 1) 1 3 := by
  have hmove : .move 3 1 ∈ passedIn.callerCalls passedInFuncs 5 (passedIn.getFunction 1) := by
    decide
  have hcaller : 5 ∈ passedInFuncs.Callers (passedIn.getFunction 1) := by decide
  exact .of_joins (Or.inr ⟨1, .first rfl, .argument rfl hcaller hmove⟩) (Or.inr rfl)

theorem HandleICall_passedInFuncs :
    ∀ s, HandleICall .empty passedIn passedInFuncs 4 2 = some s →
      s.ctx.Is_Analyze_Success = true ∧ CompleteRun .empty passedIn.kind s.ctx.trace {} ∧
      s.ctx.trace = [.alloc 2, .alloc 1, .move 3 1, .alloc 5, .alloc 3, .alloc 0] ∧
      s.AnalyzedList = {1, 3} ∧ s.ctx.graph.getClusterValues 1 ∅ = {1, 3} := by decide

/-- Nothing is missed for the call `2`. -/
theorem not_missed_passedIn {s : LoopState .empty passedIn}
    (hs : HandleICall .empty passedIn passedInFuncs 4 2 = some s) :
    ¬ Missed passedInFuncs (· ∈ passedIn.bodyCalls passedInFuncs (passedIn.getFunction 2)) (· = 1)
      (HandleICallStart .empty passedIn passedInFuncs 2) s := by
  obtain ⟨-, -, htrace, hanalyzed, hcluster⟩ := HandleICall_passedInFuncs s hs
  have hglobal : ∀ w, passedIn.kind w ≠ .globalVariable := by
    intro w hw
    match w with
    | 0 | 1 | 2 | 3 | 4 | 5 => cases hw
    | _ + 6 => cases hw
  rintro (⟨-, ⟨w, hw, hu⟩, hpassed, -⟩ | ⟨-, -, hop, hc, hno⟩)
  · have hw : w = 1 := hw.resolve_right fun h => hglobal w h.1
    subst hw
    rcases hpassed with hout | hstart
    · refine hout ?_
      rw [hanalyzed]
      rcases hu with rfl | hu
      · decide
      · rwa [hcluster] at hu
    · exact absurd hstart (Finset.notMem_empty _)
  · rw [htrace] at hc hno
    simp only [List.mem_cons, List.not_mem_nil, or_false] at hc
    rcases hc with rfl | rfl | rfl | rfl | rfl | rfl
    case inr.inr.inl => exact hno (Or.inr (Or.inr (Or.inl ⟨rfl, trivial⟩)))
    all_goals rcases hop with hop | hop <;> cases hop

/-- The function `3` is reported for the call `2`. -/
theorem complete_HandleICall_passedIn : ∃ s,
    HandleICall .empty passedIn passedInFuncs 4 2 = some s ∧ some 3 ∈ s.fset passedInFuncs 1 := by
  have hends : (HandleICall .empty passedIn passedInFuncs 4 2).isSome = true := by decide
  obtain ⟨s, hs⟩ := Option.isSome_iff_exists.1 hends
  obtain ⟨hsucc, hcomplete, -⟩ := HandleICall_passedInFuncs s hs
  have hsub := (complete_HandleICall (by decide) hs hsucc hcomplete
    connected_passedIn rfl).resolve_right (not_missed_passedIn hs)
  exact ⟨s, hs, hsub (by decide)⟩

/-- The call `5` of `callsBack` is through the formal that the function `0` is passed for. -/
theorem connected_callsBack : callsBack.Connected callsBackCtx (callsBack.AtUse callsBackCtx 0)
    (callsBack.FirstAtUse 0) 0 4 := by
  have hmove : .move 0 4 ∈ callsBack.calleeCalls callsBackCtx 2 3 := by decide
  exact .of_joins (Or.inl (.callee (.user (by decide)) rfl (by decide) hmove)) (Or.inl rfl)

/-- The analysis of the function `0` succeeds. -/
theorem succeeds_callsBack : ∃ s, HandleFunc .empty callsBack callsBackCtx 5 0 = some s ∧
    s.ctx.Is_Analyze_Success = true ∧ CompleteRun .empty callsBack.kind s.ctx.trace {} := by
  have hends : (HandleFunc .empty callsBack callsBackCtx 5 0).isSome = true := by decide
  have hall : ∀ s, HandleFunc .empty callsBack callsBackCtx 5 0 = some s →
      s.ctx.Is_Analyze_Success = true ∧ CompleteRun .empty callsBack.kind s.ctx.trace {} := by
    decide
  obtain ⟨s, hs⟩ := Option.isSome_iff_exists.1 hends
  exact ⟨s, hs, hall s hs⟩

theorem complete_HandleFunc_callsBack : ∃ s, HandleFunc .empty callsBack callsBackCtx 5 0 = some s ∧
    (5 ∈ s.callset 0 ∨ Missed callsBackCtx (callsBack.AtUse callsBackCtx 0)
      (callsBack.FirstAtUse 0) (HandleFuncStart .empty callsBack callsBackCtx 0) s) := by
  obtain ⟨s, hs, hsucc, hcomplete⟩ := succeeds_callsBack
  exact ⟨s, hs, complete_HandleFunc hs hsucc hcomplete connected_callsBack (by decide) rfl rfl⟩

end TFA
