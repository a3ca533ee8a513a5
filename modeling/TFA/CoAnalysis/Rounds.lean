/-
  The rounds of the main loop (`main` of `Analyzer.cc`).

  Every phase counts the targets of the indirect calls anew.  The loop records by how much
  each phase and each round reduces them, and goes on as long as a round reduces them by
  10000 or more.

  * `exists_coPhase`: for a finite program every phase can be carried out;
  * `mainLoop_ends`: the loop ends after `icallTargets / 10000 + 1` rounds at the latest;
  * `statistics_mainRun`: what the rounds record adds up to what the targets that the pass
    has counted are reduced by.
-/
import TFA.Alias.Finite
import TFA.CoAnalysis.Refinement
import TFA.Lib.DoWhile

namespace TFA

open Actions DoWhile

/-! ## The loop -/

/-- The variables of `main`. -/
structure MainState extends CoState where
  icallTargets : ℕ := 0
  reduce_num_total : List ℤ := []
  reduce_num_icall : List ℤ := []
  reduce_num_func : List ℤ := []
  reduce_num_onelayer : List ℤ := []
  reduce_num_escape : List ℤ := []
  loop_num : ℕ := 0

namespace CallProgram

section
variable (P : CallProgram)

/-- `icallTargets`, as every phase counts them. -/
def icallTargets (g : CallGraph) : ℕ := ∑ CI ∈ P.analysedCalls g, (g.ICallees CI).card

/-- `push_back` after a phase. -/
def Phase.push (p : Phase) (reduce : ℤ) (x : MainState) : MainState :=
  match p with
  | .FuncAliasAnalysis => { x with reduce_num_func := x.reduce_num_func ++ [reduce] }
  | .ICallAliasAnalysis => { x with reduce_num_icall := x.reduce_num_icall ++ [reduce] }
  | .oneLayerHandler => { x with reduce_num_onelayer := x.reduce_num_onelayer ++ [reduce] }
  | .escapeHandler => { x with reduce_num_escape := x.reduce_num_escape ++ [reduce] }

/-- The variables after a phase that has ended in `s`. -/
def afterPhase (p : Phase) (x : MainState) (s : CoState) : MainState :=
  p.push (x.icallTargets - P.icallTargets s.toCallGraph)
    { x with toCoState := s, icallTargets := P.icallTargets s.toCallGraph }

/-- The variables at the end of a round that has started in `x`. -/
def endRound (x y : MainState) : MainState :=
  { y with
    reduce_num_total := y.reduce_num_total ++ [(x.icallTargets : ℤ) - y.icallTargets]
    loop_num := y.loop_num + 1 }

/-- The round reduces the targets by so many that there is another. -/
def Again (x y : MainState) : Prop := 10000 ≤ (x.icallTargets : ℤ) - y.icallTargets

end

section
variable (tg : TBAAGraph) (P : CallProgram)

/-- One phase of the co-analysis. -/
abbrev CoPhase : Phase × CoState → Phase × CoState → Prop :=
  PhaseStep (perform tg P) (Allowed tg P) Phase.next (PhaseActions tg P)

/-- One phase, with what is recorded of it. -/
inductive Measured (p : Phase) : MainState → MainState → Prop
  | phase {x s} : CoPhase tg P (p, x.toCoState) (p.next, s) →
      Measured p x (P.afterPhase p x s)

/-- One round. -/
inductive Round : MainState → MainState → Prop
  | round {x x₁ x₂ x₃ x₄} : Measured tg P .FuncAliasAnalysis x x₁ →
      Measured tg P .ICallAliasAnalysis x₁ x₂ → Measured tg P .oneLayerHandler x₂ x₃ →
      Measured tg P .escapeHandler x₃ x₄ → Round x (endRound x x₄)

/-- A run of the loop, with so many rounds. -/
abbrev MainRun : ℕ → MainState → MainState → Prop := Run (Round tg P) Again

end

/-! ### What the pass counts -/

section
variable (P : CallProgram)

/-- The number that a call of the pass adds to `icallTargets`. -/
def countTargets (F : Func) (s : CallGraph × ℕ) (CI : Value) : ℕ :=
  if P.kind CI ≠ .instruction .call ∨ P.isDebugCall CI then 0
  else if P.isIndirectCall CI ∧ P.checkValidIcalls CI ∧
      P.callInfoHash CI F (s.2 + 1) ∉ s.1.globalFuncNameMap (P.getName F) then
    (P.findCalleesWithMLTA s.1.layers CI).2.card
  else 0

/-- One instruction of the pass, with the count. -/
def visitCounted (F : Func) (s : (CallGraph × ℕ) × ℕ) (CI : Value) : (CallGraph × ℕ) × ℕ :=
  (P.visitCall F s.1 CI, s.2 + P.countTargets F s.1 CI)

/-- One function of the pass, with the count. -/
def functionCounted (s : CallGraph × ℕ) (F : Func) : CallGraph × ℕ :=
  let s := (P.insts F).foldl (P.visitCounted F) ((s.1, 0), s.2)
  (s.1.1, s.2)

/-- The call graph of the modules, with the count. -/
def callGraphCounted (m : LayerMaps) (Ms : List LLVMModule) : CallGraph × ℕ :=
  Ms.foldl (fun s M => M.functions.foldl P.functionCounted s) (P.initCallGraph m Ms, 0)

/-- The state before the main loop. -/
def mainStart (m : LayerMaps) (Ms : List LLVMModule) : MainState where
  toCoState := P.coStart m Ms
  icallTargets := (P.callGraphCounted m Ms).2

end

/-! ## Every phase can be carried out -/

section
variable {tg : TBAAGraph} {P : CallProgram} {U : Finset Value} {m : LayerMaps}
  {Ms : List LLVMModule} {s : CoState} {p : Phase}

theorem holds_perform (h : P.Holds (P.coContext s) U) (a : Action tg P) :
    P.Holds (P.coContext (perform tg P s a)) U where
  values := h.values
  insts := h.insts
  args := h.args
  initializer := h.initializer
  unique_func := h.unique_func
  unique_gv := h.unique_gv
  callers F cai hcai := by
    refine h.callers F cai ?_
    have hcallers := callers_perform s a
    show cai ∈ inOrder (s.Callers F)
    rwa [← hcallers]

/-- The callers are instructions. -/
theorem holds_coStart (h : P.Holds P.Ctx U) : P.Holds (P.coContext (P.coStart m Ms)) U where
  values := h.values
  insts := h.insts
  args := h.args
  initializer := h.initializer
  unique_func := h.unique_func
  unique_gv := h.unique_gv
  callers F cai hcai := by
    have hall : ∀ f, ∀ CI ∈ (P.callGraph m Ms).Callers f, CI ∈ U := by
      refine callGraph_induction (I := fun g => ∀ f, ∀ CI ∈ g.Callers f, CI ∈ U) ?_ ?_
      · intro M _ F _ CI hCI g id hg f CI' hCI'
        have hin : CI ∈ U := h.insts F CI hCI
        have hinsert : ∀ FS : Finset Func,
            CI' ∈ (if f ∈ FS then insert CI (g.Callers f) else g.Callers f) → CI' ∈ U := by
          intro FS hmem
          split at hmem
          · rcases Finset.mem_insert.1 hmem with rfl | hmem
            · exact hin
            · exact hg f CI' hmem
          · exact hg f CI' hmem
        rcases P.visitCall_cases F g id CI with heq | ⟨-, hseen, heq⟩ | ⟨-, -, heq⟩
        · rw [heq] at hCI'
          exact hg f CI' hCI'
        · rw [heq, visitIndirectCall, if_neg hseen] at hCI'
          exact hinsert _ hCI'
        · rw [heq] at hCI'
          exact hinsert _ hCI'
      · intro f CI hCI
        cases hCI
    exact hall F cai (mem_inOrder.1 hcai)

variable (tg) in
/-- **Phases.**  No phase gets stuck: both alias analyses end. -/
theorem exists_coPhase (h : P.Holds (P.coContext s) U) (p : Phase) :
    ∃ s', CoPhase tg P (p, s) (p.next, s') := by
  have hlists : ∀ {α : Type} [DecidableEq α] (S : Finset α), Lists S.toList S := fun S =>
    ⟨S.nodup_toList, S.toList_toFinset⟩
  have hCIs := hlists (P.analysedCalls s.toCallGraph)
  cases p with
  | FuncAliasAnalysis =>
    choose n r hr using exists_HandleFunc tg h
    have hallowed : Allowed tg P s (.funcAlias P.Ctx.Global_AddressTaken_Func_Set.toList
        fun F => (r F).verdict F) := fun F _ => ⟨n F, r F, hr F (n F) le_rfl, rfl⟩
    exact ⟨_, .phase ⟨_, _, hlists _, rfl⟩ (.cons hallowed .nil)⟩
  | ICallAliasAnalysis =>
    have : Inhabited (LoopState tg P.toProgram) := ⟨{ ctx := {} }⟩
    have hallowed : ∀ s : CoState, P.Holds (P.coContext s) U → ∀ cai,
        ∃ r, Allowed tg P s (.icallAlias cai r) := by
      intro s hs cai
      obtain ⟨n, r, hr⟩ := exists_HandleICall tg hs cai
      exact ⟨r, fun _ => ⟨n, hr n le_rfl⟩⟩
    have hrun : ∃ (r : Value → LoopState tg P.toProgram) (s' : CoState),
        Runs (perform tg P) (Allowed tg P)
          ((P.analysedCalls s.toCallGraph).toList.map fun cai => .icallAlias cai (r cai)) s s' :=
      exists_runs_map hallowed (fun _ a hs => holds_perform hs a) hCIs.1 h
    obtain ⟨r, s', hrun⟩ := hrun
    exact ⟨s', .phase ⟨_, r, hCIs, rfl⟩ hrun⟩
  | oneLayerHandler =>
    have hrun : ∃ s', Runs (perform tg P) (Allowed tg P)
        ((P.analysedCalls s.toCallGraph).toList.map .oneLayer) s s' := by
      refine exists_runs_of_mem (fun a ha _ => ?_) s
      obtain ⟨CI, -, rfl⟩ := List.mem_map.1 ha
      trivial
    obtain ⟨s', hrun⟩ := hrun
    exact ⟨s', .phase ⟨_, hCIs, rfl⟩ hrun⟩
  | escapeHandler =>
    have hrun : ∃ s', Runs (perform tg P) (Allowed tg P)
        (s.escapedTypesInTypeAnalysisSet.toList.map .unescape ++
          (P.analysedCalls s.toCallGraph).toList.map .rerun) s s' := by
      refine exists_runs_of_mem (fun a ha _ => ?_) s
      rcases List.mem_append.1 ha with ha | ha
      · obtain ⟨hash, -, rfl⟩ := List.mem_map.1 ha
        trivial
      · obtain ⟨CI, -, rfl⟩ := List.mem_map.1 ha
        trivial
    obtain ⟨s', hrun⟩ := hrun
    exact ⟨s', .phase ⟨_, _, hlists _, hCIs, rfl⟩ hrun⟩

/-! ## The loop ends -/

variable {x y : MainState} {k : ℕ}

theorem toCoState_push (p : Phase) (reduce : ℤ) (x : MainState) :
    (p.push reduce x).toCoState = x.toCoState ∧ (p.push reduce x).icallTargets = x.icallTargets :=
  by cases p <;> exact ⟨rfl, rfl⟩

/-- The states of a round are states of the co-analysis. -/
theorem Measured.mainLoop (h : Measured tg P p x y) :
    MainLoop (Allowed tg P) (p, x.toCoState) (p.next, y.toCoState) := by
  cases h with
  | phase h =>
    rw [afterPhase, (toCoState_push _ _ _).1]
    exact .single h

theorem Round.mainLoop (h : Round tg P x y) : MainLoop (Allowed tg P)
    (.FuncAliasAnalysis, x.toCoState) (.FuncAliasAnalysis, y.toCoState) := by
  cases h with
  | round h₁ h₂ h₃ h₄ =>
    exact ((h₁.mainLoop.trans h₂.mainLoop).trans h₃.mainLoop).trans h₄.mainLoop

theorem MainRun.mainLoop (h : MainRun tg P k x y) : MainLoop (Allowed tg P)
    (.FuncAliasAnalysis, x.toCoState) (.FuncAliasAnalysis, y.toCoState) := by
  induction h with
  | last hround _ => exact hround.mainLoop
  | more hround _ _ ih => exact hround.mainLoop.trans ih

theorem takes_again : Takes (Round tg P) Again MainState.icallTargets 10000 := by
  intro x y _ hagain
  unfold Again at hagain
  omega

variable (tg) in
theorem exists_measured (h : P.Holds (P.coContext x.toCoState) U) (p : Phase) :
    ∃ y, Measured tg P p x y ∧ P.Holds (P.coContext y.toCoState) U := by
  obtain ⟨s, hs⟩ := exists_coPhase tg h p
  have hU : P.Holds (P.coContext s) U :=
    phases_induction (I := fun s : CoState => P.Holds (P.coContext s) U)
      (fun _ a _ h => holds_perform h a) (.single hs) h
  refine ⟨_, .phase hs, ?_⟩
  rwa [afterPhase, (toCoState_push _ _ _).1]

variable (tg) in
theorem exists_round (h : P.Holds (P.coContext x.toCoState) U) :
    ∃ y, Round tg P x y ∧ P.Holds (P.coContext y.toCoState) U := by
  obtain ⟨x₁, h₁, hU₁⟩ := exists_measured tg h .FuncAliasAnalysis
  obtain ⟨x₂, h₂, hU₂⟩ := exists_measured tg hU₁ .ICallAliasAnalysis
  obtain ⟨x₃, h₃, hU₃⟩ := exists_measured tg hU₂ .oneLayerHandler
  obtain ⟨x₄, h₄, hU₄⟩ := exists_measured tg hU₃ .escapeHandler
  exact ⟨endRound x x₄, .round h₁ h₂ h₃ h₄, hU₄⟩

variable (tg P m Ms) in
theorem exists_mainRun (h : P.Holds P.Ctx U) : ∃ k y, MainRun tg P k (P.mainStart m Ms) y := by
  have hstart : P.Holds (P.coContext (P.mainStart m Ms).toCoState) U := holds_coStart h
  exact exists_run takes_again (by decide) (fun x hx => exists_round tg hx) hstart

end

/-! ## What is recorded -/

/-- What a round reduces the targets by, phase by phase. -/
structure Reductions where
  func : ℤ
  icall : ℤ
  onelayer : ℤ
  escape : ℤ

/-- What a round reduces the targets by. -/
def Reductions.total (r : Reductions) : ℤ := r.func + r.icall + r.onelayer + r.escape

/-- The rounds from `x` to `y` have recorded these reductions. -/
structure Recorded (rows : List Reductions) (x y : MainState) : Prop where
  func : y.reduce_num_func = x.reduce_num_func ++ rows.map (·.func)
  icall : y.reduce_num_icall = x.reduce_num_icall ++ rows.map (·.icall)
  onelayer : y.reduce_num_onelayer = x.reduce_num_onelayer ++ rows.map (·.onelayer)
  escape : y.reduce_num_escape = x.reduce_num_escape ++ rows.map (·.escape)
  total : y.reduce_num_total = x.reduce_num_total ++ rows.map (·.total)
  loop_num : y.loop_num = x.loop_num + rows.length
  sum : (rows.map (·.total)).sum = (x.icallTargets : ℤ) - y.icallTargets

section
variable {tg : TBAAGraph} {P : CallProgram} {s s' : CoState} {p : Phase} {x y z : MainState}
  {k : ℕ} {rows rows' : List Reductions}

theorem Recorded.append (h : Recorded rows x y) (h' : Recorded rows' y z) :
    Recorded (rows ++ rows') x z where
  func := by rw [h'.func, h.func, List.map_append, List.append_assoc]
  icall := by rw [h'.icall, h.icall, List.map_append, List.append_assoc]
  onelayer := by rw [h'.onelayer, h.onelayer, List.map_append, List.append_assoc]
  escape := by rw [h'.escape, h.escape, List.map_append, List.append_assoc]
  total := by rw [h'.total, h.total, List.map_append, List.append_assoc]
  loop_num := by rw [h'.loop_num, h.loop_num, List.length_append, add_assoc]
  sum := by
    rw [List.map_append, List.sum_append, h.sum, h'.sum]
    ring

/-! ### The alias analyses -/

/-- The calls that are analysed stay, and their targets only shrink. -/
def Narrows (s s' : CoState) : Prop :=
  Shrinks s s' ∧ s'.Global_MLTA_Reualt_Map = s.Global_MLTA_Reualt_Map

instance : IsPreorder CoState Narrows where
  refl s := ⟨refl_of Shrinks s, rfl⟩
  trans _ _ _ h h' := ⟨trans_of Shrinks h.1 h'.1, h'.2.trans h.2⟩

theorem Narrows.icallTargets_le (h : Narrows s s') :
    P.icallTargets s'.toCallGraph ≤ P.icallTargets s.toCallGraph := by
  unfold icallTargets analysedCalls
  rw [h.2]
  exact Finset.sum_le_sum fun CI _ => Finset.card_le_card (h.1 CI)

/-- The two alias analyses do not add targets. -/
theorem narrows_coPhase {q : Phase} (h : CoPhase tg P (p, s) (q, s'))
    (hp : p = .FuncAliasAnalysis ∨ p = .ICallAliasAnalysis) : Narrows s s' := by
  have hquiet : ∀ s (a : Action tg P), (∀ CI, ¬ P.Sets s a CI) →
      (perform tg P s a).Global_MLTA_Reualt_Map = s.Global_MLTA_Reualt_Map →
      Narrows s (perform tg P s a) := fun s a hno hmap =>
    ⟨fun CI => (targets_perform_of_not_sets (hno CI)).2, hmap⟩
  cases h with
  | phase hl hrun =>
    refine hrun.rel_of_mem fun a ha s₁ _ => ?_
    rcases hp with rfl | rfl
    · obtain ⟨TargetVec, verdict, -, rfl⟩ := hl
      rw [List.mem_singleton.1 ha]
      exact hquiet _ _ (fun _ hsets => hsets) rfl
    · obtain ⟨CIs, r, -, rfl⟩ := hl
      obtain ⟨cai, -, rfl⟩ := List.mem_map.1 ha
      refine hquiet _ _ (fun _ hsets => hsets) ?_
      show (P.icallAlias cai (r cai) s₁).Global_MLTA_Reualt_Map = _
      unfold icallAlias
      split <;> rfl

/-- **One round.** -/
theorem recorded_round (h : Round tg P x y) :
    y.icallTargets = P.icallTargets y.toCallGraph ∧ ∃ r, Recorded [r] x y ∧ 0 ≤ r.icall ∧
      (x.icallTargets = P.icallTargets x.toCallGraph → 0 ≤ r.func) := by
  obtain ⟨h₁, h₂, h₃, h₄⟩ := h
  obtain @⟨s₁, hs₁⟩ := h₁
  obtain @⟨s₂, hs₂⟩ := h₂
  obtain @⟨s₃, hs₃⟩ := h₃
  obtain @⟨s₄, hs₄⟩ := h₄
  have hfunc : P.icallTargets s₁.toCallGraph ≤ P.icallTargets x.toCallGraph :=
    (narrows_coPhase hs₁ (Or.inl rfl)).icallTargets_le
  have hicall : P.icallTargets s₂.toCallGraph ≤ P.icallTargets s₁.toCallGraph :=
    (narrows_coPhase hs₂ (Or.inr rfl)).icallTargets_le
  -- what the phases take away adds up
  have htotal : ∀ a b c d e : ℤ, (a - b) + (b - c) + (c - d) + (d - e) = a - e := by
    intro a b c d e
    ring
  refine ⟨rfl, ⟨x.icallTargets - P.icallTargets s₁.toCallGraph,
    P.icallTargets s₁.toCallGraph - P.icallTargets s₂.toCallGraph,
    P.icallTargets s₂.toCallGraph - P.icallTargets s₃.toCallGraph,
    P.icallTargets s₃.toCallGraph - P.icallTargets s₄.toCallGraph⟩, ?_, ?_, ?_⟩
  · refine ⟨rfl, rfl, rfl, rfl, ?_, rfl, ?_⟩
    · rw [List.map_singleton, Reductions.total, htotal]
      rfl
    · rw [List.map_singleton, List.sum_singleton, Reductions.total, htotal]
      rfl
  · dsimp only
    omega
  · intro hx
    dsimp only
    rw [hx]
    omega

/-- **All rounds.** -/
theorem recorded_mainRun (h : MainRun tg P k x y) : ∃ rows : List Reductions,
    rows.length = k ∧ Recorded rows x y ∧ y.icallTargets = P.icallTargets y.toCallGraph ∧
      (∀ r ∈ rows.dropLast, 10000 ≤ r.total) ∧ (∀ r ∈ rows.getLast?, r.total < 10000) ∧
      (x.icallTargets = P.icallTargets x.toCallGraph → ∀ r ∈ rows, 0 ≤ r.func ∧ 0 ≤ r.icall) := by
  have hrow : ∀ {r : Reductions} {x y : MainState}, Recorded [r] x y →
      r.total = (x.icallTargets : ℤ) - y.icallTargets := by
    intro r x y hr
    have hsum := hr.sum
    rwa [List.map_singleton, List.sum_singleton] at hsum
  induction h with
  | @last x y hbody hend =>
    obtain ⟨hy, r, hr, hicall, hfunc⟩ := recorded_round hbody
    refine ⟨[r], rfl, hr, hy, by simp, ?_, ?_⟩
    · intro r' hr'
      have hr' : r = r' := Option.some.inj hr'
      rw [← hr', hrow hr]
      unfold Again at hend
      omega
    · intro hx r' hr'
      rw [List.mem_singleton.1 hr']
      exact ⟨hfunc hx, hicall⟩
  | @more k x y z hbody hagain hrest ih =>
    obtain ⟨hy, r, hr, hicall, hfunc⟩ := recorded_round hbody
    obtain ⟨rows, hlen, hrows, hz, hmore, hlast, hpos⟩ := ih
    have hne : rows ≠ [] := by
      rintro rfl
      cases hrest <;> cases hlen
    refine ⟨r :: rows, by rw [List.length_cons, hlen], hr.append hrows, hz, ?_, ?_, ?_⟩
    · intro r' hr'
      rw [List.dropLast_cons_of_ne_nil hne] at hr'
      rcases List.mem_cons.1 hr' with rfl | hr'
      · rw [hrow hr]
        exact hagain
      · exact hmore r' hr'
    · intro r' hr'
      rw [List.getLast?_cons_of_ne_nil hne] at hr'
      exact hlast r' hr'
    · intro hx r' hr'
      rcases List.mem_cons.1 hr' with rfl | hr'
      · exact ⟨hfunc hx, hicall⟩
      · exact hpos hy r' hr'

end

/-! ## What the pass counts -/

section
variable {P : CallProgram} {g : CallGraph} {CI CI' : Value} {F : Func} {id n : ℕ}
  {m : LayerMaps} {Ms : List LLVMModule}

/-- The new targets of a call that has not been analysed before are counted. -/
theorem icallTargets_visitIndirectCall (hCI : CI ∈ P.values)
    (hnew : g.Global_MLTA_Reualt_Map CI = none)
    (hseen : P.callInfoHash CI F id ∉ g.globalFuncNameMap (P.getName F)) :
    P.icallTargets (P.visitIndirectCall F id g CI) =
      P.icallTargets g + (P.findCalleesWithMLTA g.layers CI).2.card := by
  have hout : CI ∉ P.analysedCalls g := by
    intro h
    have hsome := (Finset.mem_filter.1 h).2
    rw [hnew] at hsome
    cases hsome
  have hcalls : P.analysedCalls (P.visitIndirectCall F id g CI) =
      insert CI (P.analysedCalls g) := by
    ext CI'
    simp only [analysedCalls, Finset.mem_insert, Finset.mem_filter, visitIndirectCall, if_neg hseen]
    by_cases heq : CI' = CI
    · subst heq
      simp [hCI]
    · simp [heq]
  have hself : (P.visitIndirectCall F id g CI).ICallees CI =
      (P.findCalleesWithMLTA g.layers CI).2 := by
    rw [visitIndirectCall, if_neg hseen]
    exact Function.update_self _ _ _
  unfold icallTargets
  rw [hcalls, Finset.sum_insert hout, hself, add_comm]
  congr 1
  refine Finset.sum_congr rfl fun CI' hCI' => ?_
  have hne : CI' ≠ CI := by
    rintro rfl
    exact hout hCI'
  rw [visitIndirectCall, if_neg hseen]
  show (Function.update g.ICallees CI _ CI').card = _
  rw [Function.update_of_ne hne]

/-- **One instruction.** -/
theorem icallTargets_visitCall (F : Func) (id : ℕ) (hnew : g.Global_MLTA_Reualt_Map CI = none) :
    P.icallTargets (P.visitCall F (g, id) CI).1 =
        P.icallTargets g + P.countTargets F (g, id) CI ∧
      ∀ CI', CI' ≠ CI → (P.visitCall F (g, id) CI).1.Global_MLTA_Reualt_Map CI' =
        g.Global_MLTA_Reualt_Map CI' := by
  unfold visitCall countTargets
  split_ifs with hskip hicall hvalid hcount hcount hcount
  · exact ⟨rfl, fun _ _ => rfl⟩
  · refine ⟨icallTargets_visitIndirectCall ?_ hnew hcount.2.2, fun CI' hne => ?_⟩
    · -- an indirect call has a called operand
      unfold isIndirectCall at hicall
      split at hicall
      case h_1 V hV => exact (P.mem_values V CI (List.mem_of_getLast? hV)).2
      case h_2 => cases hicall
    · show (P.visitIndirectCall F (id + 1) g CI).Global_MLTA_Reualt_Map CI' = _
      rw [visitIndirectCall, if_neg hcount.2.2]
      exact Function.update_of_ne hne _ _
  · have hsame : P.visitIndirectCall F (id + 1) g CI = g := by
      rw [visitIndirectCall, if_pos]
      by_contra hseen
      exact hcount ⟨hicall, hvalid, hseen⟩
    rw [hsame]
    exact ⟨rfl, fun _ _ => rfl⟩
  · exact absurd hcount.2.1 hvalid
  · exact ⟨rfl, fun _ _ => rfl⟩
  · exact absurd hcount.1 hicall
  · exact ⟨rfl, fun _ _ => rfl⟩

theorem foldl_visitCounted {l : List Value} (hl : l.Nodup) (g : CallGraph) (id : ℕ)
    (hnew : ∀ CI ∈ l, g.Global_MLTA_Reualt_Map CI = none) :
    l.foldl (P.visitCounted F) ((g, id), P.icallTargets g) =
        (l.foldl (P.visitCall F) (g, id), P.icallTargets (l.foldl (P.visitCall F) (g, id)).1) ∧
      ∀ CI, CI ∉ l → (l.foldl (P.visitCall F) (g, id)).1.Global_MLTA_Reualt_Map CI =
        g.Global_MLTA_Reualt_Map CI := by
  induction l generalizing g id with
  | nil => exact ⟨rfl, fun _ _ => rfl⟩
  | cons CI l ih =>
    rw [List.nodup_cons] at hl
    obtain ⟨hcount, hother⟩ := icallTargets_visitCall F id (hnew CI List.mem_cons_self)
    have hstep : P.visitCounted F ((g, id), P.icallTargets g) CI =
        (P.visitCall F (g, id) CI, P.icallTargets (P.visitCall F (g, id) CI).1) := by
      rw [visitCounted, hcount]
    have hrest := ih hl.2 (P.visitCall F (g, id) CI).1 (P.visitCall F (g, id) CI).2
      fun CI' hCI' => by
        rw [hother CI' (by rintro rfl; exact hl.1 hCI')]
        exact hnew CI' (List.mem_cons_of_mem _ hCI')
    rw [List.foldl_cons, List.foldl_cons, hstep]
    refine ⟨hrest.1, fun CI' hCI' => ?_⟩
    rw [List.mem_cons, not_or] at hCI'
    rw [hrest.2 CI' hCI'.2, hother CI' hCI'.1]

/-- One function, without the count. -/
def functionPass (P : CallProgram) (g : CallGraph) (F : Func) : CallGraph :=
  ((P.insts F).foldl (P.visitCall F) (g, 0)).1

theorem foldl_functionCounted {Fs : List Func} (hFs : (Fs.flatMap P.insts).Nodup) (g : CallGraph)
    (hnew : ∀ CI ∈ Fs.flatMap P.insts, g.Global_MLTA_Reualt_Map CI = none) :
    Fs.foldl P.functionCounted (g, P.icallTargets g) =
      (Fs.foldl P.functionPass g, P.icallTargets (Fs.foldl P.functionPass g)) := by
  induction Fs generalizing g with
  | nil => rfl
  | cons F Fs ih =>
    rw [List.flatMap_cons, List.nodup_append'] at hFs
    obtain ⟨hF, hrest, hdisj⟩ := hFs
    obtain ⟨hfold, hother⟩ := foldl_visitCounted (F := F) hF g 0 fun CI hCI =>
      hnew CI (List.mem_append_left _ hCI)
    have hstep : P.functionCounted (g, P.icallTargets g) F =
        (P.functionPass g F, P.icallTargets (P.functionPass g F)) := by
      unfold functionCounted
      rw [hfold]
      rfl
    rw [List.foldl_cons, List.foldl_cons, hstep]
    refine ih hrest _ fun CI hCI => ?_
    rw [functionPass, hother CI fun hCI' => hdisj hCI' hCI]
    exact hnew CI (List.mem_append_right _ hCI)

/-- **The pass.**  If no instruction occurs twice, the pass counts the targets of its
    indirect calls. -/
theorem icallTargets_start (hinsts : ((Ms.flatMap LLVMModule.functions).flatMap P.insts).Nodup) :
    (P.mainStart m Ms).icallTargets = P.icallTargets (P.callGraph m Ms) := by
  have hzero : P.icallTargets (P.initCallGraph m Ms) = 0 := by
    unfold icallTargets
    exact Finset.sum_eq_zero fun CI _ => rfl
  have hcounted : P.callGraphCounted m Ms =
      (P.callGraph m Ms, P.icallTargets (P.callGraph m Ms)) := by
    have hpass := foldl_functionCounted hinsts (P.initCallGraph m Ms) fun _ _ => rfl
    rw [hzero, List.foldl_flatMap, List.foldl_flatMap] at hpass
    exact hpass
  show (P.callGraphCounted m Ms).2 = _
  rw [hcounted]

/-- **The statistics.**  If no instruction occurs twice, then after any run of the main loop
    every statistic has an entry for every round; in each round the reductions of the phases
    add up to that of the round, which is 10000 or more in all but the last one; the alias
    analyses never add targets; and the reductions of the rounds add up to what the targets
    of the pass have been reduced by. -/
theorem statistics_mainRun {tg : TBAAGraph} {y : MainState} {k : ℕ}
    (hinsts : ((Ms.flatMap LLVMModule.functions).flatMap P.insts).Nodup)
    (h : MainRun tg P k (P.mainStart m Ms) y) : y.loop_num = k ∧ ∃ rows : List Reductions,
      rows.length = k ∧ y.reduce_num_func = rows.map (·.func) ∧
      y.reduce_num_icall = rows.map (·.icall) ∧ y.reduce_num_onelayer = rows.map (·.onelayer) ∧
      y.reduce_num_escape = rows.map (·.escape) ∧ y.reduce_num_total = rows.map (·.total) ∧
      (∀ r ∈ rows.dropLast, 10000 ≤ r.total) ∧ (∀ r ∈ rows.getLast?, r.total < 10000) ∧
      (∀ r ∈ rows, 0 ≤ r.func ∧ 0 ≤ r.icall) ∧
      y.reduce_num_total.sum =
        (P.icallTargets (P.callGraph m Ms) : ℤ) - P.icallTargets y.toCallGraph := by
  obtain ⟨rows, hlen, hrows, hy, hmore, hlast, hpos⟩ := recorded_mainRun h
  have hstart := icallTargets_start (P := P) (m := m) hinsts
  have htotal : y.reduce_num_total = rows.map (·.total) := hrows.total
  refine ⟨?_, rows, hlen, hrows.func, hrows.icall, hrows.onelayer, hrows.escape, htotal, hmore,
    hlast, hpos hstart, ?_⟩
  · rw [hrows.loop_num, hlen]
    exact Nat.zero_add k
  · rw [htotal, hrows.sum, hstart, hy]

end

/-! ## A program with one indirect call -/

/-- The values of `asmHook`. -/
theorem holds_asmHook : asmHook.Holds asmHook.Ctx (Finset.range 14) where
  values := by decide
  insts F I hI := by
    have hI' : I ∈ (if F = 0 then [12] else if F = 1 then [4, 6, 7, 13, 8, 9, 10, 11] else []) :=
      hI
    split_ifs at hI' with h₀ h₁
    · simp_all
    · have hle : ∀ I ∈ [4, 6, 7, 13, 8, 9, 10, 11], I ∈ Finset.range 14 := by decide
      exact hle I hI'
    · cases hI'
  args F y hy := by
    have hy' : y ∈ (if F = 1 then [2] else []) := hy
    split_ifs at hy' <;> simp_all
  initializer GV Ini h := by cases h
  unique_func hash F h := by
    have h' : (if hash = 0 then some 0 else none) = some F := h
    split_ifs at h'
    cases h'
    decide
  unique_gv guid := Finset.empty_subset _
  callers F cai h := by cases h

/-- Two scalar types that are not in each other. -/
abbrev scalarTags : TBAAGraph :=
  MDGraph.twoScalars.toTBAAGraph finite_twoScalars noLoops_twoScalars

/-- A run of the main loop on `asmHook` reduces the one target by what it records. -/
theorem statistics_asmHook : ∃ k y, MainRun .empty asmHook k (asmHook.mainStart {} asmModules) y ∧
    y.loop_num = k ∧ y.reduce_num_total.length = k ∧
    y.reduce_num_total.sum = 1 - (asmHook.icallTargets y.toCallGraph : ℤ) := by
  obtain ⟨k, y, hrun⟩ := exists_mainRun .empty asmHook {} asmModules holds_asmHook
  have hinsts : ((asmModules.flatMap LLVMModule.functions).flatMap asmHook.insts).Nodup := by
    decide
  obtain ⟨hnum, rows, hlen, -, -, -, -, htotal, -, -, -, hsum⟩ := statistics_mainRun hinsts hrun
  have hone : asmHook.icallTargets (asmHook.callGraph {} asmModules) = 1 := by decide
  rw [hone] at hsum
  exact ⟨k, y, hrun, hnum, by rw [htotal, List.length_map, hlen], hsum⟩

end CallProgram

end TFA
