/-
  Function alias analysis under any schedule.

  The iterations of the first loop run in parallel.  Each one checks the shared
  sets without a lock, calls `HandleFunc`, and then adds to the shared sets in two
  locked sections: the names passed to `__symbol_get`, and the verdict.  `turn`
  lets one iteration do its next part, and a schedule is any list of turns that
  finishes them all.

  * `interleave_inTurn`: the loop that runs one iteration after the other is one
    of the schedules;
  * `mem_ICallees_interleave`: what is left of the targets, if the iterations that
    another one can suppress make no difference;
  * `ICallees_schedules`: then all schedules agree.  In general they do not
    (`erased_before_report`): a function analysed before its name is reported is
    erased, and after that it is not.
-/
import TFA.Alias.FuncAliasAnalysis

namespace TFA

namespace FuncAlias

/-! ## Interleavings -/

/-- How far an iteration has come. -/
inductive Stage where
  | waiting
  /-- it has passed the two checks -/
  | checked
  /-- it has added the names passed to `__symbol_get` -/
  | reported
  | done
deriving DecidableEq

/-- The shared variables, and how far the iterations have come. -/
structure Parallel where
  s : State
  stage : Value → Stage := fun _ => .waiting

section
variable (P : Program) (Ctx : GlobalContext) (HandleFunc : Value → Verdict)

/-- The iteration is ignored. -/
def ignore (F : Value) (s : State) : State :=
  { s with
    Global_Func_Alias_Result_Map :=
      Function.update s.Global_Func_Alias_Result_Map F .ignore_analysis }

/-- The first locked section. -/
def report (F : Value) (s : State) : State :=
  { s with
    Global_symbol_get_funcSet :=
      s.Global_symbol_get_funcSet ∪ (HandleFunc F).Global_symbol_get_funcSet }

/-- The second locked section. -/
def record (F : Value) (s : State) : State :=
  let r := HandleFunc F
  if r.Is_Analyze_Success = false then
    { s with
      failure_reasons := Function.update s.failure_reasons r.failreason
        (s.failure_reasons r.failreason + 1)
      Global_failed_Func_Set := insert (P.getGUID F) s.Global_failed_Func_Set
      Global_Func_Alias_Result_Map :=
        Function.update s.Global_Func_Alias_Result_Map F r.failreason }
  else
    { s with
      SucceedFuncSet := insert F s.SucceedFuncSet
      Global_Func_Alias_Result_Map := Function.update s.Global_Func_Alias_Result_Map F .success
      FuncInfluenceMap := fun f =>
        if f ∈ getGlobalFuncs P Ctx F then s.FuncInfluenceMap f ∪ r.callset
        else s.FuncInfluenceMap f }

/-- The next part of the iteration for `F`. -/
def turn (p : Parallel) (F : Value) : Parallel :=
  match p.stage F with
  | .waiting =>
    if Analyses P p.s F then { p with stage := Function.update p.stage F .checked }
    else { s := ignore F p.s, stage := Function.update p.stage F .done }
  | .checked => { s := report HandleFunc F p.s, stage := Function.update p.stage F .reported }
  | .reported => { s := record P Ctx HandleFunc F p.s, stage := Function.update p.stage F .done }
  | .done => p

/-- The turns of a schedule. -/
def interleave (sched : List Value) : Parallel :=
  sched.foldl (turn P Ctx HandleFunc)
    { s := { Global_symbol_get_funcSet := Ctx.Global_symbol_get_funcSet } }

/-- The turns are those of address-taken functions, and finish them all. -/
def IsSchedule (sched : List Value) : Prop :=
  (∀ F ∈ sched, F ∈ Ctx.Global_AddressTaken_Func_Set) ∧
    ∀ F ∈ Ctx.Global_AddressTaken_Func_Set, (interleave P Ctx HandleFunc sched).stage F = .done

instance (sched : List Value) : Decidable (IsSchedule P Ctx HandleFunc sched) :=
  inferInstanceAs (Decidable (_ ∧ _))

/-- The targets left of an indirect call after a schedule. -/
def ICalleesAfter (sched : List Value) (CI : Value) : Finset Value :=
  updateTargets P (interleave P Ctx HandleFunc sched).s CI (Ctx.ICallees CI)

end

section
variable {P : Program} {Ctx : GlobalContext} {HandleFunc : Value → Verdict} {p : Parallel}
  {s : State} {sched : List Value} {F G f CI : Value}

/-! ## One iteration after the other -/

theorem analyseTarget_eq (s : State) (F : Value) : analyseTarget P Ctx HandleFunc s F =
    if Analyses P s F then record P Ctx HandleFunc F (report HandleFunc F s) else ignore F s := by
  unfold analyseTarget record
  split
  · dsimp only
    split <;> rfl
  · rfl

/-- Three turns are one round of the sequential loop. -/
theorem turns_waiting (hF : p.stage F = .waiting) :
    [F, F, F].foldl (turn P Ctx HandleFunc) p =
      { s := analyseTarget P Ctx HandleFunc p.s F, stage := Function.update p.stage F .done } := by
  have hturn : turn P Ctx HandleFunc p F =
      if Analyses P p.s F then { p with stage := Function.update p.stage F .checked }
      else { s := ignore F p.s, stage := Function.update p.stage F .done } := by
    rw [turn, hF]
  rw [analyseTarget_eq, List.foldl_cons, hturn]
  split
  · simp [turn]
  · simp [turn]

theorem interleave_append (sched sched' : List Value) :
    interleave P Ctx HandleFunc (sched ++ sched') =
      sched'.foldl (turn P Ctx HandleFunc) (interleave P Ctx HandleFunc sched) :=
  List.foldl_append

theorem interleave_inTurn {TargetVec : List Value} (hnodup : TargetVec.Nodup) :
    (interleave P Ctx HandleFunc (TargetVec.flatMap fun F => [F, F, F])).s =
        analyseTargets P Ctx HandleFunc TargetVec ∧
      ∀ F, (interleave P Ctx HandleFunc (TargetVec.flatMap fun F => [F, F, F])).stage F =
        if F ∈ TargetVec then .done else .waiting := by
  induction TargetVec using List.reverseRecOn with
  | nil => exact ⟨rfl, fun F => rfl⟩
  | append_singleton TargetVec F ih =>
    obtain ⟨hnodup', -, hF⟩ := List.nodup_append.1 hnodup
    obtain ⟨hs, hstage⟩ := ih hnodup'
    have hwait : F ∉ TargetVec := fun hmem => hF F hmem F (List.mem_singleton_self F) rfl
    rw [List.flatMap_append, List.flatMap_singleton, interleave_append,
      turns_waiting (by rw [hstage, if_neg hwait])]
    refine ⟨by rw [hs, analyseTargets_append], fun G => ?_⟩
    dsimp only
    by_cases hG : G = F
    · subst hG
      simp
    · rw [Function.update_of_ne hG, hstage]
      simp [hG]

/-! ## What every schedule records -/

variable (P Ctx) in
/-- An address-taken function that is not ignored from the start. -/
def Target (F : Value) : Prop :=
  F ∈ Ctx.Global_AddressTaken_Func_Set ∧ P.getName F ∉ Ctx.Global_symbol_get_funcSet

variable (P Ctx HandleFunc) in
/-- It makes no difference whether the target `G` is analysed: if `HandleFunc`
    succeeds, it finds `G` at every indirect call that has `G` as a target, and the
    name of `G` resolves to `G` and to no other target. -/
def Indifferent (G : Value) : Prop :=
  (HandleFunc G).Is_Analyze_Success = true →
    (∀ CI, G ∈ Ctx.ICallees CI → CI ∈ (HandleFunc G).callset ∧ some G ∈ getGlobalFuncs P Ctx G) ∧
      ∀ f, Target P Ctx f → some f ∈ getGlobalFuncs P Ctx G → f = G

variable (P Ctx HandleFunc) in
/-- The targets that the iteration of another one can suppress, by the name or by
    the GUID, make no difference. -/
structure Confluent : Prop where
  names : ∀ F G, Target P Ctx F → Target P Ctx G →
    P.getName G ∈ (HandleFunc F).Global_symbol_get_funcSet → Indifferent P Ctx HandleFunc G
  guids : ∀ F G, Target P Ctx F → Target P Ctx G → (HandleFunc F).Is_Analyze_Success = false →
    P.getGUID G = P.getGUID F → Indifferent P Ctx HandleFunc G

variable (P Ctx HandleFunc) in
/-- A successful target whose name resolves to `f` is found at `CI`. -/
def Found (f CI : Value) : Prop :=
  ∃ F, Target P Ctx F ∧ (HandleFunc F).Is_Analyze_Success = true ∧
    CI ∈ (HandleFunc F).callset ∧ some f ∈ getGlobalFuncs P Ctx F

variable (P Ctx HandleFunc) in
/-- What the shared variables hold at any moment of a schedule. -/
structure Progress (p : Parallel) : Prop where
  running : ∀ F, p.stage F = .checked ∨ p.stage F = .reported → Target P Ctx F
  names : ∀ name, name ∈ p.s.Global_symbol_get_funcSet → name ∈ Ctx.Global_symbol_get_funcSet ∨
    ∃ F, Target P Ctx F ∧ name ∈ (HandleFunc F).Global_symbol_get_funcSet
  failed : ∀ k, k ∈ p.s.Global_failed_Func_Set →
    ∃ F, Target P Ctx F ∧ (HandleFunc F).Is_Analyze_Success = false ∧ P.getGUID F = k
  succeed : ∀ F, F ∈ p.s.SucceedFuncSet →
    Target P Ctx F ∧ (HandleFunc F).Is_Analyze_Success = true
  found : ∀ f CI, CI ∈ p.s.FuncInfluenceMap (some f) → Found P Ctx HandleFunc f CI
  recorded : ∀ F f CI, F ∈ p.s.SucceedFuncSet → some f ∈ getGlobalFuncs P Ctx F →
    CI ∈ (HandleFunc F).callset → CI ∈ p.s.FuncInfluenceMap (some f)
  /-- the targets that matter are never skipped -/
  analysed : ∀ F, Target P Ctx F → (HandleFunc F).Is_Analyze_Success = true →
    ¬ Indifferent P Ctx HandleFunc F → p.stage F = .done → F ∈ p.s.SucceedFuncSet

theorem progress_start : Progress P Ctx HandleFunc
    { s := { Global_symbol_get_funcSet := Ctx.Global_symbol_get_funcSet } } where
  running F h := by rcases h with h | h <;> cases h
  names name h := Or.inl h
  failed k h := by cases h
  succeed F h := by cases h
  found f CI h := by cases h
  recorded F f CI h := by cases h
  analysed F _ _ _ h := by cases h

/-- A target that matters passes the two checks. -/
theorem Progress.analyses (h : Progress P Ctx HandleFunc p) (hc : Confluent P Ctx HandleFunc)
    (hF : Target P Ctx F) (hmat : ¬ Indifferent P Ctx HandleFunc F) : Analyses P p.s F := by
  refine ⟨fun hguid => hmat ?_, fun hname => ?_⟩
  · obtain ⟨G, hG, hfail, heq⟩ := h.failed _ hguid
    exact hc.guids G F hG hF hfail heq.symm
  · rcases h.names _ hname with hign | ⟨G, hG, hrep⟩
    · exact hF.2 hign
    · exact hmat (hc.names G F hG hF hrep)

theorem SucceedFuncSet_record (s : State) (F G : Value) :
    G ∈ (record P Ctx HandleFunc F s).SucceedFuncSet ↔
      G ∈ s.SucceedFuncSet ∨ G = F ∧ (HandleFunc F).Is_Analyze_Success = true := by
  unfold record
  dsimp only
  split
  case isTrue hfail => simp [hfail]
  case isFalse hsucc =>
    rw [Bool.not_eq_false] at hsucc
    simp [hsucc, or_comm]

theorem FuncInfluenceMap_record (s : State) (F f CI : Value) :
    CI ∈ (record P Ctx HandleFunc F s).FuncInfluenceMap (some f) ↔
      CI ∈ s.FuncInfluenceMap (some f) ∨ (HandleFunc F).Is_Analyze_Success = true ∧
        some f ∈ getGlobalFuncs P Ctx F ∧ CI ∈ (HandleFunc F).callset := by
  unfold record
  dsimp only
  split
  case isTrue hfail => simp [hfail]
  case isFalse hsucc =>
    rw [Bool.not_eq_false] at hsucc
    dsimp only
    split
    case isTrue hres => simp [hsucc, hres]
    case isFalse hres => simp [hres]

theorem failed_record (s : State) (F : Value) (k : ℕ) :
    k ∈ (record P Ctx HandleFunc F s).Global_failed_Func_Set ↔
      k ∈ s.Global_failed_Func_Set ∨
        (HandleFunc F).Is_Analyze_Success = false ∧ P.getGUID F = k := by
  unfold record
  dsimp only
  split
  case isTrue hfail => simp [hfail, or_comm, eq_comm]
  case isFalse hsucc =>
    rw [Bool.not_eq_false] at hsucc
    simp [hsucc]

theorem names_record (s : State) (F : Value) :
    (record P Ctx HandleFunc F s).Global_symbol_get_funcSet = s.Global_symbol_get_funcSet := by
  unfold record
  dsimp only
  split <;> rfl

/-- Another stage of `F`, where the shared variables are as before. -/
theorem Progress.update (h : Progress P Ctx HandleFunc p) {st : Stage}
    (hrun : st = .checked ∨ st = .reported → Target P Ctx F)
    (hdone : st = .done → Target P Ctx F → (HandleFunc F).Is_Analyze_Success = true →
      ¬ Indifferent P Ctx HandleFunc F → F ∈ p.s.SucceedFuncSet) :
    Progress P Ctx HandleFunc { p with stage := Function.update p.stage F st } where
  running G hG := by
    by_cases hGF : G = F
    · subst hGF
      simp only [Function.update_self] at hG
      exact hrun hG
    · simp only [Function.update_of_ne hGF] at hG
      exact h.running G hG
  names := h.names
  failed := h.failed
  succeed := h.succeed
  found := h.found
  recorded := h.recorded
  analysed G hG hsucc hmat hst := by
    by_cases hGF : G = F
    · subst hGF
      simp only [Function.update_self] at hst
      exact hdone hst hG hsucc hmat
    · simp only [Function.update_of_ne hGF] at hst
      exact h.analysed G hG hsucc hmat hst

theorem Progress.ignore (h : Progress P Ctx HandleFunc p) (F : Value) :
    Progress P Ctx HandleFunc { p with s := ignore F p.s } :=
  ⟨h.running, h.names, h.failed, h.succeed, h.found, h.recorded, h.analysed⟩

theorem Progress.report (h : Progress P Ctx HandleFunc p) (hF : Target P Ctx F) :
    Progress P Ctx HandleFunc { p with s := report HandleFunc F p.s } where
  running := h.running
  names name hname := by
    rcases Finset.mem_union.1 hname with hname | hname
    · exact h.names name hname
    · exact Or.inr ⟨F, hF, hname⟩
  failed := h.failed
  succeed := h.succeed
  found := h.found
  recorded := h.recorded
  analysed := h.analysed

theorem Progress.record (h : Progress P Ctx HandleFunc p) (hF : Target P Ctx F) :
    Progress P Ctx HandleFunc { p with s := record P Ctx HandleFunc F p.s } where
  running := h.running
  names name hname := by
    rw [names_record] at hname
    exact h.names name hname
  failed k hk := by
    rcases (failed_record p.s F k).1 hk with hk | ⟨hfail, rfl⟩
    · exact h.failed k hk
    · exact ⟨F, hF, hfail, rfl⟩
  succeed G hG := by
    rcases (SucceedFuncSet_record p.s F G).1 hG with hG | ⟨rfl, hsucc⟩
    · exact h.succeed G hG
    · exact ⟨hF, hsucc⟩
  found f CI hCI := by
    rcases (FuncInfluenceMap_record p.s F f CI).1 hCI with hCI | ⟨hsucc, hres, hCI⟩
    · exact h.found f CI hCI
    · exact ⟨F, hF, hsucc, hCI, hres⟩
  recorded G f CI hG hres hCI := by
    refine (FuncInfluenceMap_record p.s F f CI).2 ?_
    rcases (SucceedFuncSet_record p.s F G).1 hG with hG | ⟨rfl, hsucc⟩
    · exact Or.inl (h.recorded G f CI hG hres hCI)
    · exact Or.inr ⟨hsucc, hres, hCI⟩
  analysed G hG hsucc hmat hst :=
    (SucceedFuncSet_record p.s F G).2 (Or.inl (h.analysed G hG hsucc hmat hst))

/-- **One turn.** -/
theorem Progress.turn (h : Progress P Ctx HandleFunc p) (hc : Confluent P Ctx HandleFunc)
    (hF : F ∈ Ctx.Global_AddressTaken_Func_Set)
    (hsymbols : Ctx.Global_symbol_get_funcSet ⊆ p.s.Global_symbol_get_funcSet) :
    Progress P Ctx HandleFunc (turn P Ctx HandleFunc p F) := by
  cases hst : p.stage F with
  | waiting =>
    rw [FuncAlias.turn, hst]
    dsimp only
    split
    case isTrue hrun =>
      refine h.update (fun _ => ⟨hF, fun hname => hrun.2 (hsymbols hname)⟩) ?_
      rintro ⟨⟩
    case isFalse hskip =>
      exact (h.ignore F).update (by rintro (⟨⟨⟩⟩ | ⟨⟨⟩⟩)) fun _ hT _ hmat =>
        absurd (h.analyses hc hT hmat) hskip
  | checked =>
    rw [FuncAlias.turn, hst]
    have hT := h.running F (Or.inl hst)
    refine (h.report hT).update (fun _ => hT) ?_
    rintro ⟨⟩
  | reported =>
    rw [FuncAlias.turn, hst]
    have hT := h.running F (Or.inr hst)
    refine (h.record hT).update (by rintro (⟨⟨⟩⟩ | ⟨⟨⟩⟩)) fun _ _ hsucc _ => ?_
    exact (SucceedFuncSet_record p.s F F).2 (Or.inr ⟨rfl, hsucc⟩)
  | done =>
    rw [FuncAlias.turn, hst]
    exact h

theorem symbols_subset_turn (p : Parallel) (F : Value) :
    p.s.Global_symbol_get_funcSet ⊆ (turn P Ctx HandleFunc p F).s.Global_symbol_get_funcSet := by
  unfold FuncAlias.turn
  split
  · split
    · exact Finset.Subset.refl _
    · exact Finset.Subset.refl _
  · exact Finset.subset_union_left
  · rw [names_record]
  · exact Finset.Subset.refl _

theorem progress_interleave (hc : Confluent P Ctx HandleFunc)
    (hsched : ∀ F ∈ sched, F ∈ Ctx.Global_AddressTaken_Func_Set) :
    Progress P Ctx HandleFunc (interleave P Ctx HandleFunc sched) ∧
      Ctx.Global_symbol_get_funcSet ⊆
        (interleave P Ctx HandleFunc sched).s.Global_symbol_get_funcSet := by
  induction sched using List.reverseRecOn with
  | nil => exact ⟨progress_start, Finset.Subset.refl _⟩
  | append_singleton sched F ih =>
    obtain ⟨hp, hsub⟩ := ih fun G hG => hsched G (List.mem_append_left _ hG)
    rw [interleave_append]
    exact ⟨hp.turn hc (hsched F (by simp)) hsub, hsub.trans (symbols_subset_turn _ F)⟩

/-! ## What is left of the targets -/

/-- **Every schedule** erases the same targets: those that are analysed with
    success and not found at the call. -/
theorem mem_ICallees_interleave (hc : Confluent P Ctx HandleFunc)
    (hsched : IsSchedule P Ctx HandleFunc sched) :
    f ∈ ICalleesAfter P Ctx HandleFunc sched CI ↔ f ∈ Ctx.ICallees CI ∧
      (Target P Ctx f → (HandleFunc f).Is_Analyze_Success = true →
        Found P Ctx HandleFunc f CI) := by
  obtain ⟨hp, -⟩ := progress_interleave hc hsched.1
  rw [ICalleesAfter, updateTargets, Finset.mem_sdiff, Finset.mem_filter]
  refine and_congr_right fun hf => ?_
  constructor
  · intro hkept hT hsucc
    by_cases hind : Indifferent P Ctx HandleFunc f
    · obtain ⟨hCI, hres⟩ := (hind hsucc).1 CI hf
      exact ⟨f, hT, hsucc, hCI, hres⟩
    · have hin := hp.analysed f hT hsucc hind (hsched.2 f hT.1)
      by_contra hnot
      refine hkept ⟨hin, fun hguid => ?_, fun hCI => hnot (hp.found f CI hCI)⟩
      obtain ⟨G, hG, hfail, heq⟩ := hp.failed _ hguid
      exact hind (hc.guids G f hG hT hfail heq.symm)
  · rintro hfound ⟨hin, -, hCI⟩
    obtain ⟨hT, hsucc⟩ := hp.succeed f hin
    obtain ⟨F, hF, hFsucc, hFCI, hres⟩ := hfound hT hsucc
    by_cases hind : Indifferent P Ctx HandleFunc F
    · -- a target that makes no difference resolves to itself only
      have hfF := (hind hFsucc).2 f hT hres
      subst hfF
      exact hCI (hp.recorded f f CI hin hres hFCI)
    · have hFin := hp.analysed F hF hFsucc hind (hsched.2 F hF.1)
      exact hCI (hp.recorded F f CI hFin hres hFCI)

/-- **Schedule independence.**  All schedules leave the same targets, and none
    erases a function whose name is reported as passed to `__symbol_get`. -/
theorem ICallees_schedules (hc : Confluent P Ctx HandleFunc) {sched sched' : List Value}
    (hsched : IsSchedule P Ctx HandleFunc sched) (hsched' : IsSchedule P Ctx HandleFunc sched') :
    (∀ CI, ICalleesAfter P Ctx HandleFunc sched CI = ICalleesAfter P Ctx HandleFunc sched' CI) ∧
      ∀ f CI,
        P.getName f ∈ (interleave P Ctx HandleFunc sched).s.Global_symbol_get_funcSet →
        f ∈ Ctx.ICallees CI → f ∈ ICalleesAfter P Ctx HandleFunc sched CI := by
  refine ⟨fun CI => ?_, fun f CI hname hf => ?_⟩
  · ext f
    rw [mem_ICallees_interleave hc hsched, mem_ICallees_interleave hc hsched']
  · obtain ⟨hp, -⟩ := progress_interleave hc hsched.1
    refine (mem_ICallees_interleave hc hsched).2 ⟨hf, fun hT hsucc => ?_⟩
    rcases hp.names _ hname with hign | ⟨F, hF, hrep⟩
    · exact absurd hign hT.2
    · obtain ⟨hCI, hres⟩ := (hc.names F f hF hT hrep hsucc).1 CI hf
      exact ⟨f, hT, hsucc, hCI, hres⟩

/-! ## The condition is needed -/

variable (P HandleFunc) in
/-- The sequential loop as a schedule. -/
theorem isSchedule_inTurn {TargetVec : List Value} (hnodup : TargetVec.Nodup)
    (hall : ∀ F, F ∈ TargetVec ↔ F ∈ Ctx.Global_AddressTaken_Func_Set) :
    IsSchedule P Ctx HandleFunc (TargetVec.flatMap fun F => [F, F, F]) := by
  obtain ⟨-, hstage⟩ := @interleave_inTurn P Ctx HandleFunc TargetVec hnodup
  refine ⟨fun F hF => ?_, fun F hF => ?_⟩
  · obtain ⟨G, hG, hFG⟩ := List.mem_flatMap.1 hF
    have hFG : F = G := by simpa using hFG
    exact (hall F).1 (hFG ▸ hG)
  · rw [hstage, if_pos ((hall F).2 hF)]

theorem ICalleesAfter_inTurn {TargetVec : List Value} (hnodup : TargetVec.Nodup) (CI : Value) :
    ICalleesAfter P Ctx HandleFunc (TargetVec.flatMap fun F => [F, F, F]) CI =
      (FuncAliasAnalysis P HandleFunc TargetVec Ctx).ICallees CI := by
  rw [ICalleesAfter, (interleave_inTurn hnodup).1]
  rfl

/-- Any iteration can come first. -/
theorem exists_order_first (hF : F ∈ Ctx.Global_AddressTaken_Func_Set) :
    ∃ after, (F :: after).Nodup ∧
      ∀ G, G ∈ F :: after ↔ G ∈ Ctx.Global_AddressTaken_Func_Set := by
  have hall : ∀ G, G ∈ F :: (Ctx.Global_AddressTaken_Func_Set.erase F).toList ↔
      G ∈ Ctx.Global_AddressTaken_Func_Set := by
    intro G
    rw [List.mem_cons, Finset.mem_toList, Finset.mem_erase]
    by_cases hG : G = F
    · simp [hG, hF]
    · simp [hG]
  have hnodup : (F :: (Ctx.Global_AddressTaken_Func_Set.erase F).toList).Nodup := by
    refine List.nodup_cons.2 ⟨?_, Finset.nodup_toList _⟩
    rw [Finset.mem_toList]
    exact Finset.notMem_erase F _
  exact ⟨_, hnodup, hall⟩

/-- A round extends the names. -/
theorem symbols_subset_analyseTargets (before after : List Value) :
    (analyseTargets P Ctx HandleFunc before).Global_symbol_get_funcSet ⊆
      (analyseTargets P Ctx HandleFunc (before ++ after)).Global_symbol_get_funcSet := by
  induction after using List.reverseRecOn with
  | nil => rw [List.append_nil]
  | append_singleton after F ih =>
    rw [← List.append_assoc, analyseTargets_append, analyseTarget_eq]
    refine ih.trans ?_
    split
    · rw [names_record]
      exact Finset.subset_union_left
    · exact Finset.Subset.refl _

theorem analysed_cons (hF : Target P Ctx F) (after : List Value) :
    Analysed P Ctx HandleFunc (F :: after) F :=
  ⟨[], after, rfl, Finset.notMem_empty _, hF.2⟩

theorem reported_first (hF : Target P Ctx F) {name : String}
    (hrep : name ∈ (HandleFunc F).Global_symbol_get_funcSet) (after : List Value) :
    name ∈ (analyseTargets P Ctx HandleFunc (F :: after)).Global_symbol_get_funcSet := by
  refine symbols_subset_analyseTargets [F] after ?_
  have hrun : Analyses P { Global_symbol_get_funcSet := Ctx.Global_symbol_get_funcSet } F :=
    ⟨Finset.notMem_empty _, hF.2⟩
  show name ∈ (analyseTarget P Ctx HandleFunc _ F).Global_symbol_get_funcSet
  rw [analyseTarget_eq, if_pos hrun, names_record]
  exact Finset.mem_union_right _ hrep

/-- A function whose name the first iteration reports is ignored. -/
theorem not_analysed_of_reported (hF : Target P Ctx F) (hFG : G ≠ F)
    (hrep : P.getName G ∈ (HandleFunc F).Global_symbol_get_funcSet) (after : List Value) :
    ¬ Analysed P Ctx HandleFunc (F :: after) G := by
  rintro ⟨before, after', heq, hG⟩
  cases before with
  | nil => exact hFG (List.cons.inj heq).1.symm
  | cons F' before =>
    obtain ⟨rfl, -⟩ := List.cons.inj heq
    exact hG.2 (reported_first hF hrep before)

/-- **Necessity.**  Where no two address-taken functions share a name or a GUID, and
    names resolve to functions of the name, the condition is exact. -/
theorem confluent_of_schedules
    (hname : ∀ F G, F ∈ Ctx.Global_AddressTaken_Func_Set → G ∈ Ctx.Global_AddressTaken_Func_Set →
      P.getName F = P.getName G → F = G)
    (hguid : ∀ F G, F ∈ Ctx.Global_AddressTaken_Func_Set → G ∈ Ctx.Global_AddressTaken_Func_Set →
      P.getGUID F = P.getGUID G → F = G)
    (hres : ∀ F f, some f ∈ getGlobalFuncs P Ctx F → P.getName F = P.getName f)
    (hsched : ∀ sched sched', IsSchedule P Ctx HandleFunc sched →
      IsSchedule P Ctx HandleFunc sched' →
      (∀ CI, ICalleesAfter P Ctx HandleFunc sched CI = ICalleesAfter P Ctx HandleFunc sched' CI) ∧
        ∀ f CI,
          P.getName f ∈ (interleave P Ctx HandleFunc sched).s.Global_symbol_get_funcSet →
          f ∈ Ctx.ICallees CI → f ∈ ICalleesAfter P Ctx HandleFunc sched CI) :
    Confluent P Ctx HandleFunc where
  guids F G hF hG hfail heq := by
    intro hsucc
    rw [hguid G F hG.1 hF.1 heq, hfail] at hsucc
    cases hsucc
  names F G hF hG hrep := by
    intro hsucc
    refine ⟨fun CI hCI => ?_, fun f hf hGf => hname f G hf.1 hG.1 (hres G f hGf).symm⟩
    obtain ⟨afterG, hnodupG, hallG⟩ := exists_order_first hG.1
    have hschedG := isSchedule_inTurn P HandleFunc hnodupG hallG
    -- `G` stays a target even if its iteration comes first
    have hstay : G ∈ (FuncAliasAnalysis P HandleFunc (G :: afterG) Ctx).ICallees CI := by
      rw [← ICalleesAfter_inTurn hnodupG]
      by_cases hGF : G = F
      · subst hGF
        refine (hsched _ _ hschedG hschedG).2 G CI ?_ hCI
        rw [(interleave_inTurn hnodupG).1]
        exact reported_first hF hrep afterG
      · obtain ⟨afterF, hnodupF, hallF⟩ := exists_order_first hF.1
        have hschedF := isSchedule_inTurn P HandleFunc hnodupF hallF
        rw [(hsched _ _ hschedG hschedF).1 CI, ICalleesAfter_inTurn hnodupF]
        have hskip := not_analysed_of_reported hF hGF hrep afterF
        exact (mem_updateTargets_iff hsucc hCI).2 (Or.inl hskip)
    rcases (mem_updateTargets_iff hsucc hCI).1 hstay with hskip | ⟨F', hF', hfail, heq⟩ | hfound
    · exact absurd (analysed_cons hG afterG) hskip
    · rw [hguid F' G ((hallG F').1 hF'.mem) hG.1 heq, hsucc] at hfail
      cases hfail
    · obtain ⟨F', hF', -, hCI', hres'⟩ := hfound
      rw [hname F' G ((hallG F').1 hF'.mem) hG.1 (hres F' G hres')] at hCI' hres'
      exact ⟨hCI', hres'⟩

end

/-! ## A name reported too late -/

/-- Two functions with their addresses taken, `0` by the name `f` and `1` by the
    name `g`. -/
def twoFunctions : Program :=
  { Program.functionsOnly with
    getName := fun F => if F = 0 then "f" else "g"
    insts := fun F => [F + 2]
    isDeclaration := fun _ => false
    hasAddressTaken := fun _ => true }

/-- The context of `twoFunctions`, where `0` is the target of every call. -/
def twoFunctionsCtx : GlobalContext :=
  { doInitialization (fun s => (s.toList.head?.map Char.toNat).getD 0) twoFunctions [0, 1] {} with
    ICallees := fun _ => {0} }

/-- `HandleFunc` fails on `0`, and succeeds on `1` with a report of the name of `0`. -/
def reportsFailed (F : Value) : Verdict where
  Is_Analyze_Success := F ≠ 0
  Global_symbol_get_funcSet := if F = 1 then {"f"} else ∅

theorem confluent_reportsFailed : Confluent twoFunctions twoFunctionsCtx reportsFailed where
  names F G _ hG hrep hsucc := by
    by_cases hzero : G = 0
    · subst hzero
      cases hsucc
    · have hname : twoFunctions.getName G = "g" := if_neg hzero
      rw [hname] at hrep
      unfold reportsFailed at hrep
      dsimp only at hrep
      split_ifs at hrep
      · exact absurd hrep (by decide)
      · exact absurd hrep (Finset.notMem_empty _)
  guids F G _ _ hfail hguid hsucc := by
    have hG : G = F := hguid
    rw [hG, hfail] at hsucc
    cases hsucc

theorem ICallees_schedules_twoFunctions :
    (∀ CI, ICalleesAfter twoFunctions twoFunctionsCtx reportsFailed [0, 1, 0, 1, 0, 1] CI =
      ICalleesAfter twoFunctions twoFunctionsCtx reportsFailed [1, 0, 0, 1, 1, 0] CI) ∧
    ∀ f CI, twoFunctions.getName f ∈ (interleave twoFunctions twoFunctionsCtx reportsFailed
        [0, 1, 0, 1, 0, 1]).s.Global_symbol_get_funcSet →
      f ∈ twoFunctionsCtx.ICallees CI →
      f ∈ ICalleesAfter twoFunctions twoFunctionsCtx reportsFailed [0, 1, 0, 1, 0, 1] CI :=
  ICallees_schedules confluent_reportsFailed (by decide) (by decide)

/-- The iteration of `1` reports the name of `0`.  If that of `0` runs first, `0`
    is erased from its calls, and otherwise not. -/
theorem erased_before_report :
    ¬ ∀ (P : Program) (Ctx : GlobalContext) (HandleFunc : Value → Verdict)
      (sched sched' : List Value), IsSchedule P Ctx HandleFunc sched →
      IsSchedule P Ctx HandleFunc sched' →
      (∀ CI, ICalleesAfter P Ctx HandleFunc sched CI = ICalleesAfter P Ctx HandleFunc sched' CI) ∧
        ∀ f CI,
          P.getName f ∈ (interleave P Ctx HandleFunc sched).s.Global_symbol_get_funcSet →
          f ∈ Ctx.ICallees CI → f ∈ ICalleesAfter P Ctx HandleFunc sched CI := by
  intro h
  have hkept := (h twoFunctions twoFunctionsCtx
    (fun F => { Is_Analyze_Success := true
                Global_symbol_get_funcSet := if F = 1 then {"f"} else ∅ })
    [0, 0, 0, 1, 1, 1] [1, 1, 1, 0, 0, 0] (by decide) (by decide)).2 0 5 (by decide) (by decide)
  have herased : 0 ∉ ICalleesAfter twoFunctions twoFunctionsCtx
      (fun F => { Is_Analyze_Success := true
                  Global_symbol_get_funcSet := if F = 1 then {"f"} else ∅ })
      [0, 0, 0, 1, 1, 1] 5 := by decide
  exact herased hkept

end FuncAlias

end TFA
