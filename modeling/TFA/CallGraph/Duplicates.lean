/-
  Copies of one indirect call.

  A function that several modules contain has its indirect calls several times.
  `doModulePass` analyses the first call with a caller name and a `callInfoHash` and
  skips the others; `FuncAliasAnalysis` then looks at the analysed one alone.

  * `exists_representative`: one call for every key has an entry in the end;
  * `copies_mem_ICallees_iff`: when a function that is found at a copy stays a target of
    the call that stands for it.  It does not have to (`copy_found_erased`).
-/
import TFA.CallGraph.ModulePass
import TFA.Alias.HandleFunc

namespace TFA

open Loop FuncAlias

namespace CallProgram

section
variable (P : CallProgram)

/-- An indirect call that is counted. -/
def isCounted (CI : Value) : Bool :=
  P.kind CI = .instruction .call ∧ P.isIndirectCall CI ∧ P.checkValidIcalls CI

/-- The caller name and the `callInfoHash` of a call. -/
def HasKey (Ms : List LLVMModule) (CI : Value) (key : String × String) : Prop :=
  ∃ M ∈ Ms, ∃ F ∈ M.functions, ∃ Is₁ Is₂, P.insts F = Is₁ ++ CI :: Is₂ ∧ P.isCounted CI = true ∧
    key = (P.getName F, P.callInfoHash CI F ((Is₁.filter P.isCounted).length + 1))

/-- Two copies of one call. -/
def Copies (Ms : List LLVMModule) (CI CI' : Value) : Prop :=
  ∃ key, P.HasKey Ms CI key ∧ P.HasKey Ms CI' key

/-- The calls with an entry stand for the keys seen so far. -/
structure Represented (Ms : List LLVMModule) (names : String → Finset String)
    (entries : Value → Option TypeAnalyzeResult) : Prop where
  entry : ∀ name, ∀ hash ∈ names name, ∃ CI, P.HasKey Ms CI (name, hash) ∧ (entries CI).isSome
  seen : ∀ CI, (entries CI).isSome → ∃ key, P.HasKey Ms CI key ∧ key.2 ∈ names key.1
  unique : ∀ CI CI' key, (entries CI).isSome → (entries CI').isSome →
    P.HasKey Ms CI key → P.HasKey Ms CI' key → CI = CI'

end

/-! ## One call for every key -/

section
variable {P : CallProgram} {m : LayerMaps} {Ms : List LLVMModule} {M : LLVMModule}
  {g : CallGraph} {F : Func} {CI CI' : Value} {id : ℕ} {key : String × String}

theorem isDebugCall_of_isIndirectCall (h : P.isIndirectCall CI = true) :
    P.isDebugCall CI = false := by
  cases hCF : P.getCalledFunction CI with
  | none => rw [isDebugCall, hCF]; rfl
  | some CF =>
    rw [not_isIndirectCall hCF] at h
    cases h

theorem visitCall_of_isCounted (h : P.isCounted CI = true) :
    P.visitCall F (g, id) CI = (P.visitIndirectCall F (id + 1) g CI, id + 1) := by
  obtain ⟨hkind, hicall, hvalid⟩ := of_decide_eq_true h
  rw [visitCall, if_neg (by simp [hkind, isDebugCall_of_isIndirectCall hicall]), if_pos hicall,
    if_pos hvalid]

/-- Nothing else changes the number of the calls, or what is known of them. -/
theorem visitCall_of_not_isCounted (F : Func) (g : CallGraph) (id : ℕ)
    (h : P.isCounted CI = false) :
    (P.visitCall F (g, id) CI).2 = id ∧
    (P.visitCall F (g, id) CI).1.globalFuncNameMap = g.globalFuncNameMap ∧
    (P.visitCall F (g, id) CI).1.Global_MLTA_Reualt_Map = g.Global_MLTA_Reualt_Map := by
  unfold visitCall
  split_ifs with hskip hicall hvalid
  · exact ⟨rfl, rfl, rfl⟩
  · rw [not_or, not_not] at hskip
    have hcounted : P.isCounted CI = true := decide_eq_true ⟨hskip.1, hicall, hvalid⟩
    rw [h] at hcounted
    cases hcounted
  · exact ⟨rfl, rfl, rfl⟩
  · exact ⟨rfl, rfl, rfl⟩

/-- What every instruction keeps, with what stands before it, a function keeps. -/
theorem insts_induction_prefix {I : List Value → CallGraph → Prop}
    (hstep : ∀ Is₁ CI Is₂, P.insts F = Is₁ ++ CI :: Is₂ → ∀ g, I Is₁ g →
      I (Is₁ ++ [CI]) (P.visitCall F (g, (Is₁.filter P.isCounted).length) CI).1) (h : I [] g) :
    I (P.insts F) ((P.insts F).foldl (P.visitCall F) (g, 0)).1 := by
  have hrest : ∀ Is₂ Is₁, P.insts F = Is₁ ++ Is₂ → ∀ g, I Is₁ g →
      I (P.insts F) (Is₂.foldl (P.visitCall F) (g, (Is₁.filter P.isCounted).length)).1 := by
    intro Is₂
    induction Is₂ with
    | nil =>
      intro Is₁ heq g hg
      rw [List.append_nil] at heq
      rwa [heq]
    | cons CI Is₂ ih =>
      intro Is₁ heq g hg
      have hnumber : (P.visitCall F (g, (Is₁.filter P.isCounted).length) CI).2 =
          ((Is₁ ++ [CI]).filter P.isCounted).length := by
        rw [List.filter_append, List.length_append]
        cases hcounted : P.isCounted CI with
        | true => simp [visitCall_of_isCounted hcounted, hcounted]
        | false => simp [(visitCall_of_not_isCounted _ _ _ hcounted).1, hcounted]
      have hnext := ih (Is₁ ++ [CI]) (by simpa using heq) _ (hstep Is₁ CI Is₂ heq g hg)
      rw [← hnumber] at hnext
      exact hnext
  exact hrest _ [] rfl g h

/-- A call with a new key gets an entry. -/
theorem Represented.insert {names : String → Finset String}
    {entries : Value → Option TypeAnalyzeResult} {name hash : String} (r : TypeAnalyzeResult)
    (hkey : ∀ CI key key', P.HasKey Ms CI key → P.HasKey Ms CI key' → key = key')
    (hCI : P.HasKey Ms CI (name, hash)) (hnew : hash ∉ names name)
    (h : P.Represented Ms names entries) :
    P.Represented Ms (Function.update names name (insert hash (names name)))
      (Function.update entries CI (some r)) := by
  have hself : (Function.update entries CI (some r) CI).isSome := by
    rw [Function.update_self]
    rfl
  have hkeep : ∀ CI', (entries CI').isSome →
      (Function.update entries CI (some r) CI').isSome := by
    intro CI' hsome
    by_cases heq : CI' = CI
    · exact heq ▸ hself
    · rwa [Function.update_of_ne heq]
  have hold : ∀ {CI'}, CI' ≠ CI → (Function.update entries CI (some r) CI').isSome →
      (entries CI').isSome := by
    intro CI' hne hsome
    rwa [Function.update_of_ne hne] at hsome
  -- a call that has an entry already has another key
  have hother : ∀ {CI'}, (entries CI').isSome → ∀ key, P.HasKey Ms CI key →
      ¬ P.HasKey Ms CI' key := by
    intro CI' hsome key hk hk'
    obtain ⟨key', hkey', hseen⟩ := h.seen CI' hsome
    rw [hkey CI' _ _ hkey' hk', hkey CI _ _ hk hCI] at hseen
    exact hnew hseen
  refine ⟨?_, ?_, ?_⟩
  · intro name' hash' hmem
    rw [Function.update_apply] at hmem
    split at hmem
    case isTrue heq =>
      rcases Finset.mem_insert.1 hmem with rfl | hmem
      · exact ⟨CI, heq ▸ hCI, hself⟩
      · obtain ⟨CI', hk, hsome⟩ := h.entry name hash' hmem
        exact ⟨CI', heq ▸ hk, hkeep CI' hsome⟩
    case isFalse =>
      obtain ⟨CI', hk, hsome⟩ := h.entry name' hash' hmem
      exact ⟨CI', hk, hkeep CI' hsome⟩
  · intro CI' hsome
    by_cases heq : CI' = CI
    · refine ⟨(name, hash), heq ▸ hCI, ?_⟩
      rw [Function.update_self]
      exact Finset.mem_insert_self _ _
    · obtain ⟨key, hk, hseen⟩ := h.seen CI' (hold heq hsome)
      refine ⟨key, hk, ?_⟩
      rw [Function.update_apply]
      split
      case isTrue heq' => exact Finset.mem_insert_of_mem (heq' ▸ hseen)
      case isFalse => exact hseen
  · intro CI₁ CI₂ key h₁ h₂ hk₁ hk₂
    by_cases heq₁ : CI₁ = CI
    · by_cases heq₂ : CI₂ = CI
      · rw [heq₁, heq₂]
      · exact absurd hk₂ (hother (hold heq₂ h₂) key (heq₁ ▸ hk₁))
    · by_cases heq₂ : CI₂ = CI
      · exact absurd hk₁ (hother (hold heq₁ h₁) key (heq₂ ▸ hk₂))
      · exact h.unique CI₁ CI₂ key (hold heq₁ h₁) (hold heq₂ h₂) hk₁ hk₂

variable (P Ms) in
/-- What the pass keeps: the keys seen so far are represented. -/
def KeysRepresented (g : CallGraph) : Prop :=
  P.Represented Ms g.globalFuncNameMap g.Global_MLTA_Reualt_Map

/-- **One instruction.** -/
theorem keysRepresented_visitCall
    (hkey : ∀ CI key key', P.HasKey Ms CI key → P.HasKey Ms CI key' → key = key')
    (hM : M ∈ Ms) (hF : F ∈ M.functions) {Is₁ Is₂ : List Value}
    (hIs : P.insts F = Is₁ ++ CI :: Is₂) (h : P.KeysRepresented Ms g) :
    P.KeysRepresented Ms (P.visitCall F (g, (Is₁.filter P.isCounted).length) CI).1 := by
  cases hcounted : P.isCounted CI with
  | false =>
    obtain ⟨-, hnames, hentries⟩ :=
      visitCall_of_not_isCounted F g (Is₁.filter P.isCounted).length hcounted
    unfold KeysRepresented
    rw [hnames, hentries]
    exact h
  | true =>
    rw [visitCall_of_isCounted hcounted, visitIndirectCall]
    dsimp only
    split
    case isTrue => exact h
    case isFalse hnew =>
      exact Represented.insert _ hkey ⟨M, hM, F, hF, Is₁, Is₂, hIs, hcounted, rfl⟩ hnew h

theorem keysRepresented_callGraph
    (hkey : ∀ CI key key', P.HasKey Ms CI key → P.HasKey Ms CI key' → key = key') :
    P.KeysRepresented Ms (P.callGraph m Ms) := by
  refine List.foldlRecOn Ms _ ?_ ?_
  · refine ⟨fun _ _ h => absurd h (Finset.notMem_empty _), ?_, ?_⟩
    · intro _ h
      cases h
    · intro _ _ _ h
      cases h
  · intro g hg M hM
    refine List.foldlRecOn M.functions _ hg ?_
    intro g hg F hF
    refine insts_induction_prefix (I := fun _ g => P.KeysRepresented Ms g) ?_ hg
    intro Is₁ CI Is₂ hIs g hg
    exact keysRepresented_visitCall hkey hM hF hIs hg

theorem mem_globalFuncNameMap_visitCall {name hash : String} (h : hash ∈ g.globalFuncNameMap name) :
    hash ∈ (P.visitCall F (g, id) CI).1.globalFuncNameMap name := by
  rcases P.visitCall_cases F g id CI with heq | ⟨-, hseen, heq⟩ | ⟨-, -, heq⟩
  · rwa [heq]
  · rw [heq, visitIndirectCall, if_neg hseen]
    show hash ∈ Function.update g.globalFuncNameMap (P.getName F) _ name
    rw [Function.update_apply]
    split
    case isTrue heq => exact Finset.mem_insert_of_mem (heq ▸ h)
    case isFalse => exact h
  · rw [heq]
    exact h

/-- Every key is seen. -/
theorem mem_globalFuncNameMap_callGraph (h : P.HasKey Ms CI key) :
    key.2 ∈ (P.callGraph m Ms).globalFuncNameMap key.1 := by
  obtain ⟨M, hM, F, hF, Is₁, Is₂, hIs, hcounted, rfl⟩ := h
  let J : CallGraph → Prop := fun g =>
    P.callInfoHash CI F ((Is₁.filter P.isCounted).length + 1) ∈ g.globalFuncNameMap (P.getName F)
  have hfunction : ∀ g F', J g → J ((P.insts F').foldl (P.visitCall F') (g, 0)).1 :=
    fun g F' hg => insts_induction (fun _ _ _ _ => mem_globalFuncNameMap_visitCall) hg
  refine foldl_reaches (I := fun _ => True) (J := J) hM (fun _ _ _ => trivial) ?_ ?_ trivial
  · intro g M' hg
    exact List.foldlRecOn M'.functions _ hg fun g hg F' _ => hfunction g F' hg
  · intro g _
    refine foldl_reaches (I := fun _ => True) (J := J) hF (fun _ _ _ => trivial) hfunction ?_
      trivial
    intro g _
    -- the key is seen when the instructions before the call and the call are visited
    refine insts_induction_prefix (I := fun Is g => Is₁.length < Is.length → J g) ?_
      (fun h => absurd h (Nat.not_lt_zero _)) ?_
    · intro Is CI' Is' hsplit g hg hlt
      rw [List.length_append, List.length_singleton] at hlt
      by_cases hbefore : Is₁.length < Is.length
      · exact mem_globalFuncNameMap_visitCall (hg hbefore)
      · have hlength : Is₁.length = Is.length := by omega
        obtain ⟨rfl, hrest⟩ := List.append_inj (hIs.symm.trans hsplit) hlength
        cases hrest
        rw [visitCall_of_isCounted hcounted, visitIndirectCall]
        dsimp only
        split
        case isTrue hseen => exact hseen
        case isFalse =>
          show _ ∈ Function.update g.globalFuncNameMap (P.getName F) _ (P.getName F)
          rw [Function.update_self]
          exact Finset.mem_insert_self _ _
    · rw [hIs]
      simp

/-- **One call for every key.**  Every call has one copy with an entry. -/
theorem exists_representative
    (hkey : ∀ CI key key', P.HasKey Ms CI key → P.HasKey Ms CI key' → key = key')
    (h : P.HasKey Ms CI key) : ∃! CI', P.HasKey Ms CI' key ∧
      ((P.callGraph m Ms).Global_MLTA_Reualt_Map CI').isSome := by
  have hrep := keysRepresented_callGraph (m := m) hkey
  obtain ⟨CI', hk, hsome⟩ := hrep.entry key.1 key.2 (mem_globalFuncNameMap_callGraph h)
  refine ⟨CI', ⟨hk, hsome⟩, ?_⟩
  rintro CI₂ ⟨hk₂, hsome₂⟩
  exact hrep.unique CI₂ CI' key hsome₂ hsome hk₂ hk

end

/-! ## Targets of the copies -/

section
variable (P : CallProgram)

/-- The context of the alias analysis. -/
def context (g : CallGraph) : GlobalContext :=
  { P.Ctx with
    Callees := fun CI => inOrder (g.Callees CI)
    Callers := fun F => inOrder (g.Callers F)
    ICallees := g.ICallees }

/-- `HandleFunc` succeeds on a function and finds it at a copy of the call. -/
structure FoundAtCopy (Ms : List LLVMModule) (HandleFunc : Value → Verdict) (CI : Value)
    (f : Func) : Prop where
  success : (HandleFunc f).Is_Analyze_Success = true
  found : ∃ CI' ∈ (HandleFunc f).callset, P.Copies Ms CI CI'

end

section
variable {P : CallProgram} {m : LayerMaps} {Ms : List LLVMModule} {HandleFunc : Value → Verdict}
  {TargetVec : List Value} {CI : Value} {f : Func}

/-- **Targets of the copies.**  A function that is found at a copy of the call stays a
    target of the call exactly if it was ignored, or a function with its GUID fails, or some
    function found at this very call has a name that resolves to it. -/
theorem copies_mem_ICallees_iff (hfound : P.FoundAtCopy Ms HandleFunc CI f)
    (hf : f ∈ (P.callGraph m Ms).ICallees CI) :
    f ∈ (FuncAliasAnalysis P.toProgram HandleFunc TargetVec
      (P.context (P.callGraph m Ms))).ICallees CI ↔
      ¬ Analysed P.toProgram (P.context (P.callGraph m Ms)) HandleFunc TargetVec f ∨
      (∃ F, Analysed P.toProgram (P.context (P.callGraph m Ms)) HandleFunc TargetVec F ∧
        (HandleFunc F).Is_Analyze_Success = false ∧ P.getGUID F = P.getGUID f) ∨
      FoundAt P.toProgram (P.context (P.callGraph m Ms)) HandleFunc TargetVec CI f :=
  mem_updateTargets_iff hfound.success hf

end

/-! ## A hook in every module -/

/-- A header with `static void (*hook)();` and `static inline void run() { hook(); }`, in
    two modules: the hooks `1` and `2`, the functions `3` and `4`, the calls `6` and `8`.
    The second module stores `f`, the function `0`, to its hook. -/
def hookHeader : Program :=
  { Program.ofTable
      [(.function, []), (.globalVariable, []), (.globalVariable, []),
        (.function, []), (.function, []), (.instruction .load, [1]), (.instruction .call, [5]),
        (.instruction .load, [2]), (.instruction .call, [7]), (.function, []),
        (.instruction .store, [0, 2]), (.instruction .ret, [])]
      (by decide) with
    getName := fun v => if v = 0 then "f" else if v = 3 ∨ v = 4 then "run" else
      if v = 9 then "setup" else "hook"
    getFunction := fun v => if v = 5 ∨ v = 6 then 3 else if v = 7 ∨ v = 8 then 4 else 9
    hasAddressTaken := fun F => F = 0
    hasExternalLinkage := fun F => F = 0 ∨ F = 9
    insts := fun F => if F = 0 then [11] else if F = 3 then [5, 6] else if F = 4 then [7, 8] else
      if F = 9 then [10] else []
    isDeclaration := fun _ => false }

def hookModules : List LLVMModule :=
  [{ globals := [1], functions := [3] }, { globals := [2], functions := [0, 4, 9] }]

/-- The modules with what the type builder has found out. -/
def hookProgram : CallProgram where
  toProgram := hookHeader
  T := TypeTable.ofNames fun _ => "void()"
  getType _ := 0
  Ctx := TFA.doInitialization (fun s => if s = "f" then 0 else 1) hookHeader [3, 0, 4, 9]
    { Global_Unique_GV_Map := fun k => if k = 1 ∨ k = 2 then {k} else ∅ }
  str_hash s := if s = "f" then 0 else 1
  hasInternalLinkage F := F = 3 ∨ F = 4
  getInstFilename _ := "hook.h"

/-- The context of the alias analysis of these modules. -/
abbrev hookContext : GlobalContext := hookProgram.context (hookProgram.callGraph {} hookModules)

/-- What `HandleFunc` says about `f`. -/
abbrev hookVerdict : Verdict where
  Is_Analyze_Success := true
  callset := {8}

theorem copies_hookProgram : hookProgram.Copies hookModules 6 8 := by
  have h₁ : { globals := [1], functions := [3] } ∈ hookModules := by simp [hookModules]
  have h₂ : { globals := [2], functions := [0, 4, 9] } ∈ hookModules := by simp [hookModules]
  exact ⟨_, ⟨_, h₁, 3, by decide, [5], [], rfl, by decide, rfl⟩,
    ⟨_, h₂, 4, by decide, [7], [], rfl, by decide, rfl⟩⟩

theorem found_hookProgram : hookProgram.FoundAtCopy hookModules (fun _ => hookVerdict) 6 0 :=
  ⟨rfl, 8, Finset.mem_singleton_self 8, copies_hookProgram⟩

/-- The function is found at the second call, and erased from the first one, which stands
    for both. -/
theorem copy_found_erased :
    ¬ ∀ (tg : TBAAGraph) (P : CallProgram) (m : LayerMaps) (Ms : List LLVMModule) (fuel : ℕ)
      (verdict : Value → Verdict) (TargetVec : List Value) (CI : Value) (f : Func),
      TargetVec.Nodup →
      (∀ F, F ∈ TargetVec ↔ F ∈ (P.context (P.callGraph m Ms)).Global_AddressTaken_Func_Set) →
      (∀ F ∈ TargetVec, ∃ s, HandleFunc tg P.toProgram (P.context (P.callGraph m Ms)) fuel F =
        some s ∧ verdict F = s.verdict F) →
      f ∈ TargetVec → P.FoundAtCopy Ms verdict CI f → f ∈ (P.callGraph m Ms).ICallees CI →
      f ∈ (FuncAliasAnalysis P.toProgram verdict TargetVec
        (P.context (P.callGraph m Ms))).ICallees CI := by
  intro h
  have hrun : ∀ s, HandleFunc .empty hookProgram.toProgram hookContext 9 0 = some s →
      s.verdict 0 = hookVerdict := by decide
  have hends : (HandleFunc .empty hookProgram.toProgram hookContext 9 0).isSome = true := by decide
  obtain ⟨s, hs⟩ := Option.isSome_iff_exists.1 hends
  have htaken : hookContext.Global_AddressTaken_Func_Set = {0} := by decide
  have hkept := h .empty hookProgram {} hookModules 9 (fun _ => hookVerdict) [0] 6 0 (by decide)
    (fun F => by rw [htaken]; simp)
    (fun F hF => ⟨s, by rw [List.mem_singleton.1 hF]; exact ⟨hs, (hrun s hs).symm⟩⟩)
    (by decide) found_hookProgram (by decide)
  have herased : 0 ∉ (FuncAliasAnalysis hookProgram.toProgram (fun _ => hookVerdict) [0]
      hookContext).ICallees 6 := by decide
  exact herased hkept

theorem copies_mem_ICallees_iff_hookProgram :
    0 ∈ (FuncAliasAnalysis hookProgram.toProgram (fun _ => hookVerdict) [0]
        hookContext).ICallees 6 ↔
      ¬ Analysed hookProgram.toProgram hookContext (fun _ => hookVerdict) [0] 0 ∨
      (∃ F, Analysed hookProgram.toProgram hookContext (fun _ => hookVerdict) [0] F ∧
        true = false ∧ hookProgram.getGUID F = hookProgram.getGUID 0) ∨
      FoundAt hookProgram.toProgram hookContext (fun _ => hookVerdict) [0] 6 0 :=
  copies_mem_ICallees_iff found_hookProgram (by decide)

end CallProgram

end TFA
