/-
  The call graph (`doInitialization` and `doModulePass` in `CallGraph.cc`).

  A direct call goes to the function that `UnifiedFuncMap` holds for the called one:
  the first definition, in the order of the modules, with its printed type and name.
  An indirect call is analysed once for a caller name and `callInfoHash`.

  * `callees_direct`: what is left in `Callees` for a direct call;
  * `callees_direct_iff`: when this is the function that is called.  A function with
    internal linkage is confused with that of another module
    (`internal_functions_confused`);
  * `CallersCover`: the calls of a callee are among its callers at the end of the pass.
-/
import TFA.CallGraph.OneLayer
import TFA.Lib.Loop

namespace TFA

open Loop

/-- What `CallGraphPass` has found out. -/
structure CallGraph where
  layers : LayerMaps := {}
  escapedTypesInTypeAnalysisSet : Finset Key := ∅
  /-- the escaped types that `escapeHandler` has resolved -/
  succeed_type_set : Finset Key := ∅
  UnifiedFuncMap : Key → Option Func := fun _ => none
  /-- the indirect calls seen under a caller name -/
  globalFuncNameMap : String → Finset String := fun _ => ∅
  Callees : Value → Finset Func := fun _ => ∅
  Callers : Func → Finset Value := fun _ => ∅
  ICallees : Value → Finset Func := fun _ => ∅
  Global_MLTA_Reualt_Map : Value → Option TypeAnalyzeResult := fun _ => none

namespace CallProgram

section
variable (P : CallProgram)

/-! ## The pass -/

/-- `funcHash` with the name. -/
def funcHashWithName (F : Func) : Key :=
  .type (withoutBlanks (P.T.print (P.getFunctionType F) ++ P.getName F))

/-- The entry of a function in `UnifiedFuncMap`. -/
def unifyFunction (map : Key → Option Func) (F : Func) : Key → Option Func :=
  if P.isDeclaration F = false ∧ map (P.funcHashWithName F) = none then
    Function.update map (P.funcHashWithName F) (some F)
  else map

/-- `doInitialization` over all modules. -/
def initCallGraph (m : LayerMaps) (Ms : List LLVMModule) : CallGraph where
  layers := Ms.foldl P.doInitialization m
  UnifiedFuncMap := (Ms.flatMap LLVMModule.functions).foldl P.unifyFunction fun _ => none

/-- What `callInfoHash` is computed from. -/
def callInfoHash (CI : Value) (Caller : Func) (index : ℕ) : String :=
  withoutBlanks (P.getInstFilename CI ++ P.T.print (P.getFunctionType Caller) ++
      P.getName Caller) ++
    toString (P.getInstLineNo CI) ++ toString index

/-- `checkValidIcalls`. -/
def checkValidIcalls (CI : Value) : Bool :=
  !(toString (P.getInstLineNo CI) ∈ P.IcallIgnoreLineNum ∧
    P.getInstFilename CI ∈ P.IcallIgnoreFileLoc)

/-- `getCalledFunction`. -/
def getCalledFunction (CI : Value) : Option Func :=
  (P.getCalledOperand CI).filter fun F =>
    P.kind F = .function ∧ P.getFunctionType F = P.getFunctionType CI

/-- `isIndirectCall`. -/
def isIndirectCall (CI : Value) : Bool :=
  match P.getCalledOperand CI with
  | some V =>
    match P.kind V with
    | .argument | .instruction _ | .other => !P.isInlineAsm CI
    | _ => false
  | none => false

/-- An indirect call. -/
def visitIndirectCall (F : Func) (icall_id : ℕ) (g : CallGraph) (CI : Value) : CallGraph :=
  let hash := P.callInfoHash CI F icall_id
  if hash ∈ g.globalFuncNameMap (P.getName F) then g
  else
    let r := P.findCalleesWithMLTA g.layers CI
    { g with
      layers := P.afterOneLayer g.layers CI
      escapedTypesInTypeAnalysisSet :=
        g.escapedTypesInTypeAnalysisSet ∪ P.escapedTypes g.layers CI
      globalFuncNameMap := Function.update g.globalFuncNameMap (P.getName F)
        (insert hash (g.globalFuncNameMap (P.getName F)))
      Callees := Function.update g.Callees CI r.2
      Callers := fun f => if f ∈ r.2 then insert CI (g.Callers f) else g.Callers f
      ICallees := Function.update g.ICallees CI r.2
      Global_MLTA_Reualt_Map := Function.update g.Global_MLTA_Reualt_Map CI (some r.1) }

/-- The functions that a direct call goes to. -/
def directCallees (UnifiedFuncMap : Key → Option Func) (CI : Value) : Finset Func :=
  match P.getCalledFunction CI with
  | some CF =>
    ((P.definitions CF).image fun F => UnifiedFuncMap (P.funcHashWithName F)).eraseNone
  | none => ∅

/-- A direct call. -/
def visitDirectCall (g : CallGraph) (CI : Value) : CallGraph :=
  let FS := P.directCallees g.UnifiedFuncMap CI
  { g with
    Callees := Function.update g.Callees CI FS
    Callers := fun f => if f ∈ FS then insert CI (g.Callers f) else g.Callers f }

/-- A call of a debug function. -/
def isDebugCall (CI : Value) : Bool :=
  (P.getCalledFunction CI).any fun CF => containsSub (P.getName CF) "llvm.dbg"

/-- One instruction; the number is that of the indirect calls so far. -/
def visitCall (F : Func) (s : CallGraph × ℕ) (CI : Value) : CallGraph × ℕ :=
  if P.kind CI ≠ .instruction .call ∨ P.isDebugCall CI then s
  else if P.isIndirectCall CI then
    if P.checkValidIcalls CI then (P.visitIndirectCall F (s.2 + 1) s.1 CI, s.2 + 1) else s
  else (P.visitDirectCall s.1 CI, s.2)

/-- `doModulePass`. -/
def doModulePass (g : CallGraph) (M : LLVMModule) : CallGraph :=
  M.functions.foldl (fun g F => ((P.insts F).foldl (P.visitCall F) (g, 0)).1) g

/-- The call graph of the modules. -/
def callGraph (m : LayerMaps) (Ms : List LLVMModule) : CallGraph :=
  Ms.foldl P.doModulePass (P.initCallGraph m Ms)

end

/-! ## Rules for the pass -/

section
variable {P : CallProgram} {m : LayerMaps} {Ms : List LLVMModule} {M : LLVMModule}
  {g : CallGraph} {F CF G : Func} {CI CI' : Value} {id : ℕ}

/-- What an instruction can do. -/
theorem visitCall_cases (F : Func) (g : CallGraph) (id : ℕ) (CI : Value) :
    (P.visitCall F (g, id) CI).1 = g ∨
    P.isIndirectCall CI = true ∧
      P.callInfoHash CI F (id + 1) ∉ g.globalFuncNameMap (P.getName F) ∧
      (P.visitCall F (g, id) CI).1 = P.visitIndirectCall F (id + 1) g CI ∨
    P.isIndirectCall CI = false ∧ P.isDebugCall CI = false ∧
      (P.visitCall F (g, id) CI).1 = P.visitDirectCall g CI := by
  unfold visitCall
  split_ifs with hskip hicall hvalid
  · exact Or.inl rfl
  · by_cases hseen : P.callInfoHash CI F (id + 1) ∈ g.globalFuncNameMap (P.getName F)
    · refine Or.inl ?_
      show P.visitIndirectCall F (id + 1) g CI = g
      rw [visitIndirectCall, if_pos hseen]
    · exact Or.inr (Or.inl ⟨hicall, hseen, rfl⟩)
  · exact Or.inl rfl
  · rw [not_or, Bool.not_eq_true] at hskip
    exact Or.inr (Or.inr ⟨by simpa using hicall, hskip.2, rfl⟩)

/-- What every instruction keeps, a function keeps. -/
theorem insts_induction {I : CallGraph → Prop}
    (hstep : ∀ CI ∈ P.insts F, ∀ g id, I g → I (P.visitCall F (g, id) CI).1) (h : I g) :
    I ((P.insts F).foldl (P.visitCall F) (g, 0)).1 := by
  refine List.foldlRecOn (P.insts F) (P.visitCall F) (motive := fun s => I s.1) ?_ ?_
  · exact h
  · intro s hs CI hCI
    exact hstep CI hCI s.1 s.2 hs

/-- What every instruction of the modules keeps holds in the end. -/
theorem callGraph_induction {I : CallGraph → Prop}
    (hstep : ∀ M ∈ Ms, ∀ F ∈ M.functions, ∀ CI ∈ P.insts F, ∀ g id, I g →
      I (P.visitCall F (g, id) CI).1)
    (h : I (P.initCallGraph m Ms)) : I (P.callGraph m Ms) := by
  refine List.foldlRecOn Ms _ h ?_
  intro g hg M hM
  exact List.foldlRecOn M.functions _ hg fun g hg F hF => insts_induction (hstep M hM F hF) hg

/-- What every instruction keeps once one of them has brought it about holds in the
    end. -/
theorem callGraph_reaches {I J : CallGraph → Prop} (hM : M ∈ Ms) (hF : F ∈ M.functions)
    (hCI : CI ∈ P.insts F) (hI : ∀ F CI g id, I g → I (P.visitCall F (g, id) CI).1)
    (hJ : ∀ F CI g id, J g → J (P.visitCall F (g, id) CI).1)
    (hIJ : ∀ g id, I g → J (P.visitCall F (g, id) CI).1) (h : I (P.initCallGraph m Ms)) :
    J (P.callGraph m Ms) := by
  have hfunction : ∀ {K : CallGraph → Prop},
      (∀ F CI g id, K g → K (P.visitCall F (g, id) CI).1) → ∀ g F, K g →
        K ((P.insts F).foldl (P.visitCall F) (g, 0)).1 :=
    fun hK g F hg => insts_induction (fun CI _ g id => hK F CI g id) hg
  have hmodule : ∀ {K : CallGraph → Prop},
      (∀ F CI g id, K g → K (P.visitCall F (g, id) CI).1) → ∀ g M, K g →
        K (P.doModulePass g M) :=
    fun hK g M hg => List.foldlRecOn M.functions _ hg fun g hg F _ => hfunction hK g F hg
  refine foldl_reaches hM (hmodule hI) (hmodule hJ) ?_ h
  intro g hg
  refine foldl_reaches hF (hfunction hI) (hfunction hJ) ?_ hg
  intro g hg
  exact foldl_reaches (I := fun s : CallGraph × ℕ => I s.1) (J := fun s : CallGraph × ℕ => J s.1)
    hCI (fun s CI => hI F CI s.1 s.2) (fun s CI => hJ F CI s.1 s.2) (fun s => hIJ s.1 s.2) hg

/-! ## Direct calls -/

theorem unifiedFuncMap_visitCall (F : Func) (g : CallGraph) (id : ℕ) (CI : Value) :
    (P.visitCall F (g, id) CI).1.UnifiedFuncMap = g.UnifiedFuncMap := by
  rcases P.visitCall_cases F g id CI with h | ⟨-, hseen, h⟩ | ⟨-, -, h⟩
  · rw [h]
  · rw [h, visitIndirectCall, if_neg hseen]
  · rw [h]
    rfl

/-- The entries of another call stay. -/
theorem callees_visitCall_of_ne (h : CI' ≠ CI) :
    (P.visitCall F (g, id) CI).1.Callees CI' = g.Callees CI' := by
  rcases P.visitCall_cases F g id CI with heq | ⟨-, hseen, heq⟩ | ⟨-, -, heq⟩
  · rw [heq]
  · rw [heq, visitIndirectCall, if_neg hseen]
    exact Function.update_of_ne h _ _
  · rw [heq]
    exact Function.update_of_ne h _ _

theorem not_isIndirectCall (hCF : P.getCalledFunction CI = some CF) :
    P.isIndirectCall CI = false := by
  obtain ⟨hop, hkind⟩ := Option.filter_eq_some_iff.1 hCF
  have hfun : P.kind CF = .function := by simpa using (And.left (by simpa using hkind))
  unfold isIndirectCall
  rw [hop]
  dsimp only
  rw [hfun]

/-- **Direct calls.**  What the pass leaves for a call of a function. -/
theorem callees_direct (hM : M ∈ Ms) (hF : F ∈ M.functions) (hCI : CI ∈ P.insts F)
    (hcall : P.kind CI = .instruction .call) (hCF : P.getCalledFunction CI = some CF) :
    (P.callGraph m Ms).Callees CI =
      if P.isDebugCall CI then ∅
      else P.directCallees (P.initCallGraph m Ms).UnifiedFuncMap CI := by
  have hdirect := not_isIndirectCall hCF
  split
  case isTrue hdebug =>
    refine callGraph_induction (I := fun g => g.Callees CI = ∅) ?_ rfl
    intro M _ F _ CI' _ g id hg
    by_cases heq : CI = CI'
    · subst heq
      rw [visitCall, if_pos (Or.inr hdebug)]
      exact hg
    · rw [callees_visitCall_of_ne heq, hg]
  case isFalse hdebug =>
    have hvisit : ∀ F g id, (P.visitCall F (g, id) CI).1 = P.visitDirectCall g CI := by
      intro F g id
      rw [visitCall, if_neg (by simp [hcall, hdebug]), if_neg (by simp [hdirect])]
    let U := (P.initCallGraph m Ms).UnifiedFuncMap
    refine (callGraph_reaches (I := fun g => g.UnifiedFuncMap = U)
      (J := fun g => g.UnifiedFuncMap = U ∧ g.Callees CI = P.directCallees U CI) hM hF hCI
      ?_ ?_ ?_ rfl).2
    · intro F CI' g id hg
      rw [unifiedFuncMap_visitCall, hg]
    · rintro F CI' g id ⟨hU, hg⟩
      refine ⟨by rw [unifiedFuncMap_visitCall, hU], ?_⟩
      by_cases heq : CI = CI'
      · subst heq
        rw [hvisit, visitDirectCall, hU]
        exact Function.update_self _ _ _
      · rw [callees_visitCall_of_ne heq, hg]
    · intro g id hg
      refine ⟨by rw [unifiedFuncMap_visitCall, hg], ?_⟩
      rw [hvisit, visitDirectCall, hg]
      exact Function.update_self _ _ _

/-- The callers cover the converse of the callees. -/
def CallersCover (g : CallGraph) : Prop := ∀ CI, ∀ F ∈ g.Callees CI, CI ∈ g.Callers F

/-- A call gets its targets, and they get the call as a caller. -/
theorem CallersCover.record (h : CallersCover g) (FS : Finset Func) {g' : CallGraph}
    (hcallees : g'.Callees = Function.update g.Callees CI FS)
    (hcallers : g'.Callers = fun f => if f ∈ FS then insert CI (g.Callers f) else g.Callers f) :
    CallersCover g' := by
  intro CI' F hF
  rw [hcallees, Function.update_apply] at hF
  rw [hcallers]
  dsimp only
  split at hF
  case isTrue heq =>
    rw [if_pos hF, heq]
    exact Finset.mem_insert_self _ _
  case isFalse =>
    have hold := h CI' F hF
    split
    · exact Finset.mem_insert_of_mem hold
    · exact hold

theorem callersCover_visitCall (h : CallersCover g) :
    CallersCover (P.visitCall F (g, id) CI).1 := by
  rcases P.visitCall_cases F g id CI with heq | ⟨-, hseen, heq⟩ | ⟨-, -, heq⟩
  · rwa [heq]
  · rw [heq, visitIndirectCall, if_neg hseen]
    exact h.record _ rfl rfl
  · rw [heq]
    exact h.record _ rfl rfl

/-- **Callers.**  At the end of the pass the callers cover the converse of the callees. -/
theorem callersCover_callGraph (m : LayerMaps) (Ms : List LLVMModule) :
    CallersCover (P.callGraph m Ms) := by
  refine callGraph_induction ?_ ?_
  · intro M _ F _ CI _ g id hg
    exact callersCover_visitCall hg
  · intro CI F hF
    exact absurd hF (Finset.notMem_empty F)

/-- The entries of `UnifiedFuncMap`: the first definitions. -/
theorem foldl_unifyFunction (Fs : List Func) (map : Key → Option Func) (k : Key) :
    Fs.foldl P.unifyFunction map k =
      (map k).or (Fs.find? fun F => P.isDeclaration F = false ∧ P.funcHashWithName F = k) := by
  induction Fs generalizing map with
  | nil => simp
  | cons F Fs ih =>
    rw [List.foldl_cons, ih, List.find?_cons, unifyFunction]
    by_cases hk : P.funcHashWithName F = k
    · subst hk
      cases hmap : map (P.funcHashWithName F) with
      | some G => simp [hmap]
      | none =>
        cases hdecl : P.isDeclaration F with
        | true => simp [hmap]
        | false => simp
    · have hkeep : (if P.isDeclaration F = false ∧ map (P.funcHashWithName F) = none then
          Function.update map (P.funcHashWithName F) (some F) else map) k = map k := by
        split
        · exact Function.update_of_ne (Ne.symm hk) _ _
        · rfl
      rw [hkeep]
      simp [hk]

end

/-! ## The function that is called -/

section
variable (P : CallProgram)

/-- `hasLocalLinkage`. -/
def hasLocalLinkage (F : Func) : Bool := P.hasInternalLinkage F || P.hasPrivateLinkage F

/-- One definition: a function, or two copies that the linker makes one. -/
def SameDefinition (G F : Func) : Prop :=
  G = F ∨ P.getName G = P.getName F ∧
    (P.hasLocalLinkage G = false ∧ P.isDeclaration G = false) ∧
    P.hasLocalLinkage F = false ∧ P.isDeclaration F = false

instance (G F : Func) : Decidable (P.SameDefinition G F) := inferInstanceAs (Decidable (_ ∨ _))

/-- The first definition with the printed type and the name of a function. -/
def firstCopy (Ms : List LLVMModule) (CF : Func) : Option Func :=
  (Ms.flatMap LLVMModule.functions).find? fun F =>
    P.isDeclaration F = false ∧ P.funcHashWithName F = P.funcHashWithName CF

/-- The first copy of the function is the function, or is linked with it; a function with
    internal linkage is not taken for a debug function. -/
def ResolvesToItself (Ms : List LLVMModule) (CF : Func) : Prop :=
  if containsSub (P.getName CF) "llvm.dbg" then P.hasInternalLinkage CF = false
  else ∀ G ∈ P.firstCopy Ms CF, P.SameDefinition G CF

end

section
variable {P : CallProgram} {m : LayerMaps} {Ms : List LLVMModule} {M : LLVMModule}
  {F CF : Func} {CI : Value}

theorem SameDefinition.eq_of_internal {G : Func} (h : P.SameDefinition G F)
    (hF : P.hasInternalLinkage F = true) : G = F := by
  rcases h with rfl | ⟨-, -, hlocal, -⟩
  · rfl
  · rw [hasLocalLinkage, hF] at hlocal
    cases hlocal

/-- **The function that is called.**  A call of a function with a body is resolved to this
    function exactly if its first copy is. -/
theorem callees_direct_iff (hM : M ∈ Ms) (hF : F ∈ M.functions) (hCI : CI ∈ P.insts F)
    (hcall : P.kind CI = .instruction .call) (hCF : P.getCalledFunction CI = some CF)
    (hbody : P.isDeclaration CF = false) (hmem : CF ∈ M.functions) :
    ((∀ G ∈ (P.callGraph m Ms).Callees CI, P.SameDefinition G CF) ∧
      (P.hasInternalLinkage CF = true → (P.callGraph m Ms).Callees CI = {CF})) ↔
    P.ResolvesToItself Ms CF := by
  have hcallees := callees_direct (m := m) hM hF hCI hcall hCF
  have hdebug : P.isDebugCall CI = containsSub (P.getName CF) "llvm.dbg" := by
    rw [isDebugCall, hCF]
    rfl
  rw [hcallees, hdebug, ResolvesToItself]
  split
  case isTrue => simp
  case isFalse =>
    -- the called function is itself among the candidates
    obtain ⟨G, hG⟩ : ∃ G, P.firstCopy Ms CF = some G := by
      have hsome : (P.firstCopy Ms CF).isSome := by
        refine List.find?_isSome.2 ⟨CF, List.mem_flatMap.2 ⟨M, hM, hmem⟩, ?_⟩
        simp [hbody]
      exact Option.isSome_iff_exists.1 hsome
    have hunified : (P.initCallGraph m Ms).UnifiedFuncMap (P.funcHashWithName CF) = some G := by
      have hfirst := foldl_unifyFunction (P := P) (Ms.flatMap LLVMModule.functions)
        (fun _ => none) (P.funcHashWithName CF)
      exact hfirst.trans hG
    have hdirect : P.directCallees (P.initCallGraph m Ms).UnifiedFuncMap CI = {G} := by
      rw [directCallees, hCF]
      ext f
      simp [TypedProgram.definitions, hbody, hunified, eq_comm]
    rw [hdirect, hG]
    constructor
    · rintro ⟨hall, -⟩ G' hG'
      cases hG'
      exact hall G (Finset.mem_singleton_self G)
    · intro hsame
      have hGF := hsame G rfl
      refine ⟨fun G' hG' => Finset.mem_singleton.1 hG' ▸ hGF, ?_⟩
      intro hinternal
      rw [hGF.eq_of_internal hinternal]

end

/-! ## Two functions with one name -/

/-- Every module has its function `init`, and the second one calls its own. -/
def twoInits (internal : Bool) : CallProgram where
  toProgram :=
    { Program.ofTable
        [(.function, []), (.function, []), (.function, []), (.instruction .call, [1]),
          (.instruction .ret, [])]
        (by decide) with
      getName := fun v => if v ≤ 1 then "init" else if v = 2 then "setup" else ""
      insts := fun F => if F ≤ 1 then [4] else if F = 2 then [3, 4] else []
      isDeclaration := fun _ => false }
  T := TypeTable.ofNames fun _ => "void()"
  getType _ := 0
  hasInternalLinkage F := internal && F ≤ 1

abbrev twoModules : List LLVMModule :=
  [{ globals := [], functions := [0] }, { globals := [], functions := [1, 2] }]

/-- The call of an internal function goes to that of the other module. -/
theorem internal_functions_confused :
    ¬ ∀ (P : CallProgram) (m : LayerMaps) (Ms : List LLVMModule) (M : LLVMModule) (F CF : Func)
      (CI : Value), M ∈ Ms → F ∈ M.functions → CI ∈ P.insts F → P.kind CI = .instruction .call →
      P.getCalledFunction CI = some CF → P.isDeclaration CF = false → CF ∈ M.functions →
      (∀ G ∈ (P.callGraph m Ms).Callees CI, P.SameDefinition G CF) ∧
        (P.hasInternalLinkage CF = true → (P.callGraph m Ms).Callees CI = {CF}) := by
  intro h
  have hcallees := (h (twoInits true) {} twoModules { globals := [], functions := [1, 2] } 2 1 3
    (by simp) (by decide) (by decide) rfl (by decide) rfl (by decide)).2 rfl
  have hother : ((twoInits true).callGraph {} twoModules).Callees 3 = {0} := by decide
  rw [hother] at hcallees
  exact absurd hcallees (by decide)

/-- Linked copies are one function. -/
theorem callees_direct_iff_twoInits :
    ((∀ G ∈ ((twoInits false).callGraph {} twoModules).Callees 3,
        (twoInits false).SameDefinition G 1) ∧
      ((twoInits false).hasInternalLinkage 1 = true →
        ((twoInits false).callGraph {} twoModules).Callees 3 = {1})) ↔
    (twoInits false).ResolvesToItself twoModules 1 := by
  have hM : { globals := [], functions := [1, 2] } ∈ twoModules := by simp
  have hF : 2 ∈ [1, 2] := by decide
  have hCI : 3 ∈ (twoInits false).insts 2 := by decide
  exact callees_direct_iff hM hF hCI rfl (by decide) rfl (by decide)

end CallProgram

end TFA
