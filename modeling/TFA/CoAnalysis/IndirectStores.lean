/-
  Targets that `oneLayerChecker` cannot see (`OneLayerHandler.cc`).

  The walk from the called operand goes from a load to the values that are stored to the
  very pointer that it loads from.  A slot that is written through another pointer, by a
  callee that gets its address or through a pointer to the pointer, looks empty, and what
  looks empty counts as resolved.

  * `StoredTo`: a function is stored to a slot that the called operand is loaded from;
  * `Visible`: it is stored to a pointer that a load on the walk reads;
  * `keepsTargets_of_seesTargets`: if the targets that are stored to the slot are visible and
    some source is not silent, the checker keeps them and leaves no empty set; these
    conditions are necessary for functions that are only stored (`OnlyStored`).
-/
import TFA.CoAnalysis.Refinement

namespace TFA

open Worklist LayerMaps

namespace CallProgram

section
variable (P : CallProgram) (g : CallGraph) (CI : Value)

/-- The address of a stack slot gets to a pointer. -/
def PointsInto (p slot : Value) : Prop := P.kind slot = .instruction .alloca ∧ P.Flows g p slot

/-- A store writes the function to a stack slot that the called operand is loaded from:
    through the address of the slot, or any other pointer to it. -/
def StoredTo (f : Func) : Prop :=
  ∃ CV p slot SI W q F, P.getCalledOperand CI = some CV ∧ P.kind CV = .instruction .load ∧
    P.operand0 CV = some p ∧ P.PointsInto g p slot ∧
    P.kind SI = .instruction .store ∧ P.operands SI = [W, q] ∧ P.PointsInto g q slot ∧
    P.getBaseFunction (P.stripPointerCasts W) = some F ∧ f ∈ P.definitions F

/-- A value that the walk leaves without a trace: a constant, an address of a stack slot or
    the result of an allocation, but no function. -/
def Silent (V : Value) : Prop :=
  P.getBaseFunction (P.stripPointerCasts V) = none ∧
    (P.kind V = .constantData ∨ P.kind V = .instruction .alloca ∨
      P.kind V = .instruction .call ∧ P.getCalledFuncName V ∈ HeapAllocFuncs)

/-- A source that the walk gets to. -/
def IsLeaf (V : Value) : Prop := P.Met g CI V ∧ P.nextSources .oneLayer g V = []

/-- The function is visible from the called operand: a store writes it to the very pointer
    that a load on the walk reads. -/
def Visible (f : Func) : Prop :=
  ∃ V q SI W F, P.Met g CI V ∧ P.kind V = .instruction .load ∧
    P.getBaseFunction (P.stripPointerCasts V) = none ∧ P.operand0 V = some q ∧
    P.kind SI = .instruction .store ∧ q ∈ P.operands SI ∧ P.operand0 SI = some W ∧
    P.sourceOf .oneLayer g W = .base F ∧ f ∈ P.definitions F

/-- The value is a function that resolves to `f`, or a cast of one. -/
def StandsFor (W : Value) (f : Func) : Prop :=
  ∃ F, P.getBaseFunction (P.stripPointerCasts W) = some F ∧ f ∈ P.definitions F

/-- The function is stored and nothing else: what stands for it is used by stores, and by
    casts that stand for a function as well, and is passed to no function; and it is no
    target of a field that the walk meets. -/
structure OnlyStored (f : Func) : Prop where
  operand : ∀ CV, P.getCalledOperand CI = some CV →
    P.getBaseFunction (P.stripPointerCasts CV) = none
  users : ∀ W, P.StandsFor W f → ∀ U, W ∈ P.operands U →
    P.kind U = .instruction .store ∨ P.getBaseFunction (P.stripPointerCasts U) ≠ none
  passed : ∀ W, P.StandsFor W f → ∀ F, ∀ cai ∈ g.Callers F, W ∉ P.callArgs cai
  field : ∀ V TyList, P.Met g CI V → P.sourceOf .oneLayer g V = .layers TyList →
    ∀ CT ∈ TyList, f ∉ (P.fieldResult g CI CT).FS

/-- If the checker returns true, it keeps the targets that are stored to the slot of the
    called operand, and does not leave an empty set where all sources are silent. -/
def KeepsTargets : Prop :=
  (P.oneLayerChecker g CI).1 = true →
    (∀ f ∈ g.ICallees CI, P.StoredTo g CI f → f ∈ (P.oneLayerChecker g CI).2.ICallees CI) ∧
    ((∀ V, P.IsLeaf g CI V → P.Silent V) → (P.oneLayerChecker g CI).2.ICallees CI ≠ ∅)

/-- If the walk goes on after every value and meets no escaped field, the targets that are
    stored to the slot are visible, and some source is not silent. -/
def SeesTargets : Prop :=
  P.WalkSucceeds g CI →
    (∀ f ∈ g.ICallees CI, P.StoredTo g CI f → P.Visible g CI f) ∧
    ∃ V, P.IsLeaf g CI V ∧ ¬ P.Silent V

end

section
variable {P : CallProgram} {g : CallGraph} {CI V W : Value} {f : Func}

/-- The checker returns true exactly if its walk succeeds. -/
theorem oneLayerChecker_fst_iff : (P.oneLayerChecker g CI).1 = true ↔ P.WalkSucceeds g CI := by
  unfold oneLayerChecker
  cases hCV : P.getCalledOperand CI with
  | none =>
    refine iff_of_false (by simp) fun h => ?_
    have hop := h.operand
    rw [hCV] at hop
    cases hop
  | some CV =>
    rw [walkSucceeds_iff hCV]
    dsimp only
    split
    case isFalse hgiveUp => exact iff_of_false (by simp) fun h => hgiveUp h.1
    case isTrue hall =>
      split
      case isTrue hescape => exact iff_of_false (by simp) fun h => h.2 hescape
      case isFalse hno => exact iff_of_true rfl ⟨hall, hno⟩

/-- What the checker writes: the functions that its walk gets to. -/
theorem mem_ICallees_oneLayerChecker (h : P.WalkSucceeds g CI) :
    f ∈ (P.oneLayerChecker g CI).2.ICallees CI ↔ ∃ V, P.Met g CI V ∧ P.Gives g CI V f := by
  obtain ⟨-, ⟨-, FS, -, hicallees, hmem⟩ | ⟨hno, -⟩⟩ := P.oneLayerChecker_spec g CI
  · rw [hicallees, Function.update_self]
    exact hmem f
  · exact absurd h hno

theorem Met.step (h : P.Met g CI V) (hW : W ∈ P.nextSources .oneLayer g V) : P.Met g CI W := by
  obtain ⟨CV, hCV, hsteps⟩ := h
  exact ⟨CV, hCV, hsteps.tail hW⟩

/-- Nothing comes after a value that gives a target. -/
theorem Gives.nextSources (h : P.Gives g CI V f) : P.nextSources .oneLayer g V = [] := by
  unfold Gives at h
  unfold CallProgram.nextSources
  cases hsource : P.sourceOf .oneLayer g V with
  | pushed EV =>
    rw [hsource] at h
    exact h.elim
  | _ => rfl

/-- A silent value gives no target. -/
theorem Silent.not_gives (h : P.Silent V) : ¬ P.Gives g CI V f := by
  obtain ⟨hstrip, hkind⟩ := h
  have hpushed : P.sourceOf .oneLayer g V = .pushed [] := by
    rcases hkind with hV | hV | ⟨hV, hname⟩
    · rw [sourceOf, if_pos hV]
    · rw [sourceOf, if_neg (by simp [hV]), if_neg (by rw [hV]; decide), hstrip]
      simp only [instSource, hV]
    · rw [sourceOf, if_neg (by simp [hV]), if_neg (by rw [hV]; decide), hstrip]
      simp only [instSource, hV, callSource, if_pos hname]
  unfold Gives
  rw [hpushed]
  exact id

/-- A load that the walk goes on after leads to what is stored to its pointer. -/
theorem mem_nextSources_of_load {q SI : Value} (hV : P.kind V = .instruction .load)
    (hstrip : P.getBaseFunction (P.stripPointerCasts V) = none) (hq : P.operand0 V = some q)
    (hSI : P.kind SI = .instruction .store) (hqSI : q ∈ P.operands SI)
    (hvalue : P.operand0 SI = some W) (hsup : P.supported .oneLayer g V = true) :
    W ∈ P.nextSources .oneLayer g V := by
  have hsource : P.sourceOf .oneLayer g V = P.loadSource .oneLayer V := by
    rw [sourceOf, if_neg (by simp [hV]), if_neg (by rw [hV]; decide), hstrip]
    simp only [instSource, hV]
  have hglobal : P.kind q ≠ .globalVariable := by
    intro hkind
    have hnone : P.sourceOf .oneLayer g V = .unsupported := by
      rw [hsource, loadSource, hq]
      dsimp only
      rw [if_pos hkind]
    rw [supported, hnone] at hsup
    cases hsup
  have huser : SI ∈ P.users q := (P.mem_users q SI).2 hqSI
  unfold nextSources
  rw [hsource, loadSource, hq]
  dsimp only
  rw [if_neg hglobal]
  refine List.mem_cons_of_mem _ (List.mem_filterMap.2 ⟨SI, ?_, hvalue⟩)
  exact List.mem_filter.2 ⟨huser, by simpa using hSI⟩

/-- **Visible stores.**  If the walk succeeds, it gets to the functions that are visible. -/
theorem Visible.met (hvisible : P.Visible g CI f) (h : P.WalkSucceeds g CI) :
    ∃ V, P.Met g CI V ∧ P.Gives g CI V f := by
  obtain ⟨V, q, SI, W, F, hmet, hV, hstrip, hq, hSI, hqSI, hvalue, hW, hf⟩ := hvisible
  have hnext := mem_nextSources_of_load hV hstrip hq hSI hqSI hvalue (h.supported V hmet)
  refine ⟨W, hmet.step hnext, ?_⟩
  unfold Gives
  rw [hW]
  exact hf

/-- What the walk takes for a function stands for it. -/
theorem baseFunction_of_sourceOf {F : Func} (h : P.sourceOf .oneLayer g V = .base F) :
    P.getBaseFunction (P.stripPointerCasts V) = some F := by
  unfold sourceOf at h
  dsimp only at h
  split_ifs at h
  split at h
  case h_1 G hG =>
    cases h
    exact hG
  case h_2 =>
    rcases P.instSource_cases .oneLayer g V with hinst | ⟨EV, hinst⟩
    · rw [hinst] at h
      cases h
    · rw [hinst] at h
      cases h

/-- A value that something comes after is no function. -/
theorem instSource_of_nextSources (h : W ∈ P.nextSources .oneLayer g V) :
    P.getBaseFunction (P.stripPointerCasts V) = none ∧
      ∃ EV, P.instSource .oneLayer g V = .pushed EV ∧ W ∈ EV := by
  unfold nextSources at h
  split at h
  case h_2 => cases h
  case h_1 EV hsource =>
    unfold sourceOf at hsource
    dsimp only at hsource
    split_ifs at hsource
    · cases hsource
      cases h
    · split at hsource
      case h_1 => cases hsource
      case h_2 hnone => exact ⟨hnone, EV, hsource, h⟩

/-- Where the walk goes from a value: to an operand, to what a caller passes, to a return
    instruction, or from a load to what is stored. -/
theorem nextSources_oneLayer_cases (h : W ∈ P.nextSources .oneLayer g V) :
    W ∈ P.operands V ∨ (∃ F, ∃ cai ∈ g.Callers F, W ∈ P.callArgs cai) ∨
      P.kind W = .instruction .ret ∨
      ∃ q SI, P.kind V = .instruction .load ∧ P.operand0 V = some q ∧
        P.kind SI = .instruction .store ∧ q ∈ P.operands SI ∧ P.operand0 SI = some W := by
  obtain ⟨-, EV, hinst, hW⟩ := instSource_of_nextSources h
  have hfirst : ∀ {O : Value}, P.operand0 V = some O → O ∈ P.operands V :=
    fun hO => List.mem_of_mem_head? hO
  have hcast : P.bitCastSource V = .pushed EV → W ∈ P.operands V := by
    intro hcast
    unfold bitCastSource at hcast
    split at hcast
    case h_2 => cases hcast
    case h_1 Op hOp =>
      split at hcast <;> cases hcast
      rw [List.mem_singleton.1 hW]
      exact hfirst hOp
  unfold instSource at hinst
  split at hinst
  case h_1 =>
    unfold argumentSource at hinst
    dsimp only at hinst
    split at hinst <;> cases hinst
    obtain ⟨cai, hcai, harg⟩ := List.mem_filterMap.1 hW
    exact Or.inr (Or.inl ⟨_, cai, mem_inOrder.1 hcai, List.mem_of_getElem? harg⟩)
  case h_2 =>
    have hescape : ¬ (Checker.oneLayer = .escape ∧ P.getCalledFuncName V = "__symbol_get") :=
      fun h => Checker.noConfusion h.1
    rw [callSource, if_neg hescape] at hinst
    split_ifs at hinst <;> cases hinst
    · cases hW
    · exact Or.inr (Or.inr (Or.inl (kind_of_returnInsts hW)))
  case h_3 hload =>
    unfold loadSource at hinst
    split at hinst
    case h_2 => cases hinst
    case h_1 q hq =>
      split at hinst <;> cases hinst
      rcases List.mem_cons.1 hW with rfl | hstored
      · exact Or.inl (hfirst hq)
      · obtain ⟨SI, hSI, hvalue⟩ := List.mem_filterMap.1 hstored
        obtain ⟨huser, hstore⟩ := List.mem_filter.1 hSI
        exact Or.inr (Or.inr (Or.inr ⟨q, SI, hload, hq, of_decide_eq_true hstore,
          (P.mem_users q SI).1 huser, hvalue⟩))
  case h_4 =>
    cases hinst
    exact Or.inl (List.mem_filter.1 hW).1
  case h_5 => exact Or.inl (hcast hinst)
  case h_6 => exact Or.inl (hcast hinst)
  case h_12 =>
    cases hinst
    exact Or.inl (List.mem_of_mem_drop hW)
  case h_13 =>
    cases hinst
    cases hW
  case h_14 =>
    cases hinst
    exact Or.inl (List.mem_of_mem_head? (Option.mem_toList.1 hW))
  case h_15 => cases hinst
  all_goals
    cases hinst
    exact Or.inl (hfirst (Option.mem_toList.1 hW))

/-- A function that is only stored is visible if the walk gets to it. -/
theorem visible_of_met (honly : P.OnlyStored g CI f) (hmet : P.Met g CI V)
    (hgives : P.Gives g CI V f) : P.Visible g CI f := by
  cases hsource : P.sourceOf .oneLayer g V with
  | layers TyList =>
    rw [Gives, hsource] at hgives
    obtain ⟨CT, hCT, hf⟩ := hgives
    exact absurd hf (honly.field V TyList hmet hsource CT hCT)
  | base F =>
    rw [Gives, hsource] at hgives
    have hbase := baseFunction_of_sourceOf hsource
    obtain ⟨CV, hCV, hsteps⟩ := hmet
    rcases Relation.ReflTransGen.cases_tail hsteps with rfl | ⟨U, hsteps, hstep⟩
    · rw [honly.operand _ hCV] at hbase
      cases hbase
    have hstands : P.StandsFor V f := ⟨F, hbase, hgives⟩
    have hnone := (instSource_of_nextSources hstep).1
    rcases nextSources_oneLayer_cases hstep with hop | ⟨G, cai, hcai, harg⟩ | hret |
      ⟨q, SI, hload, hq, hSI, hqSI, hvalue⟩
    · rcases honly.users V hstands U hop with hstore | hfun
      · -- nothing comes after a store
        obtain ⟨-, EV, hinst, -⟩ := instSource_of_nextSources hstep
        unfold instSource at hinst
        rw [hstore] at hinst
        cases hinst
      · exact absurd hnone hfun
    · exact absurd harg (honly.passed V hstands G cai hcai)
    · rw [baseFunction_ret hret] at hbase
      cases hbase
    · exact ⟨U, q, SI, V, F, ⟨CV, hCV, hsteps⟩, hload, hnone, hq, hSI, hqSI, hvalue, hsource,
        hgives⟩
  | pushed EV =>
    rw [Gives, hsource] at hgives
    exact hgives.elim
  | unsupported =>
    rw [Gives, hsource] at hgives
    exact hgives.elim

/-- The checker leaves an empty set where all sources are silent. -/
theorem ICallees_of_silent (h : P.WalkSucceeds g CI)
    (hsilent : ∀ V, P.IsLeaf g CI V → P.Silent V) :
    (P.oneLayerChecker g CI).2.ICallees CI = ∅ := by
  refine Finset.eq_empty_of_forall_notMem fun f hf => ?_
  obtain ⟨V, hmet, hgives⟩ := (mem_ICallees_oneLayerChecker h).1 hf
  exact (hsilent V ⟨hmet, hgives.nextSources⟩).not_gives hgives

/-- **Targets that are not seen.**  The checker keeps the targets that are stored to the
    slot, and does not report silent sources as resolved, if its walk fails or these targets
    are visible and some source is not silent; and only then, if the targets are stored and
    nothing else. -/
theorem keepsTargets_of_seesTargets :
    (P.SeesTargets g CI → P.KeepsTargets g CI) ∧
    ((∀ f ∈ g.ICallees CI, P.StoredTo g CI f → P.OnlyStored g CI f) →
      P.KeepsTargets g CI → P.SeesTargets g CI) := by
  unfold KeepsTargets SeesTargets
  rw [oneLayerChecker_fst_iff]
  constructor
  · intro hsees h
    obtain ⟨hvisible, V, hV, hloud⟩ := hsees h
    refine ⟨fun f hf hstored => ?_, fun hsilent => absurd (hsilent V hV) hloud⟩
    exact (mem_ICallees_oneLayerChecker h).2 ((hvisible f hf hstored).met h)
  · intro honly hkeeps h
    obtain ⟨hkept, hne⟩ := hkeeps h
    constructor
    · intro f hf hstored
      obtain ⟨V, hmet, hgives⟩ := (mem_ICallees_oneLayerChecker h).1 (hkept f hf hstored)
      exact visible_of_met (honly f hf hstored) hmet hgives
    · by_contra hno
      push Not at hno
      exact hne hno (ICallees_of_silent h hno)

end

/-! ## A pointer to a pointer -/

/-- `fp = f; ppf = &fp;` and a call of what `ppf` points to: the functions `0` and `1`, the
    slots `3` and `4`, the stores `5` and `6`, the loads `7` and `8`, the call `9`. -/
def nestedIndirection : CallProgram where
  toProgram :=
    { Program.ofTable
        [(.function, []), (.function, []), (.constantData, []), (.instruction .alloca, [2]),
          (.instruction .alloca, [2]), (.instruction .store, [0, 3]),
          (.instruction .store, [3, 4]), (.instruction .load, [4]),
          (.instruction .load, [7]), (.instruction .call, [2, 8]), (.instruction .ret, []),
          (.instruction .ret, [12]), (.argument, [])]
        (by decide) with
      getName := fun v => if v = 0 then "f" else if v = 1 then "main" else ""
      getFunction := fun v => if v ≥ 11 then 0 else 1
      args := fun F => if F = 0 then [12] else []
      insts := fun F => if F = 0 then [11] else if F = 1 then [3, 4, 5, 6, 7, 8, 9, 10] else []
      isDeclaration := fun _ => false
      hasAddressTaken := fun F => F = 0 }
  T := typesOfCalls
  getType v := if v = 2 ∨ v = 12 then 2 else 0
  getFunctionType v := if v = 0 ∨ v = 9 then 5 else 3

/-- The call graph before the main loop. -/
abbrev nestedGraph : CallGraph :=
  nestedIndirection.callGraph {} [{ globals := [], functions := [0, 1] }]

theorem storedTo_nestedIndirection :
    nestedIndirection.StoredTo nestedGraph 9 0 := by
  have hslot : nestedIndirection.PointsInto nestedGraph 7 3 := by
    refine ⟨rfl, .single ?_⟩
    have hself : nestedIndirection.PointsTo nestedGraph 4 4 := .self rfl
    have hstore : nestedIndirection.kind 6 = .instruction .store := rfl
    exact .slot rfl rfl ⟨4, hself, hself⟩ hstore rfl
  exact ⟨8, 7, 3, 5, 0, 3, 0, rfl, rfl, rfl, hslot, rfl, rfl, ⟨rfl, .refl⟩, by decide, by decide⟩

/-- The function is a target before, and the call is resolved to an empty set. -/
theorem targets_not_seen :
    ¬ ∀ (P : CallProgram) (m : LayerMaps) (Ms : List LLVMModule) (CI : Value),
      P.KeepsTargets (P.callGraph m Ms) CI := by
  intro h
  have hkeeps := h nestedIndirection {} [{ globals := [], functions := [0, 1] }] 9
    (by decide)
  have hbefore : 0 ∈ nestedGraph.ICallees 9 := by decide
  have hafter : (nestedIndirection.oneLayerChecker nestedGraph 9).2.ICallees 9 = ∅ := by
    decide
  have hkept := hkeeps.1 0 hbefore storedTo_nestedIndirection
  rw [hafter] at hkept
  exact absurd hkept (Finset.notMem_empty 0)

/-- `fp = f; fp();`: the functions `0` and `1`, the slot `3`, the store `4`, the load `5`, the
    call `6`. -/
def directSlot : CallProgram where
  toProgram :=
    { Program.ofTable
        [(.function, []), (.function, []), (.constantData, []), (.instruction .alloca, [2]),
          (.instruction .store, [0, 3]), (.instruction .load, [3]), (.instruction .call, [2, 5]),
          (.instruction .ret, []), (.instruction .ret, [9]), (.argument, [])]
        (by decide) with
      getName := fun v => if v = 0 then "f" else if v = 1 then "main" else ""
      getFunction := fun v => if v ≥ 8 then 0 else 1
      args := fun F => if F = 0 then [9] else []
      insts := fun F => if F = 0 then [8] else if F = 1 then [3, 4, 5, 6, 7] else []
      isDeclaration := fun _ => false
      hasAddressTaken := fun F => F = 0 }
  T := typesOfCalls
  getType v := if v = 2 ∨ v = 9 then 2 else 0
  getFunctionType v := if v = 0 ∨ v = 6 then 5 else 3

/-- The call graph before the main loop. -/
abbrev directGraph : CallGraph :=
  directSlot.callGraph {} [{ globals := [], functions := [0, 1] }]

/-- What is stored to the slot itself is kept. -/
theorem keepsTargets_directSlot : directSlot.KeepsTargets directGraph 6 := by
  refine keepsTargets_of_seesTargets.1 fun _ => ⟨fun f hf _ => ?_, 0, ⟨⟨5, rfl, .single ?_⟩,
    nextSources_of_function rfl⟩, fun hsilent => ?_⟩
  · have htargets : directGraph.ICallees 6 = {0} := by decide
    rw [htargets, Finset.mem_singleton] at hf
    subst hf
    exact ⟨5, 3, 4, 0, 0, ⟨5, rfl, .refl⟩, rfl, rfl, rfl, rfl, by decide, rfl, rfl, by decide⟩
  · have hnext : (0 : Value) ∈ directSlot.nextSources .oneLayer directGraph 5 := by decide
    exact hnext
  · exact absurd hsilent.1 (by decide)

end CallProgram

end TFA
