/-
  Un-escaping a field (`escapeHandler` and `escapeChecker` in `EscapeHandler.cc`).

  A field escapes when something of unknown origin is stored to it.  `escapeChecker`
  looks for the origin again, now through arguments, calls and stack slots, and records
  the functions and fields that it finds; if it succeeds on all stores to a field,
  the field ceases to be escaped.

  * `FlowStep`: a value takes what another one holds; `Flows` has all such steps,
    `Followed` those that the checker follows;
  * `Recorded`: what a query of a field needs to find a function there;
  * `recorded_unescape`: a function that is followed to a store is recorded.
-/
import TFA.CallGraph.Sources
import TFA.CallGraph.Stored
import TFA.CallGraph.Keyed

namespace TFA

open Worklist LayerMaps

namespace CallProgram

section
variable (P : CallProgram)

/-! ## The handler -/

/-- The field `From` flows into the escaped field `To`. -/
def confineEscaped (To : CompositeType) (m : LayerMaps) (From : CompositeType) : LayerMaps :=
  { m with
    typeConfineMap := addEntry m.typeConfineMap (m.layerHash P.T To) (m.layerHash P.T From)
    hashIDTypeMap := Function.update
      (Function.update m.hashIDTypeMap (m.layerHash P.T To) (some To)) (m.layerHash P.T From)
      (some From) }

/-- What is recorded for a value that the loop goes through. -/
def recordSource (g : CallGraph) (CT : CompositeType) (m : LayerMaps) (TV : Value) : LayerMaps :=
  match P.sourceOf .escape g TV with
  | .layers TyList => TyList.foldl (P.confineEscaped CT) m
  | .base F =>
    (inOrder (P.definitions F)).foldl (fun m F => P.recordFunc CT (m.recordTypes P.T CT) F) m
  | _ => m

/-- `escapeChecker`.  The type of the escaped field is looked up once. -/
def escapeChecker (g : CallGraph) (SI : Value) (escapeHash : Key) : Bool × LayerMaps :=
  match P.operand0 SI, g.layers.hashIDTypeMap escapeHash with
  | some VO, some CT =>
    (P.allSupported .escape g VO,
      (P.checkedSources .escape g VO).foldl (P.recordSource g CT) g.layers)
  | _, _ => (false, g.layers)

/-- The loop over the stores to an escaped field. -/
def checkStores (hash : Key) : List Value → CallGraph → Bool × CallGraph
  | [], g => (true, g)
  | SI :: stores, g =>
    let r := P.escapeChecker g SI hash
    if r.1 then checkStores hash stores { g with layers := r.2 }
    else (false, { g with layers := r.2 })

/-- One round of the first loop of `escapeHandler`. -/
def unescape (g : CallGraph) (hash : Key) : CallGraph :=
  if hash ∈ g.succeed_type_set then g
  else
    let r := P.checkStores hash (inOrder (g.layers.escapedStoreMap hash)) g
    if r.1 then
      { r.2 with
        layers := { r.2.layers with typeEscapeSet := r.2.layers.typeEscapeSet.erase hash }
        succeed_type_set := insert hash r.2.succeed_type_set }
    else r.2

/-! ## Flows -/

variable (g : CallGraph)

/-- `V` may take what `W` holds: the call edges, the calls whose results count and the
    pointers that count as one are given. -/
inductive FlowStep (edge : Value → Func → Prop) (opens : Value → Prop)
    (sameSlot : Value → Value → Prop) : Value → Value → Prop
  | cast {V W op} (hV : P.kind V = .instruction op ∨ P.kind V = .constantExpr op)
      (hop : TypedProgram.isCastOpcode op = true) (hW : P.operand0 V = some W) :
      FlowStep edge opens sameSlot V W
  | phi {V W} (hV : P.kind V = .instruction .phi) (hW : W ∈ P.operands V) :
      FlowStep edge opens sameSlot V W
  | select {V W} (hV : P.kind V = .instruction .select) (hW : W ∈ (P.operands V).drop 1) :
      FlowStep edge opens sameSlot V W
  /-- an argument, and what a call passes for it -/
  | argument {V W cai} (hV : P.kind V = .argument) (hcai : edge cai (P.getFunction V))
      (hW : (P.callArgs cai)[(P.args (P.getFunction V)).idxOf V]? = some W) :
      FlowStep edge opens sameSlot V W
  /-- a call, and what a callee returns -/
  | result {V W F RI} (hV : P.kind V = .instruction .call) (hopens : opens V)
      (hF : F ∈ g.Callees V) (hRI : RI ∈ P.insts F) (hret : P.kind RI = .instruction .ret)
      (hW : P.getReturnValue RI = some W) : FlowStep edge opens sameSlot V W
  /-- a load, and what is stored to the slot -/
  | slot {V W p q SI} (hV : P.kind V = .instruction .load) (hp : P.operand0 V = some p)
      (hpq : sameSlot p q) (hSI : P.kind SI = .instruction .store)
      (hops : P.operands SI = [W, q]) : FlowStep edge opens sameSlot V W

/-- The pointers to a stack slot: its address, casts of pointers to it, and the arguments
    that such a pointer is passed for. -/
inductive PointsTo (slot : Value) : Value → Prop
  | self (h : P.kind slot = .instruction .alloca) : PointsTo slot slot
  | cast {V W} (hV : (P.kind V).isOperator .bitCast = true) (hW : P.operand0 V = some W)
      (h : PointsTo slot W) : PointsTo slot V
  | passed {V W cai} (hV : P.kind V = .argument) (hcai : P.getFunction V ∈ g.Callees cai)
      (hW : (P.callArgs cai)[(P.args (P.getFunction V)).idxOf V]? = some W)
      (h : PointsTo slot W) : PointsTo slot V

/-- Two pointers to one slot. -/
def SameSlot (p q : Value) : Prop := ∃ slot, P.PointsTo g slot p ∧ P.PointsTo g slot q

/-- The value of `W` can get to `V`. -/
def Flows : Value → Value → Prop :=
  Relation.ReflTransGen
    (P.FlowStep g (fun cai F => F ∈ g.Callees cai) (fun _ => True) (P.SameSlot g))

/-- The checker does not skip a call: it has not the name of an allocation, nor is it a
    `__symbol_get` of a name without definitions. -/
def Opens (CAI : Value) : Prop :=
  P.getCalledFuncName CAI ∉ HeapAllocFuncs ∧
    (P.getCalledFuncName CAI = "__symbol_get" → P.symbol_get_hander CAI ≠ "" →
      P.Ctx.GlobalFuncs (P.symbol_get_hander CAI) ≠ ∅)

/-- A step that the checker follows: `V` is not taken for a function, the calls of a
    function are those in `Callers`, no call is skipped, and a slot is read and written
    through one pointer. -/
def FollowedStep (V W : Value) : Prop :=
  P.getBaseFunction (P.stripPointerCasts V) = none ∧
    P.FlowStep g (fun cai F => cai ∈ g.Callers F) P.Opens (· = ·) V W

/-- The function gets to `V` in steps that the checker follows. -/
def Followed (V : Value) (F : Func) : Prop :=
  ∃ W, Relation.ReflTransGen (P.FollowedStep g) V W ∧ P.sourceOf .escape g W = .base F

end

/-! ## The loop goes along the flows -/

section
variable {P : CallProgram} {g : CallGraph} {V W VO : Value} {F f : Func} {CT CT' : CompositeType}
  {m m' : LayerMaps} {hash : Key}

theorem kind_ne_constantData {edge : Value → Func → Prop} {opens : Value → Prop}
    {sameSlot : Value → Value → Prop} (h : P.FlowStep g edge opens sameSlot V W) :
    P.kind V ≠ .constantData ∧ (P.kind V).isOperator .getElementPtr = false := by
  cases h with
  | cast hV hop =>
    rcases hV with hV | hV <;> rw [hV]
    · refine ⟨by simp, ?_⟩
      cases ‹Opcode› <;> first | rfl | cases hop
    · refine ⟨by simp, ?_⟩
      cases ‹Opcode› <;> first | rfl | cases hop
  | phi hV => rw [hV]; exact ⟨by simp, rfl⟩
  | select hV => rw [hV]; exact ⟨by simp, rfl⟩
  | argument hV => rw [hV]; exact ⟨by simp, rfl⟩
  | result hV => rw [hV]; exact ⟨by simp, rfl⟩
  | slot hV => rw [hV]; exact ⟨by simp, rfl⟩

theorem sourceOf_of_followedStep (h : P.FollowedStep g V W) :
    P.sourceOf .escape g V = P.instSource .escape g V := by
  obtain ⟨hdata, hgep⟩ := kind_ne_constantData h.2
  rw [sourceOf, if_neg hdata, if_neg (by simp [hgep]), h.1]

theorem ne_unsupported (h : P.supported .escape g V = true) :
    P.sourceOf .escape g V ≠ .unsupported := by
  intro heq
  rw [supported, heq] at h
  cases h

theorem step_of_pushed {EV : List Value} (h : P.sourceOf .escape g V = .pushed EV) (hW : W ∈ EV) :
    Step (P.nextSources .escape g) V W := by
  rw [Step, nextSources, h]
  exact hW

/-- A return instruction is no function. -/
theorem baseFunction_ret (hret : P.kind V = .instruction .ret) :
    P.getBaseFunction (P.stripPointerCasts V) = none := by
  rw [P.stripPointerCasts_eq V (Or.inl hret), TypedProgram.getBaseFunction,
    if_neg (by simp [hret]), TypedProgram.bitcastFunction, if_neg (by rw [hret]; decide)]

theorem sourceOf_ret (hret : P.kind V = .instruction .ret) :
    P.sourceOf .escape g V = .pushed (P.getReturnValue V).toList := by
  rw [sourceOf, if_neg (by simp [hret]), if_neg (by rw [hret]; decide), baseFunction_ret hret]
  simp only [instSource, hret]

/-- The loop gives up at a global variable. -/
theorem supported_globalVariable (hV : P.kind V = .globalVariable) :
    P.supported .escape g V = false := by
  have hnone : P.getBaseFunction V = none := by
    rw [TypedProgram.getBaseFunction, if_neg (by simp [hV]), TypedProgram.bitcastFunction,
      if_neg (by rw [hV]; decide)]
  rw [supported, sourceOf, if_neg (by simp [hV]), if_neg (by rw [hV]; decide),
    P.stripPointerCasts_eq V (Or.inr hV), hnone]
  simp only [instSource, hV]

/-- The operand of a cast that is supported is pushed. -/
theorem instSource_of_cast {op : Opcode}
    (hV : P.kind V = .instruction op ∨ P.kind V = .constantExpr op)
    (hop : TypedProgram.isCastOpcode op = true) (hW : P.operand0 V = some W)
    (hne : P.instSource .escape g V ≠ .unsupported) :
    P.instSource .escape g V = .pushed [W] := by
  have hbitCast : P.bitCastSource V ≠ .unsupported → P.bitCastSource V = .pushed [W] := by
    intro hne
    unfold bitCastSource at hne ⊢
    rw [hW] at hne ⊢
    dsimp only at hne ⊢
    split
    case isTrue hany => exact absurd (if_pos hany) hne
    case isFalse => rfl
  have hoperand : (P.operand0 V).toList = [W] := by rw [hW]; rfl
  unfold instSource at hne ⊢
  rcases hV with hV | hV
  · rw [hV] at hne ⊢
    cases op with
    | bitCast => exact hbitCast hne
    | zExt | sExt | trunc | intToPtr | ptrToInt => exact congrArg Source.pushed hoperand
    | other name => exact absurd rfl hne
    | alloca | load | store | getElementPtr | phi | select | call | ret => cases hop
  · rw [hV] at hne ⊢
    cases op with
    | bitCast => exact hbitCast hne
    | _ => exact absurd rfl hne

/-- What a caller passes is pushed. -/
theorem mem_argumentSource {cai : Value} (hcai : cai ∈ g.Callers (P.getFunction V))
    (hW : (P.callArgs cai)[(P.args (P.getFunction V)).idxOf V]? = some W)
    (hne : P.argumentSource g V ≠ .unsupported) :
    ∃ EV, P.argumentSource g V = .pushed EV ∧ W ∈ EV := by
  unfold argumentSource at hne ⊢
  dsimp only at hne ⊢
  split
  case isTrue => exact ⟨_, rfl, List.mem_filterMap.2 ⟨cai, mem_inOrder.2 hcai, hW⟩⟩
  case isFalse hshort => exact absurd (if_neg hshort) hne

/-- The return instructions of the callees are pushed. -/
theorem callSource_of_opens (hopens : P.Opens V) (hF : F ∈ g.Callees V)
    (hne : P.callSource .escape g V ≠ .unsupported) :
    ∃ EV, P.callSource .escape g V = .pushed EV ∧ P.returnInsts g V ⊆ EV := by
  have hcallees : g.Callees V ≠ ∅ := Finset.ne_empty_of_mem hF
  unfold callSource at hne ⊢
  rw [if_neg hopens.1] at hne ⊢
  by_cases hsymbol : P.getCalledFuncName V = "__symbol_get"
  · rw [if_pos ⟨rfl, hsymbol⟩] at hne ⊢
    by_cases hname : P.symbol_get_hander V = ""
    · exact absurd (if_pos hname) hne
    · rw [if_neg hname, if_neg (hopens.2 hsymbol hname), if_neg hcallees]
      exact ⟨_, rfl, List.subset_append_right _ _⟩
  · rw [if_neg (fun h => hsymbol h.2), if_neg hcallees]
    exact ⟨_, rfl, fun _ h => h⟩

/-- What a store writes to the pointer is pushed, unless the loop gives up at the pointer. -/
theorem mem_loadSource {p SI : Value} (hp : P.operand0 V = some p)
    (hSI : P.kind SI = .instruction .store) (hops : P.operands SI = [W, p]) :
    ∃ EV, P.loadSource .escape V = .pushed EV ∧ p ∈ EV ∧
      (P.kind p ≠ .globalVariable → W ∈ EV) := by
  unfold loadSource
  rw [hp]
  dsimp only
  split
  case isTrue hglobal => exact ⟨_, rfl, List.mem_singleton_self p, fun h => absurd hglobal h⟩
  case isFalse =>
    have huser : SI ∈ P.users p := (P.mem_users p SI).2 (by rw [hops]; simp)
    have hvalue : P.operand0 SI = some W := by rw [Program.operand0, hops]; rfl
    refine ⟨_, rfl, List.mem_cons_self, fun _ => ?_⟩
    refine List.mem_cons_of_mem _ (List.mem_filterMap.2 ⟨SI, ?_, hvalue⟩)
    exact List.mem_filter.2 ⟨huser, by simpa using hSI⟩

/-- **One step.**  The loop makes it as well. -/
theorem reaches_of_followedStep (h : P.FollowedStep g V W) (hW : P.kind W ≠ .constantData)
    (hsup : P.supported .escape g V = true)
    (hnext : ∀ U, Step (P.nextSources .escape g) V U → P.supported .escape g U = true) :
    Relation.ReflTransGen (Step (P.nextSources .escape g)) V W := by
  have hsource := sourceOf_of_followedStep h
  have hne := ne_unsupported hsup
  rw [hsource] at hne
  cases h.2 with
  | cast hV hop hop0 =>
    have hpushed := instSource_of_cast hV hop hop0 hne
    exact .single (step_of_pushed (hsource.trans hpushed) (List.mem_singleton_self W))
  | phi hV hop =>
    have hpushed : P.instSource .escape g V =
        .pushed ((P.operands V).filter (P.kind · ≠ .constantData)) := by
      rw [instSource, hV]
    exact .single (step_of_pushed (hsource.trans hpushed)
      (List.mem_filter.2 ⟨hop, by simpa using hW⟩))
  | select hV hop =>
    have hpushed : P.instSource .escape g V = .pushed ((P.operands V).drop 1) := by
      rw [instSource, hV]
    exact .single (step_of_pushed (hsource.trans hpushed) hop)
  | argument hV hcai harg =>
    have hargument : P.instSource .escape g V = P.argumentSource g V := by rw [instSource, hV]
    rw [hargument] at hne
    obtain ⟨EV, hEV, hmem⟩ := mem_argumentSource hcai harg hne
    exact .single (step_of_pushed (hsource.trans (hargument.trans hEV)) hmem)
  | @result _ RI hV hopens hF hRI hret hval =>
    have hcall : P.instSource .escape g V = P.callSource .escape g V := by rw [instSource, hV]
    rw [hcall] at hne
    obtain ⟨EV, hEV, hreturns⟩ := callSource_of_opens hopens hF hne
    have hmem : RI ∈ P.returnInsts g V :=
      List.mem_flatMap.2 ⟨_, mem_inOrder.2 hF, List.mem_filter.2 ⟨hRI, by simpa using hret⟩⟩
    exact .head (step_of_pushed (hsource.trans (hcall.trans hEV)) (hreturns hmem))
      (.single (step_of_pushed (sourceOf_ret hret) (Option.mem_toList.2 hval)))
  | @slot p _ _ hV hp hpq hSI hops =>
    have hload : P.instSource .escape g V = P.loadSource .escape V := by rw [instSource, hV]
    obtain ⟨EV, hEV, hpointer, hmem⟩ := mem_loadSource hp hSI (hpq ▸ hops)
    have hpushed := hsource.trans (hload.trans hEV)
    have hglobal : P.kind p ≠ .globalVariable := by
      intro hkind
      have hsup := hnext p (step_of_pushed hpushed hpointer)
      rw [supported_globalVariable hkind] at hsup
      cases hsup
    exact .single (step_of_pushed hpushed (hmem hglobal))

/-- **All steps.**  If the loop does not give up, it gets to the function. -/
theorem exists_base (hVO : VO ∈ P.values) (hall : P.allSupported .escape g VO = true)
    (h : P.Followed g VO F) : ∃ W ∈ P.checkedSources .escape g VO,
      P.sourceOf .escape g W = .base F := by
  obtain ⟨W, hsteps, hbase⟩ := h
  have hdata : P.kind W ≠ .constantData := by
    intro hW
    rw [sourceOf, if_pos hW] at hbase
    cases hbase
  rw [checkedSources_of_allSupported hall]
  refine ⟨W, ?_, hbase⟩
  have hmem : ∀ {V}, V ∈ P.sourceOrder .escape g VO →
      Relation.ReflTransGen (P.FollowedStep g) V W → W ∈ P.sourceOrder .escape g VO := by
    intro V hV hsteps
    induction hsteps using Relation.ReflTransGen.head_induction_on with
    | refl => exact hV
    | @head V V' hstep hrest ih =>
      refine ih ?_
      have hnext : P.kind V' ≠ .constantData := by
        rcases hrest.cases_head with rfl | ⟨U, hU, -⟩
        · exact hdata
        · exact (kind_ne_constantData hU.2).1
      have hsup : ∀ U ∈ P.sourceOrder .escape g VO, P.supported .escape g U = true :=
        List.all_eq_true.1 hall
      have hpushed : ∀ U, Step (P.nextSources .escape g) V U →
          P.supported .escape g U = true := by
        intro U hU
        refine hsup U ?_
        rw [mem_sourceOrder_iff hVO] at hV ⊢
        exact hV.tail hU
      have hreaches := reaches_of_followedStep hstep hnext (hsup V hV) hpushed
      rw [mem_sourceOrder_iff hVO] at hV ⊢
      exact hV.trans hreaches
  exact hmem ((mem_sourceOrder_iff hVO).2 .refl) hsteps

/-- The steps do not depend on the layers. -/
theorem FlowStep.layers {edge : Value → Func → Prop} {opens : Value → Prop}
    {sameSlot : Value → Value → Prop} (h : P.FlowStep g edge opens sameSlot V W) (m : LayerMaps) :
    P.FlowStep { g with layers := m } edge opens sameSlot V W := by
  cases h with
  | cast hV hop hW => exact .cast hV hop hW
  | phi hV hW => exact .phi hV hW
  | select hV hW => exact .select hV hW
  | argument hV hcai hW => exact .argument hV hcai hW
  | result hV hopens hF hRI hret hW => exact .result hV hopens hF hRI hret hW
  | slot hV hp hpq hSI hops => exact .slot hV hp hpq hSI hops

theorem Followed.layers (h : P.Followed g V F)
    (hnames : m.Global_Literal_Struct_Map = g.layers.Global_Literal_Struct_Map) :
    P.Followed { g with layers := m } V F := by
  obtain ⟨W, hsteps, hbase⟩ := h
  refine ⟨W, ?_, by rw [sourceOf_layers hnames]; exact hbase⟩
  exact Relation.ReflTransGen.mono (fun V W hstep => ⟨hstep.1, hstep.2.layers m⟩) V W hsteps

end

/-! ## What is recorded -/

section

/-- Nothing that is recorded gets lost, but fields may cease to be escaped. -/
structure Records (m m' : LayerMaps) : Prop where
  names : m'.Global_Literal_Struct_Map = m.Global_Literal_Struct_Map
  funcs : ∀ k, m.typeFuncsMap k ⊆ m'.typeFuncsMap k
  emptyTy : ∀ k, m.Global_EmptyTy_Funcs k ⊆ m'.Global_EmptyTy_Funcs k
  sig : ∀ k, m.sigFuncsMap k ⊆ m'.sigFuncsMap k

end

section
variable {P : CallProgram} {g : CallGraph} {F f : Func} {CT CT' : CompositeType}
  {m m' m'' : LayerMaps} {hash : Key} {TV VO PO SI : Value}

theorem Records.refl (m : LayerMaps) : Records m m :=
  ⟨rfl, fun _ => subset_rfl, fun _ => subset_rfl, fun _ => subset_rfl⟩

theorem Records.trans (h : Records m m') (h' : Records m' m'') : Records m m'' where
  names := h'.names.trans h.names
  funcs k := (h.funcs k).trans (h'.funcs k)
  emptyTy k := (h.emptyTy k).trans (h'.emptyTy k)
  sig k := (h.sig k).trans (h'.sig k)

theorem Records.of_grows (h : Grows m m') : Records m m' := ⟨h.names, h.funcs, h.emptyTy, h.sig⟩

theorem recorded_mono (h : P.Recorded f CT m) (hm : Records m m') : P.Recorded f CT m' := by
  have hL : m'.layerHash P.T = m.layerHash P.T := layerHash_congr hm.names
  rcases h with ⟨hf, hsig⟩ | hf
  · refine Or.inl ⟨?_, hm.sig _ hsig⟩
    rw [hL]
    rcases Finset.mem_union.1 hf with hf | hf
    · exact Finset.mem_union_left _ (hm.funcs _ hf)
    · exact Finset.mem_union_right _ (hm.funcs _ hf)
  · exact Or.inr (hm.emptyTy _ hf)

theorem updateStructInfo_cases (F : Func) (CT : CompositeType) (m : LayerMaps) :
    F ∈ (P.updateStructInfo F CT m).Global_EmptyTy_Funcs (P.funcHash F) ∨
      F ∈ (P.updateStructInfo F CT m).typeFuncsMap (m.layerHash P.T CT) ∨ P.getName F = "" := by
  have hesc : F ∈ (m.recordEmptyTy (P.funcHash F) F).Global_EmptyTy_Funcs (P.funcHash F) := by
    simp [recordEmptyTy]
  have hlayer : F ∈ (m.recordLayer P.T F CT).typeFuncsMap (m.layerHash P.T CT) := by
    simp [recordLayer]
  have hnamed : F ∈ (if P.getName F ≠ "" then m.recordEmptyTy (P.funcHash F) F
      else m).Global_EmptyTy_Funcs (P.funcHash F) ∨ P.getName F = "" := by
    split
    case isTrue => exact Or.inl hesc
    case isFalse h => exact Or.inr (not_not.1 h)
  unfold TypedProgram.updateStructInfo
  dsimp only
  generalize (if P.getName F ≠ "" then m.recordEmptyTy (P.funcHash F) F else m) = named at hnamed ⊢
  split_ifs
  · exact Or.inl hesc
  · split
    · split_ifs
      · exact hnamed.imp_right Or.inr
      · exact Or.inr (Or.inl hlayer)
    · exact hnamed.imp_right Or.inr
  · exact hnamed.imp_right Or.inr
  · exact hnamed.imp_right Or.inr
  · exact Or.inr (Or.inl hlayer)
  · exact Or.inl hesc

/-- A function is recorded for all fields with the hash, unless it has no name and the
    type prints otherwise. -/
theorem recorded_recordFunc (hhash : m.layerHash P.T CT' = m.layerHash P.T CT)
    (hname : P.getName f ≠ "" ∨ P.T.print CT'.1 = P.T.print CT.1) :
    P.Recorded f CT (P.recordFunc CT' m f) := by
  have hL : (P.recordFunc CT' m f).layerHash P.T = m.layerHash P.T :=
    layerHash_congr (TypedProgram.grows_recordFunc CT' m f).names
  have hsig : f ∈ (P.recordFunc CT' m f).sigFuncsMap (P.funcHash f) := by
    refine (TypedProgram.grows_updateStructInfo f CT').sig _ ?_
    simp [recordSig]
  have hidx : f ∈ (P.recordFunc CT' m f).typeFuncsMap (P.T.typeIdxHash CT'.1 CT'.2) := by
    refine (TypedProgram.grows_updateStructInfo f CT').funcs _ ?_
    simp [recordSig]
  rcases P.updateStructInfo_cases f CT' _ with hempty | hlayer | hnone
  · exact Or.inr hempty
  · refine Or.inl ⟨Finset.mem_union_right _ ?_, hsig⟩
    rw [hL, ← hhash]
    exact hlayer
  · -- the field is found by its type
    have hprint := hname.resolve_left (not_not.2 hnone)
    have hsame : CT'.2 = CT.2 := by
      simp only [layerHash, typeNameIdxHash, Key.idx.injEq] at hhash
      exact hhash.2
    refine Or.inl ⟨Finset.mem_union_left _ ?_, hsig⟩
    rw [TypeTable.typeIdxHash, TypeTable.typeHash, ← hprint, ← hsame]
    exact hidx

/-! ### The loop over the sources -/

theorem grows_confineEscaped (To : CompositeType) (m : LayerMaps) (From : CompositeType) :
    Grows m (P.confineEscaped To m From) :=
  ⟨rfl, fun _ => subset_rfl, subset_rfl, fun _ => subset_rfl, fun _ => subset_rfl⟩

theorem grows_recordTypedFunc (CT : CompositeType) (m : LayerMaps) (F : Func) :
    Grows m (P.recordFunc CT (m.recordTypes P.T CT) F) :=
  (grows_recordTypes CT).trans (TypedProgram.grows_recordFunc CT _ F)

variable (g CT) in
theorem grows_recordSource (m : LayerMaps) (TV : Value) :
    Grows m (P.recordSource g CT m TV) := by
  unfold recordSource
  split
  · exact grows_foldl (P.grows_confineEscaped CT) _ m
  · exact grows_foldl (grows_recordTypedFunc CT) _ m
  · exact .refl m

theorem escapesKeyed_confineEscaped (h : EscapesKeyed P.T m) {To From : CompositeType}
    (hTo : P.T.isStructTy To.1 = true) (hFrom : P.T.isStructTy From.1 = true) :
    EscapesKeyed P.T (P.confineEscaped To m From) := by
  have hlayer := h.insert_layer hTo
  exact hlayer.update_layer (k := m.layerHash P.T From) (Or.inr ⟨hFrom, rfl⟩) rfl rfl rfl rfl

theorem escapesKeyed_recordSource (h : EscapesKeyed P.T m) (hCT : P.T.isStructTy CT.1 = true)
    (TV : Value) : EscapesKeyed P.T (P.recordSource g CT m TV) := by
  unfold recordSource
  split
  case h_1 TyList hsource =>
    refine h.foldl fun From hFrom m hm => ?_
    exact escapesKeyed_confineEscaped hm hCT (isStructTy_of_layers hsource hFrom)
  case h_2 =>
    refine h.foldl fun F _ m hm => ?_
    exact TypedProgram.escapesKeyed_recordFunc (hm.recordTypes CT) CT F
  case h_3 => exact h

theorem recorded_recordSource (hsource : P.sourceOf .escape g TV = .base F)
    (hf : f ∈ P.definitions F) (hhash : m.layerHash P.T CT' = m.layerHash P.T CT)
    (hname : P.getName f ≠ "" ∨ P.T.print CT'.1 = P.T.print CT.1) :
    P.Recorded f CT (P.recordSource g CT' m TV) := by
  rw [recordSource, hsource]
  dsimp only
  obtain ⟨before, after, hl⟩ := List.append_of_mem (mem_inOrder.2 hf)
  rw [hl, List.foldl_append, List.foldl_cons]
  have hbefore := grows_foldl (P.grows_recordTypedFunc CT') before m
  refine recorded_mono ?_ (.of_grows (grows_foldl (grows_recordTypedFunc CT') after _))
  have hL : ((before.foldl (fun m F => P.recordFunc CT' (m.recordTypes P.T CT') F) m).recordTypes
      P.T CT').layerHash P.T = m.layerHash P.T := layerHash_congr hbefore.names
  refine recorded_recordFunc ?_ hname
  rw [hL]
  exact hhash

/-! ### One store -/

variable (P f CT) in
/-- The function has a name, or the field is the only one with its hash. -/
def TellsApart (m : LayerMaps) : Prop :=
  P.getName f ≠ "" ∨
    ∀ CT', m.layerHash P.T CT' = m.layerHash P.T CT → P.T.print CT'.1 = P.T.print CT.1

theorem TellsApart.congr (h : P.TellsApart f CT m)
    (hnames : m'.Global_Literal_Struct_Map = m.Global_Literal_Struct_Map) :
    P.TellsApart f CT m' := by
  have hL : m'.layerHash P.T = m.layerHash P.T := layerHash_congr hnames
  unfold TellsApart
  rw [hL]
  exact h

variable (P g SI hash) in
theorem grows_escapeChecker : Grows g.layers (P.escapeChecker g SI hash).2 := by
  unfold escapeChecker
  split
  case h_1 VO CT _ _ => exact grows_foldl (P.grows_recordSource g CT) _ _
  case h_2 => exact .refl _

theorem escapesKeyed_escapeChecker (h : EscapesKeyed P.T g.layers)
    (hhash : FieldHash P.T g.layers hash) :
    EscapesKeyed P.T (P.escapeChecker g SI hash).2 := by
  unfold escapeChecker
  split
  case h_1 VO CT _ hCT =>
    have hfield := h.field hhash hCT
    exact h.foldl fun TV _ m hm => escapesKeyed_recordSource hm hfield.1 TV
  case h_2 => exact h

/-- **One store.**  A function that is followed to a store is recorded, if the store is
    checked successfully. -/
theorem recorded_escapeChecker (h : EscapesKeyed P.T g.layers)
    (hhash : FieldHash P.T g.layers hash) (hCT : g.layers.layerHash P.T CT = hash)
    (hops : P.operands SI = [VO, PO]) (hcheck : (P.escapeChecker g SI hash).1 = true)
    (hflow : P.Followed g VO F) (hf : f ∈ P.definitions F) (hname : P.TellsApart f CT g.layers) :
    P.Recorded f CT (P.escapeChecker g SI hash).2 := by
  have hop : P.operand0 SI = some VO := by rw [Program.operand0, hops]; rfl
  have hVO : VO ∈ P.values := mem_values_of_operand0 hop
  unfold escapeChecker at hcheck ⊢
  rw [hop] at hcheck ⊢
  cases hCT' : g.layers.hashIDTypeMap hash with
  | none =>
    rw [hCT'] at hcheck
    cases hcheck
  | some CT' =>
    rw [hCT'] at hcheck
    obtain ⟨W, hW, hbase⟩ := exists_base hVO hcheck hflow
    have hfield := h.field hhash hCT'
    dsimp only
    obtain ⟨before, after, hl⟩ := List.append_of_mem hW
    rw [hl, List.foldl_append, List.foldl_cons]
    have hbefore := grows_foldl (P.grows_recordSource g CT') before g.layers
    refine recorded_mono ?_ (.of_grows (grows_foldl (grows_recordSource g CT') after _))
    have hhash' : g.layers.layerHash P.T CT' = g.layers.layerHash P.T CT := by
      rw [hCT, hfield.2]
    refine recorded_recordSource hbase hf ?_ (hname.imp_right fun h => h CT' hhash')
    rw [layerHash_congr hbefore.names]
    exact hhash'

/-! ### All stores -/

variable {stores : List Value}

/-- Checking the stores changes the maps of the layers only. -/
theorem exists_checkStores (hash : Key) (stores : List Value) (g : CallGraph) :
    ∃ m, (P.checkStores hash stores g).2 = { g with layers := m } ∧ Grows g.layers m := by
  induction stores generalizing g with
  | nil => exact ⟨g.layers, rfl, .refl _⟩
  | cons SI stores ih =>
    have hgrows : Grows g.layers (P.escapeChecker g SI hash).2 := P.grows_escapeChecker g hash SI
    unfold checkStores
    dsimp only
    split
    · obtain ⟨m, hm, hgrows'⟩ := ih { g with layers := (P.escapeChecker g SI hash).2 }
      exact ⟨m, hm, hgrows.trans hgrows'⟩
    · exact ⟨_, rfl, hgrows⟩

theorem escapesKeyed_checkStores (h : EscapesKeyed P.T g.layers)
    (hhash : FieldHash P.T g.layers hash) :
    EscapesKeyed P.T (P.checkStores hash stores g).2.layers := by
  induction stores generalizing g with
  | nil => exact h
  | cons SI stores ih =>
    have hkeyed : EscapesKeyed P.T (P.escapeChecker g SI hash).2 :=
      escapesKeyed_escapeChecker h hhash
    have hnames := (P.grows_escapeChecker g hash SI).names
    unfold checkStores
    dsimp only
    split
    · exact ih hkeyed (hhash.congr hnames)
    · exact hkeyed

/-- **All stores.** -/
theorem recorded_checkStores (h : EscapesKeyed P.T g.layers)
    (hhash : FieldHash P.T g.layers hash) (hCT : g.layers.layerHash P.T CT = hash)
    (hSI : SI ∈ stores) (hops : P.operands SI = [VO, PO])
    (hcheck : (P.checkStores hash stores g).1 = true) (hflow : P.Followed g VO F)
    (hf : f ∈ P.definitions F) (hname : P.TellsApart f CT g.layers) :
    P.Recorded f CT (P.checkStores hash stores g).2.layers := by
  induction stores generalizing g with
  | nil => cases hSI
  | cons SI' stores ih =>
    have hnames := (P.grows_escapeChecker g hash SI').names
    unfold checkStores at hcheck ⊢
    dsimp only at hcheck ⊢
    split at hcheck
    case isFalse => cases hcheck
    case isTrue hfirst =>
      rw [if_pos hfirst]
      rcases List.mem_cons.1 hSI with rfl | hSI
      · obtain ⟨m, hm, hgrows⟩ := P.exists_checkStores hash stores
          { g with layers := (P.escapeChecker g SI hash).2 }
        rw [hm]
        have hrecorded := recorded_escapeChecker h hhash hCT hops hfirst hflow hf hname
        exact recorded_mono hrecorded (.of_grows hgrows)
      · refine ih ?_ (hhash.congr hnames) ?_ hSI hcheck (hflow.layers hnames) (hname.congr hnames)
        · exact escapesKeyed_escapeChecker h hhash
        · exact (congrFun (layerHash_congr hnames) CT).trans hCT

/-- What a round of the handler can do. -/
theorem unescape_cases (g : CallGraph) (hash : Key) :
    P.unescape g hash = g ∨ ∃ m,
      (P.checkStores hash (inOrder (g.layers.escapedStoreMap hash)) g).2 = { g with layers := m } ∧
      Grows g.layers m ∧
      (P.unescape g hash = { g with layers := m } ∨
        (P.checkStores hash (inOrder (g.layers.escapedStoreMap hash)) g).1 = true ∧
        P.unescape g hash =
          { g with
            layers := { m with typeEscapeSet := m.typeEscapeSet.erase hash }
            succeed_type_set := insert hash g.succeed_type_set }) := by
  obtain ⟨m, hm, hgrows⟩ := P.exists_checkStores hash (inOrder (g.layers.escapedStoreMap hash)) g
  unfold unescape
  split
  case isTrue => exact Or.inl rfl
  case isFalse =>
    refine Or.inr ⟨m, hm, hgrows, ?_⟩
    dsimp only
    rw [hm]
    split
    case isTrue hcheck => exact Or.inr ⟨hcheck, rfl⟩
    case isFalse => exact Or.inl rfl

/-- A round of the handler loses nothing that is recorded. -/
theorem records_unescape (g : CallGraph) (hash : Key) :
    Records g.layers (P.unescape g hash).layers := by
  rcases P.unescape_cases g hash with h | ⟨m, -, hgrows, h | ⟨-, h⟩⟩
  · rw [h]
    exact .refl _
  · rw [h]
    exact .of_grows hgrows
  · rw [h]
    exact ⟨hgrows.names, hgrows.funcs, hgrows.emptyTy, hgrows.sig⟩

theorem escapesKeyed_unescape (h : EscapesKeyed P.T g.layers) :
    EscapesKeyed P.T (P.unescape g hash).layers := by
  have hkeyed : EscapesKeyed P.T
      (P.checkStores hash (inOrder (g.layers.escapedStoreMap hash)) g).2.layers := by
    by_cases hstores : g.layers.escapedStoreMap hash = ∅
    · rw [hstores]
      exact h
    · exact escapesKeyed_checkStores h (h.stores hash hstores)
  rcases P.unescape_cases g hash with heq | ⟨m, hm, -, heq | ⟨-, heq⟩⟩
  · rw [heq]
    exact h
  · rw [hm] at hkeyed
    rw [heq]
    exact hkeyed
  · rw [hm] at hkeyed
    rw [heq]
    exact hkeyed.congr rfl rfl rfl rfl

/-- **A round of the handler.**  If a field ceases to be escaped, a function that is
    followed to one of the stores to the field is recorded. -/
theorem recorded_unescape {hash' : Key} (h : EscapesKeyed P.T g.layers)
    (hbefore : hash ∈ g.layers.typeEscapeSet)
    (hafter : hash ∉ (P.unescape g hash').layers.typeEscapeSet)
    (hSI : SI ∈ g.layers.escapedStoreMap hash) (hops : P.operands SI = [VO, PO])
    (hCT : g.layers.layerHash P.T CT = hash) (hflow : P.Followed g VO F)
    (hf : f ∈ P.definitions F) (hname : P.TellsApart f CT g.layers) :
    P.Recorded f CT (P.unescape g hash').layers := by
  have hfield : FieldHash P.T g.layers hash := h.stores hash (Finset.ne_empty_of_mem hSI)
  rcases P.unescape_cases g hash' with heq | ⟨m, hm, hgrows, heq | ⟨hcheck, heq⟩⟩
  · rw [heq] at hafter
    exact absurd hbefore hafter
  · rw [heq] at hafter
    exact absurd (hgrows.escaped hbefore) hafter
  · rw [heq] at hafter ⊢
    dsimp only at hafter
    rw [Finset.mem_erase, not_and_or, not_not] at hafter
    obtain rfl := hafter.resolve_right (not_not.2 (hgrows.escaped hbefore))
    have hrecorded := recorded_checkStores h hfield hCT (mem_inOrder.2 hSI) hops hcheck hflow hf
      hname
    rw [hm] at hrecorded
    exact recorded_mono hrecorded ⟨rfl, fun _ => subset_rfl, fun _ => subset_rfl,
      fun _ => subset_rfl⟩

end

end CallProgram

end TFA
