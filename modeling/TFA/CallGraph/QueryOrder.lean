/-
  Queries after the initialization (`findCalleesWithMLTA` in `TypeAnalysis.cc`).

  The searches take the casts and the confinements in the order in which they were
  recorded, and `hashTypeMap` and `hashIDTypeMap` give back the type that came last.  A
  query answers the same all the same: a search fails if it meets an escaped layer at all,
  and otherwise gathers everything it meets.  Only the layer that it fails at depends on
  the order.  Small sets of functions are gone through in the order in which they were
  filled, but `funcSetIntersection` looks at the order only where two functions have one
  name.

  * `twoLayer_congr`: one layer, for maps that hold the same;
  * `findCalleesWithMLTA_anyOrder`: the analysis of a call right after the initialization
    does not depend on the order of the modules, nor on that of the sets, if functions are
    recorded for its type and no two of them share a name.
-/
import TFA.CallGraph.RecordOrder
import TFA.CallGraph.OneLayer

namespace TFA

open Worklist

namespace LayerMaps

section
variable {T : TypeTable} {m m' : LayerMaps} {t t' : Ty} {i : ℤ} {k : Key}

theorem map_eq_cases {α β γ : Type*} {f : α → γ} {g : β → γ} {x : Option α} {y : Option β}
    (h : x.map f = y.map g) :
    x = none ∧ y = none ∨ ∃ a b, x = some a ∧ y = some b ∧ f a = g b := by
  cases x with
  | none =>
    cases y with
    | none => exact Or.inl ⟨rfl, rfl⟩
    | some b => cases h
  | some a =>
    cases y with
    | none => cases h
    | some b => exact Or.inr ⟨a, b, rfl, rfl, Option.some.inj h⟩

/-! ## One element of a search -/

theorem layerHash_of_seen (hseen : m.seenType T t = m'.seenType T t') (i : ℤ) :
    m.layerHash T (t, i) = m'.layerHash T (t', i) :=
  congrArg (typeNameIdxHash · i) (Prod.mk.inj hseen).2

theorem SameRecords.isEscape (h : SameRecords T m m') (hseen : m.seenType T t = m'.seenType T t')
    (i : ℤ) : m.isEscape T t i = m'.isEscape T t' i := by
  have hstruct : T.isStructTy t = T.isStructTy t' := (Prod.mk.inj hseen).1
  rw [LayerMaps.isEscape, LayerMaps.isEscape, hstruct, layerHash_of_seen hseen, h.escaped]

theorem SameRecords.seenType (h : SameRecords T m m') (t : Ty) :
    m.seenType T t = m'.seenType T t :=
  seenType_congr h.names rfl

theorem SameRecords.layerHash (h : SameRecords T m m') : m.layerHash T = m'.layerHash T :=
  layerHash_congr h.names

theorem SameRecords.recordedAt (h : SameRecords T m m') {x x' : Option Ty}
    (hx : x.map (m.seenType T) = x'.map (m'.seenType T)) (hash : Key) (i : ℤ) :
    m.recordedAt T hash x i = m'.recordedAt T hash x' i := by
  rcases map_eq_cases hx with ⟨rfl, rfl⟩ | ⟨t, t', rfl, rfl, hseen⟩
  · rw [LayerMaps.recordedAt, LayerMaps.recordedAt, h.funcs]
  · have hstruct : T.isStructTy t = T.isStructTy t' := (Prod.mk.inj hseen).1
    simp only [LayerMaps.recordedAt, hstruct, layerHash_of_seen hseen, h.funcs]

theorem SameRecords.typeStop (h : SameRecords T m m') (i : ℤ) (H : Key) :
    m.typeStop T i H = m'.typeStop T i H := by
  unfold LayerMaps.typeStop
  rcases map_eq_cases (h.types H) with ⟨hx, hy⟩ | ⟨t, t', hx, hy, hseen⟩
  · rw [hx, hy]
    rfl
  · rw [hx, hy]
    exact h.isEscape hseen i

theorem SameRecords.typeFuncs (h : SameRecords T m m') (i : ℤ) (H : Key) :
    m.typeFuncs T i H = m'.typeFuncs T i H :=
  h.recordedAt (h.types H) _ i

theorem SameRecords.fieldStop (h : SameRecords T m m') (i : ℤ) (H : Key) :
    m.fieldStop T i H = m'.fieldStop T i H := by
  unfold LayerMaps.fieldStop
  rcases map_eq_cases (h.layers H) with ⟨hx, hy⟩ | ⟨CT, CT', hx, hy, hseen⟩
  · rw [hx, hy]
    rfl
  · rw [hx, hy]
    exact h.isEscape (Prod.mk.inj hseen).1 i

theorem SameRecords.fieldFuncs (h : SameRecords T m m') (i : ℤ) (H : Key) :
    m.fieldFuncs T i H = m'.fieldFuncs T i H := by
  refine h.recordedAt ?_ H i
  rcases map_eq_cases (h.layers H) with ⟨hx, hy⟩ | ⟨CT, CT', hx, hy, hseen⟩
  · rw [hx, hy]
    rfl
  · rw [hx, hy]
    exact congrArg some (Prod.mk.inj hseen).1

theorem SameRecords.layerStop (h : SameRecords T m m') (H : Key) :
    m.layerStop T H = m'.layerStop T H := by
  unfold LayerMaps.layerStop
  rcases map_eq_cases (h.layers H) with ⟨hx, hy⟩ | ⟨CT, CT', hx, hy, hseen⟩
  · rw [hx, hy]
    rfl
  · obtain ⟨htype, hi⟩ := Prod.mk.inj hseen
    rw [hx, hy]
    show m.isEscape T CT.1 CT.2 = m'.isEscape T CT'.1 CT'.2
    rw [hi]
    exact h.isEscape htype _

theorem SameRecords.layerFuncs (h : SameRecords T m m') (H : Key) :
    m.layerFuncs T H = m'.layerFuncs T H := by
  unfold LayerMaps.layerFuncs
  rcases map_eq_cases (h.layers H) with ⟨hx, hy⟩ | ⟨CT, CT', hx, hy, hseen⟩
  · rw [hx, hy]
    show m.typeFuncsMap H = m'.typeFuncsMap H
    rw [h.funcs]
  · obtain ⟨htype, hi⟩ := Prod.mk.inj hseen
    rw [hx, hy]
    show m.recordedAt T H (some CT.1) CT.2 = m'.recordedAt T H (some CT'.1) CT'.2
    have hsome : (some CT.1).map (m.seenType T) = (some CT'.1).map (m'.seenType T) :=
      congrArg some htype
    rw [hi]
    exact h.recordedAt hsome H _

/-! ## The searches -/

theorem step_congr {map map' : List (Key × Key)} (h : ∀ k v, (k, v) ∈ map ↔ (k, v) ∈ map') :
    Step (entries map) = Step (entries map') := by
  funext k v
  simp only [Step, mem_entries, h]

/-- Two searches that see the same at every hash. -/
theorem collect_congr {map map' : List (Key × Key)} (h : ∀ k v, (k, v) ∈ map ↔ (k, v) ∈ map')
    {stop stop' : Key → Option Key} {val val' : Key → Finset Func}
    (hstop : ∀ H, stop H = stop' H) (hval : ∀ H, val H = val' H) (start : Key)
    (acc : Finset Func) :
    (∃ k k', collect (entries map) stop val (map.length + 2) [start] ∅ acc = .error k ∧
      collect (entries map') stop' val' (map'.length + 2) [start] ∅ acc = .error k') ∨
    ∃ S, collect (entries map) stop val (map.length + 2) [start] ∅ acc = .ok S ∧
      collect (entries map') stop' val' (map'.length + 2) [start] ∅ acc = .ok S := by
  refine (collect_cases (enough_entries map start) acc).alike
    (collect_cases (enough_entries map' start) acc) ?_ ?_ hval
  · intro H
    rw [step_congr h]
  · intro H
    rw [hstop]

/-! ## Names and the order of a set -/

/-- No two functions share a name. -/
def DistinctNames (getName : Func → String) (FS : Finset Func) : Prop :=
  ∀ F ∈ FS, ∀ G ∈ FS, getName F ≠ "" → getName G = getName F → G = F

instance (getName : Func → String) (FS : Finset Func) : Decidable (DistinctNames getName FS) := by
  unfold DistinctNames
  infer_instance

section
variable {getName : Func → String} {order order' : Finset Func → List Func} {FS1 : Finset Func}
  (horder : ∀ FS f, f ∈ order FS ↔ f ∈ FS) (horder' : ∀ FS f, f ∈ order' FS ↔ f ∈ FS)
include horder

/-- The only function of a name is the first one. -/
theorem find?_of_distinctNames (hnames : DistinctNames getName FS1) {F : Func} (hF : F ∈ FS1)
    (hname : getName F ≠ "") :
    (order FS1).find? (fun G => getName G = getName F) = some F := by
  cases hfind : (order FS1).find? fun G => getName G = getName F with
  | none =>
    have hno := List.find?_eq_none.1 hfind F ((horder FS1 F).2 hF)
    simp at hno
  | some G =>
    have hGF : getName G = getName F := by simpa using List.find?_some hfind
    have hG : G ∈ FS1 := (horder FS1 G).1 (List.mem_of_find?_eq_some hfind)
    rw [hnames F hF G hG hname hGF]

include horder'

theorem funcSetIntersection_congr (hnames : DistinctNames getName FS1) (FS2 : Finset Func) :
    funcSetIntersection getName order FS1 FS2 = funcSetIntersection getName order' FS1 FS2 := by
  refine Finset.filter_congr fun F hF => or_congr_right (and_congr_right fun hname => ?_)
  rw [find?_of_distinctNames horder hnames hF hname,
    find?_of_distinctNames horder' hnames hF hname]

/-- One layer: the targets, the number of layers, and whether there is an escape. -/
theorem twoLayer_congr (h : SameRecords T m m') (hnames : DistinctNames getName FS1)
    (callHash : Key) (t : Ty) (i : ℤ) (n : ℕ) :
    (m.findCalleesWithTwoLayerTA T getName order callHash FS1 t i n).FS =
        (m'.findCalleesWithTwoLayerTA T getName order' callHash FS1 t i n).FS ∧
      (m.findCalleesWithTwoLayerTA T getName order callHash FS1 t i n).escape.isSome =
        (m'.findCalleesWithTwoLayerTA T getName order' callHash FS1 t i n).escape.isSome ∧
      (m.findCalleesWithTwoLayerTA T getName order callHash FS1 t i n).LayerNo =
        (m'.findCalleesWithTwoLayerTA T getName order' callHash FS1 t i n).LayerNo := by
  unfold findCalleesWithTwoLayerTA
  rw [h.isEscape (h.seenType t) i, h.funcs, h.layerHash]
  cases m'.isEscape T t i with
  | some k => exact ⟨rfl, rfl, rfl⟩
  | none =>
    dsimp only
    generalize m'.typeFuncsMap (T.typeIdxHash t i) ∪ m'.typeFuncsMap (m'.layerHash T (t, i)) = S₀
    rcases collect_congr h.transit (h.typeStop i) (h.typeFuncs i) (T.typeHash t) S₀ with
      ⟨k, k', h₁, h₁'⟩ | ⟨S₁, h₁, h₁'⟩
    · rw [transitedTypes, transitedTypes, h₁, h₁']
      exact ⟨rfl, rfl, rfl⟩
    rw [transitedTypes, transitedTypes, h₁, h₁']
    dsimp only
    rcases collect_congr h.transit (h.fieldStop i) (h.fieldFuncs i) (T.typeIdxHash t i) S₁ with
      ⟨k, k', h₂, h₂'⟩ | ⟨S₂, h₂, h₂'⟩
    · rw [transitedFields, transitedFields, h₂, h₂']
      exact ⟨rfl, rfl, rfl⟩
    rw [transitedFields, transitedFields, h₂, h₂']
    dsimp only
    rcases collect_congr h.confine h.layerStop h.layerFuncs (m'.layerHash T (t, i)) S₂ with
      ⟨k, k', h₃, h₃'⟩ | ⟨S₃, h₃, h₃'⟩
    · rw [confinedLayers, confinedLayers, h.layerHash, h₃, h₃']
      exact ⟨rfl, rfl, rfl⟩
    rw [confinedLayers, confinedLayers, h.layerHash, h₃, h₃', h.emptyTy]
    exact ⟨congrArg (· ∪ _) (funcSetIntersection_congr horder horder' hnames S₃), rfl, rfl⟩

/-! ## A call -/

theorem analyzeLayer_congr (h : SameRecords T m m') (callHash : Key) {st : MLTAState}
    (hnames : DistinctNames getName st.FS1) (CT : CompositeType) :
    m.analyzeLayer T getName order callHash st CT =
      m'.analyzeLayer T getName order' callHash st CT := by
  obtain ⟨hFS, hescape, hno⟩ :=
    twoLayer_congr horder horder' h hnames callHash CT.1 CT.2 st.LayerNo
  have hnone : (m.findCalleesWithTwoLayerTA T getName order callHash st.FS1 CT.1 CT.2
      st.LayerNo).escape.isNone = (m'.findCalleesWithTwoLayerTA T getName order' callHash st.FS1
      CT.1 CT.2 st.LayerNo).escape.isNone := by
    rw [← Option.not_isSome, ← Option.not_isSome, hescape]
  simp only [analyzeLayer, hFS, hnone, hno]

/-- The loop over the layers; the functions of the first layer are only taken away. -/
theorem foldl_analyzeLayer_congr (h : SameRecords T m m') (callHash : Key) {st : MLTAState}
    (hnames : DistinctNames getName st.FS1) (L : List CompositeType) :
    L.foldl (m.analyzeLayer T getName order callHash) st =
      L.foldl (m'.analyzeLayer T getName order' callHash) st := by
  induction L generalizing st with
  | nil => rfl
  | cons CT L ih =>
    rw [List.foldl_cons, List.foldl_cons, analyzeLayer_congr horder horder' h callHash hnames]
    refine ih ?_
    unfold analyzeLayer
    dsimp only
    split_ifs
    · exact hnames
    · exact fun F hF => absurd hF (Finset.notMem_empty F)
    · exact hnames

theorem findCalleesWithMLTA_congr (h : SameRecords T m m') {CI : OperandInfo}
    (hnames : DistinctNames getName CI.oneLayer) (FS : Finset Func) :
    m.findCalleesWithMLTA T getName order CI FS =
      m'.findCalleesWithMLTA T getName order' CI FS := by
  rw [findCalleesWithMLTA, findCalleesWithMLTA,
    foldl_analyzeLayer_congr horder horder' h CI.callHash hnames]

end

end

end LayerMaps

namespace CallProgram

open LayerMaps TypedProgram

/-- The program with another order of its sets of functions. -/
def reordered (P : CallProgram) (order : Finset Func → List Func)
    (horder : ∀ FS f, f ∈ order FS ↔ f ∈ FS) : CallProgram :=
  { P with
    order := order
    mem_order := horder }

section
variable {P : CallProgram} {m m' : LayerMaps} {order : Finset Func → List Func}
  {horder : ∀ FS f, f ∈ order FS ↔ f ∈ FS} {CI : Value}

/-- Where functions are recorded for the type of a call, no others are looked for. -/
theorem afterOneLayer_of_recorded (hsome : m.sigFuncsMap (P.callHash CI) ≠ ∅) :
    P.afterOneLayer m CI = m :=
  if_neg hsome

/-- A query for maps that hold the same. -/
theorem query_congr (h : SameRecords P.T m m') (hsome : m.sigFuncsMap (P.callHash CI) ≠ ∅)
    (hnames : DistinctNames P.getName (m.sigFuncsMap (P.callHash CI))) :
    P.findCalleesWithMLTA m CI = (P.reordered order horder).findCalleesWithMLTA m' CI := by
  have hsome' : m'.sigFuncsMap ((P.reordered order horder).callHash CI) ≠ ∅ := h.sig ▸ hsome
  have hone : P.getOneLayerResult m CI = m.sigFuncsMap (P.callHash CI) := by
    rw [getOneLayerResult, afterOneLayer_of_recorded hsome]
  have hone' : (P.reordered order horder).getOneLayerResult m' CI =
      m.sigFuncsMap (P.callHash CI) := by
    rw [getOneLayerResult, afterOneLayer_of_recorded hsome', h.sig]
    rfl
  have hinfo : (P.reordered order horder).operandInfo m' CI = P.operandInfo m CI := by
    simp only [operandInfo, hone, hone', h.names]
    rfl
  rw [CallProgram.findCalleesWithMLTA, CallProgram.findCalleesWithMLTA, hinfo,
    afterOneLayer_of_recorded hsome, afterOneLayer_of_recorded hsome']
  refine findCalleesWithMLTA_congr P.mem_order horder h ?_ ∅
  rw [operandInfo, hone]
  exact hnames

/-- **A query does not depend on the order.**  If functions are recorded for the type of a
    call, and no two of them share a name, then its targets and its kind are the same in
    whatever order the modules, and the globals and the functions in them, have been gone
    through, and in whatever order the sets of functions are then. -/
theorem findCalleesWithMLTA_anyOrder (hP : P.FuncsNamed) (names : Key → Option String)
    (unions : Finset Key) {Ms Ms' : List LLVMModule}
    (hglobals : ∀ GV, GV ∈ Ms.flatMap LLVMModule.globals ↔ GV ∈ Ms'.flatMap LLVMModule.globals)
    (hfunctions : ∀ F, F ∈ Ms.flatMap LLVMModule.functions ↔
      F ∈ Ms'.flatMap LLVMModule.functions)
    (hsome : (Ms.foldl P.doInitialization (builtTypes names unions)).sigFuncsMap
      (P.callHash CI) ≠ ∅)
    (hnames : DistinctNames P.getName ((Ms.foldl P.doInitialization
      (builtTypes names unions)).sigFuncsMap (P.callHash CI))) :
    P.findCalleesWithMLTA (Ms.foldl P.doInitialization (builtTypes names unions)) CI =
      (P.reordered order horder).findCalleesWithMLTA
        (Ms'.foldl P.doInitialization (builtTypes names unions)) CI := by
  refine query_congr ?_ hsome hnames
  rw [foldl_doInitialization, foldl_doInitialization]
  exact sameRecords_visits hP (escapesKeyed_builtTypes names unions)
    (mem_visits hglobals hfunctions)

end

/-- The program with its call. -/
abbrev callThroughUnion : CallProgram := { toTypedProgram := storesToUnion "f" }

/-- The call through the union has both functions as its targets, also with the sets gone
    through backwards. -/
theorem findCalleesWithMLTA_anyOrder_callThroughUnion :
    (callThroughUnion.findCalleesWithMLTA
      (unionModules.foldl callThroughUnion.doInitialization {}) 12).2 = {0, 1} ∧
    callThroughUnion.findCalleesWithMLTA
        (unionModules.foldl callThroughUnion.doInitialization {}) 12 =
      (callThroughUnion.reordered (fun FS => (inOrder FS).reverse) (by simp)).findCalleesWithMLTA
        (unionModules.reverse.foldl callThroughUnion.doInitialization {}) 12 := by
  refine ⟨by decide, ?_⟩
  exact findCalleesWithMLTA_anyOrder (P := callThroughUnion) funcsNamed_storesToUnion
    (fun _ => none) ∅ (by simp) mem_functions_unionModules (by decide) (by decide)

end CallProgram

end TFA
