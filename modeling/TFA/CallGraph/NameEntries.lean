/-
  The entries that queries make (`TypeAnalysis.cc`, `CPPHandler.cc`, `CallGraph.cc`,
  `LayerAnalysis.cc`, `CallGraphTools.cc`).

  A query looks up the name of a literal struct with `operator[]`, which makes an empty
  entry for a struct that has none.  A query that comes later finds the same name, but
  `checkValidStructName` and `updateStructInfo` ask whether there is an entry.

  * the queries are given here with the maps that they leave, and answer as those without
    entries (`findCalleesWithTwoLayerTAS_eq`, `escapeTypeS_eq`, `foldl_confineS`, and
    `foldl_visitBucket` with `foldl_takeBucket_eq_fillBucket`);
  * `runQuery_eq`: a query leaves entries for what it looks up;
  * `keepsClass_iff`: a literal struct is classified as before exactly if it has an entry,
    or the query does not look it up;
  * `NamedLiterals.runQuery`: no query makes an entry if every literal struct has a name.
-/
import TFA.CallGraph.Buckets

namespace TFA

open Worklist

namespace TypeTable

/-- The key of a literal struct in `Global_Literal_Struct_Map`. -/
def literalKeys (T : TypeTable) (t : Ty) : List Key :=
  if T.isStructTy t ∧ T.isLiteral t then [T.typeHash t] else []

end TypeTable

namespace LayerMaps

/-- `Global_Literal_Struct_Map[k]`: the name, and the maps with an entry for it. -/
def operatorAt (k : Key) (m : LayerMaps) : String × LayerMaps :=
  ((m.Global_Literal_Struct_Map k).getD "",
    { m with
      Global_Literal_Struct_Map := Function.update m.Global_Literal_Struct_Map k
        (some ((m.Global_Literal_Struct_Map k).getD "")) })

/-- The maps with entries for some keys. -/
def mark (m : LayerMaps) (ks : List Key) : LayerMaps :=
  { m with
    Global_Literal_Struct_Map := fun k =>
      if k ∈ ks then some ((m.Global_Literal_Struct_Map k).getD "")
      else m.Global_Literal_Struct_Map k }

section
variable (T : TypeTable) (m : LayerMaps)

/-- The name of a type: looked up for a literal struct. -/
def structName (t : Ty) : String × LayerMaps :=
  if T.isStructTy t then
    if T.isLiteral t then m.operatorAt (T.typeHash t)
    else (parseIdentifiedStructName (T.getStructName t), m)
  else ("", m)

/-- `isEscape`, with the maps after it. -/
def isEscapeS (LayerTy : Ty) (FieldIdx : ℤ) : Option Key × LayerMaps :=
  if T.isStructTy LayerTy then
    let r := m.structName T LayerTy
    let hash := typeNameIdxHash r.1 FieldIdx
    (if hash ∈ m.typeEscapeSet then some hash else none, r.2)
  else (none, m)

/-- `recordedAt`, with the maps after it. -/
def recordedAtS (hash : Key) (Hty : Ty) (Idx : ℤ) : Finset Func × LayerMaps :=
  if T.isStructTy Hty then
    let r := m.structName T Hty
    (m.typeFuncsMap hash ∪ m.typeFuncsMap (typeNameIdxHash r.1 Idx), r.2)
  else (m.typeFuncsMap hash, m)

/-- What the searches do at a layer: the test for an escape, then what is recorded. -/
def visitLayer (hash : Key) (layer : Option CompositeType) : Except Key (Finset Func) × LayerMaps :=
  match layer with
  | none => (.ok (m.typeFuncsMap hash), m)
  | some (Hty, Idx) =>
    match m.isEscapeS T Hty Idx with
    | (some k, m) => (.error k, m)
    | (none, m) =>
      let r := m.recordedAtS T hash Hty Idx
      (.ok r.1, r.2)

/-- The layers that the three searches find at a hash. -/
def typeLayer (FieldIdx : ℤ) (H : Key) : Option CompositeType :=
  (m.hashTypeMap H).map fun Hty => (Hty, FieldIdx)

def fieldLayer (FieldIdx : ℤ) (H : Key) : Option CompositeType :=
  (m.hashIDTypeMap H).map fun Hidty => (Hidty.1, FieldIdx)

/-- `findCalleesWithTwoLayerTA`, with the maps after it. -/
def findCalleesWithTwoLayerTAS (getName : Func → String) (order : Finset Func → List Func)
    (callHash : Key)
    (PreLayerResult : Finset Func) (LayerTy : Ty) (FieldIdx : ℤ) (LayerNo : ℕ) :
    TwoLayerResult × LayerMaps :=
  match m.isEscapeS T LayerTy FieldIdx with
  | (some k, m) => ({ LayerNo := LayerNo, escape := some k }, m)
  | (none, m) =>
    let name := m.structName T LayerTy
    let m := name.2
    let TDH := typeNameIdxHash name.1 FieldIdx
    let merge_set := m.typeFuncsMap (T.typeIdxHash LayerTy FieldIdx) ∪ m.typeFuncsMap TDH
    match collectS (entries m.typeTransitMap)
        (fun H m => m.visitLayer T (.idx H FieldIdx) (m.typeLayer FieldIdx H))
        (m.typeTransitMap.length + 2) [T.typeHash LayerTy] ∅ merge_set m with
    | (.error k, m) => ({ LayerNo := LayerNo + 1, escape := some k }, m)
    | (.ok merge_set, m) =>
      match collectS (entries m.typeTransitMap)
          (fun H m => m.visitLayer T H (m.fieldLayer FieldIdx H))
          (m.typeTransitMap.length + 2) [T.typeIdxHash LayerTy FieldIdx] ∅ merge_set m with
      | (.error k, m) => ({ LayerNo := LayerNo + 1, escape := some k }, m)
      | (.ok merge_set, m) =>
        match collectS (entries m.typeConfineMap)
            (fun H m => m.visitLayer T H (m.hashIDTypeMap H))
            (m.typeConfineMap.length + 2) [TDH] ∅ merge_set m with
        | (.error k, m) => ({ LayerNo := LayerNo + 1, escape := some k }, m)
        | (.ok merge_set, m) =>
          ({ LayerNo := LayerNo + 1
             FS := funcSetIntersection getName order PreLayerResult merge_set ∪
               m.Global_EmptyTy_Funcs callHash }, m)

/-- `escapeType`, with the entry that it makes. -/
def escapeTypeS (SI : Value) (t : Ty) (Idx : ℤ) : LayerMaps :=
  if T.isStructTy t then
    let r := m.structName T t
    let hash := typeNameIdxHash r.1 Idx
    { r.2 with
      typeEscapeSet := insert hash m.typeEscapeSet
      hashIDTypeMap := Function.update m.hashIDTypeMap hash (some (t, Idx))
      escapedStoreMap := Function.update m.escapedStoreMap hash
        (insert SI (m.escapedStoreMap hash)) }
  else m

/-- The loop body of `propagateType`, with the entries that it makes. -/
def confineS (From : CompositeType) (m : LayerMaps) (To : CompositeType) : LayerMaps :=
  if To = From then m
  else
    let rTo := m.structName T To.1
    let rFrom := rTo.2.structName T From.1
    let hTo := typeNameIdxHash rTo.1 To.2
    let hFrom := typeNameIdxHash rFrom.1 From.2
    { rFrom.2 with
      typeConfineMap := addEntry m.typeConfineMap hTo hFrom
      hashIDTypeMap := Function.update (Function.update m.hashIDTypeMap hTo (some To)) hFrom
        (some From) }

end

/-! ## Entries change no answer -/

section
variable {T : TypeTable} {m : LayerMaps} {ks ks' : List Key} {t : Ty} {i : ℤ} {k : Key}

@[simp] theorem mark_nil : m.mark [] = m := by
  simp [mark]

/-! Entries leave the other maps as they are. -/

@[simp] theorem mark_typeFuncsMap : (m.mark ks).typeFuncsMap = m.typeFuncsMap := rfl

@[simp] theorem mark_typeTransitMap : (m.mark ks).typeTransitMap = m.typeTransitMap := rfl

@[simp] theorem mark_typeConfineMap : (m.mark ks).typeConfineMap = m.typeConfineMap := rfl

@[simp] theorem mark_Global_EmptyTy_Funcs :
    (m.mark ks).Global_EmptyTy_Funcs = m.Global_EmptyTy_Funcs := rfl

theorem mark_mark : (m.mark ks).mark ks' = m.mark (ks ++ ks') := by
  unfold mark
  congr 1
  funext k
  by_cases hk : k ∈ ks <;> by_cases hk' : k ∈ ks' <;> simp [hk, hk']

/-- Only which keys are marked matters. -/
theorem mark_congr (h : ∀ k, k ∈ ks ↔ k ∈ ks') : m.mark ks = m.mark ks' := by
  unfold mark
  congr 1
  funext k
  simp only [h]

theorem operatorAt_eq : m.operatorAt k = ((m.Global_Literal_Struct_Map k).getD "", m.mark [k]) := by
  unfold operatorAt mark
  congr 2
  funext k'
  by_cases hk : k' = k
  · subst hk
    simp
  · simp [hk]

/-- A marked entry has the name that a lookup gives without it. -/
@[simp] theorem layerName_mark : (m.mark ks).layerName T t = m.layerName T t := by
  have hname : ((m.mark ks).Global_Literal_Struct_Map (T.typeHash t)).getD "" =
      (m.Global_Literal_Struct_Map (T.typeHash t)).getD "" := by
    simp only [mark]
    split <;> rfl
  unfold layerName
  rw [hname]

@[simp] theorem layerHash_mark : (m.mark ks).layerHash T = m.layerHash T := by
  funext CT
  rw [layerHash, layerHash, layerName_mark]

theorem structName_eq : m.structName T t = (m.layerName T t, m.mark (T.literalKeys t)) := by
  unfold structName layerName TypeTable.literalKeys
  by_cases hstruct : T.isStructTy t = true
  · by_cases hlit : T.isLiteral t = true
    · simp [hstruct, hlit, operatorAt_eq]
    · simp [hstruct, hlit]
  · simp [hstruct]

@[simp] theorem isEscape_mark : (m.mark ks).isEscape T t i = m.isEscape T t i := by
  unfold isEscape
  rw [layerHash_mark]
  rfl

@[simp] theorem recordedAt_mark {hash : Key} {Hty : Option Ty} :
    (m.mark ks).recordedAt T hash Hty i = m.recordedAt T hash Hty i := by
  unfold recordedAt
  rw [layerHash_mark]
  rfl

theorem literalKeys_of_not_struct (h : ¬ T.isStructTy t = true) : T.literalKeys t = [] := by
  simp [TypeTable.literalKeys, h]

/-- `isEscape` answers as without entries. -/
theorem isEscapeS_eq : m.isEscapeS T t i = (m.isEscape T t i, m.mark (T.literalKeys t)) := by
  unfold isEscapeS isEscape
  by_cases hstruct : T.isStructTy t = true
  · rw [if_pos hstruct, structName_eq]
    simp only [hstruct, true_and]
    rfl
  · simp [hstruct, literalKeys_of_not_struct hstruct]

theorem recordedAtS_eq {hash : Key} :
    m.recordedAtS T hash t i = (m.recordedAt T hash (some t) i, m.mark (T.literalKeys t)) := by
  unfold recordedAtS recordedAt
  by_cases hstruct : T.isStructTy t = true
  · rw [if_pos hstruct, structName_eq]
    simp only [hstruct, if_true]
    rfl
  · simp [hstruct, literalKeys_of_not_struct hstruct]

end

/-! ## What a query of a layer looks up -/

section
variable (T : TypeTable) (m : LayerMaps)

/-- The hash of an escaped layer. -/
def escapes (layer : Option CompositeType) : Option Key :=
  layer.bind fun L => m.isEscape T L.1 L.2

/-- What is recorded under a hash and the name of a layer. -/
def funcsAt (hash : Key) : Option CompositeType → Finset Func
  | some L => m.recordedAt T hash (some L.1) L.2
  | none => m.typeFuncsMap hash

/-- The key that is looked up at a layer. -/
def layerKeys (layer : Option CompositeType) : List Key :=
  match layer with
  | some L => T.literalKeys L.1
  | none => []

/-- The hashes that a search meets, in order. -/
def met (map : List (Key × Key)) (start : Key) : List Key :=
  (bfsOrder (entries map) (map.length + 2) [start] ∅).flatMap (entries map)

/-- The layers that the query of a field meets, in order. -/
def layersMet (t : Ty) (i : ℤ) : List (Option CompositeType) :=
  some (t, i) :: ((met m.typeTransitMap (T.typeHash t)).map (m.typeLayer i) ++
    ((met m.typeTransitMap (T.typeIdxHash t i)).map (m.fieldLayer i) ++
      (met m.typeConfineMap (m.layerHash T (t, i))).map m.hashIDTypeMap))

/-- The keys that are looked up for some layers, up to the first one that has escaped. -/
def keysUpTo (layers : List (Option CompositeType)) : List Key :=
  (upTo (fun L => (m.escapes T L).isSome) layers).flatMap (layerKeys T)

/-- The keys that the query of a field looks up. -/
def queryKeys (t : Ty) (i : ℤ) : List Key := m.keysUpTo T (m.layersMet T t i)

end

section
variable {T : TypeTable} {m : LayerMaps} {ks : List Key} {t : Ty} {i : ℤ}

theorem visitLayer_stops {hash k : Key} {layer : Option CompositeType}
    (h : m.escapes T layer = some k) :
    m.visitLayer T hash layer = (.error k, m.mark (layerKeys T layer)) := by
  cases layer with
  | none => cases h
  | some L =>
    have hk : m.isEscape T L.1 L.2 = some k := h
    simp only [visitLayer, isEscapeS_eq, hk]
    rfl

theorem visitLayer_goes {hash : Key} {layer : Option CompositeType}
    (h : m.escapes T layer = none) :
    m.visitLayer T hash layer = (.ok (m.funcsAt T hash layer), m.mark (layerKeys T layer)) := by
  cases layer with
  | none => exact congrArg (Prod.mk _) mark_nil.symm
  | some L =>
    have hk : m.isEscape T L.1 L.2 = none := h
    have htwice : (m.mark (T.literalKeys L.1)).mark (T.literalKeys L.1) =
        m.mark (T.literalKeys L.1) := by
      rw [mark_mark]
      exact mark_congr (by simp)
    simp only [visitLayer, isEscapeS_eq, hk, recordedAtS_eq, recordedAt_mark, htwice]
    rfl

theorem foldl_mark {α : Type*} (f : α → List Key) (l : List α) (m : LayerMaps) (ks : List Key) :
    l.foldl (fun s a => s.mark (f a)) (m.mark ks) = m.mark (ks ++ l.flatMap f) := by
  induction l generalizing ks with
  | nil => simp
  | cons a l ih => rw [List.foldl_cons, mark_mark, ih, List.flatMap_cons, List.append_assoc]

/-- A search leaves entries for the layers that it meets, up to the first escaped one. -/
theorem collectS_visitLayer {next : Key → List Key} {hash : Key → Key}
    {layer : LayerMaps → Key → Option CompositeType}
    (hlayer : ∀ ks, layer (m.mark ks) = layer m) (fuel : ℕ) (start : Key) (acc : Finset Func)
    (ks : List Key) :
    collectS next (fun H m => m.visitLayer T (hash H) (layer m H)) fuel [start] ∅ acc (m.mark ks) =
      (collect next (fun H => m.escapes T (layer m H)) (fun H => m.funcsAt T (hash H) (layer m H))
          fuel [start] ∅ acc,
        m.mark (ks ++
          (upTo (fun L => (m.escapes T L).isSome)
            (((bfsOrder next fuel [start] ∅).flatMap next).map (layer m))).flatMap
              (layerKeys T))) := by
  have hescapes : ∀ ks L, (m.mark ks).escapes T L = m.escapes T L := by
    intro ks L
    cases L <;> simp [escapes]
  have hfuncs : ∀ ks hash L, (m.mark ks).funcsAt T hash L = m.funcsAt T hash L := by
    intro ks hash L
    cases L with
    | none => rfl
    | some L => exact @recordedAt_mark T m ks L.2 hash (some L.1)
  have htraces : Traces (fun s => ∃ ks, s = m.mark ks)
      (fun H (m : LayerMaps) => m.visitLayer T (hash H) (layer m H))
      (fun H => m.escapes T (layer m H)) (fun H => m.funcsAt T (hash H) (layer m H))
      (fun s H => s.mark (layerKeys T (layer m H))) := by
    refine ⟨?_, ?_, ?_⟩
    · rintro H s k ⟨ks, rfl⟩ hk
      rw [hlayer, visitLayer_stops (by rw [hescapes, hk])]
    · rintro H s ⟨ks, rfl⟩ hk
      rw [hlayer, visitLayer_goes (by rw [hescapes, hk]), hfuncs]
    · rintro H s ⟨ks, rfl⟩
      exact ⟨_, mark_mark⟩
  rw [collectS_eq htraces fuel [start] ∅ acc ⟨ks, rfl⟩, foldl_mark, upTo_map, List.flatMap_map]
  rfl

theorem typeStop_eq : m.typeStop T i = fun H => m.escapes T (m.typeLayer i H) := by
  funext H
  unfold typeStop escapes typeLayer
  cases m.hashTypeMap H <;> rfl

theorem typeFuncs_eq :
    m.typeFuncs T i = fun H => m.funcsAt T (.idx H i) (m.typeLayer i H) := by
  funext H
  unfold typeFuncs typeLayer
  cases m.hashTypeMap H with
  | none => exact Finset.union_empty _
  | some Hty => rfl

theorem fieldStop_eq : m.fieldStop T i = fun H => m.escapes T (m.fieldLayer i H) := by
  funext H
  unfold fieldStop escapes fieldLayer
  cases m.hashIDTypeMap H <;> rfl

theorem fieldFuncs_eq : m.fieldFuncs T i = fun H => m.funcsAt T H (m.fieldLayer i H) := by
  funext H
  unfold fieldFuncs fieldLayer
  cases m.hashIDTypeMap H with
  | none => exact Finset.union_empty _
  | some Hidty => rfl

theorem layerFuncs_eq : m.layerFuncs T = fun H => m.funcsAt T H (m.hashIDTypeMap H) := by
  funext H
  unfold layerFuncs
  cases m.hashIDTypeMap H <;> rfl

/-- The search along the casts of the type answers as without entries. -/
theorem transitedTypesS_eq (acc : Finset Func) (ks : List Key) :
    collectS (entries m.typeTransitMap)
        (fun H m => m.visitLayer T (.idx H i) (m.typeLayer i H)) (m.typeTransitMap.length + 2)
        [T.typeHash t] ∅ acc (m.mark ks) =
      (m.transitedTypes T t i acc,
        m.mark (ks ++
          m.keysUpTo T ((met m.typeTransitMap (T.typeHash t)).map (m.typeLayer i)))) := by
  rw [transitedTypes, typeStop_eq, typeFuncs_eq]
  exact collectS_visitLayer (fun _ => rfl) _ _ acc ks

/-- The search along the casts of the field answers as without entries. -/
theorem transitedFieldsS_eq (acc : Finset Func) (ks : List Key) :
    collectS (entries m.typeTransitMap)
        (fun H m => m.visitLayer T H (m.fieldLayer i H)) (m.typeTransitMap.length + 2)
        [T.typeIdxHash t i] ∅ acc (m.mark ks) =
      (m.transitedFields T t i acc,
        m.mark (ks ++
          m.keysUpTo T ((met m.typeTransitMap (T.typeIdxHash t i)).map (m.fieldLayer i)))) := by
  rw [transitedFields, fieldStop_eq, fieldFuncs_eq]
  exact collectS_visitLayer (fun _ => rfl) _ _ acc ks

/-- The search along the confinements answers as without entries. -/
theorem confinedLayersS_eq (acc : Finset Func) (ks : List Key) :
    collectS (entries m.typeConfineMap)
        (fun H m => m.visitLayer T H (m.hashIDTypeMap H)) (m.typeConfineMap.length + 2)
        [m.layerHash T (t, i)] ∅ acc (m.mark ks) =
      (m.confinedLayers T t i acc,
        m.mark (ks ++
          m.keysUpTo T ((met m.typeConfineMap (m.layerHash T (t, i))).map m.hashIDTypeMap))) := by
  rw [confinedLayers, layerFuncs_eq]
  exact collectS_visitLayer (fun _ => rfl) _ _ acc ks

/-- A search fails exactly if a layer that it meets has escaped. -/
theorem search_cases {map : List (Key × Key)} {start : Key} {stop : Key → Option Key}
    {val : Key → Finset Func} {layer : Key → Option CompositeType}
    (hstop : stop = fun H => m.escapes T (layer H)) (acc : Finset Func) :
    (((met map start).map layer).any (fun L => (m.escapes T L).isSome) = true ∧
      ∃ k, collect (entries map) stop val (map.length + 2) [start] ∅ acc = .error k) ∨
    (((met map start).map layer).any (fun L => (m.escapes T L).isSome) = false ∧
      ∃ S, collect (entries map) stop val (map.length + 2) [start] ∅ acc = .ok S) := by
  subst hstop
  rw [List.any_map]
  exact collect_cases_any _ _ _ acc

theorem keysUpTo_append (l l' : List (Option CompositeType)) :
    m.keysUpTo T (l ++ l') =
      if l.any fun L => (m.escapes T L).isSome then m.keysUpTo T l
      else m.keysUpTo T l ++ m.keysUpTo T l' := by
  unfold keysUpTo
  rw [upTo_append]
  split
  case isTrue => rfl
  case isFalse h =>
    have hall : upTo (fun L => (m.escapes T L).isSome) l = l :=
      upTo_eq_self (Bool.eq_false_iff.2 h)
    rw [hall, List.flatMap_append]

/-- **The entries of a query.**  It answers as without entries, and leaves those of the
    layers that it meets. -/
theorem findCalleesWithTwoLayerTAS_eq (getName : Func → String)
    (order : Finset Func → List Func) (callHash : Key)
    (Pre : Finset Func) (LayerNo : ℕ) :
    m.findCalleesWithTwoLayerTAS T getName order callHash Pre t i LayerNo =
      (m.findCalleesWithTwoLayerTA T getName order callHash Pre t i LayerNo,
        m.mark (m.queryKeys T t i)) := by
  have htwice : (m.mark (T.literalKeys t)).structName T t =
      (m.layerName T t, m.mark (T.literalKeys t)) := by
    rw [structName_eq, layerName_mark, mark_mark]
    exact congrArg (Prod.mk _) (mark_congr (by simp))
  unfold findCalleesWithTwoLayerTAS findCalleesWithTwoLayerTA queryKeys layersMet
  rw [isEscapeS_eq]
  cases hstart : m.isEscape T t i with
  | some k => simp [keysUpTo, upTo, escapes, hstart, layerKeys]
  | none =>
    have hrest : ∀ l, m.keysUpTo T (some (t, i) :: l) = T.literalKeys t ++ m.keysUpTo T l := by
      intro l
      simp [keysUpTo, upTo, escapes, hstart, layerKeys]
    have hhash : typeNameIdxHash (m.layerName T t) i = m.layerHash T (t, i) := rfl
    simp only [htwice, hrest, hhash, mark_typeFuncsMap, mark_typeTransitMap]
    generalize m.typeFuncsMap (T.typeIdxHash t i) ∪ m.typeFuncsMap (m.layerHash T (t, i)) = acc
    rw [transitedTypesS_eq, keysUpTo_append, transitedTypes]
    rcases search_cases typeStop_eq acc with ⟨hany, k, hk⟩ | ⟨hany, acc', hacc⟩
    · rw [hk, if_pos hany]
    rw [hacc, if_neg (Bool.eq_false_iff.1 hany)]
    dsimp only [mark_typeTransitMap]
    rw [transitedFieldsS_eq, keysUpTo_append, transitedFields]
    rcases search_cases fieldStop_eq acc' with ⟨hany, k, hk⟩ | ⟨hany, acc'', hacc⟩
    · rw [hk, if_pos hany, List.append_assoc]
    rw [hacc, if_neg (Bool.eq_false_iff.1 hany)]
    dsimp only [mark_typeConfineMap]
    rw [confinedLayersS_eq]
    cases m.confinedLayers T t i acc'' with
    | error k => simp only [List.append_assoc]
    | ok S => simp only [List.append_assoc, mark_Global_EmptyTy_Funcs]

/-! ## What the recorders look up -/

/-- `escapeType` records the same with an entry. -/
theorem escapeTypeS_eq (SI : Value) :
    m.escapeTypeS T SI t i = (m.escapeType T SI t i).mark (T.literalKeys t) := by
  unfold escapeTypeS escapeType
  by_cases hstruct : T.isStructTy t = true
  · rw [if_pos hstruct, if_pos hstruct, structName_eq]
    rfl
  · rw [if_neg hstruct, if_neg hstruct, literalKeys_of_not_struct hstruct, mark_nil]

/-- The keys that `propagateType` looks up. -/
def propagateKeys (T : TypeTable) (From : CompositeType) (To : CompositeType) : List Key :=
  if To = From then [] else T.literalKeys To.1 ++ T.literalKeys From.1

/-- The loop body of `propagateType` records the same with entries. -/
theorem confineS_eq (From To : CompositeType) :
    (m.mark ks).confineS T From To =
      (m.confine T From To).mark (ks ++ propagateKeys T From To) := by
  unfold confineS confine propagateKeys
  by_cases hsame : To = From
  · rw [if_pos hsame, if_pos hsame, if_pos hsame, List.append_nil]
  · rw [if_neg hsame, if_neg hsame, if_neg hsame]
    simp only [structName_eq, mark_mark, layerName_mark, List.append_assoc]
    rfl

theorem foldl_confineS (From : CompositeType) (TyList : List CompositeType) (ks : List Key) :
    TyList.foldl (confineS T From) (m.mark ks) =
      (m.propagateType T TyList From.1 From.2).mark
        (ks ++ TyList.flatMap (propagateKeys T From)) := by
  unfold propagateType
  induction TyList generalizing m ks with
  | nil => simp
  | cons To TyList ih =>
    rw [List.foldl_cons, confineS_eq, ih, List.foldl_cons, List.flatMap_cons, List.append_assoc]

end

end LayerMaps

/-! ## The resolution of variable parameters -/

namespace CallProgram

open LayerMaps

section
variable (P : CallProgram) (first : Key → Finset Func → Option Func)

/-- Does the search for a cast find a type? -/
def isCast (m : LayerMaps) (f_check_ty : Ty) (H : Key) : Bool :=
  match m.hashTypeMap H with
  | some Hty => Hty = f_check_ty ∨
      P.T.isStructTy Hty ∧ m.layerName P.T Hty = m.layerName P.T f_check_ty
  | none => false

/-- One step of the search for a cast, with the maps after it. -/
def visitCastOf (f_check_ty : Ty) (f_name : String) (H : Key) (m : LayerMaps) :
    Except Unit (Finset Func) × LayerMaps :=
  match m.hashTypeMap H with
  | some Hty =>
    if Hty = f_check_ty then (.error (), m)
    else if P.T.isStructTy Hty then
      let r := m.structName P.T Hty
      (if r.1 = f_name then .error () else .ok ∅, r.2)
    else (.ok ∅, m)
  | none => (.ok ∅, m)

/-- The search for a cast between two structs, with the maps after it. -/
def castsToS (CI_check_ty f_check_ty : Ty) (f_name : String) (m : LayerMaps) : Bool × LayerMaps :=
  let r := collectS (entries m.typeTransitMap) (P.visitCastOf f_check_ty f_name)
    (m.typeTransitMap.length + 2) [P.T.typeHash CI_check_ty] ∅ ∅ m
  (!r.1.isOk, r.2)

/-- `validType`, with the maps after it. -/
def validTypeS (types : Ty × Ty) (m : LayerMaps) : Bool × LayerMaps :=
  if types.1 = types.2 then (true, m)
  else if P.getTypeID types.1 = P.getTypeID types.2 ∧ P.T.isStructTy types.1 ∧
      P.T.isStructTy types.2 then
    let CI_name := m.structName P.T types.1
    let f_name := CI_name.2.structName P.T types.2
    if CI_name.1 = f_name.1 then (true, f_name.2)
    else P.castsToS types.1 types.2 f_name.1 f_name.2
  else (false, m)

/-- The types that are compared. -/
def checkLists (CI_funcTy f_funcTy : Ty) : List (Ty × Ty) :=
  (P.T.getReturnType CI_funcTy :: P.T.getParamTypes CI_funcTy).zip
    (P.T.getReturnType f_funcTy :: P.T.getParamTypes f_funcTy)

/-- `validFuncTy`, with the maps after it. -/
def validFuncTyS (CI_funcTy f_funcTy : Ty) (m : LayerMaps) : Bool × LayerMaps :=
  if (P.T.getParamTypes CI_funcTy).length ≤ (P.T.getParamTypes f_funcTy).length then
    allS P.validTypeS (P.checkLists CI_funcTy f_funcTy) m
  else (false, m)

/-- The functions of a bucket are added to that of the call. -/
def addBucket (CI : Value) (m : LayerMaps) (func_set : Finset Func) : LayerMaps :=
  { m with
    sigFuncsMap := Function.update m.sigFuncsMap (P.callHash CI)
      (m.sigFuncsMap (P.callHash CI) ∪ func_set) }

/-- The loop body over the buckets, with the maps after it. -/
def visitBucket (CI : Value) (m : LayerMaps) (k : Key) : LayerMaps :=
  if m.sigFuncsMap k = ∅ then m
  else
    match first k (m.sigFuncsMap k) with
    | some f =>
      let r := P.validFuncTyS (P.getFunctionType CI) (P.getFunctionType f) m
      if r.1 then P.addBucket CI r.2 (m.sigFuncsMap k) else r.2
    | none => m

/-- `resolveVariableParameters`, with the maps after it, for an order of the buckets. -/
def resolveVariableParametersS (buckets : List Key) (CI : Value)
    (enable_type_cast_in_args : Bool) (m : LayerMaps) : LayerMaps :=
  if P.isVariadic CI || enable_type_cast_in_args then buckets.foldl (P.visitBucket first CI) m
  else m

/-! ## What it looks up -/

/-- The search for a cast stops when it has found one. -/
def castStop (m : LayerMaps) (f_check_ty : Ty) (H : Key) : Option Unit :=
  if P.isCast m f_check_ty H then some () else none

/-- The key that one step of the search looks up. -/
def castKey (m : LayerMaps) (f_check_ty : Ty) (H : Key) : List Key :=
  match m.hashTypeMap H with
  | some Hty => if Hty = f_check_ty then [] else P.T.literalKeys Hty
  | none => []

/-- The keys that a search for a cast looks up, up to the cast that it finds. -/
def castKeys (m : LayerMaps) (CI_check_ty f_check_ty : Ty) : List Key :=
  (upTo (P.isCast m f_check_ty) (met m.typeTransitMap (P.T.typeHash CI_check_ty))).flatMap
    (P.castKey m f_check_ty)

/-- The keys that the comparison of two types looks up. -/
def typeKeys (m : LayerMaps) (types : Ty × Ty) : List Key :=
  if types.1 = types.2 then []
  else if P.getTypeID types.1 = P.getTypeID types.2 ∧ P.T.isStructTy types.1 ∧
      P.T.isStructTy types.2 then
    P.T.literalKeys types.1 ++ (P.T.literalKeys types.2 ++
      if m.layerName P.T types.1 = m.layerName P.T types.2 then []
      else P.castKeys m types.1 types.2)
  else []

/-- The keys that the check of a function type looks up, up to the first difference. -/
def funcTyKeys (m : LayerMaps) (CI_funcTy f_funcTy : Ty) : List Key :=
  if (P.T.getParamTypes CI_funcTy).length ≤ (P.T.getParamTypes f_funcTy).length then
    (upTo (fun types => !P.validType m types.1 types.2)
      (P.checkLists CI_funcTy f_funcTy)).flatMap (P.typeKeys m)
  else []

/-- The keys that the check of a bucket looks up. -/
def bucketKeys (CI : Value) (m : LayerMaps) (k : Key) : List Key :=
  if m.sigFuncsMap k = ∅ then []
  else
    match first k (m.sigFuncsMap k) with
    | some f => P.funcTyKeys m (P.getFunctionType CI) (P.getFunctionType f)
    | none => []

/-- The loop body without entries. -/
def takeBucket (CI : Value) (m : LayerMaps) (k : Key) : LayerMaps :=
  if P.bucketPasses first m CI k then P.addBucket CI m (m.sigFuncsMap k) else m

/-- The keys that the loop looks up. -/
def bucketsKeys (CI : Value) : List Key → LayerMaps → List Key
  | [], _ => []
  | k :: buckets, m =>
    P.bucketKeys first CI m k ++ bucketsKeys CI buckets (P.takeBucket first CI m k)

end

section
variable {P : CallProgram} {first : Key → Finset Func → Option Func} {m : LayerMaps}
  {ks : List Key} {CI : Value}

theorem castStop_isSome (f_check_ty : Ty) :
    (fun H => (P.castStop m f_check_ty H).isSome) = P.isCast m f_check_ty := by
  funext H
  unfold castStop
  cases P.isCast m f_check_ty H <;> rfl

theorem isCast_iff {f_check_ty : Ty} {H : Key} :
    P.isCast m f_check_ty H = true ↔ (P.castStop m f_check_ty H).isSome := by
  rw [← castStop_isSome]

theorem visitCastOf_eq (f_check_ty : Ty) (H : Key) :
    P.visitCastOf f_check_ty (m.layerName P.T f_check_ty) H m =
      (if P.isCast m f_check_ty H then .error () else .ok ∅,
        m.mark (P.castKey m f_check_ty H)) := by
  unfold visitCastOf isCast castKey
  cases m.hashTypeMap H with
  | none => simp
  | some Hty =>
    dsimp only
    by_cases hsame : Hty = f_check_ty
    · simp [hsame]
    · by_cases hstruct : P.T.isStructTy Hty = true
      · simp [hsame, hstruct, structName_eq]
      · simp [hsame, hstruct, literalKeys_of_not_struct hstruct]

@[simp] theorem isCast_mark (f_check_ty : Ty) :
    P.isCast (m.mark ks) f_check_ty = P.isCast m f_check_ty := by
  funext H
  unfold isCast
  simp only [layerName_mark]
  rfl

theorem castsTo_eq_any (CI_check_ty f_check_ty : Ty) :
    P.castsTo m CI_check_ty f_check_ty =
      (met m.typeTransitMap (P.T.typeHash CI_check_ty)).any (P.isCast m f_check_ty) := by
  rw [met, List.any_flatMap]
  rfl

/-- The search for a cast answers as without entries. -/
theorem castsToS_eq (CI_check_ty f_check_ty : Ty) :
    P.castsToS CI_check_ty f_check_ty (m.layerName P.T f_check_ty) (m.mark ks) =
      (P.castsTo m CI_check_ty f_check_ty, m.mark (ks ++ P.castKeys m CI_check_ty f_check_ty)) := by
  have hvisit : ∀ ks H, P.visitCastOf f_check_ty (m.layerName P.T f_check_ty) H (m.mark ks) =
      (if P.isCast m f_check_ty H then .error () else .ok ∅,
        (m.mark ks).mark (P.castKey m f_check_ty H)) := by
    intro ks H
    have hname : m.layerName P.T f_check_ty = (m.mark ks).layerName P.T f_check_ty :=
      layerName_mark.symm
    rw [hname, visitCastOf_eq, isCast_mark]
    rfl
  have htraces : Traces (fun s => ∃ ks, s = m.mark ks)
      (P.visitCastOf f_check_ty (m.layerName P.T f_check_ty)) (P.castStop m f_check_ty)
      (fun _ => ∅) (fun s H => s.mark (P.castKey m f_check_ty H)) := by
    refine ⟨?_, ?_, ?_⟩
    · rintro H s k ⟨ks, rfl⟩ hk
      rw [hvisit, if_pos (isCast_iff.2 (by rw [hk]; rfl))]
    · rintro H s ⟨ks, rfl⟩ hk
      rw [hvisit, if_neg fun h => by simpa [hk] using isCast_iff.1 h]
    · rintro H s ⟨ks, rfl⟩
      exact ⟨_, mark_mark⟩
  unfold castsToS castKeys
  rw [collectS_eq htraces _ _ _ _ ⟨ks, rfl⟩, foldl_mark, castsTo_eq_any, ← castStop_isSome]
  dsimp only
  rw [isOk_collect, Bool.not_not]
  rfl

/-- The comparison of two types answers as without entries. -/
theorem validTypeS_eq (types : Ty × Ty) :
    P.validTypeS types (m.mark ks) =
      (P.validType m types.1 types.2, m.mark (ks ++ P.typeKeys m types)) := by
  unfold validTypeS validType typeKeys
  by_cases hsame : types.1 = types.2
  · simp [hsame]
  by_cases hboth : P.getTypeID types.1 = P.getTypeID types.2 ∧ P.T.isStructTy types.1 ∧
      P.T.isStructTy types.2
  · rw [if_neg hsame, if_pos hboth, if_neg hsame, if_pos hboth]
    simp only [structName_eq, mark_mark, layerName_mark]
    by_cases hname : m.layerName P.T types.1 = m.layerName P.T types.2
    · simp [hname, hsame, hboth]
    · rw [if_neg hname, if_neg hname, castsToS_eq]
      simp [hname, hsame, hboth]
  · rw [if_neg hsame, if_neg hboth, if_neg hsame, if_neg hboth, List.append_nil]
    have hinvalid : (types.1 = types.2 ∨ P.getTypeID types.1 = P.getTypeID types.2 ∧
        P.T.isStructTy types.1 ∧ P.T.isStructTy types.2 ∧
          (m.layerName P.T types.1 = m.layerName P.T types.2 ∨
            P.castsTo m types.1 types.2)) ↔ False := by
      simp only [iff_false, not_or]
      exact ⟨hsame, fun h => hboth ⟨h.1, h.2.1, h.2.2.1⟩⟩
    simp only [hinvalid, decide_false]

@[simp] theorem validType_mark (CI_check_ty f_check_ty : Ty) :
    P.validType (m.mark ks) CI_check_ty f_check_ty = P.validType m CI_check_ty f_check_ty := by
  have hcasts : P.castsTo (m.mark ks) CI_check_ty f_check_ty =
      P.castsTo m CI_check_ty f_check_ty := by
    rw [castsTo_eq_any, castsTo_eq_any, isCast_mark]
    rfl
  unfold validType
  rw [layerName_mark, layerName_mark, hcasts]

theorem validFuncTy_eq (CI_funcTy f_funcTy : Ty) :
    P.validFuncTy m CI_funcTy f_funcTy =
      (decide ((P.T.getParamTypes CI_funcTy).length ≤ (P.T.getParamTypes f_funcTy).length) &&
        (P.checkLists CI_funcTy f_funcTy).all fun types => P.validType m types.1 types.2) := by
  rw [validFuncTy, checkLists, Bool.decide_and, Bool.decide_eq_true]

/-- The check of a function type answers as without entries. -/
theorem validFuncTyS_eq (CI_funcTy f_funcTy : Ty) :
    P.validFuncTyS CI_funcTy f_funcTy (m.mark ks) =
      (P.validFuncTy m CI_funcTy f_funcTy, m.mark (ks ++ P.funcTyKeys m CI_funcTy f_funcTy)) := by
  have htypes : ∀ types s, (∃ ks, s = m.mark ks) →
      P.validTypeS types s = (P.validType m types.1 types.2, s.mark (P.typeKeys m types)) := by
    rintro types s ⟨ks, rfl⟩
    rw [validTypeS_eq, mark_mark]
  unfold validFuncTyS funcTyKeys
  rw [validFuncTy_eq]
  by_cases hlen : (P.T.getParamTypes CI_funcTy).length ≤ (P.T.getParamTypes f_funcTy).length
  · rw [if_pos hlen, if_pos hlen, decide_eq_true hlen, Bool.true_and]
    have hkeeps : ∀ types s, (∃ ks, s = m.mark ks) →
        ∃ ks, s.mark (P.typeKeys m types) = m.mark ks := by
      rintro types s ⟨ks, rfl⟩
      exact ⟨_, mark_mark⟩
    rw [allS_eq htypes hkeeps _ ⟨ks, rfl⟩, foldl_mark]
  · rw [if_neg hlen, if_neg hlen, decide_eq_false hlen, Bool.false_and, List.append_nil]

theorem addBucket_empty : P.addBucket CI m ∅ = m := by
  unfold addBucket
  rw [Finset.union_empty, Function.update_eq_self]

/-- A bucket is checked and added as without entries. -/
theorem visitBucket_eq (k : Key) :
    P.visitBucket first CI (m.mark ks) k =
      (P.takeBucket first CI m k).mark (ks ++ P.bucketKeys first CI m k) := by
  have hsig : (m.mark ks).sigFuncsMap = m.sigFuncsMap := rfl
  unfold visitBucket takeBucket bucketKeys bucketPasses
  rw [hsig]
  by_cases hempty : m.sigFuncsMap k = ∅
  · rw [if_pos hempty, if_pos hempty, hempty, addBucket_empty, ite_self, List.append_nil]
  rw [if_neg hempty, if_neg hempty]
  cases first k (m.sigFuncsMap k) with
  | none => simp
  | some f =>
    have hcheck : P.passesCheck m CI f =
      P.validFuncTy m (P.getFunctionType CI) (P.getFunctionType f) := rfl
    simp only [Option.any_some, validFuncTyS_eq, hcheck]
    split <;> rfl

/-- The loop over the buckets adds what it adds without entries. -/
theorem foldl_visitBucket (buckets : List Key) (ks : List Key) :
    buckets.foldl (P.visitBucket first CI) (m.mark ks) =
      (buckets.foldl (P.takeBucket first CI) m).mark (ks ++ P.bucketsKeys first CI buckets m) := by
  induction buckets generalizing m ks with
  | nil => simp [bucketsKeys]
  | cons k buckets ih =>
    rw [List.foldl_cons, visitBucket_eq, ih, List.foldl_cons, bucketsKeys, List.append_assoc]

theorem addBucket_addBucket (A S : Finset Func) :
    P.addBucket CI (P.addBucket CI m A) S = P.addBucket CI m (A ∪ S) := by
  unfold addBucket
  simp only [Function.update_self, Function.update_idem, Finset.union_assoc]

/-- The own bucket of the call has nothing to add to itself. -/
theorem addBucket_congr {A B : Finset Func}
    (h : m.sigFuncsMap (P.callHash CI) ∪ A = m.sigFuncsMap (P.callHash CI) ∪ B) :
    P.addBucket CI m A = P.addBucket CI m B := by
  unfold addBucket
  rw [h]

theorem takeBucket_addBucket (A : Finset Func) (k : Key) :
    P.takeBucket first CI (P.addBucket CI m A) k =
      P.addBucket CI m (A ∪ if P.bucketPasses first m CI k then m.sigFuncsMap k else ∅) := by
  by_cases hk : k = P.callHash CI
  · have hown : (P.addBucket CI m A).sigFuncsMap k = m.sigFuncsMap (P.callHash CI) ∪ A := by
      rw [hk]
      exact Function.update_self _ _ _
    have hleft : P.takeBucket first CI (P.addBucket CI m A) k = P.addBucket CI m A := by
      unfold takeBucket
      rw [hown, addBucket_addBucket]
      split
      · exact addBucket_congr (by grind)
      · rfl
    rw [hleft]
    refine addBucket_congr ?_
    split
    · rw [hk]
      grind
    · rw [Finset.union_empty]
  · have hother : (P.addBucket CI m A).sigFuncsMap k = m.sigFuncsMap k :=
      Function.update_of_ne hk _ _
    have hpass : P.bucketPasses first (P.addBucket CI m A) CI k = P.bucketPasses first m CI k := by
      unfold bucketPasses
      rw [hother]
      rfl
    unfold takeBucket
    rw [hpass, hother, addBucket_addBucket]
    split
    · rfl
    · rw [Finset.union_empty]

/-- The loop over the buckets, from a map where the bucket of the call has more. -/
theorem foldl_takeBucket (buckets : List Key) (A : Finset Func) :
    buckets.foldl (P.takeBucket first CI) (P.addBucket CI m A) =
      P.addBucket CI m (A ∪
        (buckets.toFinset.filter fun k => P.bucketPasses first m CI k).biUnion m.sigFuncsMap) := by
  induction buckets generalizing A with
  | nil => simp
  | cons k buckets ih =>
    rw [List.foldl_cons, takeBucket_addBucket, ih, List.toFinset_cons, Finset.filter_insert,
      Finset.union_assoc]
    split
    · rw [Finset.biUnion_insert]
    · rw [Finset.empty_union]

/-- The result of `resolveVariableParameters` does not depend on the order of the buckets. -/
theorem foldl_takeBucket_eq_fillBucket {buckets : List Key}
    (h : ∀ k, k ∈ buckets ↔ k ∈ P.sigKeys) :
    buckets.foldl (P.takeBucket first CI) m = P.fillBucket first m CI := by
  have hkeys : buckets.toFinset = P.sigKeys := by
    ext k
    rw [List.mem_toFinset, h]
  have hfold : buckets.foldl (P.takeBucket first CI) (P.addBucket CI m ∅) = _ :=
    foldl_takeBucket buckets ∅
  rw [addBucket_empty, Finset.empty_union, hkeys] at hfold
  exact hfold

end

/-! ## Queries -/

/-- A query, with its arguments. -/
inductive Query
  | isEscape (LayerTy : Ty) (FieldIdx : ℤ)
  | findCalleesWithTwoLayerTA (CI : Value) (PreLayerResult : Finset Func) (LayerTy : Ty)
      (FieldIdx : ℤ)
  /-- for a choice of the functions that are checked, and an order of the buckets -/
  | resolveVariableParameters (first : Key → Finset Func → Option Func) (buckets : List Key)
      (CI : Value) (enable_type_cast_in_args : Bool)
  | escapeType (SI : Value) (t : Ty) (Idx : ℤ)
  | propagateType (ToV : Value) (From : CompositeType)

section
variable (P : CallProgram)

/-- The layers of a pointer, for `propagateType`. -/
def toLayers (m : LayerMaps) (ToV : Value) : List CompositeType :=
  (P.nextLayerBaseType_new m.Global_Literal_Struct_Map ToV .Recall_Mode).2

/-- The maps after a query. -/
def runQuery (m : LayerMaps) : Query → LayerMaps
  | .isEscape LayerTy FieldIdx => (m.isEscapeS P.T LayerTy FieldIdx).2
  | .findCalleesWithTwoLayerTA CI Pre LayerTy FieldIdx =>
    (m.findCalleesWithTwoLayerTAS P.T P.getName P.order (P.callHash CI) Pre LayerTy FieldIdx 0).2
  | .resolveVariableParameters first buckets CI enable =>
    P.resolveVariableParametersS first buckets CI enable m
  | .escapeType SI t Idx => m.escapeTypeS P.T SI t Idx
  | .propagateType ToV From => (P.toLayers m ToV).foldl (confineS P.T From) m

/-- The keys that a query looks up. -/
def lookedUp (m : LayerMaps) : Query → List Key
  | .isEscape LayerTy _ => P.T.literalKeys LayerTy
  | .findCalleesWithTwoLayerTA _ _ LayerTy FieldIdx => m.queryKeys P.T LayerTy FieldIdx
  | .resolveVariableParameters first buckets CI enable =>
    if P.isVariadic CI || enable then P.bucketsKeys first CI buckets m else []
  | .escapeType _ t _ => P.T.literalKeys t
  | .propagateType ToV From => (P.toLayers m ToV).flatMap (propagateKeys P.T From)

/-- Does `updateStructInfo` record a function under the name of a literal struct? -/
def recordsByName (m : LayerMaps) (t : Ty) : Bool :=
  decide (P.T.typeHash t ∉ m.Globa_Union_Set) &&
    (m.Global_Literal_Struct_Map (P.T.typeHash t)).any fun TyName =>
      !containsSub TyName "union." && !containsSub TyName ".anon"

/-- A literal struct is classified as before the query. -/
def KeepsClass (m : LayerMaps) (q : Query) (t : Ty) : Prop :=
  P.T.checkValidStructName (P.runQuery m q).Global_Literal_Struct_Map t =
      P.T.checkValidStructName m.Global_Literal_Struct_Map t ∧
    P.recordsByName (P.runQuery m q) t = P.recordsByName m t

end

section
variable {P : CallProgram} {m : LayerMaps} {q : Query} {t : Ty} {F : Func} {i : ℤ}

/-- The two branches of `updateStructInfo` for a literal struct. -/
theorem updateStructInfo_of_literal (hstruct : P.T.isStructTy t = true)
    (hlit : P.T.isLiteral t = true) (hname : P.getName F ≠ "") :
    P.updateStructInfo F (t, i) m =
      if P.recordsByName m t then m.recordLayer P.T F (t, i)
      else m.recordEmptyTy (P.funcHash F) F := by
  unfold TypedProgram.updateStructInfo recordsByName
  by_cases hunion : P.T.typeHash t ∈ m.Globa_Union_Set
  · simp [hunion]
  · simp only [hunion, hstruct, hlit, hname, if_true, if_false, ne_eq, not_false_eq_true,
      decide_true, Bool.true_and]
    cases m.Global_Literal_Struct_Map (P.T.typeHash t) with
    | none => simp
    | some TyName =>
      dsimp only
      by_cases hanon : containsSub TyName "union." = true ∨ containsSub TyName ".anon" = true
      · rw [if_pos hanon, if_neg]
        rcases hanon with h | h <;> simp [h]
      · rw [if_neg hanon, if_pos]
        simpa [not_or] using hanon

theorem foldl_takeBucket_names (first : Key → Finset Func → Option Func) (CI : Value)
    (buckets : List Key) :
    (buckets.foldl (P.takeBucket first CI) m).Global_Literal_Struct_Map =
        m.Global_Literal_Struct_Map ∧
      (buckets.foldl (P.takeBucket first CI) m).Globa_Union_Set = m.Globa_Union_Set := by
  refine List.foldlRecOn buckets (P.takeBucket first CI)
    (motive := fun m' => m'.Global_Literal_Struct_Map = m.Global_Literal_Struct_Map ∧
      m'.Globa_Union_Set = m.Globa_Union_Set) ⟨rfl, rfl⟩ ?_
  intro m' hm' k _
  unfold takeBucket
  split
  · exact hm'
  · exact hm'

theorem propagateType_names (TyList : List CompositeType) (From : CompositeType) :
    (m.propagateType P.T TyList From.1 From.2).Global_Literal_Struct_Map =
        m.Global_Literal_Struct_Map ∧
      (m.propagateType P.T TyList From.1 From.2).Globa_Union_Set = m.Globa_Union_Set := by
  refine List.foldlRecOn TyList (confine P.T From)
    (motive := fun m' => m'.Global_Literal_Struct_Map = m.Global_Literal_Struct_Map ∧
      m'.Globa_Union_Set = m.Globa_Union_Set) ⟨rfl, rfl⟩ ?_
  intro m' hm' To _
  unfold confine
  split
  · exact hm'
  · exact hm'

/-- **The entries of a query.**  It leaves entries for what it looks up, in maps with the
    names and the unions of before. -/
theorem runQuery_eq (m : LayerMaps) (q : Query) :
    ∃ m' : LayerMaps, (m'.Global_Literal_Struct_Map = m.Global_Literal_Struct_Map ∧
      m'.Globa_Union_Set = m.Globa_Union_Set) ∧ P.runQuery m q = m'.mark (P.lookedUp m q) := by
  cases q with
  | isEscape LayerTy FieldIdx => exact ⟨m, ⟨rfl, rfl⟩, by rw [runQuery, isEscapeS_eq]; rfl⟩
  | findCalleesWithTwoLayerTA CI Pre LayerTy FieldIdx =>
    exact ⟨m, ⟨rfl, rfl⟩, by rw [runQuery, findCalleesWithTwoLayerTAS_eq]; rfl⟩
  | resolveVariableParameters first buckets CI enable =>
    rw [runQuery, lookedUp, resolveVariableParametersS]
    split
    case isTrue =>
      refine ⟨buckets.foldl (P.takeBucket first CI) m,
        foldl_takeBucket_names first CI buckets, ?_⟩
      have hfold : buckets.foldl (P.visitBucket first CI) (m.mark []) = _ :=
        foldl_visitBucket buckets []
      rwa [mark_nil, List.nil_append] at hfold
    case isFalse => exact ⟨m, ⟨rfl, rfl⟩, mark_nil.symm⟩
  | escapeType SI t Idx =>
    refine ⟨m.escapeType P.T SI t Idx, ?_, escapeTypeS_eq SI⟩
    unfold escapeType
    split
    · exact ⟨rfl, rfl⟩
    · exact ⟨rfl, rfl⟩
  | propagateType ToV From =>
    refine ⟨m.propagateType P.T (P.toLayers m ToV) From.1 From.2,
      propagateType_names (P.toLayers m ToV) From, ?_⟩
    have hfold : (P.toLayers m ToV).foldl (confineS P.T From) (m.mark []) = _ :=
      foldl_confineS From (P.toLayers m ToV) []
    rwa [mark_nil, List.nil_append] at hfold

/-- **Classification.**  A query leaves the classification of a literal struct as it is
    exactly if the struct has an entry or is not looked up. -/
theorem keepsClass_iff (hstruct : P.T.isStructTy t = true) (hlit : P.T.isLiteral t = true) :
    P.KeepsClass m q t ↔
      (m.Global_Literal_Struct_Map (P.T.typeHash t)).isSome ∨
        P.T.typeHash t ∉ P.lookedUp m q := by
  obtain ⟨m', ⟨hnames, hunions⟩, hrun⟩ := runQuery_eq (P := P) m q
  have hentry : (P.runQuery m q).Global_Literal_Struct_Map (P.T.typeHash t) =
      if P.T.typeHash t ∈ P.lookedUp m q then
        some ((m.Global_Literal_Struct_Map (P.T.typeHash t)).getD "")
      else m.Global_Literal_Struct_Map (P.T.typeHash t) := by
    rw [hrun, ← hnames]
    rfl
  have hunions' : (P.runQuery m q).Globa_Union_Set = m.Globa_Union_Set := by
    rw [hrun, ← hunions]
    rfl
  have hsame : (P.runQuery m q).Global_Literal_Struct_Map (P.T.typeHash t) =
      m.Global_Literal_Struct_Map (P.T.typeHash t) → P.KeepsClass m q t := by
    intro h
    refine ⟨?_, ?_⟩
    · rw [TypeTable.checkValidStructName, TypeTable.checkValidStructName, h]
    · rw [recordsByName, recordsByName, h, hunions']
  constructor
  · rintro ⟨hvalid, -⟩
    by_contra hno
    push Not at hno
    obtain ⟨hnone, hmem⟩ := hno
    rw [ne_eq, Option.not_isSome_iff_eq_none] at hnone
    rw [if_pos hmem, hnone] at hentry
    -- the struct has a valid name now, the empty one
    simp [TypeTable.checkValidStructName, hstruct, hlit, hentry, hnone, containsSub] at hvalid
  · rintro (hsome | hnot)
    · obtain ⟨name, hname⟩ := Option.isSome_iff_exists.1 hsome
      refine hsame ?_
      rw [hentry, hname]
      exact ite_self _
    · exact hsame (by rw [hentry, if_neg hnot])

end

/-! ## Literal structs that all have names -/

/-- The names and unions that the type builder hands over, if it has given every literal struct
    a name. -/
structure NamedLiterals (P : CallProgram) where
  names : Key → Option String
  unions : Finset Key
  named : ∀ t, P.T.isStructTy t = true → P.T.isLiteral t = true →
    (names (P.T.typeHash t)).isSome

section
variable {P : CallProgram} {m : LayerMaps} {q : Query} {t : Ty} {k : Key}

/-- The key of a literal struct. -/
def IsLiteralKey (P : CallProgram) (k : Key) : Prop :=
  ∃ t, P.T.isStructTy t = true ∧ P.T.isLiteral t = true ∧ k = P.T.typeHash t

theorem isLiteralKey_literalKeys (h : k ∈ P.T.literalKeys t) : P.IsLiteralKey k := by
  unfold TypeTable.literalKeys at h
  split at h
  case isTrue hlit => exact ⟨t, hlit.1, hlit.2, List.mem_singleton.1 h⟩
  case isFalse => cases h

theorem isLiteralKey_castKeys {CI_check_ty f_check_ty : Ty}
    (h : k ∈ P.castKeys m CI_check_ty f_check_ty) : P.IsLiteralKey k := by
  obtain ⟨H, -, hk⟩ := List.mem_flatMap.1 h
  unfold castKey at hk
  split at hk
  · split at hk
    · cases hk
    · exact isLiteralKey_literalKeys hk
  · cases hk

theorem isLiteralKey_typeKeys {types : Ty × Ty} (h : k ∈ P.typeKeys m types) :
    P.IsLiteralKey k := by
  unfold typeKeys at h
  split at h
  · cases h
  · split at h
    · simp only [List.mem_append] at h
      rcases h with h | h | h
      · exact isLiteralKey_literalKeys h
      · exact isLiteralKey_literalKeys h
      · split at h
        · cases h
        · exact isLiteralKey_castKeys h
    · cases h

theorem isLiteralKey_bucketsKeys {first : Key → Finset Func → Option Func} {CI : Value}
    {buckets : List Key} (h : k ∈ P.bucketsKeys first CI buckets m) : P.IsLiteralKey k := by
  induction buckets generalizing m with
  | nil => cases h
  | cons b buckets ih =>
    rcases List.mem_append.1 h with h | h
    · unfold bucketKeys at h
      split at h
      · cases h
      · split at h
        · unfold funcTyKeys at h
          split at h
          · obtain ⟨types, -, hk⟩ := List.mem_flatMap.1 h
            exact isLiteralKey_typeKeys hk
          · cases h
        · cases h
    · exact ih h

/-- Only names of literal structs are looked up. -/
theorem isLiteralKey_lookedUp (h : k ∈ P.lookedUp m q) : P.IsLiteralKey k := by
  cases q with
  | isEscape LayerTy _ => exact isLiteralKey_literalKeys h
  | findCalleesWithTwoLayerTA CI Pre LayerTy FieldIdx =>
    obtain ⟨layer, -, hk⟩ := List.mem_flatMap.1 h
    unfold layerKeys at hk
    split at hk
    · exact isLiteralKey_literalKeys hk
    · cases hk
  | resolveVariableParameters first buckets CI enable =>
    unfold lookedUp at h
    dsimp only at h
    split at h
    · exact isLiteralKey_bucketsKeys h
    · cases h
  | escapeType SI t _ => exact isLiteralKey_literalKeys h
  | propagateType ToV From =>
    obtain ⟨To, -, hk⟩ := List.mem_flatMap.1 h
    unfold propagateKeys at hk
    split at hk
    · cases hk
    · rcases List.mem_append.1 hk with hk | hk
      · exact isLiteralKey_literalKeys hk
      · exact isLiteralKey_literalKeys hk

/-- **No entries.**  If all literal structs have names, a query makes no entry. -/
theorem NamedLiterals.runQuery (B : P.NamedLiterals) (hm : m.Global_Literal_Struct_Map = B.names)
    (q : Query) : (P.runQuery m q).Global_Literal_Struct_Map = B.names := by
  obtain ⟨m', ⟨hnames, -⟩, hrun⟩ := runQuery_eq (P := P) m q
  rw [hrun, ← hm, ← hnames]
  funext k
  show (if k ∈ P.lookedUp m q then some ((m'.Global_Literal_Struct_Map k).getD "")
    else m'.Global_Literal_Struct_Map k) = m'.Global_Literal_Struct_Map k
  split
  case isTrue hk =>
    obtain ⟨t, hstruct, hlit, rfl⟩ := isLiteralKey_lookedUp hk
    rw [hnames, hm]
    obtain ⟨name, hname⟩ := Option.isSome_iff_exists.1 (B.named t hstruct hlit)
    rw [hname]
    rfl
  case isFalse => rfl

end

/-! ## A struct that a call returns -/

/-- Integers, the literal structs `{i64,i64}` and `{i64,ptr}`, and functions that return
    one of them. -/
def typesOfReturns : TypeTable where
  print t := match t with
    | 0 => "i64" | 1 => "{i64,i64}" | 2 => "{i64,ptr}" | 3 => "{i64,ptr}(i64)"
    | 4 => "{i64,i64}(i64,...)" | _ => "void(i64)"
  isStructTy t := t = 1 ∨ t = 2
  isArrayTy _ := false
  isLiteral t := t = 1 ∨ t = 2
  getStructName _ := ""
  getReturnType t := match t with | 3 => 2 | 4 => 1 | _ => 0
  getParamTypes t := if t ≥ 3 then [0] else []
  same_print t t' h := by
    rcases t with _ | _ | _ | _ | _ | t <;> rcases t' with _ | _ | _ | _ | _ | t' <;> simp_all

/-- A function that returns `{i64,ptr}`, and a call of its argument by another one, as if it
    returned `{i64,i64}`. -/
def literalReturns : CallProgram where
  toProgram :=
    { Program.ofTable
        [(.function, []), (.function, []), (.argument, []), (.instruction .call, [2])]
        (by decide) with
      getName := fun v => if v = 0 then "pair" else if v = 1 then "run" else ""
      getFunction := fun _ => 1
      args := fun F => if F = 1 then [2] else []
      insts := fun F => if F = 1 then [3] else []
      isDeclaration := fun _ => false
      hasAddressTaken := fun F => F = 0 }
  T := typesOfReturns
  getType _ := 0
  getFunctionType v := if v = 0 then 3 else if v = 3 then 4 else 5

/-- The analysis of the call makes an entry for `{i64,i64}`, which then counts as named. -/
theorem query_changes_class :
    ¬ ∀ (P : CallProgram) (Ms : List LLVMModule) (q : Query) (t : Ty),
      P.T.isStructTy t = true → P.T.isLiteral t = true →
        P.KeepsClass (Ms.foldl P.doInitialization {}) q t := by
  intro h
  have hkeeps := h literalReturns [{ globals := [], functions := [0, 1] }]
    (.resolveVariableParameters (fun _ S => (inOrder S).head?)
      [literalReturns.funcHash 0, literalReturns.callHash 3] 3 false) 1 rfl rfl
  exact absurd hkeeps.1 (by decide)

/-- A struct with an entry keeps its class. -/
theorem keepsClass_literalReturns :
    (literalReturns.T.isStructTy 1 = true ∧ literalReturns.T.isLiteral 1 = true) ∧
      literalReturns.KeepsClass
        { Global_Literal_Struct_Map := fun _ => some "pair" } (.isEscape 1 0) 1 :=
  ⟨⟨rfl, rfl⟩, (keepsClass_iff rfl rfl).2 (Or.inl rfl)⟩

end CallProgram

end TFA
