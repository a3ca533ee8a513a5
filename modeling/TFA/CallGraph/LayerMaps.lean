/-
  The maps of the multi-layer type analysis (`CallGraph.h`, `CallGraph.cc`,
  `CallGraphTools.cc`, `LayerAnalysis.cc`).

  A layer is a type and a field index.  Functions are recorded under the name of
  the type and the index; casts are recorded between types, confinements between
  layers.  All maps are keyed by hashes: of a printed type, of the name of a
  struct, and of one of these with an index.

  * Hashes are modelled by what they are computed from (`Key`), so none collide;
    a printed type is never taken for a name.  Types that print the same are the
    same type in two modules and agree in kind and name (`same_print`);
  * reading a map at a missing key yields the default value and has no other
    effect here: the entry that it makes in `Global_Literal_Struct_Map` is only
    seen by `checkValidStructName` and `updateStructInfo`.  The names of the layers
    that are recorded have an entry already; what the entries of the other lookups
    change is the subject of `CallGraph/NameEntries.lean`;
  * `WellKeyed`: `hashTypeMap` and `hashIDTypeMap` give back a type for its hash,
    in whatever order the maps are filled.
-/
import TFA.Lib.Worklist
import TFA.Program

namespace TFA

/-- The address of an LLVM `Type`. -/
abbrev Ty := ℕ

/-- The address of a function. -/
abbrev Func := Value

/-- The types of the loaded modules. -/
structure TypeTable where
  /-- the printed type, without blanks -/
  print : Ty → String
  isStructTy : Ty → Bool
  isArrayTy : Ty → Bool
  isLiteral : Ty → Bool
  getStructName : Ty → String
  isVectorTy : Ty → Bool := fun _ => false
  isPointerTy : Ty → Bool := fun _ => false
  /-- the element type of a vector -/
  getScalarType : Ty → Ty := id
  /-- the element types of a struct -/
  elements : Ty → List Ty := fun _ => []
  /-- return and parameter types of a function type -/
  getReturnType : Ty → Ty := id
  getParamTypes : Ty → List Ty := fun _ => []
  same_print : ∀ T T', print T = print T' →
    isStructTy T = isStructTy T' ∧ isLiteral T = isLiteral T' ∧ getStructName T = getStructName T'

/-- What a hash is computed from. -/
inductive Key where
  /-- `str_hash` of a printed type -/
  | type (print : String)
  /-- `str_hash` of the name of a struct -/
  | name (str : String)
  /-- `hashIdxHash` -/
  | idx (Hs : Key) (Idx : ℤ)
deriving DecidableEq

/-- A type and a field index. -/
abbrev CompositeType := Ty × ℤ

/-- `parseIdentifiedStructName`: the name without its kind. -/
def parseIdentifiedStructName (str_name : String) : String :=
  if containsSub str_name "struct." then String.ofList (str_name.toList.drop 7)
  else if containsSub str_name "union." then String.ofList (str_name.toList.drop 6)
  else if containsSub str_name "class." then String.ofList (str_name.toList.drop 6)
  else ""

namespace TypeTable

variable (T : TypeTable)

/-- Structs with the given names. -/
def ofNames (names : Ty → String) : TypeTable where
  print := names
  isStructTy _ := true
  isArrayTy _ := false
  isLiteral _ := false
  getStructName t := "struct." ++ names t
  same_print T T' h := by simp [h]

/-- `typeHash`. -/
def typeHash (t : Ty) : Key := .type (T.print t)

/-- `typeIdxHash`. -/
def typeIdxHash (t : Ty) (Idx : ℤ) : Key := .idx (T.typeHash t) Idx

/-- `isCompositeType`. -/
def isCompositeType (t : Ty) : Bool := T.isStructTy t || T.isArrayTy t || T.isVectorTy t

/-- `getLayerTwoType`. -/
def getLayerTwoType (baseTy : Ty) (ids : List ℤ) : Option Ty :=
  if T.isStructTy baseTy then
    ids.foldlM (fun sty Id => (T.elements sty)[Id.toNat]?.filter (T.isStructTy ·)) baseTy
  else none

/-- `checkValidStructName`, with the names of literal structs. -/
def checkValidStructName (names : Key → Option String) (t : Ty) : Bool :=
  T.isStructTy t &&
    if T.isLiteral t then
      match names (T.typeHash t) with
      | some name => !containsSub name ".union" && !containsSub name ".anon"
      | none => false
    else !containsSub (T.getStructName t) ".union" && !containsSub (T.getStructName t) ".anon"

end TypeTable

/-- `typeNameIdxHash` of a name. -/
def typeNameIdxHash (Ty_name : String) (Idx : ℤ) : Key := .idx (.name Ty_name) Idx

/-- Add a value to the set of a key, in a map from keys to sets of keys. -/
def addEntry (map : List (Key × Key)) (k v : Key) : List (Key × Key) :=
  if (k, v) ∈ map then map else map ++ [(k, v)]

/-- The set of a key. -/
def entries (map : List (Key × Key)) (k : Key) : List Key :=
  (map.filter (·.1 = k)).map Prod.snd

@[simp] theorem mem_entries {map : List (Key × Key)} {k v : Key} :
    v ∈ entries map k ↔ (k, v) ∈ map := by
  simp [entries]

@[simp] theorem mem_addEntry {map : List (Key × Key)} {k v : Key} {e : Key × Key} :
    e ∈ addEntry map k v ↔ e ∈ map ∨ e = (k, v) := by
  unfold addEntry
  split
  case isTrue h =>
    refine ⟨Or.inl, ?_⟩
    rintro (he | rfl)
    · exact he
    · exact h
  · simp

/-- The maps. -/
structure LayerMaps where
  typeFuncsMap : Key → Finset Func := fun _ => ∅
  typeTransitMap : List (Key × Key) := []
  typeConfineMap : List (Key × Key) := []
  hashTypeMap : Key → Option Ty := fun _ => none
  hashIDTypeMap : Key → Option CompositeType := fun _ => none
  typeEscapeSet : Finset Key := ∅
  escapedStoreMap : Key → Finset Value := fun _ => ∅
  /-- the names that debug information gives to literal structs -/
  Global_Literal_Struct_Map : Key → Option String := fun _ => none
  /-- the functions recorded under their own type only -/
  Global_EmptyTy_Funcs : Key → Finset Func := fun _ => ∅
  sigFuncsMap : Key → Finset Func := fun _ => ∅
  Globa_Union_Set : Finset Key := ∅

namespace LayerMaps

section
variable (T : TypeTable) (m : LayerMaps)

/-- The name under which layers of a type are recorded. -/
def layerName (t : Ty) : String :=
  if T.isStructTy t then
    if T.isLiteral t then (m.Global_Literal_Struct_Map (T.typeHash t)).getD ""
    else parseIdentifiedStructName (T.getStructName t)
  else ""

/-- The hash under which a layer is recorded. -/
def layerHash (CT : CompositeType) : Key := typeNameIdxHash (m.layerName T CT.1) CT.2

/-! ## Recording -/

/-- `transitType`: `FromTy` is cast to `ToTy`. -/
def transitType (ToTy FromTy : Ty) (ToIdx FromIdx : ℤ) : LayerMaps :=
  let m := if ToIdx ≠ -1 ∧ FromIdx ≠ -1 then
      { m with
        typeTransitMap :=
          addEntry m.typeTransitMap (T.typeIdxHash ToTy ToIdx) (T.typeIdxHash FromTy FromIdx)
        hashIDTypeMap := Function.update
          (Function.update m.hashIDTypeMap (T.typeIdxHash ToTy ToIdx) (some (ToTy, ToIdx)))
          (T.typeIdxHash FromTy FromIdx) (some (FromTy, FromIdx)) }
    else
      { m with typeTransitMap := addEntry m.typeTransitMap (T.typeHash ToTy) (T.typeHash FromTy) }
  { m with
    hashTypeMap := Function.update (Function.update m.hashTypeMap (T.typeHash ToTy) (some ToTy))
      (T.typeHash FromTy) (some FromTy) }

/-- The loop body of `propagateType`: the layer `From` flows into the layer `To`. -/
def confine (From : CompositeType) (m : LayerMaps) (To : CompositeType) : LayerMaps :=
  if To = From then m
  else
    { m with
      typeConfineMap := addEntry m.typeConfineMap (m.layerHash T To) (m.layerHash T From)
      hashIDTypeMap := Function.update
        (Function.update m.hashIDTypeMap (m.layerHash T To) (some To)) (m.layerHash T From)
        (some From) }

/-- `propagateType`, given the layers of the pointer. -/
def propagateType (TyList : List CompositeType) (FromTy : Ty) (FromIdx : ℤ) : LayerMaps :=
  TyList.foldl (confine T (FromTy, FromIdx)) m

/-- `escapeType`. -/
def escapeType (SI : Value) (t : Ty) (Idx : ℤ) : LayerMaps :=
  if T.isStructTy t then
    { m with
      typeEscapeSet := insert (m.layerHash T (t, Idx)) m.typeEscapeSet
      hashIDTypeMap := Function.update m.hashIDTypeMap (m.layerHash T (t, Idx)) (some (t, Idx))
      escapedStoreMap := Function.update m.escapedStoreMap (m.layerHash T (t, Idx))
        (insert SI (m.escapedStoreMap (m.layerHash T (t, Idx)))) }
  else m

/-- Record a function under a layer. -/
def recordLayer (F : Func) (CT : CompositeType) : LayerMaps :=
  { m with
    typeFuncsMap := Function.update m.typeFuncsMap (m.layerHash T CT)
      (insert F (m.typeFuncsMap (m.layerHash T CT)))
    hashIDTypeMap := Function.update m.hashIDTypeMap (m.layerHash T CT) (some CT) }

/-- Record a function under its own type. -/
def recordEmptyTy (funcHash : Key) (F : Func) : LayerMaps :=
  { m with
    Global_EmptyTy_Funcs := Function.update m.Global_EmptyTy_Funcs funcHash
      (insert F (m.Global_EmptyTy_Funcs funcHash)) }

end

/-! ## Well-keyed maps -/

/-- A layer fits a hash: the hash is computed from it, and from its name only for
    a struct. -/
def Fits (T : TypeTable) (m : LayerMaps) (k : Key) (CT : CompositeType) : Prop :=
  k = T.typeIdxHash CT.1 CT.2 ∨ T.isStructTy CT.1 = true ∧ k = m.layerHash T CT

/-- The two maps from hashes to types give back what a hash was computed from. -/
structure WellKeyed (T : TypeTable) (m : LayerMaps) : Prop where
  type : ∀ k t, m.hashTypeMap k = some t → k = T.typeHash t
  layer : ∀ k CT, m.hashIDTypeMap k = some CT → Fits T m k CT

section
variable {T : TypeTable} {m : LayerMaps}

theorem layerHash_congr {m' : LayerMaps}
    (h : m'.Global_Literal_Struct_Map = m.Global_Literal_Struct_Map) :
    m'.layerHash T = m.layerHash T := by
  funext CT
  rw [layerHash, layerHash, layerName, layerName, h]

theorem wellKeyed_empty (names : Key → Option String) :
    WellKeyed T { Global_Literal_Struct_Map := names } where
  type k t h := by cases h
  layer k CT h := by cases h

/-- An entry that fits its key keeps the map well keyed. -/
theorem layer_update {map : Key → Option CompositeType} {k₀ : Key} {CT₀ : CompositeType}
    (h : ∀ k CT, map k = some CT → Fits T m k CT) (hk₀ : Fits T m k₀ CT₀) (k : Key)
    (CT : CompositeType) (hk : Function.update map k₀ (some CT₀) k = some CT) : Fits T m k CT := by
  rw [Function.update_apply] at hk
  split at hk
  case isTrue heq =>
    cases hk
    rwa [heq]
  · exact h k CT hk

theorem type_update {map : Key → Option Ty} (h : ∀ k t, map k = some t → k = T.typeHash t)
    (t₀ : Ty) (k : Key) (t : Ty) (hk : Function.update map (T.typeHash t₀) (some t₀) k = some t) :
    k = T.typeHash t := by
  rw [Function.update_apply] at hk
  split at hk
  case isTrue heq => cases hk; exact heq
  · exact h k t hk

theorem WellKeyed.transitType (h : WellKeyed T m) {ToTy FromTy : Ty} {ToIdx FromIdx : ℤ} :
    WellKeyed T (m.transitType T ToTy FromTy ToIdx FromIdx) := by
  unfold LayerMaps.transitType
  dsimp only
  refine ⟨type_update (type_update ?_ ToTy) FromTy, ?_⟩
  · split <;> exact h.type
  · split
    · exact layer_update (layer_update h.layer (Or.inl rfl)) (Or.inl rfl)
    · exact h.layer

theorem WellKeyed.confine (h : WellKeyed T m) {From To : CompositeType}
    (hTo : T.isStructTy To.1 = true) (hFrom : T.isStructTy From.1 = true) :
    WellKeyed T (confine T From m To) := by
  unfold LayerMaps.confine
  split
  · exact h
  · have hone : ∀ k CT, _ → Fits T m k CT := layer_update h.layer (Or.inr ⟨hTo, rfl⟩)
    exact ⟨h.type, layer_update hone (Or.inr ⟨hFrom, rfl⟩)⟩

end

end LayerMaps

end TFA
