/-
  Walks along debug types (`checkGlobalDebugInfo` in `TypeBuilder.cc` and `getRealType` in
  `DebugInfoHandler.cc`).

  Both loops go from a derived type to its base type, until they come to a type that they
  know.

  * `checkStep` and `realStep` are the bodies of the loops;
  * `stripped`: the type behind the derived ones;
  * `checkGlobalDebugInfo_iff`, `getRealType_iff`: which types behind the derived ones end
    which loop;
  * `walksSafely_iff`: both loops end safely exactly if it is a basic type or a composite one,
    other than an array without a type of its elements.
-/
import TFA.CallGraph.LayerMaps
import TFA.Lib.Iterate

namespace TFA

open Iterate

/-- A debug type; the base type of a derived or composite one may be absent. -/
inductive DIType where
  | derived (baseType : Option DIType)
  | basic
  | composite (tag : ℕ) (name : String) (baseType : Option DIType)
  | subroutine
  | string
  | other (kind : ℕ)

namespace DIType

/-- `DW_TAG_array_type`. -/
abbrev arrayTag : ℕ := 1

/-- `DW_TAG_structure_type`. -/
abbrev structureTag : ℕ := 19

/-! ## `checkGlobalDebugInfo` -/

/-- The maps that are written. -/
structure DebugMaps where
  structDebugInfoMap : Key → Option DIType
  Global_Literal_Struct_Map : Key → Option String
  ArrayBaseDebugTypeMap : Key → Option String

/-- How a loop ends. -/
inductive WalkResult (α : Type) where
  | returns (a : α)
  /-- a `dyn_cast` of a type that is absent -/
  | crash

/-- The name of the elements of an array. -/
def elementName (Tyhash : Key) (maps : DebugMaps) : DIType → DebugMaps
  | composite tag typeName _ =>
    if tag = structureTag ∧ typeName ≠ "" then
      { maps with
        ArrayBaseDebugTypeMap :=
          Function.update maps.ArrayBaseDebugTypeMap Tyhash (some typeName) }
    else maps
  | _ => maps

/-- The base type of an array, or the base type of this one if it is derived. -/
def skipDerived : Option DIType → Option DIType
  | some (derived baseType) => baseType
  | DITy => DITy

/-- A composite type ends the loop. -/
def checkComposite (Tyhash : Key) (maps : DebugMaps) (tag : ℕ) (typeName : String)
    (baseType : Option DIType) : WalkResult DebugMaps :=
  let recorded : DebugMaps :=
    { maps with
      structDebugInfoMap := Function.update maps.structDebugInfoMap Tyhash
        (some (composite tag typeName baseType)) }
  if tag = arrayTag then
    let recorded : DebugMaps :=
      { recorded with
        Global_Literal_Struct_Map :=
          Function.update recorded.Global_Literal_Struct_Map Tyhash (some "Array") }
    match skipDerived baseType with
    | none => .crash
    | some element => .returns (elementName Tyhash recorded element)
  else if tag = structureTag then
    if typeName ≠ "" then
      .returns { recorded with
        Global_Literal_Struct_Map :=
          Function.update recorded.Global_Literal_Struct_Map Tyhash (some typeName) }
    else .returns recorded
  else .returns maps

/-- One iteration, or the end of the loop. -/
def checkStep (Tyhash : Key) (maps : DebugMaps) :
    Option DIType → Option DIType ⊕ WalkResult DebugMaps
  | none => .inr .crash
  | some (derived baseType) => .inl baseType
  | some (composite tag typeName baseType) =>
    .inr (checkComposite Tyhash maps tag typeName baseType)
  | some basic => .inr (.returns maps)
  | some subroutine => .inr (.returns maps)
  -- no progress
  | some string => .inl (some string)
  | some (other kind) => .inl (some (other kind))

/-- The loop of `checkGlobalDebugInfo`, for the type of a variable. -/
def checkGlobalDebugInfo (Tyhash : Key) (maps : DebugMaps) (fuel : ℕ) (DITy : DIType) :
    Option (WalkResult DebugMaps) :=
  run (checkStep Tyhash maps) fuel (some DITy)

/-! ## `getRealType` -/

/-- What the loop says about a variable. -/
inductive RealType where
  /-- on to the next call -/
  | next
  /-- `getRealType` returns a type or `NULL`, which may count a definition that is missing -/
  | returns (type : Option Ty) (missing : Bool)

/-- A composite type ends the loop. -/
def realComposite (Global_Literal_Struct_Name_Map : String → Option Ty) (tag : ℕ)
    (typeName : String) : RealType :=
  if tag ≠ structureTag then .returns none false
  else
    match Global_Literal_Struct_Name_Map ("struct." ++ typeName) with
    | some type => .returns (some type) false
    | none => .returns none true

/-- One iteration, or the end of the loop. -/
def realStep (structs : String → Option Ty) :
    Option DIType → Option DIType ⊕ WalkResult RealType
  | none => .inr (.returns .next)
  | some (derived baseType) => .inl baseType
  | some basic => .inr (.returns .next)
  | some (composite tag typeName _) => .inr (.returns (realComposite structs tag typeName))
  -- no progress
  | some subroutine => .inl (some subroutine)
  | some string => .inl (some string)
  | some (other kind) => .inl (some (other kind))

/-- The loop of `getRealType`, for the type of a variable. -/
def getRealType (structs : String → Option Ty) (fuel : ℕ) (DITy : DIType) :
    Option (WalkResult RealType) :=
  run (realStep structs) fuel (some DITy)

/-! ## Which types end the loops -/

/-- The type behind the derived ones, if it is there. -/
def stripped : DIType → Option DIType
  | derived none => none
  | derived (some DITy) => stripped DITy
  | DITy => some DITy

/-- A loop ends, and not with an absent type. -/
def Safe {α : Type} : WalkResult α → Prop
  | .returns _ => True
  | .crash => False

/-- Both loops end and inspect no absent type. -/
def WalksSafely (Tyhash : Key) (maps : DebugMaps) (structs : String → Option Ty)
    (DITy : DIType) : Prop :=
  (∃ fuel r, checkGlobalDebugInfo Tyhash maps fuel DITy = some r ∧ Safe r) ∧
    ∃ fuel r, getRealType structs fuel DITy = some r ∧ Safe r

/-- An array has a type of its elements. -/
def HasElementType (tag : ℕ) (baseType : Option DIType) : Prop :=
  tag = arrayTag → skipDerived baseType ≠ none

/-- The types that end the loop of `checkGlobalDebugInfo`. -/
def EndsCheck : Option DIType → Prop
  | some basic | some subroutine => True
  | some (composite tag _ baseType) => HasElementType tag baseType
  | _ => False

/-- The types that end the loop of `getRealType`. -/
def EndsReal : Option DIType → Prop
  | none | some basic | some (composite _ _ _) => True
  | _ => False

/-- The types that end both loops. -/
def EndsBoth : Option DIType → Prop
  | some basic => True
  | some (composite tag _ baseType) => HasElementType tag baseType
  | _ => False

section
variable {Tyhash : Key} {maps : DebugMaps} {structs : String → Option Ty} {tag : ℕ}
  {typeName : String} {baseType : Option DIType}

theorem safe_checkComposite_iff :
    Safe (checkComposite Tyhash maps tag typeName baseType) ↔ HasElementType tag baseType := by
  unfold HasElementType checkComposite
  by_cases harray : tag = arrayTag
  · cases hbase : skipDerived baseType with
    | none => simp [harray, Safe]
    | some element => simp [harray, Safe]
  · dsimp only
    rw [if_neg harray]
    refine iff_of_true ?_ fun h => absurd h harray
    split
    · split <;> trivial
    · trivial

/-- Derived types are passed by. -/
theorem endsWith_stripped {ρ : Type} {step : Option DIType → Option DIType ⊕ ρ} {Q : ρ → Prop}
    (hderived : ∀ baseType, step (some (derived baseType)) = .inl baseType) (DITy : DIType) :
    EndsWith step Q (some DITy) ↔ EndsWith step Q DITy.stripped := by
  fun_induction stripped DITy with
  | case1 => exact endsWith_next (hderived none)
  | case2 DITy ih => exact (endsWith_next (hderived (some DITy))).trans ih
  | case3 => exact Iff.rfl

theorem stripped_ne_derived (DITy : DIType) : DITy.stripped ≠ some (derived baseType) := by
  fun_induction stripped DITy with
  | case1 => simp
  | case2 DITy ih => exact ih
  | case3 DITy hnone hsome =>
    rintro ⟨⟩
    cases baseType with
    | none => exact hnone rfl
    | some base => exact hsome base rfl

/-- **Globals.**  Which types behind the derived ones end the loop. -/
theorem checkGlobalDebugInfo_iff (Tyhash : Key) (maps : DebugMaps) (DITy : DIType) :
    (∃ fuel r, checkGlobalDebugInfo Tyhash maps fuel DITy = some r ∧ Safe r) ↔
      EndsCheck DITy.stripped := by
  refine (endsWith_stripped (fun _ => rfl) DITy).trans ?_
  have hend t r (h : checkStep Tyhash maps t = .inr r) :
      EndsWith (checkStep Tyhash maps) Safe t ↔ Safe r := endsWith_end h
  match hs : DITy.stripped with
  | none => exact hend none .crash rfl
  | some (derived baseType) => exact absurd hs (stripped_ne_derived DITy)
  | some (composite tag typeName baseType) =>
    exact (hend _ _ rfl).trans safe_checkComposite_iff
  | some basic => exact hend (some basic) (.returns maps) rfl
  | some subroutine => exact hend (some subroutine) (.returns maps) rfl
  | some string => exact iff_of_false (not_endsWith_of_stuck rfl) id
  | some (other kind) => exact iff_of_false (not_endsWith_of_stuck rfl) id

/-- **Locals.**  Which types behind the derived ones end the loop. -/
theorem getRealType_iff (structs : String → Option Ty) (DITy : DIType) :
    (∃ fuel r, getRealType structs fuel DITy = some r ∧ Safe r) ↔ EndsReal DITy.stripped := by
  refine (endsWith_stripped (fun _ => rfl) DITy).trans ?_
  have hend t r (h : realStep structs t = .inr r) :
      EndsWith (realStep structs) Safe t ↔ Safe r := endsWith_end h
  match hs : DITy.stripped with
  | none => exact hend none (.returns .next) rfl
  | some (derived baseType) => exact absurd hs (stripped_ne_derived DITy)
  | some (composite tag typeName baseType) =>
    exact hend (some (composite tag typeName baseType))
      (.returns (realComposite structs tag typeName)) rfl
  | some basic => exact hend (some basic) (.returns .next) rfl
  | some subroutine => exact iff_of_false (not_endsWith_of_stuck rfl) id
  | some string => exact iff_of_false (not_endsWith_of_stuck rfl) id
  | some (other kind) => exact iff_of_false (not_endsWith_of_stuck rfl) id

end

/-- **Walks.**  Both loops end safely exactly if the type behind the derived ones is basic, or
    composite and not an array without a type of its elements. -/
theorem walksSafely_iff (Tyhash : Key) (maps : DebugMaps) (structs : String → Option Ty)
    (DITy : DIType) : WalksSafely Tyhash maps structs DITy ↔ EndsBoth DITy.stripped := by
  unfold WalksSafely
  rw [checkGlobalDebugInfo_iff, getRealType_iff]
  cases DITy.stripped with
  | none => simp [EndsCheck, EndsReal, EndsBoth]
  | some DITy => cases DITy <;> simp [EndsCheck, EndsReal, EndsBoth]

/-- `void (*fp)(void)`: the type that is pointed to is a subroutine. -/
theorem functionPointer_stuck :
    ¬ ∀ (Tyhash : Key) (maps : DebugMaps) (structs : String → Option Ty) (DITy : DIType),
      WalksSafely Tyhash maps structs DITy := by
  intro h
  obtain ⟨-, hreal⟩ := h (.type "i8*") ⟨fun _ => none, fun _ => none, fun _ => none⟩
    (fun _ => none) (derived (some subroutine))
  simpa [stripped, EndsReal] using (getRealType_iff _ _).1 hreal

end DIType

end TFA
