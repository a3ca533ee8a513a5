/-
  Types and constants that are taken apart in step (`matchStructTypes` in `TypeBuilder.cc`).

  The two deques do not say which type a constant belongs to.  If a struct type and a constant
  have the same parts, except that the constant has integers of another width, arrays for
  fields of one kind, structs for arrays and undefined fillers, then the loop takes them apart
  together, from the outside to the inside and from left to right.

  * `InStep` says which types and constants these are, and which pairs leave a mark;
  * `visits_inStep`: types and constants in step leave the deques behind them as they were;
  * `matchStructTypes_inStep`: the traversal ends with both deques empty, and gives each
    literal struct without a name that of the first pair that has one for it.
-/
import TFA.TypeBuilder.MatchTypes

namespace TFA

open Iterate

namespace User

/-- The operands that `updateUserQueue` takes. -/
def fields (U : User) : List User := U.operands.filter (!·.isUndef)

end User

namespace IRType

/-- What a type gives a literal struct: a name, and the types of its parts. -/
def parts : IRType → Option (String × List IRType)
  | struct _ name elements =>
    if containsSub name "union." then none else some (parseIdentifiedStructName name, elements)
  | array element num => some ("Array", List.replicate (toUnsigned num) element)
  | _ => none

/-- Types of which nothing can be learned. -/
def skips : IRType → IRType → Bool
  | pointer _, pointer _ => true
  | function _, function _ => true
  | array _ num1, array _ num2 =>
    toUnsigned num1 = 0 ∨ toUnsigned num2 = 0 ∨ toUnsigned num2 ≠ toUnsigned num1
  | _, struct _ name _ => name ≠ ""
  | _, _ => false

end IRType

namespace MatchState

/-- What a pair leaves behind. -/
inductive Mark
  | name (hash : Key) (name : String)
  | union (hash : Key)

/-- A name is left where there is none, and is not empty. -/
def mark (s : MatchState) : Mark → MatchState
  | .name hash name =>
    if (s.Global_Literal_Struct_Map hash).isNone ∧ name ≠ "" then
      { s with
        Global_Literal_Struct_Map :=
          Function.update s.Global_Literal_Struct_Map hash (some name) }
    else s
  | .union hash => { s with Globa_Union_Set := insert hash s.Globa_Union_Set }

/-- With more in front of the deques. -/
def push (s : MatchState) (ts : List IRType) (us : List User) : MatchState :=
  { s with Ty1_queue := ts ++ s.Ty1_queue, U2_queue := us ++ s.U2_queue }

/-- The first name for a hash. -/
def firstName (hash : Key) : List Mark → Option String
  | [] => none
  | .name hash' name :: ms => if hash' = hash ∧ name ≠ "" then some name else firstName hash ms
  | .union _ :: ms => firstName hash ms

variable (print : IRType → String)

/-- The types and the constants have the same parts, and these marks are left. -/
inductive InStep : List IRType → List User → List Mark → Prop
  | nil : InStep [] [] []
  | same {type1 ts u2 us ms} (hhash : typeHash print type1 = typeHash print u2.getType)
      (rest : InStep ts us ms) : InStep (type1 :: ts) (u2 :: us) ms
  | skip {type1 ts u2 us ms} (hskips : type1.skips u2.getType = true) (rest : InStep ts us ms) :
      InStep (type1 :: ts) (u2 :: us) ms
  /-- the constant is the first of those that an integer is made up of -/
  | split {bitwidth1 bitwidth2 ts u2 us ms} (htype2 : u2.getType = .integer bitwidth2)
      (hhash : typeHash print (.integer bitwidth1) ≠ typeHash print (.integer bitwidth2))
      (rest : InStep (List.replicate (bitwidth1 / bitwidth2) (.integer bitwidth2) ++ ts)
        (u2 :: us) ms) :
      InStep (.integer bitwidth1 :: ts) (u2 :: us) ms
  /-- an array for some fields of one kind -/
  | flat {type1 flat ts u2 us ms subtype2} (htype2 : u2.getType = .array subtype2 (flat.length + 1))
      (hhash : typeHash print type1 ≠ typeHash print u2.getType)
      (harray : type1.isArrayTy = false) (hkind : type1.getTypeID = subtype2.getTypeID)
      (hflat : ∀ t ∈ flat, t.getTypeID = subtype2.getTypeID) (hlen : flat.length + 1 < 2 ^ 32)
      (rest : InStep ts us ms) :
      InStep (type1 :: (flat ++ ts)) (u2 :: us) ms
  | union {id1 name1 elements1 ts u2 us ms id2 elements2}
      (htype2 : u2.getType = .struct id2 "" elements2)
      (hhash : typeHash print (.struct id1 name1 elements1) ≠ typeHash print u2.getType)
      (hunion : containsSub name1 "union." = true) (rest : InStep ts us ms) :
      InStep (.struct id1 name1 elements1 :: ts) (u2 :: us)
        (.name (typeHash print u2.getType) (parseIdentifiedStructName name1) ::
          .union (typeHash print u2.getType) :: ms)
  /-- a literal struct for a struct or an array -/
  | opened {type1 ts u2 us ms ms' id2 elements2 name elements}
      (htype2 : u2.getType = .struct id2 "" elements2)
      (hhash : typeHash print type1 ≠ typeHash print u2.getType)
      (hparts : type1.parts = some (name, elements)) (hfields : u2.fields ≠ [])
      (inner : InStep elements u2.fields ms) (rest : InStep ts us ms') :
      InStep (type1 :: ts) (u2 :: us) (.name (typeHash print u2.getType) name :: (ms ++ ms'))
  | undefined {type1 ts u2 us ms id2 elements2 name elements}
      (htype2 : u2.getType = .struct id2 "" elements2)
      (hhash : typeHash print type1 ≠ typeHash print u2.getType)
      (hparts : type1.parts = some (name, elements)) (hfields : u2.fields = [])
      (rest : InStep ts us ms) :
      InStep (type1 :: ts) (u2 :: us) (.name (typeHash print u2.getType) name :: ms)
  /-- of arrays of one length the first elements -/
  | first {subtype1 num1 ts u2 us OU operands ms ms' subtype2 num2}
      (htype2 : u2.getType = .array subtype2 num2)
      (hhash : typeHash print (.array subtype1 num1) ≠ typeHash print u2.getType)
      (hnum : toUnsigned num2 = toUnsigned num1) (hpos : toUnsigned num1 ≠ 0)
      (hoperands : u2.operands = OU :: operands) (inner : InStep [subtype1] [OU] ms)
      (rest : InStep ts us ms') :
      InStep (.array subtype1 num1 :: ts) (u2 :: us) (ms ++ ms')

section
variable {print} {s : MatchState} {ts TS : List IRType} {us US : List User} {ms : List Mark}
  {type1 type2 : IRType} {u2 : User} {name : String} {hash : Key}

theorem recordName_eq : s.recordName print type2 name =
    s.mark (.name (typeHash print type2) name) := rfl

/-! ## One pair -/

theorem matchTypes_same (hhash : typeHash print type1 = typeHash print u2.getType) :
    s.matchTypes print type1 u2 = .inl s := by
  unfold matchTypes
  rw [if_pos hhash]

theorem matchTypes_skip (hskips : type1.skips u2.getType = true) :
    s.matchTypes print type1 u2 = .inl s := by
  obtain ⟨type2, undef, operands⟩ := u2
  unfold matchTypes
  split
  · rfl
  · simp only [User.getType] at hskips ⊢
    cases type2 with
    | integer bitwidth2 => cases type1 <;> simp [IRType.skips] at hskips
    | pointer id => cases type1 <;> simp_all [IRType.skips]
    | function id => cases type1 <;> simp_all [IRType.skips]
    | other typeID id => cases type1 <;> simp [IRType.skips] at hskips
    | struct id name elements =>
      have hname : name ≠ "" := by
        cases type1 <;> simpa [IRType.skips] using hskips
      cases type1 <;> simp [matchStruct, hname]
    | array subtype2 num2 =>
      cases type1 with
      | array subtype1 num1 =>
        simp only [IRType.skips, decide_eq_true_eq] at hskips
        simp only [matchArray]
        split
        · rfl
        · rw [if_neg]
          intro hnum
          tauto
      | _ => simp [IRType.skips] at hskips

theorem popSame_append {flat : List IRType} {typeID : TypeID}
    (hflat : ∀ t ∈ flat, t.getTypeID = typeID) :
    popSame typeID flat.length (flat ++ ts) = some ts := by
  induction flat with
  | nil => rfl
  | cons t flat ih =>
    rw [List.length_cons, List.cons_append, popSame, if_neg (by simp [hflat t (by simp)])]
    exact ih fun t' ht' => hflat t' (by simp [ht'])

theorem matchTypes_split {bitwidth1 bitwidth2 : ℕ} (htype2 : u2.getType = .integer bitwidth2)
    (hhash : typeHash print (.integer bitwidth1) ≠ typeHash print (.integer bitwidth2)) :
    s.matchTypes print (.integer bitwidth1) u2 = .inl { s with
      Ty1_queue := List.replicate (bitwidth1 / bitwidth2) (.integer bitwidth2) ++ s.Ty1_queue
      U2_queue := u2 :: s.U2_queue } := by
  have hne : bitwidth1 ≠ bitwidth2 := by
    rintro rfl
    exact hhash rfl
  unfold matchTypes
  simp only [htype2, if_neg hhash, if_neg hne]

theorem matchTypes_flat {flat : List IRType} {subtype2 : IRType} {names unions}
    (htype2 : u2.getType = .array subtype2 (flat.length + 1))
    (hhash : typeHash print type1 ≠ typeHash print u2.getType)
    (harray : type1.isArrayTy = false) (hkind : type1.getTypeID = subtype2.getTypeID)
    (hflat : ∀ t ∈ flat, t.getTypeID = subtype2.getTypeID) (hlen : flat.length + 1 < 2 ^ 32) :
    (MatchState.mk (flat ++ ts) us names unions).matchTypes print type1 u2 =
      .inl ⟨ts, us, names, unions⟩ := by
  have hnum : toUnsigned (toUnsigned (flat.length + 1) + (2 ^ 32 - 1)) = flat.length := by
    unfold toUnsigned
    omega
  have hpop : updateQueues type1 subtype2 (flat.length + 1) (flat ++ ts) = some ts := by
    rw [updateQueues, if_neg (by simp [hkind]), hnum, popSame_append hflat]
  rw [htype2] at hhash
  unfold matchTypes
  cases type1 with
  | array subtype1 num1 => cases harray
  | _ => simp only [htype2, if_neg hhash, matchArray, hpop]

theorem matchTypes_union {id1 id2 : ℕ} {name1 : String} {elements1 elements2 : List IRType}
    (htype2 : u2.getType = .struct id2 "" elements2)
    (hhash : typeHash print (.struct id1 name1 elements1) ≠ typeHash print u2.getType)
    (hunion : containsSub name1 "union." = true) :
    s.matchTypes print (.struct id1 name1 elements1) u2 =
      .inl ((s.mark (.name (typeHash print u2.getType) (parseIdentifiedStructName name1))).mark
        (.union (typeHash print u2.getType))) := by
  rw [htype2] at hhash ⊢
  unfold matchTypes
  simp only [htype2, if_neg hhash, matchStruct, hunion, if_true, recordName_eq]
  rfl

/-- A literal struct is named, and opened if it has parts. -/
theorem matchTypes_parts {id2 : ℕ} {elements elements2 : List IRType}
    (htype2 : u2.getType = .struct id2 "" elements2)
    (hhash : typeHash print type1 ≠ typeHash print u2.getType)
    (hparts : type1.parts = some (name, elements)) :
    s.matchTypes print type1 u2 =
      .inl (if u2.fields = [] then s.mark (.name (typeHash print u2.getType) name)
        else (s.mark (.name (typeHash print u2.getType) name)).push elements u2.fields) := by
  have hdeques := @recordName_deques print s u2.getType name
  rw [recordName_eq] at hdeques
  have hupdate : updateUserQueue u2 s.U2_queue =
      if u2.fields = [] then none else some (u2.fields ++ s.U2_queue) := by
    unfold updateUserQueue User.fields
    cases u2.operands.filter (!·.isUndef) <;> rfl
  rw [htype2] at hhash hdeques ⊢
  unfold matchTypes
  cases type1 with
  | struct id1 name1 elements1 =>
    by_cases hunion : containsSub name1 "union." = true
    · simp [IRType.parts, hunion] at hparts
    · simp only [IRType.parts, hunion, if_false, Option.some.injEq, Prod.mk.injEq,
        Bool.false_eq_true] at hparts
      obtain ⟨rfl, rfl⟩ := hparts
      simp only [htype2, if_neg hhash, matchStruct, recordName_eq, hdeques, hunion, hupdate,
        updateTypeQueue]
      by_cases hfields : u2.fields = [] <;> simp [hfields, push, hdeques]
  | array subtype1 num1 =>
    simp only [IRType.parts, Option.some.injEq, Prod.mk.injEq] at hparts
    obtain ⟨rfl, rfl⟩ := hparts
    simp only [htype2, if_neg hhash, matchStruct, recordName_eq, hdeques, hupdate]
    by_cases hfields : u2.fields = [] <;> simp [hfields, push, hdeques]
  | _ => simp [IRType.parts] at hparts

theorem matchTypes_first {subtype1 subtype2 : IRType} {num1 num2 : ℕ} {OU : User}
    {operands : List User} (htype2 : u2.getType = .array subtype2 num2)
    (hhash : typeHash print (.array subtype1 num1) ≠ typeHash print u2.getType)
    (hnum : toUnsigned num2 = toUnsigned num1) (hpos : toUnsigned num1 ≠ 0)
    (hoperands : u2.operands = OU :: operands) :
    s.matchTypes print (.array subtype1 num1) u2 =
      .inl { s with Ty1_queue := subtype1 :: s.Ty1_queue, U2_queue := OU :: s.U2_queue } := by
  rw [htype2] at hhash
  unfold matchTypes
  simp [htype2, hhash, matchArray, hnum, hpos, hoperands]

/-! ## Types and constants in step -/

/-- Marks do not depend on the deques. -/
theorem mark_push (m : Mark) : (s.push ts us).mark m = (s.mark m).push ts us := by
  cases m with
  | name hash name =>
    unfold mark push
    dsimp only
    split <;> rfl
  | union hash => rfl

theorem foldl_mark_push : ms.foldl mark (s.push ts us) = (ms.foldl mark s).push ts us := by
  induction ms generalizing s with
  | nil => rfl
  | cons m ms ih => rw [List.foldl_cons, mark_push, ih, List.foldl_cons]

theorem visits_head {s' s'' : MatchState}
    (h : (s.push ts us).matchTypes print type1 u2 = .inl s')
    (hvisits : Visits (iterate print) s' s'') :
    Visits (iterate print) (s.push (type1 :: ts) (u2 :: us)) s'' :=
  .head h hvisits

/-- **In step.**  The loop takes off what is in step and leaves its marks. -/
theorem visits_inStep (h : InStep print ts us ms) (s : MatchState) :
    Visits (iterate print) (s.push ts us) (ms.foldl mark s) := by
  induction h generalizing s with
  | nil => exact .refl
  | same hhash _ ih => exact visits_head (matchTypes_same hhash) (ih s)
  | skip hskips _ ih => exact visits_head (matchTypes_skip hskips) (ih s)
  | split htype2 hhash _ ih =>
    refine visits_head (matchTypes_split htype2 hhash) ?_
    have hrest := ih s
    simp only [push, List.append_assoc, List.cons_append] at hrest ⊢
    exact hrest
  | @flat type1 flat ts u2 us ms subtype2 htype2 hhash harray hkind hflat hlen _ ih =>
    have hpair := @matchTypes_flat print (ts ++ s.Ty1_queue) (us ++ s.U2_queue) type1 u2 flat
      subtype2 s.Global_Literal_Struct_Map s.Globa_Union_Set htype2 hhash harray hkind hflat hlen
    rw [← List.append_assoc] at hpair
    exact visits_head hpair (ih s)
  | @union _ _ _ _ u2 _ _ _ _ htype2 hhash hunion _ ih =>
    refine visits_head (matchTypes_union htype2 hhash hunion) ?_
    rw [mark_push, mark_push]
    exact ih _
  | @opened type1 ts u2 us ms ms' _ _ name elements htype2 hhash hparts hfields _ _ ihinner ih =>
    refine visits_head (matchTypes_parts htype2 hhash hparts) ?_
    rw [if_neg hfields, mark_push, List.foldl_cons, List.foldl_append]
    -- first what is inside, then what comes after it
    have hinner := ihinner ((s.mark (.name (typeHash print u2.getType) name)).push ts us)
    rw [foldl_mark_push] at hinner
    exact hinner.trans (ih _)
  | undefined htype2 hhash hparts hfields _ ih =>
    refine visits_head (matchTypes_parts htype2 hhash hparts) ?_
    rw [if_pos hfields, mark_push]
    exact ih _
  | @first subtype1 _ ts _ us OU _ ms ms' _ _ htype2 hhash hnum hpos hoperands _ _ ihinner ih =>
    refine visits_head (matchTypes_first htype2 hhash hnum hpos hoperands) ?_
    rw [List.foldl_append]
    have hinner := ihinner (s.push ts us)
    rw [foldl_mark_push] at hinner
    exact hinner.trans (ih _)

/-! ## What the marks come to -/

theorem deques_foldl_mark : (ms.foldl mark s).Ty1_queue = s.Ty1_queue ∧
    (ms.foldl mark s).U2_queue = s.U2_queue := by
  induction ms generalizing s with
  | nil => exact ⟨rfl, rfl⟩
  | cons m ms ih =>
    have hmark : (s.mark m).Ty1_queue = s.Ty1_queue ∧ (s.mark m).U2_queue = s.U2_queue := by
      cases m with
      | name hash name =>
        unfold mark
        dsimp only
        split <;> exact ⟨rfl, rfl⟩
      | union hash => exact ⟨rfl, rfl⟩
    rw [List.foldl_cons, ih.1, ih.2]
    exact hmark

theorem exists_firstName (h : .name hash name ∈ ms) (hne : name ≠ "") :
    ∃ name', firstName hash ms = some name' := by
  induction ms with
  | nil => cases h
  | cons m ms ih =>
    cases m with
    | union hash' => exact ih (by simpa using h)
    | name hash' name' =>
      rw [firstName]
      split
      · exact ⟨name', rfl⟩
      case isFalse hother =>
        rcases List.mem_cons.1 h with heq | h
        · obtain ⟨rfl, rfl⟩ := Mark.name.inj heq
          exact absurd ⟨rfl, hne⟩ hother
        · exact ih h

/-- The first mark with a name counts, if there was no name before. -/
theorem names_foldl_mark : (ms.foldl mark s).Global_Literal_Struct_Map hash =
    (s.Global_Literal_Struct_Map hash).or (firstName hash ms) := by
  induction ms generalizing s with
  | nil => simp [firstName]
  | cons m ms ih =>
    rw [List.foldl_cons, ih]
    cases m with
    | union hash' => rfl
    | name hash' name =>
      rw [firstName, mark]
      by_cases hname : name = ""
      · simp [hname]
      · by_cases hhash : hash' = hash
        · subst hhash
          cases hmap : s.Global_Literal_Struct_Map hash' <;> simp [hname, hmap]
        · cases hmap : s.Global_Literal_Struct_Map hash' <;>
            simp [hname, hhash, Function.update_of_ne (Ne.symm hhash)]

end

/-- The unions among the marks. -/
def unions (ms : List Mark) : Finset Key :=
  (ms.filterMap fun m => match m with | .union hash => some hash | _ => none).toFinset

theorem unions_foldl_mark {s : MatchState} {ms : List Mark} :
    (ms.foldl mark s).Globa_Union_Set = s.Globa_Union_Set ∪ unions ms := by
  induction ms generalizing s with
  | nil => simp [unions]
  | cons m ms ih =>
    rw [List.foldl_cons, ih]
    cases m with
    | union hash =>
      ext k
      simp [unions, mark]
    | name hash name =>
      unfold mark
      dsimp only
      split <;> simp [unions]

/-- The traversal of a type and a constant in step ends with the marks. -/
theorem endsWith_inStep {print : IRType → String} {s : MatchState} {identifiedTy : IRType}
    {U : User} {ms : List Mark} {Q : MatchResult → Prop}
    (h : InStep print [identifiedTy] [U] ms) :
    EndsWith (iterate print) Q { s with Ty1_queue := [identifiedTy], U2_queue := [U] } ↔
      Q (.finished (ms.foldl mark { s with Ty1_queue := [], U2_queue := [] })) := by
  have hend : iterate print (ms.foldl mark { s with Ty1_queue := [], U2_queue := [] }) =
      .inr (.finished (ms.foldl mark { s with Ty1_queue := [], U2_queue := [] })) := by
    unfold iterate
    rw [deques_foldl_mark.1]
  exact (visits_inStep h { s with Ty1_queue := [], U2_queue := [] }).endsWith_iff.trans
    (endsWith_end hend)

/-- **Matching in step.**  The traversal ends with both deques empty; names that were there
    stay, and the others are the first ones that a pair has for the hash. -/
theorem matchStructTypes_inStep {print : IRType → String} {identifiedTy : IRType} {U : User}
    {ms : List Mark} (h : InStep print [identifiedTy] [U] ms) (s : MatchState) :
    ∃ fuel s', matchStructTypes print s fuel identifiedTy U = some (.finished s') ∧
      s'.Ty1_queue = [] ∧ s'.U2_queue = [] ∧
      (∀ hash, s'.Global_Literal_Struct_Map hash =
        (s.Global_Literal_Struct_Map hash).or (firstName hash ms)) ∧
      s'.Globa_Union_Set = s.Globa_Union_Set ∪ unions ms := by
  obtain ⟨fuel, r, hrun, rfl⟩ := (endsWith_inStep (s := s) h).2 rfl
  exact ⟨fuel, _, hrun, deques_foldl_mark.1, deques_foldl_mark.2, fun _ => names_foldl_mark,
    unions_foldl_mark⟩

/-! ## A device with its operations -/

/-- Texts for types, with the number of elements of a literal struct. -/
def printShape : IRType → String
  | .struct _ name elements => if name = "" then "fields" ++ toString elements.length else name
  | t => printType t

/-- `%struct.Dev = type { i16, %struct.Ops }` and `%struct.Ops = type { ptr, ptr }`. -/
def dev : IRType :=
  .struct 0 "struct.Dev" [.integer 16, .struct 1 "struct.Ops" [.pointer 0, .pointer 0]]

/-- `{ ptr, ptr } { ptr @f, ptr @g }`. -/
def opsConstant : User :=
  .mk (.struct 3 "" [.pointer 0, .pointer 0]) false
    [.mk (.pointer 0) false [], .mk (.pointer 0) false []]

/-- `{ i8 1, i8 2, { ptr, ptr } { ptr @f, ptr @g }, [4 x i8] undef }`. -/
def devConstant : User :=
  .mk (.struct 2 "" [.integer 8, .integer 8, opsConstant.getType, .array (.integer 8) 4]) false
    [.mk (.integer 8) false [], .mk (.integer 8) false [], opsConstant,
      .mk (.array (.integer 8) 4) true []]

theorem inStep_ops : InStep printShape [.struct 1 "struct.Ops" [.pointer 0, .pointer 0]]
    [opsConstant] [.name (typeHash printShape opsConstant.getType) "Ops"] := by
  have hfields : InStep printShape [.pointer 0, .pointer 0] opsConstant.fields [] :=
    .same rfl (.same rfl .nil)
  exact .opened rfl (by decide) rfl (by decide) hfields .nil

/-- The number of 16 bits is in two constants, and the filler is passed over. -/
theorem inStep_dev : InStep printShape [dev] [devConstant]
    [.name (typeHash printShape devConstant.getType) "Dev",
      .name (typeHash printShape opsConstant.getType) "Ops"] := by
  have hfields : InStep printShape
      [.integer 16, .struct 1 "struct.Ops" [.pointer 0, .pointer 0]] devConstant.fields
      [.name (typeHash printShape opsConstant.getType) "Ops"] :=
    .split rfl (by decide) (.same rfl (.same rfl inStep_ops))
  exact .opened rfl (by decide) rfl (by decide) hfields .nil

theorem matchStructTypes_inStep_dev : ∃ fuel s',
    matchStructTypes printShape ⟨[], [], fun _ => none, ∅⟩ fuel dev devConstant =
        some (.finished s') ∧
      s'.Global_Literal_Struct_Map (.type "fields4") = some "Dev" ∧
      s'.Global_Literal_Struct_Map (.type "fields2") = some "Ops" := by
  obtain ⟨fuel, s', hrun, -, -, hnames, -⟩ :=
    matchStructTypes_inStep inStep_dev ⟨[], [], fun _ => none, ∅⟩
  refine ⟨fuel, s', hrun, ?_, ?_⟩
  · rw [hnames]
    decide
  · rw [hnames]
    decide

end MatchState

end TFA
