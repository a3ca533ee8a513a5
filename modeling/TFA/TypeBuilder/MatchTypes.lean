/-
  Pairing a struct type with an initializer (`matchStructTypes` in `TypeBuilder.cc`).

  A deque of types and one of constants are taken apart together, to give names to the
  literal structs of the initializer.

  * `iterate` is the body of the loop, with `updateTypeQueue`, `updateUserQueue` and
    `updateQueues` as functions from one deque to the next;
  * `weight_iterate_lt`: the types that wait get lighter, so the loop ends;
  * `matchTypes_eq_inr`: the two ways in which a step reads what is not there;
  * `string_opened`: the first operand of a string is taken, which has none.
-/
import TFA.CallGraph.LayerMaps
import TFA.Lib.Iterate
import Mathlib.Tactic.Ring

namespace TFA

open Iterate

/-- An LLVM type; `id` tells types apart that have equal parts. -/
inductive IRType where
  | integer (bitwidth : ℕ)
  | pointer (id : ℕ)
  | function (id : ℕ)
  /-- with an empty name if it has none -/
  | struct (id : ℕ) (name : String) (elements : List IRType)
  | array (element : IRType) (num : ℕ)
  | other (typeID id : ℕ)

/-- The kinds of types. -/
inductive TypeID where
  | integer
  | pointer
  | function
  | struct
  | array
  | other (typeID : ℕ)
deriving DecidableEq

/-- A constant with its operands. -/
inductive User where
  | mk (type : IRType) (isUndef : Bool) (operands : List User)

namespace User

def getType : User → IRType
  | mk type _ _ => type

def isUndef : User → Bool
  | mk _ isUndef _ => isUndef

def operands : User → List User
  | mk _ _ operands => operands

end User

namespace IRType

/-- `getTypeID`. -/
def getTypeID : IRType → TypeID
  | integer _ => .integer
  | pointer _ => .pointer
  | function _ => .function
  | struct _ _ _ => .struct
  | array _ _ => .array
  | other typeID _ => .other typeID

def isArrayTy (t : IRType) : Bool := t.getTypeID = .array

end IRType

/-! ## The deques -/

/-- `updateTypeQueue`: the elements of a struct come first. -/
def updateTypeQueue (elements Ty_queue : List IRType) : List IRType := elements ++ Ty_queue

/-- `updateUserQueue`, which fails if there are only undefined operands. -/
def updateUserQueue (U : User) (U_queue : List User) : Option (List User) :=
  match U.operands.filter (!·.isUndef) with
  | [] => none
  | struct_fields => some (struct_fields ++ U_queue)

/-- The loop of `updateQueues`; it takes the front of an empty deque where there is no
    result. -/
def popSame (typeID : TypeID) : ℕ → List IRType → Option (List IRType)
  | 0, Ty_queue => some Ty_queue
  | _ + 1, [] => none
  | n + 1, type1 :: Ty_queue =>
    if typeID ≠ type1.getTypeID then some Ty_queue else popSame typeID n Ty_queue

/-- `updateQueues`; the number of elements less one is unsigned. -/
def updateQueues (Ty1 subtype2 : IRType) (num2 : ℕ) (Ty_queue : List IRType) :
    Option (List IRType) :=
  if subtype2.getTypeID ≠ Ty1.getTypeID then some Ty_queue
  else popSame subtype2.getTypeID (toUnsigned (toUnsigned num2 + (2 ^ 32 - 1))) Ty_queue

/-! ## The loop -/

/-- The deques and the maps of the context that the loop writes.  `Ty2_queue` is not read. -/
structure MatchState where
  Ty1_queue : List IRType
  U2_queue : List User
  Global_Literal_Struct_Map : Key → Option String
  Globa_Union_Set : Finset Key

/-- How the traversal ends. -/
inductive MatchResult where
  | finished (s : MatchState)
  /-- the first operand of a constant without operands -/
  | noOperand
  /-- the front of an empty deque -/
  | emptyDeque

namespace MatchState

section
variable (print : IRType → String) (s : MatchState)

/-- `typeHash`, of the printed type. -/
def typeHash (t : IRType) : Key := .type (print t)

/-- A name for a literal struct that has none so far. -/
def recordName (type2 : IRType) (name : String) : MatchState :=
  if (s.Global_Literal_Struct_Map (typeHash print type2)).isNone ∧ name ≠ "" then
    { s with
      Global_Literal_Struct_Map :=
        Function.update s.Global_Literal_Struct_Map (typeHash print type2) (some name) }
  else s

/-- A constant of the type of a struct. -/
def matchStruct (type1 type2 : IRType) (name2 : String) (u2 : User) : MatchState :=
  if name2 ≠ "" then s
  else
    match type1 with
    | .struct _ type1_structname elements =>
      let s := s.recordName print type2 (parseIdentifiedStructName type1_structname)
      if containsSub type1_structname "union." then
        { s with Globa_Union_Set := insert (typeHash print type2) s.Globa_Union_Set }
      else
        match updateUserQueue u2 s.U2_queue with
        | some U2_queue =>
          { s with Ty1_queue := updateTypeQueue elements s.Ty1_queue, U2_queue }
        | none => s
    | .array subtype num =>
      let s := s.recordName print type2 "Array"
      match updateUserQueue u2 s.U2_queue with
      | some U2_queue =>
        { s with
          Ty1_queue := List.replicate (toUnsigned num) subtype ++ s.Ty1_queue
          U2_queue }
      | none => s
    | _ => s

/-- A constant of the type of an array. -/
def matchArray (type1 subtype2 : IRType) (num2 : ℕ) (u2 : User) : MatchState ⊕ MatchResult :=
  match type1 with
  | .array subtype1 num1 =>
    if toUnsigned num1 = 0 ∨ toUnsigned num2 = 0 then .inl s
    else if toUnsigned num2 = toUnsigned num1 then
      match u2.operands with
      | [] => .inr .noOperand
      | OU :: _ =>
        .inl { s with Ty1_queue := subtype1 :: s.Ty1_queue, U2_queue := OU :: s.U2_queue }
    else .inl s
  | _ =>
    match updateQueues type1 subtype2 num2 s.Ty1_queue with
    | none => .inr .emptyDeque
    | some Ty1_queue => .inl { s with Ty1_queue }

/-- The body of the loop, once the two fronts are popped.  Equal types have equal hashes. -/
def matchTypes (type1 : IRType) (u2 : User) : MatchState ⊕ MatchResult :=
  if typeHash print type1 = typeHash print u2.getType then .inl s
  else
    match type1, u2.getType with
    | .pointer _, .pointer _ => .inl s
    | .function _, .function _ => .inl s
    | .integer bitwidth1, .integer bitwidth2 =>
      if bitwidth1 = bitwidth2 then .inl s
      else
        .inl { s with
          Ty1_queue :=
            List.replicate (bitwidth1 / bitwidth2) (.integer bitwidth2) ++ s.Ty1_queue
          U2_queue := u2 :: s.U2_queue }
    | type1, .struct id name elements =>
      .inl (s.matchStruct print type1 (.struct id name elements) name u2)
    | type1, .array subtype2 num2 => s.matchArray type1 subtype2 num2 u2
    | _, _ => .inl s

/-- One iteration, or the end of the loop. -/
def iterate (s : MatchState) : MatchState ⊕ MatchResult :=
  match s.Ty1_queue, s.U2_queue with
  | type1 :: Ty1_queue, u2 :: U2_queue =>
    { s with Ty1_queue, U2_queue }.matchTypes print type1 u2
  | _, _ => .inr (.finished s)

/-- `matchStructTypes`, on the maps of the context. -/
def matchStructTypes (fuel : ℕ) (identifiedTy : IRType) (U : User) : Option MatchResult :=
  run (iterate print) fuel { s with Ty1_queue := [identifiedTy], U2_queue := [U] }

/-- The traversal comes to an end and reads nothing that is not there. -/
def EndsSafely (identifiedTy : IRType) (U : User) : Prop :=
  ∃ fuel s', matchStructTypes print s fuel identifiedTy U = some (.finished s')

end

end MatchState

/-! ## The end of the loop -/

namespace IRType

/-- How much can come out of a type. -/
def weight : IRType → ℕ
  | integer bitwidth => bitwidth ^ 2 + 1
  | struct _ _ elements => (elements.map weight).sum + 1
  | array element num => toUnsigned num * element.weight + 1
  | _ => 1

theorem weight_pos (t : IRType) : 0 < t.weight := by
  cases t <;> simp [weight]

/-- The integers that one is split into are lighter than it. -/
theorem weight_split_lt {bitwidth1 bitwidth2 : ℕ} (h : bitwidth1 ≠ bitwidth2) :
    bitwidth1 / bitwidth2 * weight (.integer bitwidth2) < weight (.integer bitwidth1) := by
  simp only [weight]
  rcases Nat.lt_or_ge bitwidth1 bitwidth2 with hlt | hge
  · simp [Nat.div_eq_of_lt hlt]
  · have hmul : bitwidth1 / bitwidth2 * bitwidth2 ≤ bitwidth1 := Nat.div_mul_le_self _ _
    have hdiv : bitwidth1 / bitwidth2 ≤ bitwidth1 := Nat.div_le_self _ _
    have hsucc : bitwidth2 + 1 ≤ bitwidth1 := by omega
    calc bitwidth1 / bitwidth2 * (bitwidth2 ^ 2 + 1)
        = bitwidth1 / bitwidth2 * bitwidth2 * bitwidth2 + bitwidth1 / bitwidth2 := by ring
      _ ≤ bitwidth1 * bitwidth2 + bitwidth1 :=
        Nat.add_le_add (Nat.mul_le_mul_right _ hmul) hdiv
      _ = bitwidth1 * (bitwidth2 + 1) := by ring
      _ ≤ bitwidth1 * bitwidth1 := Nat.mul_le_mul_left _ hsucc
      _ < bitwidth1 ^ 2 + 1 := by rw [sq]; omega

end IRType

namespace MatchState

/-- The types that wait. -/
def weights (Ty_queue : List IRType) : ℕ := (Ty_queue.map IRType.weight).sum

section
variable {t : IRType} {Ty_queue Ty_queue' : List IRType} {typeID : TypeID} {n : ℕ}

@[simp] theorem weights_nil : weights [] = 0 := rfl

@[simp] theorem weights_cons : weights (t :: Ty_queue) = t.weight + weights Ty_queue := by
  simp [weights]

@[simp] theorem weights_append :
    weights (Ty_queue ++ Ty_queue') = weights Ty_queue + weights Ty_queue' := by
  simp [weights]

@[simp] theorem weights_replicate : weights (List.replicate n t) = n * t.weight := by
  simp [weights]

/-- Types are only taken away. -/
theorem weights_popSame_le (h : popSame typeID n Ty_queue = some Ty_queue') :
    weights Ty_queue' ≤ weights Ty_queue := by
  induction n generalizing Ty_queue with
  | zero =>
    rw [popSame] at h
    cases h
    exact le_rfl
  | succ n ih =>
    cases Ty_queue with
    | nil => cases h
    | cons type1 Ty_queue =>
      rw [weights_cons]
      rw [popSame] at h
      split at h
      · cases h
        omega
      · have hle := ih h
        omega

/-- The deque is too short, and no other type stops the loop before its end. -/
theorem popSame_eq_none_iff : popSame typeID n Ty_queue = none ↔
    Ty_queue.length < n ∧ ∀ type1 ∈ Ty_queue, type1.getTypeID = typeID := by
  induction n generalizing Ty_queue with
  | zero => simp [popSame]
  | succ n ih =>
    cases Ty_queue with
    | nil => simp [popSame]
    | cons type1 Ty_queue =>
      by_cases hid : typeID = type1.getTypeID
      · subst hid
        simp [popSame, ih]
      · simp [popSame, hid, Ne.symm hid]

end

section
variable {print : IRType → String} {s s' : MatchState} {type1 type2 : IRType} {u2 : User}
  {name : String} {r : MatchResult}

theorem recordName_deques : (s.recordName print type2 name).Ty1_queue = s.Ty1_queue ∧
    (s.recordName print type2 name).U2_queue = s.U2_queue := by
  unfold recordName
  split <;> exact ⟨rfl, rfl⟩

/-- A struct is replaced by its elements at most, and an array too. -/
theorem weights_matchStruct_lt : weights (s.matchStruct print type1 type2 name u2).Ty1_queue <
    type1.weight + weights s.Ty1_queue := by
  have hpos := type1.weight_pos
  have hsame : weights s.Ty1_queue < type1.weight + weights s.Ty1_queue := by omega
  unfold matchStruct
  split
  · exact hsame
  · match type1 with
    | .struct id type1_structname elements =>
      have hq := (@recordName_deques print s type2
        (parseIdentifiedStructName type1_structname)).1
      dsimp only
      split
      · rw [hq]
        exact hsame
      · split
        · have hfields : (elements.map IRType.weight).sum < IRType.weight
              (.struct id type1_structname elements) := by
            rw [IRType.weight]
            omega
          simp only [updateTypeQueue, hq, weights_append]
          simpa [weights] using hfields
        · rw [hq]
          exact hsame
    | .array subtype num =>
      have hq := (@recordName_deques print s type2 "Array").1
      dsimp only
      split
      · have helements : toUnsigned num * subtype.weight <
            IRType.weight (.array subtype num) := by
          rw [IRType.weight]
          omega
        simp only [hq, weights_append, weights_replicate]
        omega
      · rw [hq]
        exact hsame
    | .integer _ => exact hsame
    | .pointer _ => exact hsame
    | .function _ => exact hsame
    | .other _ _ => exact hsame

theorem weights_matchArray_lt {subtype2 : IRType} {num2 : ℕ}
    (h : s.matchArray type1 subtype2 num2 u2 = .inl s') :
    weights s'.Ty1_queue < type1.weight + weights s.Ty1_queue := by
  have hpos := type1.weight_pos
  unfold matchArray at h
  split at h
  case h_1 subtype1 num1 =>
    split at h
    case isTrue => cases h; omega
    case isFalse hnum =>
      split at h
      case isTrue =>
        split at h
        case h_1 => cases h
        case h_2 =>
          cases h
          have hmul : subtype1.weight ≤ toUnsigned num1 * subtype1.weight :=
            Nat.le_mul_of_pos_left _ (by omega)
          simp only [weights_cons, IRType.weight]
          omega
      case isFalse => cases h; omega
  case h_2 =>
    split at h
    case h_1 => cases h
    case h_2 Ty1_queue hpop =>
      cases h
      have hle : weights Ty1_queue ≤ weights s.Ty1_queue := by
        unfold updateQueues at hpop
        split at hpop
        · cases hpop
          exact le_rfl
        · exact weights_popSame_le hpop
      dsimp only
      omega

/-- Every iteration takes weight away from the types that wait. -/
theorem weights_iterate_lt (h : iterate print s = .inl s') :
    weights s'.Ty1_queue < weights s.Ty1_queue := by
  obtain ⟨Ty1_queue, U2_queue, names, unions⟩ := s
  match Ty1_queue, U2_queue with
  | [], _ => cases h
  | _ :: _, [] => cases h
  | type1 :: Ty1_queue, u2 :: U2_queue =>
    have hpos := type1.weight_pos
    have hsame : weights Ty1_queue < type1.weight + weights Ty1_queue := by omega
    rw [weights_cons]
    simp only [iterate, matchTypes] at h
    split at h
    · cases h
      exact hsame
    · split at h
      · cases h
        exact hsame
      · cases h
        exact hsame
      · split at h
        · cases h
          exact hsame
        case isFalse bitwidth1 bitwidth2 _ hne =>
          cases h
          have hsplit := IRType.weight_split_lt hne
          simp only [weights_append, weights_replicate]
          omega
      · cases h
        exact weights_matchStruct_lt
      · exact weights_matchArray_lt h
      · cases h
        exact hsame

end

/-! ## Reads of what is not there -/

section
variable (print : IRType → String)

/-- Two arrays of one length that look different, and the constant has no operands. -/
def Unopenable (type1 : IRType) (u2 : User) : Prop :=
  ∃ subtype1 num1 subtype2 num2, type1 = .array subtype1 num1 ∧
    u2.getType = .array subtype2 num2 ∧ typeHash print type1 ≠ typeHash print u2.getType ∧
    toUnsigned num1 ≠ 0 ∧ toUnsigned num2 = toUnsigned num1 ∧ u2.operands = []

end

section
variable {print : IRType → String} {s s' : MatchState} {type1 subtype2 : IRType} {num2 : ℕ}
  {u2 : User} {r : MatchResult}

theorem updateQueues_eq_none_iff {Ty_queue : List IRType} :
    updateQueues type1 subtype2 num2 Ty_queue = none ↔
      type1.getTypeID = subtype2.getTypeID ∧
      (∀ t ∈ Ty_queue, t.getTypeID = subtype2.getTypeID) ∧
      Ty_queue.length < toUnsigned (toUnsigned num2 + (2 ^ 32 - 1)) := by
  by_cases hkind : type1.getTypeID = subtype2.getTypeID
  · simp [updateQueues, hkind, popSame_eq_none_iff, and_comm]
  · simp [updateQueues, hkind, Ne.symm hkind]

theorem matchTypes_unopenable (h : Unopenable print type1 u2) :
    s.matchTypes print type1 u2 = .inr .noOperand := by
  obtain ⟨subtype1, num1, subtype2, num2, rfl, htype2, hhash, hpos, hnum, hoperands⟩ := h
  rw [htype2] at hhash
  simp [matchTypes, matchArray, htype2, hhash, hnum, hpos, hoperands]

/-- The two ways in which an array ends the loop. -/
theorem matchArray_eq_inr (h : s.matchArray type1 subtype2 num2 u2 = .inr r) :
    ((∃ subtype1 num1, type1 = .array subtype1 num1 ∧ toUnsigned num1 ≠ 0 ∧
      toUnsigned num2 = toUnsigned num1 ∧ u2.operands = []) ∧ r = .noOperand) ∨
    type1.isArrayTy = false ∧ r = .emptyDeque ∧
      updateQueues type1 subtype2 num2 s.Ty1_queue = none := by
  unfold matchArray at h
  split at h
  case h_1 subtype1 num1 =>
    split at h
    case isTrue => cases h
    case isFalse hpos =>
      split at h
      case isFalse => cases h
      case isTrue hnum =>
        split at h
        case h_2 => cases h
        case h_1 hoperands =>
          cases h
          exact Or.inl ⟨⟨subtype1, num1, rfl, fun h0 => hpos (Or.inl h0), hnum, hoperands⟩, rfl⟩
  case h_2 hnoArray =>
    split at h
    case h_2 => cases h
    case h_1 hnone =>
      cases h
      refine Or.inr ⟨?_, rfl, hnone⟩
      cases type1 with
      | array subtype1 num1 => exact absurd rfl (hnoArray subtype1 num1)
      | _ => rfl

/-- The two ways in which a pair of fronts ends the loop. -/
theorem matchTypes_eq_inr (h : s.matchTypes print type1 u2 = .inr r) :
    Unopenable print type1 u2 ∧ r = .noOperand ∨
      typeHash print type1 ≠ typeHash print u2.getType ∧ type1.isArrayTy = false ∧
        r = .emptyDeque ∧ ∃ subtype2 num2, u2.getType = .array subtype2 num2 ∧
          updateQueues type1 subtype2 num2 s.Ty1_queue = none := by
  unfold matchTypes at h
  split at h
  case isTrue => cases h
  case isFalse hhash =>
    split at h
    case h_5 type1 _ _ subtype2 num2 htype2 =>
      rcases matchArray_eq_inr h with ⟨⟨subtype1, num1, rfl, hpos, hnum, hoperands⟩, hr⟩ |
        ⟨harray, hr, hnone⟩
      · exact Or.inl ⟨⟨_, _, _, _, rfl, htype2, hhash, hpos, hnum, hoperands⟩, hr⟩
      · exact Or.inr ⟨hhash, harray, hr, _, _, htype2, hnone⟩
    case h_3 => split at h <;> cases h
    all_goals cases h

/-- The loop gives back its last state. -/
theorem iterate_eq_finished (h : iterate print s = .inr (.finished s')) : s' = s := by
  obtain ⟨Ty1_queue, U2_queue, names, unions⟩ := s
  match Ty1_queue, U2_queue with
  | [], _ =>
    cases h
    rfl
  | _ :: _, [] =>
    cases h
    rfl
  | type1 :: Ty1_queue, u2 :: U2_queue =>
    have hstep : matchTypes print ⟨Ty1_queue, U2_queue, names, unions⟩ type1 u2 =
      .inr (.finished s') := h
    rcases matchTypes_eq_inr hstep with ⟨-, hr⟩ | ⟨-, -, hr, -⟩
    · cases hr
    · cases hr

end

theorem endsSafely_iff_endsWith {print : IRType → String} {s : MatchState} {identifiedTy : IRType}
    {U : User} : s.EndsSafely print identifiedTy U ↔
      EndsWith (iterate print) (fun r => ∃ s', r = .finished s')
        { s with Ty1_queue := [identifiedTy], U2_queue := [U] } := by
  constructor
  · rintro ⟨fuel, s', hrun⟩
    exact ⟨fuel, _, hrun, s', rfl⟩
  · rintro ⟨fuel, _, hrun, s', rfl⟩
    exact ⟨fuel, s', hrun⟩

/-! ## A string for an array of wider integers -/

/-- Texts for types; those of literal structs are cut short. -/
def printType : IRType → String
  | .integer bitwidth => "i" ++ toString bitwidth
  | .array element num => "[" ++ toString num ++ "x" ++ printType element ++ "]"
  | .struct _ name _ => if name = "" then "{..}" else "%" ++ name
  | .pointer _ => "ptr"
  | .function _ => "void()"
  | .other _ _ => "float"

/-- `{ [4 x i8] c"abcd" }`; the string has no operands. -/
def abcd : User :=
  .mk (.struct 0 "" [.array (.integer 8) 4]) false [.mk (.array (.integer 8) 4) false []]

/-- `%struct.S = type { [4 x i16] }`. -/
def structS : IRType := .struct 0 "struct.S" [.array (.integer 16) 4]

/-- The first operand of the string is read. -/
theorem string_opened :
    ¬ ∀ (print : IRType → String) (s : MatchState) (id : ℕ) (name : String)
      (elements : List IRType) (U : User), name ≠ "" →
      s.EndsSafely print (.struct id name elements) U := by
  intro h
  let s : MatchState := ⟨[], [], fun _ => none, ∅⟩
  obtain ⟨s', hs'⟩ : ∃ s', iterate printType ⟨[structS], [abcd], fun _ => none, ∅⟩ = .inl s' :=
    ⟨_, rfl⟩
  have hends := endsSafely_iff_endsWith.1 (h printType s 0 "struct.S" [.array (.integer 16) 4] abcd
    (by decide))
  have hnext := (endsWith_next hs').1 hends
  have hqueues : ∃ names unions, s' = ⟨[.array (.integer 16) 4],
      [.mk (.array (.integer 8) 4) false []], names, unions⟩ := by
    cases hs'
    exact ⟨_, _, rfl⟩
  obtain ⟨names, unions, rfl⟩ := hqueues
  have hread : Unopenable printType (.array (.integer 16) 4)
      (.mk (.array (.integer 8) 4) false []) :=
    ⟨_, _, _, _, rfl, rfl, by decide, by decide, rfl, rfl⟩
  obtain ⟨_, hr⟩ := (endsWith_end (matchTypes_unopenable hread)).1 hnext
  cases hr

end MatchState

end TFA
