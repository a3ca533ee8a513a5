/-
  The names of literal structs (`TypeBuilder.cc`).

  The pass gives names to types that have none, in one sweep over the modules for the debug
  information of the global variables, and in another one for what is inside their
  initializers.

  * `recordGlobal` and `checkLayeredDebugInfo` are what the two sweeps do with a variable, and
    `run` is the pass;
  * `checkLayeredDebugInfo_eq`: which pairs of types and constants are matched;
  * `names_run`: the second sweep leaves the names as they are that the first one has given.
    The others come from the struct types of the modules, and no name is empty;
  * `named_run`: what is in step with a pair that is matched has a name after the pass.
-/
import TFA.TypeBuilder.DebugTypes
import TFA.TypeBuilder.InStep
import TFA.TypeBuilder.StructNames
import TFA.Lib.Sweeps

namespace TFA

open Iterate Sweeps MatchState

namespace IRType

def getStructName : IRType → String
  | struct _ name _ => name
  | _ => ""

def isStructTy (t : IRType) : Bool := t.getTypeID = .struct

end IRType

/-- What the pass reads of a module. -/
structure BuilderModule where
  globals : List Value
  getIdentifiedStructTypes : List IRType

/-- What the pass writes, other than for functions. -/
structure BuilderState extends DIType.DebugMaps where
  identifiedStructType : String → Option IRType
  targetGVSet : Finset Value
  Globa_Union_Set : Finset Key

/-- What the pass reads of global variables and of types. -/
structure BuilderProgram where
  /-- the printed type, without blanks -/
  print : IRType → String
  isLiteral : IRType → Bool
  getName : Value → String
  getInitializer : Value → Option User
  /-- of the initializer -/
  isConstantAggregate : Value → Bool
  /-- the type in the debug information of a variable -/
  getDebugType : Value → Option DIType
  getValueType : Value → IRType

namespace BuilderProgram

section
variable (P : BuilderProgram) (fuel : ℕ)

/-- `checkValidGV`: no strings, and nothing of virtual tables and of types. -/
def checkValidGV (GV : Value) : Bool :=
  (P.getInitializer GV).isSome && P.isConstantAggregate GV &&
    !containsSub (P.getName GV) ".str." &&
    !(["_ZTV", "_ZN", "_ZTI"].any fun start => start.toList.isPrefixOf (P.getName GV).toList)

/-! ## Debug information -/

/-- `checkGlobalDebugInfo`, for a variable that may have none. -/
def checkGlobalDebugInfo (s : BuilderState) (GV : Value) (Tyhash : Key) : Option BuilderState :=
  match P.getDebugType GV with
  | none => some s
  | some DITy =>
    match DIType.checkGlobalDebugInfo Tyhash s.toDebugMaps fuel DITy with
    | some (.returns maps) => some { s with toDebugMaps := maps }
    | _ => none

/-- A variable of a literal struct or an array of these. -/
def addTarget (s : BuilderState) (GV : Value) : Option BuilderState :=
  (P.checkGlobalDebugInfo fuel s GV (typeHash P.print (P.getValueType GV))).map fun s =>
    { s with targetGVSet := insert GV s.targetGVSet }

/-- The struct type that decides whether a variable is a target. -/
def structOf : IRType → Option IRType
  | .array innerTy _ => if innerTy.isStructTy then some innerTy else none
  | .struct id name elements => some (.struct id name elements)
  | _ => none

/-- The loop body of `doInitialization` over the global variables. -/
def recordGlobal (s : BuilderState) (GV : Value) : Option BuilderState :=
  if !P.checkValidGV GV then some s
  else
    match structOf (P.getValueType GV) with
    | none => some s
    | some STy => if P.isLiteral STy then P.addTarget fuel s GV else some s

/-- `doInitialization`, over the global variables. -/
def doInitialization (s : BuilderState) (M : BuilderModule) : Option BuilderState :=
  M.globals.foldlM (P.recordGlobal fuel) s

/-! ## Initializers -/

/-- `matchStructTypes`, on the maps of the pass. -/
def matchStructTypes (s : BuilderState) (identifiedTy : IRType) (U : User) :
    Option BuilderState :=
  match MatchState.matchStructTypes P.print
      ⟨[], [], s.Global_Literal_Struct_Map, s.Globa_Union_Set⟩ fuel identifiedTy U with
  | some (.finished s') =>
    some { s with
      Global_Literal_Struct_Map := s'.Global_Literal_Struct_Map
      Globa_Union_Set := s'.Globa_Union_Set }
  | _ => none

/-- The elements of an array, in the source, that is an array or a struct. -/
def checkElement (PreTyhash : Key) (s : BuilderState) (O : User) : Option BuilderState :=
  if O.isUndef then some s
  else
    match s.ArrayBaseDebugTypeMap PreTyhash with
    | none => some s
    | some ArrayEleTypeName =>
      match s.identifiedStructType ArrayEleTypeName with
      | none => some s
      | some identifiedTy =>
        if O.getType.isArrayTy then some s else P.matchStructTypes fuel s identifiedTy O

/-- `checkLayeredDebugInfo`; the list of the constants to check has the initializer only. -/
def checkLayeredDebugInfo (s : BuilderState) (GV : Value) : Option BuilderState :=
  match P.getInitializer GV with
  | none => some s
  | some Ini =>
    let PreTyhash := typeHash P.print Ini.getType
    match s.Global_Literal_Struct_Map PreTyhash with
    | none => some s
    | some PreLayerName =>
      match s.identifiedStructType PreLayerName with
      | some identifiedTy => P.matchStructTypes fuel s identifiedTy Ini
      | none =>
        if PreLayerName = "Array" ∧ (Ini.getType.isStructTy || Ini.getType.isArrayTy) then
          Ini.operands.foldlM (P.checkElement fuel PreTyhash) s
        else some s

/-- The loop of `doModulePass` over the struct types of a module. -/
def recordStructTypes (identifiedStructType : String → Option IRType)
    (identifiedStructTys : List IRType) : String → Option IRType :=
  identifiedStructTys.foldl (fun m STy =>
    if STy.getStructName = "" then m
    else Function.update m (TypeBuilder.parseIdentifiedStructName STy.getStructName) (some STy))
    identifiedStructType

/-- The loop body of `doModulePass` over the global variables. -/
def checkGlobal (s : BuilderState) (GV : Value) : Option BuilderState :=
  if !P.checkValidGV GV then some s
  else if GV ∉ s.targetGVSet then some s
  else P.checkLayeredDebugInfo fuel s GV

/-- `doModulePass`. -/
def doModulePass (s : BuilderState) (M : BuilderModule) : Option BuilderState :=
  (M.globals.foldlM (P.checkGlobal fuel) { s with
    identifiedStructType :=
      recordStructTypes s.identifiedStructType M.getIdentifiedStructTypes }).map fun s =>
    { s with identifiedStructType := fun _ => none }

/-! ## The pass -/

/-- A step that reports no change. -/
def unchanged (step : BuilderState → BuilderModule → Option BuilderState) (s : BuilderState)
    (M : BuilderModule) : Option (Bool × BuilderState) :=
  (step s M).map (Prod.mk false)

/-- `IterativeModulePass::run`; `doFinalization` does nothing. -/
def run (Ms : List BuilderModule) (s : BuilderState) : Option BuilderState := do
  let s ← sweeps (unchanged (P.doInitialization fuel)) fuel Ms s
  let s ← sweeps (unchanged (P.doModulePass fuel)) fuel Ms s
  sweeps (unchanged fun s _ => some s) fuel Ms s

end

end BuilderProgram

/-! ## Names that are added -/

/-- Names that are there stay, and those that are added have a property. -/
structure Adds (G : String → Prop) (names names' : Key → Option String) : Prop where
  kept : ∀ hash name, names hash = some name → names' hash = some name
  new : ∀ hash name, names' hash = some name → names hash = none → name ≠ "" ∧ G name

instance (G : String → Prop) : IsPreorder (Key → Option String) (Adds G) where
  refl _ := ⟨fun _ _ h => h, fun _ _ h h' => absurd h (by simp [h'])⟩
  trans names names' _ h h' := by
    refine ⟨fun hash name hn => h'.kept _ _ (h.kept _ _ hn), fun hash name hn hnone => ?_⟩
    cases hmid : names' hash with
    | none => exact h'.new hash name hn hmid
    | some name' =>
      obtain rfl := Option.some.inj ((h'.kept hash name' hmid).symm.trans hn)
      exact h.new hash name' hmid hnone

/-- The struct types and arrays of which a type is built up, and those of other widths. -/
def IRType.Child : IRType → IRType → Prop
  | .struct _ _ elements, t => t ∈ elements
  | .array element _, t => t = element
  | _, _ => False

/-- A set of types with what they are built up from, and all integers. -/
structure ClosedTypes (S : Set IRType) : Prop where
  child : ∀ t ∈ S, ∀ t', t.Child t' → t' ∈ S
  integer : ∀ bitwidth, .integer bitwidth ∈ S

/-- The names that the types of a set give. -/
def GivenBy (S : Set IRType) (name : String) : Prop :=
  name = "Array" ∨
    ∃ id name1 elements, .struct id name1 elements ∈ S ∧ parseIdentifiedStructName name1 = name

namespace MatchState

section
variable {print : IRType → String} {s s' : MatchState} {S : Set IRType} {G : String → Prop}
  {type1 type2 : IRType} {u2 : User} {name : String}

theorem adds_recordName (h : name ≠ "" → G name) :
    Adds G s.Global_Literal_Struct_Map
      (s.recordName print type2 name).Global_Literal_Struct_Map := by
  unfold recordName
  split
  case isTrue hnew =>
    obtain ⟨hnone, hname⟩ := hnew
    refine ⟨fun hash name' hn => ?_, fun hash name' hn hnone' => ?_⟩
    · have hne : hash ≠ typeHash print type2 := by
        rintro rfl
        simp [hn] at hnone
      simpa [Function.update_of_ne hne] using hn
    · by_cases hhash : hash = typeHash print type2
      · subst hhash
        obtain rfl : name = name' := by simpa using hn
        exact ⟨hname, h hname⟩
      · simp [Function.update_of_ne hhash, hnone'] at hn
  · exact refl_of (Adds G) _

/-- What waits is in the set, and names are added. -/
def Grows (S : Set IRType) (s s' : MatchState) : Prop :=
  (∀ t ∈ s'.Ty1_queue, t ∈ s.Ty1_queue ∨ t ∈ S) ∧
    Adds (GivenBy S) s.Global_Literal_Struct_Map s'.Global_Literal_Struct_Map

theorem Grows.refl : Grows S s s := ⟨fun _ => Or.inl, refl_of (Adds _) _⟩

theorem grows_matchStruct (hS : ClosedTypes S) (htype1 : type1 ∈ S) :
    Grows S s (s.matchStruct print type1 type2 name u2) := by
  unfold matchStruct
  split
  · exact Grows.refl
  · split
    case h_1 id name1 elements =>
      have hadds : Adds (GivenBy S) s.Global_Literal_Struct_Map (s.recordName print type2
          (parseIdentifiedStructName name1)).Global_Literal_Struct_Map :=
        adds_recordName fun _ => Or.inr ⟨id, name1, elements, htype1, rfl⟩
      have hqueue := (@recordName_deques print s type2 (parseIdentifiedStructName name1)).1
      dsimp only
      split
      · exact ⟨fun t ht => Or.inl (hqueue ▸ ht), hadds⟩
      · split
        · refine ⟨fun t ht => ?_, hadds⟩
          rcases List.mem_append.1 ht with ht | ht
          · exact Or.inr (hS.child _ htype1 t ht)
          · exact Or.inl (hqueue ▸ ht)
        · exact ⟨fun t ht => Or.inl (hqueue ▸ ht), hadds⟩
    case h_2 subtype num =>
      have hadds : Adds (GivenBy S) s.Global_Literal_Struct_Map
          (s.recordName print type2 "Array").Global_Literal_Struct_Map :=
        adds_recordName fun _ => Or.inl rfl
      have hqueue := (@recordName_deques print s type2 "Array").1
      dsimp only
      split
      · refine ⟨fun t ht => ?_, hadds⟩
        rcases List.mem_append.1 ht with ht | ht
        · exact Or.inr (hS.child _ htype1 t (List.eq_of_mem_replicate ht))
        · exact Or.inl (hqueue ▸ ht)
      · exact ⟨fun t ht => Or.inl (hqueue ▸ ht), hadds⟩
    · exact Grows.refl

theorem mem_popSame {typeID : TypeID} {n : ℕ} {Ty_queue Ty_queue' : List IRType}
    (h : popSame typeID n Ty_queue = some Ty_queue') : Ty_queue' ⊆ Ty_queue := by
  induction n generalizing Ty_queue with
  | zero =>
    obtain rfl := Option.some.inj h
    exact List.Subset.refl _
  | succ n ih =>
    cases Ty_queue with
    | nil => cases h
    | cons type1 Ty_queue =>
      rw [popSame] at h
      split at h
      · obtain rfl := Option.some.inj h
        exact List.subset_cons_self _ _
      · exact List.Subset.trans (ih h) (List.subset_cons_self _ _)

theorem grows_matchArray (hS : ClosedTypes S) (htype1 : type1 ∈ S) {subtype2 : IRType} {num2 : ℕ}
    (h : s.matchArray type1 subtype2 num2 u2 = .inl s') : Grows S s s' := by
  unfold matchArray at h
  split at h
  case h_1 subtype1 num1 =>
    split at h
    · cases h
      exact Grows.refl
    · split at h
      · split at h
        · cases h
        · cases h
          refine ⟨fun t ht => ?_, refl_of (Adds _) _⟩
          rcases List.mem_cons.1 ht with rfl | ht
          · exact Or.inr (hS.child _ htype1 _ rfl)
          · exact Or.inl ht
      · cases h
        exact Grows.refl
  case h_2 =>
    split at h
    · cases h
    case h_2 Ty1_queue hpop =>
      cases h
      refine ⟨fun t ht => Or.inl ?_, refl_of (Adds _) _⟩
      unfold updateQueues at hpop
      split at hpop
      · obtain rfl := Option.some.inj hpop
        exact ht
      · exact mem_popSame hpop ht

theorem grows_matchTypes (hS : ClosedTypes S) (htype1 : type1 ∈ S)
    (h : s.matchTypes print type1 u2 = .inl s') : Grows S s s' := by
  unfold matchTypes at h
  split at h
  · cases h
    exact Grows.refl
  · split at h
    case h_3 bitwidth2 _ _ =>
      split at h
      · cases h
        exact Grows.refl
      · cases h
        refine ⟨fun t ht => ?_, refl_of (Adds _) _⟩
        rcases List.mem_append.1 ht with ht | ht
        · rw [List.eq_of_mem_replicate ht]
          exact Or.inr (hS.integer bitwidth2)
        · exact Or.inl ht
    case h_4 =>
      cases h
      exact grows_matchStruct hS htype1
    case h_5 => exact grows_matchArray hS htype1 h
    all_goals
      cases h
      exact Grows.refl

/-- **A step.**  All types that wait are in the set, and names are added. -/
theorem adds_iterate (hS : ClosedTypes S) (hs : ∀ t ∈ s.Ty1_queue, t ∈ S)
    (h : iterate print s = .inl s') : (∀ t ∈ s'.Ty1_queue, t ∈ S) ∧
      Adds (GivenBy S) s.Global_Literal_Struct_Map s'.Global_Literal_Struct_Map := by
  obtain ⟨Ty1_queue, U2_queue, names, unions⟩ := s
  match Ty1_queue, U2_queue with
  | [], _ => cases h
  | _ :: _, [] => cases h
  | type1 :: Ty1_queue, u2 :: U2_queue =>
    obtain ⟨hqueue, hadds⟩ := grows_matchTypes hS (hs type1 (by simp)) h
    refine ⟨fun t ht => ?_, hadds⟩
    rcases hqueue t ht with ht | ht
    · exact hs t (by simp only [List.mem_cons] at ht ⊢; exact Or.inr ht)
    · exact ht

/-- **A traversal.** -/
theorem adds_matchStructTypes (hS : ClosedTypes S) {fuel : ℕ} {identifiedTy : IRType} {U : User}
    (hT : identifiedTy ∈ S)
    (h : matchStructTypes print s fuel identifiedTy U = some (.finished s')) :
    Adds (GivenBy S) s.Global_Literal_Struct_Map s'.Global_Literal_Struct_Map := by
  obtain ⟨s'', r, hvisits, hend, rfl⟩ := endsWith_iff.1
    (⟨fuel, _, h, rfl⟩ : EndsWith (iterate print) (· = .finished s') _)
  obtain rfl := iterate_eq_finished hend
  have hall : (∀ t ∈ s'.Ty1_queue, t ∈ S) ∧
      Adds (GivenBy S) s.Global_Literal_Struct_Map s'.Global_Literal_Struct_Map := by
    clear hend h
    induction hvisits with
    | refl => exact ⟨by simpa using hT, refl_of (Adds _) _⟩
    | tail _ hnext ih =>
      obtain ⟨hqueue, hadds⟩ := adds_iterate hS ih.1 hnext
      exact ⟨hqueue, trans_of (Adds _) ih.2 hadds⟩
  exact hall.2

end

end MatchState

namespace BuilderProgram

/-- The elements of an array that are matched with a type. -/
def elements (Os : List User) : Option IRType → List (IRType × User)
  | none => []
  | some identifiedTy =>
    (Os.filter fun O => !O.isUndef && !O.getType.isArrayTy).map (Prod.mk identifiedTy)

/-- What is matched for a variable. -/
def matched (P : BuilderProgram) (s : BuilderState) (GV : Value) : List (IRType × User) :=
  match P.getInitializer GV with
  | none => []
  | some Ini =>
    match s.Global_Literal_Struct_Map (typeHash P.print Ini.getType) with
    | none => []
    | some PreLayerName =>
      match s.identifiedStructType PreLayerName with
      | some identifiedTy => [(identifiedTy, Ini)]
      | none =>
        if PreLayerName = "Array" ∧ (Ini.getType.isStructTy || Ini.getType.isArrayTy) then
          elements Ini.operands ((s.ArrayBaseDebugTypeMap (typeHash P.print Ini.getType)).bind
            s.identifiedStructType)
        else []

/-- The struct types of the modules, what they are built up from, and all integers. -/
def typesOf (Ms : List BuilderModule) : Set IRType :=
  {t | (∃ bitwidth, t = .integer bitwidth) ∨
    ∃ M ∈ Ms, ∃ STy ∈ M.getIdentifiedStructTypes, Relation.ReflTransGen IRType.Child STy t}

/-- The names from the debug information of the global variables. -/
def FromDebug (P : BuilderProgram) (Ms : List BuilderModule) (name : String) : Prop :=
  name = "Array" ∨ name ≠ "" ∧ ∃ M ∈ Ms, ∃ GV ∈ M.globals, ∃ DITy baseType,
    P.getDebugType GV = some DITy ∧
      DITy.stripped = some (.composite DIType.structureTag name baseType)

/-- All struct types that are looked up are in the set. -/
def LooksUp (S : Set IRType) (s : BuilderState) : Prop :=
  ∀ name identifiedTy, s.identifiedStructType name = some identifiedTy → identifiedTy ∈ S

/-- Only names and unions are added. -/
structure Matches (S : Set IRType) (s s' : BuilderState) : Prop where
  names : Adds (GivenBy S) s.Global_Literal_Struct_Map s'.Global_Literal_Struct_Map
  identified : s'.identifiedStructType = s.identifiedStructType
  targets : s'.targetGVSet = s.targetGVSet
  arrays : s'.ArrayBaseDebugTypeMap = s.ArrayBaseDebugTypeMap

/-- Only names and unions are added, if the types that are looked up are in a set. -/
def MatchesIn (S : Set IRType) (s s' : BuilderState) : Prop := LooksUp S s → Matches S s s'

section
variable {P : BuilderProgram} {fuel : ℕ} {S : Set IRType} {s s' : BuilderState} {GV : Value}
  {M : BuilderModule} {Ms : List BuilderModule} {identifiedTy : IRType} {U : User}
  {name : String} {hash : Key}

instance : IsPreorder BuilderState (MatchesIn S) where
  refl _ _ := ⟨refl_of (Adds _) _, rfl, rfl, rfl⟩
  trans s s' s'' h h' hs := by
    have hfirst := h hs
    have hsecond := h' fun name identifiedTy hT => hs name identifiedTy (hfirst.identified ▸ hT)
    exact ⟨trans_of (Adds _) hfirst.names hsecond.names,
      hsecond.identified.trans hfirst.identified, hsecond.targets.trans hfirst.targets,
      hsecond.arrays.trans hfirst.arrays⟩

/-! ## Matching -/

theorem matchStructTypes_fields (h : P.matchStructTypes fuel s identifiedTy U = some s') :
    s'.identifiedStructType = s.identifiedStructType ∧ s'.targetGVSet = s.targetGVSet ∧
      s'.ArrayBaseDebugTypeMap = s.ArrayBaseDebugTypeMap := by
  unfold matchStructTypes at h
  split at h
  · obtain rfl := Option.some.inj h
    exact ⟨rfl, rfl, rfl⟩
  · cases h

theorem matches_matchStructTypes (hS : ClosedTypes S) (hT : identifiedTy ∈ S)
    (h : P.matchStructTypes fuel s identifiedTy U = some s') : Matches S s s' := by
  obtain ⟨hidentified, htargets, harrays⟩ := matchStructTypes_fields h
  refine ⟨?_, hidentified, htargets, harrays⟩
  unfold matchStructTypes at h
  split at h
  case h_1 hrun =>
    obtain rfl := Option.some.inj h
    exact adds_matchStructTypes hS hT hrun
  · cases h

/-- Matching changes neither the name of the elements nor the types that are looked up. -/
theorem foldlM_checkElement {Os : List User} {ArrayBaseDebugTypeMap : Key → Option String}
    {identifiedStructType : String → Option IRType}
    (harrays : s.ArrayBaseDebugTypeMap = ArrayBaseDebugTypeMap)
    (hidentified : s.identifiedStructType = identifiedStructType) :
    Os.foldlM (P.checkElement fuel hash) s =
      (elements Os ((ArrayBaseDebugTypeMap hash).bind identifiedStructType)).foldlM
        (fun s e => P.matchStructTypes fuel s e.1 e.2) s := by
  induction Os generalizing s with
  | nil => cases (ArrayBaseDebugTypeMap hash).bind identifiedStructType <;> rfl
  | cons O Os ih =>
    have hrest := ih harrays hidentified
    rw [List.foldlM_cons, checkElement, harrays, hidentified]
    cases hname : ArrayBaseDebugTypeMap hash with
    | none =>
      simp only [hname, Option.bind_none, elements] at hrest ⊢
      simpa using hrest
    | some ArrayEleTypeName =>
      simp only [hname, Option.bind_some] at hrest ih ⊢
      cases hT : identifiedStructType ArrayEleTypeName with
      | none =>
        simp only [hT, elements] at hrest ⊢
        simpa using hrest
      | some identifiedTy =>
        simp only [hT, elements] at hrest ih ⊢
        cases hundef : O.isUndef with
        | true => simpa [hundef] using hrest
        | false =>
          cases harray : O.getType.isArrayTy with
          | true => simpa [hundef, harray] using hrest
          | false =>
            simp only [hundef, harray, Bool.false_eq_true, if_false, Bool.not_false,
              Bool.and_self, List.filter_cons_of_pos, List.map_cons, List.foldlM_cons]
            cases hmatch : P.matchStructTypes fuel s identifiedTy O with
            | none => rfl
            | some s₁ =>
              obtain ⟨hids, -, hbases⟩ := matchStructTypes_fields hmatch
              exact ih (hbases.trans harrays) (hids.trans hidentified)

/-- **Which pairs are matched.** -/
theorem checkLayeredDebugInfo_eq : P.checkLayeredDebugInfo fuel s GV =
    (P.matched s GV).foldlM (fun s e => P.matchStructTypes fuel s e.1 e.2) s := by
  unfold checkLayeredDebugInfo matched
  cases P.getInitializer GV with
  | none => rfl
  | some Ini =>
    dsimp only
    cases s.Global_Literal_Struct_Map (typeHash P.print Ini.getType) with
    | none => rfl
    | some PreLayerName =>
      dsimp only
      cases s.identifiedStructType PreLayerName with
      | some identifiedTy => simp
      | none =>
        dsimp only
        split
        · exact foldlM_checkElement rfl rfl
        · rfl

theorem mem_matched_looksUp (hs : LooksUp S s) {e : IRType × User} (he : e ∈ P.matched s GV) :
    e.1 ∈ S := by
  unfold matched at he
  split at he
  · cases he
  · split at he
    · cases he
    · split at he
      case h_1 hT =>
        rw [List.mem_singleton.1 he]
        exact hs _ _ hT
      · split at he
        · cases hT : (s.ArrayBaseDebugTypeMap (typeHash P.print _)).bind s.identifiedStructType with
          | none =>
            rw [hT] at he
            cases he
          | some identifiedTy =>
            rw [hT] at he
            obtain ⟨O, -, rfl⟩ := List.mem_map.1 he
            obtain ⟨name, -, hname⟩ := Option.bind_eq_some_iff.1 hT
            exact hs _ _ hname
        · cases he

/-- One variable. -/
theorem matchesIn_checkGlobal (hS : ClosedTypes S) (h : P.checkGlobal fuel s GV = some s') :
    MatchesIn S s s' := by
  unfold checkGlobal at h
  split at h
  · obtain rfl := Option.some.inj h
    exact refl_of (MatchesIn S) s
  · split at h
    · obtain rfl := Option.some.inj h
      exact refl_of (MatchesIn S) s
    · intro hs
      rw [checkLayeredDebugInfo_eq] at h
      refine foldlM_rel (r := MatchesIn S) (fun e he s₁ s₂ hmatch _ => ?_) h hs
      exact matches_matchStructTypes hS (mem_matched_looksUp hs he) hmatch

/-! ## Modules -/

theorem closedTypes_typesOf (Ms : List BuilderModule) : ClosedTypes (typesOf Ms) := by
  refine ⟨?_, fun bitwidth => Or.inl ⟨bitwidth, rfl⟩⟩
  rintro t (⟨bitwidth, rfl⟩ | ⟨M, hM, STy, hSTy, hpart⟩) t' hchild
  · cases hchild
  · exact Or.inr ⟨M, hM, STy, hSTy, hpart.tail hchild⟩

/-- The types of a module are looked up in it. -/
theorem recordStructTypes_mem {l : List IRType}
    (h : recordStructTypes (fun _ => none) l name = some identifiedTy) : identifiedTy ∈ l := by
  unfold recordStructTypes at h
  induction l using List.reverseRecOn with
  | nil => cases h
  | append_singleton l STy ih =>
    rw [List.foldl_append, List.foldl_cons, List.foldl_nil] at h
    split at h
    · exact List.mem_append_left _ (ih h)
    · by_cases hname : name = TypeBuilder.parseIdentifiedStructName STy.getStructName
      · subst hname
        rw [Function.update_self] at h
        rw [← Option.some.inj h]
        simp
      · rw [Function.update_of_ne hname] at h
        exact List.mem_append_left _ (ih h)

/-- The state in which the variables of a module are checked. -/
def enter (s : BuilderState) (M : BuilderModule) : BuilderState :=
  { s with
    identifiedStructType := recordStructTypes (fun _ => none) M.getIdentifiedStructTypes }

theorem looksUp_enter (hM : M ∈ Ms) : LooksUp (typesOf Ms) (enter s M) := by
  intro name identifiedTy hT
  exact Or.inr ⟨M, hM, identifiedTy, recordStructTypes_mem hT, .refl⟩

/-- Between the modules no type is looked up. -/
structure ModuleStep (S : Set IRType) (s s' : BuilderState) : Prop where
  names : Adds (GivenBy S) s.Global_Literal_Struct_Map s'.Global_Literal_Struct_Map
  identified : s'.identifiedStructType = fun _ => none
  targets : s'.targetGVSet = s.targetGVSet
  arrays : s'.ArrayBaseDebugTypeMap = s.ArrayBaseDebugTypeMap

/-- What a module does where no type is looked up before. -/
def ModuleSteps (S : Set IRType) (s s' : BuilderState) : Prop :=
  (s.identifiedStructType = fun _ => none) → ModuleStep S s s'

instance : IsPreorder BuilderState (ModuleSteps S) where
  refl _ hs := ⟨refl_of (Adds _) _, hs, rfl, rfl⟩
  trans s s' s'' h h' hs := by
    have hfirst := h hs
    have hsecond := h' hfirst.identified
    exact ⟨trans_of (Adds _) hfirst.names hsecond.names, hsecond.identified,
      hsecond.targets.trans hfirst.targets, hsecond.arrays.trans hfirst.arrays⟩

theorem doModulePass_eq (hs : s.identifiedStructType = fun _ => none) :
    P.doModulePass fuel s M = (M.globals.foldlM (P.checkGlobal fuel) (enter s M)).map fun s =>
      { s with identifiedStructType := fun _ => none } := by
  rw [doModulePass, hs]
  rfl

/-- One module. -/
theorem moduleSteps_doModulePass (hM : M ∈ Ms) (h : P.doModulePass fuel s M = some s') :
    ModuleSteps (typesOf Ms) s s' := by
  intro hs
  rw [doModulePass_eq hs] at h
  obtain ⟨s₁, hglobals, rfl⟩ := Option.map_eq_some_iff.1 h
  have hmatches := foldlM_rel (r := MatchesIn (typesOf Ms))
    (fun GV _ _ _ => matchesIn_checkGlobal (closedTypes_typesOf Ms)) hglobals (looksUp_enter hM)
  exact ⟨hmatches.names, rfl, hmatches.targets, hmatches.arrays⟩

/-! ## Debug information -/

/-- What a composite type does to the names. -/
theorem names_checkComposite {maps maps' : DIType.DebugMaps} {tag : ℕ} {typeName : String}
    {baseType : Option DIType}
    (h : DIType.checkComposite hash maps tag typeName baseType = .returns maps') :
    maps'.Global_Literal_Struct_Map = maps.Global_Literal_Struct_Map ∨
      ∃ name, maps'.Global_Literal_Struct_Map =
          Function.update maps.Global_Literal_Struct_Map hash (some name) ∧
        (name = "Array" ∨ name ≠ "" ∧ tag = DIType.structureTag ∧ name = typeName) := by
  unfold DIType.checkComposite at h
  dsimp only at h
  split at h
  · split at h
    · cases h
    case h_2 element _ =>
      cases h
      refine Or.inr ⟨"Array", ?_, Or.inl rfl⟩
      unfold DIType.elementName
      split
      · split <;> rfl
      · rfl
  · split at h
    case isTrue htag =>
      split at h
      case isTrue hname =>
        cases h
        exact Or.inr ⟨typeName, rfl, Or.inr ⟨hname, htag, rfl⟩⟩
      · cases h
        exact Or.inl rfl
    · cases h
      exact Or.inl rfl

/-- What a walk along a debug type does to the names. -/
theorem names_checkGlobalDebugInfo {maps maps' : DIType.DebugMaps} {DITy : DIType}
    (h : DIType.checkGlobalDebugInfo hash maps fuel DITy = some (.returns maps')) :
    maps'.Global_Literal_Struct_Map = maps.Global_Literal_Struct_Map ∨
      ∃ name, maps'.Global_Literal_Struct_Map =
          Function.update maps.Global_Literal_Struct_Map hash (some name) ∧
        (name = "Array" ∨ name ≠ "" ∧ ∃ baseType,
          DITy.stripped = some (.composite DIType.structureTag name baseType)) := by
  have hends : EndsWith (DIType.checkStep hash maps) (· = .returns maps') (some DITy) :=
    ⟨fuel, _, h, rfl⟩
  rw [DIType.endsWith_stripped fun _ => rfl] at hends
  have hend t r (hstep : DIType.checkStep hash maps t = .inr r)
      (hends : EndsWith (DIType.checkStep hash maps) (· = .returns maps') t) :
      r = .returns maps' := (endsWith_end hstep).1 hends
  cases hs : DITy.stripped with
  | none =>
    rw [hs] at hends
    cases hend none _ rfl hends
  | some DITy' =>
    rw [hs] at hends
    cases DITy' with
    | derived baseType => exact absurd hs (DIType.stripped_ne_derived DITy)
    | basic =>
      cases hend (some .basic) _ rfl hends
      exact Or.inl rfl
    | subroutine =>
      cases hend (some .subroutine) _ rfl hends
      exact Or.inl rfl
    | string => exact absurd hends (not_endsWith_of_stuck rfl)
    | other kind => exact absurd hends (not_endsWith_of_stuck rfl)
    | composite tag typeName baseType =>
      refine (names_checkComposite (hend (some (.composite tag typeName baseType)) _ rfl
        hends)).imp_right ?_
      rintro ⟨name, hnames, hname⟩
      refine ⟨name, hnames, hname.imp_right ?_⟩
      rintro ⟨hne, rfl, rfl⟩
      exact ⟨hne, baseType, rfl⟩

/-- All names are those of the debug information, and no type is looked up. -/
def Described (P : BuilderProgram) (Ms : List BuilderModule) (s s' : BuilderState) : Prop :=
  s'.identifiedStructType = s.identifiedStructType ∧
    ((∀ hash name, s.Global_Literal_Struct_Map hash = some name → P.FromDebug Ms name) →
      ∀ hash name, s'.Global_Literal_Struct_Map hash = some name → P.FromDebug Ms name)

instance : IsPreorder BuilderState (Described P Ms) where
  refl _ := ⟨rfl, id⟩
  trans _ _ _ h h' := ⟨h'.1.trans h.1, fun hs => h'.2 (h.2 hs)⟩

theorem described_recordGlobal (hM : M ∈ Ms) (hGV : GV ∈ M.globals)
    (h : P.recordGlobal fuel s GV = some s') : Described P Ms s s' := by
  have hrefl {s'' : BuilderState} (heq : some s = some s'') : Described P Ms s s'' :=
    Option.some.inj heq ▸ refl_of (Described P Ms) s
  unfold recordGlobal at h
  split at h
  · exact hrefl h
  · split at h
    · exact hrefl h
    · split at h
      · obtain ⟨s₁, hdebug, rfl⟩ := Option.map_eq_some_iff.1 h
        unfold checkGlobalDebugInfo at hdebug
        split at hdebug
        · obtain rfl := Option.some.inj hdebug
          exact ⟨rfl, id⟩
        case h_2 DITy hDITy =>
          split at hdebug
          case h_1 hwalk =>
            obtain rfl := Option.some.inj hdebug
            refine ⟨rfl, fun hs hash name hname => ?_⟩
            rcases names_checkGlobalDebugInfo hwalk with hsame | ⟨name', hnew, hfrom⟩
            · exact hs hash name (hsame ▸ hname)
            · dsimp only at hname
              rw [hnew] at hname
              by_cases hhash : hash = typeHash P.print (P.getValueType GV)
              · subst hhash
                obtain rfl : name' = name := by simpa using hname
                refine hfrom.imp_right ?_
                rintro ⟨hne, baseType, hstripped⟩
                exact ⟨hne, M, hM, GV, hGV, DITy, baseType, hDITy, hstripped⟩
              · rw [Function.update_of_ne hhash] at hname
                exact hs hash name hname
          · cases hdebug
      · exact hrefl h

theorem described_doInitialization (hM : M ∈ Ms) (h : P.doInitialization fuel s M = some s') :
    Described P Ms s s' :=
  foldlM_rel (fun _ hGV _ _ => described_recordGlobal hM hGV) h

/-! ## What is in step -/

/-- Pairs that are matched stay those that are matched. -/
theorem matched_of_matches (h : Matches S s s') {e : IRType × User} (he : e ∈ P.matched s GV) :
    e ∈ P.matched s' GV := by
  unfold matched at he ⊢
  cases hIni : P.getInitializer GV with
  | none => simp [hIni] at he
  | some Ini =>
    simp only [hIni, h.identified, h.arrays] at he ⊢
    cases hname : s.Global_Literal_Struct_Map (typeHash P.print Ini.getType) with
    | none => simp [hname] at he
    | some name =>
      rw [h.names.kept _ _ hname]
      rw [hname] at he
      exact he

/-- A pair in step leaves names. -/
theorem named_matchStructTypes {ms : List Mark} (hstep : InStep P.print [identifiedTy] [U] ms)
    (hmark : .name hash name ∈ ms) (hne : name ≠ "")
    (h : P.matchStructTypes fuel s identifiedTy U = some s') :
    ∃ name', s'.Global_Literal_Struct_Map hash = some name' := by
  unfold matchStructTypes at h
  split at h
  case h_1 s₁ hrun =>
    obtain rfl := Option.some.inj h
    have hends := (endsWith_inStep (Q := (· = .finished s₁)) hstep).1 ⟨fuel, _, hrun, rfl⟩
    obtain rfl := MatchResult.finished.inj hends
    obtain ⟨name', hname'⟩ := exists_firstName hmark hne
    dsimp only
    rw [names_foldl_mark, hname']
    cases hbefore : s.Global_Literal_Struct_Map hash with
    | none => exact ⟨name', by simp [hbefore]⟩
    | some name => exact ⟨name, by simp [hbefore]⟩
  · cases h

/-- A pair that is matched is matched in the module. -/
theorem exists_matchStructTypes (hM : M ∈ Ms) (hs : s.identifiedStructType = fun _ => none)
    (hGV : GV ∈ M.globals) (hvalid : P.checkValidGV GV = true) (htarget : GV ∈ s.targetGVSet)
    (he : (identifiedTy, U) ∈ P.matched (enter s M) GV) (h : P.doModulePass fuel s M = some s') :
    ∃ s₁ s₂, P.matchStructTypes fuel s₁ identifiedTy U = some s₂ ∧
      Adds (GivenBy (typesOf Ms)) s₂.Global_Literal_Struct_Map s'.Global_Literal_Struct_Map := by
  rw [doModulePass_eq hs] at h
  obtain ⟨s₃, hglobals, rfl⟩ := Option.map_eq_some_iff.1 h
  have hclosed := closedTypes_typesOf Ms
  have hlooks := looksUp_enter (s := s) hM
  -- the state in which the variable is checked
  obtain ⟨s₄, s₅, hbefore, hcheck, hafter⟩ := exists_foldlM_of_mem (r := MatchesIn (typesOf Ms))
    (fun GV _ _ _ => matchesIn_checkGlobal hclosed) hglobals hGV
  have hmatches := hbefore hlooks
  have hlooks' : LooksUp (typesOf Ms) s₄ := fun name T hT =>
    hlooks name T (hmatches.identified ▸ hT)
  have htarget' : GV ∈ s₄.targetGVSet := by
    rw [hmatches.targets]
    exact htarget
  rw [checkGlobal, hvalid, if_neg (by simp), if_neg (by simpa using htarget'),
    checkLayeredDebugInfo_eq] at hcheck
  -- the state in which the pair is matched
  obtain ⟨s₁, s₂, hbefore', hmatch, hafter'⟩ :=
    exists_foldlM_of_mem (r := MatchesIn (typesOf Ms)) (fun e he s₁ s₂ hmatch _ =>
      matches_matchStructTypes hclosed (mem_matched_looksUp hlooks' he) hmatch) hcheck
      (matched_of_matches hmatches he)
  have hlooks'' : LooksUp (typesOf Ms) s₂ := by
    intro name T hT
    rw [(matchStructTypes_fields hmatch).1, (hbefore' hlooks').identified] at hT
    exact hlooks' name T hT
  exact ⟨s₁, s₂, hmatch, (trans_of (MatchesIn (typesOf Ms)) hafter' hafter hlooks'').names⟩

/-! ## The pass -/

/-- Each phase is one sweep. -/
theorem run_eq (h : P.run fuel Ms s = some s') : ∃ s₁,
    Ms.foldlM (P.doInitialization fuel) s = some s₁ ∧
      Ms.foldlM (P.doModulePass fuel) s₁ = some s' := by
  cases fuel with
  | zero => cases h
  | succ fuel =>
    obtain ⟨s₁, hinit, hrest⟩ := Option.bind_eq_some_iff.1 h
    obtain ⟨s₂, hpass, hfinal⟩ := Option.bind_eq_some_iff.1 hrest
    have hinit' := (sweeps_eq_foldlM fuel).symm.trans hinit
    have hpass' := (sweeps_eq_foldlM fuel).symm.trans hpass
    have hfinal' := (sweeps_eq_foldlM fuel).symm.trans hfinal
    -- nothing is left for the third one
    have hlast : s₂ = s' := foldlM_rel (r := Eq) (fun _ _ _ _ => Option.some.inj) hfinal'
    exact ⟨s₁, hinit', hlast ▸ hpass'⟩

end

/-- **The names of the pass.**  Both phases are single sweeps; the second one adds names only,
    which are not empty and come from the struct types of the modules. -/
theorem names_run (P : BuilderProgram) {fuel : ℕ} {Ms : List BuilderModule} {s₀ s₂ : BuilderState}
    (hids : s₀.identifiedStructType = fun _ => none)
    (hnames : s₀.Global_Literal_Struct_Map = fun _ => none) (h : P.run fuel Ms s₀ = some s₂) :
    ∃ s₁, Ms.foldlM (P.doInitialization fuel) s₀ = some s₁ ∧
      Ms.foldlM (P.doModulePass fuel) s₁ = some s₂ ∧
      (∀ hash name, s₁.Global_Literal_Struct_Map hash = some name →
        s₂.Global_Literal_Struct_Map hash = some name) ∧
      ∀ hash name, s₂.Global_Literal_Struct_Map hash = some name → name ≠ "" ∧
        (s₁.Global_Literal_Struct_Map hash = some name ∧ P.FromDebug Ms name ∨
          s₁.Global_Literal_Struct_Map hash = none ∧ GivenBy (typesOf Ms) name) := by
  obtain ⟨s₁, hinit, hpass⟩ := run_eq h
  have hdescribed : Described P Ms s₀ s₁ :=
    foldlM_rel (fun M hM _ _ => described_doInitialization hM) hinit
  have hstep : ModuleSteps (typesOf Ms) s₁ s₂ :=
    foldlM_rel (fun M hM _ _ => moduleSteps_doModulePass hM) hpass
  have hadds := (hstep (hdescribed.1.trans hids)).names
  have hfrom := hdescribed.2 (by simp [hnames])
  refine ⟨s₁, hinit, hpass, hadds.kept, fun hash name hname => ?_⟩
  cases hbefore : s₁.Global_Literal_Struct_Map hash with
  | none =>
    obtain ⟨hne, hgiven⟩ := hadds.new hash name hname hbefore
    exact ⟨hne, Or.inr ⟨rfl, hgiven⟩⟩
  | some name' =>
    obtain rfl := Option.some.inj ((hadds.kept hash name' hbefore).symm.trans hname)
    have hdebug := hfrom hash name' hbefore
    have hne : name' ≠ "" := by
      rcases hdebug with rfl | ⟨hne, -⟩
      · decide
      · exact hne
    exact ⟨hne, Or.inl ⟨rfl, hdebug⟩⟩

/-- A device that is described in the debug information. -/
def devProgram : BuilderProgram where
  print := printShape
  isLiteral t := t.getStructName = ""
  getName _ := "device"
  getInitializer _ := some devConstant
  isConstantAggregate _ := true
  getDebugType _ := some (.derived (some (.composite DIType.structureTag "Dev" none)))
  getValueType _ := devConstant.getType

/-- The module of the device. -/
def devModule : BuilderModule := ⟨[0], [dev]⟩

/-- Before the pass. -/
def start : BuilderState := ⟨⟨fun _ => none, fun _ => none, fun _ => none⟩, fun _ => none, ∅, ∅⟩

theorem isSome_run_dev : (devProgram.run 20 [devModule] start).isSome = true := by decide

theorem names_run_dev : ∃ s₁ s₂, devProgram.run 20 [devModule] start = some s₂ ∧
    [devModule].foldlM (devProgram.doInitialization 20) start = some s₁ ∧
    s₁.Global_Literal_Struct_Map (.type "fields4") = some "Dev" ∧
    s₂.Global_Literal_Struct_Map (.type "fields4") = some "Dev" := by
  obtain ⟨s₂, hrun⟩ := Option.isSome_iff_exists.1 isSome_run_dev
  obtain ⟨s₁, hinit, -, hkept, -⟩ := names_run devProgram rfl rfl hrun
  have hfirst : ([devModule].foldlM (devProgram.doInitialization 20) start).bind
      (fun s => s.Global_Literal_Struct_Map (.type "fields4")) = some "Dev" := by decide
  rw [hinit, Option.bind_some] at hfirst
  exact ⟨s₁, s₂, hrun, hinit, hfirst, hkept _ _ hfirst⟩

/-- **The names of what is in step.**  If a variable is a target, its type has a name after the
    first sweep and this is found in its module, then everything that is in step with its
    initializer, or the elements of this, has a name after the pass. -/
theorem named_run (P : BuilderProgram) {fuel : ℕ} {Ms : List BuilderModule}
    {s₀ s₁ s₂ : BuilderState} (hids : s₀.identifiedStructType = fun _ => none)
    (hinit : Ms.foldlM (P.doInitialization fuel) s₀ = some s₁) (h : P.run fuel Ms s₀ = some s₂)
    {M : BuilderModule} (hM : M ∈ Ms) {GV : Value} (hGV : GV ∈ M.globals)
    (hvalid : P.checkValidGV GV = true) (htarget : GV ∈ s₁.targetGVSet) {identifiedTy : IRType}
    {U : User} (hmatched : (identifiedTy, U) ∈ P.matched (enter s₁ M) GV) {ms : List Mark}
    (hstep : InStep P.print [identifiedTy] [U] ms) {hash : Key} {name : String}
    (hmark : .name hash name ∈ ms) (hne : name ≠ "") :
    ∃ name', s₂.Global_Literal_Struct_Map hash = some name' := by
  obtain ⟨s₁', hinit', hpass⟩ := run_eq h
  obtain rfl := Option.some.inj (hinit.symm.trans hinit')
  have hdescribed : Described P Ms s₀ s₁ :=
    foldlM_rel (fun M hM _ _ => described_doInitialization hM) hinit
  obtain ⟨s₃, s₄, hbefore, hmodule, hafter⟩ := exists_foldlM_of_mem
    (r := ModuleSteps (typesOf Ms)) (fun M hM _ _ => moduleSteps_doModulePass hM) hpass hM
  have hfirst := hbefore (hdescribed.1.trans hids)
  have hthis := moduleSteps_doModulePass hM hmodule hfirst.identified
  -- in between only names are added
  have henter : Matches (typesOf Ms) (enter s₁ M) (enter s₃ M) :=
    ⟨hfirst.names, rfl, hfirst.targets, hfirst.arrays⟩
  obtain ⟨s₅, s₆, hmatch, hrest⟩ := exists_matchStructTypes hM hfirst.identified hGV hvalid
    (hfirst.targets ▸ htarget) (matched_of_matches henter hmatched) hmodule
  obtain ⟨name', hname'⟩ := named_matchStructTypes hstep hmark hne hmatch
  exact ⟨name', (hafter hthis.identified).names.kept _ _ (hrest.kept _ _ hname')⟩

theorem named_run_dev : ∃ s₂, devProgram.run 20 [devModule] start = some s₂ ∧
    ∃ name', s₂.Global_Literal_Struct_Map (.type "fields2") = some name' := by
  obtain ⟨s₂, hrun⟩ := Option.isSome_iff_exists.1 isSome_run_dev
  obtain ⟨s₁, hinit, -⟩ := run_eq hrun
  have hall : ([devModule].foldlM (devProgram.doInitialization 20) start).all (fun s =>
      s.targetGVSet = {0} ∧ s.Global_Literal_Struct_Map (.type "fields4") = some "Dev") = true := by
    decide
  rw [hinit, Option.all_some, decide_eq_true_eq] at hall
  have hname : (enter s₁ devModule).Global_Literal_Struct_Map
      (typeHash devProgram.print devConstant.getType) = some "Dev" := hall.2
  have hfound : (enter s₁ devModule).identifiedStructType "Dev" = some dev := by
    have hparsed : TypeBuilder.parseIdentifiedStructName dev.getStructName = "Dev" := by decide
    have hnamed : dev.getStructName ≠ "" := by decide
    simp [enter, devModule, recordStructTypes, hparsed, hnamed]
  have hmatched : (dev, devConstant) ∈ devProgram.matched (enter s₁ devModule) 0 := by
    have hIni : devProgram.getInitializer 0 = some devConstant := rfl
    simp [matched, hIni, hname, hfound]
  have hmark : Mark.name (.type "fields2") "Ops" ∈
      [Mark.name (typeHash printShape devConstant.getType) "Dev",
        .name (typeHash printShape opsConstant.getType) "Ops"] := .tail _ (.head _)
  have hname' := named_run devProgram rfl hinit hrun (by simp) (by simp [devModule]) (by decide)
    (by simp [hall.1]) hmatched inStep_dev hmark (by decide)
  exact ⟨s₂, hrun, hname'⟩

end BuilderProgram

end TFA
