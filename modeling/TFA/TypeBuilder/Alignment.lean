/-
  A type beside a constant (`matchStructTypes` in `TypeBuilder.cc`).

  Which constant the loop holds against which part of the type is the result of two deques
  that advance at different rates.  Here it is found by recursion on the type: each part
  takes the next constants and leaves the others to the parts after it.

  * `align` lays a type beside constants;
  * `alignAll_matchTypes`: an iteration of the loop does not change what the deques come to;
  * `endsSafely_iff`: the traversal reads nothing that is not there exactly if no array
    stands beside a constant array of its length that cannot be opened, and no array of the
    constants stands for more types than there are.
-/
import TFA.TypeBuilder.InStep

namespace TFA

open Iterate

namespace MatchState

/-- How far a type and a constant have been laid side by side. -/
structure Alignment where
  /-- what stands against each other -/
  pairs : List (IRType × User) := []
  /-- the constants that are left -/
  users : List User
  /-- the kinds of the types that an array constant still stands for -/
  missing : List TypeID := []

namespace Alignment

variable (print : IRType → String)

/-- The next constant stands against the type, unless an array constant has taken this one.
    If the two look different, more is done. -/
def meet (t : IRType) (differ : User → Alignment → Alignment) (a : Alignment) : Alignment :=
  match a.missing, a.users with
  | typeID :: missing, _ => { a with missing := if t.getTypeID = typeID then missing else [] }
  | [], [] => a
  | [], u :: users =>
    let a := { a with pairs := (t, u) :: a.pairs, users }
    if typeHash print t = typeHash print u.getType then a else differ u a

/-- An array constant stands for as many types of the kind of its elements: for this one and
    `n` more. -/
def takeKind (t : IRType) (typeID : TypeID) (n : ℕ) (a : Alignment) : Alignment :=
  if t.getTypeID = typeID then { a with missing := List.replicate n typeID } else a

/-- The number of elements less one, which is unsigned. -/
def lessOne (num2 : ℕ) : ℕ := toUnsigned (toUnsigned num2 + (2 ^ 32 - 1))

/-- A literal struct gives its defined fields. -/
def openStruct (u : User) (name2 : String) (inner : Alignment → Alignment) (a : Alignment) :
    Alignment :=
  if name2 ≠ "" ∨ u.fields = [] then a else inner { a with users := u.fields ++ a.users }

/-- An array constant gives its first operand to an array of its length. -/
def openArray (u : User) (num1 num2 : ℕ) (inner : Alignment → Alignment) (a : Alignment) :
    Alignment :=
  if toUnsigned num1 = 0 ∨ toUnsigned num2 ≠ toUnsigned num1 then a
  else
    match u.operands with
    | [] => a
    | OU :: _ => inner { a with users := OU :: a.users }

/-- An integer takes as many narrower constants as it has room for. -/
def integer (bitwidth1 : ℕ) : Alignment → Alignment :=
  meet print (.integer bitwidth1) fun u a =>
    match u.getType with
    | .integer bitwidth2 =>
      if bitwidth1 = bitwidth2 then a
      else if bitwidth2 < bitwidth1 then
        (fun a => integer bitwidth2 a)^[bitwidth1 / bitwidth2] { a with users := u :: a.users }
      else { a with users := u :: a.users }
    | .array subtype2 num2 => a.takeKind (.integer bitwidth1) subtype2.getTypeID (lessOne num2)
    | _ => a
termination_by bitwidth1

mutual

/-- The type is laid beside the constants. -/
def align : IRType → Alignment → Alignment
  | .integer bitwidth => integer print bitwidth
  | .struct id name elements =>
    meet print (.struct id name elements) fun u a =>
      match u.getType with
      | .struct _ name2 _ =>
        if containsSub name "union." then a else a.openStruct u name2 (alignAll elements)
      | .array subtype2 num2 =>
        a.takeKind (.struct id name elements) subtype2.getTypeID (lessOne num2)
      | _ => a
  | .array element num =>
    meet print (.array element num) fun u a =>
      match u.getType with
      | .struct _ name2 _ => a.openStruct u name2 (align element)^[toUnsigned num]
      | .array _ num2 => a.openArray u num num2 (align element)
      | _ => a
  | .pointer id => meet print (.pointer id) fun u a =>
      match u.getType with
      | .array subtype2 num2 => a.takeKind (.pointer id) subtype2.getTypeID (lessOne num2)
      | _ => a
  | .function id => meet print (.function id) fun u a =>
      match u.getType with
      | .array subtype2 num2 => a.takeKind (.function id) subtype2.getTypeID (lessOne num2)
      | _ => a
  | .other typeID id => meet print (.other typeID id) fun u a =>
      match u.getType with
      | .array subtype2 num2 => a.takeKind (.other typeID id) subtype2.getTypeID (lessOne num2)
      | _ => a

/-- The types one after the other. -/
def alignAll : List IRType → Alignment → Alignment
  | [], a => a
  | t :: ts, a => alignAll ts (align t a)

end

section
variable {print : IRType → String} {t : IRType} {ts ts' : List IRType} {u : User} {us : List User}
  {a : Alignment} {ps : List (IRType × User)} {n : ℕ} {differ : User → Alignment → Alignment}

theorem alignAll_append :
    alignAll print (ts ++ ts') a = alignAll print ts' (alignAll print ts a) := by
  induction ts generalizing a with
  | nil => rfl
  | cons t ts ih => exact ih

theorem alignAll_replicate : alignAll print (List.replicate n t) a = (align print t)^[n] a := by
  induction n generalizing a with
  | zero => rfl
  | succ n ih => exact ih

variable (print t) in
/-- Every type first meets the next constant. -/
theorem exists_meet : ∃ differ, ∀ a, align print t a = meet print t differ a := by
  cases t with
  | integer bitwidth => exact ⟨_, fun a => congrFun (integer.eq_1 print bitwidth) a⟩
  | _ => exact ⟨_, fun _ => rfl⟩

/-! ## Types that an array has taken -/

theorem align_missing {typeID : TypeID} {missing : List TypeID} :
    align print t ⟨ps, us, typeID :: missing⟩ =
      ⟨ps, us, if t.getTypeID = typeID then missing else []⟩ := by
  obtain ⟨differ, hmeet⟩ := exists_meet print t
  rw [hmeet, meet]

theorem alignAll_users_nil : alignAll print ts ⟨ps, [], []⟩ = ⟨ps, [], []⟩ := by
  induction ts with
  | nil => rfl
  | cons t ts ih =>
    obtain ⟨differ, hmeet⟩ := exists_meet print t
    rw [alignAll, hmeet]
    exact ih

/-- An array constant takes the types that `updateQueues` pops. -/
theorem alignAll_missing {typeID : TypeID} :
    alignAll print ts ⟨ps, us, List.replicate n typeID⟩ =
      match popSame typeID n ts with
      | some ts' => alignAll print ts' ⟨ps, us, []⟩
      | none => ⟨ps, us, List.replicate (n - ts.length) typeID⟩ := by
  induction n generalizing ts with
  | zero => rfl
  | succ n ih =>
    cases ts with
    | nil => rfl
    | cons t ts =>
      rw [alignAll, List.replicate_succ, align_missing, popSame]
      by_cases hkind : typeID = t.getTypeID
      · rw [if_pos hkind.symm, if_neg (not_not.2 hkind), ih, List.length_cons,
          Nat.add_sub_add_right]
      · rw [if_neg (Ne.symm hkind), if_pos hkind]

/-! ## Pairs stay -/

theorem pairs_meet (h : ∀ u a, a.pairs ⊆ (differ u a).pairs) (a : Alignment) :
    a.pairs ⊆ (meet print t differ a).pairs := by
  unfold meet
  split
  case h_1 => exact List.Subset.refl _
  case h_2 => exact List.Subset.refl _
  case h_3 u users _ _ =>
    dsimp only
    split
    · exact List.subset_cons_self _ _
    · exact List.Subset.trans (List.subset_cons_self _ _)
        (h u { a with pairs := (t, u) :: a.pairs, users := users })

theorem pairs_iterate {f : Alignment → Alignment} (h : ∀ a, a.pairs ⊆ (f a).pairs) (a : Alignment) :
    a.pairs ⊆ (f^[n] a).pairs := by
  induction n generalizing a with
  | zero => exact List.Subset.refl _
  | succ n ih => exact List.Subset.trans (h a) (ih (f a))

theorem pairs_takeKind {typeID : TypeID} (a : Alignment) :
    (a.takeKind t typeID n).pairs = a.pairs := by
  unfold takeKind
  split <;> rfl

theorem pairs_openStruct {name2 : String} {inner : Alignment → Alignment}
    (h : ∀ a, a.pairs ⊆ (inner a).pairs) (a : Alignment) :
    a.pairs ⊆ (a.openStruct u name2 inner).pairs := by
  unfold openStruct
  split
  · exact List.Subset.refl _
  · exact h { a with users := u.fields ++ a.users }

theorem pairs_openArray {num1 num2 : ℕ} {inner : Alignment → Alignment}
    (h : ∀ a, a.pairs ⊆ (inner a).pairs) (a : Alignment) :
    a.pairs ⊆ (a.openArray u num1 num2 inner).pairs := by
  unfold openArray
  split
  · exact List.Subset.refl _
  · split
    · exact List.Subset.refl _
    case h_2 OU operands _ => exact h { a with users := OU :: a.users }

theorem pairs_integer (bitwidth1 : ℕ) (a : Alignment) :
    a.pairs ⊆ (integer print bitwidth1 a).pairs := by
  induction bitwidth1 using Nat.strongRecOn generalizing a with
  | ind bitwidth1 ih =>
    rw [integer]
    refine pairs_meet (fun u a => ?_) a
    split
    case h_1 bitwidth2 _ =>
      split_ifs with heq hlt
      · exact List.Subset.refl _
      · exact pairs_iterate (ih bitwidth2 hlt) { a with users := u :: a.users }
      · exact List.Subset.refl _
    case h_2 => exact (pairs_takeKind a).symm ▸ List.Subset.refl _
    case h_3 => exact List.Subset.refl _

mutual

theorem pairs_align : ∀ (t : IRType) (a : Alignment), a.pairs ⊆ (align print t a).pairs
  | .integer bitwidth, a => pairs_integer bitwidth a
  | .struct id name elements, a => by
    refine pairs_meet (fun u a => ?_) a
    split
    · split
      · exact List.Subset.refl _
      · exact pairs_openStruct (pairs_alignAll elements) a
    · exact (pairs_takeKind a).symm ▸ List.Subset.refl _
    · exact List.Subset.refl _
  | .array element num, a => by
    refine pairs_meet (fun u a => ?_) a
    split
    · exact pairs_openStruct (pairs_iterate (pairs_align element)) a
    · exact pairs_openArray (pairs_align element) a
    · exact List.Subset.refl _
  | .pointer id, a => by
    refine pairs_meet (fun u a => ?_) a
    split
    · exact (pairs_takeKind a).symm ▸ List.Subset.refl _
    · exact List.Subset.refl _
  | .function id, a => by
    refine pairs_meet (fun u a => ?_) a
    split
    · exact (pairs_takeKind a).symm ▸ List.Subset.refl _
    · exact List.Subset.refl _
  | .other typeID id, a => by
    refine pairs_meet (fun u a => ?_) a
    split
    · exact (pairs_takeKind a).symm ▸ List.Subset.refl _
    · exact List.Subset.refl _

theorem pairs_alignAll : ∀ (ts : List IRType) (a : Alignment),
    a.pairs ⊆ (alignAll print ts a).pairs
  | [], _ => List.Subset.refl _
  | t :: ts, a => List.Subset.trans (pairs_align t a) (pairs_alignAll ts _)

end

end

end Alignment

/-! ## The loop -/

section
variable {print : IRType → String} {s s' : MatchState} {t : IRType} {u : User}
  {ps : List (IRType × User)}

open MatchState.Alignment

/-- The next constant stands against the type. -/
theorem meet_of_ne {differ : User → Alignment → Alignment} {us : List User}
    (hhash : typeHash print t ≠ typeHash print u.getType) :
    meet print t differ ⟨ps, u :: us, []⟩ = differ u ⟨(t, u) :: ps, us, []⟩ := by
  rw [meet]
  exact if_neg hhash

theorem alignAll_matchStruct {id2 : ℕ} {name2 : String} {elements2 : List IRType}
    (htype2 : u.getType = .struct id2 name2 elements2)
    (hhash : typeHash print t ≠ typeHash print u.getType) :
    alignAll print (t :: s.Ty1_queue) ⟨ps, u :: s.U2_queue, []⟩ =
      alignAll print (s.matchStruct print t u.getType name2 u).Ty1_queue
        ⟨(t, u) :: ps, (s.matchStruct print t u.getType name2 u).U2_queue, []⟩ := by
  have hupdate : updateUserQueue u s.U2_queue =
      if u.fields = [] then none else some (u.fields ++ s.U2_queue) := by
    unfold updateUserQueue User.fields
    cases u.operands.filter (!·.isUndef) <;> rfl
  by_cases hname : name2 ≠ ""
  · simp only [matchStruct, if_pos hname]
    cases t with
    | integer bitwidth =>
      rw [alignAll, align, integer, meet_of_ne hhash]
      simp only [htype2]
    | struct id name elements =>
      rw [alignAll, align, meet_of_ne hhash]
      simp only [htype2, openStruct, if_pos (Or.inl hname), ite_self]
    | _ =>
      rw [alignAll, align, meet_of_ne hhash]
      simp only [htype2, openStruct, if_pos (Or.inl hname)]
  · have hopen : (name2 ≠ "" ∨ u.fields = []) ↔ u.fields = [] := or_iff_right hname
    cases t with
    | integer bitwidth =>
      rw [alignAll, align, integer, meet_of_ne hhash]
      simp only [htype2, matchStruct, if_neg hname]
    | struct id name elements =>
      have hdeques := @recordName_deques print s u.getType (parseIdentifiedStructName name)
      rw [alignAll, align, meet_of_ne hhash]
      simp only [htype2, openStruct, hopen, matchStruct, if_neg hname] at hdeques ⊢
      by_cases hunion : containsSub name "union." = true
      · simp only [if_pos hunion, hdeques]
      · simp only [if_neg hunion, hdeques, hupdate]
        by_cases hfields : u.fields = []
        · simp only [if_pos hfields, hdeques]
        · simp only [if_neg hfields, updateTypeQueue, alignAll_append]
    | array element num =>
      have hdeques := @recordName_deques print s u.getType "Array"
      rw [alignAll, align, meet_of_ne hhash]
      simp only [htype2, openStruct, hopen, matchStruct, if_neg hname] at hdeques ⊢
      simp only [hdeques, hupdate]
      by_cases hfields : u.fields = []
      · simp only [if_pos hfields, hdeques]
      · simp only [if_neg hfields, alignAll_append, alignAll_replicate]
    | _ =>
      rw [alignAll, align, meet_of_ne hhash]
      simp only [htype2, matchStruct, if_neg hname]

/-- An array that stands for types of its kind takes those that `popSame` pops. -/
theorem alignAll_takeKind {typeID : TypeID} {n : ℕ} {ts : List IRType} {us : List User} :
    alignAll print ts (takeKind t typeID n ⟨ps, us, []⟩) =
      match if typeID ≠ t.getTypeID then some ts else popSame typeID n ts with
      | some ts' => alignAll print ts' ⟨ps, us, []⟩
      | none => ⟨ps, us, List.replicate (n - ts.length) typeID⟩ := by
  unfold takeKind
  by_cases hkind : t.getTypeID = typeID
  · rw [if_pos hkind, if_neg (not_not.2 hkind.symm)]
    exact alignAll_missing
  · rw [if_neg hkind, if_pos (Ne.symm hkind)]

theorem updateQueues_eq {subtype2 : IRType} {num2 : ℕ} {ts : List IRType} :
    updateQueues t subtype2 num2 ts =
      if subtype2.getTypeID ≠ t.getTypeID then some ts
      else popSame subtype2.getTypeID (lessOne num2) ts := rfl

/-- A type that is no array against an array constant. -/
theorem alignAll_noArray {subtype2 : IRType} {num2 : ℕ} {ts : List IRType} {us : List User}
    (htype2 : u.getType = .array subtype2 num2) (harray : t.isArrayTy = false)
    (hhash : typeHash print t ≠ typeHash print u.getType) :
    alignAll print (t :: ts) ⟨ps, u :: us, []⟩ =
      alignAll print ts
        (takeKind t subtype2.getTypeID (lessOne num2) ⟨(t, u) :: ps, us, []⟩) := by
  cases t with
  | integer bitwidth =>
    rw [alignAll, align, integer, meet_of_ne hhash]
    simp only [htype2]
  | array element num => cases harray
  | _ =>
    rw [alignAll, align, meet_of_ne hhash]
    simp only [htype2]

theorem alignAll_matchArray {subtype2 : IRType} {num2 : ℕ}
    (htype2 : u.getType = .array subtype2 num2)
    (hhash : typeHash print t ≠ typeHash print u.getType)
    (h : s.matchArray t subtype2 num2 u = .inl s') :
    alignAll print (t :: s.Ty1_queue) ⟨ps, u :: s.U2_queue, []⟩ =
      alignAll print s'.Ty1_queue ⟨(t, u) :: ps, s'.U2_queue, []⟩ := by
  unfold matchArray at h
  split at h
  case h_1 element num =>
    rw [alignAll, align, meet_of_ne hhash]
    simp only [htype2, openArray]
    split at h
    case isTrue hzero =>
      cases h
      have hskip : toUnsigned num = 0 ∨ toUnsigned num2 ≠ toUnsigned num := by omega
      rw [if_pos hskip]
    case isFalse hpos =>
      split at h
      case isFalse hne =>
        cases h
        rw [if_pos (Or.inr hne)]
      case isTrue heq =>
        have hopen : ¬ (toUnsigned num = 0 ∨ toUnsigned num2 ≠ toUnsigned num) := by omega
        rw [if_neg hopen]
        split at h
        case h_1 => cases h
        case h_2 OU operands hoperands =>
          cases h
          simp only [hoperands]
          rfl
  case h_2 hnoArray =>
    have harray : t.isArrayTy = false := by
      cases t with
      | array element num => exact absurd rfl (hnoArray element num)
      | _ => rfl
    rw [alignAll_noArray htype2 harray hhash, alignAll_takeKind, ← updateQueues_eq]
    split at h
    case h_1 => cases h
    case h_2 ts' hpop =>
      cases h
      rw [hpop]

/-- **One iteration** goes on with the same alignment. -/
theorem alignAll_matchTypes (h : s.matchTypes print t u = .inl s') :
    alignAll print (t :: s.Ty1_queue) ⟨ps, u :: s.U2_queue, []⟩ =
      alignAll print s'.Ty1_queue ⟨(t, u) :: ps, s'.U2_queue, []⟩ := by
  by_cases hhash : typeHash print t = typeHash print u.getType
  · obtain ⟨differ, hmeet⟩ := exists_meet print t
    rw [matchTypes_same hhash] at h
    cases h
    rw [alignAll, hmeet, meet]
    simp only [if_pos hhash]
  unfold matchTypes at h
  rw [if_neg hhash] at h
  split at h
  case h_1 htype2 =>
    cases h
    rw [alignAll, align, meet_of_ne hhash]
    simp only [htype2]
  case h_2 htype2 =>
    cases h
    rw [alignAll, align, meet_of_ne hhash]
    simp only [htype2]
  case h_3 bitwidth1 bitwidth2 htype2 =>
    rw [alignAll, align, integer, meet_of_ne hhash]
    simp only [htype2]
    split at h
    case isTrue heq =>
      cases h
      rw [if_pos heq]
    case isFalse hne =>
      cases h
      rw [if_neg hne, alignAll_append, alignAll_replicate]
      split_ifs with hlt
      · rfl
      · rw [Nat.div_eq_of_lt (by omega)]
        rfl
  case h_4 t _ _ id name2 elements2 htype2 =>
    cases h
    have hstruct := @alignAll_matchStruct print s t _ ps _ _ _ htype2 hhash
    rwa [htype2] at hstruct
  case h_5 htype2 => exact alignAll_matchArray htype2 hhash h
  case h_6 t _ _ hstruct harray _ _ hinteger =>
    cases h
    cases t with
    | integer bitwidth =>
      rw [alignAll, align, integer, meet_of_ne hhash]
      cases htype2 : u.getType with
      | integer bitwidth2 => exact (hinteger _ _ rfl htype2).elim
      | array subtype2 num2 => exact (harray _ _ htype2).elim
      | _ => rfl
    | _ =>
      rw [alignAll, align, meet_of_ne hhash]
      cases htype2 : u.getType with
      | struct id name elements => exact (hstruct _ _ _ htype2).elim
      | array subtype2 num2 => exact (harray _ _ htype2).elim
      | _ => rfl

/-- An array that cannot be opened is not, and its pair is kept. -/
theorem align_unopenable {us : List User} (h : Unopenable print t u) :
    align print t ⟨ps, u :: us, []⟩ = ⟨(t, u) :: ps, us, []⟩ := by
  obtain ⟨subtype1, num1, subtype2, num2, rfl, htype2, hhash, -, -, hoperands⟩ := h
  rw [align, meet_of_ne hhash]
  simp only [htype2, openArray, hoperands, ite_self]

end

/-! ## What is read -/

/-- No array that cannot be opened is, and no array of the constants stands for more types
    than there are. -/
def Alignment.ReadsWell (print : IRType → String) (a : Alignment) : Prop :=
  (∀ p ∈ a.pairs, ¬ Unopenable print p.1 p.2) ∧ a.missing = []

section
variable {print : IRType → String} {s : MatchState} {t : IRType} {u : User} {us : List User}
  {ps : List (IRType × User)} {ts : List IRType}

open MatchState.Alignment

theorem not_readsWell_unopenable (h : Unopenable print t u) :
    ¬ (alignAll print (t :: ts) ⟨ps, u :: us, []⟩).ReadsWell print := by
  rintro ⟨hpairs, -⟩
  have hkept : (t, u) ∈ (alignAll print (t :: ts) ⟨ps, u :: us, []⟩).pairs := by
    rw [alignAll, align_unopenable h]
    exact pairs_alignAll ts _ (List.mem_cons_self ..)
  exact hpairs _ hkept h

/-- There are too few types for an array constant. -/
theorem not_readsWell_missing {subtype2 : IRType} {num2 : ℕ}
    (htype2 : u.getType = .array subtype2 num2) (harray : t.isArrayTy = false)
    (hhash : typeHash print t ≠ typeHash print u.getType)
    (hnone : updateQueues t subtype2 num2 ts = none) :
    ¬ (alignAll print (t :: ts) ⟨ps, u :: us, []⟩).ReadsWell print := by
  rintro ⟨-, hmissing⟩
  obtain ⟨-, -, hlt⟩ := updateQueues_eq_none_iff.1 hnone
  rw [alignAll_noArray htype2 harray hhash, alignAll_takeKind, ← updateQueues_eq, hnone,
    List.replicate_eq_nil_iff] at hmissing
  have hpos : 0 < lessOne num2 - ts.length := Nat.sub_pos_of_lt hlt
  omega

/-- **From any state**, the loop ends well exactly if the deques do. -/
theorem endsWith_iff_readsWell (s : MatchState) (hps : ∀ p ∈ ps, ¬ Unopenable print p.1 p.2) :
    EndsWith (iterate print) (fun r => ∃ s', r = .finished s') s ↔
      (alignAll print s.Ty1_queue ⟨ps, s.U2_queue, []⟩).ReadsWell print := by
  induction hn : weights s.Ty1_queue using Nat.strongRecOn generalizing s ps with
  | ind n ih =>
    obtain ⟨Ty1_queue, U2_queue, names, unions⟩ := s
    match Ty1_queue, U2_queue with
    | [], U2_queue =>
      have hend : iterate print ⟨[], U2_queue, names, unions⟩ = .inr (.finished _) := rfl
      exact iff_of_true ((endsWith_end hend).2 ⟨_, rfl⟩) ⟨hps, rfl⟩
    | t :: ts, [] =>
      have hend : iterate print ⟨t :: ts, [], names, unions⟩ = .inr (.finished _) := rfl
      rw [alignAll_users_nil]
      exact iff_of_true ((endsWith_end hend).2 ⟨_, rfl⟩) ⟨hps, rfl⟩
    | t :: ts, u :: us =>
      cases hstep : matchTypes print ⟨ts, us, names, unions⟩ t u with
      | inl s' =>
        have hnext : iterate print ⟨t :: ts, u :: us, names, unions⟩ = .inl s' := hstep
        have hlt := weights_iterate_lt hnext
        have hopens : ¬ Unopenable print t u := by
          intro hread
          rw [matchTypes_unopenable hread] at hstep
          cases hstep
        have hpairs : ∀ p ∈ (t, u) :: ps, ¬ Unopenable print p.1 p.2 :=
          List.forall_mem_cons.2 ⟨hopens, hps⟩
        rw [endsWith_next hnext, ih _ (hn ▸ hlt) s' hpairs rfl]
        exact iff_of_eq (congrArg _ (alignAll_matchTypes hstep).symm)
      | inr r =>
        have hend : iterate print ⟨t :: ts, u :: us, names, unions⟩ = .inr r := hstep
        rw [endsWith_end hend]
        rcases matchTypes_eq_inr hstep with
          ⟨hread, rfl⟩ | ⟨hhash, harray, rfl, subtype2, num2, htype2, hnone⟩
        · exact iff_of_false (by rintro ⟨_, h⟩; cases h) (not_readsWell_unopenable hread)
        · exact iff_of_false (by rintro ⟨_, h⟩; cases h)
            (not_readsWell_missing htype2 harray hhash hnone)

/-- **What the traversal reads is there** exactly if, when the type is laid beside the
    constant, no array meets an array of its length that cannot be opened and no array of
    the constant stands for more types than follow. -/
theorem endsSafely_iff {identifiedTy : IRType} {U : User} :
    s.EndsSafely print identifiedTy U ↔
      (align print identifiedTy { users := [U] }).ReadsWell print :=
  endsSafely_iff_endsWith.trans (endsWith_iff_readsWell _ (List.forall_mem_nil _))

end

end MatchState

end TFA
