/-
  The names of pure virtual methods (`getMethodNameOfPureVirtualCall` in
  `CHABuilderTools.cc`).

  A slot of a pure virtual method is named after the function that a derived class has in
  its own list at the same index.  The index is that of the base class, and the lists have
  been shortened by `CPPVTableBuilder`; the check against the length of a list lets the
  length itself pass.

  * `Consults`: the list that is read for a derived class, `Answers`: it has the name;
  * `NoListEnds`: no list ends right before the index, up to the first class that answers;
  * `firstMethod_isSome_iff`: then all derived classes are read within bounds;
  * `Counts`: the counter of `CPPVTableMapping` behind some entries;
  * `buildClasses_isSome_iff`: the pass stays within bounds exactly if no list ends right
    before the index of an entry that it comes to.
-/
import TFA.CHABuilder.VTables

namespace TFA

open Worklist

/-! ## Lists taken apart -/

section
variable {α β : Type}

/-- The places of a list are its first element and those of the rest. -/
theorem forall_split_cons {Q : List α → α → Prop} {a : α} {l : List α} :
    (∀ before e after, a :: l = before ++ e :: after → Q before e) ↔
      Q [] a ∧ ∀ before e after, l = before ++ e :: after → Q (a :: before) e := by
  constructor
  · intro h
    refine ⟨h [] a l rfl, ?_⟩
    intro before e after hl
    have hcons : a :: l = (a :: before) ++ e :: after := by rw [hl, List.cons_append]
    exact h (a :: before) e after hcons
  · rintro ⟨hfirst, hrest⟩ before e after hl
    cases before with
    | nil =>
      cases hl
      exact hfirst
    | cons b before =>
      cases hl
      exact hrest before e after rfl

/-- A run of steps gets to the end if each step succeeds, whatever the state. -/
theorem foldlM_isSome_iff {f : β → α → Option β} {p : α → Prop} (l : List α) (b : β)
    (hf : ∀ a ∈ l, ∀ b, (f b a).isSome ↔ p a) : (l.foldlM f b).isSome ↔ ∀ a ∈ l, p a := by
  induction l generalizing b with
  | nil => simp
  | cons a l ih =>
    have ha := hf a List.mem_cons_self b
    rw [List.foldlM_cons, List.forall_mem_cons, ← ha]
    cases f b a with
    | none => simp
    | some b' =>
      have hrest := ih b' fun a ha => hf a (List.mem_cons_of_mem _ ha)
      simpa using hrest

end

namespace CPPProgram

section
variable (P : CPPProgram)

/-! ## The derived classes -/

/-- For the base class `C`, the list `method_array` of the derived class `D` is read, and
    `name` gives the name of a function in it. -/
inductive Consults (s : CHABuilder) (C D : String) : List Func → (Func → String) → Prop where
  /-- the only list of the class -/
  | single {gv method_array} : s.GlobalNameGVMap (vtName D) = some gv →
      s.GlobalVTableMap gv = [method_array] → Consults s C D method_array P.getCPPFuncName
  /-- the list of the base class, if each base class has one -/
  | multiple {gv method_array k} : s.GlobalNameGVMap (vtName D) = some gv →
      (s.GlobalVTableMap gv).length ≠ 1 →
      (s.GlobalVTableMap gv).length = (targets s.ParentClassMap D).length →
      (targets s.ParentClassMap D).idxOf? C = some k →
      (s.GlobalVTableMap gv)[k]? = some method_array → Consults s C D method_array P.thunkTarget

/-- The derived class `D` has the name of the method at the index. -/
def Answers (s : CHABuilder) (C : String) (index : ℕ) (D : String) : Prop :=
  ∃ method_array name vf, P.Consults s C D method_array name ∧
    method_array[index]? = some vf ∧ P.kind vf = .function ∧ name vf ≠ ""

/-- No list of one of these classes ends right before the index, up to the first class that
    answers. -/
def NoListEndsIn (s : CHABuilder) (C : String) (index : ℕ) (classes : List String) : Prop :=
  ∀ before D after, classes = before ++ D :: after → (∀ E ∈ before, ¬ P.Answers s C index E) →
    ∀ method_array name, P.Consults s C D method_array name → method_array.length ≠ index

/-- `NoListEndsIn`, for the classes that are derived from `C`. -/
def NoListEnds (s : CHABuilder) (C : String) (index : ℕ) : Prop :=
  P.NoListEndsIn s C index (targets s.ChildClassMap C)

end

section
variable {P : CPPProgram} {s : CHABuilder} {C D : String} {index : ℕ} {method_array : List Func}
  {name : Func → String}

theorem methodAt_eq_none_iff : P.methodAt name method_array index = none ↔
    method_array.length = index := by
  unfold methodAt
  split
  case isTrue h =>
    simp only [reduceCtorEq, false_iff]
    omega
  case isFalse h =>
    rw [Option.map_eq_none_iff, List.getElem?_eq_none_iff]
    omega

theorem methodAt_named_iff : (∃ n ≠ "", P.methodAt name method_array index = some n) ↔
    ∃ vf, method_array[index]? = some vf ∧ P.kind vf = .function ∧ name vf ≠ "" := by
  unfold methodAt
  by_cases hlen : index > method_array.length
  · simp [hlen, List.getElem?_eq_none (Nat.le_of_lt hlen)]
  · rw [if_neg hlen]
    cases method_array[index]? with
    | none => simp
    | some vf => by_cases hkind : P.kind vf = .function <;> simp [hkind]

/-- What is read for a derived class is an element of the list that is consulted. -/
theorem methodOfDerived_of_consults (h : P.Consults s C D method_array name) :
    P.methodOfDerived s C index D = P.methodAt name method_array index := by
  unfold methodOfDerived
  cases h with
  | single hgv harr => simp [hgv, harr]
  | multiple hgv hone hlen hidx hget =>
    -- the list of the base class is always there
    have hlt := (List.getElem?_eq_some_iff.1 hget).1
    have hparents : targets s.ParentClassMap D ≠ [] := by
      intro hnil
      simp [hnil] at hidx
    simp only [hgv]
    split
    case h_1 harr => simp [harr] at hlt
    case h_2 harr => simp [harr] at hone
    case h_3 =>
      rw [if_neg (by simp [hparents, hlen]), hidx]
      dsimp only
      rw [if_neg (by omega), hget]

/-- Without a list to consult, nothing is read. -/
theorem methodOfDerived_of_not_consults
    (h : ∀ method_array name, ¬ P.Consults s C D method_array name) :
    P.methodOfDerived s C index D = some "" := by
  unfold methodOfDerived
  split
  · rfl
  case h_2 gv hgv =>
    split
    · rfl
    case h_2 method_array harr => exact absurd (.single hgv harr) (h _ _)
    case h_3 hnil hone =>
      dsimp only
      split
      · rfl
      case isFalse hlen =>
        simp only [not_or, not_not] at hlen
        split
        · rfl
        case h_2 k hidx =>
          have hk : k < (s.GlobalVTableMap gv).length := by
            rw [hlen.2]
            exact (List.idxOf?_eq_some_iff.1 hidx).1
          have hone' : (s.GlobalVTableMap gv).length ≠ 1 := by
            intro hlen1
            obtain ⟨a, ha⟩ := List.length_eq_one_iff.1 hlen1
            exact hone a ha
          exact absurd (.multiple hgv hone' hlen.2 hidx (List.getElem?_eq_getElem hk)) (h _ _)

/-- A derived class is asked for an element of a list, or for nothing. -/
theorem methodOfDerived_cases (P : CPPProgram) (s : CHABuilder) (C D : String) (index : ℕ) :
    (∃ method_array name, P.Consults s C D method_array name ∧
      P.methodOfDerived s C index D = P.methodAt name method_array index) ∨
    P.methodOfDerived s C index D = some "" := by
  by_cases h : ∃ method_array name, P.Consults s C D method_array name
  · obtain ⟨method_array, name, h⟩ := h
    exact Or.inl ⟨method_array, name, h, methodOfDerived_of_consults h⟩
  · refine Or.inr (methodOfDerived_of_not_consults ?_)
    intro method_array name hc
    exact h ⟨method_array, name, hc⟩

theorem methodOfDerived_eq_none_iff : P.methodOfDerived s C index D = none ↔
    ∃ method_array name, P.Consults s C D method_array name ∧ method_array.length = index := by
  constructor
  · intro hnone
    rcases P.methodOfDerived_cases s C D index with ⟨method_array, name, h, heq⟩ | heq
    · rw [heq, methodAt_eq_none_iff] at hnone
      exact ⟨method_array, name, h, hnone⟩
    · rw [heq] at hnone
      cases hnone
  · rintro ⟨method_array, name, h, hlen⟩
    rw [methodOfDerived_of_consults h, methodAt_eq_none_iff, hlen]

theorem answers_iff : P.Answers s C index D ↔
    ∃ n ≠ "", P.methodOfDerived s C index D = some n := by
  constructor
  · rintro ⟨method_array, name, vf, h, hvf⟩
    rw [methodOfDerived_of_consults h]
    exact methodAt_named_iff.2 ⟨vf, hvf⟩
  · rintro ⟨n, hn, hsome⟩
    rcases P.methodOfDerived_cases s C D index with ⟨method_array, name, h, heq⟩ | heq
    · rw [heq] at hsome
      obtain ⟨vf, hvf⟩ := methodAt_named_iff.1 ⟨n, hn, hsome⟩
      exact ⟨method_array, name, vf, h, hvf⟩
    · rw [heq] at hsome
      cases hsome
      exact absurd rfl hn

variable {classes : List String}

theorem noListEndsIn_cons : P.NoListEndsIn s C index (D :: classes) ↔
    P.methodOfDerived s C index D ≠ none ∧
      (¬ P.Answers s C index D → P.NoListEndsIn s C index classes) := by
  unfold NoListEndsIn
  rw [forall_split_cons, Ne, methodOfDerived_eq_none_iff]
  refine and_congr ?_ ?_
  · simp
  · simp only [List.forall_mem_cons, and_imp]
    constructor
    · intro h hD before E after hl hbefore
      exact h before E after hl hD hbefore
    · intro h before E after hl hD hbefore
      exact h hD before E after hl hbefore

/-- The derived classes are read within bounds exactly if no list ends right before the
    index. -/
theorem firstMethod_isSome_iff : (P.firstMethod s C index classes).isSome ↔
    P.NoListEndsIn s C index classes := by
  induction classes with
  | nil => simp [firstMethod, NoListEndsIn]
  | cons D classes ih =>
    rw [noListEndsIn_cons, answers_iff, firstMethod]
    cases P.methodOfDerived s C index D with
    | none => simp
    | some n => by_cases hn : n = "" <;> simp [hn, ih]

/-- A method has a name exactly if a derived class answers. -/
theorem firstMethod_named {n : String} (h : P.firstMethod s C index classes = some n) :
    n ≠ "" ↔ ∃ D ∈ classes, P.Answers s C index D := by
  induction classes with
  | nil =>
    cases h
    simp
  | cons D classes ih =>
    rw [firstMethod] at h
    rw [List.exists_mem_cons_iff, answers_iff]
    cases hD : P.methodOfDerived s C index D with
    | none => simp [hD] at h
    | some m =>
      rw [hD] at h
      by_cases hm : m = ""
      · simpa [hm] using ih (by simpa [hm] using h)
      · have hnm : m = n := by simpa [hm] using h
        subst hnm
        simp [hm]

end

/-! ## The entries of a vtable -/

section
variable (P : CPPProgram)

/-- The function of an entry, for `CPPVTableMapping`. -/
def entryFunction (ele : Value) : Option Func :=
  (if (P.kind ele).isOperator .bitCast then P.operand0 ele else none).filter fun vf =>
    P.kind vf = .function

/-- The entry stands for a method without an implementation. -/
def PureVirtual (ele : Value) : Prop :=
  ∃ vf, P.entryFunction ele = some vf ∧ P.getName vf = "__cxa_pure_virtual"

/-- With the counter at `i`, the entry is a method with a name. -/
def Named (s : CHABuilder) (GV : Value) (i : ℕ) (ele : Value) : Prop :=
  ∃ vf, P.entryFunction ele = some vf ∧
    if P.getName vf = "__cxa_pure_virtual" then
      ∃ D ∈ targets s.ChildClassMap (RTTIName (P.getName GV)),
        P.Answers s (RTTIName (P.getName GV)) (i - 2) D
    else P.getCPPFuncName vf ≠ ""

/-- From `i` on, the counter is at `j` behind the entries: it counts the methods with a
    name. -/
inductive Counts (s : CHABuilder) (GV : Value) : ℕ → List Value → ℕ → Prop
  | nil {i} : Counts s GV i [] i
  | named {i j ele l} : P.Named s GV i ele → Counts s GV (i + 1) l j → Counts s GV i (ele :: l) j
  | skipped {i j ele l} : ¬ P.Named s GV i ele → Counts s GV i l j → Counts s GV i (ele :: l) j

/-- The pure virtual methods among the entries are looked up within bounds, if the counter
    starts at `i`. -/
def LooksUpInBounds (s : CHABuilder) (GV : Value) (i : ℕ) (l : List Value) : Prop :=
  ∀ before ele after, l = before ++ ele :: after → ∀ j, P.Counts s GV i before j →
    P.PureVirtual ele → P.NoListEnds s (RTTIName (P.getName GV)) (j - 2)

/-- All vtables are looked up within bounds. -/
def MapsInBounds (s : CHABuilder) (GVs : List Value) : Prop :=
  ∀ GV ∈ GVs, ∀ Ini, P.aggregateInit "_ZTV" GV = some Ini → P.T.isStructTy (P.getType Ini) →
    P.getClassName GV ≠ "" → ∀ CA ∈ P.vtableArrays Ini,
      P.LooksUpInBounds s GV 2 ((P.operands CA).drop 2)

end

section
variable {P : CPPProgram} {s : CHABuilder} {GV CA ele : Value} {l : List Value} {i j p : ℕ}

theorem counts_cons_of_named (h : P.Named s GV i ele) :
    P.Counts s GV i (ele :: l) j ↔ P.Counts s GV (i + 1) l j := by
  constructor
  · rintro (_ | ⟨-, hl⟩ | ⟨hnot, -⟩)
    · exact hl
    · exact absurd h hnot
  · exact .named h

theorem counts_cons_of_not_named (h : ¬ P.Named s GV i ele) :
    P.Counts s GV i (ele :: l) j ↔ P.Counts s GV i l j := by
  constructor
  · rintro (_ | ⟨hnamed, -⟩ | ⟨-, hl⟩)
    · exact absurd hnamed h
    · exact hl
  · exact .skipped h

theorem looksUpInBounds_cons {i' : ℕ}
    (hcounts : ∀ l j, P.Counts s GV i (ele :: l) j ↔ P.Counts s GV i' l j) :
    P.LooksUpInBounds s GV i (ele :: l) ↔
      (P.PureVirtual ele → P.NoListEnds s (RTTIName (P.getName GV)) (i - 2)) ∧
        P.LooksUpInBounds s GV i' l := by
  unfold LooksUpInBounds
  rw [forall_split_cons]
  simp only [hcounts]
  refine and_congr_left ?_
  intro _
  constructor
  · intro h
    exact h i .nil
  · intro h j hj
    -- before the first entry, the counter is where it starts
    cases hj
    exact h

theorem lookup_eq_none_iff : P.getMethodNameOfPureVirtualCall s GV i = none ↔
    ¬ P.NoListEnds s (RTTIName (P.getName GV)) (i - 2) := by
  show P.firstMethod s (RTTIName (P.getName GV)) (i - 2) _ = none ↔ _
  rw [NoListEnds, ← firstMethod_isSome_iff, Option.not_isSome_iff_eq_none]

theorem methodEntry_of_function {vf : Func} (h : P.entryFunction ele = some vf) :
    P.methodEntry s GV i ele =
      (if P.getName vf = "__cxa_pure_virtual" then P.getMethodNameOfPureVirtualCall s GV i
        else some (P.getCPPFuncName vf)).elim .outOfBounds fun name =>
          if name = "" then .skipped else .method name vf := by
  unfold entryFunction at h
  simp only [methodEntry, h]
  generalize (if P.getName vf = "__cxa_pure_virtual" then _ else _) = vf_method_name
  cases vf_method_name <;> rfl

theorem methodEntry_of_no_function (h : P.entryFunction ele = none) :
    P.methodEntry s GV i ele = .skipped := by
  unfold entryFunction at h
  simp only [methodEntry, h]

/-- The lookup for an entry is out of bounds exactly if a list ends before the index. -/
theorem methodEntry_outOfBounds_iff : P.methodEntry s GV i ele = .outOfBounds ↔
    P.PureVirtual ele ∧ ¬ P.NoListEnds s (RTTIName (P.getName GV)) (i - 2) := by
  unfold PureVirtual
  rw [← lookup_eq_none_iff]
  cases hf : P.entryFunction ele with
  | none => simp [methodEntry_of_no_function hf]
  | some vf =>
    rw [methodEntry_of_function hf]
    by_cases hpure : P.getName vf = "__cxa_pure_virtual"
    · cases P.getMethodNameOfPureVirtualCall s GV i with
      | none => simp [hpure]
      | some name => by_cases hname : name = "" <;> simp [hpure, hname]
    · by_cases hname : P.getCPPFuncName vf = "" <;> simp [hpure, hname]

/-- The counter goes up exactly at the methods with a name. -/
theorem named_iff (h : P.methodEntry s GV i ele ≠ .outOfBounds) : P.Named s GV i ele ↔
    ∃ name vf, P.methodEntry s GV i ele = .method name vf := by
  unfold Named
  cases hf : P.entryFunction ele with
  | none => simp [methodEntry_of_no_function hf]
  | some vf =>
    rw [methodEntry_of_function hf] at h ⊢
    by_cases hpure : P.getName vf = "__cxa_pure_virtual"
    · cases hlookup : P.getMethodNameOfPureVirtualCall s GV i with
      | none => simp [hpure, hlookup] at h
      | some name =>
        have hanswers := firstMethod_named hlookup
        by_cases hname : name = "" <;> simp_all
    · by_cases hname : P.getCPPFuncName vf = "" <;> simp [hpure, hname]

/-- The loop over an array gets to its end exactly if it looks up all names within bounds. -/
theorem slotsFrom_isComplete_iff (hi : 2 ≤ i) :
    (P.slotsFrom s GV i p l).2 ↔ P.LooksUpInBounds s GV i l := by
  induction l generalizing i p with
  | nil => simp [slotsFrom, LooksUpInBounds]
  | cons ele l ih =>
    have hnamed := @named_iff P s GV ele i
    have hbounds := @methodEntry_outOfBounds_iff P s GV ele i
    have hfirst : P.methodEntry s GV i ele ≠ .outOfBounds → P.PureVirtual ele →
        P.NoListEnds s (RTTIName (P.getName GV)) (i - 2) := by
      rw [Ne, hbounds, not_and_not_right]
      exact id
    rw [slotsFrom, if_neg (by omega)]
    cases h : P.methodEntry s GV i ele with
    | skipped =>
      have hnot : ¬ P.Named s GV i ele := by simp [hnamed, h]
      rw [looksUpInBounds_cons fun _ _ => counts_cons_of_not_named hnot, ← ih (p := p + 1) hi]
      exact (and_iff_right (hfirst (by simp [h]))).symm
    | method name vf =>
      have hyes : P.Named s GV i ele := by simp [hnamed, h]
      rw [looksUpInBounds_cons fun _ _ => counts_cons_of_named hyes,
        ← ih (p := p + 1) (by omega)]
      exact (and_iff_right (hfirst (by simp [h]))).symm
    | outOfBounds =>
      obtain ⟨hpure, hends⟩ := hbounds.1 h
      simp only [Bool.false_eq_true, false_iff]
      intro hl
      exact hends (hl [] ele l rfl i .nil hpure)

theorem mapArray_isSome_iff {m : ClassMaps} : (P.mapArray s GV m CA).isSome ↔
    P.LooksUpInBounds s GV 2 ((P.operands CA).drop 2) := by
  have hslots : (P.mapArray s GV m CA).isSome ↔ (P.slots s GV CA).2 := by
    unfold mapArray
    by_cases h : (P.slots s GV CA).2 <;> simp [h]
  rw [hslots, slots, ← slotsFrom_isComplete_iff le_rfl]
  -- the first two entries are passed over
  match P.operands CA with
  | [] => simp [slotsFrom]
  | [_] => simp [slotsFrom]
  | _ :: _ :: l =>
    simp only [slotsFrom, Nat.zero_le, le_refl, if_true, List.drop_succ_cons, List.drop_zero]
    rfl

/-- One vtable. -/
theorem CPPVTableMapping_isSome_iff {m : ClassMaps} : (P.CPPVTableMapping s m GV).isSome ↔
    ∀ Ini, P.aggregateInit "_ZTV" GV = some Ini → P.T.isStructTy (P.getType Ini) →
      P.getClassName GV ≠ "" → ∀ CA ∈ P.vtableArrays Ini,
        P.LooksUpInBounds s GV 2 ((P.operands CA).drop 2) := by
  unfold CPPVTableMapping
  cases P.aggregateInit "_ZTV" GV with
  | none => simp
  | some Ini =>
    simp only [Option.some.injEq, forall_eq']
    split
    case isTrue h =>
      rcases h with h | h <;> simp [h]
    case isFalse h =>
      simp only [not_or, Bool.not_eq_false] at h
      have harrays := foldlM_isSome_iff (P.vtableArrays Ini) m
        fun CA _ m => @mapArray_isSome_iff P s GV CA m
      simpa [h] using harrays

/-- **Lookups stay in bounds.**  The pass reads no list past its end exactly if no list that
    is consulted for a pure virtual method ends right before the index. -/
theorem buildClasses_isSome_iff (P : CPPProgram) (GVs : List Value) :
    (P.buildClasses GVs).isSome ↔ P.MapsInBounds (P.initClasses GVs) GVs := by
  have hvtables := foldlM_isSome_iff GVs {}
    fun GV _ m => @CPPVTableMapping_isSome_iff P (P.initClasses GVs) GV m
  unfold buildClasses
  dsimp only
  rw [Option.isSome_map, hvtables]
  rfl

end

end CPPProgram

/-! ## A list of another base class -/

def typesOfD : TypeTable where
  print t := if t = 1 then "[4xi8*]" else if t = 2 then "%class.A" else "%class.D"
  isStructTy t := t ≠ 1
  isArrayTy t := t = 1
  isLiteral _ := false
  getStructName t := if t = 1 then "" else if t = 2 then "class.A" else "class.D"
  same_print := by
    intro T T' h
    by_cases h1 : T = 1 <;> by_cases h2 : T = 2 <;> by_cases h1' : T' = 1 <;>
      by_cases h2' : T' = 2 <;> simp_all

/-- The class `A` has a list with the method `p` and a pure virtual method, and one of its
    second base class with `q`.  The class `D` is derived from `X`, which has no vtable, and
    from `A`; its second list is the one with `q`. -/
def classD : CPPProgram where
  toProgram :=
    { Program.ofTable
        [(.function, []), (.function, []), (.function, []), (.function, []), (.constantData, []),
          (.constantExpr .bitCast, [0]), (.constantExpr .bitCast, [1]),
          (.constantExpr .bitCast, [2]), (.constantExpr .bitCast, [3]),
          (.constantAggregate, [4, 4, 6, 5]), (.constantAggregate, [4, 4, 8]),
          (.constantAggregate, [9, 10]), (.constantAggregate, [4, 4, 6, 7]),
          (.constantAggregate, [12, 10]), (.globalVariable, []), (.globalVariable, []),
          (.constantExpr .getElementPtr, [14]), (.constantExpr .bitCast, [16]),
          (.instruction .alloca, []), (.instruction .store, [17, 18]),
          (.constantExpr .getElementPtr, [15]), (.constantExpr .bitCast, [20]),
          (.instruction .alloca, []), (.instruction .store, [21, 22]),
          (.globalVariable, []), (.globalVariable, []), (.constantExpr .bitCast, [24]),
          (.constantExpr .bitCast, [25]), (.constantAggregate, [26, 27]), (.globalVariable, [])]
        (by decide) with
      getName := fun v =>
        if v = 0 then "__cxa_pure_virtual" else if v = 14 then "_ZTV1A"
        else if v = 15 then "_ZTV1D" else if v = 24 then "_ZTI1X" else if v = 25 then "_ZTI1A"
        else if v = 29 then "_ZTI1D" else ""
      getInitializer := fun v =>
        if v = 14 then some 11 else if v = 15 then some 13 else if v = 29 then some 28 else none }
  T := typesOfD
  getType v := if v = 9 ∨ v = 10 ∨ v = 12 then 1 else 0
  getAllocatedType v := if v = 18 then 2 else 3
  getSubprogramName F :=
    if F = 1 then some "p" else if F = 2 then some "a" else if F = 3 then some "q" else none

namespace CPPProgram

/-- The second method of `A` is looked up behind `q`. -/
theorem lookup_outOfBounds : ¬ ∀ (P : CPPProgram) (GVs : List Value),
    (P.buildClasses GVs).isSome := by
  intro h
  have hsome := h classD [14, 15, 29]
  exact absurd hsome (by decide)

end CPPProgram

end TFA
