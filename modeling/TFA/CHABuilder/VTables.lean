/-
  The class hierarchy (`CHABuilder.cc`, `CHABuilderTools.cc`).

  A vtable is a struct of arrays.  The first two entries of an array are the offset to
  top and the type information, then come the methods.  `CPPVTableBuilder` lists the
  functions of an array; `CPPVTableMapping`, a pass later, records the names of the methods
  under their slots.  Both count the entries that they do not skip.

  * `vtableFrom`, `slotsFrom`: the two loops over an array;
  * `AtRealIndex`: a slot has the index of its entry, and the list of the first loop has
    the function there;
  * `slots_atRealIndex_iff`: the slots have their real index exactly if no method comes
    after an entry that is skipped.
-/
import TFA.CallGraph.ModulePass

namespace TFA

open Worklist

/-- The loaded modules, with what the class hierarchy is read off. -/
structure CPPProgram extends CallProgram where
  /-- the name of the `DISubprogram` of a function -/
  getSubprogramName : Func → Option String := fun _ => none
  isTailCall : Value → Bool := fun _ => false

/-- `starts_with`. -/
def startsWith (name start : String) : Bool := start.toList.isPrefixOf name.toList

/-- The name of the vtable of a class, from that of its type information. -/
def vtName (RTTI_name : String) : String := "_ZTV" ++ String.ofList (RTTI_name.toList.drop 4)

/-- The name of the type information of a class, from that of its vtable. -/
def RTTIName (vt_name : String) : String := "_ZTI" ++ String.ofList (vt_name.toList.drop 4)

/-- The maps of the global context.  A key without an entry is mapped to `none`. -/
structure ClassMaps where
  Global_VTable_Map : String → Option (String → Finset Value) := fun _ => none
  Global_Class_Method_Index_Map : String → Option (ℤ → Finset String) := fun _ => none
  /-- pairs of a class and one that is derived from it -/
  GlobalClassHierarchyMap : List (String × String) := []

/-- The maps of the pass. -/
structure CHABuilder where
  GlobalVTableMap : Value → List (List Value) := fun _ => []
  GlobalNameGVMap : String → Option Value := fun _ => none
  /-- pairs of a class and one that it is derived from, by the names of their type
      informations -/
  ParentClassMap : List (String × String) := []
  /-- pairs of a class and one that is derived from it -/
  ChildClassMap : List (String × String) := []
  ClassNameMap : Value → Option String := fun _ => none

/-- What an entry of an array is for `CPPVTableMapping`. -/
inductive VTableEntry where
  | skipped
  | method (name : String) (vf : Func)
  /-- its name is looked up past the end of a list -/
  | outOfBounds
deriving DecidableEq

/-- A method that `CPPVTableMapping` records, with the position of its entry in the array. -/
structure VTableSlot where
  index : ℕ
  method_name : String
  vf : Func
  position : ℕ
deriving DecidableEq

/-- What a slot adds to the maps. -/
def ClassMaps.recordSlot (className : String) (m : ClassMaps) (slot : VTableSlot) : ClassMaps :=
  let methods := (m.Global_VTable_Map className).getD fun _ => ∅
  let indices := (m.Global_Class_Method_Index_Map className).getD fun _ => ∅
  { m with
    Global_VTable_Map := Function.update m.Global_VTable_Map className
      (some (Function.update methods slot.method_name
        (insert slot.vf (methods slot.method_name))))
    Global_Class_Method_Index_Map := Function.update m.Global_Class_Method_Index_Map className
      (some (Function.update indices slot.index (insert slot.method_name (indices slot.index)))) }

/-- The methods of a class in a slot. -/
def ClassMaps.methodsAt (m : ClassMaps) (class_name : String) (Idx : ℤ) : Finset String :=
  (m.Global_Class_Method_Index_Map class_name).elim ∅ (· Idx)

/-- What the vtables of a class have for a method. -/
def ClassMaps.functionsOf (m : ClassMaps) (class_name method_name : String) : Finset Value :=
  (m.Global_VTable_Map class_name).elim ∅ (· method_name)

/-- `doFinalization`: the classes of the vtables, for every pair of type informations. -/
def CHABuilder.doFinalization (s : CHABuilder) (m : ClassMaps) : ClassMaps :=
  { m with
    GlobalClassHierarchyMap := m.GlobalClassHierarchyMap ++ s.ChildClassMap.filterMap fun e => do
      let vt ← s.GlobalNameGVMap (vtName e.1)
      let vt_class ← s.ClassNameMap vt
      let derived_vt ← s.GlobalNameGVMap (vtName e.2)
      let derived_vt_class ← s.ClassNameMap derived_vt
      return (vt_class, derived_vt_class) }

namespace CPPProgram

section
variable (P : CPPProgram)

/-- `getCPPFuncName`. -/
def getCPPFuncName (F : Func) : String := (P.getSubprogramName F).getD ""

/-! ## The name of a class -/

/-- What a store of a vtable tells of the class. -/
def storedClassName (className : String) (pop : Value) : String :=
  let UnderlyingObject := P.stripPointerCasts pop
  let RealType := match P.kind UnderlyingObject with
    | .instruction .alloca => some (P.getAllocatedType UnderlyingObject)
    | .globalVariable => some (P.getValueType UnderlyingObject)
    | _ => none
  let className := match RealType.filter (P.T.isStructTy ·) with
    | some t => P.T.getStructName t
    | none => className
  if (P.kind pop).isOperator .getElementPtr ∧ P.T.isStructTy (P.getSourceElementType pop) then
    P.T.getStructName (P.getSourceElementType pop)
  else className

/-- The pointers that a bitcast of an address in the vtable is stored to. -/
def vtableStores (GV : Value) : List Value :=
  ((P.users GV).filter fun u => (P.kind u).isOperator .getElementPtr).flatMap fun u =>
    ((P.users u).filter fun u2 => (P.kind u2).isOperator .bitCast).flatMap fun u2 =>
      ((P.users u2).filter fun u3 => P.kind u3 = .instruction .store).filterMap fun u3 =>
        match P.operands u3 with
        | [vop, pop] => if vop = u2 then some pop else none
        | _ => none

/-- `getClassName`. -/
def getClassName (GV : Value) : String := (P.vtableStores GV).foldl P.storedClassName ""

/-! ## The hierarchy -/

/-- The initializer of a global variable with this kind of name, if it is an aggregate. -/
def aggregateInit (start : String) (GV : Value) : Option Value :=
  if startsWith (P.getName GV) start then
    (P.getInitializer GV).filter fun Ini => P.kind Ini = .constantAggregate
  else none

/-- The type informations of the base classes. -/
def baseClasses (Ini : Value) : List String :=
  (P.operands Ini).filterMap fun ele =>
    if (P.kind ele).isOperator .bitCast then
      (P.operand0 ele).bind fun gv =>
        if P.kind gv = .globalVariable ∧ startsWith (P.getName gv) "_ZTI" then
          some (P.getName gv)
        else none
    else none

/-- `CPPClassHierarchyRelationCollector`. -/
def CPPClassHierarchyRelationCollector (s : CHABuilder) (GV : Value) : CHABuilder :=
  match P.aggregateInit "_ZTI" GV with
  | none => s
  | some Ini =>
    { s with
      GlobalNameGVMap := Function.update s.GlobalNameGVMap (P.getName GV) (some GV)
      ParentClassMap := s.ParentClassMap ++ (P.baseClasses Ini).map fun gv => (P.getName GV, gv)
      ChildClassMap := s.ChildClassMap ++ (P.baseClasses Ini).map fun gv => (gv, P.getName GV) }

/-! ## The vtables -/

/-- The function of an entry, for `CPPVTableBuilder`. -/
def vtableFunction (ele : Value) : Option Func :=
  if (P.kind ele).isOperator .bitCast then
    (P.operand0 ele).bind fun FromV =>
      (if P.kind FromV = .globalAlias then P.operand0 FromV else some FromV).filter fun vf =>
        P.kind vf = .function
  else none

/-- The loop of `CPPVTableBuilder` over an array, from the counter `i`. -/
def vtableFrom : ℕ → List Value → List Func
  | _, [] => []
  | i, ele :: l =>
    if i ≤ 1 then vtableFrom (i + 1) l
    else
      match P.vtableFunction ele with
      | none => vtableFrom i l
      | some vf => vf :: vtableFrom (i + 1) l

/-- The arrays of a vtable. -/
def vtableArrays (Ini : Value) : List Value :=
  (P.operands Ini).filter fun arr =>
    P.kind arr = .constantAggregate ∧ P.T.isArrayTy (P.getType arr)

/-- The functions of an array. -/
def single_inheritance_vtable (CA : Value) : List Func := P.vtableFrom 0 (P.operands CA)

/-- `CPPVTableBuilder`. -/
def CPPVTableBuilder (s : CHABuilder) (GV : Value) : CHABuilder :=
  match P.aggregateInit "_ZTV" GV with
  | none => s
  | some Ini =>
    let s := { s with
      GlobalNameGVMap := Function.update s.GlobalNameGVMap (P.getName GV) (some GV) }
    if P.T.isStructTy (P.getType Ini) = false ∨ P.getClassName GV = "" then s
    else
      { s with
        ClassNameMap := Function.update s.ClassNameMap GV (some (P.getClassName GV))
        GlobalVTableMap := Function.update s.GlobalVTableMap GV
          (s.GlobalVTableMap GV ++ (P.vtableArrays Ini).map P.single_inheritance_vtable) }

/-- `doInitialization` over the globals of all modules. -/
def initClasses (GVs : List Value) : CHABuilder :=
  GVs.foldl (fun s GV => P.CPPVTableBuilder (P.CPPClassHierarchyRelationCollector s GV) GV) {}

/-! ## The names of pure virtual methods -/

/-- The method that a thunk calls. -/
def thunkTarget (method_f : Func) : String :=
  let names := (P.insts method_f).filterMap fun cai =>
    if P.kind cai = .instruction .call ∧ P.isTailCall cai then
      (P.getCalledFunction cai).map P.getCPPFuncName
    else none
  (names.find? (· ≠ "")).getD ""

/-- An access of a vector after the check against its size; `none` is out of bounds. -/
def methodAt (name : Func → String) (method_array : List Func) (index : ℕ) : Option String :=
  if index > method_array.length then some ""
  else
    method_array[index]?.map fun method => if P.kind method = .function then name method else ""

/-- What one derived class says about the name of the method in a slot. -/
def methodOfDerived (s : CHABuilder) (class_type_name : String) (index : ℕ)
    (derived_class_type_name : String) : Option String :=
  match s.GlobalNameGVMap (vtName derived_class_type_name) with
  | none => some ""
  | some derived_vtable_gv =>
    match s.GlobalVTableMap derived_vtable_gv with
    | [] => some ""
    | [method_array] => P.methodAt P.getCPPFuncName method_array index
    | derived_vtable_arr =>
      let parent_class_arr := targets s.ParentClassMap derived_class_type_name
      if parent_class_arr = [] ∨ derived_vtable_arr.length ≠ parent_class_arr.length then some ""
      else
        match parent_class_arr.idxOf? class_type_name with
        | none => some ""
        | some derived_idx =>
          if derived_idx > derived_vtable_arr.length then some ""
          else
            match derived_vtable_arr[derived_idx]? with
            | none => none
            | some method_array => P.methodAt P.thunkTarget method_array index

/-- The first derived class that knows the name; `none` if an access is out of bounds. -/
def firstMethod (s : CHABuilder) (class_type_name : String) (index : ℕ) :
    List String → Option String
  | [] => some ""
  | derived_class_type_name :: l =>
    match P.methodOfDerived s class_type_name index derived_class_type_name with
    | none => none
    | some method_name =>
      if method_name = "" then firstMethod s class_type_name index l else some method_name

/-- `getMethodNameOfPureVirtualCall`, for `idx` from 2 on. -/
def getMethodNameOfPureVirtualCall (s : CHABuilder) (GV : Value) (idx : ℕ) : Option String :=
  let class_type_name := RTTIName (P.getName GV)
  P.firstMethod s class_type_name (idx - 2) (targets s.ChildClassMap class_type_name)

/-! ## The names of the methods -/

/-- What an entry is, if the counter is at `i`. -/
def methodEntry (s : CHABuilder) (GV : Value) (i : ℕ) (ele : Value) : VTableEntry :=
  let FromV := if (P.kind ele).isOperator .bitCast then P.operand0 ele else none
  match FromV.filter fun vf => P.kind vf = .function with
  | none => .skipped
  | some vf =>
    let vf_method_name :=
      if P.getName vf = "__cxa_pure_virtual" then P.getMethodNameOfPureVirtualCall s GV i
      else some (P.getCPPFuncName vf)
    match vf_method_name with
    | none => .outOfBounds
    | some name => if name = "" then .skipped else .method name vf

/-- The loop of `CPPVTableMapping` over the entries from position `p` on, from the counter
    `i`: the slots that it records, and whether it gets to the end. -/
def slotsFrom (s : CHABuilder) (GV : Value) : ℕ → ℕ → List Value → List VTableSlot × Bool
  | _, _, [] => ([], true)
  | i, p, ele :: l =>
    if i ≤ 1 then slotsFrom s GV (i + 1) (p + 1) l
    else
      match P.methodEntry s GV i ele with
      | .skipped => slotsFrom s GV i (p + 1) l
      | .method name vf =>
        let r := slotsFrom s GV (i + 1) (p + 1) l
        (⟨i - 2, name, vf, p⟩ :: r.1, r.2)
      | .outOfBounds => ([], false)

/-- The slots that are recorded for an array. -/
def slots (s : CHABuilder) (GV CA : Value) : List VTableSlot × Bool :=
  P.slotsFrom s GV 0 0 (P.operands CA)

/-- One array; nothing is known after an access out of bounds. -/
def mapArray (s : CHABuilder) (GV : Value) (m : ClassMaps) (CA : Value) : Option ClassMaps :=
  let r := P.slots s GV CA
  if r.2 then some (r.1.foldl (ClassMaps.recordSlot (P.getClassName GV)) m) else none

/-- `CPPVTableMapping`. -/
def CPPVTableMapping (s : CHABuilder) (m : ClassMaps) (GV : Value) : Option ClassMaps :=
  match P.aggregateInit "_ZTV" GV with
  | none => some m
  | some Ini =>
    if P.T.isStructTy (P.getType Ini) = false ∨ P.getClassName GV = "" then some m
    else (P.vtableArrays Ini).foldlM (P.mapArray s GV) m

/-! ## The pass -/

/-- The three phases of the pass over the globals of all modules. -/
def buildClasses (GVs : List Value) : Option ClassMaps :=
  let s := P.initClasses GVs
  (GVs.foldlM (P.CPPVTableMapping s) {}).map s.doFinalization

/-! ## Real indices -/

/-- The entry of a slot is two after its index, and its function stands at the index in
    the list of the functions of the array. -/
def AtRealIndex (CA : Value) (slot : VTableSlot) : Prop :=
  slot.position = slot.index + 2 ∧
    (P.single_inheritance_vtable CA)[slot.index]? = some slot.vf

/-- No entry gives a method, before the lookup of a name is out of bounds. -/
def NoMethod (s : CHABuilder) (GV : Value) (i : ℕ) (l : List Value) : Prop :=
  ∀ ele ∈ l.takeWhile fun ele => P.methodEntry s GV i ele ≠ .outOfBounds,
    P.methodEntry s GV i ele = .skipped

/-- From position `i` on there are methods, until an entry is skipped and none follows. -/
def GaplessFrom (s : CHABuilder) (GV : Value) : ℕ → List Value → Prop
  | _, [] => True
  | i, ele :: l =>
    match P.methodEntry s GV i ele with
    | .skipped => P.NoMethod s GV i l
    | .method _ _ => GaplessFrom s GV (i + 1) l
    | .outOfBounds => True

/-- No method comes after an entry that is skipped. -/
def Gapless (s : CHABuilder) (GV CA : Value) : Prop := P.GaplessFrom s GV 2 ((P.operands CA).drop 2)

end

section
variable {P : CPPProgram} {s : CHABuilder} {GV CA ele : Value} {l : List Value} {i p : ℕ}
  {slot : VTableSlot} {m : ClassMaps}

/-- A method of `CPPVTableMapping` is a function of `CPPVTableBuilder`. -/
theorem vtableFunction_of_method {name : String} {vf : Func}
    (h : P.methodEntry s GV i ele = .method name vf) : P.vtableFunction ele = some vf := by
  unfold methodEntry at h
  dsimp only at h
  split at h
  · cases h
  case h_2 f hf =>
    have hvf : f = vf := by
      split at h
      · cases h
      · split at h <;> cases h
        rfl
    subst hvf
    rw [Option.filter_eq_some_iff] at hf
    obtain ⟨hop, hkind⟩ := hf
    split at hop
    case isTrue hcast =>
      rw [decide_eq_true_eq] at hkind
      rw [vtableFunction, if_pos hcast, hop]
      simp [hkind]
    · cases hop

/-- An entry that is skipped moves the index back for good. -/
theorem index_lt_position (hi : 2 ≤ i) (hp : i < p)
    (h : slot ∈ (P.slotsFrom s GV i p l).1) : slot.index + 2 < slot.position := by
  induction l generalizing i p with
  | nil => simp [slotsFrom] at h
  | cons ele l ih =>
    rw [slotsFrom, if_neg (by omega)] at h
    split at h
    · exact ih hi (by omega) h
    case h_2 name vf _ =>
      rcases List.mem_cons.1 h with rfl | h
      · dsimp only
        omega
      · exact ih (by omega) (by omega) h
    · simp at h

theorem slotsFrom_eq_nil_iff (hi : 2 ≤ i) :
    (P.slotsFrom s GV i p l).1 = [] ↔ P.NoMethod s GV i l := by
  induction l generalizing p with
  | nil => simp [slotsFrom, NoMethod]
  | cons ele l ih =>
    rw [slotsFrom, if_neg (by omega)]
    cases h : P.methodEntry s GV i ele with
    | skipped => simpa [NoMethod, h] using ih
    | method name vf => simp [NoMethod, h]
    | outOfBounds => simp [NoMethod, h]

/-- The two loops, as long as they have skipped nothing. -/
theorem slotsFrom_atRealIndex_iff (hi : 2 ≤ i) {before : List Func}
    (hbefore : before.length = i - 2) :
    (∀ slot ∈ (P.slotsFrom s GV i i l).1, slot.position = slot.index + 2 ∧
      (before ++ P.vtableFrom i l)[slot.index]? = some slot.vf) ↔ P.GaplessFrom s GV i l := by
  induction l generalizing i before with
  | nil => simp [slotsFrom, GaplessFrom]
  | cons ele l ih =>
    rw [slotsFrom, if_neg (by omega), GaplessFrom, vtableFrom, if_neg (by omega)]
    cases h : P.methodEntry s GV i ele with
    | skipped =>
      rw [← slotsFrom_eq_nil_iff hi (p := i + 1)]
      constructor
      · intro hall
        refine List.eq_nil_iff_forall_not_mem.2 fun slot hslot => ?_
        have hlt := index_lt_position hi (by omega) hslot
        have heq := (hall slot hslot).1
        omega
      · intro hnil
        simp [hnil]
    | method name vf =>
      have hfun := vtableFunction_of_method h
      rw [hfun]
      have hlen : (before ++ [vf]).length = i + 1 - 2 := by
        rw [List.length_append, hbefore, List.length_singleton]
        omega
      have ih := ih (i := i + 1) (by omega) hlen
      rw [List.append_assoc, List.singleton_append] at ih
      rw [← ih]
      constructor
      · exact fun hall slot hslot => hall slot (List.mem_cons_of_mem _ hslot)
      · intro hall slot hslot
        rcases List.mem_cons.1 hslot with rfl | hslot
        · refine ⟨by dsimp only; omega, ?_⟩
          simp [← hbefore]
        · exact hall slot hslot
    | outOfBounds => simp

/-- The position of a slot, for the loop from position `p` on. -/
theorem slot_entry (hi : 2 ≤ i) (h : slot ∈ (P.slotsFrom s GV i p l).1) :
    ∃ ele, p ≤ slot.position ∧ l[slot.position - p]? = some ele ∧
      P.methodEntry s GV (slot.index + 2) ele = .method slot.method_name slot.vf := by
  induction l generalizing i p with
  | nil => simp [slotsFrom] at h
  | cons ele l ih =>
    have later : ∀ {i}, 2 ≤ i → slot ∈ (P.slotsFrom s GV i (p + 1) l).1 →
        ∃ ele', p ≤ slot.position ∧ (ele :: l)[slot.position - p]? = some ele' ∧
          P.methodEntry s GV (slot.index + 2) ele' = .method slot.method_name slot.vf := by
      intro i hi h
      obtain ⟨ele', hp, hget, hentry⟩ := ih hi h
      obtain ⟨n, hn⟩ : ∃ n, slot.position - p = n + 1 := ⟨slot.position - (p + 1), by omega⟩
      refine ⟨ele', by omega, ?_, hentry⟩
      rw [hn, List.getElem?_cons_succ, ← hget]
      congr 1
      omega
    rw [slotsFrom, if_neg (by omega)] at h
    split at h
    · exact later hi h
    case h_2 name vf hentry =>
      rcases List.mem_cons.1 h with rfl | h
      · refine ⟨ele, le_rfl, by simp, ?_⟩
        have hidx : i - 2 + 2 = i := by omega
        simpa [hidx] using hentry
      · exact later (by omega) h
    · simp at h

/-- A slot has the name and the function of the entry at its position. -/
theorem slots_entry (h : slot ∈ (P.slots s GV CA).1) :
    ∃ ele, (P.operands CA)[slot.position]? = some ele ∧
      P.methodEntry s GV (slot.index + 2) ele = .method slot.method_name slot.vf := by
  unfold slots at h
  match hops : P.operands CA with
  | [] => simp [hops, slotsFrom] at h
  | [_] => simp [hops, slotsFrom] at h
  | _ :: _ :: l =>
    simp only [hops, slotsFrom, Nat.zero_le, le_refl, if_true] at h
    obtain ⟨ele, hp, hget, hentry⟩ := slot_entry (by omega) h
    obtain ⟨n, hn⟩ : ∃ n, slot.position = n + 2 := ⟨slot.position - 2, by omega⟩
    refine ⟨ele, ?_, hentry⟩
    simpa [hn] using hget

/-- The slots of an array are what it adds to the methods of its class. -/
theorem mem_methodsAt_recordSlots (className class_name name : String) (k : ℤ)
    (L : List VTableSlot) :
    name ∈ (L.foldl (ClassMaps.recordSlot className) m).methodsAt class_name k ↔
      name ∈ m.methodsAt class_name k ∨
        class_name = className ∧ ∃ slot ∈ L, (slot.index : ℤ) = k ∧ slot.method_name = name := by
  induction L generalizing m with
  | nil => simp
  | cons slot L ih =>
    rw [List.foldl_cons, ih]
    have hone : name ∈ (m.recordSlot className slot).methodsAt class_name k ↔
        name ∈ m.methodsAt class_name k ∨
          class_name = className ∧ (slot.index : ℤ) = k ∧ slot.method_name = name := by
      unfold ClassMaps.methodsAt ClassMaps.recordSlot
      by_cases hc : class_name = className
      · subst hc
        by_cases hk : (slot.index : ℤ) = k
        · subst hk
          cases m.Global_Class_Method_Index_Map class_name <;> simp [eq_comm, or_comm]
        · have hk' : k ≠ slot.index := fun h => hk h.symm
          cases m.Global_Class_Method_Index_Map class_name <;> simp [hk, hk']
      · simp [hc]
    rw [hone]
    simp only [List.mem_cons, exists_eq_or_imp]
    tauto

theorem mem_methodsAt_mapArray {m' : ClassMaps} (h : P.mapArray s GV m CA = some m')
    (class_name name : String) (k : ℤ) :
    name ∈ m'.methodsAt class_name k ↔ name ∈ m.methodsAt class_name k ∨
      class_name = P.getClassName GV ∧
        ∃ slot ∈ (P.slots s GV CA).1, (slot.index : ℤ) = k ∧ slot.method_name = name := by
  unfold mapArray at h
  dsimp only at h
  split at h
  · cases h
    exact mem_methodsAt_recordSlots _ _ _ _ _
  · cases h

variable (P s GV) in
/-- **Real indices.**  The slots of a vtable have the index of their entries, and both
    passes agree on them, exactly if no method comes after an entry that is skipped. -/
theorem slots_atRealIndex_iff (Ini : Value) :
    (∀ CA ∈ P.vtableArrays Ini, ∀ slot ∈ (P.slots s GV CA).1, P.AtRealIndex CA slot) ↔
      ∀ CA ∈ P.vtableArrays Ini, P.Gapless s GV CA := by
  refine forall₂_congr fun CA _ => ?_
  unfold slots Gapless AtRealIndex single_inheritance_vtable
  match P.operands CA with
  | [] => simp [slotsFrom, GaplessFrom]
  | [_] => simp [slotsFrom, GaplessFrom]
  | _ :: _ :: l =>
    have hiff := @slotsFrom_atRealIndex_iff P s GV l 2 le_rfl [] rfl
    simpa [slotsFrom, vtableFrom] using hiff

end

end CPPProgram

/-! ## An entry without debug information -/

def typesOfC : TypeTable where
  print t := if t = 1 then "[4xi8*]" else "%class.C"
  isStructTy t := t ≠ 1
  isArrayTy t := t = 1
  isLiteral _ := false
  getStructName t := if t = 1 then "" else "class.C"
  same_print := by
    intro T T' h
    by_cases hT : T = 1 <;> by_cases hT' : T' = 1 <;> simp_all

/-- The vtable `7` of the class `C` has the functions `0`, which has no debug information,
    and `1`, the method `g`. -/
def classC : CPPProgram where
  toProgram :=
    { Program.ofTable
        [(.function, []), (.function, []), (.constantExpr .bitCast, [0]),
          (.constantExpr .bitCast, [1]), (.constantData, []), (.constantAggregate, [4, 4, 2, 3]),
          (.constantAggregate, [5]), (.globalVariable, []), (.constantExpr .getElementPtr, [7]),
          (.constantExpr .bitCast, [8]), (.instruction .alloca, []),
          (.instruction .store, [9, 10])]
        (by decide) with
      getName := fun v => if v = 7 then "_ZTV1C" else ""
      getInitializer := fun v => if v = 7 then some 6 else none }
  T := typesOfC
  getType v := if v = 5 then 1 else 0
  getSubprogramName F := if F = 1 then some "g" else none

namespace CPPProgram

/-- The pass records `g` under the first slot. -/
theorem method_misplaced :
    ¬ ∀ (P : CPPProgram) (GVs : List Value) (GV Ini : Value), P.aggregateInit "_ZTV" GV = some Ini →
      ∀ CA ∈ P.vtableArrays Ini, ∀ slot ∈ (P.slots (P.initClasses GVs) GV CA).1,
        P.AtRealIndex CA slot := by
  intro h
  have hslot := h classC [7] 7 6 (by decide) 5 (by decide) ⟨0, "g", 1, 3⟩ (by decide)
  exact absurd hslot.1 (by decide)

end CPPProgram

end TFA
