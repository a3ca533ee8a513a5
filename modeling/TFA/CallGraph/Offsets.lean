/-
  From a byte offset to a field (`getGEPIndex` in `LayerAnalysis.cc`).

  The loop goes down into the field that contains the offset, or into the element of an
  array, until a field starts there.

  * `iterate` is the body of the loop;
  * `ResolvesExactly`: the loop ends, and if it succeeds, the field that it names starts at
    the offset;
  * `Strays`: the descent divides by a size of zero, looks for a field in an empty
    struct, enters an element that the array does not have, or stops where an element
    starts and names a field of it by the index of the field around the array;
  * `resolvesExactly_iff`: the offset is resolved exactly if it is positive and the descent
    does not stray.
-/
import TFA.Lib.Iterate
import TFA.Lib.Layout

namespace TFA

open Iterate

namespace Layout

/-- The variables of the loop; `Idx` is not initialised. -/
structure GEPState where
  resultTy : Layout
  offset : ℕ
  Idx : Option ℕ

/-- How the function ends. -/
inductive GEPResult where
  | returns (result : Bool) (resultTy : Layout) (Idx : Option ℕ)
  | crash

/-- One iteration, or the end of the loop. -/
def iterate (s : GEPState) : GEPState ⊕ GEPResult :=
  if s.offset = 0 then .inr (.returns true s.resultTy s.Idx)
  else
    match s.resultTy with
    | .struct fields size =>
      -- an empty struct has no element that contains an offset
      match (containing fields s.offset).bind fun Idx => fields[Idx]?.map (Idx, ·) with
      | none => .inr .crash
      | some (Idx, eleoffset, ty) =>
        if s.offset - eleoffset = 0 then .inr (.returns true (.struct fields size) (some Idx))
        else .inl ⟨ty, s.offset - eleoffset, some Idx⟩
    | .array element_ty num =>
      if element_ty.isStruct then
        -- the remainder of a division by zero
        if element_ty.allocSize = 0 then .inr .crash
        else .inl ⟨element_ty, s.offset % element_ty.allocSize, s.Idx⟩
      else .inr (.returns false (.array element_ty num) s.Idx)
    | .other size => .inr (.returns false (.other size) s.Idx)

/-- `getGEPIndex`. -/
def getGEPIndex (fuel : ℕ) (baseTy : Layout) (offset : ℕ) : Option GEPResult :=
  run iterate fuel ⟨baseTy, offset, none⟩

/-- The field of a result starts at the offset in a layout. -/
def Exact (t : Layout) (o : ℕ) : GEPResult → Prop
  | .returns false _ _ => True
  | .returns true resultTy Idx => ∃ i, Idx = some i ∧ Locates t o resultTy i
  | .crash => False

/-- `getGEPIndex` comes to an end, with the field at the offset if it returns true. -/
def ResolvesExactly (baseTy : Layout) (offset : ℕ) : Prop :=
  ∃ fuel r, getGEPIndex fuel baseTy offset = some r ∧ Exact baseTy offset r

/-- The descent from a positive offset goes wrong.  The flag says whether all elements that
    were entered so far are there; where they are not, any field that is named is wrong. -/
inductive Strays : Bool → Option ℕ → Layout → ℕ → Prop
  | empty {inside Idx fields size o} (h : containing fields o = none) :
      Strays inside Idx (.struct fields size) o
  | named {Idx fields size o i t} (h : containing fields o = some i)
      (hf : fields[i]? = some (o, t)) : Strays false Idx (.struct fields size) o
  | field {inside Idx fields size o i off t} (h : containing fields o = some i)
      (hf : fields[i]? = some (off, t)) (hoff : off < o)
      (hrest : Strays inside (some i) t (o - off)) : Strays inside Idx (.struct fields size) o
  | zeroSize {inside Idx elem num o} (hstruct : elem.isStruct = true)
      (hsize : elem.allocSize = 0) : Strays inside Idx (.array elem num) o
  /-- neither the field at the start of this element nor that at the end of the one before -/
  | start {inside Idx elem num o} (hstruct : elem.isStruct = true) (hsize : elem.allocSize ≠ 0)
      (hr : o % elem.allocSize = 0)
      (hIdx : ¬ (inside = true ∧ ∃ i, Idx = some i ∧
        (elem.fieldOffset i = some 0 ∧ o / elem.allocSize < num ∨
          elem.fieldOffset i = some elem.allocSize ∧ o / elem.allocSize ≤ num))) :
      Strays inside Idx (.array elem num) o
  | elem {inside Idx elem num o} (hstruct : elem.isStruct = true)
      (hr : o % elem.allocSize ≠ 0)
      (hrest : Strays (inside && decide (o / elem.allocSize < num)) Idx elem
        (o % elem.allocSize)) : Strays inside Idx (.array elem num) o

/-- A result of the descent, where the elements that were entered are there or not. -/
def Good (inside : Bool) (t : Layout) (o : ℕ) : GEPResult → Prop
  | .returns false _ _ => True
  | .returns true resultTy Idx => inside = true ∧ ∃ i, Idx = some i ∧ Locates t o resultTy i
  | .crash => False

/-- A result is part of a layout. -/
def Within (t : Layout) : GEPResult → Prop
  | .returns _ resultTy _ => sizeOf resultTy ≤ sizeOf t
  | .crash => True

section
variable {t elem : Layout} {fields : List (ℕ × Layout)} {size num o off i : ℕ} {inside : Bool}
  {Idx : Option ℕ} {r : GEPResult} {s s' : GEPState}

theorem good_true : Good true t o r ↔ Exact t o r := by
  unfold Good Exact
  split <;> simp

/-! ## What an iteration does -/

theorem iterate_empty (ho : 0 < o) (hk : containing fields o = none) :
    iterate ⟨.struct fields size, o, Idx⟩ = .inr .crash := by
  simp [iterate, hk, ho.ne']

theorem iterate_named (ho : 0 < o) (hk : containing fields o = some i)
    (hf : fields[i]? = some (o, t)) : iterate ⟨.struct fields size, o, Idx⟩ =
      .inr (.returns true (.struct fields size) (some i)) := by
  simp [iterate, hk, hf, ho.ne']

theorem iterate_field (hk : containing fields o = some i) (hf : fields[i]? = some (off, t))
    (hoff : off < o) :
    iterate ⟨.struct fields size, o, Idx⟩ = .inl ⟨t, o - off, some i⟩ := by
  have ho : o ≠ 0 := by omega
  have hne : o - off ≠ 0 := by omega
  simp [iterate, hk, hf, ho, hne]

theorem iterate_noStruct (ho : 0 < o) (hstruct : elem.isStruct = false) :
    iterate ⟨.array elem num, o, Idx⟩ = .inr (.returns false (.array elem num) Idx) := by
  simp [iterate, hstruct, ho.ne']

theorem iterate_zeroSize (ho : 0 < o) (hstruct : elem.isStruct = true)
    (hsize : elem.allocSize = 0) : iterate ⟨.array elem num, o, Idx⟩ = .inr .crash := by
  simp [iterate, hstruct, hsize, ho.ne']

theorem iterate_elem (ho : 0 < o) (hstruct : elem.isStruct = true) (hsize : elem.allocSize ≠ 0) :
    iterate ⟨.array elem num, o, Idx⟩ = .inl ⟨elem, o % elem.allocSize, Idx⟩ := by
  simp [iterate, hstruct, hsize, ho.ne']

theorem iterate_other (ho : 0 < o) :
    iterate ⟨.other size, o, Idx⟩ = .inr (.returns false (.other size) Idx) := by
  simp [iterate, ho.ne']

/-- The loop stays in the layout. -/
theorem within_iterate : match iterate s with
    | .inl s' => sizeOf s'.resultTy ≤ sizeOf s.resultTy
    | .inr r => Within s.resultTy r := by
  obtain ⟨t, o, Idx⟩ := s
  rcases Nat.eq_zero_or_pos o with rfl | ho
  · simp [iterate, Within]
  · cases t with
    | struct fields size =>
      cases hk : (containing fields o).bind fun Idx => fields[Idx]?.map (Idx, ·) with
      | none => simp [iterate, ho.ne', hk, Within]
      | some e =>
        obtain ⟨i, off, t⟩ := e
        have hmem : (off, t) ∈ fields := by
          obtain ⟨k, -, hk⟩ := Option.bind_eq_some_iff.1 hk
          obtain ⟨f, hf, heq⟩ := Option.map_eq_some_iff.1 hk
          cases heq
          exact List.mem_of_getElem? hf
        have hlt : sizeOf t < sizeOf (Layout.struct fields size) := sizeOf_field_lt hmem
        by_cases hoff : o - off = 0
        · simp [iterate, ho.ne', hk, hoff, Within]
        · simp [iterate, ho.ne', hk, hoff, -Layout.struct.sizeOf_spec, hlt.le]
    | array elem num =>
      by_cases hstruct : elem.isStruct = true
      · by_cases hsize : elem.allocSize = 0
        · rw [iterate_zeroSize ho hstruct hsize]
          trivial
        · rw [iterate_elem ho hstruct hsize]
          simp only [Layout.array.sizeOf_spec]
          omega
      · rw [iterate_noStruct ho (by simpa using hstruct)]
        exact le_rfl
    | other size =>
      rw [iterate_other ho]
      exact le_rfl

/-- The loop ends with a part of the layout. -/
theorem within_run {fuel : ℕ} (h : run iterate fuel s = some r) : Within s.resultTy r := by
  induction fuel generalizing s with
  | zero => cases h
  | succ fuel ih =>
    have hstep := @within_iterate s
    rw [run] at h
    cases hs : iterate s with
    | inl s' =>
      rw [hs] at h hstep
      have hin := ih h
      unfold Within at hin ⊢
      split at hin
      · exact hin.trans hstep
      · trivial
    | inr r' =>
      rw [hs] at h hstep
      cases h
      exact hstep

/-! ## Going down -/

theorem good_field_iff (ht : Correct (.struct fields size)) (hk : containing fields o = some i)
    (hf : fields[i]? = some (off, t)) (hoff : off < o) (hr : Within t r) :
    Good inside (.struct fields size) o r ↔ Good inside t (o - off) r := by
  unfold Good
  split
  · rfl
  · simp only [locates_struct_iff ht hk hf hoff hr]
  · rfl

theorem good_elem_iff (helem : Correct elem) (hmod : o % elem.allocSize ≠ 0)
    (hr : Within elem r) : Good inside (.array elem num) o r ↔
      Good (inside && decide (o / elem.allocSize < num)) elem (o % elem.allocSize) r := by
  unfold Good
  split
  · rfl
  · simp only [locates_array_iff helem hmod hr, Bool.and_eq_true, decide_eq_true_eq]
    constructor
    · rintro ⟨hin, i, hi, hlt, hloc⟩
      exact ⟨⟨hin, hlt⟩, i, hi, hloc⟩
    · rintro ⟨⟨hin, hlt⟩, i, hi, hloc⟩
      exact ⟨hin, i, hi, hlt, hloc⟩
  · rfl

/-- An offset lies in one field. -/
theorem field_unique {j off' : ℕ} {t' : Layout} (hk : containing fields o = some i)
    (hf : fields[i]? = some (off, t)) (hk' : containing fields o = some j)
    (hf' : fields[j]? = some (off', t')) : j = i ∧ off' = off ∧ t' = t := by
  have hij : i = j := Option.some.inj (hk.symm.trans hk')
  subst hij
  rw [hf] at hf'
  cases hf'
  exact ⟨rfl, rfl, rfl⟩

theorem strays_named_iff (hk : containing fields o = some i) (hf : fields[i]? = some (o, t)) :
    Strays inside Idx (.struct fields size) o ↔ inside = false := by
  constructor
  · intro h
    cases h with
    | empty h => rw [hk] at h; cases h
    | named => rfl
    | field h hf' hlt =>
      obtain ⟨rfl, rfl, rfl⟩ := field_unique hk hf h hf'
      exact absurd hlt (lt_irrefl _)
  · rintro rfl
    exact .named hk hf

theorem strays_field_iff (hk : containing fields o = some i) (hf : fields[i]? = some (off, t))
    (hoff : off < o) :
    Strays inside Idx (.struct fields size) o ↔ Strays inside (some i) t (o - off) := by
  constructor
  · intro h
    cases h with
    | empty h => rw [hk] at h; cases h
    | named h hf' =>
      obtain ⟨rfl, rfl, rfl⟩ := field_unique hk hf h hf'
      exact absurd hoff (lt_irrefl _)
    | field h hf' _ hrest =>
      obtain ⟨rfl, rfl, rfl⟩ := field_unique hk hf h hf'
      exact hrest
  · exact .field hk hf hoff

theorem strays_elem_iff (hstruct : elem.isStruct = true) (hsize : elem.allocSize ≠ 0)
    (hmod : o % elem.allocSize ≠ 0) : Strays inside Idx (.array elem num) o ↔
      Strays (inside && decide (o / elem.allocSize < num)) Idx elem (o % elem.allocSize) := by
  constructor
  · intro h
    cases h with
    | zeroSize _ h => exact absurd h hsize
    | start _ _ h => exact absurd h hmod
    | elem _ _ hrest => exact hrest
  · exact .elem hstruct hmod

theorem strays_start_iff (hstruct : elem.isStruct = true) (hsize : elem.allocSize ≠ 0)
    (hmod : o % elem.allocSize = 0) : Strays inside Idx (.array elem num) o ↔
      ¬ (inside = true ∧ ∃ i, Idx = some i ∧
        (elem.fieldOffset i = some 0 ∧ o / elem.allocSize < num ∨
          elem.fieldOffset i = some elem.allocSize ∧ o / elem.allocSize ≤ num)) := by
  constructor
  · intro h
    cases h with
    | zeroSize _ h => exact absurd h hsize
    | start _ _ _ hIdx => exact hIdx
    | elem _ h => exact absurd hmod h
  · exact .start hstruct hsize hmod

/-- The whole descent. -/
theorem exists_good_iff (ht : Correct t) (ho : 0 < o) (inside : Bool) (Idx : Option ℕ) :
    EndsWith iterate (Good inside t o) ⟨t, o, Idx⟩ ↔ ¬ Strays inside Idx t o := by
  induction ht generalizing o inside Idx with
  | @struct fields size hstart horder hsize hfields ih =>
    have ht : Correct (.struct fields size) := .struct hstart horder hsize hfields
    cases hk : containing fields o with
    | none =>
      rw [endsWith_end (iterate_empty ho hk)]
      exact iff_of_false id fun h => h (.empty hk)
    | some i =>
      obtain ⟨l, off, t, r, hsplit, hlen, hoff, -⟩ := containing_split horder hk
      have hf : fields[i]? = some (off, t) := by simp [hsplit, ← hlen]
      rcases hoff.eq_or_lt with rfl | hoff
      · rw [endsWith_end (iterate_named ho hk hf), strays_named_iff hk hf]
        have hloc : Locates (.struct fields size) off (.struct fields size) i :=
          ⟨0, off, .refl, by simp [fieldOffset, hf], by simp⟩
        simp [Good, hloc]
      · rw [endsWith_next (iterate_field hk hf hoff), strays_field_iff hk hf hoff,
          ← ih (off, t) (List.mem_of_getElem? hf) (by omega)]
        refine exists₂_congr fun fuel r => and_congr_right fun hrun => ?_
        exact good_field_iff ht hk hf hoff (within_run hrun)
  | @array elem num helem ih =>
    cases hstruct : elem.isStruct with
    | false =>
      rw [endsWith_end (iterate_noStruct ho hstruct)]
      refine iff_of_true trivial fun h => ?_
      cases h with
      | zeroSize h | start h | elem h => rw [hstruct] at h; cases h
    | true =>
      by_cases hsize : elem.allocSize = 0
      · rw [endsWith_end (iterate_zeroSize ho hstruct hsize)]
        exact iff_of_false id fun h => h (.zeroSize hstruct hsize)
      · rw [endsWith_next (iterate_elem ho hstruct hsize)]
        by_cases hmod : o % elem.allocSize = 0
        · have hend : iterate ⟨elem, o % elem.allocSize, Idx⟩ = .inr (.returns true elem Idx) := by
            simp [iterate, hmod]
          rw [endsWith_end hend, strays_start_iff hstruct hsize hmod, not_not]
          simp only [Good, locates_start_iff helem hsize ho hmod]
        · rw [strays_elem_iff hstruct hsize hmod, ← ih (by omega)]
          refine exists₂_congr fun fuel r => and_congr_right fun hrun => ?_
          exact good_elem_iff helem hmod (within_run hrun)
  | other =>
    rw [endsWith_end (iterate_other ho)]
    exact iff_of_true trivial fun h => by cases h

end

/-- **Offsets.**  The field at the offset is found exactly if the offset is positive and the
    descent does not stray. -/
theorem resolvesExactly_iff {baseTy : Layout} (hbase : Correct baseTy) (offset : ℕ) :
    ResolvesExactly baseTy offset ↔ 0 < offset ∧ ¬ Strays true none baseTy offset := by
  unfold ResolvesExactly getGEPIndex
  rcases Nat.eq_zero_or_pos offset with rfl | ho
  · have hend : iterate ⟨baseTy, 0, none⟩ = .inr (.returns true baseTy none) := rfl
    exact (endsWith_end hend).trans (by simp [Exact])
  · simp only [← good_true]
    exact (exists_good_iff hbase ho true none).trans (by simp [ho])

/-! ## An array in a struct -/

/-- `struct { int a, b; }`. -/
abbrev pair : Layout := .struct [(0, .other 4), (4, .other 4)] 8

/-- `struct { int n; struct { int a, b; } e[4]; }`. -/
abbrev pairs : Layout := .struct [(0, .other 4), (4, .array pair 4)] 36

theorem correct_pair : Correct pair :=
  .struct (by decide) (by decide) (by decide) (by simp [Correct.other])

theorem correct_pairs : Correct pairs :=
  .struct (by decide) (by decide) (by decide) (by simp [Correct.other, Correct.array, correct_pair])

/-- At the start of `e[1]`, the index `1` of `e` is taken for that of a field of the pair. -/
theorem field_misnamed :
    ¬ ∀ (baseTy : Layout) (offset : ℕ), Correct baseTy → offset ≤ baseTy.allocSize →
      ResolvesExactly baseTy offset := by
  intro h
  obtain ⟨fuel, r, hrun, hexact⟩ := h pairs 12 correct_pairs (by decide)
  have hstrays : Strays true none pairs 12 := by
    refine @Strays.field _ _ _ _ _ 1 4 (.array pair 4) rfl rfl (by decide) ?_
    refine .start rfl (by decide) (by decide) ?_
    simp [fieldOffset, allocSize]
  exact (exists_good_iff correct_pairs (by decide) true none).1
    ⟨fuel, r, hrun, good_true.2 hexact⟩ hstrays

/-- The offset of `e[1].b`. -/
theorem resolvesExactly_pairs : ResolvesExactly pairs 16 := by
  refine (resolvesExactly_iff correct_pairs 16).2 ⟨by decide, fun h => ?_⟩
  rw [@strays_field_iff (.array pair 4) _ _ _ 4 1 _ _ rfl rfl (by decide),
    strays_elem_iff rfl (by decide) (by decide), @strays_named_iff (.other 4) _ _ _ 1 _ _ rfl rfl]
    at h
  exact absurd h (by decide)

end Layout

end TFA
