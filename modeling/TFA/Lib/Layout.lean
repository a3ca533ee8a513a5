/-
  Layouts of nested structs and arrays.

  A layout is a tree of structs, whose fields have offsets, and arrays; `Correct` says that
  fields do not overlap and stay in their struct.

  * `Lies t b u`: `u` lies at offset `b` in `t`, through fields and array elements;
  * `containing`: the last field that starts at or before an offset;
  * `Locates t o u i`: the offset `o` in `t` is that of the field `i` of a `u`.  Of the
    fields of a struct only the one that contains the offset matters
    (`locates_struct_iff`), and likewise of the elements of an array
    (`locates_array_iff`, `locates_start_iff`).
-/
import Mathlib.Data.List.Basic
import Mathlib.Tactic.Ring

namespace TFA

/-- A struct with the offsets of its fields and its size, an array, or any other type with
    its size. -/
inductive Layout where
  | struct (fields : List (ℕ × Layout)) (size : ℕ)
  | array (elem : Layout) (num : ℕ)
  | other (size : ℕ)

namespace Layout

/-- `getTypeAllocSize`. -/
def allocSize : Layout → ℕ
  | struct _ size => size
  | array elem num => num * elem.allocSize
  | other size => size

def isStruct : Layout → Bool
  | struct _ _ => true
  | _ => false

/-- The offset of a field. -/
def fieldOffset : Layout → ℕ → Option ℕ
  | struct fields _, i => fields[i]?.map Prod.fst
  | _, _ => none

/-- The fields are in order and inside the struct, the first one at its start. -/
inductive Correct : Layout → Prop
  | struct {fields size} (hstart : ∀ f ∈ fields.head?, f.1 = 0)
      (horder : fields.Pairwise fun f f' => f.1 + f.2.allocSize ≤ f'.1)
      (hsize : ∀ f ∈ fields, f.1 + f.2.allocSize ≤ size)
      (hfields : ∀ f ∈ fields, Correct f.2) : Correct (struct fields size)
  | array {elem num} (helem : Correct elem) : Correct (array elem num)
  | other {size} : Correct (other size)

/-- A layout lies at an offset in another one. -/
inductive Lies : Layout → ℕ → Layout → Prop
  | refl {t} : Lies t 0 t
  | field {fields size off t b u} (hf : (off, t) ∈ fields) (h : Lies t b u) :
      Lies (struct fields size) (off + b) u
  | elem {elem num i b u} (hi : i < num) (h : Lies elem b u) :
      Lies (array elem num) (i * elem.allocSize + b) u

/-- The last field that starts at or before an offset. -/
def containing : List (ℕ × Layout) → ℕ → Option ℕ
  | [], _ => none
  | f :: fields, o =>
    if f.1 ≤ o then
      match containing fields o with
      | none => some 0
      | some k => some (k + 1)
    else none

/-- An offset is that of the field `i` of a `u`. -/
def Locates (t : Layout) (o : ℕ) (u : Layout) (i : ℕ) : Prop :=
  ∃ b d, Lies t b u ∧ u.fieldOffset i = some d ∧ b + d = o

section
variable {t u elem : Layout} {fields : List (ℕ × Layout)} {size num b o off i k d : ℕ}

theorem sizeOf_field_lt (h : (off, t) ∈ fields) : sizeOf t < sizeOf (struct fields size) := by
  have hmem := List.sizeOf_lt_of_mem h
  simp only [Prod.mk.sizeOf_spec, struct.sizeOf_spec] at hmem ⊢
  omega

theorem Lies.sizeOf_le (h : Lies t b u) : sizeOf u ≤ sizeOf t := by
  induction h with
  | refl => exact le_rfl
  | field hf _ ih => exact ih.trans (sizeOf_field_lt hf).le
  | elem _ _ ih =>
    simp only [array.sizeOf_spec]
    omega

theorem Lies.correct (h : Lies t b u) (ht : Correct t) : Correct u := by
  induction h with
  | refl => exact ht
  | field hf _ ih =>
    cases ht with
    | struct _ _ _ hfields => exact ih (hfields _ hf)
  | elem _ _ ih =>
    cases ht with
    | array helem => exact ih helem

/-- What lies in a layout ends in it. -/
theorem Lies.end_le (h : Lies t b u) (ht : Correct t) : b + u.allocSize ≤ t.allocSize := by
  induction h with
  | refl => simp
  | @field fields size off t b u hf _ ih =>
    cases ht with
    | struct _ _ hsize hfields =>
      have hfield := hsize _ hf
      have hin := ih (hfields _ hf)
      simp only [allocSize] at hfield ⊢
      omega
  | @elem elem num i b u hi _ ih =>
    cases ht with
    | array helem =>
      have hin := ih helem
      calc i * elem.allocSize + b + u.allocSize ≤ (i + 1) * elem.allocSize := by
            rw [Nat.succ_mul]; omega
        _ ≤ num * elem.allocSize := Nat.mul_le_mul_right _ hi

theorem fieldOffset_le (hu : Correct u) (hd : u.fieldOffset i = some d) : d ≤ u.allocSize := by
  cases hu with
  | struct _ _ hsize _ =>
    simp only [fieldOffset, Option.map_eq_some_iff] at hd
    obtain ⟨f, hf, rfl⟩ := hd
    have := hsize f (List.mem_of_getElem? hf)
    simp only [allocSize]
    omega
  | array => cases hd
  | other => cases hd

/-- A field of what lies in a layout starts in it. -/
theorem Lies.field_le (h : Lies t b u) (ht : Correct t) (hd : u.fieldOffset i = some d) :
    b + d ≤ t.allocSize := by
  have h1 := h.end_le ht
  have h2 := fieldOffset_le (h.correct ht) hd
  omega

theorem Lies.eq_zero (h : Lies t b t) : b = 0 := by
  cases h with
  | refl => rfl
  | @field fields size _ t _ _ hf h =>
    have hle := h.sizeOf_le
    have hlt : sizeOf t < sizeOf (struct fields size) := sizeOf_field_lt hf
    omega
  | elem hi h =>
    have hle := h.sizeOf_le
    simp only [array.sizeOf_spec] at hle
    omega

/-! ## The field that contains an offset -/

theorem lt_of_containing_eq_none
    (horder : fields.Pairwise fun f f' => f.1 + f.2.allocSize ≤ f'.1)
    (h : containing fields o = none) : ∀ f ∈ fields, o < f.1 := by
  cases fields with
  | nil => simp
  | cons f fields =>
    have hf : o < f.1 := by
      by_contra hle
      rw [containing, if_pos (by omega)] at h
      split at h <;> cases h
    intro g hg
    rcases List.mem_cons.1 hg with rfl | hg
    · exact hf
    · have := (List.pairwise_cons.1 horder).1 g hg
      omega

/-- The fields before the one that contains the offset, and those after it. -/
theorem containing_split (horder : fields.Pairwise fun f f' => f.1 + f.2.allocSize ≤ f'.1)
    (h : containing fields o = some k) : ∃ l off t r, fields = l ++ (off, t) :: r ∧
      l.length = k ∧ off ≤ o ∧ ∀ f ∈ r, o < f.1 := by
  induction fields generalizing k with
  | nil => cases h
  | cons f fields ih =>
    have horder' := (List.pairwise_cons.1 horder).2
    rw [containing] at h
    split at h
    case isTrue hle =>
      split at h
      case h_1 hnone =>
        cases h
        exact ⟨[], f.1, f.2, fields, rfl, rfl, hle, lt_of_containing_eq_none horder' hnone⟩
      case h_2 k' hsome =>
        cases h
        obtain ⟨l, off, t, r, rfl, hlen, hoff, hr⟩ := ih horder' hsome
        exact ⟨f :: l, off, t, r, rfl, by simp [hlen], hoff, hr⟩
    · cases h

/-- Of the fields only the one that contains the offset matters. -/
theorem locates_struct_iff (ht : Correct (struct fields size)) (hk : containing fields o = some k)
    (hf : fields[k]? = some (off, t)) (hlt : off < o) (hu : sizeOf u ≤ sizeOf t) :
    Locates (struct fields size) o u i ↔ Locates t (o - off) u i := by
  have hmem : (off, t) ∈ fields := List.mem_of_getElem? hf
  constructor
  · rintro ⟨b, d, hlies, hd, rfl⟩
    cases ht with
    | struct _ horder _ hfields =>
      obtain ⟨l, off', t', r, rfl, rfl, -, hr⟩ := containing_split horder hk
      obtain ⟨rfl, rfl⟩ : off' = off ∧ t' = t := by simpa using hf
      cases hlies with
      | refl =>
        have hlt' : sizeOf t' < sizeOf (struct _ size) := sizeOf_field_lt hmem
        omega
      | @field _ _ off'' t'' b _ hf'' hlies =>
        refine ⟨b, d, ?_⟩
        rcases List.mem_append.1 hf'' with hl | hl
        · -- a field that ends before
          have hend := (List.pairwise_append.1 horder).2.2 _ hl (off', t') (by simp)
          have hin := hlies.field_le (hfields _ hf'') hd
          dsimp only at hend
          omega
        · rcases List.mem_cons.1 hl with heq | hl
          · cases heq
            exact ⟨hlies, hd, by omega⟩
          · -- a field that starts later
            have := hr _ hl
            dsimp only at this
            omega
  · rintro ⟨b, d, hlies, hd, hbd⟩
    exact ⟨off + b, d, .field hmem hlies, hd, by omega⟩

/-! ## The element that contains an offset -/

/-- Inside an element only this one matters. -/
theorem locates_array_iff (helem : Correct elem) (hr : o % elem.allocSize ≠ 0)
    (hu : sizeOf u ≤ sizeOf elem) : Locates (array elem num) o u i ↔
      o / elem.allocSize < num ∧ Locates elem (o % elem.allocSize) u i := by
  have hsplit := Nat.div_add_mod o elem.allocSize
  constructor
  · rintro ⟨b, d, hlies, hd, rfl⟩
    cases hlies with
    | refl =>
      simp only [array.sizeOf_spec] at hu
      omega
    | @elem _ _ j b _ hj hlies =>
      have hin := hlies.field_le helem hd
      -- not at the end of the element, as that is where the next one starts
      have hne : b + d ≠ elem.allocSize := by
        intro heq
        have hmod : (j * elem.allocSize + b + d) % elem.allocSize = 0 := by
          rw [add_assoc, heq, ← Nat.succ_mul]
          exact Nat.mul_mod_left _ _
        exact hr hmod
      have hlt : b + d < elem.allocSize := by omega
      have hdiv : (j * elem.allocSize + b + d) / elem.allocSize = j := by
        rw [add_assoc, add_comm, Nat.add_mul_div_right _ _ (by omega),
          Nat.div_eq_of_lt hlt, zero_add]
      have hmod : (j * elem.allocSize + b + d) % elem.allocSize = b + d := by
        rw [add_assoc, add_comm, Nat.add_mul_mod_self_right, Nat.mod_eq_of_lt hlt]
      rw [hdiv, hmod]
      exact ⟨hj, b, d, hlies, hd, rfl⟩
  · rintro ⟨hlt, b, d, hlies, hd, hbd⟩
    refine ⟨o / elem.allocSize * elem.allocSize + b, d, .elem hlt hlies, hd, ?_⟩
    rw [mul_comm]
    omega

/-- Where an element starts, its field at the start or that of the element before at the
    end. -/
theorem locates_start_iff (helem : Correct elem) (hsize : elem.allocSize ≠ 0) (ho : 0 < o)
    (hr : o % elem.allocSize = 0) : Locates (array elem num) o elem i ↔
      elem.fieldOffset i = some 0 ∧ o / elem.allocSize < num ∨
      elem.fieldOffset i = some elem.allocSize ∧ o / elem.allocSize ≤ num := by
  obtain ⟨q, rfl⟩ : ∃ q, o = q * elem.allocSize :=
    ⟨o / elem.allocSize, (Nat.div_mul_cancel (Nat.dvd_of_mod_eq_zero hr)).symm⟩
  rw [Nat.mul_div_cancel _ (by omega)]
  constructor
  · rintro ⟨b, d, hlies, hd, hbd⟩
    cases hlies with
    | @elem _ _ j b _ hj hlies =>
      obtain rfl := hlies.eq_zero
      have hle := fieldOffset_le helem hd
      rw [add_zero] at hbd
      rcases Nat.lt_or_ge d elem.allocSize with hlt | hge
      · have hj' : j = q := by
          have h1 := congrArg (· / elem.allocSize) hbd
          rwa [Nat.mul_div_cancel _ (by omega), add_comm, Nat.add_mul_div_right _ _ (by omega),
            Nat.div_eq_of_lt hlt, zero_add] at h1
        subst hj'
        obtain rfl : d = 0 := by omega
        exact Or.inl ⟨hd, hj⟩
      · obtain rfl : d = elem.allocSize := by omega
        have hj' : q = j + 1 := by
          rw [← Nat.succ_mul] at hbd
          exact (Nat.eq_of_mul_eq_mul_right (by omega) hbd).symm
        exact Or.inr ⟨hd, by omega⟩
  · rintro (⟨hd, hq⟩ | ⟨hd, hq⟩)
    · exact ⟨q * elem.allocSize + 0, 0, .elem hq .refl, hd, by omega⟩
    · obtain ⟨j, rfl⟩ : ∃ j, q = j + 1 := by
        cases q with
        | zero => simp at ho
        | succ j => exact ⟨j, rfl⟩
      refine ⟨j * elem.allocSize + 0, elem.allocSize, .elem (by omega) .refl, hd, ?_⟩
      rw [Nat.succ_mul, add_zero]

end

end Layout

end TFA
