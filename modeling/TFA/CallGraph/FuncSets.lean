/-
  The intersection of function sets, in the order of their iteration
  (`funcSetIntersection` in `CallGraphTools.cc`).

  Functions of one name are matched through maps from names to functions, which keep the
  first function of a name.

  * `intersectInOrder` is the function on two sets that are iterated in the order of two
    lists; it is `funcSetIntersection` (`intersectInOrder_order`);
  * `intersectsByName_iff`: it gives the functions of the first set that the second one has,
    itself or by name, in every order exactly if no two functions of the first set share a
    name through which one of them is matched.
-/
import TFA.CallGraph.TwoLayer

namespace TFA

section
variable (getName : Func → String)

/-- A map from names to functions, filled in the order of a list; `insert` keeps the entry
    that is there. -/
def nameSet (FS : List Func) : List (String × Func) :=
  FS.foldl (fun name_set F =>
    if getName F = "" ∨ getName F ∈ name_set.map Prod.fst then name_set
    else name_set ++ [(getName F, F)]) []

/-- `funcSetIntersection`, where the sets are iterated in the order of the lists. -/
def intersectInOrder (FS1 FS2 : List Func) : Finset Func :=
  let FS := (FS1.filter (· ∈ FS2)).toFinset
  let FS1_name_set := nameSet getName FS1
  let FS2_name_set := nameSet getName FS2
  FS ∪ ((FS1_name_set.filter fun FName => FName.1 ∈ FS2_name_set.map Prod.fst).map
    Prod.snd).toFinset

/-- A function of the set has the name of a function. -/
def SharesName (FS2 : Finset Func) (F : Func) : Prop :=
  getName F ≠ "" ∧ ∃ G ∈ FS2, getName G = getName F

/-- The intersection up to name, in every order. -/
def IntersectsByName (FS1 FS2 : Finset Func) : Prop :=
  ∀ order1 order2 : List Func, order1.Nodup ∧ order1.toFinset = FS1 →
    order2.Nodup ∧ order2.toFinset = FS2 →
    ∀ F, F ∈ intersectInOrder getName order1 order2 ↔
      F ∈ FS1 ∧ (F ∈ FS2 ∨ SharesName getName FS2 F)

end

section
variable {getName : Func → String} {FS : List Func} {FS1 FS2 : Finset Func}
  {order1 order2 : List Func} {F : Func} {name : String}

theorem nameSet_concat (FS : List Func) (F : Func) : nameSet getName (FS ++ [F]) =
    if getName F = "" ∨ getName F ∈ (nameSet getName FS).map Prod.fst then nameSet getName FS
    else nameSet getName FS ++ [(getName F, F)] := by
  rw [nameSet, List.foldl_concat]
  rfl

/-- The first function of each name. -/
theorem mem_nameSet : (name, F) ∈ nameSet getName FS ↔
    name ≠ "" ∧ FS.find? (getName · = name) = some F := by
  induction FS using List.reverseRecOn generalizing name F with
  | nil => simp [nameSet]
  | append_singleton FS G ih =>
    have hnames {name} : name ∈ (nameSet getName FS).map Prod.fst ↔
        name ≠ "" ∧ (FS.find? (getName · = name)).isSome := by
      simp [ih, Option.isSome_iff_exists]
    simp only [nameSet_concat, List.find?_append, hnames]
    by_cases hG : getName G = name
    · subst hG
      by_cases hempty : getName G = ""
      · simp [hempty, ih]
      · cases hfind : FS.find? (getName · = getName G) with
        | none =>
          have hsymm : F = G ↔ G = F := eq_comm
          simp [hempty, ih, hfind, hsymm]
        | some F' => simp [hempty, ih, hfind]
    · have hne : name ≠ getName G := fun h => hG h.symm
      split <;> simp [ih, hG, hne]

/-- The names of the functions that have one. -/
theorem mem_names_nameSet : name ∈ (nameSet getName FS).map Prod.fst ↔
    name ≠ "" ∧ ∃ G ∈ FS, getName G = name := by
  rw [List.mem_map]
  constructor
  · rintro ⟨⟨_, F⟩, hF, rfl⟩
    obtain ⟨hname, hfind⟩ := mem_nameSet.1 hF
    exact ⟨hname, F, List.mem_of_find?_eq_some hfind, by simpa using List.find?_some hfind⟩
  · rintro ⟨hname, G, hG, hGF⟩
    cases hfind : FS.find? (getName · = name) with
    | none => exact absurd hGF (by simpa using List.find?_eq_none.1 hfind G hG)
    | some F => exact ⟨(name, F), mem_nameSet.2 ⟨hname, hfind⟩, rfl⟩

/-- The result, in one order. -/
theorem mem_intersectInOrder : F ∈ intersectInOrder getName order1 order2 ↔
    F ∈ order1 ∧ (F ∈ order2 ∨ getName F ≠ "" ∧
      order1.find? (getName · = getName F) = some F ∧ ∃ G ∈ order2, getName G = getName F) := by
  have hname : F ∈ ((nameSet getName order1).filter fun FName =>
      FName.1 ∈ (nameSet getName order2).map Prod.fst).map Prod.snd ↔
      getName F ≠ "" ∧ order1.find? (getName · = getName F) = some F ∧
        ∃ G ∈ order2, getName G = getName F := by
    rw [List.mem_map]
    simp only [List.mem_filter, mem_names_nameSet, decide_eq_true_eq]
    constructor
    · rintro ⟨⟨name, F⟩, ⟨hF, -, hG⟩, rfl⟩
      obtain ⟨hname, hfind⟩ := mem_nameSet.1 hF
      obtain rfl : getName F = name := by simpa using List.find?_some hfind
      exact ⟨hname, hfind, hG⟩
    · rintro ⟨hname, hfind, hG⟩
      exact ⟨(getName F, F), ⟨mem_nameSet.2 ⟨hname, hfind⟩, hname, hG⟩, rfl⟩
  simp only [intersectInOrder, Finset.mem_union, List.mem_toFinset, List.mem_filter, hname,
    decide_eq_true_eq]
  constructor
  · rintro (⟨h1, h2⟩ | h)
    · exact ⟨h1, Or.inl h2⟩
    · exact ⟨List.mem_of_find?_eq_some h.2.1, Or.inr h⟩
  · rintro ⟨h1, h2 | h⟩
    · exact Or.inl ⟨h1, h2⟩
    · exact Or.inr h

/-- In the order in which the sets are gone through. -/
theorem intersectInOrder_order {order : Finset Func → List Func}
    (horder : ∀ FS F, F ∈ order FS ↔ F ∈ FS) :
    intersectInOrder getName (order FS1) (order FS2) =
      funcSetIntersection getName order FS1 FS2 := by
  ext F
  simp only [mem_intersectInOrder, funcSetIntersection, horder, Finset.mem_filter]

/-- **Intersection.**  It is the one up to name, in every order, exactly if a function that is
    matched by its name only is alone with this name in the first set. -/
theorem intersectsByName_iff (getName : Func → String) (FS1 FS2 : Finset Func) :
    IntersectsByName getName FS1 FS2 ↔
      ∀ F ∈ FS1, F ∉ FS2 → SharesName getName FS2 F →
        ∀ G ∈ FS1, getName G = getName F → G = F := by
  constructor
  · intro h F hF hF2 hname G hG hGF
    by_contra hne
    -- an order in which the other function comes first
    have horder : (G :: (FS1.erase G).toList).Nodup ∧
        (G :: (FS1.erase G).toList).toFinset = FS1 := by
      refine ⟨List.nodup_cons.2 ⟨by simp, Finset.nodup_toList _⟩, ?_⟩
      simp [Finset.insert_erase hG]
    have hmem := (h _ FS2.toList horder ⟨Finset.nodup_toList _, by simp⟩ F).2 ⟨hF, Or.inr hname⟩
    obtain ⟨-, hF2' | ⟨-, hfind, -⟩⟩ := mem_intersectInOrder.1 hmem
    · exact hF2 (Finset.mem_toList.1 hF2')
    · rw [List.find?_cons_of_pos (by simpa using hGF)] at hfind
      exact hne (Option.some.inj hfind)
  · rintro h order1 order2 ⟨-, rfl⟩ ⟨-, rfl⟩ F
    rw [mem_intersectInOrder, List.mem_toFinset, List.mem_toFinset]
    refine and_congr_right fun hF => ?_
    constructor
    · rintro (hF2 | ⟨hname, -, G, hG, hGF⟩)
      · exact Or.inl hF2
      · exact Or.inr ⟨hname, G, List.mem_toFinset.2 hG, hGF⟩
    · rintro (hF2 | hname)
      · exact Or.inl hF2
      · by_cases hF2 : F ∈ order2
        · exact Or.inl hF2
        · obtain ⟨hne, G, hG, hGF⟩ := hname
          refine Or.inr ⟨hne, ?_, G, List.mem_toFinset.1 hG, hGF⟩
          cases hfind : order1.find? (getName · = getName F) with
          | none => simpa using List.find?_eq_none.1 hfind F hF
          | some F' =>
            have hF' : getName F' = getName F := by simpa using List.find?_some hfind
            have hmem : F' ∈ order1 := List.mem_of_find?_eq_some hfind
            rw [h F (List.mem_toFinset.2 hF) (by simpa using hF2) ⟨hne, G, hG, hGF⟩ F'
              (List.mem_toFinset.2 hmem) hF']

/-- Two functions of one name, from different modules, and a declaration of it. -/
theorem second_namesake_dropped :
    ¬ ∀ (getName : Func → String) (FS1 FS2 : Finset Func), IntersectsByName getName FS1 FS2 := by
  intro h
  have hmem := (h (fun _ => "init") {0, 1} {2} [0, 1] [2] (by decide) (by decide) 1).2
    ⟨by decide, Or.inr ⟨by decide, 2, by decide, rfl⟩⟩
  exact absurd hmem (by decide)

end

end TFA
