/-
  Two-layer type analysis (`TypeAnalysis.cc`).

  For a layer, `findCalleesWithTwoLayerTA` gathers the functions recorded under it
  and under everything that flows into it, and intersects them with the functions
  of the right type.  Three searches follow the casts of the type, the casts of
  the field and the confinements of the layer; each starts from the layer, and
  none continues where another one has stopped.

  * `Record` is a call that records casts or confinements, `build` a sequence of
    them; `Cast`, `FieldCast` and `Confined` are the relations between layers that
    they make;
  * `findCalleesWithTwoLayerTA_chains`: the result for chains of one of the three
    relations.  A chain that goes through a cast and then a confinement is not
    followed (`cast_of_confined_missed`).
-/
import TFA.CallGraph.LayerMaps
import Mathlib.Algebra.BigOperators.Group.Finset.Piecewise

namespace TFA

open Worklist

/-- `funcSetIntersection`: the common functions and, for a name that both sets
    have, the first function of the first set with that name, in the order of this set. -/
def funcSetIntersection (getName : Func → String) (order : Finset Func → List Func)
    (FS1 FS2 : Finset Func) : Finset Func :=
  FS1.filter fun F => F ∈ FS2 ∨ getName F ≠ "" ∧
    (order FS1).find? (fun G => getName G = getName F) = some F ∧
    ∃ G ∈ FS2, getName G = getName F

/-- What the analysis of a layer returns. -/
structure TwoLayerResult where
  FS : Finset Func := ∅
  LayerNo : ℕ
  /-- the hash of an escaped layer, recorded in `escapedTypesInTypeAnalysisSet` -/
  escape : Option Key := none

namespace LayerMaps

section
variable (T : TypeTable) (m : LayerMaps)

/-- `isEscape`: the hash of the layer, if it is that of an escaped struct. -/
def isEscape (LayerTy : Ty) (FieldIdx : ℤ) : Option Key :=
  if T.isStructTy LayerTy ∧ m.layerHash T (LayerTy, FieldIdx) ∈ m.typeEscapeSet then
    some (m.layerHash T (LayerTy, FieldIdx))
  else none

/-- The functions recorded under a hash and, for a struct, under its name. -/
def recordedAt (hash : Key) (Hty : Option Ty) (Idx : ℤ) : Finset Func :=
  m.typeFuncsMap hash ∪
    match Hty with
    | some t => if T.isStructTy t then m.typeFuncsMap (m.layerHash T (t, Idx)) else ∅
    | none => ∅

/-- Does the search along the casts of the type stop at a hash? -/
def typeStop (FieldIdx : ℤ) (H : Key) : Option Key :=
  (m.hashTypeMap H).bind fun Hty => m.isEscape T Hty FieldIdx

/-- What this search gathers at a hash. -/
def typeFuncs (FieldIdx : ℤ) (H : Key) : Finset Func :=
  m.recordedAt T (.idx H FieldIdx) (m.hashTypeMap H) FieldIdx

/-- The search along the casts of the type. -/
def transitedTypes (LayerTy : Ty) (FieldIdx : ℤ) (merge_set : Finset Func) :
    Except Key (Finset Func) :=
  collect (entries m.typeTransitMap) (m.typeStop T FieldIdx) (m.typeFuncs T FieldIdx)
    (m.typeTransitMap.length + 2) [T.typeHash LayerTy] ∅ merge_set

/-- Does the search along the casts of the field stop at a hash? -/
def fieldStop (FieldIdx : ℤ) (H : Key) : Option Key :=
  (m.hashIDTypeMap H).bind fun Hidty => m.isEscape T Hidty.1 FieldIdx

/-- What this search gathers at a hash. -/
def fieldFuncs (FieldIdx : ℤ) (H : Key) : Finset Func :=
  m.recordedAt T H ((m.hashIDTypeMap H).map Prod.fst) FieldIdx

/-- The search along the casts of the field. -/
def transitedFields (LayerTy : Ty) (FieldIdx : ℤ) (merge_set : Finset Func) :
    Except Key (Finset Func) :=
  collect (entries m.typeTransitMap) (m.fieldStop T FieldIdx) (m.fieldFuncs T FieldIdx)
    (m.typeTransitMap.length + 2) [T.typeIdxHash LayerTy FieldIdx] ∅ merge_set

/-- Does the search along the confinements stop at a hash? -/
def layerStop (H : Key) : Option Key :=
  (m.hashIDTypeMap H).bind fun Hidty => m.isEscape T Hidty.1 Hidty.2

/-- What this search gathers at a hash. -/
def layerFuncs (H : Key) : Finset Func :=
  match m.hashIDTypeMap H with
  | some (Hty, Hid) => m.recordedAt T H (some Hty) Hid
  | none => m.typeFuncsMap H

/-- The search along the confinements. -/
def confinedLayers (LayerTy : Ty) (FieldIdx : ℤ) (merge_set : Finset Func) :
    Except Key (Finset Func) :=
  collect (entries m.typeConfineMap) (m.layerStop T) (m.layerFuncs T)
    (m.typeConfineMap.length + 2) [m.layerHash T (LayerTy, FieldIdx)] ∅ merge_set

/-- `findCalleesWithTwoLayerTA`. -/
def findCalleesWithTwoLayerTA (getName : Func → String) (order : Finset Func → List Func)
    (callHash : Key)
    (PreLayerResult : Finset Func) (LayerTy : Ty) (FieldIdx : ℤ) (LayerNo : ℕ) : TwoLayerResult :=
  match m.isEscape T LayerTy FieldIdx with
  | some k => { LayerNo := LayerNo, escape := some k }
  | none =>
    let merge_set := m.typeFuncsMap (T.typeIdxHash LayerTy FieldIdx) ∪
      m.typeFuncsMap (m.layerHash T (LayerTy, FieldIdx))
    match m.transitedTypes T LayerTy FieldIdx merge_set with
    | .error k => { LayerNo := LayerNo + 1, escape := some k }
    | .ok merge_set =>
      match m.transitedFields T LayerTy FieldIdx merge_set with
      | .error k => { LayerNo := LayerNo + 1, escape := some k }
      | .ok merge_set =>
        match m.confinedLayers T LayerTy FieldIdx merge_set with
        | .error k => { LayerNo := LayerNo + 1, escape := some k }
        | .ok merge_set =>
          { LayerNo := LayerNo + 1
            FS := funcSetIntersection getName order PreLayerResult merge_set ∪
              m.Global_EmptyTy_Funcs callHash }

end

/-! ## What the searches find -/

section
variable {T : TypeTable} {m : LayerMaps} {t : Ty} {i : ℤ} {f : Func}

/-- The fuel of the searches is enough. -/
theorem enough_entries (map : List (Key × Key)) (k : Key) :
    Enough (entries map) (insert k (map.map Prod.snd).toFinset) (map.length + 2) [k] ∅ :=
  enough_targets (fun _ => Or.inl rfl) k

theorem isEscape_isSome : (m.isEscape T t i).isSome ↔
    T.isStructTy t = true ∧ m.layerHash T (t, i) ∈ m.typeEscapeSet := by
  unfold isEscape
  split <;> simp_all

variable (T m t i) in
/-- What the searches pass, with its test for an escape and what is recorded there. -/
inductive Passed : Option Key → Finset Func → Prop
  | start : Passed (m.isEscape T t i)
      (m.typeFuncsMap (T.typeIdxHash t i) ∪ m.typeFuncsMap (m.layerHash T (t, i)))
  | types {H} (h : Relation.TransGen (Step (entries m.typeTransitMap)) (T.typeHash t) H) :
      Passed (m.typeStop T i H) (m.typeFuncs T i H)
  | fields {H} (h : Relation.TransGen (Step (entries m.typeTransitMap)) (T.typeIdxHash t i) H) :
      Passed (m.fieldStop T i H) (m.fieldFuncs T i H)
  | layers {H} (h : Relation.TransGen (Step (entries m.typeConfineMap)) (m.layerHash T (t, i)) H) :
      Passed (m.layerStop T H) (m.layerFuncs T H)

variable (getName : Func → String) (order : Finset Func → List Func) (callHash : Key)
  (Pre : Finset Func) (LayerNo : ℕ) in
/-- **What the analysis returns**: an escape of something that the searches pass,
    or the functions of the previous layer that are recorded there. -/
theorem findCalleesWithTwoLayerTA_cases :
    (∃ k, (m.findCalleesWithTwoLayerTA T getName order callHash Pre t i LayerNo).escape = some k ∧
      ∃ S, Passed T m t i (some k) S) ∨
    ((m.findCalleesWithTwoLayerTA T getName order callHash Pre t i LayerNo).escape = none ∧
      (∀ k S, ¬ Passed T m t i (some k) S) ∧
      ∀ e S, Passed T m t i e S → ∀ f ∈ S, f ∈ Pre →
        f ∈ (m.findCalleesWithTwoLayerTA T getName order callHash Pre t i LayerNo).FS) := by
  have h1 : ∀ acc, Gathered (m.typeStop T i) (m.typeFuncs T i) _ acc
      (m.transitedTypes T t i acc) := collect_cases (enough_entries m.typeTransitMap _)
  have h2 : ∀ acc, Gathered (m.fieldStop T i) (m.fieldFuncs T i) _ acc
      (m.transitedFields T t i acc) := collect_cases (enough_entries m.typeTransitMap _)
  have h3 : ∀ acc, Gathered (m.layerStop T) (m.layerFuncs T) _ acc
      (m.confinedLayers T t i acc) := collect_cases (enough_entries m.typeConfineMap _)
  unfold findCalleesWithTwoLayerTA
  cases h0 : m.isEscape T t i with
  | some k => exact Or.inl ⟨k, rfl, _, h0 ▸ Passed.start⟩
  | none =>
    dsimp only
    generalize hS0 : m.typeFuncsMap (T.typeIdxHash t i) ∪ m.typeFuncsMap (m.layerHash T (t, i)) = S0
    cases hr1 : m.transitedTypes T t i S0 with
    | error k =>
      obtain ⟨H, hH, hk⟩ := (h1 S0).exists_stop hr1
      exact Or.inl ⟨k, rfl, _, hk ▸ Passed.types hH⟩
    | ok S1 =>
      have hg1 := h1 S0
      rw [hr1] at hg1
      dsimp only
      cases hr2 : m.transitedFields T t i S1 with
      | error k =>
        obtain ⟨H, hH, hk⟩ := (h2 S1).exists_stop hr2
        exact Or.inl ⟨k, rfl, _, hk ▸ Passed.fields hH⟩
      | ok S2 =>
        have hg2 := h2 S1
        rw [hr2] at hg2
        dsimp only
        cases hr3 : m.confinedLayers T t i S2 with
        | error k =>
          obtain ⟨H, hH, hk⟩ := (h3 S2).exists_stop hr3
          exact Or.inl ⟨k, rfl, _, hk ▸ Passed.layers hH⟩
        | ok S3 =>
          have hg3 := h3 S2
          rw [hr3] at hg3
          refine Or.inr ⟨rfl, ?_, ?_⟩
          · intro k S hp
            generalize he : some k = e at hp
            cases hp with
            | start => rw [h0] at he; cases he
            | types hH => rw [hg1.1 _ hH] at he; cases he
            | fields hH => rw [hg2.1 _ hH] at he; cases he
            | layers hH => rw [hg3.1 _ hH] at he; cases he
          · intro e S hp f hf hPre
            have hf3 : f ∈ S3 := by
              cases hp with
              | start => exact hg3.subset (hg2.subset (hg1.subset (hS0 ▸ hf)))
              | types hH => exact hg3.subset (hg2.subset (hg1.val_subset hH hf))
              | fields hH => exact hg3.subset (hg2.val_subset hH hf)
              | layers hH => exact hg3.val_subset hH hf
            refine Finset.mem_union_left _ ?_
            rw [funcSetIntersection, Finset.mem_filter]
            exact ⟨hPre, Or.inl hf3⟩

end

/-! ## Chains of records -/

/-- One call of `transitType` or of `propagateType`. -/
inductive Record where
  | transit (ToTy FromTy : Ty) (ToIdx FromIdx : ℤ)
  | propagate (TyList : List CompositeType) (From : CompositeType)

/-- The effect of a call. -/
def Record.apply (T : TypeTable) (m : LayerMaps) : Record → LayerMaps
  | .transit ToTy FromTy ToIdx FromIdx => m.transitType T ToTy FromTy ToIdx FromIdx
  | .propagate TyList From => m.propagateType T TyList From.1 From.2

/-- The effect of a sequence of calls. -/
def build (T : TypeTable) (rs : List Record) (m : LayerMaps) : LayerMaps :=
  rs.foldl (Record.apply T) m

section
variable (T : TypeTable) (m : LayerMaps) (rs : List Record)

/-- The type of `q` was cast to that of `p`, as a whole: fields keep their index. -/
def Cast (p q : CompositeType) : Prop :=
  q.2 = p.2 ∧ ∃ ToTy FromTy ToIdx FromIdx, .transit ToTy FromTy ToIdx FromIdx ∈ rs ∧
    ¬ (ToIdx ≠ -1 ∧ FromIdx ≠ -1) ∧ T.print ToTy = T.print p.1 ∧ T.print FromTy = T.print q.1

/-- The field `q` was cast to the field `p`. -/
def FieldCast (p q : CompositeType) : Prop :=
  ∃ ToTy FromTy, .transit ToTy FromTy p.2 q.2 ∈ rs ∧ (p.2 ≠ -1 ∧ q.2 ≠ -1) ∧
    T.print ToTy = T.print p.1 ∧ T.print FromTy = T.print q.1

/-- The struct layer `q` is confined to the layer `p`. -/
def Confined (p q : CompositeType) : Prop :=
  T.isStructTy q.1 = true ∧ ∃ TyList To From, .propagate TyList From ∈ rs ∧ To ∈ TyList ∧
    To ≠ From ∧ m.layerHash T To = m.layerHash T p ∧ m.layerHash T From = m.layerHash T q

/-- The layer `q` flows into `p` along records of one kind. -/
def FlowsInto (p q : CompositeType) : Prop :=
  Relation.ReflTransGen (Cast T rs) p q ∨ Relation.ReflTransGen (FieldCast T rs) p q ∨
    Relation.ReflTransGen (Confined T m rs) p q

/-- A function is recorded for a layer that flows into `p`: under the hash of the layer, if
    this flows in along casts, or under its name. -/
def RecordedInto (p : CompositeType) (f : Func) : Prop :=
  ∃ q, (Relation.ReflTransGen (Cast T rs) p q ∨ Relation.ReflTransGen (FieldCast T rs) p q) ∧
      f ∈ m.typeFuncsMap (T.typeIdxHash q.1 q.2) ∨
    FlowsInto T m rs p q ∧ T.isStructTy q.1 = true ∧ f ∈ m.typeFuncsMap (m.layerHash T q)

/-- Casts of fields keep the index, and the layers of confinements are structs. -/
structure StructRecords : Prop where
  transit : ∀ ToTy FromTy ToIdx FromIdx, .transit ToTy FromTy ToIdx FromIdx ∈ rs →
    ToIdx ≠ -1 ∧ FromIdx ≠ -1 → ToIdx = FromIdx
  propagate : ∀ TyList From, .propagate TyList From ∈ rs →
    T.isStructTy From.1 = true ∧ ∀ To ∈ TyList, T.isStructTy To.1 = true

end

section
variable {T : TypeTable} {m : LayerMaps} {rs : List Record} {r : Record}

/-! ### What the calls leave -/

theorem foldl_induction {I : LayerMaps → Prop} {q : CompositeType} {L : List CompositeType}
    (h : ∀ p ∈ L, ∀ m, I m → I (confine T q m p)) (hm : I m) : I (L.foldl (confine T q) m) := by
  induction L generalizing m with
  | nil => exact hm
  | cons p L ih =>
    exact ih (fun p' hp' => h p' (List.mem_cons_of_mem _ hp')) (h p (by simp) m hm)

/-- What every cast and every single confinement preserves. -/
theorem build_induction {I : LayerMaps → Prop}
    (htransit : ∀ a b i j, .transit a b i j ∈ rs → ∀ m, I m → I (m.transitType T a b i j))
    (hconfine : ∀ L q, .propagate L q ∈ rs → ∀ p ∈ L, ∀ m, I m → I (confine T q m p))
    (hm : I m) : I (build T rs m) := by
  induction rs generalizing m with
  | nil => exact hm
  | cons r rs ih =>
    refine ih (fun a b i j hr => htransit a b i j (List.mem_cons_of_mem _ hr))
      (fun L q hr => hconfine L q (List.mem_cons_of_mem _ hr)) ?_
    cases r with
    | transit a b i j => exact htransit a b i j (by simp) m hm
    | propagate L q => exact foldl_induction (hconfine L q (by simp)) hm

theorem names_build : (build T rs m).Global_Literal_Struct_Map = m.Global_Literal_Struct_Map :=
  build_induction (I := fun m' => m'.Global_Literal_Struct_Map = m.Global_Literal_Struct_Map)
    (fun a b i j _ m' h => by unfold transitType; dsimp only; split <;> exact h)
    (fun L q _ p _ m' h => by unfold confine; split <;> exact h) rfl

/-- What a call establishes and every call preserves holds in the end. -/
theorem build_of_transit {I : LayerMaps → Prop} {a b : Ty} {i j : ℤ}
    (hr : .transit a b i j ∈ rs) (h : ∀ m : LayerMaps, I (m.transitType T a b i j))
    (htransit : ∀ a b i j (m : LayerMaps), I m → I (m.transitType T a b i j))
    (hconfine : ∀ q p m, I m → I (confine T q m p)) : I (build T rs m) := by
  obtain ⟨before, after, rfl⟩ := List.append_of_mem hr
  rw [build, List.foldl_append, List.foldl_cons]
  exact build_induction (fun a b i j _ => htransit a b i j) (fun _ q _ p _ => hconfine q p) (h _)

theorem build_of_confine {I : LayerMaps → Prop} {L : List CompositeType} {p q : CompositeType}
    (hr : .propagate L q ∈ rs) (hp : p ∈ L)
    (h : ∀ m' : LayerMaps, m'.Global_Literal_Struct_Map = m.Global_Literal_Struct_Map →
      I (confine T q m' p))
    (htransit : ∀ a b i j (m : LayerMaps), I m → I (m.transitType T a b i j))
    (hconfine : ∀ q p m, I m → I (confine T q m p)) : I (build T rs m) := by
  obtain ⟨before, after, rfl⟩ := List.append_of_mem hr
  obtain ⟨L1, L2, rfl⟩ := List.append_of_mem hp
  rw [build, List.foldl_append, List.foldl_cons]
  refine build_induction (fun a b i j _ => htransit a b i j) (fun _ q _ p _ => hconfine q p) ?_
  show I ((L1 ++ p :: L2).foldl (confine T q) _)
  rw [List.foldl_append, List.foldl_cons]
  refine foldl_induction (fun p _ => hconfine q p) (h _ ?_)
  refine foldl_induction
    (I := fun m' : LayerMaps => m'.Global_Literal_Struct_Map = m.Global_Literal_Struct_Map)
    (fun p _ m' hm' => ?_) names_build
  unfold confine
  split <;> exact hm'

variable (T m rs) in
theorem layerHash_build : (build T rs m).layerHash T = m.layerHash T :=
  layerHash_congr names_build

theorem wellKeyed_build (hrs : StructRecords T rs) (hm : WellKeyed T m) :
    WellKeyed T (build T rs m) := by
  refine build_induction (I := WellKeyed T) ?_ ?_ hm
  · intro a b i j _ m h
    exact h.transitType
  · intro L q hr p hp m h
    obtain ⟨hFrom, hTos⟩ := hrs.propagate _ _ hr
    exact h.confine (hTos p hp) hFrom

/-! ### The entries of the maps -/

theorem isSome_update {α : Type*} {map : Key → Option α} {k k₀ : Key} {x : α}
    (h : k = k₀ ∨ (map k).isSome) : (Function.update map k₀ (some x) k).isSome := by
  rw [Function.update_apply]
  split
  · rfl
  case isFalse hk => exact h.resolve_left hk

/-- What is found by its hash is found after every call. -/
theorem isSome_transitType {a b : Ty} {i j : ℤ} {k : Key} :
    ((m.hashTypeMap k).isSome → ((m.transitType T a b i j).hashTypeMap k).isSome) ∧
      ((m.hashIDTypeMap k).isSome → ((m.transitType T a b i j).hashIDTypeMap k).isSome) := by
  unfold transitType
  dsimp only
  split
  · exact ⟨fun h => isSome_update (Or.inr (isSome_update (Or.inr h))),
      fun h => isSome_update (Or.inr (isSome_update (Or.inr h)))⟩
  · exact ⟨fun h => isSome_update (Or.inr (isSome_update (Or.inr h))), id⟩

theorem isSome_confine {p q : CompositeType} {k : Key} (h : (m.hashIDTypeMap k).isSome) :
    ((confine T q m p).hashIDTypeMap k).isSome := by
  unfold confine
  split
  · exact h
  · exact isSome_update (Or.inr (isSome_update (Or.inr h)))

/-- Entries stay. -/
theorem mem_transitType {a b : Ty} {i j : ℤ} {e : Key × Key} (h : e ∈ m.typeTransitMap) :
    e ∈ (m.transitType T a b i j).typeTransitMap := by
  unfold transitType
  dsimp only
  split <;> exact mem_addEntry.2 (Or.inl h)

theorem typeConfineMap_transitType (a b : Ty) (i j : ℤ) :
    (m.transitType T a b i j).typeConfineMap = m.typeConfineMap := by
  unfold transitType
  dsimp only
  split <;> rfl

theorem typeTransitMap_confine (p q : CompositeType) :
    (confine T q m p).typeTransitMap = m.typeTransitMap := by
  unfold confine
  split <;> rfl

theorem hashTypeMap_confine (p q : CompositeType) :
    (confine T q m p).hashTypeMap = m.hashTypeMap := by
  unfold confine
  split <;> rfl

theorem mem_confine_confine {p q : CompositeType} {e : Key × Key} (h : e ∈ m.typeConfineMap) :
    e ∈ (confine T q m p).typeConfineMap := by
  unfold confine
  split
  · exact h
  · exact mem_addEntry.2 (Or.inl h)

/-- An entry of the cast map comes from a cast. -/
theorem mem_transit {k v : Key} (hm : m.typeTransitMap = [])
    (h : (k, v) ∈ (build T rs m).typeTransitMap) :
    ∃ a b i j, .transit a b i j ∈ rs ∧
      (i ≠ -1 ∧ j ≠ -1 ∧ k = T.typeIdxHash a i ∧ v = T.typeIdxHash b j ∨
        ¬ (i ≠ -1 ∧ j ≠ -1) ∧ k = T.typeHash a ∧ v = T.typeHash b) := by
  revert k v
  refine build_induction
    (I := fun m' => ∀ {k v}, (k, v) ∈ m'.typeTransitMap → ∃ a b i j, .transit a b i j ∈ rs ∧
      (i ≠ -1 ∧ j ≠ -1 ∧ k = T.typeIdxHash a i ∧ v = T.typeIdxHash b j ∨
        ¬ (i ≠ -1 ∧ j ≠ -1) ∧ k = T.typeHash a ∧ v = T.typeHash b)) ?_ ?_ (by simp [hm])
  · intro a b i j hr m' hI k v hkv
    unfold transitType at hkv
    dsimp only at hkv
    split at hkv
    case isTrue hidx =>
      rcases mem_addEntry.1 hkv with hkv | hkv
      · exact hI hkv
      · cases hkv; exact ⟨a, b, i, j, hr, Or.inl ⟨hidx.1, hidx.2, rfl, rfl⟩⟩
    case isFalse hidx =>
      rcases mem_addEntry.1 hkv with hkv | hkv
      · exact hI hkv
      · cases hkv; exact ⟨a, b, i, j, hr, Or.inr ⟨hidx, rfl, rfl⟩⟩
  · intro L q _ p _ m' hI k v hkv
    refine hI ?_
    unfold confine at hkv
    split at hkv <;> exact hkv

/-- An entry of the confinement map comes from a confinement. -/
theorem mem_confine {k v : Key} (hm : m.typeConfineMap = [])
    (h : (k, v) ∈ (build T rs m).typeConfineMap) :
    ∃ L p q, .propagate L q ∈ rs ∧ p ∈ L ∧ p ≠ q ∧ k = m.layerHash T p ∧ v = m.layerHash T q := by
  refine (build_induction
    (I := fun m' => m'.Global_Literal_Struct_Map = m.Global_Literal_Struct_Map ∧
      ∀ k v, (k, v) ∈ m'.typeConfineMap → ∃ L p q, .propagate L q ∈ rs ∧ p ∈ L ∧ p ≠ q ∧
        k = m.layerHash T p ∧ v = m.layerHash T q) ?_ ?_ ⟨rfl, by simp [hm]⟩).2 k v h
  · rintro a b i j - m' ⟨hnames, hI⟩
    unfold transitType
    dsimp only
    split <;> exact ⟨hnames, hI⟩
  · rintro L q hr p hp m' ⟨hnames, hI⟩
    unfold confine
    split
    · exact ⟨hnames, hI⟩
    case isFalse hne =>
      refine ⟨hnames, ?_⟩
      intro k v hkv
      rcases mem_addEntry.1 hkv with hkv | hkv
      · exact hI k v hkv
      · rw [layerHash_congr hnames] at hkv
        cases hkv
        exact ⟨L, p, q, hr, hp, hne, rfl, rfl⟩

/-- A cast of whole types is in the map, and its types are found again. -/
theorem transit_mem {a b : Ty} {i j : ℤ} (hr : .transit a b i j ∈ rs)
    (hidx : ¬ (i ≠ -1 ∧ j ≠ -1)) :
    (T.typeHash a, T.typeHash b) ∈ (build T rs m).typeTransitMap ∧
      ((build T rs m).hashTypeMap (T.typeHash b)).isSome := by
  refine build_of_transit (I := fun m' => (T.typeHash a, T.typeHash b) ∈ m'.typeTransitMap ∧
    (m'.hashTypeMap (T.typeHash b)).isSome) hr ?_ ?_ ?_
  · intro m'
    unfold transitType
    dsimp only
    rw [if_neg hidx]
    exact ⟨mem_addEntry.2 (Or.inr rfl), isSome_update (Or.inl rfl)⟩
  · exact fun _ _ _ _ _ h => ⟨mem_transitType h.1, isSome_transitType.1 h.2⟩
  · intro q p m' h
    rw [typeTransitMap_confine, hashTypeMap_confine]
    exact h

/-- A cast of fields is in the map, and its layers are found again. -/
theorem field_mem {a b : Ty} {i j : ℤ} (hr : .transit a b i j ∈ rs) (hidx : i ≠ -1 ∧ j ≠ -1) :
    (T.typeIdxHash a i, T.typeIdxHash b j) ∈ (build T rs m).typeTransitMap ∧
      ((build T rs m).hashIDTypeMap (T.typeIdxHash b j)).isSome := by
  refine build_of_transit (I := fun m' =>
    (T.typeIdxHash a i, T.typeIdxHash b j) ∈ m'.typeTransitMap ∧
      (m'.hashIDTypeMap (T.typeIdxHash b j)).isSome) hr ?_ ?_ ?_
  · intro m'
    unfold transitType
    dsimp only
    rw [if_pos hidx]
    exact ⟨mem_addEntry.2 (Or.inr rfl), isSome_update (Or.inl rfl)⟩
  · exact fun _ _ _ _ _ h => ⟨mem_transitType h.1, isSome_transitType.2 h.2⟩
  · intro q p m' h
    rw [typeTransitMap_confine]
    exact ⟨h.1, isSome_confine h.2⟩

/-- A confinement is in the map, and its layers are found again. -/
theorem confine_mem {L : List CompositeType} {p q : CompositeType} (hr : .propagate L q ∈ rs)
    (hp : p ∈ L) (hne : p ≠ q) :
    (m.layerHash T p, m.layerHash T q) ∈ (build T rs m).typeConfineMap ∧
      ((build T rs m).hashIDTypeMap (m.layerHash T q)).isSome := by
  refine build_of_confine (I := fun m' =>
    (m.layerHash T p, m.layerHash T q) ∈ m'.typeConfineMap ∧
      (m'.hashIDTypeMap (m.layerHash T q)).isSome) hr hp ?_ ?_ ?_
  · intro m' hnames
    unfold confine
    rw [if_neg hne, layerHash_congr hnames]
    exact ⟨mem_addEntry.2 (Or.inr rfl), isSome_update (Or.inl rfl)⟩
  · intro a b i j m' h
    rw [typeConfineMap_transitType]
    exact ⟨h.1, isSome_transitType.2 h.2⟩
  · exact fun _ _ _ h => ⟨mem_confine_confine h.1, isSome_confine h.2⟩

variable (T m rs) in
theorem typeFuncsMap_build : (build T rs m).typeFuncsMap = m.typeFuncsMap :=
  build_induction (I := fun m' => m'.typeFuncsMap = m.typeFuncsMap)
    (fun a b i j _ m' h => by unfold transitType; dsimp only; split <;> exact h)
    (fun L q _ p _ m' h => by unfold confine; split <;> exact h) rfl

variable (T m rs) in
theorem typeEscapeSet_build : (build T rs m).typeEscapeSet = m.typeEscapeSet :=
  build_induction (I := fun m' => m'.typeEscapeSet = m.typeEscapeSet)
    (fun a b i j _ m' h => by unfold transitType; dsimp only; split <;> exact h)
    (fun L q _ p _ m' h => by unfold confine; split <;> exact h) rfl

/-! ### The searches at a layer -/

variable {t t' : Ty} {i : ℤ} {p q : CompositeType}

theorem layerHash_print (h : T.print t = T.print t') :
    m.layerHash T (t, i) = m.layerHash T (t', i) := by
  obtain ⟨hs, hl, hn⟩ := T.same_print t t' h
  simp only [layerHash, layerName, TypeTable.typeHash, hs, hl, hn, h]

/-- What is passed at a layer: its escape, and the functions recorded for it. -/
structure At (T : TypeTable) (m : LayerMaps) (q : CompositeType) (e : Option Key)
    (S : Finset Func) : Prop where
  escape : e.isSome ↔ T.isStructTy q.1 = true ∧ m.layerHash T q ∈ m.typeEscapeSet
  funcs : T.isStructTy q.1 = true → m.typeFuncsMap (m.layerHash T q) ⊆ S

theorem at_of_print (h : T.print q.1 = T.print t) {k : Key} :
    At T m q (m.isEscape T t q.2) (m.recordedAt T k (some t) q.2) := by
  have hL : m.layerHash T (t, q.2) = m.layerHash T q := (layerHash_print h).symm
  have hs : T.isStructTy q.1 = T.isStructTy t := (T.same_print _ _ h).1
  constructor
  · rw [isEscape_isSome, hL, hs]
  · intro hq
    simp only [recordedAt, ← hs, hq, hL, if_true]
    exact Finset.subset_union_right

theorem at_start : At T m p (m.isEscape T p.1 p.2)
    (m.typeFuncsMap (T.typeIdxHash p.1 p.2) ∪ m.typeFuncsMap (m.layerHash T p)) :=
  ⟨isEscape_isSome, fun _ => Finset.subset_union_right⟩

theorem at_type (hm : WellKeyed T m) (hq : (m.hashTypeMap (T.typeHash q.1)).isSome) :
    At T m q (m.typeStop T q.2 (T.typeHash q.1)) (m.typeFuncs T q.2 (T.typeHash q.1)) := by
  obtain ⟨t, ht⟩ := Option.isSome_iff_exists.1 hq
  have hprint : T.print q.1 = T.print t := Key.type.inj (hm.type _ _ ht)
  rw [typeStop, typeFuncs, ht]
  exact at_of_print hprint

theorem at_field (hm : WellKeyed T m) (hq : (m.hashIDTypeMap (T.typeIdxHash q.1 q.2)).isSome) :
    At T m q (m.fieldStop T q.2 (T.typeIdxHash q.1 q.2))
      (m.fieldFuncs T q.2 (T.typeIdxHash q.1 q.2)) := by
  obtain ⟨CT, hCT⟩ := Option.isSome_iff_exists.1 hq
  have hprint : T.print q.1 = T.print CT.1 := by
    rcases hm.layer _ _ hCT with h | ⟨-, h⟩
    · exact Key.type.inj (Key.idx.inj h).1
    · cases (Key.idx.inj h).1
  rw [fieldStop, fieldFuncs, hCT]
  exact at_of_print hprint

theorem at_layer (hm : WellKeyed T m) (hs : T.isStructTy q.1 = true)
    (hq : (m.hashIDTypeMap (m.layerHash T q)).isSome) :
    At T m q (m.layerStop T (m.layerHash T q)) (m.layerFuncs T (m.layerHash T q)) := by
  obtain ⟨CT, hCT⟩ := Option.isSome_iff_exists.1 hq
  rcases hm.layer _ _ hCT with h | ⟨hsCT, h⟩
  · cases (Key.idx.inj h).1
  · rw [layerStop, layerFuncs, hCT]
    constructor
    · show (m.isEscape T CT.1 CT.2).isSome ↔ _
      rw [isEscape_isSome, h]
      simp only [hsCT, hs]
    · intro _
      exact Finset.subset_union_left

/-! ### The searches and the chains -/

/-- The keys that the first search passes are those of the types on chains of casts. -/
theorem reaches_type (hm : m.typeTransitMap = []) {H : Key} :
    Relation.TransGen (Step (entries (build T rs m).typeTransitMap)) (T.typeHash p.1) H ↔
      ∃ q, Relation.TransGen (Cast T rs) p q ∧ T.typeHash q.1 = H := by
  refine transGen_key (fun q : CompositeType => T.typeHash q.1) ?_ p H
  intro p H
  rw [Step, mem_entries]
  constructor
  · intro h
    obtain ⟨a, b, i, j, hr, ⟨-, -, hk, -⟩ | ⟨hidx, hk, hv⟩⟩ := mem_transit hm h
    · cases hk
    · exact ⟨(b, p.2), ⟨rfl, a, b, i, j, hr, hidx, (Key.type.inj hk).symm, rfl⟩, hv.symm⟩
  · rintro ⟨q, ⟨-, a, b, i, j, hr, hidx, ha, hb⟩, rfl⟩
    have hmem := (transit_mem (T := T) (m := m) hr hidx).1
    rwa [TypeTable.typeHash, TypeTable.typeHash, ha, hb] at hmem

theorem reaches_field (hm : m.typeTransitMap = []) {H : Key} :
    Relation.TransGen (Step (entries (build T rs m).typeTransitMap)) (T.typeIdxHash p.1 p.2) H ↔
      ∃ q, Relation.TransGen (FieldCast T rs) p q ∧ T.typeIdxHash q.1 q.2 = H := by
  refine transGen_key (fun q : CompositeType => T.typeIdxHash q.1 q.2) ?_ p H
  intro p H
  rw [Step, mem_entries]
  constructor
  · intro h
    obtain ⟨a, b, i, j, hr, ⟨hi, hj, hk, hv⟩ | ⟨-, hk, -⟩⟩ := mem_transit hm h
    · obtain ⟨hka, rfl⟩ := Key.idx.inj hk
      exact ⟨(b, j), ⟨a, b, hr, ⟨hi, hj⟩, (Key.type.inj hka).symm, rfl⟩, hv.symm⟩
    · cases hk
  · rintro ⟨q, ⟨a, b, hr, hidx, ha, hb⟩, rfl⟩
    have hmem := (field_mem (T := T) (m := m) hr hidx).1
    rwa [TypeTable.typeIdxHash, TypeTable.typeIdxHash, TypeTable.typeHash, TypeTable.typeHash, ha,
      hb] at hmem

theorem reaches_layer (hrs : StructRecords T rs) (hm : m.typeConfineMap = []) {H : Key} :
    Relation.TransGen (Step (entries (build T rs m).typeConfineMap)) (m.layerHash T p) H ↔
      ∃ q, Relation.TransGen (Confined T m rs) p q ∧ m.layerHash T q = H := by
  refine transGen_key (m.layerHash T) ?_ p H
  intro p H
  rw [Step, mem_entries]
  constructor
  · intro h
    obtain ⟨L, a, b, hr, ha, hne, hk, hv⟩ := mem_confine hm h
    exact ⟨b, ⟨(hrs.propagate _ _ hr).1, L, a, b, hr, ha, hne, hk.symm, rfl⟩, hv.symm⟩
  · rintro ⟨q, ⟨-, L, a, b, hr, ha, hne, hka, hkb⟩, rfl⟩
    have hmem := (confine_mem (T := T) (m := m) hr ha hne).1
    rwa [hka, hkb] at hmem

theorem index_of_casts (h : Relation.TransGen (Cast T rs) p q) : q.2 = p.2 := by
  induction h with
  | single hstep => exact hstep.1
  | tail _ hstep ih => rw [hstep.1, ih]

/-- A chain of casts keeps the index, and its last type is found again. -/
theorem at_cast (hm : WellKeyed T m) (hrs : StructRecords T rs)
    (h : Relation.TransGen (Cast T rs) p q) :
    q.2 = p.2 ∧ At T (build T rs m) q ((build T rs m).typeStop T q.2 (T.typeHash q.1))
      ((build T rs m).typeFuncs T q.2 (T.typeHash q.1)) := by
  have hidx : q.2 = p.2 := index_of_casts h
  obtain ⟨c, -, -, a, b, i, j, hr, hnidx, -, hb⟩ := Relation.TransGen.tail'_iff.1 h
  refine ⟨hidx, at_type (wellKeyed_build hrs hm) ?_⟩
  have hsome := (transit_mem (T := T) (m := m) hr hnidx).2
  rwa [TypeTable.typeHash, hb] at hsome

theorem at_fieldCast (hrs : StructRecords T rs) (hm : WellKeyed T m)
    (h : Relation.TransGen (FieldCast T rs) p q) :
    q.2 = p.2 ∧ At T (build T rs m) q ((build T rs m).fieldStop T q.2 (T.typeIdxHash q.1 q.2))
      ((build T rs m).fieldFuncs T q.2 (T.typeIdxHash q.1 q.2)) := by
  have hstep : ∀ {p q}, FieldCast T rs p q → q.2 = p.2 := by
    rintro p q ⟨a, b, hr, hidx, -, -⟩
    exact (hrs.transit _ _ _ _ hr hidx).symm
  have hidx : q.2 = p.2 := by
    induction h with
    | single hs => exact hstep hs
    | tail _ hs ih => rw [hstep hs, ih]
  obtain ⟨c, -, a, b, hr, hne, -, hb⟩ := Relation.TransGen.tail'_iff.1 h
  refine ⟨hidx, at_field (wellKeyed_build hrs hm) ?_⟩
  have hsome := (field_mem (T := T) (m := m) hr hne).2
  rwa [TypeTable.typeIdxHash, TypeTable.typeHash, hb] at hsome

theorem at_confined (hm : WellKeyed T m) (hrs : StructRecords T rs)
    (h : Relation.TransGen (Confined T m rs) p q) :
    At T (build T rs m) q ((build T rs m).layerStop T (m.layerHash T q))
      ((build T rs m).layerFuncs T (m.layerHash T q)) := by
  obtain ⟨c, -, hs, L, a, b, hr, ha, hne, -, hb⟩ := Relation.TransGen.tail'_iff.1 h
  rw [← layerHash_build T m rs]
  refine at_layer (wellKeyed_build hrs hm) hs ?_
  rw [layerHash_build, ← hb]
  exact (confine_mem hr ha hne).2

/-- What is recorded under the hash of a layer that flows in along casts is gathered. -/
theorem passed_of_casts (htransit : m.typeTransitMap = [])
    (h : Relation.ReflTransGen (Cast T rs) p q ∨ Relation.ReflTransGen (FieldCast T rs) p q) :
    ∃ e S, Passed T (build T rs m) p.1 p.2 e S ∧
      (build T rs m).typeFuncsMap (T.typeIdxHash q.1 q.2) ⊆ S := by
  simp only [Relation.reflTransGen_iff_eq_or_transGen] at h
  rcases h with (rfl | h) | (rfl | h)
  · exact ⟨_, _, Passed.start, Finset.subset_union_left⟩
  · have hpass := Passed.types (T := T) (m := build T rs m) (i := p.2)
      ((reaches_type htransit).2 ⟨q, h, rfl⟩)
    rw [← index_of_casts h] at hpass ⊢
    exact ⟨_, _, hpass, Finset.subset_union_left⟩
  · exact ⟨_, _, Passed.start, Finset.subset_union_left⟩
  · have hpass := Passed.fields (T := T) (m := build T rs m) (i := p.2)
      ((reaches_field htransit).2 ⟨q, h, rfl⟩)
    exact ⟨_, _, hpass, Finset.subset_union_left⟩

variable (hm : WellKeyed T m) (hrs : StructRecords T rs) (htransit : m.typeTransitMap = [])
  (hconfine : m.typeConfineMap = [])
include hm hrs htransit hconfine

/-- The searches pass every layer that flows into the start along one kind of record. -/
theorem passed_of_flowsInto (h : FlowsInto T m rs p q) :
    ∃ e S, Passed T (build T rs m) p.1 p.2 e S ∧ At T (build T rs m) q e S := by
  simp only [FlowsInto, Relation.reflTransGen_iff_eq_or_transGen] at h
  rcases h with (rfl | h) | (rfl | h) | (rfl | h)
  · exact ⟨_, _, Passed.start, at_start⟩
  · obtain ⟨hidx, hat⟩ := at_cast hm hrs h
    rw [hidx] at hat
    exact ⟨_, _, Passed.types ((reaches_type htransit).2 ⟨q, h, rfl⟩), hat⟩
  · exact ⟨_, _, Passed.start, at_start⟩
  · obtain ⟨hidx, hat⟩ := at_fieldCast hrs hm h
    have hreach := (reaches_field htransit).2 ⟨q, h, rfl⟩
    rw [hidx] at hat hreach
    exact ⟨_, _, Passed.fields hreach, hat⟩
  · exact ⟨_, _, Passed.start, at_start⟩
  · have hreach : Relation.TransGen (Step (entries (build T rs m).typeConfineMap))
        ((build T rs m).layerHash T p) (m.layerHash T q) := by
      rw [layerHash_build]
      exact (reaches_layer hrs hconfine).2 ⟨q, h, rfl⟩
    exact ⟨_, _, Passed.layers hreach, at_confined hm hrs h⟩

/-- They pass nothing else. -/
theorem flowsInto_of_passed {e : Option Key} {S : Finset Func}
    (h : Passed T (build T rs m) p.1 p.2 e S) :
    ∃ q, FlowsInto T m rs p q ∧ At T (build T rs m) q e S := by
  cases h with
  | start => exact ⟨p, Or.inl .refl, at_start⟩
  | types hH =>
    obtain ⟨q, hq, rfl⟩ := (reaches_type htransit).1 hH
    obtain ⟨hidx, hat⟩ := at_cast hm hrs hq
    exact ⟨q, Or.inl hq.to_reflTransGen, hidx ▸ hat⟩
  | fields hH =>
    obtain ⟨q, hq, rfl⟩ := (reaches_field htransit).1 hH
    obtain ⟨hidx, hat⟩ := at_fieldCast hrs hm hq
    exact ⟨q, Or.inr (Or.inl hq.to_reflTransGen), hidx ▸ hat⟩
  | layers hH =>
    rw [layerHash_build] at hH
    obtain ⟨q, hq, rfl⟩ := (reaches_layer hrs hconfine).1 hH
    exact ⟨q, Or.inr (Or.inr hq.to_reflTransGen), at_confined hm hrs hq⟩

/-- **The closure along one kind of record.**  If a layer with an escaped name flows
    into the start along casts of types, along casts of fields or along
    confinements, an escape is reported; if there is none, every function of the
    previous layer that is recorded for a layer that flows in is returned. -/
theorem findCalleesWithTwoLayerTA_chains (getName : Func → String)
    (order : Finset Func → List Func) (callHash : Key)
    (Pre : Finset Func) (LayerNo : ℕ) (p : CompositeType) :
    ((∃ q, FlowsInto T m rs p q ∧ T.isStructTy q.1 = true ∧
        m.layerHash T q ∈ m.typeEscapeSet) →
      ((build T rs m).findCalleesWithTwoLayerTA T getName order callHash Pre p.1 p.2
        LayerNo).escape.isSome) ∧
    ((¬ ∃ q, FlowsInto T m rs p q ∧ T.isStructTy q.1 = true ∧
        m.layerHash T q ∈ m.typeEscapeSet) →
      ((build T rs m).findCalleesWithTwoLayerTA T getName order callHash Pre p.1 p.2
        LayerNo).escape = none ∧
      ∀ f ∈ Pre, RecordedInto T m rs p f →
        f ∈ ((build T rs m).findCalleesWithTwoLayerTA T getName order callHash Pre p.1 p.2
          LayerNo).FS) := by
  have hcases := findCalleesWithTwoLayerTA_cases (T := T) (m := build T rs m) (t := p.1) (i := p.2)
    getName order callHash Pre LayerNo
  constructor
  · rintro ⟨q, hq, hs, hesc⟩
    obtain ⟨e, S, hpass, hat⟩ := passed_of_flowsInto hm hrs htransit hconfine hq
    rw [← typeEscapeSet_build T m rs, ← layerHash_build T m rs] at hesc
    obtain ⟨k, rfl⟩ := Option.isSome_iff_exists.1 (hat.escape.2 ⟨hs, hesc⟩)
    rcases hcases with ⟨k', hk', -⟩ | ⟨-, hnone, -⟩
    · rw [hk']; rfl
    · exact absurd hpass (hnone k S)
  · intro hno
    rcases hcases with ⟨k, -, S, hpass⟩ | ⟨hesc, -, hfuncs⟩
    · obtain ⟨q, hq, hat⟩ := flowsInto_of_passed hm hrs htransit hconfine hpass
      obtain ⟨hs, hq'⟩ := hat.escape.1 rfl
      rw [typeEscapeSet_build, layerHash_build] at hq'
      exact absurd ⟨q, hq, hs, hq'⟩ hno
    · refine ⟨hesc, ?_⟩
      rintro f hPre ⟨q, ⟨hq, hf⟩ | ⟨hq, hs, hf⟩⟩
      · obtain ⟨e, S, hpass, hsub⟩ := passed_of_casts htransit hq
        rw [← typeFuncsMap_build T m rs] at hf
        exact hfuncs e S hpass f (hsub hf) hPre
      · obtain ⟨e, S, hpass, hat⟩ := passed_of_flowsInto hm hrs htransit hconfine hq
        rw [← typeFuncsMap_build T m rs, ← layerHash_build T m rs] at hf
        exact hfuncs e S hpass f (hat.funcs hs hf) hPre

end

/-! ## A chain of two kinds -/

/-- Structs `A`, `B` and `C`, of which `B` is cast to `A`; the first field of `C` is
    confined to that of `B`. -/
abbrev castOfConfined : List Record :=
  [.transit 0 1 (-1) (-1), .propagate [(1, 0)] (2, 0)]

abbrev structsABC : TypeTable :=
  .ofNames fun t => match t with | 0 => "A" | 1 => "B" | _ => "C"

/-- A function recorded for the first field of `C`. -/
abbrev recordedInC : LayerMaps :=
  ({} : LayerMaps).recordLayer structsABC 7 (2, 0)

theorem wellKeyed_recordedInC : WellKeyed structsABC recordedInC where
  type k t h := by cases h
  layer := layer_update (fun k CT h => by cases h) (Or.inr ⟨rfl, rfl⟩)

theorem structRecords_castOfConfined : StructRecords structsABC castOfConfined where
  transit a b i j h := by
    simp only [castOfConfined, List.mem_cons, Record.transit.injEq, reduceCtorEq,
      List.not_mem_nil, or_false] at h
    rintro ⟨hi, -⟩
    exact absurd h.2.2.1 hi
  propagate L q h := ⟨rfl, fun _ _ => rfl⟩

theorem confined_castOfConfined :
    Confined structsABC recordedInC castOfConfined (1, 0) (2, 0) :=
  ⟨rfl, [(1, 0)], (1, 0), (2, 0), by simp, by simp, by decide, rfl, rfl⟩

/-- A function recorded for this field under the hash of the type only. -/
abbrev hashedInC : LayerMaps where
  typeFuncsMap := Function.update (fun _ => ∅) (structsABC.typeIdxHash 2 0) {7}

/-- Nothing has escaped, and the field of `C` flows into that of `A` by a cast and
    a confinement, but its function is not found there.  It is not found in the field of `B`
    either if it is recorded under the hash of `C` only. -/
theorem cast_of_confined_missed :
    recordedInC.typeEscapeSet = ∅ ∧
    Cast structsABC castOfConfined (0, 0) (1, 0) ∧
    Confined structsABC recordedInC castOfConfined (1, 0) (2, 0) ∧
    7 ∈ recordedInC.typeFuncsMap (recordedInC.layerHash structsABC (2, 0)) ∧
    7 ∉ ((build structsABC castOfConfined recordedInC).findCalleesWithTwoLayerTA structsABC
      (fun _ => "f") inOrder (.type "void()") {7} 0 0 0).FS ∧
    7 ∈ hashedInC.typeFuncsMap (structsABC.typeIdxHash 2 0) ∧
    7 ∉ ((build structsABC castOfConfined hashedInC).findCalleesWithTwoLayerTA structsABC
      (fun _ => "f") inOrder (.type "void()") {7} 1 0 0).FS := by
  refine ⟨rfl, ⟨rfl, 0, 1, -1, -1, by simp, by simp, rfl, rfl⟩, confined_castOfConfined, ?_, ?_, ?_,
    ?_⟩
  all_goals decide

/-- In the field of `B` it is found. -/
theorem confined_found :
    7 ∈ ((build structsABC castOfConfined recordedInC).findCalleesWithTwoLayerTA structsABC
      (fun _ => "f") inOrder (.type "void()") {7} 1 0 0).FS := by
  refine ((findCalleesWithTwoLayerTA_chains wellKeyed_recordedInC structRecords_castOfConfined
    rfl rfl (fun _ => "f") inOrder (.type "void()") {7} 0 (1, 0)).2 ?_).2 7 (by simp)
    ⟨(2, 0), Or.inr ⟨Or.inr (Or.inr (.single confined_castOfConfined)), rfl, by decide⟩⟩
  rintro ⟨q, -, -, hq⟩
  exact absurd hq (by simp [recordLayer])

end LayerMaps

end TFA
