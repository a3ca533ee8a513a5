/-
  Multi-layer type analysis of an indirect call (`findCalleesWithMLTA` in
  `TypeAnalysis.cc`).

  The layers of the called operand are analysed one after the other against the
  one-layer set `FS1`, and the outcomes are classified.  A layer without targets
  that has not escaped clears `FS1`, so that the layers after it are analysed
  against the empty set, and an escape among them yields the empty set.

  * `getOneLayerResult`, `nextLayerBaseType_new` and the analysis of virtual calls
    are given by their results, `OperandInfo`;
  * `findCalleesWithMLTA_eq_iff`: when the result is what the layers say each for
    itself (`combined`);
  * `escape_after_blank`: a call for which it is not.
-/
import TFA.CallGraph.TwoLayer
import Mathlib.Data.List.TakeWhile

namespace TFA

/-- `TypeAnalyzeResult`. -/
inductive TypeAnalyzeResult where
  | TypeEscape | OneLayer | TwoLayer | ThreeLayer | NoTwoLayerInfo | MissingBaseType | MixedLayer
  | VTable
deriving DecidableEq

/-- What is known of an indirect call. -/
structure OperandInfo where
  callHash : Key
  /-- the result of `getOneLayerResult` -/
  oneLayer : Finset Func
  /-- the result of `nextLayerBaseType_new` on the called operand, in `Precise_Mode` -/
  layer_result : Bool
  TyList : List CompositeType
  /-- the result of `getTargetsInDerivedClass`, if `getCPPVirtualFunc` succeeds -/
  virtualTargets : Option (Finset Func)

/-- The variables of the loop over the layers. -/
structure MLTAState where
  FS1 : Finset Func
  FS2 : Finset Func := ∅
  TAResultSet : Finset TypeAnalyzeResult := ∅
  LayerNo : ℕ := 1

namespace LayerMaps

section
variable (T : TypeTable) (m : LayerMaps) (getName : Func → String)
  (order : Finset Func → List Func) (callHash : Key)

/-- The body of the loop. -/
def analyzeLayer (st : MLTAState) (CT : CompositeType) : MLTAState :=
  let r := m.findCalleesWithTwoLayerTA T getName order callHash st.FS1 CT.1 CT.2 st.LayerNo
  if r.FS ≠ ∅ then
    { st with
      FS2 := st.FS2 ∪ r.FS, TAResultSet := insert .TwoLayer st.TAResultSet, LayerNo := r.LayerNo }
  else if r.escape.isNone then
    { st with
      FS1 := ∅, TAResultSet := insert .NoTwoLayerInfo st.TAResultSet, LayerNo := r.LayerNo }
  else
    { st with TAResultSet := insert .TypeEscape st.TAResultSet, LayerNo := r.LayerNo }

/-- The classification after the loop: the entry of `Global_MLTA_Reualt_Map` and the
    targets. -/
def resolveTAResult (st : MLTAState) : TypeAnalyzeResult × Finset Func :=
  if st.TAResultSet = {.TwoLayer} then (.TwoLayer, st.FS2)
  else if st.TAResultSet = {.NoTwoLayerInfo} then (.NoTwoLayerInfo, st.FS1)
  else if .TypeEscape ∈ st.TAResultSet then (.TypeEscape, st.FS1)
  else (.MixedLayer, st.FS2)

/-- `findCalleesWithMLTA`: the targets and the entry of `Global_MLTA_Reualt_Map`. -/
def findCalleesWithMLTA (CI : OperandInfo) (FS : Finset Func) : TypeAnalyzeResult × Finset Func :=
  if CI.oneLayer = ∅ then
    match CI.virtualTargets with
    | some VTable_Set =>
      if VTable_Set = ∅ then (.MissingBaseType, FS) else (.VTable, VTable_Set)
    | none => (.MissingBaseType, FS)
  else if CI.layer_result then
    resolveTAResult
      (CI.TyList.foldl (m.analyzeLayer T getName order CI.callHash) { FS1 := CI.oneLayer })
  else
    match CI.virtualTargets with
    | some VTable_Set =>
      if VTable_Set = ∅ then (.OneLayer, CI.oneLayer) else (.VTable, VTable_Set)
    | none => (.OneLayer, CI.oneLayer)

/-! ## The layers each for itself -/

/-- Does the analysis of a layer report an escape? -/
def Escapes (p : CompositeType) : Prop :=
  (m.findCalleesWithTwoLayerTA T getName order callHash ∅ p.1 p.2 0).escape.isSome

instance : DecidablePred (m.Escapes T getName order callHash) :=
  fun _ => inferInstanceAs (Decidable (_ = _))

/-- The targets of a layer against a one-layer set. -/
def layerTargets (S : Finset Func) (p : CompositeType) : Finset Func :=
  (m.findCalleesWithTwoLayerTA T getName order callHash S p.1 p.2 0).FS

/-- A layer that has not escaped and has no targets. -/
def Blank (S : Finset Func) (p : CompositeType) : Prop :=
  ¬ m.Escapes T getName order callHash p ∧ m.layerTargets T getName order callHash S p = ∅

instance (S : Finset Func) : DecidablePred (m.Blank T getName order callHash S) :=
  fun _ => inferInstanceAs (Decidable (_ ∧ _))

/-- The targets of several layers. -/
def unionTargets (S : Finset Func) (L : List CompositeType) : Finset Func :=
  L.toFinset.biUnion (m.layerTargets T getName order callHash S)

/-- What the layers say each for itself: the one-layer set if one of them has
    escaped, else all their targets. -/
def combined (S : Finset Func) (L : List CompositeType) : Finset Func :=
  if ∃ p ∈ L, m.Escapes T getName order callHash p then S
  else m.unionTargets T getName order callHash S L

/-- The layers before the first one that is blank. -/
def beforeBlank (S : Finset Func) (L : List CompositeType) : List CompositeType :=
  L.takeWhile fun p => ¬ m.Blank T getName order callHash S p

end

section
variable {T : TypeTable} {m : LayerMaps} {getName : Func → String}
  {order : Finset Func → List Func} {callHash : Key}
  {S : Finset Func} {L : List CompositeType} {p : CompositeType} {st : MLTAState} {t : Ty}
  {i : ℤ}

/-! ## One layer -/

variable (T m t i getName order callHash) in
/-- The one-layer set is used in the last step only. -/
theorem exists_merge_set : ∃ r : Except Key (Finset Func), ∀ S n,
    (m.findCalleesWithTwoLayerTA T getName order callHash S t i n).escape.isSome = !r.toBool ∧
    (m.findCalleesWithTwoLayerTA T getName order callHash S t i n).FS =
      match r with
      | .error _ => ∅
      | .ok merge_set =>
        funcSetIntersection getName order S merge_set ∪ m.Global_EmptyTy_Funcs callHash := by
  unfold findCalleesWithTwoLayerTA
  cases m.isEscape T t i with
  | some k => exact ⟨.error k, fun S n => ⟨rfl, rfl⟩⟩
  | none =>
    dsimp only
    cases m.transitedTypes T t i _ with
    | error k => exact ⟨.error k, fun S n => ⟨rfl, rfl⟩⟩
    | ok M =>
      dsimp only
      cases m.transitedFields T t i M with
      | error k => exact ⟨.error k, fun S n => ⟨rfl, rfl⟩⟩
      | ok M =>
        dsimp only
        cases m.confinedLayers T t i M with
        | error k => exact ⟨.error k, fun S n => ⟨rfl, rfl⟩⟩
        | ok M => exact ⟨.ok M, fun S n => ⟨rfl, rfl⟩⟩

/-- Whether a layer escapes depends neither on the one-layer set nor on the counter. -/
theorem escape_isNone_iff (S : Finset Func) (n : ℕ) :
    (m.findCalleesWithTwoLayerTA T getName order callHash S p.1 p.2 n).escape.isNone ↔
      ¬ m.Escapes T getName order callHash p := by
  obtain ⟨r, hr⟩ := exists_merge_set T m getName order callHash p.1 p.2
  rw [Escapes, ← Option.not_isSome, (hr S n).1, (hr ∅ 0).1]
  simp

theorem targets_eq (S : Finset Func) (n : ℕ) :
    (m.findCalleesWithTwoLayerTA T getName order callHash S p.1 p.2 n).FS =
      m.layerTargets T getName order callHash S p := by
  obtain ⟨r, hr⟩ := exists_merge_set T m getName order callHash p.1 p.2
  rw [layerTargets, (hr S n).2, (hr S 0).2]

theorem layerTargets_of_escapes (h : m.Escapes T getName order callHash p) :
    m.layerTargets T getName order callHash S p = ∅ := by
  obtain ⟨r, hr⟩ := exists_merge_set T m getName order callHash p.1 p.2
  rw [Escapes, (hr ∅ 0).1] at h
  rw [layerTargets, (hr S 0).2]
  cases r with
  | error k => rfl
  | ok M => cases h

/-- Against the empty set only the functions without a layer are targets. -/
theorem layerTargets_empty (h : ¬ m.Escapes T getName order callHash p) :
    m.layerTargets T getName order callHash ∅ p = m.Global_EmptyTy_Funcs callHash := by
  obtain ⟨r, hr⟩ := exists_merge_set T m getName order callHash p.1 p.2
  rw [Escapes, (hr ∅ 0).1] at h
  rw [layerTargets, (hr ∅ 0).2]
  cases r with
  | error k => exact absurd rfl h
  | ok M => simp [funcSetIntersection]

theorem Blank.emptyTy (h : m.Blank T getName order callHash S p) :
    m.Global_EmptyTy_Funcs callHash = ∅ := by
  obtain ⟨hesc, hempty⟩ := h
  obtain ⟨r, hr⟩ := exists_merge_set T m getName order callHash p.1 p.2
  rw [Escapes, (hr ∅ 0).1] at hesc
  rw [layerTargets, (hr S 0).2] at hempty
  cases r with
  | error k => exact absurd rfl hesc
  | ok M => exact (Finset.union_eq_empty.1 hempty).2

/-- After a blank layer every layer is without targets. -/
theorem layerTargets_of_emptyTy (h : m.Global_EmptyTy_Funcs callHash = ∅) :
    m.layerTargets T getName order callHash ∅ p = ∅ := by
  by_cases hesc : m.Escapes T getName order callHash p
  · exact layerTargets_of_escapes hesc
  · rw [layerTargets_empty hesc, h]

variable (T m getName order callHash S p) in
/-- The outcome of a layer. -/
def outcome : TypeAnalyzeResult :=
  if m.Blank T getName order callHash S p then .NoTwoLayerInfo
  else if m.Escapes T getName order callHash p then .TypeEscape
  else .TwoLayer

variable (T m getName order callHash st p) in
/-- What one layer does to the variables of the loop. -/
theorem analyzeLayer_spec :
    (m.analyzeLayer T getName order callHash st p).FS1 =
      (if m.Blank T getName order callHash st.FS1 p then ∅ else st.FS1) ∧
    (m.analyzeLayer T getName order callHash st p).FS2 =
      st.FS2 ∪ m.layerTargets T getName order callHash st.FS1 p ∧
    (m.analyzeLayer T getName order callHash st p).TAResultSet =
      insert (m.outcome T getName order callHash st.FS1 p) st.TAResultSet := by
  simp only [analyzeLayer, targets_eq, outcome, Blank, escape_isNone_iff]
  by_cases h : m.Escapes T getName order callHash p
  · simp [h, layerTargets_of_escapes h]
  · by_cases hT : m.layerTargets T getName order callHash st.FS1 p = ∅ <;> simp [h, hT]

/-! ## All layers -/

variable (T m getName order callHash) in
/-- The loop, as long as blank layers leave the one-layer set as it is. -/
theorem foldl_spec (h : ∀ p ∈ L, m.Blank T getName order callHash st.FS1 p → st.FS1 = ∅) :
    (L.foldl (m.analyzeLayer T getName order callHash) st).FS1 = st.FS1 ∧
    (L.foldl (m.analyzeLayer T getName order callHash) st).FS2 =
      st.FS2 ∪ m.unionTargets T getName order callHash st.FS1 L ∧
    (L.foldl (m.analyzeLayer T getName order callHash) st).TAResultSet =
      st.TAResultSet ∪ L.toFinset.image (m.outcome T getName order callHash st.FS1) := by
  induction L generalizing st with
  | nil => simp [unionTargets]
  | cons p L ih =>
    obtain ⟨h1, h2, h3⟩ := analyzeLayer_spec T m getName order callHash p st
    have hFS1 : (m.analyzeLayer T getName order callHash st p).FS1 = st.FS1 := by
      rw [h1]
      split
      case isTrue hb => rw [h p (by simp) hb]
      · rfl
    obtain ⟨ih1, ih2, ih3⟩ := @ih (m.analyzeLayer T getName order callHash st p) fun q hq =>
      hFS1 ▸ h q (List.mem_cons_of_mem _ hq)
    rw [List.foldl_cons, ih1, ih2, ih3, hFS1, h2, h3]
    refine ⟨rfl, ?_, ?_⟩
    · rw [unionTargets, unionTargets, List.toFinset_cons, Finset.biUnion_insert, Finset.union_assoc]
    · rw [List.toFinset_cons, Finset.image_insert, Finset.union_insert, Finset.insert_union]

theorem outcome_eq_typeEscape :
    m.outcome T getName order callHash S p = .TypeEscape ↔
      m.Escapes T getName order callHash p := by
  unfold outcome
  split_ifs with hb h
  · simp [hb.1]
  · simp [h]
  · simp [h]

theorem outcome_eq_noTwoLayerInfo :
    m.outcome T getName order callHash S p = .NoTwoLayerInfo ↔
      m.Blank T getName order callHash S p := by
  unfold outcome
  split_ifs <;> simp_all

theorem typeEscape_mem_image :
    .TypeEscape ∈ L.toFinset.image (m.outcome T getName order callHash S) ↔
      ∃ p ∈ L, m.Escapes T getName order callHash p := by
  simp [outcome_eq_typeEscape]

theorem resolve_of_escape (h : .TypeEscape ∈ st.TAResultSet) :
    (resolveTAResult st).2 = st.FS1 := by
  unfold resolveTAResult
  split_ifs with h1 h2
  · simp [h1] at h
  · rfl
  · rfl

theorem resolve_of_targets (h : .TypeEscape ∉ st.TAResultSet)
    (h' : st.TAResultSet = {.NoTwoLayerInfo} → st.FS1 = st.FS2) :
    (resolveTAResult st).2 = st.FS2 := by
  unfold resolveTAResult
  split_ifs with h1 h2
  · rfl
  · exact h' h2
  · rfl

/-- Without a blank layer the layers are combined as they should. -/
theorem resolve_of_noBlank (h : ∀ p ∈ L, ¬ m.Blank T getName order callHash S p) :
    (resolveTAResult (L.foldl (m.analyzeLayer T getName order callHash) { FS1 := S })).2 =
      m.combined T getName order callHash S L := by
  have hconst : ∀ p ∈ L, m.Blank T getName order callHash S p → S = ∅ :=
    fun p hp hb => absurd hb (h p hp)
  obtain ⟨h1, h2, h3⟩ := @foldl_spec T m getName order callHash L { FS1 := S } hconst
  rw [Finset.empty_union] at h2 h3
  by_cases hesc : ∃ p ∈ L, m.Escapes T getName order callHash p
  · rw [combined, if_pos hesc, resolve_of_escape (h3 ▸ typeEscape_mem_image.2 hesc), h1]
  · rw [combined, if_neg hesc, resolve_of_targets ?_ ?_, h2]
    · rwa [h3, typeEscape_mem_image]
    · intro hN
      have hmem : .NoTwoLayerInfo ∈ L.toFinset.image (m.outcome T getName order callHash S) := by
        rw [← h3, hN]
        simp
      obtain ⟨p, hp, hpN⟩ := Finset.mem_image.1 hmem
      exact absurd (outcome_eq_noTwoLayerInfo.1 hpN) (h p (List.mem_toFinset.1 hp))

theorem unionTargets_of_emptyTy (h : m.Global_EmptyTy_Funcs callHash = ∅) :
    m.unionTargets T getName order callHash ∅ L = ∅ := by
  ext f
  simp only [unionTargets, Finset.mem_biUnion, layerTargets_of_emptyTy h]
  simp

/-- A list with a blank layer is split at the first one. -/
theorem exists_blank (h : ∃ p ∈ L, m.Blank T getName order callHash S p) :
    ∃ p₀ after, L = m.beforeBlank T getName order callHash S L ++ p₀ :: after ∧
      m.Blank T getName order callHash S p₀ := by
  induction L with
  | nil => simp at h
  | cons p L ih =>
    by_cases hb : m.Blank T getName order callHash S p
    · exact ⟨p, L, by simp [beforeBlank, hb], hb⟩
    · obtain ⟨q, hq, hqb⟩ := h
      rcases List.mem_cons.1 hq with rfl | hq
      · exact absurd hqb hb
      · obtain ⟨p₀, after, hL, hp₀⟩ := ih ⟨q, hq, hqb⟩
        refine ⟨p₀, after, ?_, hp₀⟩
        conv_lhs => rw [hL]
        simp [beforeBlank, hb]

theorem not_blank_of_mem_beforeBlank (h : p ∈ m.beforeBlank T getName order callHash S L) :
    ¬ m.Blank T getName order callHash S p := by
  simpa using List.mem_takeWhile_imp h

/-- After the first blank layer nothing more is found, and an escape yields the empty set. -/
theorem resolve_of_blank (h : ∃ p ∈ L, m.Blank T getName order callHash S p) :
    (resolveTAResult (L.foldl (m.analyzeLayer T getName order callHash) { FS1 := S })).2 =
      if ∃ p ∈ L, m.Escapes T getName order callHash p then ∅
      else m.unionTargets T getName order callHash S
        (m.beforeBlank T getName order callHash S L) := by
  obtain ⟨p₀, after, hL, hb⟩ := exists_blank h
  have hpre : ∀ p ∈ m.beforeBlank T getName order callHash S L,
      ¬ m.Blank T getName order callHash S p :=
    fun p => not_blank_of_mem_beforeBlank
  generalize m.beforeBlank T getName order callHash S L = before at hL hpre
  subst hL
  have hE : m.Global_EmptyTy_Funcs callHash = ∅ := hb.emptyTy
  have hconst : ∀ p ∈ before, m.Blank T getName order callHash S p → S = ∅ :=
    fun p hp hb => absurd hb (hpre p hp)
  obtain ⟨a1, a2, a3⟩ := @foldl_spec T m getName order callHash before { FS1 := S } hconst
  rw [List.foldl_append, List.foldl_cons]
  generalize before.foldl (m.analyzeLayer T getName order callHash) { FS1 := S } = st₁ at a1 a2 a3
  obtain ⟨b1, b2, b3⟩ := analyzeLayer_spec T m getName order callHash p₀ st₁
  rw [a1, if_pos hb] at b1
  rw [a1, a2, hb.2] at b2
  rw [a1, a3, outcome_eq_noTwoLayerInfo.2 hb] at b3
  generalize m.analyzeLayer T getName order callHash st₁ p₀ = st₂ at b1 b2 b3
  obtain ⟨c1, c2, c3⟩ := @foldl_spec T m getName order callHash after st₂ fun _ _ _ => b1
  rw [b1, b2, unionTargets_of_emptyTy hE] at c2
  rw [b1] at c1 c3
  rw [b3] at c3
  generalize after.foldl (m.analyzeLayer T getName order callHash) st₂ = st₃ at c1 c2 c3
  have hFS2 : st₃.FS2 = m.unionTargets T getName order callHash S before := by simpa using c2
  have hTA : .TypeEscape ∈ st₃.TAResultSet ↔
      ∃ p ∈ before ++ p₀ :: after, m.Escapes T getName order callHash p := by
    have hp₀ : ¬ m.Escapes T getName order callHash p₀ := hb.1
    rw [c3]
    simp [outcome_eq_typeEscape, or_and_right, exists_or, hp₀]
  by_cases hesc : ∃ p ∈ before ++ p₀ :: after, m.Escapes T getName order callHash p
  · rw [if_pos hesc, resolve_of_escape (hTA.2 hesc), c1]
  · rw [if_neg hesc, resolve_of_targets (mt hTA.1 hesc) ?_, hFS2]
    -- the blank layer alone: there is no layer before it
    intro hN
    rw [c1, hFS2, eq_comm, Finset.eq_empty_iff_forall_notMem]
    intro f hf
    obtain ⟨p, hp, -⟩ := Finset.mem_biUnion.1 hf
    have hout : m.outcome T getName order callHash S p ∈ st₃.TAResultSet := by
      rw [c3]
      have := Finset.mem_image_of_mem (m.outcome T getName order callHash S) hp
      simp [this]
    rw [hN, Finset.mem_singleton, outcome_eq_noTwoLayerInfo] at hout
    exact hpre p (List.mem_toFinset.1 hp) hout

theorem combined_empty : m.combined T getName order callHash ∅ L =
    if L = [] ∨ ∃ p ∈ L, m.Escapes T getName order callHash p then ∅
    else m.Global_EmptyTy_Funcs callHash := by
  unfold combined
  by_cases hesc : ∃ p ∈ L, m.Escapes T getName order callHash p
  · rw [if_pos hesc, if_pos (Or.inr hesc)]
  · rw [if_neg hesc]
    cases L with
    | nil => rfl
    | cons p L =>
      rw [if_neg (by simpa using hesc)]
      push Not at hesc
      ext f
      simp only [unionTargets, Finset.mem_biUnion, List.mem_toFinset]
      constructor
      · rintro ⟨q, hq, hf⟩
        rwa [layerTargets_empty (hesc q hq)] at hf
      · intro hf
        exact ⟨p, by simp, by rwa [layerTargets_empty (hesc p (by simp))]⟩

/-- With a blank layer, the layers before it have to say what all say. -/
theorem before_eq_union_iff :
    m.unionTargets T getName order callHash S (m.beforeBlank T getName order callHash S L) =
      m.unionTargets T getName order callHash S L ↔
    ∀ p ∈ L, m.layerTargets T getName order callHash S p ⊆
      m.unionTargets T getName order callHash S (m.beforeBlank T getName order callHash S L) := by
  constructor
  · intro h p hp
    rw [h]
    exact Finset.subset_biUnion_of_mem _ (List.mem_toFinset.2 hp)
  · intro h
    refine Finset.Subset.antisymm ?_ ?_
    · refine Finset.biUnion_subset_biUnion_of_subset_left _ ?_
      intro p hp
      rw [List.mem_toFinset] at hp ⊢
      exact (List.takeWhile_sublist _).subset hp
    · rw [unionTargets, Finset.biUnion_subset]
      exact fun p hp => h p (List.mem_toFinset.1 hp)

/-- **When the layers are combined as they should.**  With a one-layer set: no layer
    is blank, or none escapes and those before the first blank one already have all
    targets.  Without one: the virtual call has the targets of the functions without
    a layer. -/
theorem findCalleesWithMLTA_eq_iff {CI : OperandInfo} (hres : CI.layer_result = true)
    (FS : Finset Func) :
    (m.findCalleesWithMLTA T getName order CI FS).2 =
        m.combined T getName order CI.callHash CI.oneLayer CI.TyList ↔
      if CI.oneLayer = ∅ then
        (CI.virtualTargets.filter (· ≠ ∅)).getD FS =
          if CI.TyList = [] ∨ ∃ p ∈ CI.TyList, m.Escapes T getName order CI.callHash p then ∅
          else m.Global_EmptyTy_Funcs CI.callHash
      else
        (∀ p ∈ CI.TyList, ¬ m.Blank T getName order CI.callHash CI.oneLayer p) ∨
        (∀ p ∈ CI.TyList, ¬ m.Escapes T getName order CI.callHash p) ∧
          ∀ p ∈ CI.TyList, m.layerTargets T getName order CI.callHash CI.oneLayer p ⊆
            m.unionTargets T getName order CI.callHash CI.oneLayer
              (m.beforeBlank T getName order CI.callHash CI.oneLayer CI.TyList) := by
  rw [findCalleesWithMLTA, if_pos hres]
  split
  case isTrue hS =>
    have hFS : (match CI.virtualTargets with
        | some VTable_Set =>
          if VTable_Set = ∅ then (TypeAnalyzeResult.MissingBaseType, FS) else (.VTable, VTable_Set)
        | none => (.MissingBaseType, FS)).2 = (CI.virtualTargets.filter (· ≠ ∅)).getD FS := by
      cases CI.virtualTargets with
      | none => rfl
      | some V => by_cases hV : V = ∅ <;> simp [hV, Option.filter]
    rw [hFS, hS, combined_empty]
  case isFalse hS =>
    by_cases hb : ∃ p ∈ CI.TyList, m.Blank T getName order CI.callHash CI.oneLayer p
    · have hno : ¬ ∀ p ∈ CI.TyList, ¬ m.Blank T getName order CI.callHash CI.oneLayer p := by
        simpa using hb
      rw [resolve_of_blank hb, or_iff_right hno, combined]
      by_cases hesc : ∃ p ∈ CI.TyList, m.Escapes T getName order CI.callHash p
      · rw [if_pos hesc, if_pos hesc, iff_false_right (fun h => ?_)]
        · exact fun h => hS h.symm
        · obtain ⟨p, hp, hpe⟩ := hesc
          exact h.1 p hp hpe
      · rw [if_neg hesc, if_neg hesc, before_eq_union_iff, iff_and_self]
        intro _ p hp hpe
        exact hesc ⟨p, hp, hpe⟩
    · push Not at hb
      rw [resolve_of_noBlank hb]
      simp only [true_iff]
      exact Or.inl hb

end

/-! ## An escape and a blank layer -/

/-- A call through the first fields of `A` and `B`. -/
abbrev throughAB : OperandInfo where
  callHash := .type "void()"
  oneLayer := {7}
  layer_result := true
  TyList := [(0, 0), (1, 0)]
  virtualTargets := none

/-- The field of `B` has escaped in a store. -/
abbrev escapedB : LayerMaps := ({} : LayerMaps).escapeType structsABC 3 1 0

/-- Nothing is recorded for the field of `A`; the escape of `B` then yields no
    target instead of the one-layer set. -/
theorem escape_after_blank :
    escapedB.Escapes structsABC (fun _ => "f") inOrder (.type "void()") (1, 0) ∧
    escapedB.combined structsABC (fun _ => "f") inOrder (.type "void()") {7} [(0, 0), (1, 0)] =
      {7} ∧
    (escapedB.findCalleesWithMLTA structsABC (fun _ => "f") inOrder throughAB ∅).2 = ∅ := by
  decide

/-- A call through the fields of `B` and `C`. -/
abbrev throughBC : OperandInfo where
  callHash := .type "void()"
  oneLayer := {7, 8}
  layer_result := true
  TyList := [(1, 0), (2, 0)]
  virtualTargets := none

/-- With a function recorded in each of them, both are targets. -/
theorem findCalleesWithMLTA_throughBC :
    ((recordedInC.recordLayer structsABC 8 (1, 0)).findCalleesWithMLTA structsABC
      (fun F => if F = 7 then "f" else "g") inOrder throughBC ∅).2 =
    (recordedInC.recordLayer structsABC 8 (1, 0)).combined structsABC
      (fun F => if F = 7 then "f" else "g") inOrder (.type "void()") {7, 8} [(1, 0), (2, 0)] :=
  (@findCalleesWithMLTA_eq_iff structsABC (recordedInC.recordLayer structsABC 8 (1, 0))
    (fun F => if F = 7 then "f" else "g") inOrder throughBC rfl ∅).2 (by decide)

end LayerMaps

end TFA
