/-
  The order of the initialization (`doInitialization` in `CallGraph.cc`).

  The maps are filled global by global and function by function, in the order in which the
  modules are given.  What an operation adds depends on the maps in two places only: the
  hash of a layer on the names of the literal structs, which the initialization leaves as
  they are, and `updateStructInfo` on the unions that have been met before.  A union is
  recognized by its name as well, and a function is recorded for it in the same way, as
  long as the function has a name itself.

  * `Fact`: what the maps record.  Of `hashTypeMap` and `hashIDTypeMap` only the keys are
    facts: their entries are overwritten, but any two entries of a key have the same hash;
  * `additive_visit`: a global or a function adds the same facts in every state;
  * `doInitialization_anyOrder`: what the maps hold does not depend on the order of the
    modules, nor on that of the globals and the functions in them.
-/
import TFA.CallGraph.Keyed
import TFA.Lib.Accumulate

namespace TFA

open Worklist Accumulate

/-- What the maps record. -/
inductive Fact
  | func (k : Key) (F : Func)
  | transit (k v : Key)
  | confine (k v : Key)
  | type (k : Key)
  | layer (k : Key)
  | escape (k : Key)
  | store (k : Key) (SI : Value)
  | emptyTy (k : Key) (F : Func)
  | sig (k : Key) (F : Func)
  | union (k : Key)

namespace LayerMaps

/-- The map that a fact is about has it. -/
def Holds (m : LayerMaps) : Fact → Prop
  | .func k F => F ∈ m.typeFuncsMap k
  | .transit k v => (k, v) ∈ m.typeTransitMap
  | .confine k v => (k, v) ∈ m.typeConfineMap
  | .type k => (m.hashTypeMap k).isSome
  | .layer k => (m.hashIDTypeMap k).isSome
  | .escape k => k ∈ m.typeEscapeSet
  | .store k SI => SI ∈ m.escapedStoreMap k
  | .emptyTy k F => F ∈ m.Global_EmptyTy_Funcs k
  | .sig k F => F ∈ m.sigFuncsMap k
  | .union k => k ∈ m.Globa_Union_Set

/-- All records. -/
def records (m : LayerMaps) : Set Fact := {x | m.Holds x}

/-- What the analyses see of a type that a map gives back. -/
def seenType (T : TypeTable) (m : LayerMaps) (t : Ty) : Bool × String :=
  (T.isStructTy t, m.layerName T t)

/-- What they see of a layer. -/
def seenLayer (T : TypeTable) (m : LayerMaps) (CT : CompositeType) : (Bool × String) × ℤ :=
  (m.seenType T CT.1, CT.2)

/-- The maps hold the same.  The casts and the confinements may stand in another order, and
    a hash may give back a type of another module that prints the same. -/
structure SameRecords (T : TypeTable) (m m' : LayerMaps) : Prop where
  names : m.Global_Literal_Struct_Map = m'.Global_Literal_Struct_Map
  funcs : m.typeFuncsMap = m'.typeFuncsMap
  transit : ∀ k v, (k, v) ∈ m.typeTransitMap ↔ (k, v) ∈ m'.typeTransitMap
  confine : ∀ k v, (k, v) ∈ m.typeConfineMap ↔ (k, v) ∈ m'.typeConfineMap
  types : ∀ k, (m.hashTypeMap k).map (m.seenType T) = (m'.hashTypeMap k).map (m'.seenType T)
  layers : ∀ k,
    (m.hashIDTypeMap k).map (m.seenLayer T) = (m'.hashIDTypeMap k).map (m'.seenLayer T)
  escaped : m.typeEscapeSet = m'.typeEscapeSet
  stores : m.escapedStoreMap = m'.escapedStoreMap
  emptyTy : m.Global_EmptyTy_Funcs = m'.Global_EmptyTy_Funcs
  sig : m.sigFuncsMap = m'.sigFuncsMap
  unions : m.Globa_Union_Set = m'.Globa_Union_Set

/-- The key is that of a union, as its name tells. -/
def UnionKey (T : TypeTable) (k : Key) : Prop :=
  ∃ t, k = T.typeHash t ∧ T.isStructTy t = true ∧ T.isLiteral t = false ∧
    containsSub (T.getStructName t) "union." = true

/-- The maps that the type builder leaves. -/
def builtTypes (names : Key → Option String) (unions : Finset Key) : LayerMaps :=
  { Global_Literal_Struct_Map := names, Globa_Union_Set := unions }

/-- The names of the literal structs and some unions are given, and only unions are added. -/
structure Named (T : TypeTable) (m₀ m : LayerMaps) : Prop where
  names : m.Global_Literal_Struct_Map = m₀.Global_Literal_Struct_Map
  given : m₀.Globa_Union_Set ⊆ m.Globa_Union_Set
  unions : ∀ k ∈ m.Globa_Union_Set, k ∈ m₀.Globa_Union_Set ∨ UnionKey T k

section
variable {T : TypeTable} {m₀ m : LayerMaps} {t : Ty}

theorem Named.layerHash (h : Named T m₀ m) : m.layerHash T = m₀.layerHash T :=
  layerHash_congr h.names

/-- A type with the key of a union is a union. -/
theorem UnionKey.spec (h : UnionKey T (T.typeHash t)) :
    T.isStructTy t = true ∧ T.isLiteral t = false ∧
      containsSub (T.getStructName t) "union." = true := by
  obtain ⟨t', hk, hstruct, hlit, hname⟩ := h
  obtain ⟨hS, hL, hN⟩ := T.same_print t t' (Key.type.inj hk)
  exact ⟨hS.trans hstruct, hL.trans hlit, hN ▸ hname⟩

/-! ## What the maps give back -/

/-- Types that print the same look the same. -/
theorem seenType_congr {m m' : LayerMaps} {t t' : Ty}
    (hnames : m.Global_Literal_Struct_Map = m'.Global_Literal_Struct_Map)
    (h : T.typeHash t = T.typeHash t') : m.seenType T t = m'.seenType T t' := by
  obtain ⟨hstruct, hlit, hname⟩ := T.same_print t t' (Key.type.inj h)
  simp only [seenType, layerName, hnames, h, hstruct, hlit, hname]

/-- Layers that fit one hash look the same. -/
theorem seenLayer_congr {m m' : LayerMaps} {k : Key} {CT CT' : CompositeType}
    (hnames : m.Global_Literal_Struct_Map = m'.Global_Literal_Struct_Map) (h : Fits T m k CT)
    (h' : Fits T m' k CT') : m.seenLayer T CT = m'.seenLayer T CT' := by
  rcases h with rfl | ⟨hstruct, rfl⟩
  · rcases h' with hidx | ⟨-, hlayer⟩
    · obtain ⟨htype, hi⟩ := Key.idx.inj hidx
      rw [seenLayer, seenLayer, seenType_congr hnames htype, hi]
    · -- a printed type is no name
      cases (Key.idx.inj hlayer).1
  · rcases h' with hidx | ⟨hstruct', hlayer⟩
    · cases (Key.idx.inj hidx).1
    · obtain ⟨hname, hi⟩ := Key.idx.inj hlayer
      simp only [seenLayer, seenType, hstruct, hstruct', Key.name.inj hname, hi]

theorem map_congr_of_isSome {α β γ : Type*} {f : α → γ} {g : β → γ} {x : Option α} {y : Option β}
    (h : x.isSome = true ↔ y.isSome = true) (hfg : ∀ a ∈ x, ∀ b ∈ y, f a = g b) :
    x.map f = y.map g := by
  cases x with
  | none =>
    cases y with
    | none => rfl
    | some b => cases h.2 rfl
  | some a =>
    cases y with
    | none => cases h.1 rfl
    | some b => exact congrArg some (hfg a rfl b rfl)

/-- Well-keyed maps with the same facts hold the same. -/
theorem sameRecords_of_records {m m' : LayerMaps}
    (hnames : m.Global_Literal_Struct_Map = m'.Global_Literal_Struct_Map) (h : WellKeyed T m)
    (h' : WellKeyed T m') (hrecords : m.records = m'.records) : SameRecords T m m' := by
  have hholds : ∀ x, m.Holds x ↔ m'.Holds x := fun x => Set.ext_iff.1 hrecords x
  exact
    { names := hnames
      funcs := funext fun k => Finset.ext fun F => hholds (.func k F)
      transit := fun k v => hholds (.transit k v)
      confine := fun k v => hholds (.confine k v)
      types := fun k => map_congr_of_isSome (hholds (.type k)) fun t ht t' ht' =>
        seenType_congr hnames ((h.type k t ht).symm.trans (h'.type k t' ht'))
      layers := fun k => map_congr_of_isSome (hholds (.layer k)) fun CT hCT CT' hCT' =>
        seenLayer_congr hnames (h.layer k CT hCT) (h'.layer k CT' hCT')
      escaped := Finset.ext fun k => hholds (.escape k)
      stores := funext fun k => Finset.ext fun SI => hholds (.store k SI)
      emptyTy := funext fun k => Finset.ext fun F => hholds (.emptyTy k F)
      sig := funext fun k => Finset.ext fun F => hholds (.sig k F)
      unions := Finset.ext fun k => hholds (.union k) }

/-! ## Operations on the maps -/

theorem mem_update_insert {map : Key → Finset Func} {k k' : Key} {F F' : Func} :
    F' ∈ Function.update map k (insert F (map k)) k' ↔ F' ∈ map k' ∨ k' = k ∧ F' = F := by
  rw [Function.update_apply]
  split
  case isTrue h => simp [h, or_comm]
  case isFalse h => simp [h]

theorem isSome_update_iff {α : Type*} {map : Key → Option α} {k k' : Key} {x : α} :
    (Function.update map k (some x) k').isSome = true ↔ (map k').isSome = true ∨ k' = k := by
  rw [Function.update_apply]
  split
  case isTrue h => simp [h]
  case isFalse h => simp [h]

/-- What adds facts and leaves the names and the unions as they are. -/
theorem additive_of_records {f : LayerMaps → LayerMaps} {Δ : Set Fact}
    (hnames : ∀ m, (f m).Global_Literal_Struct_Map = m.Global_Literal_Struct_Map)
    (hunions : ∀ m, (f m).Globa_Union_Set = m.Globa_Union_Set)
    (hfacts : ∀ m, Named T m₀ m → ∀ x, (f m).Holds x ↔ m.Holds x ∨ x ∈ Δ) :
    Additive (Named T m₀) records f := by
  refine ⟨Δ, fun m h => ⟨(hnames m).trans h.names, hunions m ▸ h.given, hunions m ▸ h.unions⟩,
    fun m h => ?_⟩
  ext x
  exact hfacts m h x

theorem additive_recordTypes (CT : CompositeType) :
    Additive (Named T m₀) records fun m => m.recordTypes T CT := by
  refine additive_of_records (Δ := {.type (T.typeHash CT.1), .layer (T.typeIdxHash CT.1 CT.2)})
    (fun _ => rfl) (fun _ => rfl) fun m _ x => ?_
  cases x <;> simp [Holds, recordTypes, isSome_update_iff]

theorem additive_recordSig (hashes : Finset Key) (F : Func) :
    Additive (Named T m₀) records fun m => m.recordSig hashes F := by
  refine additive_of_records (Δ := {x | ∃ k ∈ hashes, x = .sig k F})
    (fun _ => rfl) (fun _ => rfl) fun m _ x => ?_
  cases x with
  | sig k F' =>
    by_cases hk : k ∈ hashes
    · simp [Holds, recordSig, hk, or_comm]
    · simp [Holds, recordSig, hk]
  | _ => simp [Holds, recordSig]

theorem additive_recordEmptyTy (k : Key) (F : Func) :
    Additive (Named T m₀) records fun m => m.recordEmptyTy k F := by
  refine additive_of_records (Δ := {.emptyTy k F}) (fun _ => rfl) (fun _ => rfl) fun m _ x => ?_
  cases x <;> simp [Holds, recordEmptyTy, mem_update_insert]

theorem additive_recordLayer (F : Func) (CT : CompositeType) :
    Additive (Named T m₀) records fun m => m.recordLayer T F CT := by
  let h := m₀.layerHash T CT
  refine additive_of_records (Δ := {.func h F, .layer h}) (fun _ => rfl) (fun _ => rfl)
    fun m hm x => ?_
  have hhash : m.layerHash T CT = h := by rw [hm.layerHash]
  cases x <;> simp [Holds, recordLayer, hhash, mem_update_insert, isSome_update_iff]

/-- A function under the printed type of a layer. -/
theorem additive_typeFuncsMap (k : Key) (F : Func) :
    Additive (Named T m₀) records fun m => { m with
      typeFuncsMap := Function.update m.typeFuncsMap k (insert F (m.typeFuncsMap k)) } := by
  refine additive_of_records (Δ := {.func k F}) (fun _ => rfl) (fun _ => rfl) fun m _ x => ?_
  cases x <;> simp [Holds, mem_update_insert]

theorem additive_sigFuncsMap (k : Key) (S : Finset Func) :
    Additive (Named T m₀) records fun m =>
      { m with sigFuncsMap := Function.update m.sigFuncsMap k (m.sigFuncsMap k ∪ S) } := by
  refine additive_of_records (Δ := {x | ∃ F ∈ S, x = .sig k F}) (fun _ => rfl) (fun _ => rfl)
    fun m _ x => ?_
  cases x with
  | sig k' F =>
    by_cases hk : k' = k
    · simp [Holds, hk]
    · simp [Holds, hk]
  | _ => simp [Holds]

theorem additive_transitType (ToTy FromTy : Ty) (i j : ℤ) :
    Additive (Named T m₀) records fun m => m.transitType T ToTy FromTy i j := by
  unfold transitType
  by_cases hidx : i ≠ -1 ∧ j ≠ -1
  · simp only [if_pos hidx]
    refine additive_of_records (Δ := {.transit (T.typeIdxHash ToTy i) (T.typeIdxHash FromTy j),
      .layer (T.typeIdxHash ToTy i), .layer (T.typeIdxHash FromTy j), .type (T.typeHash ToTy),
      .type (T.typeHash FromTy)}) (fun _ => rfl) (fun _ => rfl) fun m _ x => ?_
    cases x <;> simp [Holds, isSome_update_iff, or_assoc]
  · simp only [if_neg hidx]
    refine additive_of_records (Δ := {.transit (T.typeHash ToTy) (T.typeHash FromTy),
      .type (T.typeHash ToTy), .type (T.typeHash FromTy)}) (fun _ => rfl) (fun _ => rfl)
      fun m _ x => ?_
    cases x <;> simp [Holds, isSome_update_iff, or_assoc]

theorem additive_transitStructs (types : Ty × Ty) :
    Additive (Named T m₀) records fun m => m.transitStructs T types := by
  unfold transitStructs
  split_ifs
  · exact additive_transitType _ _ _ _
  · exact additive_id

theorem additive_confine (From To : CompositeType) :
    Additive (Named T m₀) records fun m => confine T From m To := by
  let h := m₀.layerHash T
  unfold confine
  split_ifs
  · exact additive_id
  · refine additive_of_records (Δ := {.confine (h To) (h From), .layer (h To), .layer (h From)})
      (fun _ => rfl) (fun _ => rfl) fun m hm x => ?_
    have hhash : m.layerHash T = h := hm.layerHash
    cases x <;> simp [Holds, hhash, isSome_update_iff, or_assoc]

theorem additive_escapeType (SI : Value) (t : Ty) (i : ℤ) :
    Additive (Named T m₀) records fun m => m.escapeType T SI t i := by
  let h := m₀.layerHash T (t, i)
  unfold escapeType
  split_ifs
  · refine additive_of_records (Δ := {.escape h, .layer h, .store h SI}) (fun _ => rfl)
      (fun _ => rfl) fun m hm x => ?_
    have hhash : m.layerHash T (t, i) = h := by rw [hm.layerHash]
    cases x <;> simp [Holds, hhash, mem_update_insert, isSome_update_iff, or_comm]
  · exact additive_id

/-- A union is noted. -/
theorem additive_union (hstruct : T.isStructTy t = true) (hlit : T.isLiteral t = false)
    (hname : containsSub (T.getStructName t) "union." = true) :
    Additive (Named T m₀) records fun m =>
      { m with Globa_Union_Set := insert (T.typeHash t) m.Globa_Union_Set } := by
  refine ⟨{.union (T.typeHash t)}, fun m hm => ⟨hm.names, ?_, fun k hk => ?_⟩, fun m _ => ?_⟩
  · exact hm.given.trans (Finset.subset_insert _ _)
  · rcases Finset.mem_insert.1 hk with rfl | hk
    · exact Or.inr ⟨t, rfl, hstruct, hlit, hname⟩
    · exact hm.unions k hk
  · ext x
    cases x <;> simp [records, Holds, or_comm]

end

end LayerMaps

namespace TypedProgram

open LayerMaps

section
variable {P : TypedProgram} {m₀ m : LayerMaps}

variable (P) in
/-- The functions that get recorded have names. -/
def FuncsNamed : Prop :=
  (∀ F, P.kind F = .function → P.getName F ≠ "") ∧
    ∀ k F, P.Ctx.Global_Unique_Func_Map k = some F → P.getName F ≠ ""

/-- **The one place where the order could matter.**  Whether a union is known by its key or
    recognized by its name, a function with a name is recorded in the same way. -/
theorem additive_updateStructInfo (F : Func) (CT : CompositeType) (hF : P.getName F ≠ "") :
    Additive (Named P.T m₀) records (P.updateStructInfo F CT) := by
  have hesc : Additive (Named P.T m₀) records fun m => m.recordEmptyTy (P.funcHash F) F :=
    additive_recordEmptyTy _ F
  have hlayer : Additive (Named P.T m₀) records fun m => m.recordLayer P.T F CT :=
    additive_recordLayer F CT
  by_cases hgiven : P.T.typeHash CT.1 ∈ m₀.Globa_Union_Set
  · refine hesc.congr fun m hm => ?_
    simp [updateStructInfo, hm.given hgiven]
  by_cases hunion : P.T.isStructTy CT.1 = true ∧ P.T.isLiteral CT.1 = false ∧
      containsSub (P.T.getStructName CT.1) "union." = true
  · -- known or not, the function is recorded under its own type
    obtain ⟨hstruct, hlit, hname⟩ := hunion
    refine (hesc.comp (additive_union hstruct hlit hname)).congr fun m hm => ?_
    by_cases hmem : P.T.typeHash CT.1 ∈ m.Globa_Union_Set
    · simp [updateStructInfo, hmem, recordEmptyTy]
    · simp [updateStructInfo, hmem, hstruct, hlit, hname, hF, recordEmptyTy]
  · have hnew : ∀ m, Named P.T m₀ m → P.T.typeHash CT.1 ∉ m.Globa_Union_Set :=
      fun m hm hmem => hunion ((hm.unions _ hmem).resolve_left hgiven).spec
    by_cases hstruct : P.T.isStructTy CT.1 = true
    · by_cases hlit : P.T.isLiteral CT.1 = true
      · cases hname : m₀.Global_Literal_Struct_Map (P.T.typeHash CT.1) with
        | none =>
          refine hesc.congr fun m hm => ?_
          simp [updateStructInfo, hnew m hm, hstruct, hlit, hm.names, hname, hF]
        | some TyName =>
          by_cases hsub : containsSub TyName "union." = true ∨ containsSub TyName ".anon" = true
          · refine hesc.congr fun m hm => ?_
            simp [updateStructInfo, hnew m hm, hstruct, hlit, hm.names, hname, hF, hsub]
          · refine hlayer.congr fun m hm => ?_
            simp [updateStructInfo, hnew m hm, hstruct, hlit, hm.names, hname, hsub]
      · have hno : containsSub (P.T.getStructName CT.1) "union." = false := by
          simpa [hstruct, hlit] using hunion
        by_cases hanon : containsSub (P.T.getStructName CT.1) ".anon" = true
        · refine hesc.congr fun m hm => ?_
          simp [updateStructInfo, hnew m hm, hstruct, hlit, hno, hanon, hF]
        · refine hlayer.congr fun m hm => ?_
          simp [updateStructInfo, hnew m hm, hstruct, hlit, hno, hanon]
    · refine hesc.congr fun m hm => ?_
      simp [updateStructInfo, hnew m hm, hstruct]

theorem additive_recordFunc (CT : CompositeType) (F : Func) (hF : P.getName F ≠ "") :
    Additive (Named P.T m₀) records fun m => P.recordFunc CT m F :=
  ((additive_typeFuncsMap _ F).comp (additive_recordSig _ F)).comp
    (additive_updateStructInfo F CT hF)

theorem additive_recordUnknown (F : Func) :
    Additive (Named P.T m₀) records fun m => P.recordUnknown m F :=
  (additive_recordSig _ F).comp (additive_recordEmptyTy _ F)

/-! ## Stores, initializers and casts -/

theorem kind_of_bitcastFunction {fuel : ℕ} {V F : Value} (h : P.bitcastFunction fuel V = some F) :
    P.kind F = .function := by
  induction fuel generalizing V with
  | zero => cases h
  | succ fuel ih =>
    unfold bitcastFunction at h
    split at h
    · split at h
      · split at h
        case isTrue hO =>
          cases h
          exact hO.1
        · exact ih h
      · cases h
    · cases h

theorem kind_of_getBaseFunction {V F : Value} (h : P.getBaseFunction V = some F) :
    P.kind F = .function := by
  unfold getBaseFunction at h
  split at h
  case isTrue hV =>
    cases h
    exact hV.1
  · exact kind_of_bitcastFunction h

theorem kind_of_initializerFunc {O F : Value} (h : P.initializerFunc O = some F) :
    P.kind F = .function := by
  unfold initializerFunc at h
  split_ifs at h with hO
  · cases h
    exact hO
  · simpa using (Option.filter_eq_some_iff.1 h).2

/-- What a function stands for has a name. -/
theorem FuncsNamed.definitions (hP : P.FuncsNamed) {F G : Func} (hF : P.kind F = .function)
    (hG : G ∈ P.definitions F) : P.getName G ≠ "" := by
  unfold TypedProgram.definitions at hG
  split at hG
  · rw [getGlobalFuncs, Finset.mem_eraseNone] at hG
    split at hG
    · exact hP.2 _ G (Finset.mem_singleton.1 hG).symm
    · obtain ⟨k, -, hk⟩ := Finset.mem_image.1 hG
      exact hP.2 k G hk
  · rw [Finset.mem_singleton.1 hG]
    exact hP.1 F hF

theorem additive_confineFunction (hP : P.FuncsNamed) (PO : Value) (i : ℤ) {F : Func}
    (hF : P.kind F = .function) :
    Additive (Named P.T m₀) records fun m => P.confineFunction PO i m F := by
  have hFSet : ∀ G ∈ inOrder (P.definitions F), P.getName G ≠ "" :=
    fun G hG => hP.definitions hF (mem_inOrder.1 hG)
  by_cases hnext : (P.nextLayerBaseType_new m₀.Global_Literal_Struct_Map PO .Precise_Mode).1 = true
  · have hlayers : Additive (Named P.T m₀) records fun m =>
        (P.nextLayerBaseType_new m₀.Global_Literal_Struct_Map PO .Precise_Mode).2.foldl (fun m CT =>
          (inOrder (P.definitions F)).foldl (P.recordFunc (CT.1, CT.2 + i))
            (m.recordTypes P.T (CT.1, CT.2 + i))) m :=
      additive_foldl fun CT _ => (additive_recordTypes _).comp
        (additive_foldl fun G hG => additive_recordFunc _ G (hFSet G hG))
    refine hlayers.congr fun m hm => ?_
    simp only [confineFunction, hm.names, hnext, if_true]
  · have hunknown : Additive (Named P.T m₀) records fun m =>
        (inOrder (P.definitions F)).foldl P.recordUnknown m :=
      additive_foldl fun G _ => additive_recordUnknown G
    refine hunknown.congr fun m hm => ?_
    simp only [confineFunction, hm.names, hnext, Bool.false_eq_true, if_false]

theorem additive_confineVector (hP : P.FuncsNamed) (VO PO : Value) (VO_BTy : Ty) :
    Additive (Named P.T m₀) records fun m => P.confineVector VO PO VO_BTy m := by
  unfold confineVector
  split_ifs
  · refine additive_foldl fun e _ => ?_
    split
    case h_1 F hF => exact additive_confineFunction hP PO e.2 (kind_of_getBaseFunction hF)
    · exact additive_id
  · exact additive_id

theorem additive_escapeLayers (SI PO : Value) :
    Additive (Named P.T m₀) records fun m => P.escapeLayers SI PO m := by
  have hfold : Additive (Named P.T m₀) records fun m =>
      (P.nextLayerBaseType_new m₀.Global_Literal_Struct_Map PO .Recall_Mode).2.foldl
        (fun m CT => m.escapeType P.T SI CT.1 CT.2) m :=
    additive_foldl fun CT _ => additive_escapeType SI CT.1 CT.2
  refine hfold.congr fun m hm => ?_
  simp only [escapeLayers, hm.names]

theorem additive_propagateType (PO : Value) (From : CompositeType) :
    Additive (Named P.T m₀) records fun m => P.propagateType PO m From := by
  have hfold : Additive (Named P.T m₀) records fun m =>
      m.propagateType P.T
        (P.nextLayerBaseType_new m₀.Global_Literal_Struct_Map PO .Recall_Mode).2 From.1 From.2 :=
    additive_foldl fun To _ => additive_confine From To
  refine hfold.congr fun m hm => ?_
  simp only [propagateType, hm.names]

theorem additive_typeConfineInStore_new (hP : P.FuncsNamed) (SI : Value) :
    Additive (Named P.T m₀) records fun m => P.typeConfineInStore_new m SI := by
  unfold typeConfineInStore_new
  split
  case h_1 VO PO _ =>
    have hprop : Additive (Named P.T m₀) records fun m =>
        (P.nextLayerBaseType_new m₀.Global_Literal_Struct_Map VO .Recall_Mode).2.foldl
          (P.propagateType PO) m :=
      additive_foldl fun From _ => additive_propagateType PO From
    by_cases hdata : P.kind VO = .constantData
    · simp only [if_pos hdata]
      exact additive_id
    simp only [if_neg hdata]
    by_cases hnext : (P.nextLayerBaseType_new m₀.Global_Literal_Struct_Map VO .Recall_Mode).1 = true
    · refine hprop.congr fun m hm => ?_
      simp only [hm.names, hnext, if_true]
    by_cases hsome : (P.nextLayerBaseType_new m₀.Global_Literal_Struct_Map VO .Recall_Mode).2 ≠ []
    · -- some layers of the value are known, but not all
      refine (hprop.comp (additive_escapeLayers SI PO)).congr fun m hm => ?_
      simp only [hm.names, hnext, Bool.false_eq_true, if_false]
      exact if_pos hsome
    rw [not_not] at hsome
    cases hBTy : P.getBaseType VO with
    | some VO_BTy =>
      refine (additive_confineVector hP VO PO VO_BTy).congr fun m hm => ?_
      simp [hm.names, hnext, hsome]
    | none =>
      cases hF : P.getBaseFunction (P.stripPointerCasts VO) with
      | some F =>
        have hfunc : Additive (Named P.T m₀) records fun m => P.confineFunction PO 0 m F :=
          additive_confineFunction hP PO 0 (kind_of_getBaseFunction hF)
        refine hfunc.congr fun m hm => ?_
        simp [hm.names, hnext, hsome]
      | none =>
        by_cases hptr : P.T.isPointerTy (P.getType VO) = true
        · refine (additive_escapeLayers SI PO).congr fun m hm => ?_
          simp [hm.names, hnext, hsome, hptr]
        · refine additive_id.congr fun m hm => ?_
          simp [hm.names, hnext, hsome, hptr]
  · exact additive_id

theorem additive_confineOperands (hP : P.FuncsNamed) (U : Value) :
    Additive (Named P.T m₀) records fun m => P.confineOperands m U := by
  refine additive_foldl fun e _ => ?_
  split
  case h_1 F hF =>
    refine additive_foldl fun G hG => ?_
    have hnamed : P.getName G ≠ "" :=
      hP.definitions (kind_of_initializerFunc hF) (mem_inOrder.1 hG)
    exact (additive_recordTypes _).comp (additive_recordFunc _ G hnamed)
  · exact additive_id

theorem additive_typeConfineInInitializer (hP : P.FuncsNamed) (GV : Value) :
    Additive (Named P.T m₀) records fun m => P.typeConfineInInitializer m GV := by
  unfold typeConfineInInitializer
  split
  · split_ifs
    · exact additive_id
    · exact additive_id
    · exact additive_foldl fun U _ => additive_confineOperands hP U
  · exact additive_id

theorem additive_typeConfineInCast (FromTy ToTy : Ty) :
    Additive (Named P.T m₀) records fun m => P.typeConfineInCast FromTy ToTy m := by
  unfold typeConfineInCast
  split_ifs
  · exact additive_transitType _ _ _ _
  · exact additive_id

theorem additive_handleIndirectCast (FromTy ToTy : Ty) (FromV ToV : Value) :
    Additive (Named P.T m₀) records fun m =>
      P.handleIndirectCast FromTy ToTy FromV ToV m := by
  unfold handleIndirectCast
  split_ifs
  · split
    · dsimp only
      split_ifs
      · exact (additive_transitStructs _).comp
          (additive_foldl fun types _ => additive_transitStructs types)
      · exact additive_transitStructs _
    · exact additive_id
  · exact additive_id

/-! ## The initialization -/

theorem additive_visitInst (hP : P.FuncsNamed) (I : Value) :
    Additive (Named P.T m₀) records fun m => P.visitInst m I := by
  unfold visitInst
  split
  · exact additive_typeConfineInStore_new hP I
  · split_ifs
    · split
      · exact (additive_typeConfineInCast _ _).comp (additive_handleIndirectCast _ _ _ _)
      · exact additive_id
    · exact additive_id
  · exact additive_id

theorem additive_visitCast (Cast : Value) :
    Additive (Named P.T m₀) records fun m => P.visitCast m Cast := by
  unfold visitCast
  split
  · exact (additive_handleIndirectCast _ _ _ _).comp (additive_typeConfineInCast _ _)
  · exact additive_id

theorem additive_visitFunction (hP : P.FuncsNamed) (F : Func) :
    Additive (Named P.T m₀) records fun m => P.visitFunction m F := by
  have hinsts : Additive (Named P.T m₀) records fun m =>
      (inOrder (P.castSet F)).foldl P.visitCast ((P.insts F).foldl P.visitInst m) :=
    (additive_foldl fun I _ => additive_visitInst hP I).comp
      (additive_foldl fun Cast _ => additive_visitCast Cast)
  unfold visitFunction
  split_ifs
  · exact additive_sigFuncsMap _ _
  · exact additive_id
  · exact hinsts.comp (additive_recordSig _ F)
  · exact hinsts

theorem additive_visitGlobal (hP : P.FuncsNamed) (GV : Value) :
    Additive (Named P.T m₀) records fun m => P.visitGlobal m GV := by
  unfold visitGlobal
  split_ifs
  · exact additive_id
  · exact additive_typeConfineInInitializer hP GV

variable (P) in
/-- A global variable or a function. -/
def visit (m : LayerMaps) : Value ⊕ Value → LayerMaps
  | .inl GV => P.visitGlobal m GV
  | .inr F => P.visitFunction m F

theorem additive_visit (hP : P.FuncsNamed) (V : Value ⊕ Value) :
    Additive (Named P.T m₀) records fun m => P.visit m V := by
  cases V with
  | inl GV => exact additive_visitGlobal hP GV
  | inr F => exact additive_visitFunction hP F

/-- What a module is visited for. -/
def visits (M : LLVMModule) : List (Value ⊕ Value) := M.globals.map .inl ++ M.functions.map .inr

theorem foldl_doInitialization (Ms : List LLVMModule) (m : LayerMaps) :
    Ms.foldl P.doInitialization m = (Ms.flatMap visits).foldl P.visit m := by
  have hmodule : P.doInitialization = fun m M => (visits M).foldl P.visit m := by
    funext m M
    rw [visits, List.foldl_append, List.foldl_map, List.foldl_map]
    rfl
  rw [hmodule, List.foldl_flatMap]

theorem mem_visits {Ms Ms' : List LLVMModule}
    (hglobals : ∀ GV, GV ∈ Ms.flatMap LLVMModule.globals ↔ GV ∈ Ms'.flatMap LLVMModule.globals)
    (hfunctions : ∀ F, F ∈ Ms.flatMap LLVMModule.functions ↔
      F ∈ Ms'.flatMap LLVMModule.functions) (V : Value ⊕ Value) :
    V ∈ Ms.flatMap visits ↔ V ∈ Ms'.flatMap visits := by
  cases V with
  | inl GV => simpa [visits] using hglobals GV
  | inr F => simpa [visits] using hfunctions F

theorem escapesKeyed_visits (h : EscapesKeyed P.T m₀) (l : List (Value ⊕ Value)) :
    EscapesKeyed P.T (l.foldl P.visit m₀) := by
  refine h.foldl fun V _ m hm => ?_
  cases V with
  | inl GV => exact escapesKeyed_visitGlobal hm GV
  | inr F => exact escapesKeyed_visitFunction hm F

theorem grows_visits (l : List (Value ⊕ Value)) (m : LayerMaps) : Grows m (l.foldl P.visit m) := by
  refine grows_foldl (fun m V => ?_) l m
  cases V with
  | inl GV => exact grows_visitGlobal m GV
  | inr F => exact grows_visitFunction m F

/-- Visits of the same globals and functions, in two orders. -/
theorem sameRecords_visits (hP : P.FuncsNamed) (h : EscapesKeyed P.T m₀)
    {l l' : List (Value ⊕ Value)} (hl : ∀ V, V ∈ l ↔ V ∈ l') :
    SameRecords P.T (l.foldl P.visit m₀) (l'.foldl P.visit m₀) := by
  have hrecords : (l.foldl P.visit m₀).records = (l'.foldl P.visit m₀).records :=
    facts_foldl_congr (I := Named P.T m₀) (fun V _ => additive_visit hP V) hl
      ⟨rfl, subset_rfl, fun _ => Or.inl⟩
  exact sameRecords_of_records ((grows_visits l m₀).names.trans (grows_visits l' m₀).names.symm)
    (escapesKeyed_visits h l).toWellKeyed (escapesKeyed_visits h l').toWellKeyed hrecords

theorem escapesKeyed_builtTypes (names : Key → Option String) (unions : Finset Key) :
    EscapesKeyed P.T (builtTypes names unions) :=
  (escapesKeyed_empty names).congr rfl rfl rfl rfl

/-- **The initialization does not depend on the order**: whatever modules the globals and the
    functions are in, and however these are ordered, the maps hold the same in the end. -/
theorem doInitialization_anyOrder (hP : P.FuncsNamed) (names : Key → Option String)
    (unions : Finset Key) {Ms Ms' : List LLVMModule}
    (hglobals : ∀ GV, GV ∈ Ms.flatMap LLVMModule.globals ↔ GV ∈ Ms'.flatMap LLVMModule.globals)
    (hfunctions : ∀ F, F ∈ Ms.flatMap LLVMModule.functions ↔
      F ∈ Ms'.flatMap LLVMModule.functions) :
    SameRecords P.T (Ms.foldl P.doInitialization (builtTypes names unions))
      (Ms'.foldl P.doInitialization (builtTypes names unions)) := by
  rw [foldl_doInitialization, foldl_doInitialization]
  exact sameRecords_visits hP (escapesKeyed_builtTypes names unions)
    (mem_visits hglobals hfunctions)

end

/-! ## Two stores to a union -/

/-- Pointers, a union and integers. -/
def typesOfUnion : TypeTable where
  print t := match t with | 0 => "ptr" | 1 => "%union.U" | _ => "i32"
  isStructTy t := t = 1
  isArrayTy _ := false
  isLiteral _ := false
  getStructName t := if t = 1 then "union.U" else ""
  isPointerTy t := t = 0
  same_print t t' h := by
    rcases t with _ | _ | t <;> rcases t' with _ | _ | t' <;> simp_all

/-- The functions `2` and `3` store the functions `0` and `1` to a union, and `2` calls what it
    loads from there. -/
def storesToUnion (name : String) : TypedProgram where
  toProgram :=
    { Program.ofTable
        [(.function, []), (.function, []), (.function, []), (.function, []), (.constantData, []),
          (.instruction .alloca, [4]), (.instruction .getElementPtr, [5, 4, 4]),
          (.instruction .store, [0, 6]), (.instruction .alloca, [4]),
          (.instruction .getElementPtr, [8, 4, 4]), (.instruction .store, [1, 9]),
          (.instruction .load, [6]), (.instruction .call, [11]), (.instruction .ret, [])]
        (by decide) with
      getName := fun v => if v = 0 then name else "g"
      getSExtValue := fun v => if v = 4 then some 0 else none
      insts := fun F =>
        if F = 2 then [5, 6, 7, 11, 12, 13] else if F = 3 then [8, 9, 10, 13] else [13]
      isDeclaration := fun _ => false
      hasAddressTaken := fun F => F ≤ 1 }
  T := typesOfUnion
  getType v := if v = 4 then 2 else 0
  getSourceElementType _ := 1

abbrev unionModules : List LLVMModule :=
  [{ globals := [], functions := [0, 1] }, { globals := [], functions := [2] },
    { globals := [], functions := [3] }]

theorem mem_functions_unionModules (F : Func) :
    F ∈ unionModules.flatMap LLVMModule.functions ↔
      F ∈ unionModules.reverse.flatMap LLVMModule.functions := by
  simp [or_assoc, or_comm]

theorem funcsNamed_storesToUnion : (storesToUnion "f").FuncsNamed := by
  refine ⟨fun F _ => ?_, fun k F hk => by cases hk⟩
  show (if F = 0 then "f" else "g") ≠ ""
  split <;> decide

theorem doInitialization_anyOrder_storesToUnion :
    SameRecords typesOfUnion (unionModules.foldl (storesToUnion "f").doInitialization {})
      (unionModules.reverse.foldl (storesToUnion "f").doInitialization {}) :=
  doInitialization_anyOrder funcsNamed_storesToUnion (fun _ => none) ∅ (by simp)
    mem_functions_unionModules

/-- A function without a name is recorded only if the union has been met before. -/
theorem order_of_unnamed :
    ¬ SameRecords typesOfUnion (unionModules.foldl (storesToUnion "").doInitialization {})
      (unionModules.reverse.foldl (storesToUnion "").doInitialization {}) := by
  intro h
  have hfirst : 0 ∉ (unionModules.foldl (storesToUnion "").doInitialization
      {}).Global_EmptyTy_Funcs (typesOfUnion.typeHash 0) := by decide
  have hlater : 0 ∈ (unionModules.reverse.foldl (storesToUnion "").doInitialization
      {}).Global_EmptyTy_Funcs (typesOfUnion.typeHash 0) := by decide
  rw [h.emptyTy] at hfirst
  exact hfirst hlater

end TypedProgram

end TFA
