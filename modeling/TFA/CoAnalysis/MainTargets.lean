/-
  What the whole analysis keeps of the functions that are put into fields.

  The co-analysis changes the maps of the layers in `escapeHandler` alone, which adds the
  origins that it finds and takes escapes away.

  * `Kept`: everything that the initialization has recorded, but for escapes, is there in
    every state of the main loop (`kept_mainLoop`);
  * `targets_main`: if all literal structs have names, a function that a call may go to
    through its layers stays a target of the call unless an action takes it away, and the
    second type analysis of the call is none of these as long as no field is un-escaped.
-/
import TFA.CallGraph.StoredTargets
import TFA.CoAnalysis.Targets
import TFA.CoAnalysis.Unescape

namespace TFA

open Actions LayerMaps Accumulate TypedProgram

namespace CallProgram

section
variable {P : CallProgram} {m₀ m : LayerMaps} {Ms : List LLVMModule} {g : CallGraph}
  {CT To From : CompositeType} {TV SI CI : Value} {F : Func} {hash : Key}

/-! ## What the checker adds -/

theorem kind_of_base {checker : Checker} (h : P.sourceOf checker g TV = .base F) :
    P.kind F = .function := by
  unfold sourceOf at h
  split at h
  · cases h
  · split at h
    · dsimp only at h
      split at h <;> cases h
    · split at h
      case h_1 F' hF' =>
        cases h
        exact kind_of_getBaseFunction hF'
      case h_2 =>
        rcases P.instSource_cases checker g TV with hinst | ⟨EV, hinst⟩ <;>
        · rw [hinst] at h
          cases h

theorem additive_confineEscaped (To From : CompositeType) :
    Additive (Named P.T m₀) records fun m => P.confineEscaped To m From := by
  let h := m₀.layerHash P.T
  unfold confineEscaped
  refine additive_of_records (Δ := {.confine (h To) (h From), .layer (h To), .layer (h From)})
    (fun _ => rfl) (fun _ => rfl) fun m hm x => ?_
  have hhash : m.layerHash P.T = h := hm.layerHash
  cases x <;> simp [Holds, hhash, isSome_update_iff, or_assoc]

/-- One value that the checker goes through. -/
theorem additive_recordSource (hP : P.FuncsNamed) (g : CallGraph) (CT : CompositeType)
    (TV : Value) : Additive (Named P.T m₀) records fun m => P.recordSource g CT m TV := by
  unfold recordSource
  split
  case h_1 TyList _ => exact additive_foldl fun From _ => additive_confineEscaped CT From
  case h_2 F hF =>
    refine additive_foldl fun G hG => ?_
    have hname : P.getName G ≠ "" := hP.definitions (kind_of_base hF) (mem_inOrder.1 hG)
    exact (additive_recordTypes CT).comp (additive_recordFunc CT G hname)
  case h_3 => exact additive_id

/-- One store. -/
theorem grows_escapeChecker_records (hP : P.FuncsNamed) (hm : Named P.T m₀ g.layers) :
    Named P.T m₀ (P.escapeChecker g SI hash).2 ∧
      g.layers.records ⊆ (P.escapeChecker g SI hash).2.records := by
  unfold escapeChecker
  split
  case h_1 VO CT _ _ =>
    have hall : Additive (Named P.T m₀) records fun m =>
        (P.checkedSources .escape g VO).foldl (P.recordSource g CT) m :=
      additive_foldl fun TV _ => additive_recordSource hP g CT TV
    exact ⟨hall.keeps hm, hall.subset hm⟩
  case h_2 => exact ⟨hm, subset_rfl⟩

/-- All stores to a field. -/
theorem grows_checkStores_records (hP : P.FuncsNamed) {stores : List Value}
    (hm : Named P.T m₀ g.layers) :
    Named P.T m₀ (P.checkStores hash stores g).2.layers ∧
      g.layers.records ⊆ (P.checkStores hash stores g).2.layers.records := by
  induction stores generalizing g with
  | nil => exact ⟨hm, subset_rfl⟩
  | cons SI stores ih =>
    obtain ⟨hnamed, hsub⟩ : Named P.T m₀ (P.escapeChecker g SI hash).2 ∧
        g.layers.records ⊆ (P.escapeChecker g SI hash).2.records :=
      grows_escapeChecker_records hP hm
    unfold checkStores
    dsimp only
    split
    case isTrue =>
      obtain ⟨hnamed', hsub'⟩ := ih (g := { g with layers := (P.escapeChecker g SI hash).2 }) hnamed
      exact ⟨hnamed', hsub.trans hsub'⟩
    case isFalse => exact ⟨hnamed, hsub⟩

/-! ## What stays in the main loop -/

/-- The maps hold what the initialization has recorded, but for escapes. -/
structure Kept (P : CallProgram) (m₀ : LayerMaps) (Ms : List LLVMModule) (m : LayerMaps) :
    Prop extends EscapesKeyed P.T m where
  named : Named P.T m₀ m
  records : ∀ x ∈ (Ms.foldl P.doInitialization m₀).records, (∀ hash, x ≠ .escape hash) →
    x ∈ m.records

/-- With the escapes they hold all of it. -/
theorem Kept.after (h : P.Kept m₀ Ms m)
    (hesc : (Ms.foldl P.doInitialization m₀).typeEscapeSet ⊆ m.typeEscapeSet) :
    P.After m₀ Ms m where
  toEscapesKeyed := h.toEscapesKeyed
  names := h.named.names
  records x hx := by
    by_cases hescape : ∃ hash, x = .escape hash
    · obtain ⟨hash, rfl⟩ := hescape
      exact hesc hx
    · exact h.records x hx fun hash heq => hescape ⟨hash, heq⟩

theorem Kept.afterOneLayer (h : P.Kept m₀ Ms m) (CI : Value) :
    P.Kept m₀ Ms (P.afterOneLayer m CI) := by
  obtain ⟨map, hmap, heq⟩ := P.exists_afterOneLayer m CI
  rw [heq]
  refine ⟨h.toEscapesKeyed.congr rfl rfl rfl rfl,
    ⟨h.named.names, h.named.given, h.named.unions⟩, fun x hx hno => ?_⟩
  have hx' : x ∈ m.records := h.records x hx hno
  cases x with
  | sig k F => exact hmap k hx'
  | _ => exact hx'

/-- A round of the handler. -/
theorem Kept.unescape (hP : P.FuncsNamed) (h : P.Kept m₀ Ms g.layers) (hash : Key) :
    P.Kept m₀ Ms (P.unescape g hash).layers := by
  have hkeyed : EscapesKeyed P.T (P.unescape g hash).layers :=
    escapesKeyed_unescape h.toEscapesKeyed
  let checked := P.checkStores hash (inOrder (g.layers.escapedStoreMap hash)) g
  obtain ⟨hnamed, hsub⟩ : Named P.T m₀ checked.2.layers ∧
      g.layers.records ⊆ checked.2.layers.records :=
    grows_checkStores_records hP h.named
  rcases P.unescape_cases g hash with heq | ⟨m, hm, -, heq | ⟨-, heq⟩⟩
  · rw [heq]
    exact h
  · rw [hm] at hnamed hsub
    rw [heq] at hkeyed ⊢
    exact ⟨hkeyed, hnamed, fun x hx hno => hsub (h.records x hx hno)⟩
  · rw [hm] at hnamed hsub
    rw [heq] at hkeyed ⊢
    refine ⟨hkeyed, ⟨hnamed.names, hnamed.given, hnamed.unions⟩, fun x hx hno => ?_⟩
    -- only an escape is taken away
    have hx' : x ∈ m.records := hsub (h.records x hx hno)
    cases x with
    | escape k => exact absurd rfl (hno k)
    | _ => exact hx'

/-- The pass over the calls. -/
theorem kept_callGraph (hP : P.FuncsNamed) (names : Key → Option String) (unions : Finset Key) :
    P.Kept (builtTypes names unions) Ms (P.callGraph (builtTypes names unions) Ms).layers := by
  have hadds : Additive (Named P.T (builtTypes names unions)) LayerMaps.records fun m =>
      (Ms.flatMap visits).foldl P.visit m := additive_foldl fun V _ => additive_visit hP V
  have hnamed : Named P.T (builtTypes names unions)
      (Ms.foldl P.doInitialization (builtTypes names unions)) := by
    rw [foldl_doInitialization]
    exact hadds.keeps ⟨rfl, subset_rfl, fun _ => Or.inl⟩
  refine callGraph_induction (I := fun g => P.Kept (builtTypes names unions) Ms g.layers) ?_ ?_
  · intro M _ F _ CI _ g id hg
    rcases P.visitCall_cases F g id CI with heq | ⟨-, hnew, heq⟩ | ⟨-, -, heq⟩
    · rw [heq]
      exact hg
    · rw [heq, visitIndirectCall, if_neg hnew]
      exact hg.afterOneLayer CI
    · rw [heq]
      exact hg
  · exact ⟨(after_initialization names unions).toEscapesKeyed, hnamed, fun x hx _ => hx⟩

end

section
variable {tg : TBAAGraph} {P : CallProgram} {m₀ : LayerMaps} {Ms : List LLVMModule} {s : CoState}
  {x y : Phase × CoState} {CI : Value} {f : Func}

/-- **One action.** -/
theorem Kept.perform (hP : P.FuncsNamed) (h : P.Kept m₀ Ms s.layers) (a : Action tg P) :
    P.Kept m₀ Ms (perform tg P s a).layers := by
  rcases layers_perform s a with heq | ⟨CI, heq⟩ | ⟨hash, heq⟩
  · rw [heq]
    exact h
  · rw [heq]
    exact h.afterOneLayer CI
  · rw [heq]
    exact Kept.unescape hP h hash

/-- **All phases.** -/
theorem kept_mainLoop (hP : P.FuncsNamed) (h : MainLoop (Allowed tg P) x y)
    (hx : P.Kept m₀ Ms x.2.layers) : P.Kept m₀ Ms y.2.layers :=
  phases_induction (I := fun s : CoState => P.Kept m₀ Ms s.layers)
    (fun _ a _ hs => hs.perform hP a) h hx

/-! ## The targets -/

/-- The second type analysis of a call takes a function away only after a field has been
    un-escaped. -/
theorem exists_unescaped {a : Action tg P} (hP : P.FuncsNamed) (h : P.MayCall m₀ Ms CI f)
    (hkept : P.Kept m₀ Ms s.layers) (hlost : P.LostBy s a CI f) {CI' : Value}
    (ha : a = .rerun CI') : ∃ hash ∈ (Ms.foldl P.doInitialization m₀).typeEscapeSet,
      hash ∉ s.layers.typeEscapeSet := by
  subst ha
  obtain ⟨⟨rfl, -, -⟩, hno⟩ := hlost
  by_contra hall
  push Not at hall
  exact hno (mem_findCalleesWithMLTA_iff.1 (h.mem hP (hkept.after hall)))

/-- A target that is lost in the main loop is taken away by an action of the run.  If this is
    the second type analysis of the call, a field has been un-escaped before. -/
theorem lostBy_of_mayCall (hP : P.FuncsNamed) (h : P.MayCall m₀ Ms CI f)
    (hkept : P.Kept m₀ Ms x.2.layers) (hloop : MainLoop (Allowed tg P) x y)
    (hx : f ∈ x.2.ICallees CI) (hy : f ∉ y.2.ICallees CI) :
    ∃ s a, Comes (perform tg P) (Allowed tg P) Phase.next (PhaseActions tg P) x s a y ∧
      f ∈ s.ICallees CI ∧ P.LostBy s a CI f ∧
      ∀ CI', a = .rerun CI' →
        ∃ hash ∈ (Ms.foldl P.doInitialization m₀).typeEscapeSet,
          hash ∉ s.layers.typeEscapeSet := by
  obtain ⟨s, a, hcomes, hs, hno⟩ :=
    phases_change (I := fun s : CoState => f ∈ s.ICallees CI) hloop hx hy
  have hlost : P.LostBy s a CI f := (not_mem_perform_iff hs).1 hno
  have hkept' : P.Kept m₀ Ms s.layers :=
    hcomes.induction (I := fun s : CoState => P.Kept m₀ Ms s.layers)
      (fun _ a _ hs => hs.perform hP a) hkept
  exact ⟨s, a, hcomes, hs, hlost, fun CI' ha => exists_unescaped hP h hkept' hlost ha⟩

/-- **The main loop.**  If all literal structs have names, everything that the initialization
    has recorded but escapes is there in every state, no query makes an entry for a literal
    struct, and a call that the pass has entered keeps all functions that it may call through
    its layers, but for those that an action of the run takes away. -/
theorem targets_main (hP : P.FuncsNamed) (B : P.NamedLiterals)
    (h : P.MayCall (builtTypes B.names B.unions) Ms CI f)
    (hentered : Entered (P.callGraph (builtTypes B.names B.unions) Ms) CI)
    (hloop : MainLoop (Allowed tg P)
      (.FuncAliasAnalysis, P.coStart (builtTypes B.names B.unions) Ms) y) :
    P.Kept (builtTypes B.names B.unions) Ms y.2.layers ∧
    (∀ q, (P.runQuery y.2.layers q).Global_Literal_Struct_Map = B.names) ∧
    (f ∈ y.2.ICallees CI ∨ ∃ s a,
      Comes (perform tg P) (Allowed tg P) Phase.next (PhaseActions tg P)
        (.FuncAliasAnalysis, P.coStart (builtTypes B.names B.unions) Ms) s a y ∧
      f ∈ s.ICallees CI ∧ P.LostBy s a CI f ∧
      ∀ CI', a = .rerun CI' →
        ∃ hash ∈ (Ms.foldl P.doInitialization (builtTypes B.names B.unions)).typeEscapeSet,
          hash ∉ s.layers.typeEscapeSet) := by
  have hstart : P.Kept (builtTypes B.names B.unions) Ms
      (P.coStart (builtTypes B.names B.unions) Ms).layers := kept_callGraph hP B.names B.unions
  have hend : P.Kept (builtTypes B.names B.unions) Ms y.2.layers := kept_mainLoop hP hloop hstart
  refine ⟨hend, B.runQuery hend.named.names, ?_⟩
  by_cases hmem : f ∈ y.2.ICallees CI
  · exact Or.inl hmem
  · exact Or.inr (lostBy_of_mayCall hP h hstart hloop ((found_callGraph hP h).2 hentered) hmem)

end

/-! ## A function that moves on -/

theorem holds_fieldToField : fieldToField.Holds fieldToField.Ctx (Finset.range 14) where
  values := by decide
  insts F I hI := by
    have hI' : I ∈ (if F = 1 then [6, 7, 8, 9, 10, 11, 12, 13] else [13]) := hI
    have hle : ∀ I ∈ [6, 7, 8, 9, 10, 11, 12, 13], I ∈ Finset.range 14 := by decide
    split_ifs at hI' with hF
    · exact hle I hI'
    · rw [List.mem_singleton.1 hI']
      decide
  args F y hy := by cases hy
  initializer GV Ini h := by
    have h' : (if GV = 4 then some 3 else none) = some Ini := h
    split_ifs at h'
    cases h'
    decide
  unique_func hash F h := by cases h
  unique_gv guid := Finset.empty_subset _
  callers F cai h := by cases h

/-- No field of `fieldToField` escapes, so that the second type analysis does not take the
    function away from its call. -/
theorem targets_main_fieldToField : ∃ k y,
    MainRun .empty fieldToField k
      (fieldToField.mainStart (builtTypes (fun _ => none) ∅) fieldModules) y ∧
    (0 ∈ y.ICallees 12 ∨ ∃ (s : CoState) (a : Action .empty fieldToField),
      fieldToField.LostBy s a 12 0 ∧ ∀ CI', a ≠ .rerun CI') := by
  obtain ⟨k, y, hrun⟩ := exists_mainRun .empty fieldToField (builtTypes (fun _ => none) ∅)
    fieldModules holds_fieldToField
  have hentered : Entered
      (fieldToField.callGraph (builtTypes (fun _ => none) ∅) fieldModules) 12 := by
    unfold Entered
    decide
  have hnone : (fieldModules.foldl fieldToField.doInitialization
      (builtTypes literals_fieldToField.names literals_fieldToField.unions)).typeEscapeSet = ∅ := by
    decide
  refine ⟨k, y, hrun, (targets_main funcsNamed_fieldToField literals_fieldToField
    mayCall_fieldToField hentered hrun.mainLoop).2.2.imp_right ?_⟩
  rintro ⟨s, a, -, -, hlost, hrerun⟩
  refine ⟨s, a, hlost, fun CI' ha => ?_⟩
  obtain ⟨hash, hescaped, -⟩ := hrerun CI' ha
  rw [hnone] at hescaped
  exact absurd hescaped (Finset.notMem_empty hash)

end CallProgram

end TFA
