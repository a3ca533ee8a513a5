/-
  Points-to facts after a merge with a refusal in the middle.

  A merge that the gate refuses below the first level tears a node off the one
  before it and goes on.  The facts between the classes of the links that are
  `Severed` are lost, and all others are kept, so nothing is lost if and only if no
  severed link is between two values (`losesNothing_iff`).  In `pointee_detached` a
  pointer loses all that it points to when it is merged with another.
-/
import TFA.Alias.Severed
import TFA.Alias.Overwritten

namespace TFA.AliasGraph

open Links

variable {tg : TBAAGraph} {g z f : AliasGraph} {n1 n2 x y a b : NodeId} {d : Dir}
  {A B C D : List NodeId}

/-! ## The statement -/

/-- Some merge below the call is refused. -/
def NestedRefused (tg : TBAAGraph) (n1 n2 : NodeId) (g : AliasGraph) : Prop :=
  shouldMergeByTBAA tg g n1 n2 = true ∧
    g.NumTBAABlockedMerges < (mergeNode tg n1 n2 g).NumTBAABlockedMerges

/-- If some merge below the call is refused, `v` is still in the cluster of every
    `p` that pointed to its class. -/
def LosesNothing (tg : TBAAGraph) (n1 n2 : NodeId) (g : AliasGraph) : Prop :=
  NestedRefused tg n1 n2 g → ∀ p v a b, p ∈ g.aliasclass a → g.next .toNode a = some b →
    v ∈ g.aliasclass b → v ∈ (mergeNode tg n1 n2 g).getClusterValues p ∅

/-- The link before the first pair of nodes after `n1` and `n2` that the gate keeps apart. -/
def firstTorn (tg : TBAAGraph) (g : AliasGraph) (n1 n2 : NodeId) : Option (NodeId × NodeId) :=
  tornOff tg (g.moved n1 n2) n1 (g.nodesAfter .toNode n1 n2 n1) (g.nodesAfter .toNode n1 n2 n2)

/-- The nodes before `n`, up to the first of `n1` and `n2`, once the nodes after `n1` are merged
    into those after `n2`. -/
def nodesBefore (tg : TBAAGraph) (g : AliasGraph) (n1 n2 n : NodeId) : List NodeId :=
  chainWithin (g.prevAfter .toNode n2 (firstTorn tg g n1 n2) (g.nodesAfter .toNode n1 n2 n1)
    (g.nodesAfter .toNode n1 n2 n2)) (fun x => x == n1 || x == n2) g.entries n

/-- The link before the first pair of these that the gate keeps apart. -/
def secondTorn (tg : TBAAGraph) (g : AliasGraph) (n1 n2 : NodeId) : Option (NodeId × NodeId) :=
  tornOff tg (mergeClasses tg (g.nodesAfter .toNode n1 n2 n1) (g.nodesAfter .toNode n1 n2 n2)
    (g.moved n1 n2)) n1 (nodesBefore tg g n1 n2 n1) (nodesBefore tg g n1 n2 n2)

/-- The merge severs the link from `x` to `y`. -/
def Severed (tg : TBAAGraph) (g : AliasGraph) (n1 n2 x y : NodeId) : Prop :=
  SeveredBy n1 n2 (g.nodesAfter .toNode n1 n2 n1) (g.nodesAfter .toNode n1 n2 n2)
    (nodesBefore tg g n1 n2 n1) (nodesBefore tg g n1 n2 n2) (firstTorn tg g n1 n2)
    (secondTorn tg g n1 n2) x y

/-- The merge is refused or trivial, or it severs no link between two values. -/
def Harmless (tg : TBAAGraph) (n1 n2 : NodeId) (g : AliasGraph) : Prop :=
  shouldMergeByTBAA tg g n1 n2 = true → n1 ≠ n2 → ∀ x y, g.next .toNode x = some y →
    Severed tg g n1 n2 x y → g.aliasclass x = ∅ ∨ g.aliasclass y = ∅

theorem NestedRefused.ne (h : NestedRefused tg n1 n2 g) : n1 ≠ n2 := by
  rintro rfl
  obtain ⟨hgate, hlt⟩ := h
  rw [mergeNode_eq, mergeBody, if_pos hgate, if_pos rfl, blocked_inheritTag] at hlt
  exact lt_irrefl _ hlt

/-! ## The nodes before `n1` and `n2` -/

/-- A half makes no new entries. -/
theorem prev_of_prevAfter {torn : Option (NodeId × NodeId)} {w : NodeId}
    (hA : ∀ w ∈ A, g.next d.rev w ≠ none) (hw : g.prevAfter d n2 torn A B w ≠ none) :
    g.next d.rev w ≠ none := by
  cases torn with
  | some c =>
    simp only [prevAfter] at hw
    split at hw
    · exact absurd rfl hw
    · exact hw
  | none =>
    simp only [prevAfter] at hw
    split at hw
    · exact absurd rfl hw
    · split at hw
      · exact hA w (List.mem_of_getElem? (by assumption))
      · exact hw

section
variable (h : g.Mirrored) (hn : n1 ≠ n2) (hA : Chain (g.next .toNode) {n1, n2} n1 A)
  (hB : Chain (g.next .toNode) {n1, n2} n2 B)
include h hn hA hB

variable (tg) in
theorem firstHalf_done :
    HalfDone tg .toNode n1 n2 A B (g.moved n1 n2) (firstHalf tg n1 n2 g) :=
  halfDone tg (by simpa using h.inverse .toNode) hn (by simpa using hA) (by simpa using hB)

theorem prev_firstHalf : (firstHalf tg n1 n2 g).next .fromNode =
    g.prevAfter .toNode n2 (tornOff tg (g.moved n1 n2) n1 A B) A B := by
  have hp := (firstHalf_done tg h hn hA hB).prev
  rw [Dir.rev] at hp
  rw [hp]
  funext w
  simp only [prevAfter, next_moved]

theorem nodesBefore_eq {n : NodeId} (hn' : n ∈ ({n1, n2} : Set NodeId)) {l : List NodeId}
    (hl : Chain ((firstHalf tg n1 n2 g).next .fromNode) {n1, n2} n l) :
    nodesBefore tg g n1 n2 n = l := by
  rw [prev_firstHalf h hn hA hB] at hl
  rw [nodesBefore, firstTorn, nodesAfter_eq h hA, nodesAfter_eq h hB]
  refine chainWithin_eq (hl.congr_stop (by simp)) ?_
  have hprev : ∀ w ∈ A, g.next .fromNode w ≠ none := by
    intro w hw
    obtain ⟨c, -, hc⟩ := hA.exists_prev hw
    simp [(h c w).1 hc]
  refine (hl.length_le_sources hn' fun b hb => ?_).trans (card_keys_le_entries g .fromNode)
  obtain ⟨c, hc⟩ := Option.ne_none_iff_exists'.1 (prev_of_prevAfter hprev hb)
  exact mem_keys_iff.2 ⟨c, hc⟩

variable (tg) in
/-- The first half is a splice, and the maps mirror each other after it, or it has overwritten a
    link of the ring of `n2`. -/
theorem firstHalf_cases :
    (∃ A' mx mv, FirstDone n1 n2 A' B mx mv ((firstHalf tg n1 n2 g).next .fromNode) g
      (firstHalf tg n1 n2 g)) ∨
    ∃ A₀ R s t, Overwrites n1 n2 s t A₀ R B g (firstHalf tg n1 n2 g) := by
  cases ht : tornOff tg (g.moved n1 n2) n1 A B with
  | some c =>
    obtain ⟨A₀, A₁, -, T⟩ := firstRefused h hn hA hB ht
    exact Or.inl ⟨_, _, _, T.done⟩
  | none =>
    by_cases hover : n2 ∈ B ∧ B.length < A.length
    · obtain ⟨A₀, R, s, t, -, O⟩ := overwrites h hn hA hB ht hover.1 hover.2
      exact Or.inr ⟨A₀, R, s, t, O⟩
    · refine Or.inl ⟨_, _, _, firstDone_of_merged h hn hA hB ht fun h2 => ?_⟩
      exact Nat.not_lt.1 fun hlt => hover ⟨h2, hlt⟩

variable (tg) in
theorem exists_before : ∃ C D, Chain ((firstHalf tg n1 n2 g).next .fromNode) {n1, n2} n1 C ∧
    Chain ((firstHalf tg n1 n2 g).next .fromNode) {n1, n2} n2 D := by
  rcases firstHalf_cases tg h hn hA hB with ⟨_, _, _, F⟩ | ⟨_, _, _, _, O⟩
  · have hz : (firstHalf tg n1 n2 g).Mirrored := F.spliced.inverse
    obtain ⟨C, hC⟩ := exists_nodes hz .fromNode n1 n2 (Or.inl rfl)
    obtain ⟨D, hD⟩ := exists_nodes hz .fromNode n1 n2 (Or.inr rfl)
    exact ⟨C, D, hC, hD⟩
  · exact O.exists_before

end

theorem exists_halves (h : g.Mirrored) (hn : n1 ≠ n2)
    (hgate : shouldMergeByTBAA tg g n1 n2 = true) : ∃ A B C D, Halves tg g n1 n2 A B C D := by
  obtain ⟨A, hA⟩ := exists_nodes h .toNode n1 n2 (Or.inl rfl)
  obtain ⟨B, hB⟩ := exists_nodes h .toNode n1 n2 (Or.inr rfl)
  obtain ⟨C, D, hC, hD⟩ := exists_before tg h hn hA hB
  exact ⟨A, B, C, D, h, hn, hgate, hA, hB, hC, hD⟩

/-! ## The refusals of the two halves -/

section
variable (H : Halves tg g n1 n2 A B C D)
include H

theorem Halves.firstTorn_eq : firstTorn tg g n1 n2 = tornOff tg (g.moved n1 n2) n1 A B := by
  rw [firstTorn, nodesAfter_eq H.mirrored H.after1, nodesAfter_eq H.mirrored H.after2]

theorem Halves.secondTorn_eq :
    secondTorn tg g n1 n2 = tornOff tg (firstHalf tg n1 n2 g) n1 C D := by
  have hnodes := (firstHalf_done tg H.mirrored H.ne H.after1 H.after2).nodes
  rw [secondTorn, nodesAfter_eq H.mirrored H.after1, nodesAfter_eq H.mirrored H.after2,
    nodesBefore_eq H.mirrored H.ne H.after1 H.after2 (Or.inl rfl) H.before1,
    nodesBefore_eq H.mirrored H.ne H.after1 H.after2 (Or.inr rfl) H.before2]
  exact tornOff_congr _ n1 (fun w _ => by rw [tag, tag, hnodes]) fun w _ => by rw [tag, tag, hnodes]

theorem Halves.severed_iff : Severed tg g n1 n2 x y ↔
    SeveredBy n1 n2 A B C D (tornOff tg (g.moved n1 n2) n1 A B)
      (tornOff tg (firstHalf tg n1 n2 g) n1 C D) x y := by
  rw [Severed, H.firstTorn_eq, H.secondTorn_eq, nodesAfter_eq H.mirrored H.after1,
    nodesAfter_eq H.mirrored H.after2,
    nodesBefore_eq H.mirrored H.ne H.after1 H.after2 (Or.inl rfl) H.before1,
    nodesBefore_eq H.mirrored H.ne H.after1 H.after2 (Or.inr rfl) H.before2]

/-- Each half counts one refusal at most. -/
theorem Halves.blocked : (mergeNode tg n1 n2 g).NumTBAABlockedMerges =
    g.NumTBAABlockedMerges + (if (tornOff tg (g.moved n1 n2) n1 A B).isSome then 1 else 0) +
      if (tornOff tg (firstHalf tg n1 n2 g) n1 C D).isSome then 1 else 0 := by
  have hfirst := (firstHalf_done tg H.mirrored H.ne H.after1 H.after2).blocked
  rw [blocked_moved] at hfirst
  rw [← hfirst, H.mergeNode_eq]
  rcases firstHalf_cases tg H.mirrored H.ne H.after1 H.after2 with ⟨_, _, _, F⟩ | ⟨_, _, _, _, O⟩
  · have hz : (firstHalf tg n1 n2 g).Mirrored := F.spliced.inverse
    exact (halfDone tg (hz.inverse .fromNode) H.ne H.before1 H.before2).blocked
  · cases ht₂ : tornOff tg (firstHalf tg n1 n2 g) n1 C D with
    | some c => exact (O.torn_back H.before1 H.before2 ht₂).2
    | none => exact O.not_blocked H.before1 H.before2 ht₂

theorem Halves.nestedRefused_iff : NestedRefused tg n1 n2 g ↔
    (tornOff tg (g.moved n1 n2) n1 A B).isSome = true ∨
      (tornOff tg (firstHalf tg n1 n2 g) n1 C D).isSome = true := by
  rw [NestedRefused, H.blocked, and_iff_right H.gate]
  split <;> split <;> grind

/-! ## What is kept and what is lost -/

/-- **All links that are not severed are kept.** -/
theorem Halves.keeps (hr : NestedRefused tg n1 n2 g) (hab : g.next .toNode a = some b)
    (hsev : ¬ Severed tg g n1 n2 a b) : Keeps g (mergeNode tg n1 n2 g) a b := by
  rw [H.nestedRefused_iff] at hr
  rw [H.severed_iff] at hsev
  cases ht₁ : tornOff tg (g.moved n1 n2) n1 A B with
  | some c =>
    rw [ht₁] at hsev
    exact H.keeps_of_first ht₁ hab hsev
  | none =>
    rw [ht₁] at hsev hr
    obtain ⟨⟨x, y⟩, ht₂⟩ := Option.isSome_iff_exists.1 (hr.resolve_left (by simp))
    rw [ht₂] at hsev
    by_cases hover : n2 ∈ B ∧ B.length < A.length
    · obtain ⟨A₀, R, s, t, hA, O⟩ :=
        overwrites H.mirrored H.ne H.after1 H.after2 ht₁ hover.1 hover.2
      obtain ⟨⟨C₀, C₁, hC, S⟩, -⟩ := O.torn_back H.before1 H.before2 ht₂
      rw [← H.mergeNode_eq] at S
      by_cases hy : y = n2
      · subst hy
        exact O.keeps_all S hab
      · refine O.keeps S hy hab ?_ ?_
        · rintro rfl
          obtain rfl := Option.some.inj (hab.symm.trans (O.after1.next_of_getLast O.last))
          obtain ⟨ha, hb⟩ := O.getElem?
          exact hsev (.overwritten hover.1 hover.2 hy (hA ▸ ha) (hA ▸ hb))
        · rintro rfl rfl
          by_contra h2
          exact hsev (.second (hC ▸ h2))
    · refine H.keeps_of_refused ht₁ (fun h2 => ?_) ht₂ hab hsev
      exact Nat.not_lt.1 fun hlt => hover ⟨h2, hlt⟩

/-- **All severed links between two values are lost.** -/
theorem Halves.parts (hsev : Severed tg g n1 n2 a b) :
    NestedRefused tg n1 n2 g ∧ Parts g (mergeNode tg n1 n2 g) a b := by
  rw [H.severed_iff] at hsev
  rw [H.nestedRefused_iff]
  generalize ht₁ : tornOff tg (g.moved n1 n2) n1 A B = t₁ at hsev ⊢
  generalize ht₂ : tornOff tg (firstHalf tg n1 n2 g) n1 C D = t₂ at hsev ⊢
  cases hsev with
  | first h2 hb h1 =>
    refine ⟨Or.inl rfl, ?_⟩
    by_cases h1A : n1 ∈ A
    · cases t₂ with
      | some c => exact H.parts_both ht₁ h2 h1A hb ht₂
      | none =>
        obtain ⟨h2D, hlt⟩ := (h1 h1A).resolve_left (by simp)
        exact H.parts_overwritten ht₁ h2 h1A hb ht₂ h2D hlt
    · exact H.parts_first ht₁ h2 h1A
  | second h2 =>
    refine ⟨Or.inr rfl, ?_⟩
    rcases firstHalf_cases tg H.mirrored H.ne H.after1 H.after2 with ⟨_, _, _, F⟩ | ⟨_, _, _, _, O⟩
    · obtain ⟨C₀, C₁, rfl, -, S⟩ := H.torn F.spliced.inverse ht₂
      exact F.parts_torn H.ne S h2 (fun _ _ h => Or.inl h) (F.not_sameSide S h2)
    · obtain ⟨⟨C₀, C₁, rfl, S⟩, -⟩ := O.torn_back H.before1 H.before2 ht₂
      rw [← H.mergeNode_eq] at S
      exact O.parts_second S h2
  | cutOff h1 hle h2 ha hb =>
    refine ⟨Or.inr rfl, H.parts_cutOff ht₁ (fun h2B => ?_) ht₂ h1 hle h2 ha hb⟩
    exact absurd (H.after2.stop_unique h1 (Or.inl rfl) h2B (Or.inr rfl)) H.ne
  | overwritten h2 hlt hy ha hb =>
    refine ⟨Or.inr rfl, ?_⟩
    obtain ⟨A₀, R, s, t, hA, O⟩ := overwrites H.mirrored H.ne H.after1 H.after2 ht₁ h2 hlt
    obtain ⟨⟨C₀, C₁, -, S⟩, -⟩ := O.torn_back H.before1 H.before2 ht₂
    rw [← H.mergeNode_eq] at S
    obtain ⟨hs, ht⟩ := O.getElem?
    rw [hA] at ha hb
    obtain rfl := Option.some.inj (ha.symm.trans hs)
    obtain rfl := Option.some.inj (hb.symm.trans ht)
    exact O.parts S hy

end

/-! ## Exactly when nothing is lost -/

/-- **A refusal in the middle.**  Nothing is lost if and only if no link between two values is
    severed. -/
theorem losesNothing_iff (h : g.Mirrored) (hc : g.Consistent) (n1 n2 : NodeId) :
    LosesNothing tg n1 n2 g ↔ Harmless tg n1 n2 g := by
  have hc' : (mergeNode tg n1 n2 g).Consistent := consistentInvariant.mergeNode trivial hc
  constructor
  · intro hl hgate hn x y hxy hsev
    obtain ⟨A, B, C, D, H⟩ := exists_halves h hn hgate
    obtain ⟨hr, hparts⟩ := H.parts hsev
    by_contra hcon
    simp only [not_or, ← ne_eq, ← Finset.nonempty_iff_ne_empty] at hcon
    obtain ⟨⟨u, hu⟩, ⟨v, hv⟩⟩ := hcon
    obtain ⟨a, b, ha, hb, hab⟩ := hparts u v hu hv
    exact hab ((mem_cluster_iff hc' ha hb).1 (hl hr u v x y hu hxy hv))
  · intro hh hr p v a b hp hab hv
    have hn : n1 ≠ n2 := hr.ne
    obtain ⟨A, B, C, D, H⟩ := exists_halves h hn hr.1
    obtain ⟨a', b', ha, hb, hreach⟩ := H.keeps hr hab (fun hsev => by
      rcases hh hr.1 hn a b hab hsev with h | h
      · rw [h] at hp; cases hp
      · rw [h] at hv; cases hv) p v hp hv
    exact (mem_cluster_iff hc' ha hb).2 hreach

/-- `x = *p; y = *x; z = *y`, the second load as an `int` and the third as a `long`:
    the nodes of `p`, `x`, `y` and `z` are `1`, `0`, `2` and `3`. -/
def onePath : AliasGraph :=
  AliasCall.run .twoScalars (fun _ => .argument)
    [.load 1 0 none, .load 2 1 (some 4), .load 3 2 (some 5)] {}

theorem onePath_wellFormed : onePath.WellFormed := by
  have hsafe : AliasCall.TagSafeRun .twoScalars (fun _ => .argument)
      [.load 1 0 none, .load 2 1 (some 4), .load 3 2 (some 5)] {} :=
    ⟨trivial, trivial, trivial, trivial⟩
  exact (AliasCall.tagSafeRun_accepted hsafe).wf

/-- The node of `x` is torn off that of `p`, but still points to that of `y`. -/
theorem losesNothing_onePath :
    NestedRefused .twoScalars 1 2 onePath ∧ LosesNothing .twoScalars 1 2 onePath := by
  refine ⟨⟨by decide, by decide⟩,
    (losesNothing_iff onePath_wellFormed.mirrored onePath_wellFormed.consistent 1 2).2 ?_⟩
  intro _ _ x y _ hsev
  have h1 : firstTorn .twoScalars onePath 1 2 = some (1, 0) := by decide
  have h2 : secondTorn .twoScalars onePath 1 2 = none := by decide
  rw [Severed, h1, h2] at hsev
  cases hsev with
  | first hleads => exact absurd (by decide) hleads

/-- `x = *p; y = *x` as an `int` and `z = *q; w = *z` as a `long`: `p` and `x` are in
    the nodes `1` and `0`, `q` and `z` in `4` and `3`. -/
def twoPaths : AliasGraph :=
  AliasCall.run .twoScalars (fun _ => .argument)
    [.load 1 0 none, .load 2 1 (some 4), .load 4 3 none, .load 5 4 (some 5)] {}

theorem twoPaths_wellFormed : twoPaths.WellFormed := by
  have hsafe : AliasCall.TagSafeRun .twoScalars (fun _ => .argument)
      [.load 1 0 none, .load 2 1 (some 4), .load 4 3 none, .load 5 4 (some 5)] {} :=
    ⟨trivial, trivial, trivial, trivial, trivial⟩
  exact (AliasCall.tagSafeRun_accepted hsafe).wf

/-- When `p` and `q` are merged, `p` points to `x` no more. -/
theorem pointee_detached :
    ¬ ∀ (tg : TBAAGraph) (g : AliasGraph) (n1 n2 : NodeId), g.Mirrored → g.Consistent →
      LosesNothing tg n1 n2 g := by
  intro h
  have hin := h .twoScalars twoPaths 1 4 twoPaths_wellFormed.mirrored
    twoPaths_wellFormed.consistent ⟨by decide, by decide⟩ 0 1 1 0 (by decide) (by decide)
    (by decide)
  have hout : 1 ∉ (mergeNode .twoScalars 1 4 twoPaths).getClusterValues 0 ∅ := by decide
  exact hout hin

end TFA.AliasGraph
