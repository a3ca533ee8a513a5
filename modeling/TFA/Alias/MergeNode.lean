/-
  What `mergeNode` does to the graph.

  * `MergeInvariant`: a property that the single changes of `mergeNode` keep is
    kept by all of it.  Instances: no value changes its group when nodes of one
    group are merged (`mergeNode_sound`), nothing outside a closed set of nodes
    changes (`mergeNode_frame`), `NodeMap` and the classes agree
    (`mergeNode_consistent`);
  * `mergeEdges_merged`: one half of the edge changes splices the chain of
    neighbours of `n1` into that of `n2`, if no nested merge is blocked and the
    chain of `n2` has room for the link put back;
  * `ChainSafe` is the condition on the two nodes under which both halves find
    that room and `n1` is not merged back into; then `mergeNode_connected` says
    that what was connected stays connected.
-/
import TFA.Alias.Termination
import TFA.Lib.Links

namespace TFA.AliasGraph

open Links

variable {tg : TBAAGraph}

/-! ## Invariants of the merge -/

/-- A property `I` of graphs kept by every change that `mergeNode` makes when it
    is called on nodes related by `A`. -/
structure MergeInvariant (tg : TBAAGraph) (I : AliasGraph → Prop) (A : NodeId → NodeId → Prop) :
    Prop where
  blocked : ∀ g n1 n2, A n1 n2 → shouldMergeByTBAA tg g n1 n2 = false → I g →
    I { g with NumTBAABlockedMerges := g.NumTBAABlockedMerges + 1 }
  inherit : ∀ g n1 n2, A n1 n2 → shouldMergeByTBAA tg g n1 n2 = true → I g → I (g.inheritTag n1 n2)
  move : ∀ g n1 n2, A n1 n2 → n1 ≠ n2 → I g → I (g.moveClass n1 n2)
  erase : ∀ g d n1 n2 n, A n1 n2 → n = n1 ∨ n = n2 → I g → I (g.eraseEdge d n)
  neighbours : ∀ g d n1 n2 t1 t2, A n1 n2 → I g → g.next d n1 = some t1 → g.next d n2 = some t2 →
    A t1 t2
  link : ∀ g g' d n1 n2 t, A n1 n2 → I g → g.next d n1 = some t ∨ g.next d n2 = some t → I g' →
    I (g'.link d n2 t)

section
variable {I : AliasGraph → Prop} {A : NodeId → NodeId → Prop}

theorem MergeInvariant.mergeEdges (h : MergeInvariant tg I A)
    {M : NodeId → NodeId → AliasGraph → AliasGraph} (hM : ∀ n1 n2 g, A n1 n2 → I g → I (M n1 n2 g))
    (d : Dir) {n1 n2 : NodeId} {g : AliasGraph} (hA : A n1 n2) (hI : I g) :
    I (mergeEdges M d n1 n2 g) := by
  unfold AliasGraph.mergeEdges
  split
  · exact hI
  case h_2 t1 h1 =>
    split
    case h_1 t2 h2 =>
      split
      · exact hI
      · have hAt := h.neighbours g d n1 n2 t1 t2 hA hI h1 h2
        have hcut : I (g.tearOut d n1 n2 t1 t2) :=
          h.erase _ _ t1 t2 _ hAt (Or.inr rfl) (h.erase _ _ t1 t2 _ hAt (Or.inl rfl)
            (h.erase _ _ n1 n2 _ hA (Or.inr rfl) (h.erase _ _ n1 n2 _ hA (Or.inl rfl) hI)))
        exact h.link g _ d n1 n2 t2 hA hI (Or.inr h2) (hM t1 t2 _ hAt hcut)
    · exact h.link g _ d n1 n2 t1 hA hI (Or.inl h1) (h.erase _ _ n1 n2 _ hA (Or.inl rfl) hI)

theorem MergeInvariant.mergeNodeWithin (h : MergeInvariant tg I A) (fuel : ℕ) (n1 n2 : NodeId)
    (g : AliasGraph) (hA : A n1 n2) (hI : I g) : I (mergeNodeWithin tg fuel n1 n2 g) := by
  induction fuel generalizing n1 n2 g with
  | zero => exact hI
  | succ fuel ih =>
    unfold AliasGraph.mergeNodeWithin mergeBody
    split
    case isTrue hgate =>
      have hI' := h.inherit g n1 n2 hA hgate hI
      dsimp only
      split
      · exact hI'
      case isFalse hn =>
        exact h.mergeEdges ih .fromNode hA (h.mergeEdges ih .toNode hA (h.move _ n1 n2 hA hn hI'))
    case isFalse hgate => exact h.blocked g n1 n2 hA (by simpa using hgate) hI

theorem MergeInvariant.mergeNode (h : MergeInvariant tg I A) {n1 n2 : NodeId} {g : AliasGraph}
    (hA : A n1 n2) (hI : I g) : I (mergeNode tg n1 n2 g) :=
  h.mergeNodeWithin _ n1 n2 g hA hI

theorem MergeInvariant.mergeEdges_mergeNode (h : MergeInvariant tg I A) (d : Dir) {n1 n2 : NodeId}
    {g : AliasGraph} (hA : A n1 n2) (hI : I g) :
    I (AliasGraph.mergeEdges (AliasGraph.mergeNode tg) d n1 n2 g) :=
  h.mergeEdges (fun _ _ _ hA hI => h.mergeNode hA hI) d hA hI

end

/-- The counter of blocked merges never decreases. -/
theorem blockedInvariant (k : ℕ) :
    MergeInvariant tg (fun g => k ≤ g.NumTBAABlockedMerges) fun _ _ => True where
  blocked _ _ _ _ _ h := Nat.le_succ_of_le h
  inherit _ _ _ _ _ h := by simpa using h
  move _ _ _ _ _ h := h
  erase _ _ _ _ _ _ _ h := by simpa using h
  neighbours _ _ _ _ _ _ _ _ _ _ := trivial
  link _ _ _ _ _ _ _ _ _ h := by simpa using h

/-- No node is allocated. -/
theorem freshInvariant (k : ℕ) : MergeInvariant tg (fun g => g.fresh = k) fun _ _ => True where
  blocked _ _ _ _ _ h := h
  inherit _ _ _ _ _ h := by simpa using h
  move _ _ _ _ _ h := h
  erase _ _ _ _ _ _ _ h := by simpa using h
  neighbours _ _ _ _ _ _ _ _ _ _ := trivial
  link _ _ _ _ _ _ _ _ _ h := by simpa using h

/-- `NodeMap` is the inverse of the classes. -/
def Consistent (g : AliasGraph) : Prop := ∀ v x, g.getNode v = some x ↔ v ∈ g.aliasclass x

theorem Consistent.congr {g g' : AliasGraph} (h : g.Consistent) (hmap : g'.NodeMap = g.NodeMap)
    (hclass : g'.aliasclass = g.aliasclass) : g'.Consistent := by
  intro v x
  rw [getNode, hmap, hclass]
  exact h v x

theorem aliasclass_congr {g g' : AliasGraph} (h : g'.nodes = g.nodes) :
    g'.aliasclass = g.aliasclass := by
  funext x; rw [aliasclass, aliasclass, h]

theorem Consistent.moveClass {g : AliasGraph} (h : g.Consistent) {n1 n2 : NodeId} (hn : n1 ≠ n2) :
    (g.moveClass n1 n2).Consistent := by
  intro v x
  have h1 := h v n1
  have h2 := h v n2
  have hx := h v x
  rw [aliasclass_moveClass]
  simp only [getNode, AliasGraph.moveClass] at h1 h2 hx ⊢
  split <;> split <;> (try split) <;> simp_all <;> grind

theorem consistentInvariant : MergeInvariant tg Consistent fun _ _ => True where
  blocked _ _ _ _ _ h := h
  inherit _ _ _ _ _ h := h.congr (by simp) (by simp)
  move _ _ _ _ hn h := h.moveClass hn
  erase _ _ _ _ _ _ _ h := h.congr (by simp) (aliasclass_congr (by simp))
  neighbours _ _ _ _ _ _ _ _ _ _ := trivial
  link _ _ _ _ _ _ _ _ _ h := h.congr (by simp) (aliasclass_congr (by simp))

/-- Every value is in the group of `P` where it is in `g₀`. -/
structure SameGroups (P : NodeId → NodeId → Prop) (g₀ g : AliasGraph) : Prop where
  back : ∀ v y, v ∈ g.aliasclass y → ∃ x, v ∈ g₀.aliasclass x ∧ P x y
  forth : ∀ v x, v ∈ g₀.aliasclass x → ∃ y, v ∈ g.aliasclass y ∧ P x y

/-- No edge leads to another group. -/
def EdgesWithin (P : NodeId → NodeId → Prop) (g : AliasGraph) : Prop :=
  ∀ d a b, g.next d a = some b → P a b

section
variable {P : NodeId → NodeId → Prop} {g₀ g g' : AliasGraph}

theorem SameGroups.congr (h : SameGroups P g₀ g) (hclass : g'.aliasclass = g.aliasclass) :
    SameGroups P g₀ g' :=
  ⟨hclass ▸ h.back, hclass ▸ h.forth⟩

theorem SameGroups.move (hP : Equivalence P) (h : SameGroups P g₀ g) {n1 n2 : NodeId}
    (h12 : P n1 n2) (hn : n1 ≠ n2) : SameGroups P g₀ (g.moveClass n1 n2) := by
  refine ⟨?_, ?_⟩
  · intro v y hv
    rw [aliasclass_moveClass] at hv
    split at hv
    · simp at hv
    · split at hv
      case isTrue hy =>
        subst hy
        rcases Finset.mem_union.1 hv with hv | hv
        · exact h.back v y hv
        · obtain ⟨x, hx, hxn⟩ := h.back v n1 hv
          exact ⟨x, hx, hP.trans hxn h12⟩
      · exact h.back v y hv
  · intro v x hv
    obtain ⟨y, hy, hxy⟩ := h.forth v x hv
    by_cases hy1 : y = n1
    · subst hy1
      refine ⟨n2, ?_, hP.trans hxy h12⟩
      rw [aliasclass_moveClass, if_neg (Ne.symm hn), if_pos rfl]
      exact Finset.mem_union_right _ hy
    · refine ⟨y, ?_, hxy⟩
      rw [aliasclass_moveClass, if_neg hy1]
      split
      case isTrue hy2 => exact Finset.mem_union_left _ (hy2 ▸ hy)
      · exact hy

theorem sameGroups_refl (hP : Equivalence P) (g : AliasGraph) : SameGroups P g g where
  back _ y hv := ⟨y, hv, hP.refl y⟩
  forth _ x hv := ⟨x, hv, hP.refl x⟩

theorem sameGroupsInvariant (hP : Equivalence P) (g₀ : AliasGraph) :
    MergeInvariant tg (fun g => EdgesWithin P g ∧ SameGroups P g₀ g) P where
  blocked g _ _ _ _ h := by
    refine ⟨?_, h.2.congr rfl⟩
    intro d a b hab
    exact h.1 d a b (by cases d <;> exact hab)
  inherit g n1 n2 _ _ h := by
    refine ⟨?_, h.2.congr (by simp)⟩
    intro d a b hab
    rw [next_inheritTag] at hab
    exact h.1 d a b hab
  move g n1 n2 h12 hn h := by
    refine ⟨?_, h.2.move hP h12 hn⟩
    intro d a b hab
    rw [next_moveClass] at hab
    exact h.1 d a b hab
  erase g d _ _ n _ _ h := by
    refine ⟨?_, h.2.congr (aliasclass_congr (by simp))⟩
    intro d' a b hab
    rw [next_eraseEdge] at hab
    split at hab
    · cases hab
    · exact h.1 d' a b hab
  neighbours g d n1 n2 t1 t2 h12 h h1 h2 :=
    hP.trans (hP.symm (h.1 d n1 t1 h1)) (hP.trans h12 (h.1 d n2 t2 h2))
  link g g' d n1 n2 t h12 h ht h' := by
    have h2t : P n2 t := by
      rcases ht with ht | ht
      · exact hP.trans (hP.symm h12) (h.1 d n1 t ht)
      · exact h.1 d n2 t ht
    refine ⟨?_, h'.2.congr (aliasclass_congr (by simp))⟩
    intro d' a b hab
    rw [next_link] at hab
    split at hab
    case isTrue ha => rw [ha.2, ← Option.some.inj hab]; exact h2t
    · split at hab
      case isTrue ha => rw [ha.2, ← Option.some.inj hab]; exact hP.symm h2t
      · exact h'.1 d' a b hab

variable (tg) in
/-- **Soundness.**  Merging two nodes of one group moves no value to another
    group, and adds no edge between groups. -/
theorem mergeNode_sameGroups (hP : Equivalence P) (hedges : EdgesWithin P g) {n1 n2 : NodeId}
    (h12 : P n1 n2) :
    EdgesWithin P (mergeNode tg n1 n2 g) ∧ SameGroups P g (mergeNode tg n1 n2 g) :=
  (sameGroupsInvariant hP g).mergeNode h12 ⟨hedges, sameGroups_refl hP g⟩

end

/-- Outside `S`, which no edge leaves, the graph is still `g₀`. -/
structure SameOutside (S : Set NodeId) (g₀ g : AliasGraph) : Prop where
  closed : ∀ d a b, g.next d a = some b → (a ∈ S ↔ b ∈ S)
  next : ∀ d, ∀ x ∉ S, g.next d x = g₀.next d x
  nodes : ∀ x ∉ S, g.nodes x = g₀.nodes x

section
variable {S : Set NodeId} {g₀ g : AliasGraph}

theorem nodes_inheritTag {n1 n2 x : NodeId} (hx : x ≠ n2) :
    (g.inheritTag n1 n2).nodes x = g.nodes x := by
  unfold inheritTag
  split
  · exact Function.update_of_ne hx _ _
  · rfl

theorem nodes_moveClass {n1 n2 x : NodeId} (h1 : x ≠ n1) (h2 : x ≠ n2) :
    (g.moveClass n1 n2).nodes x = g.nodes x := by
  simp [moveClass, h1, h2]

theorem sameOutsideInvariant (S : Set NodeId) (g₀ : AliasGraph) :
    MergeInvariant tg (SameOutside S g₀) fun n1 n2 => n1 ∈ S ∧ n2 ∈ S where
  blocked g _ _ _ _ h :=
    ⟨fun d a b hab => h.closed d a b (by cases d <;> exact hab),
      fun d x hx => (by cases d <;> rfl : _ = g.next d x).trans (h.next d x hx), h.nodes⟩
  inherit g n1 n2 hS _ h := by
    refine ⟨by simpa using h.closed, by simpa using h.next, fun x hx => ?_⟩
    rw [nodes_inheritTag (ne_of_mem_of_not_mem hS.2 hx).symm]
    exact h.nodes x hx
  move g n1 n2 hS _ h := by
    refine ⟨by simpa using h.closed, by simpa using h.next, fun x hx => ?_⟩
    rw [nodes_moveClass (ne_of_mem_of_not_mem hS.1 hx).symm (ne_of_mem_of_not_mem hS.2 hx).symm]
    exact h.nodes x hx
  erase g d n1 n2 n hS hn h := by
    have hnS : n ∈ S := by
      rcases hn with rfl | rfl
      · exact hS.1
      · exact hS.2
    refine ⟨fun d' a b hab => ?_, fun d' x hx => ?_, fun x hx => ?_⟩
    · rw [next_eraseEdge] at hab
      split at hab
      · cases hab
      · exact h.closed d' a b hab
    · rw [next_eraseEdge, if_neg fun hx' => ne_of_mem_of_not_mem hnS hx hx'.2.symm]
      exact h.next d' x hx
    · rw [nodes_eraseEdge]; exact h.nodes x hx
  neighbours g d n1 n2 t1 t2 hS h h1 h2 :=
    ⟨(h.closed d n1 t1 h1).1 hS.1, (h.closed d n2 t2 h2).1 hS.2⟩
  link g g' d n1 n2 t hS h ht h' := by
    have htS : t ∈ S := by
      rcases ht with ht | ht
      · exact (h.closed d n1 t ht).1 hS.1
      · exact (h.closed d n2 t ht).1 hS.2
    refine ⟨fun d' a b hab => ?_, fun d' x hx => ?_, fun x hx => ?_⟩
    · rw [next_link] at hab
      split at hab
      case isTrue ha => rw [ha.2, ← Option.some.inj hab]; exact ⟨fun _ => htS, fun _ => hS.2⟩
      · split at hab
        case isTrue ha => rw [ha.2, ← Option.some.inj hab]; exact ⟨fun _ => hS.2, fun _ => htS⟩
        · exact h'.closed d' a b hab
    · rw [next_link, if_neg fun hx' => ne_of_mem_of_not_mem hS.2 hx hx'.2.symm,
        if_neg fun hx' => ne_of_mem_of_not_mem htS hx hx'.2.symm]
      exact h'.next d' x hx
    · rw [nodes_link]; exact h'.nodes x hx

end

/-! ## One half of the merge as a splice -/

/-- `g'` is `g` with the `d`-neighbours of `n1` merged into those of `n2`. -/
structure Merged (d : Dir) (g g' : AliasGraph) (n1 n2 : NodeId) (A B : List NodeId) : Prop where
  spliced : Spliced (g.next d) (g.next d.rev) (g'.next d) (g'.next d.rev) n1 n2 A B
  kept : ∀ v x, v ∈ g.aliasclass x → ∃ y, v ∈ g'.aliasclass y ∧ MovesTo A B x y
  grown : ∀ v y, v ∈ g'.aliasclass y → v ∈ g.aliasclass y ∨ y ∈ B.take A.length

/-- The graph with the tag inherited and the class moved, before the edge changes. -/
def moved (n1 n2 : NodeId) (g : AliasGraph) : AliasGraph := (g.inheritTag n1 n2).moveClass n1 n2

section
variable (n1 n2 : NodeId) (g : AliasGraph)

@[simp] theorem next_moved (d : Dir) : (g.moved n1 n2).next d = g.next d := by simp [moved]

@[simp] theorem blocked_moved :
    (g.moved n1 n2).NumTBAABlockedMerges = g.NumTBAABlockedMerges := by simp [moved]

theorem aliasclass_moved (x : NodeId) :
    (g.moved n1 n2).aliasclass x =
      if x = n1 then ∅ else if x = n2 then g.aliasclass n2 ∪ g.aliasclass n1
      else g.aliasclass x := by
  rw [moved, aliasclass_moveClass, aliasclass_inheritTag]

variable {n1 n2 g}

theorem mem_moved (hn : n1 ≠ n2) {x : NodeId} {u : Value} (hu : u ∈ g.aliasclass x) :
    u ∈ (g.moved n1 n2).aliasclass (if x = n1 then n2 else x) := by
  rw [aliasclass_moved]
  by_cases hx : x = n1
  · subst hx
    rw [if_pos rfl, if_neg (Ne.symm hn), if_pos rfl]
    exact Finset.mem_union_right _ hu
  · rw [if_neg hx, if_neg hx]
    split
    case isTrue hx2 => exact Finset.mem_union_left _ (hx2 ▸ hu)
    · exact hu

end

section
variable {d : Dir} {n1 n2 : NodeId} {g : AliasGraph}

theorem mergeEdges_of_none {M : NodeId → NodeId → AliasGraph → AliasGraph}
    (h : g.next d n1 = none) : mergeEdges M d n1 n2 g = g := by
  rw [mergeEdges, h]

variable (tg) in
theorem blocked_le_mergeEdges (d : Dir) (n1 n2 : NodeId) (g : AliasGraph) :
    g.NumTBAABlockedMerges ≤ (mergeEdges (mergeNode tg) d n1 n2 g).NumTBAABlockedMerges :=
  (blockedInvariant _).mergeEdges_mergeNode d trivial le_rfl

variable (tg) in
theorem blocked_le_mergeNode (n1 n2 : NodeId) (g : AliasGraph) :
    g.NumTBAABlockedMerges ≤ (mergeNode tg n1 n2 g).NumTBAABlockedMerges :=
  (blockedInvariant _).mergeNode trivial le_rfl

theorem mergeNode_of_gate (hn : n1 ≠ n2) (hgate : shouldMergeByTBAA tg g n1 n2 = true) :
    mergeNode tg n1 n2 g =
      mergeEdges (mergeNode tg) .fromNode n1 n2
        (mergeEdges (mergeNode tg) .toNode n1 n2 (g.moved n1 n2)) := by
  rw [mergeNode_eq, mergeBody, if_pos hgate, if_neg hn]; rfl

/-- A merge of two nodes that is not blocked makes its two halves. -/
theorem mergeNode_eq_halves (hn : n1 ≠ n2)
    (hb : (mergeNode tg n1 n2 g).NumTBAABlockedMerges = g.NumTBAABlockedMerges) :
    mergeNode tg n1 n2 g =
      mergeEdges (mergeNode tg) .fromNode n1 n2
        (mergeEdges (mergeNode tg) .toNode n1 n2 (g.moved n1 n2)) := by
  refine mergeNode_of_gate hn ?_
  by_contra hgate
  rw [mergeNode_eq, mergeBody, if_neg hgate] at hb
  simp at hb

/-- Neither half blocks a merge. -/
theorem blocked_halves (hn : n1 ≠ n2)
    (hb : (mergeNode tg n1 n2 g).NumTBAABlockedMerges = g.NumTBAABlockedMerges) :
    (mergeEdges (mergeNode tg) .toNode n1 n2 (g.moved n1 n2)).NumTBAABlockedMerges =
      (g.moved n1 n2).NumTBAABlockedMerges ∧
    (mergeEdges (mergeNode tg) .fromNode n1 n2
        (mergeEdges (mergeNode tg) .toNode n1 n2 (g.moved n1 n2))).NumTBAABlockedMerges =
      (mergeEdges (mergeNode tg) .toNode n1 n2 (g.moved n1 n2)).NumTBAABlockedMerges := by
  have h1 := blocked_le_mergeEdges tg .toNode n1 n2 (g.moved n1 n2)
  have h2 := blocked_le_mergeEdges tg .fromNode n1 n2
    (mergeEdges (mergeNode tg) .toNode n1 n2 (g.moved n1 n2))
  rw [mergeNode_eq_halves hn hb] at hb
  rw [blocked_moved] at h1 ⊢
  omega

/-- If nothing is on the other side of `n1`, the merge is one half. -/
theorem half_of_head (hn : n1 ≠ n2) (hhead : g.next d.rev n1 = none)
    (hb : (mergeNode tg n1 n2 g).NumTBAABlockedMerges = g.NumTBAABlockedMerges) :
    (mergeEdges (mergeNode tg) d n1 n2 (g.moved n1 n2)).NumTBAABlockedMerges =
      (g.moved n1 n2).NumTBAABlockedMerges ∧
    ((mergeEdges (mergeNode tg) d n1 n2 (g.moved n1 n2)).next d.rev n1 = none →
      mergeNode tg n1 n2 g = mergeEdges (mergeNode tg) d n1 n2 (g.moved n1 n2)) := by
  have heq := mergeNode_eq_halves hn hb
  have hhalves := blocked_halves hn hb
  cases d with
  | toNode => exact ⟨hhalves.1, fun h => heq.trans (mergeEdges_of_none h)⟩
  | fromNode =>
    have hto : mergeEdges (mergeNode tg) .toNode n1 n2 (g.moved n1 n2) = g.moved n1 n2 :=
      mergeEdges_of_none (by rw [next_moved]; exact hhead)
    rw [hto] at heq hhalves
    exact ⟨hhalves.2, fun _ => heq⟩

theorem inverse_tearOut (hinv : Inverse (g.next d) (g.next d.rev)) {t1 t2 : NodeId}
    (h1 : g.next d n1 = some t1) (h2 : g.next d n2 = some t2) :
    Inverse ((g.tearOut d n1 n2 t1 t2).next d) ((g.tearOut d n1 n2 t1 t2).next d.rev) := by
  intro a b
  have hab := hinv a b
  have h1' := (hinv n1 t1).1 h1
  have h2' := (hinv n2 t2).1 h2
  rw [next_tearOut, next_rev_tearOut]
  grind

section
variable {A B : List NodeId}

theorem mergeEdges_nil (hA : Chain (g.next d) {n1, n2} n1 [])
    (M : NodeId → NodeId → AliasGraph → AliasGraph) : mergeEdges M d n1 n2 g = g :=
  mergeEdges_of_none (Chain.nil_iff.1 hA)

theorem mergeEdges_shift {t1 : NodeId} (hA : Chain (g.next d) {n1, n2} n1 (t1 :: A))
    (hB : Chain (g.next d) {n1, n2} n2 []) (M : NodeId → NodeId → AliasGraph → AliasGraph) :
    mergeEdges M d n1 n2 g = (g.eraseEdge d n1).link d n2 t1 := by
  simp only [mergeEdges, hA.next_head, Chain.nil_iff.1 hB]

/-- The followers `t1` and `t2`, torn off `n1` and `n2`, are the heads of the rest
    of the two chains. -/
structure Heads (d : Dir) (g : AliasGraph) (t1 t2 : NodeId) (A B : List NodeId) : Prop where
  ne : t1 ≠ t2
  inverse : Inverse (g.next d) (g.next d.rev)
  left : Chain (g.next d) {t1, t2} t1 A
  right : Chain (g.next d) {t1, t2} t2 B
  fst : t1 ∉ A ∧ t1 ∉ B
  snd : t2 ∉ A ∧ t2 ∉ B

section
variable {t1 t2 : NodeId} (hinv : Inverse (g.next d) (g.next d.rev)) (hn : n1 ≠ n2)
  (hA : Chain (g.next d) {n1, n2} n1 (t1 :: A)) (hB : Chain (g.next d) {n1, n2} n2 (t2 :: B))
include hinv hn hA hB

theorem heads_tearOut : Heads d (g.tearOut d n1 n2 t1 t2) t1 t2 A B := by
  have hcut := inverse_tearOut hinv hA.next_head hB.next_head
  have hnx := next_tearOut g d n1 n2 t1 t2
  have hpv := next_rev_tearOut g d n1 n2 t1 t2
  have hhead : ∀ {s l w}, Chain ((g.tearOut d n1 n2 t1 t2).next d) ∅ s l →
      w = t1 ∨ w = t2 → w ∉ l := fun hl hw => hl.head_not_mem hcut (by rw [hpv, if_pos hw])
  have htrail : ∀ {s t l}, Chain (g.next d) {n1, n2} s (t :: l) →
      Chain ((g.tearOut d n1 n2 t1 t2).next d) {t1, t2} t l ∧ t1 ∉ l ∧ t2 ∉ l := by
    intro s t l hl
    have hl' : Chain ((g.tearOut d n1 n2 t1 t2).next d) ∅ t l :=
      hl.cut (fun w hw => by rw [hnx, if_pos (by simpa using hw)])
        fun w hw => by rw [hnx, if_neg (by simpa using hw)]
    have h1l := hhead hl' (Or.inl rfl)
    have h2l := hhead hl' (Or.inr rfl)
    refine ⟨hl'.congr_stop fun w hw => ⟨fun h => h.elim, ?_⟩, h1l, h2l⟩
    rintro (rfl | rfl)
    · exact absurd hw h1l
    · exact absurd hw h2l
  obtain ⟨hA', h1A, h2A⟩ := htrail hA
  obtain ⟨hB', h1B, h2B⟩ := htrail hB
  refine ⟨?_, hcut, hA', hB', ⟨h1A, h1B⟩, h2A, h2B⟩
  intro ht
  exact hn (hinv.injective hA.next_head (ht ▸ hB.next_head))

theorem mergeEdges_cons : mergeEdges (mergeNode tg) d n1 n2 g =
    (mergeNode tg t1 t2 (g.tearOut d n1 n2 t1 t2)).link d n2 t2 := by
  have ht := (heads_tearOut hinv hn hA hB).ne
  simp only [mergeEdges, hA.next_head, hB.next_head, if_neg ht]

end

end

/-- The classes after a merge of the followers `t1` and `t2` of two nodes. -/
theorem Merged.classes_cons {g' : AliasGraph} {t1 t2 : NodeId} {A B : List NodeId}
    (ht : t1 ≠ t2) (h2 : t2 ∉ A) (h : Merged d (g.moved t1 t2) g' t1 t2 A B) :
    (∀ v x, v ∈ g.aliasclass x → ∃ y, v ∈ g'.aliasclass y ∧ MovesTo (t1 :: A) (t2 :: B) x y) ∧
      ∀ v y, v ∈ g'.aliasclass y → v ∈ g.aliasclass y ∨ y ∈ (t2 :: B).take (t1 :: A).length := by
  constructor
  · intro v x hv
    obtain ⟨y, hy, hmove⟩ := h.kept v _ (mem_moved ht hv)
    refine ⟨y, hy, ?_⟩
    by_cases hx : x = t1
    · rw [if_pos hx] at hmove
      rcases hmove with ⟨hA, -⟩ | ⟨-, rfl⟩
      · exact absurd hA h2
      · exact Or.inl ⟨by simp [hx], by simp⟩
    · rw [if_neg hx] at hmove
      rcases hmove with ⟨hA, hyB⟩ | ⟨hA, rfl⟩
      · refine Or.inl ⟨by simp [hA], ?_⟩
        rw [List.length_cons, List.drop_succ_cons, List.cons_append]
        exact List.mem_cons_of_mem _ hyB
      · exact Or.inr ⟨by simp [hA, hx], rfl⟩
  · intro v y hv
    rw [List.length_cons, List.take_succ_cons, List.mem_cons]
    rcases h.grown v y hv with hv | hy
    · rw [aliasclass_moved] at hv
      split at hv
      · simp at hv
      · split at hv
        case isTrue hy2 => exact Or.inr (Or.inl hy2)
        · exact Or.inl hv
    · exact Or.inr (Or.inr hy)

/-- **One half of the merge.**  Where no nested merge is blocked, the edge
    changes splice the chain of `n1` into the chain of `n2`. -/
theorem mergeEdges_merged {A B : List NodeId} (hinv : Inverse (g.next d) (g.next d.rev))
    (hn : n1 ≠ n2) (hA : Chain (g.next d) {n1, n2} n1 A) (hB : Chain (g.next d) {n1, n2} n2 B)
    (hfree : n2 ∈ B → A.length ≤ B.length)
    (hb : (mergeEdges (mergeNode tg) d n1 n2 g).NumTBAABlockedMerges = g.NumTBAABlockedMerges) :
    Merged d g (mergeEdges (mergeNode tg) d n1 n2 g) n1 n2 A B := by
  induction A generalizing g n1 n2 B with
  | nil =>
    rw [mergeEdges_nil hA]
    refine ⟨.nothing hinv (Chain.nil_iff.1 hA) hB, fun v x hv => ?_, fun v y hv => Or.inl hv⟩
    exact ⟨x, hv, Or.inr ⟨by simp, rfl⟩⟩
  | cons t1 A ih =>
    cases B with
    | nil =>
      rw [mergeEdges_shift hA hB]
      have hclass : ((g.eraseEdge d n1).link d n2 t1).aliasclass = g.aliasclass :=
        aliasclass_congr (by simp)
      refine ⟨.shift hinv hn (Chain.nil_iff.1 hB) hA (fun x => ?_) fun x => ?_, ?_, ?_⟩
      · rw [next_link, next_eraseEdge]; simp
      · rw [next_link, next_eraseEdge]; simp
      · rw [hclass]
        refine fun v x hv => ⟨x, hv, ?_⟩
        by_cases hx : x ∈ t1 :: A
        · exact Or.inl ⟨hx, hx⟩
        · exact Or.inr ⟨hx, rfl⟩
      · rw [hclass]; exact fun v y hv => Or.inl hv
    | cons t2 B =>
      have hh := heads_tearOut hinv hn hA hB
      rw [mergeEdges_cons hinv hn hA hB] at hb ⊢
      rw [blocked_link, ← blocked_tearOut g d n1 n2 t1 t2] at hb
      have hnx := next_tearOut g d n1 n2 t1 t2
      have hpv := next_rev_tearOut g d n1 n2 t1 t2
      obtain ⟨hbh, hhalf⟩ := half_of_head (d := d) hh.ne (by rw [hpv, if_pos (Or.inl rfl)]) hb
      have hrec := ih (g := (g.tearOut d n1 n2 t1 t2).moved t1 t2) (by simpa using hh.inverse) hh.ne
        (by simpa using hh.left) (by simpa using hh.right) (fun h => absurd h hh.snd.2) hbh
      have hz := hhalf (by
        rw [hrec.spliced.prev t1 hh.fst.1 hh.fst.2, next_moved, hpv, if_pos (Or.inl rfl)])
      rw [hz]
      have hclasses := hrec.classes_cons hh.ne hh.snd.1
      have hcut_class : (g.tearOut d n1 n2 t1 t2).aliasclass = g.aliasclass :=
        aliasclass_congr (by simp)
      have hlink_class : ∀ z : AliasGraph, (z.link d n2 t2).aliasclass = z.aliasclass := fun z =>
        aliasclass_congr (by simp)
      rw [hcut_class] at hclasses
      have hspl := hrec.spliced
      rw [next_moved, next_moved] at hspl
      refine ⟨hspl.relink hn hh.ne hh.inverse hnx hpv hh.left hh.right
        (fun h => by simpa using hfree h) (fun x => ?_) fun x => ?_, ?_, ?_⟩
      · rw [next_link]; simp
      · rw [next_link]; simp
      · rw [hlink_class]; exact hclasses.1
      · rw [hlink_class]; exact hclasses.2

end

/-! ## Both halves -/

/-- The nodes after `n` in the direction `d`, up to the first of `n1` and `n2`. -/
def nodesAfter (g : AliasGraph) (d : Dir) (n1 n2 n : NodeId) : List NodeId :=
  chainWithin (g.next d) (fun x => x == n1 || x == n2) g.entries n

/-- Merging `n1` into `n2` puts no link back where one has come in, and merges
    nothing back into `n1`:

    * if the nodes after `n2` lead back to `n2`, this ring is no shorter than the
      nodes after `n1` and the nodes before `n1`;
    * if they lead to `n1`, they are more than the nodes after `n1`, or these
      lead on to `n2` and are the longer part of the ring;
    * if the nodes after `n1` lead to `n2`, they are no more than those after
      `n2`, or no fewer than those before `n1`. -/
def ChainSafe (g : AliasGraph) (n1 n2 : NodeId) : Prop :=
  n1 = n2 ∨
    let A := g.nodesAfter .toNode n1 n2 n1
    let B := g.nodesAfter .toNode n1 n2 n2
    let C := g.nodesAfter .fromNode n1 n2 n1
    (n2 ∈ B → A.length ≤ B.length ∧ C.length ≤ B.length) ∧
      (n1 ∈ B → A.length < B.length ∨ n2 ∈ A ∧ B.length < A.length) ∧
      (n2 ∈ A → A.length ≤ B.length ∨ C.length ≤ A.length)

instance (g : AliasGraph) (n1 n2 : NodeId) : Decidable (g.ChainSafe n1 n2) := by
  unfold ChainSafe; infer_instance

/-- The two edge maps mirror each other. -/
def Mirrored (g : AliasGraph) : Prop := Inverse (g.next .toNode) (g.next .fromNode)

theorem Mirrored.inverse {g : AliasGraph} (h : g.Mirrored) (d : Dir) :
    Inverse (g.next d) (g.next d.rev) := by
  cases d
  · exact h
  · exact h.symm

theorem mirrored_of_inverse {g : AliasGraph} {d : Dir} (h : Inverse (g.next d) (g.next d.rev)) :
    g.Mirrored := by
  cases d
  · exact h
  · exact h.symm

theorem card_keys_le_entries (g : AliasGraph) (d : Dir) : (g.edges d).keys.card ≤ g.entries := by
  cases d
  · exact Nat.le_add_right _ _
  · exact Nat.le_add_left _ _

theorem exists_nodes {g : AliasGraph} (h : g.Mirrored) (d : Dir) (n1 n2 : NodeId) {n : NodeId}
    (hn : n ∈ ({n1, n2} : Set NodeId)) : ∃ l, Chain (g.next d) {n1, n2} n l :=
  exists_chain (h.inverse d) (fun _ b hab => mem_keys_iff.2 ⟨b, hab⟩) hn

theorem nodesAfter_eq {g : AliasGraph} (h : g.Mirrored) {d : Dir} {n1 n2 n : NodeId}
    {l : List NodeId} (hl : Chain (g.next d) {n1, n2} n l) : g.nodesAfter d n1 n2 n = l := by
  refine chainWithin_eq (hl.congr_stop (by simp)) ?_
  refine (hl.length_le (h.inverse d) fun b hb => ?_).trans (card_keys_le_entries g d.rev)
  obtain ⟨a, ha⟩ := Option.ne_none_iff_exists'.1 hb
  exact mem_keys_iff.2 ⟨a, ha⟩

/-- Connected by edges. -/
def Connected (g : AliasGraph) : NodeId → NodeId → Prop := Linked (g.next .toNode)

section
variable {g : AliasGraph} {n1 n2 : NodeId}

/-- **Completeness of one merge.**  Where no merge is blocked and the chains are
    safe, the maps still mirror each other, and values whose nodes were
    connected, counting `n1` and `n2` as connected, have connected nodes. -/
theorem mergeNode_connected (h : g.Mirrored) (hsafe : g.ChainSafe n1 n2)
    (hb : (mergeNode tg n1 n2 g).NumTBAABlockedMerges = g.NumTBAABlockedMerges) :
    (mergeNode tg n1 n2 g).Mirrored ∧
      ∀ u v x y, u ∈ g.aliasclass x → v ∈ g.aliasclass y → Joined (g.next .toNode) n1 n2 x y →
        ∃ x' y', u ∈ (mergeNode tg n1 n2 g).aliasclass x' ∧
          v ∈ (mergeNode tg n1 n2 g).aliasclass y' ∧ (mergeNode tg n1 n2 g).Connected x' y' := by
  by_cases hn : n1 = n2
  · subst hn
    have heq : mergeNode tg n1 n1 g = g.inheritTag n1 n1 := by
      rw [mergeNode_eq, mergeBody] at hb ⊢
      split at hb
      · rename_i hgate
        rw [if_pos hgate, if_pos rfl]
      · simp at hb
    rw [heq]
    refine ⟨?_, fun u v x y hu hv hxy => ⟨x, y, by simpa using hu, by simpa using hv, ?_⟩⟩
    · unfold Mirrored
      rw [next_inheritTag, next_inheritTag]; exact h
    · unfold Connected
      rw [next_inheritTag]
      exact Joined.of_linked (.refl _) hxy
  -- the chains before the merge, and those before its second half
  obtain ⟨A, hA⟩ := exists_nodes h .toNode n1 n2 (Or.inl rfl)
  obtain ⟨B, hB⟩ := exists_nodes h .toNode n1 n2 (Or.inr rfl)
  obtain ⟨C, hC⟩ := exists_nodes h .fromNode n1 n2 (Or.inl rfl)
  have hsafe := hsafe.resolve_left hn
  rw [nodesAfter_eq h hA, nodesAfter_eq h hB, nodesAfter_eq h hC] at hsafe
  obtain ⟨hringB, hback, hringA⟩ := hsafe
  obtain ⟨hb1, hb2⟩ := blocked_halves hn hb
  rw [mergeNode_eq_halves hn hb]
  have hm1 := mergeEdges_merged (g := g.moved n1 n2) (by simpa using h.inverse .toNode) hn
    (by simpa using hA) (by simpa using hB) (fun h2 => (hringB h2).1) hb1
  generalize mergeEdges (mergeNode tg) .toNode n1 n2 (g.moved n1 n2) = g1 at hm1 hb1 hb2 ⊢
  have h1 : g1.Mirrored := hm1.spliced.inverse
  have hs1 := hm1.spliced
  rw [next_moved, next_moved] at hs1
  obtain ⟨C', hC'⟩ := exists_nodes h1 .fromNode n1 n2 (Or.inl rfl)
  obtain ⟨D', hD'⟩ := exists_nodes h1 .fromNode n1 n2 (Or.inr rfl)
  have hm2 := mergeEdges_merged (h1.inverse .fromNode) hn hC' hD' 
    (hs1.prev_bound hn hA hB hD' h hC hC' hringB hringA) hb2
  generalize mergeEdges (mergeNode tg) .fromNode n1 n2 g1 = g2 at hm2 hb2 ⊢
  have h2 : g2.Mirrored := hm2.spliced.inverse.symm
  have hs2 := hm2.spliced
  have hmove : ∀ u x, u ∈ g.aliasclass x → ∃ x1 x2, MovesTo A B (if x = n1 then n2 else x) x1 ∧
      MovesTo C' D' x1 x2 ∧ u ∈ g2.aliasclass x2 := by
    intro u x hu
    obtain ⟨x1, hu1, hx1⟩ := hm1.kept u _ (mem_moved hn hu)
    obtain ⟨x2, hu2, hx2⟩ := hm2.kept u _ hu1
    exact ⟨x1, x2, hx1, hx2, hu2⟩
  refine ⟨h2, fun u v x y hu hv hxy => ?_⟩
  obtain ⟨x1, x2, hx1, hx2, hu2⟩ := hmove u x hu
  obtain ⟨y1, y2, hy1, hy2, hv2⟩ := hmove v y hv
  refine ⟨x2, y2, hu2, hv2, ?_⟩
  have hstart : ∀ z, Joined (g.next .toNode) n1 n2 (if z = n1 then n2 else z) z := by
    intro z
    split
    case isTrue hz => exact .symm _ _ (.rel _ _ (Or.inr ⟨hz, rfl⟩))
    · exact .refl _
  have hxy0 := (hstart x).trans _ _ _ (hxy.trans _ _ _ ((hstart y).symm _ _))
  have hxy1 := hs1.joined h hA hB hxy0 hx1 hy1
  have hxy2 := hs2.joined (h1.inverse .fromNode) hC' hD' (hxy1.rev h1) hx2 hy2
  rcases hs1.n1_left hn hA hB hD' hC' hs2 hback with ⟨hto, hfrom, h1B, h1D⟩ | hlink
  · -- `n1` is out of the graph, and holds no value
    have hempty : ∀ z w, z ∈ g2.aliasclass w → w ≠ n1 := by
      rintro z w hz rfl
      rcases hm2.grown z w hz with hz | hz
      · rcases hm1.grown z w hz with hz | hz
        · rw [aliasclass_moved, if_pos rfl] at hz; simp at hz
        · exact h1B hz
      · exact h1D (List.mem_of_mem_take hz)
    exact (hxy2.linked h2.symm hfrom hto (hempty u x2 hu2) (hempty v y2 hv2)).rev h2.symm
  · exact (Joined.of_linked hlink hxy2).rev h2.symm

end

end TFA.AliasGraph
