/-
  Clusters of the alias graph.

  * `WellFormed`: `NodeMap` agrees with the classes, the edge maps mirror each
    other, and nothing is known of nodes not allocated yet; every handler keeps
    this on `ChainSafe` merges;
  * `mem_getClusterValues`, `checkNodeConnectivity_iff`: the searches compute
    connectivity;
  * `Represents R`: values share a cluster exactly when the equivalence generated
    by `R` relates them (`Represents.mem_cluster_iff`); `Represents.join` is the
    step of this invariant.
-/
import TFA.Alias.InstHandler

namespace TFA

open Links

namespace AliasGraph

variable {tg : TBAAGraph} {kind : Value → ValueKind}

/-! ## The searches -/

section
variable {g : AliasGraph}

/-- The nodes that edges of a direction lead to. -/
def targets (g : AliasGraph) (d : Dir) : Finset NodeId :=
  (g.edges d).keys.image fun a => (g.next d a).getD 0

theorem mem_targets {d : Dir} {a b : NodeId} (h : g.next d a = some b) : b ∈ g.targets d :=
  Finset.mem_image.2 ⟨a, mem_keys_iff.2 ⟨b, h⟩, by rw [h]; rfl⟩

theorem mem_neighbours {a b : NodeId} : b ∈ g.neighbours a ↔ ∃ d, g.next d a = some b := by
  rw [neighbours, List.mem_append, Option.mem_toList, Option.mem_toList]
  constructor
  · rintro (h | h)
    · exact ⟨.toNode, h⟩
    · exact ⟨.fromNode, h⟩
  · rintro ⟨d | d, h⟩
    · exact Or.inl h
    · exact Or.inr h

theorem search_enough (n : NodeId) : Worklist.Enough g.neighbours
    (insert n (g.targets .toNode ∪ g.targets .fromNode)) g.searchFuel [n] ∅ := by
  refine Worklist.enough_start (k := 2) (fun a _ => ?_) (fun a _ b hb => ?_) (by simp) ?_
  · rw [neighbours, List.length_append]
    have h1 := Option.length_toList_le (o := g.next .toNode a)
    have h2 := Option.length_toList_le (o := g.next .fromNode a)
    omega
  · obtain ⟨d, hd⟩ := mem_neighbours.1 hb
    refine Finset.mem_insert_of_mem (Finset.mem_union.2 ?_)
    cases d
    · exact Or.inl (mem_targets hd)
    · exact Or.inr (mem_targets hd)
  · have h1 : (g.targets .toNode).card ≤ g.ToNodeMap.keys.card := Finset.card_image_le
    have h2 : (g.targets .fromNode).card ≤ g.FromNodeMap.keys.card := Finset.card_image_le
    have h3 := Finset.card_union_le (g.targets .toNode) (g.targets .fromNode)
    have h4 := Finset.card_insert_le n (g.targets .toNode ∪ g.targets .fromNode)
    rw [searchFuel, entries]
    omega

theorem reach_iff_connected (h : g.Mirrored) {a b : NodeId} :
    Relation.ReflTransGen (Worklist.Step g.neighbours) a b ↔ g.Connected a b := by
  have hstep : ∀ {a b}, Worklist.Step g.neighbours a b ↔
      g.next .toNode a = some b ∨ g.next .toNode b = some a := by
    intro a b
    rw [Worklist.Step, mem_neighbours]
    constructor
    · rintro ⟨d | d, hd⟩
      · exact Or.inl hd
      · exact Or.inr ((h b a).2 hd)
    · rintro (hd | hd)
      · exact ⟨.toNode, hd⟩
      · exact ⟨.fromNode, (h b a).1 hd⟩
  constructor
  · intro hr
    induction hr with
    | refl => exact .refl _
    | tail _ hbc ih =>
      rcases hstep.1 hbc with hbc | hbc
      · exact .trans _ _ _ ih (.rel _ _ hbc)
      · exact .trans _ _ _ ih (.symm _ _ (.rel _ _ hbc))
  · have hsymm : ∀ {a b}, Relation.ReflTransGen (Worklist.Step g.neighbours) a b →
        Relation.ReflTransGen (Worklist.Step g.neighbours) b a := by
      intro a b hab
      induction hab with
      | refl => exact .refl
      | tail _ hbc ih => exact .head (hstep.2 (hstep.1 hbc).symm) ih
    intro hc
    induction hc with
    | rel _ _ hab => exact .single (hstep.2 (Or.inl hab))
    | refl => exact .refl
    | symm _ _ _ ih => exact hsymm ih
    | trans _ _ _ _ _ ih1 ih2 => exact ih1.trans ih2

theorem mem_getClusterNodes (h : g.Mirrored) {n m : NodeId} :
    m ∈ g.getClusterNodes n ∅ ↔ g.Connected n m := by
  rw [getClusterNodes, Finset.empty_union, Worklist.mem_bfs_iff (search_enough n),
    reach_iff_connected h]

theorem checkNodeConnectivity_iff (h : g.Mirrored) {n m : NodeId} :
    g.checkNodeConnectivity n m = true ↔ g.Connected n m := by
  rw [checkNodeConnectivity, Worklist.bfsFind_iff (search_enough n)]
  simp [reach_iff_connected h]

theorem mem_getClusterValues (h : g.Mirrored) {u v : Value} {n : NodeId}
    (hu : g.getNode u = some n) :
    v ∈ g.getClusterValues u ∅ ↔ ∃ m, g.Connected n m ∧ v ∈ g.aliasclass m := by
  simp only [getClusterValues, hu, Finset.mem_biUnion, mem_getClusterNodes h]

end

/-! ## Well-formed graphs -/

/-- The invariant of the graphs that the handlers build. -/
structure WellFormed (g : AliasGraph) : Prop where
  consistent : g.Consistent
  mirrored : g.Mirrored
  fresh : ∀ x, g.fresh ≤ x → g.nodes x = {} ∧ ∀ d, g.next d x = none

section
variable {g g' : AliasGraph} {u v : Value} {x y n1 n2 : NodeId}

theorem wellFormed_empty : WellFormed {} where
  consistent := by intro v x; simp [getNode, aliasclass]
  mirrored := by intro a b; simp [next, edges]
  fresh x _ := ⟨rfl, fun d => by cases d <;> rfl⟩

theorem WellFormed.class_unique (h : g.WellFormed) (hx : v ∈ g.aliasclass x)
    (hy : v ∈ g.aliasclass y) : x = y :=
  Option.some.inj (((h.consistent v x).2 hx).symm.trans ((h.consistent v y).2 hy))

theorem WellFormed.lt_fresh_of_class (h : g.WellFormed) (hx : v ∈ g.aliasclass x) :
    x < g.fresh := by
  by_contra hge
  rw [aliasclass, (h.fresh x (Nat.not_lt.1 hge)).1] at hx
  simp at hx

theorem WellFormed.lt_fresh_of_next (h : g.WellFormed) {d : Dir} (hx : g.next d x = some y) :
    x < g.fresh ∧ y < g.fresh := by
  refine ⟨?_, ?_⟩ <;> by_contra hge
  · rw [(h.fresh x (Nat.not_lt.1 hge)).2 d] at hx; cases hx
  · have hy := (h.mirrored.inverse d x y).1 hx
    rw [(h.fresh y (Nat.not_lt.1 hge)).2 d.rev] at hy; cases hy

/-- `g'` holds the values of `g`, and values are connected in `g'` if they are in
    `g` once `n1` and `n2` count as connected. -/
structure JoinedBy (g g' : AliasGraph) (n1 n2 : NodeId) : Prop where
  values : ∀ v, (∃ x, v ∈ g'.aliasclass x) ↔ ∃ x, v ∈ g.aliasclass x
  connected : ∀ u v x y x' y', u ∈ g.aliasclass x → v ∈ g.aliasclass y →
    u ∈ g'.aliasclass x' → v ∈ g'.aliasclass y' →
    (g'.Connected x' y' ↔ Joined (g.next .toNode) n1 n2 x y)

theorem joined_equivalence (nx : NodeId → Option NodeId) (n1 n2 : NodeId) :
    Equivalence (Joined nx n1 n2) := Relation.EqvGen.is_equivalence _

theorem connected_equivalence (g : AliasGraph) : Equivalence g.Connected :=
  Relation.EqvGen.is_equivalence _

theorem joined_of_edge (h : g.Mirrored) {d : Dir} (hxy : g.next d x = some y) :
    Joined (g.next .toNode) n1 n2 x y := by
  cases d
  · exact .rel _ _ (Or.inl hxy)
  · exact .symm _ _ (.rel _ _ (Or.inl ((h y x).2 hxy)))

/-- **One merge.**  On safe chains, and if nothing is blocked, a merge connects
    what was connected and the two nodes, and nothing else. -/
theorem mergeNode_joinedBy (h : g.WellFormed) (hsafe : g.ChainSafe n1 n2) (h1 : n1 < g.fresh)
    (h2 : n2 < g.fresh)
    (hb : (mergeNode tg n1 n2 g).NumTBAABlockedMerges = g.NumTBAABlockedMerges) :
    (mergeNode tg n1 n2 g).WellFormed ∧ JoinedBy g (mergeNode tg n1 n2 g) n1 n2 := by
  obtain ⟨hmir, hconn⟩ := mergeNode_connected h.mirrored hsafe hb
  have hcons : (mergeNode tg n1 n2 g).Consistent :=
    consistentInvariant.mergeNode trivial h.consistent
  have hfresh : (mergeNode tg n1 n2 g).fresh = g.fresh :=
    (freshInvariant g.fresh).mergeNode trivial rfl
  have hout : SameOutside {x | x < g.fresh} g (mergeNode tg n1 n2 g) := by
    refine (sameOutsideInvariant _ g).mergeNode ⟨h1, h2⟩ ⟨fun d a b hab => ?_, by simp, by simp⟩
    exact ⟨fun _ => (h.lt_fresh_of_next hab).2, fun _ => (h.lt_fresh_of_next hab).1⟩
  have hwf : (mergeNode tg n1 n2 g).WellFormed := by
    refine ⟨hcons, hmir, fun x hx => ?_⟩
    rw [hfresh] at hx
    have hx' : x ∉ {x | x < g.fresh} := Nat.not_lt.2 hx
    exact ⟨(hout.nodes x hx').trans (h.fresh x hx).1,
      fun d => (hout.next d x hx').trans ((h.fresh x hx).2 d)⟩
  have hP := joined_equivalence (g.next .toNode) n1 n2
  obtain ⟨hedges, hgroups⟩ := mergeNode_sameGroups tg hP
    (fun d a b hab => joined_of_edge h.mirrored hab) (.rel n1 n2 (Or.inr ⟨rfl, rfl⟩))
  refine ⟨hwf, ⟨fun v => ⟨?_, ?_⟩, ?_⟩⟩
  · rintro ⟨y, hy⟩
    obtain ⟨x, hx, -⟩ := hgroups.back v y hy
    exact ⟨x, hx⟩
  · rintro ⟨x, hx⟩
    obtain ⟨y, hy, -⟩ := hgroups.forth v x hx
    exact ⟨y, hy⟩
  · intro u v x y x' y' hux hvy hux' hvy'
    constructor
    · intro hc
      obtain ⟨x₀, hx₀, hxx⟩ := hgroups.back u x' hux'
      obtain ⟨y₀, hy₀, hyy⟩ := hgroups.back v y' hvy'
      rw [h.class_unique hux hx₀, h.class_unique hvy hy₀]
      refine hP.trans hxx (hP.trans ?_ (hP.symm hyy))
      clear hxx hyy hux' hvy'
      induction hc with
      | rel a b hab => exact hedges .toNode a b hab
      | refl => exact hP.refl _
      | symm _ _ _ ih => exact hP.symm ih
      | trans _ _ _ _ _ ih1 ih2 => exact hP.trans ih1 ih2
    · intro hj
      obtain ⟨x₁, y₁, hx₁, hy₁, hc⟩ := hconn u v x y hux hvy hj
      rw [hwf.class_unique hux' hx₁, hwf.class_unique hvy' hy₁]; exact hc

end

/-! ## What the clusters represent -/

/-- `R` and one more pair. -/
def Adjoin (R : Value → Value → Prop) (p q : Value) (a b : Value) : Prop := R a b ∨ a = p ∧ b = q

/-- The graph holds the values that `R` relates, and values share a cluster
    exactly when the equivalence generated by `R` relates them. -/
structure Represents (R : Value → Value → Prop) (g : AliasGraph) : Prop where
  wf : g.WellFormed
  left : ∀ u v, R u v → ∃ x, u ∈ g.aliasclass x
  right : ∀ u v, R u v → ∃ x, v ∈ g.aliasclass x
  clusters : ∀ u v x y, u ∈ g.aliasclass x → v ∈ g.aliasclass y →
    (g.Connected x y ↔ Relation.EqvGen R u v)

theorem represents_empty : Represents (fun _ _ => False) {} where
  wf := wellFormed_empty
  left := by simp
  right := by simp
  clusters u _ x _ hx := by simp [aliasclass] at hx

/-- `g'` differs from `g` in the tags of allocated nodes and in the counter only. -/
structure SameShape (g g' : AliasGraph) : Prop where
  NodeMap : g'.NodeMap = g.NodeMap
  aliasclass : g'.aliasclass = g.aliasclass
  next : ∀ d, g'.next d = g.next d
  fresh : g'.fresh = g.fresh
  unallocated : ∀ x, g.fresh ≤ x → g'.nodes x = g.nodes x

section
variable {R : Value → Value → Prop} {g g' g'' : AliasGraph} {u v p q : Value}
  {x y n1 n2 a b : NodeId}

theorem SameShape.refl (g : AliasGraph) : SameShape g g :=
  ⟨rfl, rfl, fun _ => rfl, rfl, fun _ _ => rfl⟩

theorem SameShape.trans (h : SameShape g g') (h' : SameShape g' g'') : SameShape g g'' where
  NodeMap := h'.NodeMap.trans h.NodeMap
  aliasclass := h'.aliasclass.trans h.aliasclass
  next d := (h'.next d).trans (h.next d)
  fresh := h'.fresh.trans h.fresh
  unallocated x hx := (h'.unallocated x (h.fresh ▸ hx)).trans (h.unallocated x hx)

theorem sameShape_setTag {n : NodeId} (hn : n < g.fresh) (t : Option MDNode) :
    SameShape g (g.setTag n t) where
  NodeMap := rfl
  aliasclass := by
    funext x
    by_cases hx : x = n
    · subst hx; simp [AliasGraph.aliasclass, setTag]
    · simp [AliasGraph.aliasclass, setTag, hx]
  next d := by cases d <;> rfl
  fresh := rfl
  unallocated x hx := Function.update_of_ne (Nat.ne_of_gt (Nat.lt_of_lt_of_le hn hx)) _ _

theorem sameShape_tagIfNone {n : NodeId} (hn : n < g.fresh) (t : MDNode) :
    SameShape g (tagIfNone n t g) := by
  unfold tagIfNone
  split
  · exact sameShape_setTag hn _
  · exact .refl g

theorem sameShape_tagFunction {F : Value} {n : NodeId} (hF : g.getNode F = some n)
    (hn : n < g.fresh) (t : MDNode) : SameShape g (tagFunction tg F t g) := by
  rw [AliasCall.tagFunction_of_some hF]
  split
  · exact sameShape_setTag hn _
  · split
    · exact sameShape_setTag hn _
    · exact .refl g

theorem sameShape_blocked (g : AliasGraph) :
    SameShape g { g with NumTBAABlockedMerges := g.NumTBAABlockedMerges + 1 } where
  NodeMap := rfl
  aliasclass := rfl
  next d := by cases d <;> rfl
  fresh := rfl
  unallocated _ _ := rfl

theorem SameShape.wellFormed (h : SameShape g g') (hg : g.WellFormed) : g'.WellFormed where
  consistent := hg.consistent.congr h.NodeMap h.aliasclass
  mirrored := by
    have := hg.mirrored
    unfold Mirrored at this ⊢
    rwa [h.next, h.next]
  fresh x hx := by
    rw [h.fresh] at hx
    rw [h.unallocated x hx]
    exact ⟨(hg.fresh x hx).1, fun d => by rw [h.next]; exact (hg.fresh x hx).2 d⟩

theorem SameShape.represents (h : SameShape g g') (hg : Represents R g) : Represents R g' where
  wf := h.wellFormed hg.wf
  left u v huv := by rw [h.aliasclass]; exact hg.left u v huv
  right u v huv := by rw [h.aliasclass]; exact hg.right u v huv
  clusters u v x y hx hy := by
    rw [h.aliasclass] at hx hy
    unfold Connected
    rw [h.next]
    exact hg.clusters u v x y hx hy

/-! ### Values without a node -/

/-- A value without a node is put into the class of `n`, which is new or holds `q`. -/
theorem aliasclass_insertValue (n : NodeId) (V : Value) (x : NodeId) :
    (g.insertValue n V).aliasclass x =
      if x = n then insert V (g.aliasclass n) else g.aliasclass x := by
  by_cases hx : x = n
  · subst hx; simp [aliasclass, insertValue]
  · simp [aliasclass, insertValue, hx]

@[simp] theorem next_insertValue (n : NodeId) (V : Value) (d : Dir) :
    (g.insertValue n V).next d = g.next d := by cases d <;> rfl

theorem consistent_insertValue (h : g.Consistent) {n : NodeId} {V : Value} {k : ℕ}
    (hV : g.getNode V = none) : ({ g with fresh := k }.insertValue n V).Consistent := by
  intro v x
  have hclass : ({ g with fresh := k }.insertValue n V).aliasclass x =
      if x = n then insert V (g.aliasclass n) else g.aliasclass x :=
    aliasclass_insertValue (g := { g with fresh := k }) n V x
  have hnode : ({ g with fresh := k }.insertValue n V).getNode v =
      if v = V then some n else g.getNode v := getNode_insertValue ..
  have hv := h v x
  have hVx := h V x
  have hvn := h v n
  rw [hclass, hnode]
  split <;> split <;> (simp_all; try grind)

theorem wellFormed_insertValue (h : g.WellFormed) {n : NodeId} {V : Value} {k : ℕ}
    (hV : g.getNode V = none) (hn : n < k) (hk : g.fresh ≤ k) :
    ({ g with fresh := k }.insertValue n V).WellFormed := by
  refine ⟨consistent_insertValue h.consistent hV, ?_, fun x hx => ?_⟩
  · have := h.mirrored
    unfold Mirrored at this ⊢
    rw [next_insertValue, next_insertValue]; exact this
  · have hx' : k ≤ x := hx
    obtain ⟨hnodes, hnext⟩ := h.fresh x (Nat.le_trans hk hx')
    refine ⟨?_, fun d => ?_⟩
    · simp only [insertValue]
      rw [Function.update_of_ne (Nat.ne_of_gt (Nat.lt_of_lt_of_le hn hx'))]
      exact hnodes
    · rw [next_insertValue]
      exact hnext d

theorem connected_of_unallocated (h : g.WellFormed) (hx : g.fresh ≤ x) :
    g.Connected x y ↔ y = x := by
  constructor
  · refine Links.eq_of_eqvGen (fun b hb => ?_) fun a ha => ?_
    · rw [(h.fresh x hx).2] at hb; cases hb
    · exact absurd (h.lt_fresh_of_next ha).2 (Nat.not_lt.2 hx)
  · rintro rfl; exact .refl _

theorem Represents.not_related (h : Represents R g) (hv : g.getNode v = none) (w : Value) :
    ¬ R v w ∧ ¬ R w v := by
  have hnone : ∀ x, v ∉ g.aliasclass x := fun x hx => by
    rw [(h.wf.consistent v x).2 hx] at hv; cases hv
  refine ⟨fun hr => ?_, fun hr => ?_⟩
  · obtain ⟨x, hx⟩ := h.left v w hr; exact hnone x hx
  · obtain ⟨x, hx⟩ := h.right w v hr; exact hnone x hx

/-- A value without a node is related to itself only. -/
theorem Represents.related_iff_eq (h : Represents R g) (hv : g.getNode v = none) (w : Value) :
    Relation.EqvGen R v w ↔ w = v := by
  have hnr := h.not_related hv
  constructor
  · exact Links.eq_of_eqvGen (fun b => (hnr b).1) fun a => (hnr a).2
  · rintro rfl
    exact .refl _

/-- A value that `R` does not relate gets a node of its own. -/
theorem Represents.newNode (h : Represents R g) {V : Value} (hV : g.getNode V = none) :
    Represents R ({ g with fresh := g.fresh + 1 }.insertValue g.fresh V) := by
  have hclass : ∀ x, ({ g with fresh := g.fresh + 1 }.insertValue g.fresh V).aliasclass x =
      if x = g.fresh then insert V (g.aliasclass g.fresh) else g.aliasclass x :=
    aliasclass_insertValue (g := { g with fresh := g.fresh + 1 }) g.fresh V
  have hempty : g.aliasclass g.fresh = ∅ := by
    rw [aliasclass, (h.wf.fresh _ (Nat.le_refl _)).1]
  have hmem : ∀ v x, v ∈ ({ g with fresh := g.fresh + 1 }.insertValue g.fresh V).aliasclass x ↔
      (x = g.fresh ∧ v = V) ∨ v ∈ g.aliasclass x := by
    intro v x
    rw [hclass]
    split
    case isTrue hx => rw [hx, hempty]; simp
    case isFalse hx => simp [hx]
  have hconn : ({ g with fresh := g.fresh + 1 }.insertValue g.fresh V).Connected = g.Connected := by
    unfold Connected; rw [next_insertValue]; rfl
  have halone := h.related_iff_eq hV
  have hsep : ∀ {w z}, w ∈ g.aliasclass z → z ≠ g.fresh ∧ w ≠ V := by
    intro w z hw
    refine ⟨fun hz => ?_, fun hw' => ?_⟩
    · rw [hz, hempty] at hw; simp at hw
    · rw [hw', ← h.wf.consistent, hV] at hw; cases hw
  refine ⟨wellFormed_insertValue h.wf hV (Nat.lt_succ_self _) (Nat.le_succ _), ?_, ?_, ?_⟩
  · intro u v huv
    obtain ⟨x, hx⟩ := h.left u v huv
    exact ⟨x, (hmem u x).2 (Or.inr hx)⟩
  · intro u v huv
    obtain ⟨x, hx⟩ := h.right u v huv
    exact ⟨x, (hmem v x).2 (Or.inr hx)⟩
  · intro u v x y hx hy
    rw [hconn]
    rcases (hmem u x).1 hx with ⟨rfl, rfl⟩ | hux <;> rcases (hmem v y).1 hy with ⟨rfl, rfl⟩ | hvy
    · exact ⟨fun _ => .refl _, fun _ => .refl _⟩
    · rw [connected_of_unallocated h.wf (Nat.le_refl _), halone]
      exact ⟨fun hc => absurd hc (hsep hvy).1, fun hc => absurd hc (hsep hvy).2⟩
    · have h1 := connected_of_unallocated (y := x) h.wf (Nat.le_refl _)
      refine ⟨fun hc => absurd (h1.1 (.symm _ _ hc)) (hsep hux).1, fun hc => ?_⟩
      exact absurd ((halone u).1 (.symm _ _ hc)) (hsep hux).2
    · exact h.clusters u v x y hux hvy

theorem Represents.nodeOf (h : Represents R g) (V : Value) : Represents R (g.nodeOf V).2 := by
  cases hV : g.getNode V with
  | some n => rw [nodeOf_of_some hV]; exact h
  | none => rw [nodeOf_of_none hV]; exact h.newNode hV

/-- **The cluster of a value** that has a node. -/
theorem Represents.mem_cluster_iff (h : Represents R g) (hu : (g.getNode u).isSome) :
    v ∈ g.getClusterValues u ∅ ↔ Relation.EqvGen R u v := by
  obtain ⟨x, hx⟩ := Option.isSome_iff_exists.1 hu
  have hux := (h.wf.consistent u x).1 hx
  rw [mem_getClusterValues h.wf.mirrored hx]
  constructor
  · rintro ⟨y, hxy, hvy⟩
    exact (h.clusters u v x y hux hvy).1 hxy
  · intro huv
    cases hv : g.getNode v with
    | some y =>
      have hvy := (h.wf.consistent v y).1 hv
      exact ⟨y, (h.clusters u v x y hux hvy).2 huv, hvy⟩
    | none =>
      have hvu : u = v := (h.related_iff_eq hv u).1 (.symm _ _ huv)
      rw [hvu, hv] at hx
      cases hx

theorem Represents.adjoin_iff (h : Represents R g) (hu : u ∈ g.aliasclass x)
    (hv : v ∈ g.aliasclass y) (hp : p ∈ g.aliasclass a) (hq : q ∈ g.aliasclass b)
    (h1 : g.Connected n1 a) (h2 : g.Connected n2 b) :
    Joined (g.next .toNode) n1 n2 x y ↔ Relation.EqvGen (Adjoin R p q) u v := by
  have heqv := connected_equivalence g
  have hn1 : ∀ z, g.Connected z n1 ↔ g.Connected z a := fun z =>
    ⟨fun hz => heqv.trans hz h1, fun hz => heqv.trans hz (heqv.symm h1)⟩
  have hn2 : ∀ z, g.Connected z n2 ↔ g.Connected z b := fun z =>
    ⟨fun hz => heqv.trans hz h2, fun hz => heqv.trans hz (heqv.symm h2)⟩
  have hcomm : ∀ z w, g.Connected z w ↔ g.Connected w z := fun z w => ⟨heqv.symm, heqv.symm⟩
  have hadjoin : Joined (g.next .toNode) n1 n2 x y ↔ g.Connected x y ∨
      (g.Connected x n1 ∧ g.Connected n2 y) ∨ (g.Connected x n2 ∧ g.Connected n1 y) :=
    eqvGen_adjoin
  rw [hadjoin, hcomm n2 y, hcomm n1 y, hn1, hn1, hn2, hn2, hcomm y b, hcomm y a,
    h.clusters u v x y hu hv, h.clusters u p x a hu hp, h.clusters u q x b hu hq,
    h.clusters q v b y hq hv, h.clusters p v a y hp hv]
  exact eqvGen_adjoin.symm

/-- **The step of the invariant.**  Joining nodes connected to those of `p` and
    `q` adds the pair `(p, q)`. -/
theorem Represents.join (h : Represents R g) (hwf : g'.WellFormed) (hj : JoinedBy g g' n1 n2)
    (hp : p ∈ g.aliasclass a) (hq : q ∈ g.aliasclass b) (h1 : g.Connected n1 a)
    (h2 : g.Connected n2 b) : Represents (Adjoin R p q) g' := by
  refine ⟨hwf, ?_, ?_, ?_⟩
  · rintro u v (huv | ⟨rfl, rfl⟩)
    · exact (hj.values u).2 (h.left u v huv)
    · exact (hj.values u).2 ⟨a, hp⟩
  · rintro u v (huv | ⟨rfl, rfl⟩)
    · exact (hj.values v).2 (h.right u v huv)
    · exact (hj.values v).2 ⟨b, hq⟩
  · intro u v x' y' hx' hy'
    obtain ⟨x, hx⟩ := (hj.values u).1 ⟨x', hx'⟩
    obtain ⟨y, hy⟩ := (hj.values v).1 ⟨y', hy'⟩
    rw [hj.connected u v x y x' y' hx hy hx' hy']
    exact h.adjoin_iff hx hy hp hq h1 h2

theorem joinedBy_refl (h : g.WellFormed) (hn : g.Connected n1 n2) : JoinedBy g g n1 n2 := by
  refine ⟨fun _ => Iff.rfl, fun u v x y x' y' hx hy hx' hy' => ?_⟩
  rw [h.class_unique hx' hx, h.class_unique hy' hy]
  exact ⟨Linked.joined, Joined.of_linked hn⟩

theorem joinedBy_link (h : g.WellFormed) (h1 : n1 < g.fresh) (h2 : n2 < g.fresh)
    (hto : g.next .toNode n2 = none) (hfrom : g.next .fromNode n1 = none) :
    (g.link .toNode n2 n1).WellFormed ∧ JoinedBy g (g.link .toNode n2 n1) n1 n2 := by
  have hclass : (g.link .toNode n2 n1).aliasclass = g.aliasclass := aliasclass_congr (by simp)
  have hnext : ∀ x, (g.link .toNode n2 n1).next .toNode x =
      if x = n2 then some n1 else g.next .toNode x := fun x => by rw [next_link]; simp
  have hprev : ∀ x, (g.link .toNode n2 n1).next .fromNode x =
      if x = n1 then some n2 else g.next .fromNode x := fun x => by
    rw [next_link]; simp [Dir.rev]
  refine ⟨⟨h.consistent.congr (by simp) hclass, fun x y => ?_, fun x hx => ⟨?_, ?_⟩⟩,
    ⟨fun v => by rw [hclass], fun u v x y x' y' hx hy hx' hy' => ?_⟩⟩
  · have hm := h.mirrored x y
    have hm1 := h.mirrored x n1
    have hm2 := h.mirrored n2 y
    rw [hnext, hprev]
    grind
  · rw [nodes_link]; exact (h.fresh x (by simpa using hx)).1
  · have hx' : g.fresh ≤ x := by simpa using hx
    have hxn := h.fresh x hx'
    rintro (d | d)
    · rw [hnext, if_neg (Nat.ne_of_gt (Nat.lt_of_lt_of_le h2 hx'))]; exact hxn.2 _
    · rw [hprev, if_neg (Nat.ne_of_gt (Nat.lt_of_lt_of_le h1 hx'))]; exact hxn.2 _
  · rw [hclass] at hx' hy'
    rw [h.class_unique hx' hx, h.class_unique hy' hy]
    have hrel : (fun a b => (g.link .toNode n2 n1).next .toNode a = some b) =
        fun a b => g.next .toNode a = some b ∨ a = n2 ∧ b = n1 := by
      funext a b
      rw [hnext]
      grind
    have hconn : (g.link .toNode n2 n1).Connected x y ↔ Joined (g.next .toNode) n2 n1 x y := by
      unfold Connected Linked Links.Joined
      rw [hrel]
    rw [hconn]
    unfold Links.Joined
    rw [eqvGen_adjoin, eqvGen_adjoin]
    tauto

end

end AliasGraph

end TFA
