/-
  What holds in every alias graph, whatever the merges and the tags.

  * `partition_run`: the classes are a partition of the handled values, and
    `NodeMap` is its map;
  * `Grouped R P`: nodes fall into groups that no edge leaves, and values of one
    group are related by the equivalence generated by `R`;
  * `mem_getClusterValues_sound`: the operands handled so far relate all values of
    a cluster.  Merges on unsafe chains and refused merges may lose values, but
    add none.
-/
import TFA.Alias.Tags

namespace TFA

open AliasGraph

namespace AliasGraph

variable {tg : TBAAGraph} {R : Value → Value → Prop} {P : NodeId → NodeId → Prop}
  {g g' : AliasGraph} {p q v V : Value} {n1 n2 a b : NodeId}

/-! ## Groups -/

/-- `P` groups the nodes: edges stay within a group, nodes that are not allocated
    are alone, and `R` relates the values of a group. -/
structure Grouped (R : Value → Value → Prop) (P : NodeId → NodeId → Prop) (g : AliasGraph) :
    Prop where
  equiv : Equivalence P
  edges : EdgesWithin P g
  values : ∀ v w x y, v ∈ g.aliasclass x → w ∈ g.aliasclass y → P x y → Relation.EqvGen R v w
  isolated : ∀ x y, g.fresh ≤ x → P x y → y = x

theorem grouped_empty : Grouped (fun _ _ => False) Eq {} where
  equiv := ⟨fun _ => rfl, fun h => h.symm, fun h h' => h.trans h'⟩
  edges d a b hab := by cases d <;> cases hab
  values v w x y hv := by simp [aliasclass] at hv
  isolated x y _ h := h.symm

theorem eqvGen_adjoin_mono {u w : Value} (h : Relation.EqvGen R u w) :
    Relation.EqvGen (Adjoin R p q) u w :=
  h.mono fun _ _ hr => Or.inl hr

theorem SameShape.grouped (h : SameShape g g') (hg : Grouped R P g) : Grouped R P g' where
  equiv := hg.equiv
  edges d a b hab := by
    rw [h.next] at hab
    exact hg.edges d a b hab
  values v w x y hv hw := by
    rw [h.aliasclass] at hv hw
    exact hg.values v w x y hv hw
  isolated x y hx := by
    rw [h.fresh] at hx
    exact hg.isolated x y hx

theorem Grouped.adjoin (h : Grouped R P g) (p q : Value) : Grouped (Adjoin R p q) P g where
  equiv := h.equiv
  edges := h.edges
  values v w x y hv hw hxy := eqvGen_adjoin_mono (h.values v w x y hv hw hxy)
  isolated := h.isolated

/-- A value without a node gets a node of its own. -/
theorem Grouped.nodeOf (h : Grouped R P g) (hs : g.Sane) (V : Value) :
    Grouped R P (g.nodeOf V).2 := by
  cases hV : g.getNode V with
  | some n => rw [nodeOf_of_some hV]; exact h
  | none =>
    rw [nodeOf_of_none hV]
    have hempty : g.aliasclass g.fresh = ∅ := by
      rw [aliasclass, hs.nodes g.fresh (Nat.le_refl _)]
    have hmem : ∀ v x, v ∈ ({ g with fresh := g.fresh + 1 }.insertValue g.fresh V).aliasclass x →
        (x = g.fresh ∧ v = V) ∨ v ∈ g.aliasclass x := by
      intro v x hv
      rw [aliasclass_insertValue] at hv
      split at hv
      case isTrue hx =>
        rcases Finset.mem_insert.1 hv with rfl | hv
        · exact Or.inl ⟨hx, rfl⟩
        · exact Or.inr (hx ▸ hv)
      · exact Or.inr hv
    refine ⟨h.equiv, fun d a b hab => ?_, fun v w x y hv hw hxy => ?_, fun x y hx => ?_⟩
    · rw [next_insertValue] at hab
      exact h.edges d a b (by cases d <;> exact hab)
    · rcases hmem v x hv with ⟨rfl, rfl⟩ | hvx <;> rcases hmem w y hw with ⟨rfl, rfl⟩ | hwy
      · exact .refl _
      · rw [h.isolated _ _ (Nat.le_refl _) hxy, hempty] at hwy
        cases hwy
      · rw [h.isolated _ _ (Nat.le_refl _) (h.equiv.symm hxy), hempty] at hvx
        cases hvx
      · exact h.values v w x y hvx hwy hxy
    · exact h.isolated x y (Nat.le_of_succ_le hx)

/-- A moved value without a node enters the class of the other one. -/
theorem Grouped.insertValue (h : Grouped R P g) (hq : q ∈ g.aliasclass n2) (p : Value) :
    Grouped (Adjoin R p q) P (g.insertValue n2 p) := by
  have hpq : Relation.EqvGen (Adjoin R p q) p q := .rel _ _ (Or.inr ⟨rfl, rfl⟩)
  have hmem : ∀ v x, v ∈ (g.insertValue n2 p).aliasclass x →
      ∃ v', v' ∈ g.aliasclass x ∧ Relation.EqvGen (Adjoin R p q) v v' := by
    intro v x hv
    rw [aliasclass_insertValue] at hv
    split at hv
    case isTrue hx =>
      rcases Finset.mem_insert.1 hv with rfl | hv
      · exact ⟨q, hx ▸ hq, hpq⟩
      · exact ⟨v, hx ▸ hv, .refl _⟩
    · exact ⟨v, hv, .refl _⟩
  refine ⟨h.equiv, fun d a b hab => ?_, fun v w x y hv hw hxy => ?_, h.isolated⟩
  · rw [next_insertValue] at hab
    exact h.edges d a b hab
  · obtain ⟨v', hv', hvv⟩ := hmem v x hv
    obtain ⟨w', hw', hww⟩ := hmem w y hw
    have hmid := eqvGen_adjoin_mono (p := p) (q := q) (h.values v' w' x y hv' hw' hxy)
    exact .trans _ _ _ hvv (.trans _ _ _ hmid (.symm _ _ hww))

/-- The groups of `n1` and `n2` as one. -/
def JoinGroups (P : NodeId → NodeId → Prop) (n1 n2 : NodeId) : NodeId → NodeId → Prop :=
  Relation.EqvGen fun x y => P x y ∨ x = n1 ∧ y = n2

theorem joinGroups_iff (hP : Equivalence P) {x y : NodeId} : JoinGroups P n1 n2 x y ↔
    P x y ∨ (P x n1 ∧ P n2 y) ∨ (P x n2 ∧ P n1 y) := by
  rw [JoinGroups, Links.eqvGen_adjoin, hP.eqvGen_iff, hP.eqvGen_iff, hP.eqvGen_iff,
    hP.eqvGen_iff, hP.eqvGen_iff]

theorem Grouped.values_join (h : Grouped R P g) (hp : p ∈ g.aliasclass a)
    (hq : q ∈ g.aliasclass b) (h1 : P n1 a) (h2 : P n2 b) {v w : Value} {x y : NodeId}
    (hv : v ∈ g.aliasclass x) (hw : w ∈ g.aliasclass y) (hxy : JoinGroups P n1 n2 x y) :
    Relation.EqvGen (Adjoin R p q) v w := by
  have hpq : Relation.EqvGen (Adjoin R p q) p q := .rel _ _ (Or.inr ⟨rfl, rfl⟩)
  rcases (joinGroups_iff h.equiv).1 hxy with hxy | ⟨hx, hy⟩ | ⟨hx, hy⟩
  · exact eqvGen_adjoin_mono (h.values v w x y hv hw hxy)
  · have hvp := eqvGen_adjoin_mono (p := p) (q := q) (h.values v p x a hv hp (h.equiv.trans hx h1))
    have hqw := eqvGen_adjoin_mono (p := p) (q := q)
      (h.values q w b y hq hw (h.equiv.trans (h.equiv.symm h2) hy))
    exact .trans _ _ _ hvp (.trans _ _ _ hpq hqw)
  · have hvq := eqvGen_adjoin_mono (p := p) (q := q) (h.values v q x b hv hq (h.equiv.trans hx h2))
    have hpw := eqvGen_adjoin_mono (p := p) (q := q)
      (h.values p w a y hp hw (h.equiv.trans (h.equiv.symm h1) hy))
    exact .trans _ _ _ hvq (.trans _ _ _ (.symm _ _ hpq) hpw)

theorem Grouped.isolated_join (h : Grouped R P g) (hlt1 : n1 < g.fresh) (hlt2 : n2 < g.fresh)
    {x y : NodeId} (hx : g.fresh ≤ x) (hxy : JoinGroups P n1 n2 x y) : y = x := by
  rcases (joinGroups_iff h.equiv).1 hxy with hxy | ⟨hxn, -⟩ | ⟨hxn, -⟩
  · exact h.isolated x y hx hxy
  · rw [h.isolated x n1 hx hxn] at hlt1
    exact absurd hlt1 (Nat.not_lt.2 hx)
  · rw [h.isolated x n2 hx hxn] at hlt2
    exact absurd hlt2 (Nat.not_lt.2 hx)

theorem edgesWithin_joinGroups (h : EdgesWithin P g) (n1 n2 : NodeId) :
    EdgesWithin (JoinGroups P n1 n2) g :=
  fun d a b hab => .rel _ _ (Or.inl (h d a b hab))

variable (tg) in
/-- A merge, of whatever outcome, joins two groups at most. -/
theorem Grouped.mergeNode (h : Grouped R P g) (hp : p ∈ g.aliasclass a) (hq : q ∈ g.aliasclass b)
    (h1 : P n1 a) (h2 : P n2 b) (hlt1 : n1 < g.fresh) (hlt2 : n2 < g.fresh) :
    Grouped (Adjoin R p q) (JoinGroups P n1 n2) (mergeNode tg n1 n2 g) := by
  have hequiv : Equivalence (JoinGroups P n1 n2) := Relation.EqvGen.is_equivalence _
  have hfresh : (AliasGraph.mergeNode tg n1 n2 g).fresh = g.fresh :=
    (freshInvariant g.fresh).mergeNode trivial rfl
  obtain ⟨hedges, hgroups⟩ := mergeNode_sameGroups tg hequiv
    (edgesWithin_joinGroups h.edges n1 n2) (.rel n1 n2 (Or.inr ⟨rfl, rfl⟩))
  refine ⟨hequiv, hedges, fun v w x y hv hw hxy => ?_, fun x y hx hxy => ?_⟩
  · obtain ⟨x₀, hv₀, hx₀⟩ := hgroups.back v x hv
    obtain ⟨y₀, hw₀, hy₀⟩ := hgroups.back w y hw
    exact h.values_join hp hq h1 h2 hv₀ hw₀
      (hequiv.trans hx₀ (hequiv.trans hxy (hequiv.symm hy₀)))
  · rw [hfresh] at hx
    exact h.isolated_join hlt1 hlt2 hx hxy

theorem Grouped.link (h : Grouped R P g) (hp : p ∈ g.aliasclass a) (hq : q ∈ g.aliasclass b)
    (h1 : P n1 a) (h2 : P n2 b) (hlt1 : n1 < g.fresh) (hlt2 : n2 < g.fresh) :
    Grouped (Adjoin R p q) (JoinGroups P n1 n2) (g.link .toNode n2 n1) := by
  have hequiv : Equivalence (JoinGroups P n1 n2) := Relation.EqvGen.is_equivalence _
  have hjoin : JoinGroups P n1 n2 n1 n2 := .rel _ _ (Or.inr ⟨rfl, rfl⟩)
  have hclass : (g.link .toNode n2 n1).aliasclass = g.aliasclass := aliasclass_congr (by simp)
  refine ⟨hequiv, fun d a b hab => ?_, fun v w x y hv hw hxy => ?_, fun x y hx hxy => ?_⟩
  · rw [next_link] at hab
    split at hab
    case isTrue ha => rw [ha.2, ← Option.some.inj hab]; exact hequiv.symm hjoin
    · split at hab
      case isTrue ha => rw [ha.2, ← Option.some.inj hab]; exact hjoin
      · exact edgesWithin_joinGroups h.edges n1 n2 d a b hab
  · rw [hclass] at hv hw
    exact h.values_join hp hq h1 h2 hv hw hxy
  · rw [fresh_link] at hx
    exact h.isolated_join hlt1 hlt2 hx hxy

theorem Grouped.mono {R' : Value → Value → Prop} (h : Grouped R P g) (hR : ∀ a b, R a b → R' a b) :
    Grouped R' P g where
  equiv := h.equiv
  edges := h.edges
  values v w x y hv hw hxy := (h.values v w x y hv hw hxy).mono hR
  isolated := h.isolated

/-- The search of a cluster stays in the group it starts in. -/
theorem EdgesWithin.mem_cluster (h : EdgesWithin P g) (hP : Equivalence P) {u : Value}
    (hv : v ∈ g.getClusterValues u ∅) :
    ∃ n m, g.getNode u = some n ∧ P n m ∧ v ∈ g.aliasclass m := by
  cases hu : g.getNode u with
  | none => simp [getClusterValues, hu] at hv
  | some n =>
    simp only [getClusterValues, hu, Finset.mem_biUnion] at hv
    obtain ⟨m, hm, hvm⟩ := hv
    rw [getClusterNodes, Finset.empty_union, Worklist.mem_bfs_iff (search_enough n)] at hm
    have hreach : ∀ m, Relation.ReflTransGen (Worklist.Step g.neighbours) n m → P n m := by
      intro m hm
      induction hm with
      | refl => exact hP.refl n
      | tail _ hbc ih =>
        obtain ⟨d, hd⟩ := mem_neighbours.1 hbc
        exact hP.trans ih (h d _ _ hd)
    exact ⟨n, m, rfl, hreach m hm, hvm⟩

/-- A cluster is part of a group. -/
theorem Grouped.mem_cluster (h : Grouped R P g) (hg : g.Consistent) {u : Value}
    (hv : v ∈ g.getClusterValues u ∅) : Relation.EqvGen R u v := by
  obtain ⟨n, m, hu, hnm, hvm⟩ := h.edges.mem_cluster h.equiv hv
  exact h.values u v n m ((hg u n).1 hu) hvm hnm

/-! ## Values that have a node -/

theorem isSome_insertValue (g : AliasGraph) (n : NodeId) (V : Value) :
    ((g.insertValue n V).getNode v).isSome ↔ v = V ∨ (g.getNode v).isSome := by
  rw [getNode_insertValue]
  split <;> simp_all

theorem isSome_nodeOf (g : AliasGraph) (V : Value) :
    ((g.nodeOf V).2.getNode v).isSome ↔ v = V ∨ (g.getNode v).isSome := by
  cases hV : g.getNode V with
  | some n =>
    rw [nodeOf_of_some hV]
    constructor
    · exact Or.inr
    · rintro (rfl | h)
      · rw [hV]; rfl
      · exact h
  | none =>
    rw [nodeOf_of_none hV]
    exact isSome_insertValue _ _ _

variable (tg) in
/-- A merge takes no value out of `NodeMap`, and puts none in. -/
theorem isSome_mergeNode (h : g.Consistent) (n1 n2 : NodeId) (v : Value) :
    ((AliasGraph.mergeNode tg n1 n2 g).getNode v).isSome ↔ (g.getNode v).isSome := by
  have h' : (AliasGraph.mergeNode tg n1 n2 g).Consistent := consistentInvariant.mergeNode trivial h
  have hP : Equivalence fun _ _ : NodeId => True :=
    ⟨fun _ => trivial, fun _ => trivial, fun _ _ => trivial⟩
  have hedges : EdgesWithin (fun _ _ => True) g := fun _ _ _ _ => trivial
  have hgroups : SameGroups (fun _ _ => True) g (AliasGraph.mergeNode tg n1 n2 g) :=
    (mergeNode_sameGroups tg hP hedges trivial).2
  rw [Option.isSome_iff_exists, Option.isSome_iff_exists]
  constructor
  · rintro ⟨y, hy⟩
    obtain ⟨x, hx, -⟩ := hgroups.back v y ((h' v y).1 hy)
    exact ⟨x, (h v x).2 hx⟩
  · rintro ⟨x, hx⟩
    obtain ⟨y, hy, -⟩ := hgroups.forth v x ((h v x).1 hx)
    exact ⟨y, (h' v y).2 hy⟩

end AliasGraph

namespace AliasCall

variable {tg : TBAAGraph} {kind : Value → ValueKind} {R : Value → Value → Prop}
  {P : NodeId → NodeId → Prop} {g : AliasGraph} {c : AliasCall} {cs : List AliasCall}
  {p q v : Value} {n1 n2 : NodeId}

/-- The values that a call gives a node. -/
def values (kind : Value → ValueKind) : AliasCall → List Value
  | .alloc ALI => [ALI]
  | .load LI op _ => [LI, op]
  | .store vop pop _ | .storeValues vop pop => if kind vop = .constantData then [] else [vop, pop]
  | .move v1 v2 => [v1, v2]

variable (tg) in
theorem isSome_prepare (c : AliasCall) (g : AliasGraph) (v : Value) :
    ((c.prepare tg kind g).getNode v).isSome ↔ v ∈ c.values kind ∨ (g.getNode v).isSome := by
  have hpair : ∀ V W, (((g.nodeOf V).2.nodeOf W).2.getNode v).isSome ↔
      v ∈ [V, W] ∨ (g.getNode v).isSome := by
    intro V W
    rw [isSome_nodeOf, isSome_nodeOf, List.mem_pair]
    tauto
  cases c with
  | alloc ALI =>
    rw [values, List.mem_singleton]
    exact isSome_nodeOf g ALI
  | load LI op tag =>
    rw [getNode_congr (NodeMap_prepare_load tg kind LI op tag g)]
    exact hpair LI op
  | store vop pop tag =>
    by_cases hc : kind vop = .constantData
    · simp [prepare, values, hc]
    · rw [getNode_congr (NodeMap_prepare_store tg hc pop tag g), values, if_neg hc]
      exact hpair vop pop
  | storeValues vop pop =>
    by_cases hc : kind vop = .constantData
    · simp [prepare, values, hc]
    · simp only [prepare, values, hc, if_false]
      exact hpair vop pop
  | move v1 v2 =>
    have h2 := isSome_nodeOf (v := v) g v2
    unfold prepare
    dsimp only
    rw [values, List.mem_pair]
    split
    · rw [isSome_insertValue, h2]
      tauto
    case h_2 n h1 =>
      rw [h2]
      constructor
      · tauto
      · rintro ((rfl | h) | h)
        · rw [← h2, h1]; rfl
        · exact Or.inl h
        · exact Or.inr h

variable (tg) in
theorem isSome_handle (h : g.Sane) (c : AliasCall) (v : Value) :
    ((c.handle tg kind g).getNode v).isSome ↔ v ∈ c.values kind ∨ (g.getNode v).isSome := by
  rw [handle_eq, ← isSome_prepare tg]
  cases joinOf kind (c.prepare tg kind g) c with
  | none => exact Iff.rfl
  | merge n1 n2 => exact isSome_mergeNode tg (sane_prepare tg kind h c).consistent n1 n2 v
  | link n1 n2 => rw [Join.apply, getNode_congr (NodeMap_link _ _ _ _)]

variable (tg kind) in
theorem sane_run (h : g.Sane) (cs : List AliasCall) : (run tg kind cs g).Sane := by
  induction cs generalizing g with
  | nil => exact h
  | cons c cs ih => exact ih (sane_handle tg kind h c)

variable (tg) in
theorem isSome_run (h : g.Sane) (cs : List AliasCall) (v : Value) :
    ((run tg kind cs g).getNode v).isSome ↔
      (∃ c ∈ cs, v ∈ c.values kind) ∨ (g.getNode v).isSome := by
  induction cs generalizing g with
  | nil => simp [run]
  | cons c cs ih =>
    have hrun : run tg kind (c :: cs) g = run tg kind cs (c.handle tg kind g) := rfl
    rw [hrun, ih (sane_handle tg kind h c), isSome_handle tg h c v]
    simp only [List.mem_cons, exists_eq_or_imp]
    rw [or_left_comm, or_assoc]

/-- **The partition.**  In every run, whatever the tags and the merges, `NodeMap`
    maps a value to the node whose class holds it; so the classes are disjoint,
    and they hold the values that the calls have given a node. -/
theorem partition_run (tg : TBAAGraph) (kind : Value → ValueKind) (cs : List AliasCall) :
    (∀ v n, (run tg kind cs {}).getNode v = some n ↔ v ∈ (run tg kind cs {}).aliasclass n) ∧
      (∀ m n, m ≠ n → Disjoint ((run tg kind cs {}).aliasclass m)
        ((run tg kind cs {}).aliasclass n)) ∧
      ∀ v, (∃ n, v ∈ (run tg kind cs {}).aliasclass n) ↔ ∃ c ∈ cs, v ∈ c.values kind := by
  have h := (sane_run tg kind sane_empty cs).consistent
  refine ⟨h, fun m n hmn => ?_, fun v => ?_⟩
  · rw [Finset.disjoint_left]
    intro v hm hn
    exact hmn (Option.some.inj (((h v m).2 hm).symm.trans ((h v n).2 hn)))
  · have hv : ((run tg kind cs {}).getNode v).isSome ↔ _ := isSome_run tg sane_empty cs v
    rw [Option.isSome_iff_exists] at hv
    simp only [h v] at hv
    rw [hv]
    simp [getNode]

/-! ## Clusters relate no more than the operands -/

variable (tg kind) in
theorem grouped_prepare_load (h : Grouped R P g) (hs : g.Sane) (LI op : Value)
    (tag : Option MDNode) : Grouped R P ((AliasCall.load LI op tag).prepare tg kind g) := by
  have hs2 := (hs.nodeOf LI).nodeOf op
  obtain ⟨hn1, hn2⟩ := getNode_nodeOf_pair g LI op
  exact (sameShape_prepare_load tg kind (hs2.lt_fresh hn1) (hs2.lt_fresh hn2) tag).grouped
    ((h.nodeOf hs LI).nodeOf (hs.nodeOf LI) op)

variable (tg) in
theorem grouped_prepare_store (h : Grouped R P g) (hs : g.Sane) {vop : Value}
    (hv : kind vop ≠ .constantData) (pop : Value) (tag : Option MDNode) :
    Grouped R P ((AliasCall.store vop pop tag).prepare tg kind g) := by
  have hs2 := (hs.nodeOf vop).nodeOf pop
  obtain ⟨hn1, hn2⟩ := getNode_nodeOf_pair g vop pop
  exact (sameShape_prepare_store tg hv (hs2.lt_fresh hn1) (hs2.lt_fresh hn2) tag).grouped
    ((h.nodeOf hs vop).nodeOf (hs.nodeOf vop) pop)

variable (tg) in
theorem grouped_pointJoin (h : Grouped R P g) (hs : g.Sane) (hp : g.getNode p = some n1)
    (hq : g.getNode q = some n2) :
    ∃ P', Grouped (Adjoin R p q) P' ((pointJoin g n1 n2).apply tg g) := by
  have hp' := (hs.consistent p n1).1 hp
  have hq' := (hs.consistent q n2).1 hq
  have hlt1 := hs.lt_fresh hp
  have hlt2 := hs.lt_fresh hq
  unfold pointJoin
  cases hto : g.next .toNode n2 with
  | some t =>
    exact ⟨_, h.mergeNode tg hp' hq' (h.equiv.refl _) (h.equiv.symm (h.edges _ _ _ hto)) hlt1
      (hs.edges _ _ _ hto).2⟩
  | none =>
    cases hfrom : g.next .fromNode n1 with
    | some f =>
      exact ⟨_, h.mergeNode tg hp' hq' (h.equiv.symm (h.edges _ _ _ hfrom)) (h.equiv.refl _)
        (hs.edges _ _ _ hfrom).2 hlt2⟩
    | none => exact ⟨_, h.link hp' hq' (h.equiv.refl _) (h.equiv.refl _) hlt1 hlt2⟩

variable (tg) in
theorem grouped_storeJoin (h : Grouped R P g) (hs : g.Sane) (hp : g.getNode p = some n1)
    (hq : g.getNode q = some n2) :
    ∃ P', Grouped (Adjoin R p q) P'
      ((if g.checkNodeConnectivity n1 n2 then .none else pointJoin g n1 n2 : Join).apply tg g) := by
  split
  · exact ⟨P, h.adjoin p q⟩
  · exact grouped_pointJoin tg h hs hp hq

variable (tg) in
/-- A call, of whatever outcome, relates its operands at most. -/
theorem grouped_handle (h : Grouped R P g) (hs : g.Sane) (c : AliasCall) :
    ∃ P', Grouped (fun a b => R a b ∨ c.operands kind = some (a, b)) P' (c.handle tg kind g) := by
  have hpair : ∀ {p q P' g'}, c.operands kind = some (p, q) → Grouped (Adjoin R p q) P' g' →
      Grouped (fun a b => R a b ∨ c.operands kind = some (a, b)) P' g' := by
    intro p q P' g' hpq hg'
    refine hg'.mono ?_
    rintro a b (hab | ⟨rfl, rfl⟩)
    · exact Or.inl hab
    · exact Or.inr hpq
  have hs' := sane_prepare tg kind hs c
  rw [handle_eq]
  cases c with
  | alloc ALI => exact ⟨P, (h.nodeOf hs ALI).mono fun a b hab => Or.inl hab⟩
  | load LI op tag =>
    obtain ⟨h1, h2⟩ := getNode_prepare_load tg kind LI op tag g
    simp only [joinOf, h1, h2]
    obtain ⟨P', hP'⟩ := grouped_pointJoin tg (grouped_prepare_load tg kind h hs LI op tag) hs' h1 h2
    exact ⟨P', hpair rfl hP'⟩
  | store vop pop tag =>
    by_cases hc : kind vop = .constantData
    · simp only [joinOf, prepare, hc, if_true, Join.apply]
      exact ⟨P, h.mono fun a b hab => Or.inl hab⟩
    · obtain ⟨h1, h2⟩ := getNode_prepare_store tg hc pop tag g
      simp only [joinOf, hc, if_false, h1, h2]
      obtain ⟨P', hP'⟩ := grouped_storeJoin tg (grouped_prepare_store tg h hs hc pop tag) hs' h1 h2
      exact ⟨P', hpair (if_neg hc) hP'⟩
  | storeValues vop pop =>
    by_cases hc : kind vop = .constantData
    · simp only [joinOf, prepare, hc, if_true, Join.apply]
      exact ⟨P, h.mono fun a b hab => Or.inl hab⟩
    · obtain ⟨h1, h2⟩ := getNode_nodeOf_pair g vop pop
      simp only [joinOf, prepare, hc, if_false, h1, h2]
      obtain ⟨P', hP'⟩ := grouped_storeJoin tg ((h.nodeOf hs vop).nodeOf (hs.nodeOf vop) pop)
        ((hs.nodeOf vop).nodeOf pop) h1 h2
      exact ⟨P', hpair (if_neg hc) hP'⟩
  | move v1 v2 =>
    have hg := h.nodeOf hs v2
    have hsg := hs.nodeOf v2
    have h2 : (g.nodeOf v2).2.getNode v2 = some (g.nodeOf v2).1 := getNode_nodeOf_self
    have h2' := (hsg.consistent _ _).1 h2
    cases h1 : (g.nodeOf v2).2.getNode v1 with
    | none =>
      have h12 : v2 ≠ v1 := by rintro rfl; simp at h1
      simp only [joinOf, prepare, h1, getNode_insertValue, h12, if_true, if_false, h2, Join.apply]
      exact ⟨P, hpair rfl (hg.insertValue h2' v1)⟩
    | some node1 =>
      have h1' := (hsg.consistent _ _).1 h1
      simp only [joinOf, prepare, h1, h2]
      split
      · exact ⟨P, hpair rfl (hg.adjoin v1 v2)⟩
      · split
        · exact ⟨P, hpair rfl (hg.adjoin v1 v2)⟩
        · exact ⟨_, hpair rfl (hg.mergeNode tg h1' h2' (hg.equiv.refl _) (hg.equiv.refl _)
            (hsg.lt_fresh h1) (hsg.lt_fresh h2))⟩

variable (tg kind) in
theorem grouped_run (h : Grouped R P g) (hs : g.Sane) (cs : List AliasCall) :
    ∃ P', Grouped (fun a b => R a b ∨ Handled kind cs a b) P' (run tg kind cs g) := by
  induction cs generalizing R P g with
  | nil => exact ⟨P, h.mono fun a b hab => Or.inl hab⟩
  | cons c cs ih =>
    obtain ⟨P', hP'⟩ := grouped_handle tg h hs c
    obtain ⟨P'', hP''⟩ := ih hP' (sane_handle tg kind hs c)
    refine ⟨P'', hP''.mono ?_⟩
    rintro a b ((hab | hop) | ⟨c', hc', hop⟩)
    · exact Or.inl hab
    · exact Or.inr ⟨c, List.mem_cons_self, hop⟩
    · exact Or.inr ⟨c', List.mem_cons_of_mem _ hc', hop⟩

/-- **Soundness of every run.**  Values share a cluster only if the handled
    operands relate them. -/
theorem mem_getClusterValues_sound (tg : TBAAGraph) (kind : Value → ValueKind)
    (cs : List AliasCall) {u v : Value} (hv : v ∈ (run tg kind cs {}).getClusterValues u ∅) :
    Relation.EqvGen (Handled kind cs) u v := by
  obtain ⟨P, hP⟩ := grouped_run tg kind grouped_empty sane_empty cs
  refine (hP.mem_cluster (sane_run tg kind sane_empty cs).consistent hv).mono ?_
  rintro a b (hab | hab)
  · exact hab.elim
  · exact hab

end AliasCall

end TFA
