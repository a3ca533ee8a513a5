/-
  Tags under merges.

  Merging two nodes forces the merge of their neighbours, and so on: `Unify` is
  the congruence that this generates on the graph before the merge, and every
  call of `mergeNode` that the merge makes is on two nodes that it relates.

  * `TagsAgree`: no two unified nodes carry disjoint tags; then no merge is
    blocked (`mergeNode_not_blocked`);
  * `Sane` is the part of the invariant of the graph that holds in every run,
    whether its merges are safe or not (`sane_handle`);
  * `tagOf_mergeNode`: the tag of a value after a merge was the tag of a node
    unified with the one that held the value before.
-/
import TFA.Alias.Runs

namespace TFA

open AliasGraph

namespace AliasGraph

variable {tg : TBAAGraph} {kind : Value → ValueKind}

/-! ## Unification -/

/-- One of the maps leads from `a` to `b` in the direction `d`. -/
def EdgeBetween (g : AliasGraph) (d : Dir) (a b : NodeId) : Prop :=
  g.next d a = some b ∨ g.next d.rev b = some a

theorem EdgeBetween.rev {g : AliasGraph} {d : Dir} {a b : NodeId} (h : g.EdgeBetween d a b) :
    g.EdgeBetween d.rev b a := by
  rw [EdgeBetween, Dir.rev_rev]
  exact h.symm

/-- The least congruence that relates `n1` and `n2`. -/
inductive Unify (g : AliasGraph) (n1 n2 : NodeId) : NodeId → NodeId → Prop
  | base : Unify g n1 n2 n1 n2
  | refl (x) : Unify g n1 n2 x x
  | symm {x y} : Unify g n1 n2 x y → Unify g n1 n2 y x
  | trans {x y z} : Unify g n1 n2 x y → Unify g n1 n2 y z → Unify g n1 n2 x z
  | step {d x y x' y'} : Unify g n1 n2 x y → g.EdgeBetween d x x' → g.EdgeBetween d y y' →
      Unify g n1 n2 x' y'

/-- The tags of unified nodes may alias. -/
def TagsAgree (tg : TBAAGraph) (g : AliasGraph) (n1 n2 : NodeId) : Prop :=
  ∀ x y t t', Unify g n1 n2 x y → g.tag x = some t → g.tag y = some t' →
    tg.mayAliasByTBAA t t' = true

section
variable {g g' : AliasGraph} {n1 n2 : NodeId}

theorem unify_equivalence (g : AliasGraph) (n1 n2 : NodeId) : Equivalence (Unify g n1 n2) :=
  ⟨.refl, .symm, .trans⟩

theorem tag_congr (h : g'.nodes = g.nodes) : g'.tag = g.tag := by
  funext x
  rw [tag, h, tag]

theorem tag_setTag (g : AliasGraph) (n : NodeId) (t : Option MDNode) (x : NodeId) :
    (g.setTag n t).tag x = if x = n then t else g.tag x := by
  by_cases hx : x = n
  · subst hx; simp [tag, setTag]
  · simp [tag, setTag, hx]

theorem tag_inheritTag {x : NodeId} {t : MDNode} (h : (g.inheritTag n1 n2).tag x = some t) :
    g.tag x = some t ∨ x = n2 ∧ g.tag n1 = some t := by
  unfold inheritTag at h
  split at h
  case h_1 t' h2 h1 =>
    rw [tag_setTag] at h
    split at h
    case isTrue hx => exact Or.inr ⟨hx, h1.trans h⟩
    · exact Or.inl h
  · exact Or.inl h

/-- `g'` comes from `g` by merging unified nodes: up to unification, its edges are
    edges of `g`, and its tags and values are where they are in `g`. -/
structure UnifiedFrom (g : AliasGraph) (n1 n2 : NodeId) (g' : AliasGraph) : Prop where
  edges : ∀ d a b, g'.next d a = some b →
    ∃ a₀ b₀, Unify g n1 n2 a a₀ ∧ Unify g n1 n2 b b₀ ∧ g.EdgeBetween d a₀ b₀
  tags : ∀ x t, g'.tag x = some t → ∃ x₀, Unify g n1 n2 x x₀ ∧ g.tag x₀ = some t
  groups : SameGroups (Unify g n1 n2) g g'

theorem UnifiedFrom.congr {g'' : AliasGraph} (h : UnifiedFrom g n1 n2 g')
    (hnodes : g''.nodes = g'.nodes) (hedges : ∀ d a b, g''.next d a = some b →
      ∃ a₀ b₀, Unify g n1 n2 a a₀ ∧ Unify g n1 n2 b b₀ ∧ g.EdgeBetween d a₀ b₀) :
    UnifiedFrom g n1 n2 g'' := by
  refine ⟨hedges, ?_, h.groups.congr (aliasclass_congr hnodes)⟩
  rw [tag_congr hnodes]
  exact h.tags

theorem UnifiedFrom.link (h : UnifiedFrom g n1 n2 g') {d : Dir} {a b a₀ b₀ : NodeId}
    (ha : Unify g n1 n2 a a₀) (hb : Unify g n1 n2 b b₀) (hab : g.EdgeBetween d a₀ b₀) :
    UnifiedFrom g n1 n2 (g'.link d a b) := by
  refine h.congr (by simp) ?_
  intro d' x y hxy
  rw [next_link] at hxy
  split at hxy
  case isTrue hx =>
    obtain ⟨rfl, rfl⟩ := hx
    cases hxy
    exact ⟨a₀, b₀, ha, hb, hab⟩
  · split at hxy
    case isTrue hx =>
      obtain ⟨rfl, rfl⟩ := hx
      cases hxy
      exact ⟨b₀, a₀, hb, ha, hab.rev⟩
    · exact h.edges d' x y hxy

/-- Every call that a merge makes is on unified nodes.  The invariant carries a
    property `Q` of the counter that blocked calls have to keep. -/
theorem unifiedInvariant (g : AliasGraph) (n1 n2 : NodeId) (Q : ℕ → Prop)
    (hQ : ∀ k, Q k → Q (k + 1) ∨ TagsAgree tg g n1 n2) :
    MergeInvariant tg (fun g' => UnifiedFrom g n1 n2 g' ∧ Q g'.NumTBAABlockedMerges)
      (Unify g n1 n2) where
  blocked g' a b hab hgate h := by
    refine ⟨h.1.congr rfl ?_, ?_⟩
    · intro d x y hxy
      exact h.1.edges d x y (by cases d <;> exact hxy)
    · rcases hQ _ h.2 with hk | hagree
      · exact hk
      · -- the gate is closed only for two tags that unified nodes have in `g`
        rw [shouldMergeByTBAA] at hgate
        split at hgate
        case h_1 t t' ha hb =>
          obtain ⟨a₀, ha₀, hta⟩ := h.1.tags a t ha
          obtain ⟨b₀, hb₀, htb⟩ := h.1.tags b t' hb
          have := hagree a₀ b₀ t t' (.trans (.symm ha₀) (.trans hab hb₀)) hta htb
          rw [this] at hgate; cases hgate
        · cases hgate
  inherit g' a b hab _ h := by
    refine ⟨⟨?_, ?_, h.1.groups.congr (by simp)⟩, by simpa using h.2⟩
    · intro d x y hxy
      rw [next_inheritTag] at hxy
      exact h.1.edges d x y hxy
    · intro x t hx
      rcases tag_inheritTag hx with hx | ⟨rfl, ha⟩
      · exact h.1.tags x t hx
      · obtain ⟨x₀, hx₀, ht⟩ := h.1.tags a t ha
        exact ⟨x₀, .trans (.symm hab) hx₀, ht⟩
  move g' a b hab hne h := by
    refine ⟨⟨?_, ?_, h.1.groups.move (unify_equivalence g n1 n2) hab hne⟩, h.2⟩
    · intro d x y hxy
      rw [next_moveClass] at hxy
      exact h.1.edges d x y hxy
    · rw [tag_moveClass]
      exact h.1.tags
  erase g' d a b n _ _ h := by
    refine ⟨h.1.congr (by simp) ?_, by simpa using h.2⟩
    intro d' x y hxy
    rw [next_eraseEdge] at hxy
    split at hxy
    · cases hxy
    · exact h.1.edges d' x y hxy
  neighbours g' d a b s t hab h ha hb := by
    obtain ⟨a₀, s₀, haa, hss, h₀⟩ := h.1.edges d a s ha
    obtain ⟨b₀, t₀, hbb, htt, h₁⟩ := h.1.edges d b t hb
    have hab₀ : Unify g n1 n2 a₀ b₀ := .trans (.symm haa) (.trans hab hbb)
    exact .trans hss (.trans (.step hab₀ h₀ h₁) (.symm htt))
  link g₁ g' d a b t hab h₁ ht h' := by
    obtain ⟨b₀, t₀, hbb, htt, h₀⟩ : ∃ b₀ t₀, Unify g n1 n2 b b₀ ∧ Unify g n1 n2 t t₀ ∧
        g.EdgeBetween d b₀ t₀ := by
      rcases ht with ht | ht
      · obtain ⟨a₀, t₀, haa, htt, h₀⟩ := h₁.1.edges d a t ht
        exact ⟨a₀, t₀, .trans (.symm hab) haa, htt, h₀⟩
      · exact h₁.1.edges d b t ht
    exact ⟨h'.1.link hbb htt h₀, by simpa using h'.2⟩

theorem unifiedFrom_self (g : AliasGraph) (n1 n2 : NodeId) : UnifiedFrom g n1 n2 g where
  edges _ a b hab := ⟨a, b, .refl a, .refl b, Or.inl hab⟩
  tags x _ ht := ⟨x, .refl x, ht⟩
  groups := sameGroups_refl (unify_equivalence g n1 n2) g

/-- **No merge is blocked** where the tags of unified nodes agree. -/
theorem mergeNode_not_blocked (h : TagsAgree tg g n1 n2) :
    (mergeNode tg n1 n2 g).NumTBAABlockedMerges = g.NumTBAABlockedMerges :=
  ((unifiedInvariant g n1 n2 (fun k => k = g.NumTBAABlockedMerges)
    fun _ _ => Or.inr h).mergeNode .base ⟨unifiedFrom_self g n1 n2, rfl⟩).2

variable (tg) in
theorem mergeNode_unifiedFrom (g : AliasGraph) (n1 n2 : NodeId) :
    UnifiedFrom g n1 n2 (mergeNode tg n1 n2 g) :=
  ((unifiedInvariant g n1 n2 (fun _ => True) fun _ _ => Or.inl trivial).mergeNode .base
    ⟨unifiedFrom_self g n1 n2, trivial⟩).1

end

/-- The tag of the node of a value. -/
def tagOf (g : AliasGraph) (V : Value) : Option MDNode := (g.getNode V).bind g.tag

theorem tagOf_of_some {g : AliasGraph} {V : Value} {n : NodeId} (h : g.getNode V = some n) :
    g.tagOf V = g.tag n := by
  rw [tagOf, h, Option.bind_some]

theorem tagOf_congr {g g' : AliasGraph} (hmap : g'.NodeMap = g.NodeMap)
    (hnodes : g'.nodes = g.nodes) (V : Value) : g'.tagOf V = g.tagOf V := by
  rw [tagOf, tagOf, tag_congr hnodes, getNode, hmap]
  rfl

/-- A value brings its tag out of a merge from a unified node. -/
theorem tagOf_mergeNode {g : AliasGraph} {n1 n2 : NodeId} {V : Value} {t : MDNode}
    (h : g.Consistent) (ht : (mergeNode tg n1 n2 g).tagOf V = some t) :
    ∃ n x, g.getNode V = some n ∧ Unify g n1 n2 n x ∧ g.tag x = some t := by
  have hU := mergeNode_unifiedFrom tg g n1 n2
  have h' : (mergeNode tg n1 n2 g).Consistent := consistentInvariant.mergeNode trivial h
  obtain ⟨m, hm, htag⟩ := Option.bind_eq_some_iff.1 ht
  obtain ⟨n, hn, hnm⟩ := hU.groups.back V m ((h' V m).1 hm)
  obtain ⟨x, hx, htx⟩ := hU.tags m t htag
  exact ⟨n, x, (h V n).2 hn, .trans hnm hx, htx⟩

/-! ## Graphs of arbitrary runs -/

/-- Values and nodes agree, and nodes that are not allocated yet are empty. -/
structure Sane (g : AliasGraph) : Prop where
  consistent : g.Consistent
  nodes : ∀ x, g.fresh ≤ x → g.nodes x = {}
  edges : ∀ d a b, g.next d a = some b → a < g.fresh ∧ b < g.fresh

section
variable {g g' : AliasGraph} {n n1 n2 : NodeId} {V : Value}

theorem sane_empty : Sane {} where
  consistent := wellFormed_empty.consistent
  nodes _ _ := rfl
  edges d a b hab := by cases d <;> cases hab

theorem Sane.lt_fresh (h : g.Sane) (hn : g.getNode V = some n) : n < g.fresh := by
  by_contra hge
  have hV := (h.consistent V n).1 hn
  rw [aliasclass, h.nodes n (Nat.not_lt.1 hge)] at hV
  simp at hV

theorem SameShape.sane (h : SameShape g g') (hg : g.Sane) : g'.Sane where
  consistent := hg.consistent.congr h.NodeMap h.aliasclass
  nodes x hx := by
    rw [h.fresh] at hx
    rw [h.unallocated x hx]
    exact hg.nodes x hx
  edges d a b hab := by
    rw [h.next] at hab
    rw [h.fresh]
    exact hg.edges d a b hab

theorem sane_insertValue (h : g.Sane) {k : ℕ} (hV : g.getNode V = none) (hn : n < k)
    (hk : g.fresh ≤ k) : ({ g with fresh := k }.insertValue n V).Sane where
  consistent := consistent_insertValue h.consistent hV
  nodes x hx := by
    have hx' : k ≤ x := hx
    show Function.update g.nodes n _ x = _
    rw [Function.update_of_ne (Nat.ne_of_gt (Nat.lt_of_lt_of_le hn hx'))]
    exact h.nodes x (Nat.le_trans hk hx')
  edges d a b hab := by
    rw [next_insertValue] at hab
    obtain ⟨ha, hb⟩ := h.edges d a b (by cases d <;> exact hab)
    exact ⟨Nat.lt_of_lt_of_le ha hk, Nat.lt_of_lt_of_le hb hk⟩

theorem Sane.nodeOf (h : g.Sane) (V : Value) : (g.nodeOf V).2.Sane := by
  cases hV : g.getNode V with
  | some n => rw [nodeOf_of_some hV]; exact h
  | none =>
    rw [nodeOf_of_none hV]
    exact sane_insertValue h hV (Nat.lt_succ_self _) (Nat.le_succ _)

theorem Sane.mergeNode (h : g.Sane) (h1 : n1 < g.fresh) (h2 : n2 < g.fresh) :
    (mergeNode tg n1 n2 g).Sane := by
  have hfresh : (AliasGraph.mergeNode tg n1 n2 g).fresh = g.fresh :=
    (freshInvariant g.fresh).mergeNode trivial rfl
  have hout : SameOutside {x | x < g.fresh} g (AliasGraph.mergeNode tg n1 n2 g) := by
    refine (sameOutsideInvariant _ g).mergeNode ⟨h1, h2⟩ ⟨?_, by simp, by simp⟩
    intro d a b hab
    have := h.edges d a b hab
    exact ⟨fun _ => this.2, fun _ => this.1⟩
  refine ⟨consistentInvariant.mergeNode trivial h.consistent, ?_, ?_⟩
  · intro x hx
    rw [hfresh] at hx
    rw [hout.nodes x (Nat.not_lt.2 hx)]
    exact h.nodes x hx
  · intro d a b hab
    rw [hfresh]
    have ha : a < g.fresh := by
      by_contra hge
      rw [hout.next d a hge] at hab
      exact hge (h.edges d a b hab).1
    exact ⟨ha, (hout.closed d a b hab).1 ha⟩

theorem Sane.link (h : g.Sane) (d : Dir) (h1 : n1 < g.fresh) (h2 : n2 < g.fresh) :
    (g.link d n1 n2).Sane where
  consistent := h.consistent.congr (by simp) (aliasclass_congr (by simp))
  nodes x hx := by
    rw [fresh_link] at hx
    rw [nodes_link]
    exact h.nodes x hx
  edges d' a b hab := by
    rw [fresh_link]
    rw [next_link] at hab
    split at hab
    case isTrue hd => cases hab; exact ⟨hd.2 ▸ h1, h2⟩
    · split at hab
      case isTrue hd => cases hab; exact ⟨hd.2 ▸ h2, h1⟩
      · exact h.edges d' a b hab

end

end AliasGraph

namespace AliasCall

variable {tg : TBAAGraph} {kind : Value → ValueKind} {g : AliasGraph} {c : AliasCall}

/-- What is kept when nodes are found, when they are tagged, and when a value enters the
    class of another one, is kept until a call joins the graph. -/
theorem prepare_induction {I : AliasGraph → Prop}
    (hnode : ∀ {g} V, I g → I (g.nodeOf V).2)
    (hshape : ∀ {g g'}, SameShape g g' → I g → I g')
    (hinsert : ∀ {g n V W}, g.Sane → g.getNode V = none → g.getNode W = some n → I g →
      I (g.insertValue n V))
    (hs : g.Sane) (h : I g) (c : AliasCall) : I (c.prepare tg kind g) := by
  cases c with
  | alloc ALI => exact hnode ALI h
  | load LI op tag =>
    have hs2 := (hs.nodeOf LI).nodeOf op
    obtain ⟨hn1, hn2⟩ := getNode_nodeOf_pair g LI op
    exact hshape (sameShape_prepare_load tg kind (hs2.lt_fresh hn1) (hs2.lt_fresh hn2) tag)
      (hnode op (hnode LI h))
  | store vop pop tag =>
    by_cases hc : kind vop = .constantData
    · simp only [prepare, hc, if_true]
      exact h
    · have hs2 := (hs.nodeOf vop).nodeOf pop
      obtain ⟨hn1, hn2⟩ := getNode_nodeOf_pair g vop pop
      exact hshape (sameShape_prepare_store tg hc (hs2.lt_fresh hn1) (hs2.lt_fresh hn2) tag)
        (hnode pop (hnode vop h))
  | storeValues vop pop =>
    unfold prepare
    dsimp only
    split
    · exact h
    · exact hnode pop (hnode vop h)
  | move v1 v2 =>
    have h2 := hnode v2 h
    unfold prepare
    dsimp only
    split
    case h_1 h1 => exact hinsert (hs.nodeOf v2) h1 getNode_nodeOf_self h2
    · exact h2

variable (tg kind) in
theorem sane_prepare (h : g.Sane) (c : AliasCall) : (c.prepare tg kind g).Sane := by
  refine prepare_induction (fun V hg => hg.nodeOf V) (fun hsame hg => hsame.sane hg) ?_ h h c
  intro g n V W hg hV hW _
  exact sane_insertValue hg hV (hg.lt_fresh hW) (Nat.le_refl _)

/-- The nodes of a join are allocated. -/
def Join.Allocated (g : AliasGraph) : Join → Prop
  | .none => True
  | .merge n1 n2 | .link n1 n2 => n1 < g.fresh ∧ n2 < g.fresh

theorem allocated_pointJoin (h : g.Sane) {node1 node2 : NodeId} (h1 : node1 < g.fresh)
    (h2 : node2 < g.fresh) : (pointJoin g node1 node2).Allocated g := by
  unfold pointJoin
  cases hto : g.next .toNode node2 with
  | some t => exact ⟨h1, (h.edges _ _ _ hto).2⟩
  | none =>
    cases hfrom : g.next .fromNode node1 with
    | some f => exact ⟨(h.edges _ _ _ hfrom).2, h2⟩
    | none => exact ⟨h2, h1⟩

/-- What a call joins: the nodes of a load or a store, those of a move, or nothing. -/
theorem joinOf_cases {Q : Join → Prop} (c : AliasCall) (hnone : Q .none)
    (hpoint : ∀ V W n1 n2, g.getNode V = some n1 → g.getNode W = some n2 → Q (pointJoin g n1 n2))
    (hmerge : ∀ V W n1 n2, g.getNode V = some n1 → g.getNode W = some n2 → Q (.merge n1 n2)) :
    Q (joinOf kind g c) := by
  unfold joinOf
  split
  · exact hnone
  · split
    case h_1 h1 h2 => exact hpoint _ _ _ _ h1 h2
    · exact hnone
  iterate 2
    split
    · exact hnone
    · split
      case h_1 h1 h2 =>
        split
        · exact hnone
        · exact hpoint _ _ _ _ h1 h2
      · exact hnone
  · split
    case h_1 h1 h2 =>
      split
      · exact hnone
      · split
        · exact hnone
        · exact hmerge _ _ _ _ h1 h2
    · exact hnone

variable (kind) in
theorem allocated_joinOf (h : g.Sane) (c : AliasCall) : (joinOf kind g c).Allocated g :=
  joinOf_cases c trivial
    (fun _ _ _ _ h1 h2 => allocated_pointJoin h (h.lt_fresh h1) (h.lt_fresh h2))
    fun _ _ _ _ h1 h2 => ⟨h.lt_fresh h1, h.lt_fresh h2⟩

variable (tg kind) in
theorem sane_handle (h : g.Sane) (c : AliasCall) : (c.handle tg kind g).Sane := by
  have hp := sane_prepare tg kind h c
  have hj := allocated_joinOf kind hp c
  rw [handle_eq]
  cases hc : joinOf kind (c.prepare tg kind g) c with
  | none => exact hp
  | merge n1 n2 => rw [hc] at hj; exact hp.mergeNode hj.1 hj.2
  | link n1 n2 => rw [hc] at hj; exact hp.link .toNode hj.1 hj.2

end AliasCall

end TFA
