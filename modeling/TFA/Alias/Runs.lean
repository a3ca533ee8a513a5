/-
  Runs of the instruction handlers.

  * `handle_represents`: a call whose merge is safe, and in which no merge is
    blocked, adds the pair of its operands to what the clusters represent;
  * `mem_getClusterValues_run`: in a run of calls without tags whose merges are
    all safe, two values share a cluster if and only if the operands handled so
    far relate them.  On unsafe chains this fails
    (`getClusterValues_loses_value`): a link put back after a nested merge drops
    the one that the merge has brought in.
-/
import TFA.Alias.Cluster

namespace TFA

open AliasGraph

namespace AliasCall

variable {tg : TBAAGraph} {kind : Value → ValueKind} {R : Value → Value → Prop}
  {g : AliasGraph} {c : AliasCall}

/-! ## The counter of blocked merges -/

@[simp] theorem blocked_nodeOf (g : AliasGraph) (V : Value) :
    (g.nodeOf V).2.NumTBAABlockedMerges = g.NumTBAABlockedMerges := by
  unfold nodeOf; split <;> rfl

@[simp] theorem blocked_tagIfNone (g : AliasGraph) (n : NodeId) (t : MDNode) :
    (tagIfNone n t g).NumTBAABlockedMerges = g.NumTBAABlockedMerges := by
  unfold tagIfNone; split <;> rfl

@[simp] theorem blocked_tagFunction (g : AliasGraph) (F : Value) (t : MDNode) :
    (tagFunction tg F t g).NumTBAABlockedMerges = g.NumTBAABlockedMerges := by
  rw [← blocked_nodeOf g F]
  simp only [tagFunction]
  split
  · rfl
  · split <;> rfl

variable (tg kind) in
theorem blocked_prepare (c : AliasCall) (g : AliasGraph) :
    (c.prepare tg kind g).NumTBAABlockedMerges = g.NumTBAABlockedMerges := by
  cases c with
  | alloc ALI => exact blocked_nodeOf g ALI
  | load LI op tag => cases tag <;> simp [prepare]
  | store vop pop tag =>
    unfold prepare
    dsimp only
    split
    · rfl
    · cases tag with
      | none => simp
      | some t => dsimp only; split <;> simp
  | storeValues vop pop => unfold prepare; dsimp only; split <;> simp
  | move v1 v2 =>
    unfold prepare
    dsimp only
    split
    · rw [← blocked_nodeOf g v2]; rfl
    · simp

/-! ## The prepared graph -/

theorem lt_fresh_of_getNode (h : g.WellFormed) {v : Value} {n : NodeId}
    (hn : g.getNode v = some n) : n < g.fresh :=
  h.lt_fresh_of_class ((h.consistent v n).1 hn)

section
variable {LI op vop pop : Value}

variable (tg kind) in
/-- The nodes of a load are found and tagged. -/
theorem sameShape_prepare_load (h1 : (g.nodeOf LI).1 < ((g.nodeOf LI).2.nodeOf op).2.fresh)
    (h2 : ((g.nodeOf LI).2.nodeOf op).1 < ((g.nodeOf LI).2.nodeOf op).2.fresh)
    (tag : Option MDNode) :
    SameShape ((g.nodeOf LI).2.nodeOf op).2 ((AliasCall.load LI op tag).prepare tg kind g) := by
  unfold prepare
  cases tag with
  | none => exact .refl _
  | some t =>
    have hs := sameShape_tagIfNone h2 t
    exact hs.trans (sameShape_tagIfNone (by rw [hs.fresh]; exact h1) t)

variable (tg) in
theorem sameShape_prepare_store (hv : kind vop ≠ .constantData)
    (h1 : (g.nodeOf vop).1 < ((g.nodeOf vop).2.nodeOf pop).2.fresh)
    (h2 : ((g.nodeOf vop).2.nodeOf pop).1 < ((g.nodeOf vop).2.nodeOf pop).2.fresh)
    (tag : Option MDNode) :
    SameShape ((g.nodeOf vop).2.nodeOf pop).2
      ((AliasCall.store vop pop tag).prepare tg kind g) := by
  simp only [prepare, hv, if_false]
  cases tag with
  | none => exact .refl _
  | some t =>
    have hs := sameShape_tagIfNone h2 t
    dsimp only
    split
    · refine hs.trans (sameShape_tagFunction ?_ (by rw [hs.fresh]; exact h1) t)
      rw [getNode_congr hs.NodeMap]
      exact (getNode_nodeOf_pair g vop pop).1
    · exact hs

variable (tg kind) in
theorem represents_prepare_load (h : Represents R g) (LI op : Value) (tag : Option MDNode) :
    Represents R ((AliasCall.load LI op tag).prepare tg kind g) := by
  have h2 := (h.nodeOf LI).nodeOf op
  obtain ⟨hn1, hn2⟩ := getNode_nodeOf_pair g LI op
  exact (sameShape_prepare_load tg kind (lt_fresh_of_getNode h2.wf hn1)
    (lt_fresh_of_getNode h2.wf hn2) tag).represents h2

variable (tg kind) in
theorem represents_prepare_store (h : Represents R g) (vop pop : Value) (tag : Option MDNode) :
    Represents R ((AliasCall.store vop pop tag).prepare tg kind g) := by
  by_cases hv : kind vop = .constantData
  · simp only [prepare, hv, if_true]
    exact h
  · have h2 := (h.nodeOf vop).nodeOf pop
    obtain ⟨hn1, hn2⟩ := getNode_nodeOf_pair g vop pop
    exact (sameShape_prepare_store tg hv (lt_fresh_of_getNode h2.wf hn1)
      (lt_fresh_of_getNode h2.wf hn2) tag).represents h2

end

/-! ## One call -/

/-- A condition on the nodes that are merged, if any. -/
def Join.decidableOnMerge {p : NodeId → NodeId → Prop} (hp : ∀ n1 n2, Decidable (p n1 n2)) :
    ∀ j : Join, Decidable (match j with | .merge n1 n2 => p n1 n2 | _ => True)
  | .merge n1 n2 => hp n1 n2
  | .none | .link _ _ => isTrue trivial

/-- The merge that the call makes, if any, is safe on the graph it is made on. -/
def SafeIn (tg : TBAAGraph) (kind : Value → ValueKind) (c : AliasCall) (g : AliasGraph) : Prop :=
  match joinOf kind (c.prepare tg kind g) c with
  | .merge n1 n2 => (c.prepare tg kind g).ChainSafe n1 n2
  | _ => True

instance (tg : TBAAGraph) (kind : Value → ValueKind) (c : AliasCall) (g : AliasGraph) :
    Decidable (c.SafeIn tg kind g) :=
  Join.decidableOnMerge (fun _ _ => inferInstance) (joinOf kind (c.prepare tg kind g) c)

section
variable {p q : Value} {n1 n2 : NodeId}

theorem merge_represents (h : Represents R g) {a b : NodeId} (hp : p ∈ g.aliasclass a)
    (hq : q ∈ g.aliasclass b) (h1 : g.Connected n1 a) (h2 : g.Connected n2 b)
    (hlt1 : n1 < g.fresh) (hlt2 : n2 < g.fresh) (hsafe : g.ChainSafe n1 n2)
    (hb : (mergeNode tg n1 n2 g).NumTBAABlockedMerges = g.NumTBAABlockedMerges) :
    Represents (Adjoin R p q) (mergeNode tg n1 n2 g) := by
  obtain ⟨hwf, hj⟩ := mergeNode_joinedBy h.wf hsafe hlt1 hlt2 hb
  exact h.join hwf hj hp hq h1 h2

/-- A load or a store joins the nodes of its operands. -/
theorem pointJoin_represents (h : Represents R g) (hp : g.getNode p = some n1)
    (hq : g.getNode q = some n2)
    (hsafe : ∀ a b, pointJoin g n1 n2 = .merge a b → g.ChainSafe a b)
    (hb : ((pointJoin g n1 n2).apply tg g).NumTBAABlockedMerges = g.NumTBAABlockedMerges) :
    Represents (Adjoin R p q) ((pointJoin g n1 n2).apply tg g) := by
  have hp' := (h.wf.consistent p n1).1 hp
  have hq' := (h.wf.consistent q n2).1 hq
  have hlt1 := h.wf.lt_fresh_of_class hp'
  have hlt2 := h.wf.lt_fresh_of_class hq'
  unfold pointJoin at hsafe hb ⊢
  cases hto : g.next .toNode n2 with
  | some t =>
    simp only [hto] at hsafe hb ⊢
    exact merge_represents h hp' hq' (.refl _) (.symm _ _ (.rel _ _ hto)) hlt1
      (h.wf.lt_fresh_of_next hto).2 (hsafe n1 t rfl) hb
  | none =>
    simp only [hto] at hsafe hb ⊢
    cases hfrom : g.next .fromNode n1 with
    | some f =>
      simp only [hfrom] at hsafe hb ⊢
      exact merge_represents h hp' hq' (.rel _ _ ((h.wf.mirrored f n1).2 hfrom)) (.refl _)
        (h.wf.lt_fresh_of_next hfrom).2 hlt2 (hsafe f n2 rfl) hb
    | none =>
      obtain ⟨hwf, hj⟩ := joinedBy_link h.wf hlt1 hlt2 hto hfrom
      exact h.join hwf hj hp' hq' (.refl _) (.refl _)

/-- A store of values that share a cluster already changes nothing. -/
theorem connected_represents (h : Represents R g) (hp : g.getNode p = some n1)
    (hq : g.getNode q = some n2) (hc : g.Connected n1 n2) : Represents (Adjoin R p q) g :=
  h.join h.wf (joinedBy_refl h.wf hc) ((h.wf.consistent p n1).1 hp) ((h.wf.consistent q n2).1 hq)
    (.refl _) (.refl _)

/-- A store joins the nodes of its operands, unless they share a cluster already. -/
theorem storeJoin_represents (h : Represents R g) (hp : g.getNode p = some n1)
    (hq : g.getNode q = some n2)
    (hsafe : match (if g.checkNodeConnectivity n1 n2 then .none else pointJoin g n1 n2 : Join) with
      | .merge a b => g.ChainSafe a b
      | _ => True)
    (hb : ((if g.checkNodeConnectivity n1 n2 then .none else pointJoin g n1 n2 : Join).apply
      tg g).NumTBAABlockedMerges = g.NumTBAABlockedMerges) :
    Represents (Adjoin R p q)
      ((if g.checkNodeConnectivity n1 n2 then .none else pointJoin g n1 n2 : Join).apply tg g) := by
  by_cases hconn : g.checkNodeConnectivity n1 n2 = true
  · rw [if_pos hconn]
    exact connected_represents h hp hq ((checkNodeConnectivity_iff h.wf.mirrored).1 hconn)
  · rw [if_neg hconn] at hsafe hb ⊢
    exact pointJoin_represents h hp hq (fun a b hab => by rw [hab] at hsafe; exact hsafe) hb

/-- A moved value without a node enters the class of the other one. -/
theorem insertValue_represents (h : Represents R g) (hp : g.getNode p = none)
    (hq : g.getNode q = some n2) : Represents (Adjoin R p q) (g.insertValue n2 p) := by
  have hq' := (h.wf.consistent q n2).1 hq
  have hpq : p ≠ q := by rintro rfl; rw [hp] at hq; cases hq
  have hleft := h.related_iff_eq hp
  have hright : ∀ w, Relation.EqvGen R w p ↔ w = p := fun w =>
    ⟨fun hw => (hleft w).1 (.symm _ _ hw), fun hw => hw ▸ .refl _⟩
  -- `p` counts as `q`
  have hmem : ∀ u x, u ∈ (g.insertValue n2 p).aliasclass x →
      (if u = p then q else u) ∈ g.aliasclass x := by
    intro u x hu
    rw [aliasclass_insertValue] at hu
    by_cases hup : u = p
    · rw [if_pos hup]
      split at hu
      case isTrue hx => rw [hx]; exact hq'
      · rw [hup, ← h.wf.consistent, hp] at hu; cases hu
    · rw [if_neg hup]
      split at hu
      case isTrue hx => rw [hx]; exact (Finset.mem_insert.1 hu).resolve_left hup
      · exact hu
  have hsub : ∀ u x, u ∈ g.aliasclass x → u ∈ (g.insertValue n2 p).aliasclass x := by
    intro u x hu
    rw [aliasclass_insertValue]
    split
    case isTrue hx => exact Finset.mem_insert_of_mem (hx ▸ hu)
    · exact hu
  have hpmem : p ∈ (g.insertValue n2 p).aliasclass n2 := by
    rw [aliasclass_insertValue, if_pos rfl]; exact Finset.mem_insert_self _ _
  have hlt := h.wf.lt_fresh_of_class hq'
  refine ⟨wellFormed_insertValue h.wf hp hlt (Nat.le_refl _), ?_, ?_, fun u v x y hx hy => ?_⟩
  · rintro u v (huv | ⟨rfl, rfl⟩)
    · obtain ⟨x, hx⟩ := h.left u v huv; exact ⟨x, hsub u x hx⟩
    · exact ⟨n2, hpmem⟩
  · rintro u v (huv | ⟨rfl, rfl⟩)
    · obtain ⟨x, hx⟩ := h.right u v huv; exact ⟨x, hsub v x hx⟩
    · exact ⟨n2, hsub v n2 hq'⟩
  · have hconn : (g.insertValue n2 p).Connected = g.Connected := by
      unfold Connected; rw [next_insertValue]
    have hadjoin : Relation.EqvGen (Adjoin R p q) u v ↔ Relation.EqvGen R u v ∨
        (Relation.EqvGen R u p ∧ Relation.EqvGen R q v) ∨
        (Relation.EqvGen R u q ∧ Relation.EqvGen R p v) := Links.eqvGen_adjoin
    have hqp : ¬ q = p := hpq.symm
    rw [hconn, h.clusters _ _ x y (hmem u x hx) (hmem v y hy), hadjoin, hright, hleft]
    by_cases hup : u = p <;> by_cases hvp : v = p
    · simp [hup, hvp, Relation.EqvGen.refl]
    · simp [hup, hvp, hleft, hqp]
    · simp [hup, hvp, hright]
    · simp [hup, hvp]

/-- **The invariant.**  A call with a safe merge, and with no merge blocked, adds
    the pair of its operands to what the clusters represent. -/
theorem handle_represents (h : Represents R g) (hsafe : c.SafeIn tg kind g)
    (hb : (c.handle tg kind g).NumTBAABlockedMerges = g.NumTBAABlockedMerges) :
    Represents (fun a b => R a b ∨ c.operands kind = some (a, b)) (c.handle tg kind g) := by
  have hpair : ∀ p q, c.operands kind = some (p, q) →
      (fun a b => R a b ∨ c.operands kind = some (a, b)) = Adjoin R p q := by
    intro p q hpq
    funext a b
    simp only [hpq, Adjoin, Option.some.injEq, Prod.mk.injEq, eq_comm]
  have hnone : c.operands kind = none →
      (fun a b => R a b ∨ c.operands kind = some (a, b)) = R := by
    intro hn; funext a b; simp [hn]
  rw [handle_eq] at hb ⊢
  rw [← blocked_prepare tg kind c g] at hb
  unfold SafeIn at hsafe
  cases c with
  | alloc ALI =>
    rw [hnone rfl]
    exact h.nodeOf ALI
  | load LI op tag =>
    rw [hpair LI op rfl]
    have hp := represents_prepare_load tg kind h LI op tag
    obtain ⟨h1, h2⟩ := getNode_prepare_load tg kind LI op tag g
    simp only [joinOf, h1, h2] at hsafe hb ⊢
    exact pointJoin_represents hp h1 h2 (fun a b hab => by rw [hab] at hsafe; exact hsafe) hb
  | store vop pop tag =>
    by_cases hc : kind vop = .constantData
    · rw [hnone (if_pos hc)]
      simp only [joinOf, prepare, hc, if_true, Join.apply]
      exact h
    · rw [hpair vop pop (if_neg hc)]
      have hp := represents_prepare_store tg kind h vop pop tag
      obtain ⟨h1, h2⟩ := getNode_prepare_store tg hc pop tag g
      simp only [joinOf, hc, if_false, h1, h2] at hsafe hb ⊢
      exact storeJoin_represents hp h1 h2 hsafe hb
  | storeValues vop pop =>
    by_cases hc : kind vop = .constantData
    · rw [hnone (if_pos hc)]
      simp only [joinOf, prepare, hc, if_true, Join.apply]
      exact h
    · rw [hpair vop pop (if_neg hc)]
      have hp := (h.nodeOf vop).nodeOf pop
      obtain ⟨h1, h2⟩ := getNode_nodeOf_pair g vop pop
      simp only [joinOf, prepare, hc, if_false, h1, h2] at hsafe hb ⊢
      exact storeJoin_represents hp h1 h2 hsafe hb
  | move v1 v2 =>
    rw [hpair v1 v2 rfl]
    have hp := h.nodeOf v2
    cases h1 : (g.nodeOf v2).2.getNode v1 with
    | none =>
      have h12 : v2 ≠ v1 := by rintro rfl; simp at h1
      simp only [joinOf, prepare, h1, getNode_insertValue, h12, if_true, if_false,
        getNode_nodeOf_self, Join.apply]
      exact insertValue_represents hp h1 getNode_nodeOf_self
    | some node1 =>
      have h2 : (g.nodeOf v2).2.getNode v2 = some (g.nodeOf v2).1 := getNode_nodeOf_self
      simp only [joinOf, prepare, h1, h2] at hsafe hb ⊢
      by_cases heq : node1 = (g.nodeOf v2).1
      · simp only [heq, if_true, Join.apply]
        exact connected_represents hp (heq ▸ h1) h2 (.refl _)
      · by_cases hconn : (g.nodeOf v2).2.checkNodeConnectivity node1 (g.nodeOf v2).1 = true
        · simp only [heq, hconn, if_true, if_false, Join.apply]
          exact connected_represents hp h1 h2 ((checkNodeConnectivity_iff hp.wf.mirrored).1 hconn)
        · simp only [heq, hconn, if_false] at hsafe hb ⊢
          exact merge_represents hp ((hp.wf.consistent _ _).1 h1) ((hp.wf.consistent _ _).1 h2)
            (.refl _) (.refl _) (lt_fresh_of_getNode hp.wf h1) (lt_fresh_of_getNode hp.wf h2)
            hsafe hb

end

/-! ## Runs without tags -/

/-- No node has a tag. -/
def Untagged (g : AliasGraph) : Prop := ∀ x, g.tag x = none

section
variable {cs : List AliasCall}

theorem untagged_congr {g' : AliasGraph} (h : Untagged g) (hnodes : g'.nodes = g.nodes) :
    Untagged g' := fun x => by rw [AliasGraph.tag, hnodes]; exact h x

theorem untagged_insertValue (h : Untagged g) (n : NodeId) (V : Value) :
    Untagged (g.insertValue n V) := by
  intro x
  rw [← h x]
  by_cases hx : x = n
  · subst hx; simp [AliasGraph.tag, insertValue]
  · simp [AliasGraph.tag, insertValue, hx]

theorem untagged_nodeOf (h : Untagged g) (V : Value) : Untagged (g.nodeOf V).2 := by
  cases hV : g.getNode V with
  | some n => rw [nodeOf_of_some hV]; exact h
  | none => rw [nodeOf_of_none hV]; exact untagged_insertValue (untagged_congr h rfl) _ _

/-- Without tags no merge is blocked, and none sets a tag. -/
theorem untaggedInvariant (k : ℕ) :
    MergeInvariant tg (fun g => Untagged g ∧ g.NumTBAABlockedMerges = k) fun _ _ => True where
  blocked g n1 n2 _ hgate h := by simp [shouldMergeByTBAA, h.1 n1] at hgate
  inherit g n1 n2 _ _ h := by
    have : g.inheritTag n1 n2 = g := by simp [inheritTag, h.1 n1]
    rw [this]; exact h
  move g n1 n2 _ _ h := ⟨fun x => by rw [tag_moveClass]; exact h.1 x, h.2⟩
  erase g d _ _ n _ _ h := ⟨untagged_congr h.1 (by simp), by simpa using h.2⟩
  neighbours _ _ _ _ _ _ _ _ _ _ := trivial
  link g g' d n1 n2 t _ _ _ h := ⟨untagged_congr h.1 (by simp), by simpa using h.2⟩

theorem untagged_prepare (h : Untagged g) (hc : c.tag = none) : Untagged (c.prepare tg kind g) := by
  cases c with
  | alloc ALI => exact untagged_nodeOf h ALI
  | load LI op tag =>
    cases (hc : tag = none)
    exact untagged_nodeOf (untagged_nodeOf h LI) op
  | store vop pop tag =>
    cases (hc : tag = none)
    unfold prepare
    dsimp only
    split
    · exact h
    · exact untagged_nodeOf (untagged_nodeOf h vop) pop
  | storeValues vop pop =>
    unfold prepare
    dsimp only
    split
    · exact h
    · exact untagged_nodeOf (untagged_nodeOf h vop) pop
  | move v1 v2 =>
    unfold prepare
    dsimp only
    split
    · exact untagged_insertValue (untagged_nodeOf h v2) _ _
    · exact untagged_nodeOf h v2

variable (tg kind) in
theorem untagged_handle (h : Untagged g) (hc : c.tag = none) :
    Untagged (c.handle tg kind g) ∧
      (c.handle tg kind g).NumTBAABlockedMerges = g.NumTBAABlockedMerges := by
  rw [handle_eq, ← blocked_prepare tg kind c g]
  have hp : Untagged (c.prepare tg kind g) := untagged_prepare h hc
  cases joinOf kind (c.prepare tg kind g) c with
  | none => exact ⟨hp, rfl⟩
  | merge n1 n2 => exact (untaggedInvariant _).mergeNode trivial ⟨hp, rfl⟩
  | link n1 n2 => exact ⟨untagged_congr hp (by simp [Join.apply]), by simp [Join.apply]⟩

/-- Every call of the run makes a safe merge, if it makes one. -/
def SafeRun (tg : TBAAGraph) (kind : Value → ValueKind) : List AliasCall → AliasGraph → Prop
  | [], _ => True
  | c :: cs, g => c.SafeIn tg kind g ∧ SafeRun tg kind cs (c.handle tg kind g)

instance decidableSafeRun (tg : TBAAGraph) (kind : Value → ValueKind) :
    ∀ cs g, Decidable (SafeRun tg kind cs g)
  | [], _ => isTrue trivial
  | c :: cs, g =>
    have := decidableSafeRun tg kind cs (c.handle tg kind g)
    inferInstanceAs (Decidable (c.SafeIn tg kind g ∧ SafeRun tg kind cs (c.handle tg kind g)))

/-- The operands that a sequence of calls has handled. -/
def Handled (kind : Value → ValueKind) (cs : List AliasCall) (p q : Value) : Prop :=
  ∃ c ∈ cs, c.operands kind = some (p, q)

theorem Handled.mono {cs' : List AliasCall} {p q : Value} (hsub : cs ⊆ cs')
    (h : Handled kind cs p q) : Handled kind cs' p q := by
  obtain ⟨c, hc, hop⟩ := h
  exact ⟨c, hsub hc, hop⟩

variable (tg kind) in
theorem blocked_le_handle (c : AliasCall) (g : AliasGraph) :
    g.NumTBAABlockedMerges ≤ (c.handle tg kind g).NumTBAABlockedMerges := by
  rw [handle_eq, ← blocked_prepare tg kind c g]
  cases joinOf kind (c.prepare tg kind g) c with
  | none => exact Nat.le_refl _
  | merge n1 n2 => exact blocked_le_mergeNode tg n1 n2 _
  | link n1 n2 => exact Nat.le_of_eq (blocked_link _ _ _ _).symm

variable (tg kind) in
theorem blocked_le_run (cs : List AliasCall) (g : AliasGraph) :
    g.NumTBAABlockedMerges ≤ (run tg kind cs g).NumTBAABlockedMerges := by
  induction cs generalizing g with
  | nil => exact Nat.le_refl _
  | cons c cs ih => exact Nat.le_trans (blocked_le_handle tg kind c g) (ih _)

/-- A safe run in which no merge is refused adds all operands. -/
theorem unblockedRun_represents (h : Represents R g) (hsafe : SafeRun tg kind cs g)
    (hb : (run tg kind cs g).NumTBAABlockedMerges = g.NumTBAABlockedMerges) :
    Represents (fun a b => R a b ∨ Handled kind cs a b) (run tg kind cs g) := by
  induction cs generalizing R g with
  | nil =>
    have heq : (fun a b => R a b ∨ Handled kind [] a b) = R := by
      funext a b
      simp [Handled]
    rw [heq]
    exact h
  | cons c cs ih =>
    have h1 := blocked_le_handle tg kind c g
    have h2 := blocked_le_run tg kind cs (c.handle tg kind g)
    have hrun : run tg kind (c :: cs) g = run tg kind cs (c.handle tg kind g) := rfl
    rw [hrun] at hb ⊢
    have hrep := ih (handle_represents h hsafe.1 (by omega)) hsafe.2 (by omega)
    have heq : (fun a b => (R a b ∨ c.operands kind = some (a, b)) ∨ Handled kind cs a b) =
        fun a b => R a b ∨ Handled kind (c :: cs) a b := by
      funext a b
      simp [Handled, or_assoc]
    rw [heq] at hrep
    exact hrep

variable (tg kind) in
theorem untagged_run (hg : Untagged g) (htag : ∀ c ∈ cs, c.tag = none) :
    Untagged (run tg kind cs g) ∧
      (run tg kind cs g).NumTBAABlockedMerges = g.NumTBAABlockedMerges := by
  induction cs generalizing g with
  | nil => exact ⟨hg, rfl⟩
  | cons c cs ih =>
    obtain ⟨hg', hb⟩ := untagged_handle tg kind hg (htag c List.mem_cons_self)
    rw [← hb]
    exact ih hg' fun c' hc' => htag c' (List.mem_cons_of_mem c hc')

theorem run_represents (h : Represents R g) (hg : Untagged g) (htag : ∀ c ∈ cs, c.tag = none)
    (hsafe : SafeRun tg kind cs g) :
    Represents (fun a b => R a b ∨ Handled kind cs a b) (run tg kind cs g) :=
  unblockedRun_represents h hsafe (untagged_run tg kind hg htag).2

theorem represents_run (htag : ∀ c ∈ cs, c.tag = none) (hsafe : SafeRun tg kind cs {}) :
    Represents (Handled kind cs) (run tg kind cs {}) := by
  have hrep := run_represents represents_empty (fun _ => rfl) htag hsafe
  simpa only [false_or] using hrep

/-- **Clusters are connectivity.**  After calls without tags whose merges are all
    safe, values share a cluster exactly when the handled operands relate them. -/
theorem mem_getClusterValues_run (htag : ∀ c ∈ cs, c.tag = none) (hsafe : SafeRun tg kind cs {})
    {u v : Value} (hu : ((run tg kind cs {}).getNode u).isSome) :
    v ∈ (run tg kind cs {}).getClusterValues u ∅ ↔ Relation.EqvGen (Handled kind cs) u v := by
  have hrep := represents_run htag hsafe
  exact hrep.mem_cluster_iff hu

/-- `p` and `q` point to `x` and `y`, then `p` is moved into `q`. -/
theorem mem_getClusterValues_move :
    3 ∈ (run .empty (fun _ => .argument) [.load 0 1 none, .load 2 3 none, .move 1 3] {}
      ).getClusterValues 0 ∅ ↔
    Relation.EqvGen (Handled (fun _ => .argument) [.load 0 1 none, .load 2 3 none, .move 1 3])
      0 3 :=
  mem_getClusterValues_run (by decide) (by decide) (by decide)

/-- The values `0`, `1` form a self loop `x = *x`; `4` is loaded from `3`, which
    is loaded from `2`.  Merging `2` into the loop drops the edge to `4`. -/
theorem getClusterValues_loses_value :
    ¬ ∀ (tg : TBAAGraph) (kind : Value → ValueKind) (cs : List AliasCall) (u v : Value),
      (∀ c ∈ cs, c.tag = none) → ((run tg kind cs {}).getNode u).isSome →
      ((run tg kind cs {}).getNode v).isSome →
      (v ∈ (run tg kind cs {}).getClusterValues u ∅ ↔ Relation.EqvGen (Handled kind cs) u v) := by
  intro h
  have hiff := h .empty (fun _ => .argument)
    [.move 0 1, .load 0 1 none, .load 3 2 none, .load 4 3 none, .move 2 0] 0 4
    (by decide) (by decide) (by decide)
  have hout : 4 ∉ (run .empty (fun _ => .argument)
    [.move 0 1, .load 0 1 none, .load 3 2 none, .load 4 3 none, .move 2 0] {}
    ).getClusterValues 0 ∅ := by decide
  refine hout (hiff.2 ?_)
  have h20 : Relation.EqvGen (Handled (fun _ => .argument)
    [.move 0 1, .load 0 1 none, .load 3 2 none, .load 4 3 none, .move 2 0]) 2 0 :=
    .rel _ _ ⟨.move 2 0, by simp, rfl⟩
  have h32 : Relation.EqvGen (Handled (fun _ => .argument)
    [.move 0 1, .load 0 1 none, .load 3 2 none, .load 4 3 none, .move 2 0]) 3 2 :=
    .rel _ _ ⟨.load 3 2 none, by simp, rfl⟩
  have h43 : Relation.EqvGen (Handled (fun _ => .argument)
    [.move 0 1, .load 0 1 none, .load 3 2 none, .load 4 3 none, .move 2 0]) 4 3 :=
    .rel _ _ ⟨.load 4 3 none, by simp, rfl⟩
  exact .symm _ _ (.trans _ _ _ h43 (.trans _ _ _ h32 h20))

end

end AliasCall

end TFA
