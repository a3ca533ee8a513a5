/-
  Pruning indirect-call targets by TBAA tags (`ICallAliasAnalysis.cc`).

  A target is kept if the tag of the called operand may alias with the tag of the
  function.  The node of a function has one tag for all the slots that the
  function was stored through.

  * `Stands` says when one tag can stand for a list of them: whatever may alias
    with one of the list may alias with it, and no two of the list are disjoint;
  * `KeepsTag` is the condition on a call under which the tag of a function goes
    on standing for the tags it was stored with (`tagged_handle`);
  * `tbaaCompatibleForICall_run`: no target is pruned wrongly in a run whose calls
    all meet the condition.  `tbaaCompatibleForICall_prunes`: a function that two
    disjoint stores have made untagged takes the tag of the third one.
-/
import TFA.Alias.Flow

namespace TFA

open AliasGraph

/-- `tbaaCompatibleForICall`. -/
def tbaaCompatibleForICall (tg : TBAAGraph) (g : AliasGraph) :
    Option NodeId → Option NodeId → Bool
  | some ICallNode, some FuncNode =>
    match g.tag ICallNode, g.tag FuncNode with
    | some CallTag, some FuncTag => tg.mayAliasByTBAA (some CallTag) (some FuncTag)
    | _, _ => true
  | _, _ => true

/-- Whatever may alias with `t'` may alias with `t`. -/
def Covers (tg : TBAAGraph) (t t' : MDNode) : Prop :=
  ∀ c, tg.mayAliasByTBAA (some c) (some t') = true → tg.mayAliasByTBAA (some c) (some t) = true

/-- The tag `t` can stand for the tags `ts`. -/
structure Stands (tg : TBAAGraph) (ts : List MDNode) (t : MDNode) : Prop where
  covers : ∀ t' ∈ ts, Covers tg t t'
  agree : ∀ t' ∈ ts, ∀ t'' ∈ ts, tg.mayAliasByTBAA (some t') (some t'') = true

section
variable {tg : TBAAGraph} {g : AliasGraph}

theorem tbaaCompatibleForICall_of_tagOf {V F : Value}
    (h : ∀ c t, g.tagOf V = some c → g.tagOf F = some t →
      tg.mayAliasByTBAA (some c) (some t) = true) :
    tbaaCompatibleForICall tg g (g.getNode V) (g.getNode F) = true := by
  unfold tbaaCompatibleForICall
  split
  case h_1 n m hn hm =>
    split
    case h_1 c t hc ht =>
      exact h c t ((tagOf_of_some hn).trans hc) ((tagOf_of_some hm).trans ht)
    · rfl
  · rfl

end

namespace AliasCall

variable {tg : TBAAGraph} {kind : Value → ValueKind} {g : AliasGraph} {c : AliasCall}
  {F : Value} {ts : List MDNode}

/-- The tag with which the call stores `F`. -/
def storedTags (F : Value) : AliasCall → List MDNode
  | .store vop _ (some t) => if vop = F then [t] else []
  | _ => []

/-- The operands whose untagged nodes the call tags. -/
def taggedOperands (kind : Value → ValueKind) : AliasCall → List Value
  | .load LI op _ => [op, LI]
  | .store vop pop _ => if kind vop = .function then [pop, vop] else [pop]
  | _ => []

/-- `v` is in the class of `F`. -/
def SharesNode (g : AliasGraph) (F v : Value) : Prop :=
  v = F ∨ ∃ n, g.getNode v = some n ∧ g.getNode F = some n

/-- The call, made when `F` was stored with the tags `ts`, leaves on the node of
    `F` a tag that stands for all tags that `F` was stored with:

    * if it tags this node, the new tag does;
    * if it stores `F` with a tag that may alias with the one there, this one does;
    * if it unifies this node with others, their tags do. -/
structure KeepsTag (tg : TBAAGraph) (kind : Value → ValueKind) (F : Value) (ts : List MDNode)
    (c : AliasCall) (g : AliasGraph) : Prop where
  untagged : g.tagOf F = none → ∀ v ∈ c.taggedOperands kind, SharesNode g F v →
    ∀ t, c.tag = some t → Stands tg (c.storedTags F ++ ts) t
  tagged : ∀ t', g.tagOf F = some t' → ∀ t ∈ c.storedTags F,
    tg.mayAliasByTBAA (some t') (some t) = true → Stands tg (t :: ts) t'
  merge : ∀ n1 n2, joinOf kind (c.prepare tg kind g) c = .merge n1 n2 →
    ∀ n x t, (c.prepare tg kind g).getNode F = some n → x ≠ n →
      Unify (c.prepare tg kind g) n1 n2 n x → (c.prepare tg kind g).tag x = some t →
      Stands tg (c.storedTags F ++ ts) t

/-- The invariant: the tag of `F` stands for the tags it was stored with. -/
structure Tagged (tg : TBAAGraph) (F : Value) (ts : List MDNode) (g : AliasGraph) : Prop where
  node : ts ≠ [] → ∃ n, g.getNode F = some n
  stands : ∀ t, g.tagOf F = some t → Stands tg ts t

/-! ## The tag of a value under the handlers -/

@[simp] theorem tag_insertValue (g : AliasGraph) (n : NodeId) (V : Value) :
    (g.insertValue n V).tag = g.tag := by
  ext1 x
  by_cases hx : x = n
  · subst hx; simp [AliasGraph.tag, insertValue]
  · simp [AliasGraph.tag, insertValue, hx]

theorem tagOf_nodeOf (h : g.Sane) (V F : Value) : (g.nodeOf V).2.tagOf F = g.tagOf F := by
  cases hV : g.getNode V with
  | some n => rw [nodeOf_of_some hV]
  | none =>
    rw [nodeOf_of_none hV]
    have hnode : ({ g with fresh := g.fresh + 1 }.insertValue g.fresh V).getNode F =
        if F = V then some g.fresh else g.getNode F := getNode_insertValue ..
    have htag : ({ g with fresh := g.fresh + 1 }.insertValue g.fresh V).tag = g.tag :=
      tag_insertValue ..
    rw [tagOf, tagOf, hnode, htag]
    split
    case isTrue hF =>
      have hfresh : g.tag g.fresh = none := by
        rw [AliasGraph.tag, h.nodes _ (Nat.le_refl _)]
      rw [hF, hV, Option.bind_some, hfresh, Option.bind_none]
    · rfl

theorem sharesNode_nodeOf (h : g.Sane) {V v : Value} (hs : SharesNode (g.nodeOf V).2 F v) :
    SharesNode g F v := by
  cases hV : g.getNode V with
  | some n => rw [nodeOf_of_some hV] at hs; exact hs
  | none =>
    rw [nodeOf_of_none hV] at hs
    have hnode : ∀ W, ({ g with fresh := g.fresh + 1 }.insertValue g.fresh V).getNode W =
        if W = V then some g.fresh else g.getNode W := getNode_insertValue _ _ _
    rcases hs with rfl | ⟨n, hv, hF⟩
    · exact Or.inl rfl
    · -- only `V` itself has the new node
      rw [hnode] at hv hF
      split at hv <;> split at hF
      case isTrue.isTrue h1 h2 => exact Or.inl (h1.trans h2.symm)
      case isTrue.isFalse => cases hv; exact absurd (h.lt_fresh hF) (Nat.lt_irrefl _)
      case isFalse.isTrue => cases hF; exact absurd (h.lt_fresh hv) (Nat.lt_irrefl _)
      case isFalse.isFalse => exact Or.inr ⟨n, hv, hF⟩

theorem tagOf_setTag (n : NodeId) (t : Option MDNode) :
    (g.setTag n t).tagOf F = if g.getNode F = some n then t else g.tagOf F := by
  have hnode : (g.setTag n t).getNode F = g.getNode F := rfl
  rw [tagOf, tagOf, hnode]
  cases hF : g.getNode F with
  | none => rfl
  | some m =>
    rw [Option.bind_some, Option.bind_some, tag_setTag]
    simp

theorem tagOf_tagIfNone (n : NodeId) (t : MDNode) :
    (tagIfNone n t g).tagOf F =
      if g.getNode F = some n ∧ g.tagOf F = none then some t else g.tagOf F := by
  unfold tagIfNone
  split
  case h_1 hn =>
    rw [tagOf_setTag]
    by_cases hF : g.getNode F = some n
    · rw [if_pos hF, if_pos ⟨hF, (tagOf_of_some hF).trans hn⟩]
    · rw [if_neg hF, if_neg fun h => hF h.1]
  case h_2 t' hn =>
    rw [if_neg]
    rintro ⟨hF, hnone⟩
    rw [tagOf_of_some hF, hn] at hnone
    cases hnone

theorem tagOf_tagFunction {V : Value} {n : NodeId} (hV : g.getNode V = some n) (t : MDNode) :
    (tagFunction tg V t g).tagOf F =
      if g.getNode F = some n then
        match g.tagOf F with
        | none => some t
        | some t' => if t' ≠ t ∧ tg.mayAliasByTBAA t' t = false then none else some t'
      else g.tagOf F := by
  rw [tagFunction_of_some hV]
  by_cases hF : g.getNode F = some n
  · rw [if_pos hF, tagOf_of_some hF]
    cases ht : g.tag n with
    | none =>
      show (g.setTag n (some t)).tagOf F = some t
      rw [tagOf_setTag, if_pos hF]
    | some t' =>
      dsimp only
      split
      · rw [tagOf_setTag, if_pos hF]
      · rw [tagOf_of_some hF, ht]
  · rw [if_neg hF]
    split
    · rw [tagOf_setTag, if_neg hF]
    · split
      · rw [tagOf_setTag, if_neg hF]
      · rfl

/-! ## One call -/

theorem getNode_tagIfNone (n : NodeId) (t : MDNode) (V : Value) :
    (tagIfNone n t g).getNode V = g.getNode V := getNode_congr (NodeMap_tagIfNone _ _ _) V

/-- A tag that comes with `tagIfNone`. -/
theorem eq_of_tagOf_tagIfNone {n : NodeId} {t t' : MDNode}
    (h : (tagIfNone n t g).tagOf F = some t') :
    g.tagOf F = some t' ∨ g.tagOf F = none ∧ g.getNode F = some n ∧ t' = t := by
  rw [tagOf_tagIfNone] at h
  split at h
  case isTrue hF => cases h; exact Or.inr ⟨hF.2, hF.1, rfl⟩
  · exact Or.inl h

theorem tagOf_eq_none_of_tagIfNone {n : NodeId} {t : MDNode}
    (h : (tagIfNone n t g).tagOf F = none) : g.tagOf F = none := by
  rw [tagOf_tagIfNone] at h
  split at h
  · cases h
  · exact h

/-- `F` keeps the tag it has, or gets that of the instruction. -/
def TagStep (kind : Value → ValueKind) (F : Value) (c : AliasCall) (g : AliasGraph) (t' : MDNode) :
    Prop :=
  g.tagOf F = some t' ∨
    g.tagOf F = none ∧ c.tag = some t' ∧ ∃ v ∈ c.taggedOperands kind, SharesNode g F v

theorem tagStep_load (h : g.Sane) {LI op : Value} {tag : Option MDNode} {t' : MDNode}
    (ht : ((AliasCall.load LI op tag).prepare tg kind g).tagOf F = some t') :
    TagStep kind F (.load LI op tag) g t' := by
  have htag : ((g.nodeOf LI).2.nodeOf op).2.tagOf F = g.tagOf F := by
    rw [tagOf_nodeOf (h.nodeOf LI), tagOf_nodeOf h]
  have hshares : ∀ {v}, SharesNode ((g.nodeOf LI).2.nodeOf op).2 F v → SharesNode g F v :=
    fun hv => sharesNode_nodeOf h (sharesNode_nodeOf (h.nodeOf LI) hv)
  obtain ⟨hn1, hn2⟩ := getNode_nodeOf_pair g LI op
  cases tag with
  | none => exact Or.inl (htag ▸ ht)
  | some t =>
    rcases eq_of_tagOf_tagIfNone ht with ht | ⟨hnone, hF, rfl⟩
    · rcases eq_of_tagOf_tagIfNone ht with ht | ⟨hnone, hF, rfl⟩
      · exact Or.inl (htag ▸ ht)
      · exact Or.inr ⟨htag ▸ hnone, rfl, op, by simp [taggedOperands],
          hshares (Or.inr ⟨_, hn2, hF⟩)⟩
    · rw [getNode_tagIfNone] at hF
      exact Or.inr ⟨htag ▸ tagOf_eq_none_of_tagIfNone hnone, rfl, LI, by simp [taggedOperands],
        hshares (Or.inr ⟨_, hn1, hF⟩)⟩

theorem tagStep_store (h : g.Sane) {vop pop : Value} {tag : Option MDNode} {t' : MDNode}
    (hv : kind vop ≠ .constantData)
    (ht : ((AliasCall.store vop pop tag).prepare tg kind g).tagOf F = some t') :
    TagStep kind F (.store vop pop tag) g t' ∧
      (vop = F → kind F = .function → ∀ t, tag = some t → g.tagOf F = some t' →
        tg.mayAliasByTBAA t' t = true) := by
  have htag : ((g.nodeOf vop).2.nodeOf pop).2.tagOf F = g.tagOf F := by
    rw [tagOf_nodeOf (h.nodeOf vop), tagOf_nodeOf h]
  have hshares : ∀ {v}, SharesNode ((g.nodeOf vop).2.nodeOf pop).2 F v → SharesNode g F v :=
    fun hv => sharesNode_nodeOf h (sharesNode_nodeOf (h.nodeOf vop) hv)
  obtain ⟨hn1, hn2⟩ := getNode_nodeOf_pair g vop pop
  simp only [prepare, hv, if_false] at ht
  cases tag with
  | none => exact ⟨Or.inl (htag ▸ ht), fun _ _ t htt => by cases htt⟩
  | some t =>
    dsimp only at ht
    -- the slot comes first
    have hslot : ∀ {t'}, (tagIfNone ((g.nodeOf vop).2.nodeOf pop).1 t
        ((g.nodeOf vop).2.nodeOf pop).2).tagOf F = some t' →
        TagStep kind F (.store vop pop (some t)) g t' := by
      intro t' ht'
      rcases eq_of_tagOf_tagIfNone ht' with ht' | ⟨hnone, hF, rfl⟩
      · exact Or.inl (htag ▸ ht')
      · refine Or.inr ⟨htag ▸ hnone, rfl, pop, ?_, hshares (Or.inr ⟨_, hn2, hF⟩)⟩
        simp only [taggedOperands]
        split <;> simp
    split at ht
    case isFalse hfun =>
      refine ⟨hslot ht, ?_⟩
      rintro rfl hF
      exact absurd hF hfun
    case isTrue hfun =>
      have hn1' : (tagIfNone ((g.nodeOf vop).2.nodeOf pop).1 t
          ((g.nodeOf vop).2.nodeOf pop).2).getNode vop = some (g.nodeOf vop).1 := by
        rw [getNode_tagIfNone]; exact hn1
      rw [tagOf_tagFunction hn1'] at ht
      split at ht
      case isFalse hF =>
        refine ⟨hslot ht, ?_⟩
        rintro rfl
        exact absurd hn1' hF
      case isTrue hF =>
        rw [getNode_tagIfNone] at hF
        split at ht
        case h_1 hnone =>
          cases ht
          have hnone' : g.tagOf F = none := htag ▸ tagOf_eq_none_of_tagIfNone hnone
          refine ⟨Or.inr ⟨hnone', rfl, vop, ?_, hshares (Or.inr ⟨_, hn1, hF⟩)⟩, ?_⟩
          · simp [taggedOperands, hfun]
          · intro _ _ t' _ hsome
            rw [hnone'] at hsome
            cases hsome
        case h_2 t'' hsome =>
          split at ht
          · cases ht
          case isFalse hdis =>
            cases ht
            refine ⟨hslot hsome, ?_⟩
            rintro - - t₁ ⟨rfl⟩ -
            by_cases heq : t' = t
            · rw [heq]; exact TBAAGraph.mayAliasByTBAA_self _ _
            · simpa [heq] using hdis

/-- A move leaves the tag of a value that has a node. -/
theorem tagOf_prepare_move (h : g.Sane) {v1 v2 : Value} (hF : ∃ n, g.getNode F = some n) :
    ((AliasCall.move v1 v2).prepare tg kind g).tagOf F = g.tagOf F := by
  rw [← tagOf_nodeOf h v2 F]
  unfold prepare
  dsimp only
  split
  case h_1 h1 =>
    obtain ⟨n, hn⟩ := hF
    have hne : F ≠ v1 := by rintro rfl; rw [getNode_nodeOf hn] at h1; cases h1
    rw [tagOf, tagOf, tag_insertValue, getNode_insertValue, if_neg hne]
  · rfl

variable (tg kind) in
theorem getNode_prepare {V : Value} {n : NodeId} (hs : g.Sane) (h : g.getNode V = some n)
    (c : AliasCall) : (c.prepare tg kind g).getNode V = some n := by
  refine prepare_induction (I := fun g => g.getNode V = some n) (fun _ hg => getNode_nodeOf hg)
    (fun hsame hg => (getNode_congr hsame.NodeMap V).trans hg) ?_ hs h c
  intro g m v1 _ _ hv1 _ hg
  have hne : V ≠ v1 := by
    rintro rfl
    rw [hg] at hv1
    cases hv1
  rw [getNode_insertValue, if_neg hne]
  exact hg

/-- A stored function has a node. -/
theorem exists_node_of_storedTags (hF : kind F = .function) {t : MDNode}
    (ht : t ∈ c.storedTags F) : ∃ n, (c.prepare tg kind g).getNode F = some n := by
  cases c with
  | store vop pop tag =>
    cases tag with
    | none => simp [storedTags] at ht
    | some t' =>
      have hvF : vop = F := by
        by_contra hne
        simp [storedTags, hne] at ht
      subst hvF
      have hv : kind vop ≠ .constantData := by rw [hF]; decide
      exact ⟨_, (getNode_prepare_store tg hv pop _ g).1⟩
  | _ => simp [storedTags] at ht

theorem stands_of_tagStep (hT : Tagged tg F ts g) (hc : KeepsTag tg kind F ts c g) {t' : MDNode}
    (hstep : TagStep kind F c g t')
    (hmay : g.tagOf F = some t' → ∀ t ∈ c.storedTags F,
      tg.mayAliasByTBAA (some t') (some t) = true) : Stands tg (c.storedTags F ++ ts) t' := by
  rcases hstep with hsome | ⟨hnone, htag, v, hv, hshares⟩
  · have hstored := hc.tagged t' hsome
    have hmay := hmay hsome
    unfold storedTags at hstored hmay ⊢
    split
    · split
      case isTrue hF =>
        simp only [hF, if_true, List.mem_singleton, forall_eq] at hstored hmay
        exact hstored hmay
      · exact hT.stands t' hsome
    · exact hT.stands t' hsome
  · exact hc.untagged hnone v hv hshares t' htag

/-- The tag of `F` stands for its tags before the call joins the graph. -/
theorem tagged_prepare (h : g.Sane) (hF : kind F = .function) (hT : Tagged tg F ts g)
    (hc : KeepsTag tg kind F ts c g) :
    Tagged tg F (c.storedTags F ++ ts) (c.prepare tg kind g) where
  node hne := by
    by_cases hs : c.storedTags F = []
    · obtain ⟨n, hn⟩ := hT.node (by simpa [hs] using hne)
      exact ⟨n, getNode_prepare tg kind h hn c⟩
    · obtain ⟨t, ht⟩ := List.exists_mem_of_ne_nil _ hs
      exact exists_node_of_storedTags hF ht
  stands t' ht' := by
    cases c with
    | alloc ALI => exact hT.stands t' ((tagOf_nodeOf h ALI F).symm.trans ht')
    | load LI op tag =>
      exact stands_of_tagStep hT hc (tagStep_load h ht') (by simp [storedTags])
    | store vop pop tag =>
      by_cases hv : kind vop = .constantData
      · have hvF : vop ≠ F := by rintro rfl; rw [hF] at hv; cases hv
        simp only [prepare, hv, if_true] at ht'
        refine stands_of_tagStep hT hc (Or.inl ht') ?_
        intro _ t ht
        cases tag <;> simp [storedTags, hvF] at ht
      · obtain ⟨hstep, hmay⟩ := tagStep_store h hv ht'
        refine stands_of_tagStep hT hc hstep ?_
        intro hsome t ht
        cases tag with
        | none => simp [storedTags] at ht
        | some t₁ =>
          by_cases hvF : vop = F
          · simp only [storedTags, hvF, if_true, List.mem_singleton] at ht
            exact hmay hvF hF t (by rw [ht]) hsome
          · simp [storedTags, hvF] at ht
    | storeValues vop pop =>
      have htag : ((AliasCall.storeValues vop pop).prepare tg kind g).tagOf F = g.tagOf F := by
        unfold prepare
        dsimp only
        split
        · rfl
        · rw [tagOf_nodeOf (h.nodeOf vop), tagOf_nodeOf h]
      exact hT.stands t' (htag.symm.trans ht')
    | move v1 v2 =>
      cases ts with
      | nil => exact ⟨by simp [storedTags], by simp [storedTags]⟩
      | cons t ts =>
        rw [tagOf_prepare_move h (hT.node (by simp))] at ht'
        exact hT.stands t' ht'

/-- **One call** that meets the condition. -/
theorem tagged_handle (h : g.Sane) (hF : kind F = .function) (hT : Tagged tg F ts g)
    (hc : KeepsTag tg kind F ts c g) :
    Tagged tg F (c.storedTags F ++ ts) (c.handle tg kind g) := by
  have hp := tagged_prepare h hF hT hc
  have hsane := sane_prepare tg kind h c
  rw [handle_eq]
  cases hj : joinOf kind (c.prepare tg kind g) c with
  | none => exact hp
  | link n1 n2 =>
    show Tagged tg F _ ((c.prepare tg kind g).link .toNode n1 n2)
    refine ⟨?_, ?_⟩
    · rw [getNode_congr (NodeMap_link ..)]
      exact hp.node
    · rw [tagOf_congr (NodeMap_link ..) (nodes_link ..)]
      exact hp.stands
  | merge n1 n2 =>
    show Tagged tg F _ (mergeNode tg n1 n2 (c.prepare tg kind g))
    refine ⟨?_, ?_⟩
    · intro hne
      obtain ⟨n, hn⟩ := hp.node hne
      have hU := mergeNode_unifiedFrom tg (c.prepare tg kind g) n1 n2
      obtain ⟨m, hm, -⟩ := hU.groups.forth F n ((hsane.consistent F n).1 hn)
      have hcons : (mergeNode tg n1 n2 (c.prepare tg kind g)).Consistent :=
        consistentInvariant.mergeNode trivial hsane.consistent
      exact ⟨m, (hcons F m).2 hm⟩
    · intro t ht
      obtain ⟨n, x, hn, hnx, hx⟩ := tagOf_mergeNode hsane.consistent ht
      by_cases hxn : x = n
      · exact hp.stands t ((tagOf_of_some hn).trans (hxn ▸ hx))
      · exact hc.merge n1 n2 hj n x t hn hxn hnx hx

/-! ## Runs -/

/-- Every call of the run meets the condition. -/
def KeepsTagRun (tg : TBAAGraph) (kind : Value → ValueKind) (F : Value) :
    List AliasCall → List MDNode → AliasGraph → Prop
  | [], _, _ => True
  | c :: cs, ts, g =>
    KeepsTag tg kind F ts c g ∧ KeepsTagRun tg kind F cs (c.storedTags F ++ ts) (c.handle tg kind g)

theorem tagged_run {cs : List AliasCall} (h : g.Sane) (hF : kind F = .function)
    (hT : Tagged tg F ts g) (hrun : KeepsTagRun tg kind F cs ts g) :
    ∃ ts', Tagged tg F ts' (run tg kind cs g) ∧ (∀ t ∈ ts, t ∈ ts') ∧
      ∀ p t, .store F p (some t) ∈ cs → t ∈ ts' := by
  induction cs generalizing g ts with
  | nil => exact ⟨ts, hT, fun _ ht => ht, by simp⟩
  | cons c cs ih =>
    obtain ⟨hc, hcs⟩ := hrun
    obtain ⟨ts', hT', hts, hstores⟩ := ih (sane_handle tg kind h c) (tagged_handle h hF hT hc) hcs
    refine ⟨ts', hT', fun t ht => hts t (by simp [ht]), ?_⟩
    intro p t hp
    rcases List.mem_cons.1 hp with rfl | hp
    · exact hts t (by simp [storedTags])
    · exact hstores p t hp

/-- **Pruning is sound** in a run whose calls all meet the condition: a function
    is kept wherever one of the tags it was stored with may alias with that of
    the called operand, and it has no tag once two of them are disjoint. -/
theorem tbaaCompatibleForICall_run {cs : List AliasCall} (hF : kind F = .function)
    (hrun : KeepsTagRun tg kind F cs [] {}) :
    (∀ V c p t, (run tg kind cs {}).tagOf V = some c → .store F p (some t) ∈ cs →
      tg.mayAliasByTBAA (some c) (some t) = true →
      tbaaCompatibleForICall tg (run tg kind cs {}) ((run tg kind cs {}).getNode V)
        ((run tg kind cs {}).getNode F) = true) ∧
    ∀ p p' t t', .store F p (some t) ∈ cs → .store F p' (some t') ∈ cs →
      tg.mayAliasByTBAA (some t) (some t') = false → (run tg kind cs {}).tagOf F = none := by
  have hempty : Tagged tg F [] {} := ⟨by simp, fun t ht => by cases ht⟩
  obtain ⟨ts, hT, -, hstores⟩ := tagged_run sane_empty hF hempty hrun
  refine ⟨?_, ?_⟩
  · intro V c p t hc hp hmay
    refine tbaaCompatibleForICall_of_tagOf ?_
    intro c' t' hc' ht'
    cases hc.symm.trans hc'
    exact (hT.stands t' ht').covers t (hstores p t hp) c hmay
  · intro p p' t t' hp hp' hdis
    by_contra hne
    obtain ⟨s, hs⟩ := Option.ne_none_iff_exists'.1 hne
    have hmay := (hT.stands s hs).agree t (hstores p t hp) t' (hstores p' t' hp')
    rw [hdis] at hmay
    cases hmay

/-- A tag stands for itself, however often. -/
theorem stands_replicate {t : MDNode} (h : ∀ t' ∈ ts, t' = t) : Stands tg ts t where
  covers t' ht' := by
    rw [h t' ht']
    exact fun _ hc => hc
  agree t' ht' t'' ht'' := by
    rw [h t' ht', h t'' ht'']
    exact TBAAGraph.mayAliasByTBAA_self _ _

/-- The function `0` and values that are no functions. -/
def oneFunction (v : Value) : ValueKind := if v = 0 then .function else .argument

/-- The function is stored to two slots, as an `int` and as a `long`. -/
abbrev twoSlots : List AliasCall := [.store 0 1 (some 4), .store 0 2 (some 5)]

/-- The graph before the two slots are merged. -/
abbrev twoSlotsGraph : AliasGraph :=
  (AliasCall.store 0 2 (some 5)).prepare .twoScalars oneFunction
    ((AliasCall.store 0 1 (some 4)).handle .twoScalars oneFunction {})

/-- The only edge leads from the first slot to the function. -/
theorem edge_twoSlots {d : Dir} {a b : NodeId} (h : twoSlotsGraph.EdgeBetween d a b) :
    a = 1 ∧ b = 0 ∨ a = 0 ∧ b = 1 := by
  have hnext : ∀ d x, twoSlotsGraph.next d x = (({} : AliasGraph).link .toNode 1 0).next d x := by
    rintro (_ | _) x
    · rfl
    · rfl
  have hempty : ∀ d x, ({} : AliasGraph).next d x = none := by
    rintro (_ | _) x
    · rfl
    · rfl
  unfold EdgeBetween at h
  simp only [hnext, next_link, hempty] at h
  cases d <;> grind [Dir.rev]

/-- The slots are merged, and the node of the function is unified with no other. -/
theorem unify_twoSlots {x y : NodeId} (h : Unify twoSlotsGraph 1 2 x y) :
    x = y ∨ x ≠ 0 ∧ y ≠ 0 := by
  induction h with
  | base => exact Or.inr (by decide)
  | refl x => exact Or.inl rfl
  | symm _ ih => exact ih.imp Eq.symm And.symm
  | trans _ _ ih₁ ih₂ => grind
  | step _ hx hy ih =>
    have hx' := edge_twoSlots hx
    have hy' := edge_twoSlots hy
    grind

theorem keepsTagRun_twoSlots : KeepsTagRun .twoScalars oneFunction 0 twoSlots [] {} := by
  refine ⟨⟨?_, ?_, ?_⟩, ⟨?_, ?_, ?_⟩, trivial⟩
  · rintro - v - - t ⟨rfl⟩
    exact stands_replicate (by simp [storedTags])
  · rintro t' ⟨⟩
  · rintro n1 n2 ⟨⟩
  · intro hnone
    exact absurd hnone (by decide)
  · rintro t' ⟨rfl⟩ t ht hmay
    obtain rfl : t = 5 := by simpa [storedTags] using ht
    exact absurd hmay (by decide)
  · rintro n1 n2 ⟨rfl⟩ n x t ⟨rfl⟩ hne hunify -
    rcases unify_twoSlots hunify with heq | ⟨hzero, -⟩
    · exact absurd heq.symm hne
    · exact absurd rfl hzero

theorem tbaaCompatibleForICall_run_twoSlots :
    (∀ V c p t, (run .twoScalars oneFunction twoSlots {}).tagOf V = some c →
      .store 0 p (some t) ∈ twoSlots →
      TBAAGraph.twoScalars.mayAliasByTBAA (some c) (some t) = true →
      tbaaCompatibleForICall .twoScalars (run .twoScalars oneFunction twoSlots {})
        ((run .twoScalars oneFunction twoSlots {}).getNode V)
        ((run .twoScalars oneFunction twoSlots {}).getNode 0) = true) ∧
    ∀ p p' t t', .store 0 p (some t) ∈ twoSlots → .store 0 p' (some t') ∈ twoSlots →
      TBAAGraph.twoScalars.mayAliasByTBAA (some t) (some t') = false →
      (run .twoScalars oneFunction twoSlots {}).tagOf 0 = none :=
  tbaaCompatibleForICall_run rfl keepsTagRun_twoSlots

/-- The function `0` is stored as an `int`, as a `long`, which takes its tag away,
    and as a `long` again, which tags it; the operand `5`, an `int`, loses it. -/
theorem tbaaCompatibleForICall_prunes :
    ¬ ∀ (tg : TBAAGraph) (kind : Value → ValueKind) (cs : List AliasCall) (F V p : Value)
      (c t : MDNode), kind F = .function → (run tg kind cs {}).tagOf V = some c →
      .store F p (some t) ∈ cs → tg.mayAliasByTBAA (some c) (some t) = true →
      tbaaCompatibleForICall tg (run tg kind cs {}) ((run tg kind cs {}).getNode V)
        ((run tg kind cs {}).getNode F) = true := by
  intro h
  have hkept := h .twoScalars oneFunction [.store 0 1 (some 4), .store 0 2 (some 5),
    .store 0 3 (some 5), .load 5 4 (some 4)] 0 5 1 4 4 rfl (by decide) (by simp)
    (TBAAGraph.mayAliasByTBAA_self _ _)
  have hpruned : tbaaCompatibleForICall .twoScalars
      (run .twoScalars oneFunction [.store 0 1 (some 4), .store 0 2 (some 5),
        .store 0 3 (some 5), .load 5 4 (some 4)] {})
      ((run .twoScalars oneFunction [.store 0 1 (some 4), .store 0 2 (some 5),
        .store 0 3 (some 5), .load 5 4 (some 4)] {}).getNode 5)
      ((run .twoScalars oneFunction [.store 0 1 (some 4), .store 0 2 (some 5),
        .store 0 3 (some 5), .load 5 4 (some 4)] {}).getNode 0) = false := by decide
  rw [hpruned] at hkept
  cases hkept

end AliasCall

end TFA
