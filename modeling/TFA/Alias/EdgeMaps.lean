/-
  The two edge maps as inverses of each other, between nodes that hold values.

  `mergeNode` erases four entries, merges the neighbours and then writes two
  entries back.  `Clean` asks of each such write that the entries are still free
  and that both nodes hold values; then the maps stay inverse and lead between
  nodes with values (`edgesLive_run`).  On a ring the write finds an entry that
  the nested merge has made (`edgesLive_fails`).

  A merge empties `n1` before it has moved the edges of `n1`, so the invariant
  carries the nodes that may be empty: `LiveBut E`.
-/
import TFA.Alias.Partition

namespace TFA

open AliasGraph Links

namespace AliasGraph

variable {tg : TBAAGraph} {g g' : AliasGraph} {n1 n2 t1 t2 a b : NodeId} {d : Dir}
  {E E' : Dir → Set NodeId}

/-! ## Clean merges -/

/-- The node holds a value. -/
def Live (g : AliasGraph) (n : NodeId) : Prop := (g.aliasclass n).Nonempty

instance (g : AliasGraph) (n : NodeId) : Decidable (g.Live n) :=
  inferInstanceAs (Decidable (g.aliasclass n).Nonempty)

/-- The write after the nested merge: the entries of `n2` and `t2` are free, and
    the two nodes hold values.  In the first half `t2` may be `n1`, whose other
    edge is moved in the second half. -/
def CleanWrite (d : Dir) (n1 n2 t2 : NodeId) (g : AliasGraph) : Prop :=
  (g.next d n2 = none ∨ g.next d n2 = some t2) ∧
    (g.next d.rev t2 = none ∨ g.next d.rev t2 = some n2) ∧
    g.Live n2 ∧ (g.Live t2 ∨ d = .toNode ∧ t2 = n1)

instance (d : Dir) (n1 n2 t2 : NodeId) (g : AliasGraph) :
    Decidable (CleanWrite d n1 n2 t2 g) := by
  unfold CleanWrite; infer_instance

/-- One half of a merge makes a clean write, if it makes one. -/
def CleanEdges (merge : NodeId → NodeId → AliasGraph → AliasGraph)
    (clean : NodeId → NodeId → AliasGraph → Prop) (d : Dir) (n1 n2 : NodeId) (g : AliasGraph) :
    Prop :=
  match g.next d n1 with
  | none => True
  | some n1_toNode =>
    match g.next d n2 with
    | some n2_toNode =>
      n1_toNode = n2_toNode ∨
        clean n1_toNode n2_toNode (g.tearOut d n1 n2 n1_toNode n2_toNode) ∧
          CleanWrite d n1 n2 n2_toNode
            (merge n1_toNode n2_toNode (g.tearOut d n1 n2 n1_toNode n2_toNode))
    | none => g.Live n2

/-- All writes are clean, to a depth of `fuel` nested calls. -/
def CleanWithin (tg : TBAAGraph) : ℕ → NodeId → NodeId → AliasGraph → Prop
  | 0, _, _, _ => True
  | fuel + 1, n1, n2, g =>
    shouldMergeByTBAA tg g n1 n2 = true → n1 ≠ n2 →
      CleanEdges (mergeNodeWithin tg fuel) (CleanWithin tg fuel) .toNode n1 n2 (g.moved n1 n2) ∧
        CleanEdges (mergeNodeWithin tg fuel) (CleanWithin tg fuel) .fromNode n1 n2
          (mergeEdges (mergeNodeWithin tg fuel) .toNode n1 n2 (g.moved n1 n2))

/-- All writes that merging `n1` into `n2` makes are clean. -/
def Clean (tg : TBAAGraph) (n1 n2 : NodeId) (g : AliasGraph) : Prop :=
  CleanWithin tg (g.entries + 1) n1 n2 g

instance (merge : NodeId → NodeId → AliasGraph → AliasGraph)
    (clean : NodeId → NodeId → AliasGraph → Prop) [∀ n1 n2 g, Decidable (clean n1 n2 g)] (d : Dir)
    (n1 n2 : NodeId) (g : AliasGraph) : Decidable (CleanEdges merge clean d n1 n2 g) := by
  unfold CleanEdges
  split
  · infer_instance
  · split <;> infer_instance

instance decidableCleanWithin (tg : TBAAGraph) :
    ∀ fuel n1 n2 g, Decidable (CleanWithin tg fuel n1 n2 g)
  | 0, _, _, _ => isTrue trivial
  | fuel + 1, n1, n2, g => by
    have := decidableCleanWithin tg fuel
    unfold CleanWithin
    infer_instance

instance (tg : TBAAGraph) (n1 n2 : NodeId) (g : AliasGraph) : Decidable (Clean tg n1 n2 g) :=
  inferInstanceAs (Decidable (CleanWithin tg _ n1 n2 g))

/-! ## The invariant -/

/-- The maps mirror each other, and only nodes of `E d` have an edge in the
    direction `d` without holding a value. -/
structure LiveBut (E : Dir → Set NodeId) (g : AliasGraph) : Prop where
  mirrored : g.Mirrored
  live : ∀ d a b, g.next d a = some b → g.Live a ∨ a ∈ E d

/-- The exceptions without `n` in the direction `d`. -/
def drop (E : Dir → Set NodeId) (d : Dir) (n : NodeId) (d' : Dir) : Set NodeId :=
  {x | x ∈ E d' ∧ ¬ (d' = d ∧ x = n)}

theorem mem_drop_rev {n : NodeId} (h : a ∈ E d.rev) : a ∈ drop E d n d.rev :=
  ⟨h, fun h' => Dir.rev_ne d h'.1⟩

theorem LiveBut.mono (h : LiveBut E g) (hE : ∀ d, E d ⊆ E' d) : LiveBut E' g :=
  ⟨h.mirrored, fun d a b hab => (h.live d a b hab).imp_right fun ha => hE d ha⟩

/-- A node without an edge is no exception. -/
theorem LiveBut.drop (h : LiveBut E g) (hn : g.next d n1 = none) : LiveBut (drop E d n1) g := by
  refine ⟨h.mirrored, fun d' a b hab => (h.live d' a b hab).imp_right fun ha => ⟨ha, ?_⟩⟩
  rintro ⟨rfl, rfl⟩
  rw [hn] at hab
  cases hab

theorem live_congr (h : g'.nodes = g.nodes) (n : NodeId) : g'.Live n ↔ g.Live n := by
  rw [Live, Live, aliasclass_congr h]

/-! ## One merge -/

theorem LiveBut.tearOut (h : LiveBut E g) (h1 : g.next d n1 = some t1)
    (h2 : g.next d n2 = some t2) : LiveBut (AliasGraph.drop E d n1) (g.tearOut d n1 n2 t1 t2) := by
  have hsub : ∀ d' a b, (g.tearOut d n1 n2 t1 t2).next d' a = some b → g.next d' a = some b := by
    intro d' a b hab
    simp only [AliasGraph.tearOut, next_eraseEdge] at hab
    grind
  have htorn : LiveBut E (g.tearOut d n1 n2 t1 t2) := by
    refine ⟨mirrored_of_inverse (inverse_tearOut (h.mirrored.inverse d) h1 h2), ?_⟩
    intro d' a b hab
    rw [live_congr (nodes_tearOut _ _ _ _ _ _)]
    exact h.live d' a b (hsub d' a b hab)
  exact htorn.drop (by rw [next_tearOut, if_pos (Or.inl rfl)])

/-- A link written to free entries. -/
theorem LiveBut.link (h : LiveBut E g) (hfree : g.next d a = none ∨ g.next d a = some b)
    (hfree' : g.next d.rev b = none ∨ g.next d.rev b = some a) (ha : g.Live a)
    (hb : g.Live b ∨ b ∈ E d.rev) : LiveBut E (g.link d a b) := by
  refine ⟨mirrored_of_inverse (d := d) fun x y => ?_, fun d' x y hxy => ?_⟩
  · have hxy := h.mirrored.inverse d x y
    have hay := h.mirrored.inverse d a y
    have hxb := h.mirrored.inverse d x b
    rw [next_link, next_link]
    grind [Dir.rev_ne, Dir.ne_rev]
  · rw [live_congr (nodes_link _ _ _ _)]
    rw [next_link] at hxy
    split at hxy
    case isTrue hx => exact Or.inl (hx.2 ▸ ha)
    · split at hxy
      case isTrue hx =>
        rw [hx.1, hx.2]
        exact hb
      · exact h.live d' x y hxy

/-- The write after the nested merge. -/
theorem LiveBut.write (h : LiveBut E g) (hc : CleanWrite d n1 n2 t2 g)
    (hE : d = .toNode → n1 ∈ E .fromNode) : LiveBut E (g.link d n2 t2) := by
  obtain ⟨hfree, hfree', hlive, hlive'⟩ := hc
  refine h.link hfree hfree' hlive (hlive'.imp_right ?_)
  rintro ⟨rfl, rfl⟩
  exact hE rfl

/-- The edge of `n1` becomes one of `n2`. -/
theorem LiveBut.shift (h : LiveBut E g) (h1 : g.next d n1 = some t1) (h2 : g.next d n2 = none)
    (hlive : g.Live n2) (hn : n1 ≠ n2) :
    LiveBut (AliasGraph.drop E d n1) ((g.eraseEdge d n1).link d n2 t1) := by
  have hback := (h.mirrored.inverse d n1 t1).1 h1
  refine ⟨mirrored_of_inverse (d := d) fun a b => ?_, fun d' a b hab => ?_⟩
  · have hab := h.mirrored.inverse d a b
    have ha := h.mirrored.inverse d n1 b
    have hb := h.mirrored.inverse d a t1
    rw [next_link, next_link, next_eraseEdge, next_eraseEdge]
    grind [Dir.rev_ne, Dir.ne_rev]
  · rw [live_congr (g := g) (by simp)]
    rw [next_link] at hab
    split at hab
    case isTrue ha => exact Or.inl (ha.2 ▸ hlive)
    · split at hab
      case isTrue ha =>
        rw [ha.1, ha.2]
        exact (h.live d.rev t1 n1 hback).imp_right mem_drop_rev
      · rw [next_eraseEdge] at hab
        split at hab
        · cases hab
        case isFalse hd => exact (h.live d' a b hab).imp_right fun ha => ⟨ha, hd⟩

theorem LiveBut.mergeEdges (h : LiveBut E g) {M : NodeId → NodeId → AliasGraph → AliasGraph}
    {clean : NodeId → NodeId → AliasGraph → Prop}
    (hM : ∀ E n1 n2 g, LiveBut E g → clean n1 n2 g → LiveBut E (M n1 n2 g))
    (hc : CleanEdges M clean d n1 n2 g) (hn : n1 ≠ n2) (hE : d = .toNode → n1 ∈ E .fromNode) :
    LiveBut (AliasGraph.drop E d n1) (mergeEdges M d n1 n2 g) := by
  unfold CleanEdges at hc
  unfold AliasGraph.mergeEdges
  cases h1 : g.next d n1 with
  | none => exact h.drop h1
  | some t1 =>
    cases h2 : g.next d n2 with
    | none =>
      simp only [h1, h2] at hc
      exact h.shift h1 h2 hc hn
    | some t2 =>
      simp only [h1, h2] at hc
      have ht : t1 ≠ t2 := fun ht => hn ((h.mirrored.inverse d).injective h1 (ht ▸ h2))
      obtain ⟨hclean, hwrite⟩ := hc.resolve_left ht
      dsimp only
      rw [if_neg ht]
      refine (hM _ t1 t2 _ (h.tearOut h1 h2) hclean).write hwrite ?_
      rintro rfl
      exact mem_drop_rev (d := .toNode) (hE rfl)

theorem live_moved (h : g.Live a) (ha : a ≠ n1) : (g.moved n1 n2).Live a := by
  rw [Live, aliasclass_moved, if_neg ha]
  split
  case isTrue hx => exact Finset.Nonempty.mono Finset.subset_union_left (hx ▸ h)
  · exact h

/-- `n1` is emptied before its edges are moved. -/
theorem LiveBut.moved (h : LiveBut E g) (n1 n2 : NodeId) :
    LiveBut (fun d => insert n1 (E d)) (g.moved n1 n2) := by
  refine ⟨?_, fun d a b hab => ?_⟩
  · rw [Mirrored, next_moved, next_moved]
    exact h.mirrored
  · rw [next_moved] at hab
    by_cases ha : a = n1
    · exact Or.inr (Set.mem_insert_iff.2 (Or.inl ha))
    · exact (h.live d a b hab).imp (fun hl => live_moved hl ha) (Set.mem_insert_of_mem n1)

/-- **One merge.**  If its writes are clean, the maps still mirror each other, and
    no further node has an edge without a value. -/
theorem LiveBut.mergeNodeWithin (fuel : ℕ) : ∀ E n1 n2 g, LiveBut E g →
    CleanWithin tg fuel n1 n2 g → LiveBut E (mergeNodeWithin tg fuel n1 n2 g) := by
  induction fuel with
  | zero => exact fun _ _ _ _ h _ => h
  | succ fuel ih =>
    intro E n1 n2 g h hc
    unfold AliasGraph.mergeNodeWithin mergeBody
    split
    case isTrue hgate =>
      dsimp only
      split
      · refine ⟨?_, fun d a b hab => ?_⟩
        · rw [Mirrored, next_inheritTag, next_inheritTag]
          exact h.mirrored
        · rw [next_inheritTag] at hab
          rw [Live, aliasclass_inheritTag]
          exact h.live d a b hab
      case isFalse hn =>
        obtain ⟨hto, hfrom⟩ := hc hgate hn
        have h1 := (h.moved n1 n2).mergeEdges ih hto hn fun _ => Set.mem_insert _ _
        have h2 := h1.mergeEdges ih hfrom hn (by rintro ⟨⟩)
        refine h2.mono fun d x hx => ?_
        -- each half has taken `n1` out of the exceptions of its direction
        obtain ⟨⟨hxE, hxto⟩, hxfrom⟩ := hx
        refine (Set.mem_insert_iff.1 hxE).resolve_left fun hx1 => ?_
        cases d with
        | toNode => exact hxto ⟨rfl, hx1⟩
        | fromNode => exact hxfrom ⟨rfl, hx1⟩
    case isFalse =>
      refine ⟨h.mirrored, fun d a b hab => h.live d a b ?_⟩
      cases d <;> exact hab

theorem LiveBut.mergeNode (h : LiveBut E g) (hc : Clean tg n1 n2 g) :
    LiveBut E (mergeNode tg n1 n2 g) :=
  LiveBut.mergeNodeWithin _ E n1 n2 g h hc

/-- The maps mirror each other, and every edge is between nodes with values. -/
def EdgesLive (g : AliasGraph) : Prop := LiveBut (fun _ => ∅) g

theorem edgesLive_iff : EdgesLive g ↔
    (∀ a b, g.ToNodeMap.lookup a = some b ↔ g.FromNodeMap.lookup b = some a) ∧
      ∀ d a b, g.next d a = some b → g.Live a ∧ g.Live b := by
  constructor
  · intro h
    refine ⟨h.mirrored, fun d a b hab => ⟨?_, ?_⟩⟩
    · exact (h.live d a b hab).resolve_right (Set.notMem_empty a)
    · exact (h.live d.rev b a ((h.mirrored.inverse d a b).1 hab)).resolve_right
        (Set.notMem_empty b)
  · rintro ⟨hmirror, hlive⟩
    exact ⟨hmirror, fun d a b hab => Or.inl (hlive d a b hab).1⟩

theorem LiveBut.grow (h : LiveBut E g) (hnext : ∀ d, g'.next d = g.next d)
    (hclass : ∀ x, g.aliasclass x ⊆ g'.aliasclass x) : LiveBut E g' := by
  refine ⟨?_, fun d a b hab => ?_⟩
  · rw [Mirrored, hnext, hnext]
    exact h.mirrored
  · rw [hnext] at hab
    exact (h.live d a b hab).imp_left fun hl => hl.mono (hclass a)

theorem SameShape.liveBut (h : SameShape g g') (hg : LiveBut E g) : LiveBut E g' :=
  hg.grow h.next fun x => by rw [h.aliasclass]

theorem LiveBut.insertValue (h : LiveBut E g) (n : NodeId) (V : Value) :
    LiveBut E (g.insertValue n V) := by
  refine h.grow (fun d => next_insertValue _ _ _) fun x => ?_
  rw [aliasclass_insertValue]
  split
  case isTrue hx => exact hx ▸ Finset.subset_insert V _
  · exact Finset.Subset.refl _

theorem LiveBut.nodeOf (h : LiveBut E g) (V : Value) : LiveBut E (g.nodeOf V).2 := by
  cases hV : g.getNode V with
  | some n => rw [nodeOf_of_some hV]; exact h
  | none =>
    have hnew : LiveBut E { g with fresh := g.fresh + 1 } :=
      h.grow (fun d => by cases d <;> rfl) fun _ => Finset.Subset.refl _
    rw [nodeOf_of_none hV]
    exact hnew.insertValue g.fresh V

end AliasGraph

namespace AliasCall

variable {tg : TBAAGraph} {kind : Value → ValueKind} {g : AliasGraph} {c : AliasCall}
  {cs : List AliasCall}

/-- The writes of the merge that the call makes, if any, are clean. -/
def CleanIn (tg : TBAAGraph) (kind : Value → ValueKind) (c : AliasCall) (g : AliasGraph) : Prop :=
  match joinOf kind (c.prepare tg kind g) c with
  | .merge n1 n2 => Clean tg n1 n2 (c.prepare tg kind g)
  | _ => True

instance (tg : TBAAGraph) (kind : Value → ValueKind) (c : AliasCall) (g : AliasGraph) :
    Decidable (c.CleanIn tg kind g) :=
  Join.decidableOnMerge (fun _ _ => inferInstance) (joinOf kind (c.prepare tg kind g) c)

/-- Every call of the run makes clean writes. -/
def CleanRun (tg : TBAAGraph) (kind : Value → ValueKind) : List AliasCall → AliasGraph → Prop
  | [], _ => True
  | c :: cs, g => c.CleanIn tg kind g ∧ CleanRun tg kind cs (c.handle tg kind g)

instance decidableCleanRun (tg : TBAAGraph) (kind : Value → ValueKind) :
    ∀ cs g, Decidable (CleanRun tg kind cs g)
  | [], _ => isTrue trivial
  | c :: cs, g =>
    have := decidableCleanRun tg kind cs (c.handle tg kind g)
    inferInstanceAs (Decidable (c.CleanIn tg kind g ∧ CleanRun tg kind cs (c.handle tg kind g)))

variable (tg kind) in
theorem edgesLive_prepare (h : g.EdgesLive) (hs : g.Sane) (c : AliasCall) :
    (c.prepare tg kind g).EdgesLive :=
  prepare_induction (I := EdgesLive) (fun V hg => LiveBut.nodeOf hg V)
    (fun hsame hg => hsame.liveBut hg) (fun _ _ _ hg => LiveBut.insertValue hg _ _) hs h c

/-- A link is made between nodes with values whose entries are free. -/
def Join.Free (g : AliasGraph) : Join → Prop
  | .none | .merge _ _ => True
  | .link n1 n2 => g.next .toNode n1 = Option.none ∧ g.next .fromNode n2 = Option.none ∧
      g.Live n1 ∧ g.Live n2

variable (kind) in
theorem free_joinOf (h : g.Consistent) (c : AliasCall) : (joinOf kind g c).Free g := by
  refine joinOf_cases c trivial ?_ fun _ _ _ _ _ _ => trivial
  intro V W n1 n2 h1 h2
  have hlive : ∀ {V n}, g.getNode V = some n → g.Live n := fun hn => ⟨_, (h _ _).1 hn⟩
  unfold pointJoin
  cases hto : g.next .toNode n2 with
  | some t => trivial
  | none =>
    cases hfrom : g.next .fromNode n1 with
    | some f => trivial
    | none => exact ⟨hto, hfrom, hlive h2, hlive h1⟩

/-- A call with clean writes keeps the edge maps inverse and their ends alive. -/
theorem edgesLive_handle (h : g.EdgesLive) (hs : g.Sane) (hc : c.CleanIn tg kind g) :
    (c.handle tg kind g).EdgesLive := by
  have hp := edgesLive_prepare tg kind h hs c
  have hfree := free_joinOf kind (sane_prepare tg kind hs c).consistent c
  unfold CleanIn at hc
  rw [handle_eq]
  cases hj : joinOf kind (c.prepare tg kind g) c with
  | none => exact hp
  | merge n1 n2 =>
    rw [hj] at hc
    exact LiveBut.mergeNode hp hc
  | link n1 n2 =>
    rw [hj] at hfree
    obtain ⟨hto, hfrom, h1, h2⟩ := hfree
    exact LiveBut.link hp (Or.inl hto) (Or.inl hfrom) h1 (Or.inl h2)

theorem edgesLive_empty : EdgesLive {} := by
  refine ⟨wellFormed_empty.mirrored, fun d a b hab => ?_⟩
  cases d <;> cases hab

/-- A run with clean writes. -/
theorem cleanRun_edgesLive (h : g.EdgesLive) (hs : g.Sane) (hc : CleanRun tg kind cs g)
    {cs₁ : List AliasCall} (hpre : cs₁ <+: cs) : (run tg kind cs₁ g).EdgesLive := by
  induction cs₁ generalizing cs g with
  | nil => exact h
  | cons c cs₁ ih =>
    cases cs with
    | nil => exact absurd (List.prefix_nil.1 hpre) (List.cons_ne_nil c cs₁)
    | cons c' cs =>
      obtain ⟨rfl, htail⟩ := List.cons_prefix_cons.1 hpre
      exact ih (edgesLive_handle h hs hc.1) (sane_handle tg kind hs c) hc.2 htail

/-- **The edge maps.**  In every state that a run with clean writes reaches,
    `ToNodeMap` and `FromNodeMap` are inverses, and every edge is between nodes
    that hold values. -/
theorem edgesLive_run (hc : CleanRun tg kind cs {}) {cs₁ : List AliasCall} (hpre : cs₁ <+: cs) :
    (∀ a b, (run tg kind cs₁ {}).ToNodeMap.lookup a = some b ↔
      (run tg kind cs₁ {}).FromNodeMap.lookup b = some a) ∧
    ∀ d a b, (run tg kind cs₁ {}).next d a = some b →
      ((run tg kind cs₁ {}).aliasclass a).Nonempty ∧
        ((run tg kind cs₁ {}).aliasclass b).Nonempty :=
  edgesLive_iff.1 (cleanRun_edgesLive edgesLive_empty sane_empty hc hpre)

theorem edgesLive_run_move :
    (∀ a b, (run .empty (fun _ => .argument)
        [.load 0 1 none, .load 2 3 none, .move 1 3] {}).ToNodeMap.lookup a = some b ↔
      (run .empty (fun _ => .argument)
        [.load 0 1 none, .load 2 3 none, .move 1 3] {}).FromNodeMap.lookup b = some a) ∧
    ∀ d a b, (run .empty (fun _ => .argument)
        [.load 0 1 none, .load 2 3 none, .move 1 3] {}).next d a = some b →
      ((run .empty (fun _ => .argument)
          [.load 0 1 none, .load 2 3 none, .move 1 3] {}).aliasclass a).Nonempty ∧
        ((run .empty (fun _ => .argument)
          [.load 0 1 none, .load 2 3 none, .move 1 3] {}).aliasclass b).Nonempty :=
  have hclean : CleanRun .empty (fun _ => .argument)
      [.load 0 1 none, .load 2 3 none, .move 1 3] {} := by decide
  edgesLive_run hclean (List.prefix_refl _)

/-- The ring `x = *x` of `0` and `1`, and `4` loaded from `3`, loaded from `2`:
    after `2` is moved into the ring, `FromNodeMap` leads from the node of `4` to
    the ring, and `ToNodeMap` does not lead back. -/
theorem edgeMaps_not_inverse :
    ¬ ∀ (tg : TBAAGraph) (kind : Value → ValueKind) (cs : List AliasCall),
      (∀ a b, (run tg kind cs {}).ToNodeMap.lookup a = some b ↔
        (run tg kind cs {}).FromNodeMap.lookup b = some a) ∧
      ∀ d a b, (run tg kind cs {}).next d a = some b →
        ((run tg kind cs {}).aliasclass a).Nonempty ∧
          ((run tg kind cs {}).aliasclass b).Nonempty := by
  intro h
  have hinv := (h .empty (fun _ => .argument)
    [.move 0 1, .load 0 1 none, .load 3 2 none, .load 4 3 none, .move 2 0]).1
  have hbad : ∃ a b, (run .empty (fun _ => .argument)
      [.move 0 1, .load 0 1 none, .load 3 2 none, .load 4 3 none, .move 2 0] {}
      ).FromNodeMap.lookup b = some a ∧ (run .empty (fun _ => .argument)
      [.move 0 1, .load 0 1 none, .load 3 2 none, .load 4 3 none, .move 2 0] {}
      ).ToNodeMap.lookup a ≠ some b := ⟨0, 3, by decide⟩
  obtain ⟨a, b, hfrom, hto⟩ := hbad
  exact hto ((hinv a b).2 hfrom)

end AliasCall

end TFA
