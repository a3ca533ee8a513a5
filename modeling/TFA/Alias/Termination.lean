/-
  Termination of `mergeNode`.

  The measure is the number of pairs that one of the two maps connects
  (`edgePairs`), whether or not the maps mirror each other: a nested call runs
  on a graph that has lost two pairs, and only one comes back after it.

  * `mergeNodeWithin_eq`: every depth above the number of pairs gives the same
    result, with no more pairs than before;
  * `mergeNode_eq`: `mergeNode` is its own recursive equation;
  * `Returns` is the recursion of the source, without a depth; on every graph it
    comes to an end, with the graph of `mergeNode` (`mergeNode_returns`).
-/
import TFA.Alias.Graph

namespace TFA.AliasGraph

/-! ## The pairs of a graph -/

section
variable (g : AliasGraph) (d : Dir)

/-- The pairs that one of the two maps connects, in the direction `d`. -/
def edgePairs : Finset (NodeId × NodeId) :=
  (g.edges d).keys.image (fun a => (a, (g.next d a).getD 0)) ∪
    (g.edges d.rev).keys.image (fun b => ((g.next d.rev b).getD 0, b))

variable {g d}

theorem mem_keys_iff {n : NodeId} : n ∈ (g.edges d).keys ↔ ∃ m, g.next d n = some m := by
  rw [Finmap.mem_keys, Finmap.mem_iff]; rfl

theorem mem_edgePairs {a b : NodeId} :
    (a, b) ∈ g.edgePairs d ↔ g.next d a = some b ∨ g.next d.rev b = some a := by
  simp only [edgePairs, Finset.mem_union, Finset.mem_image, Prod.mk.injEq, mem_keys_iff]
  constructor
  · rintro (⟨x, ⟨m, hm⟩, rfl, rfl⟩ | ⟨x, ⟨m, hm⟩, rfl, rfl⟩)
    · exact Or.inl (by simp [hm])
    · exact Or.inr (by simp [hm])
  · rintro (h | h)
    · exact Or.inl ⟨a, ⟨b, h⟩, rfl, by simp [h]⟩
    · exact Or.inr ⟨b, ⟨a, h⟩, by simp [h], rfl⟩

theorem card_edgePairs_rev : (g.edgePairs d.rev).card = (g.edgePairs d).card := by
  refine Finset.card_bij (fun p _ => (p.2, p.1)) ?_ ?_ ?_
  · rintro ⟨a, b⟩ h
    rw [mem_edgePairs, Dir.rev_rev] at h
    exact mem_edgePairs.2 h.symm
  · rintro ⟨a, b⟩ _ ⟨a', b'⟩ _ h
    simp only [Prod.mk.injEq] at h ⊢
    exact h.symm
  · rintro ⟨a, b⟩ h
    refine ⟨(b, a), ?_, rfl⟩
    rw [mem_edgePairs, Dir.rev_rev]
    exact (mem_edgePairs.1 h).symm

theorem card_edgePairs_le : (g.edgePairs d).card ≤ g.entries := by
  have h : (g.edgePairs d).card ≤ (g.edges d).keys.card + (g.edges d.rev).keys.card :=
    (Finset.card_union_le _ _).trans (Nat.add_le_add Finset.card_image_le Finset.card_image_le)
  cases d
  · exact h
  · exact h.trans_eq (Nat.add_comm _ _)

theorem edgePairs_congr {g' : AliasGraph} (h : ∀ d, g'.next d = g.next d) :
    g'.edgePairs d = g.edgePairs d := by
  ext ⟨a, b⟩
  rw [mem_edgePairs, mem_edgePairs, h, h]

/-! ## How the edge changes act on the pairs -/

theorem card_edgePairs_link (n m : NodeId) :
    ((g.link d n m).edgePairs d).card ≤ (g.edgePairs d).card + 1 := by
  refine (Finset.card_le_card fun p hp => ?_).trans (Finset.card_insert_le (n, m) _)
  obtain ⟨a, b⟩ := p
  rw [mem_edgePairs, next_link, next_link] at hp
  rw [Finset.mem_insert, mem_edgePairs]
  simp only [Dir.ne_rev, Dir.rev_ne, false_and, true_and, if_false] at hp
  grind

theorem card_edgePairs_tearOut {n1 n2 t1 t2 : NodeId} (hn : n1 ≠ n2) (h1 : g.next d n1 = some t1)
    (h2 : g.next d n2 = some t2) :
    ((g.tearOut d n1 n2 t1 t2).edgePairs d).card + 2 ≤ (g.edgePairs d).card := by
  have hpair : ({(n1, t1), (n2, t2)} : Finset (NodeId × NodeId)).card = 2 :=
    Finset.card_pair (by simp [hn])
  rw [← hpair, ← Finset.card_union_of_disjoint]
  · refine Finset.card_le_card fun p hp => ?_
    obtain ⟨a, b⟩ := p
    rw [Finset.mem_union, mem_edgePairs, next_tearOut, next_rev_tearOut] at hp
    rw [mem_edgePairs]
    simp only [Finset.mem_insert, Finset.mem_singleton, Prod.mk.injEq] at hp
    grind
  · rw [Finset.disjoint_right]
    rintro ⟨a, b⟩ hp
    rw [mem_edgePairs, next_tearOut, next_rev_tearOut]
    simp only [Finset.mem_insert, Finset.mem_singleton, Prod.mk.injEq] at hp
    grind

theorem card_edgePairs_move {n1 n2 t1 : NodeId} (hn : n1 ≠ n2) (h1 : g.next d n1 = some t1) :
    (((g.eraseEdge d n1).link d n2 t1).edgePairs d).card ≤ (g.edgePairs d).card := by
  have hmem : (n1, t1) ∈ g.edgePairs d := mem_edgePairs.2 (Or.inl h1)
  rw [← Finset.card_erase_add_one hmem]
  refine (Finset.card_le_card fun p hp => ?_).trans (Finset.card_insert_le (n2, t1) _)
  obtain ⟨a, b⟩ := p
  rw [mem_edgePairs, next_link, next_link, next_eraseEdge, next_eraseEdge] at hp
  rw [Finset.mem_insert, Finset.mem_erase, mem_edgePairs]
  simp only [Dir.ne_rev, Dir.rev_ne, false_and, true_and, if_false] at hp
  grind

end

/-! ## One level of the recursion -/

section
variable (tg : TBAAGraph) {k : ℕ} {M M' : NodeId → NodeId → AliasGraph → AliasGraph}

/-- `M` adds no pairs to a graph with fewer than `k`. -/
def Shrinks (k : ℕ) (M : NodeId → NodeId → AliasGraph → AliasGraph) : Prop :=
  ∀ n1 n2 g, (g.edgePairs .toNode).card < k →
    ((M n1 n2 g).edgePairs .toNode).card ≤ (g.edgePairs .toNode).card

/-- `M` and `M'` agree on a graph with fewer than `k` pairs. -/
def AgreeBelow (k : ℕ) (M M' : NodeId → NodeId → AliasGraph → AliasGraph) : Prop :=
  ∀ n1 n2 g, (g.edgePairs .toNode).card < k → M n1 n2 g = M' n1 n2 g

theorem card_edgePairs_to (g : AliasGraph) (d : Dir) :
    (g.edgePairs d).card = (g.edgePairs .toNode).card := by
  cases d
  · rfl
  · exact card_edgePairs_rev (d := .toNode)

theorem mergeEdges_shrinks (hM : Shrinks k M) {d : Dir} {n1 n2 : NodeId} (hn : n1 ≠ n2)
    {g : AliasGraph} (hk : (g.edgePairs .toNode).card ≤ k) :
    ((mergeEdges M d n1 n2 g).edgePairs .toNode).card ≤ (g.edgePairs .toNode).card := by
  rw [← card_edgePairs_to g d] at hk ⊢
  rw [← card_edgePairs_to _ d]
  unfold mergeEdges
  split
  · exact le_rfl
  case h_2 t1 h1 =>
    split
    case h_1 t2 h2 =>
      split
      · exact le_rfl
      · have hcut := card_edgePairs_tearOut hn h1 h2
        have hrec := hM t1 t2 (g.tearOut d n1 n2 t1 t2) (by rw [← card_edgePairs_to _ d]; omega)
        have hlink := card_edgePairs_link (d := d) (g := M t1 t2 (g.tearOut d n1 n2 t1 t2)) n2 t2
        rw [← card_edgePairs_to _ d, ← card_edgePairs_to _ d] at hrec
        omega
    · exact card_edgePairs_move hn h1

theorem mergeEdges_congr (hM : AgreeBelow k M M') {d : Dir} {n1 n2 : NodeId} (hn : n1 ≠ n2)
    {g : AliasGraph} (hk : (g.edgePairs .toNode).card ≤ k) :
    mergeEdges M d n1 n2 g = mergeEdges M' d n1 n2 g := by
  unfold mergeEdges
  split
  · rfl
  case h_2 t1 h1 =>
    split
    case h_1 t2 h2 =>
      split
      · rfl
      · have hcut := card_edgePairs_tearOut hn h1 h2
        rw [card_edgePairs_to, card_edgePairs_to g d] at hcut
        rw [hM t1 t2 _ (by omega)]
    · rfl

theorem mergeBody_shrinks (hM : Shrinks k M) {n1 n2 : NodeId} {g : AliasGraph}
    (hk : (g.edgePairs .toNode).card ≤ k) :
    ((mergeBody tg M n1 n2 g).edgePairs .toNode).card ≤ (g.edgePairs .toNode).card := by
  unfold mergeBody
  split
  · dsimp only
    split
    · rw [edgePairs_congr (fun d => next_inheritTag g n1 n2 d)]
    case isFalse hn =>
      have hstart : ((g.inheritTag n1 n2).moveClass n1 n2).edgePairs .toNode =
          g.edgePairs .toNode := edgePairs_congr fun d => by simp
      rw [← hstart] at hk ⊢
      have hto := mergeEdges_shrinks hM (d := .toNode) hn hk
      exact (mergeEdges_shrinks hM hn (hto.trans hk)).trans hto
  · rw [edgePairs_congr]; intro d; cases d <;> rfl

theorem mergeBody_congr (hM : Shrinks k M) (hMM : AgreeBelow k M M') {n1 n2 : NodeId}
    {g : AliasGraph} (hk : (g.edgePairs .toNode).card ≤ k) :
    mergeBody tg M n1 n2 g = mergeBody tg M' n1 n2 g := by
  unfold mergeBody
  split
  · dsimp only
    split
    · rfl
    case isFalse hn =>
      have hstart : (((g.inheritTag n1 n2).moveClass n1 n2).edgePairs .toNode).card ≤ k := by
        rw [edgePairs_congr (g := g) fun d => by simp]; exact hk
      have hto := mergeEdges_shrinks hM (d := .toNode) hn hstart
      rw [← mergeEdges_congr hMM hn hstart, mergeEdges_congr hMM hn (hto.trans hstart)]
  · rfl

/-! ## The fuel does not matter -/

theorem mergeNodeWithin_shrinks (fuel : ℕ) : Shrinks fuel (mergeNodeWithin tg fuel) := by
  induction fuel with
  | zero => intro _ _ g h; omega
  | succ fuel ih => intro n1 n2 g h; exact mergeBody_shrinks tg ih (by omega)

theorem mergeNodeWithin_agree (fuel fuel' : ℕ) (h : fuel ≤ fuel') :
    AgreeBelow fuel (mergeNodeWithin tg fuel) (mergeNodeWithin tg fuel') := by
  induction fuel generalizing fuel' with
  | zero => intro _ _ g hg; omega
  | succ fuel ih =>
    obtain ⟨fuel', rfl⟩ : ∃ f, fuel' = f + 1 := ⟨fuel' - 1, by omega⟩
    intro n1 n2 g hg
    exact mergeBody_congr tg (mergeNodeWithin_shrinks tg fuel) (ih fuel' (by omega)) (by omega)

theorem mergeNodeWithin_eq {fuel : ℕ} {n1 n2 : NodeId} {g : AliasGraph}
    (h : (g.edgePairs .toNode).card < fuel) :
    mergeNodeWithin tg fuel n1 n2 g = mergeNode tg n1 n2 g := by
  have hle : (g.edgePairs .toNode).card ≤ g.entries := card_edgePairs_le
  unfold mergeNode
  rcases Nat.le_total fuel (g.entries + 1) with hf | hf
  · exact mergeNodeWithin_agree tg _ _ hf n1 n2 g h
  · exact (mergeNodeWithin_agree tg _ _ hf n1 n2 g (by omega)).symm

/-- **Termination.**  `mergeNode` satisfies the recursive equation of the source. -/
theorem mergeNode_eq (n1 n2 : NodeId) (g : AliasGraph) :
    mergeNode tg n1 n2 g = mergeBody tg (mergeNode tg) n1 n2 g := by
  rw [← mergeNodeWithin_eq tg (Nat.lt_succ_self _), mergeNodeWithin]
  refine mergeBody_congr tg (mergeNodeWithin_shrinks tg _) (fun n1 n2 g' hg' => ?_) le_rfl
  exact mergeNodeWithin_eq tg hg'

/-- No pair is added. -/
theorem mergeNode_shrinks (n1 n2 : NodeId) (g : AliasGraph) :
    ((mergeNode tg n1 n2 g).edgePairs .toNode).card ≤ (g.edgePairs .toNode).card := by
  rw [← mergeNodeWithin_eq tg (Nat.lt_succ_self _)]
  exact mergeNodeWithin_shrinks tg _ n1 n2 g (Nat.lt_succ_self _)

end

/-! ## The recursion of the source -/

mutual

/-- A call of `mergeNode` returns, and leaves the graph `g'`: a derivation is the finite
    tree of the calls that it makes. -/
inductive Returns (tg : TBAAGraph) : NodeId → NodeId → AliasGraph → AliasGraph → Prop
  | blocked {n1 n2 g} (hgate : shouldMergeByTBAA tg g n1 n2 = false) :
      Returns tg n1 n2 g { g with NumTBAABlockedMerges := g.NumTBAABlockedMerges + 1 }
  | same {n g} (hgate : shouldMergeByTBAA tg g n n = true) :
      Returns tg n n g (g.inheritTag n n)
  | merged {n1 n2 g g' g''} (hgate : shouldMergeByTBAA tg g n1 n2 = true) (hn : n1 ≠ n2)
      (hto : ReturnsEdges tg .toNode n1 n2 ((g.inheritTag n1 n2).moveClass n1 n2) g')
      (hfrom : ReturnsEdges tg .fromNode n1 n2 g' g'') : Returns tg n1 n2 g g''

/-- One half of the edge changes. -/
inductive ReturnsEdges (tg : TBAAGraph) :
    Dir → NodeId → NodeId → AliasGraph → AliasGraph → Prop
  | none {d n1 n2 g} (h1 : g.next d n1 = Option.none) : ReturnsEdges tg d n1 n2 g g
  | same {d n1 n2 g t} (h1 : g.next d n1 = some t) (h2 : g.next d n2 = some t) :
      ReturnsEdges tg d n1 n2 g g
  | nested {d n1 n2 g g' t1 t2} (h1 : g.next d n1 = some t1) (h2 : g.next d n2 = some t2)
      (ht : t1 ≠ t2) (hcall : Returns tg t1 t2 (g.tearOut d n1 n2 t1 t2) g') :
      ReturnsEdges tg d n1 n2 g (g'.link d n2 t2)
  | moved {d n1 n2 g t1} (h1 : g.next d n1 = some t1) (h2 : g.next d n2 = Option.none) :
      ReturnsEdges tg d n1 n2 g ((g.eraseEdge d n1).link d n2 t1)

end

section
variable {tg : TBAAGraph} {g g' : AliasGraph} {n1 n2 : NodeId} {d : Dir}

/-- One half returns, if a nested call does on every graph with fewer pairs. -/
theorem mergeEdges_returns (hn : n1 ≠ n2)
    (ih : ∀ t1 t2 g', (g'.edgePairs .toNode).card < (g.edgePairs .toNode).card →
      Returns tg t1 t2 g' (mergeNode tg t1 t2 g')) :
    ReturnsEdges tg d n1 n2 g (mergeEdges (mergeNode tg) d n1 n2 g) := by
  unfold mergeEdges
  cases h1 : g.next d n1 with
  | none => exact .none h1
  | some t1 =>
    cases h2 : g.next d n2 with
    | none => exact .moved h1 h2
    | some t2 =>
      dsimp only
      split
      case isTrue ht =>
        subst ht
        exact .same h1 h2
      case isFalse ht =>
        have hcut := card_edgePairs_tearOut hn h1 h2
        rw [card_edgePairs_to, card_edgePairs_to g d] at hcut
        exact .nested h1 h2 ht (ih t1 t2 _ (by omega))

/-- `mergeNode` is what the recursion leaves. -/
theorem mergeNode_returns (tg : TBAAGraph) (n1 n2 : NodeId) (g : AliasGraph) :
    Returns tg n1 n2 g (mergeNode tg n1 n2 g) := by
  induction hk : (g.edgePairs .toNode).card using Nat.strong_induction_on
    generalizing n1 n2 g with
  | _ k ih =>
    subst hk
    have ih' : ∀ g₁ : AliasGraph, (g₁.edgePairs .toNode).card ≤ (g.edgePairs .toNode).card →
        ∀ t1 t2 g', (g'.edgePairs .toNode).card < (g₁.edgePairs .toNode).card →
          Returns tg t1 t2 g' (mergeNode tg t1 t2 g') := by
      intro g₁ hg₁ t1 t2 g' hg'
      exact ih _ (by omega) t1 t2 g' rfl
    rw [mergeNode_eq]
    unfold mergeBody
    split
    case isFalse hgate => exact .blocked (by simpa using hgate)
    case isTrue hgate =>
      dsimp only
      split
      case isTrue hn =>
        subst hn
        exact .same hgate
      case isFalse hn =>
        have hstart : (((g.inheritTag n1 n2).moveClass n1 n2).edgePairs .toNode).card =
            (g.edgePairs .toNode).card := by
          rw [edgePairs_congr (g := g) fun d => by simp]
        have hto := mergeEdges_shrinks (M := mergeNode tg) (k := (g.edgePairs .toNode).card)
          (fun t1 t2 g' _ => mergeNode_shrinks tg t1 t2 g') (d := .toNode) hn hstart.le
        exact .merged hgate hn (mergeEdges_returns hn (ih' _ hstart.le))
          (mergeEdges_returns hn (ih' _ (hto.trans hstart.le)))

mutual

/-- A call leaves one graph only. -/
theorem Returns.unique : ∀ {n1 n2 : NodeId} {g g' : AliasGraph}, Returns tg n1 n2 g g' →
    g' = mergeBody tg (mergeNode tg) n1 n2 g
  | _, _, _, _, .blocked hgate => by simp [mergeBody, hgate]
  | _, _, _, _, .same hgate => by simp [mergeBody, hgate]
  | _, _, _, _, .merged hgate hn hto hfrom => by
    have h1 := hto.unique
    have h2 := hfrom.unique
    simp [mergeBody, hgate, hn, h2, h1]

theorem ReturnsEdges.unique : ∀ {d : Dir} {n1 n2 : NodeId} {g g' : AliasGraph},
    ReturnsEdges tg d n1 n2 g g' → g' = mergeEdges (mergeNode tg) d n1 n2 g
  | _, _, _, _, _, .none h1 => by simp [mergeEdges, h1]
  | _, _, _, _, _, .same h1 h2 => by simp [mergeEdges, h1, h2]
  | _, _, _, _, _, .moved h1 h2 => by simp [mergeEdges, h1, h2]
  | _, _, _, _, _, .nested h1 h2 ht hcall => by
    have h := hcall.unique
    rw [← mergeNode_eq] at h
    simp [mergeEdges, h1, h2, ht, h]

end

/-- **The recursion is finite.**  On every graph, whatever its maps hold, a call of
    `mergeNode` makes finitely many nested calls, and leaves one graph. -/
theorem mergeNode_terminates (tg : TBAAGraph) (n1 n2 : NodeId) (g : AliasGraph) :
    ∃! g', Returns tg n1 n2 g g' := by
  refine ⟨mergeNode tg n1 n2 g, mergeNode_returns tg n1 n2 g, ?_⟩
  intro g' h
  rw [mergeNode_eq]
  exact h.unique

end

end TFA.AliasGraph
