/-
  The two halves of a merge with a refusal in it.

  `mergeNode` merges the nodes after `n1` into those after `n2`, and then the nodes
  before `n1`, as the first half has left them, into those before `n2`.

  * `Reach`: what a search meets in maps that need not mirror each other;
  * `FirstDone`: the first half is a splice, with one link less if it refuses a merge
    (`FirstRefused`);
  * `SecondTorn`: the second half tears a node off;
  * `FirstDone.keeps_of_torn`, `FirstDone.parts_torn`: what is met from one another
    after both, and what is not any more.
-/
import TFA.Alias.Partition
import TFA.Alias.Flow
import TFA.Alias.Refused

namespace TFA.AliasGraph

open Links

variable {tg : TBAAGraph} {g z f : AliasGraph} {n1 n2 x y a b : NodeId} {d : Dir}
  {A A₀ B C D : List NodeId}

/-! ## Searches in graphs whose maps need not mirror each other -/

/-- The search from `a` meets `b`. -/
def Reach (g : AliasGraph) : NodeId → NodeId → Prop :=
  Relation.ReflTransGen (Worklist.Step g.neighbours)

theorem Reach.of_next (h : g.next d a = some b) : g.Reach a b :=
  .single (mem_neighbours.2 ⟨d, h⟩)

/-- A search does not leave a set that no edge leaves. -/
theorem Reach.mem_of_closed {R : Set NodeId} (h : g.Reach a b)
    (hR : ∀ d a b, a ∈ R → g.next d a = some b → b ∈ R) (ha : a ∈ R) : b ∈ R := by
  induction h with
  | refl => exact ha
  | tail _ hbc ih =>
    obtain ⟨d, hd⟩ := mem_neighbours.1 hbc
    exact hR d _ _ ih hd

/-- Nodes linked by edges of both maps are met from each other. -/
theorem Reach.of_linked {nx : NodeId → Option NodeId} (h : Linked nx a b)
    (hnx : ∀ a b, nx a = some b → g.Reach a b ∧ g.Reach b a) : g.Reach a b := by
  suffices hboth : g.Reach a b ∧ g.Reach b a from hboth.1
  induction h with
  | rel a b hab => exact hnx a b hab
  | refl => exact ⟨.refl, .refl⟩
  | symm _ _ _ ih => exact ih.symm
  | trans _ _ _ _ _ ih1 ih2 => exact ⟨ih1.1.trans ih2.1, ih2.2.trans ih1.2⟩

theorem mem_cluster_iff (hc : g.Consistent) {p v : Value} (hp : p ∈ g.aliasclass a)
    (hv : v ∈ g.aliasclass b) : v ∈ g.getClusterValues p ∅ ↔ g.Reach a b := by
  simp only [getClusterValues, (hc p a).2 hp, Finset.mem_biUnion, getClusterNodes,
    Finset.empty_union, Worklist.mem_bfs_iff (search_enough a)]
  constructor
  · rintro ⟨m, hm, hvm⟩
    obtain rfl : b = m := Option.some.inj (((hc v b).2 hv).symm.trans ((hc v m).2 hvm))
    exact hm
  · exact fun h => ⟨b, h, hv⟩

/-! ## The merge as two halves -/

/-- The node that holds the class of `n` once that of `n1` is moved. -/
def holder (n1 n2 n : NodeId) : NodeId := if n = n1 then n2 else n

/-- The graph after the first half of the merge. -/
def firstHalf (tg : TBAAGraph) (n1 n2 : NodeId) (g : AliasGraph) : AliasGraph :=
  mergeEdges (mergeNode tg) .toNode n1 n2 (g.moved n1 n2)

/-- The classes of two nodes are met from one another after the merge. -/
def Keeps (g f : AliasGraph) (a b : NodeId) : Prop :=
  ∀ u v, u ∈ g.aliasclass a → v ∈ g.aliasclass b →
    ∃ a' b', u ∈ f.aliasclass a' ∧ v ∈ f.aliasclass b' ∧ f.Reach a' b'

/-- The classes of two nodes are not met any more. -/
def Parts (g f : AliasGraph) (a b : NodeId) : Prop :=
  ∀ u v, u ∈ g.aliasclass a → v ∈ g.aliasclass b →
    ∃ a' b', u ∈ f.aliasclass a' ∧ v ∈ f.aliasclass b' ∧ ¬ f.Reach a' b'

/-- The first half merges the nodes `A` after `n1` into `B`: it turns the links `mx` and `mv`
    into those of `z`, with `pz` for its `FromNodeMap`. -/
structure FirstDone (n1 n2 : NodeId) (A B : List NodeId) (mx mv pz : NodeId → Option NodeId)
    (g z : AliasGraph) : Prop where
  inverse : Inverse mx mv
  left : Chain mx {n1, n2} n1 A
  right : Chain mx {n1, n2} n2 B
  spliced : Spliced mx mv (z.next .toNode) pz n1 n2 A B
  lands : ∀ v w, v ∈ g.aliasclass w →
    ∃ w', v ∈ z.aliasclass w' ∧ Lands A B (holder n1 n2 w) w'

/-- The first half tears off `y`: the link from `x` to it is gone, and the nodes `A₀` before it
    are merged into `B`. -/
structure FirstRefused (n1 n2 x y : NodeId) (A₀ A₁ B : List NodeId) (g z : AliasGraph) :
    Prop where
  mirrored : g.Mirrored
  ne : n1 ≠ n2
  after1 : Chain (g.next .toNode) {n1, n2} n1 (A₀ ++ y :: A₁)
  last : (n1 :: A₀).getLast? = some x
  lt : A₀.length < B.length
  torn : Torn (g.next .toNode) (g.next .fromNode) (z.next .toNode) (z.next .fromNode) n1 y A₀ none
  done : FirstDone n1 n2 A₀ B (Function.update (g.next .toNode) x none)
    (Function.update (g.next .fromNode) y none) (z.next .fromNode) g z

section
variable (h : g.Mirrored) (hn : n1 ≠ n2) (hA : Chain (g.next .toNode) {n1, n2} n1 A)
  (hB : Chain (g.next .toNode) {n1, n2} n2 B)
include h hn hA hB

theorem firstRefused (ht : tornOff tg (g.moved n1 n2) n1 A B = some (x, y)) :
    ∃ A₀ A₁, A = A₀ ++ y :: A₁ ∧ FirstRefused n1 n2 x y A₀ A₁ B g (firstHalf tg n1 n2 g) := by
  have hinv := h.inverse .toNode
  obtain ⟨A₀, A₁, B₀, c, B₁, rfl, rfl, hlen, hx, hlands, htorn, -⟩ :=
    halfDone_of_refused (g := g.moved n1 n2) (by simpa using hinv) hn (by simpa using hA)
      (by simpa using hB) ht
  rw [next_moved, next_moved] at htorn
  have hlt : A₀.length < (B₀ ++ c :: B₁).length := by simp [hlen]
  have hdone : FirstDone n1 n2 A₀ (B₀ ++ c :: B₁) (Function.update (g.next .toNode) x none)
      (Function.update (g.next .fromNode) y none) ((firstHalf tg n1 n2 g).next .fromNode) g
      (firstHalf tg n1 n2 g) :=
    ⟨hinv.cut (hA.next_of_getLast hx), hA.before_cut hx, hA.other_cut hinv hn hx hB,
      htorn.spliced_of_none hinv hn hA hx hB hlt.le, fun v w hv => hlands v _ (mem_moved hn hv)⟩
  exact ⟨A₀, A₁, rfl, h, hn, hA, hx, hlt, htorn, hdone⟩

theorem firstDone_of_merged (ht : tornOff tg (g.moved n1 n2) n1 A B = none)
    (hfree : n2 ∈ B → A.length ≤ B.length) :
    FirstDone n1 n2 A B (g.next .toNode) (g.next .fromNode)
      ((firstHalf tg n1 n2 g).next .fromNode) g (firstHalf tg n1 n2 g) := by
  have hinv : Inverse ((g.moved n1 n2).next .toNode) ((g.moved n1 n2).next Dir.toNode.rev) := by
    simpa using h.inverse .toNode
  have hA' : Chain ((g.moved n1 n2).next .toNode) {n1, n2} n1 A := by simpa using hA
  have hB' : Chain ((g.moved n1 n2).next .toNode) {n1, n2} n2 B := by simpa using hB
  have hd := halfDone tg hinv hn hA' hB'
  have hm := mergeEdges_merged hinv hn hA' hB' hfree (by simpa [ht] using hd.blocked)
  have hs := hm.spliced
  rw [next_moved, next_moved] at hs
  exact ⟨h, hA, hB, hs, fun v w hv =>
    lands_of_nodes hd.nodes (nodup_chains hinv hn hA' hB') ht (mem_moved hn hv)⟩

end

theorem joined_holder (nx : NodeId → Option NodeId) (n1 n2 w : NodeId) :
    Joined nx n1 n2 (holder n1 n2 w) w := by
  unfold holder
  split
  case isTrue hw => exact .symm _ _ (.rel _ _ (Or.inr ⟨hw, rfl⟩))
  · exact .refl _

theorem joined_of_next {nx : NodeId → Option NodeId} (hab : nx a = some b) (ha : a ≠ x) :
    Joined (Function.update nx x none) n1 n2 a b :=
  .rel _ _ (Or.inl (by rw [Function.update_of_ne ha]; exact hab))

theorem holder_ne (hn : n1 ≠ n2) (w : NodeId) : holder n1 n2 w ≠ n1 := by
  unfold holder
  split
  · exact hn.symm
  · assumption

theorem holder_mem_iff {S : List NodeId} (h1 : n1 ∉ S) (h2 : n2 ∉ S) (w : NodeId) :
    holder n1 n2 w ∈ S ↔ w ∈ S := by
  unfold holder
  split
  case isTrue hw => exact iff_of_false h2 (hw ▸ h1)
  · rfl

/-- The last of the nodes merged into the chain of `n2` is on it then. -/
theorem lands_last (hx : (n1 :: A).getLast? = some x)
    (hstop : ∀ w ∈ A, w ∉ ({n1, n2} : Set NodeId)) (hlen : A.length ≤ B.length) {w : NodeId}
    (hw : Lands A B (holder n1 n2 x) w) : w ∈ n2 :: B := by
  rcases List.mem_cons.1 (List.mem_of_getLast? hx) with rfl | hxA
  · rw [holder, if_pos rfl] at hw
    rw [hw.eq_of_not_mem fun h => hstop n2 h (Or.inr rfl)]
    exact List.mem_cons_self
  · rw [holder, if_neg fun h => hstop x hxA (Or.inl h)] at hw
    exact List.mem_cons_of_mem _ (hw.mem_of_mem hlen hxA)

theorem joined_holders {nx : NodeId → Option NodeId} (hab : Joined nx n1 n2 a b) :
    Joined nx n1 n2 (holder n1 n2 a) (holder n1 n2 b) :=
  .trans _ _ _ (joined_holder nx n1 n2 a)
    (.trans _ _ _ hab (.symm _ _ (joined_holder nx n1 n2 b)))

/-- The second half tears off `y`: it merges the nodes `C` before `n1` into `D`.  The links of
    `z` become those of `f`, with `pz` and `pf` for their `FromNodeMap`s; `e` is what `y` points
    to then. -/
structure SecondTorn (n1 n2 x y : NodeId) (C C₁ D : List NodeId) (e : Option NodeId)
    (pz pf : NodeId → Option NodeId) (z f : AliasGraph) : Prop where
  before1 : Chain pz {n1, n2} n1 (C ++ y :: C₁)
  before2 : Chain pz {n1, n2} n2 D
  last : (n1 :: C).getLast? = some x
  le : C.length ≤ D.length
  torn : Torn pz (z.next .toNode) pf (f.next .toNode) n1 y C e
  lands : ∀ v w, v ∈ z.aliasclass w → ∃ w', v ∈ f.aliasclass w' ∧ Lands C D w w'

theorem SecondTorn.not_mem_left {e : Option NodeId} {pz pf : NodeId → Option NodeId}
    {C₁ : List NodeId} (S : SecondTorn n1 n2 x y C C₁ D e pz pf z f) {w : NodeId}
    (hw : w ∈ y :: C₁) : w ∉ C :=
  fun hmem => (List.nodup_append.1 S.before1.nodup).2.2 w hmem w hw rfl

/-- A stop on the chain is on what is torn off. -/
theorem SecondTorn.mem_rest {e : Option NodeId} {pz pf : NodeId → Option NodeId}
    {C₁ : List NodeId} (S : SecondTorn n1 n2 x y C C₁ D e pz pf z f) {w : NodeId}
    (hw : w ∈ C ++ y :: C₁) (hS : w ∈ ({n1, n2} : Set NodeId)) : w ∈ y :: C₁ :=
  (List.mem_append.1 hw).resolve_left fun h => S.before1.not_stop_of_append h hS

section
variable {mx mv pz pf : NodeId → Option NodeId} {C₁ : List NodeId} {e : Option NodeId}
  {a' a'' b' b'' : NodeId} (F : FirstDone n1 n2 A B mx mv pz g z) (hn : n1 ≠ n2)
include F

/-- Where the values of a node are after both halves. -/
theorem FirstDone.locate
    (hlands : ∀ v w, v ∈ z.aliasclass w → ∃ w', v ∈ f.aliasclass w' ∧ Lands C D w w') {u : Value}
    (hu : u ∈ g.aliasclass a) : ∃ a' a'', u ∈ f.aliasclass a'' ∧
      Lands A B (holder n1 n2 a) a' ∧ Lands C D a' a'' := by
  obtain ⟨a', ha', hl⟩ := F.lands u a hu
  obtain ⟨a'', ha'', hl'⟩ := hlands u a' ha'
  exact ⟨a', a'', ha'', hl, hl'⟩

section
include hn

/-- The first half leaves nothing at `n1`, unless the nodes after `n2` lead to `n1` and are no
    more than those merged. -/
theorem FirstDone.spent (hlt : n1 ∈ B → A.length < B.length) :
    z.next .toNode n1 = none ∧ n1 ∉ B.take A.length := by
  by_cases h1 : n1 ∈ B
  · have hle := hlt h1
    have hchain := F.spliced.chain
    obtain ⟨l, rfl, hl⟩ := F.right.mem_stop h1 (by simp)
    rw [List.length_append, List.length_singleton] at hle
    rw [List.drop_eq_nil_of_le (by simp; omega), List.append_nil] at hchain
    refine ⟨hchain.next_last (by simpa using hn), ?_⟩
    rw [List.take_append_of_le_length (by omega)]
    exact fun hmem => hl n1 (List.mem_of_mem_take hmem) (by simp)
  · exact ⟨F.spliced.spent h1, fun hmem => h1 (List.mem_of_mem_take hmem)⟩

/-- Then what is joined is linked. -/
theorem FirstDone.linked_of_joined {nf : NodeId → Option NodeId}
    (hD : Chain pz {n1, n2} n2 D) (hlt : n1 ∈ B → A.length < B.length) (hinv : Inverse pf nf)
    (hpf : pf n1 = none) (hnf : nf n1 = none) (ha' : Lands A B (holder n1 n2 a) a')
    (ha'' : Lands C D a' a'') (hb' : Lands A B (holder n1 n2 b) b') (hb'' : Lands C D b' b'')
    (hab : Joined pf n1 n2 a'' b'') : Linked pf a'' b'' := by
  obtain ⟨h1, h1B⟩ := F.spent hn hlt
  have h1D : n1 ∉ D.take C.length := fun hmem =>
    hD.head_not_mem F.spliced.inverse.symm h1 (List.mem_of_mem_take hmem)
  have hne : ∀ {w w' w''}, Lands A B (holder n1 n2 w) w' → Lands C D w' w'' → w'' ≠ n1 :=
    fun hl hl' => hl'.ne (hl.ne (holder_ne hn _) h1B) h1D
  exact hab.linked hinv hpf hnf (hne ha' ha'') (hne hb' hb'')

end

/-- A second half without a refusal joins what was joined. -/
theorem FirstDone.joined_merged {nf : NodeId → Option NodeId} (hC : Chain pz {n1, n2} n1 C)
    (hD : Chain pz {n1, n2} n2 D) (h2 : Spliced pz (z.next .toNode) pf nf n1 n2 C D)
    (ha' : Lands A B (holder n1 n2 a) a') (ha'' : Lands C D a' a'')
    (hb' : Lands A B (holder n1 n2 b) b') (hb'' : Lands C D b' b'') (hab : Joined mx n1 n2 a b) :
    Joined pf n1 n2 a'' b'' :=
  h2.joined F.spliced.inverse.symm hC hD
    ((F.spliced.joined F.inverse F.left F.right (joined_holders hab) ha'.movesTo hb'.movesTo).rev
      F.spliced.inverse) ha''.movesTo hb''.movesTo

section
variable (S : SecondTorn n1 n2 x y C C₁ D e pz pf z f)
include S

/-- What the second half tears off was left alone by the first one, if it does not lead to `n2`. -/
theorem FirstDone.left_alone (h2 : n2 ∉ C ++ y :: C₁) : ∀ w ∈ C ++ y :: C₁,
    w ∉ A ∧ w ∉ B ∧ w ∉ ({n1, n2} : Set NodeId) :=
  (F.spliced.left_alone F.left S.before1 h2 (by simp)).2.2

/-- If the nodes after `n2` lead to `n1`, all nodes before `n1` lead to `n1` or `n2`. -/
theorem FirstDone.leads_back (h1 : n1 ∈ B) : ∃ s ∈ y :: C₁, s ∈ ({n1, n2} : Set NodeId) := by
  have h2C : n2 ∈ C ++ y :: C₁ := by
    by_contra h2C
    exact (F.spliced.left_alone F.left S.before1 h2C (by simp)).2.1 h1
  exact ⟨n2, S.mem_rest h2C (Or.inr rfl), Or.inr rfl⟩

/-- A second half that tears off `y` joins what was joined without the link of `y`; and all that
    was joined, if the nodes from `y` on lead to `n1` or `n2`. -/
theorem FirstDone.joined_torn (hn : n1 ≠ n2) (ha' : Lands A B (holder n1 n2 a) a')
    (ha'' : Lands C D a' a'') (hb' : Lands A B (holder n1 n2 b) b') (hb'' : Lands C D b' b'')
    (hab : (∃ s ∈ y :: C₁, s ∈ ({n1, n2} : Set NodeId)) ∧ Joined mx n1 n2 a b ∨
      n2 ∉ C ++ y :: C₁ ∧ Joined (Function.update mx y none) n1 n2 a b) :
    Joined pf n1 n2 a'' b'' := by
  refine S.torn.joined F.spliced.inverse.symm S.before2 ha''.movesTo hb''.movesTo hn S.before1
    S.last S.le ?_
  rcases hab with ⟨⟨s, hs, hsS⟩, hab⟩ | ⟨h2, hab⟩
  · refine .without (S.before1.next_of_getLast S.last) (S.before1.joined_ends S.last hs hsS) ?_
    exact (F.spliced.joined F.inverse F.left F.right (joined_holders hab) ha'.movesTo
      hb'.movesTo).rev F.spliced.inverse
  · exact F.spliced.joined_cut F.inverse F.right ha'.movesTo hb'.movesTo F.left S.before1 S.last h2
      (joined_holders hab)

theorem FirstDone.spliced_torn (hn : n1 ≠ n2) :
    Spliced (Function.update pz x none) (Function.update (z.next .toNode) y none) pf
      (Function.update (f.next .toNode) y none) n1 n2 C D :=
  S.torn.spliced F.spliced.inverse.symm hn S.before1 S.last S.before2 S.le

/-- What is joined so is kept. -/
theorem FirstDone.keeps_of_torn (hn : n1 ≠ n2) (hlt : n1 ∈ B → A.length < B.length)
    (hpf : ∀ p q, pf p = some q → f.next .fromNode p = some q)
    (hab : (∃ s ∈ y :: C₁, s ∈ ({n1, n2} : Set NodeId)) ∧ Joined mx n1 n2 a b ∨
      n2 ∉ C ++ y :: C₁ ∧ Joined (Function.update mx y none) n1 n2 a b) : Keeps g f a b := by
  have hs := F.spliced_torn S hn
  have hpf1 : pf n1 = none := by rw [S.torn.next, if_pos (Or.inl rfl)]
  have hnf1 : Function.update (f.next .toNode) y none n1 = none := by
    rw [Function.update_apply, S.torn.prev, (F.spent hn hlt).1]
    split <;> simp_all
  intro u v hu hv
  obtain ⟨a', a'', ha, ha', ha''⟩ := F.locate S.lands hu
  obtain ⟨b', b'', hb, hb', hb''⟩ := F.locate S.lands hv
  refine ⟨a'', b'', ha, hb, .of_linked ?_ fun p q hpq =>
    ⟨.of_next (hpf p q hpq), .of_next (hs.inverse.of_update hpq)⟩⟩
  exact F.linked_of_joined hn S.before2 hlt hs.inverse hpf1 hnf1 ha' ha'' hb' hb''
    (F.joined_torn S hn ha' ha'' hb' hb'' hab)

end

end

/-! ## Both halves of a merge -/

/-- A merge that the gate lets through, with the nodes after `n1` and `n2` and those before them
    once the first half is done. -/
structure Halves (tg : TBAAGraph) (g : AliasGraph) (n1 n2 : NodeId) (A B C D : List NodeId) :
    Prop where
  mirrored : g.Mirrored
  ne : n1 ≠ n2
  gate : shouldMergeByTBAA tg g n1 n2 = true
  after1 : Chain (g.next .toNode) {n1, n2} n1 A
  after2 : Chain (g.next .toNode) {n1, n2} n2 B
  before1 : Chain ((firstHalf tg n1 n2 g).next .fromNode) {n1, n2} n1 C
  before2 : Chain ((firstHalf tg n1 n2 g).next .fromNode) {n1, n2} n2 D

section
variable (H : Halves tg g n1 n2 A B C D)
include H

theorem Halves.mergeNode_eq : mergeNode tg n1 n2 g =
    mergeEdges (mergeNode tg) .fromNode n1 n2 (firstHalf tg n1 n2 g) :=
  mergeNode_of_gate H.ne H.gate

section
variable (hz : (firstHalf tg n1 n2 g).Mirrored)
include hz

/-- Without a refusal in the second half, and with room for the link put back. -/
theorem Halves.merged (ht : tornOff tg (firstHalf tg n1 n2 g) n1 C D = none)
    (hfree : n2 ∈ D → C.length ≤ D.length) :
    Spliced ((firstHalf tg n1 n2 g).next .fromNode) ((firstHalf tg n1 n2 g).next .toNode)
        ((mergeNode tg n1 n2 g).next .fromNode) ((mergeNode tg n1 n2 g).next .toNode) n1 n2 C D ∧
      ∀ v w, v ∈ (firstHalf tg n1 n2 g).aliasclass w →
        ∃ w', v ∈ (mergeNode tg n1 n2 g).aliasclass w' ∧ Lands C D w w' := by
  have hinv := hz.inverse .fromNode
  have hd := halfDone tg hinv H.ne H.before1 H.before2
  have hm := mergeEdges_merged hinv H.ne H.before1 H.before2 hfree (by simpa [ht] using hd.blocked)
  rw [← H.mergeNode_eq] at hd hm
  exact ⟨hm.spliced, fun v w hv => lands_of_nodes hd.nodes
    (nodup_chains hinv H.ne H.before1 H.before2) ht hv⟩

/-- A refusal in the second half. -/
theorem Halves.torn (ht : tornOff tg (firstHalf tg n1 n2 g) n1 C D = some (x, y)) :
    ∃ C₀ C₁, C = C₀ ++ y :: C₁ ∧ C₀.length < D.length ∧
      SecondTorn n1 n2 x y C₀ C₁ D none ((firstHalf tg n1 n2 g).next .fromNode)
        ((mergeNode tg n1 n2 g).next .fromNode) (firstHalf tg n1 n2 g) (mergeNode tg n1 n2 g) := by
  obtain ⟨C₀, C₁, D₀, c, D₁, hC, hD, hlen, hx, hlands, htorn, -⟩ :=
    halfDone_of_refused (hz.inverse .fromNode) H.ne H.before1 H.before2 ht
  rw [← H.mergeNode_eq] at hlands htorn
  have hlt : C₀.length < D.length := by simp [hD, hlen]
  exact ⟨C₀, C₁, hC, hlt, hC ▸ H.before1, H.before2, hx, hlt.le, htorn, hlands⟩

/-- The link put back in the second half overwrites one. -/
theorem Halves.overwritten (ht : tornOff tg (firstHalf tg n1 n2 g) n1 C D = none) (h2 : n2 ∈ D)
    (hlt : D.length < C.length) :
    ∃ C₀ y C₁ x, C = C₀ ++ y :: C₁ ∧ C₀.length = D.length ∧
      SecondTorn n1 n2 x y C₀ C₁ D (some n2) ((firstHalf tg n1 n2 g).next .fromNode)
        ((mergeNode tg n1 n2 g).next .fromNode) (firstHalf tg n1 n2 g) (mergeNode tg n1 n2 g) := by
  have hC : C = C.take D.length ++ C[D.length] :: C.drop (D.length + 1) := by
    rw [List.getElem_cons_drop, List.take_append_drop]
  have hlen : (C.take D.length).length = D.length := by simp [hlt.le]
  obtain ⟨htorn, hlands⟩ := torn_of_overwritten (hz.inverse .fromNode) H.ne H.before1 H.before2 hC
    hlen ht h2
  rw [← H.mergeNode_eq] at htorn hlands
  exact ⟨_, _, _, _, hC, hlen, hC ▸ H.before1, H.before2, List.getLast?_cons, hlen.le, htorn,
    hlands⟩

end

end

section
variable {mx mv : NodeId → Option NodeId}
  (F : FirstDone n1 n2 A₀ B mx mv ((firstHalf tg n1 n2 g).next .fromNode) g (firstHalf tg n1 n2 g))
  (H : Halves tg g n1 n2 A B C D)
include F H

/-- A second half without a refusal loses nothing. -/
theorem FirstDone.keeps_of_merged (hlt : n1 ∈ B → A₀.length < B.length)
    (ht : tornOff tg (firstHalf tg n1 n2 g) n1 C D = none) (hfree : n2 ∈ D → C.length ≤ D.length)
    (hab : Joined mx n1 n2 a b) : Keeps g (mergeNode tg n1 n2 g) a b := by
  obtain ⟨hs, hlands⟩ := H.merged F.spliced.inverse ht hfree
  have h1 := (F.spent H.ne hlt).1
  have hout : ∀ {s l}, Chain ((firstHalf tg n1 n2 g).next .fromNode) {n1, n2} s l → n1 ∉ l :=
    fun hl => hl.head_not_mem F.spliced.inverse.symm h1
  have hnf : (mergeNode tg n1 n2 g).next .toNode n1 = none :=
    (hs.prev n1 (hout H.before1) (hout H.before2)).trans h1
  intro u v hu hv
  obtain ⟨a', a'', ha, ha', ha''⟩ := F.locate hlands hu
  obtain ⟨b', b'', hb, hb', hb''⟩ := F.locate hlands hv
  refine ⟨a'', b'', ha, hb, .of_linked ?_ fun p q hpq =>
    ⟨.of_next hpq, .of_next ((hs.inverse p q).1 hpq)⟩⟩
  exact F.linked_of_joined H.ne H.before2 hlt hs.inverse (hs.spent (hout H.before2)) hnf
    ha' ha'' hb' hb'' (F.joined_merged H.before1 H.before2 hs ha' ha'' hb' hb'' hab)

end

/-- The link that is overwritten in the second half is still in one of the maps. -/
theorem FirstDone.keeps_overwritten {mx mv pz : NodeId → Option NodeId} {C₁ : List NodeId}
    (F : FirstDone n1 n2 A B mx mv pz g z) (hn : n1 ≠ n2)
    (S : SecondTorn n1 n2 x y C C₁ D (some n2) pz (f.next .fromNode) z f)
    (hlen : C.length = D.length) (h2 : n2 ∈ D) : Keeps g f y x := by
  have h2C : n2 ∉ C ++ y :: C₁ := fun h2C =>
    S.before1.disjoint S.before2 F.spliced.inverse.symm hn n2 h2C h2
  have hs := F.spliced_torn S hn
  have hout := F.left_alone S h2C
  have hxC : x ∈ C := by
    have hne : C ≠ [] := by
      rintro rfl
      rw [List.length_nil, eq_comm, List.length_eq_zero_iff] at hlen
      rw [hlen] at h2
      cases h2
    have hx := S.last
    rw [List.getLast?_cons_of_ne_nil hne] at hx
    exact List.mem_of_getLast? hx
  have hstay : ∀ {w w'}, w ∈ C ++ y :: C₁ → Lands A B (holder n1 n2 w) w' → w' = w := by
    intro w w' hw hl
    obtain ⟨hwA, -, hwS⟩ := hout w hw
    rw [holder, if_neg fun h => hwS (Or.inl h)] at hl
    exact hl.eq_of_not_mem hwA
  intro u v hu hv
  obtain ⟨a', a'', ha, ha', ha''⟩ := F.locate S.lands hu
  obtain ⟨b', b'', hb, hb', hb''⟩ := F.locate S.lands hv
  obtain rfl := hstay (by simp) ha'
  obtain rfl := hstay (List.mem_append_left _ hxC) hb'
  obtain rfl := ha''.eq_of_not_mem (S.not_mem_left List.mem_cons_self)
  have hto : f.Reach a'' n2 := .of_next (d := .toNode) (by rw [S.torn.prev, if_pos rfl])
  refine ⟨a'', b'', ha, hb, hto.trans ?_⟩
  exact Reach.of_linked (hs.chain.linked b'' (List.mem_append_left _ (hb''.mem_of_mem S.le hxC)))
    fun p q hpq => ⟨.of_next hpq, .of_next (hs.inverse.of_update hpq)⟩

/-! ## What is lost -/

/-- Inside or outside of a set of nodes. -/
def SameSide (S : List NodeId) (a b : NodeId) : Prop := a ∈ S ↔ b ∈ S

theorem sameSide_equivalence (S : List NodeId) : Equivalence (SameSide S) :=
  ⟨fun _ => Iff.rfl, Iff.symm, Iff.trans⟩

theorem Reach.sameSide {S : List NodeId} (h : g.Reach a b) (hS : EdgesWithin (SameSide S) g) :
    SameSide S a b := by
  induction h with
  | refl => exact Iff.rfl
  | tail _ hbc ih =>
    obtain ⟨d, hd⟩ := mem_neighbours.1 hbc
    exact ih.trans (hS d _ _ hd)

/-- Classes on two sides that no edge joins are not met from one another. -/
theorem parts_of_sides {S : List NodeId} (hS : EdgesWithin (SameSide S) f)
    (hloc : ∀ u w, u ∈ g.aliasclass w → ∃ w', u ∈ f.aliasclass w' ∧ (w' ∈ S ↔ w ∈ S))
    (hab : ¬ SameSide S a b) : Parts g f a b := by
  intro u v hu hv
  obtain ⟨a', ha', hsa⟩ := hloc u a hu
  obtain ⟨b', hb', hsb⟩ := hloc v b hv
  exact ⟨a', b', ha', hb', fun h => hab (hsa.symm.trans ((h.sameSide hS).trans hsb))⟩

theorem edgesWithin_of {S : List NodeId} {d : Dir} (hinv : Inverse (g.next d) (g.next d.rev))
    (h : ∀ p q, g.next d p = some q → (p ∈ S ↔ q ∈ S)) : EdgesWithin (SameSide S) g := by
  intro d' p q hpq
  by_cases hd : d' = d
  · subst hd; exact h p q hpq
  · obtain rfl : d' = d.rev := by cases d <;> cases d' <;> simp_all [Dir.rev]
    exact (h q p ((hinv q p).2 hpq)).symm

/-- What is torn off in the second half stays apart, if it does not lead to `n2`. -/
theorem FirstDone.parts_torn {mx mv pz pf : NodeId → Option NodeId} {C₁ : List NodeId}
    (F : FirstDone n1 n2 A B mx mv pz g z) (hn : n1 ≠ n2)
    (S : SecondTorn n1 n2 x y C C₁ D none pz pf z f) (h2C : n2 ∉ C ++ y :: C₁)
    (hpf : ∀ p q, f.next .fromNode p = some q → pf p = some q ∨ p ∉ y :: C₁ ∧ q ∉ y :: C₁)
    (hab : ¬ SameSide (y :: C₁) a b) : Parts g f a b := by
  have hout := F.left_alone S h2C
  have hmem : ∀ {w}, w ∈ y :: C₁ → w ∈ C ++ y :: C₁ := fun h => List.mem_append_right _ h
  have hinv := F.spliced.inverse.symm
  have hs := S.torn.spliced_of_none hinv hn S.before1 S.last S.before2 S.le
  have hside : ∀ {p q}, pf p = some q → SameSide (y :: C₁) p q := by
    intro p q hpq
    rw [S.torn.next] at hpq
    split at hpq
    · cases hpq
    · rename_i hp
      refine (S.before1.same_side hinv (fun w hw => (hout w hw).2.2) hpq).resolve_right
        fun ⟨_, hlast⟩ => hp ?_
      exact List.mem_cons.1 (List.mem_of_getLast? hlast)
  refine parts_of_sides (fun d p q hpq => ?_) (fun u w hu => ?_) hab
  · cases d with
    | toNode => exact (hside ((hs.inverse q p).2 hpq)).symm
    | fromNode =>
      rcases hpf p q hpq with h | ⟨hp, hq⟩
      · exact hside h
      · exact iff_of_false hp hq
  · obtain ⟨w', w'', hw'', hl, hl'⟩ := F.locate S.lands hu
    refine ⟨w'', hw'', ?_⟩
    rw [hl'.mem_iff (fun q hq hqS => S.not_mem_left hqS hq) fun q hq hqS =>
        S.before1.disjoint S.before2 hinv hn q (hmem hqS) hq,
      hl.mem_iff (fun q hq hqS => (hout q (hmem hqS)).1 hq) fun q hq hqS =>
        (hout q (hmem hqS)).2.1 hq]
    exact holder_mem_iff (fun h => (hout n1 (hmem h)).2.2 (Or.inl rfl))
      (fun h => (hout n2 (hmem h)).2.2 (Or.inr rfl)) w

/-- Both ends of the torn link are not on the same side. -/
theorem FirstDone.not_sameSide {mx mv pz pf : NodeId → Option NodeId} {C₁ : List NodeId}
    (F : FirstDone n1 n2 A B mx mv pz g z) (S : SecondTorn n1 n2 x y C C₁ D none pz pf z f)
    (h2C : n2 ∉ C ++ y :: C₁) : ¬ SameSide (y :: C₁) y x := by
  intro hyx
  have hx := hyx.1 List.mem_cons_self
  rcases List.mem_cons.1 (List.mem_of_getLast? S.last) with rfl | hxC
  · exact (F.left_alone S h2C x (List.mem_append_right _ hx)).2.2 (Or.inl rfl)
  · exact S.not_mem_left hx hxC

end TFA.AliasGraph
