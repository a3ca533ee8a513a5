/-
  Nested merges that the gate refuses.

  Before the neighbours `t1` of `n1` and `t2` of `n2` are merged, the entries of
  the four nodes are erased, and only those of `n2` and `t2` are written back.  So
  if the gate refuses that merge, or one below it, the node that should have been
  merged is torn off the one before it.

  * `tornOff` finds the first pair of two chains of neighbours that the gate keeps
    apart, and `mergeClasses` merges the classes and tags of the pairs before it;
  * `mergeEdges_descend`: a half of the merge is what it does at the end of two
    paths, with the paths torn out, and then the path of `n2` put back.
-/
import TFA.Alias.Tags
import TFA.Lib.CutLinks

namespace TFA.AliasGraph

open Links

variable {tg : TBAAGraph} {g : AliasGraph} {n1 n2 x y c : NodeId} {d : Dir}
  {A A₀ B : List NodeId}

/-! ## Pairs of neighbours -/

/-- Of the nodes `A` after `n` and `B` that they are to be merged into: the first
    of `A` that the gate keeps apart from its partner, and the node before it. -/
def tornOff (tg : TBAAGraph) (g : AliasGraph) :
    NodeId → List NodeId → List NodeId → Option (NodeId × NodeId)
  | n, a :: A, b :: B => if shouldMergeByTBAA tg g a b then tornOff tg g a A B else some (n, a)
  | _, _, _ => none

/-- The classes and tags of the nodes `A` go to their partners in `B`, up to the first
    pair that the gate keeps apart. -/
def mergeClasses (tg : TBAAGraph) : List NodeId → List NodeId → AliasGraph → AliasGraph
  | a :: A, b :: B, g =>
    if shouldMergeByTBAA tg g a b then mergeClasses tg A B (g.moved a b) else g
  | _, _, g => g

theorem shouldMergeByTBAA_congr {g' : AliasGraph} {a b : NodeId} (ha : g'.tag a = g.tag a)
    (hb : g'.tag b = g.tag b) : shouldMergeByTBAA tg g' a b = shouldMergeByTBAA tg g a b := by
  simp only [shouldMergeByTBAA, ha, hb]

theorem shouldMergeByTBAA_self (g : AliasGraph) (n : NodeId) :
    shouldMergeByTBAA tg g n n = true := by
  rw [shouldMergeByTBAA]
  split
  · rename_i h h'
    rw [Option.some.inj (h.symm.trans h')]
    exact TBAAGraph.mayAliasByTBAA_self _ _
  · rfl

/-- Only the tags of the two lists matter. -/
theorem tornOff_congr (g' : AliasGraph) (n : NodeId) (hA : ∀ w ∈ A, g'.tag w = g.tag w)
    (hB : ∀ w ∈ B, g'.tag w = g.tag w) : tornOff tg g' n A B = tornOff tg g n A B := by
  induction A generalizing n B with
  | nil => cases B <;> rfl
  | cons a A ih =>
    cases B with
    | nil => rfl
    | cons b B =>
      simp only [tornOff]
      rw [shouldMergeByTBAA_congr (hA a (by simp)) (hB b (by simp)),
        ih a (fun w hw => hA w (by simp [hw])) fun w hw => hB w (by simp [hw])]

theorem tag_moved {w : NodeId} (hw : w ≠ n2) : (g.moved n1 n2).tag w = g.tag w := by
  rw [moved, tag_moveClass, tag, nodes_inheritTag hw, tag]

/-- The pairs after the first one are kept apart if they were before it was merged. -/
theorem tornOff_moved {a b n : NodeId} (hbA : b ∉ A) (hbB : b ∉ B) :
    tornOff tg (g.moved a b) n A B = tornOff tg g n A B :=
  tornOff_congr _ n (fun _ hw => tag_moved (ne_of_mem_of_not_mem hw hbA)) fun _ hw =>
    tag_moved (ne_of_mem_of_not_mem hw hbB)

theorem nodes_moved_congr {g' : AliasGraph} (h : g'.nodes = g.nodes) (a b : NodeId) :
    (g'.moved a b).nodes = (g.moved a b).nodes := by
  have htag : ∀ w, g'.tag w = g.tag w := fun w => by rw [tag, tag, h]
  have hinherit : (g'.inheritTag a b).nodes = (g.inheritTag a b).nodes := by
    simp only [inheritTag, htag]
    split <;> simp [setTag, h]
  simp only [moved, moveClass, AliasGraph.aliasclass, hinherit]

theorem mergeClasses_congr {g' : AliasGraph} (h : g'.nodes = g.nodes) (A B : List NodeId) :
    (mergeClasses tg A B g').nodes = (mergeClasses tg A B g).nodes := by
  induction A generalizing g g' B with
  | nil => cases B <;> exact h
  | cons a A ih =>
    cases B with
    | nil => exact h
    | cons b B =>
      rw [mergeClasses, mergeClasses, shouldMergeByTBAA_congr (g := g) (by rw [tag, tag, h])
        (by rw [tag, tag, h])]
      split
      · exact ih (nodes_moved_congr h a b) B
      · exact h

theorem tornOff_cons {a b n : NodeId} (h : tornOff tg g n (a :: A) (b :: B) = none) :
    shouldMergeByTBAA tg g a b = true ∧ tornOff tg g a A B = none := by
  rw [tornOff] at h
  split at h
  · exact ⟨by assumption, h⟩
  · cases h

theorem tornOff_of_append {n : NodeId} {l m : List NodeId}
    (h : tornOff tg g n (A ++ l) (B ++ m) = none) : tornOff tg g n A B = none := by
  induction A generalizing n B with
  | nil => cases B <;> rfl
  | cons a A ih =>
    cases B with
    | nil => rfl
    | cons b B =>
      obtain ⟨hgate, hrest⟩ := tornOff_cons h
      rw [tornOff, if_pos hgate, ih hrest]

theorem tornOff_split {n : NodeId} (h : tornOff tg g n A B = some (x, y)) :
    ∃ A₀ A₁ B₀ c B₁, A = A₀ ++ y :: A₁ ∧ B = B₀ ++ c :: B₁ ∧ A₀.length = B₀.length ∧
      (n :: A₀).getLast? = some x ∧ tornOff tg g n A₀ B₀ = none ∧
      shouldMergeByTBAA tg g y c = false := by
  induction A generalizing n B with
  | nil => cases B <;> simp [tornOff] at h
  | cons a A ih =>
    cases B with
    | nil => simp [tornOff] at h
    | cons b B =>
      rw [tornOff] at h
      split at h
      case isTrue hgate =>
        obtain ⟨A₀, A₁, B₀, c, B₁, rfl, rfl, hlen, hx, hnone, href⟩ := ih h
        exact ⟨a :: A₀, A₁, b :: B₀, c, B₁, rfl, rfl, by simp [hlen], by simpa using hx, by
          rw [tornOff, if_pos hgate, hnone], href⟩
      case isFalse hgate =>
        simp only [Option.some.injEq, Prod.mk.injEq] at h
        exact ⟨[], A, [], b, B, by simp [h.2], rfl, rfl, by simp [h.1], rfl,
          by simpa [h.2] using hgate⟩

/-- Where the values of a node are once the pairs are merged. -/
theorem mem_mergeClasses (hnodup : (A ++ B).Nodup) {n : NodeId}
    (hacc : tornOff tg g n A B = none) {v : Value} {w : NodeId} (hv : v ∈ g.aliasclass w) :
    ∃ w', v ∈ (mergeClasses tg A B g).aliasclass w' ∧ Lands A B w w' := by
  induction A generalizing g n B w with
  | nil => exact ⟨w, by cases B <;> exact hv, Or.inr ⟨by simp, rfl⟩⟩
  | cons a A ih =>
    cases B with
    | nil => exact ⟨w, hv, Or.inr ⟨by simp, rfl⟩⟩
    | cons b B =>
      obtain ⟨hgate, hrest⟩ := tornOff_cons hacc
      have hab : a ≠ b ∧ b ∉ A ∧ b ∉ B ∧ a ∉ A := by grind
      have hnd : (A ++ B).Nodup := by grind
      obtain ⟨w', hw', hl⟩ := ih (g := g.moved a b) (n := a) hnd
        (by rw [tornOff_moved hab.2.1 hab.2.2.1, hrest]) (mem_moved hab.1 hv)
      rw [mergeClasses, if_pos hgate]
      refine ⟨w', hw', ?_⟩
      by_cases hw : w = a
      · subst hw
        rw [if_pos rfl] at hl
        obtain rfl := hl.eq_of_not_mem hab.2.1
        exact Or.inl (by simp)
      · rw [if_neg hw] at hl
        rcases hl with hl | ⟨hl, rfl⟩
        · exact Or.inl (List.mem_cons_of_mem _ hl)
        · exact Or.inr ⟨by simp [hw, hl], rfl⟩

theorem lands_of_nodes {g' : AliasGraph} (hnodes : g'.nodes = (mergeClasses tg A B g).nodes)
    (hnodup : (A ++ B).Nodup) {n : NodeId} (hacc : tornOff tg g n A B = none) {v : Value}
    {w : NodeId} (hv : v ∈ g.aliasclass w) : ∃ w', v ∈ g'.aliasclass w' ∧ Lands A B w w' := by
  rw [aliasclass_congr hnodes]
  exact mem_mergeClasses hnodup hacc hv

/-! ## What a half does at the end of two paths -/

/-- All that a refused merge does. -/
def countBlocked (g : AliasGraph) : AliasGraph :=
  { g with NumTBAABlockedMerges := g.NumTBAABlockedMerges + 1 }

@[simp] theorem next_countBlocked (d : Dir) : g.countBlocked.next d = g.next d := by
  cases d <;> rfl

@[simp] theorem nodes_countBlocked : g.countBlocked.nodes = g.nodes := rfl

theorem mergeNode_of_refused (hgate : shouldMergeByTBAA tg g n1 n2 = false) :
    mergeNode tg n1 n2 g = g.countBlocked := by
  rw [mergeNode_eq, mergeBody, if_neg (by simp [hgate]), countBlocked]

/-- If nothing is on the other side of `n1`, before and after, the merge is one half. -/
theorem mergeNode_of_head (hn : n1 ≠ n2) (hgate : shouldMergeByTBAA tg g n1 n2 = true)
    (hhead : g.next d.rev n1 = none)
    (hz : (mergeEdges (mergeNode tg) d n1 n2 (g.moved n1 n2)).next d.rev n1 = none) :
    mergeNode tg n1 n2 g = mergeEdges (mergeNode tg) d n1 n2 (g.moved n1 n2) := by
  rw [mergeNode_of_gate hn hgate]
  cases d with
  | toNode => exact mergeEdges_of_none hz
  | fromNode =>
    rw [mergeEdges_of_none (d := .toNode) (g := g.moved n1 n2) (by rw [next_moved]; exact hhead)]

/-- The graph in which the ends of the paths `A` after `n1` and `B` after `n2` are merged. -/
def descend (d : Dir) : NodeId → NodeId → List NodeId → List NodeId → AliasGraph → AliasGraph
  | n1, n2, a :: A, b :: B, g => descend d a b A B ((g.tearOut d n1 n2 a b).moved a b)
  | _, _, _, _, g => g

section
variable (hlen : A.length = B.length)
include hlen

theorem next_descend (g : AliasGraph) (n1 n2 w : NodeId) : (g.descend d n1 n2 A B).next d w =
    if w ∈ (n1 :: A).dropLast ∨ w ∈ (n2 :: B).dropLast then none else g.next d w := by
  induction A generalizing g n1 n2 B with
  | nil =>
    obtain rfl := List.length_eq_zero_iff.1 hlen.symm
    simp [descend]
  | cons a A ih =>
    obtain ⟨b, B, rfl⟩ := List.exists_cons_of_length_eq_add_one hlen.symm
    rw [descend, ih (by simpa using hlen), next_moved, next_tearOut]
    simp only [List.dropLast_cons_cons, List.mem_cons]
    grind

theorem next_rev_descend (g : AliasGraph) (n1 n2 w : NodeId) :
    (g.descend d n1 n2 A B).next d.rev w =
      if w ∈ A ∨ w ∈ B then none else g.next d.rev w := by
  induction A generalizing g n1 n2 B with
  | nil =>
    obtain rfl := List.length_eq_zero_iff.1 hlen.symm
    simp [descend]
  | cons a A ih =>
    obtain ⟨b, B, rfl⟩ := List.exists_cons_of_length_eq_add_one hlen.symm
    rw [descend, ih (by simpa using hlen), next_moved, next_rev_tearOut]
    simp only [List.mem_cons]
    grind

theorem blocked_descend (g : AliasGraph) (n1 n2 : NodeId) :
    (g.descend d n1 n2 A B).NumTBAABlockedMerges = g.NumTBAABlockedMerges := by
  induction A generalizing g n1 n2 B with
  | nil =>
    obtain rfl := List.length_eq_zero_iff.1 hlen.symm
    rfl
  | cons a A ih =>
    obtain ⟨b, B, rfl⟩ := List.exists_cons_of_length_eq_add_one hlen.symm
    rw [descend, ih (by simpa using hlen), blocked_moved, blocked_tearOut]

end

section
variable (hlen : A.length = B.length) (hnodup : (A ++ B).Nodup) (hacc : tornOff tg g n1 A B = none)
include hlen hnodup hacc

theorem nodes_descend : (g.descend d n1 n2 A B).nodes = (mergeClasses tg A B g).nodes := by
  induction A generalizing g n1 n2 B with
  | nil =>
    obtain rfl := List.length_eq_zero_iff.1 hlen.symm
    rfl
  | cons a A ih =>
    obtain ⟨b, B, rfl⟩ := List.exists_cons_of_length_eq_add_one hlen.symm
    obtain ⟨hgate, hrest⟩ := tornOff_cons hacc
    have hb : b ∉ A ∧ b ∉ B := by grind
    have hnodes : ((g.tearOut d n1 n2 a b).moved a b).nodes = (g.moved a b).nodes :=
      nodes_moved_congr (by simp) a b
    rw [descend, ih (g := (g.tearOut d n1 n2 a b).moved a b) (by simpa using hlen) (by grind),
      mergeClasses, if_pos hgate]
    · exact mergeClasses_congr hnodes A B
    · rw [tornOff_moved hb.1 hb.2, ← hrest]
      exact tornOff_congr _ a (fun _ _ => by simp [tag]) fun _ _ => by simp [tag]

end

/-- `g'` is `z` with the path `B` after `n2` as it was in `g`. -/
structure PutBack (d : Dir) (n2 : NodeId) (B : List NodeId) (g z g' : AliasGraph) : Prop where
  next : ∀ w, g'.next d w = if w ∈ (n2 :: B).dropLast then g.next d w else z.next d w
  prev : ∀ w, g'.next d.rev w = if w ∈ B then g.next d.rev w else z.next d.rev w
  nodes : g'.nodes = z.nodes
  blocked : g'.NumTBAABlockedMerges = z.NumTBAABlockedMerges

/-- **One half of a merge.**  Where the gate lets the pairs on two paths through, it does what
    it does at their ends, and then puts the path of `n2` back. -/
theorem mergeEdges_descend (hlen : A.length = B.length) (hnodup : (A ++ B).Nodup)
    (hacc : tornOff tg g n1 A B = none) (hA : Path (g.next d) (n1 :: A))
    (hB : Path (g.next d) (n2 :: B)) (hB' : BackPath (g.next d.rev) (n2 :: B))
    (hstop : ∀ w, w = n1 ∨ w = n2 → w ∉ A.dropLast ∧ w ∉ B.dropLast)
    (hbase : ∀ w ∈ A, (mergeEdges (mergeNode tg) d (A.getLastD n1) (B.getLastD n2)
      (g.descend d n1 n2 A B)).next d.rev w = none) :
    PutBack d n2 B g (mergeEdges (mergeNode tg) d (A.getLastD n1) (B.getLastD n2)
      (g.descend d n1 n2 A B)) (mergeEdges (mergeNode tg) d n1 n2 g) := by
  induction A generalizing g n1 n2 B with
  | nil =>
    obtain rfl := List.length_eq_zero_iff.1 hlen.symm
    exact ⟨fun w => by simp [descend], fun w => by simp [descend], rfl, rfl⟩
  | cons t1 A ih =>
    obtain ⟨t2, B, rfl⟩ := List.exists_cons_of_length_eq_add_one hlen.symm
    obtain ⟨hgate, hrest⟩ := tornOff_cons hacc
    have ht : t1 ≠ t2 := by grind
    have hout : t1 ∉ A ∧ t1 ∉ B ∧ t2 ∉ A ∧ t2 ∉ B := by grind
    have h1 := hA.head
    have h2 := hB.head
    have h2' := hB'.head
    rw [List.getLastD_cons, List.getLastD_cons, descend] at hbase ⊢
    have hhead : (g.tearOut d n1 n2 t1 t2).next d.rev t1 = none := by
      rw [next_rev_tearOut, if_pos (Or.inl rfl)]
    -- the half for the rest of the paths, in the graph torn out
    have hz := ih (g := (g.tearOut d n1 n2 t1 t2).moved t1 t2) (by simpa using hlen) (by grind)
      (by
        rw [tornOff_moved hout.2.2.1 hout.2.2.2, ← hrest]
        exact tornOff_congr _ t1 (fun _ _ => by simp [tag]) fun _ _ => by simp [tag])
      (hA.tail.congr fun p hp => by
        rw [next_moved, next_tearOut, if_neg fun h => (hstop p h).1 hp])
      (hB.tail.congr fun p hp => by
        rw [next_moved, next_tearOut, if_neg fun h => (hstop p h).2 hp])
      (hB'.tail.congr fun q hq => by
        rw [next_moved, next_rev_tearOut, if_neg]
        rintro (rfl | rfl)
        · exact hout.2.1 hq
        · exact hout.2.2.2 hq)
      (by
        rintro w (rfl | rfl)
        · exact ⟨fun h => hout.1 (List.mem_of_mem_dropLast h),
            fun h => hout.2.1 (List.mem_of_mem_dropLast h)⟩
        · exact ⟨fun h => hout.2.2.1 (List.mem_of_mem_dropLast h),
            fun h => hout.2.2.2 (List.mem_of_mem_dropLast h)⟩)
      fun w hw => hbase w (List.mem_cons_of_mem _ hw)
    have hz1 := hz.prev t1
    rw [if_neg hout.2.1, hbase t1 (by simp)] at hz1
    have hnode : mergeEdges (mergeNode tg) d n1 n2 g = (mergeEdges (mergeNode tg) d t1 t2
        ((g.tearOut d n1 n2 t1 t2).moved t1 t2)).link d n2 t2 := by
      rw [← mergeNode_of_head ht _ hhead hz1]
      · simp only [mergeEdges, h1, h2, if_neg ht]
      · rw [← hgate]
        exact shouldMergeByTBAA_congr (by simp [tag]) (by simp [tag])
    rw [hnode]
    refine ⟨fun w => ?_, fun w => ?_, ?_, ?_⟩
    · rw [next_link, hz.next, next_moved, next_tearOut]
      simp only [List.dropLast_cons_cons, List.mem_cons, Dir.ne_rev, false_and, if_false, true_and]
      have hw := fun h => (hstop w h).2
      grind
    · rw [next_link, hz.prev, next_moved, next_rev_tearOut]
      simp only [List.mem_cons, Dir.rev_ne, false_and, if_false, true_and]
      grind
    · rw [nodes_link, hz.nodes]
    · rw [blocked_link, hz.blocked]

theorem tag_mergeClasses {w : NodeId} (hw : w ∉ B) :
    (mergeClasses tg A B g).tag w = g.tag w := by
  induction A generalizing g B with
  | nil => cases B <;> rfl
  | cons a A ih =>
    cases B with
    | nil => rfl
    | cons b B =>
      rw [List.mem_cons, not_or] at hw
      rw [mergeClasses]
      split
      · rw [ih hw.2, tag_moved hw.1]
      · rfl

/-- The end of a path after `n1` keeps what it points to, unless it is `n1` or on the path
    after `n2`. -/
theorem last_not_mem (hnodup : (A ++ B).Nodup) (hn : n1 ≠ n2) (h1 : n1 ∉ A)
    (h1' : n1 ∉ B.dropLast) (h2 : n2 ∉ A) :
    A.getLastD n1 ∉ (n1 :: A).dropLast ∧ A.getLastD n1 ∉ (n2 :: B).dropLast := by
  have hnd := List.nodup_append.1 hnodup
  have ha := getLast_not_mem_dropLast (List.nodup_cons.2 ⟨h1, hnd.1⟩) (by simp)
  rw [List.getLast_eq_getLastD] at ha
  refine ⟨ha, fun hmem => ?_⟩
  have haA : A.getLastD n1 ∈ n1 :: A := List.getLastD_mem_cons
  generalize A.getLastD n1 = a at haA hmem
  cases B with
  | nil => simp at hmem
  | cons b B =>
    rw [List.dropLast_cons_cons, List.mem_cons] at hmem
    rcases List.mem_cons.1 haA with rfl | haA
    · exact hmem.elim hn h1'
    · rcases hmem with rfl | hmem
      · exact h2 haA
      · exact hnd.2.2 a haA a (List.mem_of_mem_dropLast hmem) rfl

/-- **A refusal.**  The node `y` and those after it are torn off. -/
theorem mergeEdges_torn (hn : n1 ≠ n2) (hlen : A.length = B.length)
    (hnodup : (A ++ y :: (B ++ [c])).Nodup) (hacc : tornOff tg g n1 A B = none)
    (href : shouldMergeByTBAA tg g y c = false) (hA : Path (g.next d) (n1 :: A ++ [y]))
    (hB : Path (g.next d) (n2 :: B ++ [c])) (hB' : BackPath (g.next d.rev) (n2 :: B ++ [c]))
    (hstop : ∀ w, w = n1 ∨ w = n2 → w ∉ A ∧ w ∉ B) :
    Torn (g.next d) (g.next d.rev) ((mergeEdges (mergeNode tg) d n1 n2 g).next d)
        ((mergeEdges (mergeNode tg) d n1 n2 g).next d.rev) n1 y A none ∧
      (mergeEdges (mergeNode tg) d n1 n2 g).nodes = (mergeClasses tg A B g).nodes ∧
      (mergeEdges (mergeNode tg) d n1 n2 g).NumTBAABlockedMerges = g.NumTBAABlockedMerges + 1 := by
  have hnd : (A ++ B).Nodup := by grind
  have hy : y ∉ A ∧ y ∉ B ∧ c ∉ A ∧ c ∉ B ∧ y ≠ c := by grind
  have hs1 := hstop n1 (Or.inl rfl)
  have hs2 := hstop n2 (Or.inr rfl)
  have hay := hA.next_last (by simp)
  have hbc := hB.next_last (by simp)
  have hcb := hB'.prev_last (by simp)
  rw [List.getLast_eq_getLastD] at hay hbc hcb
  have ha : (g.descend d n1 n2 A B).next d (A.getLastD n1) = some y := by
    have hout := last_not_mem hnd hn hs1.1 (fun h => hs1.2 (List.mem_of_mem_dropLast h)) hs2.1
    rw [next_descend hlen, if_neg (not_or.2 hout), hay]
  have hb : (g.descend d n1 n2 A B).next d (B.getLastD n2) = some c := by
    have hout := last_not_mem (by grind) hn.symm hs2.2
      (fun h => hs2.1 (List.mem_of_mem_dropLast h)) hs1.2 (A := B) (B := A)
    rw [next_descend hlen, if_neg (not_or.2 hout.symm), hbc]
  have hnodes : (g.descend d n1 n2 A B).nodes = (mergeClasses tg A B g).nodes :=
    nodes_descend hlen hnd hacc
  have href' : shouldMergeByTBAA tg ((g.descend d n1 n2 A B).tearOut d (A.getLastD n1)
      (B.getLastD n2) y c) y c = false := by
    rw [← href]
    have htag : ∀ w, w ∉ B → ((g.descend d n1 n2 A B).tearOut d (A.getLastD n1)
        (B.getLastD n2) y c).tag w = g.tag w := by
      intro w hw
      rw [tag, nodes_tearOut, hnodes, ← tag, tag_mergeClasses hw]
    exact shouldMergeByTBAA_congr (htag y hy.2.1) (htag c hy.2.2.2.1)
  have hbase : mergeEdges (mergeNode tg) d (A.getLastD n1) (B.getLastD n2)
      (g.descend d n1 n2 A B) = ((g.descend d n1 n2 A B).tearOut d (A.getLastD n1)
        (B.getLastD n2) y c).countBlocked.link d (B.getLastD n2) c := by
    simp only [mergeEdges, ha, hb, if_neg hy.2.2.2.2, mergeNode_of_refused href']
  have hz := mergeEdges_descend hlen hnd hacc hA.before hB.before hB'.before
    (fun w hw => ⟨fun h => (hstop w hw).1 (List.mem_of_mem_dropLast h),
      fun h => (hstop w hw).2 (List.mem_of_mem_dropLast h)⟩) (fun w hw => by
      rw [hbase, next_link, next_countBlocked, next_rev_tearOut, next_rev_descend hlen]
      simp only [Dir.rev_ne, false_and, if_false, true_and, hw, true_or, if_true]
      grind)
  rw [hbase] at hz
  refine ⟨⟨fun w => ?_, fun w => ?_⟩, ?_, ?_⟩
  · rw [hz.next, next_link, next_countBlocked, next_tearOut, next_descend hlen]
    simp only [Dir.ne_rev, false_and, if_false, true_and]
    have hwA := List.mem_cons.symm.trans (mem_cons_iff_dropLast (w := w) (a := n1) (l := A))
    have hwB := mem_cons_iff_dropLast (w := w) (a := n2) (l := B)
    have hdisj : w ∈ n1 :: A → w ∉ n2 :: B := by grind
    generalize (n2 :: B).dropLast = l at hwB ⊢
    generalize (n1 :: A).dropLast = m at hwA ⊢
    generalize A.getLastD n1 = a at hwA ⊢
    by_cases hw : w = B.getLastD n2
    · rw [← hw] at hbc ⊢
      grind
    · grind
  · rw [hz.prev, next_link, next_countBlocked, next_rev_tearOut, next_rev_descend hlen]
    simp only [Dir.rev_ne, false_and, if_false, true_and]
    grind
  · rw [hz.nodes, nodes_link, nodes_countBlocked, nodes_tearOut, hnodes]
  · rw [hz.blocked, blocked_link, countBlocked, blocked_tearOut, blocked_descend hlen]

/-- The nodes after `n1` end first: they are merged, and that is all. -/
theorem mergeEdges_ended (hlen : A.length = B.length) (hnodup : (A ++ B).Nodup)
    (hacc : tornOff tg g n1 A B = none) (hA : Path (g.next d) (n1 :: A))
    (hB : Path (g.next d) (n2 :: B)) (hB' : BackPath (g.next d.rev) (n2 :: B))
    (hstop : ∀ w, w = n1 ∨ w = n2 → w ∉ A.dropLast ∧ w ∉ B.dropLast)
    (hend : (g.descend d n1 n2 A B).next d (A.getLastD n1) = none ∨
      (g.descend d n1 n2 A B).next d (A.getLastD n1) =
        (g.descend d n1 n2 A B).next d (B.getLastD n2)) :
    (∀ w, (mergeEdges (mergeNode tg) d n1 n2 g).next d.rev w =
        if w ∈ A then none else g.next d.rev w) ∧
      (mergeEdges (mergeNode tg) d n1 n2 g).nodes = (mergeClasses tg A B g).nodes ∧
      (mergeEdges (mergeNode tg) d n1 n2 g).NumTBAABlockedMerges = g.NumTBAABlockedMerges := by
  have hbase : mergeEdges (mergeNode tg) d (A.getLastD n1) (B.getLastD n2)
      (g.descend d n1 n2 A B) = g.descend d n1 n2 A B := by
    rcases hend with h | h
    · exact mergeEdges_of_none h
    · cases ha : (g.descend d n1 n2 A B).next d (A.getLastD n1) with
      | none => exact mergeEdges_of_none ha
      | some t => simp only [mergeEdges, ← h, ha, if_true]
  have hz := mergeEdges_descend hlen hnodup hacc hA hB hB' hstop (fun w hw => by
    rw [hbase, next_rev_descend hlen, if_pos (Or.inl hw)])
  rw [hbase] at hz
  refine ⟨fun w => ?_, hz.nodes.trans (nodes_descend hlen hnodup hacc),
    hz.blocked.trans (blocked_descend hlen _ _ _)⟩
  rw [hz.prev, next_rev_descend hlen]
  grind

/-- The nodes after `n2` end first: `y` is linked to the last of them. -/
theorem mergeEdges_linked (hn : n1 ≠ n2) (hlen : A.length = B.length) (hnodup : (A ++ B).Nodup)
    (hy : y ∉ A) (hacc : tornOff tg g n1 A B = none) (hA : Path (g.next d) (n1 :: A ++ [y]))
    (hB : Path (g.next d) (n2 :: B)) (hB' : BackPath (g.next d.rev) (n2 :: B))
    (hstop : ∀ w, w = n1 ∨ w = n2 → w ∉ A ∧ w ∉ B.dropLast)
    (hend : (g.descend d n1 n2 A B).next d (B.getLastD n2) = none) :
    PutBack d n2 B g
      (((g.descend d n1 n2 A B).eraseEdge d (A.getLastD n1)).link d (B.getLastD n2) y)
      (mergeEdges (mergeNode tg) d n1 n2 g) := by
  have hs1 := hstop n1 (Or.inl rfl)
  have hs2 := hstop n2 (Or.inr rfl)
  have hay := hA.next_last (by simp)
  rw [List.getLast_eq_getLastD] at hay
  have ha : (g.descend d n1 n2 A B).next d (A.getLastD n1) = some y := by
    rw [next_descend hlen, if_neg (not_or.2 (last_not_mem hnodup hn hs1.1 hs1.2 hs2.1)), hay]
  have hbase : mergeEdges (mergeNode tg) d (A.getLastD n1) (B.getLastD n2)
      (g.descend d n1 n2 A B) =
        ((g.descend d n1 n2 A B).eraseEdge d (A.getLastD n1)).link d (B.getLastD n2) y := by
    simp only [mergeEdges, ha, hend]
  have hz := mergeEdges_descend hlen hnodup hacc hA.before hB hB'
    (fun w hw => ⟨fun h => (hstop w hw).1 (List.mem_of_mem_dropLast h), (hstop w hw).2⟩)
    (fun w hw => by
      rw [hbase, next_link, next_eraseEdge, next_rev_descend hlen]
      simp only [Dir.rev_ne, false_and, if_false, true_and, hw, true_or, if_true]
      grind)
  rwa [hbase] at hz

/-- The nodes after `n2` end first: `y` and the nodes after it follow them. -/
theorem mergeEdges_shifted (hn : n1 ≠ n2) (hlen : A.length = B.length)
    (hnodup : (A ++ y :: B).Nodup) (hacc : tornOff tg g n1 A B = none)
    (hA : Path (g.next d) (n1 :: A ++ [y])) (hB : Path (g.next d) (n2 :: B))
    (hB' : BackPath (g.next d.rev) (n2 :: B))
    (hstop : ∀ w, w = n1 ∨ w = n2 → w ∉ A ∧ w ∉ B.dropLast)
    (hend : (g.descend d n1 n2 A B).next d (B.getLastD n2) = none) :
    (∀ w, (mergeEdges (mergeNode tg) d n1 n2 g).next d w =
        if w ∈ (n2 :: B).dropLast then g.next d w else if w = B.getLastD n2 then some y
        else if w = n1 ∨ w ∈ A then none else g.next d w) ∧
      (∀ w, (mergeEdges (mergeNode tg) d n1 n2 g).next d.rev w =
        if w = y then some (B.getLastD n2) else if w ∈ A then none else g.next d.rev w) ∧
      (mergeEdges (mergeNode tg) d n1 n2 g).nodes = (mergeClasses tg A B g).nodes ∧
      (mergeEdges (mergeNode tg) d n1 n2 g).NumTBAABlockedMerges = g.NumTBAABlockedMerges := by
  have hnd : (A ++ B).Nodup := by grind
  have hz := mergeEdges_linked hn hlen hnd (by grind) hacc hA hB hB' hstop hend
  refine ⟨fun w => ?_, fun w => ?_, ?_, ?_⟩
  · rw [hz.next, next_link, next_eraseEdge, next_descend hlen]
    simp only [Dir.ne_rev, false_and, if_false, true_and]
    have hwA := List.mem_cons.symm.trans (mem_cons_iff_dropLast (w := w) (a := n1) (l := A))
    grind
  · rw [hz.prev, next_link, next_eraseEdge, next_rev_descend hlen]
    simp only [Dir.rev_ne, false_and, if_false, true_and]
    grind
  · rw [hz.nodes, nodes_link, nodes_eraseEdge]
    exact nodes_descend hlen hnd hacc
  · rw [hz.blocked, blocked_link, blocked_eraseEdge, blocked_descend hlen]

/-! ## Halves of graphs whose maps mirror each other -/

/-- What leads to a node after a half in the direction `d`: the nodes `A` after `n1` are merged
    into the nodes `B` after `n2`, up to the link `torn` before a refusal. -/
def prevAfter (g : AliasGraph) (d : Dir) (n2 : NodeId) (torn : Option (NodeId × NodeId))
    (A B : List NodeId) (w : NodeId) : Option NodeId :=
  match torn with
  | some (_, y) => if w = y ∨ w ∈ A.takeWhile (· ≠ y) then none else g.next d.rev w
  | none =>
    if w ∈ A.take B.length then none
    -- what is left of `A` follows `B`
    else if A[B.length]? = some w then (n2 :: B).getLast? else g.next d.rev w

/-- What a half leaves behind. -/
structure HalfDone (tg : TBAAGraph) (d : Dir) (n1 n2 : NodeId) (A B : List NodeId)
    (g g' : AliasGraph) : Prop where
  prev : g'.next d.rev = g.prevAfter d n2 (tornOff tg g n1 A B) A B
  nodes : g'.nodes = (mergeClasses tg A B g).nodes
  blocked : g'.NumTBAABlockedMerges =
    g.NumTBAABlockedMerges + if (tornOff tg g n1 A B).isSome then 1 else 0

theorem mergeClasses_refused {A₁ B₁ : List NodeId} (hlen : A.length = B.length) {n : NodeId}
    (hnodup : (A ++ y :: (B ++ [c])).Nodup) (hacc : tornOff tg g n A B = none)
    (href : shouldMergeByTBAA tg g y c = false) :
    mergeClasses tg (A ++ y :: A₁) (B ++ c :: B₁) g = mergeClasses tg A B g := by
  induction A generalizing g n B with
  | nil =>
    obtain rfl := List.length_eq_zero_iff.1 hlen.symm
    simp [mergeClasses, href]
  | cons a A ih =>
    obtain ⟨b, B, rfl⟩ := List.exists_cons_of_length_eq_add_one hlen.symm
    obtain ⟨hgate, hrest⟩ := tornOff_cons hacc
    have hb : b ∉ A ∧ b ∉ B ∧ y ≠ b ∧ c ≠ b := by grind
    simp only [List.cons_append, mergeClasses, if_pos hgate]
    refine ih (by simpa using hlen) (by grind) (n := a) ?_ ?_
    · rw [tornOff_moved hb.1 hb.2.1, hrest]
    · rw [← href]
      exact shouldMergeByTBAA_congr (tag_moved hb.2.2.1) (tag_moved hb.2.2.2)

theorem tornOff_take (n : NodeId) :
    tornOff tg g n (A.take B.length) (B.take A.length) = tornOff tg g n A B := by
  induction A generalizing n B with
  | nil => cases B <;> rfl
  | cons a A ih =>
    cases B with
    | nil => rfl
    | cons b B => simp only [List.length_cons, List.take_succ_cons, tornOff, ih]

theorem mergeClasses_take :
    mergeClasses tg (A.take B.length) (B.take A.length) g = mergeClasses tg A B g := by
  induction A generalizing g B with
  | nil => cases B <;> rfl
  | cons a A ih =>
    cases B with
    | nil => rfl
    | cons b B => simp only [List.length_cons, List.take_succ_cons, mergeClasses, ih]

/-- At the end of a chain nothing is left to be merged. -/
theorem next_descend_end {n : NodeId} {l : List NodeId} (hlen : A.length = B.length)
    (hl : Chain (g.next d) {n1, n2} n l) (hlA : l.length = A.length) :
    (g.descend d n1 n2 A B).next d (l.getLastD n) = none := by
  rw [next_descend hlen]
  rcases List.eq_nil_or_concat l with rfl | ⟨l, w, rfl⟩
  · rw [List.getLastD_nil, Chain.nil_iff.1 hl]
    split <;> rfl
  · rw [List.concat_eq_append] at hl hlA ⊢
    rw [List.getLastD_concat]
    obtain ⟨a, A, rfl⟩ := List.exists_cons_of_length_pos (l := A) (by simp at hlA; omega)
    obtain ⟨b, B, rfl⟩ := List.exists_cons_of_length_eq_add_one hlen.symm
    simp only [List.dropLast_cons_cons, List.mem_cons]
    by_cases hw : w ∈ ({n1, n2} : Set NodeId)
    · rw [if_pos]
      rcases hw with rfl | rfl
      · exact Or.inl (Or.inl rfl)
      · exact Or.inr (Or.inl rfl)
    · rw [hl.next_last hw]
      split <;> rfl

section
variable (hinv : Inverse (g.next d) (g.next d.rev)) (hn : n1 ≠ n2)
  (hA : Chain (g.next d) {n1, n2} n1 A) (hB : Chain (g.next d) {n1, n2} n2 B)
include hinv hn hA hB

theorem nodup_chains : (A ++ B).Nodup :=
  List.nodup_append.2 ⟨hA.nodup, hB.nodup, fun _ ha _ hb hab =>
    hA.disjoint hB hinv hn _ ha (hab ▸ hb)⟩

theorem halfDone_of_refused (h : tornOff tg g n1 A B = some (x, y)) :
    ∃ A₀ A₁ B₀ c B₁, A = A₀ ++ y :: A₁ ∧ B = B₀ ++ c :: B₁ ∧ A₀.length = B₀.length ∧
      (n1 :: A₀).getLast? = some x ∧
      (∀ v w, v ∈ g.aliasclass w → ∃ w', v ∈ (mergeEdges (mergeNode tg) d n1 n2 g).aliasclass w' ∧
        Lands A₀ B w w') ∧
      Torn (g.next d) (g.next d.rev) ((mergeEdges (mergeNode tg) d n1 n2 g).next d)
        ((mergeEdges (mergeNode tg) d n1 n2 g).next d.rev) n1 y A₀ none ∧
      HalfDone tg d n1 n2 A B g (mergeEdges (mergeNode tg) d n1 n2 g) := by
  have hnodup := nodup_chains hinv hn hA hB
  obtain ⟨A₀, A₁, B₀, c, B₁, rfl, rfl, hlen, hx, hacc, href⟩ := tornOff_split h
  have hnd : (A₀ ++ y :: (B₀ ++ [c])).Nodup := by grind
  have hAp : Path (g.next d) (n1 :: A₀ ++ [y]) :=
    Path.before (m := A₁) (by simpa using hA.path)
  have hBp : Path (g.next d) (n2 :: B₀ ++ [c]) :=
    Path.before (m := B₁) (by simpa using hB.path)
  obtain ⟨ht, hnodes, hblocked⟩ := mergeEdges_torn hn hlen hnd hacc href hAp hBp
    (hBp.back hinv) fun w hw => ⟨fun hmem => hA.not_stop_of_append hmem hw,
      fun hmem => hB.not_stop_of_append hmem hw⟩
  refine ⟨A₀, A₁, B₀, c, B₁, rfl, rfl, hlen, hx, fun v w hv => ?_, ht, ?_, ?_, ?_⟩
  · obtain ⟨w', hw', hl⟩ := lands_of_nodes hnodes (by grind) hacc hv
    exact ⟨w', hw', Lands.append hl hlen _⟩
  · have htake : (A₀ ++ y :: A₁).takeWhile (· ≠ y) = A₀ := by
      rw [List.takeWhile_append_of_pos (by grind)]
      simp
    funext w
    rw [ht.prev, h, prevAfter, htake]
    split <;> simp_all
  · rw [hnodes, mergeClasses_refused hlen hnd hacc href]
  · rw [hblocked, h]; rfl

theorem halfDone_of_ended (h : tornOff tg g n1 A B = none) (hle : A.length ≤ B.length) :
    HalfDone tg d n1 n2 A B g (mergeEdges (mergeNode tg) d n1 n2 g) := by
  have hnodup := nodup_chains hinv hn hA hB
  have hlen : A.length = (B.take A.length).length := by simp [hle]
  have hacc : tornOff tg g n1 A (B.take A.length) = none := by
    rw [← h, ← tornOff_take (A := A) (B := B), List.take_of_length_le hle]
  have hBp : Path (g.next d) (n2 :: B.take A.length) :=
    Path.before (m := B.drop A.length) (by simpa using hB.path)
  obtain ⟨hprev, hnodes, hblocked⟩ := mergeEdges_ended hlen (by grind) hacc hA.path hBp
    (hBp.back hinv) (fun w hw => ⟨fun hmem => hA.not_stop_of_dropLast (List.prefix_refl _) hmem hw,
      fun hmem => hB.not_stop_of_dropLast (List.take_prefix ..) hmem hw⟩)
    (Or.inl (next_descend_end hlen hA rfl))
  refine ⟨?_, ?_, ?_⟩
  · funext w
    rw [hprev, h, prevAfter, List.take_of_length_le hle, List.getElem?_eq_none hle]
    simp
  · rw [hnodes, ← mergeClasses_take (A := A) (B := B), List.take_of_length_le hle]
  · rw [hblocked, h]; rfl

theorem halfDone_of_shifted {A₁ : List NodeId} (hA' : A = A₀ ++ y :: A₁)
    (hlen : A₀.length = B.length) (h : tornOff tg g n1 A B = none) :
    (∀ w, (mergeEdges (mergeNode tg) d n1 n2 g).next d w =
        if w ∈ (n2 :: B).dropLast then g.next d w else if w = B.getLastD n2 then some y
        else if w = n1 ∨ w ∈ A₀ then none else g.next d w) ∧
      (∀ w, (mergeEdges (mergeNode tg) d n1 n2 g).next d.rev w =
        if w = y then some (B.getLastD n2) else if w ∈ A₀ then none else g.next d.rev w) ∧
    HalfDone tg d n1 n2 A B g (mergeEdges (mergeNode tg) d n1 n2 g) := by
  have hnodup := nodup_chains hinv hn hA hB
  subst hA'
  have hacc : tornOff tg g n1 A₀ B = none := by
    rw [← h, ← tornOff_take (A := A₀ ++ y :: A₁) (B := B), ← hlen, List.take_left,
      List.take_of_length_le]
    simp [hlen]
  have hAp : Path (g.next d) (n1 :: A₀ ++ [y]) :=
    Path.before (m := A₁) (by simpa using hA.path)
  obtain ⟨hnext, hprev, hnodes, hblocked⟩ := mergeEdges_shifted hn hlen (by grind) hacc
    hAp hB.path (hB.path.back hinv) (fun w hw => ⟨fun hmem => hA.not_stop_of_append hmem hw,
      fun hmem => hB.not_stop_of_dropLast (List.prefix_refl _) hmem hw⟩)
    (next_descend_end hlen hB hlen.symm)
  refine ⟨hnext, hprev, ?_, ?_, ?_⟩
  · funext w
    rw [hprev, h, prevAfter, ← hlen, List.take_left, List.getElem?_append_right le_rfl,
      List.getLast?_cons, ← List.getLastD_eq_getLast?]
    simp only [Nat.sub_self, List.getElem?_cons_zero, Option.some.injEq]
    have hyA : y ∉ A₀ := by grind
    by_cases hw : w = y
    · subst hw; simp [hyA]
    · simp [hw, Ne.symm hw]
  · rw [hnodes, ← mergeClasses_take (A := A₀ ++ y :: A₁) (B := B), ← hlen, List.take_left,
      List.take_of_length_le (by simp [hlen])]
  · rw [hblocked, h]; rfl

/-- If the nodes after `n2` lead back to it, the link put back overwrites that to `y`: only one
    of the maps still has it. -/
theorem torn_of_overwritten {A₁ : List NodeId} (hA' : A = A₀ ++ y :: A₁)
    (hlen : A₀.length = B.length) (h : tornOff tg g n1 A B = none) (h2 : n2 ∈ B) :
    Torn (g.next d) (g.next d.rev) ((mergeEdges (mergeNode tg) d n1 n2 g).next d)
        ((mergeEdges (mergeNode tg) d n1 n2 g).next d.rev) n1 y A₀ (some n2) ∧
      ∀ v w, v ∈ g.aliasclass w → ∃ w', v ∈ (mergeEdges (mergeNode tg) d n1 n2 g).aliasclass w' ∧
        Lands A₀ B w w' := by
  have hnodup := nodup_chains hinv hn hA hB
  obtain ⟨hnext, hprev, hd⟩ := halfDone_of_shifted hinv hn hA hB hA' hlen h
  obtain ⟨l, rfl, hl⟩ := hB.mem_stop h2 (Or.inr rfl)
  subst hA'
  have h1l : n1 ∉ l := fun hmem => hl n1 hmem (Or.inl rfl)
  have hdrop : (n2 :: (l ++ [n2])).dropLast = n2 :: l := by
    rw [← List.cons_append, List.dropLast_concat]
  refine ⟨⟨fun w => ?_, fun w => ?_⟩, fun v w hv => ?_⟩
  · rw [hnext, hdrop, List.getLastD_concat]
    have hdisj : ∀ w ∈ n2 :: l, w ≠ n1 ∧ w ∉ A₀ := by
      have h2A : n2 ∉ A₀ := fun hmem => hA.not_stop_of_append hmem (Or.inr rfl)
      grind
    by_cases hw : w ∈ n2 :: l
    · rw [if_pos hw, if_neg (not_or.2 (hdisj w hw))]
    · have hw2 : w ≠ n2 := fun h => hw (h ▸ List.mem_cons_self)
      rw [if_neg hw, if_neg hw2]
  · rw [hprev, List.getLastD_concat]
  · obtain ⟨w', hw', hlw⟩ := lands_of_nodes hd.nodes hnodup h hv
    exact ⟨w', hw', Lands.of_append hlw hlen⟩

variable (tg) in
theorem halfDone : HalfDone tg d n1 n2 A B g (mergeEdges (mergeNode tg) d n1 n2 g) := by
  cases h : tornOff tg g n1 A B with
  | some c =>
    obtain ⟨A₀, A₁, B₀, c, B₁, -, -, -, -, -, -, hd⟩ := halfDone_of_refused hinv hn hA hB h
    exact hd
  | none =>
    rcases Nat.lt_or_ge B.length A.length with hlt | hle
    · have hA' : A = A.take B.length ++ A[B.length] :: A.drop (B.length + 1) := by
        rw [List.getElem_cons_drop, List.take_append_drop]
      exact (halfDone_of_shifted hinv hn hA hB hA' (by simp [hlt.le]) h).2.2
    · exact halfDone_of_ended hinv hn hA hB h hle

end

end TFA.AliasGraph
