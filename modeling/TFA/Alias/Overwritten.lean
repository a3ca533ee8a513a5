/-
  A ring of `n2` that is shorter than the nodes after `n1`.

  The first half merges nodes after `n1` into all of the ring, and then puts the
  first link of the ring back over the link to the rest.  The maps do not mirror
  each other any more: the `ToNodeMap` has lost the link to the rest `t`, and the
  `FromNodeMap` leads from `t` to `n2`.  Without the entry of `t` the second half is
  as in other merges (`Overwrites.secondTorn`); with it, the nodes before `n1` can
  lead to the ring (`Overwrites.before1`).
-/
import TFA.Alias.Halves

namespace TFA.AliasGraph

open Links

variable {tg : TBAAGraph} {g z f : AliasGraph} {n1 n2 x y s t a b : NodeId}
  {A A₀ R B C C₀ C₁ D : List NodeId}

/-- The first half merges `A₀` into the ring `B` of `n2` and overwrites the link from the last
    of them to `t`: it is in neither map, but the `FromNodeMap` leads from `t` to `n2`. -/
structure Overwrites (n1 n2 s t : NodeId) (A₀ R B : List NodeId) (g z : AliasGraph) : Prop where
  ne : n1 ≠ n2
  mirrored : g.Mirrored
  after1 : Chain (g.next .toNode) {n1, n2} n1 (A₀ ++ t :: R)
  after2 : Chain (g.next .toNode) {n1, n2} n2 B
  last : (n1 :: A₀).getLast? = some s
  length : A₀.length = B.length
  ring : n2 ∈ B
  torn : Torn (g.next .toNode) (g.next .fromNode) (z.next .toNode) (z.next .fromNode) n1 t A₀
    (some n2)
  lands : ∀ v w, v ∈ g.aliasclass w →
    ∃ w', v ∈ z.aliasclass w' ∧ Lands A₀ B (holder n1 n2 w) w'

theorem overwrites (h : g.Mirrored) (hn : n1 ≠ n2) (hA : Chain (g.next .toNode) {n1, n2} n1 A)
    (hB : Chain (g.next .toNode) {n1, n2} n2 B)
    (ht : tornOff tg (g.moved n1 n2) n1 A B = none) (h2 : n2 ∈ B) (hlt : B.length < A.length) :
    ∃ A₀ R s t, A = A₀ ++ t :: R ∧ Overwrites n1 n2 s t A₀ R B g (firstHalf tg n1 n2 g) := by
  have hinv : Inverse ((g.moved n1 n2).next .toNode) ((g.moved n1 n2).next Dir.toNode.rev) := by
    simpa using h.inverse .toNode
  have hA' : A = A.take B.length ++ A[B.length] :: A.drop (B.length + 1) := by
    rw [List.getElem_cons_drop, List.take_append_drop]
  have hlen : (A.take B.length).length = B.length := by simp [hlt.le]
  obtain ⟨htorn, hlands⟩ := torn_of_overwritten hinv hn (by simpa using hA) (by simpa using hB) hA'
    hlen ht h2
  rw [next_moved, next_moved] at htorn
  exact ⟨_, _, _, _, hA', hn, h, hA' ▸ hA, hB, List.getLast?_cons, hlen, h2,
    htorn, fun v w hv => hlands v _ (mem_moved hn hv)⟩

section
variable (O : Overwrites n1 n2 s t A₀ R B g z)
include O

/-- The `FromNodeMap` after the first half, without the entry of `t`. -/
theorem Overwrites.firstDone : FirstDone n1 n2 A₀ B (Function.update (g.next .toNode) s none)
    (Function.update (g.next .fromNode) t none) (Function.update (z.next .fromNode) t none) g z :=
  ⟨Inverse.cut O.mirrored (O.after1.next_of_getLast O.last), O.after1.before_cut O.last,
    O.after1.other_cut O.mirrored O.ne O.last O.after2,
    O.torn.spliced O.mirrored O.ne O.after1 O.last O.after2 O.length.le, O.lands⟩

theorem Overwrites.not_mem : t ∉ n2 :: B := by
  rw [List.mem_cons, not_or]
  have h2 := O.after1.disjoint O.after2 O.mirrored O.ne
  refine ⟨?_, h2 t (by simp)⟩
  rintro rfl
  exact h2 t (by simp) O.ring

theorem Overwrites.entry : z.next .fromNode t = some n2 := by rw [O.torn.prev, if_pos rfl]

theorem Overwrites.ring_after : Chain (z.next .toNode) {n1, n2} n2 B := by
  have h := O.firstDone.spliced.chain
  rw [List.drop_eq_nil_of_le O.length.le, List.append_nil] at h
  refine h.congr_stop fun w hw => ⟨Or.inr, ?_⟩
  rintro (rfl | hw2)
  · exact absurd (O.after2.stop_unique hw (Or.inl rfl) O.ring (Or.inr rfl)) O.ne
  · exact hw2

/-- The ring of `n2` backwards. -/
theorem Overwrites.ring_before (hD : Chain (z.next .fromNode) {n1, n2} n2 D) :
    Chain (Function.update (z.next .fromNode) t none) {n1, n2} n2 D ∧ n2 ∈ D ∧ t ∉ D := by
  have hinv := O.firstDone.spliced.inverse
  have hsub : ∀ w ∈ D, w ∈ B := by
    refine hD.forall_mem O.ring fun p q hp hpq => ?_
    have hpt : p ≠ t := fun h => O.not_mem (List.mem_cons_of_mem _ (h ▸ hp))
    have hqp := (hinv q p).2 (by rw [Function.update_of_ne hpt]; exact hpq)
    obtain ⟨c, hc, hcp⟩ := O.ring_after.exists_prev hp
    rw [hinv.injective hqp hcp]
    rcases hc with rfl | ⟨hc, -⟩
    · exact O.ring
    · exact hc
  have htD : t ∉ D := fun h => O.not_mem (List.mem_cons_of_mem _ (hsub t h))
  have hD' : Chain (Function.update (z.next .fromNode) t none) {n1, n2} n2 D := by
    refine hD.congr fun w hw => Function.update_of_ne ?_ _ _
    rintro rfl
    rcases hw with rfl | ⟨hw, -⟩
    · exact O.not_mem List.mem_cons_self
    · exact htD hw
  exact ⟨hD', O.ring_after.mem_back hinv O.ring (Or.inr rfl) hD', htD⟩

theorem Overwrites.not_mem_after : n1 ∉ B := fun h1 =>
  O.ne (O.after2.stop_unique h1 (Or.inl rfl) O.ring (Or.inr rfl))

/-- Where the overwritten link is. -/
theorem Overwrites.getElem? : (A₀ ++ t :: R)[B.length - 1]? = some s ∧
    (A₀ ++ t :: R)[B.length]? = some t := by
  have hpos : 0 < A₀.length := by rw [O.length]; exact List.length_pos_of_mem O.ring
  have hs := O.last
  rw [List.getLast?_cons_of_ne_nil (List.ne_nil_of_length_pos hpos),
    List.getLast?_eq_getElem?] at hs
  rw [← O.length, List.getElem?_append_left (by omega), hs]
  simp

/-- There are chains of nodes before `n1` and `n2`. -/
theorem Overwrites.exists_before : ∃ C D, Chain (z.next .fromNode) {n1, n2} n1 C ∧
    Chain (z.next .fromNode) {n1, n2} n2 D := by
  have hinv := O.firstDone.spliced.inverse
  have hend : Function.update (z.next .fromNode) t none t = none := Function.update_self ..
  have hchain : ∀ n, n ∈ ({n1, n2} : Set NodeId) →
      ∃ l, Chain (Function.update (z.next .fromNode) t none) {n1, n2} n l := fun n hn =>
    exists_chain (K := (z.edges .fromNode).keys) hinv.symm (fun p q hpq => by
      rw [Function.update_apply] at hpq
      split at hpq
      · cases hpq
      · exact mem_keys_iff.2 ⟨q, hpq⟩) hn
  have hoff : ∀ {n l}, Chain (Function.update (z.next .fromNode) t none) {n1, n2} n l →
      t ∉ n :: l → Chain (z.next .fromNode) {n1, n2} n l := by
    intro n l hl ht
    refine hl.congr fun w hw => (Function.update_of_ne ?_ _ _).symm
    rintro rfl
    exact ht (List.mem_cons.2 (hw.imp_right And.left))
  obtain ⟨C, hC⟩ := hchain n1 (Or.inl rfl)
  obtain ⟨D, hD⟩ := hchain n2 (Or.inr rfl)
  have h2D := O.ring_after.mem_back hinv O.ring (Or.inr rfl) hD
  have ht2 : t ≠ n2 := fun h => O.not_mem (h ▸ List.mem_cons_self)
  have htD : t ∉ n2 :: D := by
    rw [List.mem_cons, not_or]
    refine ⟨ht2, fun htD => ?_⟩
    obtain ⟨l, rfl⟩ := hD.eq_concat htD hend
    obtain ⟨l', heq, -⟩ := hD.mem_stop h2D (Or.inr rfl)
    exact ht2 (List.singleton_inj.1 (List.append_inj' heq rfl).2)
  by_cases ht : t ∈ n1 :: C
  · refine ⟨C ++ [n2], D, hC.extend ?_ ?_ O.entry (Or.inr rfl), hoff hD htD⟩
    · rcases List.mem_cons.1 ht with rfl | ht
      · rw [hC.unique (.stop hend)]
        rfl
      · obtain ⟨l, rfl⟩ := hC.eq_concat ht hend
        rw [List.getLast?_cons_of_ne_nil (by simp), List.getLast?_concat]
    · rintro w hw (rfl | rfl)
      · exact hC.head_not_mem hinv.symm (O.firstDone.spliced.spent O.not_mem_after) hw
      · exact hC.disjoint hD hinv.symm O.ne w hw h2D
  · exact ⟨C, D, hoff hC ht, hoff hD htD⟩

/-- The nodes before `n1` lead to `n2` by the entry of `t` only. -/
theorem Overwrites.before1 (hC : Chain (z.next .fromNode) {n1, n2} n1 C)
    (hD : Chain (z.next .fromNode) {n1, n2} n2 D) :
    (n2 ∉ C ∧ t ∉ n1 :: C ∧ Chain (Function.update (z.next .fromNode) t none) {n1, n2} n1 C) ∨
      ∃ l, C = l ++ [n2] ∧ (n1 :: l).getLast? = some t ∧ n2 ∉ l ∧
        Chain (Function.update (z.next .fromNode) t none) {n1, n2} n1 l := by
  obtain ⟨hD', h2D, -⟩ := O.ring_before hD
  have hinv := O.firstDone.spliced.inverse
  have htS : t ≠ n2 := fun h => O.not_mem (h ▸ List.mem_cons_self)
  by_cases h2 : n2 ∈ C
  · obtain ⟨l, rfl, hl⟩ := hC.mem_stop h2 (Or.inr rfl)
    have hlast : (n1 :: l).getLast? = some t := by
      by_cases ht : t ∈ n1 :: l
      · rcases List.mem_cons.1 ht with rfl | ht
        · cases l with
          | nil => rfl
          | cons c l =>
            have hc := hC.next_head.symm.trans O.entry
            exact absurd (Option.some.inj hc ▸ Or.inr rfl) (hl c (by simp))
        · obtain ⟨p, q, rfl⟩ := List.append_of_mem ht
          have hq := hC
          rw [List.append_assoc, List.cons_append] at hq
          have hnil := (hq.drop (hl t ht)).unique (.last O.entry (Or.inr rfl))
          obtain rfl : q = [] := by simpa using hnil
          rw [List.getLast?_cons_of_ne_nil (by simp), List.getLast?_concat]
      · refine absurd h2D ((hC.congr fun w hw => Function.update_of_ne ?_ _ _).disjoint hD'
          hinv.symm O.ne n2 h2)
        rintro rfl
        refine ht (List.mem_cons.2 (hw.imp_right fun ⟨hw, hwS⟩ => ?_))
        refine (List.mem_append.1 hw).resolve_right fun h => ?_
        exact hwS (Or.inr (List.mem_singleton.1 h))
    exact Or.inr ⟨l, rfl, hlast, fun h => hl n2 h (Or.inr rfl), hC.before_cut hlast⟩
  · have ht : t ∉ n1 :: C := by
      intro ht
      rcases List.mem_cons.1 ht with rfl | ht
      · exact h2 (hC.mem_start O.entry)
      · by_cases ht1 : t = n1
        · exact h2 (hC.mem_start (ht1 ▸ O.entry))
        · exact h2 (hC.mem_next ht (by simp [ht1, htS]) O.entry)
    refine Or.inl ⟨h2, ht, hC.congr fun w hw => Function.update_of_ne ?_ _ _⟩
    rintro rfl
    exact ht (List.mem_cons.2 (hw.imp_right And.left))

theorem Overwrites.back_before (hD : Chain (z.next .fromNode) {n1, n2} n2 D) :
    BackPath (z.next .toNode) (n2 :: D) :=
  (O.ring_before hD).1.path.back O.firstDone.spliced.inverse.symm

section
variable (hC : Chain (z.next .fromNode) {n1, n2} n1 C) (hD : Chain (z.next .fromNode) {n1, n2} n2 D)
include hC hD

/-- The nodes before `n1` and those before `n2` meet in `n2` at most. -/
theorem Overwrites.meet {w : NodeId} (hw : w ∈ C) (hwD : w ∈ D) : w = n2 := by
  have hinv := O.firstDone.spliced.inverse.symm
  obtain ⟨hD', -, -⟩ := O.ring_before hD
  rcases O.before1 hC hD with ⟨-, -, hC'⟩ | ⟨l, rfl, -, -, hl⟩
  · exact absurd hwD (hC'.disjoint hD' hinv O.ne w hw)
  · rcases List.mem_append.1 hw with hw | hw
    · exact absurd hwD (hl.disjoint hD' hinv O.ne w hw)
    · exact List.mem_singleton.1 hw

theorem Overwrites.torn_back (ht : tornOff tg z n1 C D = some (x, y)) :
    (∃ C₀ C₁, C = C₀ ++ y :: C₁ ∧ SecondTorn n1 n2 x y C₀ C₁ D none (z.next .fromNode)
        ((mergeEdges (mergeNode tg) .fromNode n1 n2 z).next .fromNode) z
        (mergeEdges (mergeNode tg) .fromNode n1 n2 z)) ∧
      (mergeEdges (mergeNode tg) .fromNode n1 n2 z).NumTBAABlockedMerges =
        z.NumTBAABlockedMerges + 1 := by
  obtain ⟨C₀, C₁, D₀, c, D₁, rfl, rfl, hlen, hx, hacc, href⟩ := tornOff_split ht
  have hmeet := fun {w} => O.meet (w := w) hC hD
  have hstop : ∀ w, w = n1 ∨ w = n2 → w ∉ C₀ ∧ w ∉ D₀ := fun w hw =>
    ⟨fun hmem => hC.not_stop_of_append hmem hw, fun hmem => hD.not_stop_of_append hmem hw⟩
  have hyc : y ≠ c := by
    rintro rfl
    rw [shouldMergeByTBAA_self] at href
    cases href
  have h2 := hstop n2 (Or.inr rfl)
  have hnd : (C₀ ++ y :: (D₀ ++ [c])).Nodup := by
    have hC' : (C₀ ++ [y]).Nodup := hC.nodup.sublist (by simp)
    have hD' : (D₀ ++ [c]).Nodup := hD.nodup.sublist (by simp)
    rw [List.append_cons]
    refine List.nodup_append.2 ⟨hC', hD', ?_⟩
    rintro w hw _ hwD rfl
    obtain rfl := hmeet (w := w) (by grind) (by grind)
    grind
  have hCp : Path (z.next .fromNode) (n1 :: C₀ ++ [y]) :=
    Path.before (m := C₁) (by simpa using hC.path)
  have hDp : Path (z.next .fromNode) (n2 :: D₀ ++ [c]) :=
    Path.before (m := D₁) (by simpa using hD.path)
  have hDb : BackPath (z.next .toNode) (n2 :: D₀ ++ [c]) :=
    BackPath.before (m := D₁) (by simpa using O.back_before hD)
  obtain ⟨htorn, hnodes, hblocked⟩ :=
    mergeEdges_torn (d := .fromNode) O.ne hlen hnd hacc href hCp hDp hDb hstop
  refine ⟨⟨C₀, C₁, rfl, hC, hD, hx, by simp [hlen], htorn, fun v w hv => ?_⟩, hblocked⟩
  obtain ⟨w', hw', hl⟩ := lands_of_nodes hnodes (by grind) hacc hv
  exact ⟨w', hw', Lands.append hl hlen _⟩

section
variable (ht : tornOff tg z n1 C D = none)
include ht

/-- What is left of the nodes before `n1` is linked to the last of those before `n2`. -/
theorem Overwrites.not_blocked_of_lt (hlt : D.length < C.length) :
    (mergeEdges (mergeNode tg) .fromNode n1 n2 z).NumTBAABlockedMerges =
      z.NumTBAABlockedMerges := by
  have hC' : C = C.take D.length ++ C[D.length] :: C.drop (D.length + 1) := by
    rw [List.getElem_cons_drop, List.take_append_drop]
  have hlen : (C.take D.length).length = D.length := by simp [hlt.le]
  have hmeet := fun {w} => O.meet (w := w) hC hD
  generalize C.take D.length = l, C[D.length] = t', C.drop (D.length + 1) = m at hC' hlen
  subst hC'
  have hacc : tornOff tg z n1 l D = none := tornOff_of_append (by simpa using ht) (m := [])
  have hCp : Path (z.next .fromNode) (n1 :: l ++ [t']) :=
    Path.before (m := m) (by simpa using hC.path)
  have hstop : ∀ w ∈ l, w ∉ ({n1, n2} : Set NodeId) := fun w hw => hC.not_stop_of_append hw
  have hnodup := List.nodup_append.1 hC.nodup
  have hnd : (l ++ D).Nodup := by
    refine List.nodup_append.2 ⟨hnodup.1, hD.nodup, ?_⟩
    rintro w hw _ hwD rfl
    exact hstop w hw (Or.inr (hmeet (List.mem_append_left _ hw) hwD))
  have hz := mergeEdges_linked (d := .fromNode) O.ne hlen hnd
    (fun hmem => hnodup.2.2 t' hmem t' List.mem_cons_self rfl) hacc hCp hD.path (O.back_before hD)
    (fun w hw => ⟨fun hmem => hstop w hmem hw,
      fun hmem => hD.not_stop_of_dropLast (List.prefix_refl _) hmem hw⟩)
    (next_descend_end hlen hD hlen.symm)
  rw [hz.blocked, blocked_link, blocked_eraseEdge, blocked_descend hlen]

/-- The nodes before `n1` and those before `n2` come to `n2` at once. -/
theorem Overwrites.not_blocked_of_eq (h2 : n2 ∈ C) (hlen : C.length = D.length) :
    (mergeEdges (mergeNode tg) .fromNode n1 n2 z).NumTBAABlockedMerges =
      z.NumTBAABlockedMerges := by
  have hmeet := fun {w} => O.meet (w := w) hC hD
  have hDb := O.back_before hD
  obtain ⟨l, rfl, hl⟩ := hC.mem_stop h2 (Or.inr rfl)
  obtain ⟨m, rfl, hm⟩ := hD.mem_stop (O.ring_before hD).2.1 (Or.inr rfl)
  have hlen' : l.length = m.length := by simpa using hlen
  have hnd : (l ++ m).Nodup := by
    refine List.nodup_append.2 ⟨hC.nodup.sublist (by simp), hD.nodup.sublist (by simp), ?_⟩
    rintro w hw _ hwm rfl
    exact hl w hw (Or.inr (hmeet (List.mem_append_left _ hw) (List.mem_append_left _ hwm)))
  have hdrop : ∀ {w : NodeId} {l : List NodeId}, w ∉ l → w ∉ l.dropLast :=
    fun hw h => hw (List.mem_of_mem_dropLast h)
  have hstop : ∀ w, w = n1 ∨ w = n2 → w ∉ l ∧ w ∉ m := fun w hw =>
    ⟨fun hmem => hl w hmem hw, fun hmem => hm w hmem hw⟩
  have hs1 := hstop n1 (Or.inl rfl)
  have hs2 := hstop n2 (Or.inr rfl)
  have hCl := hC.path.next_last (l := n1 :: l) (by simp)
  have hDl := hD.path.next_last (l := n2 :: m) (by simp)
  rw [List.getLast_eq_getLastD] at hCl hDl
  refine (mergeEdges_ended (d := .fromNode) hlen' hnd (tornOff_of_append ht)
    (hC.path.before (l := n1 :: l)) (hD.path.before (l := n2 :: m)) (hDb.before (l := n2 :: m))
    (fun w hw => (hstop w hw).imp hdrop hdrop) (Or.inr ?_)).2.2
  have h1 := last_not_mem hnd O.ne hs1.1 (hdrop hs1.2) hs2.1
  have h2 := last_not_mem (by grind) O.ne.symm hs2.2 (hdrop hs2.1) hs1.2 (A := m) (B := l)
  rw [next_descend hlen', next_descend hlen', if_neg (not_or.2 h1), if_neg (not_or.2 h2.symm),
    hCl, hDl]

/-- The nodes before `n1` end first. -/
theorem Overwrites.not_blocked_of_le (hle : C.length ≤ D.length)
    (h2 : n2 ∈ C → C.length ≠ D.length) :
    (mergeEdges (mergeNode tg) .fromNode n1 n2 z).NumTBAABlockedMerges =
      z.NumTBAABlockedMerges := by
  have hmeet := fun {w} => O.meet (w := w) hC hD
  have hDb := O.back_before hD
  have hlen : C.length = (D.take C.length).length := by simp [hle]
  have hacc : tornOff tg z n1 C (D.take C.length) = none := by
    rw [← ht, ← tornOff_take (A := C) (B := D), List.take_of_length_le hle]
  have hnd : (C ++ D.take C.length).Nodup := by
    refine List.nodup_append.2 ⟨hC.nodup, hD.nodup.sublist (List.take_sublist ..), ?_⟩
    rintro w hw _ hwD rfl
    obtain rfl := hmeet hw (List.mem_of_mem_take hwD)
    -- the last node before `n2` is not among the first ones
    have hlt : C.length < D.length := Nat.lt_of_le_of_ne hle (h2 hw)
    obtain ⟨m, rfl, hm⟩ := hD.mem_stop (List.mem_of_mem_take hwD) (Or.inr rfl)
    rw [List.length_append, List.length_singleton] at hlt
    rw [List.take_append_of_le_length (by omega)] at hwD
    exact hm _ (List.mem_of_mem_take hwD) (Or.inr rfl)
  have hD₀ : D.take C.length ++ D.drop C.length = D := List.take_append_drop ..
  refine (mergeEdges_ended (d := .fromNode) hlen hnd hacc hC.path
    (Path.before (m := D.drop C.length) ?_) (BackPath.before (m := D.drop C.length) ?_)
    (fun w hw => ⟨fun hmem => hC.not_stop_of_dropLast (List.prefix_refl _) hmem hw,
      fun hmem => hD.not_stop_of_dropLast (List.take_prefix ..) hmem hw⟩)
    (Or.inl (next_descend_end hlen hC rfl))).2.2
  · rw [List.cons_append, hD₀]
    exact hD.path
  · rw [List.cons_append, hD₀]
    exact hDb

/-- Without a refusal, the second half counts none. -/
theorem Overwrites.not_blocked :
    (mergeEdges (mergeNode tg) .fromNode n1 n2 z).NumTBAABlockedMerges =
      z.NumTBAABlockedMerges := by
  rcases Nat.lt_or_ge D.length C.length with hlt | hle
  · exact O.not_blocked_of_lt hC hD ht hlt
  · by_cases h2 : n2 ∈ C ∧ C.length = D.length
    · exact O.not_blocked_of_eq hC hD ht h2.1 h2.2
    · exact O.not_blocked_of_le hC hD ht hle fun h hlen => h2 ⟨h, hlen⟩

end

end

theorem Overwrites.stop_not_mem {w : NodeId} (hw : w = n1 ∨ w = n2) : w ∉ A₀ := fun hmem =>
  O.after1.not_stop_of_append hmem hw

theorem Overwrites.holder_not_mem {w : NodeId} (hw : w ∉ A₀) : holder n1 n2 w ∉ A₀ := fun h =>
  hw ((holder_mem_iff (O.stop_not_mem (Or.inl rfl)) (O.stop_not_mem (Or.inr rfl)) w).1 h)

theorem Overwrites.target_not_mem : t ∉ A₀ := fun hmem =>
  (List.nodup_append.1 O.after1.nodup).2.2 t hmem t List.mem_cons_self rfl

/-- The values before the overwritten link are in the ring. -/
theorem Overwrites.mem_ring (hD : Chain (z.next .fromNode) {n1, n2} n2 D) {w : NodeId}
    (hw : Lands A₀ B (holder n1 n2 s) w) : w ∈ n2 :: D := by
  obtain ⟨hD', h2D, -⟩ := O.ring_before hD
  have hsub := (chain_subset_ring O.firstDone.spliced.inverse O.firstDone.spliced.chain hD' h2D).2
  have hwB := lands_last O.last (fun w hw => O.after1.not_stop_of_append hw) O.length.le hw
  exact List.mem_cons.2 ((List.mem_cons.1 hwB).imp_right fun h =>
    hsub w (List.mem_append_left _ h))

section
variable (S : SecondTorn n1 n2 x y C₀ C₁ D none (z.next .fromNode) (f.next .fromNode) z f)
include S

/-- The second half without the entry of `t`, if it does not tear off `n2`. -/
theorem Overwrites.secondTorn (hy : y ≠ n2) :
    ∃ l, SecondTorn n1 n2 x y C₀ l D none (Function.update (z.next .fromNode) t none)
        (Function.update (f.next .fromNode) t none) z f ∧
      n2 ∉ C₀ ++ y :: l ∧ t ∉ n1 :: C₀ ∧
      (n2 ∉ C₀ ++ y :: C₁ ∧ t ∉ y :: l ∨ n2 ∈ C₀ ++ y :: C₁ ∧ t ∈ y :: l) := by
  have htorn : Torn (Function.update (z.next .fromNode) t none) (z.next .toNode)
      (Function.update (f.next .fromNode) t none) (f.next .toNode) n1 y C₀ none := by
    refine ⟨fun w => ?_, S.torn.prev⟩
    rw [Function.update_apply, Function.update_apply, S.torn.next]
    grind
  obtain ⟨hD', -, -⟩ := O.ring_before S.before2
  rcases O.before1 S.before1 S.before2 with ⟨h2, ht, hC⟩ | ⟨l', heq, hlast, h2, hC⟩
  · refine ⟨C₁, ⟨hC, hD', S.last, S.le, htorn, S.lands⟩, h2, ?_, Or.inl ⟨h2, ?_⟩⟩
    · exact fun h => ht (by simpa using (List.mem_cons.1 h).imp_right Or.inl)
    · exact fun h => ht (by simpa using Or.inr (Or.inr (List.mem_cons.1 h)))
  · obtain ⟨l, rfl⟩ : ∃ l, C₁ = l ++ [n2] := by
      rcases List.eq_nil_or_concat C₁ with rfl | ⟨l, w, rfl⟩
      · exact absurd (List.singleton_inj.1 (List.append_inj' heq rfl).2) hy
      · rw [List.concat_eq_append, ← List.cons_append, ← List.append_assoc] at heq
        rw [List.singleton_inj.1 (List.append_inj' heq rfl).2]
        exact ⟨l, List.concat_eq_append ..⟩
    rw [← List.cons_append, ← List.append_assoc] at heq
    obtain rfl := List.append_cancel_right heq
    have hty : t ∈ y :: l := by
      rw [← List.cons_append, List.getLast?_append_of_ne_nil _ (by simp)] at hlast
      exact List.mem_of_getLast? hlast
    refine ⟨l, ⟨hC, hD', S.last, S.le, htorn, S.lands⟩, h2, fun h => ?_, Or.inr ⟨by simp, hty⟩⟩
    rcases List.mem_cons.1 h with rfl | h
    · have hC' := S.before1
      rw [← List.cons_append, ← List.append_assoc] at hC'
      exact hC'.not_stop_of_append (List.mem_append_right _ hty) (Or.inl rfl)
    · exact S.not_mem_left (List.mem_append_left [n2] hty) h

/-- The overwritten link is lost, if the second half does not tear off `n2`. -/
theorem Overwrites.parts (hy : y ≠ n2) : Parts g f s t := by
  obtain ⟨l, S', -, ht, -⟩ := O.secondTorn S hy
  obtain ⟨-, h2D, htD⟩ := O.ring_before S.before2
  have F := O.firstDone
  have hring := fun {w} => O.mem_ring S.before2 (w := w)
  have ht1 : t ≠ n1 := fun h => ht (h ▸ List.mem_cons_self)
  have htC : t ∉ C₀ := fun h => ht (List.mem_cons_of_mem _ h)
  intro u v hu hv
  obtain ⟨a', a'', ha, ha', ha''⟩ := F.locate S.lands hu
  obtain ⟨b', b'', hb, hb', hb''⟩ := F.locate S.lands hv
  rw [holder, if_neg ht1] at hb'
  obtain rfl := hb'.eq_of_not_mem O.target_not_mem
  obtain rfl := hb''.eq_of_not_mem htC
  have haC : a' ∉ C₀ := by
    rcases List.mem_cons.1 (hring ha') with rfl | haD
    · exact fun h => S.before1.not_stop_of_append h (Or.inr rfl)
    · exact fun h => S'.before1.disjoint S'.before2 F.spliced.inverse.symm O.ne a'
        (List.mem_append_left _ h) haD
  obtain rfl := ha''.eq_of_not_mem haC
  have htD' : b'' ∉ n2 :: D := by
    rw [List.mem_cons, not_or]
    exact ⟨fun h => O.not_mem (h ▸ List.mem_cons_self), htD⟩
  refine ⟨a'', b'', ha, hb, fun hreach => htD' ?_⟩
  refine hreach.mem_of_closed (R := {w | w ∈ n2 :: D}) (fun d p q hp hpq => ?_) (hring ha')
  refine S'.torn.ring_closed F.spliced.inverse.symm O.ne S'.before1 S'.before2 h2D hp ?_
  cases d with
  | toNode => exact Or.inr hpq
  | fromNode =>
    refine Or.inl ((Function.update_of_ne ?_ _ _).trans hpq)
    rintro rfl
    exact htD' hp

/-- So is that of what the second half tears off, if it does not lead to `n2`. -/
theorem Overwrites.parts_second (h2 : n2 ∉ C₀ ++ y :: C₁) : Parts g f y x := by
  obtain ⟨l, S', h2', ht, ⟨-, hty⟩ | ⟨h, -⟩⟩ := O.secondTorn S fun h => h2 (by simp [h])
  case inr => exact absurd h h2
  have F := O.firstDone
  refine F.parts_torn O.ne S' h2' (fun p q hpq => ?_) (F.not_sameSide S' h2')
  by_cases hp : p = t
  · subst hp
    rw [S.torn.next, if_neg fun h => ht (List.mem_cons.2 h), O.entry] at hpq
    obtain rfl := Option.some.inj hpq
    exact Or.inr ⟨hty, fun h => h2' (List.mem_append_right _ h)⟩
  · exact Or.inl ((Function.update_of_ne hp _ _).trans hpq)

/-- If that leads to `n2`, it does so by the entry of `t`. -/
theorem Overwrites.keeps_second (hy : y ≠ n2) (h2 : n2 ∈ C₀ ++ y :: C₁) : Keeps g f y x := by
  obtain ⟨l, S', h2', ht, ⟨h, -⟩ | ⟨-, hty⟩⟩ := O.secondTorn S hy
  case inl => exact absurd h2 h
  have F := O.firstDone
  have hinv := F.spliced.inverse.symm
  have hout := F.left_alone S' h2'
  obtain ⟨hyA, -, hyS⟩ := hout y (by simp)
  have hs := S'.torn.spliced_of_none hinv O.ne S'.before1 S'.last S'.before2 S'.le
  have hpf : ∀ p q, Function.update (f.next .fromNode) t none p = some q →
      f.Reach p q ∧ f.Reach q p := by
    intro p q hpq
    refine ⟨.of_next (d := .fromNode) ?_, .of_next ((hs.inverse p q).1 hpq)⟩
    rw [Function.update_apply] at hpq
    split at hpq
    · cases hpq
    · exact hpq
  have hyt : f.Reach y t :=
    .of_linked ((S'.torn.rest S'.before1 hyS).linked_both List.mem_cons_self hty) hpf
  have htn : f.Reach t n2 := by
    refine .of_next (d := .fromNode) ?_
    rw [S.torn.next, if_neg fun h => ht (List.mem_cons.2 h), O.entry]
  intro u v hu hv
  obtain ⟨a', a'', ha, ha', ha''⟩ := F.locate S.lands hu
  obtain ⟨b', b'', hb, hb', hb''⟩ := F.locate S.lands hv
  rw [holder, if_neg fun h => hyS (Or.inl h)] at ha'
  obtain rfl := ha'.eq_of_not_mem hyA
  obtain rfl := ha''.eq_of_not_mem (S.not_mem_left List.mem_cons_self)
  have hxA : x ∉ A₀ := by
    rcases List.mem_cons.1 (List.mem_of_getLast? S.last) with rfl | hxC
    · exact O.stop_not_mem (Or.inl rfl)
    · exact (hout x (List.mem_append_left _ hxC)).1
  have hbD : b'' ∈ n2 :: D := by
    rw [hb'.eq_of_not_mem (O.holder_not_mem hxA)] at hb''
    exact lands_last S.last (fun w hw => S.before1.not_stop_of_append hw) S.le hb''
  refine ⟨a'', b'', ha, hb, hyt.trans (htn.trans (Reach.of_linked ?_ hpf))⟩
  refine hs.chain.linked_both List.mem_cons_self ?_
  rcases List.mem_cons.1 hbD with rfl | hbD
  · exact List.mem_cons_self
  · exact List.mem_cons_of_mem _ (List.mem_append_left _ hbD)

/-- The other links are kept. -/
theorem Overwrites.keeps (hy : y ≠ n2) (hab : g.next .toNode a = some b) (has : a ≠ s)
    (hsev : a = y → b = x → n2 ∈ C₀ ++ y :: C₁) : Keeps g f a b := by
  obtain ⟨l, S', h2, -, -⟩ := O.secondTorn S hy
  have F := O.firstDone
  by_cases hay : a = y
  · subst hay
    obtain ⟨haA, haB, haS⟩ := F.left_alone S' h2 a (by simp)
    have hax := (F.spliced.inverse a x).2 (S'.before1.next_of_getLast S.last)
    rw [F.spliced.next a haA haB (fun h => haS (Or.inl h)) fun h => haS (Or.inr h),
      Function.update_of_ne has, hab] at hax
    obtain rfl := Option.some.inj hax
    exact O.keeps_second S hy (hsev rfl rfl)
  · refine F.keeps_of_torn S' O.ne (fun h => absurd h O.not_mem_after) (fun p q hpq => ?_)
      (Or.inr ⟨h2, joined_of_next (by rw [Function.update_of_ne has]; exact hab) hay⟩)
    rw [Function.update_apply] at hpq
    split at hpq
    · cases hpq
    · exact hpq

end

section
variable (S : SecondTorn n1 n2 x n2 C₀ C₁ D none (z.next .fromNode) (f.next .fromNode) z f)
include S

/-- Where the second half tears off `n2`, it is the entry of `t` that has led there. -/
theorem Overwrites.before_last : (n1 :: C₀).getLast? = some t ∧ n2 ∉ C₀ ∧
    Chain (Function.update (z.next .fromNode) t none) {n1, n2} n1 C₀ := by
  rcases O.before1 S.before1 S.before2 with ⟨h2, -⟩ | ⟨l, heq, hlast, h2, hl⟩
  · exact absurd (by simp) h2
  · cases C₁ with
    | nil =>
      obtain rfl := List.append_cancel_right heq
      exact ⟨hlast, h2, hl⟩
    | cons c C₁ =>
      have hC := S.before1
      rw [List.append_cons] at hC
      exact absurd (Or.inr rfl) (hC.not_stop_of_append (List.mem_append_right _ (by simp)))

/-- Then all that is before `n1` is merged into the ring, only that the `ToNodeMap` loses the
    entry of `n2`. -/
theorem Overwrites.drained :
    Spliced (Function.update (z.next .fromNode) t none) (z.next .toNode) (f.next .fromNode)
      (Function.update (f.next .toNode) n2 (z.next .toNode n2)) n1 n2 C₀ D := by
  obtain ⟨hlast, h2C, hC⟩ := O.before_last S
  refine .drained O.firstDone.spliced.inverse.symm O.ne hC
    (fun w hw => S.before1.not_stop_of_append hw) (O.ring_before S.before2).1 S.le (fun w => ?_)
    fun w => ?_
  · have ht := List.mem_of_getLast? hlast
    rw [S.torn.next, Function.update_apply]
    grind
  · rw [Function.update_apply, S.torn.prev]
    grind

/-- The ring is still closed in the `FromNodeMap`. -/
theorem Overwrites.reach_both {p q : NodeId} (hpq : f.next .fromNode p = some q) :
    f.Reach p q ∧ f.Reach q p := by
  have F := O.firstDone
  have hs := O.drained S
  obtain ⟨hD, h2D, -⟩ := O.ring_before S.before2
  refine ⟨.of_next hpq, ?_⟩
  have hqp := (hs.inverse p q).1 hpq
  by_cases hq : q = n2
  · subst hq
    rw [Function.update_self] at hqp
    have hpD := (chain_subset_ring F.spliced.inverse F.spliced.chain hD h2D).2 p
      (List.mem_append_left _ (O.ring_after.mem_start hqp))
    exact hs.chain.forall_mem_of_step (P := f.Reach q) (fun _ h => Reach.of_next h)
      (fun _ _ _ h hbc => h.trans (Reach.of_next hbc)) p (List.mem_append_left _ hpD)
  · rw [Function.update_of_ne hq] at hqp
    exact .of_next hqp

/-- So nothing is lost. -/
theorem Overwrites.keeps_all (hab : g.next .toNode a = some b) : Keeps g f a b := by
  have F := O.firstDone
  have hs := O.drained S
  obtain ⟨hD, h2D, -⟩ := O.ring_before S.before2
  obtain ⟨hlast, h2C, hC⟩ := O.before_last S
  have hCo : ∀ w ∈ C₀, w ∉ ({n1, n2} : Set NodeId) := fun w hw => S.before1.not_stop_of_append hw
  have h1D : n1 ∉ D := fun h1 => O.ne (S.before2.stop_unique h1 (Or.inl rfl) h2D (Or.inr rfl))
  intro u v hu hv
  obtain ⟨a', a'', ha, ha', ha''⟩ := F.locate S.lands hu
  obtain ⟨b', b'', hb, hb', hb''⟩ := F.locate S.lands hv
  refine ⟨a'', b'', ha, hb, .of_linked ?_ fun _ _ => O.reach_both S⟩
  by_cases has : a = s
  · -- both ends of the overwritten link are in the ring
    obtain rfl : t = b := Option.some.inj ((O.after1.next_of_getLast O.last).symm.trans (has ▸ hab))
    have haD : a'' ∈ n2 :: D := by
      have haD := O.mem_ring S.before2 (has ▸ ha')
      rw [ha''.eq_of_not_mem]
      · exact haD
      · rcases List.mem_cons.1 haD with rfl | haD
        · exact h2C
        · exact fun h => hC.disjoint hD F.spliced.inverse.symm O.ne a' h haD
    have hbD : b'' ∈ n2 :: D := by
      rw [hb'.eq_of_not_mem (O.holder_not_mem O.target_not_mem)] at hb''
      exact lands_last hlast hCo S.le hb''
    have hmem : ∀ {w}, w ∈ n2 :: D → w ∈ n2 :: (D ++ C₀.drop D.length) := fun h =>
      List.mem_cons.2 ((List.mem_cons.1 h).imp_right (List.mem_append_left _))
    exact hs.chain.linked_both (hmem haD) (hmem hbD)
  · refine F.linked_of_joined O.ne hD (fun h => absurd h O.not_mem_after) hs.inverse
      (hs.spent h1D) ?_ ha' ha'' hb' hb'' (F.joined_merged hC hD hs ha' ha'' hb' hb'' ?_)
    · rw [Function.update_of_ne O.ne, S.torn.prev, if_neg O.ne,
        if_neg fun h => hCo n1 h (Or.inl rfl), F.spliced.spent O.not_mem_after]
    · exact .rel _ _ (Or.inl (by rw [Function.update_of_ne has]; exact hab))

end

end

end TFA.AliasGraph
