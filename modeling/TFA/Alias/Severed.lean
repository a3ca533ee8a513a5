/-
  The links that a merge with a refusal in it severs.

  `SeveredBy` lists them.  A node that is torn off is still met from the one before
  it if the nodes after it lead to `n2`, or if the second half links them again, so
  both halves count.  All other links are kept (`Halves.keeps_of_first`,
  `Halves.keeps_of_refused`), and those listed are lost.
-/
import TFA.Alias.Halves

namespace TFA.AliasGraph

open Links

variable {tg : TBAAGraph} {g z f : AliasGraph} {n1 n2 x y a b : NodeId} {d : Dir}
  {A A₀ B C D : List NodeId}

/-! ## Which links are severed -/

/-- The merge severs the link from `x` to `y`: `A` and `B` are the nodes after `n1` and `n2`, and
    `C` and `D` the nodes before them once the first half is done; the links before the first
    refusal of each half follow. -/
inductive SeveredBy (n1 n2 : NodeId) (A B C D : List NodeId) :
    Option (NodeId × NodeId) → Option (NodeId × NodeId) → NodeId → NodeId → Prop
  /-- The first half tears off `y`, and neither the rest of the chain nor the second half links
      it with `n2`. -/
  | first {x y t} : n2 ∉ A → y ≠ n1 →
      (n1 ∈ A → t.isSome = true ∨ n2 ∈ D ∧ D.length < C.length) →
      SeveredBy n1 n2 A B C D (some (x, y)) t x y
  /-- The second half tears off `x`, and the rest of the chain does not lead to `n2`. -/
  | second {x y t} : n2 ∉ C → SeveredBy n1 n2 A B C D t (some (y, x)) x y
  /-- The first half merges `y` into `n1`, and the second half cuts `n1` off. -/
  | cutOff {x y c} : n1 ∈ B → B.length ≤ A.length → n2 ∉ A →
      (n1 :: A)[B.length - 1]? = some x → A[B.length - 1]? = some y →
      SeveredBy n1 n2 A B C D none (some c) x y
  /-- The first half merges `x` into `n2` and overwrites its link to `y`, and the second half
      does not merge `y` too. -/
  | overwritten {x y x' y'} : n2 ∈ B → B.length < A.length → y' ≠ n2 →
      A[B.length - 1]? = some x → A[B.length]? = some y →
      SeveredBy n1 n2 A B C D none (some (x', y')) x y

/-! ## A refusal in the first half -/

section
variable {A₁ C₁ : List NodeId} (T : FirstRefused n1 n2 x y A₀ A₁ B g z)
include T

theorem FirstRefused.mem_rest {w : NodeId} (hw : w ∈ A₀ ++ y :: A₁)
    (hS : w ∈ ({n1, n2} : Set NodeId)) : w ∈ y :: A₁ :=
  (List.mem_append.1 hw).resolve_left fun h => T.after1.not_stop_of_append h hS

theorem FirstRefused.next_eq (hab : g.next .toNode x = some b) : b = y :=
  Option.some.inj (hab.symm.trans (T.after1.next_of_getLast T.last))

/-- A link cut in the second half is one of the graph. -/
theorem FirstRefused.next_of_second {x' y' : NodeId} {e : Option NodeId}
    {pf : NodeId → Option NodeId} (S : SecondTorn n1 n2 x' y' C C₁ D e (z.next .fromNode) pf z f)
    (hab : g.next .toNode y' = some b) : b = x' := by
  have hyx := (T.done.spliced.inverse y' x').2 (S.before1.next_of_getLast S.last)
  rw [T.torn.next] at hyx
  split at hyx
  · cases hyx
  · exact Option.some.inj (hab.symm.trans hyx)

/-- The ends of the torn link stay joined if the nodes after it lead to `n1` or `n2`. -/
theorem FirstRefused.joined (hab : g.next .toNode a = some b)
    (hkept : a = x → n2 ∈ A₀ ++ y :: A₁ ∨ y = n1 ∨ n1 ∈ A₀ ++ y :: A₁) :
    Joined (Function.update (g.next .toNode) x none) n1 n2 a b := by
  by_cases hax : a = x
  · subst hax
    obtain rfl := T.next_eq hab
    rcases hkept rfl with h2 | rfl | h1
    · exact T.after1.joined_ends T.last (T.mem_rest h2 (Or.inr rfl)) (Or.inr rfl)
    · exact T.after1.joined_ends T.last List.mem_cons_self (Or.inl rfl)
    · exact T.after1.joined_ends T.last (T.mem_rest h1 (Or.inl rfl)) (Or.inl rfl)
  · exact joined_of_next hab hax

section
variable {w : NodeId} (hC : Chain (z.next .fromNode) {n1, n2} n1 C)
  (hD : Chain (z.next .fromNode) {n1, n2} n2 D) (hw : w ∈ C) (h2C : n2 ∉ C)
include hC hD hw h2C

/-- They stay joined without the link of `w` too, if that is cut in the second half and does not
    lead to `n2`. -/
theorem FirstRefused.joined_ends (hkept : n2 ∈ A₀ ++ y :: A₁ ∨ y = n1) :
    Joined (Function.update (Function.update (g.next .toNode) x none) w none) n1 n2 x y := by
  obtain ⟨-, -, hout⟩ := T.done.spliced.left_alone T.done.left hC h2C (List.ne_nil_of_mem hw)
  obtain ⟨hwA, -, hwS⟩ := hout w hw
  have hoff : ∀ {s l}, Chain (Function.update (g.next .toNode) x none) {n1, n2} s l → w ∉ s :: l →
      ∀ z ∈ s :: l, Joined (Function.update (Function.update (g.next .toNode) x none) w none)
        n1 n2 s z := by
    intro s l hl hwl z hz
    refine ((hl.congr fun q hq => Function.update_of_ne ?_ _ _).linked_both (by simp) hz).joined
    rintro rfl
    exact hwl (by simpa using hq.imp_right And.left)
  have hstart := hoff T.done.left (by simpa [hwA] using fun h => hwS (Or.inl h)) x
    (List.mem_of_getLast? T.last)
  refine .trans _ _ _ (.symm _ _ hstart) ?_
  by_cases hy : y ∈ ({n1, n2} : Set NodeId)
  · rcases hy with rfl | rfl
    · exact .refl _
    · exact .rel _ _ (Or.inr ⟨rfl, rfl⟩)
  -- the nodes from `y` on lead to `n2`, and so the link of `w` is not among theirs
  have h2A : n2 ∈ A₁ := by
    refine (List.mem_cons.1 (T.mem_rest (hkept.resolve_right ?_) (Or.inr rfl))).resolve_left ?_
    · rintro rfl
      exact hy (Or.inl rfl)
    · rintro rfl
      exact hy (Or.inr rfl)
  have hY := T.torn.rest T.after1 hy
  have hwY : w ∉ y :: A₁ := by
    intro hmem
    have hwD := hY.mem_back_of_mem T.done.spliced.inverse h2A (Or.inr rfl) hD hmem hwS
    exact hC.disjoint hD T.done.spliced.inverse.symm T.ne w hw hwD
  have h2 := hoff (T.after1.after_cut T.last hy (Or.inl rfl)) hwY n2 (List.mem_cons_of_mem _ h2A)
  exact .trans _ _ _ (.rel _ _ (Or.inr ⟨rfl, rfl⟩)) (.symm _ _ h2)

theorem FirstRefused.joined_cut (hab : g.next .toNode a = some b)
    (hkept : a = x → n2 ∈ A₀ ++ y :: A₁ ∨ y = n1) (haw : a ≠ w) :
    Joined (Function.update (Function.update (g.next .toNode) x none) w none) n1 n2 a b := by
  by_cases hax : a = x
  · subst hax
    obtain rfl := T.next_eq hab
    exact T.joined_ends hC hD hw h2C (hkept rfl)
  · exact joined_of_next (by rw [Function.update_of_ne hax]; exact hab) haw

end

end

section
variable (H : Halves tg g n1 n2 A B C D)
include H

/-- A refusal in both halves. -/
theorem Halves.keeps_of_both {t₁ t₂ : NodeId × NodeId}
    (ht₁ : tornOff tg (g.moved n1 n2) n1 A B = some t₁)
    (ht₂ : tornOff tg (firstHalf tg n1 n2 g) n1 C D = some t₂) (hab : g.next .toNode a = some b)
    (hsev : ¬ SeveredBy n1 n2 A B C D (some t₁) (some t₂) a b) :
    Keeps g (mergeNode tg n1 n2 g) a b := by
  obtain ⟨x₁, y₁⟩ := t₁
  obtain ⟨x, y⟩ := t₂
  obtain ⟨A₀, A₁, rfl, T⟩ := firstRefused H.mirrored H.ne H.after1 H.after2 ht₁
  have F := T.done
  obtain ⟨C₀, C₁, rfl, -, S⟩ := H.torn F.spliced.inverse ht₂
  have hkept : a = x₁ → n2 ∈ A₀ ++ y₁ :: A₁ ∨ y₁ = n1 := by
    rintro rfl
    obtain rfl := T.next_eq hab
    by_contra hlost
    rw [not_or] at hlost
    exact hsev (.first hlost.1 hlost.2 fun _ => Or.inl rfl)
  refine F.keeps_of_torn S H.ne (fun _ => T.lt) (fun _ _ h => h) ?_
  by_cases h2C : n2 ∈ C₀ ++ y :: C₁
  · exact Or.inl ⟨⟨n2, S.mem_rest h2C (Or.inr rfl), Or.inr rfl⟩,
      T.joined hab fun hax => (hkept hax).imp_right Or.inl⟩
  · refine Or.inr ⟨h2C, T.joined_cut H.before1 H.before2 (by simp) h2C hab hkept ?_⟩
    rintro rfl
    obtain rfl := T.next_of_second S hab
    exact hsev (.second h2C)

/-- A refusal in the first half, and a link overwritten in the second one. -/
theorem Halves.keeps_of_overwritten {t₁ : NodeId × NodeId}
    (ht₁ : tornOff tg (g.moved n1 n2) n1 A B = some t₁)
    (ht₂ : tornOff tg (firstHalf tg n1 n2 g) n1 C D = none) (h2 : n2 ∈ D)
    (hlt : D.length < C.length) (hab : g.next .toNode a = some b)
    (hsev : ¬ SeveredBy n1 n2 A B C D (some t₁) none a b) :
    Keeps g (mergeNode tg n1 n2 g) a b := by
  obtain ⟨x₁, y₁⟩ := t₁
  obtain ⟨A₀, A₁, rfl, T⟩ := firstRefused H.mirrored H.ne H.after1 H.after2 ht₁
  have F := T.done
  have h2C : n2 ∉ C := fun h2C =>
    H.before1.disjoint H.before2 F.spliced.inverse.symm H.ne n2 h2C h2
  obtain ⟨C₀, y, C₁, x, rfl, hlen, S⟩ := H.overwritten F.spliced.inverse ht₂ h2 hlt
  by_cases hay : a = y
  · subst hay
    obtain rfl := T.next_of_second S hab
    exact F.keeps_overwritten H.ne S hlen h2
  · refine F.keeps_of_torn S H.ne (fun _ => T.lt) (fun _ _ h => h) (Or.inr ⟨h2C, ?_⟩)
    refine T.joined_cut H.before1 H.before2 (by simp) h2C hab ?_ hay
    rintro rfl
    obtain rfl := T.next_eq hab
    by_contra hlost
    rw [not_or] at hlost
    exact hsev (.first hlost.1 hlost.2 fun _ => Or.inr ⟨h2, hlt⟩)

/-- **A refusal in the first half.** -/
theorem Halves.keeps_of_first {t₁ : NodeId × NodeId}
    (ht₁ : tornOff tg (g.moved n1 n2) n1 A B = some t₁) (hab : g.next .toNode a = some b)
    (hsev : ¬ SeveredBy n1 n2 A B C D (some t₁) (tornOff tg (firstHalf tg n1 n2 g) n1 C D) a b) :
    Keeps g (mergeNode tg n1 n2 g) a b := by
  cases ht₂ : tornOff tg (firstHalf tg n1 n2 g) n1 C D with
  | some t₂ => exact H.keeps_of_both ht₁ ht₂ hab (ht₂ ▸ hsev)
  | none =>
    rw [ht₂] at hsev
    by_cases hover : n2 ∈ D ∧ D.length < C.length
    · exact H.keeps_of_overwritten ht₁ ht₂ hover.1 hover.2 hab hsev
    · obtain ⟨x₁, y₁⟩ := t₁
      obtain ⟨A₀, A₁, rfl, T⟩ := firstRefused H.mirrored H.ne H.after1 H.after2 ht₁
      refine T.done.keeps_of_merged H (fun _ => T.lt) ht₂ (fun h2 => ?_) (T.joined hab ?_)
      · exact Nat.not_lt.1 fun hlt => hover ⟨h2, hlt⟩
      · rintro rfl
        obtain rfl := T.next_eq hab
        by_contra hlost
        simp only [not_or] at hlost
        exact hsev (.first hlost.1 hlost.2.1 fun h1 => absurd h1 hlost.2.2)

/-! ## A refusal in the second half only -/

section
variable (ht₁ : tornOff tg (g.moved n1 n2) n1 A B = none) (hfree : n2 ∈ B → A.length ≤ B.length)
  (ht₂ : tornOff tg (firstHalf tg n1 n2 g) n1 C D = some (x, y))
include ht₁ hfree ht₂

/-- A refusal in the second half, where the first one leaves nothing at `n1`. -/
theorem Halves.keeps_of_second (hlt : n1 ∈ B → A.length < B.length)
    (hab : g.next .toNode a = some b) (hsev : ¬ SeveredBy n1 n2 A B C D none (some (x, y)) a b) :
    Keeps g (mergeNode tg n1 n2 g) a b := by
  have F := firstDone_of_merged H.mirrored H.ne H.after1 H.after2 ht₁ hfree
  have hz : (firstHalf tg n1 n2 g).Mirrored := F.spliced.inverse
  obtain ⟨C₀, C₁, hC, hlen, S⟩ := H.torn hz ht₂
  refine F.keeps_of_torn S H.ne hlt (fun _ _ h => h) ?_
  by_cases h2C : n2 ∈ C
  · exact Or.inl ⟨⟨n2, S.mem_rest (hC ▸ h2C) (Or.inr rfl), Or.inr rfl⟩, .rel _ _ (Or.inl hab)⟩
  · refine Or.inr ⟨hC ▸ h2C, joined_of_next hab fun hay => ?_⟩
    obtain ⟨hyA, hyB, hyS⟩ := F.left_alone S (hC ▸ h2C) y (by simp)
    have hyx := (hz y x).2 (S.before1.next_of_getLast S.last)
    rw [F.spliced.next y hyA hyB (fun h => hyS (Or.inl h)) fun h => hyS (Or.inr h), ← hay, hab]
      at hyx
    rw [hay, Option.some.inj hyx] at hsev
    exact hsev (.second h2C)

section
variable (h1 : n1 ∈ B)
include h1

/-- A refusal in the second half, where the nodes after `n2` lead to `n1` and on to `n2`. -/
theorem Halves.keeps_of_ring (h2 : n2 ∈ A) (hab : g.next .toNode a = some b) :
    Keeps g (mergeNode tg n1 n2 g) a b := by
  have F := firstDone_of_merged H.mirrored H.ne H.after1 H.after2 ht₁ hfree
  have hz : (firstHalf tg n1 n2 g).Mirrored := F.spliced.inverse
  obtain ⟨C₀, C₁, hC, hlen, S⟩ := H.torn hz ht₂
  have hs := S.torn.spliced_of_none hz.symm H.ne S.before1 S.last S.before2 S.le
  have h1D := F.spliced.mem_back H.ne F.right h1 h2 H.before2 (List.ne_nil_of_length_pos (by omega))
  have hlink := hs.chain.linked n1 (List.mem_append_left _ h1D)
  intro u v hu hv
  obtain ⟨a', a'', ha, ha', ha''⟩ := F.locate S.lands hu
  obtain ⟨b', b'', hb, hb', hb''⟩ := F.locate S.lands hv
  have hj := F.joined_torn S H.ne ha' ha'' hb' hb''
    (Or.inl ⟨F.leads_back S h1, .rel _ _ (Or.inl hab)⟩)
  exact ⟨a'', b'', ha, hb, .of_linked (Joined.of_linked (.symm _ _ hlink) hj)
    fun p q hpq => ⟨.of_next hpq, .of_next ((hs.inverse p q).1 hpq)⟩⟩

/-- The nodes that the second half cuts off with `n1`: which values they hold, and what is
    joined to them. -/
theorem Halves.cut_off (hle : B.length ≤ A.length) (h2 : n2 ∉ A) :
    ∃ P t R, A = P ++ t :: R ∧ P.length + 1 = B.length ∧ n2 ∉ n1 :: R ∧
      (∀ p q, (mergeNode tg n1 n2 g).next .toNode p = some q → (p ∈ n1 :: R ↔ q ∈ n1 :: R)) ∧
      (∀ p q, (mergeNode tg n1 n2 g).next .fromNode p = some q →
        (mergeNode tg n1 n2 g).next .toNode q = some p) ∧
      ∀ a b u v, u ∈ g.aliasclass a → v ∈ g.aliasclass b → ∃ a' b',
        u ∈ (mergeNode tg n1 n2 g).aliasclass a' ∧ v ∈ (mergeNode tg n1 n2 g).aliasclass b' ∧
        (a' ∈ n1 :: R ↔ a ∈ t :: R) ∧ (b' ∈ n1 :: R ↔ b ∈ t :: R) ∧
        (g.next .toNode a = some b →
          Joined ((mergeNode tg n1 n2 g).next .fromNode) n1 n2 a' b') := by
  have F := firstDone_of_merged H.mirrored H.ne H.after1 H.after2 ht₁ hfree
  have hz : (firstHalf tg n1 n2 g).Mirrored := F.spliced.inverse
  obtain ⟨C₀, C₁, hC, hlen, S⟩ := H.torn hz ht₂
  have hs := S.torn.spliced_of_none hz.symm H.ne S.before1 S.last S.before2 S.le
  obtain ⟨l, hB, hl⟩ := F.right.mem_stop h1 (Or.inl rfl)
  have hlB : l.length + 1 = B.length := by simp [hB]
  have hA : A = A.take l.length ++ A[l.length] :: A.drop B.length := by
    rw [← hlB, List.getElem_cons_drop, List.take_append_drop]
  have hbefore := fun {s m} => F.spliced.before_rest (l := m) (a := s) H.ne F.right h1 h2
  have hCR : ∀ w ∈ C₀, w ∉ n1 :: A.drop B.length := fun w hw =>
    hbefore S.before1 (Or.inl rfl) w (List.mem_append_left _ hw)
  have hDR := hbefore H.before2 (Or.inr rfl)
  have hnodup := nodup_chains (H.mirrored.inverse .toNode) H.ne H.after1 H.after2
  have h1A : n1 ∉ A := fun h1A => H.after1.disjoint H.after2 H.mirrored H.ne n1 h1A h1
  generalize hP : A.take l.length = P at hA
  generalize hR : A.drop B.length = R at hA hCR hDR
  generalize A[l.length] = t at hA
  have hlP : P.length = l.length := by simp [← hP]; omega
  have hsub : ∀ {w}, w ∈ t :: R → w ∈ A := fun hw => hA ▸ List.mem_append_right _ hw
  have hside : ∀ {w w' w''}, Lands A B (holder n1 n2 w) w' → Lands C₀ D w' w'' →
      (w'' ∈ n1 :: R ↔ w ∈ t :: R) := by
    intro w w' w'' hw hw'
    rw [hw'.mem_iff hCR hDR]
    rw [hA, hB] at hw hnodup
    rw [hw.mem_rest hlP hnodup (holder_ne H.ne w), holder]
    split
    case isTrue hw1 =>
      subst hw1
      exact iff_of_false (fun h => h2 (hsub h)) fun h => h1A (hsub h)
    · rfl
  refine ⟨P, t, R, hA, by omega, ?_, fun p q hpq => ?_, fun p q => (hs.inverse p q).1,
    fun a b u v hu hv => ?_⟩
  · rw [List.mem_cons, not_or]
    exact ⟨H.ne.symm, fun hmem => h2 (hsub (List.mem_cons_of_mem _ hmem))⟩
  · rw [← hR]
    exact F.spliced.rest_closed H.ne F.right h1 h2 S.before1 S.torn hpq
  · obtain ⟨a', a'', ha, ha', ha''⟩ := F.locate S.lands hu
    obtain ⟨b', b'', hb, hb', hb''⟩ := F.locate S.lands hv
    refine ⟨a'', b'', ha, hb, hside ha' ha'', hside hb' hb'', fun hab => ?_⟩
    exact F.joined_torn S H.ne ha' ha'' hb' hb''
      (Or.inl ⟨F.leads_back S h1, .rel _ _ (Or.inl hab)⟩)

theorem Halves.keeps_beside (hle : B.length ≤ A.length) (h2 : n2 ∉ A)
    (hab : g.next .toNode a = some b) (hsev : ¬ SeveredBy n1 n2 A B C D none (some (x, y)) a b) :
    Keeps g (mergeNode tg n1 n2 g) a b := by
  obtain ⟨P, t, R, hA, hlen, h2R, hclosed, hsub, hloc⟩ := H.cut_off ht₁ hfree ht₂ h1 hle h2
  have h1A : n1 ∉ A := fun h1A => H.after1.disjoint H.after2 H.mirrored H.ne n1 h1A h1
  have hA' := H.after1
  rw [hA] at hA'
  have hside : a ∈ t :: R ↔ b ∈ t :: R := by
    refine (hA'.same_side H.mirrored ?_ hab).resolve_right fun ⟨hbt, hlast⟩ => hsev ?_
    · rintro w hw (rfl | rfl)
      · exact h1A (hA ▸ hw)
      · exact h2 (hA ▸ hw)
    · have hidx : B.length - 1 = P.length := by omega
      refine .cutOff h1 hle h2 ?_ ?_
      · rw [hA, hidx, ← hlast]
        exact getElem?_length_cons
      · rw [hA, hidx, hbt]
        simp
  have hlinked : ∀ {p q}, Linked ((mergeNode tg n1 n2 g).next .fromNode) p q →
      (p ∈ n1 :: R ↔ q ∈ n1 :: R) := by
    intro p q hpq
    induction hpq with
    | rel p q hpq => exact (hclosed q p (hsub p q hpq)).symm
    | refl => rfl
    | symm _ _ _ ih => exact ih.symm
    | trans _ _ _ _ _ ih1 ih2 => exact ih1.trans ih2
  intro u v hu hv
  obtain ⟨a', b', ha', hb', hsa, hsb, hj⟩ := hloc a b u v hu hv
  refine ⟨a', b', ha', hb', .of_linked ?_ fun p q hpq =>
    ⟨.of_next hpq, .of_next (hsub p q hpq)⟩⟩
  have h1R : n1 ∈ n1 :: R := List.mem_cons_self
  rcases eqvGen_adjoin.1 (hj hab) with hlink | ⟨h1', h2'⟩ | ⟨h1', h2'⟩
  · exact hlink
  · have ha := (hlinked h1').2 h1R
    have hb := fun h => h2R ((hlinked h2').2 h)
    exact absurd (hsb.2 (hside.1 (hsa.1 ha))) hb
  · have ha := fun h => h2R ((hlinked h1').1 h)
    have hb := (hlinked h2').1 h1R
    exact absurd (hsa.2 (hside.2 (hsb.1 hb))) ha

theorem Halves.parts_cutOff (hle : B.length ≤ A.length) (h2 : n2 ∉ A)
    (ha : (n1 :: A)[B.length - 1]? = some a) (hb : A[B.length - 1]? = some b) :
    Parts g (mergeNode tg n1 n2 g) a b := by
  obtain ⟨P, t, R, hA, hlen, h2R, hclosed, hsub, hloc⟩ := H.cut_off ht₁ hfree ht₂ h1 hle h2
  have hidx : B.length - 1 = P.length := by omega
  have h1A : n1 ∉ A := fun h1A => H.after1.disjoint H.after2 H.mirrored H.ne n1 h1A h1
  have hnodup := H.after1.nodup
  rw [hA] at h1A hnodup
  rw [hA, hidx] at ha hb
  rw [getElem?_length_cons] at ha
  obtain rfl : t = b := by simpa using hb
  have haR : a ∉ t :: R := by
    rcases List.mem_cons.1 (List.mem_of_getLast? ha) with rfl | haP
    · exact fun hmem => h1A (List.mem_append_right _ hmem)
    · exact fun hmem => (List.nodup_append.1 hnodup).2.2 a haP a hmem rfl
  intro u v hu hv
  obtain ⟨a', b', ha', hb', hsa, hsb, -⟩ := hloc a t u v hu hv
  refine ⟨a', b', ha', hb', fun hreach => ?_⟩
  refine hreach.mem_of_closed (R := {w | w ∉ n1 :: R}) (fun d p q hp hpq => ?_)
    (fun h => haR (hsa.1 h)) (hsb.2 List.mem_cons_self)
  cases d with
  | toNode => exact fun hq => hp ((hclosed p q hpq).2 hq)
  | fromNode => exact fun hq => hp ((hclosed q p (hsub p q hpq)).1 hq)

end

/-- **A refusal in the second half only.** -/
theorem Halves.keeps_of_refused (hab : g.next .toNode a = some b)
    (hsev : ¬ SeveredBy n1 n2 A B C D none (some (x, y)) a b) :
    Keeps g (mergeNode tg n1 n2 g) a b := by
  by_cases hlt : n1 ∈ B → A.length < B.length
  · exact H.keeps_of_second ht₁ hfree ht₂ hlt hab hsev
  · obtain ⟨h1, hle⟩ := not_forall.1 hlt
    rw [Nat.not_lt] at hle
    by_cases h2 : n2 ∈ A
    · exact H.keeps_of_ring ht₁ hfree ht₂ h1 h2 hab
    · exact H.keeps_beside ht₁ hfree ht₂ h1 hle h2 hab hsev

end

end

/-! ## What is lost -/

section
variable {A₁ C₁ : List NodeId} (T : FirstRefused n1 n2 x y A₀ A₁ B g z)
include T

theorem FirstRefused.not_mem_left {w : NodeId} (hw : w ∈ y :: A₁) : w ∉ A₀ := fun hmem =>
  (List.nodup_append.1 T.after1.nodup).2.2 w hmem w hw rfl

theorem FirstRefused.source_not_mem (h1 : n1 ∉ y :: A₁) : x ∉ y :: A₁ := by
  rcases List.mem_cons.1 (List.mem_of_getLast? T.last) with rfl | hxA
  · exact h1
  · exact fun hx => T.not_mem_left hx hxA

/-- No link joins what is torn off to the rest, if it leads to neither of the nodes. -/
theorem FirstRefused.edgesWithin (h1 : n1 ∉ A₀ ++ y :: A₁) (h2 : n2 ∉ A₀ ++ y :: A₁) :
    EdgesWithin (SameSide (y :: A₁)) z := by
  refine edgesWithin_of (d := .toNode) T.done.spliced.inverse fun p q hpq => ?_
  rw [T.torn.next] at hpq
  split at hpq
  · cases hpq
  · rename_i hp
    refine (T.after1.same_side T.mirrored ?_ hpq).resolve_right fun ⟨_, hlast⟩ => hp ?_
    · rintro w hw (rfl | rfl)
      · exact h1 hw
      · exact h2 hw
    · exact List.mem_cons.1 (List.mem_of_getLast? hlast)

/-- If the nodes after `n1` form a ring, what is torn off is the end of the nodes before `n1`. -/
theorem FirstRefused.mem_before (hC : Chain (z.next .fromNode) {n1, n2} n1 C)
    (h1 : n1 ∈ A₀ ++ y :: A₁) (h2 : n2 ∉ A₀ ++ y :: A₁) (hy : y ≠ n1) :
    n2 ∉ C ∧ ∀ C₀ t C₁, C = C₀ ++ t :: C₁ → y ∈ t :: C₁ := by
  have hy2 : y ≠ n2 := by
    rintro rfl
    exact h2 (by simp)
  have hend : z.next .fromNode y = none := by rw [T.torn.prev, if_pos rfl]
  have h1A : n1 ∈ A₁ := (List.mem_cons.1 (T.mem_rest h1 (Or.inl rfl))).resolve_left hy.symm
  have hyC : y ∈ C := (T.torn.rest T.after1 (by simp [hy, hy2])).mem_back T.done.spliced.inverse h1A
    (Or.inl rfl) hC
  refine ⟨fun h2C => ?_, ?_⟩
  · obtain ⟨l, hl⟩ := hC.eq_concat hyC hend
    obtain ⟨l', hl', -⟩ := hC.mem_stop h2C (Or.inr rfl)
    rw [hl] at hl'
    exact hy2 (List.singleton_inj.1 (List.append_inj' hl' rfl).2)
  · rintro C₀ t C₁ rfl
    refine (List.mem_append.1 hyC).resolve_left fun hmem => ?_
    obtain ⟨d, hd⟩ := hC.exists_next hmem
    rw [hend] at hd; cases hd

end

section
variable (H : Halves tg g n1 n2 A B C D)
  (ht₁ : tornOff tg (g.moved n1 n2) n1 A B = some (x, y)) (h2 : n2 ∉ A)
include H ht₁ h2

/-- What is torn off in the first half stays apart, if it leads to neither of the nodes. -/
theorem Halves.parts_first (h1 : n1 ∉ A) : Parts g (mergeNode tg n1 n2 g) x y := by
  obtain ⟨A₀, A₁, rfl, T⟩ := firstRefused H.mirrored H.ne H.after1 H.after2 ht₁
  have h1S : n1 ∉ y :: A₁ := fun h => h1 (List.mem_append_right _ h)
  have h2S : n2 ∉ y :: A₁ := fun h => h2 (List.mem_append_right _ h)
  -- the second half moves no value from one side to the other
  have hsides : MergeInvariant tg _ (SameSide (y :: A₁)) :=
    sameGroupsInvariant (sameSide_equivalence _) (firstHalf tg n1 n2 g)
  obtain ⟨hS', hsame⟩ := hsides.mergeEdges_mergeNode .fromNode (iff_of_false h1S h2S)
    ⟨T.edgesWithin h1 h2, sameGroups_refl (sameSide_equivalence _) _⟩
  rw [← H.mergeNode_eq] at hS' hsame
  refine parts_of_sides hS' (fun u w hu => ?_) fun hxy =>
    T.source_not_mem h1S (hxy.2 List.mem_cons_self)
  obtain ⟨w', hw', hl⟩ := T.done.lands u w hu
  obtain ⟨w'', hw'', hside⟩ := hsame.forth u w' hw'
  refine ⟨w'', hw'', hside.symm.trans ?_⟩
  rw [hl.mem_iff (fun q hq hqS => T.not_mem_left hqS hq) fun q hq hqS =>
    H.after1.disjoint H.after2 H.mirrored H.ne q (List.mem_append_right _ hqS) hq]
  exact holder_mem_iff h1S h2S w

section
variable (h1 : n1 ∈ A) (hy : y ≠ n1)
include h1 hy

/-- What both halves tear off a ring of `n1` stays apart. -/
theorem Halves.parts_both {t₂ : NodeId × NodeId}
    (ht₂ : tornOff tg (firstHalf tg n1 n2 g) n1 C D = some t₂) :
    Parts g (mergeNode tg n1 n2 g) x y := by
  obtain ⟨A₀, A₁, rfl, T⟩ := firstRefused H.mirrored H.ne H.after1 H.after2 ht₁
  have F := T.done
  obtain ⟨x₂, y₂⟩ := t₂
  obtain ⟨C₀, C₁, rfl, -, S⟩ := H.torn F.spliced.inverse ht₂
  obtain ⟨h2C, hyC⟩ := T.mem_before H.before1 h1 h2 hy
  refine F.parts_torn H.ne S h2C (fun _ _ h => Or.inl h) fun hxy => ?_
  obtain ⟨hxA, -, hxS⟩ := F.left_alone S h2C x
    (List.mem_append_right _ (hxy.2 (hyC C₀ y₂ C₁ rfl)))
  rcases List.mem_cons.1 (List.mem_of_getLast? T.last) with rfl | hmem
  · exact hxS (Or.inl rfl)
  · exact hxA hmem

/-- What the first half tears off a ring of `n1` is not met from the ring of `n2`, if the second
    half merges too few of the nodes before `n1` into it. -/
theorem Halves.parts_overwritten (ht₂ : tornOff tg (firstHalf tg n1 n2 g) n1 C D = none)
    (h2D : n2 ∈ D) (hlt : D.length < C.length) : Parts g (mergeNode tg n1 n2 g) x y := by
  obtain ⟨A₀, A₁, rfl, T⟩ := firstRefused H.mirrored H.ne H.after1 H.after2 ht₁
  have F := T.done
  obtain ⟨C₀, y₂, C₁, x₂, rfl, -, S⟩ := H.overwritten F.spliced.inverse ht₂ h2D hlt
  obtain ⟨h2C, hyC⟩ := T.mem_before H.before1 h1 h2 hy
  have hyC₁ := hyC C₀ y₂ C₁ rfl
  have hdisj : ∀ w ∈ n2 :: D, w ∉ C₀ ++ y₂ :: C₁ := by
    intro w hw hwC
    rcases List.mem_cons.1 hw with rfl | hw
    · exact h2C hwC
    · exact H.before1.disjoint H.before2 F.spliced.inverse.symm H.ne w hwC hw
  have hring := (chain_subset_ring F.spliced.inverse F.spliced.chain H.before2 h2D).2
  intro u v hu hv
  obtain ⟨a', a'', ha, ha', ha''⟩ := F.locate S.lands hu
  obtain ⟨b', b'', hb, hb', hb''⟩ := F.locate S.lands hv
  have haD : a' ∈ n2 :: D := by
    refine List.mem_cons.2 ((List.mem_cons.1 ?_).imp_right fun h =>
      hring a' (List.mem_append_left _ h))
    exact lands_last T.last (fun w hw => T.after1.not_stop_of_append hw) T.lt.le ha'
  obtain rfl := ha''.eq_of_not_mem fun h => hdisj a' haD (List.mem_append_left _ h)
  rw [holder, if_neg hy] at hb'
  obtain rfl := hb'.eq_of_not_mem (T.not_mem_left List.mem_cons_self)
  obtain rfl := hb''.eq_of_not_mem (S.not_mem_left hyC₁)
  refine ⟨a'', b'', ha, hb, fun hreach => ?_⟩
  refine hdisj b'' (hreach.mem_of_closed (R := {w | w ∈ n2 :: D}) (fun d p q hp hpq => ?_) haD)
    (List.mem_append_right _ hyC₁)
  refine S.torn.ring_closed F.spliced.inverse.symm H.ne S.before1 H.before2 h2D hp ?_
  cases d with
  | toNode => exact Or.inr hpq
  | fromNode => exact Or.inl hpq

end

end

end TFA.AliasGraph
