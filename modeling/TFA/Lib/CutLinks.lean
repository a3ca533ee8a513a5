/-
  Chains that are cut in the middle.

  * `Inverse.cut`: without one link, two partial maps are still inverse;
  * `Torn`: the links after the first elements `A` that follow `n1` were merged
    into those that follow `n2`, and the element `y` after `A` was torn off.  It
    is a splice of the structure without the link to `y` (`Torn.spliced`);
  * `Spliced.cut`: a splice and a cut elsewhere commute;
  * `Spliced.left_alone`: chains that lead to `n1` from elements not connected
    with `n2` are as they were before the splice.
-/
import TFA.Lib.Links
import Mathlib.Data.List.Chain

namespace TFA.Links

variable {α : Type*} {nx pv nx' pv' nx'' pv'' : α → Option α} {S : Set α}
  {n1 n2 a b c x y u v w : α} {A A₁ B C D l m : List α}

/-! ## Paths -/

/-- Each element of the list is linked to the next one. -/
def Path (nx : α → Option α) (l : List α) : Prop := l.IsChain fun p q => nx p = some q

/-- Each element of the list is led back to from the next one. -/
def BackPath (pv : α → Option α) (l : List α) : Prop := l.IsChain fun p q => pv q = some p

theorem Path.back (h : Path nx l) (hinv : Inverse nx pv) : BackPath pv l :=
  h.imp fun p q => (hinv p q).1

theorem Path.before (h : Path nx (l ++ m)) : Path nx l := h.left_of_append

theorem BackPath.before (h : BackPath pv (l ++ m)) : BackPath pv l := h.left_of_append

theorem Path.head (h : Path nx (a :: b :: l)) : nx a = some b := (List.isChain_cons_cons.1 h).1

theorem Path.tail (h : Path nx (a :: b :: l)) : Path nx (b :: l) := (List.isChain_cons_cons.1 h).2

theorem BackPath.head (h : BackPath pv (a :: b :: l)) : pv b = some a :=
  (List.isChain_cons_cons.1 h).1

theorem BackPath.tail (h : BackPath pv (a :: b :: l)) : BackPath pv (b :: l) :=
  (List.isChain_cons_cons.1 h).2

theorem Path.congr (h : Path nx l) (hnx : ∀ p ∈ l.dropLast, nx' p = nx p) : Path nx' l := by
  induction l with
  | nil => exact .nil
  | cons p l ih =>
    cases l with
    | nil => exact .singleton p
    | cons q l =>
      rw [Path, List.isChain_cons_cons] at h ⊢
      rw [List.dropLast_cons_cons] at hnx
      exact ⟨(hnx p (by simp)).trans h.1, ih h.2 fun r hr => hnx r (List.mem_cons_of_mem _ hr)⟩

theorem BackPath.congr (h : BackPath pv (a :: l)) (hpv : ∀ q ∈ l, pv' q = pv q) :
    BackPath pv' (a :: l) := by
  induction l generalizing a with
  | nil => exact .singleton a
  | cons q l ih =>
    rw [BackPath, List.isChain_cons_cons] at h ⊢
    exact ⟨(hpv q (by simp)).trans h.1, ih h.2 fun r hr => hpv r (List.mem_cons_of_mem _ hr)⟩

theorem Path.next_last (h : Path nx (l ++ [b])) (hl : l ≠ []) : nx (l.getLast hl) = some b :=
  h.rel_getLast_head_of_append hl (by simp)

theorem BackPath.prev_last (h : BackPath pv (l ++ [b])) (hl : l ≠ []) :
    pv b = some (l.getLast hl) :=
  h.rel_getLast_head_of_append hl (by simp)

theorem Chain.path (h : Chain nx S a l) : Path nx (a :: l) := by
  induction h with
  | stop => exact .singleton _
  | last hn _ => exact .cons_cons hn (.singleton _)
  | step hn _ _ ih => exact .cons_cons hn ih

theorem mem_cons_iff_dropLast : w ∈ a :: l ↔ w ∈ (a :: l).dropLast ∨ w = l.getLastD a := by
  conv_lhs => rw [← List.dropLast_append_getLast (List.cons_ne_nil a l)]
  rw [List.mem_append, List.mem_singleton, List.getLast_eq_getLastD]

theorem getElem?_length_cons : (a :: (l ++ m))[l.length]? = (a :: l).getLast? := by
  rw [← List.cons_append, List.getElem?_append_left (by simp), List.getLast?_eq_getElem?]
  simp

theorem getLast_not_mem_dropLast (h : l.Nodup) (hl : l ≠ []) : l.getLast hl ∉ l.dropLast := by
  intro hmem
  rw [← List.dropLast_append_getLast hl] at h
  exact (List.nodup_append.1 h).2.2 _ hmem _ (by simp) rfl

/-! ## Chains with one link less -/

theorem Chain.not_stop_of_dropLast (h : Chain nx S a m) (hl : l <+: m) (hc : c ∈ l.dropLast) :
    c ∉ S := by
  obtain ⟨l', rfl⟩ := hl
  rcases List.eq_nil_or_concat l with rfl | ⟨l, b, rfl⟩
  · simp at hc
  · rw [List.concat_eq_append, List.dropLast_concat] at hc
    rw [List.concat_eq_append, List.append_assoc] at h
    exact h.not_stop_of_append hc

theorem Chain.exists_next (h : Chain nx S a (l ++ b :: m)) (hc : c ∈ l) : ∃ d, nx c = some d := by
  obtain ⟨p, q, rfl⟩ := List.append_of_mem hc
  have hcS := h.not_stop_of_append hc
  rw [List.append_assoc, List.cons_append] at h
  have hq := h.drop hcS
  cases q with
  | nil => exact ⟨b, hq.next_head⟩
  | cons d q => exact ⟨d, hq.next_head⟩

/-- What leads to a stop is met on the way back from it. -/
theorem Chain.mem_back (h : Chain nx S a l) (hinv : Inverse nx pv) (hb : b ∈ l) (hS : b ∈ S)
    (hm : Chain pv S b m) : a ∈ m := by
  induction h with
  | stop => simp at hb
  | @last a _ hn _ =>
    obtain rfl := List.mem_singleton.1 hb
    exact hm.mem_start ((hinv a b).1 hn)
  | @step a c l hn hc hl ih =>
    rcases List.mem_cons.1 hb with rfl | hb
    · exact absurd hS hc
    · exact hm.mem_next (ih hb) hc ((hinv a c).1 hn)

/-- Only the link to `y` leads to the elements from `y` on. -/
theorem Chain.same_side (h : Chain nx S a (A ++ y :: A₁)) (hinv : Inverse nx pv)
    (hS : ∀ w ∈ A ++ y :: A₁, w ∉ S) (hbc : nx b = some c) :
    (b ∈ y :: A₁ ↔ c ∈ y :: A₁) ∨ c = y ∧ (a :: A).getLast? = some b := by
  by_cases hc : c = y
  · subst hc
    have hlast := List.getLast?_cons (a := a) (l := A)
    exact Or.inr ⟨rfl, hlast.trans (congrArg some (hinv.injective (h.next_of_getLast hlast) hbc))⟩
  · have hY := h.drop (hS y (by simp))
    refine Or.inl ⟨fun hb => ?_, fun hcY => ?_⟩
    · rcases List.mem_cons.1 hb with rfl | hb
      · exact List.mem_cons_of_mem _ (hY.mem_start hbc)
      · refine List.mem_cons_of_mem _ (hY.mem_next hb (hS b ?_) hbc)
        exact List.mem_append_right _ (List.mem_cons_of_mem _ hb)
    · obtain ⟨d, hd, hdc⟩ := hY.exists_prev ((List.mem_cons.1 hcY).resolve_left hc)
      rw [hinv.injective hbc hdc]
      exact List.mem_cons.2 (hd.imp_right And.left)

/-- What leads to a stop on a chain is met on the way back from it. -/
theorem Chain.mem_back_of_mem (h : Chain nx S a l) (hinv : Inverse nx pv) (hb : b ∈ l) (hS : b ∈ S)
    (hm : Chain pv S b m) (hc : c ∈ a :: l) (hcS : c ∉ S) : c ∈ m := by
  rcases List.mem_cons.1 hc with rfl | hc
  · exact h.mem_back hinv hb hS hm
  · obtain ⟨p, q, rfl⟩ := List.append_of_mem hc
    refine (h.drop hcS).mem_back hinv ?_ hS hm
    rcases List.mem_append.1 hb with hb | hb
    · exact absurd hS (h.not_stop_of_append hb)
    · refine (List.mem_cons.1 hb).resolve_left ?_
      rintro rfl
      exact hcS hS

theorem Chain.head_not_mem_before (h : Chain nx S a (A ++ y :: A₁)) : a ∉ A := by
  intro ha
  exact h.start_not_mem (h.not_stop_of_append ha) (List.mem_append_left _ ha)

/-- A chain from a stop is no longer than there are elements with a next one. -/
theorem Chain.length_le_sources (h : Chain nx S a l) (ha : a ∈ S) {K : Finset α}
    (hK : ∀ b, nx b ≠ none → b ∈ K) : l.length ≤ K.card := by
  classical
  rcases List.eq_nil_or_concat l with rfl | ⟨l, b, rfl⟩
  · exact Nat.zero_le _
  · rw [List.concat_eq_append] at h ⊢
    have hnd : (a :: l).Nodup := by
      refine List.nodup_cons.2 ⟨fun hmem => h.not_stop_of_append hmem ha, ?_⟩
      exact (List.nodup_append.1 h.nodup).1
    have hlen : (l ++ [b]).length = (a :: l).toFinset.card := by
      rw [List.toFinset_card_of_nodup hnd]
      simp
    rw [hlen]
    refine Finset.card_le_card fun c hc => hK c ?_
    rcases List.mem_cons.1 (List.mem_toFinset.1 hc) with rfl | hc
    · cases l with
      | nil => rw [h.next_head]; simp
      | cons e l => rw [h.next_head]; simp
    · obtain ⟨e, he⟩ := h.exists_next hc
      rw [he]
      simp

section
variable [DecidableEq α]

/-- A chain that ends where a link was left out goes on with it. -/
theorem Chain.extend (h : Chain (Function.update nx b none) S a l)
    (hb : (a :: l).getLast? = some b) (hl : ∀ w ∈ l, w ∉ S) (hbc : nx b = some c) (hc : c ∈ S) :
    Chain nx S a (l ++ [c]) := by
  induction h with
  | @stop a _ =>
    obtain rfl : a = b := by simpa using hb
    exact .last hbc hc
  | last _ he => exact absurd he (hl _ (by simp))
  | @step a e l hn he _ ih =>
    have hab : a ≠ b := by
      rintro rfl
      rw [Function.update_self] at hn
      cases hn
    rw [Function.update_of_ne hab] at hn
    exact .step hn he (ih (by simpa using hb) fun w hw => hl w (List.mem_cons_of_mem _ hw))

/-- Without the link to `y`, the chain ends before `y`. -/
theorem Chain.before_cut (h : Chain nx S a (A ++ y :: A₁)) (hx : (a :: A).getLast? = some x) :
    Chain (Function.update nx x none) S a A := by
  induction A generalizing a with
  | nil =>
    obtain rfl : a = x := by simpa using hx
    exact .stop (Function.update_self ..)
  | cons c A ih =>
    have hc : c ∉ S := h.not_stop_of_append (l := c :: A) (by simp)
    have hx' : (c :: A).getLast? = some x := by simpa using hx
    have hxA : x ∈ c :: A := List.mem_of_getLast? hx'
    have hax : a ≠ x := fun hax => h.head_not_mem_before (hax ▸ hxA)
    refine .step ?_ hc (ih (h.tail hc) hx')
    rw [Function.update_of_ne hax]
    exact h.next_head

theorem Chain.after_cut (h : Chain nx S a (A ++ y :: A₁)) (hx : (a :: A).getLast? = some x)
    (hy : y ∉ S) (ha : a ∈ S) : Chain (Function.update nx x none) S y A₁ := by
  refine (h.drop hy).congr fun w hw => Function.update_of_ne ?_ _ _
  have hnd := List.nodup_append.1 h.nodup
  rintro rfl
  rcases List.mem_cons.1 (List.mem_of_getLast? hx) with rfl | hxA
  · rcases hw with rfl | ⟨-, hw⟩
    · exact hy ha
    · exact hw ha
  · refine hnd.2.2 w hxA w ?_ rfl
    rcases hw with rfl | ⟨hw, -⟩
    · exact List.mem_cons_self
    · exact List.mem_cons_of_mem _ hw

/-- The link is not on the chain of `n2`. -/
theorem Chain.other_cut (hA : Chain nx {n1, n2} n1 (A ++ y :: A₁)) (hinv : Inverse nx pv)
    (hn : n1 ≠ n2) (hx : (n1 :: A).getLast? = some x) (hB : Chain nx {n1, n2} n2 B) :
    Chain (Function.update nx x none) {n1, n2} n2 B := by
  refine hB.congr fun w hw => Function.update_of_ne ?_ _ _
  rintro rfl
  rcases List.mem_cons.1 (List.mem_of_getLast? hx) with rfl | hxA
  · rcases hw with hw | ⟨-, hw⟩
    · exact hn hw
    · exact hw (Or.inl rfl)
  · rcases hw with rfl | ⟨hw, -⟩
    · exact hA.not_stop_of_append hxA (Or.inr rfl)
    · exact hA.disjoint hB hinv hn w (List.mem_append_left _ hxA) hw

/-- The ends of a link on a chain that leads to `n1` or `n2` are joined without it. -/
theorem Chain.joined_ends (h : Chain nx {n1, n2} n1 (A ++ y :: A₁))
    (hx : (n1 :: A).getLast? = some x) {z : α} (hz : z ∈ y :: A₁)
    (hzS : z ∈ ({n1, n2} : Set α)) : Joined (Function.update nx x none) n1 n2 x y := by
  have hn1 : n1 ∈ ({n1, n2} : Set α) := Or.inl rfl
  have hstart : Joined (Function.update nx x none) n1 n2 x n1 :=
    ((h.before_cut hx).linked_both (List.mem_of_getLast? hx) (by simp)).joined
  have hstop : Joined (Function.update nx x none) n1 n2 n1 z := by
    rcases hzS with rfl | rfl
    · exact .refl _
    · exact .rel _ _ (Or.inr ⟨rfl, rfl⟩)
  refine .trans _ _ _ hstart (.trans _ _ _ hstop (.symm _ _ ?_))
  by_cases hy : y ∈ ({n1, n2} : Set α)
  · obtain rfl : y = z := by
      refine h.stop_unique (by simp) hy ?_ hzS
      exact List.mem_append_right _ hz
    exact .refl _
  · exact ((h.after_cut hx hy hn1).linked_both (by simp) hz).joined

end

/-! ## Cuts -/

section
variable [DecidableEq α]

theorem Inverse.cut (h : Inverse nx pv) (hxy : nx x = some y) :
    Inverse (Function.update nx x none) (Function.update pv y none) := by
  intro a b
  have h1 := h a b
  have h2 := h x b
  have h3 := h a y
  simp only [Function.update_apply]
  grind

theorem Inverse.of_update (h : Inverse nx (Function.update pv y none)) (hab : nx a = some b) :
    pv b = some a := by
  have hba := (h a b).1 hab
  rw [Function.update_apply] at hba
  split at hba
  · cases hba
  · exact hba

/-- All of a chain that ends, and is no longer than that of `n2`, is merged. -/
theorem Spliced.drained (hinv : Inverse nx pv) (hn : n1 ≠ n2) (hA : Chain nx {n1, n2} n1 A)
    (hAo : ∀ w ∈ A, w ∉ ({n1, n2} : Set α)) (hB : Chain nx {n1, n2} n2 B)
    (hlen : A.length ≤ B.length) (hnx : ∀ w, nx' w = if w = n1 ∨ w ∈ A then none else nx w)
    (hpv : ∀ w, pv' w = if w ∈ A then none else pv w) : Spliced nx pv nx' pv' n1 n2 A B := by
  have hside : ∀ {a b}, nx a = some b → (a = n1 ∨ a ∈ A ↔ b ∈ A) := by
    intro a b hab
    constructor
    · rintro (rfl | ha)
      · exact hA.mem_start hab
      · exact hA.mem_next ha (hAo a ha) hab
    · intro hb
      obtain ⟨c, hc, hcb⟩ := hA.exists_prev hb
      rw [hinv.injective hab hcb]
      exact hc.imp_right And.left
  have hspent : nx' n1 = none := by rw [hnx, if_pos (Or.inl rfl)]
  refine ⟨fun a b => ?_, ?_, fun _ => hspent, fun w hw => ?_, fun w hwA _ h1 _ => ?_,
    fun w hwA _ => ?_, fun w _ _ => ?_⟩
  · have h1 := hinv a b
    rw [hnx, hpv]
    grind
  · rw [List.drop_eq_nil_of_le hlen, List.append_nil]
    have hB' : Chain nx' {n1, n2} n2 B := by
      refine hB.congr fun w hw => ?_
      rw [hnx, if_neg]
      rintro (rfl | hwA)
      · rcases hw with hw | ⟨-, hw⟩
        · exact hn hw
        · exact hw (Or.inl rfl)
      · rcases hw with rfl | ⟨hw, -⟩
        · exact hAo w hwA (Or.inr rfl)
        · exact hA.disjoint hB hinv hn w hwA hw
    refine hB'.drop_stop (by simp) fun w hw hw2 => ?_
    rcases hw with rfl | hw
    · exact hspent
    · exact absurd hw hw2
  · rw [hpv, if_pos (List.mem_of_mem_take hw)]
  · rw [hnx, if_neg (by tauto)]
  · rw [hpv, if_neg hwA]
  · rw [hnx]
    split
    · exact Or.inr rfl
    · exact Or.inl rfl

/-- The elements `A` after `n1` were merged into others, and `y`, that came after
    them, was torn off: `e` is what leads to it now. -/
structure Torn (nx pv nx' pv' : α → Option α) (n1 y : α) (A : List α) (e : Option α) : Prop where
  next : ∀ w, nx' w = if w = n1 ∨ w ∈ A then none else nx w
  prev : ∀ w, pv' w = if w = y then e else if w ∈ A then none else pv w

section
variable {e : Option α} (hinv : Inverse nx pv) (hn : n1 ≠ n2)
  (hA : Chain nx {n1, n2} n1 (A ++ y :: A₁)) (hx : (n1 :: A).getLast? = some x)
include hinv hn hA hx

/-- The rest is a splice of the structure without the torn link. -/
theorem Torn.spliced (hB : Chain nx {n1, n2} n2 B) (hlen : A.length ≤ B.length)
    (h : Torn nx pv nx' pv' n1 y A e) :
    Spliced (Function.update nx x none) (Function.update pv y none) nx'
      (Function.update pv' y none) n1 n2 A B := by
  have hxA : x = n1 ∨ x ∈ A := List.mem_cons.1 (List.mem_of_getLast? hx)
  have hyA : y ∉ A := fun hyA =>
    (List.nodup_append.1 hA.nodup).2.2 y hyA y List.mem_cons_self rfl
  refine .drained (hinv.cut (hA.next_of_getLast hx)) hn (hA.before_cut hx)
    (fun w hw => hA.not_stop_of_append hw) (hA.other_cut hinv hn hx hB) hlen (fun w => ?_)
    fun w => ?_
  · rw [h.next]
    by_cases hw : w = n1 ∨ w ∈ A
    · rw [if_pos hw, if_pos hw]
    · rw [if_neg hw, if_neg hw, Function.update_of_ne]
      rintro rfl
      exact hw hxA
  · by_cases hw : w = y
    · subst hw
      rw [Function.update_self, if_neg hyA, Function.update_self]
    · rw [Function.update_of_ne hw, h.prev, if_neg hw, Function.update_of_ne hw]

end

/-- What follows `y` is as it was. -/
theorem Torn.rest (hA : Chain nx {n1, n2} n1 (A ++ y :: A₁)) (hy : y ∉ ({n1, n2} : Set α))
    {e : Option α} (h : Torn nx pv nx' pv' n1 y A e) : Chain nx' {n1, n2} y A₁ := by
  refine (hA.drop hy).congr fun q hq => ?_
  rw [h.next, if_neg]
  have hnd := (List.nodup_append.1 hA.nodup).2.2
  rintro (rfl | hqA)
  · rcases hq with rfl | ⟨-, hq⟩
    · exact hy (Or.inl rfl)
    · exact hq (Or.inl rfl)
  · refine hnd q hqA q ?_ rfl
    rcases hq with rfl | ⟨hq, -⟩
    · exact List.mem_cons_self
    · exact List.mem_cons_of_mem _ hq

/-- If nothing leads to `y` any more, that is all. -/
theorem Torn.spliced_of_none (hinv : Inverse nx pv) (hn : n1 ≠ n2)
    (hA : Chain nx {n1, n2} n1 (A ++ y :: A₁)) (hx : (n1 :: A).getLast? = some x)
    (hB : Chain nx {n1, n2} n2 B) (hlen : A.length ≤ B.length)
    (h : Torn nx pv nx' pv' n1 y A none) :
    Spliced (Function.update nx x none) (Function.update pv y none) nx' pv' n1 n2 A B := by
  have hid : Function.update pv' y none = pv' :=
    Function.update_eq_self_iff.2 (by rw [h.prev, if_pos rfl])
  simpa only [hid] using h.spliced hinv hn hA hx hB hlen

/-- A splice commutes with a cut off its chains. -/
theorem Spliced.cut (h : Spliced nx pv nx' pv' n1 n2 A B) (huv : nx u = some v) (huA : u ∉ A)
    (huB : u ∉ B) (hu1 : u ≠ n1) (hu2 : u ≠ n2) (hvA : v ∉ A) (hvB : v ∉ B) :
    Spliced (Function.update nx u none) (Function.update pv v none) (Function.update nx' u none)
      (Function.update pv' v none) n1 n2 A B where
  inverse := h.inverse.cut ((h.next u huA huB hu1 hu2).trans huv)
  chain := by
    refine h.chain.congr fun w hw => Function.update_of_ne ?_ _ _
    rintro rfl
    rcases hw with rfl | ⟨hw, -⟩
    · exact hu2 rfl
    · exact (List.mem_append.1 hw).elim huB fun hw => huA (List.mem_of_mem_drop hw)
  spent h1 := by rw [Function.update_of_ne hu1.symm]; exact h.spent h1
  gone w hw := by
    rw [Function.update_of_ne]
    · exact h.gone w hw
    · rintro rfl
      exact hvA (List.mem_of_mem_take hw)
  next w hwA hwB h1 h2 := by
    simp only [Function.update_apply, h.next w hwA hwB h1 h2]
  prev w hwA hwB := by
    simp only [Function.update_apply, h.prev w hwA hwB]
  fewer w hwB h2 := by
    simp only [Function.update_apply]
    split
    · exact Or.inr rfl
    · exact h.fewer w hwB h2

end

/-- If what leads to `n1` after a splice does not come from `n2`, the splice left it alone. -/
theorem Spliced.left_alone (h : Spliced nx pv nx' pv' n1 n2 A B) (hA : Chain nx {n1, n2} n1 A)
    (hC : Chain pv' {n1, n2} n1 C) (h2 : n2 ∉ C) (hne : C ≠ []) :
    n1 ∉ A ∧ n1 ∉ B ∧ ∀ w ∈ C, w ∉ A ∧ w ∉ B ∧ w ∉ ({n1, n2} : Set α) := by
  -- back from the chain of `n2` one comes to `n2`
  have hback : ∀ {p q}, nx' p = some q → p ∉ C → q ∉ C ∧ q ≠ n1 := by
    intro p q hpq hp
    have hqp := (h.inverse p q).1 hpq
    have hq1 : q ≠ n1 := fun hq => hp (hC.mem_start (hq ▸ hqp))
    refine ⟨fun hq => hp (hC.mem_next hq ?_ hqp), hq1⟩
    rintro (rfl | rfl)
    · exact hq1 rfl
    · exact h2 hq
  have hM : ∀ w ∈ B ++ A.drop B.length, w ∉ C ∧ w ≠ n1 :=
    h.chain.forall_mem_of_step (fun _ hb => hback hb h2) fun _ _ _ hp hpq => hback hpq hp.1
  have h1B : n1 ∉ B := fun h1 => (hM n1 (List.mem_append_left _ h1)).2 rfl
  have hlead : ∀ {w}, w ∈ C → ∃ c, (c = n1 ∨ c ∈ C) ∧ nx' w = some c := by
    intro w hw
    obtain ⟨c, hc, hcw⟩ := hC.exists_prev hw
    exact ⟨c, hc.imp_right And.left, (h.inverse w c).2 hcw⟩
  have h1C : n1 ∉ C := by
    intro h1
    obtain ⟨c, -, hc⟩ := hlead h1
    rw [h.spent h1B] at hc; cases hc
  have h1A : n1 ∉ A := by
    intro h1
    rw [← List.take_append_drop B.length A] at h1
    rcases List.mem_append.1 h1 with h1 | h1
    · exact hne (hC.unique (.stop (h.gone n1 h1)))
    · exact (hM n1 (List.mem_append_right _ h1)).2 rfl
  refine ⟨h1A, h1B, fun w hw => ⟨fun hwA => ?_, fun hwB => (hM w (List.mem_append_left _ hwB)).1 hw,
    ?_⟩⟩
  · have hwB : w ∉ B := fun hwB => (hM w (List.mem_append_left _ hwB)).1 hw
    have hw1 : w ≠ n1 := by rintro rfl; exact h1C hw
    have hw2 : w ≠ n2 := by rintro rfl; exact h2 hw
    obtain ⟨c, hc, hwc⟩ := hlead hw
    have hwc' : nx w = some c := by
      rcases h.fewer w hwB hw2 with hnw | hnw
      · exact hnw ▸ hwc
      · rw [hnw] at hwc; cases hwc
    have hcA := hA.mem_next hwA (by simp [hw1, hw2]) hwc'
    rw [← List.take_append_drop B.length A] at hcA
    rcases List.mem_append.1 hcA with hcA | hcA
    · have := (h.inverse w c).1 hwc
      rw [h.gone c hcA] at this; cases this
    · obtain ⟨hcC, hc1⟩ := hM c (List.mem_append_right _ hcA)
      exact hc.elim hc1 hcC
  · rintro (rfl | rfl)
    · exact h1C hw
    · exact h2 hw

/-- A torn half leaves a ring of `n2` closed. -/
theorem Torn.ring_closed [DecidableEq α] (hinv : Inverse nx pv) (hn : n1 ≠ n2)
    (hA : Chain nx {n1, n2} n1 (A ++ y :: A₁)) (hB : Chain nx {n1, n2} n2 B) (h2 : n2 ∈ B)
    {e : Option α} (h : Torn nx pv nx' pv' n1 y A e) (ha : a ∈ n2 :: B)
    (hab : nx' a = some b ∨ pv' a = some b) : b ∈ n2 :: B := by
  have ha' : a ∈ B := by
    rcases List.mem_cons.1 ha with rfl | ha
    · exact h2
    · exact ha
  have hdisj := fun h => hA.disjoint hB hinv hn a h ha'
  rcases hab with hab | hab
  · rw [h.next] at hab
    split at hab
    · cases hab
    · rcases List.mem_cons.1 ha with rfl | ha
      · exact List.mem_cons_of_mem _ (hB.mem_start hab)
      · by_cases haS : a ∈ ({n1, n2} : Set α)
        · obtain rfl := hB.stop_unique ha haS h2 (Or.inr rfl)
          exact List.mem_cons_of_mem _ (hB.mem_start hab)
        · exact List.mem_cons_of_mem _ (hB.mem_next ha haS hab)
  · have hay : a ≠ y := by rintro rfl; exact hdisj (by simp)
    rw [h.prev, if_neg hay, if_neg fun h => hdisj (List.mem_append_left _ h)] at hab
    obtain ⟨c, hc, hca⟩ := hB.exists_prev ha'
    obtain rfl := hinv.injective ((hinv b a).2 hab) hca
    exact List.mem_cons.2 (hc.imp_right And.left)

/-- If the chain of `n2` leads to `n1`, what is left of the chain of `n1` follows it there. -/
theorem Spliced.rest (h : Spliced nx pv nx' pv' n1 n2 A B) (hn : n1 ≠ n2)
    (hB : Chain nx {n1, n2} n2 B) (h1 : n1 ∈ B) :
    Chain nx' {n1, n2} n1 (A.drop B.length) ∧ n1 ∉ A.drop B.length := by
  have hchain := h.chain
  obtain ⟨l, rfl, -⟩ := hB.mem_stop h1 (Or.inl rfl)
  rw [List.append_assoc, List.singleton_append] at hchain
  have h1A : n1 ∉ A.drop (l ++ [n1]).length := fun hmem => by
    have hnd := (List.nodup_append.1 hchain.nodup).2.1
    exact (List.nodup_cons.1 hnd).1 hmem
  refine ⟨(hchain.drop hn).congr_stop fun w hw => ⟨Or.inr, ?_⟩, h1A⟩
  rintro (rfl | hw2)
  · exact absurd hw h1A
  · exact hw2

/-- If that leads to `n2`, it is a ring. -/
theorem Spliced.mem_back (h : Spliced nx pv nx' pv' n1 n2 A B) (hn : n1 ≠ n2)
    (hB : Chain nx {n1, n2} n2 B) (h1 : n1 ∈ B) (h2 : n2 ∈ A) (hD : Chain pv' {n1, n2} n2 D)
    (hne : D ≠ []) : n1 ∈ D := by
  refine (h.rest hn hB h1).1.mem_back h.inverse ?_ (Or.inr rfl) hD
  rw [← List.take_append_drop B.length A] at h2
  refine (List.mem_append.1 h2).resolve_left fun hmem => hne ?_
  exact hD.unique (.stop (h.gone n2 hmem))

section
variable {l : List α} (h : Spliced nx pv nx' pv' n1 n2 A B) (hn : n1 ≠ n2)
  (hB : Chain nx {n1, n2} n2 B) (h1 : n1 ∈ B) (h2 : n2 ∉ A)
include h hn hB h1 h2

/-- Otherwise nothing before `n1` and `n2` is in that rest. -/
theorem Spliced.before_rest (hl : Chain pv' {n1, n2} a l) (ha : a ∈ ({n1, n2} : Set α)) :
    ∀ w ∈ l, w ∉ n1 :: A.drop B.length := by
  obtain ⟨hrest, h1A⟩ := h.rest hn hB h1
  have h2A : n2 ∉ A.drop B.length := fun hmem => h2 (List.mem_of_mem_drop hmem)
  have hback : ∀ {p q}, p ∉ A.drop B.length → pv' p = some q → q ∉ n1 :: A.drop B.length := by
    intro p q hp hpq hq
    have hqp := (h.inverse q p).2 hpq
    rcases List.mem_cons.1 hq with rfl | hqA
    · exact hp (hrest.mem_start hqp)
    · refine hp (hrest.mem_next hqA ?_ hqp)
      rintro (rfl | rfl)
      · exact h1A hqA
      · exact h2A hqA
  refine hl.forall_mem_of_step (fun q hq => hback ?_ hq) fun p q _ hp hpq =>
    hback (fun hmem => hp (List.mem_cons_of_mem _ hmem)) hpq
  rcases ha with rfl | rfl
  · exact h1A
  · exact h2A

/-- A torn half that cuts `n1` off leaves no link into the rest. -/
theorem Spliced.rest_closed [DecidableEq α] (hC : Chain pv' {n1, n2} n1 (C ++ y :: l))
    (ht : Torn pv' nx' pv'' nx'' n1 y C none) (hab : nx'' a = some b) :
    a ∈ n1 :: A.drop B.length ↔ b ∈ n1 :: A.drop B.length := by
  obtain ⟨hrest, h1A⟩ := h.rest hn hB h1
  have hstop : ∀ w ∈ A.drop B.length, w ∉ ({n1, n2} : Set α) := by
    rintro w hw (rfl | rfl)
    · exact h1A hw
    · exact h2 (List.mem_of_mem_drop hw)
  rw [ht.prev] at hab
  split at hab
  · cases hab
  split at hab
  · cases hab
  rename_i hay haC
  constructor
  · intro ha
    rcases List.mem_cons.1 ha with rfl | ha
    · exact List.mem_cons_of_mem _ (hrest.mem_start hab)
    · exact List.mem_cons_of_mem _ (hrest.mem_next ha (hstop a ha) hab)
  · intro hb
    rcases List.mem_cons.1 hb with rfl | hb
    · have hba := (h.inverse a b).1 hab
      cases C with
      | nil => exact absurd (Option.some.inj (hba.symm.trans hC.next_head)) hay
      | cons c C =>
        obtain rfl := Option.some.inj (hba.symm.trans hC.next_head)
        exact absurd List.mem_cons_self haC
    · obtain ⟨c, hc, hcb⟩ := hrest.exists_prev hb
      rw [h.inverse.injective hab hcb]
      exact List.mem_cons.2 (hc.imp_right And.left)

end

/-! ## Two splices against each other -/

/-- The class of `w` is in `w'` once the elements `A` are merged into their partners in `B`. -/
def Lands (A B : List α) (w w' : α) : Prop := (w, w') ∈ A.zip B ∨ w ∉ A.take B.length ∧ w' = w

theorem Lands.movesTo (h : Lands A B w v) : MovesTo A B w v := by
  rcases h with h | ⟨hw, rfl⟩
  · obtain ⟨hwA, hvB⟩ := List.of_mem_zip h
    exact Or.inl ⟨hwA, List.mem_append_left _ hvB⟩
  · by_cases hwA : v ∈ A
    · refine Or.inl ⟨hwA, List.mem_append_right _ ?_⟩
      rw [← List.take_append_drop B.length A] at hwA
      exact (List.mem_append.1 hwA).resolve_left hw
    · exact Or.inr ⟨hwA, rfl⟩

theorem Lands.append (h : Lands A B w v) (hlen : A.length = B.length) (l : List α) :
    Lands A (B ++ l) w v := by
  have hzip : A.zip (B ++ l) = A.zip B := by
    conv_lhs => rw [← List.append_nil A, List.zip_append hlen, List.zip_nil_left, List.append_nil]
  rw [Lands, hzip, List.take_of_length_le (by simp [hlen])]
  rw [Lands, List.take_of_length_le hlen.le] at h
  exact h

theorem Lands.of_append (h : Lands (A ++ l) B w v) (hlen : A.length = B.length) :
    Lands A B w v := by
  have hzip : (A ++ l).zip B = A.zip B := by
    conv_lhs => rw [← List.append_nil B, List.zip_append hlen, List.zip_nil_right, List.append_nil]
  rw [Lands, hzip, ← hlen, List.take_left] at h
  rwa [Lands, ← hlen, List.take_length]

/-- What is merged into `n1` is the element before the rest. -/
theorem Lands.mem_rest {t : α} (h : Lands (A ++ t :: A₁) (B ++ [n1]) w v)
    (hlen : A.length = B.length) (hnodup : (A ++ t :: A₁ ++ (B ++ [n1])).Nodup) (hw : w ≠ n1) :
    v ∈ n1 :: A₁ ↔ w ∈ t :: A₁ := by
  have hzip : (A ++ t :: A₁).zip (B ++ [n1]) = A.zip B ++ [(t, n1)] := by
    rw [List.zip_append hlen]
    simp
  have htake : (A ++ t :: A₁).take (B ++ [n1]).length = A ++ [t] := by
    rw [List.append_cons A, List.take_left' (by simp [hlen])]
  rw [Lands, hzip, htake] at h
  have hA : ∀ {q}, q ∈ A → q ∉ t :: A₁ := by grind
  have hB : ∀ {q}, q ∈ B → q ∉ n1 :: A₁ := by grind
  rcases h with h | ⟨hw', rfl⟩
  · rcases List.mem_append.1 h with h | h
    · obtain ⟨h1, h2⟩ := List.of_mem_zip h
      exact iff_of_false (hB h2) (hA h1)
    · obtain ⟨rfl, rfl⟩ := Prod.mk.inj (List.mem_singleton.1 h)
      simp
  · rw [List.mem_append, List.mem_singleton, not_or] at hw'
    rw [List.mem_cons, List.mem_cons, or_iff_right hw, or_iff_right hw'.2]

theorem Lands.mem_iff {R : List α} (h : Lands A B w v) (hA : ∀ q ∈ A, q ∉ R) (hB : ∀ q ∈ B, q ∉ R) :
    v ∈ R ↔ w ∈ R := by
  rcases h with h | ⟨-, rfl⟩
  · obtain ⟨h1, h2⟩ := List.of_mem_zip h
    exact iff_of_false (hB v h2) (hA w h1)
  · rfl

/-- Nothing lands on an element that none is merged into. -/
theorem Lands.ne (h : Lands A B w v) (hw : w ≠ a) (ha : a ∉ B.take A.length) : v ≠ a := by
  rcases h with h | ⟨-, rfl⟩
  · rintro rfl
    refine ha ?_
    rw [List.zip_eq_zip_take_min] at h
    have hv := (List.of_mem_zip h).2
    exact List.take_subset_take_left B (Nat.min_le_left ..) hv
  · exact hw

theorem Lands.eq_of_not_mem (h : Lands A B w v) (hw : w ∉ A) : v = w := by
  rcases h with h | ⟨-, h⟩
  · exact absurd (List.of_mem_zip h).1 hw
  · exact h

theorem Lands.mem_of_mem (h : Lands A B w v) (hlen : A.length ≤ B.length) (hw : w ∈ A) : v ∈ B := by
  rcases h with h | ⟨hw', -⟩
  · exact (List.of_mem_zip h).2
  · rw [List.take_of_length_le hlen] at hw'
    exact absurd hw hw'

section
variable [DecidableEq α]

/-- A link whose ends are joined without it joins nothing else. -/
theorem Joined.without (hxy : nx x = some y) (hj : Joined (Function.update nx x none) n1 n2 x y)
    (h : Joined nx n1 n2 a b) : Joined (Function.update nx x none) n1 n2 a b := by
  refine eqvGen_le ?_ h
  rintro p q (hpq | hpq)
  · by_cases hp : p = x
    · subst hp
      obtain rfl : y = q := Option.some.inj (hxy.symm.trans hpq)
      exact hj
    · refine .rel _ _ (Or.inl ?_)
      rw [Function.update_of_ne hp]
      exact hpq
  · exact .rel _ _ (Or.inr hpq)

section
variable {a' b' : α} {e : Option α} (hinv : Inverse nx pv) (hB : Chain nx {n1, n2} n2 B)
  (ha' : MovesTo A B a a') (hb' : MovesTo A B b b')
include hinv hB ha' hb'

/-- What is joined without the torn link stays joined. -/
theorem Torn.joined (h : Torn nx pv nx' pv' n1 y A e) (hn : n1 ≠ n2)
    (hA : Chain nx {n1, n2} n1 (A ++ y :: A₁)) (hx : (n1 :: A).getLast? = some x)
    (hlen : A.length ≤ B.length) (hab : Joined (Function.update nx x none) n1 n2 a b) :
    Joined nx' n1 n2 a' b' :=
  (h.spliced hinv hn hA hx hB hlen).joined (hinv.cut (hA.next_of_getLast hx)) (hA.before_cut hx)
    (hA.other_cut hinv hn hx hB) hab ha' hb'

/-- A splice keeps what is joined without a link that leads to `n1` and that it left alone. -/
theorem Spliced.joined_cut (h : Spliced nx pv nx' pv' n1 n2 A B) (hA : Chain nx {n1, n2} n1 A)
    (hC : Chain pv' {n1, n2} n1 (C ++ y :: l)) (hx : (n1 :: C).getLast? = some x)
    (h2 : n2 ∉ C ++ y :: l) (hab : Joined (Function.update nx y none) n1 n2 a b) :
    Joined (Function.update pv' x none) n1 n2 a' b' := by
  obtain ⟨h1A, h1B, hout⟩ := h.left_alone hA hC h2 (by simp)
  obtain ⟨hyA, hyB, hyS⟩ := hout y (by simp)
  have hy1 : y ≠ n1 := fun h => hyS (Or.inl h)
  have hy2 : y ≠ n2 := fun h => hyS (Or.inr h)
  have hxAB : x ∉ A ∧ x ∉ B := by
    rcases List.mem_cons.1 (List.mem_of_getLast? hx) with rfl | hxC
    · exact ⟨h1A, h1B⟩
    · obtain ⟨hxA, hxB, -⟩ := hout x (List.mem_append_left _ hxC)
      exact ⟨hxA, hxB⟩
  have hxy := (h.inverse y x).2 (hC.next_of_getLast hx)
  have hyx : nx y = some x := (h.next y hyA hyB hy1 hy2).symm.trans hxy
  have hcut := h.cut hyx hyA hyB hy1 hy2 hxAB.1 hxAB.2
  have hoff : ∀ {s m}, Chain nx {n1, n2} s m → y ≠ s → y ∉ m →
      Chain (Function.update nx y none) {n1, n2} s m := by
    intro s m hm hs hym
    refine hm.congr fun w hw => Function.update_of_ne ?_ _ _
    rintro rfl
    exact hw.elim hs fun hw => hym hw.1
  exact (hcut.joined (hinv.cut hyx) (hoff hA hy1 hyA) (hoff hB hy2 hyB) hab ha' hb').rev
    hcut.inverse

end

end

end TFA.Links
