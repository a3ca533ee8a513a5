/-
  Doubly linked chains.

  A doubly linked structure is a pair of partial maps `nx` and `pv` that are
  inverse to each other.  Its connected parts are lines and rings, so that what
  lies after an element is a list.

  * `Chain nx S a l`: `l` lists the elements after `a`, up to and including the
    first one in `S`, or to the end of the line;
  * `Spliced`: `nx'` and `pv'` are the links after the elements that follow `n1`
    were merged, one by one, into those that follow `n2`; what is left over of
    the longer chain stays behind;
  * `Spliced.relink` is the step from the chains behind two elements to the
    chains behind their predecessors, under the condition that the link put back
    finds its place free;
  * `Spliced.touched_closed`, `Spliced.prev_bound` and `Spliced.cases_left`: what
    a splice says about connectivity, and about a second splice made against the
    direction of the first one.
-/
import Mathlib.Data.Set.Insert
import Mathlib.Data.List.Nodup
import Mathlib.Data.List.Perm.Subperm
import Mathlib.Data.Finset.Card
import Mathlib.Logic.Relation
import Mathlib.Tactic.Tauto

namespace TFA.Links

variable {α : Type*}

/-- Two partial maps that are inverse to each other. -/
def Inverse (nx pv : α → Option α) : Prop := ∀ a b, nx a = some b ↔ pv b = some a

theorem Inverse.symm {nx pv : α → Option α} (h : Inverse nx pv) : Inverse pv nx :=
  fun a b => (h b a).symm

theorem Inverse.injective {nx pv : α → Option α} (h : Inverse nx pv) {a b c : α}
    (ha : nx a = some c) (hb : nx b = some c) : a = b :=
  Option.some.inj (((h a c).1 ha).symm.trans ((h b c).1 hb))

/-! ## Chains -/

/-- `l` lists what follows `a`, up to and including the first element of `S`. -/
inductive Chain (nx : α → Option α) (S : Set α) : α → List α → Prop
  | stop {a} : nx a = none → Chain nx S a []
  | last {a b} : nx a = some b → b ∈ S → Chain nx S a [b]
  | step {a b l} : nx a = some b → b ∉ S → Chain nx S b l → Chain nx S a (b :: l)

section
variable {nx nx' pv : α → Option α} {S : Set α} {a b : α} {l l' : List α}

theorem Chain.nil_iff : Chain nx S a [] ↔ nx a = none :=
  ⟨fun h => by cases h; assumption, .stop⟩

theorem Chain.next_head (h : Chain nx S a (b :: l)) : nx a = some b := by
  cases h <;> assumption

theorem Chain.tail (h : Chain nx S a (b :: l)) (hb : b ∉ S) : Chain nx S b l := by
  cases h with
  | last _ hS => exact absurd hS hb
  | step _ _ h => exact h

theorem Chain.tail_nil (h : Chain nx S a (b :: l)) (hb : b ∈ S) : l = [] := by
  cases h with
  | last => rfl
  | step _ hS _ => exact absurd hb hS

theorem Chain.unique (h : Chain nx S a l) (h' : Chain nx S a l') : l = l' := by
  induction h generalizing l' with
  | stop hn => cases h' <;> simp_all
  | last hn hS =>
    cases h' with
    | stop h => simp [hn] at h
    | last h _ => rw [Option.some.inj (hn.symm.trans h)]
    | step h hS' _ => exact absurd (Option.some.inj (hn.symm.trans h) ▸ hS) hS'
  | step hn hS _ ih =>
    cases h' with
    | stop h => simp [hn] at h
    | last h hS' => exact absurd (Option.some.inj (h.symm.trans hn) ▸ hS') hS
    | step h _ hl => cases hn.symm.trans h; rw [ih hl]

theorem Chain.suffix (h : Chain nx S a l) (hb : b ∈ l) (hS : b ∉ S) :
    ∃ l', Chain nx S b l' ∧ l'.length < l.length := by
  induction h with
  | stop => simp at hb
  | last _ hc => rw [List.mem_singleton.1 hb] at hS; exact absurd hc hS
  | @step _ c l _ _ hl ih =>
    rcases List.mem_cons.1 hb with rfl | hb
    · exact ⟨l, hl, by simp⟩
    · obtain ⟨l', h1, h2⟩ := ih hb
      exact ⟨l', h1, by simp; omega⟩

/-- A chain that ends never comes back to its start, unless it stops there. -/
theorem Chain.start_not_mem (h : Chain nx S a l) (ha : a ∉ S) : a ∉ l := by
  intro hmem
  obtain ⟨l', h1, h2⟩ := h.suffix hmem ha
  rw [h.unique h1] at h2
  omega

theorem Chain.nodup (h : Chain nx S a l) : l.Nodup := by
  induction h with
  | stop => exact List.nodup_nil
  | last => exact List.nodup_singleton _
  | step _ hb hl ih => exact List.nodup_cons.2 ⟨hl.start_not_mem hb, ih⟩

theorem Chain.mem_start (h : Chain nx S a l) (hb : nx a = some b) : b ∈ l := by
  cases h <;> simp_all

theorem Chain.mem_next (h : Chain nx S a l) {c : α} (hb : b ∈ l) (hS : b ∉ S)
    (hc : nx b = some c) : c ∈ l := by
  induction h with
  | stop => simp at hb
  | last _ hS' => rw [List.mem_singleton.1 hb] at hS; exact absurd hS' hS
  | step _ _ hl ih =>
    rcases List.mem_cons.1 hb with rfl | hb
    · exact List.mem_cons_of_mem _ (hl.mem_start hc)
    · exact List.mem_cons_of_mem _ (ih hb)

/-- Everything on a chain has a predecessor, on the chain or at its start. -/
theorem Chain.exists_prev (h : Chain nx S a l) (hb : b ∈ l) :
    ∃ c, (c = a ∨ c ∈ l ∧ c ∉ S) ∧ nx c = some b := by
  induction h with
  | stop => simp at hb
  | @last a _ hn _ => rw [List.mem_singleton.1 hb]; exact ⟨a, Or.inl rfl, hn⟩
  | @step a c l hn hS hl ih =>
    rcases List.mem_cons.1 hb with rfl | hb
    · exact ⟨a, Or.inl rfl, hn⟩
    · obtain ⟨x, rfl | ⟨hx, hxS⟩, hxb⟩ := ih hb
      · exact ⟨x, Or.inr ⟨by simp, hS⟩, hxb⟩
      · exact ⟨x, Or.inr ⟨List.mem_cons_of_mem _ hx, hxS⟩, hxb⟩

/-- An element without predecessor is on no chain. -/
theorem Chain.head_not_mem (h : Chain nx S a l) (hinv : Inverse nx pv) (hb : pv b = none) :
    b ∉ l := by
  intro hmem
  obtain ⟨c, -, hc⟩ := h.exists_prev hmem
  rw [(hinv c b).1 hc] at hb; cases hb

theorem Chain.forall_mem_of_step (h : Chain nx S a l) {P : α → Prop}
    (ha : ∀ b, nx a = some b → P b) (hP : ∀ x y, x ∉ S → P x → nx x = some y → P y) :
    ∀ x ∈ l, P x := by
  induction h with
  | stop => simp
  | last hn _ => simpa using ha _ hn
  | step hn hS _ ih =>
    have hb := ha _ hn
    simpa [hb] using ih fun c hc => hP _ c hS hb hc

theorem Chain.forall_mem (h : Chain nx S a l) {P : α → Prop} (ha : P a)
    (hP : ∀ x y, P x → nx x = some y → P y) : ∀ x ∈ l, P x :=
  h.forall_mem_of_step (fun b hb => hP a b ha hb) fun x y _ hx hxy => hP x y hx hxy

theorem Chain.mem_stop (h : Chain nx S a l) (hb : b ∈ l) (hS : b ∈ S) :
    ∃ l', l = l' ++ [b] ∧ ∀ x ∈ l', x ∉ S := by
  induction h with
  | stop => simp at hb
  | last => exact ⟨[], by rw [List.mem_singleton.1 hb]; rfl, by simp⟩
  | @step _ c l _ hc hl ih =>
    rcases List.mem_cons.1 hb with rfl | hb
    · exact absurd hS hc
    · obtain ⟨l', rfl, hl'⟩ := ih hb
      exact ⟨c :: l', rfl, by simpa [hc] using hl'⟩

theorem Chain.stop_unique (h : Chain nx S a l) {c : α} (hb : b ∈ l) (hbS : b ∈ S) (hc : c ∈ l)
    (hcS : c ∈ S) : b = c := by
  obtain ⟨l', rfl, hl'⟩ := h.mem_stop hb hbS
  rcases List.mem_append.1 hc with hc | hc
  · exact absurd hcS (hl' c hc)
  · exact (List.mem_singleton.1 hc).symm

/-- A chain ends at an element of `S`, or at one with no successor. -/
theorem Chain.ends (h : Chain nx S a l) :
    (∃ x ∈ l, x ∈ S) ∨ ∃ x, (x = a ∨ x ∈ l ∧ x ∉ S) ∧ nx x = none := by
  induction h with
  | @stop a hn => exact Or.inr ⟨a, Or.inl rfl, hn⟩
  | @last _ b _ hS => exact Or.inl ⟨b, by simp, hS⟩
  | @step _ b l _ hb _ ih =>
    rcases ih with ⟨x, hx, hxS⟩ | ⟨x, rfl | ⟨hx, hxS⟩, hn⟩
    · exact Or.inl ⟨x, List.mem_cons_of_mem _ hx, hxS⟩
    · exact Or.inr ⟨x, Or.inr ⟨by simp, hb⟩, hn⟩
    · exact Or.inr ⟨x, Or.inr ⟨List.mem_cons_of_mem _ hx, hxS⟩, hn⟩

/-- The last element of a chain, if not in `S`, has no successor. -/
theorem Chain.next_last (h : Chain nx S a (l ++ [b])) (hb : b ∉ S) : nx b = none := by
  rcases h.ends with ⟨x, hx, hxS⟩ | ⟨x, hx, hn⟩
  · obtain ⟨l', heq, -⟩ := h.mem_stop hx hxS
    have := (List.append_inj' heq rfl).2
    rw [List.singleton_inj.1 this] at hb
    exact absurd hxS hb
  · by_contra hne
    obtain ⟨y, hy⟩ := Option.ne_none_iff_exists'.1 hne
    -- the successor of the last element would be on the chain, before that element
    have hsuf : ∀ {a l}, Chain nx S a (l ++ [b]) → Chain nx S b [] := by
      intro a l h
      induction l generalizing a with
      | nil => exact h.tail hb
      | cons c l ih =>
        refine ih (a := c) (h.tail fun hc => ?_)
        simpa using h.tail_nil hc
    exact hne (Chain.nil_iff.1 (hsuf h))

theorem Chain.eq_concat (h : Chain nx S a l) (hb : b ∈ l) (hn : nx b = none) :
    ∃ l', l = l' ++ [b] := by
  induction h with
  | stop => simp at hb
  | last => exact ⟨[], by rw [List.mem_singleton.1 hb]; rfl⟩
  | @step _ c l _ _ hl ih =>
    rcases List.mem_cons.1 hb with rfl | hb
    · cases l with
      | nil => exact ⟨[], rfl⟩
      | cons d l => rw [hl.next_head] at hn; cases hn
    · obtain ⟨l', rfl⟩ := ih hb
      exact ⟨c :: l', rfl⟩

/-- Only the last element of a chain is in `S`. -/
theorem Chain.not_stop_of_append (h : Chain nx S a (l ++ b :: l')) {c : α} (hc : c ∈ l) :
    c ∉ S := by
  induction l generalizing a with
  | nil => simp at hc
  | cons e l ih =>
    have he : e ∉ S := fun heS => by simpa using h.tail_nil heS
    rcases List.mem_cons.1 hc with rfl | hc
    · exact he
    · exact ih (h.tail he) hc

theorem Chain.next_of_getLast (h : Chain nx S a (l ++ b :: l')) {c : α}
    (hc : (a :: l).getLast? = some c) : nx c = some b := by
  induction l generalizing a with
  | nil =>
    simp only [List.getLast?_singleton, Option.some.injEq] at hc
    exact hc ▸ h.next_head
  | cons e l ih =>
    have he : e ∉ S := fun heS => by simpa using h.tail_nil heS
    exact ih (h.tail he) (by simpa using hc)

theorem Chain.drop (h : Chain nx S a (l ++ b :: l')) (hb : b ∉ S) : Chain nx S b l' := by
  induction l generalizing a with
  | nil => exact h.tail hb
  | cons x l ih =>
    have hx : x ∉ S := fun hxS => by simpa using h.tail_nil hxS
    exact ih (h.tail hx)

theorem Chain.congr (h : Chain nx S a l) (hnx : ∀ x, x = a ∨ x ∈ l ∧ x ∉ S → nx' x = nx x) :
    Chain nx' S a l := by
  induction h with
  | stop hn => exact .stop ((hnx _ (Or.inl rfl)).trans hn)
  | last hn hS => exact .last ((hnx _ (Or.inl rfl)).trans hn) hS
  | step hn hS _ ih =>
    refine .step ((hnx _ (Or.inl rfl)).trans hn) hS (ih fun x hx => hnx x (Or.inr ?_))
    rcases hx with rfl | ⟨hx, hxS⟩
    · exact ⟨by simp, hS⟩
    · exact ⟨List.mem_cons_of_mem _ hx, hxS⟩

theorem Chain.congr_stop (h : Chain nx S a l) {S' : Set α} (hS : ∀ x ∈ l, x ∈ S ↔ x ∈ S') :
    Chain nx S' a l := by
  induction h with
  | stop hn => exact .stop hn
  | last hn hb => exact .last hn ((hS _ (by simp)).1 hb)
  | step hn hb _ ih =>
    exact .step hn (fun h => hb ((hS _ (by simp)).2 h)) (ih fun x hx =>
      hS x (List.mem_cons_of_mem _ hx))

/-- Cutting the links out of `S` leaves the rest of a chain, now without stops. -/
theorem Chain.cut (h : Chain nx S a (b :: l)) (hcut : ∀ x, x ∈ S → nx' x = none)
    (hrest : ∀ x, x ∉ S → nx' x = nx x) : Chain nx' ∅ b l := by
  induction l generalizing a b with
  | nil =>
    by_cases hb : b ∈ S
    · exact .stop (hcut b hb)
    · exact .stop ((hrest b hb).trans (Chain.nil_iff.1 (h.tail hb)))
  | cons c l ih =>
    by_cases hb : b ∈ S
    · cases h.tail_nil hb
    · have ht := h.tail hb
      exact .step ((hrest b hb).trans ht.next_head) (by simp) (ih ht)

theorem Chain.of_cut (h : Chain nx' ∅ b l) (hcut : ∀ x, x ∈ S → nx' x = none)
    (hrest : ∀ x, x ∉ S → nx' x = nx x) (hb : b ∉ S) : Chain nx S b l := by
  induction l generalizing b with
  | nil => exact .stop ((hrest b hb).symm.trans (Chain.nil_iff.1 h))
  | cons c l ih =>
    have hn := (hrest b hb).symm.trans h.next_head
    by_cases hc : c ∈ S
    · cases l with
      | nil => exact .last hn hc
      | cons d l =>
        have := (h.tail (by simp)).next_head
        rw [hcut c hc] at this; cases this
    · exact .step hn hc (ih (h.tail (by simp)) hc)

end

/-- A stop without successor is an end anyway. -/
theorem Chain.drop_stop {nx : α → Option α} {S S' : Set α} {a : α} {l : List α}
    (h : Chain nx S a l) (hsub : S' ⊆ S) (hS : ∀ x ∈ S, x ∉ S' → nx x = none) :
    Chain nx S' a l := by
  induction h with
  | stop hn => exact .stop hn
  | @last _ b hn hb =>
    by_cases hb' : b ∈ S'
    · exact .last hn hb'
    · exact .step hn hb' (.stop (hS b hb hb'))
  | step hn hb _ ih => exact .step hn (fun h => hb (hsub h)) ih

/-- With its start as the only stop, a chain that leads off `t` where `a` has no
    link yet becomes the chain of `a` once `a` is linked to `t`. -/
theorem Chain.link {nx nx' : α → Option α} {a t : α} {l : List α} (h : Chain nx ∅ t l)
    (ha : nx a = none) (hat : nx' a = some t) (hrest : ∀ x, x ≠ a → nx x = nx' x) :
    Chain nx' {a} a (t :: l) := by
  by_cases ht : t = a
  · subst ht
    cases l with
    | nil => exact .last hat rfl
    | cons b l => rw [h.next_head] at ha; cases ha
  · refine .step hat ht (h.of_cut (fun x hx => ?_) (fun x hx => hrest x hx) ht)
    rw [Set.mem_singleton_iff.1 hx]; exact ha

/-- The chains behind two elements up to these two do not meet. -/
theorem Chain.disjoint {nx pv : α → Option α} {n1 n2 : α} {A B : List α}
    (hA : Chain nx {n1, n2} n1 A) (hB : Chain nx {n1, n2} n2 B) (hinv : Inverse nx pv)
    (hn : n1 ≠ n2) : ∀ x ∈ A, x ∉ B := by
  have hprev : ∀ {x y}, nx x = some y → y ∈ B → x = n2 ∨ x ∈ B ∧ x ∉ ({n1, n2} : Set α) := by
    intro x y hxy hy
    obtain ⟨c, hc, hcy⟩ := hB.exists_prev hy
    rw [hinv.injective hxy hcy]
    exact hc
  refine hA.forall_mem_of_step (fun b hb hbB => ?_) fun x y hxS hx hxy hyB => ?_
  · rcases hprev hb hbB with h | ⟨-, h⟩
    · exact hn h
    · exact h (Or.inl rfl)
  · rcases hprev hxy hyB with h | ⟨h, -⟩
    · exact hxS (Or.inr h)
    · exact hx h

/-! ## Finite structures -/

section
variable {nx pv : α → Option α}

/-- The elements after `a`, as `Chain` has them, to a length of `fuel`. -/
def chainWithin (nx : α → Option α) (stop : α → Bool) : ℕ → α → List α
  | 0, _ => []
  | fuel + 1, a =>
    match nx a with
    | none => []
    | some b => if stop b then [b] else b :: chainWithin nx stop fuel b

theorem chainWithin_eq {stop : α → Bool} {fuel : ℕ} {a : α} {l : List α}
    (h : Chain nx {x | stop x = true} a l) (hl : l.length ≤ fuel) :
    chainWithin nx stop fuel a = l := by
  induction h generalizing fuel with
  | stop hn => cases fuel <;> simp [chainWithin, hn]
  | last hn hb =>
    obtain ⟨fuel, rfl⟩ : ∃ f, fuel = f + 1 := ⟨fuel - 1, by simp at hl; omega⟩
    simp only [Set.mem_ofPred_eq] at hb
    simp [chainWithin, hn, hb]
  | step hn hb _ ih =>
    obtain ⟨fuel, rfl⟩ : ∃ f, fuel = f + 1 := ⟨fuel - 1, by simp at hl; omega⟩
    simp only [Set.mem_ofPred_eq] at hb
    simp only [List.length_cons, Nat.add_le_add_iff_right] at hl
    simp [chainWithin, hn, hb, ih hl]

/-- From an element without predecessor, a finite structure has a chain to an end. -/
theorem exists_chain_of_head [DecidableEq α] (hinv : Inverse nx pv) {K : Finset α}
    (hK : ∀ a b, nx a = some b → a ∈ K) {a : α} (ha : pv a = none) : ∃ l, Chain nx ∅ a l := by
  induction K using Finset.strongInduction generalizing nx pv a with
  | H K ih =>
    cases hn : nx a with
    | none => exact ⟨[], .stop hn⟩
    | some b =>
      have hba : b ≠ a := by
        rintro rfl
        rw [(hinv b b).1 hn] at ha; cases ha
      -- without the link from `a` to `b`, the element `b` is a head
      let nx' := Function.update nx a none
      let pv' := Function.update pv b none
      have hinv' : Inverse nx' pv' := by
        intro x y
        simp only [nx', pv', Function.update_apply]
        have h1 := hinv x y
        have h2 := hinv x b
        have h3 := hinv a y
        grind
      have hpv' : ∀ y, pv' y ≠ some a := by
        intro y hy
        have := (hinv' a y).2 hy
        simp [nx'] at this
      obtain ⟨l, hl⟩ := ih (K.erase a) (Finset.erase_ssubset (hK a b hn)) hinv'
        (fun x y hxy => by
          simp only [nx', Function.update_apply] at hxy
          split at hxy
          · cases hxy
          · exact Finset.mem_erase.2 ⟨by assumption, hK x y hxy⟩)
        (a := b) (by simp [pv'])
      refine ⟨b :: l, .step hn (by simp) (hl.congr fun x hx => ?_)⟩
      refine (Function.update_of_ne ?_ _ _).symm
      rintro rfl
      rcases hx with rfl | ⟨hx, -⟩
      · exact hba rfl
      · obtain ⟨c, -, hc⟩ := hl.exists_prev hx
        have hc := (hinv' c x).1 hc
        simp only [pv', Function.update_apply, if_neg hba.symm] at hc
        rw [ha] at hc; cases hc

theorem exists_chain (hinv : Inverse nx pv) {K : Finset α} (hK : ∀ a b, nx a = some b → a ∈ K)
    {S : Set α} {a : α} (ha : a ∈ S) : ∃ l, Chain nx S a l := by
  classical
  cases hn : nx a with
  | none => exact ⟨[], .stop hn⟩
  | some b =>
    by_cases hb : b ∈ S
    · exact ⟨[b], .last hn hb⟩
    · let nx' := fun x => if x ∈ S then none else nx x
      let pv' := fun y => (pv y).filter (fun x => decide (x ∉ S))
      have hinv' : Inverse nx' pv' := by
        intro x y
        simp only [nx', pv', Option.filter_eq_some_iff, decide_eq_true_eq]
        have := hinv x y
        split <;> simp_all
      obtain ⟨l, hl⟩ := exists_chain_of_head hinv' (K := K)
        (fun x y hxy => hK x y (by simp only [nx'] at hxy; split at hxy <;> simp_all))
        (a := b) (by simp [pv', (hinv a b).1 hn, ha])
      exact ⟨b :: l, .step hn hb (hl.of_cut (fun x hx => if_pos hx) (fun x hx => if_neg hx) hb)⟩

theorem Chain.length_le (hinv : Inverse nx pv) {K : Finset α}
    (hK : ∀ b, pv b ≠ none → b ∈ K) {S : Set α} {a : α} {l : List α} (h : Chain nx S a l) :
    l.length ≤ K.card := by
  classical
  rw [← List.toFinset_card_of_nodup h.nodup]
  refine Finset.card_le_card fun b hb => hK b ?_
  obtain ⟨c, -, hc⟩ := h.exists_prev (List.mem_toFinset.1 hb)
  rw [(hinv c b).1 hc]; simp

end

/-! ## Splicing one chain into another -/

/-- The elements `A` after `n1` were merged one by one into the elements `B`
    after `n2`, and what is left of `A` follows `B`. -/
structure Spliced (nx pv nx' pv' : α → Option α) (n1 n2 : α) (A B : List α) : Prop where
  inverse : Inverse nx' pv'
  chain : Chain nx' {n2} n2 (B ++ A.drop B.length)
  spent : n1 ∉ B → nx' n1 = none
  gone : ∀ x ∈ A.take B.length, pv' x = none
  next : ∀ x, x ∉ A → x ∉ B → x ≠ n1 → x ≠ n2 → nx' x = nx x
  prev : ∀ x, x ∉ A → x ∉ B → pv' x = pv x
  fewer : ∀ x, x ∉ B → x ≠ n2 → nx' x = nx x ∨ nx' x = none

section
variable {nx pv nx' pv' : α → Option α} {n1 n2 t1 t2 : α} {A B : List α}

/-- Nothing follows `n1`. -/
theorem Spliced.nothing (hinv : Inverse nx pv) (h1 : nx n1 = none)
    (hB : Chain nx {n1, n2} n2 B) : Spliced nx pv nx pv n1 n2 [] B where
  inverse := hinv
  chain := by
    rw [List.drop_nil, List.append_nil]
    refine hB.drop_stop (by simp) fun x hx hx' => ?_
    rcases hx with rfl | hx
    · exact h1
    · exact absurd hx hx'
  spent _ := h1
  gone := by simp
  next _ _ _ _ _ := rfl
  prev _ _ _ := rfl
  fewer _ _ _ := Or.inl rfl

/-- Nothing follows `n2`: the chain of `n1` becomes the chain of `n2`. -/
theorem Spliced.shift [DecidableEq α] (hinv : Inverse nx pv) (hn : n1 ≠ n2) (h2 : nx n2 = none)
    (hA : Chain nx {n1, n2} n1 (t1 :: A))
    (hnx : ∀ x, nx' x = if x = n2 then some t1 else if x = n1 then none else nx x)
    (hpv : ∀ y, pv' y = if y = t1 then some n2 else pv y) :
    Spliced nx pv nx' pv' n1 n2 (t1 :: A) [] where
  inverse := by
    intro x y
    rw [hnx, hpv]
    have h1 := hA.next_head
    have h3 := hinv x y
    have h4 := hinv n1 y
    have h5 := hinv x t1
    have h6 := hinv n1 t1
    grind
  chain := by
    have hcut : Chain (fun x => if x = n1 ∨ x = n2 then none else nx x) ∅ t1 A :=
      hA.cut (fun x hx => if_pos hx) (fun x hx => if_neg hx)
    exact hcut.link (if_pos (Or.inr rfl)) (by simp [hnx]) fun x hx => by simp [hnx, hx]
  spent _ := by simp [hnx, hn]
  gone := by simp
  next x _ _ h1 h2 := by simp [hnx, h1, h2]
  prev x hx _ := by
    rw [hpv, if_neg]
    rintro rfl
    simp at hx
  fewer x _ hx := by
    rw [hnx, if_neg hx]
    split
    · exact Or.inr rfl
    · exact Or.inl rfl

/-- Both have followers: these were spliced after `n1` and `n2` were cut off,
    and `n2` is linked to its old follower again.  The condition `hfree` says
    that the splice left nothing behind `n2` that this link would drop. -/
theorem Spliced.relink [DecidableEq α] {nxc pvc nxz pvz : α → Option α} (hn : n1 ≠ n2)
    (ht : t1 ≠ t2) (hcut : Inverse nxc pvc)
    (hnxc : ∀ x, nxc x = if x = n1 ∨ x = n2 then none else nx x)
    (hpvc : ∀ x, pvc x = if x = t1 ∨ x = t2 then none else pv x)
    (hA : Chain nxc {t1, t2} t1 A) (hB : Chain nxc {t1, t2} t2 B)
    (hfree : n2 ∈ t2 :: B → A.length ≤ B.length) (h : Spliced nxc pvc nxz pvz t1 t2 A B)
    (hnx : ∀ x, nx' x = if x = n2 then some t2 else nxz x)
    (hpv : ∀ x, pv' x = if x = t2 then some n2 else pvz x) :
    Spliced nx pv nx' pv' n1 n2 (t1 :: A) (t2 :: B) := by
  -- the followers are the heads of their chains
  have hhead : ∀ {t l x}, Chain nxc {t1, t2} t l → x = t1 ∨ x = t2 → x ∉ l :=
    fun hl hx => hl.head_not_mem hcut (by rw [hpvc, if_pos hx])
  have h1A := hhead hA (Or.inl rfl)
  have h1B := hhead hB (Or.inl rfl)
  have h2A := hhead hA (Or.inr rfl)
  have h2B := hhead hB (Or.inr rfl)
  have hpv2 : pvz t2 = none := by rw [h.prev t2 h2A h2B, hpvc, if_pos (Or.inr rfl)]
  have hnone : ∀ x, x = n1 ∨ x = n2 → x ∉ t2 :: B → nxz x = none := by
    intro x hx hmem
    rw [List.mem_cons, not_or] at hmem
    rcases h.fewer x hmem.2 hmem.1 with hz | hz
    · rw [hz, hnxc, if_pos hx]
    · exact hz
  have htrail : Chain nxz ∅ t2 (B ++ A.drop B.length) := by
    refine h.chain.congr_stop fun x hx => ⟨fun hx' => ?_, fun hx' => hx'.elim⟩
    rw [Set.mem_singleton_iff.1 hx'] at hx
    rcases List.mem_append.1 hx with hx | hx
    · exact absurd hx h2B
    · exact absurd (List.mem_of_mem_drop hx) h2A
  have hnx2 : nxz n2 = none := by
    by_cases hmem : n2 ∈ t2 :: B
    · rw [List.drop_eq_nil_of_le (hfree hmem), List.append_nil] at htrail
      have hend : nxc n2 = none := by rw [hnxc, if_pos (Or.inr rfl)]
      rcases List.mem_cons.1 hmem with rfl | hmem
      · cases B with
        | nil => exact Chain.nil_iff.1 htrail
        | cons b B => rw [hB.next_head] at hend; cases hend
      · obtain ⟨l, rfl⟩ := hB.eq_concat hmem hend
        exact htrail.next_last (by simp)
    · exact hnone n2 (Or.inr rfl) hmem
  refine ⟨?_, ?_, ?_, ?_, ?_, ?_, ?_⟩
  · intro x y
    rw [hnx, hpv]
    have h1 := h.inverse x y
    have h3 := h.inverse n2 y
    have h4 := h.inverse x t2
    grind
  · exact htrail.link hnx2 (by rw [hnx, if_pos rfl]) fun x hx => by rw [hnx, if_neg hx]
  · intro h1
    rw [hnx, if_neg hn]
    exact hnone n1 (Or.inl rfl) h1
  · intro x hx
    rw [List.length_cons, List.take_succ_cons, List.mem_cons] at hx
    rcases hx with rfl | hx
    · rw [hpv, if_neg ht, h.prev x h1A h1B, hpvc, if_pos (Or.inl rfl)]
    · have hx2 : x ≠ t2 := by rintro rfl; exact h2A (List.mem_of_mem_take hx)
      rw [hpv, if_neg hx2]; exact h.gone x hx
  · intro x hxA hxB h1 h2
    rw [List.mem_cons, not_or] at hxA hxB
    rw [hnx, if_neg h2, h.next x hxA.2 hxB.2 hxA.1 hxB.1, hnxc, if_neg (by tauto)]
  · intro x hxA hxB
    rw [List.mem_cons, not_or] at hxA hxB
    rw [hpv, if_neg hxB.1, h.prev x hxA.2 hxB.2, hpvc, if_neg (by tauto)]
  · intro x hxB h2
    rw [List.mem_cons, not_or] at hxB
    rw [hnx, if_neg h2]
    rcases h.fewer x hxB.2 hxB.1 with hz | hz
    · rw [hz, hnxc]
      split
      · exact Or.inr rfl
      · exact Or.inl rfl
    · exact Or.inr hz

end

/-! ## Equivalences with one more pair -/

/-- An equivalence that contains the pairs contains the one that they generate. -/
theorem eqvGen_le {r s : α → α → Prop} {x y : α} (h : ∀ a b, r a b → Relation.EqvGen s a b)
    (hxy : Relation.EqvGen r x y) : Relation.EqvGen s x y :=
  (Relation.EqvGen.is_equivalence s).eqvGen_iff.1 (hxy.mono h)

/-- The least equivalence containing `r` and the pair `(p, q)`. -/
theorem eqvGen_adjoin {r : α → α → Prop} {p q x y : α} :
    Relation.EqvGen (fun a b => r a b ∨ a = p ∧ b = q) x y ↔ Relation.EqvGen r x y ∨
      (Relation.EqvGen r x p ∧ Relation.EqvGen r q y) ∨
      (Relation.EqvGen r x q ∧ Relation.EqvGen r p y) := by
  have heqv := Relation.EqvGen.is_equivalence r
  have hmono : ∀ {a b}, Relation.EqvGen r a b →
      Relation.EqvGen (fun a b => r a b ∨ a = p ∧ b = q) a b := by
    intro a b h
    exact h.mono fun _ _ hab => Or.inl hab
  have hpq : Relation.EqvGen (fun a b => r a b ∨ a = p ∧ b = q) p q :=
    .rel _ _ (Or.inr ⟨rfl, rfl⟩)
  constructor
  · intro h
    induction h with
    | rel a b h =>
      rcases h with h | ⟨rfl, rfl⟩
      · exact Or.inl (.rel _ _ h)
      · exact Or.inr (Or.inl ⟨.refl _, .refl _⟩)
    | refl => exact Or.inl (.refl _)
    | symm a b _ ih =>
      rcases ih with h | ⟨h1, h2⟩ | ⟨h1, h2⟩
      · exact Or.inl (heqv.symm h)
      · exact Or.inr (Or.inr ⟨heqv.symm h2, heqv.symm h1⟩)
      · exact Or.inr (Or.inl ⟨heqv.symm h2, heqv.symm h1⟩)
    | trans a b c _ _ ih1 ih2 =>
      rcases ih1 with h | ⟨h1, h2⟩ | ⟨h1, h2⟩ <;> rcases ih2 with k | ⟨k1, k2⟩ | ⟨k1, k2⟩
      · exact Or.inl (heqv.trans h k)
      · exact Or.inr (Or.inl ⟨heqv.trans h k1, k2⟩)
      · exact Or.inr (Or.inr ⟨heqv.trans h k1, k2⟩)
      · exact Or.inr (Or.inl ⟨h1, heqv.trans h2 k⟩)
      · exact Or.inr (Or.inl ⟨h1, k2⟩)
      · exact Or.inl (heqv.trans h1 k2)
      · exact Or.inr (Or.inr ⟨h1, heqv.trans h2 k⟩)
      · exact Or.inl (heqv.trans h1 k2)
      · exact Or.inr (Or.inr ⟨h1, k2⟩)
  · rintro (h | ⟨h1, h2⟩ | ⟨h1, h2⟩)
    · exact hmono h
    · exact .trans _ _ _ (hmono h1) (.trans _ _ _ hpq (hmono h2))
    · exact .trans _ _ _ (hmono h1) (.trans _ _ _ (.symm _ _ hpq) (hmono h2))

/-- Elements that `r` does not relate are alone in their class. -/
theorem eq_of_eqvGen {r : α → α → Prop} {x y : α} (hl : ∀ b, ¬ r x b) (hr : ∀ a, ¬ r a x)
    (h : Relation.EqvGen r x y) : y = x := by
  suffices hiff : ∀ {a b}, Relation.EqvGen r a b → (a = x ↔ b = x) from (hiff h).1 rfl
  intro a b hab
  induction hab with
  | rel a b hab =>
    constructor
    · rintro rfl; exact absurd hab (hl b)
    · rintro rfl; exact absurd hab (hr a)
  | refl => exact Iff.rfl
  | symm _ _ _ ih => exact ih.symm
  | trans _ _ _ _ _ ih1 ih2 => exact ih1.trans ih2

/-! ## Connectivity across a splice -/

/-- The class of `x` is in `x'` after the splice. -/
def MovesTo (A B : List α) (x x' : α) : Prop :=
  x ∈ A ∧ x' ∈ B ++ A.drop B.length ∨ x ∉ A ∧ x' = x

/-- Connected by links, once `n1` and `n2` count as linked. -/
def Joined (nx : α → Option α) (n1 n2 : α) : α → α → Prop :=
  Relation.EqvGen fun a b => nx a = some b ∨ a = n1 ∧ b = n2

/-- Connected by links. -/
def Linked (nx : α → Option α) : α → α → Prop := Relation.EqvGen fun a b => nx a = some b

theorem Chain.linked {nx : α → Option α} {S : Set α} {a : α} {l : List α} (h : Chain nx S a l) :
    ∀ x ∈ l, Linked nx a x :=
  h.forall_mem (.refl _) fun _ _ hx hxy => .trans _ _ _ hx (.rel _ _ hxy)

theorem Chain.linked_both {nx : α → Option α} {S : Set α} {a x y : α} {l : List α}
    (h : Chain nx S a l) (hx : x ∈ a :: l) (hy : y ∈ a :: l) : Linked nx x y := by
  have hlink : ∀ z ∈ a :: l, Linked nx a z := by
    intro z hz
    rcases List.mem_cons.1 hz with rfl | hz
    · exact .refl _
    · exact h.linked z hz
  exact .trans _ _ _ (.symm _ _ (hlink x hx)) (hlink y hy)

section
variable {nx pv nx' pv' nx'' pv'' : α → Option α} {n1 n2 x y : α} {A B C C' D' : List α}

theorem Joined.rev (hinv : Inverse nx pv) (h : Joined nx n1 n2 x y) : Joined pv n1 n2 x y := by
  induction h with
  | rel a b h =>
    rcases h with h | h
    · exact .symm _ _ (.rel _ _ (Or.inl ((hinv a b).1 h)))
    · exact .rel _ _ (Or.inr h)
  | refl => exact .refl _
  | symm _ _ _ ih => exact .symm _ _ ih
  | trans _ _ _ _ _ ih1 ih2 => exact .trans _ _ _ ih1 ih2

theorem joined_of_mem_chain (n1 : α) {S : Set α} {l : List α} (h : Chain nx S n2 l) :
    ∀ x ∈ l, Joined nx n1 n2 x n2 :=
  h.forall_mem (.refl _) fun _ _ hx hxy => .trans _ _ _ (.symm _ _ (.rel _ _ (Or.inl hxy))) hx

/-- **Connectivity.**  Elements connected before the splice are connected after
    it; an element of `A` is looked for where its merged class now is. -/
theorem Spliced.joined (h : Spliced nx pv nx' pv' n1 n2 A B) (hinv : Inverse nx pv)
    (hA : Chain nx {n1, n2} n1 A) (hB : Chain nx {n1, n2} n2 B) (hxy : Joined nx n1 n2 x y)
    {x' y' : α} (hx' : MovesTo A B x x') (hy' : MovesTo A B y y') : Joined nx' n1 n2 x' y' := by
  -- `A` and what is connected to `n2` after the splice: nothing leads out of it before
  let W := fun z => z ∈ A ∨ Joined nx' n1 n2 z n2
  have hM := joined_of_mem_chain n1 h.chain
  have hBW : ∀ z ∈ B, Joined nx' n1 n2 z n2 := fun z hz => hM z (List.mem_append_left _ hz)
  have hW : ∀ a b, nx a = some b → (W a ∧ W b) ∨ (¬ W a ∧ ¬ W b ∧ nx' a = some b) := by
    intro a b hab
    by_cases h1 : a = n1
    · subst h1
      exact Or.inl ⟨Or.inr (.rel _ _ (Or.inr ⟨rfl, rfl⟩)), Or.inl (hA.mem_start hab)⟩
    by_cases h2 : a = n2
    · subst h2
      exact Or.inl ⟨Or.inr (.refl _), Or.inr (hBW b (hB.mem_start hab))⟩
    have hS : a ∉ ({n1, n2} : Set α) := by simp [h1, h2]
    by_cases haA : a ∈ A
    · exact Or.inl ⟨Or.inl haA, Or.inl (hA.mem_next haA hS hab)⟩
    by_cases haB : a ∈ B
    · exact Or.inl ⟨Or.inr (hBW a haB), Or.inr (hBW b (hB.mem_next haB hS hab))⟩
    have hstay : ∀ {s l}, Chain nx {n1, n2} s l → s ∈ ({n1, n2} : Set α) → b ∈ l → a ∈ l := by
      intro s l hl hs hb
      obtain ⟨c, rfl | ⟨hc, -⟩, hcb⟩ := hl.exists_prev hb
      · exact absurd (hinv.injective hab hcb ▸ hs) hS
      · exact hinv.injective hab hcb ▸ hc
    have hab' : nx' a = some b := (h.next a haA haB h1 h2).trans hab
    by_cases hbW : W b
    · rcases hbW with hb | hb
      · exact absurd (hstay hA (by simp) hb) haA
      · exact Or.inl ⟨Or.inr (.trans _ _ _ (.rel _ _ (Or.inl hab')) hb), Or.inr hb⟩
    · refine Or.inr ⟨fun ha => hbW ?_, hbW, hab'⟩
      rcases ha with ha | ha
      · exact absurd ha haA
      · exact Or.inr (.trans _ _ _ (.symm _ _ (.rel _ _ (Or.inl hab'))) ha)
  have hmain : (W x ∧ W y) ∨ (¬ W x ∧ ¬ W y ∧ Joined nx' n1 n2 x y) := by
    clear hx' hy'
    induction hxy with
    | rel a b hab =>
      rcases hab with hab | ⟨rfl, rfl⟩
      · exact (hW a b hab).imp_right fun ⟨h1, h2, h3⟩ => ⟨h1, h2, .rel _ _ (Or.inl h3)⟩
      · exact Or.inl ⟨Or.inr (.rel _ _ (Or.inr ⟨rfl, rfl⟩)), Or.inr (.refl _)⟩
    | refl a =>
      by_cases ha : W a
      · exact Or.inl ⟨ha, ha⟩
      · exact Or.inr ⟨ha, ha, .refl _⟩
    | symm a b _ ih =>
      exact ih.imp And.symm fun ⟨h1, h2, h3⟩ => ⟨h2, h1, .symm _ _ h3⟩
    | trans a b c _ _ ih1 ih2 =>
      rcases ih1 with ⟨h1, h2⟩ | ⟨h1, h2, h3⟩ <;> rcases ih2 with ⟨k1, k2⟩ | ⟨k1, k2, k3⟩
      · exact Or.inl ⟨h1, k2⟩
      · exact absurd h2 k1
      · exact absurd k1 h2
      · exact Or.inr ⟨h1, k2, .trans _ _ _ h3 k3⟩
  have hnew : ∀ {z z'}, W z → MovesTo A B z z' → Joined nx' n1 n2 z' n2 := by
    rintro z z' hz (⟨-, hz'⟩ | ⟨hzA, rfl⟩)
    · exact hM z' hz'
    · exact hz.resolve_left hzA
  rcases hmain with ⟨hx, hy⟩ | ⟨hx, hy, hxy⟩
  · exact .trans _ _ _ (hnew hx hx') (.symm _ _ (hnew hy hy'))
  · rcases hx' with ⟨hxA, -⟩ | ⟨-, rfl⟩
    · exact absurd (Or.inl hxA) hx
    rcases hy' with ⟨hyA, -⟩ | ⟨-, rfl⟩
    · exact absurd (Or.inl hyA) hy
    exact hxy

/-- Once nothing is linked to `n1`, it connects nothing. -/
theorem Joined.linked (hinv : Inverse nx pv) (h1 : nx n1 = none) (h1' : pv n1 = none)
    (hx : x ≠ n1) (hy : y ≠ n1) (h : Joined nx n1 n2 x y) : Linked nx x y := by
  classical
  have hcollapse : ∀ {x y}, Joined nx n1 n2 x y →
      Linked nx (if x = n1 then n2 else x) (if y = n1 then n2 else y) := by
    intro x y hxy
    induction hxy with
    | rel a b hab =>
      rcases hab with hab | ⟨rfl, rfl⟩
      · have ha : a ≠ n1 := by rintro rfl; rw [h1] at hab; cases hab
        have hb : b ≠ n1 := by rintro rfl; rw [(hinv a b).1 hab] at h1'; cases h1'
        rw [if_neg ha, if_neg hb]; exact .rel _ _ hab
      · rw [if_pos rfl]; split <;> exact .refl _
    | refl => exact .refl _
    | symm _ _ _ ih => exact .symm _ _ ih
    | trans _ _ _ _ _ ih1 ih2 => exact .trans _ _ _ ih1 ih2
  have := hcollapse h
  rwa [if_neg hx, if_neg hy] at this

theorem Joined.of_linked (h : Linked nx n1 n2) (hxy : Joined nx n1 n2 x y) : Linked nx x y := by
  refine eqvGen_le ?_ hxy
  rintro a b (hab | ⟨rfl, rfl⟩)
  · exact .rel _ _ hab
  · exact h

theorem Linked.joined (h : Linked nx x y) : Joined nx n1 n2 x y := by
  refine eqvGen_le ?_ h
  intro a b hab
  exact .rel _ _ (Or.inl hab)

theorem Linked.rev (hinv : Inverse nx pv) (h : Linked nx x y) : Linked pv x y := by
  refine eqvGen_le ?_ h
  intro a b hab
  exact .symm _ _ (.rel _ _ ((hinv a b).1 hab))

/-! ## A second splice, against the direction of the first -/

/-- If the predecessors of `n2` lead back to `n2`, the ring they form holds the
    whole chain after `n2`. -/
theorem chain_subset_ring {M : List α} (hinv : Inverse nx pv) (hM : Chain nx {n2} n2 M)
    (hD : Chain pv {n1, n2} n2 D') (h2 : n2 ∈ D') : n2 ∈ M ∧ ∀ x ∈ M, x ∈ D' := by
  have hfwd : ∀ x ∈ D', ∃ y ∈ D', nx x = some y := by
    intro x hx
    obtain ⟨c, hc, hcx⟩ := hD.exists_prev hx
    refine ⟨c, ?_, (hinv x c).2 hcx⟩
    rcases hc with rfl | ⟨hc, -⟩
    · exact h2
    · exact hc
  have hsub : ∀ x ∈ M, x ∈ D' := hM.forall_mem h2 fun x y hx hxy => by
    obtain ⟨z, hz, hxz⟩ := hfwd x hx
    rw [hxz] at hxy
    exact Option.some.inj hxy ▸ hz
  refine ⟨?_, hsub⟩
  rcases hM.ends with ⟨x, hx, hx2⟩ | ⟨x, hx, hn⟩
  · exact Set.mem_singleton_iff.1 hx2 ▸ hx
  · have hxD : x ∈ D' := by
      rcases hx with rfl | ⟨hx, -⟩
      · exact h2
      · exact hsub x hx
    obtain ⟨y, -, hy⟩ := hfwd x hxD
    rw [hn] at hy; cases hy

section
variable (hn : n1 ≠ n2) (h : Spliced nx pv nx' pv' n1 n2 A B) (hA : Chain nx {n1, n2} n1 A)
  (hB : Chain nx {n1, n2} n2 B) (hD' : Chain pv' {n1, n2} n2 D')
include hn h hA hB hD'

/-- The condition under which the second splice leaves a place for its link:
    where the first one makes a ring through `n2`, that ring is at least as long
    as the predecessors of `n1`. -/
theorem Spliced.prev_bound (hinv : Inverse nx pv) (hC : Chain pv {n1, n2} n1 C)
    (hC' : Chain pv' {n1, n2} n1 C')
    (hringB : n2 ∈ B → A.length ≤ B.length ∧ C.length ≤ B.length)
    (hringA : n2 ∈ A → A.length ≤ B.length ∨ C.length ≤ A.length) (h2 : n2 ∈ D') :
    C'.length ≤ D'.length := by
  obtain ⟨h2M, hsub⟩ := chain_subset_ring h.inverse h.chain hD' h2
  have hlen : (B ++ A.drop B.length).length ≤ D'.length :=
    (List.subperm_of_subset h.chain.nodup hsub).length_le
  have h1M : n1 ∉ B ++ A.drop B.length := fun h1 =>
    hn (hD'.stop_unique (hsub n1 h1) (by simp) h2 (by simp))
  have h1B : n1 ∉ B := fun h => h1M (List.mem_append_left _ h)
  have hleave : ∀ {s l z w}, Chain nx {n1, n2} s l → n1 ∉ l → (w = n1 ∨ w ∉ l) →
      pv w = some z → z ∈ ({n1, n2} : Set α) ∨ z ∉ l := by
    intro s l z w hl h1l hw hzw
    by_cases hzS : z ∈ ({n1, n2} : Set α)
    · exact Or.inl hzS
    · refine Or.inr fun hz => ?_
      have hwl := hl.mem_next hz hzS ((hinv z w).2 hzw)
      rcases hw with rfl | hw
      · exact h1l hwl
      · exact hw hwl
  -- the chain before `n1` is untouched, unless `n1` itself was merged away
  have hCC : n1 ∉ A → C' = C := by
    intro h1A
    have hout : ∀ x ∈ C, x ∈ ({n1, n2} : Set α) ∨ x ∉ A ∧ x ∉ B := by
      refine hC.forall_mem_of_step (fun b hb => ?_) fun x y hxS hx hxy => ?_
      · rcases hleave hA h1A (Or.inl rfl) hb with hb' | hbA
        · exact Or.inl hb'
        · exact (hleave hB h1B (Or.inl rfl) hb).imp_right fun hbB => ⟨hbA, hbB⟩
      · obtain ⟨hxA, hxB⟩ := hx.resolve_left hxS
        rcases hleave hA h1A (Or.inr hxA) hxy with hy | hyA
        · exact Or.inl hy
        · exact (hleave hB h1B (Or.inr hxB) hxy).imp_right fun hyB => ⟨hyA, hyB⟩
    refine hC'.unique (hC.congr fun x hx => ?_)
    rcases hx with rfl | ⟨hx, hxS⟩
    · exact h.prev x h1A h1B
    · exact h.prev x ((hout x hx).resolve_left hxS).1 ((hout x hx).resolve_left hxS).2
  rw [List.length_append, List.length_drop] at hlen
  rcases List.mem_append.1 h2M with h2B | h2A
  · obtain ⟨hAB, hCB⟩ := hringB h2B
    by_cases h1A : n1 ∈ A
    · have hgone := h.gone n1 (by rwa [List.take_of_length_le hAB])
      rw [hC'.unique (.stop hgone)]; simp
    · rw [hCC h1A]; omega
  · have h1A : n1 ∉ A := fun h1A =>
      hn (hA.stop_unique h1A (by simp) (List.mem_of_mem_drop h2A) (by simp))
    rw [hCC h1A]
    rcases hringA (List.mem_of_mem_drop h2A) with hAB | hCA
    · rw [List.drop_eq_nil_of_le hAB] at h2A; simp at h2A
    · omega

/-- What becomes of `n1`: nothing is linked to it any more, and neither splice
    merged anything into it; or it still lies on the chain of `n2`. -/
theorem Spliced.n1_left (hC' : Chain pv' {n1, n2} n1 C')
    (h2 : Spliced pv' nx' pv'' nx'' n1 n2 C' D')
    (hback : n1 ∈ B → A.length < B.length ∨ n2 ∈ A ∧ B.length < A.length) :
    (nx'' n1 = none ∧ pv'' n1 = none ∧ n1 ∉ B.take A.length ∧ n1 ∉ D') ∨ Linked pv'' n1 n2 := by
  by_cases hcase : n1 ∈ B ∧ ¬ A.length < B.length
  · -- `n1` and `n2` are on one ring, and the predecessors of `n2` lead to `n1`
    obtain ⟨h1B, hlt⟩ := hcase
    obtain ⟨h2A, hBA⟩ := (hback h1B).resolve_left hlt
    have h2M : n2 ∈ B ++ A.drop B.length := by
      obtain ⟨l, rfl, -⟩ := hA.mem_stop h2A (by simp)
      rw [List.length_append, List.length_singleton] at hBA
      rw [List.drop_append_of_le_length (by omega)]
      simp
    have hring : ∀ x ∈ B ++ A.drop B.length, ∃ c ∈ B ++ A.drop B.length, pv' x = some c := by
      intro x hx
      obtain ⟨c, hc, hcx⟩ := h.chain.exists_prev hx
      refine ⟨c, ?_, (h.inverse c x).1 hcx⟩
      rcases hc with rfl | ⟨hc, -⟩
      · exact h2M
      · exact hc
    have hD : ∀ x ∈ D', x ∈ B ++ A.drop B.length := hD'.forall_mem h2M fun x y hx hxy => by
      obtain ⟨c, hc, hcx⟩ := hring x hx
      rw [hcx] at hxy
      exact Option.some.inj hxy ▸ hc
    have h1D : n1 ∈ D' := by
      rcases hD'.ends with ⟨x, hx, rfl | rfl⟩ | ⟨x, hx, hnone⟩
      · exact hx
      · exact (chain_subset_ring h.inverse h.chain hD' hx).2 n1 (List.mem_append_left _ h1B)
      · obtain ⟨c, -, hc⟩ := hring x (by
          rcases hx with rfl | ⟨hx, -⟩
          · exact h2M
          · exact hD x hx)
        rw [hnone] at hc; cases hc
    refine Or.inr (h2.chain.forall_mem (P := fun z => Linked pv'' z n2) (.refl _)
      (fun x y hx hxy => .trans _ _ _ (.symm _ _ (.rel _ _ hxy)) hx) n1 ?_)
    exact List.mem_append_left _ h1D
  · have hfresh : nx' n1 = none ∧ n1 ∉ B.take A.length := by
      by_cases h1B : n1 ∈ B
      · have hlt : A.length < B.length := by tauto
        have hchain := h.chain
        obtain ⟨l, rfl, hl⟩ := hB.mem_stop h1B (by simp)
        rw [List.length_append, List.length_singleton] at hlt
        rw [List.drop_eq_nil_of_le (by simp; omega), List.append_nil] at hchain
        refine ⟨hchain.next_last (by simpa using hn), ?_⟩
        rw [List.take_append_of_le_length (by omega)]
        exact fun hmem => hl n1 (List.mem_of_mem_take hmem) (by simp)
      · exact ⟨h.spent h1B, fun hmem => h1B (List.mem_of_mem_take hmem)⟩
    have hout : ∀ {s l}, Chain pv' {n1, n2} s l → n1 ∉ l :=
      fun hl => hl.head_not_mem h.inverse.symm hfresh.1
    refine Or.inl ⟨?_, h2.spent (hout hD'), hfresh.2, hout hD'⟩
    rw [h2.prev n1 (hout hC') (hout hD')]; exact hfresh.1

end

end

end TFA.Links
