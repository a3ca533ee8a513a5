/-
  Depth-first walks over a graph with a set of visited nodes.

  A walk answers whether all that a node leads to is well, and collects values on
  the way.  A node is refused (`stop`), decided on the spot, or else it is well if its
  children are (`step`).  A visited node counts as well.  In the precise mode
  the walk ends at the first child that is not well; else it goes on, and the
  answers of children that do not count are dropped.

  * the fuel of a walk that covers the nodes not yet visited gives the result that
    any more fuel gives (`run_eq_run`);
  * a precise walk that finds all well is a walk of the other mode
    (`run_of_precise`);
  * `Ends` is the recursion without a fuel; in a finite graph it comes to an end
    (`ends_run`);
  * what a precise walk says to be well is well: everything that can be reached
    (`good_of_reaches`).
-/
import Mathlib.Data.Finset.Card
import Mathlib.Logic.Relation

namespace TFA

/-- What a walk does at a node. -/
structure Walk (α β : Type*) where
  stop : α → Bool
  /-- the answer with what is found, or the children and whether their answers count -/
  step : α → Bool × List β ⊕ List (α × Bool)

namespace Walk

variable {α β : Type*}

/-- The collected values and the visited nodes. -/
abbrev State (α β : Type*) := List β × Finset α

/-- Walk through children, in order. -/
def all (precise : Bool) (rec : α → State α β → Bool × State α β) :
    List (α × Bool) → State α β → Bool × State α β
  | [], s => (true, s)
  | (c, counts) :: cs, s =>
    match rec c s with
    | (true, s) => all precise rec cs s
    | (false, s) =>
      if precise then (false, s)
      else ((all precise rec cs s).1 && !counts, (all precise rec cs s).2)

variable [DecidableEq α]

/-- The walk. -/
def run (W : Walk α β) (precise : Bool) : ℕ → α → State α β → Bool × State α β
  | 0, _, s => (false, s)
  | fuel + 1, a, s =>
    if W.stop a then (false, s)
    else if a ∈ s.2 then (true, s)
    else
      match W.step a with
      | .inl (result, found) => (result, s.1 ++ found, insert a s.2)
      | .inr cs => all precise (W.run precise fuel) cs (s.1, insert a s.2)

section
variable {W : Walk α β} {precise : Bool} {rec rec' : α → State α β → Bool × State α β}
  {cs : List (α × Bool)} {s : State α β}

/-! ## Visited nodes stay visited -/

omit [DecidableEq α] in
theorem visited_subset_all (h : ∀ c s, s.2 ⊆ (rec c s).2.2) : s.2 ⊆ (all precise rec cs s).2.2 := by
  induction cs generalizing s with
  | nil => exact subset_rfl
  | cons c cs ih =>
    obtain ⟨c, counts⟩ := c
    have hc := h c s
    unfold all
    split
    case h_1 s' heq =>
      rw [heq] at hc
      exact hc.trans ih
    case h_2 s' heq =>
      rw [heq] at hc
      split
      · exact hc
      · exact hc.trans ih

theorem visited_subset_run (fuel : ℕ) (a : α) (s : State α β) :
    s.2 ⊆ (W.run precise fuel a s).2.2 := by
  induction fuel generalizing a s with
  | zero => exact subset_rfl
  | succ fuel ih =>
    unfold run
    split_ifs
    · exact subset_rfl
    · exact subset_rfl
    · split
      · exact Finset.subset_insert _ _
      · exact (Finset.subset_insert a s.2).trans (visited_subset_all (s := (s.1, _)) ih)

/-! ## Fuel -/

omit [DecidableEq α] in
/-- Walks that agree on the children, from any state with more visited nodes, go
    through them alike. -/
theorem all_congr (hrec : ∀ c s, s.2 ⊆ (rec c s).2.2)
    (h : ∀ c ∈ cs, ∀ s' : State α β, s.2 ⊆ s'.2 → rec c.1 s' = rec' c.1 s') :
    all precise rec cs s = all precise rec' cs s := by
  induction cs generalizing s with
  | nil => rfl
  | cons c cs ih =>
    have hc := h c (by simp) s subset_rfl
    have hcs : all precise rec cs (rec c.1 s).2 = all precise rec' cs (rec c.1 s).2 := by
      refine ih fun c' hc' s' hs' => h c' (List.mem_cons_of_mem _ hc') s' ?_
      exact (hrec c.1 s).trans hs'
    obtain ⟨c, counts⟩ := c
    simp only [all, ← hc]
    generalize rec c s = r at hcs
    obtain ⟨b, s'⟩ := r
    cases b
    · simp only [hcs]
    · exact hcs

/-- One more node is visited. -/
theorem card_unvisited_lt {U V V' : Finset α} {a : α} (ha : a ∈ U) (hvis : a ∉ V)
    (h : insert a V ⊆ V') : (U \ V').card < (U \ V).card := by
  refine Finset.card_lt_card (Finset.ssubset_iff_of_subset ?_ |>.2 ⟨a, ?_, ?_⟩)
  · exact Finset.sdiff_subset_sdiff subset_rfl ((Finset.subset_insert a V).trans h)
  · simp [ha, hvis]
  · simp [h (Finset.mem_insert_self a V)]

/-- **Fuel.**  A walk in a set that is closed under children needs no more fuel than
    there are nodes not yet visited. -/
theorem run_eq_run {U : Finset α} (hU : ∀ a ∈ U, ∀ cs, W.step a = .inr cs → ∀ c ∈ cs, c.1 ∈ U)
    {a : α} (ha : a ∈ U) {fuel fuel' : ℕ} (h : (U \ s.2).card < fuel)
    (h' : (U \ s.2).card < fuel') :
    W.run precise fuel a s = W.run precise fuel' a s := by
  induction fuel generalizing a s fuel' with
  | zero => omega
  | succ fuel ih =>
    cases fuel' with
    | zero => omega
    | succ fuel' =>
      unfold run
      split_ifs with hstop hvis
      · rfl
      · rfl
      · cases hstep : W.step a with
        | inl r => rfl
        | inr cs =>
          refine all_congr (visited_subset_run fuel) ?_
          intro c hc s' hs'
          have hlt := card_unvisited_lt ha hvis hs'
          exact ih (hU a ha cs hstep c hc) (by omega) (by omega)

/-! ## What is found -/

omit [DecidableEq α] in
theorem found_all {Q : β → Prop} (h : ∀ c s, (∀ b ∈ s.1, Q b) → ∀ b ∈ (rec c s).2.1, Q b)
    (hs : ∀ b ∈ s.1, Q b) : ∀ b ∈ (all precise rec cs s).2.1, Q b := by
  induction cs generalizing s with
  | nil => exact hs
  | cons c cs ih =>
    obtain ⟨c, counts⟩ := c
    have hc := h c s hs
    unfold all
    split
    case h_1 s' heq =>
      rw [heq] at hc
      exact ih hc
    case h_2 s' heq =>
      rw [heq] at hc
      split
      · exact hc
      · exact ih hc

/-- What every step finds, a walk finds. -/
theorem found_run {Q : β → Prop} (h : ∀ a r, W.step a = .inl r → ∀ b ∈ r.2, Q b) (fuel : ℕ)
    (a : α) (s : State α β) (hs : ∀ b ∈ s.1, Q b) : ∀ b ∈ (W.run precise fuel a s).2.1, Q b := by
  induction fuel generalizing a s with
  | zero => exact hs
  | succ fuel ih =>
    unfold run
    split_ifs
    · exact hs
    · exact hs
    · cases hstep : W.step a with
      | inl r =>
        intro b hb
        rcases List.mem_append.1 hb with hb | hb
        · exact hs b hb
        · exact h a r hstep b hb
      | inr cs => exact found_all (s := (s.1, _)) ih hs

/-! ## The two modes -/

omit [DecidableEq α] in
theorem all_of_precise (h : ∀ c s, (rec c s).1 = true → rec' c s = rec c s)
    (hall : (all true rec cs s).1 = true) : all false rec' cs s = all true rec cs s := by
  induction cs generalizing s with
  | nil => rfl
  | cons c cs ih =>
    obtain ⟨c, counts⟩ := c
    have hc := h c s
    simp only [all] at hall ⊢
    generalize rec c s = r at hc hall
    obtain ⟨b, s'⟩ := r
    cases b
    · cases hall
    · rw [hc rfl]
      exact ih hall

/-- A precise walk that finds all well does what the other mode does. -/
theorem run_of_precise (fuel : ℕ) (a : α) (s : State α β) (h : (W.run true fuel a s).1 = true) :
    W.run false fuel a s = W.run true fuel a s := by
  induction fuel generalizing a s with
  | zero => rfl
  | succ fuel ih =>
    unfold run at h ⊢
    split_ifs at h ⊢ with hstop hvis
    · rfl
    · cases hstep : W.step a with
      | inl r => rfl
      | inr cs =>
        rw [hstep] at h
        exact all_of_precise ih h

end

/-! ## The recursion -/

mutual

/-- A walk comes to an end, with an answer and a state. -/
inductive Ends (W : Walk α β) (precise : Bool) : α → State α β → Bool × State α β → Prop
  | refused {a s} (hstop : W.stop a = true) : Ends W precise a s (false, s)
  | visited {a s} (hstop : W.stop a = false) (hvis : a ∈ s.2) : Ends W precise a s (true, s)
  | decided {a s result found} (hstop : W.stop a = false) (hvis : a ∉ s.2)
      (hstep : W.step a = .inl (result, found)) :
      Ends W precise a s (result, s.1 ++ found, insert a s.2)
  | children {a s cs r} (hstop : W.stop a = false) (hvis : a ∉ s.2)
      (hstep : W.step a = .inr cs) (h : EndsAll W precise cs (s.1, insert a s.2) r) :
      Ends W precise a s r

/-- A walk through children comes to an end. -/
inductive EndsAll (W : Walk α β) (precise : Bool) :
    List (α × Bool) → State α β → Bool × State α β → Prop
  | nil {s} : EndsAll W precise [] s (true, s)
  | good {c counts cs s s' r} (hc : Ends W precise c s (true, s'))
      (hcs : EndsAll W precise cs s' r) : EndsAll W precise ((c, counts) :: cs) s r
  | bad {c counts cs s s'} (hprecise : precise = true) (hc : Ends W precise c s (false, s')) :
      EndsAll W precise ((c, counts) :: cs) s (false, s')
  | goesOn {c counts cs s s' r} (hprecise : precise = false) (hc : Ends W precise c s (false, s'))
      (hcs : EndsAll W precise cs s' r) :
      EndsAll W precise ((c, counts) :: cs) s (r.1 && !counts, r.2)

end

section
variable {W : Walk α β} {precise : Bool} {cs : List (α × Bool)} {s s' s'' : State α β} {a b : α}

/-- The walk through children ends, if the walk of each child does from any state with
    more visited nodes. -/
theorem endsAll_all {fuel : ℕ}
    (h : ∀ c ∈ cs, ∀ s' : State α β, s.2 ⊆ s'.2 →
      Ends W precise c.1 s' (W.run precise fuel c.1 s')) :
    EndsAll W precise cs s (all precise (W.run precise fuel) cs s) := by
  induction cs generalizing s with
  | nil => exact .nil
  | cons c cs ih =>
    obtain ⟨c, counts⟩ := c
    have hc := h (c, counts) (by simp) s subset_rfl
    have hvis : s.2 ⊆ (W.run precise fuel c s).2.2 := visited_subset_run fuel c s
    have hcs : EndsAll W precise cs (W.run precise fuel c s).2
        (all precise (W.run precise fuel) cs (W.run precise fuel c s).2) := by
      refine ih fun c' hc' s' hs' => h c' (List.mem_cons_of_mem _ hc') s' ?_
      exact hvis.trans hs'
    unfold all
    generalize W.run precise fuel c s = r at hc hcs
    obtain ⟨result, s'⟩ := r
    cases result with
    | true => exact .good hc hcs
    | false =>
      cases precise with
      | true => exact .bad rfl hc
      | false => exact .goesOn rfl hc hcs

/-- **Termination.**  In a finite set of nodes that is closed under children the
    recursion ends, with what the walk gives for enough fuel. -/
theorem ends_run {U : Finset α} (hU : ∀ a ∈ U, ∀ cs, W.step a = .inr cs → ∀ c ∈ cs, c.1 ∈ U)
    (ha : a ∈ U) {fuel : ℕ} (h : (U \ s.2).card < fuel) :
    Ends W precise a s (W.run precise fuel a s) := by
  induction fuel generalizing a s with
  | zero => omega
  | succ fuel ih =>
    unfold run
    split_ifs with hstop hvis
    · exact .refused hstop
    · exact .visited (by simpa using hstop) hvis
    · rw [Bool.not_eq_true] at hstop
      cases hstep : W.step a with
      | inl r => exact .decided hstop hvis hstep
      | inr cs =>
        refine .children hstop hvis hstep (endsAll_all ?_)
        intro c hc s' hs'
        refine ih (hU a ha cs hstep c hc) ?_
        have hlt := card_unvisited_lt ha hvis hs'
        omega

/-! ## What a precise walk vouches for -/

variable (W) in
/-- The walk goes on from `a` to `c`. -/
def Child (a c : α) : Prop := ∃ cs, W.step a = .inr cs ∧ c ∈ cs.map Prod.fst

variable (W) in
/-- A node is well by itself, with its findings among `found`. -/
def Good (found : List β) (a : α) : Prop :=
  W.stop a = false ∧ ∀ r, W.step a = .inl r → r.1 = true ∧ r.2 ⊆ found

omit [DecidableEq α] in
theorem Good.mono {found found' : List β} (h : W.Good found a) (hsub : found ⊆ found') :
    W.Good found' a :=
  ⟨h.1, fun r hr => ⟨(h.2 r hr).1, List.Subset.trans (h.2 r hr).2 hsub⟩⟩

variable (W) in
/-- A part of a walk that has found all well: the nodes that it has visited are well, and
    so are their children, as far as they have been visited now. -/
structure Explored (s s' : State α β) : Prop where
  found : s.1 ⊆ s'.1
  visited : s.2 ⊆ s'.2
  good : ∀ a ∈ s'.2, a ∉ s.2 → W.Good s'.1 a ∧ ∀ c, W.Child a c → c ∈ s'.2

omit [DecidableEq α] in
theorem Explored.refl (s : State α β) : W.Explored s s :=
  ⟨List.Subset.refl _, subset_rfl, fun _ ha hn => absurd ha hn⟩

theorem Explored.trans (h : W.Explored s s') (h' : W.Explored s' s'') : W.Explored s s'' := by
  refine ⟨List.Subset.trans h.found h'.found, h.visited.trans h'.visited, ?_⟩
  intro a ha hn
  by_cases ha' : a ∈ s'.2
  · obtain ⟨hgood, hchild⟩ := h.good a ha' hn
    exact ⟨hgood.mono h'.found, fun c hc => h'.visited (hchild c hc)⟩
  · exact h'.good a ha ha'

theorem explored_all {fuel : ℕ}
    (h : ∀ c s, (W.run true fuel c s).1 = true →
      W.Explored s (W.run true fuel c s).2 ∧ c ∈ (W.run true fuel c s).2.2)
    (hall : (all true (W.run true fuel) cs s).1 = true) :
    W.Explored s (all true (W.run true fuel) cs s).2 ∧
      ∀ c ∈ cs.map Prod.fst, c ∈ (all true (W.run true fuel) cs s).2.2 := by
  induction cs generalizing s with
  | nil => exact ⟨.refl s, by simp⟩
  | cons c cs ih =>
    obtain ⟨c, counts⟩ := c
    have hc := h c s
    unfold all at hall ⊢
    generalize W.run true fuel c s = r at hc hall
    obtain ⟨result, s'⟩ := r
    cases result with
    | false => cases hall
    | true =>
      obtain ⟨hexp, hmem⟩ := hc rfl
      obtain ⟨hexp', hmem'⟩ := ih hall
      refine ⟨hexp.trans hexp', ?_⟩
      intro c' hc'
      rcases List.mem_cons.1 hc' with rfl | hc'
      · exact hexp'.visited hmem
      · exact hmem' c' hc'

/-- **The invariant of the search.**  A node that is visited on the way, and counts as
    well for that, has its own turn to be refused. -/
theorem explored_run (fuel : ℕ) (a : α) (s : State α β) (h : (W.run true fuel a s).1 = true) :
    W.Explored s (W.run true fuel a s).2 ∧ a ∈ (W.run true fuel a s).2.2 := by
  induction fuel generalizing a s with
  | zero => cases h
  | succ fuel ih =>
    unfold run at h ⊢
    split_ifs at h ⊢ with hstop hvis
    · exact ⟨.refl s, hvis⟩
    · rw [Bool.not_eq_true] at hstop
      cases hstep : W.step a with
      | inl r =>
        rw [hstep] at h
        refine ⟨⟨List.subset_append_left _ _, Finset.subset_insert _ _, ?_⟩,
          Finset.mem_insert_self _ _⟩
        intro b hb hn
        obtain rfl := (Finset.mem_insert.1 hb).resolve_right hn
        refine ⟨⟨hstop, ?_⟩, ?_⟩
        · intro r' hr'
          obtain rfl := Sum.inl.inj (hstep.symm.trans hr')
          exact ⟨h, List.subset_append_right _ _⟩
        · rintro c ⟨cs, hcs, -⟩
          rw [hstep] at hcs
          cases hcs
      | inr cs =>
        rw [hstep] at h
        obtain ⟨hexp, hchildren⟩ := explored_all ih h
        have hmem := hexp.visited (Finset.mem_insert_self a s.2)
        refine ⟨⟨hexp.found, (Finset.subset_insert _ _).trans hexp.visited, ?_⟩, hmem⟩
        intro b hb hn
        by_cases hba : b = a
        · subst hba
          refine ⟨⟨hstop, ?_⟩, ?_⟩
          · intro r hr
            rw [hstep] at hr
            cases hr
          · rintro c ⟨cs', hcs', hc⟩
            obtain rfl := Sum.inr.inj (hstep.symm.trans hcs')
            exact hchildren c hc
        · exact hexp.good b hb (by simp [hba, hn])

/-- **What is vouched for.**  If a precise walk from the empty state finds all well, every
    node that can be reached is well, and its findings are among those of the walk. -/
theorem good_of_reaches {fuel : ℕ} (h : (W.run true fuel a ([], ∅)).1 = true)
    (hab : Relation.ReflTransGen W.Child a b) : W.Good (W.run true fuel a ([], ∅)).2.1 b := by
  obtain ⟨hexp, ha⟩ := explored_run fuel a ([], ∅) h
  have hb : b ∈ (W.run true fuel a ([], ∅)).2.2 := by
    induction hab with
    | refl => exact ha
    | tail _ hstep ih => exact (hexp.good _ ih (Finset.notMem_empty _)).2 _ hstep
  exact (hexp.good b hb (Finset.notMem_empty _)).1

end

end Walk

end TFA
