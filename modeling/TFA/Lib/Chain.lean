/-
  Chains of successors.

  A partial function gives each element at most one successor; its chain ends or goes on for
  ever.

  * `steps` takes a number of steps, `follow` lists the chain, with fuel;
  * `exists_follow_iff`: a chain through finitely many elements ends exactly if it never
    comes back to one of them;
  * `parted_iff`: for two such functions that agree where both are defined, an element that
    the one chain reaches and the other one does not lies behind a place where only the one
    goes on.
-/
import Mathlib.Logic.Relation
import Mathlib.Order.Preorder.Finite

namespace TFA.Chain

variable {α : Type*} (next : α → Option α)

/-- `b` is the successor of `a`. -/
def Next (a b : α) : Prop := next a = some b

/-- The chain of `a` reaches `b`. -/
abbrev Reaches : α → α → Prop := Relation.ReflTransGen (Next next)

/-- The chain of `a` comes back to one of its elements. -/
def Loops (a : α) : Prop := ∃ b, Reaches next a b ∧ Relation.TransGen (Next next) b b

/-- A number of steps. -/
def steps : ℕ → α → Option α
  | 0, a => some a
  | n + 1, a => (next a).bind (steps n)

/-- The chain of an element, itself first. -/
def follow : ℕ → α → Option (List α)
  | 0, _ => none
  | fuel + 1, a =>
    match next a with
    | none => some [a]
    | some b => (follow fuel b).map (a :: ·)

section
variable {next} {a b : α}

theorem steps_succ (n : ℕ) (a : α) : steps next (n + 1) a = (steps next n a).bind next := by
  induction n generalizing a with
  | zero => simp [steps]
  | succ n ih =>
    rw [steps]
    cases ha : next a with
    | none => simp [steps, ha]
    | some b =>
      rw [Option.bind_some, ih]
      simp [steps, ha]

theorem follow_isSome_iff {fuel : ℕ} : (follow next fuel a).isSome ↔ steps next fuel a = none := by
  induction fuel generalizing a with
  | zero => simp [follow, steps]
  | succ fuel ih =>
    unfold follow steps
    cases next a with
    | none => simp
    | some b => simpa using ih

theorem reaches_of_steps {n : ℕ} (h : steps next n a = some b) : Reaches next a b := by
  induction n generalizing b with
  | zero =>
    cases h
    exact .refl
  | succ n ih =>
    rw [steps_succ] at h
    obtain ⟨c, hc, hb⟩ := Option.bind_eq_some_iff.1 h
    exact (ih hc).tail hb

/-- What comes after an element on a loop is on the loop. -/
theorem exists_next_of_loops (h : Loops next a) : ∃ b, next a = some b ∧ Loops next b := by
  obtain ⟨c, hreach, hloop⟩ := h
  rcases Relation.ReflTransGen.cases_head hreach with rfl | ⟨b, hb, hbc⟩
  · obtain ⟨b, hb, hba⟩ := Relation.TransGen.head'_iff.1 hloop
    exact ⟨b, hb, a, hba, hloop⟩
  · exact ⟨b, hb, c, hbc, hloop⟩

/-- A chain that comes back does not end. -/
theorem Loops.steps_ne_none (h : Loops next a) (n : ℕ) : steps next n a ≠ none := by
  induction n generalizing a with
  | zero => exact Option.some_ne_none a
  | succ n ih =>
    obtain ⟨b, hb, hloop⟩ := exists_next_of_loops h
    rw [steps, hb]
    exact ih hloop

theorem transGen_of_steps {n k : ℕ} {f : ℕ → α} (hf : ∀ n, steps next n a = some (f n)) :
    Relation.TransGen (Next next) (f n) (f (n + k + 1)) := by
  have hstep : ∀ n, Next next (f n) (f (n + 1)) := by
    intro n
    have hn : steps next (n + 1) a = (steps next n a).bind next := steps_succ n a
    rw [hf, hf] at hn
    exact hn.symm
  induction k with
  | zero => exact .single (hstep n)
  | succ k ih => exact ih.tail (hstep (n + k + 1))

/-- A chain through finitely many elements that does not end comes back. -/
theorem loops_of_steps {S : Set α} (hS : S.Finite)
    (hin : ∀ b, Reaches next a b → next b ≠ none → b ∈ S)
    (h : ∀ n, steps next n a ≠ none) : Loops next a := by
  choose f hf using fun n => Option.ne_none_iff_exists'.1 (h n)
  have hmem : ∀ n, f n ∈ S := by
    intro n
    refine hin (f n) (reaches_of_steps (hf n)) ?_
    have hn := h (n + 1)
    rwa [steps_succ, hf] at hn
  obtain ⟨i, j, hlt, heq⟩ := Set.Finite.exists_lt_map_eq_of_forall_mem hmem hS
  obtain ⟨k, rfl⟩ := Nat.exists_eq_add_of_lt hlt
  have hgen : Relation.TransGen (Next next) (f i) (f (i + k + 1)) := transGen_of_steps hf
  rw [← heq] at hgen
  exact ⟨f i, reaches_of_steps (hf i), hgen⟩

/-- **Chains that end.** -/
theorem exists_follow_iff {S : Set α} (hS : S.Finite)
    (hin : ∀ b, Reaches next a b → next b ≠ none → b ∈ S) :
    (∃ fuel, (follow next fuel a).isSome) ↔ ¬ Loops next a := by
  simp only [follow_isSome_iff]
  constructor
  · rintro ⟨n, hn⟩ hloop
    exact hloop.steps_ne_none n hn
  · intro hno
    by_contra hall
    push Not at hall
    exact hno (loops_of_steps hS hin hall)

/-- More fuel does not hurt. -/
theorem follow_mono {fuel fuel' : ℕ} (h : fuel ≤ fuel') (hs : (follow next fuel a).isSome) :
    (follow next fuel' a).isSome := by
  rw [follow_isSome_iff] at hs ⊢
  induction h with
  | refl => exact hs
  | step _ ih => rw [steps_succ, ih, Option.bind_none]

end

/-! ## Two chains -/

section
variable {f g : α → Option α} {a b : α}

/-- Where two functions agree, and the chains of the first one do not come back, the first
    chain reaches what the second one does not exactly behind a place where only the first
    one goes on. -/
theorem parted_iff {I : α → Prop} (hI : ∀ p q, I p → f p = some q → I q)
    (hagree : ∀ p q q', I p → f p = some q → g p = some q' → q = q')
    (hloop : ∀ p, ¬ Relation.TransGen (Next f) p p) (ha : I a) :
    Reaches f a b ∧ ¬ Reaches g a b ↔
      ∃ p, Reaches f a p ∧ g p = none ∧ Relation.TransGen (Next f) p b := by
  constructor
  · rintro ⟨hf, hg⟩
    induction hf using Relation.ReflTransGen.head_induction_on with
    | refl => exact absurd .refl hg
    | @head a c hac hcb ih =>
      cases hga : g a with
      | none => exact ⟨a, .refl, hga, .head' hac hcb⟩
      | some c' =>
        have heq := hagree a c c' ha hac hga
        subst heq
        obtain ⟨p, hp, hgp, hpb⟩ := ih (hI a c ha hac) fun hcb => hg (.head hga hcb)
        exact ⟨p, .head hac hp, hgp, hpb⟩
  · rintro ⟨p, hap, hgp, hpb⟩
    refine ⟨hap.trans hpb.to_reflTransGen, fun hg => ?_⟩
    induction hap using Relation.ReflTransGen.head_induction_on with
    | refl =>
      rcases Relation.ReflTransGen.cases_head hg with rfl | ⟨c, hc, -⟩
      · exact hloop _ hpb
      · rw [Next, hgp] at hc
        cases hc
    | @head a c hac hcp ih =>
      rcases Relation.ReflTransGen.cases_head hg with rfl | ⟨c', hc', hc'b⟩
      · exact hloop _ ((Relation.TransGen.head' hac hcp).trans hpb)
      · have heq := hagree a c c' ha hac hc'
        subst heq
        exact ih (hI a c ha hac) hc'b

/-- What holds of an element and goes to its successor holds along the chain. -/
theorem Reaches.invariant {I : α → Prop} (hI : ∀ p q, I p → f p = some q → I q) (ha : I a)
    (h : Reaches f a b) : I b := by
  induction h with
  | refl => exact ha
  | tail _ hstep ih => exact hI _ _ ih hstep

/-- A number that goes down at every step goes down along a chain. -/
theorem lt_of_transGen (rank : α → ℕ) (hrank : ∀ p q, f p = some q → rank q < rank p)
    (h : Relation.TransGen (Next f) a b) : rank b < rank a := by
  induction h with
  | single h => exact hrank _ _ h
  | tail _ h ih => exact (hrank _ _ h).trans ih

theorem eq_or_lt_of_reaches (rank : α → ℕ) (hrank : ∀ p q, f p = some q → rank q < rank p)
    (h : Reaches f a b) : a = b ∨ rank b < rank a := by
  rcases Relation.reflTransGen_iff_eq_or_transGen.1 h with heq | hgen
  · exact Or.inl heq.symm
  · exact Or.inr (lt_of_transGen rank hrank hgen)

end

end TFA.Chain
