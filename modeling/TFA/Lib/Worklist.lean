/-
  Breadth-first worklists.

  A worklist pops the front of a queue, drops what it has visited before, and
  otherwise marks the popped element and appends its successors to the queue.

  * `bfs` runs the worklist to its end and returns the visited set, `bfsOrder`
    lists what is visited on the way, `bfsFind` stops at the first popped element
    that satisfies a test, `collect` gathers what the successors of popped
    elements hold and stops at a forbidden one;
  * all take fuel; `Enough` says that the fuel covers the queue and every
    successor list still to be appended, and `enough_start` gives such a fuel
    for a finite universe that the successors never leave, `enough_targets` one for
    successors that are listed as pairs; `Enough.drains` is what it is enough for;
  * `mem_bfs_iff_exists`: with enough fuel the visited set is exactly what the
    queue reaches; `bfsFind_iff`: with enough fuel the test succeeds if and only if it
    holds of something that the queue reaches; `collect_cases`: with enough fuel
    the loop either stops at a forbidden element that the start reaches, or has
    met none and gathered everything;
  * `collectS_eq`: if the visits leave traces in a state that later visits do not
    see, the loop leaves those of what it meets up to the first forbidden element.
-/
import Mathlib.Data.Finset.Card
import Mathlib.Algebra.Order.BigOperators.Group.Finset
import Mathlib.Algebra.BigOperators.Group.Finset.Piecewise
import Mathlib.Algebra.Group.Action.Defs
import Mathlib.Logic.Relation

namespace TFA.Worklist

variable {α : Type*} [DecidableEq α]

/-! ## The two loops -/

/-- The visited set when the queue is empty (or the fuel is). -/
def bfs (next : α → List α) : ℕ → List α → Finset α → Finset α
  | 0, _, vis => vis
  | _ + 1, [], vis => vis
  | fuel + 1, a :: q, vis =>
    if a ∈ vis then bfs next fuel q vis else bfs next fuel (q ++ next a) (insert a vis)

/-- What is visited, in order. -/
def bfsOrder (next : α → List α) : ℕ → List α → Finset α → List α
  | 0, _, _ => []
  | _ + 1, [], _ => []
  | fuel + 1, a :: q, vis =>
    if a ∈ vis then bfsOrder next fuel q vis
    else a :: bfsOrder next fuel (q ++ next a) (insert a vis)

/-- Does the loop pop an element, not visited before, that satisfies `p`? -/
def bfsFind (next : α → List α) (p : α → Bool) : ℕ → List α → Finset α → Bool
  | 0, _, _ => false
  | _ + 1, [], _ => false
  | fuel + 1, a :: q, vis =>
    if a ∈ vis then bfsFind next p fuel q vis
    else if p a then true
    else bfsFind next p fuel (q ++ next a) (insert a vis)

/-- `b` is a successor of `a`. -/
def Step (next : α → List α) (a b : α) : Prop := b ∈ next a

/-- The fuel covers the queue and the successor lists of everything in the
    universe `U` that is not visited yet, and the queue stays in `U`. -/
structure Enough (next : α → List α) (U : Finset α) (fuel : ℕ) (q : List α) (vis : Finset α) :
    Prop where
  queue : ∀ a ∈ q, a ∈ U
  closed : ∀ a ∈ U, ∀ b ∈ next a, b ∈ U
  fuel : q.length + ∑ a ∈ U \ vis, (next a).length < fuel

/-- Something is visited that the queue leads to, in this order, until the queue is empty. -/
inductive Drains (next : α → List α) : List α → Finset α → List α → Prop
  | done {vis} : Drains next [] vis []
  | skip {a q vis l} (ha : a ∈ vis) (h : Drains next q vis l) : Drains next (a :: q) vis l
  | visit {a q vis l} (ha : a ∉ vis) (h : Drains next (q ++ next a) (insert a vis) l) :
      Drains next (a :: q) vis (a :: l)

/-- The second components of the pairs with this first one. -/
def targets (map : List (α × α)) (a : α) : List α := (map.filter (·.1 = a)).map Prod.snd

theorem mem_targets {map : List (α × α)} {a b : α} : b ∈ targets map a ↔ (a, b) ∈ map := by
  simp [targets]

omit [DecidableEq α] in
/-- A relation on keys that mirrors one on what the keys stand for has the same
    chains. -/
theorem transGen_key {β : Type*} {r : α → α → Prop} {s : β → β → Prop} (key : β → α)
    (h : ∀ p a, r (key p) a ↔ ∃ q, s p q ∧ key q = a) (p : β) (a : α) :
    Relation.TransGen r (key p) a ↔ ∃ q, Relation.TransGen s p q ∧ key q = a := by
  constructor
  · intro hr
    induction hr with
    | single hstep =>
      obtain ⟨q, hq, hqa⟩ := (h p _).1 hstep
      exact ⟨q, .single hq, hqa⟩
    | tail _ hstep ih =>
      obtain ⟨q, hq, rfl⟩ := ih
      obtain ⟨q', hq', hqa⟩ := (h q _).1 hstep
      exact ⟨q', .tail hq hq', hqa⟩
  · rintro ⟨q, hq, rfl⟩
    induction hq with
    | single hstep => exact .single ((h p _).2 ⟨_, hstep, rfl⟩)
    | tail _ hstep ih => exact .tail ih ((h _ _).2 ⟨_, hstep, rfl⟩)

section
variable {next : α → List α} {U : Finset α} {fuel : ℕ} {a : α} {q : List α} {vis : Finset α}

theorem Enough.skip (h : Enough next U (fuel + 1) (a :: q) vis) : Enough next U fuel q vis := by
  refine ⟨fun b hb => h.queue b (List.mem_cons_of_mem _ hb), h.closed, ?_⟩
  have := h.fuel
  rw [List.length_cons] at this
  omega

theorem Enough.visit (h : Enough next U (fuel + 1) (a :: q) vis) (ha : a ∉ vis) :
    Enough next U fuel (q ++ next a) (insert a vis) := by
  have haU : a ∈ U := h.queue a (by simp)
  refine ⟨fun b hb => ?_, h.closed, ?_⟩
  · rcases List.mem_append.1 hb with hb | hb
    · exact h.queue b (List.mem_cons_of_mem _ hb)
    · exact h.closed a haU b hb
  · have hsplit : (next a).length + ∑ x ∈ U \ insert a vis, (next x).length =
        ∑ x ∈ U \ vis, (next x).length := by
      rw [Finset.sdiff_insert]
      exact Finset.add_sum_erase _ (fun x => (next x).length) (by simp [haU, ha])
    have := h.fuel
    rw [List.length_cons] at this
    rw [List.length_append]
    omega

/-- A fuel that is enough for a queue of one element. -/
theorem enough_start {k : ℕ} (hk : ∀ a ∈ U, (next a).length ≤ k)
    (hU : ∀ a ∈ U, ∀ b ∈ next a, b ∈ U) (ha : a ∈ U) (hf : U.card * k + 1 < fuel) :
    Enough next U fuel [a] ∅ := by
  refine ⟨by simpa using ha, hU, ?_⟩
  have := Finset.sum_le_card_nsmul U (fun x => (next x).length) k hk
  simp only [List.length_singleton, Finset.sdiff_empty, smul_eq_mul] at this ⊢
  omega

end

/-- Every pair is gone along once. -/
theorem sum_targets_le (map : List (α × α)) (U : Finset α) :
    ∑ a ∈ U, (targets map a).length ≤ map.length := by
  induction map with
  | nil => simp [targets]
  | cons e map ih =>
    have hstep : ∀ a, (targets (e :: map) a).length =
        (targets map a).length + if e.1 = a then 1 else 0 := by
      intro a
      by_cases ha : e.1 = a <;> simp [targets, ha]
    simp only [hstep, Finset.sum_add_distrib, Finset.sum_ite_eq, List.length_cons]
    split <;> omega

/-- A fuel for a search along pairs, which may leave out the successors of some elements. -/
theorem enough_targets {next : α → List α} {map : List (α × α)}
    (h : ∀ a, next a = targets map a ∨ next a = []) (a : α) :
    Enough next (insert a (map.map Prod.snd).toFinset) (map.length + 2) [a] ∅ := by
  refine ⟨by simp, ?_, ?_⟩
  · intro b _ c hc
    have hmem : (b, c) ∈ map := by
      rcases h b with hb | hb <;> rw [hb] at hc
      · exact mem_targets.1 hc
      · simp at hc
    simp only [Finset.mem_insert, List.mem_toFinset, List.mem_map]
    exact Or.inr ⟨(b, c), hmem, rfl⟩
  · have hle : ∑ b ∈ insert a (map.map Prod.snd).toFinset \ ∅, (next b).length ≤ map.length := by
      refine le_trans (Finset.sum_le_sum fun b _ => ?_) (sum_targets_le map _)
      rcases h b with hb | hb <;> simp [hb]
    rw [List.length_singleton]
    omega

/-- With enough fuel the queue runs empty. -/
theorem Enough.drains {next : α → List α} {U : Finset α} {fuel : ℕ} {q : List α} {vis : Finset α}
    (h : Enough next U fuel q vis) : Drains next q vis (bfsOrder next fuel q vis) := by
  induction fuel generalizing q vis with
  | zero => exact absurd h.fuel (by omega)
  | succ fuel ih =>
    cases q with
    | nil => exact .done
    | cons a q =>
      simp only [bfsOrder]
      split
      case isTrue ha => exact .skip ha (ih h.skip)
      case isFalse ha => exact .visit ha (ih (h.visit ha))

/-! ## What the loop visits -/

section
variable {next : α → List α}

theorem subset_bfs (fuel : ℕ) (q : List α) (vis : Finset α) : vis ⊆ bfs next fuel q vis := by
  induction fuel generalizing q vis with
  | zero => exact subset_rfl
  | succ fuel ih =>
    cases q with
    | nil => exact subset_rfl
    | cons a q =>
      simp only [bfs]
      split
      · exact ih q vis
      · exact (Finset.subset_insert a vis).trans (ih _ _)

theorem mem_bfsOrder_or (fuel : ℕ) (q : List α) (vis : Finset α) {b : α} :
    b ∈ vis ∨ b ∈ bfsOrder next fuel q vis ↔ b ∈ bfs next fuel q vis := by
  induction fuel generalizing q vis with
  | zero => simp [bfsOrder, bfs]
  | succ fuel ih =>
    cases q with
    | nil => simp [bfsOrder, bfs]
    | cons a q =>
      simp only [bfsOrder, bfs]
      split
      · exact ih q vis
      · rw [← ih, List.mem_cons, Finset.mem_insert, ← or_assoc, or_comm (a := b ∈ vis)]

/-- Only what the queue reaches is visited. -/
theorem bfs_sound (fuel : ℕ) (q : List α) (vis : Finset α) :
    ∀ b ∈ bfs next fuel q vis, b ∈ vis ∨ ∃ a ∈ q, Relation.ReflTransGen (Step next) a b := by
  induction fuel generalizing q vis with
  | zero => exact fun b hb => Or.inl hb
  | succ fuel ih =>
    cases q with
    | nil => exact fun b hb => Or.inl hb
    | cons a q =>
      intro b hb
      simp only [bfs] at hb
      split at hb
      · rcases ih q vis b hb with h | ⟨c, hc, hcb⟩
        · exact Or.inl h
        · exact Or.inr ⟨c, List.mem_cons_of_mem _ hc, hcb⟩
      · rcases ih _ _ b hb with h | ⟨c, hc, hcb⟩
        · rcases Finset.mem_insert.1 h with rfl | h
          · exact Or.inr ⟨b, by simp, .refl⟩
          · exact Or.inl h
        · rcases List.mem_append.1 hc with hc | hc
          · exact Or.inr ⟨c, List.mem_cons_of_mem _ hc, hcb⟩
          · exact Or.inr ⟨a, by simp, .head hc hcb⟩

/-- The queue is visited, and so are the successors of what the loop visits. -/
theorem bfs_closed {U : Finset α} {fuel : ℕ} {q : List α} {vis : Finset α}
    (h : Enough next U fuel q vis) (hvis : ∀ a ∈ vis, ∀ b ∈ next a, b ∈ vis ∨ b ∈ q) :
    (∀ a ∈ q, a ∈ bfs next fuel q vis) ∧
      ∀ a ∈ bfs next fuel q vis, ∀ b ∈ next a, b ∈ bfs next fuel q vis := by
  induction fuel generalizing q vis with
  | zero => exact absurd h.fuel (by omega)
  | succ fuel ih =>
    cases q with
    | nil =>
      simp only [bfs, List.not_mem_nil, false_imp_iff, implies_true, true_and]
      exact fun a ha b hb => (hvis a ha b hb).resolve_right (by simp)
    | cons a q =>
      simp only [bfs]
      split
      case isTrue ha =>
        have hcl : ∀ c ∈ vis, ∀ b ∈ next c, b ∈ vis ∨ b ∈ q := by
          intro c hc b hb
          rcases hvis c hc b hb with h | h
          · exact Or.inl h
          · rcases List.mem_cons.1 h with rfl | h
            · exact Or.inl ha
            · exact Or.inr h
        obtain ⟨h1, h2⟩ := ih h.skip hcl
        refine ⟨fun c hc => ?_, h2⟩
        rcases List.mem_cons.1 hc with rfl | hc
        · exact subset_bfs _ _ _ ha
        · exact h1 c hc
      case isFalse ha =>
        have hcl : ∀ c ∈ insert a vis, ∀ b ∈ next c, b ∈ insert a vis ∨ b ∈ q ++ next a := by
          intro c hc b hb
          rcases Finset.mem_insert.1 hc with rfl | hc
          · exact Or.inr (List.mem_append_right _ hb)
          · rcases hvis c hc b hb with h | h
            · exact Or.inl (Finset.mem_insert_of_mem h)
            · rcases List.mem_cons.1 h with rfl | h
              · exact Or.inl (Finset.mem_insert_self _ _)
              · exact Or.inr (List.mem_append_left _ h)
        obtain ⟨h1, h2⟩ := ih (h.visit ha) hcl
        refine ⟨fun c hc => ?_, h2⟩
        rcases List.mem_cons.1 hc with rfl | hc
        · exact subset_bfs _ _ _ (Finset.mem_insert_self _ _)
        · exact h1 c (List.mem_append_left _ hc)

/-- **The visited set.**  With enough fuel, a worklist visits exactly what its
    queue reaches. -/
theorem mem_bfs_iff_exists {U : Finset α} {fuel : ℕ} {q : List α} (h : Enough next U fuel q ∅)
    {b : α} : b ∈ bfs next fuel q ∅ ↔ ∃ a ∈ q, Relation.ReflTransGen (Step next) a b := by
  obtain ⟨h1, h2⟩ := bfs_closed h (by simp)
  constructor
  · intro hb
    exact (bfs_sound fuel q ∅ b hb).resolve_left (Finset.notMem_empty b)
  · rintro ⟨a, ha, hab⟩
    induction hab with
    | refl => exact h1 a ha
    | tail _ hbc ih => exact h2 _ ih _ hbc

theorem mem_bfs_iff {U : Finset α} {fuel : ℕ} {a : α} (h : Enough next U fuel [a] ∅) {b : α} :
    b ∈ bfs next fuel [a] ∅ ↔ Relation.ReflTransGen (Step next) a b := by
  rw [mem_bfs_iff_exists h]
  simp

theorem mem_bfsOrder_iff {U : Finset α} {fuel : ℕ} {q : List α} (h : Enough next U fuel q ∅)
    {b : α} : b ∈ bfsOrder next fuel q ∅ ↔ ∃ a ∈ q, Relation.ReflTransGen (Step next) a b := by
  rw [← mem_bfs_iff_exists h, ← mem_bfsOrder_or]
  simp

/-- The early exit changes only when the loop stops: it finds what a full run
    would visit. -/
theorem bfsFind_eq {p : α → Bool} (fuel : ℕ) (q : List α) (vis : Finset α) :
    bfsFind next p fuel q vis = true ↔ ∃ b ∈ bfs next fuel q vis, b ∉ vis ∧ p b = true := by
  induction fuel generalizing q vis with
  | zero => simp +contextual [bfsFind, bfs]
  | succ fuel ih =>
    cases q with
    | nil => simp +contextual [bfsFind, bfs]
    | cons a q =>
      simp only [bfsFind, bfs]
      split
      case isTrue => exact ih q vis
      case isFalse ha =>
        split
        case isTrue hp =>
          have : a ∈ bfs next fuel (q ++ next a) (insert a vis) :=
            subset_bfs _ _ _ (Finset.mem_insert_self a vis)
          exact ⟨fun _ => ⟨a, this, ha, hp⟩, fun _ => rfl⟩
        case isFalse hp =>
          rw [ih]
          constructor
          · rintro ⟨b, hb, hbv, hpb⟩
            exact ⟨b, hb, fun h => hbv (Finset.mem_insert_of_mem h), hpb⟩
          · rintro ⟨b, hb, hbv, hpb⟩
            refine ⟨b, hb, fun h => ?_, hpb⟩
            rcases Finset.mem_insert.1 h with rfl | h
            · exact hp hpb
            · exact hbv h

theorem bfsFind_iff {U : Finset α} {fuel : ℕ} {a : α} (h : Enough next U fuel [a] ∅)
    {p : α → Bool} :
    bfsFind next p fuel [a] ∅ = true ↔ ∃ b, Relation.ReflTransGen (Step next) a b ∧ p b = true := by
  rw [bfsFind_eq]
  simp [mem_bfs_iff h]

end

/-! ## Gathering with an early exit -/

section
variable {κ γ : Type*} [DecidableEq γ]

/-- Gather what the elements of a list hold, up to the first forbidden one. -/
def gather (stop : α → Option κ) (val : α → Finset γ) : List α → Finset γ → Except κ (Finset γ)
  | [], acc => .ok acc
  | a :: l, acc =>
    match stop a with
    | some k => .error k
    | none => gather stop val l (acc ∪ val a)

/-- Gather what the successors of popped elements hold. -/
def collect (next : α → List α) (stop : α → Option κ) (val : α → Finset γ) :
    ℕ → List α → Finset α → Finset γ → Except κ (Finset γ)
  | 0, _, _, acc => .ok acc
  | _ + 1, [], _, acc => .ok acc
  | fuel + 1, a :: q, vis, acc =>
    if a ∈ vis then collect next stop val fuel q vis acc
    else
      match gather stop val (next a) acc with
      | .error k => .error k
      | .ok acc => collect next stop val fuel (q ++ next a) (insert a vis) acc

variable {next : α → List α} {stop : α → Option κ} {val : α → Finset γ}

/-- The result of gathering over the elements that satisfy `P`. -/
def Gathered (stop : α → Option κ) (val : α → Finset γ) (P : α → Prop) (acc : Finset γ) :
    Except κ (Finset γ) → Prop
  | .error k => ∃ a, P a ∧ stop a = some k
  | .ok S => (∀ a, P a → stop a = none) ∧ ∀ x, x ∈ S ↔ x ∈ acc ∨ ∃ a, P a ∧ x ∈ val a

omit [DecidableEq α] [DecidableEq γ] in
theorem Gathered.congr {P Q : α → Prop} {acc : Finset γ} {r : Except κ (Finset γ)}
    (h : Gathered stop val P acc r) (hPQ : ∀ a, P a ↔ Q a) : Gathered stop val Q acc r := by
  have : P = Q := funext fun a => propext (hPQ a)
  rwa [← this]

omit [DecidableEq α] [DecidableEq γ] in
/-- A search that fails has met an element to stop at. -/
theorem Gathered.exists_stop {P : α → Prop} {acc : Finset γ} {r : Except κ (Finset γ)} {k : κ}
    (h : Gathered stop val P acc r) (hr : r = .error k) : ∃ a, P a ∧ stop a = some k := by
  subst hr
  exact h

omit [DecidableEq α] [DecidableEq γ] in
/-- A search that succeeds keeps what it has started with. -/
theorem Gathered.subset {P : α → Prop} {acc S : Finset γ}
    (h : Gathered stop val P acc (.ok S)) : acc ⊆ S :=
  fun x hx => (h.2 x).2 (Or.inl hx)

omit [DecidableEq α] [DecidableEq γ] in
theorem Gathered.val_subset {P : α → Prop} {acc S : Finset γ}
    (h : Gathered stop val P acc (.ok S)) {a : α} (ha : P a) : val a ⊆ S :=
  fun x hx => (h.2 x).2 (Or.inr ⟨a, ha, hx⟩)

omit [DecidableEq α] [DecidableEq γ] in
/-- Gathering over `P` and then over `Q`. -/
theorem Gathered.append {P Q : α → Prop} {acc S : Finset γ} {r : Except κ (Finset γ)}
    (hP : Gathered stop val P acc (.ok S)) (hQ : Gathered stop val Q S r) :
    Gathered stop val (fun a => P a ∨ Q a) acc r := by
  cases r with
  | error k =>
    obtain ⟨a, ha, hk⟩ := hQ
    exact ⟨a, Or.inr ha, hk⟩
  | ok T =>
    refine ⟨?_, ?_⟩
    · rintro a (ha | ha)
      · exact hP.1 a ha
      · exact hQ.1 a ha
    · intro x
      rw [hQ.2, hP.2]
      constructor
      · rintro ((hx | ⟨a, ha, hx⟩) | ⟨a, ha, hx⟩)
        · exact Or.inl hx
        · exact Or.inr ⟨a, Or.inl ha, hx⟩
        · exact Or.inr ⟨a, Or.inr ha, hx⟩
      · rintro (hx | ⟨a, ha | ha, hx⟩)
        · exact Or.inl (Or.inl hx)
        · exact Or.inl (Or.inr ⟨a, ha, hx⟩)
        · exact Or.inr ⟨a, ha, hx⟩

omit [DecidableEq α] [DecidableEq γ] in
/-- Two searches that pass the same elements, and see the same there, end in the same way. -/
theorem Gathered.alike {κ' : Type*} {stop' : α → Option κ'} {val' : α → Finset γ} {P Q : α → Prop}
    {acc : Finset γ} {r : Except κ (Finset γ)} {r' : Except κ' (Finset γ)}
    (h : Gathered stop val P acc r) (h' : Gathered stop' val' Q acc r') (hPQ : ∀ a, P a ↔ Q a)
    (hstop : ∀ a, (stop a).isSome = (stop' a).isSome) (hval : ∀ a, val a = val' a) :
    (∃ k k', r = .error k ∧ r' = .error k') ∨ ∃ S, r = .ok S ∧ r' = .ok S := by
  cases r with
  | error k =>
    obtain ⟨a, ha, hk⟩ := h
    cases r' with
    | error k' => exact Or.inl ⟨k, k', rfl, rfl⟩
    | ok S =>
      have hnone := hstop a
      rw [hk, h'.1 a ((hPQ a).1 ha)] at hnone
      cases hnone
  | ok S =>
    cases r' with
    | error k' =>
      obtain ⟨a, ha, hk'⟩ := h'
      have hnone := hstop a
      rw [hk', h.1 a ((hPQ a).2 ha)] at hnone
      cases hnone
    | ok S' =>
      refine Or.inr ⟨S, rfl, congrArg _ ?_⟩
      ext x
      rw [h'.2, h.2]
      simp only [hPQ, hval]

variable (stop val) in
omit [DecidableEq α] in
theorem gathered_gather (l : List α) (acc : Finset γ) :
    Gathered stop val (· ∈ l) acc (gather stop val l acc) := by
  induction l generalizing acc with
  | nil => simp [gather, Gathered]
  | cons a l ih =>
    unfold gather
    cases ha : stop a with
    | some k => exact ⟨a, by simp, ha⟩
    | none =>
      have hhead : Gathered stop val (· = a) acc (.ok (acc ∪ val a)) := by
        simp [Gathered, ha]
      exact (hhead.append (ih _)).congr fun b => by simp

theorem gathered_collect (fuel : ℕ) (q : List α) (vis : Finset α) (acc : Finset γ) :
    Gathered stop val (fun b => ∃ a ∈ bfs next fuel q vis, a ∉ vis ∧ b ∈ next a) acc
      (collect next stop val fuel q vis acc) := by
  have hempty : ∀ (vis : Finset α) acc,
      Gathered stop val (fun b => ∃ a ∈ vis, a ∉ vis ∧ b ∈ next a) acc (.ok acc) := by
    intro vis acc
    simp only [Gathered]
    grind
  induction fuel generalizing q vis acc with
  | zero => exact hempty vis acc
  | succ fuel ih =>
    cases q with
    | nil => exact hempty vis acc
    | cons a q =>
      simp only [collect, bfs]
      split
      case isTrue => exact ih q vis acc
      case isFalse ha =>
        have hmem : a ∈ bfs next fuel (q ++ next a) (insert a vis) :=
          subset_bfs _ _ _ (Finset.mem_insert_self a vis)
        have hfront := gathered_gather stop val (next a) acc
        cases hg : gather stop val (next a) acc with
        | error k =>
          rw [hg] at hfront
          obtain ⟨b, hb, hk⟩ := hfront
          exact ⟨b, ⟨a, hmem, ha, hb⟩, hk⟩
        | ok S =>
          rw [hg] at hfront
          refine (hfront.append (ih (q ++ next a) (insert a vis) S)).congr ?_
          intro b
          constructor
          · rintro (hb | ⟨c, hc, hcv, hb⟩)
            · exact ⟨a, hmem, ha, hb⟩
            · exact ⟨c, hc, fun h => hcv (Finset.mem_insert_of_mem h), hb⟩
          · rintro ⟨c, hc, hcv, hb⟩
            by_cases hca : c = a
            · exact Or.inl (hca ▸ hb)
            · exact Or.inr ⟨c, hc, by simp [hca, hcv], hb⟩

/-- **The gathered set.**  With enough fuel, the loop gathers over everything that
    the start reaches in one step or more. -/
theorem collect_cases {U : Finset α} {fuel : ℕ} {a : α} (h : Enough next U fuel [a] ∅)
    (acc : Finset γ) :
    Gathered stop val (Relation.TransGen (Step next) a) acc
      (collect next stop val fuel [a] ∅ acc) := by
  refine (gathered_collect fuel [a] ∅ acc).congr ?_
  intro b
  rw [Relation.TransGen.tail'_iff]
  simp only [mem_bfs_iff h, Finset.notMem_empty, not_false_eq_true, true_and]
  rfl

end

/-! ## Searches that change a state -/

section
variable {α κ γ σ : Type*}

/-- A list up to its first element that satisfies `p`. -/
def upTo (p : α → Bool) : List α → List α
  | [] => []
  | a :: l => if p a then [a] else a :: upTo p l

/-- Do all elements satisfy `p`?  The tests change a state, and stop at the first failure. -/
def allS (p : α → σ → Bool × σ) : List α → σ → Bool × σ
  | [], s => (true, s)
  | a :: l, s => if (p a s).1 then allS p l (p a s).2 else (false, (p a s).2)

variable [DecidableEq γ]

/-- `gather`, where a visit changes a state. -/
def gatherS (visit : α → σ → Except κ (Finset γ) × σ) :
    List α → Finset γ → σ → Except κ (Finset γ) × σ
  | [], acc, s => (.ok acc, s)
  | a :: l, acc, s =>
    match (visit a s).1 with
    | .error k => (.error k, (visit a s).2)
    | .ok S => gatherS visit l (acc ∪ S) (visit a s).2

variable [DecidableEq α]

/-- `collect`, where a visit changes a state. -/
def collectS (next : α → List α) (visit : α → σ → Except κ (Finset γ) × σ) :
    ℕ → List α → Finset α → Finset γ → σ → Except κ (Finset γ) × σ
  | 0, _, _, acc, s => (.ok acc, s)
  | _ + 1, [], _, acc, s => (.ok acc, s)
  | fuel + 1, a :: q, vis, acc, s =>
    if a ∈ vis then collectS next visit fuel q vis acc s
    else
      match gatherS visit (next a) acc s with
      | (.error k, s) => (.error k, s)
      | (.ok acc, s) => collectS next visit fuel (q ++ next a) (insert a vis) acc s

omit [DecidableEq α] [DecidableEq γ] in
theorem upTo_append {p : α → Bool} (l l' : List α) :
    upTo p (l ++ l') = if l.any p then upTo p l else l ++ upTo p l' := by
  induction l with
  | nil => rfl
  | cons a l ih =>
    simp only [List.cons_append, upTo, List.any_cons]
    by_cases ha : p a = true
    · simp [ha]
    · rw [if_neg ha, if_neg ha, ih]
      by_cases hl : l.any p = true
      · simp [hl]
      · simp [ha, hl]

omit [DecidableEq α] [DecidableEq γ] in
theorem upTo_map {β : Type*} {p : β → Bool} (f : α → β) (l : List α) :
    upTo p (l.map f) = (upTo (p ∘ f) l).map f := by
  induction l with
  | nil => rfl
  | cons a l ih =>
    simp only [List.map_cons, upTo, Function.comp_apply]
    split
    · rfl
    · rw [ih, List.map_cons]

omit [DecidableEq α] [DecidableEq γ] in
/-- Where no test succeeds, the whole list is taken. -/
theorem upTo_eq_self {p : α → Bool} {l : List α} (h : l.any p = false) : upTo p l = l := by
  have happ := upTo_append (p := p) l []
  rw [h, if_neg Bool.false_ne_true, List.append_nil] at happ
  rw [happ, upTo, List.append_nil]

/-- Where a visit leaves a trace that later visits do not see, it answers as a visit without
    a state. -/
structure Traces (I : σ → Prop) (visit : α → σ → Except κ (Finset γ) × σ) (stop : α → Option κ)
    (val : α → Finset γ) (mark : σ → α → σ) : Prop where
  stops : ∀ a s k, I s → stop a = some k → visit a s = (.error k, mark s a)
  goes : ∀ a s, I s → stop a = none → visit a s = (.ok (val a), mark s a)
  keeps : ∀ a s, I s → I (mark s a)

section
variable {I : σ → Prop} {visit : α → σ → Except κ (Finset γ) × σ} {stop : α → Option κ}
  {val : α → Finset γ} {mark : σ → α → σ} {next : α → List α} {s : σ}

omit [DecidableEq α] [DecidableEq γ] in
theorem Traces.foldl (h : Traces I visit stop val mark) (hs : I s) (l : List α) :
    I (l.foldl mark s) :=
  List.foldlRecOn l mark hs fun s hs a _ => h.keeps a s hs

variable (stop val) in
omit [DecidableEq α] in
/-- A search without a state fails exactly if it meets a forbidden element. -/
theorem gather_cases (l : List α) (acc : Finset γ) :
    (l.any (fun a => (stop a).isSome) = true ∧ ∃ k, gather stop val l acc = .error k) ∨
    (l.any (fun a => (stop a).isSome) = false ∧ ∃ S, gather stop val l acc = .ok S) := by
  induction l generalizing acc with
  | nil => exact Or.inr ⟨rfl, acc, rfl⟩
  | cons a l ih =>
    unfold gather
    cases ha : stop a with
    | some k => exact Or.inl ⟨by simp [ha], k, rfl⟩
    | none => simpa [ha] using ih (acc ∪ val a)

omit [DecidableEq α] in
theorem gatherS_eq (h : Traces I visit stop val mark) (l : List α) (acc : Finset γ) (hs : I s) :
    gatherS visit l acc s =
      (gather stop val l acc, (upTo (fun a => (stop a).isSome) l).foldl mark s) := by
  induction l generalizing acc s with
  | nil => rfl
  | cons a l ih =>
    unfold gatherS gather upTo
    cases ha : stop a with
    | some k =>
      rw [h.stops a s k hs ha]
      rfl
    | none =>
      rw [h.goes a s hs ha]
      exact ih _ (h.keeps a s hs)

/-- **The trace of a search.**  The result is that of a search without a state, and every
    successor that is met leaves its trace, up to the first forbidden one. -/
theorem collectS_eq (h : Traces I visit stop val mark) (fuel : ℕ) (q : List α) (vis : Finset α)
    (acc : Finset γ) (hs : I s) :
    collectS next visit fuel q vis acc s =
      (collect next stop val fuel q vis acc,
        (upTo (fun a => (stop a).isSome) ((bfsOrder next fuel q vis).flatMap next)).foldl
          mark s) := by
  induction fuel generalizing q vis acc s with
  | zero => rfl
  | succ fuel ih =>
    cases q with
    | nil => rfl
    | cons a q =>
      simp only [collectS, collect, bfsOrder]
      split
      case isTrue => exact ih q vis acc hs
      case isFalse =>
        rw [gatherS_eq h _ _ hs, List.flatMap_cons, upTo_append]
        rcases gather_cases stop val (next a) acc with
          ⟨hany, k, hk⟩ | ⟨hany, S, hS⟩
        · rw [hk, hany]
          rfl
        · rw [hS, hany, if_neg Bool.false_ne_true, List.foldl_append, upTo_eq_self hany]
          exact ih _ _ _ (h.foldl hs _)

/-- A search fails exactly if it meets a forbidden element. -/
theorem collect_cases_any (fuel : ℕ) (q : List α) (vis : Finset α) (acc : Finset γ) :
    (((bfsOrder next fuel q vis).flatMap next).any (fun a => (stop a).isSome) = true ∧
      ∃ k, collect next stop val fuel q vis acc = .error k) ∨
    (((bfsOrder next fuel q vis).flatMap next).any (fun a => (stop a).isSome) = false ∧
      ∃ S, collect next stop val fuel q vis acc = .ok S) := by
  induction fuel generalizing q vis acc with
  | zero => exact Or.inr ⟨rfl, acc, rfl⟩
  | succ fuel ih =>
    cases q with
    | nil => exact Or.inr ⟨rfl, acc, rfl⟩
    | cons a q =>
      simp only [collect, bfsOrder]
      split
      case isTrue => exact ih q vis acc
      case isFalse =>
        rw [List.flatMap_cons, List.any_append]
        rcases gather_cases stop val (next a) acc with
          ⟨hany, k, hk⟩ | ⟨hany, S, hS⟩
        · rw [hk, hany]
          exact Or.inl ⟨rfl, k, rfl⟩
        · rw [hS, hany, Bool.false_or]
          exact ih _ _ S

theorem isOk_collect (fuel : ℕ) (q : List α) (vis : Finset α) (acc : Finset γ) :
    (collect next stop val fuel q vis acc).isOk =
      !((bfsOrder next fuel q vis).flatMap next).any fun a => (stop a).isSome := by
  rcases @collect_cases_any α κ γ _ _ stop val next fuel q vis acc with
    ⟨hany, k, hk⟩ | ⟨hany, S, hS⟩
  · rw [hk, hany]
    rfl
  · rw [hS, hany]
    rfl

omit [DecidableEq α] [DecidableEq γ] in
/-- The tests of a list leave their traces up to the first failure. -/
theorem allS_eq {p : α → σ → Bool × σ} {holds : α → Bool}
    (h : ∀ a s, I s → p a s = (holds a, mark s a)) (hkeeps : ∀ a s, I s → I (mark s a))
    (l : List α) (hs : I s) :
    allS p l s = (l.all holds, (upTo (fun a => !holds a) l).foldl mark s) := by
  induction l generalizing s with
  | nil => rfl
  | cons a l ih =>
    unfold allS upTo
    rw [h a s hs]
    cases ha : holds a with
    | true => simpa [ha] using ih (hkeeps a s hs)
    | false => simp [ha]

end

end

end TFA.Worklist
