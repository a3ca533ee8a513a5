/-
  Memory flows under TBAA refinement.

  A store of `v` and a load of `x` through one pointer put `v` and `x` into one
  cluster if the merges of the run are safe and no merge below a call is blocked
  (`load_of_store_mem_cluster`): calls that the gate refuses as a whole do no
  harm, unless they are the store, the load or the move in question.

  As the tag of the memory a value was loaded from is kept on the node of the
  value, such a refusal needs no type error (`load_of_store_lost`): `v`, loaded
  as an `int`, is stored through a `long` slot, and the load of that slot is then
  kept apart from `v`.
-/
import TFA.Alias.Tags

namespace TFA

open AliasGraph

namespace AliasCall

variable {tg : TBAAGraph} {kind : Value → ValueKind} {R : Value → Value → Prop}
  {g : AliasGraph} {c : AliasCall}

/-! ## Calls that the gate lets pass or refuses -/

/-- The call makes no merge, or one of two nodes whose own tags may alias. -/
def AcceptedIn (tg : TBAAGraph) (kind : Value → ValueKind) (c : AliasCall) (g : AliasGraph) :
    Prop :=
  match joinOf kind (c.prepare tg kind g) c with
  | .merge n1 n2 => shouldMergeByTBAA tg (c.prepare tg kind g) n1 n2 = true
  | _ => True

/-- The call makes no merge, or one that the gate refuses, or one on safe chains
    and with agreeing tags on all nodes that it unifies. -/
def TagSafeIn (tg : TBAAGraph) (kind : Value → ValueKind) (c : AliasCall) (g : AliasGraph) :
    Prop :=
  match joinOf kind (c.prepare tg kind g) c with
  | .merge n1 n2 => shouldMergeByTBAA tg (c.prepare tg kind g) n1 n2 = false ∨
      (c.prepare tg kind g).ChainSafe n1 n2 ∧ TagsAgree tg (c.prepare tg kind g) n1 n2
  | _ => True

/-- The call makes no merge, or one that the gate refuses, or one on safe chains
    that is completed: no merge below it is refused. -/
def CompleteIn (tg : TBAAGraph) (kind : Value → ValueKind) (c : AliasCall) (g : AliasGraph) :
    Prop :=
  match joinOf kind (c.prepare tg kind g) c with
  | .merge n1 n2 => shouldMergeByTBAA tg (c.prepare tg kind g) n1 n2 = false ∨
      (c.prepare tg kind g).ChainSafe n1 n2 ∧
        (mergeNode tg n1 n2 (c.prepare tg kind g)).NumTBAABlockedMerges =
          (c.prepare tg kind g).NumTBAABlockedMerges
  | _ => True

instance (tg : TBAAGraph) (kind : Value → ValueKind) (c : AliasCall) (g : AliasGraph) :
    Decidable (c.AcceptedIn tg kind g) :=
  Join.decidableOnMerge (fun _ _ => inferInstance) (joinOf kind (c.prepare tg kind g) c)

instance (tg : TBAAGraph) (kind : Value → ValueKind) (c : AliasCall) (g : AliasGraph) :
    Decidable (c.CompleteIn tg kind g) :=
  Join.decidableOnMerge (fun _ _ => inferInstance) (joinOf kind (c.prepare tg kind g) c)

theorem TagSafeIn.complete (h : c.TagSafeIn tg kind g) : c.CompleteIn tg kind g := by
  unfold TagSafeIn at h
  unfold CompleteIn
  split
  case h_1 hj =>
    simp only [hj] at h
    exact h.imp_right fun h => ⟨h.1, mergeNode_not_blocked h.2⟩
  · trivial

/-- An accepted call adds the pair of its operands. -/
theorem handle_accepted (h : Represents R g) (hsafe : c.CompleteIn tg kind g)
    (hacc : c.AcceptedIn tg kind g) :
    Represents (fun a b => R a b ∨ c.operands kind = some (a, b)) (c.handle tg kind g) := by
  unfold CompleteIn at hsafe
  unfold AcceptedIn at hacc
  cases hj : joinOf kind (c.prepare tg kind g) c with
  | none =>
    refine handle_represents h ?_ ?_
    · rw [SafeIn, hj]; trivial
    · rw [handle_eq, hj, ← blocked_prepare tg kind c g]; rfl
  | link n1 n2 =>
    refine handle_represents h ?_ ?_
    · rw [SafeIn, hj]; trivial
    · rw [handle_eq, hj, ← blocked_prepare tg kind c g]
      exact blocked_link _ _ _ _
  | merge n1 n2 =>
    rw [hj] at hsafe hacc
    obtain ⟨hchain, hb⟩ := hsafe.resolve_left fun h => absurd (hacc.symm.trans h) (by decide)
    refine handle_represents h ?_ ?_
    · rw [SafeIn, hj]; exact hchain
    · rw [handle_eq, hj, ← blocked_prepare tg kind c g]
      exact hb

/-- A refused call adds nothing. -/
theorem handle_refused (h : Represents R g) (hacc : ¬ c.AcceptedIn tg kind g) :
    Represents R (c.handle tg kind g) := by
  unfold AcceptedIn at hacc
  cases hj : joinOf kind (c.prepare tg kind g) c with
  | none => rw [hj] at hacc; exact absurd trivial hacc
  | link n1 n2 => rw [hj] at hacc; exact absurd trivial hacc
  | merge n1 n2 =>
    rw [hj] at hacc
    have hp : Represents R (c.prepare tg kind g) := by
      cases c with
      | alloc ALI => exact h.nodeOf ALI
      | load LI op tag => exact represents_prepare_load tg kind h LI op tag
      | store vop pop tag => exact represents_prepare_store tg kind h vop pop tag
      | storeValues vop pop =>
        unfold prepare
        dsimp only
        split
        · exact h
        · exact (h.nodeOf vop).nodeOf pop
      | move v1 v2 =>
        unfold prepare at hj ⊢
        dsimp only at hj ⊢
        split
        case h_1 h1 =>
          -- a value that has just entered the class of `v2` is not merged with it
          have h12 : v2 ≠ v1 := by rintro rfl; simp at h1
          simp [joinOf, h1, getNode_insertValue, h12] at hj
        · exact h.nodeOf v2
    rw [handle_eq, hj]
    show Represents R (mergeNode tg n1 n2 (c.prepare tg kind g))
    rw [mergeNode_eq, mergeBody, if_neg hacc]
    exact (sameShape_blocked _).represents hp

/-! ## Runs -/

/-- Every call of the run is safe. -/
def TagSafeRun (tg : TBAAGraph) (kind : Value → ValueKind) : List AliasCall → AliasGraph → Prop
  | [], _ => True
  | c :: cs, g => c.TagSafeIn tg kind g ∧ TagSafeRun tg kind cs (c.handle tg kind g)

/-- Every call of the run is refused, or completed on safe chains. -/
def CompleteRun (tg : TBAAGraph) (kind : Value → ValueKind) : List AliasCall → AliasGraph → Prop
  | [], _ => True
  | c :: cs, g => c.CompleteIn tg kind g ∧ CompleteRun tg kind cs (c.handle tg kind g)

instance decidableCompleteRun (tg : TBAAGraph) (kind : Value → ValueKind) :
    ∀ cs g, Decidable (CompleteRun tg kind cs g)
  | [], _ => isTrue trivial
  | c :: cs, g =>
    have := decidableCompleteRun tg kind cs (c.handle tg kind g)
    inferInstanceAs
      (Decidable (c.CompleteIn tg kind g ∧ CompleteRun tg kind cs (c.handle tg kind g)))

theorem TagSafeRun.complete {cs : List AliasCall} (h : TagSafeRun tg kind cs g) :
    CompleteRun tg kind cs g := by
  induction cs generalizing g with
  | nil => trivial
  | cons c cs ih => exact ⟨h.1.complete, ih h.2⟩

/-- The run makes the call `c` at a moment when it is accepted. -/
def AcceptedRun (tg : TBAAGraph) (kind : Value → ValueKind) (c : AliasCall) :
    List AliasCall → AliasGraph → Prop
  | [], _ => False
  | c' :: cs, g => (c' = c ∧ c'.AcceptedIn tg kind g) ∨
      AcceptedRun tg kind c cs (c'.handle tg kind g)

/-- The operands of the accepted calls of the run. -/
def Accepted (tg : TBAAGraph) (kind : Value → ValueKind) (cs : List AliasCall) (g : AliasGraph)
    (p q : Value) : Prop :=
  ∃ c, AcceptedRun tg kind c cs g ∧ c.operands kind = some (p, q)

/-- **Runs.**  Complete calls add the operands of the accepted ones to what the
    clusters represent. -/
theorem completeRun_represents {cs : List AliasCall} (h : Represents R g)
    (hsafe : CompleteRun tg kind cs g) :
    Represents (fun a b => R a b ∨ Accepted tg kind cs g a b) (run tg kind cs g) := by
  induction cs generalizing R g with
  | nil =>
    have heq : (fun a b => R a b ∨ Accepted tg kind [] g a b) = R := by
      funext a b
      simp [Accepted, AcceptedRun]
    rw [heq]
    exact h
  | cons c cs ih =>
    obtain ⟨hc, hcs⟩ := hsafe
    by_cases hacc : c.AcceptedIn tg kind g
    · have hrep := ih (handle_accepted h hc hacc) hcs
      have heq : (fun a b => (R a b ∨ c.operands kind = some (a, b)) ∨
          Accepted tg kind cs (c.handle tg kind g) a b) =
          fun a b => R a b ∨ Accepted tg kind (c :: cs) g a b := by
        funext a b
        simp only [Accepted, AcceptedRun, eq_iff_iff]
        constructor
        · rintro ((hab | hop) | ⟨c', hrun, hop⟩)
          · exact Or.inl hab
          · exact Or.inr ⟨c, Or.inl ⟨rfl, hacc⟩, hop⟩
          · exact Or.inr ⟨c', Or.inr hrun, hop⟩
        · rintro (hab | ⟨c', ⟨rfl, -⟩ | hrun, hop⟩)
          · exact Or.inl (Or.inl hab)
          · exact Or.inl (Or.inr hop)
          · exact Or.inr ⟨c', hrun, hop⟩
      rw [heq] at hrep
      exact hrep
    · have hrep := ih (handle_refused h hacc) hcs
      have heq : Accepted tg kind cs (c.handle tg kind g) = Accepted tg kind (c :: cs) g := by
        funext a b
        simp only [Accepted, AcceptedRun, eq_iff_iff]
        constructor
        · rintro ⟨c', hrun, hop⟩
          exact ⟨c', Or.inr hrun, hop⟩
        · rintro ⟨c', ⟨rfl, hacc'⟩ | hrun, hop⟩
          · exact absurd hacc' hacc
          · exact ⟨c', hrun, hop⟩
      rw [← heq]
      exact hrep

/-- After complete calls the clusters are what the accepted ones connect. -/
theorem completeRun_accepted {cs : List AliasCall} (hsafe : CompleteRun tg kind cs {}) :
    Represents (Accepted tg kind cs {}) (run tg kind cs {}) := by
  have h := completeRun_represents represents_empty hsafe
  simpa only [false_or] using h

/-- The same after calls that are refused or safe. -/
theorem tagSafeRun_accepted {cs : List AliasCall} (hsafe : TagSafeRun tg kind cs {}) :
    Represents (Accepted tg kind cs {}) (run tg kind cs {}) :=
  completeRun_accepted hsafe.complete

/-- **No flow is lost** in a run whose merges are safe and which accepts the
    store, the load and the move of the pointer. -/
theorem load_of_store_mem_cluster {cs : List AliasCall} {v p x q : Value} {T T' : MDNode}
    (hsafe : TagSafeRun tg kind cs {}) (hv : kind v ≠ .constantData)
    (hstore : AcceptedRun tg kind (.store v p (some T)) cs {})
    (hload : AcceptedRun tg kind (.load x q (some T')) cs {})
    (hpq : q = p ∨ AcceptedRun tg kind (.move p q) cs {}) :
    v ∈ (run tg kind cs {}).getClusterValues x ∅ := by
  have h := tagSafeRun_accepted hsafe
  have hpair : ∀ {c a b}, AcceptedRun tg kind c cs {} → c.operands kind = some (a, b) →
      Relation.EqvGen (Accepted tg kind cs {}) a b :=
    fun hrun hop => .rel _ _ ⟨_, hrun, hop⟩
  have hvp := hpair (a := v) (b := p) hstore (if_neg hv)
  have hxq := hpair (a := x) (b := q) hload rfl
  have hqp : Relation.EqvGen (Accepted tg kind cs {}) q p := by
    rcases hpq with rfl | hmove
    · exact .refl q
    · exact .symm _ _ (hpair (a := p) (b := q) hmove rfl)
  have hx : ((run tg kind cs {}).getNode x).isSome := by
    obtain ⟨n, hn⟩ := h.left x q ⟨_, hload, rfl⟩
    exact Option.isSome_iff_exists.2 ⟨n, (h.wf.consistent x n).2 hn⟩
  rw [h.mem_cluster_iff hx]
  exact .trans x q v hxq (.trans q p v hqp (.symm _ _ hvp))

end AliasCall

/-! ## Two disjoint types -/

/-- Two scalar types under one root: `int`, accessed with tag `4`, and `long`,
    accessed with tag `5`. -/
def MDGraph.twoScalars : MDGraph where
  operands
    | 1 => [.string "Simple C/C++ TBAA"]
    | 2 => [.string "int", .node 1, .constInt 0]
    | 3 => [.string "long", .node 1, .constInt 0]
    | 4 => [.node 2, .node 2, .constInt 0]
    | 5 => [.node 3, .node 3, .constInt 0]
    | _ => []

theorem MDGraph.twoScalars_rank (N P : MDNode) (h : .node P ∈ MDGraph.twoScalars.operands N) :
    id P < id N := by
  simp only [twoScalars] at h
  split at h <;> simp at h <;> subst h <;> decide

/-- The metadata of `MDGraph.twoScalars`; no node leads back to itself. -/
def TBAAGraph.twoScalars : TBAAGraph := .ofRank .twoScalars id MDGraph.twoScalars_rank

namespace AliasCall

/-- In a run that uses one tag only, all tags agree. -/
theorem tagSafeRun_oneTag : TagSafeRun .twoScalars (fun _ => .argument)
    [.store 0 1 (some 4), .load 2 1 (some 4)] {} := by
  refine ⟨trivial, Or.inr ⟨by decide, ?_⟩, trivial⟩
  have htag : ∀ x t, ((AliasCall.load 2 1 (some 4)).prepare .twoScalars (fun _ => .argument)
      ((AliasCall.store 0 1 (some 4)).handle .twoScalars (fun _ => .argument) {})).tag x = some t →
      t = 4 := by
    intro x t h
    rcases x with _ | _ | _ | x
    · cases h
    · cases h; rfl
    · cases h; rfl
    · cases h
  intro x y t t' _ hx hy
  rw [htag x t hx, htag y t' hy]
  exact TBAAGraph.mayAliasByTBAA_self _ _

theorem load_of_store_mem_cluster_int :
    0 ∈ (run .twoScalars (fun _ => .argument) [.store 0 1 (some 4), .load 2 1 (some 4)] {}
      ).getClusterValues 2 ∅ :=
  load_of_store_mem_cluster tagSafeRun_oneTag (by decide)
    (Or.inl ⟨rfl, trivial⟩) (Or.inr (Or.inl ⟨rfl, rfl⟩)) (Or.inl rfl)

/-- `1` is loaded as an `int` and then stored through a `long` slot: the load of
    that slot does not meet it. -/
theorem load_of_store_lost :
    ¬ ∀ (tg : TBAAGraph) (kind : Value → ValueKind) (cs : List AliasCall) (v p x q : Value)
      (T T' : Option MDNode), .store v p T ∈ cs → .load x q T' ∈ cs →
      (q = p ∨ .move p q ∈ cs) → kind v ≠ .constantData → tg.mayAliasByTBAA T T' = true →
      v ∈ (run tg kind cs {}).getClusterValues x ∅ := by
  intro h
  have hin := h .twoScalars (fun _ => .argument)
    [.load 1 0 (some 4), .store 1 2 (some 5), .load 3 2 (some 5)] 1 2 3 2 (some 5) (some 5)
    (by simp) (by simp) (Or.inl rfl) (by decide) (TBAAGraph.mayAliasByTBAA_self _ _)
  have hout : 1 ∉ (run .twoScalars (fun _ => .argument)
    [.load 1 0 (some 4), .store 1 2 (some 5), .load 3 2 (some 5)] {}).getClusterValues 3 ∅ := by
    decide
  exact hout hin

end AliasCall

end TFA
