/-
  Two runs of the same calls: with their tags and without, and in two orders.

  * `mem_cluster_untag`: where the merges of the run without tags are safe, the
    tags only split clusters.  On an unsafe chain they can keep a pair together
    (`untag_loses_pair`): a refused merge is one that drops no link;
  * `cluster_iff_of_perm`: two orders of complete calls give the same clusters if
    and only if what one of them accepts is connected in the other.  The first
    tag that a node gets decides which calls are accepted, so the order matters
    (`cluster_depends_on_order`).
-/
import TFA.Alias.Partition
import TFA.Alias.Flow

namespace TFA

open AliasGraph

namespace AliasCall

variable {tg : TBAAGraph} {kind : Value → ValueKind} {c : AliasCall} {cs cs' : List AliasCall}
  {u v : Value}

/-! ## Without the tags -/

/-- The call without its tag. -/
def untag : AliasCall → AliasCall
  | .load LI op _ => .load LI op none
  | .store vop pop _ => .store vop pop none
  | c => c

@[simp] theorem tag_untag (c : AliasCall) : c.untag.tag = none := by cases c <;> rfl

@[simp] theorem operands_untag (c : AliasCall) : c.untag.operands kind = c.operands kind := by
  cases c <;> rfl

@[simp] theorem values_untag (c : AliasCall) : c.untag.values kind = c.values kind := by
  cases c <;> rfl

theorem handled_untag : Handled kind (cs.map untag) = Handled kind cs := by
  funext p q
  simp [Handled]

/-- A value of a cluster is that of a node. -/
theorem isSome_of_mem_cluster {g : AliasGraph} (h : v ∈ g.getClusterValues u ∅) :
    (g.getNode u).isSome := by
  cases hu : g.getNode u with
  | none => simp [getClusterValues, hu] at h
  | some n => rfl

theorem isSome_run_congr (h : ∀ w, (∃ c ∈ cs, w ∈ c.values kind) → ∃ c ∈ cs', w ∈ c.values kind)
    (hu : ((run tg kind cs {}).getNode u).isSome) : ((run tg kind cs' {}).getNode u).isSome := by
  rw [isSome_run tg sane_empty] at hu ⊢
  exact hu.imp_left (h u)

/-- The values with a node do not depend on the order. -/
theorem isSome_run_of_perm (hperm : cs.Perm cs') (hu : ((run tg kind cs {}).getNode u).isSome) :
    ((run tg kind cs' {}).getNode u).isSome := by
  refine isSome_run_congr ?_ hu
  rintro w ⟨c, hc, hw⟩
  exact ⟨c, hperm.mem_iff.1 hc, hw⟩

/-- **Tags only split clusters**, where the merges of the run without tags are safe. -/
theorem mem_cluster_untag (hsafe : SafeRun tg kind (cs.map untag) {})
    (hv : v ∈ (run tg kind cs {}).getClusterValues u ∅) :
    v ∈ (run tg kind (cs.map untag) {}).getClusterValues u ∅ := by
  have hrel := mem_getClusterValues_sound tg kind cs hv
  have htags : ∀ c ∈ cs.map untag, c.tag = none := by simp
  have hrep := represents_run htags hsafe
  have hu : ((run tg kind (cs.map untag) {}).getNode u).isSome := by
    refine isSome_run_congr ?_ (isSome_of_mem_cluster hv)
    rintro w ⟨c, hc, hw⟩
    exact ⟨c.untag, List.mem_map_of_mem hc, by rw [values_untag]; exact hw⟩
  rw [hrep.mem_cluster_iff hu, handled_untag]
  exact hrel

theorem mem_cluster_untag_int :
    2 ∈ (run .twoScalars (fun _ => .argument)
      ([.load 0 1 (some 4), .load 2 1 (some 4)].map untag) {}).getClusterValues 0 ∅ :=
  have hboth : 2 ∈ (run .twoScalars (fun _ => .argument)
      [.load 0 1 (some 4), .load 2 1 (some 4)] {}).getClusterValues 0 ∅ := by decide
  mem_cluster_untag (by decide) hboth

/-- `0` is loaded as an `int` from itself, `3` as a `long` from `2`, and `4` from
    `3`.  The move of `0` into `2` is refused; without tags it is made, and drops
    the link from `3` to `4`. -/
theorem untag_loses_pair :
    ¬ ∀ (tg : TBAAGraph) (kind : Value → ValueKind) (cs : List AliasCall) (u v : Value),
      v ∈ (run tg kind cs {}).getClusterValues u ∅ →
      v ∈ (run tg kind (cs.map untag) {}).getClusterValues u ∅ := by
  intro h
  have hin := h .twoScalars (fun _ => .argument)
    [.move 0 1, .load 0 1 (some 4), .load 3 2 (some 5), .load 4 3 none, .move 2 0] 3 4 (by decide)
  have hout : 4 ∉ (run .twoScalars (fun _ => .argument) ([.move 0 1, .load 0 1 (some 4),
    .load 3 2 (some 5), .load 4 3 none, .move 2 0].map untag) {}).getClusterValues 3 ∅ := by decide
  exact hout hin

/-! ## In two orders -/

theorem mem_cluster_of_accepted (h : CompleteRun tg kind cs {})
    (huv : Accepted tg kind cs {} u v) : v ∈ (run tg kind cs {}).getClusterValues u ∅ := by
  have hrep := completeRun_accepted h
  obtain ⟨n, hn⟩ := hrep.left u v huv
  have hu := Option.isSome_iff_exists.2 ⟨n, (hrep.wf.consistent u n).2 hn⟩
  exact (hrep.mem_cluster_iff hu).2 (.rel u v huv)

/-- **Two orders** of the same calls, complete in both, give the same clusters if
    and only if the operands that one accepts are connected by those that the
    other accepts. -/
theorem cluster_iff_of_perm (hperm : cs.Perm cs') (h : CompleteRun tg kind cs {})
    (h' : CompleteRun tg kind cs' {}) :
    (∀ u v, v ∈ (run tg kind cs {}).getClusterValues u ∅ ↔
      v ∈ (run tg kind cs' {}).getClusterValues u ∅) ↔
    (∀ p q, Accepted tg kind cs {} p q → Relation.EqvGen (Accepted tg kind cs' {}) p q) ∧
      ∀ p q, Accepted tg kind cs' {} p q → Relation.EqvGen (Accepted tg kind cs {}) p q := by
  have hrep := completeRun_accepted h
  have hrep' := completeRun_accepted h'
  have hmem : ∀ {u v}, v ∈ (run tg kind cs {}).getClusterValues u ∅ →
      Relation.EqvGen (Accepted tg kind cs {}) u v :=
    fun hv => (hrep.mem_cluster_iff (isSome_of_mem_cluster hv)).1 hv
  have hmem' : ∀ {u v}, v ∈ (run tg kind cs' {}).getClusterValues u ∅ →
      Relation.EqvGen (Accepted tg kind cs' {}) u v :=
    fun hv => (hrep'.mem_cluster_iff (isSome_of_mem_cluster hv)).1 hv
  constructor
  · intro hsame
    refine ⟨fun p q hpq => ?_, fun p q hpq => ?_⟩
    · exact hmem' ((hsame p q).1 (mem_cluster_of_accepted h hpq))
    · exact hmem ((hsame p q).2 (mem_cluster_of_accepted h' hpq))
  · rintro ⟨hto, hfrom⟩ u v
    constructor
    · intro hv
      have hu := isSome_run_of_perm hperm (isSome_of_mem_cluster hv)
      exact (hrep'.mem_cluster_iff hu).2 (Links.eqvGen_le hto (hmem hv))
    · intro hv
      have hu := isSome_run_of_perm hperm.symm (isSome_of_mem_cluster hv)
      exact (hrep.mem_cluster_iff hu).2 (Links.eqvGen_le hfrom (hmem' hv))

theorem cluster_iff_of_perm_int :
    (∀ u v, v ∈ (run .twoScalars (fun _ => .argument)
        [.load 0 1 (some 4), .move 1 2] {}).getClusterValues u ∅ ↔
      v ∈ (run .twoScalars (fun _ => .argument)
        [.move 1 2, .load 0 1 (some 4)] {}).getClusterValues u ∅) ↔
    (∀ p q, Accepted .twoScalars (fun _ => .argument) [.load 0 1 (some 4), .move 1 2] {} p q →
        Relation.EqvGen (Accepted .twoScalars (fun _ => .argument)
          [.move 1 2, .load 0 1 (some 4)] {}) p q) ∧
      ∀ p q, Accepted .twoScalars (fun _ => .argument) [.move 1 2, .load 0 1 (some 4)] {} p q →
        Relation.EqvGen (Accepted .twoScalars (fun _ => .argument)
          [.load 0 1 (some 4), .move 1 2] {}) p q :=
  cluster_iff_of_perm (List.Perm.swap _ _ _) (by decide) (by decide)

/-- The slots `1` and `3` of an `int` and a `long`: after the loads their move is
    refused; before them it puts both into one class, tagged by the first load. -/
theorem cluster_depends_on_order :
    ¬ ∀ (tg : TBAAGraph) (kind : Value → ValueKind) (cs cs' : List AliasCall), cs.Perm cs' →
      ∀ u v, v ∈ (run tg kind cs {}).getClusterValues u ∅ ↔
        v ∈ (run tg kind cs' {}).getClusterValues u ∅ := by
  intro h
  have hiff := h .twoScalars (fun _ => .argument)
    [.load 0 1 (some 4), .load 2 3 (some 5), .move 1 3]
    [.move 1 3, .load 0 1 (some 4), .load 2 3 (some 5)] (by decide) 1 3
  have hout : 3 ∉ (run .twoScalars (fun _ => .argument)
    [.load 0 1 (some 4), .load 2 3 (some 5), .move 1 3] {}).getClusterValues 1 ∅ := by decide
  have hin : 3 ∈ (run .twoScalars (fun _ => .argument)
    [.move 1 3, .load 0 1 (some 4), .load 2 3 (some 5)] {}).getClusterValues 1 ∅ := by decide
  exact hout (hiff.2 hin)

end AliasCall

end TFA
