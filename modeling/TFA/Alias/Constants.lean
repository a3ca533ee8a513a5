/-
  Constants and aliasing.

  Stores and return instructions skip operands that are `ConstantData`; loads,
  phis, selects, call results and argument moves do not, and a constant is one
  value for all functions.  A call `SparesValues` if its constant operand joins
  no two values that are not constants.

  * `Tied`: values whose nodes edges lead between;
  * `tied_handle`: a call ties what was tied or is tied through its operands;
  * `constantsApart_run`: constants make no aliases in runs whose calls all spare
    the values, and on safe chains in no other runs.
-/
import TFA.Alias.Context
import TFA.Alias.Partition

namespace TFA

open AliasGraph

namespace AliasGraph

variable {R : Value → Value → Prop} {P : NodeId → NodeId → Prop} {g : AliasGraph} {u v w : Value}

/-! ## Tied values -/

/-- Edges of either map lead between the nodes. -/
def SameComponent (g : AliasGraph) : NodeId → NodeId → Prop :=
  Relation.EqvGen fun a b => ∃ d, g.next d a = some b

/-- The values are the same, or have nodes that edges lead between. -/
def Tied (g : AliasGraph) (v w : Value) : Prop :=
  v = w ∨ ∃ x y, g.getNode v = some x ∧ g.getNode w = some y ∧ g.SameComponent x y

theorem tied_equivalence (g : AliasGraph) : Equivalence g.Tied where
  refl _ := Or.inl rfl
  symm := by
    rintro v w (rfl | ⟨x, y, hx, hy, hxy⟩)
    · exact Or.inl rfl
    · exact Or.inr ⟨y, x, hy, hx, .symm _ _ hxy⟩
  trans := by
    rintro u v w (rfl | ⟨x, y, hx, hy, hxy⟩) hvw
    · exact hvw
    · rcases hvw with rfl | ⟨y', z, hy', hz, hyz⟩
      · exact Or.inr ⟨x, y, hx, hy, hxy⟩
      · cases Option.some.inj (hy.symm.trans hy')
        exact Or.inr ⟨x, z, hx, hz, .trans _ _ _ hxy hyz⟩

theorem tied_empty : Tied {} v w ↔ v = w := by
  constructor
  · rintro (rfl | ⟨x, y, hx, -⟩)
    · rfl
    · cases hx
  · exact Or.inl

theorem tied_of_mem_cluster (h : g.Consistent) (hv : v ∈ g.getClusterValues u ∅) : g.Tied u v := by
  have hedges : EdgesWithin g.SameComponent g := fun d a b hab => .rel _ _ ⟨d, hab⟩
  obtain ⟨n, m, hu, hnm, hvm⟩ := hedges.mem_cluster (Relation.EqvGen.is_equivalence _) hv
  exact Or.inr ⟨n, m, hu, (h v m).2 hvm, hnm⟩

/-- The components of a graph are groups of tied values. -/
theorem grouped_tied (h : g.Sane) : Grouped g.Tied g.SameComponent g where
  equiv := Relation.EqvGen.is_equivalence _
  edges d a b hab := .rel _ _ ⟨d, hab⟩
  values v w x y hv hw hxy :=
    .rel _ _ (Or.inr ⟨x, y, (h.consistent v x).2 hv, (h.consistent w y).2 hw, hxy⟩)
  isolated x y hx := by
    refine Links.eq_of_eqvGen ?_ ?_
    · rintro b ⟨d, hd⟩
      exact absurd (h.edges d x b hd).1 (Nat.not_lt.2 hx)
    · rintro a ⟨d, hd⟩
      exact absurd (h.edges d a x hd).2 (Nat.not_lt.2 hx)

theorem Grouped.of_tied (h : Grouped R P g) (hg : g.Consistent) (hvw : g.Tied v w) :
    Relation.EqvGen R v w := by
  rcases hvw with rfl | ⟨x, y, hx, hy, hxy⟩
  · exact .refl _
  · have hP : P x y := by
      rw [← h.equiv.eqvGen_iff]
      refine hxy.mono ?_
      rintro a b ⟨d, hd⟩
      exact h.edges d a b hd
    exact h.values v w x y ((hg v x).1 hx) ((hg w y).1 hy) hP

/-- In a graph that represents `R`, the tied values are those that `R` relates. -/
theorem Represents.tied_iff (h : Represents R g) : g.Tied v w ↔ Relation.EqvGen R v w := by
  constructor
  · rintro (rfl | ⟨x, y, hx, hy, hxy⟩)
    · exact .refl _
    · have hconn : g.Connected x y := by
        rw [← (connected_equivalence g).eqvGen_iff]
        refine hxy.mono ?_
        rintro a b ⟨d | d, hd⟩
        · exact .rel _ _ hd
        · exact .symm _ _ (.rel _ _ ((h.wf.mirrored b a).2 hd))
      exact (h.clusters v w x y ((h.wf.consistent v x).1 hx) ((h.wf.consistent w y).1 hy)).1 hconn
  · intro hvw
    cases hv : g.getNode v with
    | none => exact Or.inl ((h.related_iff_eq hv w).1 hvw).symm
    | some x =>
      have hsome : (g.getNode v).isSome := by rw [hv]; rfl
      exact tied_of_mem_cluster h.wf.consistent ((h.mem_cluster_iff hsome).2 hvw)

end AliasGraph

namespace AliasCall

variable {tg : TBAAGraph} {kind : Value → ValueKind} {R : Value → Value → Prop}
  {g : AliasGraph} {c : AliasCall} {cs : List AliasCall} {p q u v : Value}

variable (tg kind) in
/-- A call ties what was tied, or is tied through its operands. -/
theorem tied_handle (hs : g.Sane) (c : AliasCall) (h : (c.handle tg kind g).Tied u v) :
    g.Tied u v ∨ ∃ p q, c.operands kind = some (p, q) ∧
      (g.Tied u p ∧ g.Tied q v ∨ g.Tied u q ∧ g.Tied p v) := by
  have htied : ∀ {a b}, Relation.EqvGen g.Tied a b → g.Tied a b :=
    (tied_equivalence g).eqvGen_iff.1
  obtain ⟨P, hP⟩ : ∃ P, Grouped (fun a b => g.Tied a b ∨ c.operands kind = some (a, b)) P
      (c.handle tg kind g) := grouped_handle tg (grouped_tied hs) hs c
  have hrel := hP.of_tied (sane_handle tg kind hs c).consistent h
  cases hc : c.operands kind with
  | none =>
    refine Or.inl (htied (hrel.mono ?_))
    rintro a b (hab | hab)
    · exact hab
    · rw [hc] at hab
      cases hab
  | some pq =>
    obtain ⟨p, q⟩ := pq
    have hadj : Relation.EqvGen (Adjoin g.Tied p q) u v := by
      refine hrel.mono ?_
      rintro a b (hab | hab)
      · exact Or.inl hab
      · rw [hc] at hab
        cases hab
        exact Or.inr ⟨rfl, rfl⟩
    rcases Links.eqvGen_adjoin.1 hadj with huv | ⟨hup, hqv⟩ | ⟨huq, hpv⟩
    · exact Or.inl (htied huv)
    · exact Or.inr ⟨p, q, rfl, Or.inl ⟨htied hup, htied hqv⟩⟩
    · exact Or.inr ⟨p, q, rfl, Or.inr ⟨htied huq, htied hpv⟩⟩

/-! ## Pairs without constants -/

/-- The handled pairs of operands neither of which is `ConstantData`. -/
def ConstantFree (kind : Value → ValueKind) (cs : List AliasCall) (p q : Value) : Prop :=
  Handled kind cs p q ∧ kind p ≠ .constantData ∧ kind q ≠ .constantData

/-- Values that are not constants share a cluster only if the pairs without
    constants relate them. -/
def ConstantsApart (kind : Value → ValueKind) (cs : List AliasCall) (g : AliasGraph) : Prop :=
  ∀ u v, kind u ≠ .constantData → kind v ≠ .constantData → v ∈ g.getClusterValues u ∅ →
    Relation.EqvGen (ConstantFree kind cs) u v

/-- If one operand is a constant, the operands are tied already, or one of them is
    tied to constants only. -/
def SparesValues (kind : Value → ValueKind) (c : AliasCall) (g : AliasGraph) : Prop :=
  ∀ p q, c.operands kind = some (p, q) → kind p = .constantData ∨ kind q = .constantData →
    g.Tied p q ∨ (∀ u, g.Tied p u → kind u = .constantData) ∨
      ∀ u, g.Tied q u → kind u = .constantData

/-- Every call of the run spares the values, on the graph before it. -/
def SparingRun (tg : TBAAGraph) (kind : Value → ValueKind) (cs : List AliasCall) : Prop :=
  ∀ pre c, pre ++ [c] <+: cs → c.SparesValues kind (run tg kind pre {})

/-- Constants make no aliases in any state that the run reaches. -/
def ApartRun (tg : TBAAGraph) (kind : Value → ValueKind) (cs : List AliasCall) : Prop :=
  ∀ pre, pre <+: cs → ConstantsApart kind pre (run tg kind pre {})

theorem constantFree_mono {cs' : List AliasCall} (hsub : cs ⊆ cs')
    (h : Relation.EqvGen (ConstantFree kind cs) u v) :
    Relation.EqvGen (ConstantFree kind cs') u v := by
  refine h.mono ?_
  intro a b hab
  exact ⟨hab.1.mono hsub, hab.2⟩

theorem constantFree_append (hc : c.operands kind = some (p, q))
    (hconst : kind p = .constantData ∨ kind q = .constantData)
    (h : Relation.EqvGen (ConstantFree kind (cs ++ [c])) u v) :
    Relation.EqvGen (ConstantFree kind cs) u v := by
  refine h.mono ?_
  rintro a b ⟨⟨c', hc', hab⟩, ha, hb⟩
  rcases List.mem_append.1 hc' with hc' | hc'
  · exact ⟨⟨c', hc', hab⟩, ha, hb⟩
  · rw [List.mem_singleton.1 hc', hc] at hab
    cases hab
    rcases hconst with hp | hq
    · exact absurd hp ha
    · exact absurd hq hb

theorem run_append (pre : List AliasCall) (c : AliasCall) (g : AliasGraph) :
    run tg kind (pre ++ [c]) g = c.handle tg kind (run tg kind pre g) := by
  simp [run]

/-! ### Sparing runs -/

/-- The invariant: tied values that are not constants are related by the pairs
    without constants. -/
def TiesApart (kind : Value → ValueKind) (cs : List AliasCall) (g : AliasGraph) : Prop :=
  ∀ u v, kind u ≠ .constantData → kind v ≠ .constantData → g.Tied u v →
    Relation.EqvGen (ConstantFree kind cs) u v

theorem tiesApart_empty : TiesApart kind [] {} := by
  intro u v _ _ huv
  rw [tied_empty.1 huv]
  exact .refl _

/-- **The step.**  A call that spares the values keeps the invariant. -/
theorem tiesApart_handle (hs : g.Sane) (hc : c.SparesValues kind g) (h : TiesApart kind cs g) :
    TiesApart kind (cs ++ [c]) (c.handle tg kind g) := by
  have heqv := tied_equivalence g
  have hold : ∀ {a b}, kind a ≠ .constantData → kind b ≠ .constantData → g.Tied a b →
      Relation.EqvGen (ConstantFree kind (cs ++ [c])) a b := fun ha hb hab =>
    constantFree_mono (List.subset_append_left cs [c]) (h _ _ ha hb hab)
  intro u v hu hv huv
  rcases tied_handle tg kind hs c huv with huv | ⟨p, q, hpq, huv⟩
  · exact hold hu hv huv
  by_cases hconst : kind p = .constantData ∨ kind q = .constantData
  · -- the constant joins nothing new
    refine hold hu hv ?_
    rcases hc p q hpq hconst with htied | hp | hq
    · rcases huv with ⟨hup, hqv⟩ | ⟨huq, hpv⟩
      · exact heqv.trans hup (heqv.trans htied hqv)
      · exact heqv.trans huq (heqv.trans (heqv.symm htied) hpv)
    · rcases huv with ⟨hup, -⟩ | ⟨-, hpv⟩
      · exact absurd (hp u (heqv.symm hup)) hu
      · exact absurd (hp v hpv) hv
    · rcases huv with ⟨-, hqv⟩ | ⟨huq, -⟩
      · exact absurd (hq v hqv) hv
      · exact absurd (hq u (heqv.symm huq)) hu
  · rw [not_or] at hconst
    obtain ⟨hp, hq⟩ := hconst
    have hrel : Relation.EqvGen (ConstantFree kind (cs ++ [c])) p q :=
      .rel _ _ ⟨⟨c, by simp, hpq⟩, hp, hq⟩
    rcases huv with ⟨hup, hqv⟩ | ⟨huq, hpv⟩
    · exact .trans _ _ _ (hold hu hp hup) (.trans _ _ _ hrel (hold hq hv hqv))
    · exact .trans _ _ _ (hold hu hq huq) (.trans _ _ _ (.symm _ _ hrel) (hold hp hv hpv))

theorem tiesApart_run (h : SparingRun tg kind cs) : TiesApart kind cs (run tg kind cs {}) := by
  induction cs using List.reverseRecOn with
  | nil => exact tiesApart_empty
  | append_singleton cs c ih =>
    rw [run_append]
    have hpre : SparingRun tg kind cs := fun pre c' hpre =>
      h pre c' (hpre.trans (List.prefix_append cs [c]))
    exact tiesApart_handle (sane_run tg kind sane_empty cs) (h cs c (List.prefix_refl _)) (ih hpre)

theorem SparingRun.apartRun (h : SparingRun tg kind cs) : ApartRun tg kind cs := by
  intro pre hpre u v hu hv huv
  have hsparing : SparingRun tg kind pre := fun pre' c hc => h pre' c (hc.trans hpre)
  exact tiesApart_run hsparing u v hu hv
    (tied_of_mem_cluster (sane_run tg kind sane_empty pre).consistent huv)

/-! ### Safe runs -/

theorem SafeRun.of_prefix {pre : List AliasCall} (hpre : pre <+: cs) (h : SafeRun tg kind cs g) :
    SafeRun tg kind pre g := by
  induction pre generalizing cs g with
  | nil => trivial
  | cons c pre ih =>
    cases cs with
    | nil => exact absurd (List.prefix_nil.1 hpre) (List.cons_ne_nil c pre)
    | cons c' cs =>
      obtain ⟨rfl, htail⟩ := List.cons_prefix_cons.1 hpre
      exact ⟨h.1, ih htail h.2⟩

/-- A call that does not spare the values joins two of them, which no pairs
    without constants relate. -/
theorem ApartRun.sparingRun (h : ApartRun tg kind cs) (htag : ∀ c ∈ cs, c.tag = none)
    (hsafe : SafeRun tg kind cs {}) : SparingRun tg kind cs := by
  intro pre c hpre p q hpq hconst
  have hpre' : pre <+: cs := (List.prefix_append pre [c]).trans hpre
  have hbefore : Represents (Handled kind pre) (run tg kind pre {}) :=
    represents_run (fun c' hc' => htag c' (hpre'.subset hc')) (hsafe.of_prefix hpre')
  have hafter : Represents (Handled kind (pre ++ [c])) (run tg kind (pre ++ [c]) {}) :=
    represents_run (fun c' hc' => htag c' (hpre.subset hc')) (hsafe.of_prefix hpre)
  have hmono : ∀ {a b}, Relation.EqvGen (Handled kind pre) a b →
      Relation.EqvGen (Handled kind (pre ++ [c])) a b := by
    intro a b hab
    exact hab.mono fun _ _ => Handled.mono (List.subset_append_left pre [c])
  by_contra hnot
  rw [not_or, not_or] at hnot
  obtain ⟨hpq', hp, hq⟩ := hnot
  push Not at hp hq
  obtain ⟨u, hpu, hu⟩ := hp
  obtain ⟨v, hqv, hv⟩ := hq
  rw [hbefore.tied_iff] at hpq' hpu hqv
  have hrel : Relation.EqvGen (Handled kind (pre ++ [c])) p q :=
    .rel _ _ ⟨c, by simp, hpq⟩
  have huv : Relation.EqvGen (Handled kind (pre ++ [c])) u v :=
    .trans _ _ _ (.symm _ _ (hmono hpu)) (.trans _ _ _ hrel (hmono hqv))
  have hapart : ∀ {a b}, Relation.EqvGen (ConstantFree kind pre) a b →
      Relation.EqvGen (Handled kind pre) a b := fun hab => hab.mono fun _ _ hab => hab.1
  refine hpq' ?_
  rcases hafter.tied_iff.2 huv with heq | ⟨x, y, hx, -⟩
  · rw [← heq] at hqv
    exact .trans _ _ _ hpu (.symm _ _ hqv)
  · have hcluster : v ∈ (run tg kind (pre ++ [c]) {}).getClusterValues u ∅ :=
      (hafter.mem_cluster_iff (by rw [hx]; rfl)).2 huv
    have huv' := hapart (constantFree_append hpq hconst (h _ hpre u v hu hv hcluster))
    exact .trans _ _ _ hpu (.trans _ _ _ huv' (.symm _ _ hqv))

end AliasCall

/-! ## Sequences of handlers -/

/-- A call of `HandleInst` or of `HandleReturn`, or the move of one actual argument. -/
inductive HandlerStep where
  | inst (I : Value)
  | ret (F cai : Value)
  | argument (cai f : Value) (j : ℕ)
deriving DecidableEq

namespace Program

variable (P : Program) (Ctx : GlobalContext)

/-- The handler calls of a step. -/
def stepCalls : HandlerStep → List AliasCall
  | .inst I => P.HandleInst Ctx I
  | .ret F cai => P.HandleReturn F cai
  | .argument cai f j => ((P.argMoves cai f)[j]?).toList

/-- The handler calls of a sequence of steps. -/
def handlerCalls (steps : List HandlerStep) : List AliasCall := steps.flatMap (P.stepCalls Ctx)

end Program

/-- **Constants and aliases.**  In a run whose calls all spare the values, constants
    make no aliases in any state reached; on safe chains without tags they make
    none in no other runs. -/
theorem constantsApart_run (tg : TBAAGraph) (P : Program) (Ctx : GlobalContext)
    (steps : List HandlerStep) :
    (AliasCall.SparingRun tg P.kind (P.handlerCalls Ctx steps) →
      AliasCall.ApartRun tg P.kind (P.handlerCalls Ctx steps)) ∧
    ((∀ c ∈ P.handlerCalls Ctx steps, c.tag = none) →
      AliasCall.SafeRun tg P.kind (P.handlerCalls Ctx steps) {} →
      AliasCall.ApartRun tg P.kind (P.handlerCalls Ctx steps) →
      AliasCall.SparingRun tg P.kind (P.handlerCalls Ctx steps)) :=
  ⟨fun h => h.apartRun, fun htag hsafe h => h.sparingRun htag hsafe⟩

/-- `f() { return NULL; }`, `g() { return NULL; }` and `main() { f(); g(); }`: the
    constant `0`, the function `1` with the return `2`, the function `3` with the
    return `4`, and the calls `6` and `7` of the function `5`. -/
def returnsNull : Program :=
  { Program.ofTable [(.constantData, []), (.function, []), (.instruction .ret, [0]),
      (.function, []), (.instruction .ret, [0]), (.function, []), (.instruction .call, [1]),
      (.instruction .call, [3])] (by decide) with
    insts := fun F => if F = 1 then [2] else if F = 3 then [4] else if F = 5 then [6, 7] else []
    getFunction := fun v => if v = 2 then 1 else if v = 4 then 3 else 5
    isDeclaration := fun _ => false }

/-- `f() { return NULL; }`, `g(x) { return x; }` and `main() { g(f()); }`: the constant `0`,
    the function `1` with the return `2`, the function `3` with the formal `4` and the
    return `5`, and the calls `7` and `8` of the function `6`. -/
def returnsBoth : Program :=
  { Program.ofTable [(.constantData, []), (.function, []), (.instruction .ret, [0]),
      (.function, []), (.argument, []), (.instruction .ret, [4]), (.function, []),
      (.instruction .call, [1]), (.instruction .call, [7, 3])] (by decide) with
    args := fun F => if F = 3 then [4] else []
    insts := fun F => if F = 1 then [2] else if F = 3 then [5] else if F = 6 then [7, 8] else []
    getFunction := fun v => if v = 2 then 1 else if v = 4 ∨ v = 5 then 3 else 6
    isDeclaration := fun _ => false }

/-- One result that may be null has no aliases, whatever else is returned: the return
    instruction of `f` skips the constant, and the call result enters a class of constants. -/
theorem constantsApart_returnsBoth :
    AliasCall.ApartRun .empty returnsBoth.kind
      (returnsBoth.handlerCalls {} [.inst 2, .ret 1 7, .inst 5, .ret 3 8]) := by
  refine (constantsApart_run .empty returnsBoth {} [.inst 2, .ret 1 7, .inst 5, .ret 3 8]).1 ?_
  have hcalls : returnsBoth.handlerCalls {} [.inst 2, .ret 1 7, .inst 5, .ret 3 8] =
      [.move 0 7, .move 5 4, .move 4 8] := by decide
  rw [hcalls]
  intro pre c hpre p q hpq hconst
  cases pre with
  | nil =>
    obtain ⟨rfl, -⟩ := List.cons_prefix_cons.1 hpre
    cases hpq
    refine Or.inr (Or.inl fun u hu => ?_)
    rw [← AliasGraph.tied_empty.1 hu]
    decide
  | cons a pre =>
    -- no other move has a constant
    obtain ⟨-, htail⟩ := List.cons_prefix_cons.1 hpre
    have hc : c ∈ [AliasCall.move 5 4, .move 4 8] := htail.subset (by simp)
    rcases List.mem_pair.1 hc with rfl | rfl
    · cases hpq
      exact absurd hconst (by decide)
    · cases hpq
      exact absurd hconst (by decide)

/-- The results `6` and `7` share a cluster through the constant. -/
theorem null_joins_results :
    ¬ ∀ (tg : TBAAGraph) (P : Program) (Ctx : GlobalContext) (steps : List HandlerStep),
      (∀ I, P.tbaa I = none) → AliasCall.ConstantsApart P.kind (P.handlerCalls Ctx steps)
        (AliasCall.run tg P.kind (P.handlerCalls Ctx steps) {}) := by
  intro h
  have hcalls : returnsNull.handlerCalls {} [.ret 1 6, .ret 3 7] = [.move 0 6, .move 0 7] := by
    decide
  have hcluster : 7 ∈ (AliasCall.run .empty returnsNull.kind [.move 0 6, .move 0 7] {}
      ).getClusterValues 6 ∅ := by decide
  have hrel := h .empty returnsNull {} [.ret 1 6, .ret 3 7] (fun _ => rfl) 6 7 (by decide)
    (by decide) (by rw [hcalls]; exact hcluster)
  rw [hcalls] at hrel
  have hnone : ∀ a b, ¬ AliasCall.ConstantFree returnsNull.kind [.move 0 6, .move 0 7] a b := by
    rintro a b ⟨⟨c, hc, hop⟩, ha, -⟩
    refine ha ?_
    rcases List.mem_pair.1 hc with rfl | rfl <;> (cases hop; decide)
  exact absurd (Links.eq_of_eqvGen (hnone 6) (fun a => hnone a 6) hrel) (by decide)

end TFA
