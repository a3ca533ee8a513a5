/-
  The handler calls that an alias analysis can make.

  * `Visited`: the values that an analysis can come across: those that it starts with, those
    that calls for what surrounds such values join to them, and the global variables that
    the handler queues with a global variable;
  * `Pool`: the handler calls for what surrounds visited values, and those of the start;
  * `Connected`: the pool connects two values.  An analysis that succeeds should find exactly
    what is connected with the value that it starts from.
-/
import TFA.Alias.Surroundings
import TFA.Alias.TwoRuns

namespace TFA

/-! ## Joined values -/

namespace AliasCall

/-- The call joins the two values. -/
def Joins (kind : Value → ValueKind) (c : AliasCall) (a b : Value) : Prop :=
  c.operands kind = some (a, b) ∨ c.operands kind = some (b, a)

variable {kind : Value → ValueKind} {c : AliasCall} {a b : Value}

theorem Joins.symm (h : c.Joins kind a b) : c.Joins kind b a := Or.symm h

/-- The operands of a call get nodes. -/
theorem values_of_operands (h : c.operands kind = some (a, b)) :
    a ∈ c.values kind ∧ b ∈ c.values kind := by
  cases c with
  | alloc ALI => cases h
  | load LI op tag => cases h; simp [values]
  | move v1 v2 => cases h; simp [values]
  | store vop pop tag | storeValues vop pop =>
    by_cases hdata : kind vop = .constantData
    · simp [operands, hdata] at h
    · simp [operands, hdata] at h
      obtain ⟨rfl, rfl⟩ := h
      simp [values, hdata]

theorem Joins.mem_values (h : c.Joins kind a b) : a ∈ c.values kind := by
  rcases h with h | h
  · exact (values_of_operands h).1
  · exact (values_of_operands h).2

end AliasCall

open AliasCall

/-! ## The pool -/

namespace Program

variable (P : Program) (Ctx : GlobalContext) (given : AliasCall → Prop) (first : Value → Prop)

/-- The values that an analysis can come across. -/
inductive Visited : Value → Prop
  | first {v} (hv : first v) : Visited v
  /-- a call that is made at the start joins the value to one of them -/
  | given {c a b} (ha : Visited a) (hc : given c) (hop : c.Joins P.kind a b) : Visited b
  /-- a call for what surrounds one of them joins it to another one -/
  | around {u c a b} (hu : Visited u) (ha : Visited a) (hc : P.Around Ctx u c)
      (hop : c.Joins P.kind a b) : Visited b
  /-- it is queued with one of them -/
  | queued {v g} (hv : Visited v) (hg : P.Queues Ctx v g) : Visited g

/-- The handler calls that an analysis can make. -/
def Pool (c : AliasCall) : Prop := given c ∨ ∃ u, P.Visited Ctx given first u ∧ P.Around Ctx u c

/-- A call of the pool has these operands. -/
def Pooled (a b : Value) : Prop := ∃ c, P.Pool Ctx given first c ∧ c.operands P.kind = some (a, b)

/-- Calls of the pool connect the two values. -/
def Connected : Value → Value → Prop := Relation.EqvGen (P.Pooled Ctx given first)

variable {P Ctx given first} {a b : Value} {c : AliasCall}

theorem Visited.joins (ha : P.Visited Ctx given first a) (hc : P.Pool Ctx given first c)
    (hop : c.Joins P.kind a b) : P.Visited Ctx given first b := by
  rcases hc with hc | ⟨u, hu, hc⟩
  · exact .given ha hc hop
  · exact .around hu ha hc hop

theorem Connected.of_joins (hc : P.Pool Ctx given first c) (hop : c.Joins P.kind a b) :
    P.Connected Ctx given first a b := by
  rcases hop with hop | hop
  · exact .rel _ _ ⟨c, hc, hop⟩
  · exact .symm _ _ (.rel _ _ ⟨c, hc, hop⟩)

/-- Connected values are joined step by step. -/
theorem connected_induction {I : Value → Prop} (h : P.Connected Ctx given first a b)
    (hstep : ∀ c a b, P.Pool Ctx given first c → c.Joins P.kind a b → I a → I b) (ha : I a) :
    I b := by
  unfold Connected at h
  rw [← Relation.EqvGen.reflTransGen_symmGen] at h
  induction h with
  | refl => exact ha
  | tail _ hstep' ih =>
    rcases hstep' with ⟨c, hc, hop⟩ | ⟨c, hc, hop⟩
    · exact hstep c _ _ hc (Or.inl hop) ih
    · exact hstep c _ _ hc (Or.inr hop) ih

/-- What the pool connects is visited together. -/
theorem Visited.connected (ha : P.Visited Ctx given first a)
    (h : P.Connected Ctx given first a b) : P.Visited Ctx given first b :=
  connected_induction h (fun _ _ _ hc hop ha => ha.joins hc hop) ha

/-- The values that the analysis of a function starts with. -/
def FirstAtUse (P : Program) (F v : Value) : Prop :=
  v = F ∨ P.UsedThrough (followFuncUse P) F v ∧
    (P.kind v = .instruction .call ∨ P.kind v = .globalVariable)

end Program

end TFA
