/-
  What the pool connects around a value.

  A `Search` is what an analysis starts from: its first calls and values, the value `V` whose
  cluster it looks for, and the functions that it follows from their uses.

  * `Explored`: the values that are connected with `V`, if all handler calls for their
    function are in the pool (`Handled`);
  * `Marked`: the objects that explored values point to;
  * `explored_inst_iff`: within a handled function, an instruction is explored with the
    operands that a handler call joins it to;
  * `Explored.argument`, `Explored.passed`, `explored_iff_result`: so are a formal and the
    arguments that are passed for it, and a call and the values that are returned to it;
  * `marked_global`, `explored_iff_initializer`: so are the definitions of a global variable, and
    what its initializer contains.
-/
import TFA.Alias.Executions

namespace TFA

open AliasCall

namespace Program

/-! ## Operators -/

section
variable (P : Program)

/-- A constant expression of operators over the value `b`. -/
inductive Over (b : Value) : Value → Prop
  | refl : Over b b
  | operator {v op o} (hkind : P.kind v = .constantExpr o) (hop : P.isOperator v = true)
      (hoperand : P.operand0 v = some op) (h : Over b op) : Over b v

variable {P} {follow : Value → Bool} {b v op x I : Value} {r : RunValue}

theorem not_isRegister_of_constantExpr {o : Opcode} (h : P.kind v = .constantExpr o) :
    ¬ P.IsRegister v := by
  simp [IsRegister, h]

theorem mem_users_of_operand0 (h : P.operand0 v = some op) : v ∈ P.users op :=
  (P.mem_users op v).2 (List.mem_of_mem_head? h)

theorem Over.not_isRegister (h : P.Over b x) (hb : ¬ P.IsRegister b) : ¬ P.IsRegister x := by
  cases h with
  | refl => exact hb
  | operator hkind => exact not_isRegister_of_constantExpr hkind

/-- A search that follows operators goes from the value to what uses the expression. -/
theorem Over.usedThrough (h : P.Over b x)
    (hfollow : ∀ u o, P.kind u = .constantExpr o → P.isOperator u = true → follow u = true)
    (hI : I ∈ P.users x) : P.UsedThrough follow b I := by
  induction h generalizing I with
  | refl => exact .user hI
  | operator hkind hop hoperand _ ih =>
    have hused := ih (mem_users_of_operand0 hoperand)
    exact .follow hused (hfollow _ _ hkind hop) hI

/-- What a constant stands for. -/
theorem ConstantValue.over (h : P.ConstantValue x r) : r = .data ∨ ∃ b, P.Over b x ∧
    (P.kind b = .function ∧ r = .function b ∨
      P.kind b = .globalVariable ∧ ∃ k, r = .pointer (.global (P.getGUID b)) k) := by
  induction h with
  | data => exact Or.inl rfl
  | @function F hkind => exact Or.inr ⟨F, .refl, Or.inl ⟨hkind, rfl⟩⟩
  | @globalVariable GV hkind => exact Or.inr ⟨GV, .refl, Or.inr ⟨hkind, 0, rfl⟩⟩
  | operator hkind hop hoperand _ hr ih =>
    rcases ih with rfl | ⟨b, hover, hbase⟩
    · cases hr <;> exact Or.inl rfl
    · have hover' := Over.operator hkind hop hoperand hover
      rcases hbase with ⟨hb, rfl⟩ | ⟨hb, k, rfl⟩
      · cases hr with
        | same => exact Or.inr ⟨b, hover', Or.inl ⟨hb, rfl⟩⟩
        | lost => exact Or.inl rfl
      · cases hr with
        | same => exact Or.inr ⟨b, hover', Or.inr ⟨hb, k, rfl⟩⟩
        | @moved o k k' => exact Or.inr ⟨b, hover', Or.inr ⟨hb, k', rfl⟩⟩
        | lost => exact Or.inl rfl

theorem followFuncUse_of_operator {o : Opcode} (hkind : P.kind x = .constantExpr o)
    (hop : P.isOperator x = true) : followFuncUse P x = true := by
  simp [followFuncUse, hkind, hop]

theorem followGlobalUse_of_operator {o : Opcode} (hkind : P.kind x = .constantExpr o)
    (hop : P.isOperator x = true) : followGlobalUse P x = true := by
  simp [followGlobalUse, hkind, hop]

theorem followUse_of_operator (hop : P.isOperator x = true) (hne : x ≠ b) :
    followUse P b x = true := by
  simp [followUse, hop, hne]

/-- A search that follows aggregates goes from a part of an initializer to what uses it. -/
theorem PartOf.usedThrough {Ini O : Value} (hO : P.PartOf Ini O)
    (hfollow : ∀ u, P.kind u = .constantAggregate → follow u = true)
    (h : ∀ W ∈ P.users O, P.UsedThrough follow b W) :
    ∀ W ∈ P.users Ini, P.UsedThrough follow b W := by
  induction hO with
  | whole => exact h
  | @element U O _ hkind hO ih =>
    have hused : P.UsedThrough follow b U := h U ((P.mem_users O U).2 hO)
    exact ih fun W hW => .follow hused (hfollow U hkind) hW

end

end Program

/-! ## Searches -/

/-- The pool leads to a global variable from a safe macro, whose copies and uses the handler
    leaves out. -/
def Program.StopsAtMacro (P : Program) (Ctx : GlobalContext) (given : AliasCall → Prop)
    (first : Value → Prop) : Prop :=
  ∃ GV, P.kind GV = .globalVariable ∧ P.Visited Ctx given first GV ∧ P.FromSafeMacro Ctx GV

/-- What an analysis starts from.  It starts with `V`, and handles what uses the functions
    that it follows. -/
structure Search (P : Program) (Ctx : GlobalContext) where
  given : AliasCall → Prop
  first : Value → Prop
  V : Value
  /-- the functions that are followed from their uses -/
  source : Value → Prop
  first_V : first V
  body_V : P.IsRegister V → ∀ c ∈ P.bodyCalls Ctx (P.getFunction V), P.Pool Ctx given first c
  kind : ∀ F, source F → P.kind F = .function
  connected : ∀ F, source F → P.Connected Ctx given first V F
  body : ∀ F, source F → ∀ I op, P.UsedThrough (followFuncUse P) F I →
    P.kind I = .instruction op → ∀ c ∈ P.bodyCalls Ctx (P.getFunction I), P.Pool Ctx given first c
  callee : ∀ F, source F → ∀ cai, P.UsedThrough (followFuncUse P) F cai →
    P.kind cai = .instruction .call → ∀ f ∈ Ctx.Callees cai, ∀ c ∈ P.calleeCalls Ctx cai f,
    P.Pool Ctx given first c
  globals : ∀ F, source F → ∀ g, P.UsedThrough (followFuncUse P) F g →
    P.kind g = .globalVariable → P.Visited Ctx given first g
  macros : ¬ P.StopsAtMacro Ctx given first

namespace Search

variable {P : Program} {Ctx : GlobalContext}

section
variable (S : Search P Ctx)

/-- The analysis can make the handler call. -/
def Calls (c : AliasCall) : Prop := P.Pool Ctx S.given S.first c

/-- All handler calls for the instructions of the function are in the pool. -/
def Handled (G : Value) : Prop := ∀ c ∈ P.bodyCalls Ctx G, S.Calls c

/-- The value is connected with `V`, and its function is handled. -/
structure Explored (x : Value) : Prop where
  connected : P.Connected Ctx S.given S.first S.V x
  handled : P.IsRegister x → S.Handled (P.getFunction x)

/-- Explored values point to the object. -/
def Marked : Object → Prop
  | .global guid => ∃ GV, P.kind GV = .globalVariable ∧ P.getGUID GV = guid ∧ S.Explored GV
  | .allocated site _ => S.Explored site

/-- No arithmetic touches what is connected with `V`, nor the functions that are followed. -/
structure Tracks : Prop where
  connected : ∀ x, P.Connected Ctx S.given S.first S.V x → P.kind x ≠ .constantData →
    P.kind x ≠ .function → ¬ P.TouchesUntracked x
  source : ∀ F, S.source F → P.UsedPlainly Ctx F

end

variable {S : Search P Ctx} {a b x y F G I O RI Ini cai f GV g : Value} {c : AliasCall}

theorem explored_V : S.Explored S.V := ⟨.refl _, S.body_V⟩

theorem explored_source (hF : S.source F) : S.Explored F :=
  ⟨S.connected F hF, fun hreg => by simp [Program.IsRegister, S.kind F hF] at hreg⟩

theorem Explored.visited (hx : S.Explored x) : P.Visited Ctx S.given S.first x :=
  Program.Visited.connected (.first S.first_V) hx.connected

/-- What is around explored values is in the pool. -/
theorem Explored.around (hx : S.Explored x) (hc : P.Around Ctx x c) : S.Calls c :=
  Or.inr ⟨x, hx.visited, hc⟩

theorem Explored.joins (ha : S.Explored a) (hc : S.Calls c) (hop : c.Joins P.kind a b)
    (hb : P.IsRegister b → S.Handled (P.getFunction b)) : S.Explored b :=
  ⟨.trans _ _ _ ha.connected (Program.Connected.of_joins hc hop), hb⟩

/-- Values of handled functions that a call joins. -/
theorem explored_iff_of_joins (hc : S.Calls c) (hop : c.Joins P.kind a b)
    (ha : P.IsRegister a → S.Handled (P.getFunction a))
    (hb : P.IsRegister b → S.Handled (P.getFunction b)) : S.Explored a ↔ S.Explored b :=
  ⟨fun h => h.joins hc hop hb, fun h => h.joins hc hop.symm ha⟩

/-- An expression of operators goes with what it is over. -/
theorem explored_iff_over (hover : P.Over b x) (hb : ¬ P.IsRegister b)
    (hcalls : ∀ c ∈ P.HandleOperator x, S.Calls c) : S.Explored x ↔ S.Explored b := by
  induction hover with
  | refl => exact Iff.rfl
  | @operator v op o hkind hop hoperand h ih =>
    rw [Program.HandleOperator_of_isOperator hop hoperand] at hcalls
    have hv := explored_iff_of_joins (hcalls _ List.mem_cons_self) (Or.inl rfl)
      (fun hreg => absurd hreg (Program.not_isRegister_of_constantExpr hkind))
      (fun hreg => absurd hreg (h.not_isRegister hb))
    exact hv.trans (ih fun c hc => hcalls c (List.mem_cons_of_mem _ hc))

theorem mem_initializerCalls {U : Value} (hU : U ∈ P.initializerOrder Ini)
    (hO : O ∈ P.operands U) (hc : c ∈ .storeValues O U :: P.HandleOperator O) :
    c ∈ P.initializerCalls GV Ini :=
  List.mem_cons_of_mem _ (List.mem_flatMap.2 ⟨U, hU, List.mem_flatMap.2 ⟨O, hO, hc⟩⟩)

/-! ### Instructions -/

/-- The handler calls for an instruction are among those for its function. -/
theorem Handled.inst (hG : S.Handled G) (hI : I ∈ P.insts G) (hc : c ∈ P.HandleInst Ctx I) :
    S.Calls c := hG c (List.mem_flatMap.2 ⟨I, hI, hc⟩)

section
variable (hP : P.Regular Ctx)
include hP

/-- The operands of an instruction that are registers are in the same function. -/
theorem handled_operand (hG : S.Handled G) (hI : I ∈ P.insts G) (hx : x ∈ P.operands I)
    (hreg : P.IsRegister x) : S.Handled (P.getFunction x) := by
  rw [(hP.operands I x hx hreg).2, hP.insts G I hI]
  exact hG

/-- An instruction is explored if its function is handled and an operand is explored that a
    handler call joins it to. -/
theorem explored_inst_iff {op : Opcode} (hI : I ∈ P.insts G) (hkind : P.kind I = .instruction op)
    (hc : c ∈ P.HandleInst Ctx I) (hop : c.Joins P.kind I x)
    (hx : P.IsRegister x → P.getFunction x = G) :
    S.Explored I ↔ S.Handled G ∧ S.Explored x := by
  have hfunction : P.getFunction I = G := hP.insts G I hI
  constructor
  · intro h
    have hG : S.Handled G := hfunction ▸ h.handled (Or.inr ⟨op, hkind⟩)
    exact ⟨hG, h.joins (hG.inst hI hc) hop fun hreg => hx hreg ▸ hG⟩
  · rintro ⟨hG, h⟩
    exact h.joins (hG.inst hI hc) hop.symm fun _ => hfunction ▸ hG

/-! ### Calls -/

/-- A formal is explored only if the arguments are that are passed for it. -/
theorem Explored.argument (hy : S.Explored y) (hcai : cai ∈ P.insts G)
    (hcaller : cai ∈ Ctx.Callers f) (hpass : (x, y) ∈ (P.callArgs cai).zip (P.args f)) :
    S.Handled G ∧ S.Explored x := by
  obtain ⟨hx, hy'⟩ := List.of_mem_zip hpass
  obtain ⟨hkind, hfunction⟩ := hP.args f y hy'
  rw [← hfunction] at hcaller hpass
  have hpool : ∀ c ∈ P.callerCalls Ctx cai (P.getFunction y), S.Calls c :=
    fun c hc => hy.around (.argument hkind hcaller hc)
  have hG : S.Handled G := fun c hc => by
    rw [← hP.insts G cai hcai] at hc
    exact hpool c (List.mem_append_right _ hc)
  have hmove : S.Calls (.move x y) :=
    hpool _ (List.mem_append_left _ (List.mem_map_of_mem hpass))
  exact ⟨hG, hy.joins hmove (Or.inr rfl)
    (handled_operand hP hG hcai (List.mem_of_mem_dropLast hx))⟩

/-- A call that the analysis goes along makes the formals of its callee explored. -/
theorem Explored.formal (hx : S.Explored x) (hcalls : ∀ c ∈ P.calleeCalls Ctx cai f, S.Calls c)
    (hpass : (x, y) ∈ (P.callArgs cai).zip (P.args f)) : S.Explored y := by
  have hmove : S.Calls (.move x y) :=
    hcalls _ (List.mem_append_right _ (List.mem_map_of_mem hpass))
  refine hx.joins hmove (Or.inl rfl) fun _ => ?_
  rw [(hP.args f y (List.of_mem_zip hpass).2).2]
  exact fun c hc => hcalls c (List.mem_append_left _ (List.mem_append_right _ hc))

/-- An argument that is explored makes the formals explored that it is passed for. -/
theorem Explored.passed (hx : S.Explored x)
    (hdata : P.kind x ≠ .constantData ∧ P.kind x ≠ .function)
    (hkind : P.kind cai = .instruction .call) (hname : P.getCalledFuncName cai ∉ HeapAllocFuncs)
    (hcallee : f ∈ Ctx.Callees cai) (hpass : (x, y) ∈ (P.callArgs cai).zip (P.args f)) :
    S.Explored y := by
  refine hx.formal hP (fun c hc => ?_) hpass
  by_cases hne : cai = x
  · -- the call is passed its own result
    subst hne
    exact hx.around (.result hkind hname hcallee hc)
  · have huser : cai ∈ P.users x :=
      (P.mem_users x cai).2 (List.mem_of_mem_dropLast (List.of_mem_zip hpass).1)
    exact hx.around (.use hdata (.user huser) hne hkind hcallee hc)

/-- A formal that a followed function is passed for is explored. -/
theorem explored_of_source (hF : S.source F) (hkind : P.kind cai = .instruction .call)
    (hcallee : f ∈ Ctx.Callees cai) (hpass : (F, y) ∈ (P.callArgs cai).zip (P.args f)) :
    S.Explored y := by
  have huser : cai ∈ P.users F :=
    (P.mem_users F cai).2 (List.mem_of_mem_dropLast (List.of_mem_zip hpass).1)
  exact (explored_source hF).formal hP (S.callee F hF cai (.user huser) hkind f hcallee) hpass

/-- A call is explored if a value is that the callee returns. -/
theorem explored_iff_result (hRI : RI ∈ P.insts f) (hret : P.kind RI = .instruction .ret)
    (hrv : P.getReturnValue RI = some x) (hdata : P.kind x ≠ .constantData)
    (hkind : P.kind cai = .instruction .call) (hname : P.getCalledFuncName cai ∉ HeapAllocFuncs)
    (hcallee : f ∈ Ctx.Callees cai) (hcaller : cai ∈ Ctx.Callers f) :
    S.Explored cai ↔ S.Handled f ∧ S.Explored x := by
  have hx : x ∈ P.operands RI := List.mem_of_mem_head? hrv
  constructor
  · intro h
    have hpool : ∀ c ∈ P.calleeCalls Ctx cai f, S.Calls c :=
      fun c hc => h.around (.result hkind hname hcallee hc)
    have hf : S.Handled f :=
      fun c hc => hpool c (List.mem_append_left _ (List.mem_append_right _ hc))
    have hmove : .move x cai ∈ P.HandleReturn f cai := by
      refine List.mem_flatMap.2 ⟨RI, List.mem_filter.2 ⟨hRI, by simpa using hret⟩, ?_⟩
      rw [hrv]
      exact List.mem_singleton_self _
    have hcall := hpool _ (List.mem_append_left _ (List.mem_append_left _ hmove))
    exact ⟨hf, h.joins hcall (Or.inr rfl) (handled_operand hP hf hRI hx)⟩
  · rintro ⟨hf, h⟩
    -- the return instruction is explored, too
    have hmove : .move RI x ∈ P.HandleInst Ctx RI := by
      unfold Program.HandleInst
      rw [if_neg (by simp [Program.isUselessInst, hret]), hret]
      simp [hrv, hdata]
    have hfunction : P.getFunction RI = f := hP.insts f RI hRI
    have hRI' : S.Explored RI := h.joins (hf.inst hRI hmove) (Or.inr rfl) fun _ => hfunction ▸ hf
    rw [← hfunction] at hcaller
    have hpool : ∀ c ∈ P.returnCalls Ctx RI cai, S.Calls c :=
      fun c hc => hRI'.around (.returned hret hcaller hc)
    have hreturn : .move x cai ∈ P.returnCalls Ctx RI cai := by
      unfold Program.returnCalls
      rw [hrv]
      exact List.mem_append_left _ (List.mem_singleton_self _)
    exact h.joins (hpool _ hreturn) (Or.inl rfl)
      fun _ c hc => hpool c (List.mem_append_right _ hc)

/-! ### Global variables -/

theorem isCopy (hg : P.kind g = .globalVariable) (hvisited : P.Visited Ctx S.given S.first g)
    (hGV : P.kind GV = .globalVariable) (hguid : P.getGUID GV = P.getGUID g) :
    P.IsCopy Ctx g GV where
  kind := hg
  unsafe_macro hmacro := S.macros ⟨g, hg, hvisited, hmacro⟩
  guid := hguid ▸ hP.globals GV hGV
  kind_copy := hGV

/-- A global variable is explored if its object is marked. -/
theorem marked_global (hGV : P.kind GV = .globalVariable) :
    S.Marked (.global (P.getGUID GV)) ↔ S.Explored GV := by
  refine ⟨?_, fun h => ⟨GV, hGV, rfl, h⟩⟩
  rintro ⟨g, hg, hguid, h⟩
  by_cases heq : GV = g
  · exact heq ▸ h
  · have hmove : .move GV g ∈ P.copyCalls g GV := by
      unfold Program.copyCalls
      rw [if_pos heq]
      exact List.mem_append_left _ (List.mem_singleton_self _)
    exact h.joins (h.around (.copy (isCopy hP hg h.visited hGV hguid.symm) hmove)) (Or.inr rfl)
      fun hreg => by simp [Program.IsRegister, hGV] at hreg

/-! ### Initializers -/

/-- The handler calls for the initializer of a visited global variable. -/
theorem calls_of_visited (hGV : P.kind GV = .globalVariable)
    (hvisited : P.Visited Ctx S.given S.first GV) (hIni : P.getInitializer GV = some Ini)
    (hc : c ∈ P.initializerCalls GV Ini) : S.Calls c := by
  refine Or.inr ⟨GV, hvisited, .copy (isCopy hP hGV hvisited hGV rfl) (List.mem_append_right _ ?_)⟩
  exact List.mem_flatMap.2 ⟨Ini, Option.mem_toList.2 hIni, hc⟩

theorem not_isRegister_part (hGV : P.kind GV = .globalVariable)
    (hIni : P.getInitializer GV = some Ini) (hO : P.PartOf Ini O) : ¬ P.IsRegister O := by
  induction hO with
  | whole =>
    intro hreg
    have hreg' := (hP.operands GV Ini (hP.initializer GV Ini hIni) hreg).1
    simp [Program.IsRegister, hGV] at hreg'
  | element _ _ hO ih => exact fun hreg => ih (hP.operands _ _ hO hreg).1

/-- The aggregates of an initializer are gone through. -/
theorem mem_initializerOrder (hIni : P.getInitializer GV = some Ini) (hO : P.PartOf Ini O)
    (hcomposite : O = Ini ∨ P.isCompositeType O = true) : O ∈ P.initializerOrder Ini := by
  have hlength : ∑ U ∈ P.values \ ∅, (P.compositeOperands U).length ≤
      ∑ U ∈ P.values, (P.operands U).length := by
    rw [Finset.sdiff_empty]
    exact Finset.sum_le_sum fun U _ => List.length_filter_le _ _
  have henough : Worklist.Enough P.compositeOperands P.values
      (∑ U ∈ P.values, (P.operands U).length + 2) [Ini] ∅ := by
    refine ⟨fun U hU => ?_, fun U _ W hW => ?_, ?_⟩
    · rw [List.mem_singleton.1 hU]
      exact (P.mem_values Ini GV (hP.initializer GV Ini hIni)).1
    · exact (P.mem_values W U (List.mem_of_mem_filter hW)).1
    · simp only [List.length_singleton]
      omega
  refine (Worklist.mem_bfsOrder_iff henough).2 ⟨Ini, List.mem_singleton_self Ini, ?_⟩
  rcases hcomposite with rfl | hcomposite
  · exact .refl
  · induction hO with
    | whole => exact .refl
    | element hU hkind hO ih =>
      exact (ih (hP.aggregates _ hkind)).tail (List.mem_filter.2 ⟨hO, hcomposite⟩)

/-- The parts of an initializer are explored with the global variable. -/
theorem explored_iff_part (hGV : P.kind GV = .globalVariable)
    (hIni : P.getInitializer GV = some Ini) (hcalls : ∀ c ∈ P.initializerCalls GV Ini, S.Calls c)
    (hO : P.PartOf Ini O) (hdata : P.kind O ≠ .constantData) : S.Explored O ↔ S.Explored GV := by
  have hregister : ∀ {U}, P.PartOf Ini U → P.IsRegister U → S.Handled (P.getFunction U) :=
    fun hU hreg => absurd hreg (not_isRegister_part hP hGV hIni hU)
  induction hO with
  | whole =>
    exact explored_iff_of_joins (hcalls _ List.mem_cons_self) (Or.inl rfl) (hregister .whole)
      fun hreg => by simp [Program.IsRegister, hGV] at hreg
  | @element U O hU hkind hO ih =>
    have horder : U ∈ P.initializerOrder Ini :=
      mem_initializerOrder hP hIni hU (Or.inr (hP.aggregates U hkind))
    have hstore : S.Calls (.storeValues O U) :=
      hcalls _ (mem_initializerCalls horder hO List.mem_cons_self)
    have hop : (AliasCall.storeValues O U).Joins P.kind O U := Or.inl (if_neg hdata)
    refine (explored_iff_of_joins hstore hop (hregister (.element hU hkind hO))
      (hregister hU)).trans (ih ?_)
    rw [hkind]
    decide

/-- A global variable is explored with the functions and global variables that its initializer
    contains. -/
theorem explored_iff_initializer (hGV : P.kind GV = .globalVariable)
    (hIni : P.getInitializer GV = some Ini) (hcalls : ∀ c ∈ P.initializerCalls GV Ini, S.Calls c)
    (hO : P.PartOf Ini O) (hover : P.Over b O)
    (hb : P.kind b = .function ∨ P.kind b = .globalVariable) : S.Explored GV ↔ S.Explored b := by
  have hregister : ¬ P.IsRegister b := by
    rcases hb with hb | hb <;> simp [Program.IsRegister, hb]
  have hne : ∀ {u}, P.Over b u → P.kind u ≠ .constantData := by
    rintro u (- | ⟨hkind, -, -, -⟩) hdata
    · rcases hb with hb | hb <;> rw [hb] at hdata <;> cases hdata
    · rw [hkind] at hdata
      cases hdata
  refine (explored_iff_part hP hGV hIni hcalls hO (hne hover)).symm.trans ?_
  cases hO with
  | element hU hkind hO =>
    have horder := mem_initializerOrder hP hIni hU (Or.inr (hP.aggregates _ hkind))
    exact explored_iff_over hover hregister fun c hc =>
      hcalls c (mem_initializerCalls horder hO (List.mem_cons_of_mem _ hc))
  | whole =>
    cases hover with
    | refl => exact Iff.rfl
    | @operator v op o hkind hop hoperand h =>
      -- the operand is stored in the expression
      have horder := mem_initializerOrder hP hIni .whole (Or.inl rfl)
      have hmem : op ∈ P.operands O := List.mem_of_mem_head? hoperand
      have hstore : S.Calls (.storeValues op O) :=
        hcalls _ (mem_initializerCalls horder hmem List.mem_cons_self)
      have hjoins : (AliasCall.storeValues op O).Joins P.kind O op := Or.inr (if_neg (hne h))
      refine (explored_iff_of_joins hstore hjoins
        (fun hreg => absurd hreg (Program.not_isRegister_of_constantExpr hkind))
        (fun hreg => absurd hreg (h.not_isRegister hregister))).trans ?_
      exact explored_iff_over h hregister fun c hc =>
        hcalls c (mem_initializerCalls horder hmem (List.mem_cons_of_mem _ hc))

/-! ### Uses of global variables -/

/-- The functions that use a global variable are handled. -/
theorem Explored.globalUse {op : Opcode} (hg : S.Explored g) (hkind : P.kind g = .globalVariable)
    (hI : P.UsedThrough (followGlobalUse P) g I) (hop : P.kind I = .instruction op) :
    S.Handled (P.getFunction I) :=
  fun _ hc => hg.around (.globalUse (isCopy hP hkind hg.visited hkind rfl) hI hop hc)

/-- The global variables that use a global variable are visited. -/
theorem Explored.globalUser (hg : S.Explored g) (hkind : P.kind g = .globalVariable)
    (hGV : P.UsedThrough (followGlobalUse P) g GV) (hkind' : P.kind GV = .globalVariable) :
    P.Visited Ctx S.given S.first GV :=
  .queued hg.visited (.user (isCopy hP hkind hg.visited hkind rfl) hGV hkind')

end

end Search

end TFA
