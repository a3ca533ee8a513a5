/-
  What the alias analyses find, against what programs do when they run.

  * `Agrees`: a value at run time goes with where it is: an explored place does not hold a
    function that is not explored, nor a pointer to an unmarked object, and no other place holds
    a followed function or a pointer to a marked object;
  * `AllAgree`: all registers and cells agree, which holds of the first states
    (`allAgree_initial`) and which every step keeps (`AllAgree.step`);
  * `runTime_HandleICall`: so an analysis that succeeds reports every target that an indirect
    call has in any execution along the call graph, unless something is missed;
  * `runTime_HandleFunc`: the same of the calls of a function.
-/
import TFA.Alias.Searches
import TFA.Alias.Complete

namespace TFA

open AliasCall LoopState Program

namespace Search

variable {P : Program} {Ctx : GlobalContext}

section
variable (S : Search P Ctx)

/-- A place, which is explored if `p` holds, may hold the value. -/
def Agrees (p : Prop) : RunValue → Prop
  | .data => True
  | .function F => P.kind F = .function ∧ (p → S.Explored F) ∧ (S.source F → p)
  | .pointer o _ => p ↔ S.Marked o

/-- All registers and cells agree, and activations are called along the call graph. -/
structure AllAgree (σ : RunState) : Prop where
  registers : ∀ a A, σ.activations a = some A → ∀ v, S.Agrees (S.Explored v) (A.registers v)
  memory : ∀ o k, S.Agrees (S.Marked o) (σ.memory o k)
  callers : ∀ b B, σ.activations b = some B → ∀ a cai, B.caller = some (a, cai) →
    P.kind cai = .instruction .call ∧ P.getCalledFuncName cai ∉ HeapAllocFuncs ∧
      B.function ∈ Ctx.Callees cai ∧ cai ∈ Ctx.Callers B.function

end

variable {S : Search P Ctx} {p q : Prop} {r r' : RunValue} {A : Activation}
  {x I G F b : Value} {σ σ' : RunState}

theorem Agrees.congr (h : S.Agrees p r) (hpq : q ↔ p) : S.Agrees q r := by
  rwa [propext hpq]

/-- What is derived from a value agrees, too. -/
theorem Agrees.derives (h : S.Agrees p r) (hr : r.Derives r') : S.Agrees p r' := by
  cases hr with
  | same => exact h
  | moved => exact h
  | lost => trivial

/-! ## States -/

/-- A register is set to a value that agrees with it. -/
theorem AllAgree.setRegister {a : ℕ} (h : S.AllAgree σ) (hA : σ.activations a = some A)
    (hr : S.Agrees (S.Explored I) r) : S.AllAgree (σ.setRegister a A I r) where
  registers a' A' hA' v := by
    by_cases heq : a' = a
    · subst heq
      have hA' : some { A with registers := Function.update A.registers I r } = some A' := by
        simpa [RunState.setRegister] using hA'
      cases hA'
      by_cases hv : v = I
      · subst hv
        simpa using hr
      · simpa [hv] using h.registers a' A hA v
    · exact h.registers a' A' (by simpa [RunState.setRegister, heq] using hA') v
  memory := h.memory
  callers b B hB := by
    by_cases heq : b = a
    · subst heq
      have hB' : some { A with registers := Function.update A.registers I r } = some B := by
        simpa [RunState.setRegister] using hB
      cases hB'
      exact h.callers b A hA
    · exact h.callers b B (by simpa [RunState.setRegister, heq] using hB)

/-- A value is written to an object that it agrees with. -/
theorem AllAgree.write {o : Object} (k : ℤ) (h : S.AllAgree σ) (hr : S.Agrees (S.Marked o) r) :
    S.AllAgree (σ.write o k r) where
  registers := h.registers
  memory o' k' := by
    by_cases heq : o' = o
    · subst heq
      by_cases hk : k' = k
      · subst hk
        simpa [RunState.write] using hr
      · simpa [RunState.write, hk] using h.memory o' k'
    · simpa [RunState.write, heq] using h.memory o' k'
  callers := h.callers

/-- Cells are copied between objects that are marked together. -/
theorem AllAgree.copy {dst src : Object} (k k' : ℤ) (n : ℕ) (h : S.AllAgree σ)
    (hmarked : S.Marked dst ↔ S.Marked src) : S.AllAgree (σ.copy dst k src k' n) where
  registers := h.registers
  memory o i := by
    by_cases heq : o = dst
    · subst heq
      by_cases hi : k ≤ i ∧ i < k + n
      · simpa [RunState.copy, hi] using (h.memory src (k' + (i - k))).congr hmarked
      · simpa [RunState.copy, hi] using h.memory o i
    · simpa [RunState.copy, heq] using h.memory o i
  callers := h.callers

/-- An activation begins with registers that agree. -/
theorem AllAgree.activate {b : ℕ} {B : Activation} (h : S.AllAgree σ)
    (hB : ∀ v, S.Agrees (S.Explored v) (B.registers v))
    (hcaller : ∀ a cai, B.caller = some (a, cai) → P.kind cai = .instruction .call ∧
      P.getCalledFuncName cai ∉ HeapAllocFuncs ∧ B.function ∈ Ctx.Callees cai ∧
        cai ∈ Ctx.Callers B.function) : S.AllAgree (σ.activate b B) where
  registers a A hA := by
    by_cases heq : a = b
    · subst heq
      have hA' : some B = some A := by simpa [RunState.activate] using hA
      cases hA'
      exact hB
    · exact h.registers a A (by simpa [RunState.activate, heq] using hA)
  memory := h.memory
  callers a A hA := by
    by_cases heq : a = b
    · subst heq
      have hA' : some B = some A := by simpa [RunState.activate] using hA
      cases hA'
      exact hcaller
    · exact h.callers a A (by simpa [RunState.activate, heq] using hA)

/-! ## Handler calls -/

section
variable {op : Opcode} {c : AliasCall}

theorem isUselessInst_of_kind (hkind : P.kind I = .instruction op) (hcall : op ≠ .call) :
    P.isUselessInst I = false := by
  simp [Program.isUselessInst, hkind, hcall]

theorem load_mem_HandleInst (hkind : P.kind I = .instruction .load) (hx : P.operand0 I = some x) :
    .load I x (P.tbaa I) ∈ P.HandleInst Ctx I := by
  have huse := isUselessInst_of_kind hkind (by decide)
  simp [Program.HandleInst, huse, hkind, hx]

theorem move_mem_HandleInst (hkind : P.kind I = .instruction op) (hderives : op.derives = true)
    (hx : P.operand0 I = some x) : .move I x ∈ P.HandleInst Ctx I := by
  cases op <;> cases hderives
  all_goals
    have huse := isUselessInst_of_kind hkind (by decide)
    simp [Program.HandleInst, huse, hkind, hx]

theorem phi_mem_HandleInst (hkind : P.kind I = .instruction .phi) (hx : x ∈ P.operands I) :
    .move I x ∈ P.HandleInst Ctx I := by
  have huse := isUselessInst_of_kind hkind (by decide)
  simp [Program.HandleInst, huse, hkind, hx]

theorem select_mem_HandleInst (hkind : P.kind I = .instruction .select)
    (hx : x ∈ (P.operands I).drop 1) : .move I x ∈ P.HandleInst Ctx I := by
  have huse := isUselessInst_of_kind hkind (by decide)
  unfold Program.HandleInst
  rw [if_neg (by simp [huse]), hkind]
  exact List.mem_append_right _ (List.mem_map_of_mem hx)

theorem store_mem_HandleInst {pop : Value} {rest : List Value}
    (hkind : P.kind I = .instruction .store) (hoperands : P.operands I = x :: pop :: rest) :
    .store x pop (P.tbaa I) ∈ P.HandleInst Ctx I := by
  have huse := isUselessInst_of_kind hkind (by decide)
  unfold Program.HandleInst
  rw [if_neg (by simp [huse]), hkind, hoperands]
  exact List.mem_append_right _ (List.mem_singleton_self _)

theorem HandleCai_subset (hkind : P.kind I = .instruction .call)
    (hname : P.getCalledFuncName I ∉ DebugFuncs) (hc : c ∈ P.HandleCai Ctx I) :
    c ∈ P.HandleInst Ctx I := by
  unfold Program.HandleInst
  rw [if_neg (by simp [Program.isUselessInst, hname]), hkind]
  exact List.mem_append_right _ hc

theorem copy_mem_HandleInst {src : Value} {rest : List Value}
    (hkind : P.kind I = .instruction .call) (hname : P.getCalledFuncName I ∈ CopyFuncs)
    (hargs : P.callArgs I = x :: src :: rest) : .move x src ∈ P.HandleInst Ctx I := by
  have hdisjoint : ∀ name ∈ CopyFuncs, name ∉ DebugFuncs := by decide
  refine HandleCai_subset hkind (hdisjoint _ hname) ?_
  unfold Program.HandleCai
  rw [if_pos hname, hargs]
  exact List.mem_append_right _ (List.mem_singleton_self _)

theorem symbol_mem_HandleInst (hkind : P.kind I = .instruction .call)
    (hname : P.getCalledFuncName I = "__symbol_get") (hF : F ∈ P.symbolTargets Ctx I) :
    .move I F ∈ P.HandleInst Ctx I := by
  refine HandleCai_subset hkind (by rw [hname]; decide) ?_
  unfold Program.HandleCai
  rw [if_neg (by rw [hname]; decide), if_pos hname]
  exact List.mem_append_right _ (List.mem_map_of_mem hF)

end

/-! ## Operands -/

section
variable (hP : P.Regular Ctx)
include hP

/-- A constant operand agrees. -/
theorem agrees_constant {op : Opcode} (hI : I ∈ P.insts G) (hkind : P.kind I = .instruction op)
    (huse : P.isUselessInst I = false) (hx : x ∈ P.operands I) (hr : P.ConstantValue x r) :
    S.Agrees (S.Handled G ∧ S.Explored x) r := by
  have huser : I ∈ P.users x := (P.mem_users x I).2 hx
  have hfunction : P.getFunction I = G := hP.insts G I hI
  have hoperators : S.Handled G → ∀ c ∈ P.HandleOperator x, S.Calls c := by
    intro hG c hc
    refine hG.inst hI ?_
    unfold Program.HandleInst
    rw [if_neg (by simp [huse])]
    exact List.mem_append_left _ (List.mem_flatMap.2 ⟨x, hx, hc⟩)
  rcases hr.over with rfl | ⟨b, hover, ⟨hb, rfl⟩ | ⟨hb, k, rfl⟩⟩
  · trivial
  · have hregister : ¬ P.IsRegister b := by simp [IsRegister, hb]
    refine ⟨hb, fun h => (explored_iff_over hover hregister (hoperators h.1)).1 h.2,
      fun hsource => ?_⟩
    have hused := hover.usedThrough (fun _ _ => followFuncUse_of_operator) huser
    have hG : S.Handled G := hfunction ▸ S.body b hsource I op hused hkind
    exact ⟨hG, (explored_iff_over hover hregister (hoperators hG)).2 (explored_source hsource)⟩
  · have hregister : ¬ P.IsRegister b := by simp [IsRegister, hb]
    refine Iff.trans ?_ (marked_global hP hb).symm
    constructor
    · rintro ⟨hG, h⟩
      exact (explored_iff_over hover hregister (hoperators hG)).1 h
    · intro h
      have hused := hover.usedThrough (fun _ _ => followGlobalUse_of_operator) huser
      have hG : S.Handled G := hfunction ▸ h.globalUse hP hb hused hkind
      exact ⟨hG, (explored_iff_over hover hregister (hoperators hG)).2 h⟩

omit hP in
/-- A constant that is no operator holds data, or is what it stands for. -/
theorem evaluates_cases (hreg : ¬ P.IsRegister x) (hop : ∀ o, P.kind x ≠ .constantExpr o)
    (hr : P.Evaluates A x r) :
    r = .data ∨ P.kind x = .function ∧ r = .function x ∨ P.kind x = .globalVariable := by
  cases hr with
  | register h => exact absurd h hreg
  | constant h =>
    rcases h.over with rfl | ⟨b, hover, hb⟩
    · exact Or.inl rfl
    · cases hover with
      | operator hkind => exact absurd hkind (hop _)
      | refl => exact Or.inr (hb.imp_right And.left)

omit hP in
theorem eq_data_of_constantData (hkind : P.kind x = .constantData) (hr : P.Evaluates A x r) :
    r = .data := by
  have hcases := evaluates_cases (by simp [IsRegister, hkind]) (by simp [hkind]) hr
  simpa [hkind] using hcases

omit hP in
theorem eq_of_function (hkind : P.kind x = .function) (hr : P.Evaluates A x r) :
    r = .data ∨ r = .function x := by
  have hcases := evaluates_cases (by simp [IsRegister, hkind]) (by simp [hkind]) hr
  simpa [hkind] using hcases

/-- An operand agrees, as far as the function is handled. -/
theorem agrees_operand {op : Opcode} (hA : ∀ v, S.Agrees (S.Explored v) (A.registers v))
    (hI : I ∈ P.insts A.function) (hkind : P.kind I = .instruction op)
    (huse : P.isUselessInst I = false) (hx : x ∈ P.operands I) (hr : P.Evaluates A x r) :
    S.Agrees (S.Handled A.function ∧ S.Explored x) r := by
  cases hr with
  | constant h => exact agrees_constant hP hI hkind huse hx h
  | register hreg =>
    refine (hA x).congr ⟨And.right, fun h => ⟨?_, h⟩⟩
    have hfunction := (hP.operands I x hx hreg).2
    rw [hP.insts _ I hI] at hfunction
    exact hfunction ▸ h.handled hreg

/-! ## Instructions -/

/-- The result of a move agrees with its operand. -/
theorem agrees_move {op : Opcode} (hA : ∀ v, S.Agrees (S.Explored v) (A.registers v))
    (hI : I ∈ P.insts A.function) (hkind : P.kind I = .instruction op)
    (huse : P.isUselessInst I = false) (hx : x ∈ P.operands I)
    (hmove : .move I x ∈ P.HandleInst Ctx I) (hr : P.Evaluates A x r) :
    S.Agrees (S.Explored I) r := by
  refine (agrees_operand hP hA hI hkind huse hx hr).congr ?_
  refine explored_inst_iff hP hI hkind hmove (Or.inl rfl) fun hreg => ?_
  rw [(hP.operands I x hx hreg).2, hP.insts _ I hI]

/-- An operand of arithmetic or inline assembly has no followed functions and no pointers to
    marked objects. -/
theorem agrees_untracked (hS : S.Tracks) (hA : ∀ v, S.Agrees (S.Explored v) (A.registers v))
    (hI : P.Untracked I) (hx : x ∈ P.operands I) (hr : P.Evaluates A x r) :
    S.Agrees False r := by
  have huser : I ∈ P.users x := (P.mem_users x I).2 hx
  cases hr with
  | register hreg =>
    have hx' : ¬ S.Explored x := by
      intro h
      refine hS.connected x h.connected ?_ ?_ (Or.inr ⟨I, .user huser, hI⟩)
      · rintro hkind
        simp [Program.IsRegister, hkind] at hreg
      · rintro hkind
        simp [Program.IsRegister, hkind] at hreg
    exact (hA x).congr ⟨False.elim, hx'⟩
  | constant h =>
    rcases h.over with rfl | ⟨b, hover, ⟨hb, rfl⟩ | ⟨hb, k, rfl⟩⟩
    · trivial
    · refine ⟨hb, False.elim, fun hsource => ?_⟩
      exact (hS.source b hsource).tracked I
        (hover.usedThrough (fun _ _ => followFuncUse_of_operator) huser) hI
    · refine ⟨False.elim, fun hmarked => ?_⟩
      have hused : P.UsedThrough (followUse P b) b I := by
        refine hover.usedThrough (fun u o hkind hop => followUse_of_operator hop ?_) huser
        rintro rfl
        rw [hb] at hkind
        cases hkind
      exact hS.connected b ((marked_global hP hb).1 hmarked).connected (by simp [hb])
        (by simp [hb]) (Or.inr ⟨I, hused, hI⟩)

/-- The result of an instruction agrees. -/
theorem agrees_computes {op : Opcode} (hS : S.Tracks)
    (hA : ∀ v, S.Agrees (S.Explored v) (A.registers v))
    (hM : ∀ o k, S.Agrees (S.Marked o) (σ.memory o k)) (hI : I ∈ P.insts A.function)
    (hop : P.kind I = .instruction op) (h : P.Computes Ctx σ A I r) :
    S.Agrees (S.Explored I) r := by
  cases h with
  | alloca n hkind => exact Iff.rfl
  | heap n hkind hname => exact Iff.rfl
  | @load x o k hkind hoperand h =>
    have hx : x ∈ P.operands I := List.mem_of_mem_head? hoperand
    have huse := isUselessInst_of_kind hkind (by decide)
    have hpointer : S.Handled A.function ∧ S.Explored x ↔ S.Marked o :=
      agrees_operand hP hA hI hkind huse hx h
    refine (hM o k).congr (Iff.trans ?_ hpointer)
    refine explored_inst_iff hP hI hkind (load_mem_HandleInst hkind hoperand) (Or.inl rfl)
      fun hreg => ?_
    rw [(hP.operands I x hx hreg).2, hP.insts _ I hI]
  | derived hkind hderives hoperand h hr =>
    have huse := isUselessInst_of_kind hkind (by rintro rfl; cases hderives)
    exact (agrees_move hP hA hI hkind huse (List.mem_of_mem_head? hoperand)
      (move_mem_HandleInst hkind hderives hoperand) h).derives hr
  | phi hkind hoperand h =>
    exact agrees_move hP hA hI hkind (isUselessInst_of_kind hkind (by decide)) hoperand
      (phi_mem_HandleInst hkind hoperand) h
  | select hkind hoperand h =>
    exact agrees_move hP hA hI hkind (isUselessInst_of_kind hkind (by decide))
      (List.mem_of_mem_drop hoperand) (select_mem_HandleInst hkind hoperand) h
  | @symbol F hkind hname hF =>
    refine ⟨hP.names I F hF, fun h => ?_, fun hsource => absurd hF ((hS.source F hsource).names I)⟩
    have hF' : ¬ P.IsRegister F := by simp [IsRegister, hP.names I F hF]
    exact ((explored_inst_iff hP hI hkind (symbol_mem_HandleInst hkind hname hF) (Or.inl rfl)
      fun hreg => absurd hreg hF').1 h).2
  | untracked hI hoperand h hr =>
    have hI' : ¬ S.Explored I := fun h =>
      hS.connected I h.connected (by simp [hop]) (by simp [hop]) (Or.inl hI)
    exact ((agrees_untracked hP hS hA hI hoperand h).derives hr).congr ⟨hI', False.elim⟩
  | data => trivial

/-! ## Steps -/

/-- The pointer operand of an instruction points to a marked object if it is explored. -/
theorem marked_iff {op : Opcode} {o : Object} {k : ℤ} (h : S.AllAgree σ) {a : ℕ}
    (hA : σ.activations a = some A) (hI : I ∈ P.insts A.function)
    (hkind : P.kind I = .instruction op) (huse : P.isUselessInst I = false)
    (hx : x ∈ P.operands I) (hr : P.Evaluates A x (.pointer o k)) :
    S.Handled A.function ∧ S.Explored x ↔ S.Marked o :=
  agrees_operand hP (h.registers a A hA) hI hkind huse hx hr

/-- Two operands of a handler call are explored together. -/
theorem operands_explored_iff {c : AliasCall} {y : Value} (hI : I ∈ P.insts G)
    (hx : x ∈ P.operands I) (hy : y ∈ P.operands I) (hc : c ∈ P.HandleInst Ctx I)
    (hop : c.Joins P.kind x y) :
    S.Handled G ∧ S.Explored x ↔ S.Handled G ∧ S.Explored y :=
  and_congr_right fun hG => explored_iff_of_joins (hG.inst hI hc) hop
    (handled_operand hP hG hI hx) (handled_operand hP hG hI hy)

/-- The stored value agrees with the object. -/
theorem agrees_store {a : ℕ} {vop pop : Value} {rest : List Value} {o : Object} {k : ℤ}
    (h : S.AllAgree σ) (hA : σ.activations a = some A) (hI : I ∈ P.insts A.function)
    (hkind : P.kind I = .instruction .store) (hoperands : P.operands I = vop :: pop :: rest)
    (hpop : P.Evaluates A pop (.pointer o k)) (hvop : P.Evaluates A vop r) :
    S.Agrees (S.Marked o) r := by
  have huse := isUselessInst_of_kind hkind (by decide)
  have hpop' : pop ∈ P.operands I := by simp [hoperands]
  have hvop' : vop ∈ P.operands I := by simp [hoperands]
  by_cases hdata : P.kind vop = .constantData
  · rw [eq_data_of_constantData hdata hvop]
    trivial
  · have hjoins : (AliasCall.store vop pop (P.tbaa I)).Joins P.kind vop pop := Or.inl (if_neg hdata)
    have hmem : .store vop pop (P.tbaa I) ∈ P.HandleInst Ctx I :=
      store_mem_HandleInst hkind hoperands
    refine (agrees_operand hP (h.registers a A hA) hI hkind huse hvop' hvop).congr ?_
    exact (marked_iff hP h hA hI hkind huse hpop' hpop).symm.trans
      (operands_explored_iff hP hI hvop' hpop' hmem hjoins).symm

/-- A copy is between objects that are marked together. -/
theorem marked_copy {a : ℕ} {dst src : Value} {rest : List Value} {o o' : Object} {k k' : ℤ}
    (h : S.AllAgree σ) (hA : σ.activations a = some A) (hI : I ∈ P.insts A.function)
    (hkind : P.kind I = .instruction .call) (hname : P.getCalledFuncName I ∈ CopyFuncs)
    (hargs : P.callArgs I = dst :: src :: rest) (hdst : P.Evaluates A dst (.pointer o k))
    (hsrc : P.Evaluates A src (.pointer o' k')) : S.Marked o ↔ S.Marked o' := by
  have hdisjoint : ∀ name ∈ CopyFuncs, name ∉ DebugFuncs := by decide
  have huse : P.isUselessInst I = false := by
    simp [Program.isUselessInst, hkind, hdisjoint _ hname]
  have hargs' : ∀ x ∈ dst :: src :: rest, x ∈ P.operands I := fun x hx => by
    rw [← hargs] at hx
    exact List.mem_of_mem_dropLast hx
  have hdst' : dst ∈ P.operands I := hargs' dst (by simp)
  have hsrc' : src ∈ P.operands I := hargs' src (by simp)
  calc S.Marked o
    _ ↔ S.Handled A.function ∧ S.Explored dst :=
      (marked_iff hP h hA hI hkind huse hdst' hdst).symm
    _ ↔ S.Handled A.function ∧ S.Explored src :=
      operands_explored_iff hP hI hdst' hsrc' (copy_mem_HandleInst hkind hname hargs) (Or.inl rfl)
    _ ↔ S.Marked o' := marked_iff hP h hA hI hkind huse hsrc' hsrc

/-- A formal agrees with the argument that is passed for it. -/
theorem agrees_argument {a : ℕ} {cai f y : Value} (h : S.AllAgree σ)
    (hA : σ.activations a = some A) (hcai : cai ∈ P.insts A.function)
    (hkind : P.kind cai = .instruction .call) (huse : P.isUselessInst cai = false)
    (hname : P.getCalledFuncName cai ∉ HeapAllocFuncs) (hcallee : f ∈ Ctx.Callees cai)
    (hcaller : cai ∈ Ctx.Callers f) (hpass : (x, y) ∈ (P.callArgs cai).zip (P.args f))
    (hr : P.Evaluates A x r) : S.Agrees (S.Explored y) r := by
  have hx : x ∈ P.operands cai := List.mem_of_mem_dropLast (List.of_mem_zip hpass).1
  by_cases hdata : P.kind x = .constantData
  · rw [eq_data_of_constantData hdata hr]
    trivial
  · by_cases hfunction : P.kind x = .function
    · rcases eq_of_function hfunction hr with rfl | rfl
      · trivial
      · exact ⟨hfunction, fun hy => (hy.argument hP hcai hcaller hpass).2,
          fun hsource => explored_of_source hP hsource hkind hcallee hpass⟩
    · refine (agrees_operand hP (h.registers a A hA) hcai hkind huse hx hr).congr ?_
      exact ⟨fun hy => hy.argument hP hcai hcaller hpass,
        fun hx => hx.2.passed hP ⟨hdata, hfunction⟩ hkind hname hcallee hpass⟩

/-- A call agrees with the value that is returned to it. -/
theorem agrees_result {a b : ℕ} {B : Activation} {cai RI : Value} (h : S.AllAgree σ)
    (hB : σ.activations b = some B) (hcaller : B.caller = some (a, cai))
    (hRI : RI ∈ P.insts B.function) (hkind : P.kind RI = .instruction .ret)
    (hrv : P.getReturnValue RI = some x) (hr : P.Evaluates B x r) :
    S.Agrees (S.Explored cai) r := by
  have huse := isUselessInst_of_kind hkind (by decide)
  have hx : x ∈ P.operands RI := List.mem_of_mem_head? hrv
  obtain ⟨hcai, hname, hcallee, hcaller⟩ := h.callers b B hB a cai hcaller
  by_cases hdata : P.kind x = .constantData
  · rw [eq_data_of_constantData hdata hr]
    trivial
  · exact (agrees_operand hP (h.registers b B hB) hRI hkind huse hx hr).congr
      (explored_iff_result hP hRI hkind hrv hdata hcai hname hcallee hcaller)

/-- Every step keeps this. -/
theorem AllAgree.step (hS : S.Tracks) (h : S.AllAgree σ) (hstep : P.RunStep Ctx σ σ') :
    S.AllAgree σ' := by
  cases hstep with
  | compute hA hI hkind hr =>
    exact h.setRegister hA (agrees_computes hP hS (h.registers _ _ hA) h.memory hI hkind hr)
  | store hA hI hkind hoperands hpop hvop =>
    exact h.write _ (agrees_store hP h hA hI hkind hoperands hpop hvop)
  | copy n hA hI hkind hname hargs hdst hsrc =>
    exact h.copy _ _ n (marked_copy hP h hA hI hkind hname hargs hdst hsrc)
  | call hA hI hkind huse hname hcallee hcaller hb hregisters =>
    refine h.activate (fun y => ?_) ?_
    · rcases hregisters y with hdata | ⟨x, hpass, hr⟩
      · dsimp only
        rw [hdata]
        trivial
      · exact agrees_argument hP h hA hI hkind huse hname hcallee hcaller hpass hr
    · rintro a' cai' ⟨⟩
      exact ⟨hkind, hname, hcallee, hcaller⟩
  | ret hB hcaller hA hRI hkind hrv hr =>
    exact h.setRegister hA (agrees_result hP h hB hcaller hRI hkind hrv hr)
  | start f hb => exact h.activate (fun _ => trivial) (by rintro a cai ⟨⟩)

/-! ## Executions -/

/-- The first cells hold the initializers. -/
theorem agrees_initializer {GV Ini O : Value} (hGV : P.kind GV = .globalVariable)
    (hIni : P.getInitializer GV = some Ini) (hO : P.PartOf Ini O) (hr : P.ConstantValue O r) :
    S.Agrees (S.Marked (.global (P.getGUID GV))) r := by
  have huser : GV ∈ P.users Ini := (P.mem_users Ini GV).2 (hP.initializer GV Ini hIni)
  have hcalls : P.Visited Ctx S.given S.first GV → ∀ c ∈ P.initializerCalls GV Ini, S.Calls c :=
    fun hvisited _ hc => calls_of_visited hP hGV hvisited hIni hc
  refine Agrees.congr (p := S.Explored GV) ?_ (marked_global hP hGV)
  rcases hr.over with rfl | ⟨b, hover, ⟨hb, rfl⟩ | ⟨hb, k, rfl⟩⟩
  · trivial
  · refine ⟨hb, fun h => ?_, fun hsource => ?_⟩
    · exact (explored_iff_initializer hP hGV hIni (hcalls h.visited) hO hover (Or.inl hb)).1 h
    · have hused : P.UsedThrough (followFuncUse P) b GV :=
        hO.usedThrough (fun u hu => by simp [followFuncUse, hu])
          (fun W hW => hover.usedThrough (fun _ _ => followFuncUse_of_operator) hW) GV huser
      have hvisited := S.globals b hsource GV hused hGV
      exact (explored_iff_initializer hP hGV hIni (hcalls hvisited) hO hover (Or.inl hb)).2
        (explored_source hsource)
  · refine Iff.trans ⟨fun h => ?_, fun h => ?_⟩ (marked_global hP hb).symm
    · exact (explored_iff_initializer hP hGV hIni (hcalls h.visited) hO hover (Or.inr hb)).1 h
    · have hused : P.UsedThrough (followGlobalUse P) b GV :=
        hO.usedThrough (fun u hu => by simp [followGlobalUse, hu])
          (fun W hW => hover.usedThrough (fun _ _ => followGlobalUse_of_operator) hW) GV huser
      have hvisited := h.globalUser hP hb hused hGV
      exact (explored_iff_initializer hP hGV hIni (hcalls hvisited) hO hover (Or.inr hb)).2 h

theorem allAgree_initial (h : P.Initial σ) : S.AllAgree σ where
  registers a A hA := by
    rw [h.activations a] at hA
    cases hA
  memory o k := by
    rcases h.memory o k with hdata | ⟨GV, Ini, O, hGV, rfl, hIni, hO, hr⟩
    · rw [hdata]
      trivial
    · exact agrees_initializer hP hGV hIni hO hr
  callers b B hB := by
    rw [h.activations b] at hB
    cases hB

/-- **Executions.**  All registers and cells agree in every state that is reached. -/
theorem allAgree_reachable (hS : S.Tracks) (h : P.Reachable Ctx σ) : S.AllAgree σ := by
  obtain ⟨σ₀, hinitial, hsteps⟩ := h
  induction hsteps with
  | refl => exact allAgree_initial hP hinitial
  | tail _ hstep ih => exact ih.step hP hS hstep

end

/-- Nothing but what is missed keeps a successful analysis from tracking what it explores. -/
theorem tracks_of_succeeds {tg : TBAAGraph} {s₀ s : LoopState tg P}
    (h : Succeeds Ctx S.given s₀ s) (hmissed : ¬ Missed Ctx S.given S.first s₀ s)
    (hsource : ∀ F, S.source F → P.UsedPlainly Ctx F) : S.Tracks where
  connected x hx hdata hfunction := by
    have hvisited : P.Visited Ctx S.given S.first x := .connected (.first S.first_V) hx
    exact ((h.done_of_visited hvisited).resolve_right hmissed).tracked hdata hfunction
  source := hsource

end Search

/-! ## Indirect calls -/

section
variable {tg : TBAAGraph} {P : Program} {Ctx : GlobalContext} {icall icall_V F CI V : Value}
  {A : Activation} {s : LoopState tg P} {fuel : ℕ}

/-- The search of `HandleICall`. -/
def Search.ofICall (hP : P.Regular Ctx) (hicall : P.CallsThrough icall icall_V)
    (hmacros : ¬ P.StopsAtMacro Ctx (· ∈ P.bodyCalls Ctx (P.getFunction icall)) (· = icall_V)) :
    Search P Ctx where
  given := (· ∈ P.bodyCalls Ctx (P.getFunction icall))
  first := (· = icall_V)
  V := icall_V
  source _ := False
  first_V := rfl
  body_V hreg c hc := by
    have hmem : icall_V ∈ P.operands icall := List.mem_of_getLast? hicall.operand
    rw [(hP.operands icall icall_V hmem hreg).2] at hc
    exact Or.inl hc
  kind _ h := h.elim
  connected _ h := h.elim
  body _ h := h.elim
  callee _ h := h.elim
  globals _ h := h.elim
  macros := hmacros

/-- In any execution, what the call of a handled function calls is explored. -/
theorem Search.explored_of_runTimeTarget (S : Search P Ctx) (hP : P.Regular Ctx) (hS : S.Tracks)
    (hCI : P.CallsThrough CI V) (h : P.RunTimeTarget Ctx CI V F) :
    P.kind F = .function ∧ (S.Handled (P.getFunction CI) ∧ S.Explored V → S.Explored F) ∧
      (S.source F → S.Explored V) := by
  obtain ⟨σ, a, A, hσ, hA, hI, hF⟩ := h
  have hV : V ∈ P.operands CI := List.mem_of_getLast? hCI.operand
  have hagrees := agrees_operand hP ((allAgree_reachable hP hS hσ).registers a A hA) hI hCI.kind
    hCI.useful hV hF
  rw [← hP.insts _ CI hI] at hagrees
  exact ⟨hagrees.1, hagrees.2.1, fun hsource => (hagrees.2.2 hsource).2⟩

/-- When `HandleICall` succeeds, every function that is called in some execution is in the
    cluster of the called operand, unless something is missed. -/
theorem runTime_mem_cluster_HandleICall (hP : P.Regular Ctx)
    (hicall : P.CallsThrough icall icall_V) (hrun : HandleICall tg P Ctx fuel icall = some s)
    (hsucc : s.ctx.Is_Analyze_Success = true) (hcomplete : CompleteRun tg P.kind s.ctx.trace {})
    (h : P.RunTimeTarget Ctx icall icall_V F) :
    P.kind F = .function ∧ F ∈ s.ctx.graph.getClusterValues icall_V ∅ ∨
      Missed Ctx (· ∈ P.bodyCalls Ctx (P.getFunction icall)) (· = icall_V)
        (HandleICallStart tg P Ctx icall) s ∨
      P.StopsAtMacro Ctx (· ∈ P.bodyCalls Ctx (P.getFunction icall)) (· = icall_V) := by
  by_cases hmissed : Missed Ctx (· ∈ P.bodyCalls Ctx (P.getFunction icall)) (· = icall_V)
      (HandleICallStart tg P Ctx icall) s
  · exact Or.inr (Or.inl hmissed)
  by_cases hmacros : P.StopsAtMacro Ctx (· ∈ P.bodyCalls Ctx (P.getFunction icall)) (· = icall_V)
  · exact Or.inr (Or.inr hmacros)
  · let S := Search.ofICall hP hicall hmacros
    have hS : S.Tracks :=
      Search.tracks_of_succeeds (succeeds_HandleICall hrun hsucc hcomplete) hmissed
        fun _ h => h.elim
    obtain ⟨hkind, hexplored, -⟩ := S.explored_of_runTimeTarget hP hS hicall h
    have hF : S.Explored F := hexplored ⟨fun _ hc => Or.inl hc, Search.explored_V⟩
    exact (mem_cluster_HandleICall hicall hrun hsucc hcomplete hF.connected).imp
      (fun hmem => ⟨hkind, hmem⟩) Or.inl

/-- **Indirect calls.**  When `HandleICall` succeeds, it reports what every function stands for
    that the call has for a target in some execution along the call graph, unless something is
    missed, or the pool leads to a global variable from a safe macro. -/
theorem runTime_HandleICall (hP : P.Regular Ctx)
    (hicall : P.CallsThrough icall icall_V) (hrun : HandleICall tg P Ctx fuel icall = some s)
    (hsucc : s.ctx.Is_Analyze_Success = true) (hcomplete : CompleteRun tg P.kind s.ctx.trace {})
    (h : P.RunTimeTarget Ctx icall icall_V F) :
    getGlobalFuncs P Ctx F ⊆ s.fset Ctx icall_V ∨
      Missed Ctx (· ∈ P.bodyCalls Ctx (P.getFunction icall)) (· = icall_V)
        (HandleICallStart tg P Ctx icall) s ∨
      P.StopsAtMacro Ctx (· ∈ P.bodyCalls Ctx (P.getFunction icall)) (· = icall_V) :=
  (runTime_mem_cluster_HandleICall hP hicall hrun hsucc hcomplete h).imp_left
    fun h _ hf => mem_fset hsucc h.2 h.1 hf

/-! ## Functions -/

/-- The search of `HandleFunc`. -/
def Search.ofFunc (hF : P.kind F = .function)
    (hmacros : ¬ P.StopsAtMacro Ctx (P.AtUse Ctx F) (P.FirstAtUse F)) : Search P Ctx where
  given := P.AtUse Ctx F
  first := P.FirstAtUse F
  V := F
  source := (· = F)
  first_V := Or.inl rfl
  body_V hreg := by simp [IsRegister, hF] at hreg
  kind := by
    rintro _ rfl
    exact hF
  connected := by
    rintro _ rfl
    exact .refl _
  body := by
    rintro _ rfl I op hI hop c hc
    exact Or.inl (.body hI hop hc)
  callee := by
    rintro _ rfl cai hcai hkind f hf c hc
    exact Or.inl (.callee hcai hkind hf hc)
  globals := by
    rintro _ rfl g hg hkind
    exact .first (Or.inr ⟨hg, Or.inr hkind⟩)
  macros := hmacros

/-- **Functions.**  When `HandleFunc` succeeds, it reports every indirect call that has the
    function for a target in some execution along the call graph, unless something is missed, or
    the pool leads to a global variable from a safe macro. -/
theorem runTime_HandleFunc (hP : P.Regular Ctx) (hF : P.kind F = .function)
    (hplain : P.UsedPlainly Ctx F) (hrun : HandleFunc tg P Ctx fuel F = some s)
    (hsucc : s.ctx.Is_Analyze_Success = true) (hcomplete : CompleteRun tg P.kind s.ctx.trace {})
    (hCI : P.CallsThrough CI V) (hne : V ≠ F) (h : P.RunTimeTarget Ctx CI V F) :
    CI ∈ s.callset F ∨
      Missed Ctx (P.AtUse Ctx F) (P.FirstAtUse F) (HandleFuncStart tg P Ctx F) s ∨
      P.StopsAtMacro Ctx (P.AtUse Ctx F) (P.FirstAtUse F) := by
  by_cases hmissed : Missed Ctx (P.AtUse Ctx F) (P.FirstAtUse F) (HandleFuncStart tg P Ctx F) s
  · exact Or.inr (Or.inl hmissed)
  by_cases hmacros : P.StopsAtMacro Ctx (P.AtUse Ctx F) (P.FirstAtUse F)
  · exact Or.inr (Or.inr hmacros)
  · let S : Search P Ctx := Search.ofFunc hF hmacros
    have hS : S.Tracks := by
      refine Search.tracks_of_succeeds (succeeds_HandleFunc hrun hsucc hcomplete) hmissed ?_
      rintro _ rfl
      exact hplain
    have hV : S.Explored V := (S.explored_of_runTimeTarget hP hS hCI h).2.2 rfl
    exact (complete_HandleFunc hrun hsucc hcomplete hV.connected hne hCI.kind
      hCI.operand).imp_right Or.inl

/-! ## An argument -/

/-- A function that is started from outside passes a function to a callee, which calls it. -/
theorem runTimeTarget_of_passed {y : Value} (f g cai : Value) (hcai : cai ∈ P.insts f)
    (hkind : P.kind cai = .instruction .call) (huse : P.isUselessInst cai = false)
    (hname : P.getCalledFuncName cai ∉ HeapAllocFuncs) (hcallee : g ∈ Ctx.Callees cai)
    (hcaller : cai ∈ Ctx.Callers g) (hpass : (F, y) ∈ (P.callArgs cai).zip (P.args g))
    (hF : P.kind F = .function) (hy : P.IsRegister y) (hCI : CI ∈ P.insts g) :
    P.RunTimeTarget Ctx CI y F := by
  let σ : RunState := ⟨fun _ => none, fun _ _ => .data⟩
  let A : Activation := ⟨f, none, fun _ => .data⟩
  let B : Activation := ⟨g, some (0, cai), Function.update (fun _ => .data) y (.function F)⟩
  have hinitial : P.Initial σ := ⟨fun _ => rfl, fun _ _ => Or.inl rfl⟩
  have hstart : P.RunStep Ctx σ (σ.activate 0 A) := .start f rfl
  have hB : B.registers y = .function F :=
    Function.update_self y (RunValue.function F) fun _ => RunValue.data
  have hregisters : ∀ v, B.registers v = .data ∨ ∃ x, (x, v) ∈ (P.callArgs cai).zip (P.args g) ∧
      P.Evaluates A x (B.registers v) := by
    intro v
    by_cases hv : v = y
    · subst hv
      exact Or.inr ⟨F, hpass, hB ▸ .constant (.function hF)⟩
    · exact Or.inl (Function.update_of_ne hv (RunValue.function F) fun _ => RunValue.data)
  have hcall : P.RunStep Ctx (σ.activate 0 A) ((σ.activate 0 A).activate 1 B) :=
    .call (a := 0) (A := A) rfl hcai hkind huse hname hcallee hcaller rfl hregisters
  exact ⟨_, 1, B, ⟨σ, hinitial, (Relation.ReflTransGen.single hstart).tail hcall⟩, rfl, hCI,
    hB ▸ .register hy⟩

/-- A name leads to functions by a hash. -/
theorem exists_hash_of_symbolTargets {CAI : Value} (hF : F ∈ P.symbolTargets Ctx CAI) :
    ∃ hash, Ctx.Global_Unique_Func_Map hash = some F := by
  unfold symbolTargets at hF
  split at hF
  · cases hF
  · obtain ⟨hash, -, hF⟩ := List.mem_filterMap.1 hF
    exact ⟨hash, hF⟩

theorem kind_ofTable {table : List (ValueKind × List Value)} {v : Value}
    (h : ∀ e ∈ table.zipIdx, ∀ o ∈ e.1.2, o < table.length ∧
      (e.1.1.isOperator .getElementPtr ∨ e.1.1.isOperator .bitCast ∨ e.1.1.isOperator .ptrToInt →
        o < e.2)) (hv : v ∉ (ofTable table h).values) : (ofTable table h).kind v = .other := by
  have hlength : table.length ≤ v := by simpa [ofTable] using hv
  simp [ofTable, List.getElem?_eq_none hlength]

/-- A program without global variables does not stop at a macro. -/
theorem not_stopsAtMacro_of_values {given : AliasCall → Prop} {first : Value → Prop}
    (hkind : ∀ v ∉ P.values, P.kind v = .other)
    (hvalues : ∀ v ∈ P.values, P.kind v ≠ .globalVariable) :
    ¬ P.StopsAtMacro Ctx given first := by
  rintro ⟨GV, hGV, -, -⟩
  by_cases hmem : GV ∈ P.values
  · exact hvalues GV hmem hGV
  · rw [hkind GV hmem] at hGV
    cases hGV

/-- A program without global variables, given by a table, is regular if its entries are. -/
theorem regular_of_values (hkind : ∀ v ∉ P.values, P.kind v = .other)
    (hvalues : ∀ v ∈ P.values, P.kind v ≠ .globalVariable ∧ P.kind v ≠ .constantAggregate ∧
      ∀ x ∈ P.operands v, P.IsRegister x → P.IsRegister v ∧ P.getFunction x = P.getFunction v)
    (hinsts : ∀ F, ∀ I ∈ P.insts F, P.getFunction I = F)
    (hargs : ∀ F, ∀ y ∈ P.args F, P.kind y = .argument ∧ P.getFunction y = F)
    (hnames : ∀ CAI, ∀ F ∈ P.symbolTargets Ctx CAI, P.kind F = .function)
    (hnone : ∀ GV, P.getInitializer GV = none) : P.Regular Ctx where
  insts := hinsts
  args := hargs
  operands u x hx := (hvalues u (P.mem_values x u hx).2).2.2 x hx
  initializer GV Ini hIni := by simp [hnone] at hIni
  aggregates U hU := by
    by_cases hmem : U ∈ P.values
    · exact absurd hU (hvalues U hmem).2.1
    · simp [hkind U hmem] at hU
  names := hnames
  globals GV hGV := by
    by_cases hmem : GV ∈ P.values
    · exact absurd hGV (hvalues GV hmem).1
    · simp [hkind GV hmem] at hGV

end

theorem regular_passedIn : passedIn.Regular passedInFuncs := by
  refine regular_of_values (fun _ => kind_ofTable (by decide)) (by decide) (fun F I hI => ?_)
    (fun F y hy => ?_) (fun CAI F hF => ?_) fun _ => rfl
  · change I ∈ (if F = 0 then [2] else if F = 4 then [5] else []) at hI
    split_ifs at hI with h0 h4
    · rw [List.mem_singleton.1 hI, h0]
      rfl
    · rw [List.mem_singleton.1 hI, h4]
      rfl
    · cases hI
  · change y ∈ (if F = 0 then [1] else []) at hy
    split_ifs at hy with h0
    · rw [List.mem_singleton.1 hy, h0]
      decide
    · cases hy
  · obtain ⟨hash, hF⟩ := exists_hash_of_symbolTargets hF
    change (if hash = 0 then some 3 else none) = some F at hF
    split_ifs at hF
    rw [← Option.some.inj hF]
    rfl

theorem regular_callsBack : callsBack.Regular callsBackCtx := by
  refine regular_of_values (fun _ => kind_ofTable (by decide)) (by decide) (fun F I hI => ?_)
    (fun F y hy => ?_) (fun CAI F hF => ?_) fun _ => rfl
  · change I ∈ (if F = 1 then [2] else if F = 3 then [5] else []) at hI
    split_ifs at hI with h1 h3
    · rw [List.mem_singleton.1 hI, h1]
      rfl
    · rw [List.mem_singleton.1 hI, h3]
      rfl
    · cases hI
  · change y ∈ (if F = 3 then [4] else []) at hy
    split_ifs at hy with h3
    · rw [List.mem_singleton.1 hy, h3]
      decide
    · cases hy
  · obtain ⟨hash, hF⟩ := exists_hash_of_symbolTargets hF
    cases hF

theorem usedPlainly_callsBack : callsBack.UsedPlainly callsBackCtx 0 where
  tracked I hI := by
    have horder : callsBack.throughUsers (followFuncUse callsBack) 0 = [2] := by decide
    have hmem := mem_throughUsers.2 hI
    rw [horder] at hmem
    rw [List.mem_singleton.1 hmem]
    rintro (h | ⟨-, h⟩) <;> cases h
  names CAI hF := by
    obtain ⟨hash, hF⟩ := exists_hash_of_symbolTargets hF
    cases hF

/-- The caller passes the function `3`, which the call `2` has for a target. -/
theorem runTime_HandleICall_passedIn : ∃ s,
    HandleICall .empty passedIn passedInFuncs 4 2 = some s ∧
      getGlobalFuncs passedIn passedInFuncs 3 ⊆ s.fset passedInFuncs 1 := by
  have hends : (HandleICall .empty passedIn passedInFuncs 4 2).isSome = true := by decide
  obtain ⟨s, hs⟩ := Option.isSome_iff_exists.1 hends
  obtain ⟨hsucc, hcomplete, -⟩ := HandleICall_passedInFuncs s hs
  have htarget : passedIn.RunTimeTarget passedInFuncs 2 1 3 :=
    runTimeTarget_of_passed 4 0 5 (by decide) (by decide) (by decide)
      (by decide) (by decide) (by decide) (by decide) rfl (Or.inl rfl) (by decide)
  have hmacros : ¬ passedIn.StopsAtMacro passedInFuncs
      (· ∈ passedIn.bodyCalls passedInFuncs (passedIn.getFunction 2)) (· = 1) :=
    not_stopsAtMacro_of_values (fun _ => kind_ofTable (by decide)) (by decide)
  exact ⟨s, hs, (runTime_HandleICall regular_passedIn (by decide) hs hsucc hcomplete
    htarget).resolve_right (not_or.2 ⟨not_missed_passedIn hs, hmacros⟩)⟩

/-- The function `0` is passed for the formal `4`, which the call `5` goes through. -/
theorem runTime_HandleFunc_callsBack : ∃ s, HandleFunc .empty callsBack callsBackCtx 5 0 = some s ∧
    (5 ∈ s.callset 0 ∨ Missed callsBackCtx (callsBack.AtUse callsBackCtx 0)
      (callsBack.FirstAtUse 0) (HandleFuncStart .empty callsBack callsBackCtx 0) s) := by
  obtain ⟨s, hs, hsucc, hcomplete⟩ := succeeds_callsBack
  have htarget : callsBack.RunTimeTarget callsBackCtx 5 4 0 :=
    runTimeTarget_of_passed 1 3 2 (by decide) (by decide) (by decide) (by decide) (by decide)
      (by decide) (by decide) rfl (Or.inl rfl) (by decide)
  have hmacros : ¬ callsBack.StopsAtMacro callsBackCtx (callsBack.AtUse callsBackCtx 0)
      (callsBack.FirstAtUse 0) :=
    not_stopsAtMacro_of_values (fun _ => kind_ofTable (by decide)) (by decide)
  refine ⟨s, hs, (runTime_HandleFunc regular_callsBack rfl usedPlainly_callsBack hs hsucc hcomplete
    (by decide) (by decide) htarget).imp_right fun h => h.resolve_right hmacros⟩

end TFA
