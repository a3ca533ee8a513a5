/-
  What a program does when it runs, as far as the alias analyses look at it.

  A register or a memory cell holds the address of a function, a pointer into an object, or
  data.  Control flow is left open: any instruction of a function can be the next one, in any
  activation, so that every order of the instructions and every interleaving of threads is
  among the executions.  A call goes along the call graph.

  * `Evaluates`: the values of operands; a constant operator points to where its operand
    points;
  * `Computes`: the results of instructions;
  * `RunStep`: the steps, in which an instruction sets its register, a store or a copy writes
    to memory, or a function is called, returns or is started;
  * `Reachable`: the states of executions.  In the first one, memory holds the initializers;
  * `RunTimeTarget`: what a call can call;
  * `Regular`, `UsedPlainly`: what is assumed of modules, and of a function.

  Values of aggregate types do not move through registers here, and a constant expression
  that is no operator is data.  Functions without a body do nothing but return data; those
  that allocate return an object, and have no activations.
-/
import TFA.Alias.Pool

namespace TFA

/-! ## States -/

/-- A place in memory, known by what allocates it: the global variables with a GUID, or an
    instruction, which may have allocated several objects. -/
inductive Object where
  | global (guid : ℕ)
  | allocated (site : Value) (n : ℕ)
deriving DecidableEq

/-- What a register or a memory cell holds. -/
inductive RunValue where
  | data
  | function (F : Value)
  | pointer (o : Object) (offset : ℤ)
deriving DecidableEq

/-- Casts and pointer arithmetic do not leave the object, but they may make data of it. -/
inductive RunValue.Derives : RunValue → RunValue → Prop
  | same {r} : Derives r r
  | moved {o k k'} : Derives (.pointer o k) (.pointer o k')
  | lost {r} : Derives r .data

/-- A function that has been called. -/
structure Activation where
  function : Value
  /-- the activation that has called it, and the call -/
  caller : Option (ℕ × Value) := none
  registers : Value → RunValue := fun _ => .data

structure RunState where
  activations : ℕ → Option Activation
  memory : Object → ℤ → RunValue

namespace RunState

/-- Set a register of an activation. -/
def setRegister (σ : RunState) (a : ℕ) (A : Activation) (I : Value) (r : RunValue) : RunState :=
  { σ with
    activations := Function.update σ.activations a
      (some { A with registers := Function.update A.registers I r }) }

/-- Write to a cell. -/
def write (σ : RunState) (o : Object) (k : ℤ) (r : RunValue) : RunState :=
  { σ with memory := Function.update σ.memory o (Function.update (σ.memory o) k r) }

/-- Copy `n` cells. -/
def copy (σ : RunState) (dst : Object) (k : ℤ) (src : Object) (k' : ℤ) (n : ℕ) : RunState :=
  { σ with
    memory := Function.update σ.memory dst fun i =>
      if k ≤ i ∧ i < k + n then σ.memory src (k' + (i - k)) else σ.memory dst i }

/-- Begin an activation. -/
def activate (σ : RunState) (b : ℕ) (B : Activation) : RunState :=
  { σ with activations := Function.update σ.activations b (some B) }

end RunState

/-- The instructions whose result is derived from their first operand. -/
def Opcode.derives : Opcode → Bool
  | .getElementPtr | .bitCast | .zExt | .sExt | .trunc | .intToPtr | .ptrToInt => true
  | _ => false

/-- An argument or an instruction. -/
def ValueKind.isRegister : ValueKind → Bool
  | .argument | .instruction _ => true
  | _ => false

namespace Program

section
variable (P : Program) (Ctx : GlobalContext)

/-! ## Operands -/

/-- The arguments and the results of instructions. -/
def IsRegister (v : Value) : Prop := P.kind v = .argument ∨ ∃ op, P.kind v = .instruction op

instance (v : Value) : Decidable (P.IsRegister v) :=
  decidable_of_iff ((P.kind v).isRegister = true) (by
    unfold IsRegister ValueKind.isRegister
    cases P.kind v <;> simp)

/-- The value of a constant. -/
inductive ConstantValue : Value → RunValue → Prop
  | data {v} (hv : ¬ P.IsRegister v) : ConstantValue v .data
  | function {F} (hkind : P.kind F = .function) : ConstantValue F (.function F)
  | globalVariable {GV} (hkind : P.kind GV = .globalVariable) :
      ConstantValue GV (.pointer (.global (P.getGUID GV)) 0)
  | operator {v op o r r'} (hkind : P.kind v = .constantExpr o) (hop : P.isOperator v = true)
      (hoperand : P.operand0 v = some op) (h : ConstantValue op r) (hr : r.Derives r') :
      ConstantValue v r'

/-- The value of an operand in an activation. -/
inductive Evaluates (A : Activation) : Value → RunValue → Prop
  | register {v} (hv : P.IsRegister v) : Evaluates A v (A.registers v)
  | constant {v r} (h : P.ConstantValue v r) : Evaluates A v r

/-! ## Instructions -/

/-- A result of an instruction. -/
inductive Computes (σ : RunState) (A : Activation) : Value → RunValue → Prop
  | alloca {I} (n : ℕ) (hkind : P.kind I = .instruction .alloca) :
      Computes σ A I (.pointer (.allocated I n) 0)
  | heap {I} (n : ℕ) (hkind : P.kind I = .instruction .call)
      (hname : P.getCalledFuncName I ∈ HeapAllocFuncs) :
      Computes σ A I (.pointer (.allocated I n) 0)
  | load {I op o k} (hkind : P.kind I = .instruction .load) (hoperand : P.operand0 I = some op)
      (h : P.Evaluates A op (.pointer o k)) : Computes σ A I (σ.memory o k)
  | derived {I op opcode r r'} (hkind : P.kind I = .instruction opcode)
      (hderives : opcode.derives = true) (hoperand : P.operand0 I = some op)
      (h : P.Evaluates A op r) (hr : r.Derives r') : Computes σ A I r'
  | phi {I op r} (hkind : P.kind I = .instruction .phi) (hoperand : op ∈ P.operands I)
      (h : P.Evaluates A op r) : Computes σ A I r
  | select {I op r} (hkind : P.kind I = .instruction .select)
      (hoperand : op ∈ (P.operands I).drop 1) (h : P.Evaluates A op r) : Computes σ A I r
  /-- the address of a function, by its name -/
  | symbol {I F} (hkind : P.kind I = .instruction .call)
      (hname : P.getCalledFuncName I = "__symbol_get") (hF : F ∈ P.symbolTargets Ctx I) :
      Computes σ A I (.function F)
  /-- arithmetic and inline assembly can make a pointer of a pointer -/
  | untracked {I op r r'} (hI : P.Untracked I) (hoperand : op ∈ P.operands I)
      (h : P.Evaluates A op r) (hr : r.Derives r') : Computes σ A I r'
  | data {I} : Computes σ A I .data

/-- One step. -/
inductive RunStep (σ : RunState) : RunState → Prop
  | compute {a A I op r} (hA : σ.activations a = some A) (hI : I ∈ P.insts A.function)
      (hkind : P.kind I = .instruction op) (h : P.Computes Ctx σ A I r) :
      RunStep σ (σ.setRegister a A I r)
  | store {a A I vop pop rest o k r} (hA : σ.activations a = some A)
      (hI : I ∈ P.insts A.function) (hkind : P.kind I = .instruction .store)
      (hoperands : P.operands I = vop :: pop :: rest) (hpop : P.Evaluates A pop (.pointer o k))
      (hvop : P.Evaluates A vop r) : RunStep σ (σ.write o k r)
  | copy {a A I dst src rest o k o' k'} (n : ℕ) (hA : σ.activations a = some A)
      (hI : I ∈ P.insts A.function) (hkind : P.kind I = .instruction .call)
      (hname : P.getCalledFuncName I ∈ CopyFuncs) (hargs : P.callArgs I = dst :: src :: rest)
      (hdst : P.Evaluates A dst (.pointer o k)) (hsrc : P.Evaluates A src (.pointer o' k')) :
      RunStep σ (σ.copy o k o' k' n)
  /-- the formals get the values of the arguments that there are -/
  | call {a A cai b f registers} (hA : σ.activations a = some A) (hI : cai ∈ P.insts A.function)
      (hkind : P.kind cai = .instruction .call) (huse : P.isUselessInst cai = false)
      (hname : P.getCalledFuncName cai ∉ HeapAllocFuncs) (hcallee : f ∈ Ctx.Callees cai)
      (hcaller : cai ∈ Ctx.Callers f) (hb : σ.activations b = none)
      (hregisters : ∀ y, registers y = .data ∨ ∃ x, (x, y) ∈ (P.callArgs cai).zip (P.args f) ∧
        P.Evaluates A x (registers y)) :
      RunStep σ (σ.activate b ⟨f, some (a, cai), registers⟩)
  | ret {a A b B cai RI rv r} (hB : σ.activations b = some B) (hcaller : B.caller = some (a, cai))
      (hA : σ.activations a = some A) (hRI : RI ∈ P.insts B.function)
      (hkind : P.kind RI = .instruction .ret) (hrv : P.getReturnValue RI = some rv)
      (hr : P.Evaluates B rv r) : RunStep σ (σ.setRegister a A cai r)
  /-- from outside, without pointers -/
  | start {b} (f : Value) (hb : σ.activations b = none) :
      RunStep σ (σ.activate b ⟨f, none, fun _ => .data⟩)

/-! ## Executions -/

/-- The constant is the initializer or an element of one of its aggregates. -/
inductive PartOf (Ini : Value) : Value → Prop
  | whole : PartOf Ini Ini
  | element {U O} (hU : PartOf Ini U) (hkind : P.kind U = .constantAggregate)
      (hO : O ∈ P.operands U) : PartOf Ini O

/-- Nothing runs yet, and memory holds the initializers of global variables. -/
structure Initial (σ : RunState) : Prop where
  activations : ∀ a, σ.activations a = none
  memory : ∀ o k, σ.memory o k = .data ∨ ∃ GV Ini O, P.kind GV = .globalVariable ∧
    o = .global (P.getGUID GV) ∧ P.getInitializer GV = some Ini ∧ P.PartOf Ini O ∧
    P.ConstantValue O (σ.memory o k)

/-- The state of some execution. -/
def Reachable (σ : RunState) : Prop :=
  ∃ σ₀, P.Initial σ₀ ∧ Relation.ReflTransGen (P.RunStep Ctx) σ₀ σ

/-- In some execution, the operand `V` of the call `CI` holds the function `F`. -/
def RunTimeTarget (CI V F : Value) : Prop :=
  ∃ σ a A, P.Reachable Ctx σ ∧ σ.activations a = some A ∧ CI ∈ P.insts A.function ∧
    P.Evaluates A V (.function F)

/-! ## Assumptions -/

/-- What the loaded modules keep to.  An instruction belongs to its function, and so do its
    operands in registers; the initializer is an operand of its global variable; names lead to
    functions; and all global variables are known by their GUID. -/
structure Regular : Prop where
  insts : ∀ F, ∀ I ∈ P.insts F, P.getFunction I = F
  args : ∀ F, ∀ y ∈ P.args F, P.kind y = .argument ∧ P.getFunction y = F
  operands : ∀ u, ∀ x ∈ P.operands u, P.IsRegister x →
    P.IsRegister u ∧ P.getFunction x = P.getFunction u
  initializer : ∀ GV Ini, P.getInitializer GV = some Ini → Ini ∈ P.operands GV
  aggregates : ∀ U, P.kind U = .constantAggregate → P.isCompositeType U = true
  names : ∀ CAI, ∀ F ∈ P.symbolTargets Ctx CAI, P.kind F = .function
  globals : ∀ GV, P.kind GV = .globalVariable →
    GV ∈ Ctx.Global_Unique_GV_Map (P.getGUID GV)

/-- Neither arithmetic nor inline assembly uses the function, nor is it fetched by its name. -/
structure UsedPlainly (F : Value) : Prop where
  tracked : ∀ I, P.UsedThrough (followFuncUse P) F I → ¬ P.Untracked I
  names : ∀ CAI, F ∉ P.symbolTargets Ctx CAI

end

end Program

end TFA
