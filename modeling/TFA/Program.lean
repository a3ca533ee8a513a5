/-
  The analysed program and the global context (`Analyzer.h`, `Config.h`).

  `Program` is what the analyses read off the loaded modules: kinds, operands and
  users of values, formals and instructions of functions, names and GUIDs.
  `GlobalContext` holds the maps that the passes before the alias analysis have
  filled.

  `doInitialization` is the part of the type builder that fills the maps from
  names to functions; after it every hash under a name leads to a function with a
  body (`definitionsOnly_doInitialization`).
-/
import TFA.IR
import Mathlib.Data.List.Sort

namespace TFA

/-! ## Iteration order -/

/-- A `std::set` in ascending order, as loops go through it. -/
def inOrder (S : Finset ℕ) : List ℕ :=
  Quot.liftOn S.val (List.insertionSort (· ≤ ·)) fun _ _ h =>
    List.Perm.eq_of_pairwise (fun _ _ _ _ => Nat.le_antisymm) (List.pairwise_insertionSort _ _)
      (List.pairwise_insertionSort _ _)
      ((List.perm_insertionSort _ _).trans (h.trans (List.perm_insertionSort _ _).symm))

@[simp] theorem mem_inOrder {S : Finset ℕ} {a : ℕ} : a ∈ inOrder S ↔ a ∈ S := by
  obtain ⟨⟨l⟩, hl⟩ := S
  exact (List.perm_insertionSort _ l).mem_iff

/-- A conversion to `unsigned`. -/
def toUnsigned (n : ℕ) : ℕ := n % 2 ^ 32

/-- `checkStringContainSubString`, and `contains` of a `StringRef`. -/
def containsSub (origstr targetsubstr : String) : Bool :=
  origstr.toList.tails.any (targetsubstr.toList.isPrefixOf ·)

/-! ## Programs -/

/-- The values of the loaded modules. -/
structure Program where
  values : Finset Value
  kind : Value → ValueKind
  /-- the operands, in order; those of a call end with the called operand -/
  operands : Value → List Value
  /-- the users, once for each use -/
  users : Value → List Value
  mem_users : ∀ v u, u ∈ users v ↔ v ∈ operands u
  mem_values : ∀ v u, v ∈ operands u → v ∈ values ∧ u ∈ values
  getName : Value → String
  getGUID : Value → ℕ
  /-- the function of an instruction or of an argument -/
  getFunction : Value → Value
  /-- the formals of a function -/
  args : Value → List Value
  /-- the instructions of a function, in order -/
  insts : Value → List Value
  isDeclaration : Value → Bool := fun F => (insts F).isEmpty
  hasAddressTaken : Value → Bool := fun _ => false
  hasExternalLinkage : Value → Bool := fun _ => true
  /-- is the called operand inline assembly? -/
  isInlineAsm : Value → Bool := fun _ => false
  /-- is the type of the value a struct, an array or a vector? -/
  isCompositeType : Value → Bool := fun _ => false
  /-- the initializer of a global variable -/
  getInitializer : Value → Option Value := fun _ => none
  /-- `getSExtValue` of a `ConstantInt` -/
  getSExtValue : Value → Option ℤ := fun _ => none
  /-- `getAsString` of a `ConstantDataArray` -/
  getAsString : Value → Option String := fun _ => none
  /-- file and line of the `DISubprogram` of a function -/
  getSubprogram : Value → Option (String × ℕ) := fun _ => none
  /-- the source line of a global variable -/
  getGlobalMacroSource : Value → String := fun _ => ""
  /-- the tag of a load or a store -/
  tbaa : Value → Option MDNode := fun _ => none
  /-- operators do not depend on themselves -/
  rank : Value → ℕ
  rank_lt : ∀ v o, o ∈ operands v → (kind v).isOperator .getElementPtr ∨
    (kind v).isOperator .bitCast ∨ (kind v).isOperator .ptrToInt → rank o < rank v

namespace Program

/-- The program whose value `v` has the kind and the operands in line `v` of a table;
    operators have their operands above them. -/
def ofTable (table : List (ValueKind × List Value))
    (h : ∀ e ∈ table.zipIdx, ∀ o ∈ e.1.2, o < table.length ∧
      (e.1.1.isOperator .getElementPtr ∨ e.1.1.isOperator .bitCast ∨ e.1.1.isOperator .ptrToInt →
        o < e.2)) : Program where
  values := Finset.range table.length
  kind v := (table[v]?.map Prod.fst).getD .other
  operands v := (table[v]?.map Prod.snd).getD []
  users v := table.zipIdx.flatMap fun e => (e.1.2.filter (· = v)).map fun _ => e.2
  mem_users v u := by
    simp only [List.mem_flatMap, List.mem_map, List.mem_filter, List.mem_zipIdx_iff_getElem?]
    constructor
    · rintro ⟨e, he, o, ⟨ho, hov⟩, rfl⟩
      rw [decide_eq_true_eq] at hov
      simpa [he, ← hov] using ho
    · intro hv
      cases hu : table[u]? with
      | none => simp [hu] at hv
      | some e =>
        rw [hu] at hv
        exact ⟨(e, u), hu, v, ⟨hv, by simp⟩, rfl⟩
  mem_values v u hv := by
    cases hu : table[u]? with
    | none => simp [hu] at hv
    | some e =>
      rw [hu] at hv
      have hlt := (h (e, u) (List.mem_zipIdx_iff_getElem?.2 hu) v hv).1
      have hu' := (List.getElem?_eq_some_iff.1 hu).1
      simp [hlt, hu']
  getName _ := ""
  getGUID := id
  getFunction := id
  args _ := []
  insts _ := []
  rank := id
  rank_lt v o ho hop := by
    cases hv : table[v]? with
    | none => simp [hv] at ho
    | some e =>
      rw [hv] at ho hop
      exact (h (e, v) (List.mem_zipIdx_iff_getElem?.2 hv) o ho).2 hop

/-- Functions that nothing uses, without instructions. -/
def functionsOnly : Program where
  values := ∅
  kind _ := .function
  operands _ := []
  users _ := []
  mem_users := by simp
  mem_values := by simp
  getName _ := ""
  getGUID := id
  getFunction := id
  args _ := []
  insts _ := []
  rank _ := 0
  rank_lt := by simp

section
variable (P : Program)

/-- `getOperand(0)`. -/
def operand0 (v : Value) : Option Value := (P.operands v).head?

/-- `getCalledOperand`. -/
def getCalledOperand (CAI : Value) : Option Value := (P.operands CAI).getLast?

/-- The actual arguments of a call. -/
def callArgs (CAI : Value) : List Value := (P.operands CAI).dropLast

/-- `getCalledFuncName`: the name of the called operand, or of its first operand
    if it has one. -/
def getCalledFuncName (CAI : Value) : String :=
  match P.getCalledOperand CAI with
  | none => ""
  | some V =>
    if P.isInlineAsm CAI then P.getName V
    else
      match P.operand0 V with
      | some VUV => P.getName VUV
      | none => P.getName V

/-- `getReturnValue`. -/
def getReturnValue (RI : Value) : Option Value := P.operand0 RI

/-- `symbol_get_hander`: the string that the first argument points to, without
    its last character. -/
def symbol_get_hander (CAI : Value) : String :=
  match (P.callArgs CAI).head? with
  | none => ""
  | some arg =>
    match P.operands arg with
    | PO :: idx0 :: idx =>
      if (P.kind arg).isOperator .getElementPtr ∧ (P.getSExtValue idx0).isSome ∧
          idx.all (fun i => P.getSExtValue i == some 0) ∧ P.kind PO = .globalVariable then
        match (P.getInitializer PO).bind P.getAsString with
        | some name => (name.dropEnd 1).toString
        | none => ""
      else ""
    | _ => ""

end

end Program

/-! ## The configuration -/

/-- `SetDebugFuncs`. -/
def DebugFuncs : List String :=
  ["llvm.dbg.declare", "llvm.dbg.value", "llvm.dbg.label", "llvm.lifetime.start",
    "llvm.lifetime.end", "llvm.lifetime.start.p0i8", "llvm.lifetime.end.p0i8",
    "arch_static_branch", "printk"]

/-- `SetBinaryOperandInsts`. -/
def BinaryOperandInsts : List String :=
  ["and", "or", "xor", "shl", "lshr", "ashr", "add", "fadd", "sub", "fsub", "mul", "fmul", "sdiv",
    "udiv", "fdiv", "urem", "srem", "frem"]

/-- `SetCopyFuncs`. -/
def CopyFuncs : List String :=
  ["memcpy", "__memcpy", "llvm.memcpy.p0i8.p0i8.i32", "llvm.memcpy.p0i8.p0i8.i64", "strncpy",
    "memmove", "__memmove", "llvm.memmove.p0i8.p0i8.i32", "llvm.memmove.p0i8.p0i8.i64"]

/-- `SetHeapAllocFuncs`. -/
def HeapAllocFuncs : List String :=
  ["__kmalloc", "__vmalloc", "vmalloc", "krealloc", "devm_kzalloc", "vzalloc", "malloc",
    "kmem_cache_alloc", "__alloc_skb", "kzalloc", "kmalloc", "kmalloc_array"]

/-- `MAX_ANALYSIS_NUM`. -/
def MAX_ANALYSIS_NUM : ℕ := 500

/-- `AliasFailureReasons`. -/
inductive AliasFailureReasons where
  | none | F_has_no_global_definition | binary_operation | llvm_used | exceed_max | success
  | ignore_analysis | inline_asm | init_in_asm | strip_invariant_group
deriving DecidableEq

/-! ## The global context -/

/-- The maps of the global context that the alias analysis reads.  A key without
    an entry is mapped to the empty set; the sets of the two call graph maps are
    listed in the order in which loops go through them. -/
structure GlobalContext where
  /-- the hashes of the definitions of a name -/
  GlobalFuncs : String → Finset ℕ := fun _ => ∅
  Global_Unique_Func_Map : ℕ → Option Value := fun _ => none
  Global_Unique_GV_Map : ℕ → Finset Value := fun _ => ∅
  Global_AddressTaken_Func_Set : Finset Value := ∅
  Callees : Value → List Value := fun _ => []
  Callers : Value → List Value := fun _ => []
  ICallees : Value → Finset Value := fun _ => ∅
  SafeMacros : List String := []
  Global_symbol_get_funcSet : Finset String := ∅
  Global_failed_Func_Set : Finset ℕ := ∅

/-- `getGlobalFuncs` of the alias analysis: what the hashes of the name of `F` are
    mapped to.  An entry that is missing reads as a null pointer. -/
def getGlobalFuncs (P : Program) (Ctx : GlobalContext) (F : Value) : Finset (Option Value) :=
  (Ctx.GlobalFuncs (P.getName F)).image Ctx.Global_Unique_Func_Map

/-! ## Filling the maps -/

section
variable (str_hash : String → ℕ) (P : Program)

/-- `funcInfoHash`: file, line and name, without blanks. -/
def funcInfoHash (F : Value) : ℕ :=
  let output := match P.getSubprogram F with
    | some (file, line) => file ++ toString line ++ P.getName F
    | none => P.getName F
  str_hash (String.ofList (output.toList.filter (· ≠ ' ')))

/-- The entries of the unique maps, for every function. -/
def initUnique (F : Value) (Ctx : GlobalContext) : GlobalContext :=
  let Ctx := { Ctx with
    Global_Unique_GV_Map := Function.update Ctx.Global_Unique_GV_Map (P.getGUID F)
      (insert F (Ctx.Global_Unique_GV_Map (P.getGUID F))) }
  if P.hasAddressTaken F then
    let Ctx := { Ctx with
      Global_AddressTaken_Func_Set := insert F Ctx.Global_AddressTaken_Func_Set }
    let funchash := funcInfoHash str_hash P F
    if Ctx.Global_Unique_Func_Map funchash = none then
      { Ctx with
        Global_Unique_Func_Map := Function.update Ctx.Global_Unique_Func_Map funchash (some F) }
    else Ctx
  else Ctx

/-- The loop body of `TypeBuilderPass::doInitialization` over the functions. -/
def initFunction (Ctx : GlobalContext) (F : Value) : GlobalContext :=
  let Ctx := initUnique str_hash P F Ctx
  if P.isDeclaration F then Ctx
  else if (P.hasExternalLinkage F ∧ P.insts F ≠ []) ∨ P.hasAddressTaken F then
    let funchash := funcInfoHash str_hash P F
    { Ctx with
      GlobalFuncs := Function.update Ctx.GlobalFuncs (P.getName F)
        (insert funchash (Ctx.GlobalFuncs (P.getName F)))
      Global_Unique_Func_Map := Function.update Ctx.Global_Unique_Func_Map funchash (some F) }
  else Ctx

/-- `TypeBuilderPass::doInitialization` over the functions of all modules. -/
def doInitialization (Fs : List Value) (Ctx : GlobalContext) : GlobalContext :=
  Fs.foldl (initFunction str_hash P) Ctx

variable {str_hash P}

theorem GlobalFuncs_initUnique (F : Value) (Ctx : GlobalContext) :
    (initUnique str_hash P F Ctx).GlobalFuncs = Ctx.GlobalFuncs := by
  unfold initUnique
  dsimp only
  split
  · split <;> rfl
  · rfl

/-- Every hash under a name leads to a function with a body. -/
def DefinitionsOnly (P : Program) (Ctx : GlobalContext) : Prop :=
  ∀ name, ∀ hash ∈ Ctx.GlobalFuncs name,
    ∃ F, Ctx.Global_Unique_Func_Map hash = some F ∧ P.isDeclaration F = false

variable (str_hash) in
theorem definitionsOnly_initUnique {Ctx : GlobalContext} (h : DefinitionsOnly P Ctx) (F : Value) :
    DefinitionsOnly P (initUnique str_hash P F Ctx) := by
  intro name hash hhash
  rw [GlobalFuncs_initUnique] at hhash
  obtain ⟨G, hG, hdef⟩ := h name hash hhash
  refine ⟨G, ?_, hdef⟩
  unfold initUnique
  dsimp only
  split
  · split
    case isTrue hnone =>
      -- an entry that is there stays
      have hne : hash ≠ funcInfoHash str_hash P F := by
        rintro rfl
        rw [hG] at hnone
        cases hnone
      exact (Function.update_of_ne hne _ _).trans hG
    · exact hG
  · exact hG

theorem definitionsOnly_initFunction {Ctx : GlobalContext} (h : DefinitionsOnly P Ctx)
    (F : Value) : DefinitionsOnly P (initFunction str_hash P Ctx F) := by
  have hU := definitionsOnly_initUnique str_hash h F
  unfold initFunction
  dsimp only
  split
  · exact hU
  case isFalse hdef =>
    split
    · intro name hash hhash
      by_cases heq : hash = funcInfoHash str_hash P F
      · exact ⟨F, by simp [heq], by simpa using hdef⟩
      · have hbefore : hash ∈ (initUnique str_hash P F Ctx).GlobalFuncs name := by
          by_cases hname : name = P.getName F
          · subst hname
            simp only [Function.update_self, Finset.mem_insert] at hhash
            exact hhash.resolve_left heq
          · simp only [Function.update_of_ne hname] at hhash
            exact hhash
        obtain ⟨G, hG, hG'⟩ := hU name hash hbefore
        exact ⟨G, (Function.update_of_ne heq _ _).trans hG, hG'⟩
    · exact hU

theorem definitionsOnly_doInitialization {Fs : List Value} {Ctx : GlobalContext}
    (h : DefinitionsOnly P Ctx) : DefinitionsOnly P (doInitialization str_hash P Fs Ctx) := by
  induction Fs generalizing Ctx with
  | nil => exact h
  | cons F Fs ih => exact ih (definitionsOnly_initFunction h F)

end

end TFA
