/-
  LLVM values, as far as the analyses tell them apart.

  A value is an address; `ValueKind` is what the `dyn_cast`s of the source ask
  about it.  An operator (`GEPOperator`, `BitCastOperator`, `PtrToIntOperator`)
  is an instruction or a constant expression of that opcode.
-/
import TFA.Alias.Graph

namespace TFA

/-- The opcodes that the source distinguishes. -/
inductive Opcode where
  | alloca | load | store | getElementPtr | bitCast | zExt | sExt | trunc | intToPtr | ptrToInt
  | phi | select | call | ret
  /-- any other instruction, by its `getOpcodeName` -/
  | other (name : String)
deriving DecidableEq

/-- `getOpcodeName`. -/
def Opcode.getOpcodeName : Opcode → String
  | .alloca => "alloca" | .load => "load" | .store => "store"
  | .getElementPtr => "getelementptr" | .bitCast => "bitcast" | .zExt => "zext" | .sExt => "sext"
  | .trunc => "trunc" | .intToPtr => "inttoptr" | .ptrToInt => "ptrtoint" | .phi => "phi"
  | .select => "select" | .call => "call" | .ret => "ret" | .other name => name

/-- The class of a value. -/
inductive ValueKind where
  | function | globalVariable | globalAlias | argument
  /-- integers, `null`, `undef`, zero initializers: constants without operands -/
  | constantData
  | constantAggregate
  | constantExpr (op : Opcode)
  | instruction (op : Opcode)
  | other
deriving DecidableEq

/-- An instruction or a constant expression of the given opcode. -/
def ValueKind.isOperator (op : Opcode) (k : ValueKind) : Bool :=
  k == .constantExpr op || k == .instruction op

end TFA
