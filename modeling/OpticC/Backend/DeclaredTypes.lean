import OpticC.Backend.NameTables
import OpticC.IntType

/-! Integer types as declarations write them. C reads all specifiers together; the lowering
takes the LLVM type from one of them, and which one depends on the kind of declaration. -/

namespace OpticC

inductive TypeSpecifier where
  | int | char | short | long | signed | unsigned | bool | const | volatile
  deriving DecidableEq, Repr

namespace TypeSpecifier

/-- The node kind. -/
def kind : TypeSpecifier → ℕ
  | int => 2
  | char => 3
  | short => 10
  | long => 11
  | signed => 12
  | unsigned => 13
  | bool => 14
  | const => 90
  | volatile => 92

def isQualifier : TypeSpecifier → Bool
  | const | volatile => true
  | _ => false

end TypeSpecifier

/-- The integer types of C, `_Bool` apart. -/
inductive CIntType where
  | bool
  | int (t : IntType)
  deriving DecidableEq

namespace CIntType

def signed : CIntType → Bool
  | bool => false
  | int t => t.signed

/-- The value of an integer converted to the type. -/
def convert : CIntType → ℤ → ℤ
  | bool, v => if v = 0 then 0 else 1
  | int t, v => t.convert v

def char : CIntType := int ⟨true, 8, eight_pos⟩

end CIntType

open TypeSpecifier

/-- The type that the specifiers name together, on x86-64 Linux. -/
def cType (specs : List TypeSpecifier) : Option CIntType :=
  let core := specs.filter fun s => !s.isQualifier
  let n (s : TypeSpecifier) := core.count s
  let isSigned := n unsigned == 0
  if core = [] ∨ n signed + n unsigned > 1 ∨ n int > 1 then none
  else if core = [bool] then some .bool
  else if n bool > 0 then none
  else match n char, n short, n long with
    | 1, 0, 0 => if n int = 0 then some (.int ⟨isSigned, 8, eight_pos⟩) else none
    | 0, 1, 0 => some (.int ⟨isSigned, 16, sixteen_pos⟩)
    | 0, 0, 0 => some (.int ⟨isSigned, 32, thirtyTwo_pos⟩)
    | 0, 0, 1 | 0, 0, 2 => some (.int ⟨isSigned, 64, sixtyFour_pos⟩)
    | _, _, _ => none

/-- `node_kind_to_llvm_type`. -/
def nodeKindToLlvmType : ℕ → LlvmType
  | 1 | 3 => .int 8
  | 7 | 16 => .ptr
  | 10 => .int 16
  | 11 => .int 64
  | 83 => .float
  | 84 => .double
  | _ => .int 32

/-- What is declared with the specifiers. -/
inductive DeclaredAs where
  | block
  | file
  | parameter
  | result
  deriving DecidableEq, Repr

/-- `matches!(kind, 1..=6 | 16 | 83)`. -/
def isPlainSpecifier (kind : ℕ) : Bool := 1 ≤ kind && kind ≤ 6 || kind == 16 || kind == 83

/-- The kind of the specifier that the LLVM type is taken from. -/
def specKind : DeclaredAs → List TypeSpecifier → ℕ
  | .block, specs => ((specs.dropWhile isQualifier).head?.map kind).getD 2
  | .file, specs => ((specs.map kind).find? isPlainSpecifier).getD 2
  | .parameter, specs => (specs.head?.map kind).getD 2
  | .result, specs => ((specs.map kind).reverse.find? isPlainSpecifier).getD 2

/-- The width of an integer type of LLVM. -/
def LlvmType.intWidth : LlvmType → ℕ
  | .int w => w
  | _ => 64

/-- The width of the LLVM type that the declaration gives. -/
def llvmWidth (form : DeclaredAs) (specs : List TypeSpecifier) : ℕ :=
  (nodeKindToLlvmType (specKind form specs)).intWidth

theorem llvmWidth_pos (form : DeclaredAs) (specs : List TypeSpecifier) :
    0 < llvmWidth form specs := by
  unfold llvmWidth nodeKindToLlvmType
  split <;> exact Nat.succ_pos _

/-- Specifiers together with the type they name. -/
structure DeclaredType where
  specs : List TypeSpecifier
  type : CIntType
  named : cType specs = some type

namespace DeclaredType

def width (d : DeclaredType) (form : DeclaredAs) : ℕ := llvmWidth form d.specs

theorem width_pos (d : DeclaredType) (form : DeclaredAs) : 0 < d.width form :=
  llvmWidth_pos form d.specs

/-- `unsigned char` has room for 32 bits, `char unsigned` for 8. -/
example : llvmWidth .block [unsigned, char] = 32 ∧ llvmWidth .block [char, unsigned] = 8 := by
  decide

end DeclaredType

end OpticC
