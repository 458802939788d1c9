import Pseudocode.Ir.Module

/-!
The text of a module.

A name is written as it is if it is made of letters, digits and the signs `-$._` and does not begin
with a digit.  Any other name stands in quotation marks, and so do the bytes of a constant; between
the marks a byte that is no printable ASCII character, or is a quotation mark or a backslash, is
written as a backslash and two hexadecimal digits.  A binary64 number is written as the sixteen
hexadecimal digits of its bit pattern, which loses nothing.
-/

namespace Pseudocode.Ir

/-! ### Bytes, names and numbers -/

/-- The hexadecimal digit for a number below sixteen. -/
def hexDigit (n : Nat) : Char :=
  if n < 10 then Char.ofNat (48 + n) else Char.ofNat (55 + n)

/-- The last `width` hexadecimal digits of a number. -/
def hexDigits : Nat → Nat → List Char
  | 0, _ => []
  | width + 1, n => hexDigits width (n / 16) ++ [hexDigit (n % 16)]

/-- Is a byte written as it is between quotation marks? -/
def isPlainByte (b : UInt8) : Bool :=
  0x20 ≤ b.toNat && b.toNat ≤ 0x7E && b.toNat != 0x22 && b.toNat != 0x5C

/-- How a byte is written between quotation marks. -/
def escapeByte (b : UInt8) : List Char :=
  if isPlainByte b then [Char.ofNat b.toNat] else '\\' :: hexDigits 2 b.toNat

/-- How bytes are written between quotation marks. -/
def escapeBytes (bytes : List UInt8) : String :=
  String.ofList (bytes.flatMap escapeByte)

/-- The bytes of a text. -/
def utf8 (text : String) : List UInt8 :=
  text.toUTF8.toList

/-- May a name have this character and be written as it is? -/
def isPlainChar (c : Char) : Bool :=
  c.isAlphanum || c == '-' || c == '$' || c == '.' || c == '_'

/-- Is a name written as it is? -/
def isPlainName (name : List Char) : Bool :=
  match name with
  | [] => false
  | c :: _ => !c.isDigit && name.all isPlainChar

/-- How a name is written. -/
def renderName (name : String) : String :=
  if isPlainName name.toList then name else "\"" ++ escapeBytes (utf8 name) ++ "\""

/-- How a binary64 number is written. -/
def renderDouble (d : Double) : String :=
  "0x" ++ String.ofList (hexDigits 16 d.bits.toNat)

/-- Texts with a comma between them. -/
def commas (texts : List String) : String :=
  ", ".intercalate texts

/-! ### Values -/

namespace Value

/-- A value without its type. -/
def render : Value → String
  | register name _ => "%" ++ renderName name
  | global name _ => "@" ++ renderName name
  | int value _ => toString value
  | double value => renderDouble value
  | null _ => "null"

/-- A value after its type. -/
def renderTyped (v : Value) : String :=
  v.ty.render ++ " " ++ v.render

end Value

/-! ### Instructions -/

/-- The mnemonic of an arithmetic operation. -/
def ArithOp.mnemonic : ArithOp → String
  | add => "add"
  | sub => "sub"
  | mul => "mul"
  | sdiv => "sdiv"
  | srem => "srem"
  | fadd => "fadd"
  | fsub => "fsub"
  | fmul => "fmul"
  | fdiv => "fdiv"
  | frem => "frem"

/-- The mnemonic of a comparison of integers. -/
def IntPred.mnemonic : IntPred → String
  | eq => "eq"
  | ne => "ne"
  | slt => "slt"
  | sle => "sle"
  | sgt => "sgt"
  | sge => "sge"

/-- The mnemonic of a comparison of binary64 numbers. -/
def FloatPred.mnemonic : FloatPred → String
  | ueq => "ueq"
  | une => "une"
  | ult => "ult"
  | ule => "ule"
  | ugt => "ugt"
  | uge => "uge"

/-- The mnemonic of a conversion. -/
def CastOp.mnemonic : CastOp → String
  | sitofp => "sitofp"
  | fptosi => "fptosi"
  | uitofp => "uitofp"
  | zext => "zext"
  | sext => "sext"
  | bitcast => "bitcast"

/-- The types of the parameters, with dots for any further arguments. -/
def Signature.renderParams (s : Signature) : String :=
  commas (s.params.map Ty.render ++ if s.variadic then ["..."] else [])

/-- An instruction that puts its value into a register. -/
def assigning (dest text : String) : String :=
  "%" ++ renderName dest ++ " = " ++ text

/-- An instruction. -/
def Instr.render : Instr → String
  | alloca dest ty => assigning dest ("alloca " ++ ty.render)
  | load dest ty ptr => assigning dest ("load " ++ ty.render ++ ", " ++ ptr.renderTyped)
  | store value ptr => "store " ++ value.renderTyped ++ ", " ++ ptr.renderTyped
  | arith dest op lhs rhs =>
    assigning dest (op.mnemonic ++ " " ++ lhs.renderTyped ++ ", " ++ rhs.render)
  | icmp dest pred lhs rhs =>
    assigning dest ("icmp " ++ pred.mnemonic ++ " " ++ lhs.renderTyped ++ ", " ++ rhs.render)
  | fcmp dest pred lhs rhs =>
    assigning dest ("fcmp " ++ pred.mnemonic ++ " " ++ lhs.renderTyped ++ ", " ++ rhs.render)
  | cast dest op value target =>
    assigning dest (op.mnemonic ++ " " ++ value.renderTyped ++ " to " ++ target.render)
  | gep dest _ base indices inbounds =>
    let source := base.ty.pointee?.getD base.ty
    assigning dest ("getelementptr " ++ (if inbounds then "inbounds " else "") ++
      commas (source.render :: base.renderTyped :: indices.map Value.renderTyped))
  | call dest callee signature args =>
    let params := if signature.variadic then " (" ++ signature.renderParams ++ ")" else ""
    let text := "call " ++ signature.ret.render ++ params ++ " @" ++ renderName callee ++ "(" ++
      commas (args.map Value.renderTyped) ++ ")"
    match dest with
    | some dest => assigning dest text
    | none => text

/-- A terminator. -/
def Terminator.render : Terminator → String
  | ret (some value) => "ret " ++ value.renderTyped
  | ret none => "ret void"
  | br label => "br label %" ++ renderName label
  | condBr condition ifTrue ifFalse =>
    "br " ++ condition.renderTyped ++ ", label %" ++ renderName ifTrue ++ ", label %" ++
      renderName ifFalse
  | unreachable => "unreachable"

/-! ### Functions and modules -/

/-- A block: its label, its instructions and its terminator on lines of their own. -/
def Block.render (b : Block) : String :=
  renderName b.label ++ ":\n" ++
    String.join (b.instrs.map fun i => "  " ++ i.render ++ "\n") ++
    "  " ++ b.terminator.render ++ "\n"

/-- A parameter after its type. -/
def Param.render (p : Param) : String :=
  p.ty.render ++ " %" ++ renderName p.name

/-- A function, with an empty line between its blocks. -/
def Function.render (f : Function) : String :=
  "define " ++ f.ret.render ++ " @" ++ renderName f.name ++ "(" ++
    commas (f.params.map Param.render) ++
    ") \x7b\n" ++ "\n".intercalate (f.blocks.map Block.render) ++ "\x7d\n"

/-- A constant string of bytes. -/
def Global.render (g : Global) : String :=
  "@" ++ renderName g.name ++ " = private unnamed_addr constant " ++ g.ty.render ++ " c\"" ++
    escapeBytes g.bytes ++ "\"\n"

/-- A function that is defined elsewhere. -/
def Declaration.render (d : Declaration) : String :=
  "declare " ++ d.signature.ret.render ++ " @" ++ renderName d.name ++ "(" ++
    d.signature.renderParams ++ ")\n"

/-- Lines with an empty line before them, if there are any. -/
def paragraph (lines : List String) : String :=
  if lines.isEmpty then "" else "\n" ++ String.join lines

/-- A module. -/
def Module.render (m : Module) : String :=
  "; ModuleID = '" ++ m.name ++ "'\n" ++
    "source_filename = \"" ++ escapeBytes (utf8 m.sourceName) ++ "\"\n" ++
    "target triple = \"" ++ m.target ++ "\"\n" ++
    paragraph (m.globals.map Global.render) ++
    paragraph (m.declarations.map Declaration.render) ++
    String.join (m.functions.map fun f => "\n" ++ f.render)

end Pseudocode.Ir
