import Pseudocode.Scope
import Pseudocode.Token.Scan
import Pseudocode.Ty

/-!
What happens during a compilation, for the log.

Every step worth telling is an `Event`.  Its level says how much detail it is, its source which part
of the compiler it comes from, and its message puts it into words.
-/

namespace Pseudocode

/-- How much detail an event is, from least to most. -/
inductive Level where
  | warn | info | debug | trace
  deriving DecidableEq, Repr, Inhabited

namespace Level

/-- How the log writes a level. -/
def name : Level → String
  | warn => "WARN"
  | info => "INFO"
  | debug => "DEBUG"
  | trace => "TRACE"

/-- The place of a level in the order from least to most detail. -/
def rank : Level → Nat
  | warn => 0
  | info => 1
  | debug => 2
  | trace => 3

end Level

/-- A step of a compilation. -/
inductive Event where
  /-- A character was skipped. -/
  | skipped (char : IllegalChar)
  /-- The source was cut into so many tokens, and so many characters were skipped. -/
  | scanned (tokens illegal : Nat)
  /-- A name was given a shape. -/
  | bound (symbol : Symbol) (shape : Shape)
  /-- A subroutine was given a return type. -/
  | registered (name : String) (ty : Ty)
  /-- A statement was read that begins on this line. -/
  | reduced (label : String) (line : Nat)
  /-- Code for a statement is about to be generated. -/
  | lowering (label : String) (scope : Scope)
  /-- A module was generated. -/
  | generated (functions globals : Nat) (source : String)
  /-- A file was written. -/
  | wrote (path : String)
  deriving DecidableEq, Repr, Inhabited

namespace Event

/-- How much detail the event is. -/
def level : Event → Level
  | skipped _ => .warn
  | scanned .. => .debug
  | bound .. => .trace
  | registered .. => .trace
  | reduced .. => .debug
  | lowering .. => .debug
  | generated .. => .info
  | wrote _ => .info

/-- The part of the compiler that the event comes from, as the log names it. -/
def source : Event → String
  | skipped _ => "pcc::lexer"
  | scanned .. => "pcc_llvm"
  | bound .. => "pcc::typechecker"
  | registered .. => "pcc::typechecker"
  | reduced .. => "pcc::parser"
  | lowering .. => "pcc_llvm::codegen::lowering"
  | generated .. => "pcc_llvm"
  | wrote _ => "pcc"

/-- The event in words. -/
def message : Event → String
  | skipped char => char.message
  | scanned tokens illegal => s!"lexed {tokens} tokens ({illegal} diagnostics)"
  | bound symbol shape =>
    s!"bind {symbol.name} in {symbol.scope.label} as {shape.ty.name} (length {shape.length})"
  | registered name ty => s!"register function {name} -> {ty.name}"
  | reduced label line => s!"reduced {label} at line {line}"
  | lowering label scope => s!"lowering {label} in {scope.label}"
  | generated functions globals source =>
    s!"generated {functions} function(s), {globals} global(s) for {source}"
  | wrote path => s!"wrote {path}"

/-- Is the event no more detail than the given level? -/
def upTo (level : Level) (e : Event) : Bool :=
  e.level.rank ≤ level.rank

/-- The event as a line of the log, in which levels take five columns.  A message of several lines
has all but the first of them indented. -/
def line (e : Event) : String :=
  let message := "\n    ".intercalate (e.message.splitOn "\n")
  "[" ++ String.ofList (e.level.name.toList.rightpad 5 ' ') ++ " " ++ e.source ++ "] " ++ message

end Event

end Pseudocode
