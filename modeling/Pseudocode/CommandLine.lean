import Pseudocode.Directory
import Pseudocode.SourceError.Excerpt
import Pseudocode.Text.Control

/-!
The command line.

The compiler is told by options which file to read, where to write the module, which machine it is
for, and how much to tell.  What happens goes to the error output, for each event that is not too
much detail, and so does the reason if no module can be made.  How an event is shown there is left
open: it is an argument of `run`.  The module is printed or written to a file, and nothing is
written if there is none.
-/

namespace Pseudocode.CommandLine

/-- What the compiler is told. -/
structure Options where
  filename : String := "code.pc"
  output : String := "output.ll"
  target : Option String := none
  /-- Print the module and write no file. -/
  emitIr : Bool := false
  /-- How much more to tell than warnings. -/
  verbose : Nat := 0
  deriving DecidableEq, Repr, Inhabited

namespace Options

/-- The most detail that is told. -/
def level (o : Options) : Level :=
  match o.verbose with
  | 0 => .warn
  | 1 => .info
  | 2 => .debug
  | _ => .trace

/-- The compiler that the options ask for.  Its modules are named for the file they are written
to. -/
def compiler (o : Options) : Compiler :=
  let c : Compiler := { moduleName := o.output }
  { c with target := o.target.getD c.target }

end Options

/-- What a run of the compiler leaves: the code it exits with, and what it has printed. -/
structure Outcome where
  exit : UInt32 := 0
  stdout : String := ""
  stderr : String := ""
  deriving DecidableEq, Repr, Inhabited

section

variable (shown : Event → String)

/-- What is told of a log. -/
def logText (level : Level) (log : Array Event) : String :=
  String.join ((log.toList.filter (Event.upTo level)).map shown)

/-- A run that has told the given log and fails for the given reason. -/
def failure (o : Options) (log : Array Event) (reason : String) : Outcome :=
  { exit := 1, stderr := logText shown o.level log ++ reason ++ "\n" }

/-- How the reason is told why a source cannot be compiled. -/
def reason (label source : String) : CompileError → String
  | .source e => e.excerpt label source
  | e => "error: " ++ e.message

/-- Runs the compiler. -/
def run [Monad m] (files : Files m) (o : Options) : m Outcome := do
  match ← files.readText o.filename with
  | .error fault => return failure shown o #[] s!"error: cannot read {o.filename}: {fault.message}"
  | .ok raw =>
    let source := Text.dedent raw
    let ⟨result, log⟩ := o.compiler.compileNamed o.filename source
    match result with
    | .error e => return failure shown o log (reason o.filename source e)
    | .ok module =>
      let text := module.render
      if o.emitIr then return { stdout := text, stderr := logText shown o.level log }
      match ← files.write o.output text with
      | .error fault =>
        return failure shown o log s!"error: cannot write {o.output}: {fault.message}"
      | .ok () => return { stderr := logText shown o.level (log.push (.wrote o.output)) }

end

/-- Runs the compiler, with the log in lines of plain text. -/
def runPlain [Monad m] (files : Files m) (o : Options) : m Outcome :=
  run (fun e => Text.plain (e.line ++ "\n")) files o

end Pseudocode.CommandLine
