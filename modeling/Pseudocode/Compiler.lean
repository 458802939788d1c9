import Pseudocode.Grammar.Statement
import Pseudocode.Lower.Program
import Pseudocode.Text.Lines

/-!
From source to module.

A compiler is a name for the modules it makes and the name of a machine.  It scans a source, reads a
program from the tokens and generates code for it, and tells what happens on the way: the characters
that were skipped, the number of tokens, everything that reading and generating tell, and at last
the size of the module.
-/

namespace Pseudocode

/-- Why a file cannot be read or written. -/
inductive FileFault where
  | missing
  | isDirectory
  | notDirectory
  | nameTooLong
  | nulInName
  | notUtf8
  /-- Anything else, in the words of whoever was asked for the file. -/
  | other (words : String)
  deriving DecidableEq, Repr, Inhabited

namespace FileFault

/-- The fault in words. -/
def message : FileFault → String
  | missing => "No such file or directory (os error 2)"
  | isDirectory => "Is a directory (os error 21)"
  | notDirectory => "Not a directory (os error 20)"
  | nameTooLong => "File name too long (os error 36)"
  | nulInName => "file name contained an unexpected NUL byte"
  | notUtf8 => "stream did not contain valid UTF-8"
  | other words => words

end FileFault

/-- Why a source cannot be compiled. -/
inductive CompileError where
  /-- The program is rejected. -/
  | source (e : SourceError)
  /-- No code can be generated for the program. -/
  | lower (e : LowerError)
  /-- The source cannot be read. -/
  | read (path : String) (fault : FileFault)
  deriving DecidableEq, Repr, Inhabited

namespace CompileError

/-- The error in words. -/
def message : CompileError → String
  | source e => e.message
  | lower e => s!"code generation failed: {e.message}"
  | read path fault => s!"cannot read {path}: {fault.message}"

end CompileError

/-- What a compilation gives, and what has happened on the way. -/
structure Compilation where
  result : Except CompileError Ir.Module
  log : Array Event

/-- A compiler: how its modules are called, and which machine they are for. -/
structure Compiler where
  moduleName : String := "output.ll"
  target : String := "x86_64-unknown-linux-gnu"
  deriving DecidableEq, Repr, Inhabited

namespace Compiler

/-- Generates code for a program. -/
def compileProgram (c : Compiler) (sourceName : String) (p : Program) : Compilation :=
  match generate c.moduleName sourceName c.target p with
  | (.ok m, log) =>
    { result := .ok m, log := log.push (.generated m.functions.length m.globals.length sourceName) }
  | (.error e, log) => { result := .error (.lower e), log }

/-- Compiles a source of the given name. -/
def compileNamed (c : Compiler) (sourceName source : String) : Compilation :=
  let scanned := scan source
  let first := (scanned.illegal.map Event.skipped).toArray.push
    (.scanned scanned.tokens.length scanned.illegal.length)
  match analyze scanned.tokens with
  | (.ok p, session) =>
    let rest := c.compileProgram sourceName p
    { rest with log := first ++ session.log ++ rest.log }
  | (.error e, session) => { result := .error (.source e), log := first ++ session.log }

/-- Compiles a source that has the name of its module. -/
def compileSource (c : Compiler) (source : String) : Compilation :=
  c.compileNamed c.moduleName source

/-- Compiles what was found in a file, once its layout has been removed. -/
def compileFile (c : Compiler) (path : String) (content : Except FileFault String) : Compilation :=
  match content with
  | .ok text => c.compileNamed path (Text.dedent text)
  | .error fault => { result := .error (.read path fault), log := #[] }

end Compiler

end Pseudocode
