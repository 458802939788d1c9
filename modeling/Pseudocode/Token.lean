import Pseudocode.Number.Digits

/-!
Tokens.

A program is a sequence of tokens: marks, keywords, names, numerals, strings and line breaks, and
one token that stands for the end of the input.  Each token keeps the text it was read from and the
position of its first character.  Lines and columns count from one, and a column counts characters.
-/

namespace Pseudocode

/-- A place in a text: a line and a column, both counted from one. -/
structure Position where
  line : Nat
  column : Nat
  deriving DecidableEq, Repr, Inhabited

namespace Position

/-- Where a text begins. -/
def start : Position := ⟨1, 1⟩

/-- The place after one character: a line feed starts the next line. -/
def after (p : Position) (c : Char) : Position :=
  if c = '\n' then ⟨p.line + 1, 1⟩ else ⟨p.line, p.column + 1⟩

/-- The place after a run of characters. -/
def afterAll (p : Position) (cs : List Char) : Position :=
  cs.foldl after p

end Position

/-- Brackets, the comma, and the signs of the operators. -/
inductive Mark where
  | leftParen | rightParen | leftBracket | rightBracket | comma
  | plus | minus | star | slash | percent
  | assign | equal | notEqual | greater | greaterEqual | less | lessEqual
  deriving DecidableEq, Repr, Inhabited

namespace Mark

/-- How a mark is written. -/
def spelling : Mark → String
  | leftParen => "("
  | rightParen => ")"
  | leftBracket => "["
  | rightBracket => "]"
  | comma => ","
  | plus => "+"
  | minus => "-"
  | star => "*"
  | slash => "/"
  | percent => "%"
  | assign => "="
  | equal => "=="
  | notEqual => "<>"
  | greater => ">"
  | greaterEqual => ">="
  | less => "<"
  | lessEqual => "<="

end Mark

/-- The reserved words. -/
inductive Keyword where
  | int | double | input | output
  | ifWord | thenWord | elseWord | endIf
  | whileWord | doWord | endWhile
  | forWord | toWord | next
  | subroutine | endSubroutine | returnWord
  deriving DecidableEq, Repr, Inhabited

namespace Keyword

/-- How a keyword is written. -/
def spelling : Keyword → String
  | int => "INT"
  | double => "DOUBLE"
  | input => "INPUT"
  | output => "OUTPUT"
  | ifWord => "IF"
  | thenWord => "THEN"
  | elseWord => "ELSE"
  | endIf => "ENDIF"
  | whileWord => "WHILE"
  | doWord => "DO"
  | endWhile => "ENDWHILE"
  | forWord => "FOR"
  | toWord => "TO"
  | next => "NEXT"
  | subroutine => "SUBROUTINE"
  | endSubroutine => "ENDSUBROUTINE"
  | returnWord => "RETURN"

/-- All the keywords. -/
def all : List Keyword :=
  [int, double, input, output, ifWord, thenWord, elseWord, endIf, whileWord, doWord, endWhile,
   forWord, toWord, next, subroutine, endSubroutine, returnWord]

theorem mem_all (k : Keyword) : k ∈ all := by
  cases k <;> decide

/-- The keyword that is written so, if there is one.  Case matters. -/
def ofSpelling? (word : String) : Option Keyword :=
  all.find? fun k => k.spelling == word

end Keyword

/-- What a token is, with the value of a name, a numeral or a string. -/
inductive Kind where
  | mark (m : Mark)
  | keyword (k : Keyword)
  | newline
  | name (text : String)
  | int (value : Int)
  | double (value : Double)
  | string (text : String)
  | eof
  deriving DecidableEq, Repr, Inhabited

namespace Kind

/-- Are the two kinds the same, whatever the values they carry? -/
def sameClass : Kind → Kind → Bool
  | mark m, mark n => m == n
  | keyword k, keyword l => k == l
  | newline, newline => true
  | name _, name _ => true
  | int _, int _ => true
  | double _, double _ => true
  | string _, string _ => true
  | eof, eof => true
  | _, _ => false

/-- The kind of a word: a keyword if it is reserved, and a name otherwise. -/
def ofWord (word : String) : Kind :=
  match Keyword.ofSpelling? word with
  | some k => keyword k
  | none => name word

end Kind

/-- A token, the text it was read from, and where that text begins. -/
structure Token extends Position where
  kind : Kind
  lexeme : String
  deriving DecidableEq, Repr, Inhabited

namespace Token

/-- How a complaint speaks of a token. -/
def describe (t : Token) : String :=
  match t.kind with
  | .eof => "end of input"
  | .newline => "line break"
  | _ => "'" ++ t.lexeme ++ "'"

end Token

end Pseudocode
