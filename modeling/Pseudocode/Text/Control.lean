/-!
Text without control sequences.

Some characters show nothing and steer a terminal instead: the control characters of ASCII, and
sequences of further characters that the escape character opens.  `plain` leaves all of them out.
Of the control characters it keeps the tab, the line feed, the form feed and the carriage return,
which lay text out.

A sequence is read by the kind of its opening.  The escape character may be followed by one sign
from `0` to `~`, with signs from the space to `/` before it; by `[`, parameters and one sign from
`@` to `~`; by `]` and a command that the bell character closes; or by `P`, `X`, `^` or `_` and a
string.  Another escape character opens another sequence in place of the open one, and two control
characters, CAN and SUB, break it off.

As long as no command or string has begun, a layout character puts the open sequence aside.  It is
shown, and so is the text after it, up to the next control character: there the sequence goes on
where it stopped. A character outside ASCII in that text gives the sequence up.
-/

namespace Pseudocode.Text

/-- The part of a control sequence that is being read. -/
inductive Control where
  /-- None: no sequence is open. -/
  | outside
  /-- The escape character has been read. -/
  | escape
  /-- A short sequence has begun that still lacks its last sign. -/
  | short
  /-- The parameters after `[`. -/
  | parameters
  /-- The command after `]`. -/
  | command
  /-- The first sign after `P`. -/
  | device
  /-- The parameters after `P`. -/
  | deviceParameters
  /-- The signs between the parameters after `P` and the string. -/
  | deviceSigns
  /-- A string, which only its terminator closes. -/
  | string
  deriving DecidableEq, Repr, Inhabited

/-- Does the character lay text out? -/
def isLayout (c : Char) : Bool :=
  c == '\t' || c == '\n' || c == '\x0c' || c == '\r'

/-- Does the character show something? -/
def isVisible (c : Char) : Bool :=
  0x20 ≤ c.toNat && c.toNat != 0x7F

/-- Is the terminator of strings, the byte `9C`, among the bytes that encode the character? -/
def closesString (c : Char) : Bool :=
  (String.singleton c).toUTF8.toList.contains 0x9C

namespace Control

/-- Is a character kept that is read in this part of a sequence? -/
def keeps (s : Control) (c : Char) : Bool :=
  match s with
  | outside => isVisible c || isLayout c
  | escape | short | parameters => isLayout c
  | _ => false

/-- Is the character one of those from `low` to `high`? -/
def within (low high c : Char) : Bool :=
  low ≤ c && c ≤ high

/-- The part after a character that is hidden and does not act on every sequence alike. -/
def advance (s : Control) (c : Char) : Control :=
  match s with
  | outside => outside
  | escape =>
    if within ' ' '/' c then short
    else if c == '[' then parameters
    else if c == ']' then command
    else if c == 'P' then device
    else if c == 'X' || c == '^' || c == '_' then string
    else if within '0' '~' c then outside
    else escape
  | short => if within '0' '~' c then outside else short
  | parameters => if within '@' '~' c then outside else parameters
  | command => if c == '\x07' then outside else command
  | device =>
    if within ' ' '/' c then deviceSigns
    else if within '0' '?' c then deviceParameters
    else if within '@' '~' c then string
    else device
  | deviceParameters =>
    if within ' ' '/' c then deviceSigns
    else if within '<' '~' c then string
    else deviceParameters
  | deviceSigns => if within '0' '~' c then string else deviceSigns
  | string => if closesString c then outside else string

/-- The part of a sequence after one more character of it. -/
def next (s : Control) (c : Char) : Control :=
  if c == '\x1b' then escape
  else if c == '\x18' || c == '\x1a' then outside
  else s.advance c

end Control

/-- What is known at a place of a text about the characters before it. -/
structure Reading where
  /-- The part of the sequence that is open. -/
  part : Control
  /-- Is text being shown, and the open sequence put aside? -/
  showing : Bool
  deriving DecidableEq, Repr, Inhabited

namespace Reading

/-- The beginning of a text. -/
def start : Reading := ⟨.outside, true⟩

/-- Is the character that is read next kept? -/
def keeps (r : Reading) (c : Char) : Bool :=
  if r.showing then Control.outside.keeps c else r.part.keeps c

/-- What is known after one more character.  A character that is kept leaves the open sequence
aside, or gives it up if it is outside ASCII; any other character belongs to the sequence. -/
def next (r : Reading) (c : Char) : Reading :=
  if r.keeps c then ⟨if c.toNat < 0x80 then r.part else .outside, true⟩
  else ⟨r.part.next c, false⟩

/-- The characters that are kept of those that follow. -/
def kept (r : Reading) : List Char → List Char
  | [] => []
  | c :: cs => if r.keeps c then c :: (r.next c).kept cs else (r.next c).kept cs

end Reading

/-- The text without control characters and control sequences. -/
def plain (text : String) : String :=
  String.ofList (Reading.start.kept text.toList)

end Pseudocode.Text
