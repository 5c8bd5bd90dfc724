import TwinLisp.SyntaxError
import TwinLisp.Text.Blank
import TwinLisp.Token

/-! Scanning: from the characters of a source to its tokens, one character at a time. -/

namespace TwinLisp.Scan

def apostrophe : Char := Char.ofNat 39

/-- Blanks that may stand between tokens. -/
def isSkipped (c : Char) : Bool :=
  c == ' ' || c == '\t' || c == '\r' || c == '\n' || c == '\x0c'

/-- Characters that end a word without being blank. -/
def isDelimiter (c : Char) : Bool :=
  c == '(' || c == ')' || c == apostrophe || c == ';' || c == '"'

/-- Characters that integers and identifiers are made of. -/
def isWordChar (c : Char) : Bool :=
  !Text.isBlank c && !isDelimiter c

/-- Where the scanner stands; collected characters are kept in reverse. -/
inductive Mode
  | between
  | comment
  | word (start : Nat) (chars : List Char)
  | string (start : Nat) (chars : List Char)

/-- The scanner after some characters: `offset` bytes are behind it, `tokens` are in reverse. -/
structure State where
  mode : Mode
  offset : Nat
  tokens : List Token

namespace State

def initial : State := ⟨.between, 0, []⟩

def emit (s : State) (lexeme : Lexeme) (start stop : Nat) : State :=
  { s with mode := .between, tokens := ⟨lexeme, .ofOffsets start stop⟩ :: s.tokens }

/-- Ends a word before the next character. -/
def closeWord (s : State) (start : Nat) (chars : List Char) : Except SyntaxError State :=
  let word := chars.reverse
  -- the only fault that a word can have is to be too large a number
  match Lexeme.ofWord? word with
  | some lexeme => .ok (s.emit lexeme start s.offset)
  | none =>
    .error ⟨.integerOverflow (String.ofList word), .ofOffsets start s.offset⟩

/-- Reads a character that no token is waiting for. -/
def start (s : State) (c : Char) : Except SyntaxError State :=
  let next := s.offset + c.utf8Size
  if isSkipped c then .ok { s with mode := .between }
  else if c == ';' then .ok { s with mode := .comment }
  else if c == '(' then .ok (s.emit .openParen s.offset next)
  else if c == ')' then .ok (s.emit .closeParen s.offset next)
  else if c == apostrophe then .ok (s.emit .quoteMark s.offset next)
  else if c == '"' then .ok { s with mode := .string s.offset [] }
  -- blanks that are not skipped are the only characters that begin no token
  else if Text.isBlank c then .error ⟨.invalidToken, .ofOffsets s.offset next⟩
  else .ok { s with mode := .word s.offset [c] }

/-- Reads one character, leaving the offset alone. -/
def read (s : State) (c : Char) : Except SyntaxError State :=
  match s.mode with
  | .between => s.start c
  | .comment => .ok (if c == '\n' then { s with mode := .between } else s)
  | .word start chars =>
    if isWordChar c then .ok { s with mode := .word start (c :: chars) }
    else (s.closeWord start chars).bind (·.start c)
  | .string start chars =>
    .ok (if c == '"' then s.emit (.str (String.ofList chars.reverse)) start (s.offset + c.utf8Size)
      else { s with mode := .string start (c :: chars) })

def step (s : State) (c : Char) : Except SyntaxError State :=
  (s.read c).map fun t => { t with offset := s.offset + c.utf8Size }

/-- Ends the scan: a word may end here, a string may not. -/
def finish (s : State) : Except SyntaxError (List Token) :=
  match s.mode with
  | .between | .comment => .ok s.tokens.reverse
  | .word start chars => (s.closeWord start chars).map (·.tokens.reverse)
  | .string start _ => .error ⟨.unterminatedString, .ofOffsets start s.offset⟩

end State

def tokens (source : String) : Except SyntaxError (List Token) :=
  (source.toList.foldlM State.step State.initial).bind State.finish

end TwinLisp.Scan
