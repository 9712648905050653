import Retrace.Json.Written
import Retrace.Bytes

/-!
The tokens of a JSON text, found by a machine that reads one character at a time.
-/
namespace Retrace.Json

inductive Token
  | openArray
  | closeArray
  | openObject
  | closeObject
  | comma
  | colon
  | null
  | bool (b : Bool)
  | numeral (n : Numeral)
  | string (s : Option String)
  deriving DecidableEq, Repr

/-- One step of a quoted string: a character, or an escaped code unit of sixteen bits. -/
inductive Unit16
  | char (c : Char)
  | code (n : Nat)
  deriving DecidableEq, Repr

namespace Unit16

def isHigh (n : Nat) : Bool := 0xD800 ≤ n && n ≤ 0xDBFF
def isLow (n : Nat) : Bool := 0xDC00 ≤ n && n ≤ 0xDFFF

/-- Two escaped surrogates, high before low, are one character; an unpaired one is none. -/
def chars? : List Unit16 → Option (List Char)
  | [] => some []
  | .char c :: r => (chars? r).map (c :: ·)
  | .code n :: .code m :: r =>
    if isHigh n && isLow m then
      (chars? r).map (Char.ofNat (0x10000 + 0x400 * (n - 0xD800) + (m - 0xDC00)) :: ·)
    else if isHigh n || isLow n then none
    else (chars? (.code m :: r)).map (Char.ofNat n :: ·)
  | .code n :: r => if isHigh n || isLow n then none else (chars? r).map (Char.ofNat n :: ·)
termination_by us => us.length

/-- What a single character after a backslash stands for. -/
def ofEscape? : Char → Option Char
  | '"' => some '"'
  | '\\' => some '\\'
  | '/' => some '/'
  | 'b' => some '\x08'
  | 'f' => some '\x0c'
  | 'n' => some '\n'
  | 'r' => some '\r'
  | 't' => some '\t'
  | _ => none

end Unit16

namespace Lexer

/-- Where the machine stands. Characters and units read so far are kept latest first. -/
inductive State
  | between
  | word (read : List Char)
  | numeral (read : List Char)
  | quoted (read : List Unit16)
  | escaped (read : List Unit16)
  /-- Inside a four-digit escape, with `left` digits to come after the digits of `code`. -/
  | unicode (read : List Unit16) (left code : Nat)
  deriving DecidableEq, Repr

def isBlank (c : Char) : Bool := c = ' ' || c = '\t' || c = '\n' || c = '\r'

def isNumeral (c : Char) : Bool := c.isDigit || c = '-' || c = '+' || c = '.' || c = 'e' || c = 'E'

def isLetter (c : Char) : Bool := 'a' ≤ c && c ≤ 'z'

def punctuation? : Char → Option Token
  | '[' => some .openArray
  | ']' => some .closeArray
  | '{' => some .openObject
  | '}' => some .closeObject
  | ',' => some .comma
  | ':' => some .colon
  | _ => none

def keyword? : List Char → Option Token
  | ['n', 'u', 'l', 'l'] => some .null
  | ['t', 'r', 'u', 'e'] => some (.bool true)
  | ['f', 'a', 'l', 's', 'e'] => some (.bool false)
  | _ => none

/-- The state and tokens after a character that starts something new. -/
def start? (c : Char) : Option (List Token × State) :=
  if isBlank c then some ([], .between)
  else if c = '"' then some ([], .quoted [])
  else if c = '-' ∨ c.isDigit then some ([], .numeral [c])
  else if isLetter c then some ([], .word [c])
  else (punctuation? c).map ([·], .between)

def stringOf (read : List Unit16) : Token :=
  .string ((Unit16.chars? read.reverse).map String.ofList)

/-- The token that ends at a boundary, if the state holds one. -/
def finish? : State → Option (List Token)
  | .between => some []
  | .word read => (keyword? read.reverse).map ([·])
  | .numeral read => (Numeral.ofChars? read.reverse).map ([.numeral ·])
  | _ => none

/-- A word or numeral ends before the first character that cannot belong to it. -/
def close? (s : State) (c : Char) : Option (List Token × State) := do
  let done ← finish? s
  let (next, s) ← start? c
  return (done ++ next, s)

def step? : State → Char → Option (List Token × State)
  | .between, c => start? c
  | .word read, c => if isLetter c then some ([], .word (c :: read)) else close? (.word read) c
  | .numeral read, c =>
    if isNumeral c then some ([], .numeral (c :: read)) else close? (.numeral read) c
  | .quoted read, c =>
    if c = '"' then some ([stringOf read], .between)
    else if c = '\\' then some ([], .escaped read)
    else if c.toNat < 0x20 then none
    else some ([], .quoted (.char c :: read))
  | .escaped read, c =>
    if c = 'u' then some ([], .unicode read 4 0)
    else (Unit16.ofEscape? c).map fun e => ([], .quoted (.char e :: read))
  | .unicode read left code, c => do
    let code := 16 * code + (← Bytes.hexDigit? c)
    if left ≤ 1 then return ([], .quoted (.code code :: read))
    else return ([], .unicode read (left - 1) code)

end Lexer

/-- The tokens of the text that follows a state; those found so far are kept latest first. -/
def Token.scan? : Lexer.State → List Token → List Char → Option (List Token)
  | s, found, [] => (Lexer.finish? s).map fun last => (last.reverse ++ found).reverse
  | s, found, c :: r =>
    match Lexer.step? s c with
    | none => none
    | some (new, s) => scan? s (new.reverse ++ found) r

/-- The tokens of a text, none where it holds something that is no token. -/
def Token.ofText? (s : String) : Option (List Token) := Token.scan? .between [] s.toList

end Retrace.Json
