import Retrace.Json.Basic
import Retrace.Bytes
import Retrace.Decimal.Shortest

/-!
The text of a JSON value, on one line or indented.
-/
namespace Retrace.Json

namespace Printer

/-- A quote and a backslash are escaped, control characters too, by a letter where there is one. -/
def escapeChar (c : Char) : List Char :=
  if c = '"' then ['\\', '"']
  else if c = '\\' then ['\\', '\\']
  else if c = '\x08' then ['\\', 'b']
  else if c = '\x0c' then ['\\', 'f']
  else if c = '\n' then ['\\', 'n']
  else if c = '\r' then ['\\', 'r']
  else if c = '\t' then ['\\', 't']
  else if c.toNat < 0x20 then
    ['\\', 'u', '0', '0', Bytes.hexDigit (c.toNat / 16), Bytes.hexDigit (c.toNat % 16)]
  else [c]

def quote (s : String) : List Char := '"' :: s.toList.flatMap escapeChar ++ ['"']

/-- The digits of a value with its point after the digit of place `power`. -/
def placePoint (digits : List Char) (power : Int) : List Char :=
  if power < 0 then '0' :: '.' :: List.replicate (-power - 1).toNat '0' ++ digits
  else
    let whole := power.toNat + 1
    let padded := digits ++ List.replicate (whole - digits.length) '0'
    let rest := padded.drop whole
    padded.take whole ++ '.' :: (if rest = [] then ['0'] else rest)

/-- One digit, a point if more follow, and the power of ten with its sign. -/
def scientific (digits : List Char) (power : Int) : List Char :=
  let lead := digits.take 1
  let rest := digits.drop 1
  lead ++ (if rest = [] then [] else '.' :: rest) ++
    'e' :: (if power < 0 then '-' else '+') :: (toString power.natAbs).toList

/-- The fewest digits that read back. The point is placed for powers of ten from -5 to 15. -/
def real (x : Double) : List Char :=
  let d := x.shortest
  let digits := (toString d.digits).toList
  let power := d.exponent + (digits.length - 1 : Nat)
  let magnitude :=
    if -5 ≤ power ∧ power ≤ 15 then placePoint digits power else scientific digits power
  if x.negative then '-' :: magnitude else magnitude

def number : Number → List Char
  | .integer n => (toString n.value).toList
  | .real x => real x

/-- How the parts of an array or object are set apart. -/
structure Layout where
  /-- Stands before each part; the argument is the number of arrays and objects around the part. -/
  newline : Nat → List Char
  colon : List Char

/-- Everything on one line without blanks. -/
def compact : Layout := ⟨fun _ => [], [':']⟩

/-- Each part on a line of its own, indented by two blanks for every level. -/
def indented : Layout := ⟨fun n => '\n' :: List.replicate (2 * n) ' ', [':', ' ']⟩

mutual

def value (l : Layout) (depth : Nat) : Json → List Char
  | .null => "null".toList
  | .bool true => "true".toList
  | .bool false => "false".toList
  | .number n => number n
  | .string s => quote s
  | .array [] => ['[', ']']
  | .array (x :: xs) =>
    '[' :: l.newline (depth + 1) ++ value l (depth + 1) x ++ items l (depth + 1) xs ++
      l.newline depth ++ [']']
  | .object [] => ['{', '}']
  | .object ((k, x) :: fs) =>
    '{' :: l.newline (depth + 1) ++ quote k ++ l.colon ++ value l (depth + 1) x ++
      fields l (depth + 1) fs ++ l.newline depth ++ ['}']

/-- The items after the first, each after a comma. -/
def items (l : Layout) (depth : Nat) : List Json → List Char
  | [] => []
  | x :: xs => ',' :: l.newline depth ++ value l depth x ++ items l depth xs

/-- The fields after the first, each after a comma. -/
def fields (l : Layout) (depth : Nat) : List (String × Json) → List Char
  | [] => []
  | (k, x) :: fs =>
    ',' :: l.newline depth ++ quote k ++ l.colon ++ value l depth x ++ fields l depth fs

end

end Printer

def compact (j : Json) : String := String.ofList (Printer.value Printer.compact 0 j)

def indented (j : Json) : String := String.ofList (Printer.value Printer.indented 0 j)

end Retrace.Json
