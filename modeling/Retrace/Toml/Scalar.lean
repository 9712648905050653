import Retrace.Bytes
import Retrace.Decimal.Double
import Retrace.Time.Calendar
import Retrace.Toml.Table

/-!
Strings, numbers and times of settings files. Every reader gives the value and the characters that
follow it.
-/
namespace Retrace.Toml

abbrev Reader (α : Type) := List Char → Option (α × List Char)

/-- Any character that may stand in a comment or a string: no controls but the tab. -/
def isPlain (c : Char) : Bool := c = '\t' || (0x20 ≤ c.toNat && c.toNat ≠ 0x7F)

def isBlank (c : Char) : Bool := c = ' ' || c = '\t'

def skipBlanks (cs : List Char) : List Char := cs.dropWhile isBlank

/-- A line end, if one stands here. -/
def newline? : List Char → Option (List Char)
  | '\n' :: r => some r
  | '\r' :: '\n' :: r => some r
  | _ => none

namespace Text

def codePoint? (ds : List Char) : Option Char := do
  let n ← ds.foldlM (fun n c => (Bytes.hexDigit? c).map (16 * n + ·)) 0
  if n < 0xD800 ∨ (0xDFFF < n ∧ n < 0x110000) then return Char.ofNat n else none

def escape? : Char → Option Char
  | 'b' => some '\x08'
  | 'f' => some '\x0c'
  | 'n' => some '\n'
  | 'r' => some '\r'
  | 't' => some '\t'
  | '\\' => some '\\'
  | '"' => some '"'
  | _ => none

/-- The rest of a string in double quotes, after the opening quote. -/
def basic? : Reader (List Char)
  | '"' :: r => some ([], r)
  | '\\' :: 'u' :: a :: b :: c :: d :: r => do
    let x ← codePoint? [a, b, c, d]
    let (s, r) ← basic? r
    return (x :: s, r)
  | '\\' :: 'U' :: a :: b :: c :: d :: e :: f :: g :: h :: r => do
    let x ← codePoint? [a, b, c, d, e, f, g, h]
    let (s, r) ← basic? r
    return (x :: s, r)
  | '\\' :: c :: r => do
    let x ← escape? c
    let (s, r) ← basic? r
    return (x :: s, r)
  | c :: r => if isPlain c ∧ c ≠ '\\' then (basic? r).map fun (s, r) => (c :: s, r) else none
  | [] => none

/-- The rest of a string in single quotes, after the opening quote. -/
def literal? : Reader (List Char)
  | '\'' :: r => some ([], r)
  | c :: r => if isPlain c then (literal? r).map fun (s, r) => (c :: s, r) else none
  | [] => none

/-- The end of a string over several lines: of up to two more quotes before it, all are content. -/
def closing (quote : Char) : List Char → List Char × List Char
  | a :: b :: r =>
    if a = quote ∧ b = quote then ([a, b], r)
    else if a = quote then ([a], b :: r)
    else ([], a :: b :: r)
  | [a] => if a = quote then ([a], []) else ([], [a])
  | [] => ([], [])

/-- A backslash at the end of a line, blanks aside. -/
def endsLine (cs : List Char) : Bool := (newline? (skipBlanks cs)).isSome

/-- The rest of a string over several lines in double quotes. After a backslash at the end of a line
blanks and line ends are left out (`joining`) up to the next character. -/
def basicLines? : Bool → Reader (List Char)
  | true, ' ' :: r => basicLines? true r
  | true, '\t' :: r => basicLines? true r
  | true, '\n' :: r => basicLines? true r
  | true, '\r' :: '\n' :: r => basicLines? true r
  | _, '"' :: '"' :: '"' :: r => some (closing '"' r)
  | _, '\\' :: 'u' :: a :: b :: c :: d :: r => do
    let x ← codePoint? [a, b, c, d]
    let (s, r) ← basicLines? false r
    return (x :: s, r)
  | _, '\\' :: 'U' :: a :: b :: c :: d :: e :: f :: g :: h :: r => do
    let x ← codePoint? [a, b, c, d, e, f, g, h]
    let (s, r) ← basicLines? false r
    return (x :: s, r)
  | _, '\\' :: c :: r =>
    if endsLine (c :: r) then basicLines? true (c :: r)
    else do
      let x ← escape? c
      let (s, r) ← basicLines? false r
      return (x :: s, r)
  | _, '\r' :: '\n' :: r => (basicLines? false r).map fun (s, r) => ('\n' :: s, r)
  | _, '\n' :: r => (basicLines? false r).map fun (s, r) => ('\n' :: s, r)
  | _, c :: r =>
    if isPlain c ∧ c ≠ '\\' then (basicLines? false r).map fun (s, r) => (c :: s, r) else none
  | _, [] => none

/-- The rest of a string over several lines in single quotes. -/
def literalLines? : Reader (List Char)
  | '\'' :: '\'' :: '\'' :: r => some (closing '\'' r)
  | '\r' :: '\n' :: r => (literalLines? r).map fun (s, r) => ('\n' :: s, r)
  | '\n' :: r => (literalLines? r).map fun (s, r) => ('\n' :: s, r)
  | c :: r => if isPlain c then (literalLines? r).map fun (s, r) => (c :: s, r) else none
  | [] => none

/-- A line end right after the opening quotes is no content. -/
def afterOpening (cs : List Char) : List Char := (newline? cs).getD cs

def string? : Reader String
  | '"' :: '"' :: '"' :: r => (basicLines? false (afterOpening r)).map fun (s, r) => (.ofList s, r)
  | '"' :: r => (basic? r).map fun (s, r) => (.ofList s, r)
  | '\'' :: '\'' :: '\'' :: r => (literalLines? (afterOpening r)).map fun (s, r) => (.ofList s, r)
  | '\'' :: r => (literal? r).map fun (s, r) => (.ofList s, r)
  | _ => none

end Text

namespace Number

/-- Digits, an underscore between any two of them allowed. The first one has been found. -/
def moreDigits? (isDigit : Char → Bool) : Reader (List Char)
  | '_' :: c :: r =>
    if isDigit c then (moreDigits? isDigit r).map fun (ds, r) => (c :: ds, r) else none
  | c :: r =>
    if isDigit c then (moreDigits? isDigit r).map fun (ds, r) => (c :: ds, r)
    else if c = '_' then none
    else some ([], c :: r)
  | [] => some ([], [])

def digits? (isDigit : Char → Bool) : Reader (List Char)
  | c :: r =>
    if isDigit c then (moreDigits? isDigit r).map fun (ds, r) => (c :: ds, r) else none
  | [] => none

def valueOf (base : Nat) (ds : List Char) : Nat :=
  ds.foldl (fun n c => base * n + (Bytes.hexDigit? c).getD 0) 0

/-- Integers have 64 bits. -/
def integer (n : Int) : Option Value :=
  if -0x8000000000000000 ≤ n ∧ n < 0x8000000000000000 then some (.integer n) else none

def sign : List Char → Bool × List Char
  | '-' :: r => (true, r)
  | '+' :: r => (false, r)
  | r => (false, r)

/-- Decimal digits without a zero in front. -/
def whole? : Reader (List Char)
  | '0' :: r => some (['0'], r)
  | r => digits? Char.isDigit r

def fraction? : Reader (Option (List Char))
  | '.' :: r => (digits? Char.isDigit r).map fun (ds, r) => (some ds, r)
  | r => some (none, r)

def power? : Reader (Option Int)
  | c :: r =>
    if c = 'e' ∨ c = 'E' then do
      let (negative, r) := sign r
      let (ds, r) ← digits? Char.isDigit r
      let n : Int := valueOf 10 ds
      return (some (if negative then -n else n), r)
    else some (none, c :: r)
  | [] => some (none, [])

/-- Whether the digits times a power of ten exceed every binary64 value. -/
def overflows (ds : List Char) (power : Int) : Bool :=
  let n := valueOf 10 ds
  let leading : Int := ((toString n).length : Int) + power
  if n = 0 ∨ leading < 300 then false
  else if 400 < leading then true
  else (Double.ofQuotient? false (n * Nat.pow 10 power.toNat) (Nat.pow 10 (-power).toNat)).isNone

def based? (base : Nat) (isDigit : Char → Bool) : Reader Value := fun cs => do
  let (ds, r) ← digits? isDigit cs
  return (← integer (valueOf base ds), r)

def isHex (c : Char) : Bool := (Bytes.hexDigit? c).isSome

/-- A number with a sign perhaps, a fraction or a power of ten. A positive one may not overflow. -/
def decimal? : Reader Value := fun cs => do
  let (negative, r) := sign cs
  match r with
  | 'i' :: 'n' :: 'f' :: r => return (.other, r)
  | 'n' :: 'a' :: 'n' :: r => return (.other, r)
  | r => do
    let (ds, r) ← whole? r
    let (fr, r) ← fraction? r
    let (power, r) ← power? r
    if fr.isNone && power.isNone then
      let n : Int := valueOf 10 ds
      return (← integer (if negative then -n else n), r)
    else if !negative && overflows (ds ++ fr.getD []) (power.getD 0 - (fr.getD []).length) then none
    else return (.other, r)

def number? : Reader Value
  | '0' :: 'x' :: r => based? 16 isHex r
  | '0' :: 'o' :: r => based? 8 (fun c => '0' ≤ c && c ≤ '7') r
  | '0' :: 'b' :: r => based? 2 (fun c => c = '0' || c = '1') r
  | r => decimal? r

end Number

namespace Time

/-- A number of exactly `n` digits. -/
def field? (n : Nat) (cs : List Char) : Option (Nat × List Char) :=
  let ds := cs.take n
  if ds.length = n ∧ ds.all Char.isDigit then some (Number.valueOf 10 ds, cs.drop n) else none

def bounded? (n least greatest : Nat) (cs : List Char) : Option (Nat × List Char) := do
  let (v, r) ← field? n cs
  if least ≤ v ∧ v ≤ greatest then return (v, r) else none

def mark? (c : Char) : List Char → Option (List Char)
  | x :: r => if x = c then some r else none
  | [] => none

def date? (cs : List Char) : Option (List Char) := do
  let (year, r) ← field? 4 cs
  let (month, r) ← bounded? 2 1 12 (← mark? '-' r)
  let (day, r) ← bounded? 2 1 31 (← mark? '-' r)
  if day ≤ Date.daysInMonth year month then return r else none

/-- Digits of a second after a point, if there is one. -/
def fraction? : List Char → Option (List Char)
  | '.' :: c :: r => if c.isDigit then some (r.dropWhile Char.isDigit) else none
  | '.' :: [] => none
  | r => some r

def clock? (cs : List Char) : Option (List Char) := do
  let (_, r) ← bounded? 2 0 23 cs
  let (_, r) ← bounded? 2 0 59 (← mark? ':' r)
  let (_, r) ← bounded? 2 0 60 (← mark? ':' r)
  fraction? r

def offset? : List Char → Option (List Char)
  | c :: r =>
    if c = 'Z' ∨ c = 'z' then some r
    else if c = '+' ∨ c = '-' then do
      let (_, r) ← bounded? 2 0 23 r
      let (_, r) ← bounded? 2 0 59 (← mark? ':' r)
      return r
    else some (c :: r)
  | [] => some []

/-- What follows a date: a time of day, after a letter or one blank. -/
def afterDate : List Char → Option (List Char)
  | c :: r =>
    if c = 'T' ∨ c = 't' ∨ c = ' ' then
      match clock? r with
      | some r => offset? r
      | none => some (c :: r)
    else some (c :: r)
  | [] => some []

def time? (cs : List Char) : Option (List Char) := ((date? cs).bind afterDate).or (clock? cs)

end Time

/-- A value that is no array or table. -/
def scalar? : Reader Value
  | 't' :: 'r' :: 'u' :: 'e' :: r => some (.bool true, r)
  | 'f' :: 'a' :: 'l' :: 's' :: 'e' :: r => some (.bool false, r)
  | c :: r =>
    if c = '"' ∨ c = '\'' then (Text.string? (c :: r)).map fun (s, r) => (.string s, r)
    else match Time.time? (c :: r) with
      | some r => some (.other, r)
      | none => Number.number? (c :: r)
  | [] => none

end Retrace.Toml
