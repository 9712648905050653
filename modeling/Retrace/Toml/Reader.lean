import Retrace.Toml.Scalar

/-!
Reading a settings file, line by line. Main definition: `Toml.table?`, the table that a text defines.
-/
namespace Retrace.Toml

/-- Arrays and tables inside one another, at most, and names in a dotted key. -/
def greatestDepth : Nat := 79

def skipComment : List Char → List Char
  | '#' :: r => r.dropWhile isPlain
  | r => r

/-- Blanks, line ends and comments; the bound is the number of characters. -/
def skipLines : Nat → List Char → List Char
  | 0, cs => cs
  | n + 1, cs =>
    match skipBlanks cs with
    | '#' :: r => skipLines n (skipComment ('#' :: r))
    | r => match newline? r with
      | some r => skipLines n r
      | none => r

def isNameChar (c : Char) : Bool := c.isAlphanum || c = '-' || c = '_'

def name? : Reader String
  | '"' :: r => (Text.basic? r).map fun (s, r) => (.ofList s, r)
  | '\'' :: r => (Text.literal? r).map fun (s, r) => (.ofList s, r)
  | r =>
    let s := r.takeWhile isNameChar
    if s = [] then none else some (.ofList s, r.dropWhile isNameChar)

/-- Names with dots between them and blanks around them. -/
def names? : Nat → Reader (List String)
  | 0, _ => none
  | n + 1, cs => do
    let (k, r) ← name? (skipBlanks cs)
    match skipBlanks r with
    | '.' :: r => do
      let (ks, r) ← names? n r
      return (k :: ks, r)
    | r => return ([k], r)

def key? : Reader (List String × String) := fun cs => do
  let (ks, r) ← names? greatestDepth cs
  return ((ks.dropLast, ks.getLast?.getD ""), r)

/-- A key, an equals sign and a value. -/
def definition? (value : Reader Value) : Reader ((List String × String) × Value) := fun cs => do
  let (k, r) ← key? cs
  match r with
  | '=' :: r => do
    let (v, r) ← value (skipBlanks r)
    return ((k, v), r)
  | _ => none

/-- The items of an array up to its closing bracket; a comma may follow the last one. -/
def arrayItems? (value : Reader Value) : Nat → List Char → Option (List Char)
  | 0, _ => none
  | n + 1, cs =>
    match skipLines cs.length cs with
    | ']' :: r => some r
    | r => do
      let (_, r) ← value r
      match skipLines r.length r with
      | ',' :: r => arrayItems? value n r
      | ']' :: r => some r
      | _ => none

/-- The fields of a table on one line, up to its closing bracket. -/
def inlineFields? (value : Reader Value) : Nat → Table → List Char → Option (List Char)
  | 0, _, _ => none
  | n + 1, t, cs => do
    let (((path, k), v), r) ← definition? value cs
    let t ← t.define path k v
    match skipBlanks r with
    | ',' :: r => inlineFields? value n t r
    | '}' :: r => some r
    | _ => none

/-- A value, with at most `depth` arrays and tables inside one another. -/
def value? : Nat → Reader Value
  | depth, '[' :: r =>
    match depth with
    | 0 => none
    | depth + 1 => (arrayItems? (value? depth) (r.length + 1) r).map (.other, ·)
  | depth, '{' :: r =>
    match depth with
    | 0 => none
    | depth + 1 =>
      match skipBlanks r with
      | '}' :: r => some (.other, r)
      | r => (inlineFields? (value? depth) (r.length + 1) .empty r).map (.other, ·)
  | _, r => scalar? r

/-- What may follow on a line. -/
def lineEnd? (cs : List Char) : Option (List Char) :=
  match skipComment (skipBlanks cs) with
  | [] => some []
  | r => newline? r

/-- A heading in single or double brackets. -/
def heading? (d : Draft) : List Char → Option (Draft × List Char)
  | '[' :: r => do
    let (ks, r) ← names? greatestDepth r
    match r with
    | ']' :: ']' :: r => return (← d.openSeries? ks, ← lineEnd? r)
    | _ => none
  | r => do
    let (ks, r) ← names? greatestDepth r
    match r with
    | ']' :: r => return (← d.openTable? ks, ← lineEnd? r)
    | _ => none

/-- One line; blanks before it are skipped. -/
def line? (d : Draft) (cs : List Char) : Option (Draft × List Char) :=
  match cs with
  | '#' :: _ => (lineEnd? cs).map (d, ·)
  | '[' :: r => heading? d r
  | _ =>
    match newline? cs with
    | some r => some (d, r)
    | none => do
      let (((path, k), v), r) ← definition? (value? greatestDepth) cs
      return (← d.define? path k v, ← lineEnd? r)

/-- All lines; the bound is the number of characters. -/
def lines? : Nat → Draft → List Char → Option Draft
  | 0, _, _ => none
  | n + 1, d, cs =>
    match skipBlanks cs with
    | [] => some d
    | r => do
      let (d, r) ← line? d r
      lines? n d r

/-- The table that a text defines; a byte order mark in front is skipped. -/
def table? (s : String) : Option Table := do
  let cs := match s.toList with
    | '\uFEFF' :: r => r
    | r => r
  (← lines? (cs.length + 1) .empty cs).finish?

end Retrace.Toml
