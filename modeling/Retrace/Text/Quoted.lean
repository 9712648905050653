import Retrace.Text.Utf8
import Retrace.Text.Hidden

/-!
Bytes in quotes for a reader: text as it is, except for double quotes, backslashes and characters that
show nothing, and every byte that belongs to no character in hexadecimal.
-/
namespace Retrace.Text

/-- A character inside quotes. -/
def quotedChar (c : Char) : List Char :=
  if c = '\x00' then ['\\', '0']
  else if c = '\t' then ['\\', 't']
  else if c = '\n' then ['\\', 'n']
  else if c = '\r' then ['\\', 'r']
  else if c = '"' ∨ c = '\\' then ['\\', c]
  else if isHidden c then ['\\', 'u', '{'] ++ Nat.toDigits 16 c.toNat ++ ['}']
  else [c]

/-- A byte that belongs to no character. -/
def quotedByte (b : UInt8) : List Char :=
  '\\' :: 'x' :: (Bytes.hexChars [b]).map Char.toUpper

/-- The character whose encoding stands at the front. -/
def firstChar? (b : Bytes) : Option Char :=
  [1, 2, 3, 4].findSome? fun n => ((Utf8.decode? (b.take n)).bind (·.toList.head?))

/-- What is shown of the bytes after the first `skip`. -/
def quotedBytes : Nat → Bytes → List Char
  | _, [] => []
  | skip + 1, _ :: r => quotedBytes skip r
  | 0, b :: r =>
    match firstChar? (b :: r) with
    | some c => quotedChar c ++ quotedBytes ((String.utf8EncodeChar c).length - 1) r
    | none => quotedByte b ++ quotedBytes 0 r

def quoted (b : Bytes) : String := String.ofList ('"' :: quotedBytes 0 b ++ ['"'])

end Retrace.Text
