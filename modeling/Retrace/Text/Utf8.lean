import Retrace.Bytes

/-!
UTF-8 as a machine that reads one byte at a time. A sequence that breaks off gives one mark for the
longest beginning that could still have become a character, and the byte that broke it starts afresh.
Text is strict where no mark may occur and lossy where every mark becomes U+FFFD.
-/
namespace Retrace.Utf8

def encode (s : String) : Bytes := s.toList.flatMap String.utf8EncodeChar

@[simp] theorem encode_empty : encode "" = [] := rfl

/-- Between characters, or inside one with `left` more bytes to come, the next of them in
`low`..`high`, and the bits `code` read so far. -/
inductive State
  | idle
  | within (left code : Nat) (low high : UInt8)
  deriving DecidableEq, Repr

/-- What a byte in first position emits and where it leads. The bounds exclude overlong forms,
surrogates and codes beyond U+10FFFF. -/
def begin (b : UInt8) : List (Option Char) × State :=
  if b < 0x80 then ([some (Char.ofNat b.toNat)], .idle)
  else if b < 0xC2 then ([none], .idle)
  else if b < 0xE0 then ([], .within 1 (b.toNat - 0xC0) 0x80 0xBF)
  else if b = 0xE0 then ([], .within 2 0 0xA0 0xBF)
  else if b = 0xED then ([], .within 2 13 0x80 0x9F)
  else if b < 0xF0 then ([], .within 2 (b.toNat - 0xE0) 0x80 0xBF)
  else if b = 0xF0 then ([], .within 3 0 0x90 0xBF)
  else if b < 0xF4 then ([], .within 3 (b.toNat - 0xF0) 0x80 0xBF)
  else if b = 0xF4 then ([], .within 3 4 0x80 0x8F)
  else ([none], .idle)

def step : State → UInt8 → List (Option Char) × State
  | .idle, b => begin b
  | .within left code low high, b =>
    if low ≤ b ∧ b ≤ high then
      let code := 64 * code + (b.toNat - 0x80)
      if left ≤ 1 then ([some (Char.ofNat code)], .idle)
      else ([], .within (left - 1) code 0x80 0xBF)
    else let (out, s) := begin b; (none :: out, s)

/-- The characters of a byte sequence, with `none` for every broken piece. -/
def scan : State → Bytes → List (Option Char)
  | .idle, [] => []
  | .within .., [] => [none]
  | s, b :: r => (step s b).1 ++ scan (step s b).2 r

def chars? (b : Bytes) : Option (List Char) := (scan .idle b).mapM id

/-- The text of well-formed bytes. -/
def decode? (b : Bytes) : Option String := (chars? b).map String.ofList

/-- The text of any bytes, with U+FFFD for every broken piece. -/
def lossy (b : Bytes) : String := String.ofList ((scan .idle b).map (·.getD '\uFFFD'))

end Retrace.Utf8
