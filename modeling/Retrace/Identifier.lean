import Retrace.Digest.Sha256

/-!
Identifiers of transactions, operations and checkpoints: sixteen bytes in five groups of hexadecimal
digits. A supply of them comes from one random seed.
-/
namespace Retrace.Identifier

/-- Marks bytes as version 4, the one of identifiers without a structure of their own. -/
def mark (b : Bytes) : Bytes := (b.modify 6 (· &&& 0x0f ||| 0x40)).modify 8 (· &&& 0x3f ||| 0x80)

/-- The bytes in groups of four, two, two, two and six. -/
def ofBytes (b : Bytes) : String :=
  let group (start size : Nat) : String := Bytes.hex ((b.drop start).take size)
  "-".intercalate [group 0 4, group 4 2, group 6 2, group 8 2, group 10 6]

/-- The `n`-th identifier of a seed. -/
def supply (seed : Bytes) (n : Nat) : String :=
  ofBytes (mark ((Sha256.digest (seed ++ Sha256.bigEndian 8 n)).take 16))

end Retrace.Identifier
