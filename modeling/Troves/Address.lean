/-
# Addresses

Who takes part: accounts and contracts, each known by a hash of 256 bits.
The key of an address in the token's published dictionaries is the base64
text of a tag byte and the bytes of the hash.
-/
import Troves.Text.Base64

namespace Troves

/-- An account or a contract package, by its hash. -/
inductive Address where
  | account (hash : BitVec 256)
  | package (hash : BitVec 256)
deriving DecidableEq, Repr

namespace Address

/-- The bytes of a hash, the most significant first. -/
def hashBytes (hash : BitVec 256) : List UInt8 :=
  (List.range 32).map fun i => UInt8.ofNat (hash.toNat >>> (8 * (31 - i)))

/-- Tag byte and hash. -/
def bytes : Address → List UInt8
  | account hash => 0 :: hashBytes hash
  | package hash => 1 :: hashBytes hash

/-- The key of an address in a dictionary of balances. -/
def key (a : Address) : String := Base64.encode a.bytes

/-- The key of a pair of addresses in a dictionary of allowances. -/
def pairKey (owner spender : Address) : String :=
  Base64.encode (owner.bytes ++ spender.bytes)

end Address

end Troves
