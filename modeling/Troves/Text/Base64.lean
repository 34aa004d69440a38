/-
# Base64

The standard alphabet with padding: three bytes become four letters of six
bits each, and an end of one or two bytes is filled up with equals signs.
-/

namespace Troves

namespace Base64

/-- The letters, in the order of the numbers they stand for. -/
def alphabet : List Char :=
  "ABCDEFGHIJKLMNOPQRSTUVWXYZabcdefghijklmnopqrstuvwxyz0123456789+/".toList

/-- The letter for a number below 64. -/
def letter (n : Nat) : Char := alphabet.getD n '='

/-- The letters of a list of bytes. -/
def letters : List UInt8 → List Char
  | [] => []
  | [a] =>
    let n := a.toNat
    [letter (n / 4), letter (n % 4 * 16), '=', '=']
  | [a, b] =>
    let n := a.toNat * 256 + b.toNat
    [letter (n / 1024), letter (n / 16 % 64), letter (n % 16 * 4), '=']
  | a :: b :: c :: rest =>
    let n := (a.toNat * 256 + b.toNat) * 256 + c.toNat
    letter (n / 262144) :: letter (n / 4096 % 64) :: letter (n / 64 % 64) :: letter (n % 64)
      :: letters rest

/-- The text of a list of bytes. -/
def encode (bytes : List UInt8) : String := String.ofList (letters bytes)

end Base64

end Troves
