import Schemata.Digest.Sha256

/-!
# Content hashes

Content is identified by its SHA-256 hash, written as 64 lower-case hexadecimal digits.
-/

namespace Schemata

structure ContentHash where
  bytes : List UInt8
  length_eq : bytes.length = 32
  deriving DecidableEq

namespace ContentHash

def ofContent (content : ByteArray) : ContentHash :=
  ⟨Sha256.hashBytes content, Sha256.length_hashBytes content⟩

def ofText (text : String) : ContentHash := ofContent text.toUTF8

/-! ### Hexadecimal text -/

/-- The digit for a number below sixteen. -/
def hexDigit (n : Nat) : Char :=
  if n < 10 then Char.ofNat (n + 48) else Char.ofNat (n + 87)

/-- The number that a lower-case digit stands for. -/
def hexValue? (c : Char) : Option Nat :=
  if '0' ≤ c ∧ c ≤ '9' then some (c.toNat - 48)
  else if 'a' ≤ c ∧ c ≤ 'f' then some (c.toNat - 87)
  else none

/-- Two digits for each byte. -/
def encodeHex (bytes : List UInt8) : List Char :=
  bytes.flatMap fun b => [hexDigit (b.toNat / 16), hexDigit (b.toNat % 16)]

/-- The bytes that pairs of digits stand for. -/
def decodeHex? : List Char → Option (List UInt8)
  | [] => some []
  | [_] => none
  | hi :: lo :: rest => do
    let hi ← hexValue? hi
    let lo ← hexValue? lo
    let rest ← decodeHex? rest
    return UInt8.ofNat (hi * 16 + lo) :: rest

def text (h : ContentHash) : String := String.ofList (encodeHex h.bytes)

instance : ToString ContentHash := ⟨text⟩

inductive Flaw
  | wrongLength
  | notHexadecimal
  deriving DecidableEq, Repr

def parse (value : String) : Except Flaw ContentHash :=
  if value.utf8ByteSize ≠ 64 then .error .wrongLength
  else
    match decodeHex? value.toList with
    | none => .error .notHexadecimal
    | some bytes => if h : bytes.length = 32 then .ok ⟨bytes, h⟩ else .error .wrongLength

end ContentHash

end Schemata
