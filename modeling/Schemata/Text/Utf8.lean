/-!
# Bytes as text

Strict decoding is core's `String.fromUTF8?`. Lenient decoding never fails: each maximal part of
the bytes that no character starts with becomes one replacement character.
-/

namespace Schemata.Text

/-- The character that stands for undecodable bytes. -/
def replacement : Char := '\uFFFD'

def isContinuation (b : UInt8) : Bool := 0x80 ≤ b && b ≤ 0xbf

/-- The least and greatest byte that may follow a lead byte of a three-byte character. -/
def secondOfThree (lead : UInt8) : UInt8 × UInt8 :=
  if lead = 0xe0 then (0xa0, 0xbf) else if lead = 0xed then (0x80, 0x9f) else (0x80, 0xbf)

/-- The least and greatest byte that may follow a lead byte of a four-byte character. -/
def secondOfFour (lead : UInt8) : UInt8 × UInt8 :=
  if lead = 0xf0 then (0x90, 0xbf) else if lead = 0xf4 then (0x80, 0x8f) else (0x80, 0xbf)

/-- The six payload bits of a continuation byte. -/
def payload (b : UInt8) : Nat := b.toNat % 64

/-- The character that starts at the head of nonempty bytes, and how many of the bytes after the
lead belong to it. -/
def leadingChar (lead : UInt8) (rest : List UInt8) : Char × Nat :=
  if lead < 0x80 then (Char.ofNat lead.toNat, 0)
  else if 0xc2 ≤ lead && lead ≤ 0xdf then
    match rest with
    | b :: _ =>
      if isContinuation b then (Char.ofNat (lead.toNat % 32 * 64 + payload b), 1)
      else (replacement, 0)
    | [] => (replacement, 0)
  else if 0xe0 ≤ lead && lead ≤ 0xef then
    match rest with
    | b :: rest =>
      if (secondOfThree lead).1 ≤ b && b ≤ (secondOfThree lead).2 then
        match rest with
        | c :: _ =>
          if isContinuation c then
            (Char.ofNat ((lead.toNat % 16 * 64 + payload b) * 64 + payload c), 2)
          else (replacement, 1)
        | [] => (replacement, 1)
      else (replacement, 0)
    | [] => (replacement, 0)
  else if 0xf0 ≤ lead && lead ≤ 0xf4 then
    match rest with
    | b :: rest =>
      if (secondOfFour lead).1 ≤ b && b ≤ (secondOfFour lead).2 then
        match rest with
        | c :: rest =>
          if isContinuation c then
            match rest with
            | d :: _ =>
              if isContinuation d then
                (Char.ofNat (((lead.toNat % 8 * 64 + payload b) * 64 + payload c) * 64 + payload d),
                  3)
              else (replacement, 2)
            | [] => (replacement, 2)
          else (replacement, 1)
        | [] => (replacement, 1)
      else (replacement, 0)
    | [] => (replacement, 0)
  else (replacement, 0)

/-- Decodes bytes, with one replacement character for each undecodable part. -/
def decodeChars : List UInt8 → List Char
  | [] => []
  | b :: rest => (leadingChar b rest).1 :: decodeChars (rest.drop (leadingChar b rest).2)
termination_by bytes => bytes.length
decreasing_by exact Nat.lt_succ_of_le (by simp)

/-- The text of bytes, whatever they are. -/
def lenientText (bytes : ByteArray) : String :=
  match String.fromUTF8? bytes with
  | some text => text
  | none => String.ofList (decodeChars bytes.toList)

end Schemata.Text
