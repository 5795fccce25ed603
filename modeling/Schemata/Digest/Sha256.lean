/-!
# SHA-256

The secure hash of FIPS 180-4 over byte arrays: the message is padded to blocks of 64 bytes, and
each block stirs the eight state words through 64 rounds.
-/

namespace Schemata.Sha256

/-- The eight working words. -/
structure State where
  a : UInt32
  b : UInt32
  c : UInt32
  d : UInt32
  e : UInt32
  f : UInt32
  g : UInt32
  h : UInt32

/-- The state before the first block. -/
def State.start : State :=
  ⟨0x6a09e667, 0xbb67ae85, 0x3c6ef372, 0xa54ff53a, 0x510e527f, 0x9b05688c, 0x1f83d9ab, 0x5be0cd19⟩

/-- Sums two states word by word. -/
def State.add (x y : State) : State :=
  ⟨x.a + y.a, x.b + y.b, x.c + y.c, x.d + y.d, x.e + y.e, x.f + y.f, x.g + y.g, x.h + y.h⟩

def roundConstants : Array UInt32 :=
  #[0x428a2f98, 0x71374491, 0xb5c0fbcf, 0xe9b5dba5, 0x3956c25b, 0x59f111f1, 0x923f82a4, 0xab1c5ed5,
    0xd807aa98, 0x12835b01, 0x243185be, 0x550c7dc3, 0x72be5d74, 0x80deb1fe, 0x9bdc06a7, 0xc19bf174,
    0xe49b69c1, 0xefbe4786, 0x0fc19dc6, 0x240ca1cc, 0x2de92c6f, 0x4a7484aa, 0x5cb0a9dc, 0x76f988da,
    0x983e5152, 0xa831c66d, 0xb00327c8, 0xbf597fc7, 0xc6e00bf3, 0xd5a79147, 0x06ca6351, 0x14292967,
    0x27b70a85, 0x2e1b2138, 0x4d2c6dfc, 0x53380d13, 0x650a7354, 0x766a0abb, 0x81c2c92e, 0x92722c85,
    0xa2bfe8a1, 0xa81a664b, 0xc24b8b70, 0xc76c51a3, 0xd192e819, 0xd6990624, 0xf40e3585, 0x106aa070,
    0x19a4c116, 0x1e376c08, 0x2748774c, 0x34b0bcb5, 0x391c0cb3, 0x4ed8aa4a, 0x5b9cca4f, 0x682e6ff3,
    0x748f82ee, 0x78a5636f, 0x84c87814, 0x8cc70208, 0x90befffa, 0xa4506ceb, 0xbef9a3f7, 0xc67178f2]

def rotate (x n : UInt32) : UInt32 := x >>> n ||| x <<< (32 - n)

/-- The mix of the first word of the state. -/
def bigSigma₀ (x : UInt32) : UInt32 := rotate x 2 ^^^ rotate x 13 ^^^ rotate x 22

/-- The mix of the fifth word of the state. -/
def bigSigma₁ (x : UInt32) : UInt32 := rotate x 6 ^^^ rotate x 11 ^^^ rotate x 25

/-- The mix of the schedule word fifteen places back. -/
def smallSigma₀ (x : UInt32) : UInt32 := rotate x 7 ^^^ rotate x 18 ^^^ x >>> 3

/-- The mix of the schedule word two places back. -/
def smallSigma₁ (x : UInt32) : UInt32 := rotate x 17 ^^^ rotate x 19 ^^^ x >>> 10

/-- One round, with the sum of the round's constant and its schedule word. -/
def State.round (s : State) (kw : UInt32) : State :=
  let choice := s.e &&& s.f ^^^ ~~~s.e &&& s.g
  let majority := s.a &&& s.b ^^^ s.a &&& s.c ^^^ s.b &&& s.c
  let t₁ := s.h + bigSigma₁ s.e + choice + kw
  let t₂ := bigSigma₀ s.a + majority
  ⟨t₁ + t₂, s.a, s.b, s.c, s.d + t₁, s.e, s.f, s.g⟩

/-- The big-endian word at a byte offset; bytes past the end count as zero. -/
def wordAt (bytes : ByteArray) (i : Nat) : UInt32 :=
  let byte (j : Nat) : UInt32 := (bytes[i + j]?.getD 0).toUInt32
  byte 0 <<< 24 ||| byte 1 <<< 16 ||| byte 2 <<< 8 ||| byte 3

/-- The 64 schedule words of the block that starts at a byte offset. -/
def schedule (bytes : ByteArray) (offset : Nat) : Array UInt32 :=
  let first := (Array.range 16).map fun i => wordAt bytes (offset + 4 * i)
  (List.range 48).foldl
    (fun w i =>
      w.push (smallSigma₁ (w.getD (i + 14) 0) + w.getD (i + 9) 0 +
        smallSigma₀ (w.getD (i + 1) 0) + w.getD i 0))
    first

def State.block (s : State) (bytes : ByteArray) (offset : Nat) : State :=
  let w := schedule bytes offset
  s.add ((List.range 64).foldl (fun t i => t.round (roundConstants.getD i 0 + w.getD i 0)) s)

/-- The `n` low bytes of a number, most significant first. -/
def bigEndian : Nat → Nat → List UInt8
  | 0, _ => []
  | n + 1, value => bigEndian n (value / 256) ++ [UInt8.ofNat value]

@[simp] theorem length_bigEndian (n value : Nat) : (bigEndian n value).length = n := by
  induction n generalizing value with
  | zero => rfl
  | succ n ih => simp [bigEndian, ih]

/-- The message with a one bit, the zeros that fill its last block, and its length in bits. -/
def padded (message : ByteArray) : ByteArray :=
  let zeros := (119 - message.size % 64) % 64
  message ++ ⟨(0x80 :: List.replicate zeros 0 ++ bigEndian 8 (message.size * 8)).toArray⟩

/-- The bytes of the state, word by word. -/
def State.bytes (s : State) : List UInt8 :=
  [s.a, s.b, s.c, s.d, s.e, s.f, s.g, s.h].flatMap fun w => bigEndian 4 w.toNat

@[simp] theorem State.length_bytes (s : State) : s.bytes.length = 32 := by
  simp [State.bytes]

def hashBytes (message : ByteArray) : List UInt8 :=
  let blocks := padded message
  ((List.range (blocks.size / 64)).foldl (fun s i => s.block blocks (64 * i)) State.start).bytes

@[simp] theorem length_hashBytes (message : ByteArray) : (hashBytes message).length = 32 := by
  simp [hashBytes]

end Schemata.Sha256
