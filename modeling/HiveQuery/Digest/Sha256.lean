/-!
# SHA-256

The digest of a byte string: padding to whole blocks of sixty-four bytes, the message schedule of a
block, and the compression of a block into the eight words of the state.
-/

namespace HiveQuery

namespace Sha256

/-- The eight words that the compression of a block updates. -/
structure State where
  a : UInt32
  b : UInt32
  c : UInt32
  d : UInt32
  e : UInt32
  f : UInt32
  g : UInt32
  h : UInt32

/-- The first thirty-two bits of the fractional parts of the square roots of the first eight
primes. -/
def State.start : State :=
  ⟨0x6a09e667, 0xbb67ae85, 0x3c6ef372, 0xa54ff53a, 0x510e527f, 0x9b05688c, 0x1f83d9ab, 0x5be0cd19⟩

/-- The first thirty-two bits of the fractional parts of the cube roots of the first sixty-four
primes, one for each round. -/
def roundConstants : List UInt32 :=
  [0x428a2f98, 0x71374491, 0xb5c0fbcf, 0xe9b5dba5, 0x3956c25b, 0x59f111f1, 0x923f82a4, 0xab1c5ed5,
    0xd807aa98, 0x12835b01, 0x243185be, 0x550c7dc3, 0x72be5d74, 0x80deb1fe, 0x9bdc06a7, 0xc19bf174,
    0xe49b69c1, 0xefbe4786, 0x0fc19dc6, 0x240ca1cc, 0x2de92c6f, 0x4a7484aa, 0x5cb0a9dc, 0x76f988da,
    0x983e5152, 0xa831c66d, 0xb00327c8, 0xbf597fc7, 0xc6e00bf3, 0xd5a79147, 0x06ca6351, 0x14292967,
    0x27b70a85, 0x2e1b2138, 0x4d2c6dfc, 0x53380d13, 0x650a7354, 0x766a0abb, 0x81c2c92e, 0x92722c85,
    0xa2bfe8a1, 0xa81a664b, 0xc24b8b70, 0xc76c51a3, 0xd192e819, 0xd6990624, 0xf40e3585, 0x106aa070,
    0x19a4c116, 0x1e376c08, 0x2748774c, 0x34b0bcb5, 0x391c0cb3, 0x4ed8aa4a, 0x5b9cca4f, 0x682e6ff3,
    0x748f82ee, 0x78a5636f, 0x84c87814, 0x8cc70208, 0x90befffa, 0xa4506ceb, 0xbef9a3f7, 0xc67178f2]

/-- Rotation to the right by `n` bits, for `0 < n < 32`. -/
def rotate (x : UInt32) (n : UInt32) : UInt32 :=
  (x >>> n) ||| (x <<< (32 - n))

/-! ## Padding -/

/-- The big-endian bytes of a 64-bit length. -/
def lengthBytes (n : Nat) : List UInt8 :=
  (List.range 8).map fun i => UInt8.ofNat (n >>> (56 - 8 * i) % 256)

/-- The bytes of the message, a one bit, zeros, and the message's length in bits: whole blocks. -/
def pad (message : List UInt8) : List UInt8 :=
  message ++ 0x80 :: List.replicate ((119 - message.length % 64) % 64) 0
    ++ lengthBytes (8 * message.length)

/-- A list cut into pieces of `size` items, the last one possibly shorter; `fuel` bounds their
number. -/
def chunks (size : Nat) : Nat → List UInt8 → List (List UInt8)
  | 0, _ => []
  | _ + 1, [] => []
  | fuel + 1, bytes => bytes.take size :: chunks size fuel (bytes.drop size)

/-- The big-endian word of four bytes. -/
def word (bytes : List UInt8) : UInt32 :=
  bytes.foldl (fun acc byte => acc <<< 8 ||| byte.toUInt32) 0

/-! ## Compression -/

/-- The sixteen words of a block extended to one word for each of the sixty-four rounds. The words
are held latest first. -/
def schedule (block : List UInt8) : List UInt32 :=
  let start := ((chunks 4 16 block).map word).reverse
  let extend (words : List UInt32) (_ : Nat) : List UInt32 :=
    let back (n : Nat) : UInt32 := words.getD (n - 1) 0
    let s0 := rotate (back 15) 7 ^^^ rotate (back 15) 18 ^^^ (back 15 >>> 3)
    let s1 := rotate (back 2) 17 ^^^ rotate (back 2) 19 ^^^ (back 2 >>> 10)
    (back 16 + s0 + back 7 + s1) :: words
  ((List.range 48).foldl extend start).reverse

/-- One round, with its constant and its word of the schedule. -/
def round (s : State) (input : UInt32 × UInt32) : State :=
  let s1 := rotate s.e 6 ^^^ rotate s.e 11 ^^^ rotate s.e 25
  let choice := (s.e &&& s.f) ^^^ (~~~s.e &&& s.g)
  let t1 := s.h + s1 + choice + input.1 + input.2
  let s0 := rotate s.a 2 ^^^ rotate s.a 13 ^^^ rotate s.a 22
  let majority := (s.a &&& s.b) ^^^ (s.a &&& s.c) ^^^ (s.b &&& s.c)
  ⟨t1 + (s0 + majority), s.a, s.b, s.c, s.d + t1, s.e, s.f, s.g⟩

/-- The state after a block: the state after its sixty-four rounds, added to the one before. -/
def compress (s : State) (block : List UInt8) : State :=
  let t := (roundConstants.zip (schedule block)).foldl round s
  ⟨s.a + t.a, s.b + t.b, s.c + t.c, s.d + t.d, s.e + t.e, s.f + t.f, s.g + t.g, s.h + t.h⟩

/-- The eight words of a message's digest. -/
def digest (message : List UInt8) : List UInt32 :=
  let padded := pad message
  let s := (chunks 64 padded.length padded).foldl compress State.start
  [s.a, s.b, s.c, s.d, s.e, s.f, s.g, s.h]

/-- A word as eight lowercase hexadecimal digits. -/
def wordHex (w : UInt32) : String :=
  String.ofList ((List.range 8).map fun i => Nat.digitChar (w.toNat >>> (28 - 4 * i) % 16))

/-- The digest of a text's UTF-8 bytes, in lowercase hexadecimal. -/
def hex (text : String) : String :=
  String.join ((digest text.toUTF8.toList).map wordHex)

end Sha256

end HiveQuery
