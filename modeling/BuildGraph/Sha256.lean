/-!
# SHA-256

The hash function of FIPS 180-4. A message is padded to whole blocks of 64 bytes. Each block is expanded to a
schedule of 64 words, which drive 64 rounds on eight working words; the result is added to the chaining value.
The chaining value is a structure of eight words, so a digest has 32 bytes whatever the message is.
-/

namespace BuildGraph.Sha256

/-- The eight words that are chained from block to block. -/
structure Chain where
  a : UInt32
  b : UInt32
  c : UInt32
  d : UInt32
  e : UInt32
  f : UInt32
  g : UInt32
  h : UInt32
deriving DecidableEq, Repr

def Chain.start : Chain :=
  ⟨0x6a09e667, 0xbb67ae85, 0x3c6ef372, 0xa54ff53a, 0x510e527f, 0x9b05688c, 0x1f83d9ab, 0x5be0cd19⟩

def constants : List UInt32 :=
  [0x428a2f98, 0x71374491, 0xb5c0fbcf, 0xe9b5dba5, 0x3956c25b, 0x59f111f1, 0x923f82a4, 0xab1c5ed5,
   0xd807aa98, 0x12835b01, 0x243185be, 0x550c7dc3, 0x72be5d74, 0x80deb1fe, 0x9bdc06a7, 0xc19bf174,
   0xe49b69c1, 0xefbe4786, 0x0fc19dc6, 0x240ca1cc, 0x2de92c6f, 0x4a7484aa, 0x5cb0a9dc, 0x76f988da,
   0x983e5152, 0xa831c66d, 0xb00327c8, 0xbf597fc7, 0xc6e00bf3, 0xd5a79147, 0x06ca6351, 0x14292967,
   0x27b70a85, 0x2e1b2138, 0x4d2c6dfc, 0x53380d13, 0x650a7354, 0x766a0abb, 0x81c2c92e, 0x92722c85,
   0xa2bfe8a1, 0xa81a664b, 0xc24b8b70, 0xc76c51a3, 0xd192e819, 0xd6990624, 0xf40e3585, 0x106aa070,
   0x19a4c116, 0x1e376c08, 0x2748774c, 0x34b0bcb5, 0x391c0cb3, 0x4ed8aa4a, 0x5b9cca4f, 0x682e6ff3,
   0x748f82ee, 0x78a5636f, 0x84c87814, 0x8cc70208, 0x90befffa, 0xa4506ceb, 0xbef9a3f7, 0xc67178f2]

def rotateRight (x n : UInt32) : UInt32 := (x >>> n) ||| (x <<< (32 - n))

def wordsOf : List UInt8 → List UInt32
  | a :: b :: c :: d :: rest =>
    ((a.toUInt32 <<< 24) ||| (b.toUInt32 <<< 16) ||| (c.toUInt32 <<< 8) ||| d.toUInt32) :: wordsOf rest
  | _ => []

def bytesOf (x : UInt32) : List UInt8 :=
  [(x >>> 24).toUInt8, (x >>> 16).toUInt8, (x >>> 8).toUInt8, x.toUInt8]

/-- The word behind some words of the schedule, the newest of which is in front. -/
def next (words : List UInt32) : UInt32 :=
  let back (n : Nat) : UInt32 := words.getD (n - 1) 0
  let s₀ := rotateRight (back 15) 7 ^^^ rotateRight (back 15) 18 ^^^ (back 15 >>> 3)
  let s₁ := rotateRight (back 2) 17 ^^^ rotateRight (back 2) 19 ^^^ (back 2 >>> 10)
  back 16 + s₀ + back 7 + s₁

/-- The 64 words of a block's schedule. -/
def schedule (block : List UInt8) : List UInt32 :=
  (Nat.repeat (fun words => next words :: words) 48 (wordsOf block).reverse).reverse

def round (s : Chain) (kw : UInt32 × UInt32) : Chain :=
  let s₁ := rotateRight s.e 6 ^^^ rotateRight s.e 11 ^^^ rotateRight s.e 25
  let choice := (s.e &&& s.f) ^^^ ((~~~ s.e) &&& s.g)
  let t₁ := s.h + s₁ + choice + kw.1 + kw.2
  let s₀ := rotateRight s.a 2 ^^^ rotateRight s.a 13 ^^^ rotateRight s.a 22
  let majority := (s.a &&& s.b) ^^^ (s.a &&& s.c) ^^^ (s.b &&& s.c)
  ⟨t₁ + (s₀ + majority), s.a, s.b, s.c, s.d + t₁, s.e, s.f, s.g⟩

def compress (s : Chain) (block : List UInt8) : Chain :=
  let t := (constants.zip (schedule block)).foldl round s
  ⟨s.a + t.a, s.b + t.b, s.c + t.c, s.d + t.d, s.e + t.e, s.f + t.f, s.g + t.g, s.h + t.h⟩

/-- The bytes behind a message: a one bit, zeros, and the message's length in bits as eight bytes. -/
def padding (length : Nat) : List UInt8 :=
  let bits := (8 * length).toUInt64
  (0x80 : UInt8) :: List.replicate ((119 - length % 64) % 64) 0 ++
    bytesOf (bits >>> 32).toUInt32 ++ bytesOf bits.toUInt32

/-- The whole blocks of a message, where `begun` has the bytes of a block so far, the last in front. -/
def blocks (begun : List UInt8) : List UInt8 → List (List UInt8)
  | [] => []
  | byte :: rest =>
    if begun.length = 63 then (byte :: begun).reverse :: blocks [] rest else blocks (byte :: begun) rest

def Chain.bytes (s : Chain) : List UInt8 :=
  bytesOf s.a ++ bytesOf s.b ++ bytesOf s.c ++ bytesOf s.d ++
    bytesOf s.e ++ bytesOf s.f ++ bytesOf s.g ++ bytesOf s.h

/-- The 32 bytes of a message's hash. -/
def hash (message : List UInt8) : List UInt8 :=
  ((blocks [] (message ++ padding message.length)).foldl compress Chain.start).bytes

@[simp] theorem length_hash (message : List UInt8) : (hash message).length = 32 := rfl

end BuildGraph.Sha256
