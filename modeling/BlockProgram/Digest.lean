/-!
# Text digests

The MD5 digest of a text, of which the program uses the first sixteen bits as a short, stable key.
-/

namespace BlockProgram.Digest

structure State where
  a : UInt32
  b : UInt32
  c : UInt32
  d : UInt32
deriving Repr, DecidableEq

def State.initial : State :=
  ⟨0x67452301, 0xefcdab89, 0x98badcfe, 0x10325476⟩

/-- The additive constant of each of the 64 steps, `⌊2³² · |sin (i + 1)|⌋`. -/
def constants : Array UInt32 := #[
  0xd76aa478, 0xe8c7b756, 0x242070db, 0xc1bdceee, 0xf57c0faf, 0x4787c62a, 0xa8304613, 0xfd469501,
  0x698098d8, 0x8b44f7af, 0xffff5bb1, 0x895cd7be, 0x6b901122, 0xfd987193, 0xa679438e, 0x49b40821,
  0xf61e2562, 0xc040b340, 0x265e5a51, 0xe9b6c7aa, 0xd62f105d, 0x02441453, 0xd8a1e681, 0xe7d3fbc8,
  0x21e1cde6, 0xc33707d6, 0xf4d50d87, 0x455a14ed, 0xa9e3e905, 0xfcefa3f8, 0x676f02d9, 0x8d2a4c8a,
  0xfffa3942, 0x8771f681, 0x6d9d6122, 0xfde5380c, 0xa4beea44, 0x4bdecfa9, 0xf6bb4b60, 0xbebfbc70,
  0x289b7ec6, 0xeaa127fa, 0xd4ef3085, 0x04881d05, 0xd9d4d039, 0xe6db99e5, 0x1fa27cf8, 0xc4ac5665,
  0xf4292244, 0x432aff97, 0xab9423a7, 0xfc93a039, 0x655b59c3, 0x8f0ccc92, 0xffeff47d, 0x85845dd1,
  0x6fa87e4f, 0xfe2ce6e0, 0xa3014314, 0x4e0811a1, 0xf7537e82, 0xbd3af235, 0x2ad7d2bb, 0xeb86d391]

/-- How far each step rotates, by round and position in the round. -/
def rotations : Array UInt32 := #[7, 12, 17, 22, 5, 9, 14, 20, 4, 11, 16, 23, 6, 10, 15, 21]

def rotateLeft (x n : UInt32) : UInt32 :=
  (x <<< n) ||| (x >>> (32 - n))

/-- One step on the words `m` of a block. -/
def step (m : Array UInt32) (s : State) (i : Nat) : State :=
  let (f, g) :=
    if i < 16 then ((s.b &&& s.c) ||| (~~~s.b &&& s.d), i)
    else if i < 32 then ((s.d &&& s.b) ||| (~~~s.d &&& s.c), (5 * i + 1) % 16)
    else if i < 48 then (s.b ^^^ s.c ^^^ s.d, (3 * i + 5) % 16)
    else (s.c ^^^ (s.b ||| ~~~s.d), (7 * i) % 16)
  let turn := rotations[i / 16 * 4 + i % 4]?.getD 0
  let sum := s.a + f + constants[i]?.getD 0 + m[g]?.getD 0
  ⟨s.d, s.b + rotateLeft sum turn, s.b, s.c⟩

def absorb (s : State) (m : Array UInt32) : State :=
  let t := (List.range 64).foldl (step m) s
  ⟨s.a + t.a, s.b + t.b, s.c + t.c, s.d + t.d⟩

/-- `count` bytes of a number, the lowest first. -/
def littleEndian (count n : Nat) : List UInt8 :=
  (List.range count).map fun i => UInt8.ofNat (n >>> (8 * i))

/-- A message of `n` bytes is followed by `0x80`, zeros up to 56 modulo 64, and its length in
bits. -/
def padding (n : Nat) : List UInt8 :=
  0x80 :: List.replicate ((119 - n % 64) % 64) 0 ++ littleEndian 8 (8 * n)

def words : List UInt8 → List UInt32
  | b0 :: b1 :: b2 :: b3 :: r =>
    let low := b0.toUInt32 ||| (b1.toUInt32 <<< 8)
    let high := b2.toUInt32 ||| (b3.toUInt32 <<< 8)
    (low ||| (high <<< 16)) :: words r
  | _ => []

/-- Absorbs the words of a padded message, of at most `16 * fuel` words. -/
def absorbAll : Nat → State → List UInt32 → State
  | 0, s, _ => s
  | fuel + 1, s, ws =>
    if ws.isEmpty then s else absorbAll fuel (absorb s (ws.take 16).toArray) (ws.drop 16)

def md5 (text : String) : State :=
  let bytes := text.toUTF8.toList
  let ws := words (bytes ++ padding bytes.length)
  absorbAll ws.length .initial ws

/-- The first two bytes of the digest, the first one being the high byte. -/
def hash16 (text : String) : Nat :=
  let a := (md5 text).a.toNat
  a % 256 * 256 + a / 256 % 256

end BlockProgram.Digest
