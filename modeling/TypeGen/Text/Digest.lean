/-!
Content hashes: the MD5 digest of the bytes of a text, in hexadecimal. The message is padded to
whole blocks of sixteen words; each block stirs a register of four words in 64 rounds.
-/

namespace TypeGen.Text.Digest

/-- The four words that the rounds stir. -/
structure Register where
  a : UInt32
  b : UInt32
  c : UInt32
  d : UInt32
  deriving DecidableEq

def Register.initial : Register := ⟨0x67452301, 0xefcdab89, 0x98badcfe, 0x10325476⟩

def Register.add (x y : Register) : Register := ⟨x.a + y.a, x.b + y.b, x.c + y.c, x.d + y.d⟩

/-- Entry `i` is the integer part of `2 ^ 32 * |sin (i + 1)|`. -/
def sines : List UInt32 := [
  0xd76aa478, 0xe8c7b756, 0x242070db, 0xc1bdceee, 0xf57c0faf, 0x4787c62a, 0xa8304613, 0xfd469501,
  0x698098d8, 0x8b44f7af, 0xffff5bb1, 0x895cd7be, 0x6b901122, 0xfd987193, 0xa679438e, 0x49b40821,
  0xf61e2562, 0xc040b340, 0x265e5a51, 0xe9b6c7aa, 0xd62f105d, 0x02441453, 0xd8a1e681, 0xe7d3fbc8,
  0x21e1cde6, 0xc33707d6, 0xf4d50d87, 0x455a14ed, 0xa9e3e905, 0xfcefa3f8, 0x676f02d9, 0x8d2a4c8a,
  0xfffa3942, 0x8771f681, 0x6d9d6122, 0xfde5380c, 0xa4beea44, 0x4bdecfa9, 0xf6bb4b60, 0xbebfbc70,
  0x289b7ec6, 0xeaa127fa, 0xd4ef3085, 0x04881d05, 0xd9d4d039, 0xe6db99e5, 0x1fa27cf8, 0xc4ac5665,
  0xf4292244, 0x432aff97, 0xab9423a7, 0xfc93a039, 0x655b59c3, 0x8f0ccc92, 0xffeff47d, 0x85845dd1,
  0x6fa87e4f, 0xfe2ce6e0, 0xa3014314, 0x4e0811a1, 0xf7537e82, 0xbd3af235, 0x2ad7d2bb, 0xeb86d391]

/-- How far each round of the four quarters rotates; a quarter repeats its four amounts. -/
def rotations : List (List UInt32) :=
  [[7, 12, 17, 22], [5, 9, 14, 20], [4, 11, 16, 23], [6, 10, 15, 21]]

def rotate (x n : UInt32) : UInt32 := (x <<< n) ||| (x >>> (32 - n))

/-- The mixing function of round `i` and the word of the block that it takes. -/
def mix (r : Register) (i : Nat) : UInt32 × Nat :=
  match i / 16 with
  | 0 => ((r.b &&& r.c) ||| (~~~ r.b &&& r.d), i)
  | 1 => ((r.d &&& r.b) ||| (~~~ r.d &&& r.c), (5 * i + 1) % 16)
  | 2 => (r.b ^^^ r.c ^^^ r.d, (3 * i + 5) % 16)
  | _ => (r.c ^^^ (r.b ||| ~~~ r.d), 7 * i % 16)

def round (block : Array UInt32) (r : Register) (i : Nat) : Register :=
  let m := mix r i
  let amount := ((rotations.getD (i / 16) []).getD (i % 4) 0)
  let sum := m.1 + r.a + sines.getD i 0 + block.getD m.2 0
  ⟨r.d, r.b + rotate sum amount, r.b, r.c⟩

def compress (r : Register) (block : Array UInt32) : Register :=
  r.add ((List.range 64).foldl (round block) r)

/-- The `count` lowest bytes of a number, the lowest first. -/
def littleEndian : Nat → Nat → List UInt8
  | 0, _ => []
  | count + 1, n => n.toUInt8 :: littleEndian count (n / 256)

/-- The message, a byte 128, zeros up to eight bytes short of a whole block, the length in bits. -/
def pad (bytes : List UInt8) : List UInt8 :=
  let n := bytes.length
  bytes ++ 0x80 :: List.replicate ((119 - n % 64) % 64) 0 ++ littleEndian 8 (8 * n)

/-- Four bytes a word, the lowest first. -/
def words : List UInt8 → List UInt32
  | b0 :: b1 :: b2 :: b3 :: rest =>
    (b0.toUInt32 ||| b1.toUInt32 <<< 8 ||| b2.toUInt32 <<< 16 ||| b3.toUInt32 <<< 24) :: words rest
  | _ => []

/-- Folds over sixteen words at a time. -/
def compressAll (r : Register) (ws : List UInt32) : Nat → Register
  | 0 => r
  | blocks + 1 => compressAll (compress r (ws.take 16).toArray) (ws.drop 16) blocks

def Register.bytes (r : Register) : List UInt8 :=
  [r.a, r.b, r.c, r.d].flatMap fun w => littleEndian 4 w.toNat

/-- Two hexadecimal digits. -/
def hexByte (b : UInt8) : List Char :=
  [Nat.digitChar (b.toNat / 16), Nat.digitChar (b.toNat % 16)]

/-- The digest of a list of bytes. -/
def ofBytes (bytes : List UInt8) : String :=
  let ws := words (pad bytes)
  String.ofList ((compressAll Register.initial ws (ws.length / 16)).bytes.flatMap hexByte)

/-- The digest of the bytes of a text. -/
def contentHash (s : String) : String := ofBytes s.toUTF8.toList

end TypeGen.Text.Digest
