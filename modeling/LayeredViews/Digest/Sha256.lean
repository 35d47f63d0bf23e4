import LayeredViews.Text.Decimal

/-!
# SHA-256 — the digest that tags a page's source

The message is padded to whole blocks of sixteen words, each block is expanded to sixty-four words
by the schedule's recurrence, and the rounds fold those words into the eight chaining words.
-/

namespace LayeredViews.Digest

/-- The eight chaining words. -/
structure Chain where
  a : UInt32
  b : UInt32
  c : UInt32
  d : UInt32
  e : UInt32
  f : UInt32
  g : UInt32
  h : UInt32

def Chain.start : Chain :=
  ⟨0x6a09e667, 0xbb67ae85, 0x3c6ef372, 0xa54ff53a, 0x510e527f, 0x9b05688c, 0x1f83d9ab, 0x5be0cd19⟩

def Chain.add (x y : Chain) : Chain :=
  ⟨x.a + y.a, x.b + y.b, x.c + y.c, x.d + y.d, x.e + y.e, x.f + y.f, x.g + y.g, x.h + y.h⟩

def Chain.words (x : Chain) : List UInt32 :=
  [x.a, x.b, x.c, x.d, x.e, x.f, x.g, x.h]

/-- One constant for each of the sixty-four rounds. -/
def roundConstants : List UInt32 :=
  [0x428a2f98, 0x71374491, 0xb5c0fbcf, 0xe9b5dba5, 0x3956c25b, 0x59f111f1, 0x923f82a4, 0xab1c5ed5,
    0xd807aa98, 0x12835b01, 0x243185be, 0x550c7dc3, 0x72be5d74, 0x80deb1fe, 0x9bdc06a7, 0xc19bf174,
    0xe49b69c1, 0xefbe4786, 0x0fc19dc6, 0x240ca1cc, 0x2de92c6f, 0x4a7484aa, 0x5cb0a9dc, 0x76f988da,
    0x983e5152, 0xa831c66d, 0xb00327c8, 0xbf597fc7, 0xc6e00bf3, 0xd5a79147, 0x06ca6351, 0x14292967,
    0x27b70a85, 0x2e1b2138, 0x4d2c6dfc, 0x53380d13, 0x650a7354, 0x766a0abb, 0x81c2c92e, 0x92722c85,
    0xa2bfe8a1, 0xa81a664b, 0xc24b8b70, 0xc76c51a3, 0xd192e819, 0xd6990624, 0xf40e3585, 0x106aa070,
    0x19a4c116, 0x1e376c08, 0x2748774c, 0x34b0bcb5, 0x391c0cb3, 0x4ed8aa4a, 0x5b9cca4f, 0x682e6ff3,
    0x748f82ee, 0x78a5636f, 0x84c87814, 0x8cc70208, 0x90befffa, 0xa4506ceb, 0xbef9a3f7, 0xc67178f2]

/-- A word turned right by `n` bits, for `0 < n < 32`. -/
def turn (x : UInt32) (n : UInt32) : UInt32 :=
  (x >>> n) ||| (x <<< (32 - n))

/-! ### Words and padding -/

/-- The byte at `i`, as a word. -/
def byteAt (bytes : ByteArray) (i : Nat) : UInt32 :=
  if h : i < bytes.size then bytes[i].toUInt32 else 0

/-- The word of the four bytes from `i` on, most significant first. -/
def wordAt (bytes : ByteArray) (i : Nat) : UInt32 :=
  (byteAt bytes i <<< 24) ||| (byteAt bytes (i + 1) <<< 16) ||| (byteAt bytes (i + 2) <<< 8) |||
    byteAt bytes (i + 3)

def bytesOfWord (w : UInt32) : List UInt8 :=
  [(w >>> 24).toUInt8, (w >>> 16).toUInt8, (w >>> 8).toUInt8, w.toUInt8]

/-- The bit length of a message of `n` bytes, in eight bytes. -/
def lengthBytes (n : Nat) : List UInt8 :=
  [56, 48, 40, 32, 24, 16, 8, 0].map fun s => UInt8.ofNat ((n * 8) >>> s)

/-- A message with a set bit, zeros and its length, up to a multiple of sixty-four bytes. -/
def padded (message : ByteArray) : ByteArray :=
  (0x80 :: List.replicate ((119 - message.size % 64) % 64) 0 ++ lengthBytes message.size).foldl
    ByteArray.push message

/-! ### Compression -/

/-- The word of the schedule that follows at least sixteen others. -/
def nextWord (ws : Array UInt32) : UInt32 :=
  let back := fun i => ws.getD (ws.size - i) 0
  let s0 := let w := back 15; turn w 7 ^^^ turn w 18 ^^^ (w >>> 3)
  let s1 := let w := back 2; turn w 17 ^^^ turn w 19 ^^^ (w >>> 10)
  back 16 + s0 + back 7 + s1

/-- So many further words of the schedule. -/
def extend : Nat → Array UInt32 → Array UInt32
  | 0, ws => ws
  | n + 1, ws => extend n (ws.push (nextWord ws))

/-- The sixty-four words for the block that starts at byte `i`. -/
def schedule (bytes : ByteArray) (i : Nat) : Array UInt32 :=
  extend 48 ((List.range 16).foldl (fun ws j => ws.push (wordAt bytes (i + 4 * j))) #[])

/-- One round, with the round's constant and word. -/
def roundStep (x : Chain) (k w : UInt32) : Chain :=
  let s1 := turn x.e 6 ^^^ turn x.e 11 ^^^ turn x.e 25
  let choice := (x.e &&& x.f) ^^^ (~~~x.e &&& x.g)
  let t1 := x.h + s1 + choice + k + w
  let s0 := turn x.a 2 ^^^ turn x.a 13 ^^^ turn x.a 22
  let majority := (x.a &&& x.b) ^^^ (x.a &&& x.c) ^^^ (x.b &&& x.c)
  ⟨t1 + (s0 + majority), x.a, x.b, x.c, x.d + t1, x.e, x.f, x.g⟩

/-- The rounds with these constants; the first of them takes the word at `i`. -/
def rounds (ws : Array UInt32) : List UInt32 → Nat → Chain → Chain
  | [], _, x => x
  | k :: ks, i, x => rounds ws ks (i + 1) (roundStep x k (ws.getD i 0))

/-- Folds the block that starts at byte `i` into the chaining words. -/
def compress (bytes : ByteArray) (x : Chain) (i : Nat) : Chain :=
  x.add (rounds (schedule bytes i) roundConstants 0 x)

/-- The thirty-two bytes of the digest. -/
def sha256 (message : ByteArray) : List UInt8 :=
  let bytes := padded message
  let blocks := (List.range (bytes.size / 64)).map (· * 64)
  (blocks.foldl (compress bytes) Chain.start).words.flatMap bytesOfWord

/-- The digest in lower-case hexadecimal. -/
def sha256Hex (message : ByteArray) : String :=
  String.ofList (Text.hexOfBytes (sha256 message))

/-- The digest of a text's UTF-8 bytes. -/
def ofText (text : String) : String :=
  sha256Hex text.toUTF8

end LayeredViews.Digest
