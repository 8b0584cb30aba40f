/-!
The SHA-1 digest of a sequence of bytes.
-/

namespace Demacro.Sha1

/-- The five words that blocks are mixed into. -/
structure State where
  a : UInt32
  b : UInt32
  c : UInt32
  d : UInt32
  e : UInt32

namespace State

/-- The state before the first block. -/
def initial : State :=
  ⟨0x67452301, 0xefcdab89, 0x98badcfe, 0x10325476, 0xc3d2e1f0⟩

/-- The sum of two states, word by word. -/
def add (s t : State) : State :=
  ⟨s.a + t.a, s.b + t.b, s.c + t.c, s.d + t.d, s.e + t.e⟩

/-- The words of a state. -/
def words (s : State) : List UInt32 :=
  [s.a, s.b, s.c, s.d, s.e]

end State

/-- A word turned left by `n` bits. -/
def rotate (w : UInt32) (n : Nat) : UInt32 :=
  (w <<< UInt32.ofNat n) ||| (w >>> UInt32.ofNat (32 - n))

/-- The word in four bytes, the highest first. -/
def word (bytes : List UInt8) : UInt32 :=
  bytes.foldl (fun w b => w * 256 + b.toUInt32) 0

/-- Consecutive pieces of length `n`. -/
def pieces (n : Nat) (bytes : List UInt8) : List (List UInt8) :=
  (List.range (bytes.length / n)).map fun i => (bytes.drop (i * n)).take n

/-- A number in `n` bytes, the highest first. -/
def bigEndian (n value : Nat) : List UInt8 :=
  (List.range n).map fun i => UInt8.ofNat (value >>> (8 * (n - 1 - i)))

/-- A message filled up to whole blocks: one set bit, zeros, and the length in bits. -/
def padded (message : List UInt8) : List UInt8 :=
  let zeros := (119 - message.length % 64) % 64
  message ++ 0x80 :: List.replicate zeros 0 ++ bigEndian 8 (message.length * 8)

/-- The next word of a schedule whose words so far stand in reverse order. -/
def nextWord (schedule : List UInt32) : UInt32 :=
  let at_ (i : Nat) : UInt32 := schedule[i]?.getD 0
  rotate (at_ 2 ^^^ at_ 7 ^^^ at_ 13 ^^^ at_ 15) 1

/-- The eighty words that a block is spread over. -/
def schedule (block : List UInt8) : List UInt32 :=
  let first := ((pieces 4 block).map word).reverse
  ((List.range 64).foldl (fun ws _ => nextWord ws :: ws) first).reverse

/-- The mixing of three words in a round and the constant that is added in it. -/
def mixing (round : Nat) (b c d : UInt32) : UInt32 × UInt32 :=
  if round < 20 then ((b &&& c) ||| ((~~~b) &&& d), 0x5a827999)
  else if round < 40 then (b ^^^ c ^^^ d, 0x6ed9eba1)
  else if round < 60 then ((b &&& c) ||| (b &&& d) ||| (c &&& d), 0x8f1bbcdc)
  else (b ^^^ c ^^^ d, 0xca62c1d6)

/-- One round. -/
def step (s : State) (w : UInt32 × Nat) : State :=
  let (f, k) := mixing w.2 s.b s.c s.d
  ⟨rotate s.a 5 + f + s.e + k + w.1, s.a, rotate s.b 30, s.c, s.d⟩

/-- Mixes a block into the state. -/
def mix (s : State) (block : List UInt8) : State :=
  s.add ((schedule block).zipIdx.foldl step s)

/-- The digest of a message in twenty bytes. -/
def digest (message : List UInt8) : List UInt8 :=
  ((pieces 64 (padded message)).foldl mix State.initial).words.flatMap fun w => bigEndian 4 w.toNat

end Demacro.Sha1
