import RegionNet.Random.Source

/-!
# The ChaCha key stream

A seeded source of chance: the key stream of ChaCha with twelve rounds, a 64-bit block counter that
starts at zero and an all-zero nonce, read two 32-bit words at a time with the low word first. The
key is expanded from a 64-bit seed by a linear congruential generator with permuted output.
-/

namespace RegionNet.ChaCha

/-- The sixteen words of a block. -/
abbrev Block := Vector UInt32 16

/-- The eight words of a key. -/
abbrev Key := Vector UInt32 8

def rotateLeft (x : UInt32) (n : UInt32) : UInt32 := (x <<< n) ||| (x >>> (32 - n))

/-- Rotation to the right; a rotation by zero changes nothing. -/
def rotateRight (x : UInt32) (n : UInt32) : UInt32 :=
  if n = 0 then x else (x >>> n) ||| (x <<< (32 - n))

/-- Mixes the words at four positions. -/
def quarterRound (s : Block) (a b c d : Fin 16) : Block :=
  let s := s.set a (s[a] + s[b])
  let s := s.set d (rotateLeft (s[d] ^^^ s[a]) 16)
  let s := s.set c (s[c] + s[d])
  let s := s.set b (rotateLeft (s[b] ^^^ s[c]) 12)
  let s := s.set a (s[a] + s[b])
  let s := s.set d (rotateLeft (s[d] ^^^ s[a]) 8)
  let s := s.set c (s[c] + s[d])
  s.set b (rotateLeft (s[b] ^^^ s[c]) 7)

/-- One round on the columns and one on the diagonals. -/
def doubleRound (s : Block) : Block :=
  let s := quarterRound s 0 4 8 12
  let s := quarterRound s 1 5 9 13
  let s := quarterRound s 2 6 10 14
  let s := quarterRound s 3 7 11 15
  let s := quarterRound s 0 5 10 15
  let s := quarterRound s 1 6 11 12
  let s := quarterRound s 2 7 8 13
  quarterRound s 3 4 9 14

/-- The block before the rounds: constants, key, counter, nonce. -/
def start (key : Key) (counter : UInt64) : Block :=
  #v[0x61707865, 0x3320646e, 0x79622d32, 0x6b206574,
     key[0], key[1], key[2], key[3], key[4], key[5], key[6], key[7],
     counter.toUInt32, (counter >>> 32).toUInt32, 0, 0]

/-- The block of the key stream with the given number. -/
def block (key : Key) (counter : UInt64) : Block :=
  let s := start key counter
  let mixed := Nat.repeat doubleRound 6 s
  Vector.zipWith (· + ·) mixed s

/-- One step of the generator that expands seeds. -/
def advance (s : UInt64) : UInt64 := s * 6364136223846793005 + 11634580027462260723

/-- The output of the generator in a state. -/
def permute (s : UInt64) : UInt32 :=
  rotateRight (((s >>> 18) ^^^ s) >>> 27).toUInt32 (s >>> 59).toUInt32

/-- The state of the generator after `n` steps. -/
def stateAfter (seed : UInt64) (n : Nat) : UInt64 := Nat.repeat advance n seed

def keyOfSeed (seed : UInt64) : Key := Vector.ofFn fun i => permute (stateAfter seed (i.val + 1))

/-- A place in a key stream: the key, and how many 64-bit words were read. -/
structure Stream where
  key : Key
  drawn : Nat

namespace Stream

def ofSeed (seed : UInt64) : Stream := ⟨keyOfSeed seed, 0⟩

/-- The word read next. -/
def word (s : Stream) : UInt64 :=
  let b := block s.key (UInt64.ofNat (s.drawn / 8))
  let i := 2 * (s.drawn % 8)
  (b.getD i 0).toUInt64 ||| ((b.getD (i + 1) 0).toUInt64 <<< 32)

def source : Source Stream where
  next s := (s.word, { s with drawn := s.drawn + 1 })

end Stream

end RegionNet.ChaCha
