/-!
# A stream of random words

The stream of a seed is the ChaCha key stream with twelve rounds under a key that is drawn from
the seed by a small congruential generator. A generator is the key and the number of words taken
so far; the word at any place is a function of these two alone.
-/

namespace LinkTuner.Random

/-- The sixteen words that the rounds work on. -/
abbrev Block := Vector UInt32 16

/-- Rotation to the left, for a distance from 1 to 31. -/
def rotateLeft (x : UInt32) (n : UInt32) : UInt32 := (x <<< n) ||| (x >>> (32 - n))

/-- The quarter round on four of the words. -/
def quarter (s : Block) (a b c d : Fin 16) : Block :=
  let s := s.set a (s[a] + s[b])
  let s := s.set d (rotateLeft (s[d] ^^^ s[a]) 16)
  let s := s.set c (s[c] + s[d])
  let s := s.set b (rotateLeft (s[b] ^^^ s[c]) 12)
  let s := s.set a (s[a] + s[b])
  let s := s.set d (rotateLeft (s[d] ^^^ s[a]) 8)
  let s := s.set c (s[c] + s[d])
  s.set b (rotateLeft (s[b] ^^^ s[c]) 7)

/-- Two rounds: the columns, then the diagonals. -/
def doubleRound (s : Block) : Block :=
  let s := quarter s 0 4 8 12
  let s := quarter s 1 5 9 13
  let s := quarter s 2 6 10 14
  let s := quarter s 3 7 11 15
  let s := quarter s 0 5 10 15
  let s := quarter s 1 6 11 12
  let s := quarter s 2 7 8 13
  quarter s 3 4 9 14

/-- A function applied a number of times. -/
def times {α : Type} (f : α → α) : Nat → α → α
  | 0, a => a
  | n + 1, a => times f n (f a)

/-- The key of a stream. -/
abbrev Key := Vector UInt32 8

/-- Where the rounds start for a block: four fixed words, the key, the number of the block. -/
def startBlock (key : Key) (number : UInt64) : Block :=
  let fixed : Vector UInt32 4 := #v[0x61707865, 0x3320646e, 0x79622d32, 0x6b206574]
  let counter : Vector UInt32 4 := #v[number.toUInt32, (number >>> 32).toUInt32, 0, 0]
  fixed ++ key ++ counter

/-- A block of the key stream. -/
def block (key : Key) (number : UInt64) : Block :=
  let start := startBlock key number
  (times doubleRound 6 start).zipWith (· + ·) start

/-- The word at a place: of the eight in a block each is made of two halves, the low one first. -/
def wordAt (key : Key) (place : Nat) : UInt64 :=
  let b := block key (UInt64.ofNat (place / 8))
  let i : Fin 8 := Fin.ofNat 8 place
  b[2 * i.val].toUInt64 ||| (b[2 * i.val + 1].toUInt64 <<< 32)

/-- One step of the generator that expands a seed. -/
def expandStep (state : UInt64) : UInt64 := state * 6364136223846793005 + 11634580027462260723

/-- The word that a state of the expansion gives. -/
def expandWord (state : UInt64) : UInt32 :=
  let mixed := (((state >>> 18) ^^^ state) >>> 27).toUInt32
  let turn := (state >>> 59).toUInt32
  if turn = 0 then mixed else rotateLeft mixed (32 - turn)

/-- The key that a seed is expanded to. -/
def keyOfSeed (seed : UInt64) : Key :=
  Vector.ofFn fun i => expandWord (times expandStep (i.val + 1) seed)

/-- A generator: the key of its stream and how many words were taken. -/
structure Gen where
  key : Key
  taken : Nat
  deriving DecidableEq, Repr

/-- The generator of a seed, at its beginning. -/
def Gen.ofSeed (seed : UInt64) : Gen := ⟨keyOfSeed seed, 0⟩

/-- The next word. -/
def Gen.next (g : Gen) : UInt64 × Gen := (wordAt g.key g.taken, { g with taken := g.taken + 1 })

end LinkTuner.Random
