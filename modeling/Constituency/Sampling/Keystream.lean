/-!
Random words from a seed: the ChaCha stream cipher with twelve rounds under a key that a PCG
generator draws from the seed.
-/

namespace Constituency

/-- A key and the number of 64-bit words taken so far. -/
structure Keystream where
  key : Vector UInt32 8
  taken : Nat := 0
deriving DecidableEq, Repr

namespace Keystream

private def rotateLeft (word : UInt32) (places : UInt32) : UInt32 :=
  (word <<< places) ||| (word >>> (32 - places))

private def rotateRight (word : UInt32) (places : UInt32) : UInt32 :=
  (word >>> places) ||| (word <<< (32 - places))

/-- The state of a PCG generator after one that it had. -/
def nextState (state : UInt64) : UInt64 := state * 6364136223846793005 + 11634580027462260723

def stateWord (state : UInt64) : UInt32 :=
  rotateRight (((state >>> 18) ^^^ state) >>> 27).toUInt32 (state >>> 59).toUInt32

def statesAfter : Nat → UInt64 → List UInt64
  | 0, _ => []
  | count + 1, state => nextState state :: statesAfter count (nextState state)

def ofSeed (seed : UInt64) : Keystream where
  key := Vector.ofFn fun i => (((statesAfter 8 seed).map stateWord)[i.val]?).getD 0

/-- The words of a block before its rounds: four constants, the key, and the number of the block
over two words, followed by two empty words. -/
def initial (key : Vector UInt32 8) (block : Nat) : Vector UInt32 16 :=
  let constants : Vector UInt32 4 := #v[0x61707865, 0x3320646e, 0x79622d32, 0x6b206574]
  let counter : Vector UInt32 4 := #v[block.toUInt32, (block / 4294967296).toUInt32, 0, 0]
  constants ++ key ++ counter

def quarterRound (a b c d : Fin 16) (words : Vector UInt32 16) : Vector UInt32 16 :=
  let wa := words[a] + words[b]
  let wd := rotateLeft (words[d] ^^^ wa) 16
  let wc := words[c] + wd
  let wb := rotateLeft (words[b] ^^^ wc) 12
  let wa := wa + wb
  let wd := rotateLeft (wd ^^^ wa) 8
  let wc := wc + wd
  let wb := rotateLeft (wb ^^^ wc) 7
  (((words.set a wa).set b wb).set c wc).set d wd

def doubleRound (words : Vector UInt32 16) : Vector UInt32 16 :=
  let words := quarterRound 0 4 8 12 words
  let words := quarterRound 1 5 9 13 words
  let words := quarterRound 2 6 10 14 words
  let words := quarterRound 3 7 11 15 words
  let words := quarterRound 0 5 10 15 words
  let words := quarterRound 1 6 11 12 words
  let words := quarterRound 2 7 8 13 words
  quarterRound 3 4 9 14 words

def doubleRounds : Nat → Vector UInt32 16 → Vector UInt32 16
  | 0, words => words
  | count + 1, words => doubleRounds count (doubleRound words)

def block (key : Vector UInt32 8) (number : Nat) : Vector UInt32 16 :=
  let start := initial key number
  Vector.zipWith (· + ·) start (doubleRounds 6 start)

/-- The 64-bit word at a place of the stream; a block holds eight, each with its low half first. -/
def wordAt (key : Vector UInt32 8) (place : Nat) : UInt64 :=
  let words := block key (place / 8)
  let half (i : Nat) : UInt64 := ((words[2 * (place % 8) + i]?).getD 0).toUInt64
  half 0 ||| (half 1 <<< 32)

def next (stream : Keystream) : UInt64 × Keystream :=
  (wordAt stream.key stream.taken, { stream with taken := stream.taken + 1 })

end Keystream

end Constituency
