/-!
# The Mersenne twister

The generator MT19937: 624 words of 32 bits, refilled as a whole when they are used up. It is seeded from
the 32-bit words of the magnitude of an integer, the least significant first. A draw from `[0, 1)` takes
two outputs for 53 bits.
-/

namespace LinOpt

/-- The state of the generator: its words and the place of the next one. -/
structure Twister where
  words : Array UInt32
  place : Nat

namespace Twister

/-- The number of words. -/
def size : Nat := 624

/-- The distance of the word that is mixed in. -/
def shift : Nat := 397

/-- Word `i` of an array. -/
def word (words : Array UInt32) (i : Nat) : UInt32 := words.getD i 0

/-- A word with its high bits folded onto its low ones. -/
def fold (x : UInt32) : UInt32 := x ^^^ (x >>> 30)

/-- The words that grow from one word. -/
def spread (seed : UInt32) : Array UInt32 :=
  (List.range (size - 1)).foldl
    (fun words i => words.push (1812433253 * fold (word words i) + UInt32.ofNat (i + 1)))
    #[seed]

/-- The place after `i` in the rounds of seeding. The first word takes over the last at the turn. -/
def advance (words : Array UInt32) (i : Nat) : Array UInt32 × Nat :=
  if i + 1 < size then (words, i + 1) else (words.setIfInBounds 0 (word words (size - 1)), 1)

/-- One step of the round that mixes in the key; `j` is the place in the key. -/
def mixKey (key : Array UInt32) : Array UInt32 × Nat × Nat → Array UInt32 × Nat × Nat
  | (words, i, j) =>
    let mixed := (word words i ^^^ (fold (word words (i - 1)) * 1664525)) + word key j + UInt32.ofNat j
    let (words, i) := advance (words.setIfInBounds i mixed) i
    (words, i, if j + 1 < key.size then j + 1 else 0)

/-- One step of the round that mixes in the places. -/
def mixPlace : Array UInt32 × Nat → Array UInt32 × Nat
  | (words, i) =>
    let mixed := (word words i ^^^ (fold (word words (i - 1)) * 1566083941)) - UInt32.ofNat i
    advance (words.setIfInBounds i mixed) i

/-- The generator for a key of words. -/
def ofKey (key : Array UInt32) : Twister :=
  let (words, i, _) := (List.range (Nat.max size key.size)).foldl
    (fun state _ => mixKey key state) (spread 19650218, 1, 0)
  let (words, _) := (List.range (size - 1)).foldl (fun state _ => mixPlace state) (words, i)
  { words := words.setIfInBounds 0 0x80000000, place := size }

/-- The number of 32-bit words. -/
def wordCount : Nat := 4294967296

/-- The 32-bit digits of a number, the least significant first; at most `count` of them. -/
def digits : Nat → Nat → List UInt32
  | 0, _ => []
  | count + 1, n =>
    if n < wordCount then [UInt32.ofNat n]
    else UInt32.ofNat (n % wordCount) :: digits count (n / wordCount)

/-- The generator for an integer seed. Its sign does not matter. -/
def ofSeed (seed : Int) : Twister :=
  ofKey (digits (seed.natAbs.log2 / 32 + 1) seed.natAbs).toArray

/-- Refills word `i`. -/
def refillWord (words : Array UInt32) (i : Nat) : Array UInt32 :=
  let joined := (word words i &&& 0x80000000) ||| (word words ((i + 1) % size) &&& 0x7fffffff)
  let twist : UInt32 := if joined &&& 1 = 1 then 0x9908b0df else 0
  words.setIfInBounds i (word words ((i + shift) % size) ^^^ (joined >>> 1) ^^^ twist)

/-- Refills all words. -/
def refill (words : Array UInt32) : Array UInt32 := (List.range size).foldl refillWord words

/-- The output of a word. -/
def temper (x : UInt32) : UInt32 :=
  let x := x ^^^ (x >>> 11)
  let x := x ^^^ ((x <<< 7) &&& 0x9d2c5680)
  let x := x ^^^ ((x <<< 15) &&& 0xefc60000)
  x ^^^ (x >>> 18)

/-- The next output. -/
def next (twister : Twister) : UInt32 × Twister :=
  let ready := if twister.place < size then twister else ⟨refill twister.words, 0⟩
  (temper (word ready.words ready.place), { ready with place := ready.place + 1 })

/-- The next draw from `[0, 1)`, as a multiple of `2 ^ -53`: 27 bits of one output above 26 bits of the next. -/
def draw (twister : Twister) : Nat × Twister :=
  let (a, twister) := twister.next
  let (b, twister) := twister.next
  ((a >>> 5).toNat * 67108864 + (b >>> 6).toNat, twister)

/-- The next `count` draws, each a multiple of `2 ^ -53`. -/
def draws : Nat → Twister → List Nat
  | 0, _ => []
  | count + 1, twister =>
    let (first, twister) := twister.draw
    first :: draws count twister

end Twister

end LinOpt
