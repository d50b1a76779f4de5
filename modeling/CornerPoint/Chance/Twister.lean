/-!
The Mersenne twister of 624 words of 32 bits, and the draws made from it.
-/
namespace CornerPoint.Chance

structure Twister where
  words : Array UInt32
  /-- How many words of the present block have been drawn. -/
  used : Nat
  deriving DecidableEq, Repr

namespace Twister

def size : Nat := 624

def word (words : Array UInt32) (i : Nat) : UInt32 := words.getD i 0

/-- Mix a word of the state so that all its bits depend on its upper ones. -/
def spread (w : UInt32) : UInt32 := w ^^^ (w >>> 30)

/-- The state that one word determines. -/
def start (seed : UInt32) : Array UInt32 :=
  (List.range (size - 1)).foldl
    (fun words i => words.push (1812433253 * spread (word words i) + (i + 1).toUInt32)) #[seed]

/-- Write word `i` of the state and go on to the next one. Past the last word the state is closed
to a ring: its first word becomes the last one. -/
def advance (words : Array UInt32) (i : Nat) (w : UInt32) : Array UInt32 × Nat :=
  let words := words.setIfInBounds i w
  if i + 1 < size then (words, i + 1) else (words.setIfInBounds 0 (word words (size - 1)), 1)

/-- Stir the words of a key into the state. -/
def stirKey (key : Array UInt32) (words : Array UInt32) (i : Nat) : Array UInt32 × Nat :=
  (List.range (max size key.size)).foldl
    (fun (words, i) k =>
      let j := k % key.size
      let mixed := word words i ^^^ (spread (word words (i - 1)) * 1664525)
      advance words i (mixed + word key j + j.toUInt32))
    (words, i)

/-- Stir the state once more by itself. -/
def stirAgain (words : Array UInt32) (i : Nat) : Array UInt32 × Nat :=
  (List.range (size - 1)).foldl
    (fun (words, i) _ =>
      let mixed := word words i ^^^ (spread (word words (i - 1)) * 1566083941)
      advance words i (mixed - i.toUInt32))
    (words, i)

def ofKey (key : Array UInt32) : Twister :=
  let (words, i) := stirKey key (start 19650218) 1
  let (words, _) := stirAgain words i
  ⟨words.setIfInBounds 0 0x80000000, size⟩

/-- The words of a number, the lowest first; zero has one word. -/
def keyWords (n : Nat) : List UInt32 :=
  if n < 0x100000000 then [n.toUInt32]
  else (n % 0x100000000).toUInt32 :: keyWords (n / 0x100000000)
termination_by n
decreasing_by omega

/-- The sign of a seed does not count. -/
def ofSeed (seed : Int) : Twister := ofKey (keyWords seed.natAbs).toArray

/-- The next block of words. -/
def refill (words : Array UInt32) : Array UInt32 :=
  (List.range size).foldl
    (fun words i =>
      let joined := (word words i &&& 0x80000000) ||| (word words ((i + 1) % size) &&& 0x7fffffff)
      let twist : UInt32 := if joined &&& 1 = 1 then 0x9908b0df else 0
      words.setIfInBounds i (word words ((i + 397) % size) ^^^ (joined >>> 1) ^^^ twist))
    words

def temper (w : UInt32) : UInt32 :=
  let w := w ^^^ (w >>> 11)
  let w := w ^^^ ((w <<< 7) &&& 0x9d2c5680)
  let w := w ^^^ ((w <<< 15) &&& 0xefc60000)
  w ^^^ (w >>> 18)

def next (t : Twister) : UInt32 × Twister :=
  if t.used < size then (temper (word t.words t.used), ⟨t.words, t.used + 1⟩)
  else
    let words := refill t.words
    (temper (word words 0), ⟨words, 1⟩)

/-- Of two words, 27 and 26 bits: a number below `2 ^ 53`. -/
def next53 (t : Twister) : Nat × Twister :=
  let (high, t) := t.next
  let (low, t) := t.next
  ((high >>> 5).toNat * 0x4000000 + (low >>> 6).toNat, t)

/-- Two bits are drawn until they make a number below two. No block of words comes near to the
number of attempts allowed. -/
def nextBit (attempts : Nat) (t : Twister) : Bool × Twister :=
  match attempts with
  | 0 => (false, t)
  | attempts + 1 =>
    let (w, t) := t.next
    if w >>> 30 < 2 then (decide (w >>> 30 = 1), t) else nextBit attempts t

end Twister

end CornerPoint.Chance
