/-!
# A pseudo-random generator

The Mersenne twister of 32-bit words with period 2^19937 - 1.  The state is a ring
of 624 words; each draw replaces the oldest word by the next one of the sequence.
-/

namespace FlakeInputs
namespace Sample

/-- The words of the ring, and the place of the oldest. -/
structure Twister where
  words : Vector UInt32 624
  oldest : Fin 624

namespace Twister

/-- The ring with the word at a place replaced. -/
def put (words : Vector UInt32 624) (i : Fin 624) (w : UInt32) : Vector UInt32 624 :=
  words.set i w i.isLt

/-- A word of the ring with its upper bits mixed into the lower ones. -/
def fold (w : UInt32) : UInt32 :=
  w ^^^ (w >>> 30)

/-- The ring that a single word spreads to. -/
def spread (seed : UInt32) : Vector UInt32 624 :=
  (List.range 623).foldl
    (fun words k =>
      let i := Fin.ofNat 624 k
      put words (i + 1) (1812433253 * fold words[i] + UInt32.ofNat (k + 1)))
    (Vector.replicate 624 seed)

/-- Changes the word at place `i` with the help of the one before it, and gives the
next place.  Behind the last place comes the second, and the last word is
copied to the first place on the way. -/
def stir (change : Fin 624 → UInt32 → UInt32 → UInt32) (words : Vector UInt32 624)
    (i : Fin 624) : Vector UInt32 624 × Fin 624 :=
  let words := put words i (change i words[i] (fold words[i - 1]))
  if i = 623 then (put words 0 words[i], 1) else (words, i + 1)

/-- Stirs the words of a key into the ring, over and over until every word of the
ring and of the key has been used. -/
def stirKey (key : List UInt32) (words : Vector UInt32 624) : Vector UInt32 624 × Fin 624 :=
  (List.range (max 624 key.length)).foldl
    (fun (words, i) step =>
      let j := step % key.length
      let change (_ : Fin 624) (here before : UInt32) : UInt32 :=
        (here ^^^ before * 1664525) + key.getD j 0 + UInt32.ofNat j
      stir change words i)
    (words, 1)

/-- Stirs the ring once more, from a place on. -/
def stirAgain (words : Vector UInt32 624) (i : Fin 624) : Vector UInt32 624 :=
  let change (i : Fin 624) (here before : UInt32) : UInt32 :=
    (here ^^^ before * 1566083941) - UInt32.ofNat i
  ((List.range 623).foldl (fun (words, i) _ => stir change words i) (words, i)).1

/-- A number as 32-bit words, the least significant first. -/
def wordsOf (n : Nat) : List UInt32 :=
  if n < UInt32.size then [n.toUInt32] else n.toUInt32 :: wordsOf (n / UInt32.size)
termination_by n
decreasing_by
  have : 1 < UInt32.size := by decide
  exact Nat.div_lt_self (by omega) this

/-- The generator for a seed; the sign of the seed does not count. -/
def ofSeed (seed : Int) : Twister :=
  let (words, i) := stirKey (wordsOf seed.natAbs) (spread 19650218)
  ⟨put (stirAgain words i) 0 0x80000000, 0⟩

/-- The word that follows in the sequence. -/
def nextWord (g : Twister) : UInt32 :=
  let i := g.oldest
  let y := (g.words[i] &&& 0x80000000) ||| (g.words[i + 1] &&& 0x7FFFFFFF)
  g.words[i + 397] ^^^ (y >>> 1) ^^^ (if y &&& 1 = 0 then 0 else 0x9908B0DF)

/-- A word of the sequence with its bits spread evenly. -/
def temper (w : UInt32) : UInt32 :=
  let w := w ^^^ (w >>> 11)
  let w := w ^^^ ((w <<< 7) &&& 0x9D2C5680)
  let w := w ^^^ ((w <<< 15) &&& 0xEFC60000)
  w ^^^ (w >>> 18)

/-- Draws a word. -/
def draw (g : Twister) : UInt32 × Twister :=
  let w := g.nextWord
  (temper w, ⟨put g.words g.oldest w, g.oldest + 1⟩)

end Twister
end Sample
end FlakeInputs
