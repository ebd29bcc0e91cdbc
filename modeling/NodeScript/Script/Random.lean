/-!
Random numbers. Where they come from is left to a generator.
-/

namespace NodeScript.Script

/-- A sequence of random numbers, of which some have been drawn. -/
structure Random where
  numbers : Nat → Float
  drawn : Nat

/-- The numbers that follow from a seed, or that come without one. -/
class Generator where
  numbers : (seed : Option Nat) → Nat → Float

namespace Random

def ofSeed [Generator] (seed : Option Nat) : Random :=
  ⟨Generator.numbers seed, 0⟩

def next (r : Random) : Float × Random :=
  (r.numbers r.drawn, { r with drawn := r.drawn + 1 })

def mix (n : UInt64) : UInt64 :=
  let n := (n ^^^ (n >>> 30)) * 0xBF58476D1CE4E5B9
  let n := (n ^^^ (n >>> 27)) * 0x94D049BB133111EB
  n ^^^ (n >>> 31)

/-- A generator to run programs with. -/
instance : Generator where
  numbers seed n :=
    let state := (seed.getD 0).toUInt64 + 0x9E3779B97F4A7C15 * (n + 1).toUInt64
    Float.ofNat (mix state >>> 11).toNat / 9007199254740992

end Random

end NodeScript.Script
