/-!
# Draws

Random choice as a stream of numbers that are given from outside, with a mark of how many have
been used. `Draws.ofSeed` is a stream that scatters the multiples of an odd constant.
-/

namespace TreeDatabase

/-- A stream of numbers and how many of them have been used. -/
structure Draws where
  source : Nat → Nat
  used : Nat := 0

namespace Draws

/-- A number below a bound, the remainder of the next number of the stream. Nothing is drawn for
the bound zero. -/
def below (bound : Nat) (d : Draws) : Nat × Draws :=
  if bound = 0 then (0, d) else (d.source d.used % bound, { d with used := d.used + 1 })

/-- Scatters the bits of a word. -/
def scatter (x : UInt64) : UInt64 :=
  let x := (x ^^^ (x >>> 30)) * 0xbf58476d1ce4e5b9
  let x := (x ^^^ (x >>> 27)) * 0x94d049bb133111eb
  x ^^^ (x >>> 31)

def ofSeed (seed : UInt64) : Draws :=
  ⟨fun n => (scatter (seed + (n.toUInt64 + 1) * 0x9e3779b97f4a7c15)).toNat, 0⟩

theorem below_lt {bound : Nat} (h : 0 < bound) (d : Draws) : (d.below bound).1 < bound := by
  have : bound ≠ 0 := by omega
  simp [below, this, Nat.mod_lt _ h]

end Draws

end TreeDatabase
