/-!
# Decimal numbers in a limited space

Numbers that are no whole numbers of 64 bits are kept as a significand below `2 ^ 64` and a power of
ten. The digits go into the significand from the front as long as there is room for them; digits
before the point that find no room still count as places, and digits after the point are dropped.

A number has a double if the product of two doubles is finite: of the one nearest to the significand
and the one nearest to the power of ten. Near the end of the range that need not be so of the number
itself, since both factors may have been rounded.
-/

namespace Muezzin

/-- The number `significand * 10 ^ exponent`, up to its sign. -/
structure Decimal where
  significand : Nat
  exponent : Int
  deriving DecidableEq, Repr

namespace Decimal

def maxSignificand : Nat := 18446744073709551615

/-- Appends digits to a significand as long as there is room, and tells how many found room. -/
def takeDigits (significand : Nat) : List Char → Nat × Nat
  | [] => (significand, 0)
  | c :: rest =>
    let next := significand * 10 + (c.toNat - '0'.toNat)
    if next ≤ maxSignificand then
      let (last, taken) := takeDigits next rest
      (last, taken + 1)
    else (significand, 0)

def ofDigits (whole fraction : List Char) (exponent : Int) : Decimal :=
  let (first, takenWhole) := takeDigits 0 whole
  let (significand, takenFraction) := takeDigits first fraction
  ⟨significand, exponent + (whole.length - takenWhole : Nat) - takenFraction⟩

/-- The size of the last place that a double has for numbers of the size of `n`. -/
def lastPlace (n : Nat) : Nat :=
  Nat.pow 2 (n.log2 + 1 - 53)

/-- The nearest number with 53 binary places; of two nearest ones the one whose last place is
even. -/
def nearest (n : Nat) : Nat :=
  let place := lastPlace n
  let low := n / place
  let excess := 2 * (n % place)
  if excess < place ∨ (excess = place ∧ low % 2 = 0) then low * place else (low + 1) * place

/-- From here on numbers have no nearest finite double. -/
def doubleRange : Nat :=
  Nat.pow 2 1024 - Nat.pow 2 970

def maxPower : Int := 308

def hasDouble (d : Decimal) : Bool :=
  d.significand == 0 || d.exponent < 0 ||
    (d.exponent ≤ maxPower &&
      nearest d.significand * nearest (Nat.pow 10 d.exponent.toNat) < doubleRange)

end Decimal

end Muezzin
