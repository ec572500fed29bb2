/-!
Which numbers are too large for binary64. Magnitudes are exact naturals; a number is too large when
it rounds to infinity, which depends on how many roundings it goes through on its way.
-/
namespace ClosureLift

namespace Binary64

def decimal (digits : List Char) : Nat :=
  digits.foldl (fun n c => 10 * n + (c.toNat - 48)) 0

def overflowBound : Nat := Nat.pow 2 1024 - Nat.pow 2 970

/-- The nearest number of 53 significant bits; of two at the same distance the one whose last bit is
zero. -/
def nearest (n : Nat) : Nat :=
  let unit := Nat.pow 2 (n.log2 - 52)
  let below := n / unit
  let excess := n % unit
  if unit < 2 * excess ∨ (unit = 2 * excess ∧ below % 2 = 1) then (below + 1) * unit
  else below * unit

def overflows (digits : List Char) (e : Int) : Bool :=
  let digits := digits.dropWhile (· == '0')
  let size := digits.length + e
  digits != [] && 308 < size &&
    (309 < size || overflowBound ≤ decimal digits * Nat.pow 10 e.toNat / Nat.pow 10 (-e).toNat)

/-- Whether `n * 10 ^ e` is too large when `n`, the power of ten and their product are each rounded.
Powers beyond `10 ^ 308` are too large themselves. -/
def productOverflows (n : Nat) (e : Int) : Bool :=
  n != 0 && 0 < e &&
    (308 < e || overflowBound ≤ nearest n * nearest (Nat.pow 10 e.toNat))

end Binary64

end ClosureLift
