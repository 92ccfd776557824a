
namespace Reroot.Double

def overflow : Nat :=
  Nat.pow 2 1024 - Nat.pow 2 970

/-- Whether a whole number times a power of ten is rounded to infinity. Numbers with too many or
too few digits are told apart without the power. -/
def isInfinite (significand : Nat) (exponent : Int) : Bool :=
  let places : Int := (Nat.toDigits 10 significand).length + exponent
  if significand = 0 || places < 300 then false
  else if 310 < places then true
  else if 0 ≤ exponent then decide (overflow ≤ significand * Nat.pow 10 exponent.toNat)
  else decide (overflow * Nat.pow 10 (-exponent).toNat ≤ significand)

end Reroot.Double
