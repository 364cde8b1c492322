/-!
# Rounded numbers

Numbers with 53 significant bits.  Every operation gives the exact result rounded to the nearest of
them; halfway between two, to the one with an even mantissa.  Exponents are not bounded.
-/

namespace LineForth

/-- The number `mantissa` times two to the power `exponent`. -/
structure Rounded where
  mantissa : Nat
  exponent : Int
deriving DecidableEq

namespace Rounded

/-- The least number with more than 53 bits. -/
def bound : Nat := 9007199254740992

/-- A quotient times two to the power `shift`, as numerator and denominator. -/
def scaled (num den : Nat) : Int → Nat × Nat
  | .ofNat k => (num <<< k, den)
  | .negSucc k => (num, den <<< (k + 1))

/-- The nearest integer to a quotient, and the even one of two. -/
def nearest (num den : Nat) : Nat :=
  let q := num / den
  let r := num % den
  if den < 2 * r ∨ (2 * r = den ∧ q % 2 = 1) then q + 1 else q

/-- The power of two that gives a quotient exactly 53 bits before the point. -/
def shift (num den : Nat) : Int :=
  let guess : Int := 53 + den.log2 - num.log2
  let (n, d) := scaled num den guess
  if n / d < bound then guess else guess - 1

/-- A quotient times two to the power `exponent`, rounded. -/
def ofRatio (num den : Nat) (exponent : Int) : Rounded :=
  if num = 0 then ⟨0, 0⟩
  else
    let k := shift num den
    let (n, d) := scaled num den k
    ⟨nearest n d, exponent - k⟩

def ofNat (n : Nat) : Rounded := ofRatio n 1 0

def mul (a b : Rounded) : Rounded := ofRatio (a.mantissa * b.mantissa) 1 (a.exponent + b.exponent)

def div (a b : Rounded) : Rounded := ofRatio a.mantissa b.mantissa (a.exponent - b.exponent)

/-- The whole part. -/
def floor (a : Rounded) : Nat :=
  match a.exponent with
  | .ofNat k => a.mantissa <<< k
  | .negSucc k => a.mantissa >>> (k + 1)

end Rounded

end LineForth
