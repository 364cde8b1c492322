import LineForth.Text.Decimal

/-!
# Locations

A line of a named input.
-/

namespace LineForth

structure Location where
  name : Text := []
  line : Int := 0
deriving DecidableEq

def Location.text (l : Location) : Text := l.name ++ Text.ofString ":" ++ Decimal.ofInt l.line

end LineForth
