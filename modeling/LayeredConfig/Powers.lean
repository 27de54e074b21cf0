/-!
# Powers of two and ten

The two bases of numerals, as functions of the exponent.
-/

namespace LayeredConfig

/-- Two to the power `n`. -/
def twoTo (n : Nat) : Nat := Nat.pow 2 n

/-- Ten to the power `n`. -/
def tenTo (n : Nat) : Nat := Nat.pow 10 n

end LayeredConfig
