/-! The ranges of integers of 64 bits, and of those that are written in decimal. -/

namespace LuaCapsule

/-- The first integer that is too large for 64 bits with a sign. -/
def int64Limit : Int := 9223372036854775808

/-- The first natural number that is too large for 64 bits. -/
def word64Limit : Int := 18446744073709551616

/-- Does an integer fit in 64 bits with a sign? -/
def isInt64 (i : Int) : Bool := -int64Limit ≤ i && i < int64Limit

/-- The most digits that an integer is written or read with. -/
def maxDigits : Nat := 4300

/-- Does an integer have too many digits to be written? -/
def isLong (i : Int) : Bool := Nat.pow 10 maxDigits ≤ i.natAbs

end LuaCapsule
