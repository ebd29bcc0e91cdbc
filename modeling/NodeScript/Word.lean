/-!
The range of integers of 64 bits.
-/

namespace NodeScript.Word

def greatest : Nat := 18446744073709551615

def leastSigned : Int := -9223372036854775808

def greatestSigned : Int := 9223372036854775807

end NodeScript.Word
