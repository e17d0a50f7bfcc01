/-!
# Ranges of characters

A class of characters given by closed ranges of code points.
-/

namespace HardwareKeys.Text

def inRanges (ranges : List (Nat × Nat)) (c : Char) : Bool :=
  ranges.any fun (first, last) => first ≤ c.toNat && c.toNat ≤ last

end HardwareKeys.Text
