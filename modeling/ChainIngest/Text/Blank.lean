/-!
# Blanks

The characters that separate words, in any script, and texts without those around
them or brought to one form.
-/

namespace ChainIngest.Text

def blankRanges : List (Nat × Nat) :=
  [(0x09, 0x0d), (0x20, 0x20), (0x85, 0x85), (0xa0, 0xa0), (0x1680, 0x1680), (0x2000, 0x200a),
   (0x2028, 0x2029), (0x202f, 0x202f), (0x205f, 0x205f), (0x3000, 0x3000)]

def isBlank (c : Char) : Bool := blankRanges.any fun r => r.1 ≤ c.toNat && c.toNat ≤ r.2

def trim (text : String) : String :=
  String.ofList (((text.toList.dropWhile isBlank).reverse.dropWhile isBlank).reverse)

/-- A text with a single space for every run of blanks, and none around it. -/
def squeeze (text : String) : String :=
  let runs := text.toList.splitBy fun a b => isBlank a == isBlank b
  " ".intercalate ((runs.filter fun run => !run.all isBlank).map String.ofList)

end ChainIngest.Text
