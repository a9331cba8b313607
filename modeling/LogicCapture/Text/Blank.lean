/-!
# White space

The white space that surrounds fields and makes a line blank: the control characters that separate
lines and records, the spaces of every width, and the line and paragraph separators. `trim` takes
it from both ends of a text and nothing from its middle.
-/

namespace LogicCapture.Text

/-- White space, the separating control characters included. -/
def isSpace (c : Char) : Bool :=
  let n := c.toNat
  (9 ≤ n && n ≤ 13) || (28 ≤ n && n ≤ 32) || n == 0x85 || n == 0xA0 || n == 0x1680 ||
    (0x2000 ≤ n && n ≤ 0x200A) || n == 0x2028 || n == 0x2029 || n == 0x202F || n == 0x205F ||
    n == 0x3000

/-- The characters left when those satisfying `p` are taken from both ends. -/
def trimBy (p : Char → Bool) (cs : List Char) : List Char :=
  ((cs.dropWhile p).reverse.dropWhile p).reverse

def trim (text : String) : String :=
  String.ofList (trimBy isSpace text.toList)

def isBlank (text : String) : Bool :=
  text.toList.all isSpace

end LogicCapture.Text
