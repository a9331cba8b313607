/-!
# Numbers in columns

Whole numbers as people read them: digits in groups of three, and texts filled up with spaces to the
width of a column.
-/

namespace LogicCapture

/-- The digits, least significant first, with a comma after every three that have more before
them. -/
def groupReversed : List Char → List Char
  | a :: b :: c :: d :: rest => a :: b :: c :: ',' :: groupReversed (d :: rest)
  | short => short

def grouped (n : Nat) : String :=
  String.ofList (groupReversed (toString n).toList.reverse).reverse

def alignRight (width : Nat) (text : String) : String :=
  String.ofList (List.replicate (width - text.length) ' ') ++ text

def alignLeft (width : Nat) (text : String) : String :=
  text ++ String.ofList (List.replicate (width - text.length) ' ')

end LogicCapture
