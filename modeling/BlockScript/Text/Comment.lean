/-!
# Block comments

A block comment around a text. A comment ends at the first `*/`, so each `*/` of the text is
broken by a blank.
-/

namespace BlockScript.Text.Comment

/-- The text with each `*/`, found from the left, written as `* /`. -/
def breakEnds : List Char → List Char
  | '*' :: '/' :: r => '*' :: ' ' :: '/' :: breakEnds r
  | c :: r => c :: breakEnds r
  | [] => []

def encode (s : List Char) : List Char :=
  '/' :: '*' :: (breakEnds s ++ ['*', '/'])

def enclose (s : String) : String :=
  String.ofList (encode s.toList)

end BlockScript.Text.Comment
