/-
  LoopFree.Text — how lists and sizes stand in a message.
-/

namespace LoopFree.Text

def commas (xs : List String) : String := ", ".intercalate xs

/-- Integers between brackets. -/
def bracketed (xs : List Int) : String := s!"[{commas (xs.map toString)}]"

/-- Integers between parentheses; one alone is followed by a comma. -/
def tuple : List Int → String
  | [x] => s!"({x},)"
  | xs => s!"({commas (xs.map toString)})"

end LoopFree.Text
