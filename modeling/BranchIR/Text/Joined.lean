/-! # Lists in text -/

namespace BranchIR.Text

/-- The pieces in order, with a separator between each two. -/
def joined (separator : String) : List String → String
  | [] => ""
  | [s] => s
  | s :: ss => s ++ separator ++ joined separator ss

/-- The pieces in order, with a comma and a space between each two. -/
def commaList (pieces : List String) : String := joined ", " pieces

end BranchIR.Text
