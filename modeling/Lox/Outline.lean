/-!
  Outlines: labelled trees drawn with lines.

  A node takes one line, its children follow, each behind a branch.  The branch of the last child is closed
  below, the others are drawn on down to the next child:

      Binary +
      ├─ Literal 1
      └─ Grouping
         └─ Variable a

  The lines of a child are computed first and then hung behind what belongs before them (`hang`): the branch
  before the first line, and blanks or a line before the others.  Nothing needs to know how deep it is.
-/

namespace Lox

/-- A tree with a label at every node. -/
inductive Outline where
  | node (label : String) (children : List Outline)

namespace Outline

/-- Puts `first` before the first line and `others` before the rest. -/
def hang (first others : String) : List String → List String
  | [] => []
  | line :: lines => (first ++ line) :: lines.map (others ++ ·)

mutual

/-- The lines of a tree. -/
def lines : Outline → List String
  | node label children => label :: branches children

/-- The lines of the children of a node. -/
def branches : List Outline → List String
  | [] => []
  | [last] => hang "└─ " "   " last.lines
  | child :: rest => hang "├─ " "│  " child.lines ++ branches rest

end

/-- The tree as text, each line with its end. -/
def text (o : Outline) : String := String.join (o.lines.map (· ++ "\n"))

end Outline

end Lox
