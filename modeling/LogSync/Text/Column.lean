/-!
# Columns of text

Cells of a printed table are filled up with blanks to the width of their column. A cell's own width
is the number of its characters; a cell that is too long is printed whole.
-/

namespace LogSync.Column

/-- Blanks that fill a text up to a width. -/
def filling (width : Nat) (text : String) : String :=
  String.ofList (List.replicate (width - text.length) ' ')

/-- A cell with its text on the left. -/
def left (width : Nat) (text : String) : String := text ++ filling width text

/-- A cell with its text on the right. -/
def right (width : Nat) (text : String) : String := filling width text ++ text

end LogSync.Column
