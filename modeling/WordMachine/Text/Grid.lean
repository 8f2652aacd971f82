import WordMachine.Text.Numeral

/-!
# Tables of text

A table has a row of titles and rows below it.  Every column is as wide as its
widest line; a cell may have several lines, and then its row is as high as its
highest cell, and so a table can stand in a cell of another table.  Columns are
divided by a vertical rule and have one blank on either side.  A horizontal rule
runs below the titles and below the last row, and the whole has a blank border.
-/

namespace WordMachine
namespace Text

/-- The side of its column on which a cell's text stands. -/
inductive Side where
  | left
  | right
  deriving DecidableEq, Repr

/-- One cell: its lines and where they stand. -/
structure Cell where
  side : Side
  lines : List String
  deriving DecidableEq, Repr

namespace Cell

/-- A cell with one line on its left. -/
def atLeft (s : String) : Cell := ⟨.left, [s]⟩

/-- A cell with one line on its right. -/
def atRight (s : String) : Cell := ⟨.right, [s]⟩

/-- The length of the longest line. -/
def width (c : Cell) : Nat := (c.lines.map String.length).foldl max 0

/-- A line of the cell, blank below its last one, filled up to a width. -/
def line (c : Cell) (width i : Nat) : String :=
  let s := c.lines.getD i ""
  match c.side with
  | .left => padRight width s
  | .right => padLeft width s

end Cell

/-- A table. -/
structure Grid where
  titles : List Cell
  rows : List (List Cell)
  deriving DecidableEq, Repr

namespace Grid

/-- The widths of the columns. -/
def widths (g : Grid) : List Nat :=
  g.rows.foldl (fun ws row => (ws.zip row).map fun p => max p.1 p.2.width)
    (g.titles.map Cell.width)

/-- A horizontal rule, with the sign that stands where it meets a vertical one. -/
def rule (crossing : String) (widths : List Nat) : String :=
  let dashes (w : Nat) := String.ofList (List.replicate (w + 2) '─')
  " " ++ crossing.intercalate (widths.map dashes) ++ " "

/-- One line of a row. -/
def rowLine (widths : List Nat) (row : List Cell) (i : Nat) : String :=
  " " ++ "│".intercalate ((widths.zip row).map fun p => " " ++ p.2.line p.1 i ++ " ") ++ " "

/-- The lines of a row. -/
def rowLines (widths : List Nat) (row : List Cell) : List String :=
  (List.range ((row.map fun c => c.lines.length).foldl max 0)).map (rowLine widths row)

/-- The lines of the table. -/
def lines (g : Grid) : List String :=
  let ws := g.widths
  rowLines ws g.titles ++ [rule "┼" ws] ++ g.rows.flatMap (rowLines ws) ++ [rule "┴" ws]

end Grid
end Text
end WordMachine
