/-!
# Aligned columns

A text is laid out in columns. A tab ends a cell, a line end ends a cell and its line, and the last
cell of a line belongs to no column. A column spans consecutive lines that all have a cell in it;
these cells are padded on the right to the widest of them and two blanks more.
-/

namespace Datapath.Text

abbrev Row := List (List Char)

inductive CellEnd where
  /-- The next cell belongs to the same line. -/
  | cell
  /-- The next cell starts a line. -/
  | line
  /-- The next cell starts a line, and no column goes on in that line. -/
  | page

def CellEnd.of? (c : Char) : Option CellEnd :=
  if c == '\t' || c == '\x0b' then some .cell
  else if c == '\n' then some .line
  else if c == '\x0c' then some .page
  else none

/-- Cuts a text into pages of lines of cells. The page, the line and the cell that are being read
come first, in reverse. -/
def cut (page : List Row) (row : Row) (cell : List Char) : List Char → List (List Row)
  | [] => [((cell.reverse :: row).reverse :: page).reverse]
  | c :: cs =>
    match CellEnd.of? c with
    | none => cut page row (c :: cell) cs
    | some .cell => cut page (cell.reverse :: row) [] cs
    | some .line => cut ((cell.reverse :: row).reverse :: page) [] [] cs
    | some .page => ((cell.reverse :: row).reverse :: page).reverse :: cut [] [] [] cs

def gap : Nat := 2

def pad (width : Nat) (cell : List Char) : List Char :=
  cell ++ List.replicate (width - cell.length) ' '

def columnWidth (rows : List Row) : Nat :=
  rows.foldl (fun w r => max w ((r.headD []).length + gap)) 0

/-- The lines of a page, for rows of at most `n` cells. Rows are grouped into runs that have, or do
not have, a cell in the first column. -/
def alignRows : Nat → List Row → List (List Char)
  | 0, rows => rows.map fun r => r.headD []
  | n + 1, rows =>
    let inColumn (r : Row) : Bool := decide (2 ≤ r.length)
    (rows.splitBy fun a b => inColumn a == inColumn b).flatMap fun run =>
      if run.any inColumn then
        let width := columnWidth run
        List.zipWith (fun r line => pad width (r.headD []) ++ line) run
          (alignRows n (run.map List.tail))
      else run.map fun r => r.headD []

def align (text : String) : String :=
  let pages := cut [] [] [] text.toList
  let lines := pages.flatMap fun rows =>
    alignRows (rows.foldl (fun n r => max n r.length) 0) rows
  String.ofList (List.intercalate ['\n'] lines)

end Datapath.Text
