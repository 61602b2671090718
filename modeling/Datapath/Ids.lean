/-!
# Lists of indices

Indices in ascending order, and unions of lists of indices.
-/

namespace Datapath

/-- Puts an index in front of the first one that is not smaller. -/
def insertId (x : Int) : List Int → List Int
  | [] => [x]
  | y :: ys => if x ≤ y then x :: y :: ys else y :: insertId x ys

def ascending : List Int → List Int
  | [] => []
  | x :: xs => insertId x (ascending xs)

def ascendingSet (xs : List Int) : List Int := ascending xs.eraseDups

/-- The first list and what the second one adds to it, each new index once. -/
def addIds (xs ys : List Int) : List Int :=
  ys.foldl (fun acc y => if acc.contains y then acc else acc ++ [y]) xs

end Datapath
