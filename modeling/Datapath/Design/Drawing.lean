import Datapath.Design.Query

/-!
# Drawings

A design as a graph description: an operation and all that is nested in it, modules as clusters and
dependencies as edges.
-/

namespace Datapath

/-- How the edge of a dependency is drawn. -/
def Dependency.mark (v : Dependency) : String :=
  match v.kind with
  | .control => " [ style = \"dashed\" ]"
  | .resource => s!" [ label = \"{v.minClocks}\" color = \"red\" ]"
  | _ => ""

namespace Design

variable (d : Design)

/-- The operations reached from a queue, breadth first; operations in `seen` are not entered
again. -/
def breadthFirst : Nat → List OpId → List OpId → Except Fault (List Operation)
  | _, [], _ => return []
  | 0, _ :: _, _ => throw .endless
  | n + 1, op :: queue, seen => do
    let o ← d.op op
    let seen := op :: seen
    let next := o.children.filter fun c => !seen.contains c
    return o :: (← breadthFirst n (queue ++ next) seen)

/-- An operation and all that is nested in it, owners before what they own. -/
def nested (root : OpId) : Except Fault (List Operation) :=
  d.breadthFirst (d.ops.size + 1) [root] []

/-! ## Lines -/

def nodeText (o : Operation) : String :=
  let exits := (d.exitsOf o).map fun x => x.tag.text ++ " " ++ x.latency.text
  let flop := if o.kind == .loop && !o.flopNeeded then ["no flop"] else []
  let stalls := if o.stalls.isEmpty then [] else [s!"{o.stalls.length} stalls"]
  "<br/>".intercalate ([o.name, o.kind.name] ++ exits ++ flop ++ stalls)

def nodeLines (o : Operation) : List String :=
  let box := s!"    op_{o.id} [ label = < " ++ d.nodeText o ++ " > ]"
  let cluster :=
    if o.children.isEmpty then []
    else
      [s!"    subgraph cluster_{o.id} \x7b label = \"" ++ o.name ++ "\""] ++
        o.children.map (fun c => s!"        op_{c}") ++ ["    \x7d"]
  box :: cluster

def edgeLine? (drawn : List OpId) (v : Dependency) : Option String := do
  let src ← d.busOwner? v.source
  let dst := (← d.port? v.target).owner
  if !drawn.contains src || !drawn.contains dst then failure
  return s!"    op_{src} -> op_{dst}" ++ v.mark

def drawingHead : List String :=
  ["digraph LIM \x7b",
   "    graph [ fontname = \"Fira Code\" compound = \"true\" ]",
   "    node [ fontname = \"Fira Code\" fontsize = \"12\" shape = \"box\" ]",
   "    edge [ fontname = \"Fira Code\" fontsize = \"10\" ]"]

def drawing (root : OpId) : Except Fault String := do
  let ops ← d.nested root
  let edges := d.deps.toList.filterMap (d.edgeLine? (ops.map Operation.id))
  let lines := drawingHead ++ ops.flatMap d.nodeLines ++ edges ++ ["\x7d"]
  return "\n".intercalate lines ++ "\n"

end Design

end Datapath
