import Datapath.Fault

/-!
# Errors

An error is the answer of an analysis or of a pass on a design it cannot handle. It says what is
wrong and where; the changes that were made before it was found stay.
-/

namespace Datapath

inductive Reason where
  /-- Children of a module drive each other in a circle. -/
  | cycle (components : List (List OpId))
  | missingExit (tag : ExitTag)
  -- regions
  | noAccessors
  | noCommonBlock
  | outsideContext (context : Option Label)
  | pointSpans (one other : Option Label)
  | accessWithoutResource
  | callWithoutBody
  -- timing
  | latencyUnknown (bus : String)
  | accessNotScheduled
  | loopNotScheduled
  -- loops
  | notLoop
  | notLoopBody
  | unknownDependency (bus : String) (owner : Option Label)
  | repeatedFeedback (port : String)
  | repeatedOutput (port : String)
  | noFeedbackEntry
  | goDependencies (count : Nat)
  | outsideBody (port : String)
  | outsideCompletion (port : String)
  | noInitialValue (port : String)
  | driverCount (port : String) (initial feedback : Nat)
  -- delays
  | cannotDelay (exits : Nat)
  | noCorrelation
  | accessWithoutOwner
deriving DecidableEq

/-- Cyclic components are listed as long as they have no more than this many operations. -/
def Reason.listedOperations : Nat := 10

def Reason.cycleText (components : List (List OpId)) : String :=
  let count := components.flatten.length
  if count > listedOperations then s!"{count} nodes in {components.length} cyclic components"
  else
    let bracket (parts : List String) := "[" ++ " ".intercalate parts ++ "]"
    "cyclic components: " ++ bracket (components.map fun c => bracket (c.map fun id => s!"{id}"))

def Reason.text : Reason → String
  | cycle components =>
    "combinational cycle between children: topo: no topological ordering: " ++ cycleText components
  | missingExit tag => s!"missing {tag.text} exit"
  | noAccessors => "process without accessors"
  | noCommonBlock => "no common block owning the process accessors"
  | outsideContext context => s!"not contained in process context {labelText context}"
  | pointSpans one other => s!"process point spans {labelText one} and {labelText other}"
  | accessWithoutResource => "access without a resource"
  | callWithoutBody => "task call without a body"
  | latencyUnknown bus => s!"latency of {bus} is not known yet"
  | accessNotScheduled => "access was not scheduled"
  | loopNotScheduled => "loop was not scheduled"
  | notLoop => "not a loop"
  | notLoopBody => "not a loop body"
  | unknownDependency bus owner =>
    s!"unknown dependency structure: source {bus} of {labelText owner}"
  | repeatedFeedback port => s!"more than one feedback dependency on port {port}"
  | repeatedOutput port => s!"more than one output dependency on port {port}"
  | noFeedbackEntry => "loop body has no feedback entry"
  | goDependencies count =>
    s!"expected a single go dependency in the initial entry, found {count}"
  | outsideBody port => s!"dependency targets port {port} outside the loop body"
  | outsideCompletion port => s!"output dependency targets {port} outside the loop completion"
  | noInitialValue port => s!"port {port} is fed back but has no initial value"
  | driverCount port initial feedback =>
    s!"port {port} has {initial} initial and {feedback} feedback drivers"
  | cannotDelay exits => s!"cannot delay a module with {exits} exits"
  | noCorrelation => "no correlated component in the live graph"
  | accessWithoutOwner => "access has no owner"

/-- The operation an error is found at, with the chain of its owners. -/
structure Site where
  node : Label
  owners : List Label
deriving DecidableEq, Inhabited

inductive Error where
  | malformed (site : Option Site) (reason : Reason)
  | unsupported (site : Site) (analysis : String)
  | illegalPolicy (code : Int)
  | within (part : String) (inner : Error)
deriving DecidableEq

def Error.message : Error → String
  | malformed none reason => s!"StructureError: {reason.text}"
  | malformed (some site) reason =>
    s!"StructureError({site.node.text} in {ownersText site.owners}): {reason.text}"
  | unsupported site analysis =>
    s!"internal error: {analysis}: unexpected traversal of {site.node.kind.name} " ++
      s!"{site.node.text} in {ownersText site.owners}"
  | illegalPolicy code => s!"illegal loop flop conflict resolution policy: {code}"
  | within part inner => part ++ ": " ++ inner.message

/-- The error that the reports of enclosing work are about. -/
def Error.cause : Error → Error
  | within _ inner => inner.cause
  | e => e

end Datapath
