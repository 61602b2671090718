import Datapath.Pass

/-!
# Wiring a loop

A loop is wired from a list of feeds, each a bus and the port that takes its value. The bus tells
what a feed is for: a value the loop starts with, a value that one iteration hands to the next, or a
result of the loop. Values that are fed back go through a register; values that stay the same are
held by a latch for as long as the loop runs.
-/

namespace Datapath.Loop

structure Feed where
  source : BusId
  target : PortId
deriving DecidableEq, Inhabited

/-- Feeds with at most one bus per port, in the order in which the ports came. -/
abbrev Links := List (PortId × BusId)

/-- Sets the bus of a port; a port that has one keeps its place. -/
def Links.put (links : Links) (port : PortId) (bus : BusId) : Links :=
  if links.any (·.1 == port) then links.map fun l => if l.1 == port then (port, bus) else l
  else links ++ [(port, bus)]

def Links.has (links : Links) (port : PortId) : Bool := links.any (·.1 == port)

structure Classes where
  initial : Links := []
  feedback : Links := []
  output : Links := []
deriving DecidableEq, Inhabited

structure Exits where
  feedback : ExitId
  completion : ExitId
  input : ExitId

/-- What was added to a loop: the register or the latch of a port of the body, and the
dependencies that carry its results. -/
structure Wiring where
  registers : List (PortId × OpId)
  latches : List (PortId × OpId)
  outputs : List DepId
deriving DecidableEq, Inhabited

/-! ## Classes -/

/-- Adds a feed to its class. A port takes one value from the feedback and one result; of several
initial values it takes the last. -/
def classify (d : Design) (body : OpId) (exits : Exits) (c : Classes) (f : Feed) :
    Query Classes := do
  let b ← d.bus f.source
  if b.exit == exits.feedback then
    if c.feedback.has f.target then
      d.reject body (.repeatedFeedback (← d.port f.target).name)
    return { c with feedback := c.feedback.put f.target f.source }
  else if b.exit == exits.completion then
    if c.output.has f.target then
      d.reject body (.repeatedOutput (← d.port f.target).name)
    return { c with output := c.output.put f.target f.source }
  else if b.exit == exits.input then
    return { c with initial := c.initial.put f.target f.source }
  else
    d.reject body (.unknownDependency b.name (← d.label (← d.busOwner f.source)))

def exitsOf (d : Design) (lp : Operation) : Query Exits := do
  let feedback ← d.exitOf lp.body .feedback
  let completion ← d.exitOf lp.body .done
  let input ← d.mainExit lp.inBuf
  if feedback == absent then d.reject lp.body (.missingExit .feedback)
  if completion == absent then d.reject lp.body (.missingExit .done)
  return { feedback, completion, input }

/-! ## The body -/

def feedbackWay? (d : Design) (o : Operation) : Option EntryId :=
  ((d.entriesOf o).find? Entry.feedback).map Entry.id

structure Ways where
  initial : EntryId
  feedback : EntryId
  start : BusId

/-- The entries of a body, whose go port must have one dependency in the initial one. -/
def waysOf (d : Design) (bd : Operation) : Query Ways := do
  let initial ← bd.firstEntry
  match feedbackWay? d bd with
  | none => d.reject bd.id .noFeedbackEntry
  | some feedback =>
    match ← d.depsOn initial bd.go with
    | [v] => return { initial, feedback, start := (← d.dep v).source }
    | vs => d.reject bd.id (.goDependencies vs.length)

def checkTargets (d : Design) (body : OpId) (links : Links) : Query Unit :=
  links.forM fun l => do
    let p ← d.port l.1
    if p.owner != body then d.reject body (.outsideBody p.name)

/-- Connects an initial value to its port. A value that is not fed back is held by a latch, which
then drives the port in every iteration. -/
def wireInitial (lp : Operation) (ways : Ways) (feedback : Links) (port : PortId) (bus : BusId) :
    Build (Option (PortId × OpId)) := do
  if feedback.has port then
    let _ ← connect ways.initial bus port
    return none
  let p ← ask (·.port port)
  let latch ← newPrimitive .latch lp.id (lp.name ++ ".latch." ++ p.name) 2 1 .zero
  let la ← ask (·.op latch)
  let entry ← ask fun _ => la.firstEntry
  let drive ← ask fun d => return (← d.bus ways.start).exit
  changeEntry entry fun e => { e with drive }
  let _ ← addDependency entry .control ways.start (← ask fun _ => la.firstPort) 0
  let _ ← addDependency entry .data bus (← ask fun _ => first la.ports.tail) 0
  let held ← ask fun d => do (← d.exit (← la.firstExit)).firstBus
  let _ ← connect ways.feedback held port
  let _ ← connect ways.initial held port
  return some (port, latch)

/-- Connects a value that is fed back to its port, through a register. -/
def wireFeedback (lp : Operation) (ways : Ways) (port : PortId) (bus : BusId) :
    Build (PortId × OpId) := do
  let p ← ask (·.port port)
  let reg ← newPrimitive .reg lp.id (lp.name ++ ".reg." ++ p.name) 1 1 .one
  let rg ← ask (·.op reg)
  let entry ← ask fun _ => rg.firstEntry
  let drive ← ask fun d => return (← d.bus bus).exit
  changeEntry entry fun e => { e with drive }
  let _ ← addDependency entry .data bus (← ask fun _ => rg.firstPort) 0
  let held ← ask fun d => do (← d.exit (← rg.firstExit)).firstBus
  let _ ← addDependency ways.feedback .data held port 0
  return (port, reg)

/-- Wires the values that the body takes; the latches and the registers are returned. -/
def wireBody (lp bd : Operation) (c : Classes) :
    Pass (List (PortId × OpId) × List (PortId × OpId)) := do
  let ways ← Pass.query (waysOf · bd)
  Pass.query fun d => checkTargets d bd.id (c.initial ++ c.feedback)
  let latches ← Pass.ofBuild (c.initial.mapM fun (p, b) => wireInitial lp ways c.feedback p b)
  let registers ← Pass.ofBuild (c.feedback.mapM fun (p, b) => wireFeedback lp ways p b)
  return (latches.filterMap id, registers)

/-! ## The loop -/

/-- Connects a result of a loop to its port, which must be one of the output buffer. -/
def wireOutput (loop outBuf : OpId) (port : PortId) (bus : BusId) : Pass DepId := do
  let p ← Pass.look (·.port port)
  if p.owner != outBuf then Pass.reject loop (.outsideCompletion p.name)
  let entry ← Pass.look fun d => do (← d.op outBuf).firstEntry
  Pass.ofBuild (connect entry bus port)

def wireOutputs (loop : OpId) (output : Links) : Pass (List DepId) := do
  let ob ← Pass.look (·.outBuf loop .done)
  if ob == absent then Pass.reject loop (.missingExit .done)
  output.mapM fun (port, bus) => wireOutput loop ob port bus

/-- Every port of the body that is driven at all must have one driver in both entries. -/
def checkComplete (d : Design) (bd : Operation) : Query Unit := do
  let initial ← bd.firstEntry
  let feedback := (feedbackWay? d bd).getD absent
  bd.ports.forM fun id => do
    let ni := (← d.depsOn initial id).length
    let nf := (← d.depsOn feedback id).length
    if ni == 0 && nf == 0 then return
    let p ← d.port id
    if ni == 0 then d.reject bd.id (.noInitialValue p.name)
    if ni != 1 || nf != 1 then d.reject bd.id (.driverCount p.name ni nf)

def wire (loop : OpId) (feeds : List Feed) : Pass Wiring := do
  let lp ← Pass.look (·.op loop)
  if lp.kind != .loop || lp.body == absent then Pass.reject loop .notLoop
  let bd ← Pass.look (·.op lp.body)
  let exits ← Pass.query (exitsOf · lp)
  let classes ← Pass.query fun d => feeds.foldlM (classify d bd.id exits) {}
  let (latches, registers) ← Pass.within s!"loop {lp.name}" (wireBody lp bd classes)
  let outputs ← wireOutputs loop classes.output
  Pass.query (checkComplete · bd)
  return { registers, latches, outputs }

end Datapath.Loop
