import Datapath.Design.Build

/-!
# Modules

Operations that own others: blocks, branches with a decision and two sides, loops with a body that
feeds back into itself, tasks and the calls of tasks. A module shows its ports to its inside through
an input buffer, and each of its exits is completed by an output buffer.
-/

namespace Datapath

/-- Adds a module with its input buffer and without any exit. -/
def newFrame (kind : Kind) (owner : OpId) (name : String) (inputs : Int) : Build OpId := do
  let id ← addOp kind owner name
  addPorts id inputs
  let _ ← addEntry id absent
  let ib ← addOp .inBuf id (name ++ ".inbuf")
  let x ← addExit ib .done .zero inputs
  let _ ← addEntry ib absent
  changeOp id fun o => { o with inBuf := ib }
  let o ← ask (·.op id)
  let x ← ask (·.exit x)
  linkPeers (Design.allPorts o) (x.done :: x.buses)
  return id

def addModuleExit (mod : OpId) (tag : ExitTag) (latency : Latency) (outputs : Int) :
    Build ExitId := do
  let id ← addExit mod tag latency outputs
  let m ← ask (·.op mod)
  let ob ← addOp .outBuf mod (m.name ++ ".outbuf." ++ tag.text)
  addPorts ob outputs
  let _ ← addEntry ob absent
  let x ← ask (·.exit id)
  let o ← ask (·.op ob)
  linkPeers (Design.allPorts o) (x.done :: x.buses)
  changeExit id fun x => { x with peer := ob }
  return id

def newModule (kind : Kind) (owner : OpId) (name : String) (inputs outputs : Int)
    (latency : Latency) : Build OpId := do
  if !kind.isModule then faulty (.notModule kind)
  let id ← newFrame kind owner name inputs
  let _ ← addModuleExit id .done latency outputs
  return id

def newBlock : OpId → String → Int → Int → Latency → Build OpId := newModule .block

/-- Adds a decision, which completes at once through one of two exits. -/
def newDecision (owner : OpId) (name : String) : Build OpId := do
  let id ← newFrame .decision owner name 1
  let _ ← addModuleExit id .holds .zero 0
  let _ ← addModuleExit id .fails .zero 0
  let o ← ask (·.op id)
  let _ ← finish id .holds o.inBuf
  let _ ← finish id .fails o.inBuf
  return id

/-! ## Branches -/

/-- Lets an exit of the decision start a side, which takes all inputs of the branch. -/
def startSide (decision : OpId) (tag : ExitTag) (side : OpId) (inputs : List BusId) :
    Build Unit := do
  let x ← ask fun d => do d.exit (← d.exitOf decision tag)
  let _ ← start side x.done
  let s ← ask (·.op side)
  connectAll (← ask fun _ => s.firstEntry) inputs s.ports

/-- Lets a side complete the branch through one entry of its output buffer. -/
def finishSide (side : OpId) (outBuf : OpId) (entry : EntryId) : Build Unit := do
  let x ← ask fun d => do d.exit (← d.mainExit side)
  let ob ← ask (·.op outBuf)
  let _ ← addDependency entry .control x.done ob.go 0
  connectAll entry x.buses ob.ports

/-- Adds a branch with a decision and two empty sides. Both sides take the inputs of the branch and
produce its outputs. -/
def newBranch (owner : OpId) (name : String) (inputs outputs : Int) (latency : Latency) :
    Build OpId := do
  let id ← newFrame .branch owner name inputs
  let ix ← ask (·.inBufExit id)
  let bx ← addModuleExit id .done latency outputs
  let decision ← newDecision id (name ++ ".decision")
  changeOp id fun o => { o with decision }
  let _ ← start decision ix.done
  let trueSide ← newBlock id (name ++ ".true") inputs outputs .zero
  let falseSide ← newBlock id (name ++ ".false") inputs outputs .zero
  changeOp id fun o => { o with trueSide, falseSide }
  startSide decision .holds trueSide ix.buses
  startSide decision .fails falseSide ix.buses
  let ob ← ask fun d => do d.op (← d.exit bx).peer
  let trueEntry ← ask fun _ => ob.firstEntry
  let trueExit ← ask (·.mainExit trueSide)
  changeEntry trueEntry fun e => { e with drive := trueExit }
  let falseEntry ← addEntry ob.id (← ask (·.mainExit falseSide))
  finishSide trueSide ob.id trueEntry
  finishSide falseSide ob.id falseEntry
  return id

/-! ## Loops -/

namespace Loop

/-- The body of a loop: what its input buffer shows, the exit that feeds back and the entry for it. -/
structure Shell where
  body : OpId
  front : Exit
  again : ExitId
  entry : EntryId

/-- Adds the body with its exits and its two entries. -/
def makeBody (loop : OpId) (name : String) (inputs outputs : Int) (drive : ExitId) : Build Shell := do
  let body ← newFrame .whileBody loop (name ++ ".body") inputs
  let front ← ask (·.inBufExit body)
  let again ← addModuleExit body .feedback .zero inputs
  let _ ← addModuleExit body .done .zero outputs
  let entry ← addEntry body again
  changeEntry entry fun e => { e with feedback := true }
  let first ← ask fun d => do (← d.op body).firstEntry
  changeEntry first fun e => { e with drive }
  return { body, front, again, entry }

/-- Adds the decision and the block. -/
def fillBody (body : OpId) (name : String) (inputs : Int) : Build (OpId × OpId) := do
  let decision ← newDecision body (name ++ ".decision")
  let block ← newBlock body (name ++ ".block") inputs inputs .zero
  changeOp body fun o => { o with decision, body := block }
  return (decision, block)

/-- The decision starts the block, which feeds back, or completes the body. -/
def wireBlock (b : Shell) (decision block : OpId) : Build Unit := do
  let _ ← start decision b.front.done
  let holds ← ask fun d => do d.exit (← d.exitOf decision .holds)
  let _ ← start block holds.done
  let o ← ask (·.op block)
  connectAll (← ask fun _ => o.firstEntry) b.front.buses o.ports
  let back ← ask fun d => do d.op (← d.exit b.again).peer
  let _ ← finish b.body .feedback block
  let x ← ask fun d => do d.exit (← d.mainExit block)
  connectAll (← ask fun _ => back.firstEntry) x.buses back.ports
  let out ← ask fun d => do d.op (← d.outBuf b.body .done)
  let fails ← ask fun d => do d.exit (← d.exitOf decision .fails)
  let _ ← addDependency (← ask fun _ => out.firstEntry) .control fails.done out.go 0

/-- The loop starts the body, and the control register starts it again. -/
def startBody (b : Shell) (loop : OpId) (source : BusId) (name : String) : Build Unit := do
  changeOp loop fun o => { o with body := b.body, flopNeeded := true }
  let _ ← start b.body source
  let control ← newPrimitive .reg loop (name ++ ".control") 1 1 .one
  changeOp loop fun o => { o with control }
  let o ← ask (·.op control)
  let entry ← ask fun _ => o.firstEntry
  changeEntry entry fun e => { e with drive := b.again }
  let done ← ask fun d => return (← d.exit b.again).done
  let _ ← connect entry done (← ask fun _ => o.firstPort)
  let bus ← ask fun d => do (← d.exit (← o.firstExit)).firstBus
  let go ← ask fun d => return (← d.op b.body).go
  let _ ← addDependency b.entry .control bus go 0
  let _ ← finish loop .done b.body

end Loop

/-- Adds a loop with its body. A decision starts the body's block or completes the loop; the block
completes the body through the feedback exit, from where the control register starts it again. -/
def newLoop (owner : OpId) (name : String) (inputs outputs : Int) (latency : Latency) :
    Build OpId := do
  let id ← newFrame .loop owner name inputs
  let lx ← ask (·.inBufExit id)
  let _ ← addModuleExit id .done latency outputs
  let b ← Loop.makeBody id name inputs outputs lx.id
  let (decision, block) ← Loop.fillBody b.body name inputs
  Loop.wireBlock b decision block
  Loop.startBody b id lx.done name
  return id

/-! ## Tasks -/

/-- Adds a task: a call that runs a block. -/
def newTask (name : String) (inputs outputs : Int) (latency : Latency) (balanced : Bool) :
    Build Task := do
  let call ← newModule .call absent name inputs outputs latency
  let cx ← ask (·.inBufExit call)
  let body ← newBlock call (name ++ ".body") inputs outputs latency
  changeOp call fun o => { o with body }
  let _ ← start body cx.done
  let b ← ask (·.op body)
  connectAll (← ask fun _ => b.firstEntry) cx.buses b.ports
  let ob ← ask fun d => do d.op (← d.outBuf call .done)
  let _ ← finish call .done body
  let bx ← ask fun d => do d.exit (← d.mainExit body)
  connectAll (← ask fun _ => ob.firstEntry) bx.buses ob.ports
  let task : Task := { id := (← get).tasks.size, name, call, balanced }
  modify fun d => { d with tasks := d.tasks.push task }
  return task

/-- Adds a call of a task, with the ports, the outputs and the latency of the task. -/
def newTaskCall (owner : OpId) (name : String) (task : Int) : Build OpId := do
  let t ← ask (·.task task)
  let c ← ask (·.op t.call)
  let x ← ask fun d => do d.exit (← d.mainExit t.call)
  let id ← newModule .taskCall owner name c.ports.length x.buses.length x.latency
  changeOp id fun o => { o with body := c.body }
  return id

end Datapath
