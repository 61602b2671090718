/-!
# Kinds

The kinds of operations, of the resources they access, of the dependencies between them and of the
exits through which they complete. Each kind has a numeric code; codes without a meaning of their
own are kept as `unnamed`.
-/

namespace Datapath

/-! ## Operations -/

inductive Kind where
  | invalid
  -- modules
  | block
  | branch
  | decision
  | loop
  | whileBody
  | untilBody
  | forBody
  | call
  | taskCall
  -- primitives
  | inBuf
  | outBuf
  | constant
  | op
  | mux
  | latch
  | reg
  | noOp
  -- resource accesses
  | memoryRead
  | memoryWrite
  | registerRead
  | registerWrite
  | fifoRead
  | fifoWrite
  | pinRead
  | pinWrite
  -- hardware made after scheduling
  | scoreboard
  | kicker
  | referee
  | gateway
  | memoryBank
  | triBuf
  | ipCoreCall
  | unnamed (code : Nat)
deriving DecidableEq, Inhabited

namespace Kind

def names : List (Kind × String) :=
  [(invalid, "invalid"), (block, "block"), (branch, "branch"), (decision, "decision"),
   (loop, "loop"), (whileBody, "while_body"), (untilBody, "until_body"), (forBody, "for_body"),
   (call, "call"), (taskCall, "task_call"), (inBuf, "inbuf"), (outBuf, "outbuf"),
   (constant, "constant"), (op, "op"), (mux, "mux"), (latch, "latch"), (reg, "reg"),
   (noOp, "noop"), (memoryRead, "memory_read"), (memoryWrite, "memory_write"),
   (registerRead, "register_read"), (registerWrite, "register_write"), (fifoRead, "fifo_read"),
   (fifoWrite, "fifo_write"), (pinRead, "pin_read"), (pinWrite, "pin_write"),
   (scoreboard, "scoreboard"), (kicker, "kicker"), (referee, "referee"), (gateway, "gateway"),
   (memoryBank, "memory_bank"), (triBuf, "tribuf"), (ipCoreCall, "ipcore_call")]

def ofCode (code : Nat) : Kind :=
  match names[code]? with
  | some (k, _) => k
  | none => unnamed code

def code : Kind → Nat
  | unnamed code => code
  | k => names.findIdx (·.1 == k)

def name : Kind → String
  | unnamed code => s!"kind({code})"
  | k => (names.lookup k).getD ""

/-- Whether operations of this kind own operations that run inside them. -/
def isModule : Kind → Bool
  | block | branch | decision | loop | whileBody | untilBody | forBody | call | taskCall => true
  | _ => false

/-- Whether what such an operation owns runs in the same task: a call of a task runs another one. -/
def isInlineModule (k : Kind) : Bool := k.isModule && k != taskCall

def isLoopBody : Kind → Bool
  | whileBody | untilBody | forBody => true
  | _ => false

def isRead : Kind → Bool
  | memoryRead | registerRead | fifoRead | pinRead => true
  | _ => false

def isWrite : Kind → Bool
  | memoryWrite | registerWrite | fifoWrite | pinWrite => true
  | _ => false

def isAccess (k : Kind) : Bool := k.isRead || k.isWrite

/-- Whether operations of this kind only appear once the design has been scheduled. -/
def isHardware : Kind → Bool
  | scoreboard | kicker | referee | gateway | memoryBank | triBuf | ipCoreCall => true
  | _ => false

end Kind

/-! ## Resources -/

inductive ResourceKind where
  | memory
  | register
  | pin
  | fifo
  | unnamed (code : Nat)
deriving DecidableEq, Inhabited

namespace ResourceKind

def ofCode : Nat → ResourceKind
  | 0 => memory
  | 1 => register
  | 2 => pin
  | 3 => fifo
  | code => unnamed code

def name : ResourceKind → String
  | memory => "memory"
  | register => "register"
  | pin => "pin"
  | fifo => "fifo"
  | unnamed code => s!"resource({code})"

def accessKinds? : ResourceKind → Option (Kind × Kind)
  | memory => some (.memoryRead, .memoryWrite)
  | register => some (.registerRead, .registerWrite)
  | pin => some (.pinRead, .pinWrite)
  | fifo => some (.fifoRead, .fifoWrite)
  | unnamed _ => none

end ResourceKind

/-! ## Dependencies -/

inductive DepKind where
  | data
  | control
  | resource
  | unnamed (code : Nat)
deriving DecidableEq, Inhabited

namespace DepKind

def ofCode : Nat → DepKind
  | 0 => data
  | 1 => control
  | 2 => resource
  | code => unnamed code

def name : DepKind → String
  | data => "data"
  | control => "control"
  | resource => "resource"
  | unnamed code => s!"dep({code})"

end DepKind

/-! ## Exits -/

inductive ExitKind where
  | done
  | returned
  | exception
  | sideband
  | unnamed (code : Nat)
deriving DecidableEq, Inhabited

namespace ExitKind

def ofCode : Nat → ExitKind
  | 0 => done
  | 1 => returned
  | 2 => exception
  | 3 => sideband
  | code => unnamed code

def name : ExitKind → String
  | done => "done"
  | returned => "return"
  | exception => "exception"
  | sideband => "sideband"
  | unnamed code => s!"exit({code})"

end ExitKind

/-- The name of one completion path of an operation. -/
structure ExitTag where
  kind : ExitKind
  label : String := ""
deriving DecidableEq, Inhabited

namespace ExitTag

def done : ExitTag := ⟨.done, ""⟩

/-- The completion of a loop body that starts the next iteration. -/
def feedback : ExitTag := ⟨.done, "#feedback#"⟩

def holds : ExitTag := ⟨.done, "true"⟩

def fails : ExitTag := ⟨.done, "false"⟩

def text (t : ExitTag) : String :=
  if t.label.isEmpty then t.kind.name else t.kind.name ++ ":" ++ t.label

end ExitTag

end Datapath
