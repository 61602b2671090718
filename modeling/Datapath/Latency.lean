/-!
# Latencies

A latency says when something completes, in clocks counted from a start: no earlier than `min`
and no later than `max`. Clock counts are 64-bit words, and their sums wrap around. The maximum
`unknown` means that no upper bound is known; such a latency is open and carries the key of the
unbounded source it comes from. Open latencies with different keys cannot be ordered.
-/

namespace Datapath

/-- The maximum that stands for "no upper bound". -/
def unknown : Int64 := -1

/-- A range of clock counts, with the key of the unbounded source when it is open. -/
structure Latency where
  min : Int64
  max : Int64
  key : Int64 := 0
deriving DecidableEq, Inhabited

namespace Latency

inductive Invalid where
  | range (min max : Int64)
  | start (min : Int64)
deriving DecidableEq

def Invalid.message : Invalid → String
  | .range min max => s!"lim: invalid latency: {min}, {max}"
  | .start min => s!"lim: invalid latency: {min}"

def zero : Latency := ⟨0, 0, 0⟩

def one : Latency := ⟨1, 1, 0⟩

def range (min max : Int64) : Except Invalid Latency :=
  if min < 0 ∨ max < min then .error (.range min max) else .ok ⟨min, max, 0⟩

def fixed (n : Int64) : Except Invalid Latency := range n n

/-- The latency of at least `min` clocks, unbounded because of the source `key`. -/
def unbounded (min key : Int64) : Except Invalid Latency :=
  if min < 0 then .error (.start min) else .ok ⟨min, unknown, key⟩

def isOpen (l : Latency) : Bool := l.max == unknown

def isFixed (l : Latency) : Bool := !l.isOpen && l.min == l.max

/-! ## Order -/

/-- Whether the maximum `a` is no smaller than `b`, an unknown maximum being above all others. -/
def maxGe (a b : Int64) : Bool := a == unknown || (b != unknown && decide (b ≤ a))

/-- Whether `a` completes no earlier than `b` on every path. -/
def dominates (a b : Latency) : Bool :=
  a == b ||
    (!(a.isOpen && b.isOpen && a.key != b.key) && decide (b.min ≤ a.min) && maxGe a.max b.max)

def exceeds (a b : Latency) : Bool := a != b && a.dominates b

/-! ## Sums and sets -/

/-- The latency `l` measured from the start of `base`. -/
def after (l base : Latency) : Latency where
  min := l.min + base.min
  max := if l.isOpen || base.isOpen then unknown else l.max + base.max
  key := if l.isOpen then l.key else base.key

/-- One step of a combination: `pick` chooses between the minima, the maximum only grows, and
the first open latency decides the key. -/
def join (pick : Int64 → Int64 → Int64) (a b : Latency) : Latency :=
  let min := pick a.min b.min
  if a.isOpen then { a with min }
  else if b.isOpen then ⟨min, unknown, b.key⟩
  else ⟨min, if a.max < b.max then b.max else a.max, a.key⟩

def combine (pick : Int64 → Int64 → Int64) : List Latency → Latency
  | [] => zero
  | l :: ls => ls.foldl (join pick) l

/-- When the first of the inputs completes, as for a mux. -/
def anyOf : List Latency → Latency := combine fun a b => if a < b then a else b

/-- When all of the inputs have completed, as for a scoreboard. -/
def allOf : List Latency → Latency := combine fun a b => if a > b then a else b

/-- Adds `l` to a set of latencies none of which dominates another. -/
def insertLatest (kept : List Latency) (l : Latency) : List Latency :=
  if kept.any (·.dominates l) then kept else kept.filter (fun k => !l.dominates k) ++ [l]

/-- The latencies that no other one dominates; the first of equal ones stays. -/
def latest (ls : List Latency) : List Latency := ls.foldl insertLatest []

/-- The latency with the smallest minimum, the first one if there are several. -/
def earliest : List Latency → Latency
  | [] => zero
  | l :: ls => ls.foldl (fun a b => if b.min < a.min then b else a) l

/-- The largest maximum and at least zero, unknown if one of the latencies is open. -/
def longest (ls : List Latency) : Int64 :=
  if ls.any isOpen then unknown
  else ls.foldl (fun m l => if m < l.max then l.max else m) 0

/-! ## Text -/

def text (l : Latency) : String :=
  if l.isOpen then s!"<{l.min}, ?>#{l.key}"
  else if l.isFixed then s!"<{l.min}>"
  else s!"<{l.min}, {l.max}>"

end Latency

end Datapath
