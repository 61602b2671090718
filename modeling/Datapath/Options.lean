import Datapath.Text.Numeral

/-!
# Options

What a run of the passes may do, the defaults of these choices, and how a default is read from a
text.
-/

namespace Datapath

/-! ## Policies -/

/-- How the conflicts that stand in the way of removing a loop's registers are resolved. -/
inductive Policy where
  /-- Not at all: the registers stay. -/
  | fixNone
  /-- By delaying the side with fewer accesses. -/
  | fixFewest
  /-- By delaying the other side. -/
  | fixMost
  /-- By delaying the accesses in the first cycle. -/
  | firstAlways
  /-- By delaying the accesses in the last cycle. -/
  | lastAlways
  | unnamed (code : Int)
deriving DecidableEq, Inhabited

namespace Policy

def ofCode (code : Int) : Policy :=
  if code == 0 then fixNone
  else if code == 1 then fixFewest
  else if code == 2 then fixMost
  else if code == 3 then firstAlways
  else if code == 4 then lastAlways
  else unnamed code

def code : Policy → Int
  | fixNone => 0
  | fixFewest => 1
  | fixMost => 2
  | firstAlways => 3
  | lastAlways => 4
  | unnamed code => code

def name : Policy → String
  | fixNone => "FixNone"
  | fixFewest => "FixFewest"
  | fixMost => "FixMost"
  | firstAlways => "FirstAlways"
  | lastAlways => "LastAlways"
  | unnamed code => s!"Policy({code})"

structure Invalid where
  code : Int
deriving DecidableEq

def Invalid.message (e : Invalid) : String := s!"hlsched: invalid loop fix policy: {e.code}"

def checked (code : Int) : Except Invalid Policy :=
  match ofCode code with
  | unnamed code => .error ⟨code⟩
  | p => .ok p

end Policy

/-! ## Options -/

structure Options where
  policy : Policy := .fixNone
  balance : Bool := true
  removeFlop : Bool := true
  failFast : Bool := false
deriving DecidableEq, Inhabited

namespace Options

def text (o : Options) : String :=
  s!"policy={o.policy.name} balance={o.balance} remove_flop={o.removeFlop} " ++
    s!"fail_fast={o.failFast}"

def withPolicy (o : Options) (code : Int) : Except Policy.Invalid Options :=
  return { o with policy := ← Policy.checked code }

structure Choice where
  policy : Option Int := none
  balance : Option Bool := none
  removeFlop : Option Bool := none
  failFast : Option Bool := none

def choose (o : Options) (c : Choice) : Except Policy.Invalid Options := do
  let o ← match c.policy with
    | none => .ok o
    | some code => o.withPolicy code
  return { o with
    balance := c.balance.getD o.balance
    removeFlop := c.removeFlop.getD o.removeFlop
    failFast := c.failFast.getD o.failFast }

end Options

/-! ## Defaults -/

/-- What holds for a run that does not choose. -/
structure Defaults where
  policy : Policy := .fixNone
  balance : Bool := true
  removeFlop : Bool := true
deriving DecidableEq, Inhabited

namespace Defaults

def options (f : Defaults) : Options :=
  { policy := f.policy, balance := f.balance, removeFlop := f.removeFlop }

/-- Sets the policy of the runs to come; the one that held before is returned with the defaults. -/
def setPolicy (f : Defaults) (code : Int) : Except Policy.Invalid (Policy × Defaults) :=
  return (f.policy, { f with policy := ← Policy.checked code })

end Defaults

/-! ## Settings -/

inductive SettingError where
  | invalid
  | tooSmall
  | tooLarge
deriving DecidableEq

def SettingError.message (key : String) : SettingError → String
  | invalid => "hlsched: invalid value for " ++ key
  | tooSmall => "hlsched: value too small for " ++ key
  | tooLarge => "hlsched: value too large for " ++ key

/-- Reads a setting. An empty text stands for the default; any other must be a numeral of at most 64
bits whose value, as a signed word, lies between the bounds. -/
def readSetting (text : String) (default min max : Int64) : Except SettingError Int64 :=
  if text.isEmpty then .ok default
  else
    match Text.readNumeral text.toList with
    | none => .error .invalid
    | some n =>
      if UInt64.size ≤ n then .error .invalid
      else
        let value := Int64.ofNat n
        if value < min then .error .tooSmall
        else if max < value then .error .tooLarge
        else .ok value

end Datapath
