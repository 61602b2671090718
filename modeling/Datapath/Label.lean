import Datapath.Design.Basic

/-!
# Labels

How an operation is named in a message: by its name, its kind and its index.
-/

namespace Datapath

structure Label where
  name : String
  kind : Kind
  id : OpId
deriving DecidableEq, Inhabited

def Operation.label (o : Operation) : Label := ⟨o.name, o.kind, o.id⟩

def Label.text (l : Label) : String := s!"{l.name}({l.kind.name})#{l.id}"

def labelText : Option Label → String
  | none => "<none>"
  | some l => l.text

def ownersText : List Label → String
  | [] => "<top>"
  | ls => " <- ".intercalate (ls.map Label.text)

end Datapath
