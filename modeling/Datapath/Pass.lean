import Datapath.Design.Build

/-!
# Passes

A pass works on a design and may answer with an error. The design that it leaves then holds the
changes made before the error was found.
-/

namespace Datapath

abbrev Pass (α : Type) := ExceptT Error (StateT Design (Except Fault)) α

namespace Pass

/-- A step of building, which never answers with an error. -/
def ofBuild {α : Type} (m : Build α) : Pass α := ExceptT.lift m

def look {α : Type} (q : Design → Except Fault α) : Pass α := ofBuild (ask q)

def query {α : Type} (q : Design → Query α) : Pass α := fun d => return (← (q d).run, d)

def ofExcept {α : Type} (r : Except Error α) : Pass α := query fun _ => ExceptT.mk (.ok r)

def reject {α : Type} (op : OpId) (reason : Reason) : Pass α := query (·.reject op reason)

/-- Names the part of the work that an error comes from. -/
def within {α : Type} (part : String) (p : Pass α) : Pass α :=
  ExceptT.mk do
    match ← p.run with
    | .ok a => return .ok a
    | .error e => return .error (.within part e)

end Pass

end Datapath
