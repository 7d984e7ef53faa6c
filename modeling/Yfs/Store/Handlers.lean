import Yfs.Store.Serializability

/-! What a handler answers, whatever the handlers of other inums do between its commands. -/
namespace Yfs.Store
open Effect

/-- The answer for an inum with a file. -/
def Request.answer (f : File) : Request → Answer
  | .create _ => .created 0
  | .put _ _ => .ok
  | .get _ => .data f.bytes
  | .getattr _ => .attr f.attr
  | .remove _ => .ok

/-- The answer to a request on an inum, and what is bound to it then. -/
def Request.outcome (r : Request) : Option File → Answer × Option File
  | none => (r.unbound, none)
  | some f => (r.answer f, r.effect f)

section Handlers

variable {n : ℕ} {l : Share} {c : Call} {f : File}

end Handlers

end Yfs.Store
