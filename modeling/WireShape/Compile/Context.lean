import WireShape.Compile.Components
import WireShape.Log

/-!
# The state of a walk over schema nodes

A walk sees the definitions that were known before, collects those that it creates, and remembers
the nodes on its current path. What it has collected stays when it fails.

* `Context`: the state.
* `Walk`: a computation on the state that may fail.
* `Walk.onPath`: runs a step with a node on the path, and takes it off again whatever happens.
-/

namespace WireShape

structure Context where
  /-- Definitions known before; the walk only reads them. -/
  known : Components := []
  /-- Definitions created by the walk. -/
  created : Components := []
  /-- The nodes on the current path, the innermost first. -/
  active : List NodeId := []
  log : Array LogEntry := #[]
deriving Inhabited

namespace Context

/-- Whether a name is defined in a bucket. -/
def has (ctx : Context) (bucket name : Atom) : Bool :=
  ctx.created.contains bucket name || ctx.known.contains bucket name

def enter (ctx : Context) (id : NodeId) : Context := { ctx with active := id :: ctx.active }

def leave (ctx : Context) (id : NodeId) : Context := { ctx with active := ctx.active.erase id }

def addLog (ctx : Context) (level : LogLevel) (message : String) : Context :=
  { ctx with log := ctx.log.push ⟨level, message⟩ }

end Context

/-- A computation on the state of a walk; on failure the state reached is kept. -/
abbrev Walk := ExceptT Fault (StateM Context)

namespace Walk

/-- A step that does not touch the state. -/
def lift {α : Type} (r : Except Fault α) : Walk α := fun ctx => (r, ctx)

/-- Runs a step with a node on the path. A node that is on the path already is its own
descendant. -/
def onPath {α : Type} (id : NodeId) (kind : String) (step : Walk α) : Walk α := fun ctx =>
  if ctx.active.contains id then (.error (.cyclicSchema kind), ctx)
  else
    let (r, after) := step (ctx.enter id)
    (r, after.leave id)

/-- Runs a step at a position; only nodes of the heap can be met again on a path. -/
def atPosition {α : Type} (s : Schema) (kind : String) (step : Walk α) : Walk α :=
  match s with
  | .node id => onPath id kind step
  | .object _ => step

/-- Creates a definition. -/
def register (describe : Describe) (bucket name : Atom) (schema : Value) : Walk Unit := do
  let place ← lift (bucket.display describe)
  let what ← lift (name.display describe)
  modify fun ctx =>
    { ctx with created := ctx.created.define bucket name schema }.addLog .debug
      ("Registered component " ++ place ++ "/" ++ what)

end Walk

end WireShape
