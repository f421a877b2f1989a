namespace IndexedTyping

structure Event where
  phase : String
  message : String
  depth : Nat
  deriving DecidableEq, Repr

def Event.render (e : Event) : String :=
  String.join (List.replicate e.depth "  ") ++ String.ofList (e.phase.toList.rightpad 20 ' ') ++ " " ++ e.message

/-- The depth is followed in any case. Events are kept only while the trace is enabled, and never if it discards. -/
structure Trace where
  enabled : Bool
  discards : Bool
  depth : Nat
  events : Array Event
  deriving DecidableEq, Repr

namespace Trace

def new (enabled : Bool) : Trace := ⟨enabled, false, 0, #[]⟩

def sink : Trace := ⟨true, true, 0, #[]⟩

def emit (t : Trace) (phase message : String) : Trace :=
  if t.enabled && !t.discards then { t with events := t.events.push ⟨phase, message, t.depth⟩ } else t

def enter (t : Trace) (phase message : String) : Trace :=
  let t := t.emit phase message
  { t with depth := t.depth + 1 }

def leave (t : Trace) (phase message : String) : Trace :=
  { t with depth := t.depth - 1 }.emit phase message

def unwind (t : Trace) : Trace := { t with depth := 0 }

def clear (t : Trace) : Trace := { t with depth := 0, events := #[] }

def render (t : Trace) : String := "\n".intercalate (t.events.toList.map Event.render)

end Trace

end IndexedTyping
