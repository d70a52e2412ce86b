import AlgoFrontEnd.Files.Tree
import AlgoFrontEnd.Frame
import AlgoFrontEnd.Number.Decimal
import AlgoFrontEnd.Text.Utf8

/-! What can end a compilation or a report early, and results that come with their events. -/
namespace AlgoFrontEnd

/-- Whatever can keep a program from being compiled or reported. -/
inductive Failure where
  | diagnostic (d : Diagnostic)
  | limit (l : Number.Limit)
  | encoding (f : Text.Utf8.Fault)
  | noSlot (n : NoSlot)
  | missingSource (path : String)
  | access (path : String) (f : Files.AccessFault)
  deriving DecidableEq, Repr

/-- The text of a failure; a missing slot is shown as a quoted text. -/
def Failure.message : Failure → String
  | diagnostic d => d.text
  | limit l => l.message
  | encoding f => f.message
  | noSlot n => Text.quoted n.message
  | missingSource path => "Source file not found: " ++ path
  | access path f => f.message path

/-- A result or a failure, with the events up to it. -/
structure Logged (α : Type) where
  log : List Event
  result : Except Failure α

namespace Logged
variable {α β : Type}

/-- Goes on from a result, after the events before it. -/
def andThen (x : Logged α) (next : α → Logged β) : Logged β :=
  match x.result with
  | .ok a => let y := next a; ⟨x.log ++ y.log, y.result⟩
  | .error e => ⟨x.log, .error e⟩

/-- A result with one event that is told of it. -/
def telling (result : Except Failure α) (event : α → Event) : Logged α :=
  match result with
  | .ok a => ⟨[event a], .ok a⟩
  | .error e => ⟨[], .error e⟩

end Logged
end AlgoFrontEnd
