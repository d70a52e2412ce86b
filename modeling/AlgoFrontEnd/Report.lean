import AlgoFrontEnd.Compilation
import AlgoFrontEnd.Text.Blank
import AlgoFrontEnd.Tree.Printer

/-! The report on a compilation: its functions with their frames, and what is still awaited. -/
namespace AlgoFrontEnd.Report

def resultText : Option Ty → String
  | some type => ": " ++ type.name
  | none => ""

/-- A variable, and its offset if there is a frame. -/
def variableLine (frame : Option Frame) (label : String) (v : Binding) :
    Except NoSlot String := do
  let line := s!"  {label} {v.name}: {v.type.display}"
  match frame with
  | some f => do
    let offset ← f.offsetOf v.name
    return s!"{line} @{offset}"
  | none => return line

def variableLines (frame : Option Frame) (label : String) :
    List Binding → Except NoSlot (List String)
  | [] => .ok []
  | v :: vs => do
    let line ← variableLine frame label v
    return line :: (← variableLines frame label vs)

/-- Statements as they are printed, indented by four. A line break within a text breaks the
printed line as well. -/
def statementLines (statements : List (Stmt Resolution.Typed)) : List String :=
  statements.flatMap fun s => (Text.lines s.text).map ("    " ++ ·)

/-- A function and an empty line behind it. The frame is that of the function's name. -/
def routineLines (frames : FrameTable) (r : Routine) : Except NoSlot (List String) := do
  let frame := frames.frame? r.name
  let parameters ← variableLines frame "param" r.parameters
  let locals ← variableLines frame "local" r.locals
  let size := match frame with
    | some f => [s!"  frame {f.size} bytes"]
    | none => []
  return ("function " ++ r.name ++ resultText r.result) ::
    parameters ++ locals ++ size ++ statementLines r.statements ++ [""]

def routinesLines (frames : FrameTable) : List Routine → Except NoSlot (List String)
  | [] => .ok []
  | r :: rs => do
    let lines ← routineLines frames r
    return lines ++ (← routinesLines frames rs)

def externalLine (s : Symbol) : String := "extern " ++ s.signature.text ++ resultText s.result

/-- Blank characters at the end of the whole report give way to a single line feed. -/
def closed (lines : List String) : String :=
  String.ofList (Text.trimEnd ("\n".intercalate lines).toList) ++ "\n"

end Report

/-- The whole report; it fails if a frame under a function's name lacks one of its variables. -/
def Compilation.describe (c : Compilation) : Except Failure String :=
  match Report.routinesLines c.frames c.routines with
  | .ok lines => .ok (Report.closed (lines ++ c.externals.map Report.externalLine))
  | .error n => .error (.noSlot n)

end AlgoFrontEnd
