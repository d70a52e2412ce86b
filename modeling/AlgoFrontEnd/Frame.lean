import AlgoFrontEnd.Event
import AlgoFrontEnd.Resolution.Program

/-! Stack frames: a fixed place for every variable of a function, without gaps. -/
namespace AlgoFrontEnd

structure Slot where
  name : String
  type : Ty
  offset : Nat
  deriving DecidableEq, Repr

def Slot.size (s : Slot) : Nat := s.type.size

/-- Bytes of slots together. -/
def Slot.total : List Slot → Nat
  | [] => 0
  | s :: ss => s.size + total ss

structure Frame where
  function : String
  slots : List Slot
  deriving DecidableEq, Repr

/-- A variable that a frame does not hold. -/
structure NoSlot where
  variableName : String
  function : String
  deriving DecidableEq, Repr

def NoSlot.message (n : NoSlot) : String :=
  s!"'{n.variableName}' has no slot in frame of '{n.function}'"

namespace Frame

def size (f : Frame) : Nat := Slot.total f.slots

def slot? (f : Frame) (name : String) : Option Slot := f.slots.find? (·.name = name)

def offsetOf (f : Frame) (name : String) : Except NoSlot Nat :=
  match f.slot? name with
  | some slot => .ok slot.offset
  | none => .error ⟨name, f.function⟩

/-- Slots for variables one behind the other, from an offset on. -/
def slotsFrom (offset : Nat) : List Binding → List Slot
  | [] => []
  | v :: vs => ⟨v.name, v.type, offset⟩ :: slotsFrom (offset + v.type.size) vs

/-- Parameters come first and locals behind them, both in order of declaration. -/
def ofRoutine (r : Routine) : Frame := ⟨r.name, slotsFrom 0 (r.parameters ++ r.locals)⟩

def event (f : Frame) : Event := .framed f.function f.slots.length f.size

/-- A declared size must be the sum of the slot sizes. -/
def verify (f : Frame) (declared : Int) : Except Fault Unit :=
  if declared = f.size then .ok ()
  else .error ⟨.stackLayout f.function declared f.size, none⟩

end Frame

/-- Frames by function name. A name that comes again keeps its place and takes the later frame. -/
structure FrameTable where
  frames : List Frame
  deriving DecidableEq, Repr

namespace FrameTable

def put (t : FrameTable) (f : Frame) : FrameTable :=
  ⟨putEntry (·.function = f.function) f t.frames⟩

def frame? (t : FrameTable) (function : String) : Option Frame :=
  t.frames.find? (·.function = function)

/-- Frames of functions, each checked against its declared size, after those in a table. -/
def addAll (t : FrameTable) (log : List Event) :
    List Routine → Except Resolution.Stop (FrameTable × List Event)
  | [] => .ok (t, log)
  | r :: rs =>
    let f := Frame.ofRoutine r
    let log := log ++ [f.event]
    match f.verify r.frameSize with
    | .ok () => addAll (t.put f) log rs
    | .error fault => .error ⟨fault, log⟩

def ofRoutines (rs : List Routine) : Except Resolution.Stop (FrameTable × List Event) :=
  addAll ⟨[]⟩ [] rs

end FrameTable
end AlgoFrontEnd
