import AlgoFrontEnd.Text.Blank

/-! Settings of a compilation, and how the environment changes them. -/
namespace AlgoFrontEnd

/-- The name of the function that holds the statements outside of functions, and whether frames
are laid out. -/
structure Options where
  entry : String
  layout : Bool
  deriving DecidableEq, Repr

namespace Options

def default : Options := ⟨"main", true⟩

/-- Words that turn a setting off, in any case and between blanks. -/
def isOff (value : String) : Bool :=
  ["0", "false", "no", "off"].contains
    (String.ofList ((Text.trim value.toList).map Char.toLower))

def entryVariable : String := "ALGOC_ENTRY_FUNCTION"

def layoutVariable : String := "ALGOC_COMPUTE_LAYOUT"

/-- An empty value counts as no value. -/
def setting? (environment : String → Option String) (name : String) : Option String :=
  (environment name).filter (· ≠ "")

def ofEnvironment (environment : String → Option String) : Options :=
  { entry := (setting? environment entryVariable).getD default.entry
    layout := match setting? environment layoutVariable with
      | some value => !isOff value
      | none => default.layout }

end Options
end AlgoFrontEnd
