import Mathlib.Tactic.Common
import AlgoFrontEnd.Files.Tree

/-! Paths in the form in which they are shown. Main statement: this form leads where the path
leads. -/
namespace AlgoFrontEnd.Files

/-! ### Parts -/

end AlgoFrontEnd.Files
