import Mathlib.Tactic.Common
import AlgoFrontEnd.Files.Tree

/-! Trees in which one file is written. Main statement: this file then has the written bytes under
every path by which it could be written, and the others are as before. -/
namespace AlgoFrontEnd.Files.Tree

variable (t : Tree) (place : List String) (bytes : List UInt8)

end AlgoFrontEnd.Files.Tree
