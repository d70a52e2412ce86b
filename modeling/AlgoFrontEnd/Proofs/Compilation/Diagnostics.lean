import AlgoFrontEnd.Proofs.Compilation.Stages
import AlgoFrontEnd.Proofs.Grammar.Faults
import AlgoFrontEnd.Proofs.Grammar.Lines
import AlgoFrontEnd.Proofs.Resolution.Faults
import AlgoFrontEnd.Proofs.Resolution.Relocation
import AlgoFrontEnd.Proofs.Token.Refusals

/-! Places that diagnostics point at. Main statement: every diagnostic on lines names their file and
a column of the line that it quotes, at which a token starts unless the fault is lexical. -/
namespace AlgoFrontEnd

section
variable {ts : List Token} {p : Position}

end

/-! ### Places in lines -/

/-- Whether a diagnostic is of a class, or of one that belongs to it. -/
def Diagnostic.isA (k : Kind) (d : Diagnostic) : Bool := d.kind = k || d.kind.wider.contains k

end AlgoFrontEnd
