import AlgoFrontEnd.Grammar.Expression
import AlgoFrontEnd.Tree.Stmt

/-! Function headers read from the tokens of a line. -/
namespace AlgoFrontEnd.Grammar
open Token (Form)

/-- The first of the tokens, or where the line stops. -/
def here (stop : Position) (tokens : List Token) : Position :=
  (tokens.head?.map (·.position)).getD stop

/-- Takes one mark. -/
def expectMark (stop : Position) (m : Mark) (tokens : List Token) : Except Fault (List Token) :=
  match tokens with
  | t :: rest =>
    if t.form = .mark m then .ok rest else fault (.missingToken s!"'{m.char}'") t.position
  | [] => fault (.missingToken s!"'{m.char}'") stop

/-- A type behind an optional colon. -/
def resultType? (stop : Position) : List Token → Except Fault (Option TypeRef × List Token)
  | ⟨.mark .colon, _⟩ :: rest =>
    match rest with
    | ⟨.typeName type, _⟩ :: rest => .ok (some ⟨type, false⟩, rest)
    | ⟨.arrayTypeName type, _⟩ :: rest => .ok (some ⟨type, true⟩, rest)
    | rest => fault (.missingToken "type name") (here stop rest)
  | rest => .ok (none, rest)

theorem length_of_resultType? {stop : Position} {ts rest : List Token} {a : Option TypeRef}
    (h : resultType? stop ts = .ok (a, rest)) : rest.length ≤ ts.length := by
  unfold resultType? fault at h
  split at h
  · split at h <;> simp_all <;> omega
  · simp_all

/-- Parameters separated by commas, at least one. -/
def parameters (stop : Position) :
    List Token → Except Fault (List (Parameter Position) × List Token)
  | ⟨.name text, position⟩ :: rest =>
    match _typed : resultType? stop rest with
    | .error e => .error e
    | .ok (type, ⟨.mark .comma, _⟩ :: rest) => do
      let (more, rest) ← parameters stop rest
      return (⟨position, text, type⟩ :: more, rest)
    | .ok (type, rest) => .ok ([⟨position, text, type⟩], rest)
  | tokens => fault (.missingToken "parameter name") (here stop tokens)
termination_by ts => ts.length
decreasing_by
  have := length_of_resultType? _typed
  simp only [List.length_cons] at *
  omega

/-- Nothing may be left on the line. -/
def expectEnd : List Token → Except Fault Unit
  | [] => .ok ()
  | t :: _ => unexpected t "end of line"

/-- A name, parameters in parentheses and the type of the result, up to the end of the line. -/
def header (stop : Position) : List Token → Except Fault (Header Position)
  | ⟨.name text, _⟩ :: rest => do
    let rest ← expectMark stop .openParen rest
    let (params, rest) ← match rest with
      | ⟨.mark .closeParen, _⟩ :: _ => pure ([], rest)
      | _ => parameters stop rest
    let rest ← expectMark stop .closeParen rest
    let (result, rest) ← resultType? stop rest
    expectEnd rest
    return ⟨text, params, result⟩
  | tokens => fault (.missingToken "function name") (here stop tokens)

end AlgoFrontEnd.Grammar
