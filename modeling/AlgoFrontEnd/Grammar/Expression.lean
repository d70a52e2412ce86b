import AlgoFrontEnd.Fault
import AlgoFrontEnd.Token.Basic
import AlgoFrontEnd.Tree.Expr

/-! Expressions read from the tokens of a line with a stack of values and a stack of operators. -/
namespace AlgoFrontEnd.Grammar
open Token (Form)

def unexpected {α : Type} (t : Token) (expected : String) : Except Fault α :=
  fault (.unexpectedToken t.form.text (some expected)) t.position

/-- What waits for its right end: an operator, an open parenthesis, or the name of a call whose
parenthesis has opened. -/
inductive Pending where
  | connective (c : Connective) (position : Position)
  | sign (s : Sign) (position : Position)
  | paren (position : Position)
  | call (function : String) (position : Position)
  deriving DecidableEq, Repr

namespace Pending

def position : Pending → Position
  | connective _ p | sign _ p | paren p | call _ p => p

/-- Parentheses and calls have no precedence and stop every reduction. -/
def precedence? : Pending → Option Nat
  | connective c _ => some c.precedence
  | sign _ _ => some Sign.precedence
  | paren _ | call _ _ => none

end Pending

/-- What has been read: a value, or the mark below the arguments of an open call. -/
inductive Item where
  | value (e : Expr Position)
  | callMark
  deriving Repr

/-- Both stacks, the newest entry first. -/
structure Yard where
  output : List Item
  pending : List Pending

namespace Yard

def empty : Yard := ⟨[], []⟩

def push (y : Yard) (e : Expr Position) : Yard := { y with output := .value e :: y.output }

/-- The value of an operator applied to the newest values. They must lie above every call mark,
but may have been read before an open parenthesis. -/
def reduce (output : List Item) : Pending → Except Fault (List Item)
  | .sign s position =>
    match output with
    | .value operand :: rest => .ok (.value (.sign position s operand) :: rest)
    | _ => fault (.missingOperand s.spelling) position
  | .connective c position =>
    match output with
    | .value right :: .value left :: rest =>
      match c, left with
      | .operate op, _ => .ok (.value (.binary position op left right) :: rest)
      | .assign, .place target => .ok (.value (.assign target.note target right) :: rest)
      | .assign, _ => fault .invalidTarget position
    | _ => fault (.missingOperand c.spelling) position
  | .paren _ | .call _ _ => .ok output

/-- Applies the newest operators for as long as they yield. -/
def reduceWhile (yields : Nat → Bool) (output : List Item) : List Pending → Except Fault Yard
  | [] => .ok ⟨output, []⟩
  | top :: pending =>
    match top.precedence? with
    | some p =>
      if yields p then do reduceWhile yields (← reduce output top) pending
      else .ok ⟨output, top :: pending⟩
    | none => .ok ⟨output, top :: pending⟩

/-- Applies the operators down to the nearest parenthesis or call. -/
def settle (y : Yard) : Except Fault Yard := reduceWhile (fun _ => true) y.output y.pending

/-- Connectives group from the left and signs from the right. -/
def pushOperator (y : Yard) (operator : Pending) : Except Fault Yard := do
  let yields := match operator with
    | .connective c _ => fun p => c.precedence ≤ p
    | _ => fun p => Sign.precedence < p
  let y ← reduceWhile yields y.output y.pending
  return { y with pending := operator :: y.pending }

/-- The values above the newest call mark, in source order, and what lies below the mark. -/
def arguments : List Item → List (Expr Position) × List Item
  | [] => ([], [])
  | .callMark :: rest => ([], rest)
  | .value e :: rest =>
    let (newer, below) := arguments rest
    (newer ++ [e], below)

/-- Ends a group, and the call whose parenthesis it closes. -/
def close (y : Yard) (t : Token) : Except Fault Yard := do
  let y ← y.settle
  match y.pending with
  | .paren _ :: .call function position :: pending =>
    let (values, below) := arguments y.output
    return ⟨.value (.call position function values) :: below, pending⟩
  | .paren _ :: pending => return ⟨y.output, pending⟩
  | _ => unexpected t "matching '('"

/-- Ends an argument; the parenthesis around it stays open. -/
def separate (y : Yard) (t : Token) : Except Fault Yard := do
  let y ← y.settle
  match y.pending with
  | .paren _ :: _ => return y
  | _ => unexpected t "',' only between call arguments"

/-- Takes a token that is complete by itself, which names and opening brackets are not. -/
def take (y : Yard) (t : Token) : Except Fault Yard :=
  match t.form with
  | .int value => .ok (y.push (.int t.position value))
  | .float value => .ok (y.push (.float t.position value))
  | .bool value => .ok (y.push (.bool t.position value))
  | .string value => .ok (y.push (.string t.position value))
  | .call text => .ok ⟨.callMark :: y.output, .call text t.position :: y.pending⟩
  | .connective c => y.pushOperator (.connective c t.position)
  | .sign s => y.pushOperator (.sign s t.position)
  | .mark .openParen => .ok { y with pending := .paren t.position :: y.pending }
  | .mark .closeParen => y.close t
  | .mark .comma => y.separate t
  | _ => unexpected t "expression"

/-- Takes a pair of brackets behind a name or not. A single integer literal behind a plain
variable is an index; everything else is an array of its own. -/
def takeBrackets (y : Yard) (opener : Position) (behindName : Bool)
    (elements : List (Expr Position)) : Yard :=
  match behindName, elements, y.output with
  | true, [.int _ offset], .value (.place (.whole position name none)) :: output =>
    { y with output := .value (.place (.element position name offset)) :: output }
  | _, _, _ => y.push (.array opener elements)

/-- Applies all operators that are left; the line must come to exactly one value. -/
def finish (y : Yard) (start : Position) : Except Fault (Expr Position) := do
  let y ← y.settle
  match y.pending, y.output with
  | top :: _, _ => fault (.missingToken "')'") top.position
  | [], [.value e] => return e
  | [], _ => fault .notOneValue start

end Yard

/-- Splits at the bracket that closes the one before the tokens. Parentheses are not counted. -/
def closing? (depth : Nat) : List Token → Option (List Token × List Token)
  | [] => none
  | t :: rest =>
    match t.form, depth with
    | .mark .closeBracket, 0 => some ([], rest)
    | .mark .closeBracket, depth + 1 => (closing? depth rest).map fun p => (t :: p.1, p.2)
    | .mark .openBracket, depth => (closing? (depth + 1) rest).map fun p => (t :: p.1, p.2)
    | _, depth => (closing? depth rest).map fun p => (t :: p.1, p.2)

theorem length_of_closing? {depth : Nat} {ts inside after : List Token}
    (h : closing? depth ts = some (inside, after)) :
    inside.length + after.length + 1 = ts.length := by
  induction ts generalizing depth inside after with
  | nil => simp [closing?] at h
  | cons t rest ih =>
    unfold closing? at h
    split at h
    · simp_all
    all_goals
      obtain ⟨⟨i, a⟩, hp, he⟩ := Option.map_eq_some_iff.1 h
      simp only [Prod.mk.injEq] at he
      obtain ⟨rfl, rfl⟩ := he
      have := ih hp
      simp only [List.length_cons]
      omega

/-- How a token changes the depth at which commas separate elements. Brackets of both kinds
count alike. -/
def depthChange : Form → Int
  | .mark .openBracket | .mark .openParen => 1
  | .mark .closeBracket | .mark .closeParen => -1
  | _ => 0

/-- Splits at the commas of depth zero, into one part more than there are such commas. -/
def splitParts (depth : Int) : List Token → List (List Token)
  | [] => [[]]
  | t :: rest =>
    if t.form = .mark .comma && depth = 0 then [] :: splitParts depth rest
    else match splitParts (depth + depthChange t.form) rest with
      | [] => [[t]]
      | part :: parts => (t :: part) :: parts

/-- Tokens of all parts, and one more for each part. -/
def weight : List (List Token) → Nat
  | [] => 0
  | part :: parts => part.length + 1 + weight parts

theorem splitParts_ne_nil (depth : Int) (ts : List Token) : splitParts depth ts ≠ [] := by
  cases ts with
  | nil => simp [splitParts]
  | cons t rest =>
    unfold splitParts
    split
    · simp
    · split <;> simp

theorem weight_splitParts (depth : Int) (ts : List Token) :
    weight (splitParts depth ts) = ts.length + 1 := by
  induction ts generalizing depth with
  | nil => rfl
  | cons t rest ih =>
    unfold splitParts
    split
    · have := ih depth
      simp only [weight, List.length_nil, List.length_cons] at *
      omega
    · have := ih (depth + depthChange t.form)
      split
      · rename_i h; exact absurd h (splitParts_ne_nil _ _)
      · rename_i h
        rw [h] at this
        simp only [weight, List.length_cons] at *
        omega

/-- The elements between two brackets; nothing at all is no element, but no part of several may
be empty. -/
def elementParts (opener : Position) (inside : List Token) : Except Fault (List (List Token)) :=
  if inside.isEmpty then .ok []
  else
    let parts := splitParts 0 inside
    if parts.any (·.isEmpty) then fault .emptyElement opener else .ok parts

theorem weight_of_elementParts {opener : Position} {inside : List Token}
    {parts : List (List Token)} (h : elementParts opener inside = .ok parts) :
    weight parts ≤ inside.length + 1 := by
  simp only [elementParts, fault] at h
  split at h
  · cases h; simp [weight]
  · split at h <;> cases h
    exact Nat.le_of_eq (weight_splitParts 0 inside)

/-- The declared type that tokens behind a variable begin with, if any, and what follows it. -/
def typing? : List Token → Except Fault (Option TypeRef × List Token)
  | ⟨.mark .colon, _⟩ :: ⟨.typeName type, _⟩ :: rest => .ok (some ⟨type, false⟩, rest)
  | ⟨.mark .colon, _⟩ :: ⟨.arrayTypeName type, _⟩ :: rest => .ok (some ⟨type, true⟩, rest)
  | ⟨.mark .colon, colon⟩ :: _ => fault (.missingToken "type name after ':'") colon
  | rest => .ok (none, rest)

theorem length_of_typing? {ts rest : List Token} {a : Option TypeRef}
    (h : typing? ts = .ok (a, rest)) : rest.length ≤ ts.length := by
  unfold typing? fault at h
  split at h <;> simp_all <;> omega

def startOf (tokens : List Token) (otherwise : Position) : Position :=
  (tokens.head?.map (·.position)).getD otherwise

mutual
/-- Takes tokens from left to right. A declared type belongs to a variable only where no operator
and no parenthesis is open. -/
def run (behindName : Bool) (y : Yard) : List Token → Except Fault Yard
  | [] => .ok y
  | ⟨.name text, position⟩ :: rest =>
    if y.pending.isEmpty then
      match _annotated : typing? rest with
      | .error e => .error e
      | .ok (a, after) => run a.isNone (y.push (.place (.whole position text a))) after
    else run true (y.push (.place (.whole position text none))) rest
  | ⟨.mark .openBracket, opener⟩ :: rest =>
    match _closed : closing? 0 rest with
    | none => fault (.missingToken "']' before end of line") opener
    | some (inside, after) =>
      match _split : elementParts opener inside with
      | .error e => .error e
      | .ok parts => do
        let elements ← runParts opener parts
        run false (y.takeBrackets opener behindName elements) after
  | t :: rest => do run false (← y.take t) rest
termination_by ts => ts.length
decreasing_by
  · have := length_of_typing? _annotated
    simp only [List.length_cons]
    omega
  · simp
  · have := length_of_closing? _closed
    have := weight_of_elementParts _split
    simp only [List.length_cons]
    omega
  · have := length_of_closing? _closed
    simp only [List.length_cons]
    omega
  · simp

/-- Reads each part as an expression of its own. -/
def runParts (opener : Position) : List (List Token) → Except Fault (List (Expr Position))
  | [] => .ok []
  | part :: parts => do
    let y ← run false .empty part
    let e ← y.finish (startOf part opener)
    return e :: (← runParts opener parts)
termination_by parts => weight parts
decreasing_by
  · simp only [weight]; omega
  · simp only [weight]; omega
end

/-- The expression that a line of tokens makes up. The line must not be empty; where it stops is
given for that case. -/
def expression (stop : Position) (tokens : List Token) : Except Fault (Expr Position) :=
  match tokens with
  | [] => fault (.missingToken "expression") stop
  | first :: _ => do (← run false .empty tokens).finish first.position

end AlgoFrontEnd.Grammar
