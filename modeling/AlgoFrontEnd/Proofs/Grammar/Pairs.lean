import AlgoFrontEnd.Proofs.Grammar.Placement
import Mathlib.Algebra.Ring.Int.Defs

/-! The pairs of parentheses of a line and what stands between their commas: as the stack of values
grows while the line is read, and as the tokens of the line count. -/
namespace AlgoFrontEnd.Grammar
open Token (Form)

/-- A pair of parentheses: whether it belongs to a call, and how many values each of its segments
contributes. The commas of the pair separate the segments. -/
structure Pair where
  isCall : Bool
  segments : List Int
  deriving DecidableEq, Repr

/-- In the pair of a call each of several segments contributes an argument. Every other pair holds
exactly one value, and no comma. -/
def Pair.IsOrderly (p : Pair) : Prop :=
  (p.isCall = true → 2 ≤ p.segments.length → ∀ n ∈ p.segments, 1 ≤ n) ∧
    (p.isCall = false → p.segments = [1])

instance (p : Pair) : Decidable p.IsOrderly :=
  inferInstanceAs (Decidable
    ((p.isCall = true → 2 ≤ p.segments.length → ∀ n ∈ p.segments, 1 ≤ n) ∧
      (p.isCall = false → p.segments = [1])))

/-- A pair that is open: what there was before it, and what its segments up to the last comma
contribute, the newest first. -/
structure Opened where
  isCall : Bool
  before : Int
  ended : List Int
  deriving DecidableEq, Repr

namespace Opened

/-- A comma ends a segment that contributes so much. -/
def comma (o : Opened) (n : Int) : Opened := { o with ended := n :: o.ended }

def close (o : Opened) (n : Int) : Pair := ⟨o.isCall, (n :: o.ended).reverse⟩

end Opened

/-- The values above the newest call mark: those that its call would take. -/
def held (output : List Item) : Int := (Yard.arguments output).1.length

/-- What the newest segment of a pair contributes once so many values are held. -/
def Opened.gain (o : Opened) (n : Int) : Int := n - (o.before + o.ended.sum)

mutual
/-- A line is read to its end, and its pairs are given in the order in which they are closed. A
segment contributes what the stack of values has gained when all its operators are applied, at its
comma or at the closing parenthesis. Before the arguments of a call nothing is held. -/
inductive Gains : Bool → Yard → List Opened → List Token → List Pair → Prop
  | nil {b y} : Gains b y [] [] []
  | literal {b y os t v rest ps} : literal? t = some v → Gains false (y.push v) os rest ps →
      Gains b y os (t :: rest) ps
  | freeName {b y os text p rest type after ps} : y.pending = [] →
      typing? rest = .ok (type, after) →
      Gains type.isNone (y.push (.place (.whole p text type))) os after ps →
      Gains b y os (⟨.name text, p⟩ :: rest) ps
  | name {b y os text p rest ps} : y.pending ≠ [] →
      Gains true (y.push (.place (.whole p text none))) os rest ps →
      Gains b y os (⟨.name text, p⟩ :: rest) ps
  | brackets {b y os opener rest inside after parts elements ps qs} :
      closing? 0 rest = some (inside, after) → elementParts opener inside = .ok parts →
      runParts opener parts = .ok elements → GainsAll parts ps →
      Gains false (y.takeBrackets opener b elements) os after qs →
      Gains b y os (⟨.mark .openBracket, opener⟩ :: rest) (ps ++ qs)
  | connective {b y y' os c p rest ps} : y.pushOperator (.connective c p) = .ok y' →
      Gains false y' os rest ps → Gains b y os (⟨.connective c, p⟩ :: rest) ps
  | sign {b y y' os s p rest ps} : y.pushOperator (.sign s p) = .ok y' →
      Gains false y' os rest ps → Gains b y os (⟨.sign s, p⟩ :: rest) ps
  | openParen {b y os p rest ps} :
      Gains false ⟨y.output, .paren p :: y.pending⟩ (⟨false, held y.output, []⟩ :: os) rest ps →
      Gains b y os (⟨.mark .openParen, p⟩ :: rest) ps
  | call {b y os text o p rest ps} :
      Gains false ⟨.callMark :: y.output, .paren p :: .call text o :: y.pending⟩
        (⟨true, 0, []⟩ :: os) rest ps →
      Gains b y os (⟨.call text, o⟩ :: ⟨.mark .openParen, p⟩ :: rest) ps
  | comma {b y y' o os p rest ps} : y.separate ⟨.mark .comma, p⟩ = .ok y' →
      Gains false y' (o.comma (o.gain (held y'.output)) :: os) rest ps →
      Gains b y (o :: os) (⟨.mark .comma, p⟩ :: rest) ps
  | closeParen {b y settled y' o os p rest ps} : y.settle = .ok settled →
      y.close ⟨.mark .closeParen, p⟩ = .ok y' → Gains false y' os rest ps →
      Gains b y (o :: os) (⟨.mark .closeParen, p⟩ :: rest)
        (o.close (o.gain (held settled.output)) :: ps)

/-- The pairs of all parts of an array, each of which is read on its own. -/
inductive GainsAll : List (List Token) → List Pair → Prop
  | nil : GainsAll [] []
  | cons {part parts ps qs} : Gains false .empty [] part ps → GainsAll parts qs →
      GainsAll (part :: parts) (ps ++ qs)
end

/-- What is gained is gained on the way that the line is read. -/
theorem run_of_gains : ∀ {b : Bool} {y : Yard} {os : List Opened} {ts : List Token}
    {ps : List Pair}, Gains b y os ts ps → ∃ z, run b y ts = .ok z
  | b, y, _, _, _, .nil => ⟨y, run_nil b y⟩
  | _, _, _, _, _, .literal hv hg => by
    rw [run_literal hv]
    exact run_of_gains hg
  | _, _, _, _, _, .freeName hp ht hg => by
    rw [run_name_free _ hp ht]
    exact run_of_gains hg
  | _, _, _, _, _, .name hp hg => by
    rw [run_name_pending _ hp]
    exact run_of_gains hg
  | _, _, _, _, _, .brackets hc hp hr _ hg => by
    rw [run_brackets _ _ _ hc hp, hr]
    exact run_of_gains hg
  | _, _, _, _, _, .connective hp hg => by
    rw [run_connective _ hp]
    exact run_of_gains hg
  | _, _, _, _, _, .sign hp hg => by
    rw [run_sign _ hp]
    exact run_of_gains hg
  | _, _, _, _, _, .openParen hg => by
    rw [run_openParen]
    exact run_of_gains hg
  | _, _, _, _, _, .call hg => by
    rw [run_call, run_openParen]
    exact run_of_gains hg
  | _, _, _, _, _, .comma hs hg => by
    rw [run_comma _ hs]
    exact run_of_gains hg
  | _, _, _, _, _, .closeParen _ hc hg => by
    rw [run_closeParen _ hc]
    exact run_of_gains hg

/-- All pairs of a line are orderly. -/
def Disciplined (ts : List Token) : Prop :=
  ∃ ps, Gains false .empty [] ts ps ∧ ∀ p ∈ ps, p.IsOrderly

/-- What the row around a pair comes to once the pair has been closed behind a segment. -/
def Opened.after (o : Opened) (n : Int) : Int :=
  o.before + if o.isCall then 1 else n + o.ended.sum

mutual
/-- The pairs of a line counted on its tokens: a segment comes to its values less its connectives.
Signs, and a single integer in brackets behind a name, change nothing; a call is one value, and any
other pair as many as its segments. -/
def tally (behindName : Bool) (n : Int) (os : List Opened) : List Token → Option (List Pair)
  | [] => if os.isEmpty then some [] else none
  | ⟨.name _, _⟩ :: rest => tally true (n + 1) os rest
  | ⟨.mark .colon, _⟩ :: _ :: rest => tally false n os rest
  | ⟨.mark .openBracket, opener⟩ :: rest =>
    match _closed : closing? 0 rest with
    | none => none
    | some (inside, after) =>
      match _split : elementParts opener inside with
      | .error _ => none
      | .ok parts => do
        let ps ← tallyParts parts
        let n := if behindName && (offset? opener parts).isSome then n else n + 1
        return ps ++ (← tally false n os after)
  | ⟨.connective _, _⟩ :: rest => tally false (n - 1) os rest
  | ⟨.sign _, _⟩ :: rest => tally false n os rest
  | ⟨.call _, _⟩ :: ⟨.mark .openParen, _⟩ :: rest => tally false 0 (⟨true, n, []⟩ :: os) rest
  | ⟨.mark .openParen, _⟩ :: rest => tally false 0 (⟨false, n, []⟩ :: os) rest
  | ⟨.mark .comma, _⟩ :: rest =>
    match os with
    | [] => none
    | o :: os => tally false 0 (o.comma n :: os) rest
  | ⟨.mark .closeParen, _⟩ :: rest =>
    match os with
    | [] => none
    | o :: os => (tally false (o.after n) os rest).map (o.close n :: ·)
  | t :: rest => if (literal? t).isSome then tally false (n + 1) os rest else none
termination_by ts => ts.length
decreasing_by
  · simp
  · simp only [List.length_cons]
    omega
  · have := length_of_closing? _closed
    have := weight_of_elementParts _split
    simp only [List.length_cons]
    omega
  · have := length_of_closing? _closed
    simp only [List.length_cons]
    omega
  all_goals
    simp only [List.length_cons]
    omega

def tallyParts : List (List Token) → Option (List Pair)
  | [] => some []
  | part :: parts => do return (← tally false 0 [] part) ++ (← tallyParts parts)
termination_by parts => weight parts
decreasing_by
  · simp only [weight]; omega
  · simp only [weight]; omega
end

end AlgoFrontEnd.Grammar
