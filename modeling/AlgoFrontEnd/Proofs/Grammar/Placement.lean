import AlgoFrontEnd.Proofs.Grammar.Steps

/-! Lines in which every operator stands where its operands are, and a scan that finds them. -/
namespace AlgoFrontEnd.Grammar
open Token (Form)

/-- The value of a token that is a literal. -/
def literal? (t : Token) : Option (Expr Position) :=
  match t.form with
  | .int value => some (.int t.position value)
  | .float value => some (.float t.position value)
  | .bool value => some (.bool t.position value)
  | .string value => some (.string t.position value)
  | _ => none

theorem name_ne_of_literal? {t : Token} {v : Expr Position} (h : literal? t = some v) :
    ∀ text, t.form ≠ .name text := by
  intro text ht
  simp [literal?, ht] at h

theorem run_literal {t : Token} {v : Expr Position} (h : literal? t = some v) (b : Bool) (y : Yard)
    (rest : List Token) : run b y (t :: rest) = run false (y.push v) rest := by
  have ho : t.form ≠ .mark .openBracket := by
    intro ho
    simp [literal?, ho] at h
  refine run_of_take b (name_ne_of_literal? h) ho ?_ rest
  obtain ⟨form, p⟩ := t
  cases form <;> simp_all [literal?, Yard.take]

/-- The value of a connective between two operands. Only a place can be assigned to. -/
def applied? (k : Connective) (p : Position) (left right : Expr Position) :
    Option (Expr Position) :=
  match k, left with
  | .operate op, _ => some (.binary p op left right)
  | .assign, .place target => some (.assign target.note target right)
  | .assign, _ => none

/-- The offset meant by the parts between two brackets, if they come to a single integer. -/
def offset? (opener : Position) (parts : List (List Token)) : Option Int :=
  match runParts opener parts with
  | .ok [.int _ offset] => some offset
  | _ => none

def endsInName (ts : List Token) : Bool :=
  match ts.getLast? with
  | some ⟨.name _, _⟩ => true
  | _ => false

mutual
/-- A row of values side by side with all operators in place: a sign takes the last value behind
it, and a connective the value in front of it and the one behind it. All tokens of the operands
stand in the same row as the operator. Since the newest values are taken first, a second value
behind a connective would take the place of the one in front. Once a connective has been read the
row is chained, and its last operand ends it. Nothing is said about precedence. -/
inductive Row : Bool → List Token → List (Expr Position) → Prop
  | nil : Row false [] []
  | literal {ts es t v} : Row false ts es → literal? t = some v →
      Row false (ts ++ [t]) (es ++ [v])
  | name {ts es text p typing type} : Row false ts es → typing? typing = .ok (type, []) →
      Row false (ts ++ ⟨.name text, p⟩ :: typing) (es ++ [.place (.whole p text type)])
  | index {ts es text p opener inside closer parts offset} : Row false ts es →
      closing? 0 (inside ++ [closer]) = some (inside, []) →
      elementParts opener inside = .ok parts → offset? opener parts = some offset →
      Row false
        (ts ++ ⟨.name text, p⟩ :: ⟨.mark .openBracket, opener⟩ :: (inside ++ [closer]))
        (es ++ [.place (.element p text offset)])
  | array {ts es opener inside closer parts elements} : Row false ts es →
      closing? 0 (inside ++ [closer]) = some (inside, []) →
      elementParts opener inside = .ok parts → Parts parts elements →
      (endsInName ts = true → offset? opener parts = none) →
      Row false (ts ++ ⟨.mark .openBracket, opener⟩ :: (inside ++ [closer]))
        (es ++ [.array opener elements])
  | group {ts es us fs p q} : Row false ts es → Rows us fs →
      Row false (ts ++ ⟨.mark .openParen, p⟩ :: (us ++ [⟨.mark .closeParen, q⟩])) (es ++ fs)
  | call {ts es text o us fs p q} : Row false ts es → Rows us fs →
      Row false
        (ts ++ ⟨.call text, o⟩ :: ⟨.mark .openParen, p⟩ :: (us ++ [⟨.mark .closeParen, q⟩]))
        (es ++ [.call o text fs])
  | sign {ts es s p us fs x} : Row false ts es → Row false us (fs ++ [x]) →
      Row false (ts ++ ⟨.sign s, p⟩ :: us) (es ++ (fs ++ [.sign p s x]))
  | connective {c d ts es l k p us r e} : Row c ts (es ++ [l]) → Row d us [r] →
      applied? k p l r = some e → Row true (ts ++ ⟨.connective k, p⟩ :: us) (es ++ [e])

/-- Rows between the same parentheses, separated by commas. -/
inductive Rows : List Token → List (Expr Position) → Prop
  | single {c ts es} : Row c ts es → Rows ts es
  | comma {c ts es p us fs} : Rows ts es → Row c us fs →
      Rows (ts ++ ⟨.mark .comma, p⟩ :: us) (es ++ fs)

/-- Parts between the same brackets, each of which comes to one value. -/
inductive Parts : List (List Token) → List (Expr Position) → Prop
  | nil : Parts [] []
  | cons {c ts e parts es} : Row c ts [e] → Parts parts es → Parts (ts :: parts) (e :: es)
end

/-- A line comes to one value with all operators in place. -/
def InPlace (ts : List Token) (e : Expr Position) : Prop := ∃ c, Row c ts [e]

/-- A row that is scanned: the values behind its newest connective, or all if there is none, and
those that stay in front of the operands. A sign is owed the value behind it. -/
structure Scan where
  before : Nat
  count : Nat
  chained : Bool
  owed : Bool
  deriving DecidableEq, Repr

namespace Scan

def start : Scan := ⟨0, 0, false, false⟩

def total (s : Scan) : Nat := s.before + s.count

def add (n : Nat) (s : Scan) : Scan :=
  { s with count := s.count + n, owed := s.owed && n == 0 }

/-- Exactly one value stands behind the newest connective, and some value behind every sign. -/
def isComplete (s : Scan) : Bool := (!s.chained || s.count == 1) && !s.owed

def sign (s : Scan) : Scan := { s with owed := true }

/-- A connective needs a complete row with a value in front of it. -/
def connective? (s : Scan) : Option Scan :=
  if s.isComplete && 1 ≤ s.count then some ⟨s.total - 1, 0, true, false⟩ else none

end Scan

/-- Parentheses that are open while a row is scanned: the row around them, whether they belong to a
call, and the values of the rows before the last comma. -/
structure Enclosing where
  around : Scan
  isCall : Bool
  done : Nat
  deriving DecidableEq, Repr

namespace Enclosing

/-- The row around the parentheses once they have been closed behind a row. -/
def close (e : Enclosing) (s : Scan) : Scan :=
  e.around.add (if e.isCall then 1 else e.done + s.total)

def comma (e : Enclosing) (s : Scan) : Enclosing := { e with done := e.done + s.total }

end Enclosing

mutual
/-- Whether operands and operators of a line alternate as they must for all operators to be in
place. Only numbers of values are looked at, and precedence plays no part. -/
def alternates (behindName : Bool) (s : Scan) (outer : List Enclosing) : List Token → Bool
  | [] => outer.isEmpty && s.isComplete
  | ⟨.name _, _⟩ :: rest =>
    match _annotated : typing? rest with
    | .error _ => false
    | .ok (a, after) => alternates a.isNone (s.add 1) outer after
  | ⟨.mark .openBracket, opener⟩ :: rest =>
    match _closed : closing? 0 rest with
    | none => false
    | some (inside, after) =>
      match _split : elementParts opener inside with
      | .error _ => false
      | .ok parts =>
        if behindName && (offset? opener parts).isSome then alternates false s outer after
        else partsAlternate parts && alternates false (s.add 1) outer after
  | ⟨.call _, _⟩ :: ⟨.mark .openParen, _⟩ :: rest =>
    alternates false .start (⟨s, true, 0⟩ :: outer) rest
  | ⟨.mark .openParen, _⟩ :: rest => alternates false .start (⟨s, false, 0⟩ :: outer) rest
  | ⟨.mark .closeParen, _⟩ :: rest =>
    match outer with
    | [] => false
    | e :: outer => s.isComplete && alternates false (e.close s) outer rest
  | ⟨.mark .comma, _⟩ :: rest =>
    match outer with
    | [] => false
    | e :: outer => s.isComplete && alternates false .start (e.comma s :: outer) rest
  | ⟨.connective _, _⟩ :: rest =>
    match s.connective? with
    | none => false
    | some s => alternates false s outer rest
  | ⟨.sign _, _⟩ :: rest => alternates false s.sign outer rest
  | t :: rest => (literal? t).isSome && alternates false (s.add 1) outer rest
termination_by ts => ts.length
decreasing_by
  · have := length_of_typing? _annotated
    simp only [List.length_cons]
    omega
  · have := length_of_closing? _closed
    simp only [List.length_cons]
    omega
  · have := length_of_closing? _closed
    have := weight_of_elementParts _split
    simp only [List.length_cons]
    omega
  · have := length_of_closing? _closed
    simp only [List.length_cons]
    omega
  all_goals
    simp only [List.length_cons]
    omega

def partsAlternate : List (List Token) → Bool
  | [] => true
  | part :: parts => alternates false .start [] part && partsAlternate parts
termination_by parts => weight parts
decreasing_by
  · simp only [weight]; omega
  · simp only [weight]; omega
end

end AlgoFrontEnd.Grammar
