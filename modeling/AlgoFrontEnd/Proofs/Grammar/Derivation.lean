import AlgoFrontEnd.Grammar.Expression

/-! Derivations of the infix grammar of expressions, with the tokens and the tree of each.
A level is the precedence of its operators, with assignment lowest and signs highest. -/
namespace AlgoFrontEnd.Grammar

/-- The level above all operators: literals, places, calls, arrays and parentheses. -/
def primaryLevel : Nat := Sign.precedence + 1

/-- A variable or an array element as it is written. A type can be declared only by the first
item of a line, which the flag stands for. -/
inductive Spot : Bool → Type where
  | plain {start : Bool} (text : String) (position : Position) : Spot start
  | typed (text : String) (type : TypeRef) (position colon last : Position) : Spot true
  | element {start : Bool} (text : String) (offset : Int)
      (position opener index closer : Position) : Spot start

/-- What an assignment stores to; parentheses around it mean nothing. -/
inductive Target : Bool → Type where
  | spot {start : Bool} (s : Spot start) : Target start
  | parens {start : Bool} (opener closer : Position) (inside : Target false) : Target start

mutual
/-- A derivation of a phrase at a level. The flag passes on to whatever begins a phrase, but
never into parentheses or brackets. -/
inductive Phrase : Bool → Nat → Type where
  | int {start : Bool} (value : Int) (position : Position) : Phrase start primaryLevel
  | float {start : Bool} (value : Float) (position : Position) : Phrase start primaryLevel
  | bool {start : Bool} (value : Bool) (position : Position) : Phrase start primaryLevel
  | string {start : Bool} (value : String) (position : Position) : Phrase start primaryLevel
  | spot {start : Bool} (s : Spot start) : Phrase start primaryLevel
  | call {start : Bool} (text : String) (position opener closer : Position)
      (arguments : Items) : Phrase start primaryLevel
  | array {start : Bool} (opener closer : Position) (elements : Items) : Phrase start primaryLevel
  | parens {start : Bool} (opener closer : Position) (inside : Phrase false 0) :
      Phrase start primaryLevel
  /-- Signs group from the right. -/
  | sign {start : Bool} (s : Sign) (position : Position) (operand : Phrase false Sign.precedence) :
      Phrase start Sign.precedence
  /-- Operators on two values group from the left. -/
  | binary {start : Bool} (op : BinaryOp) (position : Position) (left : Phrase start op.precedence)
      (right : Phrase false (op.precedence + 1)) : Phrase start op.precedence
  | assign {start : Bool} (position : Position) (target : Target start) (source : Phrase false 1) :
      Phrase start 0
  /-- Whatever binds tighter also stands where a looser phrase may. -/
  | tighter {start : Bool} {n : Nat} (phrase : Phrase start (n + 1)) : Phrase start n

/-- Any number of expressions. -/
inductive Items : Type where
  | none
  | some (items : Sequence)

/-- Expressions separated by commas, at least one. -/
inductive Sequence : Type where
  | one (item : Phrase false 0)
  | more (item : Phrase false 0) (comma : Position) (items : Sequence)
end

/-- The token of a written type. -/
def typeForm (type : TypeRef) : Token.Form :=
  if type.isArray then .arrayTypeName type.name else .typeName type.name

namespace Spot
variable {start : Bool}

def tokens : Spot start → List Token
  | plain text position => [⟨.name text, position⟩]
  | typed text type position colon last =>
    [⟨.name text, position⟩, ⟨.mark .colon, colon⟩, ⟨typeForm type, last⟩]
  | element text offset position opener index closer =>
    [⟨.name text, position⟩, ⟨.mark .openBracket, opener⟩, ⟨.int offset, index⟩,
      ⟨.mark .closeBracket, closer⟩]

def place : Spot start → Place Position
  | plain text position => .whole position text none
  | typed text type position _ _ => .whole position text (some type)
  | element text offset position _ _ _ => .element position text offset

end Spot

namespace Target
variable {start : Bool}

def tokens {start : Bool} : Target start → List Token
  | spot s => s.tokens
  | parens opener closer inside =>
    ⟨.mark .openParen, opener⟩ :: inside.tokens ++ [⟨.mark .closeParen, closer⟩]

def place {start : Bool} : Target start → Place Position
  | spot s => s.place
  | parens _ _ inside => inside.place

end Target

mutual
def Phrase.tokens {start : Bool} {n : Nat} : Phrase start n → List Token
  | .int value position => [⟨.int value, position⟩]
  | .float value position => [⟨.float value, position⟩]
  | .bool value position => [⟨.bool value, position⟩]
  | .string value position => [⟨.string value, position⟩]
  | .spot s => s.tokens
  | .call text position opener closer arguments =>
    ⟨.call text, position⟩ :: ⟨.mark .openParen, opener⟩ :: arguments.tokens ++
      [⟨.mark .closeParen, closer⟩]
  | .array opener closer elements =>
    ⟨.mark .openBracket, opener⟩ :: elements.tokens ++ [⟨.mark .closeBracket, closer⟩]
  | .parens opener closer inside =>
    ⟨.mark .openParen, opener⟩ :: inside.tokens ++ [⟨.mark .closeParen, closer⟩]
  | .sign s position operand => ⟨.sign s, position⟩ :: operand.tokens
  | .binary op position left right =>
    left.tokens ++ ⟨.connective (.operate op), position⟩ :: right.tokens
  | .assign position target source =>
    target.tokens ++ ⟨.connective .assign, position⟩ :: source.tokens
  | .tighter phrase => phrase.tokens

def Items.tokens : Items → List Token
  | .none => []
  | .some items => items.tokens

def Sequence.tokens : Sequence → List Token
  | .one item => item.tokens
  | .more item comma items => item.tokens ++ ⟨.mark .comma, comma⟩ :: items.tokens
end

mutual
/-- The tree of a derivation. Parentheses leave no node. -/
def Phrase.tree {start : Bool} {n : Nat} : Phrase start n → Expr Position
  | .int value position => .int position value
  | .float value position => .float position value
  | .bool value position => .bool position value
  | .string value position => .string position value
  | .spot s => .place s.place
  | .call text position _ _ arguments => .call position text arguments.trees
  | .array opener _ elements => .array opener elements.trees
  | .parens _ _ inside => inside.tree
  | .sign s position operand => .sign position s operand.tree
  | .binary op position left right => .binary position op left.tree right.tree
  | .assign _ target source => .assign target.place.note target.place source.tree
  | .tighter phrase => phrase.tree

def Items.trees : Items → List (Expr Position)
  | .none => []
  | .some items => items.trees

def Sequence.trees : Sequence → List (Expr Position)
  | .one item => [item.tree]
  | .more item _ items => item.tree :: items.trees
end

end AlgoFrontEnd.Grammar
