/-! Operators, their spellings and how tightly they bind. -/
namespace AlgoFrontEnd

/-- Operators that combine two values into one. -/
inductive BinaryOp where
  | add | subtract | multiply | divide | modulo
  | equal | notEqual | less | greater | lessEq | greaterEq
  deriving DecidableEq, Repr

def BinaryOp.isComparison : BinaryOp → Bool
  | equal | notEqual | less | greater | lessEq | greaterEq => true
  | _ => false

def BinaryOp.spelling : BinaryOp → String
  | add => "+"
  | subtract => "-"
  | multiply => "*"
  | divide => "/"
  | modulo => "%"
  | equal => "=="
  | notEqual => "!="
  | less => "<"
  | greater => ">"
  | lessEq => "<="
  | greaterEq => ">="

/-- Multiplication and division bind tightest, then the remainder, sums and comparisons. -/
def BinaryOp.precedence : BinaryOp → Nat
  | multiply | divide => 4
  | modulo => 3
  | add | subtract => 2
  | equal | notEqual | less | greater | lessEq | greaterEq => 1

/-- What may stand between two operands: assignment or an operator on values. -/
inductive Connective where
  | assign
  | operate (op : BinaryOp)
  deriving DecidableEq, Repr

namespace Connective

def spelling : Connective → String
  | assign => "<-"
  | operate op => op.spelling

def precedence : Connective → Nat
  | assign => 0
  | operate op => op.precedence

def isComparison : Connective → Bool
  | assign => false
  | operate op => op.isComparison

def isArithmetic : Connective → Bool
  | assign => false
  | operate op => !op.isComparison

def all : List Connective :=
  [operate .add, operate .subtract, operate .multiply, operate .divide, operate .modulo,
    operate .equal, operate .notEqual, operate .less, operate .greater, operate .lessEq,
    operate .greaterEq, assign]

def ofSpelling? (text : String) : Option Connective := all.find? (·.spelling = text)

end Connective

/-- Operators on a single operand. -/
inductive Sign where
  | positive
  | negate
  deriving DecidableEq, Repr

namespace Sign

def spelling : Sign → String
  | positive => "+"
  | negate => "-"

/-- A sign binds tighter than every connective. -/
def precedence : Nat := 5

def ofSpelling? (text : String) : Option Sign := [positive, negate].find? (·.spelling = text)

end Sign

theorem Connective.precedence_lt_sign (c : Connective) : c.precedence < Sign.precedence := by
  cases c with
  | assign => decide
  | operate op => cases op <;> decide

end AlgoFrontEnd
