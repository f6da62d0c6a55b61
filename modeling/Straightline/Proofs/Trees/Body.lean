import Straightline.Syntax.Head

/-!
# Bodies of functions

A body as it was read. Every node keeps the offsets at which something may still be found wrong with
it: a term the offset after its head (`stop`), an argument list the offset after its `)` (`close`),
an argument the offset at which its value begins (`start`). That is enough to refuse a body later at
the very place where a reader would have stood.

Expressions have no precedence and no grouping: a first term, then operators with a term each, in
the order in which they are written.
-/

set_option autoImplicit false

namespace Straightline

mutual

/-- A single value. -/
inductive Term where
  /-- A literal or the name of a variable. -/
  | word (text : String) (stop : Nat)
  | field (target member : String) (stop : Nat)
  /-- A call of a function, or the literal of a declared type. -/
  | call (callee : String) (stop : Nat) (arguments : List Argument) (close : Nat)
  | methodCall (target member : String) (stop : Nat) (arguments : List Argument) (close : Nat)

/-- A first term, the steps that follow it, and the offset after them and the blanks behind them. -/
inductive Expression where
  | mk (first : Term) (steps : List Step) (stop : Nat)

/-- An operator, the offset after it, and its right operand. -/
inductive Step where
  | mk (operator : Operator) (stop : Nat) (operand : Term)

inductive Argument where
  | mk (label : String) (start : Nat) (value : Expression)

end

mutual

inductive Statement where
  /-- A `return`, with the offset at which its value begins; without a value, `stop` is the offset
  at which it was found missing. -/
  | ret (value : Option Expression) (start : Nat)
  | cond (stop : Nat) (condition : Expression) (thenBlock : Block) (elseBlock : Option Block)
  | call (callee : String) (stop : Nat) (arguments : List Argument) (close : Nat)
  | methodCall (target member : String) (stop : Nat) (arguments : List Argument) (close : Nat)
  | assignField (target member : String) (stop : Nat) (value : Expression)
  /-- Here `stop` is the offset after the name of the type. -/
  | declare (name typeName : String) (stop : Nat) (value : Expression)
  | assign (name : String) (stop : Nat) (value : Expression)

/-- Statements with the offsets at which they begin, and the offset after the closing brace. -/
inductive Block where
  | mk (statements : List Line) (close : Nat)

inductive Line where
  | mk (start : Nat) (statement : Statement)

end

namespace Expression

/-- The offset at which reading the expression ended. -/
def stop : Expression → Nat
  | mk _ _ stop => stop

end Expression

namespace Block

def close : Block → Nat
  | mk _ close => close

end Block

end Straightline
