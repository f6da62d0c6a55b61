import Straightline.Syntax.Arguments
import Straightline.Proofs.Trees.Body

/-!
# Reading bodies

The readers of terms, expressions, statements and blocks as trees. They know no names: whatever is
declared, the same bytes are read as the same tree. What a tree means, and whether it means
anything, is found when instructions are made from it.

Nesting is bounded as it is where bodies are skipped.
-/

set_option autoImplicit false

namespace Straightline

namespace Scan

/-- Reads the operators on this line with their right operands, at most `bound` of them. -/
def stepsWithin (term : Scan Term) : Nat → Scan (List Step)
  | 0 => throw .unexpectedEnd
  | bound + 1 => do
    if ← expressionContinues then
      let operator ← operator
      let stop ← offset
      skipToContent
      let operand ← term
      let others ← stepsWithin term bound
      return .mk operator stop operand :: others
    else return []

/-- Reads an expression whose terms are read by `term`. -/
def expressionOf (term : Scan Term) : Scan Expression := do
  let first ← term
  let steps ← bounded (stepsWithin term)
  let stop ← offset
  return .mk first steps stop

/-- Reads an argument list whose terms are read by `term`. -/
def argumentsOf (term : Scan Term) : Scan (List Argument) := do
  let elements ← arguments fun _ => do
    let start ← offset
    skipToContent
    let value ← expressionOf term
    return (start, value)
  return elements.map fun element => .mk element.1 element.2.1 element.2.2

/-- Reads a term in which calls are nested less than `depth` deep. -/
def termWithin : Nat → Scan Term
  | 0 => throw .unexpectedEnd
  | depth + 1 => do
    let head ← termHead
    let stop ← offset
    match head with
    | .word text => return .word text stop
    | .field target member => return .field target member stop
    | .call callee =>
      let arguments ← argumentsOf (termWithin depth)
      return .call callee stop arguments (← offset)
    | .methodCall target member =>
      let arguments ← argumentsOf (termWithin depth)
      return .methodCall target member stop arguments (← offset)

def term : Scan Term := bounded termWithin

def expression : Scan Expression := expressionOf term

/-- Reads the arguments of a call up to and including the `)`. -/
def callArguments : Scan (List Argument) := argumentsOf term

/-- Reads statements by `statement` up to and including the brace that closes their block, at most
`bound` of them. -/
def linesWithin (statement : Scan Statement) : Nat → Scan (List Line)
  | 0 => throw .unexpectedEnd
  | bound + 1 => do
    skipToContent
    if ← lookingAt Byte.closeBrace then
      advance
      return []
    else
      let start ← offset
      let first ← statement
      let others ← linesWithin statement bound
      return .mk start first :: others

/-- Reads a block whose opening brace has been read. -/
def blockOf (statement : Scan Statement) : Scan Block := do
  let lines ← bounded (linesWithin statement)
  return .mk lines (← offset)

/-- Reads what follows `if`: a condition, a block, and perhaps `else` with another block. Without
`else` the cursor stays right after the first block. -/
def condOf (statement : Scan Statement) : Scan Statement := do
  let stop ← offset
  skipToContent
  let condition ← expression
  skipToContent
  expect Byte.openBrace
  let thenBlock ← blockOf statement
  let after ← get
  skipSpace true
  if (← word) = "else" then
    skipToContent
    expect Byte.openBrace
    let elseBlock ← blockOf statement
    return .cond stop condition thenBlock (some elseBlock)
  else
    set after
    return .cond stop condition thenBlock none

/-- Reads what follows `return`: a value, if the line goes on. -/
def retOf : Scan Statement := do
  if ← expressionContinues then
    let start ← offset
    let value ← expression
    return .ret (some value) start
  else
    return .ret none (← offset)

/-- Reads an equals sign and the expression after it. -/
def initializer : Scan Expression := do
  skipToContent
  expect Byte.equals
  skipToContent
  expression

/-- Reads a statement in which blocks are nested less than `depth` deep. -/
def statementWithin : Nat → Scan Statement
  | 0 => throw .unexpectedEnd
  | depth + 1 => do
    skipToContent
    match ← statementHead with
    | .reserved .ret => retOf
    | .reserved .cond => condOf (statementWithin depth)
    | .call callee =>
      let stop ← offset
      let arguments ← callArguments
      return .call callee stop arguments (← offset)
    | .methodCall target member =>
      let stop ← offset
      let arguments ← callArguments
      return .methodCall target member stop arguments (← offset)
    | .assignField target member =>
      let stop ← offset
      return .assignField target member stop (← initializer)
    | .declare name =>
      skipToContent
      let typeName ← nonemptyWord
      let stop ← offset
      return .declare name typeName stop (← initializer)
    | .assign name =>
      let stop ← offset
      skipToContent
      return .assign name stop (← expression)

def statement : Scan Statement := bounded statementWithin

/-- Reads statements up to and including the brace that closes their block. -/
def block : Scan Block := blockOf statement

end Scan

end Straightline
