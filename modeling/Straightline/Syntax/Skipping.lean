import Straightline.Syntax.Arguments

/-!
# Skipping bodies

To declare a function it is enough to know where its body ends. The readers here go through the same
grammar as those of trees and keep nothing. They take every decision by the same heads, so that
a body that is skipped can be read later and ends at the same place.

Nesting is what a term and an `if` recurse on. `skipTermWithin` and `skipStatementWithin` take a
bound on it; every level of nesting takes a byte for its opening delimiter, so the number of bytes
left is a bound that is never reached.
-/

set_option autoImplicit false

namespace Straightline

namespace Scan

/-- Skips the operators on this line with their right operands, at most `bound` of them. -/
def skipStepsWithin (term : Scan Unit) : Nat → Scan Unit
  | 0 => throw .unexpectedEnd
  | bound + 1 => do
    if ← expressionContinues then
      discard operator
      skipToContent
      term
      skipStepsWithin term bound
    else return ()

/-- Skips an expression whose terms are skipped by `term`. -/
def skipExpressionOf (term : Scan Unit) : Scan Unit := do
  term
  bounded (skipStepsWithin term)

/-- Skips an argument list whose terms are skipped by `term`. -/
def skipArgumentsOf (term : Scan Unit) : Scan Unit :=
  discard <| arguments fun _ => do
    skipToContent
    skipExpressionOf term

/-- Skips a term in which calls are nested less than `depth` deep. -/
def skipTermWithin : Nat → Scan Unit
  | 0 => throw .unexpectedEnd
  | depth + 1 => do
    match ← termHead with
    | .word _ | .field _ _ => return ()
    | .call _ | .methodCall _ _ => skipArgumentsOf (skipTermWithin depth)

def skipTerm : Scan Unit := bounded skipTermWithin

def skipExpression : Scan Unit := skipExpressionOf skipTerm

/-- Skips the arguments of a call and their `)`. -/
def skipArguments : Scan Unit := skipArgumentsOf skipTerm

/-- Skips statements by `statement` and the brace that closes their block, at most `bound` of
them. -/
def skipLinesWithin (statement : Scan Unit) : Nat → Scan Unit
  | 0 => throw .unexpectedEnd
  | bound + 1 => do
    skipToContent
    if ← lookingAt Byte.closeBrace then advance
    else
      statement
      skipLinesWithin statement bound

/-- Skips a block whose opening brace has been read. -/
def skipBlockOf (statement : Scan Unit) : Scan Unit := bounded (skipLinesWithin statement)

/-- Skips what follows `if`: a condition, a block, and perhaps `else` with another block. Without
`else` the cursor stays right after the first block. -/
def skipCondOf (statement : Scan Unit) : Scan Unit := do
  skipToContent
  skipExpression
  skipToContent
  expect Byte.openBrace
  skipBlockOf statement
  let after ← get
  skipSpace true
  if (← word) = "else" then
    skipToContent
    expect Byte.openBrace
    skipBlockOf statement
  else set after

/-- Skips an equals sign and the expression after it. -/
def skipInitializer : Scan Unit := do
  skipToContent
  expect Byte.equals
  skipToContent
  skipExpression

/-- Skips a statement in which blocks are nested less than `depth` deep. -/
def skipStatementWithin : Nat → Scan Unit
  | 0 => throw .unexpectedEnd
  | depth + 1 => do
    skipToContent
    match ← statementHead with
    | .reserved .ret => if ← expressionContinues then skipExpression else return ()
    | .reserved .cond => skipCondOf (skipStatementWithin depth)
    | .call _ | .methodCall _ _ => skipArguments
    | .assignField _ _ => skipInitializer
    | .declare _ =>
      skipToContent
      discard nonemptyWord
      skipInitializer
    | .assign _ =>
      skipToContent
      skipExpression

def skipStatement : Scan Unit := bounded skipStatementWithin

/-- Skips statements and the brace that closes their block. -/
def skipBlock : Scan Unit := skipBlockOf skipStatement

/-- Reads the equals sign and the brace that begin a body. -/
def openBody : Scan Unit := do
  skipToContent
  expect Byte.equals
  skipToContent
  expect Byte.openBrace

/-- Skips a whole body with its braces. -/
def skipBody : Scan Unit := do
  openBody
  skipBlock

end Scan

end Straightline
