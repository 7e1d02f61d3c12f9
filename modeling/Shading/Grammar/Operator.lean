import Shading.Token.Basic

/-! # Operators

An operator is one symbol token, or two of them that stand side by side. -/

namespace Shading.Grammar

/-- The operators written with two symbols. -/
def joinedOperators : List String := ["||", "&&", "==", "!=", "<=", ">="]

/-- How tightly a binary operator binds, from one for the loosest. -/
def precedence? : String → Option Nat
  | "||" => some 1
  | "&&" => some 2
  | "==" | "!=" => some 3
  | "<" | ">" | "<=" | ">=" => some 4
  | "+" | "-" => some 5
  | "*" | "/" | "%" => some 6
  | _ => none

/-- The number of precedence levels. -/
def precedenceLevels : Nat := 6

/-- The second token stands right behind the first, in the same file. -/
def adjacent (first second : Token) : Bool :=
  first.span.last.file == second.span.start.file &&
    following first.span.last.index == second.span.start.index

/-- Two tokens as one. -/
def joinTokens (first second : Token) : Token :=
  ⟨first.kind, first.span.merge second.span, first.text ++ second.text⟩

/-- The operator at the front of the tokens, and the number of tokens it takes. -/
def operator? : List Token → Option (Token × Nat)
  | [] => none
  | [first] => if first.kind = .symbol then some (first, 1) else none
  | first :: second :: _ =>
    if first.kind ≠ .symbol then none
    else if second.kind = .symbol ∧ adjacent first second ∧
        joinedOperators.contains (first.text ++ second.text) then
      some (joinTokens first second, 2)
    else some (first, 1)

/-- The operator at the front of the tokens, if it is a binary one that binds at least as tightly
as `least`: its token, its width and its precedence. -/
def binaryOperator? (least : Nat) (tokens : List Token) : Option (Token × Nat × Nat) := do
  let (token, width) ← operator? tokens
  let precedence ← precedence? token.text
  if precedence < least then none else some (token, width, precedence)

end Shading.Grammar
