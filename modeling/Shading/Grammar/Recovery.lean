import Shading.Grammar.Production

/-! # Going on after a problem

When something cannot be read, tokens are skipped up to a place where reading can go on.  Brackets
opened while skipping are skipped with all that is in them, so each function counts how many are
open. -/

namespace Shading.Grammar

open Production

/-- An opening bracket of any shape. -/
def isOpener (t : Token) : Bool := t.isSymbol '(' || t.isSymbol '[' || t.isSymbol '{'

/-- A closing bracket of any shape. -/
def isCloser (t : Token) : Bool := t.isSymbol ')' || t.isSymbol ']' || t.isSymbol '}'

/-- What follows the bracketed group at the front, when `depth` brackets are already open. -/
def afterGroup (depth : Nat) : List Token → List Token
  | [] => []
  | t :: rest =>
    if isOpener t then afterGroup (depth + 1) rest
    else if isCloser t then if depth ≤ 1 then rest else afterGroup (depth - 1) rest
    else afterGroup depth rest

/-- What follows an expression: from a closing bracket, semicolon or comma outside the brackets
opened since. -/
def afterExpression (depth : Nat) : List Token → List Token
  | [] => []
  | t :: rest =>
    if isOpener t then afterExpression (depth + 1) rest
    else if isCloser t then if depth = 0 then t :: rest else afterExpression (depth - 1) rest
    else if depth = 0 ∧ (t.isSymbol ';' ∨ t.isSymbol ',') then t :: rest
    else afterExpression depth rest

/-- The tokens from the given closing bracket on, or from a brace or semicolon if one comes first,
outside the round and square brackets opened since. -/
def fromCloser (closer : Char) (depth : Nat) : List Token → List Token
  | [] => []
  | t :: rest =>
    if depth = 0 ∧ (t.isSymbol closer ∨ t.isSymbol '{' ∨ t.isSymbol '}' ∨ t.isSymbol ';') then
      t :: rest
    else if t.isSymbol '(' ∨ t.isSymbol '[' then fromCloser closer (depth + 1) rest
    else if t.isSymbol ')' ∨ t.isSymbol ']' then fromCloser closer (depth - 1) rest
    else fromCloser closer depth rest

/-- What follows a statement that cannot be read: past the next semicolon, or from the closing
brace of the block, outside the brackets opened since. -/
def afterStatement (depth : Nat) : List Token → List Token
  | [] => []
  | t :: rest =>
    if depth = 0 ∧ t.isSymbol ';' then rest
    else if depth = 0 ∧ t.isSymbol '}' then t :: rest
    else if isOpener t then afterStatement (depth + 1) rest
    else if isCloser t then afterStatement (depth - 1) rest
    else afterStatement depth rest

/-- What follows a declaration that cannot be read: past the next semicolon outside braces, or past
the brace that closes the outermost one. -/
def afterDeclaration (depth : Nat) : List Token → List Token
  | [] => []
  | t :: rest =>
    if t.isSymbol '{' then afterDeclaration (depth + 1) rest
    else if t.isSymbol '}' then if depth ≤ 1 then rest else afterDeclaration (depth - 1) rest
    else if depth = 0 ∧ t.isSymbol ';' then rest
    else afterDeclaration depth rest

/-- Skips to a closing bracket, or to a brace or semicolon before it. -/
def skipToCloser (closer : Char) : Production Unit := leave (fromCloser closer 0)

/-- Ends a bracketed list: reads the closing bracket, after reporting what is missing and skipping
to the bracket if need be. -/
def closeList (closer : Char) (missing : Problem) (complete : Bool) : Production Unit := do
  if !complete then
    report missing
    skipToCloser closer
  else if !(← atSymbol closer) then
    report (.expectedSymbol closer)
    skipToCloser closer
  let _ ← accept closer

/-! ### Nesting -/

/-- How deeply statements, braced lists and expressions may nest. -/
def nestingLimit : Nat := 64

/-- Reports that nesting is too deep and passes over what is nested. -/
def tooDeep (rest : List Token → List Token) : Production Node := do
  report .tooDeep
  let node ← standIn
  leave rest
  return node

end Shading.Grammar
