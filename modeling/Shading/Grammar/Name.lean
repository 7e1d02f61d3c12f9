import Shading.Grammar.Recovery

/-! # Names, types and lists -/

namespace Shading.Grammar

open Production

/-! ### Lists with commas -/

/-- A list being read: what it holds so far, and whether an item was found wherever one was due. -/
structure Items where
  nodes : List Node := []
  complete : Bool := true

/-- Reads one item, and a comma if another item is to follow. -/
def nextItem (item : Production (Option Node)) (items : Items) : Production (Turn Items) := do
  match ← item with
  | none => return .done { items with complete := false }
  | some node =>
    let items := { items with nodes := items.nodes ++ [node] }
    if ← accept ',' then return .again items else return .done items

/-- Reads items with commas between them, up to the first place where an item is missing. -/
def separated (item : Production (Option Node)) : Production Items := repeatWhile (nextItem item) {}

/-- Items in parentheses, with the opening one next. -/
def listed (kind : NodeKind) (missing : Problem) (item : Production (Option Node)) : Production Node := do
  let token ← take
  let items ← if ← atSymbol ')' then pure {} else separated item
  closeList ')' missing items.complete
  return .mk kind token items.nodes

/-! ### Names -/

/-- The words that cannot be names. -/
def keywords : List String := ["return", "in", "out", "inout", "const", "uniform", "true", "false"]

/-- The words that qualify a type. -/
def qualifiers : List String := ["in", "out", "inout", "const", "uniform"]

/-- The token can be a name. -/
def isName (t : Token) : Bool := t.kind == .identifier && !keywords.contains t.text

/-- The token is a type qualifier. -/
def isQualifier (t : Token) : Bool := t.kind == .identifier && qualifiers.contains t.text

/-- A name. -/
def identifier : Production (Option Node) := do
  return (← takeIf isName).map (Node.leaf .identifier)

/-- Type qualifiers, as many as there are. -/
def typeQualifiers : Production (List Node) := do
  let words := (← tokensLeft).takeWhile isQualifier
  skip words.length
  return words.map (Node.leaf .typeQualifier)

/-- Type arguments in angle brackets; nothing if they cannot be read. -/
def typeArguments (item : Production (Option Node)) : Production (Option (List Node)) :=
  rewinding do
    if !(← accept '<') then return none
    let items ← separated item
    if !items.complete then return none
    if ← accept '>' then return some items.nodes else return none

/-- A type name with up to `levels` levels of arguments in angle brackets.  If the arguments cannot
be read, the type is the bare name. -/
def typenameWithin : (levels : Nat) → Production (Option Node)
  | 0 => do return (← takeIf isName).map (Node.leaf .typename)
  | levels + 1 => do
    match ← takeIf isName with
    | none => return none
    | some name =>
      let arguments ← typeArguments (typenameWithin levels)
      return some (.mk .typename name (arguments.getD []))

/-- A type name. -/
def typename : Production (Option Node) := typenameWithin nestingLimit

end Shading.Grammar
