import Shading.Proofs.Grammar.Phrases
import Shading.Proofs.Grammar.Syntax

/-! # Tokens as they are written

`Lexeme.ofTokens` keeps of a token list what is written and which symbols make up one operator.  What
productions look at depends on nothing else, so a condition on the next token can be read off the
next lexeme (`head?_any_eq_begins`), and an operator is found where its lexemes are
(`operator?_lexemes`). -/

namespace Shading

open Grammar

namespace Lexeme

/-- Two symbols side by side that make up one operator. -/
def joins (first second : Token) : Bool :=
  first.kind == .symbol && second.kind == .symbol && adjacent first second &&
    joinedOperators.contains (first.text ++ second.text)

/-- How tokens are written. -/
def ofTokens : List Token → List Lexeme
  | [] => []
  | t :: rest => ⟨t.kind, t.text, rest.head?.any (joins t)⟩ :: ofTokens rest

variable {tokens rest : List Token} {more : List Lexeme}

@[simp] theorem length_ofTokens (tokens : List Token) : (ofTokens tokens).length = tokens.length := by
  induction tokens with
  | nil => rfl
  | cons t rest ih => simp [ofTokens, ih]

/-- What is left after some lexemes is shorter by their number. -/
theorem length_eq_add {written : List Lexeme} (hw : ofTokens tokens = written ++ more)
    (hrest : ofTokens rest = more) : tokens.length = written.length + rest.length := by
  rw [← length_ofTokens tokens, hw, List.length_append, ← hrest, length_ofTokens]

theorem ofTokens_eq_nil : ofTokens tokens = [] ↔ tokens = [] := by
  rw [← List.length_eq_zero_iff, length_ofTokens, List.length_eq_zero_iff]

theorem ofTokens_eq_cons {l : Lexeme} :
    ofTokens tokens = l :: more ↔
      ∃ t rest, tokens = t :: rest ∧ t.kind = l.kind ∧ t.text = l.text ∧
        rest.head?.any (joins t) = l.joined ∧ ofTokens rest = more := by
  cases tokens with
  | nil => simp [ofTokens]
  | cons t rest =>
      obtain ⟨kind, text, joined⟩ := l
      simp [ofTokens, and_assoc]

@[simp] theorem enclosed_append (opening closing : Char) (inner more : List Lexeme) :
    enclosed opening closing inner ++ more = symbol opening :: (inner ++ symbol closing :: more) := by
  simp [enclosed]

/-! ### What comes first -/

/-- A token that is written as the lexeme. -/
def token (l : Lexeme) : Token := ⟨l.kind, Span.origin, l.text⟩

/-- There is a first lexeme, and it satisfies a condition on tokens. -/
def begins (condition : Token → Bool) (lexemes : List Lexeme) : Bool :=
  lexemes.head?.any fun l => condition l.token

/-- A condition that does not look at places holds of the next token if it holds of the next
lexeme. -/
theorem head?_any_eq_begins {condition : Token → Bool}
    (hplace : ∀ t, condition ⟨t.kind, Span.origin, t.text⟩ = condition t) (tokens : List Token) :
    tokens.head?.any condition = begins condition (ofTokens tokens) := by
  cases tokens with
  | nil => rfl
  | cons t rest => exact (hplace t).symm

theorem exists_head_of_begins {condition : Token → Bool} {lexemes : List Lexeme}
    (h : begins condition lexemes = true) :
    ∃ l more, lexemes = l :: more ∧ condition l.token = true := by
  cases lexemes with
  | nil => cases h
  | cons l more => exact ⟨l, more, rfl, h⟩

/-- What is known of the first lexeme holds whatever else follows. -/
theorem begins_append {condition implied : Token → Bool} {value : Bool} {lexemes : List Lexeme}
    (himp : ∀ t, condition t = true → implied t = value) (h : begins condition lexemes = true)
    (more : List Lexeme) : begins implied (lexemes ++ more) = value := by
  obtain ⟨l, rest, rfl, hl⟩ := exists_head_of_begins h
  exact himp _ hl

theorem exists_symbol {c : Char} (h : ofTokens tokens = symbol c :: more) :
    ∃ t rest, tokens = t :: rest ∧ t.isSymbol c = true ∧ t.text = String.ofList [c] ∧
      ofTokens rest = more := by
  obtain ⟨t, rest, rfl, hkind, htext, _, hrest⟩ := ofTokens_eq_cons.mp h
  have hsymbol : t.isSymbol c = true := by
    simp [Token.isSymbol, hkind, htext, symbol]
  exact ⟨t, rest, rfl, hsymbol, htext, hrest⟩

theorem exists_word {text : String} (h : ofTokens tokens = word text :: more) :
    ∃ t rest, tokens = t :: rest ∧ t.kind = .identifier ∧ t.text = text ∧ ofTokens rest = more := by
  obtain ⟨t, rest, rfl, hkind, htext, _, hrest⟩ := ofTokens_eq_cons.mp h
  exact ⟨t, rest, rfl, hkind, htext, hrest⟩

theorem exists_name {name : Syntax.Name} (h : ofTokens tokens = word name.text :: more) :
    ∃ t rest, tokens = t :: rest ∧ isName t = true ∧ t.text = name.text ∧ ofTokens rest = more := by
  obtain ⟨t, rest, rfl, hkind, htext, hrest⟩ := exists_word h
  have hname : isName t = true := by
    simp [isName, hkind, htext, name.notKeyword]
  exact ⟨t, rest, rfl, hname, htext, hrest⟩

theorem isName_token_name (name : Syntax.Name) : isName (word name.text).token = true := by
  simp [isName, token, word, name.notKeyword]

/-- A token written as a literal is one, of the same kind. -/
theorem literalKind?_lexeme (value : Syntax.Literal) {t : Token} (hkind : t.kind = value.lexeme.kind)
    (htext : t.text = value.lexeme.text) :
    ∃ kind, literalKind? t = some kind ∧ (Node.leaf kind t).shape = value.shape := by
  cases value with
  | integer kind text h =>
      refine ⟨.integerLiteral, ?_, by rw [Node.shape_leaf, htext]; rfl⟩
      have hkind : t.kind = kind := hkind
      simp [literalKind?, hkind, h]
  | float kind text h =>
      refine ⟨.floatLiteral, ?_, by rw [Node.shape_leaf, htext]; rfl⟩
      have hkind : t.kind = kind := hkind
      have hinteger : kind.isInteger = false := by cases kind <;> first | rfl | cases h
      simp [literalKind?, hkind, h, hinteger]
  | string text =>
      refine ⟨.stringLiteral, ?_, by rw [Node.shape_leaf, htext]; rfl⟩
      have hkind : t.kind = .string := hkind
      simp [literalKind?, hkind, TokenClass.isInteger, TokenClass.isFloat]
  | bool value =>
      refine ⟨.boolLiteral, ?_, by rw [Node.shape_leaf, htext]; rfl⟩
      have hkind : t.kind = .identifier := hkind
      have hword : t.isWord "true" = true ∨ t.isWord "false" = true := by
        cases value <;> simp [Token.isWord, hkind, htext, Syntax.Literal.lexeme, word]
      simp only [literalKind?, hkind, TokenClass.isInteger, TokenClass.isFloat, reduceCtorEq,
        Bool.false_eq_true, if_false, if_pos hword]

/-! ### Tokens one by one -/

/-- How a token is written, whatever follows it. -/
def ofToken (t : Token) : Lexeme := { kind := t.kind, text := t.text }

theorem map_ofToken_symbol {c : Char} (h : tokens.map ofToken = symbol c :: more) :
    ∃ t rest, tokens = t :: rest ∧ t.isSymbol c = true ∧ rest.map ofToken = more := by
  obtain ⟨t, rest, rfl, ht, hrest⟩ := List.map_eq_cons_iff.mp h
  obtain ⟨hkind, htext, _⟩ := Lexeme.mk.inj ht
  exact ⟨t, rest, rfl, by simp [Token.isSymbol, hkind, htext], hrest⟩

theorem map_ofToken_word {text : String} (hname : text ∉ keywords)
    (h : tokens.map ofToken = word text :: more) :
    ∃ t rest, tokens = t :: rest ∧ isName t = true ∧ t.text = text ∧ rest.map ofToken = more := by
  obtain ⟨t, rest, rfl, ht, hrest⟩ := List.map_eq_cons_iff.mp h
  obtain ⟨hkind, htext, _⟩ := Lexeme.mk.inj ht
  exact ⟨t, rest, rfl, by simp [isName, hkind, htext, hname], htext, hrest⟩

/-! ### Operators -/

theorem operator?_single {t : Token} (hkind : t.kind = .symbol)
    (hjoined : rest.head?.any (joins t) = false) : operator? (t :: rest) = some (t, 1) := by
  cases rest with
  | nil => simp [operator?, hkind]
  | cons second rest =>
      have halone : ¬ (second.kind = .symbol ∧ adjacent t second = true ∧
          joinedOperators.contains (t.text ++ second.text) = true) := by
        rintro ⟨hsecond, hadjacent, hspelled⟩
        have hjoins : joins t second = true := by
          simp only [joins, hkind, hsecond, hadjacent, hspelled, beq_self_eq_true, Bool.and_self]
        exact absurd hjoined (by simp [hjoins])
      simp only [operator?, hkind, ne_eq, not_true, if_false, if_neg halone]

theorem operator?_pair {first second : Token} (hjoined : joins first second = true) :
    operator? (first :: second :: rest) = some (joinTokens first second, 2) := by
  simp only [joins, Bool.and_eq_true, beq_iff_eq] at hjoined
  obtain ⟨⟨⟨hfirst, hsecond⟩, hadjacent⟩, hspelled⟩ := hjoined
  simp only [operator?, hfirst, ne_eq, not_true, if_false, hsecond, hadjacent, hspelled, and_self,
    if_true]

/-- A symbol that stands for itself is an operator of its own. -/
theorem operator?_symbol {c : Char} (h : ofTokens tokens = symbol c :: more) :
    ∃ t rest, tokens = t :: rest ∧ t.text = String.ofList [c] ∧
      operator? tokens = some (t, 1) ∧ ofTokens rest = more := by
  obtain ⟨t, rest, rfl, hkind, htext, hjoined, hrest⟩ := ofTokens_eq_cons.mp h
  exact ⟨t, rest, rfl, htext, operator?_single hkind hjoined, hrest⟩

/-- An operator is found where it is written. -/
theorem operator?_lexemes (op : Syntax.Operator) (h : ofTokens tokens = op.lexemes ++ more) :
    ∃ t width, operator? tokens = some (t, width) ∧ t.text = op.text ∧
      ofTokens (tokens.drop width) = more := by
  unfold Syntax.Operator.lexemes at h
  unfold Syntax.Operator.text
  split at h
  case h_1 c hspelling =>
    obtain ⟨t, rest, rfl, htext, hop, hrest⟩ := operator?_symbol h
    exact ⟨t, 1, hop, htext, hrest⟩
  case h_2 c d hspelling =>
    obtain ⟨first, rest, rfl, _, hfirst, hjoined, hrest⟩ := ofTokens_eq_cons.mp h
    obtain ⟨second, rest, rfl, _, hsecond, hrest⟩ := exists_symbol hrest
    refine ⟨joinTokens first second, 2, operator?_pair hjoined, ?_, hrest⟩
    show first.text ++ second.text = _
    rw [hfirst, hsecond]
    exact String.ofList_append.symm

theorem precedence?_text (op : Syntax.Operator) : precedence? op.text = some op.precedence := by
  cases op <;> rfl

end Lexeme

end Shading
