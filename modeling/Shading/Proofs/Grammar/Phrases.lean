import Shading.Proofs.Grammar.Reads

/-! # When productions read

One lemma for each production says when it reads without a problem, with the productions it is built
from taken as they are.  What a production does after a problem plays no role here. -/

namespace Shading.Grammar

open Production

variable {past : Span} {tokens rest : List Token}

/-! ### Kinds of tokens -/

theorem isSymbol_unique {t : Token} {c d : Char} (hc : t.isSymbol c = true)
    (hd : t.isSymbol d = true) : c = d := by
  simp only [Token.isSymbol, Bool.and_eq_true, beq_iff_eq] at hc hd
  simpa [hc.2] using hd.2

theorem isSymbol_eq {t : Token} {c : Char} (h : t.isSymbol c = true) (d : Char) :
    t.isSymbol d = (c == d) := by
  simp only [Token.isSymbol, Bool.and_eq_true, beq_iff_eq] at h
  simp [Token.isSymbol, h]

theorem isSymbol_ne {t : Token} {c d : Char} (h : t.isSymbol c = true) (hne : d ≠ c) :
    t.isSymbol d = false :=
  (isSymbol_eq h d).trans (beq_false_of_ne hne.symm)

theorem kind_of_isSymbol {t : Token} {c : Char} (h : t.isSymbol c = true) : t.kind = .symbol := by
  simp only [Token.isSymbol, Bool.and_eq_true, beq_iff_eq] at h
  exact h.1

theorem text_of_isSymbol {t : Token} {c : Char} (h : t.isSymbol c = true) :
    t.text = String.ofList [c] := by
  simp only [Token.isSymbol, Bool.and_eq_true, beq_iff_eq] at h
  rw [← h.2, String.ofList_toList]

theorem isName_of_isSymbol {t : Token} {c : Char} (h : t.isSymbol c = true) : isName t = false := by
  simp [isName, kind_of_isSymbol h]

theorem isWord_of_isSymbol {t : Token} {c : Char} (h : t.isSymbol c = true) (word : String) :
    t.isWord word = false := by
  simp [Token.isWord, kind_of_isSymbol h]

theorem isQualifier_of_isSymbol {t : Token} {c : Char} (h : t.isSymbol c = true) :
    isQualifier t = false := by
  simp [isQualifier, kind_of_isSymbol h]

theorem literalKind?_of_isSymbol {t : Token} {c : Char} (h : t.isSymbol c = true) :
    literalKind? t = none := by
  simp [literalKind?, kind_of_isSymbol h, TokenClass.isInteger, TokenClass.isFloat, Token.isWord]

theorem isSymbol_of_isName {t : Token} (h : isName t = true) (c : Char) : t.isSymbol c = false := by
  refine Bool.eq_false_iff.mpr fun hc => ?_
  rw [isName_of_isSymbol hc] at h
  cases h

/-- The words that qualify types are no names. -/
theorem isQualifier_of_isName {t : Token} (h : isName t = true) : isQualifier t = false := by
  have hkeywords : ∀ word ∈ qualifiers, word ∈ keywords := by decide
  simp only [isName, Bool.and_eq_true, Bool.not_eq_true', beq_iff_eq] at h
  have hword : t.text ∉ qualifiers := fun hq => by
    simp [hkeywords t.text hq] at h
  simp [isQualifier, hword]

/-- The words that are literals are no names. -/
theorem literalKind?_of_isName {t : Token} (h : isName t = true) : literalKind? t = none := by
  simp only [isName, Bool.and_eq_true, beq_iff_eq] at h
  obtain ⟨hkind, htext⟩ := h
  have hword : t.text ≠ "true" ∧ t.text ≠ "false" := by
    constructor <;> (intro hword; rw [hword] at htext; exact absurd htext (by decide))
  simp [literalKind?, hkind, TokenClass.isInteger, TokenClass.isFloat, Token.isWord, hword.1, hword.2]

/-! ### Names and lists -/

@[simp] theorem reads_identifier_some {node : Node} :
    identifier.Reads past tokens (some node) rest ↔
      ∃ t, isName t = true ∧ tokens = t :: rest ∧ Node.leaf .identifier t = node := by
  simp [identifier, and_assoc]

@[simp] theorem reads_identifier_none :
    identifier.Reads past tokens none rest ↔
      tokens.head?.any isName = false ∧ rest = tokens := by
  simp [identifier]

theorem head?_any_dropWhile {condition : Token → Bool} (tokens : List Token) :
    (tokens.dropWhile condition).head?.any condition = false := by
  induction tokens with
  | nil => rfl
  | cons t tokens ih =>
      rw [List.dropWhile_cons]
      split
      · exact ih
      · simpa using ‹¬ condition t = true›

theorem takeWhile_eq_nil {condition : Token → Bool} (h : tokens.head?.any condition = false) :
    tokens.takeWhile condition = [] := by
  cases tokens with
  | nil => rfl
  | cons t tokens =>
      have ht : condition t = false := by simpa using h
      rw [List.takeWhile_cons, ht]
      rfl

/-- Qualifiers are read up to the first token that is none. -/
theorem reads_typeQualifiers {nodes : List Node} :
    typeQualifiers.Reads past tokens nodes rest ↔
      ∃ words, tokens = words ++ rest ∧ (∀ t ∈ words, isQualifier t = true) ∧
        rest.head?.any isQualifier = false ∧ words.map (Node.leaf .typeQualifier) = nodes := by
  have hreads : typeQualifiers.Reads past tokens nodes rest ↔
      (tokens.takeWhile isQualifier).map (Node.leaf .typeQualifier) = nodes ∧
        rest = tokens.drop (tokens.takeWhile isQualifier).length := by
    simp [typeQualifiers, and_comm]
  rw [hreads]
  constructor
  · rintro ⟨rfl, rfl⟩
    have hsplit := List.takeWhile_append_dropWhile (p := isQualifier) (l := tokens)
    have hdrop : tokens.drop (tokens.takeWhile isQualifier).length =
        tokens.dropWhile isQualifier :=
      (congrArg (List.drop _) hsplit.symm).trans List.drop_left
    rw [hdrop]
    exact ⟨_, hsplit.symm, fun t ht => List.all_eq_true.mp List.all_takeWhile t ht,
      head?_any_dropWhile tokens, rfl⟩
  · rintro ⟨words, rfl, hwords, hrest, rfl⟩
    rw [List.takeWhile_append_of_pos hwords, takeWhile_eq_nil hrest, List.append_nil]
    exact ⟨rfl, List.drop_left.symm⟩

theorem reads_nextItem_done {item : Production (Option Node)} {items last : Items} :
    (nextItem item items).Reads past tokens (.done last) rest ↔
      (item.Reads past tokens none rest ∧ { items with complete := false } = last) ∨
        ∃ node, item.Reads past tokens (some node) rest ∧
          rest.head?.any (fun t => t.isSymbol ',') = false ∧
          { items with nodes := items.nodes ++ [node] } = last := by
  simp [nextItem, Option.exists]

theorem reads_nextItem_again {item : Production (Option Node)} {items next : Items} :
    (nextItem item items).Reads past tokens (.again next) rest ↔
      ∃ node comma, item.Reads past tokens (some node) (comma :: rest) ∧
        comma.isSymbol ',' = true ∧ { items with nodes := items.nodes ++ [node] } = next := by
  simp [nextItem, Option.exists]

/-- Reading a symbol that has been seen. -/
theorem seen_and_accepted {c : Char} :
    (tokens.head?.any (fun t => t.isSymbol c) = true ∧
      (tokens.head?.any (fun t => t.isSymbol c) = false ∧ rest = tokens ∨
        ∃ t, t.isSymbol c = true ∧ tokens = t :: rest)) ↔
      ∃ t, t.isSymbol c = true ∧ tokens = t :: rest := by
  cases tokens <;> grind

/-- Only a complete list is closed, by its bracket. -/
@[simp] theorem reads_closeList {closer : Char} {missing : Problem} {complete : Bool} {u : Unit} :
    (closeList closer missing complete).Reads past tokens u rest ↔
      complete = true ∧ ∃ t, t.isSymbol closer = true ∧ tokens = t :: rest := by
  cases complete with
  | false => simp [closeList]
  | true => simp [closeList, seen_and_accepted]

/-! ### Expressions -/

@[simp] theorem reads_orMissing {p : Production (Option Node)} {node : Node} :
    (orMissing p).Reads past tokens node rest ↔ p.Reads past tokens (some node) rest := by
  simp [orMissing, Option.exists]

@[simp] theorem reads_literal_some {node : Node} :
    literal.Reads past tokens (some node) rest ↔
      ∃ t kind, literalKind? t = some kind ∧ tokens = t :: rest ∧ Node.leaf kind t = node := by
  cases tokens with
  | nil => simp [literal]
  | cons t tokens =>
      cases h : literalKind? t with
      | none => simp [literal, h]
      | some kind =>
          simpa [literal, h] using fun _ => eq_comm

@[simp] theorem reads_literal_none :
    literal.Reads past tokens none rest ↔
      tokens.head?.bind literalKind? = none ∧ rest = tokens := by
  cases tokens with
  | nil => simp [literal]
  | cons t tokens => cases h : literalKind? t <;> simp [literal, h]

/-- A list in parentheses is empty, or it is read item by item. -/
theorem reads_listed {kind : NodeKind} {missing : Problem} {item : Production (Option Node)}
    {opening : Token} {node : Node} :
    (listed kind missing item).Reads past (opening :: tokens) node rest ↔
      (∃ closing, closing.isSymbol ')' = true ∧ tokens = closing :: rest ∧
          Node.mk kind opening [] = node) ∨
        (tokens.head?.any (fun t => t.isSymbol ')') = false ∧
          ∃ items closing, (separated item).Reads past tokens items (closing :: rest) ∧
            items.complete = true ∧ closing.isSymbol ')' = true ∧
            Node.mk kind opening items.nodes = node) := by
  cases tokens with
  | nil => simp [listed, and_assoc]
  | cons t tokens =>
      cases h : t.isSymbol ')' <;> simp [listed, h, and_assoc]

/-- An expression in brackets is read with the closing bracket. -/
theorem reads_bracketed {closer : Char} {e : Production (Option Node)} {missing : Production Node}
    {node : Node} :
    (bracketed closer e missing).Reads past tokens node rest ↔
      ∃ closing, e.Reads past tokens (some node) (closing :: rest) ∧
        closing.isSymbol closer = true := by
  simp [bracketed, Option.exists, seen_and_accepted]

/-- A primary expression is a literal, a name or an expression in parentheses. -/
theorem reads_primary_some {e : Production (Option Node)} {node : Node} :
    (primary e).Reads past tokens (some node) rest ↔
      (∃ t kind, literalKind? t = some kind ∧ tokens = t :: rest ∧ Node.leaf kind t = node) ∨
      (∃ t, isName t = true ∧ tokens = t :: rest ∧ Node.leaf .identifier t = node) ∨
      (∃ opening mid closing, opening.isSymbol '(' = true ∧ tokens = opening :: mid ∧
        e.Reads past mid (some node) (closing :: rest) ∧ closing.isSymbol ')' = true) := by
  simp only [primary, ↓Char.isValue, reads_bind, Option.exists, reads_literal_none,
    Option.bind_eq_none_iff, reads_identifier_none, reads_takeIf_none, reads_pure, reduceCtorEq,
    false_and, and_false, exists_const, reads_takeIf_some, reads_bracketed, Option.some.injEq,
    exists_eq_right_right', exists_eq_right, false_or, ↓existsAndEq, and_true,
    reads_identifier_some, reads_literal_some, exists_and_left]
  cases tokens with
  | nil => simp
  | cons t tokens =>
    simp only [List.head?_cons, Option.some.injEq, forall_eq', Option.any_some, ↓Char.isValue,
      List.cons.injEq, ↓existsAndEq, and_true, exists_and_right, true_and]
    grind [literalKind?_of_isName, literalKind?_of_isSymbol, isName_of_isSymbol]

theorem reads_suffix_again {e : Production (Option Node)} {node next : Node} {t : Token} :
    (suffix e node).Reads past (t :: tokens) (.again next) rest ↔
      (t.isSymbol '(' = true ∧ ∃ arguments, (argumentList e).Reads past (t :: tokens) arguments rest ∧
        Node.mk .callExpression t [node, arguments] = next) ∨
      (t.isSymbol '.' = true ∧ ∃ name, isName name = true ∧ tokens = name :: rest ∧
        Node.mk .memberExpression t [node, Node.leaf .identifier name] = next) ∨
      (t.isSymbol '[' = true ∧ ∃ index closing, e.Reads past tokens (some index) (closing :: rest) ∧
        closing.isSymbol ']' = true ∧ Node.mk .indexExpression t [node, index] = next) := by
  simp only [suffix, ↓Char.isValue, reads_bind, reads_atSymbol, List.head?_cons, Option.any_some,
    reads_ite, reads_here, reads_pure, Turn.again.injEq, exists_eq_right_right', ↓existsAndEq,
    and_true, exists_eq_left', Bool.not_eq_true, Option.exists, reads_takeIf_none, reduceCtorEq,
    false_and, and_false, exists_const, reads_takeIf_some, reads_bracketed, false_or,
    reads_identifier_none, not_reads_report, and_self, reads_identifier_some, Option.getD_some,
    List.cons.injEq, true_and]
  grind [isSymbol_unique]

theorem reads_suffix_done {e : Production (Option Node)} {node last : Node} :
    (suffix e node).Reads past tokens (.done last) rest ↔
      tokens.head?.any (fun t => t.isSymbol '(') = false ∧
        tokens.head?.any (fun t => t.isSymbol '.') = false ∧
        tokens.head?.any (fun t => t.isSymbol '[') = false ∧ node = last ∧ rest = tokens := by
  simp [suffix, Option.exists, and_assoc, and_comm]

theorem reads_suffixed_some {e : Production (Option Node)} {node : Node} :
    (suffixed e).Reads past tokens (some node) rest ↔
      ∃ base mid, (primary e).Reads past tokens (some base) mid ∧
        (repeatWhile (suffix e) base).Reads past mid node rest := by
  simp [suffixed, Option.exists]

theorem reads_suffixed_none {e : Production (Option Node)} :
    (suffixed e).Reads past tokens none rest ↔ (primary e).Reads past tokens none rest := by
  simp [suffixed, Option.exists]

theorem reads_unary {operand : Option (Production (Option Node))} {e : Production (Option Node)}
    {node? : Option Node} :
    (unary operand e).Reads past tokens node? rest ↔
      (tokens.head?.any isSign = false ∧ (suffixed e).Reads past tokens node? rest) ∨
        ∃ p t tail node, operand = some p ∧ isSign t = true ∧ tokens = t :: tail ∧
          p.Reads past tail (some node) rest ∧
          some (Node.mk .unaryExpression t [node]) = node? := by
  cases operand with
  | none => simp [unary]
  | some p =>
    cases tokens with
    | nil => simp [unary]
    | cons t tokens => simp [unary]

/-- The operator at the front of the tokens is one symbol or two that stand side by side. -/
theorem operator?_eq_some {token : Token} {width : Nat} (h : operator? tokens = some (token, width)) :
    (∃ tail, width = 1 ∧ tokens = token :: tail ∧ token.kind = .symbol) ∨
      ∃ first second tail, width = 2 ∧ tokens = first :: second :: tail ∧ first.kind = .symbol ∧
        second.kind = .symbol ∧ adjacent first second = true ∧
        joinedOperators.contains (first.text ++ second.text) = true ∧
        token = joinTokens first second := by
  unfold operator? at h
  split at h
  case h_1 => cases h
  case h_2 first =>
    split at h
    case isTrue hkind =>
      cases h
      exact .inl ⟨[], rfl, rfl, hkind⟩
    case isFalse => cases h
  case h_3 first second tail =>
    split at h
    case isTrue => cases h
    case isFalse hkind =>
      have hkind : first.kind = .symbol := Classical.not_not.mp hkind
      split at h
      case isTrue hjoined =>
        cases h
        exact .inr ⟨first, second, tail, rfl, rfl, hkind, hjoined.1, hjoined.2.1, hjoined.2.2, rfl⟩
      case isFalse =>
        cases h
        exact .inl ⟨second :: tail, rfl, rfl, hkind⟩

/-- The symbols of an operator are characters of it. -/
theorem operator?_symbols {token : Token} {width : Nat} (h : operator? tokens = some (token, width)) :
    ∃ used, tokens = used ++ tokens.drop width ∧
      ∀ t ∈ used, ∀ c, t.isSymbol c = true → c ∈ token.text.toList := by
  have hchar : ∀ {t : Token} {c : Char}, t.isSymbol c = true → c ∈ t.text.toList := by
    intro t c hc
    simp only [Token.isSymbol, Bool.and_eq_true, beq_iff_eq] at hc
    simp [hc.2]
  rcases operator?_eq_some h with ⟨tail, rfl, rfl, _⟩ | ⟨first, second, tail, rfl, rfl, _, _, _, _, rfl⟩
  · refine ⟨[token], rfl, fun t ht c hc => ?_⟩
    rw [List.mem_singleton.mp ht] at hc
    exact hchar hc
  · refine ⟨[first, second], rfl, fun t ht c hc => ?_⟩
    have hmem := hchar hc
    rw [joinTokens, String.toList_append, List.mem_append]
    rcases List.mem_cons.mp ht with rfl | ht
    · exact .inl hmem
    · obtain rfl := List.mem_singleton.mp ht
      exact .inr hmem

/-- No operator has a brace or a semicolon in it. -/
theorem notMem_of_precedence? {text : String} {k : Nat} (h : precedence? text = some k) :
    ∀ c ∈ ['{', '}', ';'], c ∉ text.toList := by
  have hall : (['{', '}', ';'].all fun c => !text.toList.contains c) = true := by
    unfold precedence? at h
    split at h <;> cases h <;> decide
  simpa using hall

/-- The equals sign of an assignment is a symbol of its own. -/
theorem equals_sound {token : Token} {width : Nat}
    (h : operator? tokens = some (token, width)) (htext : token.text = "=") :
    token.isSymbol '=' = true ∧ tokens = token :: tokens.drop 1 := by
  rcases operator?_eq_some h with ⟨tail, rfl, rfl, hkind⟩ |
    ⟨first, second, tail, rfl, rfl, _, _, _, hjoined, rfl⟩
  · exact ⟨by simp [Token.isSymbol, hkind, htext], rfl⟩
  · have hequals : first.text ++ second.text = "=" := htext
    rw [hequals] at hjoined
    exact absurd hjoined (by decide)

theorem binaryOperator?_eq_some {least : Nat} {token : Token} {width k : Nat} :
    binaryOperator? least tokens = some (token, width, k) ↔
      operator? tokens = some (token, width) ∧ precedence? token.text = some k ∧ least ≤ k := by
  unfold binaryOperator?
  cases operator? tokens with
  | none => simp
  | some found =>
      obtain ⟨symbol, length⟩ := found
      simp only [Option.bind_eq_bind, Option.bind_some, Option.bind_eq_some_iff,
        Option.ite_none_left_eq_some]
      grind

theorem reads_extendBinary_done {right : Nat → Production (Option Node)} {least : Nat}
    {node last : Node} :
    (extendBinary right least node).Reads past tokens (.done last) rest ↔
      binaryOperator? least tokens = none ∧ node = last ∧ rest = tokens := by
  cases h : binaryOperator? least tokens <;> simp [extendBinary, h]

theorem reads_extendBinary_again {right : Nat → Production (Option Node)} {least : Nat}
    {node next : Node} :
    (extendBinary right least node).Reads past tokens (.again next) rest ↔
      ∃ token width precedence other,
        binaryOperator? least tokens = some (token, width, precedence) ∧
        (right precedence).Reads past (tokens.drop width) (some other) rest ∧
        Node.mk .binaryExpression token [node, other] = next := by
  cases h : binaryOperator? least tokens with
  | none => simp [extendBinary, h]
  | some found =>
      obtain ⟨token, width, precedence⟩ := found
      simp [extendBinary, h]

theorem reads_binary_succ_some {operand : Production (Option Node)} {levels least : Nat}
    {node : Node} :
    (binary operand (levels + 1) least).Reads past tokens (some node) rest ↔
      ∃ first mid, operand.Reads past tokens (some first) mid ∧
        (repeatWhile (extendBinary (fun p => binary operand levels (p + 1)) least) first).Reads past
          mid node rest := by
  simp [binary, Option.exists]

theorem reads_binary_none {operand : Production (Option Node)} {levels least : Nat} :
    (binary operand levels least).Reads past tokens none rest ↔
      operand.Reads past tokens none rest := by
  cases levels <;> simp [binary, Option.exists]

theorem reads_assignment_some {operand e : Production (Option Node)} {node : Node} :
    (assignment operand e).Reads past tokens (some node) rest ↔
      ∃ target mid, (binary operand precedenceLevels 1).Reads past tokens (some target) mid ∧
        ((∃ token width value, operator? mid = some (token, width) ∧ token.text = "=" ∧
            e.Reads past (mid.drop 1) (some value) rest ∧
            Node.mk .assignmentExpression token [target, value] = node) ∨
          ((∀ token width, operator? mid = some (token, width) → token.text ≠ "=") ∧
            target = node ∧ rest = mid)) := by
  simp only [assignment, reads_bind, Option.exists, reads_pure, reads_tokensLeft, reduceCtorEq,
    false_and, and_false, exists_false, false_or]
  refine exists_congr fun target => exists_congr fun mid => and_congr_right fun _ => ?_
  cases hoperator : operator? mid with
  | none => simp [hoperator]
  | some found =>
      obtain ⟨token, width⟩ := found
      by_cases htext : token.text = "=" <;> simp [hoperator, htext]

theorem reads_assignment_none {operand e : Production (Option Node)} :
    (assignment operand e).Reads past tokens none rest ↔ operand.Reads past tokens none rest := by
  constructor
  · intro h
    obtain ⟨target?, mid, htarget, h⟩ := reads_bind.mp h
    cases target? with
    | none =>
        obtain ⟨_, rfl⟩ := reads_pure.mp h
        exact reads_binary_none.mp htarget
    | some target =>
        -- after a target something has been found
        obtain ⟨_, left, hleft, h⟩ := reads_bind.mp h
        obtain ⟨rfl, rfl⟩ := reads_tokensLeft.mp hleft
        cases hoperator : operator? left with
        | none => simp [hoperator] at h
        | some found => simp [hoperator] at h
  · intro h
    exact reads_bind.mpr ⟨none, rest, reads_binary_none.mpr h, reads_pure.mpr ⟨rfl, rfl⟩⟩

/-- Nothing that begins a primary expression is there. -/
theorem reads_primary_none {e : Production (Option Node)}
    (h : (primary e).Reads past tokens none rest) : rest = tokens := by
  simp only [primary, reads_bind, Option.exists, reads_literal_none, reads_identifier_none,
    reads_takeIf_none, reads_pure] at h
  grind

theorem level_unary (units : Nat) :
    ∃ operand?, (level units).unary = unary operand? (level units).expression := by
  cases units with
  | zero => exact ⟨none, rfl⟩
  | succ units => exact ⟨some (level units).unary, rfl⟩

/-! ### Type names -/

theorem reads_typeArguments_some {item : Production (Option Node)} {nodes : List Node} :
    (typeArguments item).Reads past tokens (some nodes) rest ↔
      ∃ opening mid items closing, opening.isSymbol '<' = true ∧ tokens = opening :: mid ∧
        (separated item).Reads past mid items (closing :: rest) ∧ items.complete = true ∧
        closing.isSymbol '>' = true ∧ items.nodes = nodes := by
  simp only [typeArguments, ↓Char.isValue, Bool.not_eq_eq_eq_not, Bool.not_true,
    reads_rewinding_some, reads_bind, reads_ite, reads_pure, reduceCtorEq, false_and, and_false,
    Bool.not_eq_false, Option.some.injEq, Bool.not_eq_true, or_false, ↓existsAndEq, and_true,
    Bool.exists_bool, reads_accept_false, Bool.false_eq_true, reads_accept_true, true_and, false_or,
    exists_const, exists_and_left]
  grind

theorem reads_typeArguments_none {item : Production (Option Node)} :
    (typeArguments item).Reads past tokens none rest ↔
      rest = tokens ∧ (tokens.head?.any (fun t => t.isSymbol '<') = false ∨
        ∃ opening mid items left, opening.isSymbol '<' = true ∧ tokens = opening :: mid ∧
          (separated item).Reads past mid items left ∧
          (items.complete = false ∨ left.head?.any (fun t => t.isSymbol '>') = false)) := by
  rw [typeArguments, reads_rewinding_none]
  refine and_congr_right fun _ => ⟨?_, ?_⟩
  · rintro ⟨mid, h⟩
    simp only [↓Char.isValue, Bool.not_eq_eq_eq_not, Bool.not_true, reads_bind, reads_ite,
      reads_pure, true_and, Bool.not_eq_false, reduceCtorEq, false_and, and_false, Bool.not_eq_true,
      false_or, exists_eq_right_right', exists_eq_right, reads_accept_false, Bool.exists_bool,
      Bool.false_eq_true, or_false, exists_eq_right', reads_accept_true, Bool.true_eq_false] at h
    grind
  · rintro (h | ⟨opening, mid, items, left, hopening, rfl, hitems, hend⟩)
    · exact ⟨tokens, by simp [h]⟩
    · refine ⟨left, reads_bind.mpr ⟨true, mid, reads_accept_true.mpr ⟨opening, hopening, rfl⟩, ?_⟩⟩
      refine reads_bind.mpr ⟨items, left, hitems, ?_⟩
      cases hcomplete : items.complete <;> simp_all

theorem reads_typenameWithin_zero {node : Node} :
    (typenameWithin 0).Reads past tokens (some node) rest ↔
      ∃ name, isName name = true ∧ tokens = name :: rest ∧ Node.leaf .typename name = node := by
  simp [typenameWithin, and_assoc]

theorem reads_typenameWithin_succ {levels : Nat} {node : Node} :
    (typenameWithin (levels + 1)).Reads past tokens (some node) rest ↔
      ∃ name mid arguments, isName name = true ∧ tokens = name :: mid ∧
        (typeArguments (typenameWithin levels)).Reads past mid arguments rest ∧
        Node.mk .typename name (arguments.getD []) = node := by
  simp [typenameWithin, Option.exists, and_assoc]

theorem reads_typenameWithin_none {levels : Nat} :
    (typenameWithin levels).Reads past tokens none rest ↔
      tokens.head?.any isName = false ∧ rest = tokens := by
  cases levels <;> simp [typenameWithin, Option.exists]

/-! ### Braced lists and statements -/

theorem reads_bracedItem_some {list : Production Node} {e : Production (Option Node)} {node : Node} :
    (bracedItem list e).Reads past tokens (some node) rest ↔
      (tokens.head?.any (fun t => t.isSymbol '{') = true ∧ list.Reads past tokens node rest) ∨
        (tokens.head?.any (fun t => t.isSymbol '{') = false ∧
          e.Reads past tokens (some node) rest) := by
  simp [bracedItem]

theorem reads_nextBraced {item : Production (Option Node)} {items : Items} {turn : Turn Items} :
    (nextBraced item items).Reads past tokens turn rest ↔
      (tokens.head?.any (fun t => t.isSymbol '}') = true ∧ .done items = turn ∧ rest = tokens) ∨
        (tokens.head?.any (fun t => t.isSymbol '}') = false ∧
          (nextItem item items).Reads past tokens turn rest) := by
  simp [nextBraced]

theorem reads_bracedList_succ {units : Nat} {opening : Token} {node : Node} :
    (bracedList (units + 1)).Reads past (opening :: tokens) node rest ↔
      ∃ items closing,
        (repeatWhile (nextBraced (bracedItem (bracedList units) (expression units))) {}).Reads past
          tokens items (closing :: rest) ∧
        items.complete = true ∧ closing.isSymbol '}' = true ∧
        Node.mk .bracedInitList opening items.nodes = node := by
  simp [bracedList, and_assoc]

theorem reads_initialiser {units : Nat} {node : Node} :
    (initialiser units).Reads past tokens node rest ↔
      (tokens.head?.any (fun t => t.isSymbol '{') = true ∧
          (bracedList units).Reads past tokens node rest) ∨
        (tokens.head?.any (fun t => t.isSymbol '{') = false ∧
          (expression units).Reads past tokens (some node) rest) := by
  simp [initialiser, Nest.initialiser, Nest.ofUnits, Option.exists]

theorem reads_initialValue {units : Nat} {value : List Node} :
    (initialValue units).Reads past tokens value rest ↔
      (tokens.head?.any (fun t => t.isSymbol '=') = false ∧ rest = tokens ∧ [] = value) ∨
        ∃ equals tail node, equals.isSymbol '=' = true ∧ tokens = equals :: tail ∧
          (initialiser units).Reads past tail node rest ∧ [node] = value := by
  simp only [initialValue, Nest.initialValue, initialiser, ↓Char.isValue, reads_bind, reads_ite,
    reads_pure, exists_eq_right_right', Bool.not_eq_true, List.nil_eq, Bool.exists_bool,
    reads_accept_false, Bool.false_eq_true, false_and, true_and, false_or, reads_accept_true,
    Bool.true_eq_false, or_false, exists_and_left]
  grind

theorem reads_variableDeclaration_some {units : Nat} {node : Node} :
    (variableDeclaration units).Reads past tokens (some node) rest ↔
      ∃ qualifiers left type mid name value ending,
        typeQualifiers.Reads past tokens qualifiers left ∧
        typename.Reads past left (some type) (name :: mid) ∧ isName name = true ∧
        (initialValue units).Reads past mid value (ending :: rest) ∧ ending.isSymbol ';' = true ∧
        Node.mk .variableDeclaration name
          (qualifiers ++ [type, Node.leaf .identifier name] ++ value) = node := by
  simp [variableDeclaration, Nest.variableDeclaration, initialValue, Option.exists, Node.leaf,
    Node.token]

theorem reads_variableDeclaration_none {units : Nat} :
    (variableDeclaration units).Reads past tokens none rest ↔
      rest = tokens ∧ ∃ left, typeQualifiers.Reads past tokens [] left ∧
        ((∃ mid, typename.Reads past left none mid) ∨
          ∃ type mid, typename.Reads past left (some type) mid ∧
            mid.head?.any isName = false) := by
  simp only [variableDeclaration, Nest.variableDeclaration, List.isEmpty_iff, ↓Char.isValue,
    List.append_assoc, List.cons_append, List.nil_append, reads_rewinding_none, reads_bind,
    reads_here, Option.exists, reads_ite, reads_pure, true_and, not_reads_report, reduceCtorEq,
    false_and, and_false, exists_const, and_self, or_false, exists_eq_right_right',
    reads_identifier_none, reads_identifier_some, reads_expect, ↓existsAndEq, and_true,
    exists_and_right, and_congr_right_iff]
  grind

theorem reads_returnStatement {units : Nat} {word : Token} {node : Node} :
    (returnStatement units).Reads past (word :: tokens) node rest ↔
      ∃ value? ending,
        ((tokens.head?.any (fun t => t.isSymbol ';') = true ∧ tokens = ending :: rest ∧ none = value?) ∨
          (tokens.head?.any (fun t => t.isSymbol ';') = false ∧
            (expression units).Reads past tokens value? (ending :: rest))) ∧
        ending.isSymbol ';' = true ∧ Node.mk .returnStatement word value?.toList = node := by
  simp only [returnStatement, Nest.returnStatement, Nest.ofUnits, ↓Char.isValue, reads_bind,
    reads_take, reads_atSymbol, reads_ite, reads_pure, reads_expect, exists_eq_right_right',
    exists_const, ↓existsAndEq, and_true, exists_eq_left', Option.toList_none, Bool.not_eq_true,
    Option.exists, Option.toList_some, reduceCtorEq, and_false, false_or]
  grind

theorem reads_expressionStatement_some {units : Nat} {node : Node} :
    (expressionStatement units).Reads past tokens (some node) rest ↔
      ∃ inner ending, (expression units).Reads past tokens (some inner) (ending :: rest) ∧
        ending.isSymbol ';' = true ∧
        Node.mk .expressionStatement (tokens.head?.getD ⟨.unknown, past, ""⟩) [inner] = node := by
  simp [expressionStatement, Nest.expressionStatement, Nest.ofUnits, Option.exists]

/-- A statement is told by its first token, except that an expression follows a variable declaration
that was tried. -/
theorem reads_statement_some {block : Production Node} {units : Nat} {node : Node} {t : Token} :
    (statement block units).Reads past (t :: tokens) (some node) rest ↔
      (t.isSymbol ';' = true ∧ tokens = rest ∧ Node.leaf .emptyStatement t = node) ∨
      (t.isSymbol '{' = true ∧ block.Reads past (t :: tokens) node rest) ∨
      (t.isWord "return" = true ∧ (returnStatement units).Reads past (t :: tokens) node rest) ∨
      (t.isSymbol ';' = false ∧ t.isSymbol '{' = false ∧ t.isWord "return" = false ∧
        ((variableDeclaration units).Reads past (t :: tokens) (some node) rest ∨
          ∃ mid, (variableDeclaration units).Reads past (t :: tokens) none mid ∧
            (expressionStatement units).Reads past mid (some node) rest)) := by
  -- these do not read blocks
  have hreturn : Nest.returnStatement ⟨expression units, bracedList units, block⟩ =
    returnStatement units := rfl
  have hvariable : Nest.variableDeclaration ⟨expression units, bracedList units, block⟩ =
    variableDeclaration units := rfl
  have hexpression : Nest.expressionStatement ⟨expression units, bracedList units, block⟩ =
    expressionStatement units := rfl
  simp only [statement, Nest.statement, hreturn, hvariable, hexpression, ↓Char.isValue, reads_bind,
    Option.exists, reads_takeIf_none, List.head?_cons, Option.any_some, reads_atSymbol, reads_ite,
    reads_pure, Option.some.injEq, exists_eq_right_right', exists_eq_right, Bool.not_eq_true,
    reads_atWord, ↓existsAndEq, and_true, exists_eq_left', reads_takeIf_some, List.cons.injEq,
    true_and]
  grind [isSymbol_unique, isWord_of_isSymbol]

theorem reads_nextStatement_done {statement : Production (Option Node)} {nodes last : List Node} :
    (nextStatement statement nodes).Reads past tokens (.done last) rest ↔
      (∃ closing, closing.isSymbol '}' = true ∧ tokens = closing :: rest) ∧ nodes = last := by
  simp [nextStatement, Option.exists]

theorem reads_nextStatement_again {statement : Production (Option Node)} {nodes next : List Node} :
    (nextStatement statement nodes).Reads past tokens (.again next) rest ↔
      tokens.head?.any (fun t => t.isSymbol '}') = false ∧
      ∃ node, statement.Reads past tokens (some node) rest ∧ rest.length < tokens.length ∧
        nodes ++ [node] = next := by
  cases tokens <;> simp [nextStatement, Option.exists, reads_progressing, and_assoc]

theorem reads_block_succ {units : Nat} {opening : Token} {node : Node} :
    (block (units + 1)).Reads past (opening :: tokens) node rest ↔
      ∃ nodes, (repeatWhile (nextStatement (statement (block units) units)) []).Reads past tokens
          nodes rest ∧ Node.mk .compoundStatement opening nodes = node := by
  simp [block, Nest.statements, statement]

/-! ### Declarations -/

theorem reads_attributeItem_some {node : Node} :
    attributeItem.Reads past tokens (some node) rest ↔
      ∃ name mid, isName name = true ∧ tokens = name :: mid ∧
        ((mid.head?.any (fun t => t.isSymbol '(') = false ∧ rest = mid ∧
            Node.mk .attr name [] = node) ∨
          (mid.head?.any (fun t => t.isSymbol '(') = true ∧
            ∃ arguments, (argumentList (expression nestingLimit)).Reads past mid arguments rest ∧
              Node.mk .attr name [arguments] = node)) := by
  simp only [attributeItem, Nest.attributeItem, Nest.ofUnits, ↓Char.isValue, Node.token, reads_bind,
    Option.exists, reads_identifier_none, reads_pure, reduceCtorEq, false_and, and_false,
    exists_const, reads_identifier_some, Node.leaf, reads_atSymbol, reads_ite, Option.some.injEq,
    exists_eq_right_right', ↓existsAndEq, true_and, Bool.not_eq_true, List.nil_eq, and_true,
    exists_eq_left', false_or, exists_and_left]
  grind

theorem reads_attributeItem_none :
    attributeItem.Reads past tokens none rest ↔ tokens.head?.any isName = false ∧ rest = tokens := by
  simp [attributeItem, Nest.attributeItem, Option.exists]

theorem reads_closeAttributes {u : Unit} :
    (closeAttributes 2 false).Reads past tokens u rest ↔
      ∃ first second, first.isSymbol ']' = true ∧ second.isSymbol ']' = true ∧
        tokens = first :: second :: rest := by
  simp only [closeAttributes, ↓Char.isValue, Bool.false_eq_true, ↓reduceIte, ite_self, reads_bind,
    reads_ite, reads_pure, true_and, Bool.not_eq_true, not_reads_report, reads_atSymbol,
    exists_eq_right', exists_and_right, ↓existsAndEq, false_and, exists_const, and_false, or_false,
    exists_eq_right_right', exists_eq_right, reads_accept_true, Bool.exists_bool,
    reads_accept_false, false_or, and_true, Bool.true_eq_false, exists_eq_left', exists_and_left]
  grind

theorem attributeOpening?_eq_some {token : Token} :
    attributeOpening? tokens = some token ↔
      ∃ first second mid, first.isSymbol '[' = true ∧ second.isSymbol '[' = true ∧
        tokens = first :: second :: mid ∧ joinTokens first second = token := by
  unfold attributeOpening?
  split
  case h_1 first second mid =>
    simp [and_assoc]
  case h_2 hnone =>
    simp only [reduceCtorEq, false_iff, not_exists]
    rintro first second mid ⟨_, _, rfl, _⟩
    exact hnone first second mid rfl

theorem reads_attributeList_some {node : Node} :
    attributeList.Reads past tokens (some node) rest ↔
      ∃ token items last final, attributeOpening? tokens = some token ∧
        (separated attributeItem).Reads past (tokens.drop 2) items (last :: final :: rest) ∧
        items.complete = true ∧ last.isSymbol ']' = true ∧ final.isSymbol ']' = true ∧
        Node.mk .attributeList token items.nodes = node := by
  have hreads : attributeList.Reads past tokens (some node) rest ↔
      ∃ token items mid, attributeOpening? tokens = some token ∧
        (separated attributeItem).Reads past (tokens.drop 2) items mid ∧ items.complete = true ∧
        (∃ u, (closeAttributes 2 !items.complete).Reads past mid u rest) ∧
        Node.mk .attributeList token items.nodes = node := by
    cases h : attributeOpening? tokens <;>
      simp [attributeList, Nest.attributeList, attributeItem, h]
  rw [hreads]
  constructor
  · rintro ⟨token, items, mid, hopening, hitems, hcomplete, ⟨u, hclose⟩, rfl⟩
    rw [hcomplete] at hclose
    obtain ⟨last, final, hlast, hfinal, rfl⟩ := reads_closeAttributes.mp hclose
    exact ⟨token, items, last, final, hopening, hitems, hcomplete, hlast, hfinal, rfl⟩
  · rintro ⟨token, items, last, final, hopening, hitems, hcomplete, hlast, hfinal, rfl⟩
    refine ⟨token, items, _, hopening, hitems, hcomplete, ⟨(), ?_⟩, rfl⟩
    rw [hcomplete]
    exact reads_closeAttributes.mpr ⟨last, final, hlast, hfinal, rfl⟩

theorem reads_attributeList_none :
    attributeList.Reads past tokens none rest ↔
      attributeOpening? tokens = none ∧ rest = tokens := by
  cases h : attributeOpening? tokens <;>
      simp [attributeList, Nest.attributeList, h]

theorem reads_parameter_some {node : Node} :
    parameter.Reads past tokens (some node) rest ↔
      ∃ qualifiers left type name, typeQualifiers.Reads past tokens qualifiers left ∧
        typename.Reads past left (some type) (name :: rest) ∧ isName name = true ∧
        Node.mk .parameter name (qualifiers ++ [type, Node.leaf .identifier name]) = node := by
  simp [parameter, Option.exists, Node.leaf, Node.token]

theorem reads_functionBody {nodes : List Node} :
    functionBody.Reads past tokens nodes rest ↔
      (tokens.head?.any (fun t => t.isSymbol '{') = true ∧
          ∃ body, (block nestingLimit).Reads past tokens body rest ∧ [body] = nodes) ∨
        (∃ ending, ending.isSymbol ';' = true ∧ tokens = ending :: rest ∧ [] = nodes) := by
  simp only [functionBody, Nest.functionBody, Nest.ofUnits, ↓Char.isValue, reads_bind,
    reads_atSymbol, reads_ite, reads_pure, exists_eq_right_right', Bool.not_eq_true, reads_expect,
    List.nil_eq, exists_const, ↓existsAndEq, and_true, exists_eq_left']
  cases tokens with
  | nil => simp
  | cons t tokens => grind [isSymbol_unique]

theorem reads_functionDeclaration_some {node : Node} :
    functionDeclaration.Reads past tokens (some node) rest ↔
      ∃ attributes? mid qualifiers left type opened name parameters bodied body,
        attributeList.Reads past tokens attributes? mid ∧
        typeQualifiers.Reads past mid qualifiers left ∧
        typename.Reads past left (some type) (name :: opened) ∧ isName name = true ∧
        opened.head?.any (fun t => t.isSymbol '(') = true ∧
        parameterList.Reads past opened parameters bodied ∧
        functionBody.Reads past bodied body rest ∧
        Node.mk .functionDeclaration name (attributes?.toList ++ qualifiers ++
          [type, Node.leaf .identifier name, parameters] ++ body) = node := by
  simp [functionDeclaration, Nest.functionDeclaration, attributeList, functionBody, Option.exists,
    Node.leaf, Node.token]

theorem reads_nextDeclaration_done {nodes last : List Node} :
    (nextDeclaration nodes).Reads past tokens (.done last) rest ↔
      tokens = [] ∧ rest = [] ∧ nodes = last := by
  cases tokens <;> simp [nextDeclaration, Nest.nextDeclaration, Option.exists, and_comm]

theorem reads_nextDeclaration_again {nodes next : List Node} :
    (nextDeclaration nodes).Reads past tokens (.again next) rest ↔
      tokens ≠ [] ∧ ∃ node, functionDeclaration.Reads past tokens (some node) rest ∧
        nodes ++ [node] = next := by
  simp [nextDeclaration, Nest.nextDeclaration, functionDeclaration, Option.exists]

theorem reads_programUnit {node : Node} :
    programUnit.Reads past tokens node rest ↔
      ∃ nodes, (repeatWhile nextDeclaration []).Reads past tokens nodes rest ∧
        Node.mk .programUnit (tokens.head?.getD ⟨.unknown, Span.origin, ""⟩) nodes = node := by
  simp [programUnit, Nest.programUnit, nextDeclaration]

end Shading.Grammar
