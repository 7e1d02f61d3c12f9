import Shading.Proofs.Grammar.Containment
import Shading.Proofs.Grammar.Layout
import Shading.Proofs.Grammar.Statements

/-! # The limit of nesting

Each pair of parentheses and each block takes a unit of nesting, and so does what stands in the
innermost ones.  When no unit is left one problem is reported, at the first token for which there is
none, and brackets are counted to find the end of what is passed over.

What is skipped is a whole number of pairs (`Wrapped`), so every pair outside finds its own closing
bracket where it expects it: the run with one unit more goes on as if nothing had been passed over
(`expression_parentheses`, `block_braces`).  Which token is reported is told by the number of units
alone (`Reported`), and the limits of a whole program text are read off from there
(`parse_nesting`). -/

namespace Shading.Grammar

open Production Lexeme

variable {past : Span} {tokens rest : List Token} {messages : List Message}

/-! ### Brackets in brackets -/

/-- The tokens are `core` in `n` pairs of brackets. -/
inductive Wrapped (opener closer : Char) (core : List Token) : Nat → List Token → Prop
  | core : Wrapped opener closer core 0 core
  | wrap {n : Nat} {opening closing : Token} {inner : List Token}
      (hopening : opening.isSymbol opener = true) (hclosing : closing.isSymbol closer = true)
      (hinner : Wrapped opener closer core n inner) :
      Wrapped opener closer core (n + 1) (opening :: (inner ++ [closing]))

/-- Tokens that are written as pairs of brackets are such pairs. -/
theorem exists_wrapped {opener closer : Char} {middle : List Lexeme} :
    ∀ {n : Nat} {tokens : List Token},
      tokens.map ofToken =
        List.replicate n (symbol opener) ++ middle ++ List.replicate n (symbol closer) →
      ∃ core, core.map ofToken = middle ∧ Wrapped opener closer core n tokens
  | 0, tokens, h => ⟨tokens, by simpa using h, .core⟩
  | n + 1, tokens, h => by
      rw [List.replicate_succ, List.replicate_succ', ← List.append_assoc] at h
      obtain ⟨opening, left, rfl, hopening, hleft⟩ := map_ofToken_symbol h
      obtain ⟨inner, last, rfl, hinner, hlast⟩ := List.map_eq_append_iff.mp hleft
      obtain ⟨closing, last, rfl, hclosing, hlast⟩ := map_ofToken_symbol hlast
      obtain rfl : last = [] := List.map_eq_nil_iff.mp hlast
      obtain ⟨core, hcore, hwrapped⟩ := exists_wrapped hinner
      exact ⟨core, hcore, .wrap hopening hclosing hwrapped⟩

/-- With `units` units for what needs `depth`, nothing is reported if they suffice, and else one
problem, at the first token that has none. -/
def Reported (units depth : Nat) (tokens : List Token) (messages : List Message) : Prop :=
  (depth ≤ units → messages = []) ∧
    (units < depth → ∃ t, tokens[units]? = some t ∧
      messages = [Message.error t.span (Problem.text .tooDeep)])

/-- What follows makes no difference. -/
theorem Reported.append {units depth : Nat} (h : Reported units depth tokens messages)
    (more : List Token) : Reported units depth (tokens ++ more) messages := by
  refine ⟨h.1, fun hlt => ?_⟩
  obtain ⟨t, ht, hmessages⟩ := h.2 hlt
  refine ⟨t, ?_, hmessages⟩
  rw [List.getElem?_append_left (List.getElem?_eq_some_iff.mp ht).1, ht]

/-- A pair of brackets takes one unit and one token in front. -/
theorem Reported.wrap {units depth : Nat} (h : Reported units depth tokens messages) (opening : Token)
    (more : List Token) : Reported (units + 1) (depth + 1) (opening :: (tokens ++ more)) messages :=
  ⟨fun hle => h.1 (Nat.le_of_succ_le_succ hle),
    fun hlt => (h.append more).2 (Nat.lt_of_succ_lt_succ hlt)⟩

/-! ### Passing over brackets -/

theorem isOpener_of_isSymbol {t : Token} {c : Char} (h : t.isSymbol c = true)
    (hc : c ∈ ['(', '[', '{']) : isOpener t = true := by
  simp only [List.mem_cons, List.not_mem_nil, or_false] at hc
  obtain rfl | rfl | rfl := hc <;> simp [isOpener, h]

theorem isCloser_of_isSymbol {t : Token} {c : Char} (h : t.isSymbol c = true)
    (hc : c ∈ [')', ']', '}']) : isCloser t = true ∧ isOpener t = false := by
  have hopener : isOpener t = false := by
    grind [isOpener, isSymbol_unique]
  simp only [List.mem_cons, List.not_mem_nil, or_false] at hc
  obtain rfl | rfl | rfl := hc <;> exact ⟨by simp [isCloser, h], hopener⟩

section skipping

variable {opener closer : Char} {core : List Token} {n : Nat}

/-- Within brackets whole pairs are passed over. -/
theorem Wrapped.afterGroup (hopener : opener ∈ ['(', '[', '{']) (hcloser : closer ∈ [')', ']', '}'])
    (h : Wrapped opener closer [] n tokens) :
    ∀ (depth : Nat) (rest : List Token),
      afterGroup (depth + 1) (tokens ++ rest) = Grammar.afterGroup (depth + 1) rest := by
  induction h with
  | core => exact fun _ _ => rfl
  | wrap hopening hclosing _ ih =>
      intro depth rest
      obtain ⟨hcloses, hopens⟩ := isCloser_of_isSymbol hclosing hcloser
      rw [List.cons_append, List.append_assoc, Grammar.afterGroup,
        if_pos (isOpener_of_isSymbol hopening hopener), ih]
      simp [Grammar.afterGroup, hcloses, hopens]

/-- Whole pairs are passed over with an expression, if that is so of what stands in them. -/
theorem Wrapped.afterExpression (hopener : opener ∈ ['(', '[', '{'])
    (hcloser : closer ∈ [')', ']', '}']) (h : Wrapped opener closer core n tokens)
    (hcore : ∀ depth rest, afterExpression depth (core ++ rest) = Grammar.afterExpression depth rest) :
    ∀ (depth : Nat) (rest : List Token),
      Grammar.afterExpression depth (tokens ++ rest) = Grammar.afterExpression depth rest := by
  induction h with
  | core => exact hcore
  | wrap hopening hclosing _ ih =>
      intro depth rest
      obtain ⟨hcloses, hopens⟩ := isCloser_of_isSymbol hclosing hcloser
      rw [List.cons_append, List.append_assoc, Grammar.afterExpression,
        if_pos (isOpener_of_isSymbol hopening hopener), ih]
      simp [Grammar.afterExpression, hcloses, hopens]

end skipping

/-! ### Runs that go on after a problem -/

namespace Production

variable {α β : Type}

/-- After a run that may have reported something, a sequence goes on without a problem. -/
theorem bind_reads {p : Production α} {f : α → Production β} {a : α} {b : β} {left : List Token}
    (h : p past tokens = ⟨a, rest, messages⟩) (hf : (f a).Reads past rest b left) :
    (p >>= f) past tokens = ⟨b, left, messages⟩ := by
  rw [bind_run h, show f a past rest = ⟨b, left, []⟩ from hf]
  exact congrArg (Step.mk b left) (List.append_nil messages)

end Production

section expressions

variable {e : Production (Option Node)} {node : Node}

/-- Neither a suffix nor a binary operator follows. -/
def Stops (rest : List Token) : Prop :=
  rest.head?.any opensSuffix = false ∧ ∀ least, binaryOperator? least rest = none

/-- One symbol that begins no operator of two. -/
theorem operator?_of_isSymbol {t : Token} {c : Char} (h : t.isSymbol c = true)
    (hc : c ∉ ['|', '&', '=', '!', '<', '>']) (rest : List Token) :
    operator? (t :: rest) = some (t, 1) := by
  have hkind := kind_of_isSymbol h
  have hjoined : ∀ text, t.text ++ text ∉ joinedOperators := by
    intro text hmem
    have hlist : (t.text ++ text).toList ∈ joinedOperators.map String.toList :=
      List.mem_map_of_mem hmem
    simp only [List.mem_cons, List.not_mem_nil, or_false, not_or] at hc
    simp [text_of_isSymbol h, joinedOperators, hc] at hlist
  cases rest with
  | nil => simp [operator?, hkind]
  | cons second rest => simp [operator?, hkind, hjoined]

/-- An equals sign that is not doubled. -/
theorem operator?_equals {equals : Token} (h : equals.isSymbol '=' = true)
    (hrest : rest.head?.any (fun t => t.isSymbol '=') = false) :
    operator? (equals :: rest) = some (equals, 1) := by
  have hkind := kind_of_isSymbol h
  cases rest with
  | nil => simp [operator?, hkind]
  | cons second rest =>
      have hjoined : second.kind = .symbol → equals.text ++ second.text ∉ joinedOperators := by
        intro hsymbol hmem
        have hlist : (equals.text ++ second.text).toList ∈ joinedOperators.map String.toList :=
          List.mem_map_of_mem hmem
        simp only [text_of_isSymbol h, joinedOperators, String.toList_append] at hlist
        simp [Token.isSymbol, hsymbol] at hrest
        simp [hrest] at hlist
      rw [operator?]
      grind

theorem bracketed_run {closer : Char} {missing : Production Node} {closing : Token}
    (h : e past tokens = ⟨some node, closing :: rest, messages⟩)
    (hclosing : closing.isSymbol closer = true) :
    bracketed closer e missing past tokens = ⟨node, rest, messages⟩ := by
  refine bind_reads h ?_
  simp [hclosing]

theorem primary_run {opening closing : Token} (hopening : opening.isSymbol '(' = true)
    (h : e past tokens = ⟨some node, closing :: rest, messages⟩)
    (hclosing : closing.isSymbol ')' = true) :
    primary e past (opening :: tokens) = ⟨some node, rest, messages⟩ := by
  have hliteral : literal.Reads past (opening :: tokens) none (opening :: tokens) :=
    reads_literal_none.mpr ⟨by simp [literalKind?_of_isSymbol hopening], rfl⟩
  have hname : identifier.Reads past (opening :: tokens) none (opening :: tokens) :=
    reads_identifier_none.mpr ⟨by simp [isName_of_isSymbol hopening], rfl⟩
  have htake : (takeIf fun t => t.isSymbol '(').Reads past (opening :: tokens) (some opening) tokens :=
    reads_takeIf_some.mpr ⟨hopening, rfl⟩
  calc primary e past (opening :: tokens)
      = _ := hliteral.bind_run
    _ = _ := hname.bind_run
    _ = _ := htake.bind_run
    _ = ⟨some node, rest, messages⟩ :=
        bind_reads (bracketed_run h hclosing) (reads_pure.mpr ⟨rfl, rfl⟩)

theorem suffixed_run (h : primary e past tokens = ⟨some node, rest, messages⟩) (hrest : Stops rest) :
    suffixed e past tokens = ⟨some node, rest, messages⟩ := by
  have hdone : (repeatWhile (suffix e) node).Reads past rest node rest := by
    refine Turns.reads (.done (reads_suffix_done.mpr ?_))
    have hsuffix := hrest.1
    cases rest <;> simp_all [opensSuffix]
  exact bind_reads h (reads_bind.mpr ⟨_, _, hdone, reads_pure.mpr ⟨rfl, rfl⟩⟩)

theorem unary_run {operand? : Option (Production (Option Node))}
    (hsign : tokens.head?.any isSign = false) (h : primary e past tokens = ⟨some node, rest, messages⟩)
    (hrest : Stops rest) : unary operand? e past tokens = ⟨some node, rest, messages⟩ := by
  have hnext : (isNext isSign).Reads past tokens false tokens := reads_isNext.mpr ⟨hsign, rfl⟩
  exact hnext.bind_run.trans (suffixed_run h hrest)

theorem binary_run {operand : Production (Option Node)}
    (h : operand past tokens = ⟨some node, rest, messages⟩) (hrest : Stops rest) (levels least : Nat) :
    binary operand levels least past tokens = ⟨some node, rest, messages⟩ := by
  cases levels with
  | zero => exact h
  | succ levels =>
      have hdone : (repeatWhile (extendBinary (fun p => binary operand levels (p + 1)) least) node).Reads
          past rest node rest :=
        Turns.reads (.done (reads_extendBinary_done.mpr ⟨hrest.2 least, rfl, rfl⟩))
      exact bind_reads h (reads_bind.mpr ⟨_, _, hdone, reads_pure.mpr ⟨rfl, rfl⟩⟩)

/-- An expression that is an operand alone is read as the operand is. -/
theorem expression_run {units : Nat} (hsign : tokens.head?.any isSign = false)
    (h : primary (expression units) past tokens = ⟨some node, rest, messages⟩) (hrest : Stops rest)
    (hequals : ∀ t width, operator? rest = some (t, width) → t.text ≠ "=") :
    expression (units + 1) past tokens = ⟨some node, rest, messages⟩ := by
  obtain ⟨operand?, hunary⟩ := level_unary units
  have hoperand : (level units).unary past tokens = ⟨some node, rest, messages⟩ := by
    rw [hunary]
    exact unary_run hsign h hrest
  refine bind_reads (binary_run hoperand hrest precedenceLevels 1) ?_
  refine reads_bind.mpr ⟨rest, rest, reads_tokensLeft.mpr ⟨rfl, rfl⟩, ?_⟩
  cases hoperator : operator? rest with
  | none => exact reads_pure.mpr ⟨rfl, rfl⟩
  | some found => exact reads_ite.mpr (.inr ⟨hequals _ _ hoperator, reads_pure.mpr ⟨rfl, rfl⟩⟩)

theorem stops_of_isSymbol {t : Token} {c : Char} (h : t.isSymbol c = true)
    (hoperator : operator? (t :: rest) = some (t, 1)) (hc : c ∈ [')', ';', '=']) : Stops (t :: rest) := by
  have hsuffix : opensSuffix t = false := by
    grind [opensSuffix, isSymbol_unique]
  have hprecedence : precedence? t.text = none := by
    rw [text_of_isSymbol h]
    simp only [List.mem_cons, List.not_mem_nil, or_false] at hc
    obtain rfl | rfl | rfl := hc <;> rfl
  exact ⟨by simpa using hsuffix, fun least => by simp [binaryOperator?, hoperator, hprecedence]⟩

theorem text_ne_equals {t : Token} {c : Char} (h : t.isSymbol c = true) (hc : c ≠ '=') :
    t.text ≠ "=" := by
  intro htext
  rw [text_of_isSymbol h] at htext
  exact hc (by simpa using congrArg String.toList htext)

/-- With no unit left all that is in parentheses is passed over. -/
theorem expression_zero {one closing : Token} {kind : NodeKind} {n : Nat} {c : Char} (past : Span)
    (hone : literalKind? one = some kind) (h : Wrapped '(' ')' [one] n tokens)
    (hclosing : closing.isSymbol c = true) (hc : c ∈ [')', ';']) (rest : List Token) :
    ∃ node messages, expression 0 past (tokens ++ closing :: rest) =
        ⟨some node, closing :: rest, messages⟩ ∧ Reported 0 (n + 1) tokens messages := by
  have hliteral : ∀ c, one.isSymbol c = false := fun c =>
    Bool.eq_false_iff.mpr fun hsymbol => by simp [literalKind?_of_isSymbol hsymbol] at hone
  have hpass : Grammar.afterExpression 0 (tokens ++ closing :: rest) = closing :: rest := by
    rw [h.afterExpression (by decide) (by decide)]
    · have hopener : isOpener closing = false := by
        grind [isOpener, isSymbol_unique]
      grind [Grammar.afterExpression, isCloser]
    · intro depth rest
      simp [Grammar.afterExpression, isOpener, isCloser, hliteral]
  obtain ⟨first, more, rfl⟩ : ∃ first more, tokens = first :: more := by
    cases h <;> exact ⟨_, _, rfl⟩
  refine ⟨.leaf .unknown first, [Message.error first.span (Problem.text .tooDeep)], ?_, fun h => ?_,
    fun _ => ⟨first, rfl, rfl⟩⟩
  · exact congrArg (fun left => Step.mk _ left _) hpass
  · exact absurd h (Nat.not_succ_le_zero n)

/-- A literal in parentheses is an expression, whether or not there are units enough for it. -/
theorem expression_parentheses {one : Token} {kind : NodeKind} (past : Span)
    (hone : literalKind? one = some kind) :
    ∀ (units : Nat) {n : Nat} {tokens : List Token} {c : Char} {closing : Token},
      Wrapped '(' ')' [one] n tokens → closing.isSymbol c = true → c ∈ [')', ';'] →
      ∀ rest, ∃ node messages,
        expression units past (tokens ++ closing :: rest) = ⟨some node, closing :: rest, messages⟩ ∧
          Reported units (n + 1) tokens messages
  | 0, _, _, _, _, h, hclosing, hc, rest => expression_zero past hone h hclosing hc rest
  | units + 1, n, tokens, c, closing, h, hclosing, hc, rest => by
      have hoperator := operator?_of_isSymbol hclosing (by grind) rest
      have hstops : Stops (closing :: rest) := stops_of_isSymbol hclosing hoperator (by grind)
      have hequals : ∀ t width, operator? (closing :: rest) = some (t, width) → t.text ≠ "=" := by
        rw [hoperator]
        rintro t width ⟨⟩
        exact text_ne_equals hclosing (by grind)
      cases h with
      | core =>
          refine ⟨.leaf kind one, [], expression_run ?_ ?_ hstops hequals, fun _ => rfl,
            fun hlt => absurd hlt (by omega)⟩
          · simp [isSign_of_startsOperand (t := one) (by simp [startsOperand, hone])]
          · exact reads_primary_some.mpr (.inl ⟨one, kind, hone, rfl, rfl⟩)
      | @wrap n opening closing' inner hopening hclosing' hinner =>
          obtain ⟨node, messages, hrun, hreported⟩ :=
            expression_parentheses past hone units hinner hclosing' (by decide) (closing :: rest)
          refine ⟨node, messages, ?_, hreported.wrap opening [closing']⟩
          rw [List.cons_append, List.append_assoc]
          refine expression_run ?_ (primary_run hopening hrun hclosing') hstops hequals
          simp [isSign_of_startsOperand (t := opening) (by simp [startsOperand, hopening])]

theorem orMissing_run (h : e past tokens = ⟨some node, rest, messages⟩) :
    orMissing e past tokens = ⟨node, rest, messages⟩ :=
  bind_reads h (reads_pure.mpr ⟨rfl, rfl⟩)

/-- An assignment to a name is read as its value is, with one unit less. -/
theorem expression_assignment {units : Nat} {name equals : Token} (hname : isName name = true)
    (hequals : equals.isSymbol '=' = true) (hoperator : operator? (equals :: tokens) = some (equals, 1))
    (h : expression units past tokens = ⟨some node, rest, messages⟩) :
    expression (units + 1) past (name :: equals :: tokens) =
      ⟨some (.mk .assignmentExpression equals [.leaf .identifier name, node]), rest, messages⟩ := by
  have hstops : Stops (equals :: tokens) := stops_of_isSymbol hequals hoperator (by decide)
  have hprimary : primary (expression units) past (name :: equals :: tokens) =
      ⟨some (.leaf .identifier name), equals :: tokens, []⟩ :=
    reads_primary_some.mpr (.inr (.inl ⟨name, hname, rfl, rfl⟩))
  have hsign : (name :: equals :: tokens).head?.any isSign = false := by
    simp [isSign_of_startsOperand (t := name) (by simp [startsOperand, hname])]
  obtain ⟨operand?, hunary⟩ := level_unary units
  have hoperand : (level units).unary past (name :: equals :: tokens) =
      ⟨some (.leaf .identifier name), equals :: tokens, []⟩ := by
    rw [hunary]
    exact unary_run hsign hprimary hstops
  have htarget : (binary (level units).unary precedenceLevels 1).Reads past (name :: equals :: tokens)
      (some (.leaf .identifier name)) (equals :: tokens) :=
    binary_run hoperand hstops precedenceLevels 1
  have hleft : tokensLeft.Reads past (equals :: tokens) (equals :: tokens) (equals :: tokens) := rfl
  have hskip : (skip 1).Reads past (equals :: tokens) () tokens := rfl
  refine htarget.bind_run.trans (hleft.bind_run.trans ?_)
  rw [hoperator]
  show (if equals.text = "=" then _ else _ : Production (Option Node)) past (equals :: tokens) = _
  rw [if_pos (text_of_isSymbol hequals)]
  exact hskip.bind_run.trans (bind_reads (orMissing_run h) (reads_pure.mpr ⟨rfl, rfl⟩))

end expressions

section blocks

variable {node : Node} {closing : Token} {units : Nat}

/-- A block of one statement is read as the statement is. -/
theorem block_of_statement {t : Token} (opening : Token) (ht : t.isSymbol '}' = false)
    (h : statement (block units) units past (t :: tokens) = ⟨some node, closing :: rest, messages⟩)
    (hlt : (closing :: rest).length < (t :: tokens).length) (hclosing : closing.isSymbol '}' = true) :
    block (units + 1) past (opening :: t :: tokens) =
      ⟨.mk .compoundStatement opening [node], rest, messages⟩ := by
  have hprogress : progressing (statement (block units) units) past (t :: tokens) =
      ⟨some node, closing :: rest, messages⟩ := by
    simp only [progressing, h, hlt, if_true]
  have hturn := nextStatement_some ht hprogress []
  have hdone : (repeatUpTo (nextStatement (statement (block units) units)) (t :: tokens).length
      [node]).Reads past (closing :: rest) [node] rest :=
    (Turns.done (reads_nextStatement_done.mpr ⟨⟨closing, hclosing, rfl⟩, rfl⟩)).reads_repeatUpTo hlt
  have hloop : repeatWhile (nextStatement (statement (block units) units)) [] past (t :: tokens) =
      ⟨[node], rest, messages⟩ := by
    rw [repeatWhile, repeatUpTo_succ_again (congrArg Step.result hturn), hturn]
    exact (congrArg (Step.after messages) hdone).trans
      (congrArg (Step.mk _ _) (List.append_nil messages))
  have htake : take.Reads past (opening :: t :: tokens) opening (t :: tokens) := rfl
  exact htake.bind_run.trans (bind_reads hloop (reads_pure.mpr ⟨rfl, rfl⟩))

theorem statement_of_block {opening : Token} {block : Production Node}
    (hopening : opening.isSymbol '{' = true)
    (h : block past (opening :: tokens) = ⟨node, rest, messages⟩) :
    statement block units past (opening :: tokens) = ⟨some node, rest, messages⟩ := by
  have hsemicolon : (takeIf fun t => t.isSymbol ';').Reads past (opening :: tokens) none
      (opening :: tokens) :=
    reads_takeIf_none.mpr ⟨by grind [isSymbol_unique], rfl⟩
  have hbrace : (atSymbol '{').Reads past (opening :: tokens) true (opening :: tokens) :=
    reads_atSymbol.mpr ⟨by simpa using hopening, rfl⟩
  exact hsemicolon.bind_run.trans (hbrace.bind_run.trans (bind_reads h (reads_pure.mpr ⟨rfl, rfl⟩)))

/-- An assignment to a name is a statement and no declaration. -/
theorem statement_of_assignment {block : Production Node} {name equals semicolon : Token}
    (hname : isName name = true) (hequals : equals.isSymbol '=' = true)
    (hsemicolon : semicolon.isSymbol ';' = true)
    (h : expression units past (name :: equals :: tokens) = ⟨some node, semicolon :: rest, messages⟩) :
    statement block units past (name :: equals :: tokens) =
      ⟨some (.mk .expressionStatement name [node]), rest, messages⟩ := by
  have hempty : (takeIf fun t => t.isSymbol ';').Reads past (name :: equals :: tokens) none
      (name :: equals :: tokens) :=
    reads_takeIf_none.mpr ⟨by simp [isSymbol_of_isName hname], rfl⟩
  have hbrace : (atSymbol '{').Reads past (name :: equals :: tokens) false
      (name :: equals :: tokens) :=
    reads_atSymbol.mpr ⟨by simp [isSymbol_of_isName hname], rfl⟩
  have hreturn : (atWord "return").Reads past (name :: equals :: tokens) false
      (name :: equals :: tokens) :=
    reads_atWord.mpr ⟨by simp [isWord_of_typed (t := name) (by simp [hname])], rfl⟩
  have hdeclaration : (variableDeclaration units).Reads past (name :: equals :: tokens) none
      (name :: equals :: tokens) := by
    refine reads_variableDeclaration_none.mpr ⟨rfl, _, reads_typeQualifiers.mpr
      ⟨[], rfl, by simp, by simp [isQualifier_of_isName hname], rfl⟩, .inr ⟨_, equals :: tokens,
      reads_typename_bare hname (fun _ => reads_typeArguments_none.mpr ⟨rfl, .inl ?_⟩) _, ?_⟩⟩
    · grind [isSymbol_unique]
    · simp [isName_of_isSymbol hequals]
  have hhere : here.Reads past (name :: equals :: tokens) name (name :: equals :: tokens) := rfl
  calc statement block units past (name :: equals :: tokens)
      = _ := hempty.bind_run
    _ = _ := hbrace.bind_run
    _ = _ := hreturn.bind_run
    _ = _ := hdeclaration.bind_run
    _ = _ := hhere.bind_run
    _ = ⟨some (.mk .expressionStatement name [node]), rest, messages⟩ := by
        refine bind_reads h (reads_bind.mpr ⟨(), rest, ?_, reads_pure.mpr ⟨rfl, rfl⟩⟩)
        exact reads_expect.mpr ⟨semicolon, hsemicolon, rfl⟩

/-- A block that assigns a literal in parentheses is read with two units more than the literal. -/
theorem block_assignment {n : Nat} {opening name equals one semicolon closing : Token} {kind : NodeKind}
    {value : List Token} (past : Span) (units : Nat) (hname : isName name = true)
    (hequals : equals.isSymbol '=' = true) (hone : literalKind? one = some kind)
    (hvalue : Wrapped '(' ')' [one] n value) (hsemicolon : semicolon.isSymbol ';' = true)
    (hclosing : closing.isSymbol '}' = true) (rest : List Token) :
    ∃ node messages,
      block (units + 2) past (opening :: (name :: equals :: (value ++ [semicolon, closing]) ++ rest)) =
        ⟨node, rest, messages⟩ ∧ Reported units (n + 1) value messages := by
  rw [List.cons_append, List.cons_append, List.append_assoc]
  have hfirst : (value ++ semicolon :: closing :: rest).head?.any (fun t => t.isSymbol '=') = false := by
    cases hvalue with
    | core => exact Bool.eq_false_iff.mpr fun h => by simp [literalKind?_of_isSymbol h] at hone
    | wrap hopening _ _ => exact Bool.eq_false_iff.mpr fun h => by cases isSymbol_unique hopening h
  obtain ⟨node, messages, hrun, hreported⟩ :=
    expression_parentheses past hone units hvalue hsemicolon (by decide) (closing :: rest)
  have hassignment := expression_assignment hname hequals (operator?_equals hequals hfirst) hrun
  refine ⟨_, messages, block_of_statement opening (isSymbol_of_isName hname '}')
    (statement_of_assignment hname hequals hsemicolon hassignment) ?_ hclosing, hreported⟩
  simp only [List.length_cons, List.length_append]
  omega

/-- With no unit left blocks are passed over. -/
theorem block_zero {n : Nat} (past : Span) (h : Wrapped '{' '}' [] (n + 1) tokens) (rest : List Token) :
    ∃ node messages, block 0 past (tokens ++ rest) = ⟨node, rest, messages⟩ ∧
      Reported 0 (n + 1) tokens messages := by
  cases h with
  | @wrap _ opening closing inner hopening hclosing hinner =>
      have hpass : Grammar.afterGroup 0 (opening :: (inner ++ [closing]) ++ rest) = rest := by
        obtain ⟨hcloses, hopens⟩ := isCloser_of_isSymbol hclosing (by decide)
        rw [List.cons_append, List.append_assoc, Grammar.afterGroup,
          if_pos (isOpener_of_isSymbol hopening (by decide)),
          hinner.afterGroup (by decide) (by decide)]
        simp [Grammar.afterGroup, hcloses, hopens]
      refine ⟨.leaf .unknown opening, [Message.error opening.span (Problem.text .tooDeep)], ?_,
        fun h => absurd h (Nat.not_succ_le_zero n), fun _ => ⟨opening, rfl, rfl⟩⟩
      exact congrArg (fun left => Step.mk _ left _) hpass

/-- Blocks in blocks are read, whether or not there are units enough for them. -/
theorem block_braces (past : Span) :
    ∀ (units : Nat) {n : Nat} {tokens : List Token}, Wrapped '{' '}' [] (n + 1) tokens →
      ∀ rest, ∃ node messages, block units past (tokens ++ rest) = ⟨node, rest, messages⟩ ∧
        Reported units (n + 1) tokens messages
  | 0, _, _, h, rest => block_zero past h rest
  | units + 1, 0, _, .wrap hopening hclosing .core, rest => by
      refine ⟨_, [], reads_block_succ.mpr ⟨[], Turns.reads (.done ?_), rfl⟩, fun _ => rfl,
        fun h => absurd h (by omega)⟩
      exact reads_nextStatement_done.mpr ⟨⟨_, hclosing, rfl⟩, rfl⟩
  | units + 1, n + 1, _, @Wrapped.wrap _ _ _ _ opening closing _ hopening hclosing
      (@Wrapped.wrap _ _ _ _ opening' closing' inner hopening' hclosing' hinner), rest => by
      obtain ⟨node, messages, hrun, hreported⟩ :=
        block_braces past units (.wrap hopening' hclosing' hinner) (closing :: rest)
      have hbrace : opening'.isSymbol '}' = false := isSymbol_eq hopening' _
      have hlt : (closing :: rest).length <
          (opening' :: (inner ++ [closing'] ++ closing :: rest)).length := by
        simp only [List.length_cons, List.length_append]
        omega
      refine ⟨.mk .compoundStatement opening [node], messages, ?_, hreported.wrap opening [closing]⟩
      rw [List.cons_append, List.append_assoc]
      exact block_of_statement opening hbrace (statement_of_block hopening' hrun) hlt hclosing

end blocks

end Shading.Grammar

namespace Shading

open Grammar Production Lexeme

/-- A function `f` that assigns 1 in `n` pairs of parentheses. -/
def parenthesised (n : Nat) : List Lexeme :=
  [word "void", word "f", symbol '(', symbol ')', symbol '{', word "x", symbol '='] ++
    (List.replicate n (symbol '(') ++ [{ kind := .integer, text := "1" }] ++
      List.replicate n (symbol ')')) ++ [symbol ';', symbol '}']

/-- A function `f` of `n` blocks, one in the other. -/
def nestedBlocks (n : Nat) : List Lexeme :=
  [word "void", word "f", symbol '(', symbol ')'] ++
    (List.replicate n (symbol '{') ++ [] ++ List.replicate n (symbol '}'))

/-- The value of the assignment has 62 units, so it is the 63rd token of the value that has none. -/
theorem leadsWith_parenthesised {n : Nat} {front : List Token} (more : List Token)
    (h : front.map ofToken = parenthesised n) :
    ∃ messages, LeadsWith "f" front more messages ∧ Reported 62 (n + 1) (front.drop 7) messages := by
  obtain ⟨front, last, rfl, hfront, hlast⟩ := List.map_eq_append_iff.mp h
  obtain ⟨front, value, rfl, hfront, hvalue⟩ := List.map_eq_append_iff.mp hfront
  obtain ⟨head, assigned, rfl, hhead, hassigned⟩ :=
    List.map_eq_append_iff.mp (hfront.trans (List.take_append_drop 4 _).symm)
  obtain ⟨opening, assigned, rfl, hopening, hassigned⟩ := map_ofToken_symbol hassigned
  obtain ⟨name, assigned, rfl, hname, -, hassigned⟩ := map_ofToken_word (by decide) hassigned
  obtain ⟨equals, assigned, rfl, hequals, hassigned⟩ := map_ofToken_symbol hassigned
  obtain rfl : assigned = [] := List.map_eq_nil_iff.mp hassigned
  obtain ⟨core, hcore, hwrapped⟩ := exists_wrapped hvalue
  obtain ⟨one, core, rfl, hone, hcore⟩ := List.map_eq_cons_iff.mp hcore
  obtain rfl : core = [] := List.map_eq_nil_iff.mp hcore
  obtain ⟨semicolon, last, rfl, hsemicolon, hlast⟩ := map_ofToken_symbol hlast
  obtain ⟨closing, last, rfl, hclosing, hlast⟩ := map_ofToken_symbol hlast
  obtain rfl : last = [] := List.map_eq_nil_iff.mp hlast
  have hliteral : literalKind? one = some .integerLiteral := by
    have hkind : one.kind = .integer := congrArg Lexeme.kind hone
    simp [literalKind?, hkind, TokenClass.isInteger]
  obtain ⟨node, messages, hrun, hreported⟩ :=
    block_assignment _ (nestingLimit - 2) hname hequals hliteral hwrapped hsemicolon hclosing more
  refine ⟨messages, ?_, ?_⟩
  · have hleads := leadsWith_of_block (by decide) (by decide) hhead hopening hrun
    simpa using hleads
  · have hlength : (head ++ [opening, name, equals]).length = 7 := by
      simpa using congrArg List.length hfront
    rw [← hlength, List.append_assoc, List.drop_left]
    exact hreported.append _

theorem leadsWith_nestedBlocks {n : Nat} {front : List Token} (more : List Token)
    (h : front.map ofToken = nestedBlocks (n + 1)) :
    ∃ messages, LeadsWith "f" front more messages ∧ Reported 64 (n + 1) (front.drop 4) messages := by
  obtain ⟨head, blocks, rfl, hhead, hblocks⟩ := List.map_eq_append_iff.mp h
  obtain ⟨core, hcore, hwrapped⟩ := exists_wrapped hblocks
  obtain rfl : core = [] := List.map_eq_nil_iff.mp hcore
  obtain ⟨node, messages, hrun, hreported⟩ :=
    block_braces (pastEnd (head ++ (blocks ++ more))) nestingLimit hwrapped more
  obtain ⟨opening, inside, rfl, hopening⟩ :
      ∃ opening inside, blocks = opening :: inside ∧ opening.isSymbol '{' = true := by
    cases hwrapped with
    | wrap hopening _ _ => exact ⟨_, _, rfl, hopening⟩
  refine ⟨messages, leadsWith_of_block (by decide) (by decide) hhead hopening hrun, ?_⟩
  have hlength : head.length = 4 := by simpa using congrArg List.length hhead
  rw [← hlength, List.drop_left]
  exact hreported

/-- **The limit of nesting is exact.**  With up to 61 pairs of parentheses in an assignment, or up to 64
blocks, nothing is reported.  With more, one problem is, at the first token that has no unit left, and
everything after the function is read as it is alone. -/
theorem parse_nesting (n : Nat) (front more : List Token) :
    (front.map ofToken = parenthesised n → ∃ messages, LeadsWith "f" front more messages ∧
      (n ≤ 61 → messages = []) ∧
      (61 < n → ∃ t, front[69]? = some t ∧
        messages = [Message.error t.span "Nesting is too deep"])) ∧
    (1 ≤ n → front.map ofToken = nestedBlocks n → ∃ messages, LeadsWith "f" front more messages ∧
      (n ≤ 64 → messages = []) ∧
      (64 < n → ∃ t, front[68]? = some t ∧
        messages = [Message.error t.span "Nesting is too deep"])) := by
  constructor
  · intro h
    obtain ⟨messages, hleads, henough, hbeyond⟩ := leadsWith_parenthesised more h
    refine ⟨messages, hleads, fun hle => henough (by omega), fun hlt => ?_⟩
    rw [List.getElem?_drop] at hbeyond
    exact hbeyond (by omega)
  · rintro hn h
    obtain ⟨n, rfl⟩ := Nat.exists_eq_add_of_le' hn
    obtain ⟨messages, hleads, henough, hbeyond⟩ := leadsWith_nestedBlocks more h
    refine ⟨messages, hleads, henough, fun hlt => ?_⟩
    rw [List.getElem?_drop] at hbeyond
    exact hbeyond hlt

theorem parse_nesting_beyond :
    (∃ messages, LeadsWith "f" (layout 0 (parenthesised 62)) brokenSample messages ∧
      ∃ t, (layout 0 (parenthesised 62))[69]? = some t ∧
        messages = [Message.error t.span "Nesting is too deep"]) ∧
    ∃ messages, LeadsWith "f" (layout 0 (nestedBlocks 65)) brokenSample messages ∧
      ∃ t, (layout 0 (nestedBlocks 65))[68]? = some t ∧
        messages = [Message.error t.span "Nesting is too deep"] := by
  obtain ⟨messages, hleads, -, hbeyond⟩ :=
    (parse_nesting 62 (layout 0 (parenthesised 62)) brokenSample).1 (by decide +kernel)
  obtain ⟨messages', hleads', -, hbeyond'⟩ :=
    (parse_nesting 65 (layout 0 (nestedBlocks 65)) brokenSample).2 (by decide) (by decide +kernel)
  exact ⟨⟨messages, hleads, hbeyond (by decide)⟩, messages', hleads', hbeyond' (by decide)⟩

end Shading
