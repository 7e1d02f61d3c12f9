import Shading.Proofs.Grammar.Acceptance

/-! # Reading statements that are written

A statement that begins with a name may be a variable declaration or an expression.  The declaration
is tried first, so it has to be shown that it is declined wherever an expression is written
(`declines_expression`): after its first name comes no second one, and after an opening angle bracket
come no type arguments.  The main result is `accepts_block`. -/

namespace Shading.Grammar

open Production Lexeme Syntax

variable {past : Span} {tokens rest : List Token} {more : List Lexeme}

/-! ### Expressions are no declarations -/

/-- The lexemes cannot be type arguments and the bracket after them: there is no name, or what comes
after it belongs to no list of types. -/
def NoTypeArguments (lexemes : List Lexeme) : Prop :=
  ∀ l more, lexemes = l :: more → isName l.token = true →
    NotAt '<' more ∧ NotAt ',' more ∧ NotAt '>' more

/-- No type name and name begin the lexemes, and no qualifier. -/
def Declines (lexemes : List Lexeme) : Prop :=
  begins isQualifier lexemes = false ∧
    ∀ l more, lexemes = l :: more → isName l.token = true →
      begins isName more = false ∧
        ∀ bracket inner, more = bracket :: inner → bracket.token.isSymbol '<' = true →
          NoTypeArguments inner

theorem isSymbol_of_opensSuffix {t : Token} (h : opensSuffix t = true) {c : Char}
    (hc : c ≠ '(' ∧ c ≠ '.' ∧ c ≠ '[') : t.isSymbol c = false := by
  simp only [opensSuffix, Bool.or_eq_true] at h
  obtain (h | h) | h := h
  · exact isSymbol_ne h hc.1
  · exact isSymbol_ne h hc.2.1
  · exact isSymbol_ne h hc.2.2

theorem isName_of_opensSuffix {t : Token} (h : opensSuffix t = true) : isName t = false := by
  simp only [opensSuffix, Bool.or_eq_true] at h
  obtain (h | h) | h := h <;> exact isName_of_isSymbol h

/-- What begins an operand is no qualifier. -/
theorem isQualifier_of_startsOperand {t : Token} (h : startsOperand t = true) :
    isQualifier t = false := by
  cases hq : isQualifier t with
  | false => rfl
  | true =>
      simp only [isQualifier, Bool.and_eq_true, beq_iff_eq, qualifiers, List.contains_eq_mem,
        decide_eq_true_eq, List.mem_cons, List.not_mem_nil, or_false] at hq
      obtain ⟨hkind, htext⟩ := hq
      obtain htext | htext | htext | htext | htext := htext <;>
        simp [startsOperand, isName, literalKind?, Token.isSymbol, Token.isWord, hkind, htext,
          keywords, TokenClass.isInteger, TokenClass.isFloat] at h

/-- What begins an expression is not the word `return`. -/
theorem isWord_of_startsExpression {t : Token} (h : startsExpression t = true) :
    t.isWord "return" = false := by
  cases hw : t.isWord "return" with
  | false => rfl
  | true =>
      simp only [Token.isWord, Bool.and_eq_true, beq_iff_eq] at hw
      obtain ⟨hkind, htext⟩ := hw
      simp [startsExpression, startsOperand, isSign, isName, literalKind?, Token.isSymbol, Token.isWord,
        hkind, htext, keywords, TokenClass.isInteger, TokenClass.isFloat] at h

theorem noTypeArguments_operand {first : List Lexeme} (h : HeadsOperand first) :
    NoTypeArguments (first ++ symbol ';' :: more) := by
  obtain ⟨l, tail, rfl, _, htail⟩ := h
  rintro _ _ ⟨⟩ hname
  rcases htail hname with rfl | htail
  · exact ⟨rfl, rfl, rfl⟩
  · refine ⟨?_, ?_, ?_⟩ <;>
      exact begins_append (fun _ ht => isSymbol_of_opensSuffix ht (by decide)) htail _

/-- After an operand with which a declaration would begin, neither a name nor type arguments may
follow. -/
theorem HeadsOperand.declines {first : List Lexeme} (h : HeadsOperand first)
    (hname : begins isName more = false)
    (harguments : ∀ bracket inner, more = bracket :: inner → bracket.token.isSymbol '<' = true →
      NoTypeArguments inner) : Declines (first ++ more) := by
  obtain ⟨l, tail, rfl, hl, htail⟩ := h
  refine ⟨isQualifier_of_startsOperand hl, ?_⟩
  rintro _ _ ⟨⟩ hl
  rcases htail hl with rfl | htail
  · exact ⟨hname, harguments⟩
  · refine ⟨begins_append (fun _ => isName_of_opensSuffix) htail more, ?_⟩
    intro bracket inner hinner hbracket
    have hnone : NotAt '<' (tail ++ more) :=
      begins_append (fun _ ht => isSymbol_of_opensSuffix ht (by decide)) htail more
    have hinner : tail ++ more = bracket :: inner := hinner
    rw [hinner] at hnone
    exact Bool.noConfusion (hbracket.symm.trans hnone)

theorem declines_symbol (c : Char) (more : List Lexeme) : Declines (symbol c :: more) := by
  refine ⟨rfl, ?_⟩
  rintro _ _ ⟨⟩ hname
  exact Bool.noConfusion hname

/-- Where an expression and a semicolon are written, no declaration is. -/
theorem declines_expression (e : Expression) (more : List Lexeme) :
    Declines (e.lexemes ++ symbol ';' :: more) := by
  have hstem : e.isCompound = false → Declines (e.lexemes ++ symbol ';' :: more) := by
    intro hsimple
    have hhead := headsOperand e
    rw [Expression.operandLexemes, hsimple] at hhead
    refine hhead.declines rfl ?_
    rintro _ _ ⟨⟩ hbracket
    exact Bool.noConfusion hbracket
  cases e with
  | literal value => exact hstem rfl
  | name spelling => exact hstem rfl
  | call callee arguments => exact hstem rfl
  | member object field => exact hstem rfl
  | index object place => exact hstem rfl
  | unary sign operand => exact declines_symbol _ _
  | assignment target value =>
      rw [Expression.lexemes, List.append_assoc]
      refine (headsOperand target).declines rfl ?_
      rintro _ _ ⟨⟩ hbracket
      exact Bool.noConfusion hbracket
  | binary op left right =>
      rw [Expression.lexemes, List.append_assoc, List.append_assoc]
      refine (headsOperand left).declines (by cases op <;> rfl) ?_
      intro bracket inner hinner hbracket
      cases op with
      | lt =>
          obtain ⟨_, rfl⟩ := List.cons.inj hinner
          exact noTypeArguments_operand (headsOperand right)
      | le =>
          obtain ⟨_, rfl⟩ := List.cons.inj hinner
          rintro _ _ ⟨⟩ hname
          exact Bool.noConfusion hname
      | _ =>
          obtain ⟨rfl, _⟩ := List.cons.inj hinner
          exact Bool.noConfusion hbracket

/-! ### A declaration is declined -/

/-- A name that no type arguments follow is a whole type name. -/
theorem reads_typename_bare {t : Token} (hname : isName t = true)
    (harguments : ∀ item, (typeArguments item).Reads past rest none rest) (levels : Nat) :
    (typenameWithin levels).Reads past (t :: rest) (some (.mk .typename t [])) rest := by
  cases levels with
  | zero => exact reads_typenameWithin_zero.mpr ⟨t, hname, rfl, rfl⟩
  | succ levels =>
      exact reads_typenameWithin_succ.mpr ⟨t, rest, none, hname, rfl, harguments _, rfl⟩

/-- Type arguments are declined where there are none. -/
theorem reads_typeArguments_declined
    (h : ∀ bracket inner, ofTokens tokens = bracket :: inner → bracket.token.isSymbol '<' = true →
      NoTypeArguments inner) (levels : Nat) :
    (typeArguments (typenameWithin levels)).Reads past tokens none tokens := by
  refine reads_typeArguments_none.mpr ⟨rfl, ?_⟩
  cases hbracket : tokens.head?.any (fun t => t.isSymbol '<') with
  | false => exact .inl rfl
  | true =>
      obtain ⟨opening, mid, rfl, hopening⟩ := head?_any_eq_true.mp hbracket
      have hinner := h _ _ rfl hopening
      cases hname : mid.head?.any isName with
      | false =>
          -- no type name comes after the bracket
          have hdone : (nextItem (typenameWithin levels) {}).Reads past mid
              (.done { complete := false }) mid :=
            reads_nextItem_done.mpr (.inl ⟨reads_typenameWithin_none.mpr ⟨hname, rfl⟩, rfl⟩)
          exact .inr ⟨opening, mid, _, mid, hopening, rfl, Turns.reads (.done hdone), .inl rfl⟩
      | true =>
          -- a bare type name does, but neither a comma nor a bracket after it
          obtain ⟨t, left, rfl, ht⟩ := head?_any_eq_true.mp hname
          obtain ⟨hopens, hcomma, hcloses⟩ := hinner _ _ rfl ht
          have hnone : ∀ c, NotAt c (ofTokens left) →
              left.head?.any (fun t => t.isSymbol c) = false :=
            fun c hc => head?_any_isSymbol rfl hc
          have htype : (typenameWithin levels).Reads past (t :: left) (some (.mk .typename t [])) left :=
            reads_typename_bare ht
              (fun _ => reads_typeArguments_none.mpr ⟨rfl, .inl (hnone '<' hopens)⟩) levels
          have hdone : (nextItem (typenameWithin levels) {}).Reads past (t :: left)
              (.done { nodes := [.mk .typename t []] }) left :=
            reads_nextItem_done.mpr (.inr ⟨_, htype, hnone ',' hcomma, rfl⟩)
          exact .inr ⟨opening, _, _, left, hopening, rfl, Turns.reads (.done hdone),
            .inr (hnone '>' hcloses)⟩

theorem reads_variableDeclaration_declined {units : Nat} (h : Declines (ofTokens tokens)) :
    (variableDeclaration units).Reads past tokens none tokens := by
  obtain ⟨hqualifier, hname⟩ := h
  have hqualifiers : typeQualifiers.Reads past tokens [] tokens := by
    refine reads_typeQualifiers.mpr ⟨[], rfl, fun _ ht => absurd ht List.not_mem_nil, ?_, rfl⟩
    exact (head?_any_eq_begins (fun _ => rfl) tokens).trans hqualifier
  refine reads_variableDeclaration_none.mpr ⟨rfl, tokens, hqualifiers, ?_⟩
  cases hfirst : tokens.head?.any isName with
  | false => exact .inl ⟨tokens, reads_typenameWithin_none.mpr ⟨hfirst, rfl⟩⟩
  | true =>
      obtain ⟨t, left, rfl, ht⟩ := head?_any_eq_true.mp hfirst
      obtain ⟨hsecond, harguments⟩ := hname _ _ rfl ht
      refine .inr ⟨_, left, reads_typenameWithin_succ.mpr ⟨t, left, none, ht, rfl,
        reads_typeArguments_declined harguments _, rfl⟩, ?_⟩
      exact (head?_any_eq_begins (fun _ => rfl) left).trans hsecond

/-! ### Typed names -/

theorem exists_qualifiers : ∀ (qualifiers : List Qualifier) {tokens : List Token},
    ofTokens tokens = qualifiers.map (fun q => word q.text) ++ more →
    ∃ words rest, tokens = words ++ rest ∧ (∀ t ∈ words, isQualifier t = true) ∧
      ofTokens rest = more ∧
      (words.map (Node.leaf .typeQualifier)).map Node.shape = qualifiers.map Qualifier.shape
  | [], tokens, hw => ⟨[], tokens, rfl, fun _ ht => absurd ht List.not_mem_nil, hw, rfl⟩
  | q :: qualifiers, tokens, hw => by
      obtain ⟨t, left, rfl, hkind, htext, hleft⟩ := exists_word hw
      obtain ⟨words, rest, rfl, hwords, hrest, hshapes⟩ := exists_qualifiers qualifiers hleft
      have ht : isQualifier t = true := by
        simp [isQualifier, hkind, htext, q.isQualifier]
      refine ⟨t :: words, rest, rfl, ?_, hrest, ?_⟩
      · exact List.forall_mem_cons.mpr ⟨ht, hwords⟩
      · rw [List.map_cons, List.map_cons, hshapes, Node.shape_leaf, htext]
        rfl

/-- Qualifiers, a type name and a name are read one after another. -/
theorem reads_typed (d : Typed) (hdepth : d.type.depth ≤ nestingLimit) (past : Span)
    (hw : ofTokens tokens = d.lexemes ++ more) :
    ∃ qualifiers left type name mid, typeQualifiers.Reads past tokens qualifiers left ∧
      typename.Reads past left (some type) (name :: mid) ∧ isName name = true ∧
      name.text = d.name.text ∧ ofTokens mid = more ∧
      (qualifiers ++ [type, Node.leaf .identifier name]).map Node.shape = d.shapes := by
  rw [Typed.lexemes, List.append_assoc, List.append_assoc] at hw
  obtain ⟨words, left, rfl, hwords, hleft, hshapes⟩ := exists_qualifiers d.qualifiers hw
  have hfirst : left.head?.any isQualifier = false := by
    rw [head?_any_eq_begins (fun _ => rfl), hleft]
    cases d.type with
    | mk name arguments =>
        rw [Typename.lexemes_mk]
        exact isQualifier_of_isName (isName_token_name name)
  obtain ⟨_, rest, htype, hrest, type, rfl, hshape⟩ :=
    accepts_typenameWithin nestingLimit d.type hdepth past left _ hleft rfl
  obtain ⟨name, mid, rfl, hname, htext, hmid⟩ := exists_name hrest
  refine ⟨_, left, type, name, mid, reads_typeQualifiers.mpr ⟨words, rfl, hwords, hfirst, rfl⟩,
    htype, hname, htext, hmid, ?_⟩
  simp only [List.map_append, hshapes, List.map_cons, List.map_nil, hshape, Node.shape_leaf, htext]
  rfl

/-- A typed name begins with a qualifier or a name. -/
theorem begins_typed (d : Typed) : begins (fun t => isName t || isQualifier t) d.lexemes = true := by
  obtain ⟨qualifiers, ⟨first, arguments⟩, name⟩ := d
  cases qualifiers with
  | nil =>
      rw [Typed.lexemes, Typename.lexemes_mk]
      show (isName _ || _) = true
      rw [isName_token_name first, Bool.true_or]
  | cons q qualifiers =>
      show (_ || isQualifier (word q.text).token) = true
      simp [isQualifier, word, token, q.isQualifier]

theorem isSymbol_of_typed {t : Token} (h : (isName t || isQualifier t) = true) (c : Char) :
    t.isSymbol c = false := by
  cases hsymbol : t.isSymbol c with
  | false => rfl
  | true => simp [isName_of_isSymbol hsymbol, isQualifier_of_isSymbol hsymbol] at h

theorem isWord_of_typed {t : Token} (h : (isName t || isQualifier t) = true) :
    t.isWord "return" = false := by
  cases hword : t.isWord "return" with
  | false => rfl
  | true =>
      simp only [Token.isWord, Bool.and_eq_true, beq_iff_eq] at hword
      simp [isName, isQualifier, hword.1, hword.2, keywords, qualifiers] at h

theorem notAt_typed (d : Typed) (c : Char) (more : List Lexeme) : NotAt c (d.lexemes ++ more) :=
  begins_append (fun _ ht => isSymbol_of_typed ht c) (begins_typed d) more

/-! ### Initialisers -/

/-- An item does not begin with a closing brace. -/
theorem notAt_initialiser (item : Initialiser) (more : List Lexeme) :
    NotAt '}' (item.lexemes ++ more) := by
  cases item with
  | expression e => exact notAt_expression e (by decide) more
  | braced items =>
      rw [Initialiser.lexemes, enclosed_append]
      rfl

/-- An item is read if braced lists are. -/
theorem accepts_bracedItem {units : Nat}
    (hlist : ∀ items, Initialiser.nestingAll items < units →
      Accepts (bracedList units) (Initialiser.braced items).lexemes (fun _ => True)
        (fun node => node.shape = (Initialiser.braced items).shape))
    (item : Initialiser) (hnesting : item.nesting ≤ units) :
    Accepts (bracedItem (bracedList units) (expression units)) item.lexemes Ends
      (Found item.shape) := by
  intro past tokens more hw hmore
  cases item with
  | expression e =>
      obtain ⟨_, rest, hreads, hrest, node, rfl, hshape⟩ :=
        accepts_expression e hnesting past tokens more hw hmore
      have hbrace : tokens.head?.any (fun t => t.isSymbol '{') = false :=
        head?_any_isSymbol hw (notAt_expression e (by decide) more)
      exact ⟨some node, rest, reads_bracedItem_some.mpr (.inr ⟨hbrace, hreads⟩), hrest,
        node, rfl, hshape⟩
  | braced items =>
      obtain ⟨node, rest, hreads, hrest, hshape⟩ := hlist items hnesting past tokens more hw trivial
      have hbrace : tokens.head?.any (fun t => t.isSymbol '{') = true := head?_any_isSymbol hw rfl
      exact ⟨some node, rest, reads_bracedItem_some.mpr (.inl ⟨hbrace, hreads⟩), hrest,
        node, rfl, hshape⟩

/-- The items of a braced list are read up to the closing brace. -/
theorem turns_braced {item : Production (Option Node)} (past : Span) : ∀ (items : List Initialiser),
    (∀ i ∈ items, Accepts item i.lexemes Ends (Found i.shape)) → ∀ {tokens : List Token},
    ofTokens tokens = commaSeparated (items.map Initialiser.lexemes) ++ symbol '}' :: more →
    ∃ nodes rest, Turns (nextBraced item) past {} tokens { nodes := nodes } rest ∧
      ofTokens rest = symbol '}' :: more ∧ nodes.map Node.shape = items.map Initialiser.shape
  | [], _, tokens, hw => by
      have hbrace : tokens.head?.any (fun t => t.isSymbol '}') = true := head?_any_isSymbol hw rfl
      exact ⟨[], tokens, .done (reads_nextBraced.mpr (.inl ⟨hbrace, rfl, rfl⟩)), hw, rfl⟩
  | first :: others, hitem, tokens, hw => by
      refine turns_items (ends_symbol (by decide)) first others hitem ?_ past tokens _ {} hw
        (ends_symbol (by decide) more) rfl
      intro i _ past tokens more items next rest hw hreads
      have hbrace : tokens.head?.any (fun t => t.isSymbol '}') = false :=
        head?_any_isSymbol hw (notAt_initialiser i more)
      exact reads_nextBraced.mpr (.inr ⟨hbrace, hreads⟩)

theorem accepts_bracedList : ∀ (units : Nat) (items : List Initialiser),
    Initialiser.nestingAll items < units →
    Accepts (bracedList units) (Initialiser.braced items).lexemes (fun _ => True)
      (fun node => node.shape = (Initialiser.braced items).shape)
  | units + 1, items, hnesting, past, tokens, more, hw, _ => by
      have hitem : ∀ i ∈ items, Accepts (bracedItem (bracedList units) (expression units)) i.lexemes
          Ends (Found i.shape) := by
        intro i hi
        have hle := Initialiser.nesting_le_nestingAll hi
        exact accepts_bracedItem (accepts_bracedList units) i
          (Nat.le_trans hle (Nat.le_of_lt_succ hnesting))
      rw [Initialiser.lexemes, Initialiser.lexemesAll_eq_map, enclosed_append] at hw
      obtain ⟨opening, mid, rfl, _, htext, hmid⟩ := exists_symbol hw
      obtain ⟨nodes, rest, hturns, hrest, hshapes⟩ := turns_braced past items hitem hmid
      obtain ⟨closing, rest, rfl, hclosing, _, hrest⟩ := exists_symbol hrest
      refine ⟨_, rest, reads_bracedList_succ.mpr
        ⟨_, closing, hturns.reads, rfl, hclosing, rfl⟩, hrest, ?_⟩
      simp only [Node.shape_mk, htext, hshapes, Initialiser.shape, Initialiser.shapeAll_eq_map]

theorem accepts_initialiser (item : Initialiser) {units : Nat} (hnesting : item.nesting ≤ units) :
    Accepts (initialiser units) item.lexemes Ends (fun node => node.shape = item.shape) := by
  intro past tokens more hw hmore
  obtain ⟨_, rest, hreads, hrest, node, rfl, hshape⟩ :=
    accepts_bracedItem (accepts_bracedList units) item hnesting past tokens more hw hmore
  exact ⟨node, rest, reads_initialiser.mpr (reads_bracedItem_some.mp hreads), hrest, hshape⟩

/-! ### Statements -/

theorem accepts_initialValue (value? : Option Initialiser) {units : Nat}
    (hnesting : ∀ value ∈ value?, value.nesting ≤ units) :
    Accepts (initialValue units) (Statement.valueLexemes value?)
      (fun more => ∃ rest, more = symbol ';' :: rest)
      (fun nodes => nodes.map Node.shape = value?.toList.map Initialiser.shape) := by
  rintro past tokens _ hw ⟨more, rfl⟩
  cases value? with
  | none =>
      have hw : ofTokens tokens = symbol ';' :: more := hw
      have hequals : tokens.head?.any (fun t => t.isSymbol '=') = false := head?_any_isSymbol hw rfl
      exact ⟨[], tokens, reads_initialValue.mpr (.inl ⟨hequals, rfl, rfl⟩), hw, rfl⟩
  | some value =>
      obtain ⟨equals, tail, rfl, hequals, _, htail⟩ := exists_symbol hw
      obtain ⟨node, rest, hreads, hrest, hshape⟩ := accepts_initialiser value (hnesting value rfl)
        past tail _ htail (ends_symbol (by decide) more)
      refine ⟨[node], rest, reads_initialValue.mpr (.inr ⟨equals, tail, node, hequals, rfl, hreads, rfl⟩),
        hrest, ?_⟩
      simp only [Option.toList_some, List.map_cons, List.map_nil, hshape]

theorem accepts_variableDeclaration (d : Typed) (hdepth : d.type.depth ≤ nestingLimit)
    (value? : Option Initialiser) {units : Nat} (hnesting : ∀ value ∈ value?, value.nesting ≤ units) :
    Accepts (variableDeclaration units) (Statement.declaration d value?).lexemes (fun _ => True)
      (Found (Statement.declaration d value?).shape) := by
  intro past tokens more hw _
  rw [Statement.lexemes_declaration, List.append_assoc, List.append_assoc] at hw
  obtain ⟨qualifiers, left, type, name, mid, hq, htype, hname, htext, hmid, hshapes⟩ :=
    reads_typed d hdepth past hw
  obtain ⟨value, rest, hvalue, hrest, hshape⟩ :=
    accepts_initialValue value? hnesting past mid _ hmid ⟨more, rfl⟩
  obtain ⟨ending, rest, rfl, hending, _, hrest⟩ := exists_symbol hrest
  refine ⟨_, rest, reads_variableDeclaration_some.mpr ⟨qualifiers, left, type, mid, name, value, ending,
    hq, htype, hname, hvalue, hending, rfl⟩, hrest, _, rfl, ?_⟩
  rw [Node.shape_mk, List.map_append, hshapes, hshape, htext, Statement.shape]

theorem accepts_returnStatement (value? : Option Expression) {units : Nat}
    (hnesting : ∀ value ∈ value?, value.nesting < units) :
    Accepts (returnStatement units) (Statement.ret value?).lexemes (fun _ => True)
      (fun node => node.shape = (Statement.ret value?).shape) := by
  intro past tokens more hw _
  cases value? with
  | none =>
      obtain ⟨t, mid, rfl, _, htext, hmid⟩ := exists_word hw
      obtain ⟨ending, rest, rfl, hending, _, hrest⟩ := exists_symbol hmid
      refine ⟨_, rest, reads_returnStatement.mpr ⟨none, ending, .inl ⟨hending, rfl, rfl⟩, hending, rfl⟩,
        hrest, ?_⟩
      simp only [Node.shape_mk, htext, Statement.shape]
      rfl
  | some e =>
      rw [Statement.lexemes, List.append_assoc] at hw
      obtain ⟨t, mid, rfl, _, htext, hmid⟩ := exists_word hw
      have hmid : ofTokens mid = e.lexemes ++ symbol ';' :: more := hmid
      obtain ⟨_, rest, hreads, hrest, node, rfl, hshape⟩ :=
        accepts_expression e (hnesting e rfl) past mid _ hmid (ends_symbol (by decide) more)
      obtain ⟨ending, rest, rfl, hending, _, hrest⟩ := exists_symbol hrest
      have hvalue : mid.head?.any (fun t => t.isSymbol ';') = false :=
        head?_any_isSymbol hmid (notAt_expression e (by decide) _)
      refine ⟨_, rest, reads_returnStatement.mpr
        ⟨some node, ending, .inr ⟨hvalue, hreads⟩, hending, rfl⟩, hrest, ?_⟩
      simp only [Node.shape_mk, htext, Statement.shape, Option.toList_some, List.map_cons, List.map_nil,
        hshape]

theorem accepts_expressionStatement (e : Expression) {units : Nat} (hnesting : e.nesting < units) :
    Accepts (expressionStatement units) (Statement.expression e).lexemes (fun _ => True)
      (Found (Statement.expression e).shape) := by
  intro past tokens more hw _
  rw [Statement.lexemes, List.append_assoc] at hw
  obtain ⟨_, rest, hreads, hrest, node, rfl, hshape⟩ :=
    accepts_expression e hnesting past tokens _ hw (ends_symbol (by decide) more)
  obtain ⟨ending, rest, rfl, hending, _, hrest⟩ := exists_symbol hrest
  refine ⟨_, rest, reads_expressionStatement_some.mpr ⟨node, ending, hreads, hending, rfl⟩, hrest,
    _, rfl, ?_⟩
  obtain ⟨l, tail, he, _⟩ := exists_head_of_begins (begins_startsExpression e)
  rw [he] at hw
  obtain ⟨t, _, rfl, _, htext, _⟩ := ofTokens_eq_cons.mp hw
  simp only [Node.shape_mk, List.head?_cons, Option.getD_some, htext, Statement.shape, he, headText,
    Option.map_some, List.map_cons, List.map_nil, hshape]

/-- A statement that is not told by its first token is a declaration or an expression. -/
theorem reads_statement_other {block : Production Node} {units : Nat} {node : Node}
    {condition : Token → Bool} (hfirst : tokens.head?.any condition = true)
    (hsymbol : ∀ t, condition t = true → t.isSymbol ';' = false ∧ t.isSymbol '{' = false)
    (hword : ∀ t, condition t = true → t.isWord "return" = false)
    (h : (variableDeclaration units).Reads past tokens (some node) rest ∨
      ∃ mid, (variableDeclaration units).Reads past tokens none mid ∧
        (expressionStatement units).Reads past mid (some node) rest) :
    (statement block units).Reads past tokens (some node) rest := by
  cases tokens with
  | nil => cases hfirst
  | cons t tail =>
      have hnone : t.isSymbol ';' = false ∧ t.isSymbol '{' = false := hsymbol _ hfirst
      exact reads_statement_some.mpr
        (.inr (.inr (.inr ⟨hnone.1, hnone.2, hword _ hfirst, h⟩)))

/-- A statement is read if blocks are. -/
theorem accepts_statement {units : Nat}
    (hblock : ∀ statements, Statement.nestingAll statements < units →
      Statement.typeDepthAll statements ≤ nestingLimit →
      Accepts (block units) (Statement.block statements).lexemes (fun _ => True)
        (fun node => node.shape = (Statement.block statements).shape))
    (s : Statement) (hnesting : s.nesting ≤ units) (hdepth : s.typeDepth ≤ nestingLimit) :
    Accepts (statement (block units) units) s.lexemes (fun _ => True) (Found s.shape) := by
  intro past tokens more hw hmore
  cases s with
  | empty =>
      obtain ⟨t, rest, rfl, ht, htext, hrest⟩ := exists_symbol hw
      refine ⟨_, rest, reads_statement_some.mpr (.inl ⟨ht, rfl, rfl⟩), hrest, _, rfl, ?_⟩
      rw [Node.shape_leaf, htext]
      rfl
  | block statements =>
      obtain ⟨node, rest, hreads, hrest, hshape⟩ :=
        hblock statements hnesting hdepth past tokens more hw trivial
      rw [Statement.lexemes, enclosed_append] at hw
      obtain ⟨t, tail, rfl, ht, _, _⟩ := exists_symbol hw
      exact ⟨some node, rest, reads_statement_some.mpr (.inr (.inl ⟨ht, hreads⟩)), hrest,
        node, rfl, hshape⟩
  | ret value? =>
      have hvalue : ∀ value ∈ value?, value.nesting < units := by
        rintro value ⟨⟩
        exact hnesting
      obtain ⟨node, rest, hreads, hrest, hshape⟩ :=
        accepts_returnStatement value? hvalue past tokens more hw trivial
      obtain ⟨tail, hlexemes⟩ := Statement.lexemes_ret value?
      rw [hlexemes] at hw
      obtain ⟨t, tail, rfl, hkind, htext, _⟩ := exists_word hw
      have hword : t.isWord "return" = true := by simp [Token.isWord, hkind, htext]
      exact ⟨some node, rest, reads_statement_some.mpr (.inr (.inr (.inl ⟨hword, hreads⟩))), hrest,
        node, rfl, hshape⟩
  | declaration d value? =>
      have hvalue : ∀ value ∈ value?, value.nesting ≤ units := by
        rintro value ⟨⟩
        exact hnesting
      obtain ⟨_, rest, hreads, hrest, node, rfl, hshape⟩ :=
        accepts_variableDeclaration d hdepth value? hvalue past tokens more hw trivial
      rw [Statement.lexemes_declaration, List.append_assoc, List.append_assoc] at hw
      have hfirst : tokens.head?.any (fun t => isName t || isQualifier t) = true := by
        rw [head?_any_eq_begins (fun _ => rfl), hw]
        exact begins_append (fun _ ht => ht) (begins_typed d) _
      exact ⟨some node, rest, reads_statement_other hfirst
        (fun t ht => ⟨isSymbol_of_typed ht _, isSymbol_of_typed ht _⟩) (fun t => isWord_of_typed)
        (.inl hreads), hrest, node, rfl, hshape⟩
  | expression e =>
      obtain ⟨_, rest, hreads, hrest, node, rfl, hshape⟩ :=
        accepts_expressionStatement e hnesting past tokens more hw trivial
      rw [Statement.lexemes, List.append_assoc] at hw
      have hdeclined : (variableDeclaration units).Reads past tokens none tokens :=
        reads_variableDeclaration_declined (hw ▸ declines_expression e more)
      have hfirst : tokens.head?.any startsExpression = true := by
        rw [head?_any_eq_begins (fun _ => rfl), hw]
        exact begins_append (fun _ ht => ht) (begins_startsExpression e) _
      exact ⟨some node, rest, reads_statement_other hfirst
        (fun t ht => ⟨isSymbol_of_startsExpression ht (by decide),
          isSymbol_of_startsExpression ht (by decide)⟩) (fun t => isWord_of_startsExpression)
        (.inr ⟨tokens, hdeclined, hreads⟩), hrest, node, rfl, hshape⟩

theorem notAt_statement (s : Statement) (more : List Lexeme) : NotAt '}' (s.lexemes ++ more) := by
  cases s with
  | empty => rfl
  | block statements =>
      rw [Statement.lexemes, enclosed_append]
      rfl
  | ret value? =>
      obtain ⟨tail, hlexemes⟩ := Statement.lexemes_ret value?
      rw [hlexemes]
      rfl
  | declaration d value? =>
      rw [Statement.lexemes_declaration, List.append_assoc, List.append_assoc]
      exact notAt_typed d _ _
  | expression e =>
      rw [Statement.lexemes, List.append_assoc]
      exact notAt_expression e (by decide) _

/-- Statements are read one after another, up to the closing brace. -/
theorem turns_statements {statement : Production (Option Node)} (past : Span) :
    ∀ (statements : List Statement),
      (∀ s ∈ statements, Accepts statement s.lexemes (fun _ => True) (Found s.shape)) →
      ∀ {tokens : List Token} (nodes : List Node),
        ofTokens tokens = statements.flatMap Statement.lexemes ++ symbol '}' :: more →
        ∃ found rest, Turns (nextStatement statement) past nodes tokens (nodes ++ found) rest ∧
          ofTokens rest = more ∧ found.map Node.shape = statements.map Statement.shape
  | [], _, tokens, nodes, hw => by
      obtain ⟨closing, rest, rfl, hclosing, _, hrest⟩ := exists_symbol hw
      exact ⟨[], rest, .done (reads_nextStatement_done.mpr
        ⟨⟨closing, hclosing, rfl⟩, (List.append_nil nodes).symm⟩), hrest, rfl⟩
  | s :: statements, hstatement, tokens, nodes, hw => by
      rw [List.flatMap_cons, List.append_assoc] at hw
      obtain ⟨_, mid, hreads, hmid, node, rfl, hshape⟩ :=
        hstatement s List.mem_cons_self past tokens _ hw trivial
      obtain ⟨found, rest, hturns, hrest, hshapes⟩ := turns_statements past statements
        (fun s hs => hstatement s (List.mem_cons_of_mem _ hs)) (nodes ++ [node]) hmid
      have hbrace : tokens.head?.any (fun t => t.isSymbol '}') = false :=
        head?_any_isSymbol hw (notAt_statement s _)
      have hlt : mid.length < tokens.length := by
        have hpos := List.length_pos_iff.mpr s.lexemes_ne_nil
        rw [length_eq_add hw hmid]
        omega
      refine ⟨node :: found, rest, .again (reads_nextStatement_again.mpr
        ⟨hbrace, node, hreads, hlt, rfl⟩) hlt ?_, hrest, ?_⟩
      · simpa using hturns
      · rw [List.map_cons, List.map_cons, hshape, hshapes]

theorem accepts_block : ∀ (units : Nat) (statements : List Statement),
    Statement.nestingAll statements < units → Statement.typeDepthAll statements ≤ nestingLimit →
    Accepts (block units) (Statement.block statements).lexemes (fun _ => True)
      (fun node => node.shape = (Statement.block statements).shape)
  | units + 1, statements, hnesting, hdepth, past, tokens, more, hw, _ => by
      have hstatement : ∀ s ∈ statements,
          Accepts (statement (block units) units) s.lexemes (fun _ => True) (Found s.shape) := by
        intro s hs
        have hle := Statement.nesting_le_nestingAll hs
        exact accepts_statement (accepts_block units) s (Nat.le_trans hle (Nat.le_of_lt_succ hnesting))
          (Nat.le_trans (Statement.typeDepth_le_typeDepthAll hs) hdepth)
      rw [Statement.lexemes, Statement.lexemesAll_eq_flatMap, enclosed_append] at hw
      obtain ⟨opening, mid, rfl, _, htext, hmid⟩ := exists_symbol hw
      obtain ⟨nodes, rest, hturns, hrest, hshapes⟩ :=
        turns_statements past statements hstatement [] hmid
      refine ⟨_, rest, reads_block_succ.mpr ⟨nodes, hturns.reads, rfl⟩, hrest, ?_⟩
      simp only [Node.shape_mk, htext, hshapes, Statement.shape, Statement.shapeAll_eq_map]

end Shading.Grammar
