import Shading.Proofs.Grammar.Lexemes

/-! # Reading what is written

`Accepts p written follow good` says that the production `p` reads the lexemes `written` whole,
whatever follows them as long as it satisfies `follow`.  Lists and type names come first, then
expressions: a primary expression is extended by its suffixes (`Stems`), and an operand is read up to
where neither a suffix nor an operator follows.  The main result is `accepts_expression`: with more
units of nesting than an expression needs, it is read as what it is. -/

namespace Shading.Grammar

open Production Lexeme Syntax

/-- The production reads the lexemes `written` and gives something good. -/
def Accepts {α : Type} (p : Production α) (written : List Lexeme) (follow : List Lexeme → Prop)
    (good : α → Prop) : Prop :=
  ∀ past tokens more, ofTokens tokens = written ++ more → follow more →
    ∃ a rest, p.Reads past tokens a rest ∧ ofTokens rest = more ∧ good a

/-- A node of the given shape is there. -/
def Found (s : Shape) (node? : Option Node) : Prop := ∃ node, node? = some node ∧ node.shape = s

/-- The lexemes do not begin with a symbol. -/
def NotAt (c : Char) (lexemes : List Lexeme) : Prop := begins (fun t => t.isSymbol c) lexemes = false

variable {past : Span} {tokens rest : List Token} {more written : List Lexeme}

/-- A symbol is next if it is written first. -/
theorem head?_any_isSymbol {c : Char} {value : Bool} (hw : ofTokens tokens = written)
    (h : begins (fun t => t.isSymbol c) written = value) :
    tokens.head?.any (fun t => t.isSymbol c) = value := by
  rw [head?_any_eq_begins (fun _ => rfl), hw]
  exact h

theorem Accepts.mono {α : Type} {p : Production α} {follow follow' : List Lexeme → Prop}
    {good : α → Prop} (h : Accepts p written follow good)
    (hfollow : ∀ more, follow' more → follow more) : Accepts p written follow' good :=
  fun past tokens more hw hmore => h past tokens more hw (hfollow more hmore)

/-! ### Lists -/

section lists

variable {β : Type} {item : Production (Option Node)} {lexemes : β → List Lexeme}
  {shape : β → Shape} {follow : List Lexeme → Prop}

/-- Items with commas between them are read turn by turn.  `turn` does what `nextItem` does where an
item begins. -/
theorem turns_items {turn : Items → Production (Turn Items)}
    (hcomma : ∀ more, follow (symbol ',' :: more)) :
    ∀ (first : β) (others : List β),
      (∀ e ∈ first :: others, Accepts item (lexemes e) follow (Found (shape e))) →
      (∀ e ∈ first :: others, ∀ past tokens more items next rest,
        ofTokens tokens = lexemes e ++ more → (nextItem item items).Reads past tokens next rest →
        (turn items).Reads past tokens next rest) →
      ∀ (past : Span) (tokens : List Token) (more : List Lexeme) (items : Items),
        ofTokens tokens = commaSeparated ((first :: others).map lexemes) ++ more → follow more →
        NotAt ',' more →
        ∃ nodes rest, Turns turn past items tokens { items with nodes := items.nodes ++ nodes } rest ∧
          ofTokens rest = more ∧ nodes.map Node.shape = (first :: others).map shape
  | first, [], hitem, hturn, past, tokens, more, items, hw, hmore, hend => by
      have hw : ofTokens tokens = lexemes first ++ more := hw
      obtain ⟨_, rest, hreads, rfl, node, rfl, hshape⟩ :=
        hitem first List.mem_cons_self past tokens more hw hmore
      have hcomma : rest.head?.any (fun t => t.isSymbol ',') = false := head?_any_isSymbol rfl hend
      have hdone : (nextItem item items).Reads past tokens
          (.done { items with nodes := items.nodes ++ [node] }) rest :=
        reads_nextItem_done.mpr (.inr ⟨node, hreads, hcomma, rfl⟩)
      exact ⟨[node], rest, .done (hturn first List.mem_cons_self _ _ _ items _ _ hw hdone), rfl,
        by simp [hshape]⟩
  | first, second :: others, hitem, hturn, past, tokens, more, items, hw, hmore, hend => by
      have hw : ofTokens tokens = lexemes first ++
          (symbol ',' :: (commaSeparated ((second :: others).map lexemes) ++ more)) := by
        rw [hw]
        exact List.append_assoc _ _ _
      obtain ⟨_, mid, hreads, hmid, node, rfl, hshape⟩ :=
        hitem first List.mem_cons_self past tokens _ hw (hcomma _)
      obtain ⟨comma, left, rfl, hsymbol, _, hleft⟩ := exists_symbol hmid
      obtain ⟨nodes, rest, hturns, hrest, hshapes⟩ := turns_items hcomma second others
        (fun e he => hitem e (List.mem_cons_of_mem first he))
        (fun e he => hturn e (List.mem_cons_of_mem first he)) past left more
        { items with nodes := items.nodes ++ [node] } hleft hmore hend
      have hagain : (nextItem item items).Reads past tokens
          (.again { items with nodes := items.nodes ++ [node] }) left :=
        reads_nextItem_again.mpr ⟨node, comma, hreads, hsymbol, rfl⟩
      have hlt : left.length < tokens.length := by
        rw [length_eq_add hw hmid, List.length_cons]
        omega
      refine ⟨node :: nodes, rest,
        .again (hturn first List.mem_cons_self _ _ _ items _ _ hw hagain) hlt ?_, hrest, ?_⟩
      · simpa using hturns
      · simp [hshape, hshapes]

theorem accepts_separated (hcomma : ∀ more, follow (symbol ',' :: more)) (first : β)
    (others : List β)
    (hitem : ∀ e ∈ first :: others, Accepts item (lexemes e) follow (Found (shape e))) :
    Accepts (separated item) (commaSeparated ((first :: others).map lexemes))
      (fun more => follow more ∧ NotAt ',' more)
      (fun items => items.complete = true ∧
        items.nodes.map Node.shape = (first :: others).map shape) := by
  intro past tokens more hw ⟨hmore, hend⟩
  obtain ⟨nodes, rest, hturns, hrest, hshapes⟩ := turns_items hcomma first others hitem
    (fun _ _ _ _ _ _ _ _ _ h => h) past tokens more {} hw hmore hend
  exact ⟨_, rest, hturns.reads, hrest, rfl, hshapes⟩

/-- What is true at the beginning of the first item is true at the beginning of the list. -/
theorem notAt_commaSeparated {c : Char} {first : β} (others : List β) {more : List Lexeme}
    (h : ∀ more, NotAt c (lexemes first ++ more)) :
    NotAt c (commaSeparated ((first :: others).map lexemes) ++ more) := by
  cases others with
  | nil => exact h more
  | cons second others =>
      have hfirst := h (symbol ',' :: (commaSeparated ((second :: others).map lexemes) ++ more))
      rwa [← List.cons_append, ← List.append_assoc] at hfirst

/-- A list in parentheses is read by a production that reads the opening one, the items and the
closing one. -/
theorem accepts_enclosed {p : Production Node} {kind : NodeKind}
    (hreads : ∀ {past : Span} {opening : Token} {tokens rest : List Token} {node : Node},
      ((∃ closing, closing.isSymbol ')' = true ∧ tokens = closing :: rest ∧
          Node.mk kind opening [] = node) ∨
        (tokens.head?.any (fun t => t.isSymbol ')') = false ∧
          ∃ items closing, (separated item).Reads past tokens items (closing :: rest) ∧
            items.complete = true ∧ closing.isSymbol ')' = true ∧
            Node.mk kind opening items.nodes = node)) →
      p.Reads past (opening :: tokens) node rest)
    (hcomma : ∀ more, follow (symbol ',' :: more)) (hclose : ∀ more, follow (symbol ')' :: more)) :
    ∀ es : List β, (∀ e ∈ es, Accepts item (lexemes e) follow (Found (shape e))) →
      (∀ e ∈ es, ∀ more, NotAt ')' (lexemes e ++ more)) →
      Accepts p (enclosed '(' ')' (commaSeparated (es.map lexemes))) (fun _ => True)
        (fun node => node.shape = .mk kind "(" (es.map shape))
  | [], _, _, past, tokens, more, hw, _ => by
      obtain ⟨opening, mid, rfl, _, htext, hmid⟩ := exists_symbol hw
      obtain ⟨closing, rest, rfl, hclosing, _, hrest⟩ := exists_symbol hmid
      refine ⟨_, rest, hreads (.inl ⟨closing, hclosing, rfl, rfl⟩), hrest, ?_⟩
      simp only [Node.shape_mk, htext]
      rfl
  | first :: others, hitem, hstart, past, tokens, more, hw, _ => by
      rw [enclosed_append] at hw
      obtain ⟨opening, mid, rfl, _, htext, hmid⟩ := exists_symbol hw
      obtain ⟨items, rest, hitems, hrest, hcomplete, hshapes⟩ :=
        accepts_separated hcomma first others hitem past mid _ hmid ⟨hclose more, rfl⟩
      obtain ⟨closing, rest, rfl, hclosing, _, hrest⟩ := exists_symbol hrest
      have hmore : mid.head?.any (fun t => t.isSymbol ')') = false :=
        head?_any_isSymbol hmid (notAt_commaSeparated others (hstart first List.mem_cons_self))
      refine ⟨_, rest, hreads (.inr ⟨hmore, items, closing, hitems, hcomplete, hclosing, rfl⟩), hrest, ?_⟩
      simp only [Node.shape_mk, htext, hshapes]

end lists

/-! ### Type names -/

/-- Type arguments are read, or there are none. -/
theorem accepts_typeArguments {item : Production (Option Node)} :
    ∀ types : List Typename,
      (∀ type ∈ types, Accepts item type.lexemes (NotAt '<') (Found type.shape)) →
      Accepts (typeArguments item) (Typename.argumentLexemes types) (NotAt '<')
        (fun nodes? => (nodes?.getD []).map Node.shape = types.map Typename.shape)
  | [], _, past, tokens, more, hw, hmore => by
      have hw : ofTokens tokens = more := hw
      have habsent : tokens.head?.any (fun t => t.isSymbol '<') = false :=
        head?_any_isSymbol hw hmore
      exact ⟨none, tokens, reads_typeArguments_none.mpr ⟨rfl, .inl habsent⟩, hw, rfl⟩
  | first :: others, hitem, past, tokens, more, hw, hmore => by
      have hw := hw.trans (enclosed_append _ _ _ _)
      obtain ⟨opening, mid, rfl, hopening, _, hmid⟩ := exists_symbol hw
      obtain ⟨items, rest, hitems, hrest, hcomplete, hshapes⟩ :=
        accepts_separated (fun _ => rfl) first others hitem past mid _ hmid ⟨rfl, rfl⟩
      obtain ⟨closing, rest, rfl, hclosing, _, hrest⟩ := exists_symbol hrest
      exact ⟨some items.nodes, rest, reads_typeArguments_some.mpr
        ⟨opening, mid, items, closing, hopening, rfl, hitems, hcomplete, hclosing, rfl⟩, hrest, hshapes⟩

/-- A type name is read if its arguments do not nest too deeply. -/
theorem accepts_typenameWithin : ∀ (levels : Nat) (type : Typename), type.depth ≤ levels →
    Accepts (typenameWithin levels) type.lexemes (NotAt '<') (Found type.shape)
  | 0, .mk name [], _, past, tokens, more, hw, _ => by
      obtain ⟨t, rest, rfl, hname, htext, hrest⟩ := exists_name hw
      refine ⟨_, rest, reads_typenameWithin_zero.mpr ⟨t, hname, rfl, rfl⟩, hrest, _, rfl, ?_⟩
      rw [Node.shape_leaf, htext]
      rfl
  | 0, .mk _ (type :: types), hdepth, _, _, _, _, _ => by
      have hlt : type.depth < Typename.depthAll (type :: types) :=
        Typename.depth_lt_depthAll List.mem_cons_self
      exact absurd hdepth (Nat.not_le.mpr (Nat.zero_lt_of_lt hlt))
  | levels + 1, .mk name types, hdepth, past, tokens, more, hw, hmore => by
      have hitem : ∀ type ∈ types,
          Accepts (typenameWithin levels) type.lexemes (NotAt '<') (Found type.shape) := by
        intro type htype
        have hlt := Typename.depth_lt_depthAll htype
        have hdepth : Typename.depthAll types ≤ levels + 1 := hdepth
        exact accepts_typenameWithin levels type (by omega)
      rw [Typename.lexemes_mk] at hw
      obtain ⟨t, mid, rfl, hname, htext, hmid⟩ := exists_name hw
      obtain ⟨nodes?, rest, hnodes, hrest, hshapes⟩ :=
        accepts_typeArguments types hitem past mid more hmid hmore
      refine ⟨_, rest, reads_typenameWithin_succ.mpr ⟨t, mid, nodes?, hname, rfl, hnodes, rfl⟩, hrest,
        _, rfl, ?_⟩
      simp only [Node.shape_mk, htext, hshapes, Typename.shape, Typename.shapeAll_eq_map]

/-! ### Where expressions begin and end -/

/-- The token begins an operand. -/
def startsOperand (t : Token) : Bool :=
  isName t || (literalKind? t).isSome || t.isSymbol '('

/-- The token begins an expression. -/
def startsExpression (t : Token) : Bool := startsOperand t || isSign t

/-- The token begins a call, a member access or an index. -/
def opensSuffix (t : Token) : Bool := t.isSymbol '(' || t.isSymbol '.' || t.isSymbol '['

/-- A symbol follows that ends every expression. -/
def Ends (more : List Lexeme) : Prop :=
  ∃ c ∈ [')', ']', ',', ';', '}'], ∃ rest, more = symbol c :: rest

/-- No suffix follows. -/
def EndsOperand (more : List Lexeme) : Prop := begins opensSuffix more = false

/-- Neither a suffix nor an operator of precedence `least` or tighter follows. -/
def EndsBinary (least : Nat) (more : List Lexeme) : Prop :=
  EndsOperand more ∧ ∀ tokens, ofTokens tokens = more → binaryOperator? least tokens = none

theorem ends_symbol {c : Char} (hc : c ∈ [')', ']', ',', ';', '}']) (more : List Lexeme) :
    Ends (symbol c :: more) :=
  ⟨c, hc, more, rfl⟩

theorem Ends.endsOperand (h : Ends more) : EndsOperand more := by
  obtain ⟨c, hc, rest, rfl⟩ := h
  simp only [List.mem_cons, List.not_mem_nil, or_false] at hc
  obtain rfl | rfl | rfl | rfl | rfl := hc <;> rfl

theorem binaryOperator?_symbol {c : Char} {least : Nat} (h : ofTokens tokens = symbol c :: more)
    (hc : precedence? (String.ofList [c]) = none) : binaryOperator? least tokens = none := by
  obtain ⟨t, rest, _, htext, hop, _⟩ := operator?_symbol h
  rw [← htext] at hc
  simp [binaryOperator?, hop, hc]

theorem Ends.endsBinary (h : Ends more) (least : Nat) : EndsBinary least more := by
  refine ⟨h.endsOperand, fun tokens htokens => ?_⟩
  obtain ⟨c, hc, rest, rfl⟩ := h
  have hprecedence : precedence? (String.ofList [c]) = none := by
    simp only [List.mem_cons, List.not_mem_nil, or_false] at hc
    obtain rfl | rfl | rfl | rfl | rfl := hc <;> rfl
  exact binaryOperator?_symbol htokens hprecedence

/-- Where an expression ends, no assignment follows. -/
theorem Ends.operator?_ne (h : Ends more) (htokens : ofTokens tokens = more) :
    ∀ t width, operator? tokens = some (t, width) → t.text ≠ "=" := by
  obtain ⟨c, hc, rest, rfl⟩ := h
  obtain ⟨t, _, _, htext, hop, _⟩ := operator?_symbol htokens
  intro u width hu
  obtain ⟨rfl, _⟩ := Prod.mk.inj (Option.some.inj (hop.symm.trans hu))
  rw [htext]
  simp only [List.mem_cons, List.not_mem_nil, or_false] at hc
  obtain rfl | rfl | rfl | rfl | rfl := hc <;> decide

theorem endsBinary_equals (least : Nat) (more : List Lexeme) :
    EndsBinary least (symbol '=' :: more) :=
  ⟨rfl, fun _ h => binaryOperator?_symbol h rfl⟩

theorem endsOperand_operator (op : Operator) (more : List Lexeme) :
    EndsOperand (op.lexemes ++ more) := by
  cases op <;> rfl

/-- A token that begins an operand is none of the symbols but an opening parenthesis. -/
theorem isSymbol_of_startsOperand {t : Token} (h : startsOperand t = true) {c : Char} (hc : c ≠ '(') :
    t.isSymbol c = false := by
  cases hsymbol : t.isSymbol c with
  | false => rfl
  | true =>
      have hparen : t.isSymbol '(' = true := by
        simpa [startsOperand, isName_of_isSymbol hsymbol, literalKind?_of_isSymbol hsymbol] using h
      exact absurd (isSymbol_unique hsymbol hparen) hc

theorem isSign_of_startsOperand {t : Token} (h : startsOperand t = true) : isSign t = false := by
  simp [isSign, isSymbol_of_startsOperand h]

theorem isSymbol_of_startsExpression {t : Token} (h : startsExpression t = true) {c : Char}
    (hc : c ≠ '(' ∧ c ≠ '-' ∧ c ≠ '+' ∧ c ≠ '!') : t.isSymbol c = false := by
  cases hoperand : startsOperand t with
  | true => exact isSymbol_of_startsOperand hoperand hc.1
  | false =>
      simp only [startsExpression, hoperand, isSign, Bool.false_or, Bool.or_eq_true] at h
      obtain (hsign | hsign) | hsign := h
      · exact isSymbol_ne hsign hc.2.1
      · exact isSymbol_ne hsign hc.2.2.1
      · exact isSymbol_ne hsign hc.2.2.2

/-! ### Operands -/

section operands

variable {e : Production (Option Node)} {s s' : Shape}

/-- The lexemes are a primary expression and suffixes, and what they stand for is read, with any
suffixes that follow. -/
def Stems (e : Production (Option Node)) (written : List Lexeme) (s : Shape) : Prop :=
  ∀ past tokens more, ofTokens tokens = written ++ more →
    ∃ node mid, ofTokens mid = more ∧ node.shape = s ∧ ∀ last rest,
      Turns (suffix e) past node mid last rest → (suffixed e).Reads past tokens (some last) rest

theorem stems_of_primary
    (h : ∀ past tokens more, ofTokens tokens = written ++ more →
      ∃ node mid, ofTokens mid = more ∧ node.shape = s ∧
        (primary e).Reads past tokens (some node) mid) : Stems e written s := by
  intro past tokens more hw
  obtain ⟨node, mid, hmid, hshape, hreads⟩ := h past tokens more hw
  exact ⟨node, mid, hmid, hshape, fun last rest hturns =>
    reads_suffixed_some.mpr ⟨node, mid, hreads, hturns.reads⟩⟩

theorem stems_literal (value : Literal) : Stems e [value.lexeme] value.shape := by
  refine stems_of_primary fun past tokens more hw => ?_
  obtain ⟨t, rest, rfl, hkind, htext, _, hrest⟩ := ofTokens_eq_cons.mp hw
  obtain ⟨kind, hliteral, hshape⟩ := literalKind?_lexeme value hkind htext
  exact ⟨Node.leaf kind t, rest, hrest, hshape,
    reads_primary_some.mpr (.inl ⟨t, kind, hliteral, rfl, rfl⟩)⟩

theorem stems_name (name : Name) : Stems e [word name.text] (.leaf .identifier name.text) := by
  refine stems_of_primary fun past tokens more hw => ?_
  obtain ⟨t, rest, rfl, hname, htext, hrest⟩ := exists_name hw
  refine ⟨Node.leaf .identifier t, rest, hrest, by rw [Node.shape_leaf, htext], ?_⟩
  exact reads_primary_some.mpr (.inr (.inl ⟨t, hname, rfl, rfl⟩))

/-- An expression in parentheses is a primary one. -/
theorem stems_parentheses (h : Accepts e written Ends (Found s)) :
    Stems e (enclosed '(' ')' written) s := by
  refine stems_of_primary fun past tokens more hw => ?_
  rw [enclosed_append] at hw
  obtain ⟨opening, mid, rfl, hopening, _, hmid⟩ := exists_symbol hw
  obtain ⟨_, rest, hreads, hrest, node, rfl, hshape⟩ :=
    h past mid _ hmid (ends_symbol (by decide) more)
  obtain ⟨closing, rest, rfl, hclosing, _, hrest⟩ := exists_symbol hrest
  exact ⟨node, rest, hrest, hshape, reads_primary_some.mpr
    (.inr (.inr ⟨opening, mid, closing, hopening, rfl, hreads, hclosing⟩))⟩

/-- A suffix that is read after what stands before it extends it. -/
theorem Stems.extend {suffixed : List Lexeme} (h : Stems e written s) (hne : suffixed ≠ [])
    (hsuffix : ∀ past tokens more node, ofTokens tokens = suffixed ++ more → node.shape = s →
      ∃ next rest, (suffix e node).Reads past tokens (.again next) rest ∧ ofTokens rest = more ∧
        next.shape = s') : Stems e (written ++ suffixed) s' := by
  intro past tokens more hw
  rw [List.append_assoc] at hw
  obtain ⟨node, mid, hmid, hshape, hreads⟩ := h past tokens _ hw
  obtain ⟨next, left, hnext, hleft, hshape⟩ := hsuffix past mid more node hmid hshape
  have hlt : left.length < mid.length := by
    rw [length_eq_add hmid hleft]
    have hpos := List.length_pos_iff.mpr hne
    omega
  exact ⟨next, left, hleft, hshape, fun last rest hturns => hreads last rest (.again hnext hlt hturns)⟩

theorem Stems.call {inner : List Lexeme} (h : Stems e written s)
    (harguments : Accepts (argumentList e) (enclosed '(' ')' inner) (fun _ => True)
      (fun node => node.shape = s')) :
    Stems e (written ++ enclosed '(' ')' inner) (.mk .callExpression "(" [s, s']) := by
  refine h.extend (List.cons_ne_nil _ _) fun past tokens more node hw hnode => ?_
  obtain ⟨arguments, rest, hreads, hrest, hshape⟩ := harguments past tokens more hw trivial
  rw [enclosed_append] at hw
  obtain ⟨t, mid, rfl, ht, htext, _⟩ := exists_symbol hw
  refine ⟨_, rest, reads_suffix_again.mpr (.inl ⟨ht, arguments, hreads, rfl⟩), hrest, ?_⟩
  simp only [Node.shape_mk, htext, List.map_cons, List.map_nil, hnode, hshape]

theorem Stems.member (h : Stems e written s) (name : Name) :
    Stems e (written ++ [symbol '.', word name.text])
      (.mk .memberExpression "." [s, .leaf .identifier name.text]) := by
  refine h.extend (List.cons_ne_nil _ _) fun past tokens more node hw hnode => ?_
  obtain ⟨t, mid, rfl, ht, htext, hmid⟩ := exists_symbol hw
  obtain ⟨member, rest, rfl, hname, hmember, hrest⟩ := exists_name hmid
  refine ⟨_, rest, reads_suffix_again.mpr (.inr (.inl ⟨ht, member, hname, rfl, rfl⟩)), hrest, ?_⟩
  simp only [Node.shape_mk, Node.shape_leaf, htext, List.map_cons, List.map_nil, hnode, hmember]

theorem Stems.index {inner : List Lexeme} (h : Stems e written s)
    (hindex : Accepts e inner Ends (Found s')) :
    Stems e (written ++ enclosed '[' ']' inner) (.mk .indexExpression "[" [s, s']) := by
  refine h.extend (List.cons_ne_nil _ _) fun past tokens more node hw hnode => ?_
  rw [enclosed_append] at hw
  obtain ⟨t, mid, rfl, ht, htext, hmid⟩ := exists_symbol hw
  obtain ⟨_, rest, hreads, hrest, index, rfl, hshape⟩ :=
    hindex past mid _ hmid (ends_symbol (by decide) more)
  obtain ⟨closing, rest, rfl, hclosing, _, hrest⟩ := exists_symbol hrest
  refine ⟨_, rest, reads_suffix_again.mpr
    (.inr (.inr ⟨ht, index, closing, hreads, hclosing, rfl⟩)), hrest, ?_⟩
  simp only [Node.shape_mk, htext, List.map_cons, List.map_nil, hnode, hshape]

/-- What no suffix follows is read as an operand without a sign. -/
theorem Stems.accepts_unary {operand? : Option (Production (Option Node))} (h : Stems e written s)
    (hstart : begins startsOperand written = true) :
    Accepts (unary operand? e) written EndsOperand (Found s) := by
  intro past tokens more hw hmore
  obtain ⟨node, mid, hmid, hshape, hreads⟩ := h past tokens more hw
  have hnone : ∀ c, c = '(' ∨ c = '.' ∨ c = '[' →
      mid.head?.any (fun t => t.isSymbol c) = false := by
    intro c hc
    refine head?_any_isSymbol hmid ?_
    cases more with
    | nil => rfl
    | cons l more =>
        have hl : opensSuffix l.token = false := hmore
        simp only [opensSuffix, Bool.or_eq_false_iff] at hl
        obtain rfl | rfl | rfl := hc
        · exact hl.1.1
        · exact hl.1.2
        · exact hl.2
  have hdone : (suffix e node).Reads past mid (.done node) mid :=
    reads_suffix_done.mpr ⟨hnone '(' (by simp), hnone '.' (by simp), hnone '[' (by simp), rfl, rfl⟩
  have hsign : tokens.head?.any isSign = false := by
    rw [head?_any_eq_begins (fun _ => rfl), hw]
    exact begins_append (fun _ => isSign_of_startsOperand) hstart more
  exact ⟨some node, mid, reads_unary.mpr (.inl ⟨hsign, hreads node mid (.done hdone)⟩), hmid,
    node, rfl, hshape⟩

/-- The same with any number of units of nesting left. -/
theorem Stems.accepts_level {units : Nat} (h : Stems (level units).expression written s)
    (hstart : begins startsOperand written = true) :
    Accepts (level units).unary written EndsOperand (Found s) := by
  obtain ⟨operand?, hlevel⟩ := level_unary units
  rw [hlevel]
  exact h.accepts_unary hstart

theorem accepts_sign {operand : Production (Option Node)} (sign : Sign)
    (h : Accepts operand written EndsOperand (Found s)) :
    Accepts (unary (some operand) e) (symbol sign.char :: written) EndsOperand
      (Found (.mk .unaryExpression (String.ofList [sign.char]) [s])) := by
  intro past tokens more hw hmore
  obtain ⟨t, tail, rfl, ht, htext, htail⟩ := exists_symbol hw
  obtain ⟨_, rest, hreads, hrest, node, rfl, hshape⟩ := h past tail more htail hmore
  have hsign : isSign t = true := by
    simp only [isSign, Bool.or_eq_true]
    cases sign with
    | minus => exact .inl (.inl ht)
    | plus => exact .inl (.inr ht)
    | not => exact .inr ht
  refine ⟨_, rest, reads_unary.mpr (.inr ⟨operand, t, tail, node, rfl, hsign, rfl, hreads, rfl⟩),
    hrest, _, rfl, ?_⟩
  simp only [Node.shape_mk, htext, List.map_cons, List.map_nil, hshape]

end operands

/-! ### Operators -/

section operators

variable {operand e : Production (Option Node)} {left right : List Lexeme} {s s' : Shape}

theorem accepts_binary_operand (h : Accepts operand written EndsOperand (Found s)) (levels least : Nat) :
    Accepts (binary operand levels least) written (EndsBinary least) (Found s) := by
  intro past tokens more hw hmore
  obtain ⟨_, rest, hreads, hrest, node, rfl, hshape⟩ := h past tokens more hw hmore.1
  cases levels with
  | zero => exact ⟨some node, rest, hreads, hrest, node, rfl, hshape⟩
  | succ levels =>
      refine ⟨some node, rest, reads_binary_succ_some.mpr ⟨node, rest, hreads, Turns.reads (.done ?_)⟩,
        hrest, node, rfl, hshape⟩
      exact reads_extendBinary_done.mpr ⟨hmore.2 rest hrest, rfl, rfl⟩

theorem EndsBinary.mono {least tighter : Nat} (h : EndsBinary least more) (hle : least ≤ tighter) :
    EndsBinary tighter more := by
  refine ⟨h.1, fun tokens htokens => ?_⟩
  cases hfound : binaryOperator? tighter tokens with
  | none => rfl
  | some found =>
      obtain ⟨token, width, k⟩ := found
      obtain ⟨hoperator, hk, hbound⟩ := binaryOperator?_eq_some.mp hfound
      have hlooser : binaryOperator? least tokens = some (token, width, k) :=
        binaryOperator?_eq_some.mpr ⟨hoperator, hk, Nat.le_trans hle hbound⟩
      rw [h.2 tokens htokens] at hlooser
      cases hlooser

/-- What binds more tightly than an operator ends before it. -/
theorem endsBinary_operator (op : Operator) (more : List Lexeme) :
    EndsBinary (op.precedence + 1) (op.lexemes ++ more) := by
  refine ⟨endsOperand_operator op more, fun tokens htokens => ?_⟩
  obtain ⟨t, width, hop, htext, _⟩ := operator?_lexemes op htokens
  cases hfound : binaryOperator? (op.precedence + 1) tokens with
  | none => rfl
  | some found =>
      obtain ⟨token, length, k⟩ := found
      obtain ⟨hoperator, hk, hbound⟩ := binaryOperator?_eq_some.mp hfound
      obtain ⟨rfl, _⟩ := Prod.mk.inj (Option.some.inj (hop.symm.trans hoperator))
      rw [htext, precedence?_text] at hk
      obtain rfl := Option.some.inj hk
      exact absurd hbound (Nat.not_succ_le_self _)

/-- The lexemes are read up to where no operator of precedence `bound` or tighter follows, and the loop
that reads operators of precedence `least` and tighter goes on from what they stand for. -/
def Climbs (operand : Production (Option Node)) (levels least : Nat) (written : List Lexeme)
    (bound : Nat) (s : Shape) : Prop :=
  ∀ past tokens more, ofTokens tokens = written ++ more → EndsBinary bound more →
    ∃ node mid, ofTokens mid = more ∧ node.shape = s ∧ ∀ last rest,
      Turns (extendBinary (fun p => binary operand levels (p + 1)) least) past node mid last rest →
        (binary operand (levels + 1) least).Reads past tokens (some last) rest

section climbing

variable {levels least bound : Nat}

/-- The loop starts from an operand. -/
theorem climbs_operand (h : Accepts operand written EndsOperand (Found s)) :
    Climbs operand levels least written bound s := by
  intro past tokens more hw hmore
  obtain ⟨_, mid, hreads, hmid, node, rfl, hshape⟩ := h past tokens more hw hmore.1
  exact ⟨node, mid, hmid, hshape, fun last rest hturns =>
    reads_binary_succ_some.mpr ⟨node, mid, hreads, hturns.reads⟩⟩

theorem Climbs.mono {looser : Nat} (h : Climbs operand levels least written bound s)
    (hle : looser ≤ bound) : Climbs operand levels least written looser s :=
  fun past tokens more hw hmore => h past tokens more hw (hmore.mono hle)

/-- One more turn of the loop: an operator that the loop reads, and its right side. -/
theorem Climbs.operator (op : Operator) (hleast : least ≤ op.precedence)
    (hleft : Climbs operand levels least left (op.precedence + 1) s)
    (hright : Accepts (binary operand levels (op.precedence + 1)) right
      (EndsBinary (op.precedence + 1)) (Found s')) :
    Climbs operand levels least (left ++ (op.lexemes ++ right)) (op.precedence + 1)
      (.mk .binaryExpression op.text [s, s']) := by
  intro past tokens more hw hmore
  rw [List.append_assoc, List.append_assoc] at hw
  obtain ⟨first, mid, hmid, hshape, hreads⟩ := hleft past tokens _ hw (endsBinary_operator op _)
  obtain ⟨t, width, hop, htext, hafter⟩ := operator?_lexemes op hmid
  obtain ⟨_, rest, hsecond, hrest, second, rfl, hshape'⟩ := hright past _ more hafter hmore
  have hk : precedence? t.text = some op.precedence := by rw [htext, precedence?_text]
  have hagain : (extendBinary (fun p => binary operand levels (p + 1)) least first).Reads past mid
      (.again (.mk .binaryExpression t [first, second])) rest :=
    reads_extendBinary_again.mpr ⟨t, width, op.precedence, second,
      binaryOperator?_eq_some.mpr ⟨hop, hk, hleast⟩, hsecond, rfl⟩
  have hlt : rest.length < mid.length := by
    rw [← List.append_assoc] at hmid
    have hlength := length_eq_add hmid hrest
    have hpos : 0 < op.lexemes.length := by cases op <;> decide
    rw [List.length_append] at hlength
    omega
  refine ⟨_, rest, hrest, ?_, fun last final hturns => hreads last final (.again hagain hlt hturns)⟩
  simp only [Node.shape_mk, htext, List.map_cons, List.map_nil, hshape, hshape']

/-- The loop stops where no operator follows that it reads. -/
theorem Climbs.accepts (h : Climbs operand levels least written bound s) (hle : least ≤ bound) :
    Accepts (binary operand (levels + 1) least) written (EndsBinary least) (Found s) := by
  intro past tokens more hw hmore
  obtain ⟨node, mid, hmid, hshape, hreads⟩ := h past tokens more hw (hmore.mono hle)
  have hdone : (extendBinary (fun p => binary operand levels (p + 1)) least node).Reads past mid
      (.done node) mid :=
    reads_extendBinary_done.mpr ⟨hmore.2 mid hmid, rfl, rfl⟩
  exact ⟨some node, mid, hreads node mid (.done hdone), hmid, node, rfl, hshape⟩

end climbing

/-- Two operands with an operator between them. -/
theorem accepts_binary_operator (op : Operator) (hleft : Accepts operand left EndsOperand (Found s))
    (hright : Accepts operand right EndsOperand (Found s')) (levels : Nat) :
    Accepts (binary operand (levels + 1) 1) (left ++ (op.lexemes ++ right)) Ends
      (Found (.mk .binaryExpression op.text [s, s'])) := by
  have hclimbs : Climbs operand levels 1 (left ++ (op.lexemes ++ right)) (op.precedence + 1) _ :=
    (climbs_operand hleft).operator op op.one_le_precedence (accepts_binary_operand hright _ _)
  exact (hclimbs.accepts (Nat.le_add_left 1 _)).mono fun _ hmore => hmore.endsBinary 1

/-- An expression of operands and operators is read whole where an expression ends. -/
theorem Accepts.assignment
    (h : Accepts (binary operand precedenceLevels 1) written Ends (Found s)) :
    Accepts (Grammar.assignment operand e) written Ends (Found s) := by
  intro past tokens more hw hmore
  obtain ⟨_, rest, hreads, hrest, node, rfl, hshape⟩ := h past tokens more hw hmore
  exact ⟨some node, rest, reads_assignment_some.mpr ⟨node, rest, hreads,
    .inr ⟨hmore.operator?_ne hrest, rfl, rfl⟩⟩, hrest, node, rfl, hshape⟩

theorem accepts_assignment_operand (h : Accepts operand written EndsOperand (Found s)) :
    Accepts (assignment operand e) written Ends (Found s) :=
  ((accepts_binary_operand h _ _).mono fun _ hmore => hmore.endsBinary 1).assignment

theorem accepts_assignment_equals (hleft : Accepts operand left EndsOperand (Found s))
    (hright : Accepts e right Ends (Found s')) :
    Accepts (assignment operand e) (left ++ symbol '=' :: right) Ends
      (Found (.mk .assignmentExpression "=" [s, s'])) := by
  intro past tokens more hw hmore
  rw [List.append_assoc] at hw
  obtain ⟨_, mid, hfirst, hmid, target, rfl, hshape⟩ :=
    accepts_binary_operand hleft precedenceLevels 1 past tokens _ hw (endsBinary_equals 1 _)
  obtain ⟨t, tail, rfl, htext, hop, htail⟩ := operator?_symbol hmid
  obtain ⟨_, rest, hsecond, hrest, value, rfl, hshape'⟩ := hright past tail more htail hmore
  refine ⟨_, rest, reads_assignment_some.mpr ⟨target, _, hfirst,
    .inl ⟨t, 1, value, hop, htext, hsecond, rfl⟩⟩, hrest, _, rfl, ?_⟩
  simp only [Node.shape_mk, htext, List.map_cons, List.map_nil, hshape, hshape']

end operators

/-! ### Expressions -/

theorem startsOperand_literal (value : Literal) : startsOperand value.lexeme.token = true := by
  obtain ⟨kind, hkind, _⟩ := literalKind?_lexeme value (t := value.lexeme.token) rfl rfl
  simp [startsOperand, hkind]

/-- The lexemes begin with a name, a literal or an opening parenthesis, and after a name they end or
go on with a suffix. -/
def HeadsOperand (lexemes : List Lexeme) : Prop :=
  ∃ l tail, lexemes = l :: tail ∧ startsOperand l.token = true ∧
    (isName l.token = true → tail = [] ∨ begins opensSuffix tail = true)

theorem HeadsOperand.append {first suffixed : List Lexeme} (h : HeadsOperand first)
    (hsuffixed : begins opensSuffix suffixed = true) : HeadsOperand (first ++ suffixed) := by
  obtain ⟨l, tail, rfl, hl, htail⟩ := h
  refine ⟨l, tail ++ suffixed, rfl, hl, fun hname => .inr ?_⟩
  rcases htail hname with rfl | htail
  · exact hsuffixed
  · exact begins_append (fun _ h => h) htail suffixed

theorem headsOperand_parentheses (inner : List Lexeme) : HeadsOperand (enclosed '(' ')' inner) :=
  ⟨symbol '(', inner ++ [symbol ')'], rfl, rfl, fun hname => Bool.noConfusion hname⟩

theorem headsOperand : ∀ e : Expression, HeadsOperand e.operandLexemes
  | .literal value => ⟨value.lexeme, [], rfl, startsOperand_literal value, fun _ => .inl rfl⟩
  | .name spelling => by
      refine ⟨word spelling.text, [], rfl, ?_, fun _ => .inl rfl⟩
      simp [startsOperand, isName_token_name]
  | .call callee _ => (headsOperand callee).append rfl
  | .member object _ => (headsOperand object).append rfl
  | .index object _ => (headsOperand object).append rfl
  | .unary _ _ => headsOperand_parentheses _
  | .binary _ _ _ => headsOperand_parentheses _
  | .assignment _ _ => headsOperand_parentheses _

theorem HeadsOperand.starts {lexemes : List Lexeme} (h : HeadsOperand lexemes) :
    begins startsOperand lexemes = true := by
  obtain ⟨l, tail, rfl, hl, _⟩ := h
  exact hl

theorem begins_startsExpression_append {first : List Lexeme} (h : HeadsOperand first)
    (more : List Lexeme) : begins startsExpression (first ++ more) = true :=
  begins_append (fun t ht => by rw [startsExpression, ht, Bool.true_or]) h.starts more

/-- An expression begins with an operand or a sign. -/
theorem begins_startsExpression (e : Expression) : begins startsExpression e.lexemes = true := by
  have hstem : e.isCompound = false → begins startsExpression e.lexemes = true := by
    intro hsimple
    have hhead := begins_startsExpression_append (headsOperand e) []
    rwa [List.append_nil, Expression.operandLexemes, hsimple] at hhead
  cases e with
  | literal value => exact hstem rfl
  | name spelling => exact hstem rfl
  | call callee arguments => exact hstem rfl
  | member object field => exact hstem rfl
  | index object place => exact hstem rfl
  | unary sign operand => cases sign <;> rfl
  | binary op left right => exact begins_startsExpression_append (headsOperand left) _
  | assignment target value => exact begins_startsExpression_append (headsOperand target) _

theorem notAt_expression (e : Expression) {c : Char}
    (hc : c ≠ '(' ∧ c ≠ '-' ∧ c ≠ '+' ∧ c ≠ '!') (more : List Lexeme) :
    NotAt c (e.lexemes ++ more) :=
  begins_append (fun _ ht => isSymbol_of_startsExpression ht hc) (begins_startsExpression e) more

theorem accepts_argumentList {e : Production (Option Node)} (arguments : List Expression)
    (h : ∀ a ∈ arguments, Accepts e a.lexemes Ends (Found a.shape)) :
    Accepts (argumentList e) (enclosed '(' ')' (commaSeparated (arguments.map Expression.lexemes)))
      (fun _ => True)
      (fun node => node.shape = .mk .argumentList "(" (arguments.map Expression.shape)) :=
  accepts_enclosed reads_listed.mpr (ends_symbol (by decide)) (ends_symbol (by decide)) arguments h
    fun a _ => notAt_expression a (by decide)

/-- With enough units of nesting left the expression is read; if it needs no parentheses as an
operand, it is a primary expression with suffixes. -/
structure Parses (e : Expression) : Prop where
  expression : ∀ units, e.nesting ≤ units →
    Accepts (level (units + 1)).expression e.lexemes Ends (Found e.shape)
  stems : e.isCompound = false → ∀ units, e.nesting ≤ units →
    Stems (level units).expression e.lexemes e.shape

/-- An operand is a primary expression with suffixes, in parentheses if need be. -/
theorem Parses.operandStems {e : Expression} (h : Parses e) {units : Nat}
    (hunits : e.operandNesting ≤ units) :
    Stems (level units).expression e.operandLexemes e.shape := by
  unfold Expression.operandNesting Expression.wrapNesting at hunits
  unfold Expression.operandLexemes Expression.wrap
  cases hcompound : e.isCompound with
  | false =>
      rw [hcompound] at hunits
      exact h.stems hcompound units hunits
  | true =>
      rw [hcompound] at hunits
      obtain ⟨units, rfl⟩ := Nat.exists_eq_add_of_le' (Nat.le_trans (Nat.le_add_left 1 _) hunits)
      exact stems_parentheses (h.expression units (Nat.le_of_succ_le_succ hunits))

theorem Parses.operand {e : Expression} (h : Parses e) {units : Nat}
    (hunits : e.operandNesting ≤ units) :
    Accepts (level units).unary e.operandLexemes EndsOperand (Found e.shape) :=
  (h.operandStems hunits).accepts_level (headsOperand e).starts

/-- A primary expression with suffixes is read as an expression. -/
theorem Parses.of_stems {e : Expression} (hsimple : e.isCompound = false)
    (h : ∀ units, e.nesting ≤ units → Stems (level units).expression e.lexemes e.shape) :
    Parses e := by
  refine ⟨fun units hunits => accepts_assignment_operand ?_, fun _ => h⟩
  have hhead := (headsOperand e).starts
  rw [Expression.operandLexemes, hsimple] at hhead
  exact (h units hunits).accepts_level hhead

theorem Parses.call {callee : Expression} {arguments : List Expression} (hcallee : Parses callee)
    (harguments : ∀ a ∈ arguments, Parses a) : Parses (.call callee arguments) := by
  refine .of_stems rfl fun units hunits => ?_
  simp only [Expression.nesting, Nat.max_le] at hunits
  simp only [Expression.lexemes, Expression.lexemesAll_eq_map, Expression.shape,
    Expression.shapeAll_eq_map]
  refine (hcallee.operandStems hunits.1).call (accepts_argumentList arguments fun a ha => ?_)
  have hlt := Nat.lt_of_lt_of_le (Expression.nesting_lt_nestingAll ha) hunits.2
  obtain ⟨left, rfl⟩ := Nat.exists_eq_add_of_lt hlt
  exact (harguments a ha).expression _ (Nat.le_add_right _ _)

theorem Parses.index {object place : Expression} (hobject : Parses object) (hplace : Parses place) :
    Parses (.index object place) := by
  refine .of_stems rfl fun units hunits => ?_
  simp only [Expression.nesting, Nat.max_le] at hunits
  obtain ⟨left, rfl⟩ := Nat.exists_eq_add_of_le' (Nat.le_trans (Nat.le_add_left 1 _) hunits.2)
  exact (hobject.operandStems hunits.1).index (hplace.expression left (Nat.le_of_succ_le_succ hunits.2))

theorem Parses.unary {operand : Expression} (h : Parses operand) (sign : Sign) :
    Parses (.unary sign operand) := by
  refine ⟨fun units hunits => accepts_assignment_operand ?_, fun hsimple => Bool.noConfusion hsimple⟩
  have hunits : operand.operandNesting + 1 ≤ units := hunits
  obtain ⟨left, rfl⟩ := Nat.exists_eq_add_of_le' (Nat.le_trans (Nat.le_add_left 1 _) hunits)
  exact accepts_sign sign (h.operand (Nat.le_of_succ_le_succ hunits))

theorem Parses.binary {left right : Expression} (hleft : Parses left) (hright : Parses right)
    (op : Operator) : Parses (.binary op left right) := by
  refine ⟨fun units hunits => ?_, fun hsimple => Bool.noConfusion hsimple⟩
  simp only [Expression.nesting, Nat.max_le] at hunits
  exact (accepts_binary_operator op (hleft.operand hunits.1) (hright.operand hunits.2) 5).assignment

theorem Parses.assignment {target value : Expression} (htarget : Parses target)
    (hvalue : Parses value) : Parses (.assignment target value) := by
  refine ⟨fun units hunits => ?_, fun hsimple => Bool.noConfusion hsimple⟩
  simp only [Expression.nesting, Nat.max_le] at hunits
  obtain ⟨left, rfl⟩ := Nat.exists_eq_add_of_le' (Nat.le_trans (Nat.le_add_left 1 _) hunits.2)
  exact accepts_assignment_equals (htarget.operand hunits.1)
    (accepts_assignment_operand (hvalue.operand (Nat.le_of_succ_le_succ hunits.2)))

mutual

theorem parses : ∀ e : Expression, Parses e
  | .literal value => .of_stems rfl fun _ _ => stems_literal value
  | .name spelling => .of_stems rfl fun _ _ => stems_name spelling
  | .call callee arguments => (parses callee).call (parsesAll arguments)
  | .member object field =>
      .of_stems rfl fun _ hunits => ((parses object).operandStems hunits).member field
  | .index object place => (parses object).index (parses place)
  | .unary sign operand => (parses operand).unary sign
  | .binary op left right => (parses left).binary (parses right) op
  | .assignment target value => (parses target).assignment (parses value)

theorem parsesAll : ∀ es : List Expression, ∀ e ∈ es, Parses e
  | e :: _, _, .head _ => parses e
  | _ :: rest, e, .tail _ he => parsesAll rest e he

end

/-- An expression is read whole, with one unit of nesting more than nests in it. -/
theorem accepts_expression (e : Expression) {units : Nat} (hunits : e.nesting < units) :
    Accepts (expression units) e.lexemes Ends (Found e.shape) := by
  obtain ⟨left, rfl⟩ := Nat.exists_eq_add_of_lt hunits
  exact (parses e).expression _ (Nat.le_add_right _ _)

end Shading.Grammar
