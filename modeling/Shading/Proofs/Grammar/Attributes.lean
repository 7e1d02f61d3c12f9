import Shading.Proofs.Grammar.Nesting
import Shading.Proofs.Grammar.Skipping

/-! # Attribute lists with problems

What stands between the brackets of an attribute list is read as names with commas between them
(`nameList`).  If the names end at the closing brackets, both brackets are read, also when a name was
due.  If they end before, the rest is skipped to the first bracket, and only that one is read: the second
stands where the function should begin, and no function is found.

Then the whole declaration is skipped, attributes and function together, since a function that can be
read is skipped as a whole.  So there is a second problem and the function is lost
(`parse_attributes`). -/

namespace Shading.Grammar

open Production

variable {past : Span} {tokens rest : List Token} {messages : List Message}

/-! ### Names with commas between them -/

/-- What is read of names with commas between them: the names, whether there was one wherever one was
due, and the tokens that are left. -/
structure NameList where
  names : List Token
  complete : Bool
  left : List Token
deriving DecidableEq, Repr

/-- Names are read as long as commas follow them. -/
def nameList : List Token → NameList
  | [] => ⟨[], false, []⟩
  | [t] => if isName t then ⟨[t], true, []⟩ else ⟨[], false, [t]⟩
  | t :: u :: more =>
    if isName t then
      if u.isSymbol ',' then { nameList more with names := t :: (nameList more).names }
      else ⟨[t], true, u :: more⟩
    else ⟨[], false, t :: u :: more⟩

/-- An attribute without arguments. -/
def bareAttribute (name : Token) : Node := .mk .attr name []

/-- No bracket of any shape and no semicolon. -/
def isLoose (t : Token) : Bool := !isOpener t && !isCloser t && !t.isSymbol ';'

theorem isSymbol_of_isLoose {t : Token} (h : isLoose t = true) {c : Char}
    (hc : c ∈ ['(', ')', '[', ']', '{', '}', ';']) : t.isSymbol c = false := by
  simp only [isLoose, isOpener, isCloser, Bool.and_eq_true, Bool.not_eq_true',
    Bool.or_eq_false_iff] at h
  simp only [List.mem_cons, List.not_mem_nil, or_false] at hc
  grind

section names

variable {closing t next : Token}

theorem reads_bareAttribute (ht : isName t = true) (hnext : next.isSymbol '(' = false) :
    attributeItem.Reads past (t :: next :: rest) (some (bareAttribute t)) (next :: rest) :=
  reads_attributeItem_some.mpr ⟨t, next :: rest, ht, rfl, .inl ⟨by simpa using hnext, rfl, rfl⟩⟩

/-- Where a name is due and there is none, the list ends. -/
theorem turns_missing (tokens : List Token) (h : tokens.head?.any isName = false) (nodes : List Node) :
    Turns (nextItem attributeItem) past ⟨nodes, true⟩ tokens ⟨nodes, false⟩ tokens :=
  .done (reads_nextItem_done.mpr (.inl ⟨reads_attributeItem_none.mpr ⟨h, rfl⟩, rfl⟩))

/-- With a name that no comma follows the list ends. -/
theorem turns_last (ht : isName t = true) (hopening : next.isSymbol '(' = false)
    (hcomma : next.isSymbol ',' = false) (nodes : List Node) :
    Turns (nextItem attributeItem) past ⟨nodes, true⟩ (t :: next :: rest)
      ⟨nodes ++ [bareAttribute t], true⟩ (next :: rest) :=
  .done (reads_nextItem_done.mpr
    (.inr ⟨bareAttribute t, reads_bareAttribute ht hopening, by simpa using hcomma, rfl⟩))

theorem nameList_of_missing (ht : isName t = false) (more : List Token) :
    nameList (t :: more) = ⟨[], false, t :: more⟩ := by
  cases more <;> simp [nameList, ht]

theorem left_suffix (junk : List Token) : (nameList junk).left <:+ junk := by
  fun_induction nameList junk with
  | case1 => exact List.suffix_rfl
  | case2 => exact List.nil_suffix
  | case3 => exact List.suffix_rfl
  | case4 t u more _ _ _ ih => exact ih.trans ((List.suffix_cons u more).trans (List.suffix_cons t _))
  | case5 t u more => exact List.suffix_cons t (u :: more)
  | case6 => exact List.suffix_rfl

/-- A list of attributes without arguments is read as a list of names. -/
theorem turns_nameList (past : Span) (hclosing : closing.isSymbol ']' = true) (rest : List Token) :
    ∀ (junk : List Token) (nodes : List Node), (∀ t ∈ junk, isLoose t = true) →
      Turns (nextItem attributeItem) past ⟨nodes, true⟩ (junk ++ closing :: rest)
        ⟨nodes ++ (nameList junk).names.map bareAttribute, (nameList junk).complete⟩
        ((nameList junk).left ++ closing :: rest)
  | [], nodes, _ => by
      have hname : isName closing = false := isName_of_isSymbol hclosing
      simpa [nameList] using turns_missing (closing :: rest) (by simpa using hname) nodes
  | t :: more, nodes, h => by
      cases ht : isName t with
      | false =>
          rw [nameList_of_missing ht]
          simpa using turns_missing (t :: (more ++ closing :: rest)) (by simpa using ht) nodes
      | true =>
          match more with
          | [] =>
              have hopening : closing.isSymbol '(' = false := isSymbol_eq hclosing _
              have hcomma : closing.isSymbol ',' = false := isSymbol_eq hclosing _
              simpa [nameList, ht] using turns_last ht hopening hcomma nodes
          | u :: more =>
              have hopening : u.isSymbol '(' = false := isSymbol_of_isLoose (h u (by simp)) (by decide)
              cases hu : u.isSymbol ',' with
              | false => simpa [nameList, ht, hu] using turns_last ht hopening hu nodes
              | true =>
                  have hmore := turns_nameList past hclosing rest more (nodes ++ [bareAttribute t])
                    fun v hv => h v (by simp [hv])
                  refine .again (reads_nextItem_again.mpr ⟨bareAttribute t, u,
                    reads_bareAttribute ht hopening, hu, rfl⟩)
                    ((Nat.lt_succ_self _).trans (Nat.lt_succ_self _)) ?_
                  simpa [nameList, ht, hu] using hmore

end names

/-! ### Closing brackets -/

section closing

variable {closing closing' : Token} {reported : Bool}

/-- Both closing brackets are read where they are next. -/
theorem reads_closeAttributes_both (hclosing : closing.isSymbol ']' = true)
    (hclosing' : closing'.isSymbol ']' = true) :
    (closeAttributes 2 reported).Reads past (closing :: closing' :: rest) () rest := by
  refine reads_bind.mpr ⟨true, _, reads_accept_true.mpr ⟨closing, hclosing, rfl⟩, ?_⟩
  exact reads_bind.mpr ⟨true, _, reads_accept_true.mpr ⟨closing', hclosing', rfl⟩, rfl⟩

/-- Skipping to a closing bracket passes over loose tokens. -/
theorem fromCloser_loose (hclosing : closing.isSymbol ']' = true) (rest : List Token) :
    ∀ {loose : List Token}, (∀ t ∈ loose, isLoose t = true) →
      fromCloser ']' 0 (loose ++ closing :: rest) = closing :: rest
  | [], _ => by simp [fromCloser, hclosing]
  | t :: loose, h => by
      have ht : ∀ c ∈ ['(', ')', '[', ']', '{', '}', ';'], t.isSymbol c = false :=
        fun _ => isSymbol_of_isLoose (h t List.mem_cons_self)
      have hmore := fromCloser_loose hclosing rest fun u hu => h u (List.mem_cons_of_mem t hu)
      simpa [fromCloser, ht] using hmore

/-- Where something stands before the closing brackets, it is skipped together with the first of them,
and the second is not read. -/
theorem closeAttributes_run {t : Token} {loose : List Token} (ht : isLoose t = true)
    (hloose : ∀ u ∈ loose, isLoose u = true) (hclosing : closing.isSymbol ']' = true) :
    closeAttributes 2 reported past (t :: loose ++ closing :: rest) =
      ⟨(), rest, if reported then [] else
        [Message.error t.span (Problem.text (.expectedSymbol ']'))]⟩ := by
  have hnext : (accept ']').Reads past (t :: loose ++ closing :: rest) false
      (t :: loose ++ closing :: rest) :=
    reads_accept_false.mpr ⟨by simpa using isSymbol_of_isLoose ht (by decide), rfl⟩
  have hskip : (skipToCloser ']').Reads past (t :: loose ++ closing :: rest) () (closing :: rest) :=
    reads_leave.mpr (fromCloser_loose hclosing rest (List.forall_mem_cons.mpr ⟨ht, hloose⟩)).symm
  have hfirst : (closeAttributes 1 true).Reads past (closing :: rest) () rest :=
    reads_bind.mpr ⟨true, rest, reads_accept_true.mpr ⟨closing, hclosing, rfl⟩, rfl⟩
  have hskipped : (do
      skipToCloser ']'
      if ← atSymbol ']' then closeAttributes 1 true).Reads past (t :: loose ++ closing :: rest)
        () rest := by
    refine reads_bind.mpr ⟨(), _, hskip, reads_bind.mpr ⟨true, closing :: rest, ?_, hfirst⟩⟩
    exact reads_atSymbol.mpr ⟨by simpa using hclosing, rfl⟩
  cases reported with
  | false => exact hnext.bind_run.trans (bind_reads rfl hskipped)
  | true => exact hnext.bind_run.trans (bind_reads rfl hskipped)

end closing

/-! ### Declarations with attributes -/

section attributes

variable {first second closing closing' : Token} {junk : List Token}

/-- The attribute list that is read of names between brackets. -/
def attributesOf (first second : Token) (junk : List Token) : Node :=
  .mk .attributeList (joinTokens first second) ((nameList junk).names.map bareAttribute)

/-- What is left after the names decides how an attribute list ends. -/
theorem attributeList_run (hfirst : first.isSymbol '[' = true) (hsecond : second.isSymbol '[' = true)
    (hclosing : closing.isSymbol ']' = true) (hloose : ∀ t ∈ junk, isLoose t = true) :
    attributeList past (first :: second :: (junk ++ closing :: rest)) =
      (do
        unless (nameList junk).complete do report .expectedIdentifier
        closeAttributes 2 (!(nameList junk).complete)
        return some (attributesOf first second junk) : Production (Option Node)) past
        ((nameList junk).left ++ closing :: rest) := by
  have hnames := (turns_nameList past hclosing rest junk [] hloose).reads
  have hleft : tokensLeft.Reads past (first :: second :: (junk ++ closing :: rest))
      (first :: second :: (junk ++ closing :: rest)) (first :: second :: (junk ++ closing :: rest)) := rfl
  have hskip : (skip 2).Reads past (first :: second :: (junk ++ closing :: rest)) ()
      (junk ++ closing :: rest) := rfl
  have hopening : attributeOpening? (first :: second :: (junk ++ closing :: rest)) =
      some (joinTokens first second) := by
    simp [attributeOpening?, hfirst, hsecond]
  refine hleft.bind_run.trans ?_
  rw [hopening]
  exact hskip.bind_run.trans hnames.bind_run

/-- Where only names stand between the brackets, the list is read with its brackets. -/
theorem attributeList_of_names (hfirst : first.isSymbol '[' = true)
    (hsecond : second.isSymbol '[' = true) (hclosing : closing.isSymbol ']' = true)
    (hclosing' : closing'.isSymbol ']' = true) (hloose : ∀ t ∈ junk, isLoose t = true)
    (hleft : (nameList junk).left = []) :
    attributeList past (first :: second :: (junk ++ closing :: closing' :: rest)) =
      ⟨some (attributesOf first second junk), rest, if (nameList junk).complete then [] else
        [Message.error closing.span (Problem.text .expectedIdentifier)]⟩ := by
  rw [attributeList_run hfirst hsecond hclosing hloose, hleft]
  have hmore : ∀ reported, (do
      closeAttributes 2 reported
      return some (attributesOf first second junk) : Production (Option Node)).Reads past
        (closing :: closing' :: rest) (some (attributesOf first second junk)) rest :=
    fun _ => reads_bind.mpr
      ⟨(), rest, reads_closeAttributes_both hclosing hclosing', reads_pure.mpr ⟨rfl, rfl⟩⟩
  cases (nameList junk).complete with
  | true => exact hmore false
  | false => exact bind_reads rfl (hmore true)

/-- Where something else stands between the brackets, it is reported, and the last bracket is left. -/
theorem attributeList_of_junk {t : Token} {loose : List Token} (hfirst : first.isSymbol '[' = true)
    (hsecond : second.isSymbol '[' = true) (hclosing : closing.isSymbol ']' = true)
    (hloose : ∀ t ∈ junk, isLoose t = true) (hleft : (nameList junk).left = t :: loose) :
    attributeList past (first :: second :: (junk ++ closing :: rest)) =
      ⟨some (attributesOf first second junk), rest, [Message.error t.span (Problem.text
        (if (nameList junk).complete then .expectedSymbol ']' else .expectedIdentifier))]⟩ := by
  rw [attributeList_run hfirst hsecond hclosing hloose, hleft]
  have hrest : ∀ u ∈ t :: loose, isLoose u = true :=
    fun u hu => hloose u ((left_suffix junk).mem (hleft ▸ hu))
  have hclose : ∀ reported, closeAttributes 2 reported past (t :: loose ++ closing :: rest) = _ :=
    fun _ => closeAttributes_run (hrest t List.mem_cons_self)
      (fun u hu => hrest u (List.mem_cons_of_mem t hu)) hclosing
  cases (nameList junk).complete with
  | true => exact bind_reads (hclose false) (reads_pure.mpr ⟨rfl, rfl⟩)
  | false =>
      exact bind_reads rfl (reads_bind.mpr ⟨(), rest, hclose true, reads_pure.mpr ⟨rfl, rfl⟩⟩)

end attributes

/-- A function declaration from its attributes on. -/
def afterAttributes (attributes? : Option Node) : Production (Option Node) := do
  let qualifiers ← typeQualifiers
  match ← typename with
  | none => return none
  | some type =>
    match ← identifier with
    | none => return none
    | some name =>
      if !(← atSymbol '(') then return none
      let parameters ← parameterList
      let body ← functionBody
      let children := attributes?.toList ++ qualifiers ++ [type, name, parameters] ++ body
      return some (.mk .functionDeclaration name.token children)

theorem functionDeclaration_eq : functionDeclaration = rewinding (attributeList >>= afterAttributes) := rfl

section declarations

variable {node : Node}

theorem reads_afterAttributes_some {attributes? : Option Node} :
    (afterAttributes attributes?).Reads past tokens (some node) rest ↔
      ∃ qualifiers left type opened name parameters bodied body,
        typeQualifiers.Reads past tokens qualifiers left ∧
        typename.Reads past left (some type) (name :: opened) ∧ isName name = true ∧
        opened.head?.any (fun t => t.isSymbol '(') = true ∧
        parameterList.Reads past opened parameters bodied ∧
        functionBody.Reads past bodied body rest ∧
        Node.mk .functionDeclaration name (attributes?.toList ++ qualifiers ++
          [type, Node.leaf .identifier name, parameters] ++ body) = node := by
  simp [afterAttributes, Option.exists, Node.leaf, Node.token]

/-- A function without attributes is read after an attribute list as it is alone. -/
theorem reads_afterAttributes (h : functionDeclaration.Reads past tokens (some node) rest)
    (hnone : ∀ child ∈ node.children, child.kind ≠ .attributeList) (attributes : Node) :
    (afterAttributes (some attributes)).Reads past tokens
      (some (.mk .functionDeclaration node.token (attributes :: node.children))) rest := by
  obtain ⟨attributes?, mid, qualifiers, left, type, opened, name, parameters, bodied, body, hattributes,
    hqualifiers, htype, hname, hopening, hparameters, hbody, rfl⟩ := reads_functionDeclaration_some.mp h
  have hmid : attributes? = none ∧ mid = tokens := by
    cases attributes? with
    | none => exact ⟨rfl, (reads_attributeList_none.mp hattributes).2⟩
    | some found =>
        obtain ⟨token, items, last, final, -, -, -, -, -, rfl⟩ := reads_attributeList_some.mp hattributes
        exact absurd rfl (hnone (.mk .attributeList token items.nodes) (by simp [Node.children]))
  obtain ⟨rfl, rfl⟩ := hmid
  exact reads_afterAttributes_some.mpr ⟨qualifiers, left, type, opened, name, parameters, bodied, body,
    hqualifiers, htype, hname, hopening, hparameters, hbody, rfl⟩

/-- Nothing can be declared at a closing bracket. -/
theorem reads_afterAttributes_closing {closing : Token} (hclosing : closing.isSymbol ']' = true)
    (attributes? : Option Node) :
    (afterAttributes attributes?).Reads past (closing :: rest) none (closing :: rest) := by
  refine reads_bind.mpr ⟨[], closing :: rest, reads_typeQualifiers.mpr
    ⟨[], rfl, by simp, by simp [isQualifier_of_isSymbol hclosing], rfl⟩, ?_⟩
  refine reads_bind.mpr ⟨none, closing :: rest, reads_typenameWithin_none.mpr
    ⟨by simp [isName_of_isSymbol hclosing], rfl⟩, reads_pure.mpr ⟨rfl, rfl⟩⟩

/-- Declarations read without a problem: there are none, or there is a first. -/
theorem reads_declarations {nodes : List Node}
    (h : (repeatWhile nextDeclaration []).Reads past tokens nodes rest) :
    (tokens = [] ∧ nodes = []) ∨ ∃ node mid others,
      functionDeclaration.Reads past tokens (some node) mid ∧
        (repeatWhile nextDeclaration []).Reads past mid others rest ∧ nodes = node :: others := by
  rcases reads_repeatUpTo_succ.mp h with hdone | ⟨next, mid, hagain, -⟩
  · obtain ⟨rfl, -, rfl⟩ := reads_nextDeclaration_done.mp hdone
    exact .inl ⟨rfl, rfl⟩
  · obtain ⟨-, node, hnode, -⟩ := reads_nextDeclaration_again.mp hagain
    have hall := (repeatWhile_nextDeclaration_cons hnode).symm.trans h
    cases hrun : repeatWhile nextDeclaration [] past mid with
    | mk others left messages =>
        rw [hrun] at hall
        obtain ⟨rfl, rfl, rfl⟩ := Step.mk.inj hall
        exact .inr ⟨node, mid, others, hnode, hrun, rfl⟩

theorem rewinding_some {α : Type} {p : Production (Option α)} {a : α}
    (h : p past tokens = ⟨some a, rest, messages⟩) :
    rewinding p past tokens = ⟨some a, rest, messages⟩ := by
  simp [rewinding, h]

theorem rewinding_none {α : Type} {p : Production (Option α)}
    (h : p past tokens = ⟨none, rest, messages⟩) :
    rewinding p past tokens = ⟨none, tokens, messages⟩ := by
  simp [rewinding, h]

variable {first second closing closing' : Token} {junk : List Token}

/-- After names in brackets a function is read as it is alone. -/
theorem functionDeclaration_of_names (hfirst : first.isSymbol '[' = true)
    (hsecond : second.isSymbol '[' = true) (hclosing : closing.isSymbol ']' = true)
    (hclosing' : closing'.isSymbol ']' = true) (hjunk : ∀ t ∈ junk, isLoose t = true)
    (hleft : (nameList junk).left = [])
    (hreads : functionDeclaration.Reads past tokens (some node) rest)
    (hnone : ∀ child ∈ node.children, child.kind ≠ .attributeList) :
    functionDeclaration past (first :: second :: (junk ++ closing :: closing' :: tokens)) =
      ⟨some (.mk .functionDeclaration node.token (attributesOf first second junk :: node.children)), rest,
        if (nameList junk).complete then [] else
          [Message.error closing.span (Problem.text .expectedIdentifier)]⟩ := by
  rw [functionDeclaration_eq]
  exact rewinding_some (bind_reads
    (attributeList_of_names hfirst hsecond hclosing hclosing' hjunk hleft)
    (reads_afterAttributes hreads hnone _))

/-- After anything else in brackets no function is found, since the last bracket is in its place. -/
theorem functionDeclaration_of_junk {t : Token} {loose : List Token} (hfirst : first.isSymbol '[' = true)
    (hsecond : second.isSymbol '[' = true) (hclosing : closing.isSymbol ']' = true)
    (hclosing' : closing'.isSymbol ']' = true) (hjunk : ∀ t ∈ junk, isLoose t = true)
    (hleft : (nameList junk).left = t :: loose) :
    functionDeclaration past (first :: second :: (junk ++ closing :: closing' :: tokens)) =
      ⟨none, first :: second :: (junk ++ closing :: closing' :: tokens), [Message.error t.span (Problem.text
        (if (nameList junk).complete then .expectedSymbol ']' else .expectedIdentifier))]⟩ := by
  rw [functionDeclaration_eq]
  exact rewinding_none (bind_reads (attributeList_of_junk hfirst hsecond hclosing hjunk hleft)
    (reads_afterAttributes_closing hclosing' _))

/-- Brackets and loose tokens in front of a declaration are skipped with it. -/
theorem passes_brackets (hfirst : first.isSymbol '[' = true) (hsecond : second.isSymbol '[' = true)
    (hclosing : closing.isSymbol ']' = true) (hclosing' : closing'.isSymbol ']' = true)
    (hjunk : ∀ t ∈ junk, isLoose t = true) :
    Passes 0 (first :: second :: (junk ++ closing :: closing' :: tokens)) tokens := by
  have hplain : ∀ t ∈ first :: second :: (junk ++ [closing, closing']), Plain t := by
    simp only [List.forall_mem_cons, List.forall_mem_append, List.not_mem_nil, false_imp_iff,
      implies_true, and_true]
    exact ⟨plain_of_isSymbol hfirst (by decide), plain_of_isSymbol hsecond (by decide),
      fun t ht c hc => isSymbol_of_isLoose (hjunk t ht) (by grind),
      plain_of_isSymbol hclosing (by decide), plain_of_isSymbol hclosing' (by decide)⟩
  have hleads : Leads (Passes 0) AnyPlace (_ ++ tokens) tokens := leads_append hplain
  simpa using hleads.crosses

end declarations

end Shading.Grammar

namespace Shading

open Grammar Production

variable {tokens : List Token} {node : Node}

/-- A text without a problem that is one declaration is read as one. -/
theorem reads_of_parse (hclean : (parse tokens).2 = []) (hsingle : (parse tokens).1.children = [node]) :
    functionDeclaration.Reads (pastEnd tokens) tokens (some node) [] := by
  rw [messages_parse] at hclean
  have hall := reads_of_messages_eq_nil hclean
  rw [← children_parse, hsingle] at hall
  rcases reads_declarations hall with ⟨-, hnodes⟩ | ⟨found, mid, others, hfound, hothers, hnodes⟩
  · cases hnodes
  · obtain ⟨rfl, rfl⟩ := List.cons.inj hnodes
    rcases reads_declarations hothers with ⟨rfl, -⟩ | ⟨_, _, _, _, _, hmore⟩
    · exact hfound
    · cases hmore

/-- A text that is one declaration, with what is reported about it. -/
theorem parse_single {messages : List Message}
    (h : functionDeclaration (pastEnd tokens) tokens = ⟨some node, [], messages⟩) :
    (parse tokens).1.children = [node] ∧ (parse tokens).2 = messages := by
  have hall : tokens ++ [] = tokens := List.append_nil tokens
  rw [← hall] at h
  obtain ⟨hchildren, hmessages⟩ := parse_cons tokens h
  rw [hall, parse_nil] at hchildren hmessages
  exact ⟨hchildren, hmessages.trans (List.append_nil messages)⟩

/-- A text that cannot be read as a declaration and is skipped to its end. -/
theorem parse_lost {t : Token} {messages : List Message}
    (h : functionDeclaration (pastEnd (t :: tokens)) (t :: tokens) = ⟨none, t :: tokens, messages⟩)
    (hskip : afterDeclaration 0 (t :: tokens) = []) :
    (parse (t :: tokens)).1.children = [] ∧ (parse (t :: tokens)).2 =
      messages ++ [Message.error t.span (Problem.text .expectedDeclaration)] := by
  have hturn := nextDeclaration_none h []
  rw [hskip] at hturn
  have hrun : repeatWhile nextDeclaration [] (pastEnd (t :: tokens)) (t :: tokens) =
      ⟨[], [], messages ++ [Message.error t.span (Problem.text .expectedDeclaration)] ++ []⟩ := by
    have hdone : (nextDeclaration [] (pastEnd (t :: tokens)) []).result = .done [] := rfl
    rw [repeatWhile, repeatUpTo_succ_again (congrArg Step.result hturn), hturn, List.length_cons,
      repeatUpTo_succ_done hdone]
    rfl
  rw [children_parse, messages_parse, hrun]
  exact ⟨rfl, List.append_nil _⟩

/-- **An attribute list with a problem.**  If the names with commas between them go on to the brackets, the
function that follows is read with its attributes, and at most one name is missed.  If a token is left
before the brackets, the last bracket stays in front of the function, which is then skipped with it, and
there are two problems. -/
theorem parse_attributes (first second closing closing' : Token) (junk function : List Token)
    (node : Node) (hfirst : first.isSymbol '[' = true) (hsecond : second.isSymbol '[' = true)
    (hclosing : closing.isSymbol ']' = true) (hclosing' : closing'.isSymbol ']' = true)
    (hjunk : ∀ t ∈ junk, isLoose t = true) (hclean : (parse function).2 = [])
    (hsingle : (parse function).1.children = [node])
    (hnone : ∀ child ∈ node.children, child.kind ≠ .attributeList) :
    ((nameList junk).left = [] →
      (parse (first :: second :: (junk ++ closing :: closing' :: function))).1.children =
        [.mk .functionDeclaration node.token (attributesOf first second junk :: node.children)] ∧
      (parse (first :: second :: (junk ++ closing :: closing' :: function))).2 =
        if (nameList junk).complete then [] else [Message.error closing.span "Expected identifier"]) ∧
    ∀ t loose, (nameList junk).left = t :: loose →
      (parse (first :: second :: (junk ++ closing :: closing' :: function))).1.children = [] ∧
      (parse (first :: second :: (junk ++ closing :: closing' :: function))).2 =
        [Message.error t.span (if (nameList junk).complete then "Expected ']'" else
          "Expected identifier"), Message.error first.span "Expected function declaration"] := by
  have hreads := reads_of_parse hclean hsingle
  have hpast : pastEnd (first :: second :: (junk ++ closing :: closing' :: function)) =
      pastEnd function := by
    have hne : function ≠ [] := by
      rintro rfl
      rw [parse_nil] at hsingle
      cases hsingle
    simpa using pastEnd_append (first :: second :: (junk ++ [closing, closing'])) hne
  constructor
  · intro hleft
    have hrun := functionDeclaration_of_names hfirst hsecond hclosing hclosing' hjunk hleft hreads hnone
    rw [← hpast] at hrun
    exact parse_single hrun
  · intro t loose hleft
    have hskip : afterDeclaration 0 (first :: second :: (junk ++ closing :: closing' :: function)) = [] :=
      (passes_brackets hfirst hsecond hclosing hclosing' hjunk 0 (Nat.le_refl 0)).trans
        (afterDeclaration_of_reads hreads)
    obtain ⟨hchildren, hmessages⟩ := parse_lost
      (functionDeclaration_of_junk hfirst hsecond hclosing hclosing' hjunk hleft) hskip
    refine ⟨hchildren, hmessages.trans ?_⟩
    cases (nameList junk).complete <;> rfl

/-- The tokens of ` void f();` after a list of attributes. -/
def prototypeSample : List Token :=
  lineTokens [(12, .identifier, "void"), (17, .identifier, "f"), (18, .symbol, "("), (19, .symbol, ")"),
    (20, .symbol, ";")]

/-- The declaration that `prototypeSample` is read as. -/
def prototypeNode : Node :=
  .mk .functionDeclaration ⟨.identifier, ⟨⟨0, 17, 0, 17⟩, ⟨0, 17, 0, 17⟩⟩, "f"⟩
    [.mk .typename ⟨.identifier, ⟨⟨0, 12, 0, 12⟩, ⟨0, 15, 0, 15⟩⟩, "void"⟩ [],
      .mk .identifier ⟨.identifier, ⟨⟨0, 17, 0, 17⟩, ⟨0, 17, 0, 17⟩⟩, "f"⟩ [],
      .mk .parameterList ⟨.symbol, ⟨⟨0, 18, 0, 18⟩, ⟨0, 18, 0, 18⟩⟩, "("⟩ []]

theorem parse_prototypeSample :
    (parse prototypeSample).2 = [] ∧ (parse prototypeSample).1.children = [prototypeNode] := by
  rw [Parser.parse_eq]
  exact ⟨rfl, rfl⟩

/-- The tokens of `entry 1`. -/
def numberedSample : List Token := lineTokens [(2, .identifier, "entry"), (8, .integer, "1")]

/-- The tokens of `entry,`. -/
def trailingSample : List Token := lineTokens [(2, .identifier, "entry"), (7, .symbol, ",")]

def bracketSample (text : String) (column : Nat) : Token :=
  ⟨.symbol, Span.single ⟨0, column, 0, column⟩, text⟩

/-- Tokens in double square brackets before `prototypeSample`. -/
def attributedSample (junk : List Token) : List Token :=
  bracketSample "[" 0 :: bracketSample "[" 1 ::
    (junk ++ bracketSample "]" 9 :: bracketSample "]" 10 :: prototypeSample)

theorem parse_attributes_attributedSample :
    ((parse (attributedSample trailingSample)).1.children =
        [.mk .functionDeclaration prototypeNode.token
          (attributesOf (bracketSample "[" 0) (bracketSample "[" 1) trailingSample ::
            prototypeNode.children)] ∧
      (parse (attributedSample trailingSample)).2 =
        [Message.error (bracketSample "]" 9).span "Expected identifier"]) ∧
    (parse (attributedSample numberedSample)).1.children = [] ∧
      (parse (attributedSample numberedSample)).2 =
        [Message.error ⟨⟨0, 8, 0, 8⟩, ⟨0, 8, 0, 8⟩⟩ "Expected ']'",
          Message.error (bracketSample "[" 0).span "Expected function declaration"] :=
  ⟨(parse_attributes (bracketSample "[" 0) (bracketSample "[" 1) (bracketSample "]" 9)
      (bracketSample "]" 10) trailingSample prototypeSample prototypeNode (by decide +kernel)
      (by decide +kernel) (by decide +kernel) (by decide +kernel) (by decide +kernel)
      parse_prototypeSample.1 parse_prototypeSample.2 (by decide +kernel)).1 (by decide +kernel),
    (parse_attributes (bracketSample "[" 0) (bracketSample "[" 1) (bracketSample "]" 9)
      (bracketSample "]" 10) numberedSample prototypeSample prototypeNode (by decide +kernel)
      (by decide +kernel) (by decide +kernel) (by decide +kernel) (by decide +kernel)
      parse_prototypeSample.1 parse_prototypeSample.2 (by decide +kernel)).2
        ⟨.integer, ⟨⟨0, 8, 0, 8⟩, ⟨0, 8, 0, 8⟩⟩, "1"⟩ [] (by decide +kernel)⟩

/-- It is not so that after any loose tokens in the brackets the function is read with its attributes. -/
theorem attributes_not_recovered :
    ¬ ∀ (first second closing closing' : Token) (junk function : List Token) (node : Node),
      first.isSymbol '[' = true → second.isSymbol '[' = true → closing.isSymbol ']' = true →
      closing'.isSymbol ']' = true → (∀ t ∈ junk, isLoose t = true) → (parse function).2 = [] →
      (parse function).1.children = [node] →
      (∀ child ∈ node.children, child.kind ≠ .attributeList) →
      (parse (first :: second :: (junk ++ closing :: closing' :: function))).2.length ≤ 1 ∧
      ∃ attributes, attributes.kind = .attributeList ∧
        (parse (first :: second :: (junk ++ closing :: closing' :: function))).1.children =
          [.mk .functionDeclaration node.token (attributes :: node.children)] := by
  intro h
  have hone : (parse (attributedSample numberedSample)).2.length ≤ 1 :=
    (h (bracketSample "[" 0) (bracketSample "[" 1) (bracketSample "]" 9) (bracketSample "]" 10)
      numberedSample prototypeSample prototypeNode (by decide +kernel) (by decide +kernel)
      (by decide +kernel) (by decide +kernel) (by decide +kernel) parse_prototypeSample.1
      parse_prototypeSample.2 (by decide +kernel)).1
  rw [Parser.parse_eq] at hone
  exact absurd hone (by decide +kernel)

end Shading
