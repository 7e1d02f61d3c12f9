import Shading.Proofs.Grammar.Building
import Shading.Proofs.Grammar.Locality
import Shading.Proofs.Grammar.Soundness

/-! # Program texts one after another

Declarations are read one by one, and a declaration that is read without a problem is read the same
whatever follows it.  So if nothing is reported about a program text, another text after it is read as
it is alone: the declarations of both stand in the tree one after another, and what is reported is what
is reported about the second (`parse_append`).

The second text may hold any problem.  What is needed of it is only that the number of turns allowed
does not matter, since every turn takes a token (`repeatUpTo_eq_of_lt`), and that a turn does not look
at the declarations found before (`repeatUpTo_map`). -/

namespace Shading.Grammar

namespace Step

variable {α β : Type}

/-- The step with another result. -/
def map (f : α → β) (step : Step α) : Step β := ⟨f step.result, step.rest, step.messages⟩

/-- The step, with messages reported before it. -/
def after (messages : List Message) (step : Step α) : Step α :=
  ⟨step.result, step.rest, messages ++ step.messages⟩

end Step

namespace Production

variable {α β : Type} {past : Span} {tokens : List Token}

/-- A sequence goes on from what its first part gives, and reports what both report. -/
theorem bind_run {p : Production α} {f : α → Production β} {a : α} {rest : List Token}
    {messages : List Message} (h : p past tokens = ⟨a, rest, messages⟩) :
    (p >>= f) past tokens = (f a past rest).after messages := by
  show Production.bind p f past tokens = _
  simp only [Production.bind, h]
  rfl

/-- After something read without a problem a sequence goes on as if it began there. -/
theorem Reads.bind_run {p : Production α} {f : α → Production β} {a : α} {rest : List Token}
    (h : p.Reads past tokens a rest) : (p >>= f) past tokens = f a past rest :=
  Production.bind_run h

/-- How a repetition goes on, with its state changed. -/
def Turn.map (f : α → β) : Turn α → Turn β
  | .again state => .again (f state)
  | .done state => .done (f state)

/-! ### Repetition -/

section repetition

variable {turn : α → Production (Turn α)}

theorem repeatUpTo_succ_again {limit : Nat} {state next : α}
    (h : (turn state past tokens).result = .again next) :
    repeatUpTo turn (limit + 1) state past tokens =
      (repeatUpTo turn limit next past (turn state past tokens).rest).after
        (turn state past tokens).messages := by
  rw [repeatUpTo]
  show Production.bind _ _ past tokens = _
  simp only [Production.bind, h]
  rfl

theorem repeatUpTo_succ_done {limit : Nat} {state last : α}
    (h : (turn state past tokens).result = .done last) :
    repeatUpTo turn (limit + 1) state past tokens =
      (⟨last, (turn state past tokens).rest, []⟩ : Step α).after
        (turn state past tokens).messages := by
  rw [repeatUpTo]
  show Production.bind _ _ past tokens = _
  simp only [Production.bind, h]
  rfl

/-- The number of turns allowed does not matter if there are more of them than tokens. -/
theorem repeatUpTo_eq_of_lt
    (htakes : ∀ state tokens next, (turn state past tokens).result = .again next →
      (turn state past tokens).rest.length < tokens.length)
    {first second : Nat} (state : α) (hfirst : tokens.length < first)
    (hsecond : tokens.length < second) :
    repeatUpTo turn first state past tokens = repeatUpTo turn second state past tokens := by
  induction first generalizing second state tokens with
  | zero => exact absurd hfirst (Nat.not_lt_zero _)
  | succ first ih =>
      obtain ⟨second, rfl⟩ := Nat.exists_eq_add_one.mpr (Nat.zero_lt_of_lt hsecond)
      cases hturn : (turn state past tokens).result with
      | done last => rw [repeatUpTo_succ_done hturn, repeatUpTo_succ_done hturn]
      | again next =>
          have hlt := htakes state tokens next hturn
          rw [repeatUpTo_succ_again hturn, repeatUpTo_succ_again hturn,
            ih next (by omega) (by omega : _ < second)]

/-- What a turn does to a changed state is what it does to the state, changed in the same way; then so
it is with the repetition. -/
theorem repeatUpTo_map {f : α → α}
    (hturn : ∀ state tokens,
      turn (f state) past tokens = (turn state past tokens).map (Turn.map f))
    (limit : Nat) (state : α) (tokens : List Token) :
    repeatUpTo turn limit (f state) past tokens = (repeatUpTo turn limit state past tokens).map f := by
  induction limit generalizing state tokens with
  | zero => rfl
  | succ limit ih =>
      have hmapped := hturn state tokens
      cases h : (turn state past tokens).result with
      | done last =>
          have h' : (turn (f state) past tokens).result = .done (f last) := by
            rw [hmapped, Step.map, h, Turn.map]
          rw [repeatUpTo_succ_done h, repeatUpTo_succ_done h', hmapped]
          rfl
      | again next =>
          have h' : (turn (f state) past tokens).result = .again (f next) := by
            rw [hmapped, Step.map, h, Turn.map]
          rw [repeatUpTo_succ_again h, repeatUpTo_succ_again h', hmapped, Step.map, ih]
          rfl

end repetition

/-! ### Taking tokens -/

/-- What was tried and not found is given back. -/
theorem rest_of_rewinding_none {p : Production (Option α)} {rest : List Token}
    {messages : List Message} (h : rewinding p past tokens = ⟨none, rest, messages⟩) :
    rest = tokens := by
  unfold Production.rewinding at h
  cases hresult : (p past tokens).result with
  | none =>
      simp only [hresult] at h
      exact (congrArg Step.rest h).symm
  | some a =>
      simp only [hresult] at h
      rw [h] at hresult
      cases hresult

end Production

open Production

variable {past : Span} {tokens rest : List Token}

/-- What is found as a declaration took a token. -/
theorem takes_functionDeclaration (past : Span) (tokens : List Token)
    (h : (functionDeclaration past tokens).result ≠ none) :
    (functionDeclaration past tokens).rest.length < tokens.length := by
  obtain ⟨node, hnode⟩ := Option.ne_none_iff_exists'.mp h
  have hmeets : functionDeclaration.Meets AnyWay AnyPlace past tokens _ := meets_functionDeclaration _ _
  obtain ⟨used, errors, hused, -, hbuilt⟩ := hmeets.paid
  have hpos := (hbuilt node hnode).1
  omega

/-! ### Declarations -/

theorem nextDeclaration_some {t : Token} {node : Node} {messages : List Message}
    (h : functionDeclaration past (t :: tokens) = ⟨some node, rest, messages⟩) (nodes : List Node) :
    nextDeclaration nodes past (t :: tokens) = ⟨.again (nodes ++ [node]), rest, messages⟩ := by
  unfold functionDeclaration at h
  simp [nextDeclaration, Nest.nextDeclaration, peek, bind, pure, Production.bind, Production.pure, h]

theorem nextDeclaration_none {t : Token} {messages : List Message}
    (h : functionDeclaration past (t :: tokens) = ⟨none, rest, messages⟩) (nodes : List Node) :
    nextDeclaration nodes past (t :: tokens) = ⟨.again nodes, afterDeclaration 0 rest,
      messages ++ (report .expectedDeclaration past rest).messages⟩ := by
  unfold functionDeclaration at h
  simp [nextDeclaration, Nest.nextDeclaration, peek, report, here, leave, bind, pure, Production.bind,
    Production.pure, h]

/-- While there are tokens a turn goes on and takes one, whether there is a problem or not. -/
theorem nextDeclaration_cons (nodes : List Node) (t : Token) (tail : List Token) :
    ∃ next, (nextDeclaration nodes past (t :: tail)).result = .again next ∧
      (nextDeclaration nodes past (t :: tail)).rest.length < (t :: tail).length := by
  have htakes := takes_functionDeclaration past (t :: tail)
  cases hrun : functionDeclaration past (t :: tail) with
  | mk node? rest messages =>
      cases node? with
      | some node =>
          rw [nextDeclaration_some hrun]
          rw [hrun] at htakes
          exact ⟨_, rfl, htakes (by simp)⟩
      | none =>
          obtain rfl := rest_of_rewinding_none hrun
          rw [nextDeclaration_none hrun]
          exact ⟨_, rfl, Nat.lt_succ_of_le (afterDeclaration_cons_suffix 0 t tail).length_le⟩

theorem nextDeclaration_takes (nodes : List Node) (tokens : List Token) (next : List Node)
    (h : (nextDeclaration nodes past tokens).result = .again next) :
    (nextDeclaration nodes past tokens).rest.length < tokens.length := by
  cases tokens with
  | nil => cases h
  | cons t tail =>
      obtain ⟨_, _, hlt⟩ := nextDeclaration_cons nodes t tail
      exact hlt

/-- A turn adds to the declarations found before and does nothing else with them. -/
theorem nextDeclaration_append (nodes found : List Node) (tokens : List Token) :
    nextDeclaration (nodes ++ found) past tokens =
      (nextDeclaration found past tokens).map (Turn.map (nodes ++ ·)) := by
  cases tokens with
  | nil => rfl
  | cons t tail =>
      cases hrun : functionDeclaration past (t :: tail) with
      | mk node? rest messages =>
          cases node? with
          | some node =>
              rw [nextDeclaration_some hrun, nextDeclaration_some hrun, List.append_assoc]
              rfl
          | none =>
              rw [nextDeclaration_none hrun, nextDeclaration_none hrun]
              rfl

theorem goesOn_nextDeclaration : GoesOn nextDeclaration := by
  intro nodes past tokens next rest h
  have htakes := nextDeclaration_takes nodes tokens next (congrArg Step.result h)
  rwa [h] at htakes

/-- Declarations read without a problem to the last token: what follows them is read after them, from
the declarations found, and enough turns are left for it. -/
theorem repeatUpTo_nextDeclaration_append {nodes last : List Node}
    (h : Turns nextDeclaration past nodes tokens last rest) :
    Sealed tokens ∧ ∀ past' more limit, (tokens ++ more).length < limit →
      ∃ left, more.length < left ∧ repeatUpTo nextDeclaration limit nodes past' (tokens ++ more) =
        repeatUpTo nextDeclaration left last past' more := by
  induction h with
  | done h =>
      obtain ⟨rfl, _, rfl⟩ := reads_nextDeclaration_done.mp h
      exact ⟨.inl rfl, fun past' more limit hlimit => ⟨limit, hlimit, rfl⟩⟩
  | @again nodes _ last tokens mid _ h hlt _ ih =>
      obtain ⟨hne, node, hnode, rfl⟩ := reads_nextDeclaration_again.mp h
      obtain ⟨hsealed, ih⟩ := ih
      obtain ⟨hclosed, hnode⟩ := functionDeclaration_append hnode hsealed
      refine ⟨.inr hclosed, fun past' more limit hlimit => ?_⟩
      obtain ⟨limit, rfl⟩ := Nat.exists_eq_add_one.mpr (Nat.zero_lt_of_lt hlimit)
      have hturn : (nextDeclaration nodes).Reads past' (tokens ++ more) _ (mid ++ more) :=
        reads_nextDeclaration_again.mpr ⟨by simp [hne], node, hnode past' more, rfl⟩
      rw [List.length_append] at hlimit
      obtain ⟨left, hleft, hrest⟩ := ih past' more limit (by rw [List.length_append]; omega)
      refine ⟨left, hleft, ?_⟩
      rw [← hrest, repeatUpTo_succ_again (congrArg Step.result hturn), hturn]
      rfl

/-- What follows declarations read without a problem is read as it is alone, after them. -/
theorem repeatWhile_nextDeclaration_append {nodes : List Node}
    (h : Turns nextDeclaration past [] tokens nodes rest) (past' : Span) (more : List Token) :
    repeatWhile nextDeclaration [] past' (tokens ++ more) =
      (repeatWhile nextDeclaration [] past' more).map (nodes ++ ·) := by
  obtain ⟨left, hleft, hrun⟩ :=
    (repeatUpTo_nextDeclaration_append h).2 past' more _ (Nat.lt_succ_self _)
  calc repeatWhile nextDeclaration [] past' (tokens ++ more)
      = repeatUpTo nextDeclaration left nodes past' more := hrun
    _ = repeatUpTo nextDeclaration (more.length + 1) nodes past' more :=
        repeatUpTo_eq_of_lt nextDeclaration_takes nodes hleft (Nat.lt_succ_self _)
    _ = repeatUpTo nextDeclaration (more.length + 1) (nodes ++ []) past' more := by
        rw [List.append_nil]
    _ = (repeatWhile nextDeclaration [] past' more).map (nodes ++ ·) :=
        repeatUpTo_map (nextDeclaration_append nodes) _ [] more

theorem pastEnd_append (tokens : List Token) {more : List Token} (h : more ≠ []) :
    pastEnd (tokens ++ more) = pastEnd more := by
  rw [pastEnd, pastEnd, List.getLast?_append_of_ne_nil _ h]

/-- What follows a declaration is read as it is alone, after it, whatever was reported about the
declaration. -/
theorem repeatWhile_nextDeclaration_cons {node : Node} {messages : List Message}
    (h : functionDeclaration past tokens = ⟨some node, rest, messages⟩) :
    repeatWhile nextDeclaration [] past tokens =
      ((repeatWhile nextDeclaration [] past rest).map (node :: ·)).after messages := by
  cases tokens with
  | nil => cases congrArg Step.result h
  | cons t tail =>
      have htakes := takes_functionDeclaration past (t :: tail)
      rw [h] at htakes
      have hlt : rest.length < (t :: tail).length := htakes (by simp)
      have hturn := nextDeclaration_some h []
      have hmore : repeatUpTo nextDeclaration (t :: tail).length [node] past rest =
          repeatUpTo nextDeclaration (rest.length + 1) [node] past rest :=
        repeatUpTo_eq_of_lt nextDeclaration_takes [node] hlt (Nat.lt_succ_self _)
      calc repeatWhile nextDeclaration [] past (t :: tail)
          = (repeatUpTo nextDeclaration (t :: tail).length [node] past rest).after messages := by
            rw [repeatWhile, repeatUpTo_succ_again (congrArg Step.result hturn), hturn]
            rfl
        _ = ((repeatWhile nextDeclaration [] past rest).map (node :: ·)).after messages := by
            rw [hmore]
            exact congrArg (Step.after messages)
              (repeatUpTo_map (nextDeclaration_append [node]) _ [] rest)

/-- A declaration of a function without attributes, qualifiers and parameters is read up to its body,
and then as the body is. -/
theorem functionDeclaration_of_body {type name opening closing : Token} {body : List Node}
    {messages : List Message} (htype : isName type = true) (hname : isName name = true)
    (ho : opening.isSymbol '(' = true) (hc : closing.isSymbol ')' = true)
    (hbody : functionBody past tokens = ⟨body, rest, messages⟩) :
    functionDeclaration past (type :: name :: opening :: closing :: tokens) =
      ⟨some (.mk .functionDeclaration name ([.mk .typename type [], .leaf .identifier name,
        .mk .parameterList opening []] ++ body)), rest, messages⟩ := by
  have hattributes : attributeList.Reads past (type :: name :: opening :: closing :: tokens) none
      (type :: name :: opening :: closing :: tokens) :=
    reads_attributeList_none.mpr ⟨by simp [attributeOpening?, isSymbol_of_isName htype], rfl⟩
  have hqualifiers : typeQualifiers.Reads past (type :: name :: opening :: closing :: tokens) []
      (type :: name :: opening :: closing :: tokens) := by
    exact reads_typeQualifiers.mpr ⟨[], rfl, by simp, by simp [isQualifier_of_isName htype], rfl⟩
  have htypename : typename.Reads past (type :: name :: opening :: closing :: tokens)
      (some (.mk .typename type [])) (name :: opening :: closing :: tokens) :=
    reads_typenameWithin_succ.mpr ⟨type, _, none, htype, rfl,
      reads_typeArguments_none.mpr ⟨rfl, .inl (by simp [isSymbol_of_isName hname])⟩, rfl⟩
  have hidentifier : identifier.Reads past (name :: opening :: closing :: tokens)
      (some (.leaf .identifier name)) (opening :: closing :: tokens) :=
    reads_identifier_some.mpr ⟨name, hname, rfl, rfl⟩
  have hopening : (atSymbol '(').Reads past (opening :: closing :: tokens) true
      (opening :: closing :: tokens) := reads_atSymbol.mpr ⟨by simpa using ho, rfl⟩
  have hparameters : parameterList.Reads past (opening :: closing :: tokens)
      (.mk .parameterList opening []) tokens :=
    reads_listed.mpr (.inl ⟨closing, hc, rfl, rfl⟩)
  unfold attributeList at hattributes
  unfold functionBody at hbody
  unfold functionDeclaration Nest.functionDeclaration Production.rewinding
  rw [hattributes.bind_run, hqualifiers.bind_run, htypename.bind_run]
  simp only []
  rw [hidentifier.bind_run]
  simp only []
  rw [hopening.bind_run]
  simp only [Bool.not_true, Bool.false_eq_true, if_false]
  rw [hparameters.bind_run, bind_run hbody]
  simp [Step.after, pure, Production.pure, Node.leaf, Node.token]

end Shading.Grammar

namespace Shading

open Grammar Production

/-- The tree of a token list has the declarations found as its children. -/
theorem children_parse (tokens : List Token) :
    (parse tokens).1.children =
      (repeatWhile nextDeclaration [] (pastEnd tokens) tokens).result := by
  rw [Parser.parse_eq]
  rfl

/-- All that is reported is reported about declarations. -/
theorem messages_parse (tokens : List Token) :
    (parse tokens).2 = (repeatWhile nextDeclaration [] (pastEnd tokens) tokens).messages := by
  rw [Parser.parse_eq]
  exact List.append_nil _

theorem parse_nil : parse [] = (.mk .programUnit ⟨.unknown, Span.origin, ""⟩ [], []) :=
  Parser.parse_eq []

/-- A declaration at the front comes before the declarations of what follows it, and so does what is
reported about it. -/
theorem parse_cons (front : List Token) {more : List Token} {node : Node} {messages : List Message}
    (h : functionDeclaration (pastEnd (front ++ more)) (front ++ more) = ⟨some node, more, messages⟩) :
    (parse (front ++ more)).1.children = node :: (parse more).1.children ∧
      (parse (front ++ more)).2 = messages ++ (parse more).2 := by
  have hrun := repeatWhile_nextDeclaration_cons h
  by_cases hmore : more = []
  · subst hmore
    rw [children_parse, messages_parse, hrun, children_parse, messages_parse]
    exact ⟨rfl, rfl⟩
  · rw [children_parse, messages_parse, hrun, children_parse, messages_parse,
      pastEnd_append front hmore]
    exact ⟨rfl, rfl⟩

/-- **Texts without a problem concatenate.**  If nothing is reported about the first tokens, the tree of
all has the declarations of the first and then those of the second, and what is reported is what is
reported about the second. -/
theorem parse_append (first second : List Token) (hclean : (parse first).2 = []) :
    (parse (first ++ second)).1.children = (parse first).1.children ++ (parse second).1.children ∧
      (parse (first ++ second)).2 = (parse second).2 := by
  by_cases hsecond : second = []
  · subst hsecond
    rw [List.append_nil, parse_nil, Node.children, List.append_nil]
    exact ⟨rfl, hclean⟩
  · rw [messages_parse] at hclean
    have hturns := goesOn_nextDeclaration.turns (reads_of_messages_eq_nil hclean)
    have hall := repeatWhile_nextDeclaration_append hturns (pastEnd second) second
    rw [children_parse, children_parse, children_parse, messages_parse, messages_parse,
      pastEnd_append first hsecond, hall]
    exact ⟨rfl, rfl⟩

/-- The tokens of `>=g;f k();`, which begin with what is no declaration, right behind the last token of
`comparingSample`. -/
def brokenSample : List Token :=
  lineTokens [(28, .symbol, ">"), (29, .symbol, "="), (30, .identifier, "g"), (31, .symbol, ";"),
    (32, .identifier, "f"), (34, .identifier, "k"), (35, .symbol, "("), (36, .symbol, ")"),
    (37, .symbol, ";")]

theorem parse_append_brokenSample :
    (parse comparingSample).2 = [] ∧ (parse brokenSample).2.length = 1 ∧
      (parse brokenSample).1.children.length = 1 ∧
      (parse (comparingSample ++ brokenSample)).1.children =
        (parse comparingSample).1.children ++ (parse brokenSample).1.children ∧
      (parse (comparingSample ++ brokenSample)).2 = (parse brokenSample).2 := by
  have hclean : (parse comparingSample).2 = [] := by
    rw [Parser.parse_eq]
    decide +kernel
  have hbroken : (parse brokenSample).2.length = 1 ∧ (parse brokenSample).1.children.length = 1 := by
    rw [Parser.parse_eq]
    decide +kernel
  exact ⟨hclean, hbroken.1, hbroken.2, parse_append comparingSample brokenSample hclean⟩

end Shading
