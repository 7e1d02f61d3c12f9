import Shading.Proofs.Parser.Agreement

/-! # A parser goes forward and leaves the counter as it was

`Rule` lists the productions of a parser, each with what it is given besides its position and with what has
to be next (`Rule.Due`).  From any position and any state with the counter of nesting within the limit, and
with room on the stack for the levels that are left, a production gives a result, uses tokens that are
there, and leaves the counter as it was (`Rule.ends`).  `IsTurn` lists what is repeated: a turn that goes on
has passed a token (`IsTurn.mirrors`).  So a parser comes to its end, with or without checks of its counters
(`parse_progress`).

The one thing that can stop it is a check of offsets, at a symbol that ends at the last offset there is. -/

namespace Shading.Parser

open Grammar Production

variable {α β : Type} {input : Input} {units start : Nat} {s : State}

/-! ### Runs that end -/

/-- The run gives a result and leaves the counter as it was, which has not passed the limit. -/
def Ends (run : Run α) (s : State) (post : α → Prop) : Prop :=
  ∃ a s', run s = some (a, s') ∧ s'.nesting = s.nesting ∧ s'.highest ≤ nestingLimit ∧ post a

theorem Ends.pack {run : Run α} {P : α → Prop} {Q : β → Prop} {f : α → β} (h : Ends run s P)
    (hf : ∀ a, P a → Q (f a)) : Ends (do return f (← run)) s Q := by
  obtain ⟨a, s', hrun, hnesting, hhighest, ha⟩ := h
  refine ⟨f a, s', ?_, hnesting, hhighest, hf a ha⟩
  show (run s).bind _ = _
  rw [hrun]
  rfl

theorem ends_pure {a : α} {P : α → Prop} (hhighest : s.highest ≤ nestingLimit) (ha : P a) :
    Ends (pure a) s P := ⟨a, s, rfl, rfl, hhighest, ha⟩

/-- What does all that a production does comes to its end within the tokens. -/
theorem Follows.ends {low : Nat} {run : Run α} {p : Production β} {view : α → Nat × β} {post : α → Prop}
    (h : Follows input units units low start run p view post) (hnesting : s.nesting + units = nestingLimit)
    (hhighest : s.highest ≤ nestingLimit) :
    Ends run s fun a => (view a).1 ≤ input.tokens.size ∧ post a := by
  obtain ⟨a, nesting, highest, messages, hrun, -, hleft, hle, -, hlast, ha⟩ := h s hnesting hhighest
  exact ⟨a, _, hrun, by show nesting = s.nesting; omega, hle, hlast, ha⟩

/-! ### Productions -/

/-- A production, or what passes over tokens, with what it is given besides the position. -/
inductive Rule where
  | expectSymbol (c : Char)
  | groupLength
  | expressionLength
  | recoveryLength (closer : Char)
  | statementRecoveryLength
  | declarationRecoveryLength
  | identifier
  | literal
  | typeQualifier
  | typeQualifiers
  | typename
  | typenameNested (depth : Nat)
  | typeArguments (depth : Nat)
  | expression
  | assignment
  | binary (sides least : Nat)
  | unary
  | suffixed
  | primary
  | argumentList
  | bracedList
  | returnStatement
  | abandonedDeclaration (pos : Nat)
  | variableDeclaration
  | expressionStatement
  | statement
  | compoundStatement
  | attributeItem
  | attributeList
  | parameter
  | parameterList
  | functionDeclaration

namespace Rule

/-- The number of tokens that the production uses, if it finds anything.  What is nested has `room` on the
stack. -/
def run (input : Input) (room start : Nat) : Rule → Run (Option Nat)
  | .expectSymbol c => return some (← input.expectSymbol start c)
  | .groupLength => return some (input.groupLength start)
  | .expressionLength => return some (input.expressionLength start)
  | .recoveryLength closer => return some (input.recoveryLength start closer)
  | .statementRecoveryLength => return some (input.statementRecoveryLength start)
  | .declarationRecoveryLength => return some (input.declarationRecoveryLength start)
  | .identifier => return (input.identifier start).map Parsed.consumed
  | .literal => return (input.literal start).map Parsed.consumed
  | .typeQualifier => return (input.typeQualifier start).map Parsed.consumed
  | .typeQualifiers => return some (← input.typeQualifiers start).1
  | .typename => return (← input.typename start).map Parsed.consumed
  | .typenameNested depth => return (← input.typenameNested start depth).map Parsed.consumed
  | .typeArguments depth =>
    return (← input.typeArguments (fun pos => input.typenameNested pos depth) start).map Prod.fst
  | .expression => return (← input.expression (input.nested room) start).map Parsed.consumed
  | .assignment => return (← input.assignment (input.nested room) start).map Parsed.consumed
  | .binary sides least =>
    return (← input.binary (input.nested room) sides least start).map Parsed.consumed
  | .unary => return (← input.unary (input.nested room) start).map Parsed.consumed
  | .suffixed => return (← input.suffixed (input.nested room) start).map Parsed.consumed
  | .primary => return (← input.primary (input.nested room) start).map Parsed.consumed
  | .argumentList => return some (← input.argumentList (input.nested room) start).consumed
  | .bracedList => return some (← input.bracedList (input.nested room) start).consumed
  | .returnStatement => return some (← input.returnStatement (input.nested room) start).consumed
  | .abandonedDeclaration pos => return some (input.abandonedDeclaration start pos).consumed
  | .variableDeclaration => return (← input.variableDeclaration (input.nested room) start).map Parsed.consumed
  | .expressionStatement => return (← input.expressionStatement (input.nested room) start).map Parsed.consumed
  | .statement => return (← input.statement (input.nested room) start).map Parsed.consumed
  | .compoundStatement => return some (← input.compoundStatement (input.nested room) start).consumed
  | .attributeItem => return (← input.attributeItem (input.nested room) start).map Parsed.consumed
  | .attributeList => return (← input.attributeList (input.nested room) start).map Parsed.consumed
  | .parameter => return (← input.parameter start).map Parsed.consumed
  | .parameterList => return some (← input.parameterList start).consumed
  | .functionDeclaration => return (← input.functionDeclaration (input.nested room) start).map Parsed.consumed

/-- What has to be so where the production starts. -/
def Due (input : Input) (start : Nat) : Rule → Prop
  | .argumentList | .parameterList => input.isSymbol start '(' = true
  | .bracedList | .compoundStatement => input.isSymbol start '{' = true
  | .returnStatement => input.isWord start "return" = true
  | .typenameNested depth => depth ≤ nestingLimit
  | .binary sides least => precedenceLevels + 1 < sides + least ∧ 0 < sides
  | .typeArguments depth => depth ≤ nestingLimit ∧ input.isSymbol start '<' = true
  | .abandonedDeclaration pos => start ≤ pos ∧ pos ≤ input.tokens.size
  | .statementRecoveryLength => start < input.tokens.size ∧ ¬ input.isSymbol start '}' = true
  | .declarationRecoveryLength => start < input.tokens.size
  | _ => True

variable {x : Run (Option Parsed)} {p : Production (Option Node)} {post : Option Parsed → Prop}

/-- What a production uses is there. -/
def Fits (input : Input) (start : Nat) (used : Option Nat) : Prop :=
  ∀ consumed ∈ used, start + consumed ≤ input.tokens.size

theorem fits_found {found : Option Parsed} (h : (foundAt start found).1 ≤ input.tokens.size) :
    Fits input start (found.map Parsed.consumed) := by
  cases found with
  | none => exact nofun
  | some found => exact fun consumed hused => Option.some.inj hused ▸ h

theorem fits_some {count : Nat} (h : start + count ≤ input.tokens.size) : Fits input start (some count) :=
  fun _ hused => Option.some.inj hused ▸ h

/-- Every production comes to its end, uses tokens that are there and leaves the counter as it was. -/
theorem ends (hfit : input.OffsetsFit) (rule : Rule) (hstart : start ≤ input.tokens.size)
    (hdue : rule.Due input start) (hnesting : s.nesting ≤ nestingLimit)
    (hhighest : s.highest ≤ nestingLimit) {room : Nat} (hroom : nestingLimit < s.nesting + room) :
    Ends (rule.run input room start) s (Fits input start) := by
  have hless : nestingLimit - s.nesting < room := by omega
  have hunits : s.nesting + (nestingLimit - s.nesting) = nestingLimit := Nat.add_sub_of_le hnesting
  have hle : nestingLimit - s.nesting ≤ nestingLimit := Nat.sub_le _ _
  have hagrees := agrees_ofUnits hfit hle hless
  have hagrees' := agrees_ofUnits hfit hle (Nat.lt_succ_of_lt hless)
  obtain ⟨he, hu⟩ := mirrors_level hfit hle hless
  have hfound : ∀ {x : Run (Option Parsed)} {p : Production (Option Node)} {post : Option Parsed → Prop},
      Mirrors input (nestingLimit - s.nesting) start x p (foundAt start) post →
      Ends (do return (← x).map Parsed.consumed) s (Fits input start) :=
    fun h => (Follows.ends h hunits hhighest).pack fun _ ha => fits_found ha.1
  have hparsed : ∀ {low : Nat} {x : Run Parsed} {p : Production Node} {post : Parsed → Prop},
      Follows input (nestingLimit - s.nesting) (nestingLimit - s.nesting) low start x p (parsedAt start) post →
      Ends (do return some (← x).consumed) s (Fits input start) :=
    fun h => (Follows.ends h hunits hhighest).pack fun _ ha => fits_some ha.1
  have hlength : ∀ after, start + skipped after (input.rest start) ≤ input.tokens.size :=
    fun _ => Input.skipped_le _ hstart
  have htoken : start < input.tokens.size → ∃ t, input.token? start = some t :=
    fun hlt => ⟨input.tokens[start], Array.getElem?_eq_getElem hlt⟩
  cases rule with
  | expectSymbol c =>
      exact ((mirrors_expectSymbol c hstart).ends hunits hhighest).pack fun _ ha => fits_some ha.1
  | groupLength => exact ends_pure hhighest (fits_some (hlength _))
  | expressionLength => exact ends_pure hhighest (fits_some (hlength _))
  | recoveryLength closer => exact ends_pure hhighest (fits_some (hlength _))
  | statementRecoveryLength =>
      obtain ⟨t, ht⟩ := htoken hdue.1
      exact ends_pure hhighest (fits_some (statementRecovery_rest ht hdue.2).2.2)
  | declarationRecoveryLength =>
      obtain ⟨t, ht⟩ := htoken hdue
      exact ends_pure hhighest (fits_some (declarationRecovery_rest ht).2.2)
  | identifier =>
      refine ends_pure hhighest (fits_found ?_)
      cases h : input.identifier start with
      | none => exact hstart
      | some found => exact (identifier_some h).2.2
  | literal =>
      refine ends_pure hhighest (fits_found ?_)
      cases h : input.literal start with
      | none => exact hstart
      | some found => exact (literal_some h).2
  | typeQualifier =>
      refine ends_pure hhighest fun consumed hused => ?_
      obtain ⟨found, hfound, rfl⟩ := Option.map_eq_some_iff.mp hused
      obtain ⟨t, ht, rfl⟩ := Option.map_eq_some_iff.mp hfound
      exact Input.lt_of_token? (Option.filter_eq_some_iff.mp ht).1
  | typeQualifiers =>
      exact ((mirrors_typeQualifiers hstart).ends hunits hhighest).pack fun _ ha => fits_some ha.1
  | typename => exact hfound (mirrors_typename hstart)
  | typenameNested depth => exact hfound (mirrors_typenameNested (Nat.add_sub_of_le hdue) hstart)
  | typeArguments depth =>
      have hitem : Nests input (nestingLimit - s.nesting) (fun pos => input.typenameNested pos depth)
          (typenameWithin (nestingLimit - depth)) TakesToken :=
        fun _ => mirrors_typenameNested (Nat.add_sub_of_le hdue.1)
      refine ((mirrors_typeArguments hitem hdue.2).ends hunits hhighest).pack fun found ha => ?_
      cases found with
      | none => exact nofun
      | some found => exact fits_some ha.1
  | expression => exact hfound (hagrees'.expression start hstart)
  | assignment => exact hfound (mirrors_assignment hfit hu he start hstart)
  | binary sides least =>
      obtain ⟨levels, rfl⟩ := Nat.exists_eq_add_one.mpr hdue.2
      have hlevels : precedenceLevels + 1 < levels + 1 + least := hdue.1
      exact hfound (mirrors_binary hfit hu levels least (by omega) start hstart)
  | unary => exact hfound (hu start hstart)
  | suffixed => exact hfound (mirrors_suffixed he hstart)
  | primary => exact hfound (mirrors_primary he hstart)
  | argumentList => exact hparsed (mirrors_argumentList he hdue)
  | bracedList => exact hparsed (hagrees'.list start hdue)
  | returnStatement => exact hparsed (hagrees.returnStatement hdue)
  | abandonedDeclaration pos =>
      have hend : Follows input (nestingLimit - s.nesting) (nestingLimit - s.nesting) start pos _ _ _ _ :=
        Agrees.follows_abandon hdue.1 hdue.2
      exact (Follows.ends hend hunits hhighest).pack fun _ ha => fits_some ha.1
  | variableDeclaration => exact hfound (hagrees.variableDeclaration hstart)
  | expressionStatement => exact hfound (hagrees.expressionStatement hstart)
  | statement => exact hfound (hagrees.statement hstart)
  | compoundStatement => exact hparsed (hagrees'.block start hdue)
  | attributeItem => exact hfound (hagrees.attributeItem start hstart)
  | attributeList => exact hfound (hagrees.attributeList hstart)
  | parameter => exact hfound (mirrors_parameter start hstart)
  | parameterList => exact hparsed (mirrors_parameterList hdue)
  | functionDeclaration => exact hfound (hagrees.functionDeclaration hstart)

end Rule

/-! ### Repetitions -/

/-- The turns that are repeated, where what is nested has `room` on the stack. -/
inductive IsTurn (input : Input) (room : Nat) : {σ : Type} → (Nat → σ → Run (Turn (Nat × σ))) → Prop
  | qualifiers : IsTurn input room input.qualifierTurn
  | typeArguments {depth : Nat} (hdepth : depth ≤ nestingLimit) :
      IsTurn input room (input.itemTurn fun pos => input.typenameNested pos depth)
  | arguments : IsTurn input room (input.itemTurn (input.nested room).expression)
  | suffixes : IsTurn input room (input.suffixTurn (input.nested room))
  | operators {sides least : Nat} (hsides : precedenceLevels < sides + least ∧ 0 < sides) :
      IsTurn input room (input.binaryTurn
        (fun precedence => input.binary (input.nested room) sides (precedence + 1)) least)
  | initialisers : IsTurn input room (input.initialiserTurn (input.nested room))
  | statements : IsTurn input room (input.statementTurn (input.nested room))
  | attributes : IsTurn input room (input.itemTurn (input.attributeItem (input.nested room)))
  | parameters : IsTurn input room (input.itemTurn input.parameter)
  | declarations : IsTurn input room (input.declarationTurn (input.nested room))

theorem mirrors_qualifierTurn (nodes : List Node) (hstart : start ≤ input.tokens.size) :
    Mirrors input units start (input.qualifierTurn start nodes)
      (do match ← takeIf isQualifier with
        | some t => return .again (nodes ++ [.leaf .typeQualifier t])
        | none => return .done nodes) turnAt (Advances start) := by
  rw [Input.qualifierTurn, typeQualifier_eq]
  by_cases h : (input.token? start).any isQualifier = true
  · rw [if_pos h]
    exact Follows.read (takeIf_of_any h)
      (follows_pure rfl (Nat.le_succ _) (Input.lt_of_any h) (Nat.lt_succ_self start))
  · rw [if_neg h]
    exact Follows.read (takeIf_of_not_any h) (follows_pure rfl (Nat.le_refl _) hstart trivial)

theorem IsTurn.mirrors {room : Nat} {σ : Type} {turn : Nat → σ → Run (Turn (Nat × σ))}
    (h : IsTurn input room turn) (hfit : input.OffsetsFit) (hunits : units ≤ nestingLimit)
    (hroom : units < room) :
    ∃ q : σ → Production (Turn σ), ∀ pos state, pos ≤ input.tokens.size →
      Mirrors input units pos (turn pos state) (q state) turnAt (Advances pos) := by
  have hagrees := agrees_ofUnits hfit hunits hroom
  obtain ⟨he, hu⟩ := mirrors_level hfit hunits hroom
  have hitems : ∀ {x : Nat → Run (Option Parsed)} {item : Production (Option Node)}
      {post : Option Parsed → Prop}, Nests input units x item post →
      ∃ q : Items → Production (Turn Items), ∀ pos items, pos ≤ input.tokens.size →
        Mirrors input units pos (input.itemTurn x pos items) (q items) turnAt (Advances pos) :=
    fun hx => ⟨_, fun pos _ hpos => mirrors_nextItem (hx pos hpos)⟩
  cases h with
  | qualifiers => exact ⟨_, fun _ nodes hpos => mirrors_qualifierTurn nodes hpos⟩
  | typeArguments hdepth => exact hitems fun _ => mirrors_typenameNested (Nat.add_sub_of_le hdepth)
  | arguments => exact hitems he
  | suffixes => exact ⟨_, fun _ node hpos => mirrors_suffixTurn he node hpos⟩
  | @operators sides least hsides =>
      obtain ⟨levels, rfl⟩ := Nat.exists_eq_add_one.mpr hsides.2
      have hlevels : precedenceLevels < levels + 1 + least := hsides.1
      have hright : ∀ precedence, least ≤ precedence → precedence ≤ precedenceLevels →
          Nests input units (input.binary (input.nested room) (levels + 1) (precedence + 1))
            (binary (level units).unary levels (precedence + 1)) anything :=
        fun precedence _ _ => mirrors_binary hfit hu levels (precedence + 1) (by omega)
      exact ⟨_, fun _ node hpos => mirrors_binaryTurn hfit hright node hpos⟩
  | initialisers => exact ⟨_, fun _ items hpos => mirrors_initialiserTurn hagrees.list he items hpos⟩
  | statements => exact ⟨_, fun _ nodes hpos => hagrees.statementTurn nodes hpos⟩
  | attributes => exact hitems hagrees.attributeItem
  | parameters => exact hitems mirrors_parameter
  | declarations => exact ⟨_, fun _ nodes hpos => hagrees.declarationTurn nodes hpos⟩

/-! ### Whole token lists -/

/-- A check of offsets stops a run where an operator is looked for at a symbol that ends at the last offset
and is followed by a symbol of its file. -/
theorem operatorAt_stopped {first second : Token} (hchecks : input.checksOffsets = true)
    (hfirst : input.token? start = some first) (hsecond : input.token? (start + 1) = some second)
    (hsymbol : first.kind = .symbol) (hsymbol' : second.kind = .symbol)
    (hfile : first.span.last.file = second.span.start.file)
    (hlast : first.span.last.index + 1 = UInt32.size) : input.operatorAt start s = none := by
  have hstopped : input.symbolsAdjacent start s = none := by
    rw [Input.symbolsAdjacent, hfirst, hsecond]
    simp only [hsymbol, hsymbol', hfile, and_self, if_true, Input.indexAfter, hchecks, hlast]
    rfl
  rw [Input.operatorAt, hfirst, Option.filter_some_pos (by simpa using hsymbol)]
  show (input.symbolsAdjacent start s).bind _ = _
  rw [hstopped]
  rfl

/-- **Progress and balance.**  Let no symbol that ends at the last offset be followed by a symbol of its
file, if offsets are checked.  Then every production, from any position and any depth within the limit,
with room on the stack for the levels that are left, comes to its end.  It uses tokens that are there and
leaves the counter as it was, and the counter has not passed the limit; so no check of levels stops it.
Every turn of a repetition that goes on has passed a token, a repetition is its turns one after another,
and a whole text is read to its end.

Where offsets are not checked that is so for every token list, and more room makes no difference.  Where
they are, looking for an operator at such a symbol stops the parser. -/
theorem parse_progress (input : Input) :
    (input.OffsetsFit →
      (∀ (rule : Rule) (room start : Nat) (s : State), start ≤ input.tokens.size →
        rule.Due input start → s.nesting ≤ nestingLimit → s.highest ≤ nestingLimit →
        nestingLimit < s.nesting + room →
        ∃ used s', rule.run input room start s = some (used, s') ∧
          (∀ consumed ∈ used, start + consumed ≤ input.tokens.size) ∧ s'.nesting = s.nesting ∧
          s'.highest ≤ nestingLimit) ∧
      (∀ {room : Nat} {σ : Type} {turn : Nat → σ → Run (Turn (Nat × σ))}, IsTurn input room turn →
        ∀ pos state s, pos ≤ input.tokens.size → s.nesting ≤ nestingLimit →
          s.highest ≤ nestingLimit → nestingLimit < s.nesting + room →
          (∃ turned s', turn pos state s = some (turned, s') ∧ s'.nesting = s.nesting ∧
            s'.highest ≤ nestingLimit ∧ (turnAt turned).1 ≤ input.tokens.size ∧
            ∀ next state', turned = .again (next, state') → pos < next) ∧
          input.repeated turn pos state s = (turn pos state >>= continued (input.repeated turn)) s ∧
          ∃ last s', input.repeated turn pos state s = some (last, s') ∧ s'.nesting = s.nesting ∧
            s'.highest ≤ nestingLimit ∧ last.1 ≤ input.tokens.size) ∧
      (nestingLimit < input.stack →
        ∃ tree s', input.programUnit {} = some (tree, s') ∧ s'.nesting = 0 ∧ s'.highest ≤ nestingLimit)) ∧
    (∀ (tokens : List Token) (stack : Nat), nestingLimit < stack →
      ∃ s', Input.programUnit { tokens := tokens.toArray, stack := stack } {} =
        some ((parse tokens).1, s') ∧ s'.messages.toList = (parse tokens).2) ∧
    ∀ pos first second s, input.checksOffsets = true → input.token? pos = some first →
      input.token? (pos + 1) = some second → first.kind = .symbol → second.kind = .symbol →
      first.span.last.file = second.span.start.file → first.span.last.index + 1 = UInt32.size →
      input.operatorAt pos s = none := by
  refine ⟨fun hfit => ⟨?_, ?_, ?_⟩, ?_, ?_⟩
  · intro rule room start s hstart hdue hnesting hhighest hroom
    obtain ⟨used, s', hrun, hsame, hle, hused⟩ := rule.ends hfit hstart hdue hnesting hhighest hroom
    exact ⟨used, s', hrun, hused, hsame, hle⟩
  · intro room σ turn hturn pos state s hpos hnesting hhighest hroom
    have hunits : s.nesting + (nestingLimit - s.nesting) = nestingLimit := Nat.add_sub_of_le hnesting
    obtain ⟨q, hmirrors⟩ := hturn.mirrors hfit (Nat.sub_le nestingLimit s.nesting) (by omega)
    obtain ⟨turned, s₁, hrun, hsame, hle, hlast, hadvances⟩ :=
      (hmirrors pos state hpos).ends hunits hhighest
    obtain ⟨last, s₂, hrun', hsame', hle', hlast', -⟩ :=
      (mirrors_repeated hmirrors pos state hpos).ends hunits hhighest
    refine ⟨⟨turned, s₁, hrun, hsame, hle, hlast, ?_⟩,
      repeated_eq_continued hmirrors state hpos hunits hhighest, last, s₂, hrun', hsame', hle', hlast'⟩
    rintro next state' rfl
    exact hadvances
  · intro hstack
    obtain ⟨highest, hrun, hle⟩ := (agrees_ofUnits hfit (Nat.le_refl nestingLimit) hstack).programUnit
      (s := {}) (Nat.zero_add _) (Nat.zero_le _)
    exact ⟨_, _, hrun, rfl, hle⟩
  · intro tokens stack hstack
    obtain ⟨highest, hrun⟩ := programUnit_run tokens hstack
    rw [parse_eq]
    exact ⟨_, hrun, rfl⟩
  · exact fun pos first second s hchecks hfirst hsecond hsymbol hsymbol' hfile hlast =>
      operatorAt_stopped hchecks hfirst hsecond hsymbol hsymbol' hfile hlast

/-- The tokens of `f(-1)`, with all checks. -/
def checkedSample : Input where
  tokens := #[⟨.identifier, Span.single ⟨0, 0, 0, 0⟩, "f"⟩, ⟨.symbol, Span.single ⟨0, 1, 0, 1⟩, "("⟩,
    ⟨.symbol, Span.single ⟨0, 2, 0, 2⟩, "-"⟩, ⟨.integer, Span.single ⟨0, 3, 0, 3⟩, "1"⟩,
    ⟨.symbol, Span.single ⟨0, 4, 0, 4⟩, ")"⟩]
  checksOffsets := true
  checksLevels := true

/-- The arguments are read at the last level, where the sign is refused. -/
theorem parse_progress_checkedSample :
    checkedSample.OffsetsFit ∧ Rule.argumentList.Due checkedSample 1 ∧
      ∃ used s', Rule.argumentList.run checkedSample 2 1 ⟨63, 63, #[]⟩ = some (used, s') ∧
        (∀ consumed ∈ used, 1 + consumed ≤ 5) ∧ s'.nesting = 63 ∧ s'.highest ≤ 64 := by
  have hfit : checkedSample.OffsetsFit := by
    have hoffsets : ∀ t ∈ checkedSample.tokens, t.span.last.index + 1 ≠ UInt32.size := by decide +kernel
    exact fun _ pos first _ hfirst _ _ _ _ => hoffsets first (Array.mem_of_getElem? hfirst)
  have hdue : Rule.argumentList.Due checkedSample 1 := by
    show checkedSample.isSymbol 1 '(' = true
    decide +kernel
  exact ⟨hfit, hdue, ((parse_progress checkedSample).1 hfit).1 .argumentList 2 1 ⟨63, 63, #[]⟩ (by decide) hdue
    (by decide) (by decide) (by decide)⟩

end Shading.Parser
