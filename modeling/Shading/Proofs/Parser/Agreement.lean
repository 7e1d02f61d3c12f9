import Shading.Proofs.Grammar.Phrases
import Shading.Proofs.Parser.Follows

/-! # The productions of the parser and the grammar -/

namespace Shading.Parser

open Grammar Production

variable {input : Input} {units start : Nat}

theorem end_eq {α : Type} {last : Nat} {a : α} (h : start ≤ last) :
    (start + (last - start), a) = (last, a) := by
  rw [Nat.add_sub_cancel' h]

/-! ### Names -/

/-- A token of some sort that stands for itself. -/
theorem leafAt_eq (condition : Token → Bool) (kind : NodeKind) (start : Nat) :
    ((input.token? start).filter condition).map (fun t => Parsed.mk 1 (.leaf kind t)) =
      if (input.token? start).any condition then some ⟨1, .leaf kind (input.tokenAt start)⟩ else none := by
  unfold Input.tokenAt
  cases input.token? start with
  | none => rfl
  | some t => cases h : condition t <;> simp [Option.filter, h]

theorem identifier_eq (start : Nat) : input.identifier start =
    if (input.token? start).any isName then some ⟨1, .leaf .identifier (input.tokenAt start)⟩ else none :=
  leafAt_eq isName .identifier start

theorem identifier_some {found : Parsed} (h : input.identifier start = some found) :
    found.consumed = 1 ∧ found.node = .leaf .identifier (input.tokenAt start) ∧
      start + found.consumed ≤ input.tokens.size := by
  rw [identifier_eq] at h
  split at h
  · next hany =>
      cases h
      exact ⟨rfl, rfl, Input.lt_of_any hany⟩
  · cases h

theorem identifier_rest : identifier input.endSpan (input.rest start) =
    ⟨(foundAt start (input.identifier start)).2, input.rest (foundAt start (input.identifier start)).1,
      []⟩ := by
  rw [identifier_eq, identifier]
  split
  · next h => exact bind_silent (takeIf_of_any h)
  · next h => exact bind_silent (takeIf_of_not_any h)

theorem literal_rest : literal input.endSpan (input.rest start) =
    ⟨(foundAt start (input.literal start)).2, input.rest (foundAt start (input.literal start)).1, []⟩ := by
  rw [literal, bind_silent peek_rest, Input.literal]
  cases ht : input.token? start with
  | none => rfl
  | some t =>
      cases hkind : literalKind? t with
      | none =>
          rw [Option.bind_some, Option.bind_some, hkind]
          rfl
      | some kind =>
          rw [Option.bind_some, Option.bind_some, hkind]
          exact (bind_silent take_rest).trans (by rw [Input.tokenAt_eq ht]; rfl)

theorem literal_some {found : Parsed} (h : input.literal start = some found) :
    0 < found.consumed ∧ start + found.consumed ≤ input.tokens.size := by
  obtain ⟨t, ht, hkind⟩ := Option.bind_eq_some_iff.mp h
  obtain ⟨kind, -, rfl⟩ := Option.map_eq_some_iff.mp hkind
  exact ⟨Nat.one_pos, Input.lt_of_token? ht⟩

/-! ### Types -/

theorem typeQualifier_eq (start : Nat) : input.typeQualifier start =
    if (input.token? start).any isQualifier then some ⟨1, .leaf .typeQualifier (input.tokenAt start)⟩
    else none :=
  leafAt_eq isQualifier .typeQualifier start

/-- Of type qualifiers those are taken that are next. -/
theorem repeated_qualifierTurn (nodes : List Node) (s : State) :
    input.repeated input.qualifierTurn start nodes s =
      some ((start + ((input.rest start).takeWhile isQualifier).length,
        nodes ++ ((input.rest start).takeWhile isQualifier).map (Node.leaf .typeQualifier)), s) := by
  induction h : input.rest start generalizing start nodes with
  | nil =>
      rw [repeated_eq, Input.qualifierTurn, typeQualifier_eq, Input.rest_eq_nil.mp h]
      simp [advancing]
      rfl
  | cons t more ih =>
      obtain ⟨htoken, rfl⟩ := Input.token?_of_rest h
      have hlt := Input.lt_of_token? htoken
      rw [repeated_eq, Input.qualifierTurn, typeQualifier_eq, htoken, Option.any_some]
      cases ht : isQualifier t with
      | false =>
          simp [advancing, ht]
          rfl
      | true =>
          simp only [if_true, pure_bind, advancing, Nat.lt_succ_self, true_and, Nat.succ_le_of_lt hlt]
          refine (ih _ rfl).trans ?_
          simp [ht, Nat.add_assoc, Nat.add_comm 1, Input.tokenAt_eq htoken]

theorem mirrors_typeQualifiers (hstart : start ≤ input.tokens.size) :
    Mirrors input units start (input.typeQualifiers start) typeQualifiers
      (fun found => (start + found.1, found.2)) (fun found => found.1 = found.2.length) := by
  intro s hnesting hhighest
  let words := (input.rest start).takeWhile isQualifier
  refine ⟨(words.length, words.map (Node.leaf .typeQualifier)), s.nesting, s.highest, [], ?_, ?_, hnesting,
    hhighest, Nat.le_add_right _ _, ?_, (List.length_map _).symm⟩
  · show (input.repeated input.qualifierTurn start [] s).bind
      (fun r => some ((r.1.1 - start, r.1.2), r.2)) = _
    rw [repeated_qualifierTurn, Option.bind_some, Nat.add_sub_cancel_left, List.nil_append, Array.append_empty]
  · show (Step.mk _ ((input.rest start).drop _) _) = _
    rw [Input.drop_rest]
    rfl
  · have hle : words.length ≤ (input.rest start).length := (List.takeWhile_prefix _).length_le
    rw [Input.length_rest] at hle
    dsimp only
    omega

/-- What an item means for a list. -/
theorem follows_nextItem {low : Nat} {items : Items} {found : Option Parsed}
    (hlow : low ≤ start) (hstart : (foundAt start found).1 ≤ input.tokens.size) :
    Follows input units units low (foundAt start found).1
      (pure (input.nextItem start items found))
      (match (foundAt start found).2 with
        | none => pure (.done { items with complete := false })
        | some node => do
          let items : Items := { items with nodes := items.nodes ++ [node] }
          if ← accept ',' then return .again items else return .done items)
      turnAt (Advances start) := by
  cases found with
  | none => exact follows_pure rfl hlow hstart trivial
  | some item =>
      show Follows input units units low (start + item.consumed) _ _ _ _
      by_cases h : input.isSymbol (start + item.consumed) ',' = true
      · have hnext : input.nextItem start items (some item) =
            .again (start + item.consumed + 1, { items with nodes := items.nodes ++ [item.node] }) :=
          if_pos h
        rw [hnext]
        exact Follows.read (accept_of_isSymbol h)
          (follows_pure rfl (by omega) (Input.lt_of_isSymbol h) (show start < _ by omega))
      · have hnext : input.nextItem start items (some item) =
            .done (start + item.consumed, { items with nodes := items.nodes ++ [item.node] }) :=
          if_neg h
        rw [hnext]
        exact Follows.read (accept_of_not_isSymbol h) (follows_pure rfl (by omega) hstart trivial)

theorem mirrors_nextItem {x : Run (Option Parsed)} {item : Production (Option Node)} {items : Items}
    {post : Option Parsed → Prop} (hx : Mirrors input units start x item (foundAt start) post) :
    Mirrors input units start (x >>= fun found => pure (input.nextItem start items found))
      (nextItem item items) turnAt (Advances start) :=
  hx.bind fun _ _ hlast _ => follows_nextItem (Nat.le_refl _) hlast

/-- What is read from a position on does what the production `e` does. -/
def Nests (input : Input) (units : Nat) (x : Nat → Run (Option Parsed)) (e : Production (Option Node))
    (post : Option Parsed → Prop) : Prop :=
  ∀ pos, pos ≤ input.tokens.size → Mirrors input units pos (x pos) e (foundAt pos) post

theorem Nests.items {x : Nat → Run (Option Parsed)} {item : Production (Option Node)}
    {post : Option Parsed → Prop} (hx : Nests input units x item post) (items : Items)
    (hstart : start ≤ input.tokens.size) :
    Mirrors input units start (input.repeated (input.itemTurn x) start items)
      (repeatWhile (nextItem item) items) id anything := by
  have hturn : ∀ pos items, pos ≤ input.tokens.size → Mirrors input units pos
      (input.itemTurn x pos items) (nextItem item items) turnAt (Advances pos) :=
    fun pos _ hpos => mirrors_nextItem (hx pos hpos)
  exact mirrors_repeated hturn start items hstart

def typesAt (start : Nat) : Option (Nat × List Node) → Nat × Option (List Node)
  | some (consumed, nodes) => (start + consumed, some nodes)
  | none => (start, none)

/-- The arguments of a type, from what is read as their items. -/
theorem mirrors_typeArguments {x : Nat → Run (Option Parsed)} {item : Production (Option Node)}
    {post : Option Parsed → Prop} (hx : Nests input units x item post)
    (hopening : input.isSymbol start '<' = true) :
    Mirrors input units start (input.typeArguments x start) (typeArguments item) (typesAt start)
      anything := by
  have hstart := Input.lt_of_isSymbol hopening
  unfold Input.typeArguments
  show Follows input units units start start _ (rewindTo (input.rest start) _) _ _
  rw [rewindTo_bind]
  refine Follows.read (accept_of_isSymbol hopening) ?_
  simp only [Bool.not_true, Bool.false_eq_true, if_false, rewindTo_bind]
  refine (hx.items _ hstart).bind fun found hle hlast _ => ?_
  obtain ⟨pos, nodes, complete⟩ := found
  have hpos : start + 1 ≤ pos := hle
  have hnone : ∀ mid, Follows input units units start mid (pure none)
      (rewindTo (input.rest start) (pure none)) (typesAt start) anything :=
    fun _ => follows_rewound rfl (Nat.le_refl _) (Nat.le_of_lt hstart) trivial
  cases complete with
  | false => exact hnone pos
  | true =>
      simp only [rewindTo_bind, rewindTo_ite, true_and]
      by_cases h : input.isSymbol pos '>' = true
      · rw [if_pos h]
        exact Follows.read (accept_of_isSymbol h)
          (follows_pure (end_eq (by omega)) (by omega) (Input.lt_of_isSymbol h) trivial)
      · rw [if_neg h]
        exact Follows.read (accept_of_not_isSymbol h) (hnone pos)

theorem typeArguments_of_not_isSymbol {item : Production (Option Node)}
    (h : ¬ input.isSymbol start '<' = true) :
    typeArguments item input.endSpan (input.rest start) = ⟨none, input.rest start, []⟩ := by
  show rewindTo (input.rest start) _ _ _ = _
  rw [rewindTo_bind, bind_silent (accept_of_not_isSymbol h)]
  rfl

theorem mirrors_typenameNested {levels depth : Nat} (hdepth : depth + levels = nestingLimit)
    (hstart : start ≤ input.tokens.size) :
    Mirrors input units start (input.typenameNested start depth) (typenameWithin levels) (foundAt start)
      TakesToken := by
  induction levels generalizing start depth with
  | zero =>
      rw [Input.typenameNested, identifier_eq, typenameWithin]
      by_cases h : (input.token? start).any isName = true
      · rw [if_pos h]
        refine Follows.read (takeIf_of_any h) ?_
        simp only [show ¬ depth < nestingLimit by omega, false_and, dite_false]
        exact follows_pure rfl (Nat.le_add_right _ _) (Input.lt_of_any h) Nat.one_pos
      · rw [if_neg h]
        exact Follows.read (takeIf_of_not_any h) (follows_pure rfl (Nat.le_refl _) hstart trivial)
  | succ levels ih =>
      rw [Input.typenameNested, identifier_eq, typenameWithin]
      by_cases h : (input.token? start).any isName = true
      · rw [if_pos h]
        refine Follows.read (takeIf_of_any h) ?_
        have hlast := Input.lt_of_any h
        by_cases hopening : input.isSymbol (start + 1) '<' = true
        · simp only [show depth < nestingLimit by omega, hopening, and_self, dite_true]
          have hitem : Nests input units (fun pos => input.typenameNested pos (depth + 1))
              (typenameWithin levels) TakesToken := fun pos hpos => ih (by omega) hpos
          refine (mirrors_typeArguments hitem hopening).bind
            fun found hle hend _ => ?_
          cases found with
          | none => exact follows_pure rfl (Nat.le_add_right _ _) hlast Nat.one_pos
          | some found =>
              refine follows_pure ?_ (Nat.le_trans (Nat.le_succ _) hle) hend ?_
              · exact Prod.ext (Nat.add_assoc ..).symm rfl
              · exact Nat.lt_of_lt_of_le Nat.one_pos (Nat.le_add_right _ _)
        · simp only [hopening, Bool.false_eq_true, and_false, dite_false]
          refine Follows.read (typeArguments_of_not_isSymbol hopening) ?_
          exact follows_pure rfl (Nat.le_add_right _ _) hlast Nat.one_pos
      · rw [if_neg h]
        exact Follows.read (takeIf_of_not_any h) (follows_pure rfl (Nat.le_refl _) hstart trivial)

theorem mirrors_typename (hstart : start ≤ input.tokens.size) :
    Mirrors input units start (input.typename start) typename (foundAt start) TakesToken :=
  mirrors_typenameNested (Nat.zero_add _) hstart

/-! ### Brackets -/

/-- A closing bracket is passed over if it is there. -/
theorem follows_closed {α β : Type} {low : Nat} {closer : Char} {f : Nat → α} {b : β}
    {view : α → Nat × β} (hview : ∀ last, start ≤ last → view (f last) = (last, b)) (hlow : low ≤ start)
    (hstart : start ≤ input.tokens.size) :
    Follows input units units low start
      (pure (f (if input.isSymbol start closer = true then start + 1 else start)))
      (accept closer >>= fun _ => pure b) view anything := by
  by_cases h : input.isSymbol start closer = true
  · rw [if_pos h]
    exact Follows.read (accept_of_isSymbol h)
      (follows_pure (hview _ (Nat.le_succ _)) (by omega) (Input.lt_of_isSymbol h) trivial)
  · rw [if_neg h]
    exact Follows.read (accept_of_not_isSymbol h) (follows_pure (hview _ (Nat.le_refl _)) hlow hstart trivial)

theorem skipToCloser_rest (closer : Char) : skipToCloser closer input.endSpan (input.rest start) =
    ⟨(), input.rest (start + input.recoveryLength start closer), []⟩ :=
  leave_rest (fromCloser_suffix closer 0)

theorem mirrors_closeList (closer : Char) (missing : Problem) (complete : Bool)
    (hstart : start ≤ input.tokens.size) :
    Mirrors input units start (input.closeList closer missing start complete)
      (closeList closer missing complete) (fun last => (last, ())) anything := by
  have hskip : start + input.recoveryLength start closer ≤ input.tokens.size := Input.skipped_le _ hstart
  have hreported : ∀ problem : Problem, Mirrors input units start
      (do
        input.report start problem
        let pos := start + input.recoveryLength start closer
        return if input.isSymbol pos closer then pos + 1 else pos)
      (do
        report problem
        skipToCloser closer
        let _ ← accept closer)
      (fun last => (last, ())) anything := by
    intro problem
    refine (mirrors_report problem hstart).bind fun _ _ _ _ => ?_
    refine Follows.read (skipToCloser_rest closer) ?_
    exact follows_closed (f := id) (fun _ _ => rfl) (Nat.le_add_right _ _) hskip
  cases complete with
  | false => exact hreported missing
  | true =>
      refine Follows.read (atSymbol_rest closer) ?_
      cases h : input.isSymbol start closer with
      | true =>
          have hclose : input.closeList closer missing start true = pure (start + 1) := by
            simp [Input.closeList, h]
          rw [hclose]
          exact Follows.read (accept_of_isSymbol h)
            (follows_pure rfl (Nat.le_succ _) (Input.lt_of_isSymbol h) trivial)
      | false =>
          have hclose : input.closeList closer missing start true = (do
              input.report start (.expectedSymbol closer)
              let pos := start + input.recoveryLength start closer
              return if input.isSymbol pos closer then pos + 1 else pos) := by
            simp [Input.closeList, h]
          rw [hclose]
          exact hreported _

theorem mirrors_orMissing {x : Run (Option Parsed)} {p : Production (Option Node)}
    {post : Option Parsed → Prop} (hx : Mirrors input units start x p (foundAt start) post)
    (hstart : start ≤ input.tokens.size) :
    Mirrors input units start (x >>= input.orMissing start) (orMissing p) id anything := by
  refine hx.bind fun found hle hlast _ => ?_
  cases found with
  | some found => exact follows_pure rfl hle hlast trivial
  | none =>
      refine (mirrors_report _ hstart).bind fun _ _ _ _ => ?_
      exact Follows.read here_rest (follows_pure rfl (Nat.le_refl _) hstart trivial)

/-- An expression between brackets, up to and with the closing one. -/
theorem mirrors_bracketed {x : Run (Option Parsed)} {p : Production (Option Node)}
    {post : Option Parsed → Prop} (hx : Mirrors input units start x p (foundAt start) post)
    (closer : Char) {missing : Production Node} {node : Node}
    (hmissing : missing input.endSpan (input.rest start) = ⟨node, input.rest start, []⟩)
    (hstart : start ≤ input.tokens.size) :
    Mirrors input units start (x >>= input.closeBracket closer node start) (bracketed closer p missing) id
      anything := by
  refine hx.bind fun found hle hlast _ => ?_
  cases found with
  | some found =>
      have hle : start ≤ start + found.consumed := hle
      have hlast : start + found.consumed ≤ input.tokens.size := hlast
      show Follows input units units start (start + found.consumed) _ _ _ _
      refine Follows.read (atSymbol_rest closer) ?_
      cases h : input.isSymbol (start + found.consumed) closer with
      | true =>
          have hclose : input.closeBracket closer node start (some found) =
              pure (start + found.consumed + 1, found.node) := if_pos h
          rw [hclose]
          refine Follows.read rfl (Follows.read (accept_of_isSymbol h) ?_)
          exact follows_pure rfl (by omega) (Input.lt_of_isSymbol h) trivial
      | false =>
          have hclose : input.closeBracket closer node start (some found) = (do
              input.report (start + found.consumed) (.expectedSymbol closer)
              let pos := start + found.consumed + input.recoveryLength (start + found.consumed) closer
              return (if input.isSymbol pos closer then pos + 1 else pos, found.node)) :=
            if_neg (Bool.eq_false_iff.mp h)
          rw [hclose]
          refine (mirrors_report _ hlast).bind fun _ _ _ _ => ?_
          refine Follows.read (skipToCloser_rest closer) ?_
          exact follows_closed (f := fun last => (last, found.node)) (fun _ _ => rfl)
            (Nat.le_trans hle (Nat.le_add_right _ _)) (Input.skipped_le _ hlast)
  | none =>
      refine (mirrors_report _ hstart).bind fun _ _ _ _ => ?_
      refine Follows.read hmissing (Follows.read (skipToCloser_rest closer) ?_)
      exact follows_closed (f := fun last => (last, node)) (fun _ _ => rfl) (Nat.le_add_right _ _)
        (Input.skipped_le _ hstart)

/-- A bracketed list after its items. -/
theorem follows_endList (low : Nat) (closer : Char) (kind : NodeKind) (missing : Problem) {pos : Nat}
    {items : Items} (hlow : low ≤ pos) (hle : start ≤ pos) (hpos : pos ≤ input.tokens.size) :
    Follows input units units low pos (input.endList closer kind missing start (pos, items))
      (do
        closeList closer missing items.complete
        return .mk kind (input.tokenAt start) items.nodes)
      (parsedAt start) anything := by
  refine (mirrors_closeList closer missing items.complete hpos).bind fun last hlast hend _ => ?_
  have hlast : pos ≤ last := hlast
  exact follows_pure (end_eq (by omega)) (by omega) hend trivial

/-- A list in parentheses, from what is read as its items. -/
theorem mirrors_listed {x : Nat → Run (Option Parsed)} {item : Production (Option Node)}
    {post : Option Parsed → Prop} (hx : Nests input units x item post) (kind : NodeKind)
    (missing : Problem) (hopening : input.isSymbol start '(' = true) :
    Follows input units units (start + 1) start (input.listed kind missing x start)
      (listed kind missing item) (parsedAt start) anything := by
  have hstart := Input.lt_of_isSymbol hopening
  refine Follows.read take_rest (Follows.read (atSymbol_rest ')') (Follows.ite (fun _ => ?_) fun _ => ?_))
  · exact follows_endList _ ')' kind missing (Nat.le_refl _) (Nat.le_succ _) hstart
  · refine (hx.items _ hstart).bind fun found hle hlast _ => ?_
    exact follows_endList _ ')' kind missing hle (Nat.le_trans (Nat.le_succ _) hle) hlast

/-! ### Operators -/

/-- If offsets fit, the parser finds out whether symbols stand side by side. -/
theorem symbolsAdjacent_eq (hfit : input.OffsetsFit) {first second : Token}
    (hfirst : input.token? start = some first) (hsecond : input.token? (start + 1) = some second)
    (s : State) : input.symbolsAdjacent start s =
      some (decide (first.kind = .symbol ∧ second.kind = .symbol) && adjacent first second, s) := by
  unfold Input.symbolsAdjacent
  simp only [hfirst, hsecond]
  by_cases h : first.kind = .symbol ∧ second.kind = .symbol ∧
      first.span.last.file = second.span.start.file
  · have hindex : ¬ (input.checksOffsets = true ∧ first.span.last.index + 1 = UInt32.size) :=
      fun hlast => hfit hlast.1 start first second hfirst hsecond h.1 h.2.1 h.2.2 hlast.2
    rw [if_pos h, Input.indexAfter, if_neg hindex]
    show some (decide (following _ = _), s) = _
    simp [adjacent, h, ← beq_eq_decide]
  · rw [if_neg h]
    show some (false, s) = _
    have hfalse : (decide (first.kind = .symbol ∧ second.kind = .symbol) && adjacent first second) =
        false := by
      rw [Bool.eq_false_iff]
      intro hjoined
      simp only [adjacent, Bool.and_eq_true, decide_eq_true_eq, beq_iff_eq] at hjoined
      exact h ⟨hjoined.1.1, hjoined.1.2, hjoined.2.1⟩
    rw [hfalse]

theorem operatorAt_eq (hfit : input.OffsetsFit) (start : Nat) (s : State) :
    input.operatorAt start s =
      some ((operator? (input.rest start)).map fun found => (found.1.text, found.2), s) := by
  unfold Input.operatorAt
  cases hfirst : input.token? start with
  | none =>
      rw [Input.rest_eq_nil.mpr hfirst]
      rfl
  | some first =>
      rw [Input.rest_eq_cons hfirst]
      by_cases hkind : first.kind = .symbol
      · simp only [Option.filter, hkind, decide_true, if_true]
        cases hsecond : input.token? (start + 1) with
        | none =>
            have hadjacent : ∀ s, input.symbolsAdjacent start s = some (false, s) := by
              intro s
              simp only [Input.symbolsAdjacent, hfirst, hsecond]
              rfl
            rw [Input.rest_eq_nil.mpr hsecond, operator?, if_pos hkind]
            show (input.symbolsAdjacent start s).bind _ = _
            rw [hadjacent]
            rfl
        | some second =>
            rw [Input.rest_eq_cons hsecond, operator?, if_neg (not_not.mpr hkind)]
            show (input.symbolsAdjacent start s).bind _ = _
            rw [symbolsAdjacent_eq hfit hfirst hsecond, Option.bind_some]
            simp only [hkind, true_and]
            by_cases hjoined : second.kind = .symbol ∧ adjacent first second = true
            · rw [if_pos (by simpa using hjoined)]
              by_cases hknown : joinedOperators.contains (first.text ++ second.text) = true
              · rw [if_pos hknown, if_pos ⟨hjoined.1, hjoined.2, hknown⟩]
                rfl
              · rw [if_neg hknown, if_neg fun h => hknown h.2.2]
                rfl
            · rw [if_neg (by simpa using hjoined), if_neg fun h => hjoined ⟨h.1, h.2.1⟩]
              rfl
      · have hnone : operator? (first :: input.rest (start + 1)) = none := by
          cases input.rest (start + 1) <;> simp [operator?, hkind]
        simp only [Option.filter, hkind, decide_false, hnone]
        rfl

/-- The tokens of an operator. -/
theorem operator?_rest {token : Token} {width : Nat}
    (h : operator? (input.rest start) = some (token, width)) :
    token = input.joinedToken start width ∧ 0 < width ∧ start + width ≤ input.tokens.size := by
  rcases operator?_eq_some h with ⟨tail, rfl, hrest, _⟩ | ⟨first, second, tail, rfl, hrest, _, _, _, _, rfl⟩
  · obtain ⟨htoken, _⟩ := Input.token?_of_rest hrest
    exact ⟨(Input.tokenAt_eq htoken).symm, Nat.one_pos, Input.lt_of_token? htoken⟩
  · obtain ⟨hfirst, htail⟩ := Input.token?_of_rest hrest
    obtain ⟨hsecond, _⟩ := Input.token?_of_rest htail.symm
    refine ⟨?_, Nat.two_pos, Input.lt_of_token? hsecond⟩
    have hmore : (input.rest (start + 1)).take 1 = [second] := by
      rw [← htail, List.take_succ_cons, List.take_zero]
    simp [Input.joinedToken, Input.tokenAt_eq hfirst, Input.tokenAt_eq hsecond, hmore, joinTokens]

/-- The equals sign is one token. -/
theorem width_of_equals {tokens : List Token} {token : Token} {width : Nat}
    (h : operator? tokens = some (token, width)) (hequals : token.text = "=") : width = 1 := by
  rcases operator?_eq_some h with ⟨_, hwidth, _⟩ | ⟨first, second, _, _, _, _, _, _, hjoined, rfl⟩
  · exact hwidth
  · have hjoined : joinedOperators.contains (joinTokens first second).text = true := hjoined
    rw [hequals] at hjoined
    exact absurd hjoined (by decide)

/-! ### Expressions

What is nested in an expression is read with fewer units left.  Until the end of this part the
agreement of `expression`, and of what a sign applies to, is assumed for it. -/

section Nesting

variable {inner : Nested} {e operand : Production (Option Node)}

theorem mirrors_argumentList (he : Nests input units inner.expression e anything)
    (hopening : input.isSymbol start '(' = true) :
    Follows input units units (start + 1) start (input.argumentList inner start) (argumentList e)
      (parsedAt start) anything :=
  mirrors_listed he .argumentList .expectedExpression hopening

theorem mirrors_primary (he : Nests input units inner.expression e anything)
    (hstart : start ≤ input.tokens.size) :
    Mirrors input units start (input.primary inner start) (primary e) (foundAt start) anything := by
  unfold Input.primary
  refine Follows.read literal_rest ?_
  cases hliteral : input.literal start with
  | some found =>
      exact follows_pure rfl (Nat.le_add_right _ _) (literal_some hliteral).2 trivial
  | none =>
      show Follows input units units start start _ _ _ _
      refine Follows.read identifier_rest ?_
      cases hname : input.identifier start with
      | some found =>
          exact follows_pure rfl (Nat.le_add_right _ _) (identifier_some hname).2.2 trivial
      | none =>
          show Follows input units units start start _ _ _ _
          by_cases h : input.isSymbol start '(' = true
          · simp only [h, Bool.not_true, Bool.false_eq_true, if_false]
            have hinner := Input.lt_of_isSymbol h
            refine Follows.read (takeIf_of_any h) ?_
            rw [← bind_assoc]
            refine (mirrors_bracketed (he _ hinner) ')' rfl hinner).bind fun found hle hlast _ => ?_
            have hle : start + 1 ≤ found.1 := hle
            exact follows_pure (end_eq (by omega)) (by omega) hlast trivial
          · simp only [h, Bool.not_false, if_true]
            exact Follows.read (takeIf_of_not_any h) (follows_pure rfl (Nat.le_refl _) hstart trivial)

theorem mirrors_suffixTurn (he : Nests input units inner.expression e anything) (node : Node)
    (hstart : start ≤ input.tokens.size) :
    Mirrors input units start (input.suffixTurn inner start node) (suffix e node) turnAt (Advances start) := by
  unfold Input.suffixTurn
  refine Follows.read (atSymbol_rest '(') (Follows.ite (fun h => ?_) fun _ => ?_)
  · refine Follows.read here_rest ?_
    refine (mirrors_argumentList he h).bind fun arguments hle hlast _ => ?_
    exact follows_pure rfl (Nat.le_of_succ_le hle) hlast hle
  by_cases hdot : input.isSymbol start '.' = true
  · rw [if_pos hdot]
    refine Follows.read (takeIf_of_any hdot) (Follows.read identifier_rest ?_)
    have hinner := Input.lt_of_isSymbol hdot
    cases hname : input.identifier (start + 1) with
    | some found =>
        have hle : start < start + 1 + found.consumed := by omega
        exact follows_pure rfl (Nat.le_of_lt hle) (identifier_some hname).2.2 hle
    | none =>
        refine (mirrors_report _ hinner).bind fun _ _ _ _ => ?_
        exact Follows.read (bind_silent here_rest) (follows_pure rfl (Nat.le_succ _) hinner trivial)
  rw [if_neg hdot]
  refine Follows.read (takeIf_of_not_any hdot) ?_
  by_cases hbracket : input.isSymbol start '[' = true
  · rw [if_pos hbracket]
    have hinner := Input.lt_of_isSymbol hbracket
    refine Follows.read (takeIf_of_any hbracket) ?_
    rw [← bind_assoc]
    refine (mirrors_bracketed (he _ hinner) ']' (bind_silent here_rest) hinner).bind
      fun found hle hlast _ => ?_
    exact follows_pure rfl (Nat.le_of_succ_le hle) hlast hle
  · rw [if_neg hbracket]
    exact Follows.read (takeIf_of_not_any hbracket) (follows_pure rfl (Nat.le_refl _) hstart trivial)

theorem mirrors_suffixed (he : Nests input units inner.expression e anything)
    (hstart : start ≤ input.tokens.size) :
    Mirrors input units start (input.suffixed inner start) (suffixed e) (foundAt start) anything := by
  unfold Input.suffixed
  refine (mirrors_primary he hstart).bind fun found hle hlast _ => ?_
  cases found with
  | none => exact follows_pure rfl (Nat.le_refl _) hstart trivial
  | some first =>
      have hsuffixes := mirrors_repeated (fun pos node hpos => mirrors_suffixTurn he node hpos)
        (start + first.consumed) first.node hlast
      refine hsuffixes.bind fun found hle' hlast' _ => ?_
      have hle : start ≤ found.1 := Nat.le_trans hle hle'
      exact follows_pure (end_eq hle) hle hlast' trivial

/-- An expression with signs before it.  What a sign applies to has one unit less, or none is left. -/
theorem mirrors_unary_zero (he : Nests input 0 inner.expression e anything)
    (hstart : start ≤ input.tokens.size) :
    Mirrors input 0 start (input.unary inner start) (unary none e) (foundAt start) anything := by
  unfold Input.unary
  refine Follows.read (isNext_rest isSign) ?_
  show Follows input 0 0 start start (if (!input.isSignAt start) = true then _ else _)
    (if (!input.isSignAt start) = true then _ else _) _ _
  refine Follows.ite (fun _ => mirrors_suffixed he hstart) fun _ => ?_
  refine (mirrors_tooDeep (afterExpression_suffix 0) hstart).bind fun entered hle hlast hentered => ?_
  rw [hentered]
  exact follows_pure rfl hle hlast trivial

theorem mirrors_unary_succ (hunits : units < nestingLimit)
    (ho : Nests input units inner.operand operand anything)
    (he : Nests input (units + 1) inner.expression e anything) (hstart : start ≤ input.tokens.size) :
    Mirrors input (units + 1) start (input.unary inner start) (unary (some operand) e) (foundAt start)
      anything := by
  unfold Input.unary
  refine Follows.read (isNext_rest isSign) ?_
  show Follows input (units + 1) (units + 1) start start (if (!input.isSignAt start) = true then _ else _)
    (if (!input.isSignAt start) = true then _ else _) _ _
  refine Follows.ite (fun _ => mirrors_suffixed he hstart) fun h => ?_
  have hsign : (input.token? start).any isSign = true := by
    cases hnext : input.isSignAt start with
    | false => exact absurd (congrArg _ hnext) h
    | true => exact hnext
  have hinner := Input.lt_of_any hsign
  refine Follows.enter (Follows.read take_rest ?_)
  show Follows input units (units + 1) start (start + 1)
    (inner.operand (start + 1) >>= fun found => input.orMissing (start + 1) found >>= _) _ _ _
  rw [← bind_assoc]
  refine (mirrors_orMissing (ho _ hinner) hinner).bind fun found hle hlast _ => ?_
  have hle : start + 1 ≤ found.1 := hle
  exact Follows.exit hunits (follows_pure (end_eq (by omega)) (by omega) hlast trivial)

theorem precedence?_le {text : String} {k : Nat} (h : precedence? text = some k) :
    k ≤ precedenceLevels := by
  unfold precedence? at h
  split at h <;> cases h <;> decide

/-- Operators are found where they are looked for. -/
theorem mirrors_binaryTurn (hfit : input.OffsetsFit) {x : Nat → Nat → Run (Option Parsed)}
    {right : Nat → Production (Option Node)} {least : Nat}
    (hright : ∀ precedence, least ≤ precedence → precedence ≤ precedenceLevels →
      Nests input units (x precedence) (right precedence) anything)
    (node : Node) (hstart : start ≤ input.tokens.size) :
    Mirrors input units start (input.binaryTurn x least start node) (extendBinary right least node)
      turnAt (Advances start) := by
  unfold Input.binaryTurn
  refine Follows.find (operatorAt_eq hfit start) (Follows.read rfl ?_)
  have hdone : Mirrors input units start (pure (.done (start, node))) (pure (.done node)) turnAt
      (Advances start) := follows_pure rfl (Nat.le_refl _) hstart trivial
  unfold binaryOperator?
  cases hoperator : operator? (input.rest start) with
  | none => exact hdone
  | some found =>
      obtain ⟨token, width⟩ := found
      obtain ⟨rfl, hwidth, hinner⟩ := operator?_rest hoperator
      simp only [Option.map_some, Option.bind_eq_bind, Option.bind_some]
      cases hprecedence : precedence? (input.joinedToken start width).text with
      | none => exact hdone
      | some precedence =>
          simp only [Option.bind_some]
          by_cases hleast : precedence < least
          · simp only [if_pos hleast]
            exact hdone
          · simp only [if_neg hleast]
            refine Follows.read (skip_rest width) ?_
            rw [← bind_assoc]
            have hnested := hright precedence (by omega) (precedence?_le hprecedence) _ hinner
            refine (mirrors_orMissing hnested hinner).bind fun found hle hlast _ => ?_
            have hle : start + width ≤ found.1 := hle
            exact follows_pure rfl (by omega) hlast (show start < found.1 by omega)

/-- Where no operator binds tightly enough, the first turn is the last. -/
theorem repeated_binaryTurn_of_lt (hfit : input.OffsetsFit) (x : Nat → Nat → Run (Option Parsed))
    {least : Nat} (hleast : precedenceLevels < least) (pos : Nat) (node : Node) (s : State) :
    input.repeated (input.binaryTurn x least) pos node s = some ((pos, node), s) := by
  have hturn : input.binaryTurn x least pos node s = some (.done (pos, node), s) := by
    unfold Input.binaryTurn
    show (input.operatorAt pos s).bind _ = _
    rw [operatorAt_eq hfit, Option.bind_some]
    cases operator? (input.rest pos) with
    | none => rfl
    | some found =>
        simp only [Option.map_some]
        cases hprecedence : precedence? found.1.text with
        | none => rfl
        | some precedence =>
            have hlt : precedence < least := Nat.lt_of_le_of_lt (precedence?_le hprecedence) hleast
            simp only [if_pos hlt]
            rfl
  rw [repeated_eq]
  show (input.binaryTurn x least pos node s).bind _ = _
  rw [hturn]
  rfl

theorem mirrors_binary (hfit : input.OffsetsFit)
    (ho : Nests input units (input.unary inner) operand anything) (levels least : Nat)
    (hlevels : precedenceLevels < levels + least) :
    Nests input units (input.binary inner (levels + 1) least) (binary operand levels least) anything := by
  induction levels generalizing least with
  | zero =>
      -- no operator binds as tightly as that
      intro start hstart
      show Mirrors input units start (input.binary inner 1 least start) operand _ _
      rw [Input.binary, ← bind_pure operand]
      refine (ho start hstart).bind fun found hle hlast _ => ?_
      cases found with
      | none => exact follows_pure rfl hle hlast trivial
      | some left =>
          refine Follows.find (repeated_binaryTurn_of_lt hfit _ (by omega) _ _) ?_
          exact follows_pure (end_eq hle) hle hlast trivial
  | succ levels ih =>
      intro start hstart
      rw [Input.binary, binary]
      refine (ho start hstart).bind fun found hle hlast _ => ?_
      cases found with
      | none => exact follows_pure rfl hle hlast trivial
      | some left =>
          have hright : ∀ precedence, least ≤ precedence → precedence ≤ precedenceLevels →
              Nests input units (input.binary inner (levels + 1) (precedence + 1))
                (binary operand levels (precedence + 1)) anything := fun _ _ _ => ih _ (by omega)
          refine (mirrors_repeated (fun pos node hpos => mirrors_binaryTurn hfit hright node hpos) _ _
            hlast).bind fun found hle' hlast' _ => ?_
          have hle : start ≤ found.1 := Nat.le_trans hle hle'
          exact follows_pure (end_eq hle) hle hlast' trivial

theorem mirrors_assignment (hfit : input.OffsetsFit)
    (ho : Nests input units (input.unary inner) operand anything)
    (he : Nests input units inner.expression e anything) :
    Nests input units (input.assignment inner) (assignment operand e) anything := by
  intro start hstart
  unfold Input.assignment
  refine (mirrors_binary hfit ho precedenceLevels 1 (by decide) start hstart).bind
    fun found hle hlast _ => ?_
  cases found with
  | none => exact follows_pure rfl hle hlast trivial
  | some target =>
      show Follows input units units start (start + target.consumed) _ _ _ _
      refine Follows.find (operatorAt_eq hfit _) (Follows.read rfl ?_)
      have htarget : Follows input units units start (start + target.consumed) (pure (some target))
          (pure (some target.node)) (foundAt start) anything := follows_pure rfl hle hlast trivial
      cases hoperator : operator? (input.rest (start + target.consumed)) with
      | none => exact htarget
      | some found =>
          obtain ⟨token, width⟩ := found
          have hwidth := width_of_equals hoperator
          by_cases hequals : token.text = "="
          · obtain rfl := hwidth hequals
            obtain ⟨rfl, -, hinner⟩ := operator?_rest hoperator
            rw [Option.map_some, if_pos (by rw [hequals])]
            show Follows _ _ _ _ _ _ (if _ then _ else _) _ _
            rw [if_pos hequals]
            refine Follows.read (skip_rest 1) ?_
            rw [← bind_assoc]
            refine (mirrors_orMissing (he _ hinner) hinner).bind fun found hle' hlast' _ => ?_
            have hle : start ≤ start + target.consumed := hle
            have hle' : start + target.consumed + 1 ≤ found.1 := hle'
            exact follows_pure (end_eq (by omega)) (by omega) hlast' trivial
          · rw [Option.map_some, if_neg (by simpa using fun h => absurd h hequals)]
            show Follows _ _ _ _ _ _ (if _ then _ else _) _ _
            rw [if_neg hequals]
            exact htarget

/-! ### Levels of nesting -/

theorem mirrors_expression_zero (inner : Nested) :
    Nests input 0 (input.expression inner) (level 0).expression anything := by
  intro start hstart
  unfold Input.expression
  refine (mirrors_tooDeep (afterExpression_suffix 0) hstart).bind fun entered hle hlast hentered => ?_
  rw [hentered]
  exact follows_pure rfl hle hlast trivial

/-- With as many units left, and room for them, expressions and what a sign applies to are read as at that
level. -/
theorem mirrors_level (hfit : input.OffsetsFit) (hunits : units ≤ nestingLimit) {room : Nat}
    (hroom : units < room) :
    Nests input units (input.nested room).expression (level units).expression anything ∧
      Nests input units (input.unary (input.nested room)) (level units).unary anything := by
  induction units generalizing room with
  | zero =>
      obtain ⟨room, rfl⟩ := Nat.exists_eq_add_of_lt hroom
      have he : Nests input 0 (input.nested (0 + room + 1)).expression (level 0).expression anything :=
        mirrors_expression_zero _
      exact ⟨he, fun _ => mirrors_unary_zero he⟩
  | succ units ih =>
      obtain ⟨more, rfl⟩ := Nat.exists_eq_add_of_lt hroom
      obtain ⟨he, ho⟩ := ih (by omega) (show units < units + 1 + more by omega)
      have he' : Nests input (units + 1) (input.nested (units + 1 + more + 1)).expression
          (level (units + 1)).expression anything := by
        intro start hstart
        show Mirrors _ _ _ (input.expression (input.nested (units + 1 + more)) start) _ _ _
        unfold Input.expression
        refine Follows.enter ?_
        rw [← bind_pure (level (units + 1)).expression]
        refine (mirrors_assignment hfit ho he start hstart).bind fun found hle hlast _ => ?_
        exact Follows.exit hunits (follows_pure rfl hle hlast trivial)
      exact ⟨he', fun _ => mirrors_unary_succ hunits ho he'⟩

theorem mirrors_expression (hfit : input.OffsetsFit) (hunits : units ≤ nestingLimit) {room : Nat}
    (hroom : units < room) :
    Nests input units (input.nested room).expression (expression units) anything :=
  (mirrors_level hfit hunits hroom).1

end Nesting

/-! ### Braced lists -/

/-- A list or a block that starts at an opening brace. -/
def Braces (input : Input) (units : Nat) (x : Nat → Run Parsed) (p : Production Node) : Prop :=
  ∀ pos, input.isSymbol pos '{' = true → Mirrors input units pos (x pos) p (parsedAt pos) anything

theorem mirrors_initialiserTurn {inner : Nested} {list : Production Node} {e : Production (Option Node)}
    (hlist : Braces input units inner.list list) (he : Nests input units inner.expression e anything)
    (items : Items) (hstart : start ≤ input.tokens.size) :
    Mirrors input units start (input.initialiserTurn inner start items)
      (nextBraced (bracedItem list e) items) turnAt (Advances start) := by
  unfold Input.initialiserTurn
  refine Follows.read (atSymbol_rest '}') (Follows.ite (fun _ => ?_) fun _ => ?_)
  · exact follows_pure rfl (Nat.le_refl _) hstart trivial
  by_cases h : input.isSymbol start '{' = true
  · rw [if_pos h]
    have hitem : Mirrors input units start (inner.list start >>= fun found => pure (some found))
        (bracedItem list e) (foundAt start) anything := by
      refine Follows.read (atSymbol_rest '{') ?_
      rw [if_pos h]
      exact (hlist start h).bind fun found hle hlast _ => follows_pure rfl hle hlast trivial
    have hturn : Mirrors input units start ((inner.list start >>= fun found => pure (some found)) >>=
        fun found => pure (input.nextItem start items found)) _ _ _ := mirrors_nextItem hitem
    rw [bind_assoc] at hturn
    exact hturn
  · rw [if_neg h]
    have hitem : Mirrors input units start (inner.expression start) (bracedItem list e)
        (foundAt start) anything := by
      refine Follows.read (atSymbol_rest '{') ?_
      rw [if_neg h]
      exact he start hstart
    exact mirrors_nextItem hitem

theorem mirrors_bracedList (hfit : input.OffsetsFit) (hunits : units ≤ nestingLimit) {room : Nat}
    (hroom : units < room) : Braces input units (input.nested room).list (bracedList units) := by
  induction units generalizing room with
  | zero =>
      obtain ⟨room, rfl⟩ := Nat.exists_eq_add_of_lt hroom
      intro start hopening
      show Mirrors _ _ _ (input.bracedList (input.nested (0 + room)) start) _ _ _
      rw [Input.bracedList, bracedList, ← bind_pure (tooDeep _)]
      refine (mirrors_tooDeep (afterGroup_suffix 0) (Nat.le_of_lt (Input.lt_of_isSymbol hopening))).bind
        fun entered hle hlast hentered => ?_
      rw [hentered]
      exact follows_pure rfl hle hlast trivial
  | succ units ih =>
      obtain ⟨more, rfl⟩ := Nat.exists_eq_add_of_lt hroom
      have hless : units < units + 1 + more := by omega
      intro start hopening
      show Mirrors _ _ _ (input.bracedList (input.nested (units + 1 + more)) start) _ _ _
      rw [Input.bracedList, bracedList]
      refine Follows.enter (Follows.read take_rest ?_)
      have hitems := mirrors_repeated (fun pos items hpos => mirrors_initialiserTurn (ih (by omega) hless)
        (mirrors_expression hfit (by omega) hless) items hpos) (start + 1) {} (Input.lt_of_isSymbol hopening)
      refine hitems.bind fun found hle hlast _ => ?_
      have hle : start + 1 ≤ found.1 := hle
      rw [← bind_pure (closeList _ _ _ >>= _)]
      refine (follows_endList start '}' .bracedInitList .expectedExpression (by omega) (by omega)
        hlast).bind fun found hle hlast _ => ?_
      exact Follows.exit hunits (follows_pure rfl hle hlast trivial)

/-! ### Statements -/

/-- What is nested in a statement is read as the productions of `g` read it. -/
structure Agrees (input : Input) (inner : Nested) (units : Nat) (g : Nest) : Prop where
  expression : Nests input units inner.expression g.expression anything
  list : Braces input units inner.list g.list
  block : Braces input units inner.block g.block

namespace Agrees

variable {inner : Nested} {g : Nest}

theorem returnStatement (h : Agrees input inner units g) (hword : input.isWord start "return" = true) :
    Mirrors input units start (input.returnStatement inner start) g.returnStatement (parsedAt start)
      anything := by
  have hstart : start < input.tokens.size := Input.lt_of_any hword
  have hend : ∀ value : Option Parsed, start + 1 ≤ (foundAt (start + 1) value).1 →
      (foundAt (start + 1) value).1 ≤ input.tokens.size →
      Follows input units units start (foundAt (start + 1) value).1
        (do
          let pos := start + 1 + (value.map Parsed.consumed).getD 0
          let semicolon ← input.expectSymbol pos ';'
          let children := (value.map Parsed.node).toList
          return ⟨pos + semicolon - start, .mk .returnStatement (input.tokenAt start) children⟩)
        (do
          expect ';'
          return .mk .returnStatement (input.tokenAt start) (foundAt (start + 1) value).2.toList)
        (parsedAt start) anything := by
    intro value hle hlast
    have hvalue : foundAt (start + 1) value =
        (start + 1 + (value.map Parsed.consumed).getD 0, value.map Parsed.node) := by
      cases value <;> rfl
    rw [hvalue] at hle hlast ⊢
    refine (mirrors_expectSymbol ';' hlast).bind fun count hle' hlast' _ => ?_
    have hle : start ≤ start + 1 + (value.map Parsed.consumed).getD 0 + count :=
      Nat.le_trans (Nat.le_of_succ_le hle) hle'
    exact follows_pure (end_eq hle) hle hlast' trivial
  unfold Input.returnStatement
  refine Follows.read take_rest (Follows.read (atSymbol_rest ';') (Follows.ite (fun _ => ?_) fun _ => ?_))
  · exact hend none (Nat.le_refl _) hstart
  · exact (h.expression _ hstart).bind fun value hle hlast _ => hend value hle hlast

/-- The rest of a declaration that is given up. -/
theorem follows_abandon {pos : Nat} (hle : start ≤ pos) (hpos : pos ≤ input.tokens.size) :
    Follows input units units start pos (pure (input.abandonedDeclaration start pos))
      (abandon (input.tokenAt start)) (parsedAt start) anything := by
  refine Follows.read (leave_rest (afterExpression_suffix 0)) ?_
  have hle : start ≤ pos + input.expressionLength pos := Nat.le_trans hle (Nat.le_add_right _ _)
  exact follows_closed (f := fun last => Parsed.mk (last - start) (input.unknown start))
    (fun _ hlast => end_eq (Nat.le_trans hle hlast)) hle (Input.skipped_le _ hpos)

theorem initialValue (h : Agrees input inner units g) (hstart : start ≤ input.tokens.size) :
    Mirrors input units start (input.initialValue inner start) g.initialValue id anything := by
  unfold Input.initialValue
  by_cases hequals : input.isSymbol start '=' = true
  · simp only [hequals, Bool.not_true, Bool.false_eq_true, if_false]
    have hinner := Input.lt_of_isSymbol hequals
    refine Follows.read (accept_of_isSymbol hequals) ?_
    rw [if_pos rfl, Nest.initialiser, bind_assoc]
    refine Follows.read (atSymbol_rest '{') ?_
    by_cases hbrace : input.isSymbol (start + 1) '{' = true
    · rw [if_pos hbrace, if_pos hbrace]
      refine (h.list _ hbrace).bind fun found hle hlast _ => ?_
      exact follows_pure rfl (Nat.le_of_succ_le hle) hlast trivial
    · rw [if_neg hbrace, if_neg hbrace, bind_assoc]
      refine (h.expression _ hinner).bind fun found hle hlast _ => ?_
      cases found with
      | some found => exact follows_pure rfl (Nat.le_of_succ_le hle) hlast trivial
      | none =>
          simp only [foundAt, bind_assoc]
          refine (mirrors_report _ hinner).bind fun _ _ _ _ => ?_
          refine Follows.read (bind_silent here_rest) (Follows.read (leave_rest (afterExpression_suffix 0)) ?_)
          exact follows_pure rfl (Nat.le_trans (Nat.le_succ _) (Nat.le_add_right _ _))
            (Input.skipped_le _ hinner) trivial
  · simp only [hequals, Bool.not_false, if_true]
    exact Follows.read (accept_of_not_isSymbol hequals) (follows_pure rfl (Nat.le_refl _) hstart trivial)

/-- Something is missing in what may be a declaration: with qualifiers before it, it is one. -/
theorem follows_missing (problem : Problem) (qualifiers : List Node) {pos : Nat} (hle : start ≤ pos)
    (hpos : pos ≤ input.tokens.size) :
    Follows input units units start pos
      (do
        if qualifiers.length = 0 then return none
        input.report pos problem
        return some (input.abandonedDeclaration start pos))
      (rewindTo (input.rest start) do
        if qualifiers.isEmpty then return none
        report problem
        return some (← abandon (input.tokenAt start)))
      (foundAt start) anything := by
  cases qualifiers with
  | nil => exact follows_rewound rfl (Nat.le_refl _) (Nat.le_trans hle hpos) trivial
  | cons node nodes =>
      simp only [List.length_cons, Nat.add_eq_zero_iff, Nat.one_ne_zero, and_false, if_false,
        List.isEmpty_cons, Bool.false_eq_true, rewindTo_bind]
      refine (mirrors_report _ hpos).bind fun _ _ _ _ => ?_
      rw [← pure_bind (input.abandonedDeclaration start pos) (fun found => pure (some found))]
      exact (follows_abandon hle hpos).bind fun found hle hlast _ => follows_pure rfl hle hlast trivial

theorem variableDeclaration (h : Agrees input inner units g) (hstart : start ≤ input.tokens.size) :
    Mirrors input units start (input.variableDeclaration inner start) g.variableDeclaration (foundAt start)
      anything := by
  unfold Input.variableDeclaration
  show Follows input units units start start _ (rewindTo (input.rest start) _) _ _
  simp only [rewindTo_bind]
  refine Follows.read here_rest ?_
  refine (mirrors_typeQualifiers hstart).bind fun found hle hlast hused => ?_
  obtain ⟨used, qualifiers⟩ := found
  obtain rfl : used = qualifiers.length := hused
  refine (mirrors_typename hlast).bind fun type hle' hlast' _ => ?_
  cases type with
  | none => exact follows_missing .expectedTypeName qualifiers hle hlast
  | some type =>
      have hle : start ≤ start + qualifiers.length + type.consumed := by omega
      simp only [foundAt, rewindTo_bind]
      refine Follows.read identifier_rest ?_
      cases hname : input.identifier (start + qualifiers.length + type.consumed) with
      | none => exact follows_missing .expectedIdentifier qualifiers hle hlast'
      | some name =>
          simp only [foundAt, rewindTo_bind, rewindTo_some]
          refine (h.initialValue (identifier_some hname).2.2).bind fun value hle' hlast' _ => ?_
          refine (mirrors_expectSymbol ';' hlast').bind fun count hle'' hlast'' _ => ?_
          have hle' : start + qualifiers.length + type.consumed + name.consumed ≤ value.1 := hle'
          exact follows_pure (end_eq (by omega)) (by omega) hlast'' trivial

theorem expressionStatement (h : Agrees input inner units g) (hstart : start ≤ input.tokens.size) :
    Mirrors input units start (input.expressionStatement inner start) g.expressionStatement (foundAt start)
      anything := by
  unfold Input.expressionStatement
  refine Follows.read here_rest ?_
  refine (h.expression start hstart).bind fun found hle hlast _ => ?_
  cases found with
  | none => exact follows_pure rfl hle hlast trivial
  | some found =>
      refine (mirrors_expectSymbol ';' hlast).bind fun count hle' hlast' _ => ?_
      have hle : start ≤ start + found.consumed + count := Nat.le_trans hle hle'
      exact follows_pure (end_eq hle) hle hlast' trivial

theorem statement (h : Agrees input inner units g) (hstart : start ≤ input.tokens.size) :
    Mirrors input units start (input.statement inner start) g.statement (foundAt start) anything := by
  unfold Input.statement
  by_cases hempty : input.isSymbol start ';' = true
  · rw [if_pos hempty]
    refine Follows.read (takeIf_of_any hempty) ?_
    exact follows_pure rfl (Nat.le_add_right _ _) (Input.lt_of_isSymbol hempty) trivial
  rw [if_neg hempty]
  refine Follows.read (takeIf_of_not_any hempty) (Follows.read (atSymbol_rest '{') ?_)
  refine Follows.ite (fun hbrace => ?_) fun _ => ?_
  · exact (h.block start hbrace).bind fun found hle hlast _ => follows_pure rfl hle hlast trivial
  refine Follows.read (isNext_rest _) (Follows.ite (fun hword => ?_) fun _ => ?_)
  · exact (h.returnStatement hword).bind fun found hle hlast _ => follows_pure rfl hle hlast trivial
  refine (h.variableDeclaration hstart).bind fun found hle hlast _ => ?_
  cases found with
  | some found => exact follows_pure rfl hle hlast trivial
  | none => exact h.expressionStatement hstart

end Agrees

/-! ### Blocks -/

theorem pos_of_counted {found : Option Parsed} {result : Parsed} (h : counted found = some result) :
    0 < result.consumed := by
  simpa using (Option.filter_eq_some_iff.mp h).2

theorem Mirrors.progressing {x : Run (Option Parsed)} {p : Production (Option Node)}
    {post : Option Parsed → Prop} (h : Mirrors input units start x p (foundAt start) post) :
    Mirrors input units start x (progressing p) (fun found => foundAt start (counted found)) anything := by
  intro s hnesting hhighest
  obtain ⟨found, nesting, highest, messages, hx, hp, hleft, hle, hlow, hlast, _⟩ := h s hnesting hhighest
  refine ⟨found, nesting, highest, messages, hx, ?_, hleft, hle, ?_⟩
  · unfold Production.progressing
    rw [hp]
    cases found with
    | none => simp [foundAt, counted]
    | some found =>
        have hlast : start + found.consumed ≤ input.tokens.size := hlast
        by_cases hpos : 0 < found.consumed
        · have hlt : input.tokens.size - (start + found.consumed) < input.tokens.size - start := by omega
          simp [foundAt, counted, Option.filter, hpos, hlt]
        · have hzero : found.consumed = 0 := by omega
          simp [foundAt, counted, Option.filter, hzero]
  · show start ≤ (foundAt start (counted found)).1 ∧ (foundAt start (counted found)).1 ≤ _ ∧ _
    cases hcounted : counted found with
    | none => exact ⟨Nat.le_refl _, Nat.le_trans hlow hlast, trivial⟩
    | some result =>
        obtain rfl : found = some result := (Option.filter_eq_some_iff.mp hcounted).1
        exact ⟨hlow, hlast, trivial⟩

/-- A statement that cannot be read is passed over, unless it is the end of the block. -/
theorem statementRecovery_rest {t : Token} (ht : input.token? start = some t)
    (hend : ¬ input.isSymbol start '}' = true) :
    leave (afterStatement 0) input.endSpan (input.rest start) =
        ⟨(), input.rest (start + input.statementRecoveryLength start), []⟩ ∧
      0 < input.statementRecoveryLength start ∧
      start + input.statementRecoveryLength start ≤ input.tokens.size := by
  have hlt := Input.lt_of_token? ht
  have hbrace : t.isSymbol '}' = false := by simpa [Input.isSymbol, ht] using hend
  rw [leave, Input.rest_eq_cons ht]
  by_cases hsemicolon : t.isSymbol ';' = true
  · have hlength : input.statementRecoveryLength start = 1 := by
      simp [Input.statementRecoveryLength, Input.rest_eq_cons ht, hsemicolon]
    rw [hlength]
    exact ⟨by simp [afterStatement, hsemicolon], Nat.one_pos, hlt⟩
  · let depth := if isOpener t then 1 else 0
    have hlength : input.statementRecoveryLength start =
        skipped (afterStatement depth) (input.rest (start + 1)) + 1 := by
      simp [Input.statementRecoveryLength, Input.rest_eq_cons ht, hsemicolon, depth]
    have hafter : afterStatement 0 (t :: input.rest (start + 1)) =
        afterStatement depth (input.rest (start + 1)) := by
      rw [afterStatement]
      cases h : isOpener t <;> simp [hsemicolon, hbrace, depth, h]
    have hle := Input.skipped_le (afterStatement depth) hlt
    have hnext : start + (skipped (afterStatement depth) (input.rest (start + 1)) + 1) =
        start + 1 + skipped (afterStatement depth) (input.rest (start + 1)) := by omega
    rw [hlength, hafter, hnext, Input.rest_skipped (afterStatement_suffix _ _)]
    exact ⟨rfl, Nat.succ_pos _, hle⟩

theorem Agrees.statementTurn {inner : Nested} {g : Nest} (h : Agrees input inner units g) (nodes : List Node)
    (hstart : start ≤ input.tokens.size) :
    Mirrors input units start (input.statementTurn inner start nodes) (nextStatement g.statement nodes)
      turnAt (Advances start) := by
  unfold Input.statementTurn
  by_cases hend : input.isSymbol start '}' = true
  · rw [if_pos hend]
    refine Follows.read (accept_of_isSymbol hend) ?_
    exact follows_pure rfl (Nat.le_succ _) (Input.lt_of_isSymbol hend) trivial
  rw [if_neg hend]
  refine Follows.read (accept_of_not_isSymbol hend) (Follows.read peek_rest ?_)
  refine Follows.ite (fun hnone => ?_) fun hsome => ?_
  · exact (mirrors_report _ hstart).bind fun _ _ _ _ => follows_pure rfl (Nat.le_refl _) hstart trivial
  refine ((h.statement hstart).progressing).bind fun found hle hlast _ => ?_
  cases hcounted : counted found with
  | some result =>
      rw [hcounted] at hlast
      have hpos : start < start + result.consumed := Nat.lt_add_of_pos_right (pos_of_counted hcounted)
      exact follows_pure rfl (Nat.le_of_lt hpos) hlast hpos
  | none =>
      obtain ⟨t, ht⟩ : ∃ t, input.token? start = some t := by simpa [Option.ne_none_iff_exists'] using hsome
      obtain ⟨hrest, hpos, hle⟩ := statementRecovery_rest ht hend
      refine (mirrors_report _ hstart).bind fun _ _ _ _ => Follows.read hrest ?_
      exact follows_pure rfl (Nat.le_add_right _ _) hle (Nat.lt_add_of_pos_right hpos)

/-- What is nested in a block is read with a unit less. -/
theorem mirrors_compoundStatement {inner : Nested} {g : Nest} (hunits : units < nestingLimit)
    (h : Agrees input inner units g) (hopening : input.isSymbol start '{' = true) :
    Mirrors input (units + 1) start (input.compoundStatement inner start) g.statements (parsedAt start)
      anything := by
  unfold Input.compoundStatement
  refine Follows.enter (Follows.read take_rest ?_)
  have hstatements := mirrors_repeated (fun pos nodes hpos => h.statementTurn nodes hpos) (start + 1) []
    (Input.lt_of_isSymbol hopening)
  refine hstatements.bind fun found hle hlast _ => ?_
  have hle : start + 1 ≤ found.1 := hle
  exact Follows.exit hunits (follows_pure (end_eq (by omega)) (by omega) hlast trivial)

theorem mirrors_block (hfit : input.OffsetsFit) (hunits : units ≤ nestingLimit) {room : Nat}
    (hroom : units < room) : Braces input units (input.nested room).block (block units) := by
  induction units generalizing room with
  | zero =>
      obtain ⟨room, rfl⟩ := Nat.exists_eq_add_of_lt hroom
      intro start hopening
      show Mirrors _ _ _ (input.compoundStatement (input.nested (0 + room)) start) _ _ _
      rw [Input.compoundStatement, block, ← bind_pure (tooDeep _)]
      refine (mirrors_tooDeep (afterGroup_suffix 0) (Nat.le_of_lt (Input.lt_of_isSymbol hopening))).bind
        fun entered hle hlast hentered => ?_
      rw [hentered]
      exact follows_pure rfl hle hlast trivial
  | succ units ih =>
      obtain ⟨more, rfl⟩ := Nat.exists_eq_add_of_lt hroom
      have hless : units < units + 1 + more := by omega
      exact fun start => mirrors_compoundStatement hunits ⟨mirrors_expression hfit (by omega) hless,
        mirrors_bracedList hfit (by omega) hless, ih (by omega) hless⟩

/-- With units left and room for them, all that is nested is read as the productions for the units read
it. -/
theorem agrees_ofUnits (hfit : input.OffsetsFit) (hunits : units ≤ nestingLimit) {room : Nat}
    (hroom : units < room) : Agrees input (input.nested room) units (.ofUnits units) :=
  ⟨mirrors_expression hfit hunits hroom, mirrors_bracedList hfit hunits hroom,
    mirrors_block hfit hunits hroom⟩

/-! ### Declarations -/

theorem mirrors_parameter : Nests input units input.parameter parameter anything := by
  intro start hstart
  unfold Input.parameter
  show Follows input units units start start _ (rewindTo (input.rest start) _) _ _
  have hnone : ∀ pos, Follows input units units start pos (pure none)
      (rewindTo (input.rest start) (pure none)) (foundAt start) anything :=
    fun _ => follows_rewound rfl (Nat.le_refl _) hstart trivial
  simp only [rewindTo_bind]
  refine (mirrors_typeQualifiers hstart).bind fun found hle hlast _ => ?_
  refine (mirrors_typename hlast).bind fun type hle' hlast' _ => ?_
  cases type with
  | none => exact hnone _
  | some type =>
      simp only [foundAt, rewindTo_bind]
      refine Follows.read identifier_rest ?_
      cases hname : input.identifier (start + found.1 + type.consumed) with
      | none => exact hnone _
      | some name =>
          have hle : start ≤ start + found.1 + type.consumed + name.consumed := by omega
          exact follows_pure (end_eq hle) hle (identifier_some hname).2.2 trivial

theorem mirrors_parameterList (hopening : input.isSymbol start '(' = true) :
    Follows input units units (start + 1) start (input.parameterList start) parameterList
      (parsedAt start) anything :=
  mirrors_listed mirrors_parameter .parameterList .expectedParameter hopening

theorem attributeOpening?_rest (start : Nat) : attributeOpening? (input.rest start) =
    if input.isSymbol start '[' && input.isSymbol (start + 1) '[' then some (input.joinedToken start 2)
    else none := by
  cases hfirst : input.token? start with
  | none => simp [Input.rest_eq_nil.mpr hfirst, attributeOpening?, Input.isSymbol, hfirst]
  | some first =>
      cases hsecond : input.token? (start + 1) with
      | none =>
          simp [Input.rest_eq_cons hfirst, Input.rest_eq_nil.mpr hsecond, attributeOpening?, Input.isSymbol,
            hsecond]
      | some second =>
          have hjoined : input.joinedToken start 2 = joinTokens first second := by
            simp [Input.joinedToken, Input.tokenAt_eq hfirst, Input.tokenAt_eq hsecond,
              Input.rest_eq_cons hsecond, joinTokens]
          simp [Input.rest_eq_cons hfirst, Input.rest_eq_cons hsecond, attributeOpening?, Input.isSymbol,
            hfirst, hsecond, hjoined]

theorem mirrors_closeAttributes (brackets : Nat) (failed : Bool) (hstart : start ≤ input.tokens.size) :
    Mirrors input units start (input.closeAttributes brackets start failed)
      (closeAttributes brackets failed) (fun last => (last, ())) anything := by
  induction brackets generalizing start failed with
  | zero => exact follows_pure rfl (Nat.le_refl _) hstart trivial
  | succ brackets ih =>
      rw [Input.closeAttributes, closeAttributes]
      by_cases h : input.isSymbol start ']' = true
      · rw [if_pos h]
        exact Follows.read (accept_of_isSymbol h)
          ((ih failed (Input.lt_of_isSymbol h)).lower (Nat.le_succ _))
      · rw [if_neg h]
        refine Follows.read (accept_of_not_isSymbol h) ?_
        have hskip : start + input.recoveryLength start ']' ≤ input.tokens.size :=
          Input.skipped_le _ hstart
        have hgo : Follows input units units start start
            (if input.isSymbol (start + input.recoveryLength start ']') ']' then
              input.closeAttributes brackets (start + input.recoveryLength start ']') true
            else return start + input.recoveryLength start ']')
            (do
              skipToCloser ']'
              if ← atSymbol ']' then closeAttributes brackets true)
            (fun last => (last, ())) anything := by
          refine Follows.read (skipToCloser_rest ']') (Follows.read (atSymbol_rest ']') ?_)
          refine Follows.ite (fun _ => (ih true hskip).lower (Nat.le_add_right _ _)) fun _ => ?_
          exact follows_pure rfl (Nat.le_add_right _ _) hskip trivial
        cases failed with
        | true => exact hgo
        | false => exact (mirrors_report _ hstart).bind fun _ _ _ _ => hgo

/-- A declaration that cannot be read is passed over. -/
theorem declarationRecovery_rest {t : Token} (ht : input.token? start = some t) :
    leave (afterDeclaration 0) input.endSpan (input.rest start) =
        ⟨(), input.rest (start + input.declarationRecoveryLength start), []⟩ ∧
      0 < input.declarationRecoveryLength start ∧
      start + input.declarationRecoveryLength start ≤ input.tokens.size := by
  have hlt := Input.lt_of_token? ht
  have hpos : 0 < skipped (afterDeclaration 0) (input.rest start) := by
    have hle := (afterDeclaration_cons_suffix 0 t (input.rest (start + 1))).length_le
    rw [← Input.rest_eq_cons ht, Input.length_rest] at hle
    rw [skipped, Input.length_rest]
    omega
  have hlength : input.declarationRecoveryLength start =
      skipped (afterDeclaration 0) (input.rest start) := Nat.max_eq_left hpos
  rw [hlength]
  exact ⟨leave_rest (afterDeclaration_suffix 0), hpos, Input.skipped_le _ (Nat.le_of_lt hlt)⟩

namespace Agrees

variable {inner : Nested} {g : Nest}

theorem attributeItem (h : Agrees input inner units g) :
    Nests input units (input.attributeItem inner) g.attributeItem anything := by
  intro start hstart
  unfold Input.attributeItem
  refine Follows.read identifier_rest ?_
  cases hname : input.identifier start with
  | none => exact follows_pure rfl (Nat.le_refl _) hstart trivial
  | some name =>
      have hname := (identifier_some hname).2.2
      show Follows input units units start (start + name.consumed) _ _ _ _
      refine Follows.read (atSymbol_rest '(') (Follows.ite (fun hopening => ?_) fun _ => ?_)
      · refine (mirrors_argumentList h.expression hopening).bind fun arguments hle hlast _ => ?_
        refine follows_pure (Prod.ext (Nat.add_assoc ..).symm rfl) ?_ hlast trivial
        exact Nat.le_trans (Nat.le_add_right _ _) (Nat.le_of_succ_le hle)
      · exact follows_pure rfl (Nat.le_add_right _ _) hname trivial

theorem attributeList (h : Agrees input inner units g) (hstart : start ≤ input.tokens.size) :
    Mirrors input units start (input.attributeList inner start) g.attributeList (foundAt start) anything := by
  unfold Input.attributeList
  refine Follows.read rfl ?_
  rw [attributeOpening?_rest]
  cases hopening : input.isSymbol start '[' && input.isSymbol (start + 1) '[' with
  | false => exact follows_pure rfl (Nat.le_refl _) hstart trivial
  | true =>
      have hinner : start + 2 ≤ input.tokens.size := Input.lt_of_isSymbol (Bool.and_eq_true_iff.mp hopening).2
      refine Follows.read (skip_rest 2) ?_
      refine (h.attributeItem.items {} hinner).bind fun found hle hlast _ => ?_
      obtain ⟨pos, nodes, complete⟩ := found
      have hle : start + 2 ≤ pos := hle
      have hclose : Follows input units units start pos
          (do
            let last ← input.closeAttributes 2 pos (!complete)
            return some ⟨last - start, .mk .attributeList (input.joinedToken start 2) nodes⟩)
          (do
            closeAttributes 2 (!complete)
            return some (.mk .attributeList (input.joinedToken start 2) nodes))
          (foundAt start) anything := by
        refine (mirrors_closeAttributes 2 _ hlast).bind fun last hle' hlast' _ => ?_
        have hle' : pos ≤ last := hle'
        exact follows_pure (end_eq (by omega)) (by omega) hlast' trivial
      cases complete with
      | true => exact hclose
      | false => exact (mirrors_report _ hlast).bind fun _ _ _ _ => hclose

theorem functionBody (h : Agrees input inner units g) (hstart : start ≤ input.tokens.size) :
    Mirrors input units start (input.functionBody inner start) g.functionBody id anything := by
  unfold Input.functionBody
  refine Follows.read (atSymbol_rest '{') (Follows.ite (fun hbrace => ?_) fun _ => ?_)
  · exact (h.block start hbrace).bind fun found hle hlast _ => follows_pure rfl hle hlast trivial
  · exact (mirrors_expectSymbol ';' hstart).bind fun count hle hlast _ => follows_pure rfl hle hlast trivial

theorem functionDeclaration (h : Agrees input inner units g) (hstart : start ≤ input.tokens.size) :
    Mirrors input units start (input.functionDeclaration inner start) g.functionDeclaration (foundAt start)
      TakesToken := by
  unfold Input.functionDeclaration
  show Follows input units units start start _ (rewindTo (input.rest start) _) _ _
  have hnone : ∀ pos, Follows input units units start pos (pure none)
      (rewindTo (input.rest start) (pure none)) (foundAt start) TakesToken :=
    fun _ => follows_rewound rfl (Nat.le_refl _) hstart trivial
  simp only [rewindTo_bind]
  refine (h.attributeList hstart).bind fun attributes hle hlast _ => ?_
  have hattributes : foundAt start attributes =
      (start + (attributes.map Parsed.consumed).getD 0, attributes.map Parsed.node) := by
    cases attributes <;> rfl
  rw [hattributes] at hle hlast ⊢
  refine (mirrors_typeQualifiers hlast).bind fun found hle hlast _ => ?_
  obtain ⟨used, qualifiers⟩ := found
  refine (mirrors_typename hlast).bind fun type hle' hlast' htype => ?_
  cases type with
  | none => exact hnone _
  | some type =>
      have htype : 0 < type.consumed := htype
      simp only [foundAt, rewindTo_bind]
      let pos := start + (attributes.map Parsed.consumed).getD 0 + used + type.consumed
      have hpos : start < pos := by omega
      show Follows input units units start pos _ _ _ _
      refine Follows.read identifier_rest ?_
      cases hname : input.identifier pos with
      | none => exact hnone _
      | some name =>
          obtain ⟨hone, -, hlt⟩ := identifier_some hname
          rw [hone] at hlt
          simp only [foundAt, rewindTo_bind, rewindTo_ite, hone]
          refine Follows.read (atSymbol_rest '(') (Follows.ite (fun _ => hnone _) fun hopening => ?_)
          have hopening : input.isSymbol (pos + 1) '(' = true := by simpa using hopening
          refine (mirrors_parameterList hopening).bind fun parameters hle hlast _ => ?_
          refine (h.functionBody hlast).bind fun body hle' hlast' _ => ?_
          have hle : pos + 2 ≤ pos + 1 + parameters.consumed := hle
          have hle' : pos + 1 + parameters.consumed ≤ body.1 := hle'
          refine follows_pure ?_ (by omega) hlast' (show 0 < body.1 - start by omega)
          exact end_eq (by omega)

theorem declarationTurn (h : Agrees input inner units g) (nodes : List Node)
    (hstart : start ≤ input.tokens.size) :
    Mirrors input units start (input.declarationTurn inner start nodes) (g.nextDeclaration nodes) turnAt
      (Advances start) := by
  unfold Input.declarationTurn
  refine Follows.read peek_rest (Follows.ite (fun _ => ?_) fun hsome => ?_)
  · exact follows_pure rfl (Nat.le_refl _) hstart trivial
  refine (h.functionDeclaration hstart).bind fun found hle hlast hfound => ?_
  cases found with
  | some found =>
      have hfound : 0 < found.consumed := hfound
      have hcounted : counted (some found) = some found := by simp [counted, Option.filter, hfound]
      rw [hcounted]
      exact follows_pure rfl hle hlast (show start < start + found.consumed by omega)
  | none =>
      obtain ⟨t, ht⟩ : ∃ t, input.token? start = some t := by simpa [Option.ne_none_iff_exists'] using hsome
      obtain ⟨hrest, hpos, hle⟩ := declarationRecovery_rest ht
      refine (mirrors_report _ hstart).bind fun _ _ _ _ => Follows.read hrest ?_
      exact follows_pure rfl (Nat.le_add_right _ _) hle (Nat.lt_add_of_pos_right hpos)

theorem programUnit (h : Agrees input (input.nested input.stack) units g) {s : State}
    (hnesting : s.nesting + units = nestingLimit) (hhighest : s.highest ≤ nestingLimit) :
    ∃ highest, input.programUnit s = some ((g.programUnit input.endSpan (input.rest 0)).result,
        ⟨s.nesting, highest,
          s.messages ++ (g.programUnit input.endSpan (input.rest 0)).messages.toArray⟩) ∧
      highest ≤ nestingLimit := by
  have hdeclarations := mirrors_repeated (fun _ nodes hpos => h.declarationTurn nodes hpos) 0 []
    (Nat.zero_le _)
  obtain ⟨found, nesting, highest, messages, hrun, hrepeat, hleft, hle, -⟩ :=
    hdeclarations s hnesting hhighest
  obtain rfl : nesting = s.nesting := by omega
  have hunit : g.programUnit input.endSpan (input.rest 0) = ⟨.mk .programUnit
      ((input.token? 0).getD ⟨.unknown, Span.origin, ""⟩) found.2, input.rest found.1, messages⟩ := by
    rw [Nest.programUnit, bind_silent peek_rest]
    show Production.bind _ _ _ _ = _
    rw [Production.bind, hrepeat]
    simp [pure, Production.pure]
  refine ⟨highest, ?_, hle⟩
  rw [hunit, Input.programUnit]
  show (input.repeated (input.declarationTurn (input.nested input.stack)) 0 [] s).bind _ = _
  rw [hrun]
  rfl

end Agrees

/-! ### Whole token lists -/

/-- With room for all levels, a parser that does not check offsets does what the production for whole
program texts does. -/
theorem programUnit_run (tokens : List Token) {stack : Nat} (hstack : nestingLimit < stack) :
    ∃ highest, Input.programUnit { tokens := tokens.toArray, stack := stack } {} =
      some ((programUnit (pastEnd tokens) tokens).result,
        ⟨0, highest, (programUnit (pastEnd tokens) tokens).messages.toArray⟩) := by
  let input : Input := { tokens := tokens.toArray, stack := stack }
  have hfit : input.OffsetsFit := nofun
  have hpast : input.endSpan = pastEnd tokens := by
    unfold Input.endSpan pastEnd
    rw [List.back?_toArray]
    cases tokens.getLast? <;> rfl
  obtain ⟨highest, hrun, -⟩ := (agrees_ofUnits hfit (Nat.le_refl nestingLimit) hstack).programUnit
    (s := {}) (Nat.zero_add _) (Nat.zero_le _)
  have hrest : input.rest 0 = tokens := rfl
  rw [hpast, hrest] at hrun
  exact ⟨highest, hrun.trans (by simp [programUnit])⟩

/-- Parsing is the production for whole program texts. -/
theorem parse_eq (tokens : List Token) :
    parse tokens = ((programUnit (pastEnd tokens) tokens).result,
      (programUnit (pastEnd tokens) tokens).messages) := by
  obtain ⟨highest, hrun⟩ := programUnit_run tokens (Nat.lt_succ_self nestingLimit)
  rw [parse, hrun]

/-- A program text that is read without a message. -/
theorem parse_of_reads {tokens rest : List Token} {node : Node}
    (h : programUnit.Reads (pastEnd tokens) tokens node rest) : parse tokens = (node, []) := by
  rw [parse_eq, show programUnit (pastEnd tokens) tokens = ⟨node, rest, []⟩ from h]

end Shading.Parser
