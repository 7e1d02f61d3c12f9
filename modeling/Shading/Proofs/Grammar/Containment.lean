import Shading.Proofs.Grammar.Concatenation
import Shading.Proofs.Grammar.Lexemes

/-! # Problems in a body stay in it

After a problem tokens are skipped, by functions that count brackets and stop at different tokens.  They
may begin anywhere, also within brackets that were given up before.  But where the brackets of a body
match (`nests`), each of them comes to the closing brace of the body with no bracket open, and stops
there (`Tracks.stays`).

The places from which that is so form an `Enclosure` (`enclosure_inBody`).  Every production below a block
keeps to it and reports problems only there, so a block takes its own tokens and no others
(`block_of_body`).  What follows the function is then read as it is alone (`parse_body`). -/

namespace Shading.Grammar

/-! ### Matching brackets -/

/-- Round and square brackets match and there are no braces, where `awaited` are the brackets that are
due for those opened before, the innermost first. -/
def nests : (awaited : List Char) → List Token → Bool
  | awaited, [] => awaited.isEmpty
  | awaited, t :: rest =>
    if t.isSymbol '{' || t.isSymbol '}' then false
    else if t.isSymbol '(' then nests (')' :: awaited) rest
    else if t.isSymbol '[' then nests (']' :: awaited) rest
    else if t.isSymbol ')' || t.isSymbol ']' then
      awaited.head?.any t.isSymbol && nests awaited.tail rest
    else nests awaited rest

/-- A token where brackets match is no brace, and opens and closes what is counted. -/
theorem nests_cons {awaited : List Char} {t : Token} {rest : List Token}
    (h : nests awaited (t :: rest) = true) :
    t.isSymbol '{' = false ∧ t.isSymbol '}' = false ∧ ∃ left, nests left rest = true ∧
      ∀ depth ≤ awaited.length, tracked depth t ≤ left.length := by
  rw [nests] at h
  split at h
  · cases h
  · next hbraces =>
      simp only [Bool.or_eq_true, not_or, Bool.not_eq_true] at hbraces
      obtain ⟨hopening, hclosing⟩ := hbraces
      refine ⟨hopening, hclosing, ?_⟩
      split at h
      · next hround =>
          refine ⟨_, h, fun depth hdepth => ?_⟩
          simpa [tracked, isOpener, hround] using hdepth
      · next hround =>
          split at h
          · next hsquare =>
              refine ⟨_, h, fun depth hdepth => ?_⟩
              simpa [tracked, isOpener, hsquare] using hdepth
          · next hsquare =>
              split at h
              · next hcloser =>
                  cases awaited with
                  | nil => cases h
                  | cons closer outer =>
                      refine ⟨outer, (Bool.and_eq_true_iff.mp h).2, fun depth hdepth => ?_⟩
                      have hcounted : tracked depth t = depth - 1 := by
                        simp_all [tracked, isOpener, isCloser]
                      rw [hcounted]
                      exact Nat.sub_le_of_le_add hdepth
              · next hcloser =>
                  refine ⟨awaited, h, fun depth hdepth => ?_⟩
                  have hcounted : tracked depth t = depth := by
                    simp_all [tracked, isOpener, isCloser]
                  rwa [hcounted]

/-! ### Skipping -/

variable {body more : List Token} {closing : Token}

/-- Skipping comes to a stop in the body or before the brace that closes it.  The brackets that are open
are among those that are due, so none is left at the brace. -/
theorem Tracks.stays {skip : Nat → List Token → List Token} (hskip : Tracks skip)
    (hclosing : closing.isSymbol '}' = true) :
    ∀ {left : List Token} {awaited : List Char} {depth : Nat}, nests awaited left = true →
      depth ≤ awaited.length → ∃ rest due, rest <:+ left ∧ nests due rest = true ∧
        skip depth (left ++ closing :: more) = rest ++ closing :: more
  | [], awaited, depth, hnests, hdepth => by
      obtain rfl : awaited = [] := List.isEmpty_iff.mp hnests
      obtain rfl := Nat.le_zero.mp hdepth
      exact ⟨[], [], List.suffix_rfl, rfl, hskip.stop closing more hclosing⟩
  | t :: left, awaited, depth, hnests, hdepth => by
      obtain ⟨hbrace, hbrace', due, hleft, htracked⟩ := nests_cons hnests
      rcases hskip.step depth t (left ++ closing :: more) hbrace hbrace' with h | h | h
      · exact ⟨t :: left, awaited, List.suffix_rfl, hnests, h⟩
      · exact ⟨left, due, List.suffix_cons t left, hleft, h⟩
      · obtain ⟨rest, due, hrest, hdue, hskipped⟩ := hskip.stays hclosing hleft (htracked depth hdepth)
        exact ⟨rest, due, hrest.trans (List.suffix_cons t left), hdue, h.trans hskipped⟩

/-- The tokens are a last part of the body, its closing brace and all that follows. -/
def InBody (body : List Token) (closing : Token) (more tokens : List Token) : Prop :=
  ∃ left awaited, left <:+ body ∧ nests awaited left = true ∧ tokens = left ++ closing :: more

theorem enclosure_inBody (hclosing : closing.isSymbol '}' = true) :
    Enclosure (InBody body closing more) where
  next := by
    rintro t rest ⟨left, awaited, hsuffix, hnests, heq⟩ ht
    cases left with
    | nil =>
        obtain ⟨rfl, -⟩ := List.cons.inj heq
        rw [hclosing] at ht
        cases ht
    | cons u left =>
        obtain ⟨-, rfl⟩ := List.cons.inj heq
        obtain ⟨_, _, due, hleft, _⟩ := nests_cons hnests
        exact ⟨left, due, (List.suffix_cons u left).trans hsuffix, hleft, rfl⟩
  skip := by
    rintro skip tokens hskip ⟨left, awaited, hsuffix, hnests, rfl⟩
    obtain ⟨rest, due, hrest, hdue, hskipped⟩ := hskip.stays hclosing hnests (Nat.zero_le _)
    exact ⟨rest, due, hrest.trans hsuffix, hdue, hskipped⟩
  braces := by
    left
    rintro t rest ⟨left, awaited, hsuffix, hnests, heq⟩
    cases left with
    | nil =>
        obtain ⟨rfl, -⟩ := List.cons.inj heq
        exact isSymbol_eq hclosing _
    | cons u left =>
        obtain ⟨rfl, -⟩ := List.cons.inj heq
        exact (nests_cons hnests).1

open Production

/-! ### Blocks -/

section block

variable {past : Span} {t : Token} {rest left : List Token} {messages : List Message}
  {statement : Production (Option Node)}

theorem nextStatement_some (ht : t.isSymbol '}' = false) {node : Node}
    (h : progressing statement past (t :: rest) = ⟨some node, left, messages⟩) (nodes : List Node) :
    nextStatement statement nodes past (t :: rest) = ⟨.again (nodes ++ [node]), left, messages⟩ := by
  have hbrace : (accept '}').Reads past (t :: rest) false (t :: rest) :=
    reads_accept_false.mpr ⟨by simpa using ht, rfl⟩
  rw [nextStatement, hbrace.bind_run]
  simp [peek, bind, pure, Production.bind, Production.pure, h]

theorem nextStatement_none (ht : t.isSymbol '}' = false)
    (h : progressing statement past (t :: rest) = ⟨none, left, messages⟩) (nodes : List Node) :
    nextStatement statement nodes past (t :: rest) = ⟨.again nodes, afterStatement 0 left,
      messages ++ (report .expectedStatement past left).messages⟩ := by
  have hbrace : (accept '}').Reads past (t :: rest) false (t :: rest) :=
    reads_accept_false.mpr ⟨by simpa using ht, rfl⟩
  rw [nextStatement, hbrace.bind_run]
  simp [peek, report, here, leave, bind, pure, Production.bind, Production.pure, h]

/-- A statement that counts has taken a token. -/
theorem length_of_progressing {tokens : List Token} {node : Node}
    (h : progressing statement past tokens = ⟨some node, left, messages⟩) :
    left.length < tokens.length := by
  unfold Production.progressing at h
  by_cases hlt : (statement past tokens).rest.length < tokens.length
  · simp only [hlt, if_true] at h
    rwa [h] at hlt
  · simp [hlt] at h

/-- A turn that does not find the closing brace takes a token. -/
theorem nextStatement_takes (hanchored : ∀ P [Enclosure P], Anchored AnyWay P statement)
    (ht : t.isSymbol '}' = false)
    (nodes : List Node) (past : Span) :
    ∃ next, (nextStatement statement nodes past (t :: rest)).result = .again next ∧
      (nextStatement statement nodes past (t :: rest)).rest.length < (t :: rest).length := by
  have hsuffix := ((hanchored (LastPart (t :: rest)) past (t :: rest)).progressing trivial).suffix
  cases hrun : progressing statement past (t :: rest) with
  | mk node? left messages =>
      rw [hrun] at hsuffix
      cases node? with
      | some node =>
          rw [nextStatement_some ht hrun]
          exact ⟨_, rfl, length_of_progressing hrun⟩
      | none =>
          rw [nextStatement_none ht hrun]
          refine ⟨nodes, rfl, ?_⟩
          -- the statement took a token, or one is skipped
          have hskipped := (afterStatement_suffix 0 left).length_le
          rcases hsuffix.length_le.lt_or_eq with hlt | heq
          · exact hskipped.trans_lt hlt
          · obtain rfl : left = t :: rest := hsuffix.eq_of_length heq
            exact Nat.lt_succ_of_le (afterStatement_cons_suffix ht).length_le

/-- It stays in the body. -/
theorem within_nextStatement (hclosing : closing.isSymbol '}' = true)
    (hanchored : ∀ P [Enclosure P], Anchored AnyWay P statement) (ht : t.isSymbol '}' = false)
    (h : InBody body closing more (t :: rest)) (nodes : List Node) (past : Span) :
    Within (InBody body closing more) past (nextStatement statement nodes past (t :: rest)) := by
  have hplaces : Enclosure (InBody body closing more) := enclosure_inBody hclosing
  have hstep := ((hanchored _ past (t :: rest)).progressing trivial).within h
  cases hrun : progressing statement past (t :: rest) with
  | mk node? left messages =>
      rw [hrun] at hstep
      cases node? with
      | some node => exact nextStatement_some ht hrun nodes ▸ hstep
      | none =>
          rw [nextStatement_none ht hrun]
          refine ⟨hplaces.skip tracks_afterStatement hstep.1, fun m hm => ?_⟩
          rcases List.mem_append.mp hm with hm | hm
          · exact hstep.2 m hm
          · exact ((anchored_report (W := AnyWay) .expectedStatement past left).within hstep.1).2 m hm

/-- The statements of a body end with its closing brace. -/
theorem repeatUpTo_nextStatement_inBody (hclosing : closing.isSymbol '}' = true)
    (hanchored : ∀ P [Enclosure P], Anchored AnyWay P statement) (past : Span) :
    ∀ (limit : Nat) {tokens : List Token} (nodes : List Node), InBody body closing more tokens →
      tokens.length < limit → ∃ last messages,
        repeatUpTo (nextStatement statement) limit nodes past tokens = ⟨last, more, messages⟩ ∧
        ∀ m ∈ messages, ∃ left problem, InBody body closing more left ∧
          m = Message.error (anchor past left) (Problem.text problem)
  | 0, _, _, _, hlt => absurd hlt (Nat.not_lt_zero _)
  | limit + 1, tokens, nodes, h, hlt => by
      obtain ⟨left, awaited, hsuffix, hnests, rfl⟩ := id h
      cases left with
      | nil =>
          have hdone : (nextStatement statement nodes).Reads past (closing :: more) (.done nodes) more :=
            reads_nextStatement_done.mpr ⟨⟨closing, hclosing, rfl⟩, rfl⟩
          refine ⟨nodes, [], ?_, fun m hm => absurd hm List.not_mem_nil⟩
          rw [List.nil_append, repeatUpTo_succ_done (congrArg Step.result hdone), hdone]
          rfl
      | cons t left =>
          have ht := (nests_cons hnests).2.1
          obtain ⟨next, hagain, hshort⟩ := nextStatement_takes hanchored ht nodes past
          obtain ⟨hrest, hmessages⟩ := within_nextStatement hclosing hanchored ht h nodes past
          obtain ⟨last, messages, hlast, hmore⟩ :=
            repeatUpTo_nextStatement_inBody hclosing hanchored past limit next hrest
              (Nat.lt_of_lt_of_le hshort (Nat.le_of_lt_succ hlt))
          refine ⟨last, (nextStatement statement nodes past (t :: left ++ closing :: more)).messages ++
            messages, ?_, fun m hm => ?_⟩
          · exact (repeatUpTo_succ_again hagain).trans (congrArg (Step.after _) hlast)
          · rcases List.mem_append.mp hm with hm | hm
            · exact hmessages m hm
            · exact hmore m hm

/-- A block takes its body and the closing brace, and reports problems only there. -/
theorem block_of_body (units : Nat) (past : Span) (opening : Token)
    (hbody : nests [] body = true) (hclosing : closing.isSymbol '}' = true) (more : List Token) :
    ∃ node messages,
      block (units + 1) past (opening :: (body ++ [closing] ++ more)) = ⟨node, more, messages⟩ ∧
      ∀ m ∈ messages, ∃ left problem, InBody body closing more left ∧
        m = Message.error (anchor past left) (Problem.text problem) := by
  rw [← List.append_cons]
  obtain ⟨nodes, messages, hrun, hmessages⟩ :=
    repeatUpTo_nextStatement_inBody hclosing (fun P _ => anchored_statement units) past _ []
      ⟨body, [], List.suffix_rfl, hbody, rfl⟩ (Nat.lt_succ_self _)
  have htake : take.Reads past (opening :: (body ++ closing :: more)) opening (body ++ closing :: more) :=
    rfl
  refine ⟨.mk .compoundStatement opening nodes, messages, ?_, hmessages⟩
  unfold statement at hrun
  rw [block, Nest.statements, htake.bind_run, bind_run (show repeatWhile _ _ past _ = _ from hrun)]
  exact congrArg (Step.mk _ more) (List.append_nil messages)

theorem functionBody_of_block {opening : Token} {node : Node} (hopening : opening.isSymbol '{' = true)
    (h : block nestingLimit past (opening :: rest) = ⟨node, more, messages⟩) :
    functionBody past (opening :: rest) = ⟨[node], more, messages⟩ := by
  have hat : (atSymbol '{').Reads past (opening :: rest) true (opening :: rest) :=
    reads_atSymbol.mpr ⟨by simp [hopening], rfl⟩
  rw [functionBody, Nest.functionBody, hat.bind_run, if_pos rfl,
    bind_run (show (Nest.ofUnits nestingLimit).block past _ = _ from h)]
  exact congrArg (Step.mk _ more) (List.append_nil messages)

end block

/-- A place in a body is at one of its tokens, or at its closing brace. -/
theorem InBody.anchor {tokens : List Token} (h : InBody body closing more tokens) (past : Span) :
    ∃ t ∈ body ++ [closing], Grammar.anchor past tokens = t.span := by
  obtain ⟨left, awaited, hsuffix, hnests, rfl⟩ := h
  cases left with
  | nil => exact ⟨closing, by simp, rfl⟩
  | cons t left =>
      exact ⟨t, List.mem_append_left _ (hsuffix.mem List.mem_cons_self), rfl⟩

end Shading.Grammar

namespace Shading

open Grammar Production Lexeme

/-- The tokens in front are one function of the given name, about which the given messages are reported,
and what follows is read and reported as it is alone. -/
structure LeadsWith (name : String) (front more : List Token) (messages : List Message) : Prop where
  declared : ∃ function, function.kind = .functionDeclaration ∧ function.token.text = name ∧
    (parse (front ++ more)).1.children = function :: (parse more).1.children
  reported : (parse (front ++ more)).2 = messages ++ (parse more).2

/-- A function without attributes, qualifiers and parameters is read as its block is. -/
theorem leadsWith_of_block {head inside more : List Token} {type name : String} {opening : Token}
    {node : Node} {messages : List Message} (htype : type ∉ keywords) (hname : name ∉ keywords)
    (hhead : head.map Lexeme.ofToken = [.word type, .word name, .symbol '(', .symbol ')'])
    (hopening : opening.isSymbol '{' = true)
    (h : block nestingLimit (pastEnd (head ++ opening :: (inside ++ more)))
      (opening :: (inside ++ more)) = ⟨node, more, messages⟩) :
    LeadsWith name (head ++ opening :: inside) more messages := by
  obtain ⟨returned, head, rfl, hreturned, -, hhead⟩ := map_ofToken_word htype hhead
  obtain ⟨named, head, rfl, hnamed, htext, hhead⟩ := map_ofToken_word hname hhead
  obtain ⟨round, head, rfl, hround, hhead⟩ := map_ofToken_symbol hhead
  obtain ⟨round', head, rfl, hround', hhead⟩ := map_ofToken_symbol hhead
  obtain rfl : head = [] := List.map_eq_nil_iff.mp hhead
  have hrun := functionDeclaration_of_body hreturned hnamed hround hround'
    (functionBody_of_block hopening h)
  obtain ⟨hchildren, hmessages⟩ :=
    parse_cons (returned :: named :: round :: round' :: opening :: inside) hrun
  exact ⟨⟨_, by rfl, by exact htext, hchildren⟩, hmessages⟩

/-- **Problems in a body stay in it.**  Where the body of a function has no braces and its brackets
match, the function is read to its closing brace, whatever else the body holds.  What follows is read as
it is alone, and every other message is about the body or the brace. -/
theorem parse_body (head body more : List Token) (opening closing : Token)
    (hhead : head.map Lexeme.ofToken = [.word "void", .word "f", .symbol '(', .symbol ')'])
    (hopening : opening.isSymbol '{' = true) (hbody : nests [] body = true)
    (hclosing : closing.isSymbol '}' = true) :
    ∃ messages, LeadsWith "f" (head ++ opening :: (body ++ [closing])) more messages ∧
      ∀ m ∈ messages, ∃ t ∈ body ++ [closing], ∃ problem,
        m = Message.error t.span (Problem.text problem) := by
  obtain ⟨node, messages, hblock, hplaces⟩ :=
    block_of_body (nestingLimit - 1) (pastEnd (head ++ opening :: (body ++ [closing] ++ more)))
      opening hbody hclosing more
  refine ⟨messages, leadsWith_of_block (by decide) (by decide) hhead hopening hblock, fun m hm => ?_⟩
  obtain ⟨left, problem, hleft, rfl⟩ := hplaces m hm
  obtain ⟨t, ht, hspan⟩ := hleft.anchor _
  exact ⟨t, ht, problem, by rw [hspan]⟩

/-- The tokens of `a[;b];const(;)=g()`, with brackets that match and little else that is right. -/
def spoiltSample : List Token :=
  lineTokens [(9, .identifier, "a"), (10, .symbol, "["), (11, .symbol, ";"), (12, .identifier, "b"),
    (13, .symbol, "]"), (14, .symbol, ";"), (15, .identifier, "const"), (20, .symbol, "("),
    (21, .symbol, ";"), (22, .symbol, ")"), (23, .symbol, "="), (24, .identifier, "g"),
    (25, .symbol, "("), (26, .symbol, ")")]

theorem parse_body_spoiltSample :
    let head := lineTokens [(0, .identifier, "void"), (5, .identifier, "f"), (6, .symbol, "("),
      (7, .symbol, ")")]
    let opening : Token := ⟨.symbol, ⟨⟨0, 8, 0, 8⟩, ⟨0, 8, 0, 8⟩⟩, "\x7b"⟩
    let closing : Token := ⟨.symbol, ⟨⟨0, 27, 0, 27⟩, ⟨0, 27, 0, 27⟩⟩, "\x7d"⟩
    (parse (head ++ opening :: (spoiltSample ++ [closing]) ++ brokenSample)).2.length = 5 ∧
      nests [] spoiltSample = true ∧
      ∃ messages, LeadsWith "f" (head ++ opening :: (spoiltSample ++ [closing])) brokenSample messages ∧
        ∀ m ∈ messages, ∃ t ∈ spoiltSample ++ [closing], ∃ problem,
          m = Message.error t.span (Problem.text problem) := by
  intro head opening closing
  refine ⟨?_, by decide +kernel,
    parse_body head spoiltSample brokenSample opening closing (by decide +kernel) (by decide +kernel)
      (by decide +kernel) (by decide +kernel)⟩
  rw [Parser.parse_eq]
  decide +kernel

end Shading
