import Shading.Proofs.Grammar.Layout
import Shading.Proofs.Grammar.Statements
import Shading.Proofs.Parser.Agreement

/-! # Reading back what is written

Functions and whole program texts are read as what they are.  Whatever tokens a program text is
written with, provided that symbols make up operators only where they should, parsing reports nothing
and gives the tree of the program text; and every program text can be so written (`parse_written`). -/

namespace Shading.Grammar

open Production Lexeme Syntax

variable {past : Span} {tokens rest : List Token} {more : List Lexeme}

/-! ### Attributes -/

theorem accepts_attributeItem (a : Attribute) (hnesting : a.nesting ≤ nestingLimit) :
    Accepts attributeItem a.lexemes (NotAt '(') (Found a.shape) := by
  intro past tokens more hw hmore
  obtain ⟨name, arguments?⟩ := a
  cases arguments? with
  | none =>
      obtain ⟨t, rest, rfl, hname, htext, hrest⟩ := exists_name hw
      have hopening : rest.head?.any (fun t => t.isSymbol '(') = false :=
        head?_any_isSymbol hrest hmore
      refine ⟨_, rest, reads_attributeItem_some.mpr
        ⟨t, rest, hname, rfl, .inl ⟨hopening, rfl, rfl⟩⟩, hrest, _, rfl, ?_⟩
      rw [Node.shape_mk, htext]
      rfl
  | some arguments =>
      obtain ⟨t, mid, rfl, hname, htext, hmid⟩ := exists_name hw
      have harguments : ∀ e ∈ arguments,
          Accepts (expression nestingLimit) e.lexemes Ends (Found e.shape) := fun e he =>
        accepts_expression e (Nat.lt_of_lt_of_le (Expression.nesting_lt_nestingAll he) hnesting)
      obtain ⟨list, rest, hreads, hrest, hshape⟩ :=
        accepts_argumentList arguments harguments past mid more hmid trivial
      have hopening : mid.head?.any (fun t => t.isSymbol '(') = true := head?_any_isSymbol hmid rfl
      refine ⟨_, rest, reads_attributeItem_some.mpr
        ⟨t, mid, hname, rfl, .inr ⟨hopening, list, hreads, rfl⟩⟩, hrest, _, rfl, ?_⟩
      rw [Node.shape_mk, htext, List.map_cons, hshape]
      rfl

/-- Attributes are read as a list, and nothing is read where there are none. -/
theorem accepts_attributeList (f : Function) (hnesting : ∀ a ∈ f.attributes, a.nesting ≤ nestingLimit) :
    Accepts attributeList f.attributeLexemes (NotAt '[')
      (fun node? => node?.toList.map Node.shape = f.attributeShapes) := by
  obtain ⟨attributes, declared, parameters, body⟩ := f
  intro past tokens more hw hmore
  cases attributes with
  | nil =>
      have hw : ofTokens tokens = more := hw
      have hnone : attributeOpening? tokens = none := by
        cases hopening : attributeOpening? tokens with
        | none => rfl
        | some token =>
            obtain ⟨first, second, mid, hfirst, _, rfl, _⟩ := attributeOpening?_eq_some.mp hopening
            rw [← hw] at hmore
            exact Bool.noConfusion (hmore.symm.trans hfirst)
      exact ⟨none, tokens, reads_attributeList_none.mpr ⟨hnone, rfl⟩, hw, rfl⟩
  | cons first others =>
      have hw : ofTokens tokens = symbol '[' :: symbol '[' ::
          (commaSeparated ((first :: others).map Attribute.lexemes) ++
            symbol ']' :: symbol ']' :: more) := by
        rw [hw]
        simp [Function.attributeLexemes, enclosed]
      obtain ⟨outer, left, rfl, houter, houterText, hleft⟩ := exists_symbol hw
      obtain ⟨inner, mid, rfl, hinner, hinnerText, hmid⟩ := exists_symbol hleft
      obtain ⟨items, rest, hitems, hrest, hcomplete, hshapes⟩ := accepts_separated (fun _ => rfl)
        first others (fun a ha => accepts_attributeItem a (hnesting a ha)) past mid _ hmid ⟨rfl, rfl⟩
      obtain ⟨last, rest, rfl, hlast, _, hrest⟩ := exists_symbol hrest
      obtain ⟨final, rest, rfl, hfinal, _, hrest⟩ := exists_symbol hrest
      refine ⟨_, rest, reads_attributeList_some.mpr ⟨joinTokens outer inner, items, last, final,
        attributeOpening?_eq_some.mpr ⟨outer, inner, mid, houter, hinner, rfl, rfl⟩, hitems, hcomplete,
        hlast, hfinal, rfl⟩, hrest, ?_⟩
      simp only [Option.toList_some, List.map_cons, List.map_nil, Node.shape_mk, hshapes, joinTokens,
        houterText, hinnerText]
      rfl

/-! ### Functions -/

theorem accepts_parameter (d : Typed) (hdepth : d.type.depth ≤ nestingLimit) :
    Accepts parameter d.lexemes (fun _ => True) (Found (Function.parameterShape d)) := by
  intro past tokens more hw _
  obtain ⟨qualifiers, left, type, name, mid, hq, htype, hname, htext, hmid, hshapes⟩ :=
    reads_typed d hdepth past hw
  refine ⟨_, mid, reads_parameter_some.mpr ⟨qualifiers, left, type, name, hq, htype, hname, rfl⟩, hmid,
    _, rfl, ?_⟩
  rw [Node.shape_mk, hshapes, htext, Function.parameterShape]

theorem accepts_functionBody (f : Function) (h : f.Fits) :
    Accepts functionBody f.bodyLexemes (fun _ => True)
      (fun nodes => nodes.map Node.shape =
        f.body.toList.map fun statements => (Statement.block statements).shape) := by
  intro past tokens more hw _
  unfold Function.bodyLexemes at hw
  cases hbody : f.body with
  | none =>
      rw [hbody] at hw
      obtain ⟨ending, rest, rfl, hending, _, hrest⟩ := exists_symbol hw
      exact ⟨[], rest, reads_functionBody.mpr (.inr ⟨ending, hending, rfl, rfl⟩), hrest, rfl⟩
  | some statements =>
      rw [hbody] at hw
      obtain ⟨node, rest, hreads, hrest, hshape⟩ := accepts_block nestingLimit statements
        (h.nesting statements hbody) (h.typeDepth statements hbody) past tokens more hw trivial
      have hbrace : tokens.head?.any (fun t => t.isSymbol '{') = true := head?_any_isSymbol hw rfl
      refine ⟨[node], rest, reads_functionBody.mpr (.inl ⟨hbrace, node, hreads, rfl⟩), hrest, ?_⟩
      simp only [Option.toList_some, List.map_cons, List.map_nil, hshape]

/-- A function is read if what is written for its body is, whatever that is. -/
theorem accepts_declaration (f : Function) (hattributes : ∀ a ∈ f.attributes, a.nesting ≤ nestingLimit)
    (htype : f.declared.type.depth ≤ nestingLimit)
    (hparameters : ∀ d ∈ f.parameters, d.type.depth ≤ nestingLimit) {written : List Lexeme}
    {shapes : List Shape} (hbody : Accepts functionBody written (fun _ => True)
      (fun nodes => nodes.map Node.shape = shapes)) :
    Accepts functionDeclaration
      (f.attributeLexemes ++ (f.declared.lexemes ++
        (enclosed '(' ')' (commaSeparated (f.parameters.map Typed.lexemes)) ++ written)))
      (fun _ => True)
      (Found (.mk .functionDeclaration f.declared.name.text (f.attributeShapes ++ f.declared.shapes ++
        [.mk .parameterList "(" (f.parameters.map Function.parameterShape)] ++ shapes))) := by
  intro past tokens more hw _
  rw [List.append_assoc, List.append_assoc, List.append_assoc] at hw
  obtain ⟨attributes?, mid, hattributes, hmid, hattributeShapes⟩ :=
    accepts_attributeList f hattributes past tokens _ hw (notAt_typed f.declared _ _)
  obtain ⟨qualifiers, left, type, name, opened, hq, htype, hname, htext, hopened, hshapes⟩ :=
    reads_typed f.declared htype past hmid
  obtain ⟨parameters, bodied, hparameters, hbodied, hparameterShape⟩ :=
    accepts_enclosed reads_listed.mpr (fun _ => trivial) (fun _ => trivial) f.parameters
      (fun d hd => accepts_parameter d (hparameters d hd)) (fun d _ => notAt_typed d _)
      past opened _ hopened trivial
  obtain ⟨body, rest, hbody, hrest, hbodyShapes⟩ := hbody past bodied more hbodied trivial
  have hparenthesis : opened.head?.any (fun t => t.isSymbol '(') = true :=
    head?_any_isSymbol hopened rfl
  refine ⟨_, rest, reads_functionDeclaration_some.mpr ⟨attributes?, mid, qualifiers, left, type, opened,
    name, parameters, bodied, body, hattributes, hq, htype, hname, hparenthesis, hparameters, hbody, rfl⟩,
    hrest, _, rfl, ?_⟩
  simp only [List.map_append, List.map_cons, List.map_nil] at hshapes
  simp [htext, hattributeShapes, hparameterShape, hbodyShapes, ← hshapes]

theorem accepts_functionDeclaration (f : Function) (h : f.Fits) :
    Accepts functionDeclaration f.lexemes (fun _ => True) (Found f.shape) :=
  accepts_declaration f h.attributes h.type h.parameters (accepts_functionBody f h)

/-! ### Whole program texts -/

/-- Functions are read one after another, up to the end of input. -/
theorem turns_declarations (past : Span) : ∀ (functions : List Function),
    (∀ f ∈ functions, f.Fits) → ∀ {tokens : List Token} (nodes : List Node),
      ofTokens tokens = functions.flatMap Function.lexemes →
      ∃ found, Turns nextDeclaration past nodes tokens (nodes ++ found) [] ∧
        found.map Node.shape = functions.map Function.shape
  | [], _, tokens, nodes, hw => by
      have hempty := ofTokens_eq_nil.mp hw
      exact ⟨[], .done (reads_nextDeclaration_done.mpr
        ⟨hempty, rfl, (List.append_nil nodes).symm⟩), rfl⟩
  | f :: functions, hfits, tokens, nodes, hw => by
      rw [List.flatMap_cons] at hw
      obtain ⟨_, mid, hreads, hmid, node, rfl, hshape⟩ :=
        accepts_functionDeclaration f (hfits f List.mem_cons_self) past tokens _ hw trivial
      obtain ⟨found, hturns, hshapes⟩ := turns_declarations past functions
        (fun f hf => hfits f (List.mem_cons_of_mem _ hf)) (nodes ++ [node]) hmid
      have hlt : mid.length < tokens.length := by
        rw [length_eq_add hw hmid]
        simp only [Function.lexemes, enclosed, List.length_append, List.length_cons]
        omega
      have hne : tokens ≠ [] := List.ne_nil_of_length_pos (Nat.zero_lt_of_lt hlt)
      refine ⟨node :: found, .again (reads_nextDeclaration_again.mpr ⟨hne, node, hreads, rfl⟩) hlt ?_, ?_⟩
      · simpa using hturns
      · rw [List.map_cons, List.map_cons, hshape, hshapes]

theorem programUnit_written (p : Program) (hfits : p.Fits) (past : Span)
    (hw : ofTokens tokens = p.lexemes) :
    ∃ node, programUnit.Reads past tokens node [] ∧ node.shape = p.shape := by
  obtain ⟨nodes, hturns, hshapes⟩ := turns_declarations past p.functions hfits [] hw
  refine ⟨_, reads_programUnit.mpr ⟨nodes, hturns.reads, rfl⟩, ?_⟩
  have hfirst : (tokens.head?.getD ⟨.unknown, Span.origin, ""⟩).text = headText p.lexemes := by
    rw [← hw]
    cases tokens <;> rfl
  rw [Node.shape_mk, hfirst, hshapes, Program.shape]

end Shading.Grammar

namespace Shading

open Grammar Lexeme Syntax

/-- **Round trip of parsing.**  A program text can be written as tokens, and from any tokens it is
written with it is read back without a message, up to the places of the tokens. -/
theorem parse_written (p : Program) (hfits : p.Fits) :
    (∃ tokens, ofTokens tokens = p.lexemes) ∧
      ∀ tokens, ofTokens tokens = p.lexemes →
        (parse tokens).2 = [] ∧ (parse tokens).1.shape = p.shape := by
  refine ⟨⟨layout 0 p.lexemes, ofTokens_layout 0 p.wellJoined⟩, fun tokens hw => ?_⟩
  obtain ⟨node, hreads, hshape⟩ := programUnit_written p hfits (pastEnd tokens) hw
  rw [Parser.parse_of_reads hreads]
  exact ⟨rfl, hshape⟩

/-- The program text

    [[stage(1)]] t<u<t>> f(in t a) { a < b; const t c = {-a, {f(2)[0].u}}; return (a <= b) && c; }
    t g(); -/
def comparingProgram : Program :=
  let a : Name := ⟨"a", by decide⟩
  let b : Name := ⟨"b", by decide⟩
  let c : Name := ⟨"c", by decide⟩
  let f : Name := ⟨"f", by decide⟩
  let t : Typename := .mk ⟨"t", by decide⟩ []
  let u : Name := ⟨"u", by decide⟩
  let number (text : String) : Expression := .literal (.integer .integer text rfl)
  let member : Expression := .member (.index (.call (.name f) [number "2"]) (number "0")) u
  let value : Initialiser :=
    .braced [.expression (.unary .minus (.name a)), .braced [.expression member]]
  let compared : Expression := .binary .and (.binary .le (.name a) (.name b)) (.name c)
  ⟨[{ attributes := [⟨⟨"stage", by decide⟩, some [number "1"]⟩]
      declared := ⟨[], .mk ⟨"t", by decide⟩ [.mk u [t]], f⟩
      parameters := [⟨[⟨"in", by decide⟩], t, a⟩]
      body := some [.expression (.binary .lt (.name a) (.name b)),
        .declaration ⟨[⟨"const", by decide⟩], t, c⟩ (some value), .ret (some compared)] },
    { attributes := [], declared := ⟨[], t, ⟨"g", by decide⟩⟩, parameters := [], body := none }]⟩

theorem parse_written_comparingProgram :
    comparingProgram.Fits ∧
      ofTokens (layout 0 comparingProgram.lexemes) = comparingProgram.lexemes ∧
      (parse (layout 0 comparingProgram.lexemes)).2 = [] ∧
      (parse (layout 0 comparingProgram.lexemes)).1.shape = comparingProgram.shape := by
  have hfits : comparingProgram.Fits := by decide +kernel
  have hwritten := ofTokens_layout 0 comparingProgram.wellJoined
  exact ⟨hfits, hwritten, (parse_written comparingProgram hfits).2 _ hwritten⟩

end Shading
