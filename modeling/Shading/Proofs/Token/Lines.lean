import Shading.Proofs.Token.Positions

/-! # Scanning line by line

After a line break the scanner is as at the start of a text, unless the break belongs to a string or a
block comment (`step_newline`).  So a text can be scanned line by line as long as no line ends within
one of these, and then only (`scan_lines`).  The state after some characters is all that the scan of
what follows depends on (`scanFrom_append`). -/

namespace Shading

/-- The state that a move leads to. -/
def Move.state : Move → ScanState
  | .grow s | .fresh s => s

/-- Within a string, from its opening quote on, or within a block comment. -/
def ScanState.isInside : ScanState → Bool
  | .openQuote | .string | .escape | .blockComment | .blockStar => true
  | _ => false

namespace Scan

/-- The state of the scanner after characters. -/
def stateAfter (s : ScanState) (cs : List Char) : ScanState :=
  cs.foldl (fun s c => (step s c).state) s

/-- The scan of a text ends within a string or a block comment. -/
def endsInside (text : String) (start : Point) : Bool :=
  (stateAfter (if start.column = 0 then .lineStart else .blank) text.toList).isInside

/-- A scan goes on from the state after the characters scanned so far.  What has been handed out does
not depend on what follows. -/
theorem scanFrom_append (keep : ClassSet) (p : Pending) (here : Point) (cs : List Char) :
    ∃ closed q, q.state = stateAfter p.state cs ∧ ∀ rest,
      scanFrom keep p here (cs ++ rest) =
        closed ++ scanFrom keep q (here.advanced (encoded cs)) rest := by
  induction cs generalizing p here with
  | nil => exact ⟨[], p, rfl, fun rest => rfl⟩
  | cons c cs ih =>
      have hplace : (here.after c).advanced (encoded cs) = here.advanced (encoded (c :: cs)) := by
        rw [← Point.foldl_after_eq_advanced, ← Point.foldl_after_eq_advanced, List.foldl_cons]
      have hstate : stateAfter p.state (c :: cs) = stateAfter (step p.state c).state cs := rfl
      rw [← hplace, hstate]
      cases hstep : step p.state c with
      | grow t =>
          obtain ⟨closed, q, hq, hrest⟩ :=
            ih ⟨t, p.start, here.lastByte c, c :: p.chars⟩ (here.after c)
          refine ⟨closed, q, hq, fun rest => ?_⟩
          rw [List.cons_append, scanFrom, hstep, ← hrest]
      | fresh t =>
          obtain ⟨closed, q, hq, hrest⟩ := ih ⟨t, here, here.lastByte c, [c]⟩ (here.after c)
          refine ⟨p.finish keep ++ closed, q, hq, fun rest => ?_⟩
          rw [List.cons_append, scanFrom, hstep, List.append_assoc, ← hrest]

/-! ### Line breaks -/

/-- Outside strings and block comments, a line break ends what is read and begins a line. -/
theorem step_newline {s : ScanState} (h : s.isInside = false) : step s '\n' = .fresh .lineStart := by
  revert h
  cases s <;> decide

theorem finish_of_none {p : Pending} (h : p.state.tokenClass? = none) (keep : ClassSet) :
    p.finish keep = [] := by
  unfold Pending.finish
  rw [h]
  split <;> simp_all

/-- At the start of a line nothing matters of what was read before. -/
theorem scanFrom_lineStart {p q : Pending} (hp : p.state = .lineStart) (hq : q.state = .lineStart)
    (keep : ClassSet) (here : Point) (cs : List Char) :
    scanFrom keep p here cs = scanFrom keep q here cs := by
  have hfinish (r : Pending) (hr : r.state = .lineStart) : r.finish keep = [] := by
    refine finish_of_none ?_ keep
    rw [hr]
    rfl
  cases cs with
  | nil => rw [scanFrom, scanFrom, hfinish p hp, hfinish q hq]
  | cons c cs => rw [scanFrom, scanFrom, hp, hq, step, hfinish p hp, hfinish q hq]

/-- What follows a line break outside strings and block comments. -/
theorem scanFrom_newline {p : Pending} (h : p.state.isInside = false) (keep : ClassSet) (here : Point)
    (text : String) :
    scanFrom keep p here ('\n' :: text.toList) =
      p.finish keep ++ Token.scan text (here.after '\n') keep := by
  have hcolumn : (here.after '\n').column = 0 := (column_after here '\n').mpr rfl
  rw [scanFrom, step_newline h, Token.scan_eq, if_pos hcolumn]
  exact congrArg _ (scanFrom_lineStart rfl rfl keep _ _)

/-- Within a string or a block comment, a line break is one more character of it. -/
theorem step_newline_inside {s : ScanState} (h : s.isInside = true) :
    (s = .openQuote ∧ step s '\n' = .fresh .string) ∨
      ∃ t, (t = .string ∨ t = .blockComment) ∧ step s '\n' = .grow t := by
  cases s with
  | openQuote => exact .inl ⟨rfl, rfl⟩
  | string | escape => exact .inr ⟨.string, .inl rfl, rfl⟩
  | blockComment | blockStar => exact .inr ⟨.blockComment, .inr rfl, rfl⟩
  | _ => cases h

theorem exists_finish_of_letter {p : Pending} (h : p.state = .string ∨ p.state = .blockComment)
    (keep : ClassSet) (here : Point) : ∃ q : Pending, (q.state = .string ∨ q.state = .blockComment) ∧
      scanFrom keep p here ['x'] = q.finish keep := by
  refine ⟨⟨p.state, p.start, here.lastByte 'x', 'x' :: p.chars⟩, h, ?_⟩
  rcases h with h | h <;> rw [scanFrom, h] <;> rfl

/-- So a word on the next line is no word. -/
theorem kind_ne_of_mem_inside {p : Pending} (h : p.state.isInside = true) {keep : ClassSet}
    {here : Point} {t : Token} (ht : t ∈ scanFrom keep p here ['\n', 'x']) :
    t.kind ≠ .identifier := by
  have hlast : ∃ q : Pending, (q.state = .string ∨ q.state = .blockComment) ∧
      scanFrom keep p here ['\n', 'x'] = q.finish keep := by
    rcases step_newline_inside h with ⟨hs, hstep⟩ | ⟨s, hs, hstep⟩
    · rw [scanFrom, hstep]
      dsimp only
      rw [finish_of_none (by rw [hs]; rfl), List.nil_append]
      exact exists_finish_of_letter (.inl rfl) keep _
    · rw [scanFrom, hstep]
      exact exists_finish_of_letter hs keep _
  obtain ⟨q, hq, hscan⟩ := hlast
  rw [hscan] at ht
  have hkind := tokenClass?_of_mem_finish ht
  intro hidentifier
  rw [hidentifier] at hkind
  rcases hq with hq | hq <;> rw [hq] at hkind <;> cases hkind

/-! ### Lines -/

/-- Where the scan of a text stands when a line break follows it. -/
theorem exists_pending (a : String) (start : Point) (keep : ClassSet) :
    ∃ closed q, q.state.isInside = endsInside a start ∧
      Token.scan a start keep = closed ++ q.finish keep ∧
      ∀ b : String, Token.scan (a ++ "\n" ++ b) start keep =
        closed ++ scanFrom keep q (start.advanced (encoded a.toList)) ('\n' :: b.toList) := by
  obtain ⟨closed, q, hq, hrest⟩ := scanFrom_append keep
    ⟨if start.column = 0 then .lineStart else .blank, start, start, []⟩ start a.toList
  refine ⟨closed, q, by rw [hq, endsInside], ?_, fun b => ?_⟩
  · have ha := hrest []
    rw [List.append_nil] at ha
    rw [Token.scan_eq, ha, scanFrom]
  · have htext : (a ++ "\n" ++ b).toList = a.toList ++ '\n' :: b.toList := by
      rw [String.toList_append, String.toList_append, List.append_assoc]
      rfl
    rw [Token.scan_eq, htext, hrest]

theorem after_newline (start : Point) (a : String) :
    (start.advanced (encoded a.toList)).after '\n' =
      start.advanced (Text.utf8Bytes (a ++ "\n")) := by
  rw [utf8Bytes_eq_encoded, String.toList_append, encoded_append, Point.advanced_append, Point.after]
  rfl

theorem exists_identifier (comments : Bool) (here : Point) :
    ∃ t ∈ Token.scan "x" here (ClassSet.scanned comments), t.kind = .identifier := by
  refine ⟨⟨.identifier, ⟨here, here.lastByte 'x'⟩, "x"⟩, ?_, rfl⟩
  rw [Token.scan_eq]
  split <;> cases comments <;> exact List.mem_singleton_self _

theorem contains_scanned_false (kind : TokenClass) :
    (ClassSet.scanned false).contains kind = !kind.isComment := by
  cases kind <;> rfl

/-- To leave comments out is to leave their tokens out of the list. -/
theorem scan_without_comments (text : String) (start : Point) :
    Token.scan text start (ClassSet.scanned false) =
      (Token.scan text start (ClassSet.scanned true)).filter fun t => !t.kind.isComment := by
  rw [scan_eq_filter]
  simp only [contains_scanned_false]
  rfl

/-- **Line by line.**  Scanning a text, a line break and another text gives the tokens of the one and
then those of the other, scanned from the point after the line break.  This holds for all texts after
the line break exactly if the scan of the text before it does not end within a string or a block
comment.  Leaving comments out changes nothing else of the tokens. -/
theorem scan_lines (a text : String) (start : Point) (comments : Bool) :
    let keep := ClassSet.scanned comments
    ((∀ b : String, Token.scan (a ++ "\n" ++ b) start keep =
        Token.scan a start keep ++
          Token.scan b (start.advanced (Text.utf8Bytes (a ++ "\n"))) keep) ↔
      endsInside a start = false) ∧
      Token.scan text start (ClassSet.scanned false) =
        (Token.scan text start (ClassSet.scanned true)).filter fun t => !t.kind.isComment := by
  intro keep
  refine ⟨?_, scan_without_comments text start⟩
  obtain ⟨closed, q, hinside, ha, hab⟩ := exists_pending a start keep
  rw [← hinside]
  constructor
  · intro h
    rw [← Bool.not_eq_true]
    intro htrue
    -- a word on the next line would be lost
    obtain ⟨t, ht, hkind⟩ := exists_identifier comments (start.advanced (Text.utf8Bytes (a ++ "\n")))
    have hx := h "x"
    rw [hab, ha, List.append_assoc] at hx
    have hmem := List.mem_append_right (q.finish keep) ht
    rw [← List.append_cancel_left hx] at hmem
    exact kind_ne_of_mem_inside htrue hmem hkind
  · intro hfalse b
    rw [hab, scanFrom_newline hfalse, after_newline, ha, List.append_assoc]

/-- A string over a line break and a comment, then a directive with a quote and the opening of a block
comment in it. -/
def closedSample : String := "\"é\n\" // /*\n#a \"b /*"

theorem scan_lines_closedSample :
    endsInside closedSample (Point.fileStart 1) = false ∧
      ∀ b : String,
        Token.scan (closedSample ++ "\n" ++ b) (Point.fileStart 1) (ClassSet.scanned true) =
          Token.scan closedSample (Point.fileStart 1) (ClassSet.scanned true) ++
            Token.scan b ⟨1, 21, 3, 0⟩ (ClassSet.scanned true) := by
  have hclosed : endsInside closedSample (Point.fileStart 1) = false := by decide +kernel
  have hplace : (Point.fileStart 1).advanced (Text.utf8Bytes (closedSample ++ "\n")) =
      ⟨1, 21, 3, 0⟩ := by decide +kernel
  refine ⟨hclosed, ?_⟩
  rw [← hplace]
  exact (scan_lines closedSample "" (Point.fileStart 1) true).1.mpr hclosed

end Scan

end Shading
