import Shading.Proofs.Message.Underline

/-! # Where the caret stands

A line is shown in columns.  One starts at each byte at which a character starts, and past the end of
the line at every byte (`StartsColumn`).  `columnsIn` counts the columns that start in a stretch of
bytes, which says nothing of how they are found.

Rendering counts columns in three ways: for the header it counts characters by their offsets, for the
margin it cuts the line, and for the marks it counts again from the start of the span.  All three are
numbers of columns (`shownColumns_eq`, `length_margin`), and columns add up, so the caret stands in the
column that the header names (`render_caret`). -/

namespace Shading

open Scan (encoded length_encoded_append length_encoded_cons)

/-! ### Columns -/

/-- A column starts at the byte: a character of the line starts there, or the line has ended. -/
def StartsColumn (line : String) (k : Nat) : Prop :=
  String.Pos.Raw.IsValid line ⟨k⟩ ∨ line.utf8ByteSize ≤ k

instance (line : String) (k : Nat) : Decidable (StartsColumn line k) :=
  inferInstanceAs (Decidable (_ ∨ _))

/-- The number of columns that start at bytes from `start` up to but not including `stop`. -/
def columnsIn (line : String) (start stop : Nat) : Nat :=
  (List.range' start (stop - start)).countP fun k => StartsColumn line k

theorem columnsIn_self (line : String) (start : Nat) : columnsIn line start start = 0 := by
  rw [columnsIn, Nat.sub_self]
  rfl

/-- Columns add up. -/
theorem columnsIn_add (line : String) {start middle stop : Nat} (hstart : start ≤ middle)
    (hstop : middle ≤ stop) :
    columnsIn line start middle + columnsIn line middle stop = columnsIn line start stop := by
  have hmiddle : start + 1 * (middle - start) = middle := by omega
  have hlength : stop - start = (middle - start) + (stop - middle) := by omega
  rw [columnsIn, columnsIn, columnsIn, hlength, ← List.range'_append, List.countP_append, hmiddle]

theorem columnsIn_single (line : String) (k : Nat) :
    columnsIn line k (k + 1) = if StartsColumn line k then 1 else 0 := by
  rw [columnsIn, Nat.add_sub_cancel_left, List.range'_one, List.countP_singleton]
  simp only [decide_eq_true_eq]

/-- A byte is at the start of a character of the line or at its end exactly if the line falls apart
there. -/
theorem isValid_iff {line : String} {k : Nat} : String.Pos.Raw.IsValid line ⟨k⟩ ↔
    ∃ front back, line.toList = front ++ back ∧ (encoded front).length = k := by
  constructor
  · intro h
    obtain ⟨front, back, rfl, hk⟩ := String.Pos.Raw.isValid_iff_exists_append.mp h
    refine ⟨front.toList, back.toList, String.toList_append, ?_⟩
    rw [← utf8ByteSize_eq]
    exact (congrArg String.Pos.Raw.byteIdx hk).symm
  · rintro ⟨front, back, hline, rfl⟩
    exact Scan.isValid_front hline

/-! ### Counting by offsets -/

/-- A character starts at byte `k`, if the first one starts at `offset`. -/
def StartsChar (offset k : Nat) (cs : List Char) : Prop :=
  ∃ front c back, cs = front ++ c :: back ∧ offset + (encoded front).length = k

theorem StartsChar.le {offset k : Nat} {cs : List Char} (h : StartsChar offset k cs) : offset ≤ k := by
  obtain ⟨front, c, back, _, rfl⟩ := h
  exact Nat.le_add_right _ _

theorem startsChar_cons {offset k : Nat} {c : Char} {cs : List Char} :
    StartsChar offset k (c :: cs) ↔ offset = k ∨ StartsChar (offset + c.utf8Size) k cs := by
  constructor
  · rintro ⟨front, d, back, hcs, hk⟩
    cases front with
    | nil => exact Or.inl hk
    | cons e front =>
        obtain ⟨rfl, rfl⟩ := List.cons_eq_cons.mp hcs
        rw [length_encoded_cons, ← Nat.add_assoc] at hk
        exact Or.inr ⟨front, d, back, rfl, hk⟩
  · rintro (rfl | ⟨front, d, back, rfl, hk⟩)
    · exact ⟨[], c, cs, rfl, rfl⟩
    · refine ⟨c :: front, d, back, rfl, ?_⟩
      rw [length_encoded_cons, ← Nat.add_assoc]
      exact hk

/-- One byte further, one more character is counted if it starts there. -/
theorem charsBetween_succ {offset start stop : Nat} {cs : List Char} (h : start ≤ stop)
    [Decidable (StartsChar offset stop cs)] :
    charsBetween offset start (stop + 1) cs =
      charsBetween offset start stop cs + if StartsChar offset stop cs then 1 else 0 := by
  classical
  induction cs generalizing offset with
  | nil =>
      have hnone : ¬StartsChar offset stop [] := by
        rintro ⟨front, c, back, hcs, _⟩
        exact absurd hcs (by simp)
      rw [if_neg hnone]
      rfl
  | cons c cs ih =>
      have hpos := c.utf8Size_pos
      rw [charsBetween, charsBetween, ih]
      by_cases hhere : offset = stop
      · -- the first character starts here, and no other one does
        have hlater : ¬StartsChar (offset + c.utf8Size) stop cs := by
          intro hlater
          have := hlater.le
          omega
        rw [if_neg hlater, if_pos (startsChar_cons.mpr (Or.inl hhere)), if_pos (by omega),
          if_neg (by omega)]
        omega
      · have hsame : StartsChar offset stop (c :: cs) ↔ StartsChar (offset + c.utf8Size) stop cs :=
          startsChar_cons.trans (or_iff_right hhere)
        have hcounted : (start ≤ offset ∧ offset < stop + 1) ↔ (start ≤ offset ∧ offset < stop) := by
          omega
        simp only [hsame, hcounted]
        omega

/-- Within the line a column starts where a character does. -/
theorem startsColumn_iff {line : String} {k : Nat} (h : k < line.utf8ByteSize) :
    StartsColumn line k ↔ StartsChar 0 k line.toList := by
  rw [StartsColumn, or_iff_left (Nat.not_le.mpr h), isValid_iff]
  constructor
  · rintro ⟨front, back, hline, rfl⟩
    cases back with
    | nil =>
        rw [utf8ByteSize_eq, hline, List.append_nil] at h
        exact absurd h (Nat.lt_irrefl _)
    | cons c back => exact ⟨front, c, back, hline, Nat.zero_add _⟩
  · rintro ⟨front, c, back, hline, hk⟩
    exact ⟨front, c :: back, hline, (Nat.zero_add _).symm.trans hk⟩

theorem not_startsChar {line : String} {k : Nat} (h : line.utf8ByteSize ≤ k) :
    ¬StartsChar 0 k line.toList := by
  rintro ⟨front, c, back, hline, hk⟩
  have hpos := c.utf8Size_pos
  rw [utf8ByteSize_eq, hline, length_encoded_append, length_encoded_cons] at h
  omega

theorem charsBetween_self (offset start : Nat) (cs : List Char) :
    charsBetween offset start start cs = 0 := by
  induction cs generalizing offset with
  | nil => rfl
  | cons c cs ih => rw [charsBetween, if_neg (by omega), ih]

theorem shownColumns_of_le (line : String) {start stop : Nat} (h : start ≤ stop) :
    shownColumns line start stop =
      charsBetween 0 start stop line.toList + (stop - max start line.utf8ByteSize) := by
  unfold shownColumns
  split
  case isTrue hstop =>
    obtain rfl : start = stop := Nat.le_antisymm h hstop
    rw [charsBetween_self]
    omega
  case isFalse => rfl

/-- One byte further, one more column is shown if it starts there. -/
theorem shownColumns_succ (line : String) {start stop : Nat} (h : start ≤ stop) :
    shownColumns line start (stop + 1) =
      shownColumns line start stop + if StartsColumn line stop then 1 else 0 := by
  classical
  rw [shownColumns_of_le line h, shownColumns_of_le line (Nat.le_succ_of_le h), charsBetween_succ h]
  by_cases hinside : stop < line.utf8ByteSize
  · simp only [startsColumn_iff hinside]
    omega
  · have hended : StartsColumn line stop := Or.inr (Nat.not_lt.mp hinside)
    rw [if_neg (not_startsChar (Nat.not_lt.mp hinside)), if_pos hended]
    omega

/-- What is shown for a stretch of bytes are the columns that start in it. -/
theorem shownColumns_eq (line : String) {start stop : Nat} (h : start ≤ stop) :
    shownColumns line start stop = columnsIn line start stop := by
  induction stop, h using Nat.le_induction with
  | base =>
      rw [columnsIn_self]
      exact if_pos le_rfl
  | succ stop h ih =>
      rw [shownColumns_succ line h, ih, ← columnsIn_single, columnsIn_add line h (Nat.le_succ stop)]

/-! ### Counting by cutting -/

theorem mem_margin {line : String} {start : Nat} {c : Char} (h : c ∈ margin line start) :
    c = ' ' ∨ c = '\t' := by
  rcases List.mem_append.mp h with h | h
  · obtain ⟨d, _, rfl⟩ := List.mem_map.mp h
    split
    · exact Or.inr rfl
    · exact Or.inl rfl
  · exact Or.inl (List.eq_of_mem_replicate h)

/-- The margin before the start of a column has a character for each column before it. -/
theorem length_margin {line : String} {start : Nat} (h : StartsColumn line start) :
    (margin line start).length = columnsIn line 0 start := by
  -- the line goes on in spaces, as far as the start
  have hcut : ∃ past before after, line.toList ++ past = before ++ after ∧
      (encoded before).length = start ∧ ∀ c ∈ past, c.utf8Size = 1 ∧ c ≠ '\t' := by
    rcases h with h | h
    · obtain ⟨front, back, hline, hstart⟩ := isValid_iff.mp h
      refine ⟨[], front, back, ?_, hstart, List.forall_mem_nil _⟩
      rw [List.append_nil, hline]
    · have hspaces : ∀ c ∈ List.replicate (start - line.utf8ByteSize) ' ',
          c.utf8Size = 1 ∧ c ≠ '\t' := by
        intro c hc
        rw [List.eq_of_mem_replicate hc]
        decide
      refine ⟨List.replicate (start - line.utf8ByteSize) ' ', _, [], (List.append_nil _).symm, ?_,
        hspaces⟩
      rw [length_encoded_append, length_encoded_narrow fun c hc => (hspaces c hc).1,
        ← utf8ByteSize_eq, List.length_replicate]
      omega
  obtain ⟨past, before, after, hline, rfl, hpast⟩ := hcut
  have hcolumns := @shownColumns_encoded line past [] before after (fun c hc => (hpast c hc).1) hline
  rw [margin_encoded hpast hline, blanks, List.length_map, ← hcolumns]
  exact shownColumns_eq line (Nat.zero_le _)

/-! ### The caret -/

/-- The header of a message whose point lies on a line that exists. -/
theorem header_eq {m : Message} {files : Listing} {line : String}
    (hline : files.line? m.point.file m.point.line = some line) :
    m.header files = (files.name? m.point.file).getD unknownFile ++ " " ++
      toString (following m.point.line) ++ ":" ++ toString (columnsIn line 0 m.point.column + 1) ++ " " ++
      Named.name m.severity ++ ": " ++ m.text := by
  simp only [Message.header, hline, shownColumns_eq line (Nat.zero_le _)]
  simp [toString, String.append_assoc]

/-- The marks before and after the caret, if it stands at the start of a column. -/
theorem underline_eq {line : String} {start focus last : Nat} (hstart : start ≤ focus)
    (hlast : focus ≤ last) (hfocus : StartsColumn line focus) :
    Message.underline line start focus last = String.ofList (margin line start ++
      List.replicate (columnsIn line start focus) '~' ++ ['^'] ++
      List.replicate (columnsIn line (focus + 1) (last + 1)) '~') := by
  have hafter : shownColumns line focus (last + 1) - 1 = columnsIn line (focus + 1) (last + 1) := by
    rw [shownColumns_eq line (by omega), ← columnsIn_add line (Nat.le_succ focus) (by omega),
      columnsIn_single, if_pos hfocus, Nat.add_sub_cancel_left]
  simp only [Message.underline, hafter, shownColumns_eq line hstart, List.append_assoc]

theorem render_eq {m : Message} {files : Listing} {line : String}
    (hone : m.span.isSingleLine = true)
    (hline : files.line? m.span.start.file m.span.start.line = some line)
    (hstart : m.span.start.column ≤ m.point.column) (hlast : m.point.column ≤ m.span.last.column) :
    m.render files = m.header files ++ "\n" ++ line ++ "\n" ++
      Message.underline line m.span.start.column m.point.column m.span.last.column := by
  have hfile : m.span.isSingleFile = true := (Bool.and_eq_true_iff.mp hone).1
  simp [Message.render, hone, hfile, hline, Nat.max_eq_left hstart, Nat.min_eq_left hlast]

/-- **The caret stands in the column that the header names.**  Let the span of a message lie on one line
that exists and its point on the same line within the span, and let a column start at the start of the
span and at the point.  Then the message is shown as a header, the line and the underline.  The
underline has one caret.  Before it are as many characters as the column of the header says, less one:
blanks, and a tilde for each column from the start of the span up to the point.  After it is a tilde for
each column that starts behind the point and within the span. -/
theorem render_caret {m : Message} {files : Listing} {line : String}
    (hfile : m.span.last.file = m.span.start.file) (hspan : m.span.last.line = m.span.start.line)
    (hpointFile : m.point.file = m.span.start.file) (hpointLine : m.point.line = m.span.start.line)
    (hline : files.line? m.span.start.file m.span.start.line = some line)
    (hstart : m.span.start.column ≤ m.point.column) (hlast : m.point.column ≤ m.span.last.column)
    (hstartColumn : StartsColumn line m.span.start.column)
    (hpointColumn : StartsColumn line m.point.column) :
    ∃ (column : Nat) (margin before after : List Char),
      m.render files = (files.name? m.point.file).getD unknownFile ++ " " ++
        toString (following m.point.line) ++ ":" ++ toString column ++ " " ++ Named.name m.severity ++ ": " ++
        m.text ++ "\n" ++ line ++ "\n" ++ String.ofList (margin ++ before ++ ['^'] ++ after) ∧
      1 ≤ column ∧ (margin ++ before).length = column - 1 ∧ (∀ c ∈ margin, c = ' ' ∨ c = '\t') ∧
      before = List.replicate (columnsIn line m.span.start.column m.point.column) '~' ∧
      after = List.replicate (columnsIn line (m.point.column + 1) (m.span.last.column + 1)) '~' := by
  have hone : m.span.isSingleLine = true := by
    simp [Span.isSingleLine, Span.isSingleFile, hfile, hspan]
  have hpoint : files.line? m.point.file m.point.line = some line := by
    rw [hpointFile, hpointLine, hline]
  refine ⟨columnsIn line 0 m.point.column + 1, margin line m.span.start.column, _, _, ?_,
    Nat.succ_pos _, ?_, fun c => mem_margin, rfl, rfl⟩
  · rw [render_eq hone hline hstart hlast, header_eq hpoint, underline_eq hstart hlast hpointColumn]
  · rw [List.length_append, length_margin hstartColumn, List.length_replicate,
      columnsIn_add line (Nat.zero_le _) hstart, Nat.add_sub_cancel]

/-- A span that starts at a wide character behind a tab and ends past the line. -/
def caretSample : Message where
  severity := .warning
  span := ⟨⟨0, 3, 1, 1⟩, ⟨0, 9, 1, 7⟩⟩
  point := ⟨0, 5, 1, 3⟩
  text := "odd"

/-- The line of the sample is its second one. -/
def caretFiles : SourceMap := ⟨[⟨"wide", "x\n\té€\ny"⟩]⟩

theorem render_caret_caretSample :
    StartsColumn "\té€" caretSample.span.start.column ∧ StartsColumn "\té€" caretSample.point.column ∧
      caretSample.render caretFiles.listing = "wide 2:3 Warning: odd\n\té€\n\t~^~~" ∧
      ∃ (column : Nat) (margin before after : List Char),
        caretSample.render caretFiles.listing = "wide" ++ " " ++ "2" ++ ":" ++ toString column ++ " " ++
          "Warning" ++ ": " ++ "odd" ++ "\n" ++ "\té€" ++ "\n" ++
            String.ofList (margin ++ before ++ ['^'] ++ after) ∧
        (margin ++ before).length = column - 1 ∧ before = ['~'] ∧ after = ['~', '~'] := by
  have hstart : StartsColumn "\té€" caretSample.span.start.column := by decide +kernel
  have hpoint : StartsColumn "\té€" caretSample.point.column := by decide +kernel
  obtain ⟨column, margin, before, after, hrender, _, hlength, _, hbefore, hafter⟩ :=
    @render_caret caretSample caretFiles.listing "\té€" rfl rfl rfl rfl
      (by decide +kernel) (by decide) (by decide) hstart hpoint
  refine ⟨hstart, hpoint, by decide +kernel, column, margin, before, after, hrender, hlength, ?_, ?_⟩
  · rw [hbefore]
    decide +kernel
  · rw [hafter]
    decide +kernel

end Shading
