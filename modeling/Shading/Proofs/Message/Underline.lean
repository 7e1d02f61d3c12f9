import Shading.Message.Render
import Shading.Proofs.Token.Places

/-! # The underline stands under the token

A message about a token is shown with the line of the token and marks below it.  The token's place was
counted in bytes while the text was scanned; the line is found again by splitting the text, and the
marks count its characters.  They agree (`render_underlines`): the marks begin below the first character
of the token and are as many as it has characters.

A token may reach past the end of the line that is shown, by the carriage return that the line is shown
without or by the line break after it.  Both are single bytes, and past the end every byte counts as one
character (`shownColumns_encoded`). -/

namespace Shading

open Scan (encoded encoded_append length_encoded_append length_encoded_cons length_encoded_single)

/-! ### Lines of a text -/

/-- The first line of a text. -/
def firstLine (cs : List Char) : List Char := cs.takeWhile (· ≠ '\n')

theorem firstLine_cons_break (cs : List Char) : firstLine ('\n' :: cs) = [] := rfl

theorem firstLine_cons_of_ne {c : Char} (hc : c ≠ '\n') (cs : List Char) :
    firstLine (c :: cs) = c :: firstLine cs :=
  List.takeWhile_cons_of_pos (by simpa using hc)

theorem splitLines_cons_break (cs : List Char) : splitLines ('\n' :: cs) = [] :: splitLines cs := rfl

theorem splitLines_cons_of_ne {c : Char} {cs line : List Char} {lines : List (List Char)}
    (hc : c ≠ '\n') (h : splitLines cs = line :: lines) :
    splitLines (c :: cs) = (c :: line) :: lines := by
  rw [splitLines, if_neg hc, h]

theorem exists_splitLines (cs : List Char) : ∃ lines, splitLines cs = firstLine cs :: lines := by
  induction cs with
  | nil => exact ⟨[], rfl⟩
  | cons c cs ih =>
      by_cases hc : c = '\n'
      · rw [hc, firstLine_cons_break]
        exact ⟨splitLines cs, splitLines_cons_break cs⟩
      · obtain ⟨lines, hlines⟩ := ih
        rw [firstLine_cons_of_ne hc]
        exact ⟨lines, splitLines_cons_of_ne hc hlines⟩

/-- The lines on both sides of a line break. -/
theorem splitLines_append_break (front back : List Char) :
    splitLines (front ++ '\n' :: back) = splitLines front ++ splitLines back := by
  induction front with
  | nil => rfl
  | cons c front ih =>
      by_cases hc : c = '\n'
      · rw [hc, List.cons_append, splitLines_cons_break, ih, splitLines_cons_break, List.cons_append]
      · obtain ⟨lines, hlines⟩ := exists_splitLines front
        rw [hlines] at ih
        rw [List.cons_append, splitLines_cons_of_ne hc ih, splitLines_cons_of_ne hc hlines]
        rfl

theorem length_splitLines (cs : List Char) : (splitLines cs).length = cs.count '\n' + 1 := by
  induction cs with
  | nil => rfl
  | cons c cs ih =>
      by_cases hc : c = '\n'
      · rw [hc, splitLines_cons_break, List.length_cons, ih, List.count_cons_self]
      · obtain ⟨lines, hlines⟩ := exists_splitLines cs
        rw [splitLines_cons_of_ne hc hlines, List.count_cons_of_ne hc, ← ih, hlines]
        rfl

/-- The line that a place stands on: what is before the place on the line, and what is after it. -/
theorem getElem?_splitLines (front back : List Char) :
    (splitLines (front ++ back))[front.count '\n']? =
      some (front.rtakeWhile (· ≠ '\n') ++ firstLine back) := by
  induction front using List.reverseRecOn generalizing back with
  | nil =>
      obtain ⟨lines, hlines⟩ := exists_splitLines back
      rw [List.nil_append, hlines]
      rfl
  | append_singleton front c ih =>
      rw [List.append_assoc, List.singleton_append, List.count_append, List.rtakeWhile_concat]
      by_cases hc : c = '\n'
      · -- a new line: all lines of `front` lie before it
        obtain ⟨lines, hlines⟩ := exists_splitLines back
        rw [hc, splitLines_append_break, hlines, List.count_singleton_self, ← length_splitLines,
          List.getElem?_append_right le_rfl, Nat.sub_self]
        rfl
      · have hchar : '\n' ∉ [c] := fun h => hc (List.mem_singleton.mp h).symm
        rw [List.count_eq_zero_of_not_mem hchar, Nat.add_zero, ih, if_pos (by simpa using hc),
          firstLine_cons_of_ne hc, List.append_assoc, List.singleton_append]

theorem line?_of_get? {map : SourceMap} {file : Nat} {f : SourceFile} {front back : List Char}
    (hfile : map.get? file = some f) (htext : f.text.toList = front ++ back) :
    map.line? file (front.count '\n') =
      some (String.ofList (dropReturn (front.rtakeWhile (· ≠ '\n') ++ firstLine back))) := by
  simp [SourceMap.line?, SourceMap.text?, hfile, htext, getElem?_splitLines]

/-! ### Counting characters -/

theorem charsBetween_append (offset start stop : Nat) (cs ds : List Char) :
    charsBetween offset start stop (cs ++ ds) =
      charsBetween offset start stop cs +
        charsBetween (offset + (encoded cs).length) start stop ds := by
  induction cs generalizing offset with
  | nil => simp [charsBetween, encoded]
  | cons c cs ih =>
      rw [List.cons_append, charsBetween, ih, charsBetween, length_encoded_cons, Nat.add_assoc,
        Nat.add_assoc]

theorem charsBetween_eq_zero {offset start stop : Nat} {cs : List Char}
    (h : offset + (encoded cs).length ≤ start ∨ stop ≤ offset) :
    charsBetween offset start stop cs = 0 := by
  induction cs generalizing offset with
  | nil => rfl
  | cons c cs ih =>
      have hpos := c.utf8Size_pos
      rw [length_encoded_cons] at h
      rw [charsBetween, if_neg (by omega), ih (by omega)]

theorem charsBetween_eq_length {offset start stop : Nat} {cs : List Char} (hstart : start ≤ offset)
    (hstop : offset + (encoded cs).length ≤ stop) : charsBetween offset start stop cs = cs.length := by
  induction cs generalizing offset with
  | nil => rfl
  | cons c cs ih =>
      have hpos := c.utf8Size_pos
      rw [length_encoded_cons] at hstop
      rw [charsBetween, if_pos (by omega), ih (by omega) (by omega), List.length_cons, Nat.add_comm]

/-- Characters of one byte each are counted by their offsets. -/
theorem charsBetween_narrow {offset start stop : Nat} {cs : List Char}
    (hnarrow : ∀ c ∈ cs, c.utf8Size = 1) (hstop : stop ≤ offset + cs.length) :
    charsBetween offset start stop cs = stop - max start offset := by
  induction cs generalizing offset with
  | nil =>
      rw [List.length_nil] at hstop
      rw [charsBetween]
      omega
  | cons c cs ih =>
      obtain ⟨hc, hcs⟩ := List.forall_mem_cons.mp hnarrow
      rw [List.length_cons] at hstop
      rw [charsBetween, hc, ih hcs (by omega)]
      split <;> omega

theorem length_encoded_narrow {cs : List Char} (hnarrow : ∀ c ∈ cs, c.utf8Size = 1) :
    (encoded cs).length = cs.length := by
  induction cs with
  | nil => rfl
  | cons c cs ih =>
      obtain ⟨hc, hcs⟩ := List.forall_mem_cons.mp hnarrow
      rw [length_encoded_cons, hc, ih hcs, List.length_cons, Nat.add_comm]

theorem length_le_length_encoded (cs : List Char) : cs.length ≤ (encoded cs).length := by
  induction cs with
  | nil => exact le_rfl
  | cons c cs ih =>
      have hpos := c.utf8Size_pos
      rw [List.length_cons, length_encoded_cons]
      omega

theorem utf8ByteSize_eq (text : String) : text.utf8ByteSize = (encoded text.toList).length := by
  rw [← Scan.utf8Bytes_eq_encoded, Scan.length_utf8Bytes]

/-- The columns shown for characters of the line are as many as these, and so it is if they reach into
characters of one byte each that follow the line. -/
theorem shownColumns_encoded {line : String} {past before chars after : List Char}
    (hnarrow : ∀ c ∈ past, c.utf8Size = 1)
    (hline : line.toList ++ past = before ++ chars ++ after) :
    shownColumns line (encoded before).length (encoded (before ++ chars)).length = chars.length := by
  have hsize : (encoded (before ++ chars)).length =
      (encoded before).length + (encoded chars).length := length_encoded_append before chars
  -- all characters from `before` to `after` are counted in two ways
  have hinside : charsBetween 0 (encoded before).length (encoded (before ++ chars)).length
      (line.toList ++ past) = chars.length := by
    rw [hline, charsBetween_append, charsBetween_append, charsBetween_eq_zero (.inl (by omega)),
      charsBetween_eq_length (by omega) (by omega), charsBetween_eq_zero (.inr (by omega))]
    omega
  have hwhole := congrArg (fun cs => (encoded cs).length) hline
  simp only [length_encoded_append, length_encoded_narrow hnarrow] at hwhole
  rw [charsBetween_append, Nat.zero_add, charsBetween_narrow hnarrow (by omega)] at hinside
  have hchars := length_le_length_encoded chars
  rw [shownColumns, utf8ByteSize_eq]
  split
  · omega
  · exact hinside

theorem takeBytes?_encoded (front back : List Char) :
    takeBytes? (front ++ back) (encoded front).length = some front := by
  induction front with
  | nil => simp [encoded, takeBytes?]
  | cons c front ih =>
      have hpos := c.utf8Size_pos
      have hsize := length_encoded_cons c front
      obtain ⟨n, hn⟩ : ∃ n, (encoded (c :: front)).length = n + 1 :=
        Nat.exists_eq_add_one.mpr (by omega)
      have hrest : n + 1 - c.utf8Size = (encoded front).length := by omega
      rw [hn, List.cons_append, takeBytes?, if_pos (by omega), hrest, ih]
      rfl

/-- A tab for a tab and a space for any other character. -/
def blanks (cs : List Char) : List Char := cs.map fun c => if c = '\t' then '\t' else ' '

/-- The margin has a blank for every character before a place of the line. -/
theorem margin_encoded {line : String} {past before after : List Char}
    (hpast : ∀ c ∈ past, c.utf8Size = 1 ∧ c ≠ '\t') (hline : line.toList ++ past = before ++ after) :
    margin line (encoded before).length = blanks before := by
  simp only [margin, utf8ByteSize_eq]
  rcases List.append_eq_append_iff.mp hline with ⟨beyond, rfl, rfl⟩ | ⟨more, hmore, _⟩
  · -- the place lies past the line, by characters that are no tabs
    have hbeyond : ∀ c ∈ beyond, c.utf8Size = 1 ∧ c ≠ '\t' :=
      fun c hc => hpast c (List.mem_append_left _ hc)
    have hblanks : List.replicate beyond.length ' ' = blanks beyond := by
      rw [blanks, List.map_congr_left fun c hc => if_neg (hbeyond c hc).2, List.map_const']
    have hwhole := takeBytes?_encoded line.toList []
    rw [List.append_nil] at hwhole
    rw [length_encoded_append, Nat.min_eq_right (Nat.le_add_right _ _), hwhole,
      Nat.add_sub_cancel_left, length_encoded_narrow fun c hc => (hbeyond c hc).1, hblanks]
    simp [blanks]
  · have hsize : (encoded before).length ≤ (encoded line.toList).length := by
      rw [hmore, length_encoded_append]
      exact Nat.le_add_right _ _
    rw [Nat.min_eq_left hsize, Nat.sub_eq_zero_of_le hsize, hmore, takeBytes?_encoded]
    simp [blanks]

/-! ### The line of a token -/

/-- A line is shown without the carriage return and the line break that end it. -/
theorem exists_dropReturn (line : List Char) : ∃ past, dropReturn line ++ past = line ++ ['\n'] ∧
    ∀ c ∈ past, c.utf8Size = 1 ∧ c ≠ '\t' := by
  have hreturn : '\r'.utf8Size = 1 ∧ '\r' ≠ '\t' := by decide
  have hbreak : '\n'.utf8Size = 1 ∧ '\n' ≠ '\t' := by decide
  unfold dropReturn
  split
  case isTrue h =>
    refine ⟨['\r', '\n'], ?_, by simp [hreturn, hbreak]⟩
    obtain ⟨front, rfl⟩ := List.getLast?_eq_some_iff.mp h
    simp
  case isFalse => exact ⟨['\n'], rfl, by simp [hbreak]⟩

namespace Token.Stands

variable {t : Token} {file : Nat} {front : List Char}

/-- A token that ends on the line on which it starts has no line break, except perhaps at its end. -/
theorem break_notMem_dropLast (h : t.Stands file front)
    (hline : t.span.start.line = t.span.last.line) : '\n' ∉ t.text.toList.dropLast := by
  obtain ⟨init, c, htext, hlast⟩ := h.exists_concat
  have hcount : (encoded front).count breakByte =
      (encoded (front ++ init) ++ leading c).count breakByte := by
    rw [h.start, hlast] at hline
    exact hline
  rw [List.count_append, List.count_eq_zero_of_not_mem (breakByte_notMem_leading c),
    count_encoded, count_encoded, List.count_append] at hcount
  rw [htext, List.dropLast_concat]
  exact List.count_eq_zero.mp (by omega)

theorem column_start (h : t.Stands file front) :
    t.span.start.column = (encoded (front.rtakeWhile (· ≠ '\n'))).length := by
  rw [h.start, ← lastLine_encoded]
  rfl

/-- The column of the last byte, if the token ends on the line on which it starts. -/
theorem column_last (h : t.Stands file front) (hline : t.span.start.line = t.span.last.line) :
    t.span.last.column + 1 =
      (encoded (front.rtakeWhile (· ≠ '\n') ++ t.text.toList)).length := by
  have hbreak := h.break_notMem_dropLast hline
  obtain ⟨init, c, htext, hlast⟩ := h.exists_concat
  rw [htext, List.dropLast_concat] at hbreak
  have hlastLine : lastLine (encoded (front ++ init) ++ leading c) =
      encoded (front.rtakeWhile (· ≠ '\n')) ++ encoded init ++ leading c := by
    rw [lastLine_append_of_notMem (breakByte_notMem_leading c), encoded_append,
      lastLine_append_of_notMem (breakByte_notMem_encoded hbreak), lastLine_encoded]
  have hpos := c.utf8Size_pos
  have hcolumn : t.span.last.column = (lastLine (encoded (front ++ init) ++ leading c)).length := by
    rw [hlast]
    rfl
  rw [hcolumn, hlastLine, htext, List.length_append, List.length_append, Scan.length_leading,
    length_encoded_append, length_encoded_append, length_encoded_single]
  omega

theorem column_le (h : t.Stands file front) (hline : t.span.start.line = t.span.last.line) :
    t.span.start.column ≤ t.span.last.column := by
  have hlast := h.column_last hline
  have hlength := length_le_length_encoded t.text.toList
  have hpos := List.length_pos_iff.mpr h.nonempty
  rw [length_encoded_append] at hlast
  rw [h.column_start]
  omega

end Token.Stands

/-- Text without a line break, except perhaps at its end, lies on the first line with the line break that
ends it. -/
theorem exists_firstLine_append {chars : List Char} (h : '\n' ∉ chars.dropLast) (after : List Char) :
    ∃ rest, firstLine (chars ++ after) ++ ['\n'] = chars ++ rest := by
  induction chars with
  | nil => exact ⟨firstLine after ++ ['\n'], rfl⟩
  | cons c chars ih =>
      by_cases hc : c = '\n'
      · -- the line break is the last character
        cases chars with
        | nil => exact ⟨[], by rw [hc]; rfl⟩
        | cons d chars => exact absurd (List.mem_cons_self ..) (hc ▸ h)
      · have htail : '\n' ∉ chars.dropLast := by
          intro hmem
          cases chars with
          | nil => cases hmem
          | cons d chars => exact h (List.mem_cons_of_mem _ hmem)
        obtain ⟨rest, hrest⟩ := ih htail
        refine ⟨rest, ?_⟩
        rw [List.cons_append, firstLine_cons_of_ne hc, List.cons_append, hrest, List.cons_append]

/-- An error about a part of a line that points at its start. -/
theorem render_error {s : Span} {files : Listing} {name line : String}
    (hone : s.isSingleLine = true) (hcolumns : s.start.column ≤ s.last.column)
    (hname : files.name? s.start.file = some name)
    (hline : files.line? s.start.file s.start.line = some line) (text : String) :
    (Message.error s text).render files =
      name ++ " " ++ toString (following s.start.line) ++ ":" ++
        toString (shownColumns line 0 s.start.column + 1) ++ " Error: " ++ text ++ "\n" ++ line ++
        "\n" ++ String.ofList (margin line s.start.column ++
          '^' :: List.replicate (shownColumns line s.start.column (s.last.column + 1) - 1) '~') := by
  have hfile : s.isSingleFile = true := (Bool.and_eq_true_iff.mp hone).1
  have hheader : (Message.error s text).header files =
      name ++ " " ++ toString (following s.start.line) ++ ":" ++
        toString (shownColumns line 0 s.start.column + 1) ++ " Error: " ++ text := by
    simp only [Message.header, Message.error, hname, hline, Option.getD_some]
    simp [toString, String.append_assoc, Named.name]
  have hbefore : shownColumns line s.start.column s.start.column = 0 := if_pos le_rfl
  simp only [Message.render, hheader]
  simp [Message.error, hone, hfile, hline, Nat.min_eq_left hcolumns, Message.underline, hbefore,
    String.append_assoc]

/-- **The underline stands under the token.**  An error about a token that ends on the line on which it
starts is shown as a header, the line and the underline.  The header gives the line, counted from one,
and the number of characters before the token on it, plus one.  The underline is a blank for each of
these, a tab where the line has a tab, then a caret and tildes, one mark for each character of the
token. -/
theorem render_underlines {map : SourceMap} {file : Nat} {f : SourceFile} {keep : ClassSet}
    {t : Token} (hfile : map.get? file = some f) (hsize : f.text.utf8ByteSize < UInt32.size)
    (ht : t ∈ Token.scan f.text (Point.fileStart file) keep)
    (hline : t.span.start.line = t.span.last.line) (text : String) :
    ∃ front back : List Char, f.text.toList = front ++ t.text.toList ++ back ∧
      (String.ofList front).utf8ByteSize = t.span.start.index ∧
      let before := front.rtakeWhile (· ≠ '\n')
      let line := dropReturn (before ++ firstLine (t.text.toList ++ back))
      (Message.error t.span text).render map.listing =
        f.name ++ " " ++ toString (front.count '\n' + 1) ++ ":" ++ toString (before.length + 1) ++
          " Error: " ++ text ++ "\n" ++ String.ofList line ++ "\n" ++
          String.ofList (blanks before ++ '^' :: List.replicate (t.text.length - 1) '~') ∧
      0 < t.text.length := by
  obtain ⟨front, back, htext, hstands⟩ := liesIn_of_mem_scan ht hsize
  refine ⟨front, back, htext, ?_, ?_⟩
  · rw [utf8ByteSize_eq, String.toList_ofList, hstands.start]
    rfl
  intro before line
  refine ⟨?_, ?_⟩
  · -- the token lies on the line, with what the line is shown without
    obtain ⟨rest, hrest⟩ :=
      exists_firstLine_append (hstands.break_notMem_dropLast hline) back
    obtain ⟨past, hpast, hnarrow⟩ := exists_dropReturn (before ++ firstLine (t.text.toList ++ back))
    have hshown : (String.ofList line).toList ++ past = before ++ (t.text.toList ++ rest) := by
      rw [String.toList_ofList, hpast, List.append_assoc, hrest]
    have hcolumns : shownColumns (String.ofList line) 0 t.span.start.column = before.length := by
      have hfront : (String.ofList line).toList ++ past = [] ++ before ++ (t.text.toList ++ rest) :=
        hshown
      rw [hstands.column_start]
      exact shownColumns_encoded (fun c hc => (hnarrow c hc).1) hfront
    have hmarks : shownColumns (String.ofList line) t.span.start.column (t.span.last.column + 1) =
        t.text.length := by
      rw [hstands.column_start, hstands.column_last hline, ← String.length_toList]
      rw [← List.append_assoc] at hshown
      exact shownColumns_encoded (fun c hc => (hnarrow c hc).1) hshown
    have hmargin : margin (String.ofList line) t.span.start.column = blanks before := by
      rw [hstands.column_start]
      exact margin_encoded hnarrow hshown
    have hstart : t.span.start.file = file ∧ t.span.start.line = front.count '\n' := by
      rw [hstands.start, ← count_encoded]
      exact ⟨rfl, rfl⟩
    have hlast : t.span.last.file = file := by
      rw [hstands.last]
      rfl
    have hone : t.span.isSingleLine = true := by
      simp [Span.isSingleLine, Span.isSingleFile, hstart, hlast, ← hline]
    have hname : map.listing.name? t.span.start.file = some f.name := by
      rw [hstart.1]
      exact congrArg (Option.map SourceFile.name) hfile
    have hline? : map.listing.line? t.span.start.file t.span.start.line =
        some (String.ofList line) := by
      rw [hstart.1, hstart.2]
      refine line?_of_get? hfile ?_
      rw [htext, List.append_assoc]
    -- there are fewer lines than bytes, so their numbers do not start over
    have hnumber : following (front.count '\n') = front.count '\n' + 1 := by
      have hbytes : f.text.toList.length < UInt32.size :=
        (length_le_length_encoded _).trans_lt (utf8ByteSize_eq f.text ▸ hsize)
      have hword := List.length_pos_iff.mpr hstands.nonempty
      have hbreaks : front.count '\n' ≤ front.length := List.count_le_length
      rw [htext, List.length_append, List.length_append] at hbytes
      exact Nat.mod_eq_of_lt (by omega)
    rw [render_error hone (hstands.column_le hline) hname hline?, hcolumns, hmarks, hmargin, hstart.2,
      hnumber]
  · rw [← String.length_toList]
    exact List.length_pos_iff.mpr hstands.nonempty

/-- A tab and wide characters before a string that takes in the end of its line. -/
def returnSample : SourceFile := ⟨"wide", "x\n\té \"ü\r\n\" y"⟩

/-- The string of the sample. -/
def returnToken : Token := ⟨.string, ⟨⟨0, 7, 1, 5⟩, ⟨0, 10, 1, 8⟩⟩, "ü\r\n"⟩

theorem render_underlines_returnSample :
    returnSample.text.utf8ByteSize < UInt32.size ∧
      returnToken ∈ Token.scan returnSample.text (Point.fileStart 0) ClassSet.withoutComments ∧
      returnToken.span.start.line = returnToken.span.last.line ∧
      let shown := (Message.error returnToken.span "odd").render (SourceMap.listing ⟨[returnSample]⟩)
      shown = "wide 2:5 Error: odd\n\té \"ü\n\t   ^~~" ∧
        ∃ front back, returnSample.text.toList = front ++ returnToken.text.toList ++ back ∧
          (String.ofList front).utf8ByteSize = returnToken.span.start.index ∧
          let before := front.rtakeWhile (· ≠ '\n')
          let line := dropReturn (before ++ firstLine (returnToken.text.toList ++ back))
          shown = returnSample.name ++ " " ++ toString (front.count '\n' + 1) ++ ":" ++
              toString (before.length + 1) ++ " Error: " ++ "odd" ++ "\n" ++ String.ofList line ++
              "\n" ++ String.ofList (blanks before ++
                '^' :: List.replicate (returnToken.text.length - 1) '~') ∧
            0 < returnToken.text.length := by
  have hmem : returnToken ∈
      Token.scan returnSample.text (Point.fileStart 0) ClassSet.withoutComments := by
    decide +kernel
  exact ⟨by decide, hmem, rfl, by decide +kernel,
    render_underlines (show SourceMap.get? ⟨[returnSample]⟩ 0 = some returnSample from rfl)
      (by decide) hmem rfl "odd"⟩

end Shading
