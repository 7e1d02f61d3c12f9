import Shading.Proofs.Message.Underline

/-! # The line that a point stands on

The line of a point is counted while bytes go by, one further with each line break.  The text of a line is
found by splitting the whole text.  The two meet at every byte offset (`lookup_advanced`): the line that is
found is there, and it starts as many bytes before the offset as the column of the point says.

An offset may lie within a character.  What matters is that the bytes of a character up to there are no line
break and still belong to the line (`exists_cut`), so that lines can be found by characters. -/

namespace Shading

open Scan (encoded encoded_append length_encoded_append length_encoded_single)

/-- The byte of a carriage return. -/
def returnByte : UInt8 := 0x0d

/-- A line within the bytes of a text: what stands before it, the line without its end, the carriage
return that may belong to the end, and what follows. -/
structure LineAt (bytes before : List UInt8) (line : String) (ending after : List UInt8) : Prop where
  text : bytes = before ++ Text.utf8Bytes line ++ ending ++ after
  start : before = [] ∨ before.getLast? = some breakByte
  unbroken : breakByte ∉ Text.utf8Bytes line ++ ending
  ending : ending = [returnByte] ∨ ending = [] ∧ line.toList.getLast? ≠ some '\r'
  stop : after = [] ∨ after.head? = some breakByte

/-! ### Cutting at a byte -/

/-- Bytes at the front of a text are those of some characters and then a part of the line that goes on
there, without a line break. -/
theorem exists_cut (cs : List Char) {i : Nat} (hi : i ≤ (encoded cs).length) :
    ∃ (front back : List Char) (part more : List UInt8), cs = front ++ back ∧
      (encoded cs).take i = encoded front ++ part ∧ encoded (firstLine back) = part ++ more := by
  induction cs generalizing i with
  | nil =>
      refine ⟨[], [], [], [], rfl, ?_, rfl⟩
      exact List.take_nil
  | cons c cs ih =>
      have hbytes : encoded (c :: cs) = encoded [c] ++ encoded cs := encoded_append [c] cs
      have hsize := length_encoded_single c
      by_cases hbehind : c.utf8Size ≤ i
      · rw [hbytes, List.length_append, hsize] at hi
        obtain ⟨front, back, part, more, rfl, htake, hline⟩ := ih (i := i - c.utf8Size) (by omega)
        refine ⟨c :: front, back, part, more, rfl, ?_, hline⟩
        have hfront : encoded (c :: front) = encoded [c] ++ encoded front := encoded_append [c] front
        rw [hbytes, List.take_append, hsize, List.take_of_length_le (by omega), htake, hfront,
          List.append_assoc]
      · -- the offset lies before the character or within it
        refine ⟨[], c :: cs, (encoded [c]).take i, ?_⟩
        by_cases hc : c = '\n'
        · have hzero : i = 0 := by
            rw [hc] at hbehind
            exact Nat.lt_one_iff.mp (Nat.not_le.mp hbehind)
          rw [hzero]
          exact ⟨_, rfl, rfl, rfl⟩
        · refine ⟨(encoded [c]).drop i ++ encoded (firstLine cs), rfl, ?_, ?_⟩
          · rw [hbytes, List.take_append_of_le_length (by omega)]
            rfl
          · rw [firstLine_cons_of_ne hc, ← List.append_assoc, List.take_append_drop]
            exact encoded_append [c] _

theorem break_notMem_firstLine (cs : List Char) : '\n' ∉ firstLine cs := by
  intro h
  simpa using List.mem_takeWhile_imp h

theorem break_notMem_rtakeWhile (cs : List Char) : '\n' ∉ cs.rtakeWhile (· ≠ '\n') := by
  intro h
  simpa using List.mem_rtakeWhile_imp h

/-! ### Lines -/

/-- What the end of a line is apart from the line break. -/
theorem exists_ending (chars : List Char) : ∃ ending : List Char,
    chars = dropReturn chars ++ ending ∧
      (ending = ['\r'] ∨ ending = [] ∧ (dropReturn chars).getLast? ≠ some '\r') := by
  unfold dropReturn
  split
  case isTrue hlast =>
    exact ⟨['\r'], (List.dropLast_append_getLast? '\r' hlast).symm, .inl rfl⟩
  case isFalse hlast => exact ⟨[], (List.append_nil chars).symm, .inr ⟨rfl, hlast⟩⟩

theorem encoded_getLast? {cs : List Char} (h : cs.getLast? = some '\n') :
    (encoded cs).getLast? = some breakByte := by
  rw [← List.dropLast_append_getLast? '\n' h, encoded_append, encoded_break]
  exact List.getLast?_concat

/-- The line around a place between characters. -/
theorem exists_lineAt (front back : List Char) :
    let before := encoded (front.rdropWhile (· ≠ '\n'))
    let line := String.ofList (dropReturn (front.rtakeWhile (· ≠ '\n') ++ firstLine back))
    ∃ ending after, LineAt (encoded (front ++ back)) before line ending after ∧
      before ++ Text.utf8Bytes line ++ ending = encoded (front ++ firstLine back) := by
  intro before line
  have hfront : front.rdropWhile (· ≠ '\n') ++ front.rtakeWhile (· ≠ '\n') = front :=
    List.rdropWhile_append_rtakeWhile ..
  have hback : firstLine back ++ back.dropWhile (· ≠ '\n') = back := List.takeWhile_append_dropWhile
  obtain ⟨ending, hending, hreturn⟩ :=
    exists_ending (front.rtakeWhile (· ≠ '\n') ++ firstLine back)
  have hline : Text.utf8Bytes line ++ encoded ending =
      encoded (front.rtakeWhile (· ≠ '\n') ++ firstLine back) := by
    rw [Scan.utf8Bytes_eq_encoded, String.toList_ofList, ← encoded_append, ← hending]
  have hwhole : before ++ Text.utf8Bytes line ++ encoded ending =
      encoded (front ++ firstLine back) := by
    rw [List.append_assoc, hline, ← encoded_append, ← List.append_assoc, hfront]
  refine ⟨encoded ending, encoded (back.dropWhile (· ≠ '\n')), ⟨?_, ?_, ?_, ?_, ?_⟩, hwhole⟩
  · rw [hwhole, ← encoded_append, List.append_assoc, hback]
  · by_cases hnil : front.rdropWhile (· ≠ '\n') = []
    · exact .inl (congrArg encoded hnil)
    · -- what is dropped from the right ends where the last break is met
      have hlast := List.rdropWhile_last_not (· ≠ '\n') front hnil
      refine .inr (encoded_getLast? ?_)
      rw [List.getLast?_eq_some_getLast hnil]
      simpa using hlast
  · rw [hline]
    refine breakByte_notMem_encoded fun hmem => ?_
    rcases List.mem_append.mp hmem with h | h
    · exact break_notMem_rtakeWhile front h
    · exact break_notMem_firstLine back h
  · rw [String.toList_ofList]
    rcases hreturn with rfl | ⟨rfl, hlast⟩
    · exact .inl (by decide)
    · exact .inr ⟨rfl, hlast⟩
  · cases hafter : back.dropWhile (· ≠ '\n') with
    | nil => exact .inl rfl
    | cons c rest =>
        have hc := List.head?_dropWhile_not (· ≠ '\n') back
        rw [hafter] at hc
        obtain rfl : c = '\n' := by simpa using hc
        exact .inr rfl

/-! ### Points -/

/-- A text before its last line, and its last line. -/
theorem rdropWhile_break (cs : List Char) :
    (encoded (cs.rdropWhile (· ≠ '\n'))).length + (encoded (cs.rtakeWhile (· ≠ '\n'))).length =
        (encoded cs).length ∧
      (cs.rdropWhile (· ≠ '\n')).count '\n' = cs.count '\n' := by
  have hsplit : cs.rdropWhile (· ≠ '\n') ++ cs.rtakeWhile (· ≠ '\n') = cs :=
    List.rdropWhile_append_rtakeWhile ..
  constructor
  · rw [← length_encoded_append, hsplit]
  · conv_rhs => rw [← hsplit]
    rw [List.count_append, List.count_eq_zero_of_not_mem (break_notMem_rtakeWhile cs), Nat.add_zero]

namespace Point

/-- The point behind characters and a part of the line that goes on there. -/
theorem behind_encoded_append {file : Nat} {front : List Char} {part : List UInt8}
    (h : breakByte ∉ part) :
    behind file (encoded front ++ part) = ⟨file, (encoded front).length + part.length,
      front.count '\n', (encoded (front.rtakeWhile (· ≠ '\n'))).length + part.length⟩ := by
  rw [behind, List.length_append, List.count_append, count_encoded, List.count_eq_zero_of_not_mem h,
    lastLine_append_of_notMem h, lastLine_encoded, List.length_append, Nat.add_zero]

/-- Over bytes from the start of a file. -/
theorem advanced_fileStart {file : Nat} {front : List UInt8} (h : front.length < UInt32.size) :
    (fileStart file).advanced front = behind file front :=
  @advanced_behind file [] front h

end Point

/-- **Points and lines agree.**  Let a text of less than 32 bits' length be a file of the run, and let a
point be reached from the start of the file over the first `i` bytes of it.  Then the line of the point is
found.  It starts in the text as many bytes before `i` as the column of the point says, behind as many line
breaks as the line of the point says, and ends at `i` or later.  It is what stands there up to the next line
break or the end of the text, without a carriage return at its end. -/
theorem lookup_advanced {map : SourceMap} {file : Nat} {f : SourceFile} (hfile : map.get? file = some f)
    (hsize : f.text.utf8ByteSize < UInt32.size) {i : Nat} (hi : i ≤ f.text.utf8ByteSize) :
    let p := (Point.fileStart file).advanced ((Text.utf8Bytes f.text).take i)
    ∃ (line : String) (before ending after : List UInt8),
      map.line? file p.line = some line ∧ p.column ≤ i ∧ before.length = i - p.column ∧
      LineAt (Text.utf8Bytes f.text) before line ending after ∧ before.count breakByte = p.line ∧
      i ≤ (before ++ Text.utf8Bytes line ++ ending).length := by
  intro p
  rw [utf8ByteSize_eq] at hsize hi
  obtain ⟨front, back, part, more, htext, htake, hpart⟩ := exists_cut f.text.toList hi
  have hlength : (encoded front ++ part).length = i := by
    rw [← htake, List.length_take_of_le hi]
  have hbreak : breakByte ∉ part := fun hmem =>
    breakByte_notMem_encoded (break_notMem_firstLine back) (hpart ▸ List.mem_append_left more hmem)
  have hp : p = ⟨file, (encoded front).length + part.length, front.count '\n',
      (encoded (front.rtakeWhile (· ≠ '\n'))).length + part.length⟩ := by
    show (Point.fileStart file).advanced ((Text.utf8Bytes f.text).take i) = _
    rw [Scan.utf8Bytes_eq_encoded, htake, Point.advanced_fileStart (by omega),
      Point.behind_encoded_append hbreak]
  obtain ⟨hbefore, hcount⟩ := rdropWhile_break front
  obtain ⟨ending, after, hline, hwhole⟩ := exists_lineAt front back
  rw [List.length_append] at hlength
  simp only [hp, htext, Scan.utf8Bytes_eq_encoded f.text]
  refine ⟨_, _, ending, after, line?_of_get? hfile htext, by omega, by omega, hline, ?_, ?_⟩
  · rw [count_encoded, hcount]
  · rw [hwhole, length_encoded_append, hpart, List.length_append]
    omega

/-- The second file of a run, with a line that ends in two carriage returns, an empty last line and a wide
character. -/
def returnFiles : SourceMap := ⟨[⟨"first", ""⟩, ⟨"second", "a\n€\r\r\n"⟩]⟩

/-- The point within the wide character, and the one at the end of the text. -/
theorem lookup_advanced_returnFiles :
    (Point.fileStart 1).advanced ((Text.utf8Bytes "a\n€\r\r\n").take 4) = ⟨1, 4, 1, 2⟩ ∧
      (∃ (line : String) (before ending after : List UInt8),
        returnFiles.line? 1 1 = some line ∧ before.length = 4 - 2 ∧
        LineAt (Text.utf8Bytes "a\n€\r\r\n") before line ending after) ∧
      ∃ (line : String) (before ending after : List UInt8),
        returnFiles.line? 1 2 = some line ∧ before.length = 8 - 0 ∧
        LineAt (Text.utf8Bytes "a\n€\r\r\n") before line ending after := by
  have hinside : (Point.fileStart 1).advanced ((Text.utf8Bytes "a\n€\r\r\n").take 4) =
      ⟨1, 4, 1, 2⟩ := by decide +kernel
  have hend : (Point.fileStart 1).advanced ((Text.utf8Bytes "a\n€\r\r\n").take 8) =
      ⟨1, 8, 2, 0⟩ := by decide +kernel
  have hat := fun i hi => @lookup_advanced returnFiles 1 ⟨"second", "a\n€\r\r\n"⟩ rfl (by decide) i hi
  refine ⟨hinside, ?_, ?_⟩
  · obtain ⟨line, before, ending, after, hline, _, hlength, hlineAt, _⟩ := hat 4 (by decide)
    rw [hinside] at hline hlength
    exact ⟨line, before, ending, after, hline, hlength, hlineAt⟩
  · obtain ⟨line, before, ending, after, hline, _, hlength, hlineAt, _⟩ := hat 8 (by decide)
    rw [hend] at hline hlength
    exact ⟨line, before, ending, after, hline, hlength, hlineAt⟩

end Shading
