import Mathlib.Data.List.DropRight
import Shading.Proofs.Token.Positions

/-! # Places in a text

`Point.behind file front` is the point behind the bytes `front` at the front of a file: the line is
the number of line breaks among them, the column the number of bytes after the last one.  Stepping over
bytes goes from place to place (`Point.advanced_behind`), so every token starts and ends at the place of
its offset (`exists_stands_of_mem_scan`). -/

namespace Shading

open Scan (encoded encoded_append length_encoded_append countOn_eq)

/-- The bytes after the last line break. -/
def lastLine (front : List UInt8) : List UInt8 := front.rtakeWhile (· ≠ breakByte)

theorem lastLine_append_of_notMem {front more : List UInt8} (h : breakByte ∉ more) :
    lastLine (front ++ more) = lastLine front ++ more := by
  have hmore : ∀ b ∈ more.reverse, decide (b ≠ breakByte) = true := by
    intro b hb
    rw [decide_eq_true_eq]
    rintro rfl
    exact h (List.mem_reverse.mp hb)
  rw [lastLine, List.rtakeWhile, List.reverse_append, List.takeWhile_append_of_pos hmore,
    List.reverse_append, List.reverse_reverse]
  rfl

theorem lastLine_concat_break (front : List UInt8) : lastLine (front ++ [breakByte]) = [] :=
  List.rtakeWhile_concat_neg _ _ _ (by simp)

/-- The bytes after the last line break are those of the characters after it. -/
theorem lastLine_encoded (cs : List Char) :
    lastLine (encoded cs) = encoded (cs.rtakeWhile (· ≠ '\n')) := by
  induction cs using List.reverseRecOn with
  | nil => rfl
  | append_singleton cs c ih =>
      rw [encoded_append, List.rtakeWhile_concat]
      by_cases hc : c = '\n'
      · rw [if_neg (by simpa using hc), hc, encoded_break, lastLine_concat_break]
        rfl
      · have hbyte : breakByte ∉ encoded [c] :=
          breakByte_notMem_encoded fun h => hc (List.mem_singleton.mp h).symm
        rw [if_pos (by simpa using hc), lastLine_append_of_notMem hbyte, ih, encoded_append]

theorem count_encoded (cs : List Char) : (encoded cs).count breakByte = cs.count '\n' := by
  induction cs with
  | nil => rfl
  | cons c cs ih =>
      rw [← List.singleton_append, encoded_append, List.count_append, List.count_append, ih]
      by_cases hc : c = '\n'
      · rw [hc]
        rfl
      · have hchar : '\n' ∉ [c] := fun h => hc (List.mem_singleton.mp h).symm
        rw [List.count_eq_zero_of_not_mem hchar,
          List.count_eq_zero_of_not_mem (breakByte_notMem_encoded hchar)]

namespace Point

/-- The point behind the bytes at the front of a file. -/
def behind (file : Nat) (front : List UInt8) : Point :=
  ⟨file, front.length, front.count breakByte, (lastLine front).length⟩

theorem column_behind_le (file : Nat) (front : List UInt8) :
    (behind file front).column ≤ front.length :=
  (List.rtakeWhile_suffix _ _).length_le

/-- Going forward on a line. -/
theorem nextColumn_behind {file : Nat} {front : List UInt8} {byte : UInt8} (h : byte ≠ breakByte)
    (hroom : (front ++ [byte]).length < UInt32.size) :
    (behind file front).nextColumn = behind file (front ++ [byte]) := by
  have hcolumn := column_behind_le file front
  have hbreak : breakByte ∉ [byte] := fun hmem => h (List.mem_singleton.mp hmem).symm
  rw [List.length_append, List.length_singleton] at hroom
  unfold nextColumn
  rw [countOn_eq (show (behind file front).index + 1 < _ from hroom), countOn_eq (by omega)]
  simp [behind, lastLine_append_of_notMem hbreak, List.count_append,
    List.count_eq_zero_of_not_mem hbreak]

theorem nextLine_behind {file : Nat} {front : List UInt8} (hroom : front.length + 1 < UInt32.size) :
    (behind file front).nextLine = behind file (front ++ [breakByte]) := by
  have hline : front.count breakByte ≤ front.length := List.count_le_length
  have hindex : countOn (behind file front).index 1 = front.length + 1 := countOn_eq hroom
  have hcount : countOn (behind file front).line 1 = front.count breakByte + 1 :=
    countOn_eq (show front.count breakByte + 1 < _ by omega)
  unfold nextLine
  rw [hindex, hcount]
  simp [behind, lastLine_concat_break]

/-- Stepping over bytes goes from place to place. -/
theorem advanced_behind {file : Nat} {front more : List UInt8}
    (hroom : (front ++ more).length < UInt32.size) :
    (behind file front).advanced more = behind file (front ++ more) := by
  induction more generalizing front with
  | nil => rw [List.append_nil, advanced, List.foldl_nil]
  | cons b more ih =>
      have hsplit : front ++ b :: more = front ++ [b] ++ more := by simp
      have hhead : (front ++ [b]).length < UInt32.size := by
        rw [hsplit, List.length_append] at hroom
        omega
      have hstep : (behind file front).advance b = behind file (front ++ [b]) := by
        by_cases hb : b = breakByte
        · rw [List.length_append] at hhead
          rw [hb, ← nextLine_behind hhead]
          rfl
        · rw [← nextColumn_behind hb hhead]
          exact if_neg hb
      rw [hsplit] at hroom ⊢
      rw [← ih hroom, ← hstep]
      rfl

end Point

/-! ### Tokens -/

/-- The token stands in a file behind the characters `front`: its span goes from its first to its last
byte. -/
structure Token.Stands (t : Token) (file : Nat) (front : List Char) : Prop where
  start : t.span.start = Point.behind file (encoded front)
  last : t.span.last = Point.behind file (encoded (front ++ t.text.toList)).dropLast
  nonempty : t.text.toList ≠ []

/-- The span of a token, by its last character. -/
theorem Token.Stands.exists_concat {t : Token} {file : Nat} {front : List Char}
    (h : t.Stands file front) : ∃ init c, t.text.toList = init ++ [c] ∧
      t.span.last = Point.behind file (encoded (front ++ init) ++ leading c) := by
  obtain hnil | ⟨init, c, htext⟩ := List.eq_nil_or_concat' t.text.toList
  · exact absurd hnil h.nonempty
  · refine ⟨init, c, htext, ?_⟩
    rw [h.last, htext, ← List.append_assoc, dropLast_encoded_concat]

namespace Scan

/-- Every token of a text that follows `front` in a file stands behind the characters before it. -/
theorem exists_stands_of_mem_scan {file : Nat} {front : List Char} {text : String} {keep : ClassSet}
    {t : Token} (h : t ∈ Token.scan text (Point.behind file (encoded front)) keep)
    (hroom : (encoded (front ++ text.toList)).length < UInt32.size) :
    ∃ before after, text.toList = before ++ t.text.toList ++ after ∧
      t.Stands file (front ++ before) := by
  have hfront : (encoded front).length < UInt32.size := by
    rw [length_encoded_append] at hroom
    omega
  obtain ⟨before, after, htext, hne, hstart, hlast⟩ :=
    exists_advanced_of_mem_scan h
  have hnonempty : encoded t.text.toList ≠ [] := by
    obtain ⟨c, cs, hcs⟩ := List.exists_cons_of_ne_nil hne
    rw [hcs, ← List.length_pos_iff, length_encoded_cons]
    exact Nat.add_pos_left c.utf8Size_pos _
  have hlength : (encoded front ++ (encoded before ++ (encoded t.text.toList).dropLast)).length <
      UInt32.size := by
    rw [htext] at hroom
    simp only [length_encoded_append, List.length_append, List.length_dropLast] at hroom ⊢
    omega
  refine ⟨before, after, htext, ⟨?_, ?_, hne⟩⟩
  · rw [hstart, encoded_append, Point.advanced_behind]
    rw [← List.append_assoc, List.length_append] at hlength
    omega
  · rw [hlast, Point.advanced_behind hlength, encoded_append, encoded_append,
      List.dropLast_append_of_ne_nil hnonempty, List.append_assoc]

end Scan

/-- The token stands in the text of a file. -/
def Token.LiesIn (t : Token) (file : Nat) (text : String) : Prop :=
  ∃ front after, text.toList = front ++ t.text.toList ++ after ∧ t.Stands file front

theorem liesIn_of_mem_scan {text : String} {file : Nat} {keep : ClassSet} {t : Token}
    (h : t ∈ Token.scan text (Point.fileStart file) keep) (hsize : text.utf8ByteSize < UInt32.size) :
    t.LiesIn file text := by
  rw [← Scan.length_utf8Bytes, Scan.utf8Bytes_eq_encoded] at hsize
  have hmem : t ∈ Token.scan text (Point.behind file (encoded [])) keep := h
  exact Scan.exists_stands_of_mem_scan hmem hsize

namespace Scan

/-! ### Directives -/

theorem eq_of_grow_directive {s : ScanState} {c : Char} (h : step s c = .grow .directive) :
    s = .directive ∧ c ≠ '\n' := by
  cases s with
  | directive =>
      simp only [step] at h
      split_ifs at h with hc
      exact ⟨rfl, hc⟩
  | _ =>
      simp only [step, growIf] at h
      try split_ifs at h
      all_goals cases h

theorem state_of_mem_finish {keep : ClassSet} {p : Pending} {t : Token} (h : t ∈ p.finish keep)
    (hkind : t.kind = .directive) : p.state = .directive := by
  have hclass := tokenClass?_of_mem_finish h
  rw [hkind] at hclass
  revert hclass
  cases p.state <;> decide

theorem eq_of_fresh_directive {s : ScanState} {c : Char} (h : step s c = .fresh .directive) :
    c = '#' := by
  obtain ⟨_, _, hopening⟩ | ⟨_, _, hblank⟩ | ⟨_, hgrow⟩ := step_fresh_cases h
  · unfold opening at hopening
    split at hopening
    case h_6 =>
      split_ifs at hopening with _ _ hsign
      exact hsign.1
    all_goals cases hopening
  · cases hblank
  · cases (eq_of_grow_directive hgrow).1

/-- A directive is a number sign and the rest of its line. -/
theorem exists_body_of_mem_pieces {p : Pending} (hp : p.state ≠ .directive) (here : Point)
    (cs : List Char) : ∀ q ∈ pieces p here cs, q.state = .directive →
      ∃ body, q.word = '#' :: body ∧ '\n' ∉ body := by
  refine forall_pieces ?_ ?_ (fun h => absurd h hp) here cs
  · intro p here c state ih hstep hstate
    obtain rfl : state = .directive := hstate
    obtain ⟨hdirective, hc⟩ := eq_of_grow_directive hstep
    obtain ⟨body, hbody, hbreak⟩ := ih hdirective
    refine ⟨body ++ [c], ?_, ?_⟩
    · rw [← List.cons_append, ← hbody]
      simp [Pending.word]
    · simpa [hbreak] using Ne.symm hc
  · intro p here c state hstep hstate
    obtain rfl : state = .directive := hstate
    rw [eq_of_fresh_directive hstep]
    exact ⟨[], rfl, List.not_mem_nil⟩

theorem exists_body_of_mem_scan {text : String} {start : Point} {keep : ClassSet} {t : Token}
    (h : t ∈ Token.scan text start keep) (hkind : t.kind = .directive) :
    ∃ body, t.text.toList = '#' :: body ∧ '\n' ∉ body := by
  rw [Token.scan_eq, scanFrom_eq_flatMap_pieces] at h
  obtain ⟨q, hq, ht⟩ := List.mem_flatMap.mp h
  obtain ⟨_, _, htext⟩ := mem_finish ht
  rw [htext, String.toList_ofList]
  refine exists_body_of_mem_pieces ?_ _ _ q hq (state_of_mem_finish ht hkind)
  dsimp only
  split <;> decide

end Scan

end Shading
