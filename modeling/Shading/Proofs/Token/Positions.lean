import Shading.Proofs.Token.Coverage
import Shading.Proofs.Token.LongestMatch

/-! # Positions of tokens

A text is cut into pieces by the automaton alone (`cut`), without a thought of where it stands: all that
matters is whether it begins a line.  The scanner counts positions while it reads.  `placed` gives each
piece the points that one reaches byte by byte from the start of the text (`Point.advanced`), and the
tokens of a scan are the placed pieces (`scan_eq_placed`). -/

namespace Shading

open Scan (encoded encoded_append length_encoded_single)

/-! ### Line breaks among bytes -/

theorem encoded_break : encoded ['\n'] = [breakByte] := by decide

theorem breakByte_notMem_encoded {cs : List Char} (h : '\n' ∉ cs) : breakByte ∉ encoded cs := by
  intro hmem
  obtain ⟨c, hc, hbyte⟩ := List.mem_flatMap.mp hmem
  refine breakByte_notMem_of_ne ?_ hbyte
  rintro rfl
  exact h hc

theorem breakByte_notMem_leading (c : Char) : breakByte ∉ leading c := by
  by_cases hc : c = '\n'
  · rw [hc]
    decide
  · exact fun hmem => breakByte_notMem_of_ne hc (List.dropLast_subset _ hmem)

theorem dropLast_encoded_concat (cs : List Char) (c : Char) :
    (encoded (cs ++ [c])).dropLast = encoded cs ++ leading c := by
  rw [encoded_append, Scan.encoded_single,
    List.dropLast_append_of_ne_nil (Scan.utf8EncodeChar_ne_nil c), leading]

/-! ### Points -/

namespace Point

theorem advanced_append (p : Point) (front more : List UInt8) :
    p.advanced (front ++ more) = (p.advanced front).advanced more := List.foldl_append

theorem foldl_after_eq_advanced (p : Point) (cs : List Char) :
    cs.foldl after p = p.advanced (encoded cs) := by
  induction cs generalizing p with
  | nil => rfl
  | cons c cs ih =>
      have hsplit : encoded (c :: cs) = String.utf8EncodeChar c ++ encoded cs := List.flatMap_cons
      rw [List.foldl_cons, ih, after, hsplit, advanced_append]

end Point

namespace Scan

/-! ### Pieces without places -/

/-- A piece of a text: the class of the token that it makes, if it makes one, and its characters. -/
structure Piece where
  kind? : Option TokenClass
  word : List Char
deriving DecidableEq, Repr

/-- The pieces of a text from within the one that the scanner reads in state `s`, of which it has read
`chars`, the latest first. -/
def cutFrom (s : ScanState) (chars : List Char) : List Char → List Piece
  | [] => [⟨s.tokenClass?, chars.reverse⟩]
  | c :: cs =>
    match step s c with
    | .grow t => cutFrom t (c :: chars) cs
    | .fresh t => ⟨s.tokenClass?, chars.reverse⟩ :: cutFrom t [c] cs

/-- The pieces of a text. -/
def cut (lineStart : Bool) : List Char → List Piece
  | [] => []
  | c :: cs => cutFrom (opening lineStart c) [c] cs

theorem flatMap_word_cutFrom (s : ScanState) (chars cs : List Char) :
    (cutFrom s chars cs).flatMap Piece.word = chars.reverse ++ cs := by
  fun_induction cutFrom s chars cs with
  | case1 s chars => simp
  | case2 s chars c cs t hstep ih => simp [ih]
  | case3 s chars c cs t hstep ih => simp [ih]

/-- Nothing of the text is lost between the pieces. -/
theorem flatMap_word_cut (lineStart : Bool) (cs : List Char) :
    (cut lineStart cs).flatMap Piece.word = cs := by
  cases cs with
  | nil => rfl
  | cons c cs => exact flatMap_word_cutFrom _ _ _

/-- No piece is empty. -/
theorem word_ne_nil_of_mem_cutFrom {s : ScanState} {chars cs : List Char} (h : chars ≠ []) :
    ∀ p ∈ cutFrom s chars cs, p.word ≠ [] := by
  have hreverse : chars.reverse ≠ [] := fun hnil => h (List.reverse_eq_nil_iff.mp hnil)
  fun_induction cutFrom s chars cs with
  | case1 s chars => simpa using hreverse
  | case2 s chars c cs t hstep ih => exact ih (List.cons_ne_nil _ _) (by simp)
  | case3 s chars c cs t hstep ih =>
      exact List.forall_mem_cons.mpr ⟨hreverse, ih (List.cons_ne_nil _ _) (by simp)⟩

theorem word_ne_nil_of_mem_cut {lineStart : Bool} {cs : List Char} {p : Piece}
    (h : p ∈ cut lineStart cs) : p.word ≠ [] := by
  cases cs with
  | nil => cases h
  | cons c cs => exact word_ne_nil_of_mem_cutFrom (List.cons_ne_nil _ _) p h

example : cut true "#a\n\"b \"1.".toList =
    [⟨some .directive, ['#', 'a']⟩, ⟨none, ['\n']⟩, ⟨none, ['"']⟩, ⟨some .string, ['b', ' ']⟩,
      ⟨none, ['"']⟩, ⟨some .float, ['1', '.']⟩] := by decide

/-! ### Placing pieces -/

/-- The token of a piece behind the bytes `front` of a text, if it makes one of a wanted class.  Its
span goes from its first to its last byte. -/
def Piece.tokens (keep : ClassSet) (start : Point) (front : List UInt8) (p : Piece) : List Token :=
  match p.kind? with
  | some kind =>
    if keep.contains kind then
      [⟨kind, ⟨start.advanced front, start.advanced (front ++ (encoded p.word).dropLast)⟩,
        String.ofList p.word⟩]
    else []
  | none => []

/-- The tokens of pieces that lie end to end behind the bytes `front` of a text. -/
def placed (keep : ClassSet) (start : Point) (front : List UInt8) : List Piece → List Token
  | [] => []
  | p :: ps => p.tokens keep start front ++ placed keep start (front ++ encoded p.word) ps

/-- The scanner has counted right for the token that it reads. -/
structure Pending.Counted (p : Pending) (start : Point) (front : List UInt8) : Prop where
  nonempty : p.chars ≠ []
  first : p.start = start.advanced front
  last : p.last = start.advanced (front ++ (encoded p.word).dropLast)

theorem Pending.Counted.finish {p : Pending} {start : Point} {front : List UInt8}
    (h : p.Counted start front) (keep : ClassSet) :
    p.finish keep = Piece.tokens keep start front ⟨p.state.tokenClass?, p.word⟩ := by
  obtain ⟨c, chars, hchars⟩ := List.exists_cons_of_ne_nil h.nonempty
  have hword : (c :: chars).reverse = p.word := by rw [← hchars, Pending.word]
  unfold Pending.finish Piece.tokens
  rw [hchars, ← h.first, ← h.last]
  cases p.state.tokenClass? with
  | none => rfl
  | some kind => simp only [hword]

/-- A token that grows by the character behind it is counted right. -/
theorem Pending.Counted.grow {p : Pending} {start here : Point} {front : List UInt8} {c : Char}
    (hfirst : p.start = start.advanced front)
    (hhere : here = start.advanced (front ++ encoded p.word)) (state : ScanState) :
    Pending.Counted ⟨state, p.start, here.lastByte c, c :: p.chars⟩ start front := by
  refine ⟨List.cons_ne_nil _ _, hfirst, ?_⟩
  rw [word_grow, dropLast_encoded_concat, ← List.append_assoc, Point.advanced_append, ← hhere]
  rfl

theorem after_eq_of_here {start here : Point} {front : List UInt8} {w : List Char}
    (hhere : here = start.advanced (front ++ encoded w)) (c : Char) :
    here.after c = start.advanced (front ++ encoded (w ++ [c])) := by
  rw [Point.after, hhere, encoded_append, encoded_single, ← List.append_assoc,
    ← Point.advanced_append]

/-- From a token that is counted right, the scanner hands out the placed pieces. -/
theorem scanFrom_eq_placed {start : Point} (keep : ClassSet) (p : Pending) (here : Point)
    (cs : List Char) : ∀ front, p.Counted start front →
      here = start.advanced (front ++ encoded p.word) →
      scanFrom keep p here cs = placed keep start front (cutFrom p.state p.chars cs) := by
  induction cs generalizing p here with
  | nil =>
      intro front hp _
      rw [scanFrom, cutFrom, placed, placed, List.append_nil, hp.finish, Pending.word]
  | cons c cs ih =>
      intro front hp hhere
      have hafter := after_eq_of_here hhere c
      rw [scanFrom, cutFrom]
      cases hstep : step p.state c with
      | grow t =>
          refine ih _ _ front (.grow hp.first hhere t) ?_
          rw [hafter, word_grow]
      | fresh t =>
          -- the new token is the empty one at `here`, grown by one character
          have hempty : here = start.advanced
              (front ++ encoded p.word ++ encoded (Pending.word ⟨t, here, here, []⟩)) := by
            rw [hhere]
            simp [Pending.word, encoded]
          have hfresh := Pending.Counted.grow (c := c) hhere hempty t
          have hlater : here.after c = start.advanced (front ++ encoded p.word ++ encoded [c]) := by
            rw [hafter, encoded_append, List.append_assoc]
          have hrest := ih ⟨t, here, here.lastByte c, [c]⟩ _ _ hfresh hlater
          dsimp only
          rw [placed, hrest, hp.finish]
          rfl

/-- The first character of a text begins a token. -/
theorem step_start (start : Point) (c : Char) :
    step (if start.column = 0 then .lineStart else .blank) c =
      .fresh (opening (decide (start.column = 0)) c) := by
  by_cases hcolumn : start.column = 0
  · rw [if_pos hcolumn, decide_eq_true hcolumn, step]
  · rw [if_neg hcolumn, decide_eq_false hcolumn, step]

/-- The tokens of a scan are the pieces of the text, each at the points that its bytes stand at. -/
theorem scan_eq_placed (text : String) (start : Point) (keep : ClassSet) :
    Token.scan text start keep =
      placed keep start [] (cut (decide (start.column = 0)) text.toList) := by
  rw [Token.scan_eq]
  cases text.toList with
  | nil => rfl
  | cons c cs =>
      have hempty (state : ScanState) : start =
          start.advanced ([] ++ encoded (Pending.word ⟨state, start, start, []⟩)) := rfl
      rw [scanFrom, step_start, cut]
      refine scanFrom_eq_placed keep _ _ cs [] (.grow rfl (hempty .blank) _) ?_
      exact after_eq_of_here (hempty .blank) c

/-! ### Tokens -/

/-- The classes and texts of tokens depend on the place of the text only through whether it is at the
start of a line. -/
theorem map_lexeme_scan_congr (text : String) {start other : Point} (keep : ClassSet)
    (h : start.column = 0 ↔ other.column = 0) :
    (Token.scan text start keep).map lexeme = (Token.scan text other keep).map lexeme := by
  have hkeep : (fun t : Token => keep.contains t.kind) =
      (fun l : TokenClass × List Char => keep.contains l.1) ∘ lexeme := rfl
  rw [scan_eq_filter, scan_eq_filter text other, hkeep, ← List.filter_map, ← List.filter_map,
    Token.scan_eq, Token.scan_eq, map_scanFrom, map_scanFrom]
  simp only [h]

theorem mem_placed {keep : ClassSet} {start : Point} {t : Token} {ps : List Piece} :
    ∀ {front : List UInt8}, t ∈ placed keep start front ps → ∃ before p after,
      ps = before ++ p :: after ∧
        t ∈ p.tokens keep start (front ++ encoded (before.flatMap Piece.word)) := by
  induction ps with
  | nil =>
      intro front ht
      cases ht
  | cons p ps ih =>
      intro front ht
      rcases List.mem_append.mp ht with ht | ht
      · exact ⟨[], p, ps, rfl, by simpa [encoded] using ht⟩
      · obtain ⟨before, q, after, rfl, ht⟩ := ih ht
        refine ⟨p :: before, q, after, rfl, ?_⟩
        rwa [List.flatMap_cons, encoded_append, ← List.append_assoc]

theorem Piece.mem_tokens {keep : ClassSet} {start : Point} {front : List UInt8} {p : Piece} {t : Token}
    (h : t ∈ p.tokens keep start front) :
    t.text.toList = p.word ∧ t.span.start = start.advanced front ∧
      t.span.last = start.advanced (front ++ (encoded p.word).dropLast) := by
  unfold Piece.tokens at h
  split at h
  · split at h
    · rw [List.mem_singleton.mp h]
      exact ⟨String.toList_ofList, rfl, rfl⟩
    · cases h
  · cases h

/-- A token of a text stands behind the characters before it. -/
theorem exists_advanced_of_mem_scan {text : String} {start : Point} {keep : ClassSet} {t : Token}
    (h : t ∈ Token.scan text start keep) :
    ∃ before after, text.toList = before ++ t.text.toList ++ after ∧ t.text.toList ≠ [] ∧
      t.span.start = start.advanced (encoded before) ∧
      t.span.last = start.advanced (encoded before ++ (encoded t.text.toList).dropLast) := by
  rw [scan_eq_placed] at h
  obtain ⟨before, p, after, hpieces, ht⟩ := mem_placed h
  obtain ⟨htext, hfirst, hlast⟩ := Piece.mem_tokens ht
  have hp : p ∈ cut (decide (start.column = 0)) text.toList := by
    rw [hpieces]
    exact List.mem_append_right before List.mem_cons_self
  rw [htext]
  refine ⟨before.flatMap Piece.word, after.flatMap Piece.word, ?_, word_ne_nil_of_mem_cut hp, hfirst,
    hlast⟩
  rw [← flatMap_word_cut (decide (start.column = 0)) text.toList, hpieces, List.flatMap_append,
    List.flatMap_cons, List.append_assoc]

/-- **Positions.**  The tokens of a text are the pieces that the automaton cuts it into, and the span of
each goes from the point that one reaches over the bytes before its first byte to the point that one
reaches over those before its last.  Their classes and texts do not depend on where the text stands,
but for whether it begins a line. -/
theorem scan_positions (text : String) (start : Point) (keep : ClassSet) :
    let pieces := cut (decide (start.column = 0)) text.toList
    pieces.flatMap Piece.word = text.toList ∧
      Token.scan text start keep = placed keep start [] pieces ∧
      (∀ t ∈ Token.scan text start keep, ∃ front after,
        Text.utf8Bytes text = front ++ Text.utf8Bytes t.text ++ after ∧
          t.span.start = start.advanced front ∧
          t.span.last = start.advanced (front ++ (Text.utf8Bytes t.text).dropLast)) ∧
      ∀ other : Point, (other.column = 0 ↔ start.column = 0) →
        (Token.scan text other keep).map lexeme = (Token.scan text start keep).map lexeme := by
  intro pieces
  refine ⟨flatMap_word_cut _ _, scan_eq_placed text start keep, ?_,
    fun other h => map_lexeme_scan_congr text keep h⟩
  intro t ht
  obtain ⟨before, after, htext, _, hfirst, hlast⟩ := exists_advanced_of_mem_scan ht
  rw [utf8Bytes_eq_encoded, utf8Bytes_eq_encoded, htext, encoded_append, encoded_append]
  exact ⟨encoded before, encoded after, rfl, hfirst, hlast⟩

/-- Within a line: wide characters, and line breaks within a string and a block comment. -/
def crossingSample : String := "\"é\n\"x /*\nø*/y\n#z"

theorem scan_positions_crossingSample :
    let start : Point := ⟨2, 7, 1, 3⟩
    let tokens := Token.scan crossingSample start (ClassSet.scanned false)
    tokens.map (fun t => (t.text, t.span.start, t.span.last)) =
        [("é\n", ⟨2, 8, 1, 4⟩, ⟨2, 10, 1, 6⟩), ("x", ⟨2, 12, 2, 1⟩, ⟨2, 12, 2, 1⟩),
          ("y", ⟨2, 21, 3, 4⟩, ⟨2, 21, 3, 4⟩), ("#z", ⟨2, 23, 4, 0⟩, ⟨2, 24, 4, 1⟩)] ∧
      (∀ t ∈ tokens, ∃ front after,
        Text.utf8Bytes crossingSample = front ++ Text.utf8Bytes t.text ++ after ∧
          t.span.start = start.advanced front ∧
          t.span.last = start.advanced (front ++ (Text.utf8Bytes t.text).dropLast)) ∧
      (Token.scan crossingSample ⟨0, 5, 0, 5⟩ (ClassSet.scanned false)).map lexeme =
        tokens.map lexeme := by
  intro start tokens
  obtain ⟨_, _, hspans, hlexemes⟩ := scan_positions crossingSample start (ClassSet.scanned false)
  exact ⟨by decide +kernel, hspans, hlexemes ⟨0, 5, 0, 5⟩ (by decide)⟩

end Scan

end Shading
