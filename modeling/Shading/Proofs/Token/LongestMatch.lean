import Shading.Proofs.Token.Automaton
import Shading.Proofs.Token.Bytes

/-! # The scanner reads the longest match

A word that the scanner reads as one token (`reads`) is a word of the class of the state that it ends
in, and every word of a class is read so.  A token of the scanner ends only where it cannot grow, so it
is the longest match (`longest_iff`), and the tokens of a text are those of the lexical grammar
(`lexes_iff_scan`). -/

namespace Shading.Scan

open Lexicon (Matches Longest Lexes advance stringToken one many literally stringBody)

/-! ### Reading a word -/

/-- The state after the characters of a word, if the scanner reads them as one token. -/
def reads (lineStart : Bool) : List Char → Option ScanState
  | [] => none
  | c :: cs => grows (opening lineStart c) cs

/-- The word is read as one token of the class. -/
def ReadsAs (lineStart : Bool) (kind : TokenClass) (w : List Char) : Prop :=
  ∃ t, reads lineStart w = some t ∧ t.tokenClass? = some kind

/-! Each class has its words read so. -/

section

variable {lineStart : Bool} {w : List Char}

theorem readsAs_unknown (h : w ∈ Lexicon.words .unknown) : ReadsAs lineStart .unknown w := by
  obtain ⟨c, v, rfl, hc, hv⟩ := Lexicon.mem_one_mul.mp h
  refine ⟨.unknown, ?_, rfl⟩
  rw [reads, opening_foreign hc, grows_unknown]
  exact ⟨rfl, hv⟩

theorem readsAs_identifier (h : w ∈ Lexicon.words .identifier) : ReadsAs lineStart .identifier w := by
  obtain ⟨c, v, rfl, hc, hv⟩ := Lexicon.mem_one_mul.mp h
  refine ⟨.identifier, ?_, rfl⟩
  rw [reads, opening_letter hc, grows_identifier]
  exact ⟨rfl, hv⟩

/-- A number goes on as any other after its first digit, unless a letter gives the radix. -/
theorem grows_firstDigit_of_number {c : Char} {v : List Char}
    (h : c.isDigit = true ∨ ".eE".toList.contains c = true) :
    grows .firstDigit (c :: v) = grows .integer (c :: v) := by
  have hne : c ≠ 'b' ∧ c ≠ 'o' ∧ c ≠ 'd' ∧ c ≠ 'x' := by
    rw [isDigit_iff, List.contains_iff_mem] at h
    simp [char_eq_iff] at h ⊢
    omega
  rw [grows_firstDigit_cons, if_neg hne.1, if_neg hne.2.1, if_neg hne.2.2.1, if_neg hne.2.2.2]

theorem readsAs_integer (h : w ∈ Lexicon.words .integer) : ReadsAs lineStart .integer w := by
  obtain ⟨c, v, rfl, hc, hv⟩ := Lexicon.mem_one_mul.mp h
  rw [ReadsAs, reads, opening_digit hc]
  cases v with
  | nil => exact ⟨.firstDigit, rfl, rfl⟩
  | cons d v =>
      have hd : d.isDigit = true := Lexicon.mem_many.mp hv d List.mem_cons_self
      refine ⟨.integer, ?_, rfl⟩
      rw [grows_firstDigit_of_number (.inl hd), grows_integer]
      exact .inl ⟨rfl, hv⟩

theorem readsAs_float (h : w ∈ Lexicon.words .float) : ReadsAs lineStart .float w := by
  simp only [Lexicon.words, mul_assoc] at h
  obtain ⟨c, v, rfl, hc, hv⟩ := Lexicon.mem_one_mul.mp h
  -- the first character after the first digit is another digit or begins the fraction
  have hnumber : grows .firstDigit v = grows .integer v := by
    rcases Lexicon.mem_many_mul.mp hv with hv | hv
    · obtain ⟨d, u, rfl, hd, _⟩ := Lexicon.mem_one_mul.mp hv
      exact grows_firstDigit_of_number (.inr hd)
    · obtain ⟨d, u, rfl, hd, _⟩ := Lexicon.mem_one_mul.mp hv
      exact grows_firstDigit_of_number (.inl hd)
  refine ⟨.float, ?_, rfl⟩
  rw [reads, opening_digit hc, hnumber, grows_integer]
  exact .inr ⟨rfl, hv⟩

/-- Words that give their radix by a letter are read on in the state for the letter. -/
theorem reads_radix {letter : Char} {s t : ScanState} {l : Language Char}
    (hletter : ∀ v, grows .firstDigit (letter :: v) = grows s v) (hl : ∀ v ∈ l, grows s v = some t)
    (h : w ∈ one Char.isDigit * (one (· == letter) * l)) : reads lineStart w = some t := by
  obtain ⟨c, _, rfl, hc, hu⟩ := Lexicon.mem_one_mul.mp h
  obtain ⟨d, v, rfl, hd, hv⟩ := Lexicon.mem_one_mul.mp hu
  rw [beq_iff_eq.mp hd, reads, opening_digit hc, hletter, hl v hv]

theorem reads_radixInteger {letter : Char} {s : ScanState}
    (hletter : ∀ v, grows .firstDigit (letter :: v) = grows s v)
    (hs : ∀ c, step s c = growIf (isDigit c) s c) (h : w ∈ Lexicon.radixInteger letter) :
    reads lineStart w = some s := by
  rw [Lexicon.radixInteger, mul_assoc] at h
  exact reads_radix hletter (fun v hv => (grows_radix hs).mpr ⟨rfl, hv⟩) h

theorem readsAs_hexInteger (h : w ∈ Lexicon.words .hexInteger) : ReadsAs lineStart .hexInteger w := by
  simp only [Lexicon.words, Lexicon.hexInteger, mul_assoc] at h
  have hread : ∀ v ∈ many Lexicon.isHexDigit, grows .hexInteger v = some .hexInteger :=
    fun v hv => grows_hexInteger.mpr (.inl ⟨rfl, hv⟩)
  exact ⟨.hexInteger, reads_radix (fun _ => rfl) hread h, rfl⟩

theorem readsAs_hexFloat (h : w ∈ Lexicon.words .hexFloat) : ReadsAs lineStart .hexFloat w := by
  simp only [Lexicon.words, Lexicon.hexInteger, mul_assoc] at h
  exact ⟨.hexFloat, reads_radix (fun _ => rfl) (fun v hv => grows_hexInteger.mpr (.inr ⟨rfl, hv⟩)) h,
    rfl⟩

/-- A hash at the start of a line is no symbol. -/
theorem readsAs_symbol (h : w ∈ Lexicon.words .symbol) (hhash : ¬(lineStart = true ∧ w = ['#'])) :
    ReadsAs lineStart .symbol w := by
  obtain ⟨c, hc, rfl⟩ := h
  rw [ReadsAs, reads, opening_punctuation hc]
  by_cases hslash : c = '/'
  · rw [if_pos hslash]
    exact ⟨.slash, rfl, rfl⟩
  · have hline : ¬(c = '#' ∧ lineStart = true) := by
      rintro ⟨rfl, hstart⟩
      exact hhash ⟨hstart, rfl⟩
    rw [if_neg hslash, if_neg hline]
    exact ⟨.symbol, rfl, rfl⟩

theorem readsAs_directive (h : w ∈ Lexicon.words .directive) : ReadsAs true .directive w := by
  obtain ⟨v, rfl, hv⟩ := Lexicon.mem_literally_mul.mp h
  exact ⟨.directive, grows_directive.mpr ⟨rfl, hv⟩, rfl⟩

theorem readsAs_comment (h : w ∈ Lexicon.words .comment) : ReadsAs lineStart .comment w := by
  obtain ⟨v, rfl, hv⟩ := Lexicon.mem_literally_mul.mp h
  exact ⟨.comment, grows_comment.mpr ⟨rfl, hv⟩, rfl⟩

/-- Block comments are read in the state that they are in after their opening. -/
theorem readsAs_inBlock {inner : List Char} {t : ScanState} (h : InBlock inner t)
    (hkind : t.tokenClass? = some .blockComment) :
    ReadsAs lineStart .blockComment ("/*".toList ++ inner) :=
  ⟨t, grows_blockComment.mpr h, hkind⟩

theorem readsAs_closedComment (h : w ∈ Lexicon.closedComment) : ReadsAs lineStart .blockComment w := by
  obtain ⟨inner, rfl, hinner⟩ := h
  exact readsAs_inBlock (t := .blockEnd) ⟨inner, rfl, hinner⟩ rfl

theorem readsAs_openComment (h : w ∈ Lexicon.openComment) : ReadsAs lineStart .blockComment w := by
  obtain ⟨inner, rfl, hinner⟩ := h
  by_cases hstar : inner.getLast? = some '*'
  · exact readsAs_inBlock (t := .blockStar) ⟨hinner, hstar⟩ rfl
  · exact readsAs_inBlock (t := .blockComment) ⟨hinner, hstar⟩ rfl

end

/-- **Completeness.**  The words of a class are read as one token of the class. -/
theorem reads_of_matches {column : Nat} {kind : TokenClass} {w rest : List Char}
    (h : Matches column kind w rest) : ReadsAs (decide (column = 0)) kind w := by
  cases kind with
  | unknown => exact readsAs_unknown h
  | identifier => exact readsAs_identifier h
  | string => exact absurd h (Language.notMem_zero _)
  | integer => exact readsAs_integer h
  | binaryInteger => exact ⟨.binaryInteger, reads_radixInteger (fun _ => rfl) (fun _ => rfl) h, rfl⟩
  | octalInteger => exact ⟨.octalInteger, reads_radixInteger (fun _ => rfl) (fun _ => rfl) h, rfl⟩
  | decimalInteger => exact ⟨.decimalInteger, reads_radixInteger (fun _ => rfl) (fun _ => rfl) h, rfl⟩
  | hexInteger => exact readsAs_hexInteger h
  | float => exact readsAs_float h
  | hexFloat => exact readsAs_hexFloat h
  | symbol => exact readsAs_symbol h.1 fun hhash => h.2 ⟨of_decide_eq_true hhash.1, hhash.2⟩
  | directive =>
      rw [h.1]
      exact readsAs_directive h.2
  | comment => exact readsAs_comment h
  | blockComment =>
      rcases h with h | h
      · exact readsAs_closedComment h
      · exact readsAs_openComment h.1

/-- A block comment that is not closed does not stop before the end of the text. -/
theorem eq_nil_of_stops {t : ScanState} {rest : List Char} (h : Stops t rest)
    (ht : t = .blockComment ∨ t = .blockStar ∨ t = .escape) : rest = [] := by
  cases rest with
  | nil => rfl
  | cons c cs =>
      obtain ⟨r, hr⟩ := h c cs rfl
      rcases ht with rfl | rfl | rfl
      · simp only [step] at hr
        split at hr <;> cases hr
      · simp only [step] at hr
        split at hr
        · cases hr
        · split at hr <;> cases hr
      · cases hr

/-- What grows after a single digit is a number. -/
theorem matches_number {column : Nat} {kind : TokenClass} {t : ScanState} {c : Char}
    {v rest : List Char} (hc : c.isDigit = true) (h : grows .firstDigit v = some t)
    (hkind : t.tokenClass? = some kind) : Matches column kind (c :: v) rest := by
  cases v with
  | nil =>
      cases h
      cases hkind
      exact Lexicon.cons_mem_one_mul.mpr ⟨hc, Lexicon.mem_many.mpr fun d hd => by cases hd⟩
  | cons d u =>
      rw [grows_firstDigit_cons] at h
      split_ifs at h with hb ho hd hx
      · obtain ⟨rfl, hu⟩ := (grows_radix fun _ => rfl).mp h
        cases hkind
        simp [Matches, Lexicon.words, Lexicon.radixInteger, mul_assoc, hc, hb, hu]
      · obtain ⟨rfl, hu⟩ := (grows_radix fun _ => rfl).mp h
        cases hkind
        simp [Matches, Lexicon.words, Lexicon.radixInteger, mul_assoc, hc, ho, hu]
      · obtain ⟨rfl, hu⟩ := (grows_radix fun _ => rfl).mp h
        cases hkind
        simp [Matches, Lexicon.words, Lexicon.radixInteger, mul_assoc, hc, hd, hu]
      · rcases grows_hexInteger.mp h with ⟨rfl, hu⟩ | ⟨rfl, hu⟩
        · cases hkind
          simp only [Matches, Lexicon.words, Lexicon.hexInteger, mul_assoc,
            Lexicon.cons_mem_one_mul, beq_iff_eq]
          exact ⟨hc, hx, hu⟩
        · cases hkind
          simp only [Matches, Lexicon.words, Lexicon.hexInteger, mul_assoc,
            Lexicon.cons_mem_one_mul, beq_iff_eq]
          exact ⟨hc, hx, hu⟩
      · rcases grows_integer.mp h with ⟨rfl, hu⟩ | ⟨rfl, hu⟩
        · cases hkind
          exact Lexicon.cons_mem_one_mul.mpr ⟨hc, hu⟩
        · cases hkind
          simp only [Matches, Lexicon.words, mul_assoc, Lexicon.cons_mem_one_mul]
          exact ⟨hc, hu⟩

/-- What grows after a slash is a comment. -/
theorem matches_slash {column : Nat} {kind : TokenClass} {t : ScanState} {v rest : List Char}
    (h : grows .slash v = some t) (hkind : t.tokenClass? = some kind) (hstop : Stops t rest) :
    Matches column kind ('/' :: v) rest := by
  cases v with
  | nil =>
      cases h
      cases hkind
      exact ⟨⟨'/', by decide, rfl⟩, fun hhash => absurd hhash.2 (by decide)⟩
  | cons c u =>
      rw [grows_slash_cons] at h
      split_ifs at h with hslash hstar
      · obtain ⟨rfl, hu⟩ := grows_comment.mp h
        cases hkind
        rw [hslash]
        exact Lexicon.mem_literally_mul.mpr ⟨u, rfl, hu⟩
      · rw [grows_blockComment] at h
        rw [hstar]
        cases t with
        | blockComment =>
            cases hkind
            exact .inr ⟨⟨u, rfl, h.1⟩, eq_nil_of_stops hstop (by simp)⟩
        | blockStar =>
            cases hkind
            exact .inr ⟨⟨u, rfl, h.1⟩, eq_nil_of_stops hstop (by simp)⟩
        | blockEnd =>
            cases hkind
            obtain ⟨inner, rfl, hinner⟩ := h
            exact .inl ⟨inner, rfl, hinner⟩
        | _ => exact h.elim

/-- A state without a class does not grow, so it reads no word. -/
theorem not_grows_of_tokenClass? {s t : ScanState} {v : List Char} {kind : TokenClass}
    (hs : s.tokenClass? = none) (h : grows s v = some t) : t.tokenClass? ≠ some kind := by
  have hcomplete : ∀ c r, step s c ≠ .grow r := by
    intro c r hstep
    cases s <;> cases hs
    · cases hstep
    · cases hstep
    · simp only [step] at hstep
      split_ifs at hstep
  obtain ⟨rfl, _⟩ := (grows_complete hcomplete).mp h
  rw [hs]
  exact (Option.some_ne_none kind).symm

/-- **Soundness.**  What the scanner reads as one token, until it stops, is a word of its class. -/
theorem matches_of_reads {column : Nat} {kind : TokenClass} {t : ScanState} {w rest : List Char}
    (h : reads (decide (column = 0)) w = some t) (hkind : t.tokenClass? = some kind)
    (hstop : Stops t rest) : Matches column kind w rest := by
  cases w with
  | nil => cases h
  | cons c v =>
      rw [reads] at h
      rcases char_cases c with hc | hc | hc | hc | hc | hc
      · rw [opening_foreign hc, grows_unknown] at h
        obtain ⟨rfl, hv⟩ := h
        cases hkind
        exact Lexicon.cons_mem_one_mul.mpr ⟨hc, hv⟩
      · exact absurd hkind (not_grows_of_tokenClass? (tokenClass?_opening_blank hc _) h)
      · rw [opening_digit hc] at h
        exact matches_number hc h hkind
      · rw [opening_letter hc, grows_identifier] at h
        obtain ⟨rfl, hv⟩ := h
        cases hkind
        exact Lexicon.cons_mem_one_mul.mpr ⟨hc, hv⟩
      · rw [opening_punctuation hc] at h
        split_ifs at h with hslash hline
        · rw [hslash]
          exact matches_slash h hkind hstop
        · obtain ⟨rfl, hv⟩ := grows_directive.mp h
          cases hkind
          rw [hline.1]
          exact ⟨of_decide_eq_true hline.2, Lexicon.mem_literally_mul.mpr ⟨v, rfl, hv⟩⟩
        · obtain ⟨rfl, rfl⟩ := (grows_complete fun _ _ hgrow => by cases hgrow).mp h
          cases hkind
          refine ⟨⟨c, hc, rfl⟩, ?_⟩
          rintro ⟨hcolumn, hhash⟩
          exact hline ⟨List.head_eq_of_cons_eq hhash, decide_eq_true hcolumn⟩
      · rw [hc] at h
        exact absurd hkind (not_grows_of_tokenClass? rfl h)

/-! ### Longest matches -/

theorem reads_append {lineStart : Bool} {t : ScanState} {u v : List Char} (hu : u ≠ []) :
    reads lineStart (u ++ v) = some t ↔ ∃ r, reads lineStart u = some r ∧ grows r v = some t := by
  obtain ⟨c, u, rfl⟩ := List.exists_cons_of_ne_nil hu
  exact grows_append

theorem ne_nil_of_reads {lineStart : Bool} {t : ScanState} {w : List Char}
    (h : reads lineStart w = some t) : w ≠ [] := by
  rintro rfl
  cases h

/-- The longest match at a place is what the scanner reads there until it stops. -/
theorem longest_iff {column : Nat} {kind : TokenClass} {w rest : List Char} :
    Longest column kind w rest ↔
      ∃ t, reads (decide (column = 0)) w = some t ∧ t.tokenClass? = some kind ∧ Stops t rest := by
  constructor
  · rintro ⟨hmatches, hlongest⟩
    obtain ⟨t, ht, hkind⟩ := reads_of_matches hmatches
    -- if the scanner could go on, it would read a longer match
    obtain ⟨more, rest', r, rfl, hmore, hstop⟩ := exists_grows t rest
    have hread := (reads_append (ne_nil_of_reads ht)).mpr ⟨t, ht, hmore⟩
    have hclass : r.tokenClass? ≠ none := by
      refine tokenClass?_of_grows hmore ?_
      rw [hkind]
      exact nofun
    obtain ⟨kind', hkind'⟩ := Option.ne_none_iff_exists'.mp hclass
    have hle := hlongest kind' _ rest' (List.append_assoc _ _ _)
      (matches_of_reads hread hkind' hstop)
    obtain rfl : more = [] := by
      rw [List.length_append] at hle
      exact List.length_eq_zero_iff.mp (by omega)
    cases hmore
    exact ⟨t, ht, hkind, hstop⟩
  · rintro ⟨t, ht, hkind, hstop⟩
    refine ⟨matches_of_reads ht hkind hstop, ?_⟩
    intro kind' w' rest' happend hmatches
    obtain ⟨r, hr, _⟩ := reads_of_matches hmatches
    cases w' with
    | nil => exact Nat.zero_le _
    | cons c v' =>
        cases w with
        | nil => cases ht
        | cons d v =>
            obtain ⟨rfl, hrest⟩ := List.cons.inj happend
            exact Nat.succ_le_succ (length_le_of_stops hrest.symm ht hstop hr)

/-! ### Scanning without places -/

/-- The class and text of a token that ends in a state. -/
def finished (s : ScanState) (chars : List Char) : List (TokenClass × List Char) :=
  match chars, s.tokenClass? with
  | _ :: _, some kind => [(kind, chars.reverse)]
  | _, _ => []

/-- The classes and texts of the tokens of a scan. -/
def lexemesFrom (s : ScanState) (chars : List Char) : List Char → List (TokenClass × List Char)
  | [] => finished s chars
  | c :: cs =>
    match step s c with
    | .grow t => lexemesFrom t (c :: chars) cs
    | .fresh t => finished s chars ++ lexemesFrom t [c] cs

/-- The classes and texts of the tokens from a place on where a token begins. -/
def lexemesAt (lineStart : Bool) : List Char → List (TokenClass × List Char)
  | [] => []
  | c :: cs => lexemesFrom (opening lineStart c) [c] cs

/-- The class and text of a token. -/
def lexeme (t : Token) : TokenClass × List Char := (t.kind, t.text.toList)

theorem map_finish (p : Pending) :
    (p.finish ClassSet.all).map lexeme = finished p.state p.chars := by
  unfold Pending.finish finished
  split <;> simp_all [lexeme, ClassSet.all]

theorem map_scanFrom (p : Pending) (here : Point) (cs : List Char) :
    (scanFrom ClassSet.all p here cs).map lexeme = lexemesFrom p.state p.chars cs := by
  induction cs generalizing p here with
  | nil => exact map_finish p
  | cons c cs ih =>
      rw [scanFrom, lexemesFrom]
      cases step p.state c with
      | grow t => exact ih _ _
      | fresh t => rw [List.map_append, map_finish, ih]

theorem lexemesFrom_grows {s t : ScanState} {w : List Char} (h : grows s w = some t)
    (chars rest : List Char) :
    lexemesFrom s chars (w ++ rest) = lexemesFrom t (w.reverse ++ chars) rest := by
  induction w generalizing s chars with
  | nil =>
      cases h
      rfl
  | cons c w ih =>
      obtain ⟨r, hr, hw⟩ := grows_cons.mp h
      rw [List.cons_append, lexemesFrom, hr]
      simp only [ih hw, List.reverse_cons, List.append_assoc, List.singleton_append]

/-- Outside strings, a token that stops is handed out, and the next one begins in the same line. -/
theorem lexemesFrom_stops {s : ScanState} {chars rest : List Char} (h : Stops s rest)
    (hquote : s ≠ .openQuote) (hstring : s ≠ .string) :
    lexemesFrom s chars rest = finished s chars ++ lexemesAt (s == .lineStart) rest := by
  cases rest with
  | nil => rw [lexemesFrom, lexemesAt, List.append_nil]
  | cons c cs =>
      obtain ⟨t, ht⟩ := h c cs rfl
      obtain ⟨_, _, rfl⟩ | ⟨_, hs, _⟩ | ⟨hs, _⟩ := step_fresh_cases ht
      · rw [lexemesFrom, ht, lexemesAt]
      · rcases hs with hs | hs
        · exact absurd hs hquote
        · exact absurd hs hstring
      · exact absurd hs hquote

theorem finished_of_class {s : ScanState} {kind : TokenClass} {w : List Char}
    (hkind : s.tokenClass? = some kind) (hw : w ≠ []) : finished s w.reverse = [(kind, w)] := by
  obtain ⟨c, cs, hcs⟩ := List.exists_cons_of_ne_nil (mt List.reverse_eq_nil_iff.mp hw)
  have hreverse : (c :: cs).reverse = w := by rw [← hcs, List.reverse_reverse]
  rw [hcs]
  simp only [finished, hkind, hreverse]

/-! ### Columns -/

theorem column_advance (p : Point) (byte : UInt8) : (p.advance byte).column = 0 ↔ byte = breakByte := by
  unfold Point.advance
  split
  case isTrue h => exact ⟨fun _ => h, fun _ => rfl⟩
  case isFalse h =>
    refine ⟨fun hcolumn => absurd hcolumn ?_, fun hbreak => absurd hbreak h⟩
    show min (p.column + 1) positionLimit ≠ 0
    rw [positionLimit, UInt32.size]
    omega

theorem column_after (p : Point) (c : Char) : (p.after c).column = 0 ↔ c = '\n' := by
  have hbytes := List.dropLast_concat_getLast (utf8EncodeChar_ne_nil c)
  rw [Point.after, ← hbytes, Point.advanced, List.foldl_concat, column_advance]
  constructor
  · intro hlast
    by_contra hc
    exact breakByte_notMem_of_ne hc (hlast ▸ List.getLast_mem (utf8EncodeChar_ne_nil c))
  · rintro rfl
    rfl

theorem advance_concat (p : Point) (w : List Char) (c : Char) :
    advance p (w ++ [c]) = (advance p w).after c := by
  rw [advance, List.foldl_append]
  rfl

/-- A token that stops before more text does not end with a line break. -/
theorem ne_newline_of_stops {lineStart : Bool} {t : ScanState} {kind : TokenClass}
    {w rest : List Char} {c : Char} (h : reads lineStart (w ++ [c]) = some t)
    (hkind : t.tokenClass? = some kind) (hstring : t ≠ .string) (hstop : Stops t rest)
    (hrest : rest ≠ []) : c ≠ '\n' := by
  rintro rfl
  cases w with
  | nil =>
      cases h
      cases hkind
  | cons d w =>
      rw [List.cons_append, reads, grows_append] at h
      obtain ⟨r, _, hr⟩ := h
      rcases eq_of_grow_newline (grows_single.mp hr) with rfl | rfl
      · exact hrest (eq_nil_of_stops hstop (.inl rfl))
      · exact hstring rfl

/-- The text from a point on. -/
def lexemesOver (p : Point) (cs : List Char) : List (TokenClass × List Char) :=
  lexemesAt (decide (p.column = 0)) cs

/-- After a word that ends within a line, nothing begins at the start of a line. -/
theorem lexemesOver_concat {p : Point} {w rest : List Char} {c : Char} (hc : rest ≠ [] → c ≠ '\n') :
    lexemesOver (advance p (w ++ [c])) rest = lexemesAt false rest := by
  cases rest with
  | nil => rfl
  | cons d ds =>
      have hcolumn : (advance p (w ++ [c])).column ≠ 0 := by
        rw [advance_concat, ne_eq, column_after]
        exact hc (List.cons_ne_nil d ds)
      rw [lexemesOver, decide_eq_false hcolumn]

/-! ### The scanner at the start of a token -/

/-- Between tokens, the next character begins one. -/
theorem lexemesFrom_blank (c : Char) (rest : List Char) :
    lexemesFrom .blank [c] rest = lexemesAt false rest :=
  lexemesFrom_stops (fun d _ _ => ⟨opening false d, rfl⟩) nofun nofun

theorem lexemesFrom_lineStart (c : Char) (rest : List Char) :
    lexemesFrom .lineStart [c] rest = lexemesAt true rest :=
  lexemesFrom_stops (fun d _ _ => ⟨opening true d, rfl⟩) nofun nofun

theorem lexemesOver_blank {p : Point} {c : Char} (hc : Lexicon.isBlank c = true) (cs : List Char) :
    lexemesOver p (c :: cs) = lexemesOver (p.after c) cs := by
  rw [lexemesOver, lexemesAt, opening_blank hc, lexemesOver]
  simp only [column_after]
  by_cases hnewline : c = '\n'
  · rw [if_pos hnewline, lexemesFrom_lineStart, decide_eq_true hnewline]
  · rw [if_neg hnewline, lexemesFrom_blank, decide_eq_false hnewline]

theorem lexemesOver_word {p : Point} {t : ScanState} {kind : TokenClass} {w rest : List Char}
    (h : reads (decide (p.column = 0)) w = some t) (hkind : t.tokenClass? = some kind)
    (hstring : t ≠ .string) (hstop : Stops t rest) :
    lexemesOver p (w ++ rest) = (kind, w) :: lexemesOver (advance p w) rest := by
  have hquote : t ≠ .openQuote := by
    rintro rfl
    cases hkind
  have hline : (t == .lineStart) = false := by
    rw [beq_eq_false_iff_ne]
    rintro rfl
    cases hkind
  have hne := ne_nil_of_reads h
  have hwhole : lexemesOver p (w ++ rest) = lexemesFrom t w.reverse rest := by
    obtain ⟨c, v, rfl⟩ := List.exists_cons_of_ne_nil hne
    rw [List.reverse_cons, ← lexemesFrom_grows h]
    rfl
  rw [hwhole, lexemesFrom_stops hstop hquote hstring, finished_of_class hkind hne, hline]
  -- the token ends within a line, since the scanner stops there
  obtain ⟨u, c, rfl⟩ := (List.eq_nil_or_concat' w).resolve_left hne
  rw [lexemesOver_concat fun hrest => ne_newline_of_stops h hkind hstring hstop hrest]
  rfl

/-! ### Strings -/

theorem step_openQuote {c : Char} {t : ScanState} (h : step .string c = .grow t) :
    step .openQuote c = .fresh t := by
  simp only [step] at h ⊢
  split_ifs at h ⊢ <;> simp_all

/-- The first character of a string begins it, and the others make it grow. -/
theorem lexemesFrom_openQuote {t : ScanState} {body : List Char} (h : grows .string body = some t)
    (hbody : body ≠ []) (rest : List Char) :
    lexemesFrom .openQuote ['"'] (body ++ rest) = lexemesFrom t body.reverse rest := by
  obtain ⟨c, v, rfl⟩ := List.exists_cons_of_ne_nil hbody
  obtain ⟨r, hr, hv⟩ := grows_cons.mp h
  rw [List.reverse_cons, ← lexemesFrom_grows hv, List.cons_append, lexemesFrom, step_openQuote hr]
  rfl

theorem grows_stringBody {body : List Char} (h : body ∈ stringBody) :
    grows .string body = some .string := by
  rw [grows_string, stringTail, mul_one]
  exact h

theorem lexemesOver_string {p : Point} {body : List Char} (h : body ∈ stringBody)
    (rest : List Char) :
    lexemesOver p ('"' :: body ++ '"' :: rest) =
      stringToken body ++ lexemesOver (advance p ('"' :: body ++ ['"'])) rest := by
  have hclose : ∀ s chars, s = .openQuote ∨ s = .string →
      lexemesFrom s chars ('"' :: rest) = finished s chars ++ lexemesAt false rest := by
    rintro s chars (rfl | rfl) <;> rw [← lexemesFrom_blank '"'] <;> rfl
  rw [lexemesOver_concat fun _ => by decide]
  show lexemesFrom .openQuote ['"'] (body ++ '"' :: rest) = _
  by_cases hbody : body = []
  · subst hbody
    exact hclose .openQuote ['"'] (.inl rfl)
  · rw [lexemesFrom_openQuote (grows_stringBody h) hbody, hclose .string _ (.inr rfl),
      finished_of_class rfl hbody, stringToken, if_neg hbody]

theorem lexemesOver_openString {p : Point} {t : ScanState} {body : List Char}
    (h : grows .string body = some t) (hkind : t.tokenClass? = some .string) :
    lexemesOver p ('"' :: body) = stringToken body := by
  show lexemesFrom .openQuote ['"'] body = _
  by_cases hbody : body = []
  · subst hbody
    rfl
  · have hwhole := lexemesFrom_openQuote h hbody []
    rw [List.append_nil] at hwhole
    rw [hwhole, lexemesFrom, finished_of_class hkind hbody, stringToken, if_neg hbody]

/-! ### Tokens of the lexical grammar -/

/-- The lexical grammar gives the tokens that the scanner finds. -/
theorem eq_lexemesOver_of_lexes {p : Point} {cs : List Char} {tokens : List (TokenClass × List Char)}
    (h : Lexes p cs tokens) : tokens = lexemesOver p cs := by
  induction h with
  | done p => rfl
  | blank hc _ ih => rw [ih, lexemesOver_blank hc]
  | @token p kind w rest tokens hword _ ih =>
      obtain ⟨t, ht, hkind, hstop⟩ := longest_iff.mp hword
      have hstring : t ≠ .string := by
        rintro rfl
        cases hkind
        exact absurd hword.1 (Language.notMem_zero _)
      rw [ih, lexemesOver_word ht hkind hstring hstop]
  | string hbody _ ih => rw [ih, lexemesOver_string hbody]
  | openString hbody =>
      symm
      rcases hbody with hbody | hbody
      · exact lexemesOver_openString (grows_stringBody hbody) rfl
      · exact lexemesOver_openString (grows_string.mpr hbody) (t := .escape) rfl

theorem tokenClass?_opening {c : Char} (hblank : Lexicon.isBlank c = false) (hquote : c ≠ '"')
    (lineStart : Bool) : (opening lineStart c).tokenClass? ≠ none := by
  rcases char_cases c with hc | hc | hc | hc | hc | hc
  · rw [opening_foreign hc]
    exact nofun
  · rw [hblank] at hc
    cases hc
  · rw [opening_digit hc]
    exact nofun
  · rw [opening_letter hc]
    exact nofun
  · rw [opening_punctuation hc]
    split_ifs <;> exact nofun
  · exact absurd hc hquote

/-- After a quote there is a string, up to the quote that closes it or to the end. -/
theorem string_cases (cs : List Char) :
    (∃ body rest, cs = body ++ '"' :: rest ∧ body ∈ stringBody) ∨
      cs ∈ stringBody ∨ cs ∈ stringBody * literally "\\" := by
  obtain ⟨body, rest, t, rfl, hbody, hstop⟩ := exists_grows .string cs
  have hmem := grows_string.mp hbody
  by_cases hstring : t = .string
  · subst hstring
    rw [stringTail, mul_one] at hmem
    cases rest with
    | nil => exact .inr (.inl (by rwa [List.append_nil]))
    | cons d rest =>
        obtain ⟨r, hr⟩ := hstop d rest rfl
        have hclose : d = '"' := by
          simp only [step] at hr
          split_ifs at hr with hd
          exact hd
        exact .inl ⟨body, rest, by rw [hclose], hmem⟩
  by_cases hescape : t = .escape
  · subst hescape
    obtain rfl := eq_nil_of_stops hstop (.inr (.inr rfl))
    exact .inr (.inr (by rwa [List.append_nil]))
  · -- no other state is reached within a string
    have hzero : stringTail t = 0 := by
      unfold stringTail
      split <;> simp_all
    rw [hzero, mul_zero] at hmem
    exact absurd hmem (Language.notMem_zero _)

/-- Every text has tokens in the lexical grammar. -/
theorem exists_lexes (p : Point) (cs : List Char) : ∃ tokens, Lexes p cs tokens := by
  induction hlen : cs.length using Nat.strong_induction_on generalizing p cs with
  | _ n ih =>
      subst hlen
      cases cs with
      | nil => exact ⟨[], .done p⟩
      | cons c cs =>
          by_cases hblank : Lexicon.isBlank c = true
          · obtain ⟨tokens, htokens⟩ := ih cs.length (by simp) (p.after c) cs rfl
            exact ⟨tokens, .blank hblank htokens⟩
          by_cases hquote : c = '"'
          · subst hquote
            rcases string_cases cs with ⟨body, rest, rfl, hbody⟩ | hbody
            · have hlt : rest.length < ('"' :: (body ++ '"' :: rest)).length := by
                simp only [List.length_cons, List.length_append]
                omega
              obtain ⟨tokens, htokens⟩ :=
                ih rest.length hlt (advance p ('"' :: body ++ ['"'])) rest rfl
              exact ⟨_, .string hbody htokens⟩
            · exact ⟨_, .openString hbody⟩
          · rw [Bool.not_eq_true] at hblank
            obtain ⟨w, rest, t, rfl, hw, hstop⟩ :=
              exists_grows (opening (decide (p.column = 0)) c) cs
            have hclass := tokenClass?_of_grows hw (tokenClass?_opening hblank hquote _)
            obtain ⟨kind, hkind⟩ := Option.ne_none_iff_exists'.mp hclass
            have hlongest : Longest p.column kind (c :: w) rest :=
              longest_iff.mpr ⟨t, hw, hkind, hstop⟩
            have hlt : rest.length < (c :: (w ++ rest)).length := by
              simp only [List.length_cons, List.length_append]
              omega
            obtain ⟨tokens, htokens⟩ := ih rest.length hlt (advance p (c :: w)) rest rfl
            exact ⟨_, .token hlongest htokens⟩

/-- The lexical grammar gives a text exactly the tokens that the scanner finds in it, wherever the
text starts. -/
theorem lexes_iff_scan (text : String) (start : Point) (tokens : List (TokenClass × List Char)) :
    Lexes start text.toList tokens ↔
      (Token.scan text start (ClassSet.scanned true)).map lexeme = tokens := by
  have hscan : (Token.scan text start (ClassSet.scanned true)).map lexeme =
      lexemesOver start text.toList := by
    rw [lexemesOver, Token.scan_eq, ClassSet.scanned, if_pos rfl, map_scanFrom]
    cases text.toList with
    | nil => split <;> rfl
    | cons c cs =>
        by_cases hcolumn : start.column = 0
        · rw [if_pos hcolumn, decide_eq_true hcolumn]
          rfl
        · rw [if_neg hcolumn, decide_eq_false hcolumn]
          rfl
  rw [hscan]
  constructor
  · intro h
    exact (eq_lexemesOver_of_lexes h).symm
  · rintro rfl
    obtain ⟨tokens, htokens⟩ := exists_lexes start text.toList
    rwa [← eq_lexemesOver_of_lexes htokens]

end Shading.Scan
