import Mathlib.Tactic.SplitIfs
import Shading.Proofs.Token.Lexicon
import Shading.Token.Scan

/-! # What the scanner reads in each state

`grows s w` is the state in which the scanner is after the characters `w`, if all of them belong to the
token that it reads in state `s`.  For each state that a character opens, the words on which a token
grows are those of a language of the lexical grammar.  The states with a loop of their own are instances
of two lemmas (`grows_loop`, `grows_loop_exit`); block comments and strings have their own inductions. -/

namespace Shading.Scan

open Lexicon (one many literally stringBody blockClose)

/-! ### Moves -/

/-- A token that grows has a class. -/
theorem tokenClass?_of_grow {s t : ScanState} {c : Char} (h : step s c = .grow t) :
    t.tokenClass? ≠ none := by
  cases s <;> simp only [step, growIf] at h <;> try split_ifs at h
  all_goals
    cases h
    try decide

/-- What begins after a token ended: what the character opens, except around strings.  A quote ends a
string, and the character after the opening quote is the first of the string. -/
theorem step_fresh_cases {s t : ScanState} {c : Char} (h : step s c = .fresh t) :
    (s ≠ .openQuote ∧ s ≠ .string ∧ t = opening (s == .lineStart) c) ∨
      (c = '"' ∧ (s = .openQuote ∨ s = .string) ∧ t = .blank) ∨
      (s = .openQuote ∧ step .string c = .grow t) := by
  cases s with
  | openQuote =>
      right
      simp only [step] at h ⊢
      split_ifs at h ⊢ <;> simp_all
  | string =>
      right; left
      simp only [step] at h
      split_ifs at h with hquote
      exact ⟨hquote, .inr rfl, (Move.fresh.inj h).symm⟩
  | escape => cases h
  | directive | comment =>
      left
      simp only [step] at h
      split_ifs at h with hnewline
      refine ⟨nofun, nofun, ?_⟩
      rw [hnewline, ← Move.fresh.inj h]
      decide
  | _ =>
      left
      simp only [step, growIf] at h
      try split_ifs at h
      all_goals exact ⟨nofun, nofun, (Move.fresh.inj h).symm⟩

theorem growIf_eq_grow {condition : Bool} {s t : ScanState} {c : Char} :
    growIf condition s c = .grow t ↔ condition = true ∧ t = s := by
  cases condition with
  | false => simp [growIf]
  | true =>
      rw [growIf, if_pos rfl, Move.grow.injEq, eq_comm]
      simp

/-- Only block comments and strings go on over a line break. -/
theorem eq_of_grow_newline {s t : ScanState} (h : step s '\n' = .grow t) :
    t = .blockComment ∨ t = .string := by
  cases s <;> revert h <;> simp +decide [step, growIf] <;> intro h <;> simp [← h]

/-! ### Kinds of characters -/

theorem char_eq_iff {c d : Char} : c = d ↔ c.toNat = d.toNat := Char.toNat_inj.symm

theorem isDigit_iff {c : Char} : c.isDigit = true ↔ 0x30 ≤ c.toNat ∧ c.toNat ≤ 0x39 := by
  simp only [Char.isDigit, ge_iff_le, Bool.and_eq_true, decide_eq_true_eq, UInt32.le_iff_toNat_le]
  rfl

theorem isLetter_iff {c : Char} : Lexicon.isLetter c = true ↔
    0x41 ≤ c.toNat ∧ c.toNat ≤ 0x5a ∨ 0x61 ≤ c.toNat ∧ c.toNat ≤ 0x7a ∨ c.toNat = 0x5f := by
  have hupper : c.isUpper = decide (c.val ≥ 'A'.val ∧ c.val ≤ 'Z'.val) := rfl
  have hlower : c.isLower = (decide (c.val ≥ 'a'.val) && decide (c.val ≤ 'z'.val)) := rfl
  have halpha : c.isAlpha = (c.isUpper || c.isLower) := rfl
  simp only [Lexicon.isLetter, halpha, hupper, hlower, ge_iff_le, Bool.and_eq_true,
    Bool.or_eq_true, decide_eq_true_eq, UInt32.le_iff_toNat_le, beq_iff_eq, char_eq_iff, or_assoc]
  rfl

theorem isBlank_iff {c : Char} : Lexicon.isBlank c = true ↔
    c.toNat = 0x20 ∨ c.toNat = 0x09 ∨ c.toNat = 0x0a ∨ c.toNat = 0x0d ∨ c.toNat = 0x0b ∨
      c.toNat = 0x0c := by
  simp [Lexicon.isBlank, char_eq_iff]

theorem ofChar_eq_digit {c : Char} : CharKind.ofChar c = .digit ↔ c.isDigit = true := by
  rw [isDigit_iff, CharKind.ofChar, CharKind.ofCode]
  split_ifs <;> simp <;> omega

theorem ofChar_eq_letter {c : Char} : CharKind.ofChar c = .letter ↔ Lexicon.isLetter c = true := by
  rw [isLetter_iff, CharKind.ofChar, CharKind.ofCode]
  split_ifs <;> simp <;> omega

theorem ofChar_eq_blank {c : Char} :
    CharKind.ofChar c = .blank ∨ CharKind.ofChar c = .newline ↔ Lexicon.isBlank c = true := by
  rw [isBlank_iff, CharKind.ofChar, CharKind.ofCode]
  split_ifs <;> simp <;> omega

theorem ofChar_eq_unknown {c : Char} :
    CharKind.ofChar c = .unknown ↔ Lexicon.isForeign c = true := by
  simp only [Lexicon.isForeign, Bool.and_eq_true, Bool.or_eq_true, decide_eq_true_eq,
    Bool.not_eq_true', ← Bool.not_eq_true, isBlank_iff]
  rw [CharKind.ofChar, CharKind.ofCode]
  split_ifs <;> simp <;> omega

theorem ofChar_eq_symbol {c : Char} :
    CharKind.ofChar c = .symbol ↔ Lexicon.isPunctuation c = true ∨ c = '"' := by
  simp only [Lexicon.isPunctuation, Lexicon.isWordChar, Bool.and_eq_true, Bool.or_eq_true,
    decide_eq_true_eq, Bool.not_eq_true', ← Bool.not_eq_true, isLetter_iff, isDigit_iff,
    bne_iff_ne, ne_eq, char_eq_iff]
  rw [CharKind.ofChar, CharKind.ofCode]
  split_ifs <;> simp <;> omega

theorem isDigit_eq (c : Char) : isDigit c = c.isDigit := by
  rw [Bool.eq_iff_iff, isDigit, beq_iff_eq, ofChar_eq_digit]

theorem isWordChar_eq (c : Char) : isWordChar c = Lexicon.isWordChar c := by
  rw [Bool.eq_iff_iff, isWordChar, Lexicon.isWordChar, isDigit_eq]
  simp only [Bool.or_eq_true, beq_iff_eq, ofChar_eq_letter]

theorem isHexDigit_eq (c : Char) : isHexDigit c = Lexicon.isHexDigit c := by
  rw [isHexDigit, Lexicon.isHexDigit, isDigit_eq]

/-- Every character has one of the kinds of the lexical grammar. -/
theorem char_cases (c : Char) : Lexicon.isForeign c = true ∨ Lexicon.isBlank c = true ∨
    c.isDigit = true ∨ Lexicon.isLetter c = true ∨ Lexicon.isPunctuation c = true ∨ c = '"' := by
  rw [← ofChar_eq_unknown, ← ofChar_eq_blank, ← ofChar_eq_digit, ← ofChar_eq_letter,
    ← ofChar_eq_symbol]
  cases CharKind.ofChar c <;> simp

theorem opening_foreign {c : Char} (h : Lexicon.isForeign c = true) (lineStart : Bool) :
    opening lineStart c = .unknown := by
  simp [opening, ofChar_eq_unknown.mpr h]

/-- A blank opens nothing, and a line break the next line. -/
theorem opening_blank {c : Char} (h : Lexicon.isBlank c = true) (lineStart : Bool) :
    opening lineStart c = if c = '\n' then .lineStart else .blank := by
  by_cases hnewline : c = '\n'
  · rw [if_pos hnewline, hnewline]
    rfl
  · have hkind : CharKind.ofChar c ≠ .newline := by
      rw [char_eq_iff] at hnewline
      unfold CharKind.ofChar CharKind.ofCode
      split_ifs <;> simp_all
    have hblank := (ofChar_eq_blank.mpr h).resolve_right hkind
    simp [opening, hblank, hnewline]

theorem tokenClass?_opening_blank {c : Char} (h : Lexicon.isBlank c = true) (lineStart : Bool) :
    (opening lineStart c).tokenClass? = none := by
  rw [opening_blank h]
  split <;> rfl

theorem opening_digit {c : Char} (h : c.isDigit = true) (lineStart : Bool) :
    opening lineStart c = .firstDigit := by
  simp [opening, ofChar_eq_digit.mpr h]

theorem opening_letter {c : Char} (h : Lexicon.isLetter c = true) (lineStart : Bool) :
    opening lineStart c = .identifier := by
  simp [opening, ofChar_eq_letter.mpr h]

theorem opening_punctuation {c : Char} (h : Lexicon.isPunctuation c = true) (lineStart : Bool) :
    opening lineStart c =
      if c = '/' then .slash else if c = '#' ∧ lineStart = true then .directive else .symbol := by
  have hquote : c ≠ '"' := by
    rintro rfl
    revert h
    decide
  simp [opening, ofChar_eq_symbol.mpr (.inl h), hquote]

/-! ### Growing -/

/-- The state after characters that all belong to the token being read. -/
def grows (s : ScanState) : List Char → Option ScanState
  | [] => some s
  | c :: cs =>
    match step s c with
    | .grow t => grows t cs
    | .fresh _ => none

theorem grows_cons {s t : ScanState} {c : Char} {w : List Char} :
    grows s (c :: w) = some t ↔ ∃ r, step s c = .grow r ∧ grows r w = some t := by
  rw [grows]
  cases step s c <;> simp

theorem grows_append {s t : ScanState} {u v : List Char} :
    grows s (u ++ v) = some t ↔ ∃ r, grows s u = some r ∧ grows r v = some t := by
  induction u generalizing s with
  | nil => simp [grows]
  | cons c u ih =>
      simp only [List.cons_append, grows_cons, ih]
      constructor
      · rintro ⟨r, hr, q, hq, hv⟩
        exact ⟨q, ⟨r, hr, hq⟩, hv⟩
      · rintro ⟨q, ⟨r, hr, hq⟩, hv⟩
        exact ⟨r, hr, q, hq, hv⟩

theorem grows_single {s t : ScanState} {c : Char} :
    grows s [c] = some t ↔ step s c = .grow t := by
  rw [grows_cons]
  simp [grows]

theorem tokenClass?_of_grows {s t : ScanState} {w : List Char} (h : grows s w = some t)
    (hs : s.tokenClass? ≠ none) : t.tokenClass? ≠ none := by
  induction w generalizing s with
  | nil =>
      cases h
      exact hs
  | cons c w ih =>
      obtain ⟨r, hr, hw⟩ := grows_cons.mp h
      exact ih hw (tokenClass?_of_grow hr)

/-- The token being read ends before the rest of the text. -/
def Stops (s : ScanState) (rest : List Char) : Prop :=
  ∀ c cs, rest = c :: cs → ∃ t, step s c = .fresh t

/-- A token grows until it stops. -/
theorem exists_grows (s : ScanState) (cs : List Char) :
    ∃ w rest t, cs = w ++ rest ∧ grows s w = some t ∧ Stops t rest := by
  induction cs generalizing s with
  | nil => exact ⟨[], [], s, rfl, rfl, fun c cs h => by cases h⟩
  | cons c cs ih =>
      cases hstep : step s c with
      | grow r =>
          obtain ⟨w, rest, t, rfl, hw, hstop⟩ := ih r
          exact ⟨c :: w, rest, t, rfl, grows_cons.mpr ⟨r, hstep, hw⟩, hstop⟩
      | fresh r =>
          refine ⟨[], c :: cs, s, rfl, rfl, ?_⟩
          intro d ds h
          obtain ⟨rfl, _⟩ := List.cons.inj h
          exact ⟨r, hstep⟩

/-- A token cannot grow past the place where it stops. -/
theorem length_le_of_stops {s t r : ScanState} {u v rest rest' : List Char} (h : u ++ rest = v ++ rest')
    (hu : grows s u = some t) (hstop : Stops t rest) (hv : grows s v = some r) :
    v.length ≤ u.length := by
  rcases List.append_eq_append_iff.mp h with ⟨w, rfl, rfl⟩ | ⟨w, rfl, _⟩
  · cases w with
    | nil => simp
    | cons c w =>
        obtain ⟨q, hq, hw⟩ := grows_append.mp hv
        obtain rfl : t = q := Option.some.inj (hu.symm.trans hq)
        obtain ⟨_, hgrow, _⟩ := grows_cons.mp hw
        obtain ⟨_, hfresh⟩ := hstop c _ rfl
        rw [hfresh] at hgrow
        cases hgrow
  · simp

/-! ### Loops -/

/-- A state that only goes on in itself. -/
theorem grows_loop {s t : ScanState} {p : Char → Bool} {w : List Char}
    (hs : ∀ c r, step s c = .grow r ↔ p c = true ∧ r = s) :
    grows s w = some t ↔ t = s ∧ w ∈ many p := by
  induction w with
  | nil =>
      rw [grows, Option.some.injEq, eq_comm]
      simp
  | cons c w ih =>
      rw [grows_cons]
      simp only [hs, Lexicon.mem_many, List.forall_mem_cons] at ih ⊢
      constructor
      · rintro ⟨r, ⟨hc, rfl⟩, hw⟩
        exact ⟨(ih.mp hw).1, hc, (ih.mp hw).2⟩
      · rintro ⟨ht, hc, hw⟩
        exact ⟨s, ⟨hc, rfl⟩, ih.mpr ⟨ht, hw⟩⟩

/-- A state that goes on in itself, or for good in another one. -/
theorem grows_loop_exit {s e t : ScanState} {p q r : Char → Bool} {w : List Char}
    (hs : ∀ c x, step s c = .grow x ↔ (p c = true ∧ x = s) ∨ (q c = true ∧ x = e))
    (he : ∀ c x, step e c = .grow x ↔ r c = true ∧ x = e) :
    grows s w = some t ↔
      (t = s ∧ w ∈ many p) ∨ (t = e ∧ w ∈ many p * (one q * many r)) := by
  induction w with
  | nil =>
      rw [grows, Option.some.injEq, eq_comm, Lexicon.mem_many_mul]
      simp
  | cons c w ih =>
      rw [grows_cons, Lexicon.mem_many_mul]
      simp only [hs, Lexicon.cons_mem_one_mul]
      constructor
      · rintro ⟨x, ⟨hc, rfl⟩ | ⟨hc, rfl⟩, hw⟩
        · rcases ih.mp hw with ⟨ht, hw⟩ | ⟨ht, hw⟩
          · left
            rw [Lexicon.mem_many] at hw ⊢
            exact ⟨ht, List.forall_mem_cons.mpr ⟨hc, hw⟩⟩
          · right
            exact ⟨ht, .inr ⟨hc, hw⟩⟩
        · right
          obtain ⟨ht, hw⟩ := (grows_loop he).mp hw
          exact ⟨ht, .inl ⟨hc, hw⟩⟩
      · rintro (⟨ht, hw⟩ | ⟨ht, ⟨hc, hw⟩ | ⟨hc, hw⟩⟩)
        · rw [Lexicon.mem_many, List.forall_mem_cons] at hw
          exact ⟨s, .inl ⟨hw.1, rfl⟩, ih.mpr (.inl ⟨ht, Lexicon.mem_many.mpr hw.2⟩)⟩
        · exact ⟨e, .inr ⟨hc, rfl⟩, (grows_loop he).mpr ⟨ht, hw⟩⟩
        · exact ⟨s, .inl ⟨hc, rfl⟩, ih.mpr (.inr ⟨ht, hw⟩)⟩

/-! ### Words and numbers -/

theorem grows_unknown {t : ScanState} {w : List Char} :
    grows .unknown w = some t ↔ t = .unknown ∧ w ∈ many Lexicon.isForeign := by
  refine grows_loop fun c r => ?_
  rw [step, growIf_eq_grow, beq_iff_eq, ofChar_eq_unknown]

theorem grows_identifier {t : ScanState} {w : List Char} :
    grows .identifier w = some t ↔ t = .identifier ∧ w ∈ many Lexicon.isWordChar := by
  refine grows_loop fun c r => ?_
  rw [step, growIf_eq_grow, isWordChar_eq]

/-- A number whose radix is given by a letter goes on over digits. -/
theorem grows_radix {s t : ScanState} {w : List Char} (hs : ∀ c, step s c = growIf (isDigit c) s c) :
    grows s w = some t ↔ t = s ∧ w ∈ Lexicon.digits := by
  refine grows_loop fun c r => ?_
  rw [hs, growIf_eq_grow, isDigit_eq]

theorem step_float {t : ScanState} {c : Char} :
    step .float c = .grow t ↔ (c.isDigit || "eEhHdDfF".toList.contains c) = true ∧ t = .float := by
  rw [step, growIf_eq_grow, isFloatChar, isDigit_eq]

theorem step_hexFloat {t : ScanState} {c : Char} :
    step .hexFloat c = .grow t ↔
      (Lexicon.isHexDigit c || "hHpP".toList.contains c) = true ∧ t = .hexFloat := by
  rw [step, growIf_eq_grow, isHexFloatChar, isHexDigit_eq]

theorem startsFraction_eq (c : Char) : startsFraction c = ".eE".toList.contains c := by
  rw [Bool.eq_iff_iff]
  simp [startsFraction, or_assoc]

theorem startsHexFraction_eq (c : Char) : startsHexFraction c = ".pP".toList.contains c := by
  rw [Bool.eq_iff_iff]
  simp [startsHexFraction, or_assoc]

/-- A state that first tries to go on in itself, then in another one, with different characters. -/
theorem ite_grow_eq_grow {p q : Bool} {s e t : ScanState} {c : Char} (h : p = true → q = false) :
    (if p = true then Move.grow s else growIf q e c) = .grow t ↔
      (p = true ∧ t = s) ∨ (q = true ∧ t = e) := by
  cases p with
  | false => simp [growIf_eq_grow]
  | true =>
      rw [h rfl, if_pos rfl, Move.grow.injEq, eq_comm]
      simp

theorem grows_integer {t : ScanState} {w : List Char} :
    grows .integer w = some t ↔ (t = .integer ∧ w ∈ Lexicon.digits) ∨
      (t = .float ∧ w ∈ Lexicon.digits * (one (".eE".toList.contains ·) *
        many fun c => c.isDigit || "eEhHdDfF".toList.contains c)) := by
  refine grows_loop_exit (fun c x => ?_) fun c x => step_float
  rw [step, isDigit_eq, startsFraction_eq]
  refine ite_grow_eq_grow fun hdigit => ?_
  rw [isDigit_iff] at hdigit
  simp only [← Bool.not_eq_true, List.contains_iff_mem]
  simp [char_eq_iff]
  omega

theorem grows_hexInteger {t : ScanState} {w : List Char} :
    grows .hexInteger w = some t ↔ (t = .hexInteger ∧ w ∈ many Lexicon.isHexDigit) ∨
      (t = .hexFloat ∧ w ∈ many Lexicon.isHexDigit * (one (".pP".toList.contains ·) *
        many fun c => Lexicon.isHexDigit c || "hHpP".toList.contains c)) := by
  refine grows_loop_exit (fun c x => ?_) fun c x => step_hexFloat
  rw [step, isHexDigit_eq, startsHexFraction_eq]
  refine ite_grow_eq_grow fun hdigit => ?_
  simp only [Lexicon.isHexDigit, Bool.or_eq_true, isDigit_iff] at hdigit
  simp only [← Bool.not_eq_true, List.contains_iff_mem] at hdigit ⊢
  simp [char_eq_iff] at hdigit ⊢
  omega

/-- A letter after a single digit gives the radix; otherwise the number is like any other. -/
theorem grows_firstDigit_cons (c : Char) (v : List Char) :
    grows .firstDigit (c :: v) =
      if c = 'b' then grows .binaryInteger v
      else if c = 'o' then grows .octalInteger v
      else if c = 'd' then grows .decimalInteger v
      else if c = 'x' then grows .hexInteger v
      else grows .integer (c :: v) := by
  by_cases hb : c = 'b'
  · subst hb
    rfl
  by_cases ho : c = 'o'
  · subst ho
    rfl
  by_cases hd : c = 'd'
  · subst hd
    rfl
  by_cases hx : c = 'x'
  · subst hx
    rfl
  simp only [grows, step, hb, ho, hd, hx, if_false]

/-! ### Lines, comments and strings -/

theorem ite_newline_eq_grow {s t : ScanState} {c : Char} :
    (if c = '\n' then Move.fresh .lineStart else .grow s) = .grow t ↔ (c != '\n') = true ∧ t = s := by
  by_cases hc : c = '\n'
  · simp [hc]
  · rw [if_neg hc, Move.grow.injEq, eq_comm]
    simp [hc]

theorem grows_directive {t : ScanState} {w : List Char} :
    grows .directive w = some t ↔ t = .directive ∧ w ∈ many (· != '\n') :=
  grows_loop fun _ _ => ite_newline_eq_grow

theorem grows_comment {t : ScanState} {w : List Char} :
    grows .comment w = some t ↔ t = .comment ∧ w ∈ many (· != '\n') :=
  grows_loop fun _ _ => ite_newline_eq_grow

/-- A state after which a token is complete. -/
theorem grows_complete {s t : ScanState} {w : List Char} (hs : ∀ c r, step s c ≠ .grow r) :
    grows s w = some t ↔ t = s ∧ w = [] := by
  cases w with
  | nil =>
      rw [grows, Option.some.injEq, eq_comm]
      simp
  | cons c w =>
      rw [grows_cons]
      simp [hs]

theorem grows_slash_cons (c : Char) (v : List Char) :
    grows .slash (c :: v) =
      if c = '/' then grows .comment v else if c = '*' then grows .blockComment v else none := by
  by_cases hslash : c = '/'
  · subst hslash
    rfl
  by_cases hstar : c = '*'
  · subst hstar
    rfl
  simp only [grows, step, hslash, hstar, if_false]

/-! ### Block comments -/

theorem blockClose_infix_concat {w : List Char} {c : Char} :
    blockClose <:+: w ++ [c] ↔ blockClose <:+: w ∨ (c = '/' ∧ w.getLast? = some '*') := by
  have hsuffix : blockClose <:+ w ++ [c] ↔ c = '/' ∧ w.getLast? = some '*' := by
    constructor
    · rintro ⟨front, h⟩
      have h' : (front ++ ['*']) ++ ['/'] = w ++ [c] := by
        rw [← h]
        simp [blockClose]
      obtain ⟨rfl, hc⟩ := List.append_inj' h' rfl
      exact ⟨(List.head_eq_of_cons_eq hc).symm, by simp⟩
    · rintro ⟨rfl, hlast⟩
      obtain ⟨front, rfl⟩ := List.getLast?_eq_some_iff.mp hlast
      exact ⟨front, by simp [blockClose]⟩
  rw [List.infix_concat_iff, hsuffix, or_comm]

/-- What has been read of a block comment after its opening. -/
def InBlock (w : List Char) : ScanState → Prop
  | .blockComment => ¬ blockClose <:+: w ∧ w.getLast? ≠ some '*'
  | .blockStar => ¬ blockClose <:+: w ∧ w.getLast? = some '*'
  | .blockEnd => ∃ inner, w = inner ++ blockClose ∧ ¬ blockClose <:+: inner ++ ['*']
  | _ => False

/-- The state in a block comment after one more character. -/
theorem inBlock_concat {w : List Char} {c : Char} {t : ScanState} :
    InBlock (w ++ [c]) t ↔ ∃ s, InBlock w s ∧ step s c = .grow t := by
  constructor
  · intro h
    cases t with
    | blockComment =>
        obtain ⟨hclose, hlast⟩ := h
        rw [blockClose_infix_concat, not_or] at hclose
        have hc : c ≠ '*' := by simpa using hlast
        by_cases hstar : w.getLast? = some '*'
        · have hslash : c ≠ '/' := fun hc => hclose.2 ⟨hc, hstar⟩
          exact ⟨.blockStar, ⟨hclose.1, hstar⟩, by simp [step, hc, hslash]⟩
        · exact ⟨.blockComment, ⟨hclose.1, hstar⟩, by simp [step, hc]⟩
    | blockStar =>
        obtain ⟨hclose, hlast⟩ := h
        rw [blockClose_infix_concat, not_or] at hclose
        obtain rfl : c = '*' := by simpa using hlast
        by_cases hstar : w.getLast? = some '*'
        · exact ⟨.blockStar, ⟨hclose.1, hstar⟩, rfl⟩
        · exact ⟨.blockComment, ⟨hclose.1, hstar⟩, rfl⟩
    | blockEnd =>
        obtain ⟨inner, hw, hinner⟩ := h
        have hw' : w ++ [c] = (inner ++ ['*']) ++ ['/'] := by
          rw [hw]
          simp [blockClose]
        obtain ⟨rfl, hc⟩ := List.append_inj' hw' rfl
        obtain rfl : c = '/' := List.head_eq_of_cons_eq hc
        exact ⟨.blockStar, ⟨hinner, by simp⟩, rfl⟩
    | _ => exact h.elim
  · rintro ⟨s, hs, hstep⟩
    cases s with
    | blockComment =>
        obtain ⟨hclose, hlast⟩ := hs
        have hnot : ¬ blockClose <:+: w ++ [c] := by
          rw [blockClose_infix_concat, not_or]
          exact ⟨hclose, fun h => hlast h.2⟩
        simp only [step] at hstep
        split_ifs at hstep with hc <;> cases hstep
        · exact ⟨hnot, by simp [hc]⟩
        · exact ⟨hnot, by simp [hc]⟩
    | blockStar =>
        obtain ⟨hclose, hlast⟩ := hs
        simp only [step] at hstep
        split_ifs at hstep with hslash hstar <;> cases hstep
        · obtain ⟨inner, rfl⟩ := List.getLast?_eq_some_iff.mp hlast
          exact ⟨inner, by simp [hslash, blockClose], hclose⟩
        · refine ⟨?_, by simp [hstar]⟩
          rw [blockClose_infix_concat, not_or]
          exact ⟨hclose, fun h => hslash h.1⟩
        · refine ⟨?_, by simp [hstar]⟩
          rw [blockClose_infix_concat, not_or]
          exact ⟨hclose, fun h => hslash h.1⟩
    | blockEnd => cases hstep
    | _ => exact hs.elim

theorem grows_blockComment {t : ScanState} {w : List Char} :
    grows .blockComment w = some t ↔ InBlock w t := by
  -- from the right: the state tells how the characters read so far end
  induction w using List.reverseRecOn generalizing t with
  | nil =>
      rw [grows, Option.some.injEq]
      constructor
      · rintro rfl
        exact ⟨by decide, by decide⟩
      · intro h
        cases t with
        | blockComment => rfl
        | blockStar => simp [InBlock] at h
        | blockEnd => simp [InBlock, blockClose] at h
        | _ => exact h.elim
  | append_singleton w c ih =>
      rw [grows_append, inBlock_concat]
      simp only [ih, grows_single]

/-! ### Strings -/

/-- How a string ends in each of its states: after a backslash it lacks a character. -/
def stringTail : ScanState → Language Char
  | .string => 1
  | .escape => literally "\\"
  | _ => 0

theorem nil_mem_stringTail {t : ScanState} : [] ∈ stringTail t ↔ t = .string := by
  cases t with
  | string => simp [stringTail, Language.mem_one]
  | escape => simp [stringTail]
  | _ => simp [stringTail, Language.notMem_zero]

theorem cons_mem_stringTail {t : ScanState} {c : Char} {v : List Char} :
    c :: v ∈ stringTail t ↔ t = .escape ∧ c = '\\' ∧ v = [] := by
  cases t with
  | string => simp [stringTail, Language.mem_one]
  | escape => simp [stringTail]
  | _ => simp [stringTail, Language.notMem_zero]

theorem grows_string_cons (c : Char) (v : List Char) :
    grows .string (c :: v) =
      if c = '"' then none else if c = '\\' then grows .escape v else grows .string v := by
  by_cases hquote : c = '"'
  · simp [grows, step, hquote]
  by_cases hbackslash : c = '\\'
  · simp [grows, step, hbackslash]
  simp only [grows, step, hquote, hbackslash, if_false]

theorem grows_string {t : ScanState} : ∀ {w : List Char},
    grows .string w = some t ↔ w ∈ stringBody * stringTail t
  | [] => by
      rw [grows, Option.some.injEq, Lexicon.mem_stringBody_mul, nil_mem_stringTail, eq_comm]
      simp
  | c :: v => by
      rw [grows_string_cons, Lexicon.mem_stringBody_mul, cons_mem_stringTail]
      by_cases hquote : c = '"'
      · simp [hquote]
      by_cases hbackslash : c = '\\'
      · -- the character after a backslash belongs to the string, whatever it is
        subst hbackslash
        cases v with
        | nil =>
            rw [if_neg hquote, if_pos rfl, grows, Option.some.injEq, eq_comm]
            simp
        | cons d v =>
            have ih := @grows_string t v
            simp [grows, step, ih]
      · have ih := @grows_string t v
        simp [hquote, hbackslash, ih]

end Shading.Scan
