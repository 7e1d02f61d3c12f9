import Mathlib.Data.List.DropRight
import Shading.Proofs.Token.Positions

/-! # Tokens read again

A token that the scanner found in a text is a word of its class (`matches_of_reads`), and a word of a
class is read as one token of that class (`reads_of_matches`).  So the text of a token, scanned by
itself, is that token again.  Strings are scanned in quotes; there the last quote closes the string
unless a backslash takes it (`eq_of_grows_string`). -/

namespace Shading

namespace Scan

open Lexicon (Matches stringToken)

/-! ### Backslashes -/

/-- The characters end in an odd number of backslashes, so the last one has no character to go with. -/
def endsUnpaired (w : List Char) : Bool := (w.rtakeWhile (· = '\\')).length % 2 == 1

theorem endsUnpaired_concat (w : List Char) (c : Char) :
    endsUnpaired (w ++ [c]) = (c == '\\' && !endsUnpaired w) := by
  unfold endsUnpaired
  rw [List.rtakeWhile_concat]
  by_cases hc : c = '\\'
  · rw [if_pos (by simpa using hc), List.length_append, List.length_singleton, Bool.eq_iff_iff]
    simp [hc]
    omega
  · simp [hc]

/-- Within a string, the scanner is after a backslash exactly if one is unpaired. -/
theorem eq_of_grows_string {s : ScanState} {w : List Char} (h : grows .string w = some s) :
    s = if endsUnpaired w then .escape else .string := by
  induction w using List.reverseRecOn generalizing s with
  | nil =>
      cases h
      rfl
  | append_singleton w c ih =>
      obtain ⟨r, hr, hc⟩ := grows_append.mp h
      have hstep := grows_single.mp hc
      have hstate := ih hr
      rw [endsUnpaired_concat]
      cases hunpaired : endsUnpaired w with
      | false =>
          rw [hunpaired, if_neg Bool.false_ne_true] at hstate
          rw [hstate, step] at hstep
          split_ifs at hstep with hquote hbackslash <;> cases hstep
          · rw [hbackslash]
            rfl
          · simp [hbackslash]
      | true =>
          rw [hunpaired, if_pos rfl] at hstate
          rw [hstate, step] at hstep
          cases hstep
          simp

/-! ### How a token was read -/

/-- What the scanner reads is no token, or a word from where a token begins, or what follows a quote. -/
def Pending.Grown (p : Pending) : Prop :=
  p.state.tokenClass? = none ∨ (∃ lineStart, reads lineStart p.word = some p.state) ∨
    (p.word ≠ [] ∧ grows .string p.word = some p.state)

theorem grown_of_mem_pieces {p : Pending} (hp : p.Grown) (here : Point) (cs : List Char) :
    ∀ q ∈ pieces p here cs, q.Grown := by
  refine forall_pieces ?_ ?_ hp here cs
  · intro p here c state hp hstep
    have hgrows := grows_single.mpr hstep
    unfold Pending.Grown
    rw [word_grow]
    rcases hp with hnone | ⟨lineStart, hreads⟩ | ⟨_, hstring⟩
    · -- nothing grows that is no token
      obtain ⟨kind, hkind⟩ := Option.ne_none_iff_exists'.mp (tokenClass?_of_grow hstep)
      exact absurd hkind (not_grows_of_tokenClass? hnone hgrows)
    · exact .inr (.inl ⟨lineStart, (reads_append (ne_nil_of_reads hreads)).mpr ⟨_, hreads, hgrows⟩⟩)
    · exact .inr (.inr ⟨by simp, grows_append.mpr ⟨_, hstring, hgrows⟩⟩)
  · intro p here c state hstep
    obtain ⟨_, _, rfl⟩ | ⟨_, _, rfl⟩ | ⟨_, hgrow⟩ := step_fresh_cases hstep
    · exact .inr (.inl ⟨_, rfl⟩)
    · exact .inl rfl
    · exact .inr (.inr ⟨List.cons_ne_nil _ _, grows_single.mpr hgrow⟩)

theorem stops_nil (s : ScanState) : Stops s [] := fun _ _ h => by cases h

/-- A token of a text is a word of its class, or a string and not empty. -/
theorem matches_of_mem_scan {text : String} {start : Point} {keep : ClassSet} {t : Token}
    (h : t ∈ Token.scan text start keep) :
    (∃ column, Matches column t.kind t.text.toList []) ∨
      (t.kind = .string ∧ t.text.toList ≠ [] ∧ ∃ s, grows .string t.text.toList = some s) := by
  rw [Token.scan_eq, scanFrom_eq_flatMap_pieces] at h
  obtain ⟨q, hq, ht⟩ := List.mem_flatMap.mp h
  have hkind := tokenClass?_of_mem_finish ht
  obtain ⟨_, _, htext⟩ := mem_finish ht
  rw [htext, String.toList_ofList]
  have hfirst : Pending.Grown ⟨if start.column = 0 then .lineStart else .blank, start, start, []⟩ := by
    left
    split <;> rfl
  rcases grown_of_mem_pieces hfirst _ _ q hq with hnone | ⟨lineStart, hreads⟩ | ⟨hne, hstring⟩
  · rw [hnone] at hkind
    cases hkind
  · left
    cases lineStart with
    | false => exact ⟨1, matches_of_reads hreads hkind (stops_nil _)⟩
    | true => exact ⟨0, matches_of_reads hreads hkind (stops_nil _)⟩
  · right
    refine ⟨?_, hne, q.state, hstring⟩
    rw [eq_of_grows_string hstring] at hkind
    split at hkind <;> exact (Option.some.inj hkind).symm

/-! ### Scanning a word by itself -/

/-- A word may stand at any other column, unless that makes it a directive or no directive. -/
theorem matches_again {column other : Nat} {kind : TokenClass} {w : List Char}
    (h : Matches column kind w []) (hother : other = 0 ↔ kind = .directive) :
    Matches other kind w [] := by
  cases kind with
  | directive => exact ⟨hother.mpr rfl, h.2⟩
  | symbol =>
      refine ⟨h.1, ?_⟩
      rintro ⟨hzero, _⟩
      cases hother.mp hzero
  | _ => exact h

theorem map_lexeme_scan (text : String) (start : Point) :
    (Token.scan text start (ClassSet.scanned true)).map lexeme = lexemesOver start text.toList := by
  rw [Token.scan_eq, ClassSet.scanned, if_pos rfl, map_scanFrom, lexemesOver]
  cases text.toList with
  | nil => split <;> rfl
  | cons c cs =>
      rw [lexemesFrom, step_start, lexemesAt]
      rfl

/-- A word of a class is the one token of its text. -/
theorem lexemesOver_of_matches {p : Point} {kind : TokenClass} {w : List Char}
    (h : Matches p.column kind w []) : lexemesOver p w = [(kind, w)] := by
  obtain ⟨s, hreads, hkind⟩ := reads_of_matches h
  have hstring : s ≠ .string := by
    rintro rfl
    cases hkind
    exact absurd h (Language.notMem_zero _)
  have hword := lexemesOver_word hreads hkind hstring (stops_nil s)
  rw [List.append_nil] at hword
  rw [hword]
  rfl

/-- A string in quotes is the one token of its text.  After an unpaired backslash the closing quote
belongs to the string. -/
theorem lexemesOver_quoted {p : Point} {s : ScanState} {w : List Char} (h : grows .string w = some s)
    (hne : w ≠ []) : lexemesOver p ('"' :: w ++ ['"']) =
      [(.string, if endsUnpaired w then w ++ ['"'] else w)] := by
  have hs := eq_of_grows_string h
  cases hunpaired : endsUnpaired w with
  | false =>
      rw [hunpaired, if_neg Bool.false_ne_true] at hs
      rw [hs, grows_string, stringTail, mul_one] at h
      rw [lexemesOver_string h [], stringToken, if_neg hne, if_neg Bool.false_ne_true]
      rfl
  | true =>
      rw [hunpaired, if_pos rfl] at hs
      rw [hs] at h
      have hclosed : grows .string (w ++ ['"']) = some .string :=
        grows_append.mpr ⟨.escape, h, rfl⟩
      rw [List.cons_append, lexemesOver_openString hclosed rfl, stringToken, if_neg (by simp),
        if_pos rfl]

end Scan

/-- The text of a token as it is written: a string in its quotes. -/
def Token.alone (t : Token) : String := if t.kind = .string then "\"" ++ t.text ++ "\"" else t.text

namespace Scan

/-- **Stability.**  A token of any text, scanned by itself, is one token of the same class, if it is
put at the start of a line exactly when it is a directive.  It has the same text, except that a string
that ends in an unpaired backslash takes in the quote put after it. -/
theorem scan_alone {text : String} {start again : Point} {t : Token}
    (ht : t ∈ Token.scan text start (ClassSet.scanned true))
    (hagain : again.column = 0 ↔ t.kind = .directive) :
    ∃ u, Token.scan t.alone again (ClassSet.scanned true) = [u] ∧ u.kind = t.kind ∧
      u.text = if t.kind = .string ∧ endsUnpaired t.text.toList = true then t.text ++ "\""
        else t.text := by
  rcases matches_of_mem_scan ht with ⟨column, hmatches⟩ | ⟨hkind, hne, s, hgrows⟩
  · have hstring : t.kind ≠ .string := by
      intro hkind
      rw [hkind] at hmatches
      exact absurd hmatches (Language.notMem_zero _)
    have halone : t.alone = t.text := if_neg hstring
    have hlexemes := lexemesOver_of_matches (matches_again hmatches hagain)
    rw [← map_lexeme_scan, List.map_eq_singleton_iff] at hlexemes
    obtain ⟨u, hscan, hu⟩ := hlexemes
    refine ⟨u, by rw [halone, hscan], congrArg Prod.fst hu, ?_⟩
    rw [if_neg fun h => hstring h.1]
    exact String.toList_inj.mp (congrArg Prod.snd hu)
  · have halone : t.alone.toList = '"' :: t.text.toList ++ ['"'] := by
      rw [Token.alone, if_pos hkind, String.toList_append, String.toList_append]
      rfl
    have hlexemes := lexemesOver_quoted (p := again) hgrows hne
    rw [← halone, ← map_lexeme_scan, List.map_eq_singleton_iff] at hlexemes
    obtain ⟨u, hscan, hu⟩ := hlexemes
    refine ⟨u, hscan, (congrArg Prod.fst hu).trans hkind.symm, ?_⟩
    apply String.toList_inj.mp
    rw [show u.text.toList = _ from congrArg Prod.snd hu]
    cases endsUnpaired t.text.toList <;> simp [hkind]

/-- The place at which a token is scanned again: the start of a line for a directive. -/
def placeAgain (t : Token) : Point := if t.kind = .directive then ⟨0, 0, 0, 0⟩ else ⟨0, 1, 0, 1⟩

/-- A directive, numbers that lack digits, a number sign within a line, foreign characters, a string
over two lines and one that breaks off after a backslash. -/
def brittleSample : String := "#a\n1.e# 0x é\u0001/ \"b\n\\\"\"\"\\\\c\\"

theorem scan_alone_brittleSample :
    let tokens := Token.scan brittleSample (Point.fileStart 0) (ClassSet.scanned true)
    tokens.map (fun t => (t.kind, t.text)) =
        [(.directive, "#a"), (.float, "1.e"), (.symbol, "#"), (.hexInteger, "0x"),
          (.unknown, "é\u0001"), (.symbol, "/"), (.string, "b\n\\\""), (.string, "\\\\c\\")] ∧
      ∀ t ∈ tokens, ((placeAgain t).column = 0 ↔ t.kind = .directive) ∧
        ∃ u, Token.scan t.alone (placeAgain t) (ClassSet.scanned true) = [u] ∧ u.kind = t.kind ∧
          u.text = if t.kind = .string ∧ endsUnpaired t.text.toList = true then t.text ++ "\""
            else t.text := by
  intro tokens
  refine ⟨by decide +kernel, ?_⟩
  intro t ht
  have hagain : (placeAgain t).column = 0 ↔ t.kind = .directive := by
    unfold placeAgain
    split
    case isTrue hkind => simp [hkind]
    case isFalse hkind => simp [hkind]
  exact ⟨hagain, scan_alone ht hagain⟩

end Scan

end Shading
