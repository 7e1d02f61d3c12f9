import Mathlib.Data.List.Basic
import Shading.Proofs.Token.Automaton
import Shading.Proofs.Token.Bytes

/-! # Tokens and the text between them

A scan cuts a text into pieces that lie end to end (`pieces`, `Laid`).  A token is a piece whose state
has a class; the pieces whose state has none are single blanks, line breaks and quotes.  So the tokens
of a file are slices of its text, in order, and every byte outside them is one of `gapBytes`
(`scan_covers`).

Offsets count bytes and characters are up to four bytes long, so places are sums of the lengths of
encoded characters (`encoded`). -/

namespace Shading.Scan

/-! ### Pieces -/

/-- All that a scan reads, whether it has a class or not, in the order of the text. -/
def pieces (p : Pending) (here : Point) : List Char → List Pending
  | [] => [p]
  | c :: cs =>
    match step p.state c with
    | .grow state => pieces ⟨state, p.start, here.lastByte c, c :: p.chars⟩ (here.after c) cs
    | .fresh state => p :: pieces ⟨state, here, here.lastByte c, [c]⟩ (here.after c) cs

/-- The tokens of a scan are the pieces that have a wanted class. -/
theorem scanFrom_eq_flatMap_pieces (keep : ClassSet) (p : Pending) (here : Point) (cs : List Char) :
    scanFrom keep p here cs = (pieces p here cs).flatMap (Pending.finish keep) := by
  fun_induction pieces p here cs with
  | case1 p here => simp [scanFrom]
  | case2 p here c cs state hstep ih => rw [scanFrom, hstep, ← ih]
  | case3 p here c cs state hstep ih => rw [scanFrom, hstep, List.flatMap_cons, ← ih]

/-- The wanted classes select among all tokens. -/
theorem scan_eq_filter (text : String) (start : Point) (keep : ClassSet) :
    Token.scan text start keep =
      (Token.scan text start ClassSet.all).filter fun t => keep.contains t.kind := by
  rw [Token.scan_eq, Token.scan_eq, scanFrom_eq_flatMap_pieces, scanFrom_eq_flatMap_pieces,
    List.filter_flatMap]
  congr 1
  funext p
  unfold Pending.finish
  split
  · simp [ClassSet.all, List.filter_cons]
  · rfl

/-- Nothing of the text is lost between the pieces. -/
theorem flatMap_word_pieces (p : Pending) (here : Point) (cs : List Char) :
    (pieces p here cs).flatMap Pending.word = p.word ++ cs := by
  fun_induction pieces p here cs with
  | case1 p here => simp
  | case2 p here c cs state hstep ih =>
      rw [ih]
      simp [Pending.word]
  | case3 p here c cs state hstep ih =>
      rw [List.flatMap_cons, ih]
      simp [Pending.word]

/-- What can be said of a piece when it begins and whenever it grows holds of all pieces. -/
theorem forall_pieces {P : Pending → Prop}
    (hgrow : ∀ (p : Pending) (here : Point) (c : Char) (state : ScanState), P p →
      step p.state c = .grow state → P ⟨state, p.start, here.lastByte c, c :: p.chars⟩)
    (hfresh : ∀ (p : Pending) (here : Point) (c : Char) (state : ScanState),
      step p.state c = .fresh state → P ⟨state, here, here.lastByte c, [c]⟩)
    {p : Pending} (hp : P p) (here : Point) (cs : List Char) : ∀ q ∈ pieces p here cs, P q := by
  fun_induction pieces p here cs with
  | case1 p here => simpa using hp
  | case2 p here c cs state hstep ih => exact ih (hgrow p here c state hp hstep)
  | case3 p here c cs state hstep ih =>
      intro q hq
      rcases List.mem_cons.mp hq with rfl | hq
      · exact hp
      · exact ih (hfresh p here c state hstep) q hq

/-! ### Where pieces lie -/

/-- The piece begins at an offset of a file and ends with its last character. -/
structure Pending.StandsAt (p : Pending) (file offset : Nat) : Prop where
  startFile : p.start.file = file
  lastFile : p.last.file = file
  start : p.start.index = offset
  last : p.chars ≠ [] → p.last.index + 1 = offset + (encoded p.word).length

/-- Pieces that lie end to end from an offset on. -/
inductive Laid (file : Nat) : Nat → List Pending → Prop
  | nil (offset : Nat) : Laid file offset []
  | cons {offset : Nat} {p : Pending} {ps : List Pending} (here : p.StandsAt file offset)
      (after : Laid file (offset + (encoded p.word).length) ps) : Laid file offset (p :: ps)

theorem countOn_eq {n k : Nat} (h : n + k < UInt32.size) : countOn n k = n + k := by
  rw [countOn, positionLimit]
  omega

theorem index_advance {p : Point} {byte : UInt8} (h : p.index + 1 < UInt32.size) :
    (p.advance byte).index = p.index + 1 := by
  unfold Point.advance
  split <;> exact countOn_eq h

theorem index_advanced {p : Point} {bytes : List UInt8} (h : p.index + bytes.length < UInt32.size) :
    (p.advanced bytes).index = p.index + bytes.length := by
  induction bytes generalizing p with
  | nil => rfl
  | cons byte bytes ih =>
      rw [List.length_cons] at h ⊢
      have hone : (p.advance byte).index = p.index + 1 := index_advance (by omega)
      have hrest := ih (p := p.advance byte) (by omega)
      rw [Point.advanced, List.foldl_cons, ← Point.advanced, hrest, hone]
      omega

theorem index_after {p : Point} {c : Char} (h : p.index + c.utf8Size < UInt32.size) :
    (p.after c).index = p.index + c.utf8Size := by
  rw [← String.length_utf8EncodeChar] at h ⊢
  exact index_advanced h

theorem length_leading (c : Char) : (leading c).length = c.utf8Size - 1 := by
  rw [leading, List.length_dropLast, String.length_utf8EncodeChar]

theorem index_lastByte {p : Point} {c : Char} (h : p.index + c.utf8Size < UInt32.size) :
    (p.lastByte c).index + 1 = p.index + c.utf8Size := by
  have hpos := c.utf8Size_pos
  have hlength := length_leading c
  rw [Point.lastByte, index_advanced (by omega), hlength]
  omega

theorem file_advanced (p : Point) (bytes : List UInt8) : (p.advanced bytes).file = p.file := by
  induction bytes generalizing p with
  | nil => rfl
  | cons byte bytes ih =>
      refine (ih (p.advance byte)).trans ?_
      unfold Point.advance
      split <;> rfl

theorem file_after (p : Point) (c : Char) : (p.after c).file = p.file := file_advanced p _

theorem file_lastByte (p : Point) (c : Char) : (p.lastByte c).file = p.file := file_advanced p _

/-- A piece keeps its place when it grows by the character after it. -/
theorem Pending.StandsAt.grow {p : Pending} {file offset : Nat} {here : Point} {c : Char}
    (h : p.StandsAt file offset) (hfile : here.file = file)
    (hhere : here.index = offset + (encoded p.word).length)
    (hroom : here.index + c.utf8Size < UInt32.size) (state : ScanState) :
    Pending.StandsAt ⟨state, p.start, here.lastByte c, c :: p.chars⟩ file offset := by
  refine ⟨h.startFile, (file_lastByte here c).trans hfile, h.start, fun _ => ?_⟩
  rw [index_lastByte hroom, word_grow, length_encoded_append, length_encoded_single, hhere]
  exact Nat.add_assoc _ _ _

theorem laid_pieces {file : Nat} (p : Pending) (here : Point) (cs : List Char) :
    ∀ offset, p.StandsAt file offset → here.file = file →
      here.index = offset + (encoded p.word).length →
      here.index + (encoded cs).length < UInt32.size → Laid file offset (pieces p here cs) := by
  fun_induction pieces p here cs with
  | case1 p here =>
      intro offset hp _ _ _
      exact .cons hp (.nil _)
  | case2 p here c cs state hstep ih =>
      intro offset hp hfile hhere hroom
      rw [length_encoded_cons] at hroom
      have hafter := index_after (p := here) (c := c) (by omega)
      refine ih offset (hp.grow hfile hhere (by omega) state) ((file_after here c).trans hfile) ?_ ?_
      · rw [word_grow, length_encoded_append, length_encoded_single, hafter]
        omega
      · omega
  | case3 p here c cs state hstep ih =>
      intro offset hp hfile hhere hroom
      rw [length_encoded_cons] at hroom
      have hafter := index_after (p := here) (c := c) (by omega)
      -- the new piece is the empty piece at `here`, grown by one character
      have hempty : Pending.StandsAt ⟨state, here, here, []⟩ file here.index :=
        ⟨hfile, hfile, rfl, fun hne => absurd rfl hne⟩
      have hfresh := hempty.grow (c := c) hfile rfl (by omega) state
      refine .cons hp ?_
      rw [← hhere]
      refine ih here.index hfresh ((file_after here c).trans hfile) ?_ (by omega)
      have hword : Pending.word ⟨state, here, here.lastByte c, [c]⟩ = [c] := rfl
      rw [hword, length_encoded_single, hafter]

/-- A piece among others stands after the bytes of those before it. -/
theorem Laid.standsAt {file : Nat} {q : Pending} {after : List Pending} :
    ∀ {before : List Pending} {offset : Nat}, Laid file offset (before ++ q :: after) →
      q.StandsAt file (offset + (encoded (before.flatMap Pending.word)).length)
  | [], _, .cons here _ => here
  | p :: before, offset, .cons _ rest => by
      have h := standsAt rest
      rw [List.flatMap_cons, length_encoded_append, ← Nat.add_assoc]
      exact h

/-! ### Tokens of pieces -/

theorem mem_finish {keep : ClassSet} {p : Pending} {t : Token} (h : t ∈ p.finish keep) :
    p.chars ≠ [] ∧ t.span = ⟨p.start, p.last⟩ ∧ t.text = String.ofList p.word := by
  unfold Pending.finish at h
  split at h
  case h_1 c cs kind hchars hkind =>
    split at h
    · rw [List.mem_singleton.mp h]
      refine ⟨?_, rfl, rfl⟩
      rw [hchars]
      exact List.cons_ne_nil c cs
    · cases h
  case h_2 => cases h

theorem tokenClass?_of_mem_finish {keep : ClassSet} {p : Pending} {t : Token}
    (h : t ∈ p.finish keep) : p.state.tokenClass? = some t.kind := by
  unfold Pending.finish at h
  split at h
  case h_1 c cs kind _ hkind =>
    split at h
    · rw [List.mem_singleton.mp h]
      exact hkind
    · cases h
  case h_2 => cases h

/-- Every token of a text stands in the file that the text starts in. -/
theorem files_of_mem_scan {text : String} {start : Point} {keep : ClassSet} {t : Token}
    (h : t ∈ Token.scan text start keep) :
    t.span.start.file = start.file ∧ t.span.last.file = start.file := by
  have hpieces : ∀ (p : Pending) (here : Point) (cs : List Char),
      p.start.file = start.file ∧ p.last.file = start.file → here.file = start.file →
        ∀ q ∈ pieces p here cs, q.start.file = start.file ∧ q.last.file = start.file := by
    intro p here cs hp hhere
    fun_induction pieces p here cs with
    | case1 p here => simpa using hp
    | case2 p here c cs state hstep ih =>
        exact ih ⟨hp.1, (file_lastByte here c).trans hhere⟩ (by rw [file_after, hhere])
    | case3 p here c cs state hstep ih =>
        intro q hq
        rcases List.mem_cons.mp hq with rfl | hq
        · exact hp
        · exact ih ⟨hhere, (file_lastByte here c).trans hhere⟩ (by rw [file_after, hhere]) q hq
  rw [Token.scan_eq, scanFrom_eq_flatMap_pieces] at h
  obtain ⟨q, hq, ht⟩ := List.mem_flatMap.mp h
  obtain ⟨_, hspan, _⟩ := mem_finish ht
  rw [hspan]
  exact hpieces _ _ _ ⟨rfl, rfl⟩ rfl q hq

theorem finish_all {p : Pending} {kind : TokenClass} (hchars : p.chars ≠ [])
    (hkind : p.state.tokenClass? = some kind) :
    p.finish ClassSet.all = [⟨kind, ⟨p.start, p.last⟩, String.ofList p.word⟩] := by
  obtain ⟨c, cs, hcs⟩ := List.exists_cons_of_ne_nil hchars
  simp [Pending.finish, Pending.word, hcs, hkind, ClassSet.all]

/-- The bytes under the token of a piece. -/
theorem Pending.StandsAt.range {p : Pending} {file offset : Nat} {keep : ClassSet} {t : Token}
    (h : p.StandsAt file offset) (ht : t ∈ p.finish keep) :
    t.span.range = (offset, offset + (encoded p.word).length) := by
  obtain ⟨hchars, hspan, _⟩ := mem_finish ht
  rw [hspan, Span.range, h.start, h.last hchars]

theorem Laid.le_start {file : Nat} {keep : ClassSet} {t : Token} {offset : Nat} {ps : List Pending}
    (h : Laid file offset ps) : t ∈ ps.flatMap (Pending.finish keep) → offset ≤ t.span.range.1 := by
  induction h with
  | nil offset =>
      intro ht
      cases ht
  | @cons offset p ps here after ih =>
      intro ht
      rw [List.flatMap_cons] at ht
      rcases List.mem_append.mp ht with ht | ht
      · exact Nat.le_of_eq (congrArg Prod.fst (here.range ht)).symm
      · have := ih ht
        omega

/-- The token ends before the other begins. -/
def Before (s t : Token) : Prop := s.span.range.2 ≤ t.span.range.1

/-- Tokens of pieces that lie end to end are in order and apart. -/
theorem Laid.pairwise_before {file : Nat} {keep : ClassSet} {offset : Nat} {ps : List Pending}
    (h : Laid file offset ps) : (ps.flatMap (Pending.finish keep)).Pairwise Before := by
  induction h with
  | nil offset => exact List.Pairwise.nil
  | @cons offset p ps here after ih =>
      rw [List.flatMap_cons, List.pairwise_append]
      refine ⟨?_, ih, ?_⟩
      · unfold Pending.finish
        split
        · split
          · exact List.pairwise_singleton Before _
          · exact List.Pairwise.nil
        · exact List.Pairwise.nil
      · intro s hs t ht
        have hle := after.le_start ht
        rw [Before, here.range hs]
        exact hle

/-! ### Between tokens -/

/-- The bytes that belong to no token: blanks, the line break and the quote. -/
def gapBytes : List UInt8 := [0x20, 0x09, 0x0a, 0x0b, 0x0c, 0x0d, 0x22]

/-- The character is a single byte that belongs to no token. -/
def IsGap (c : Char) : Prop := String.utf8EncodeChar c = [c.toNat.toUInt8] ∧ c.toNat.toUInt8 ∈ gapBytes

theorem isGap_of_kind {c : Char} (h : CharKind.ofChar c = .blank ∨ CharKind.ofChar c = .newline) :
    IsGap c := by
  have hcode : c.toNat = 0x20 ∨ c.toNat = 0x09 ∨ c.toNat = 0x0a ∨ c.toNat = 0x0b ∨ c.toNat = 0x0c ∨
      c.toNat = 0x0d := by
    unfold CharKind.ofChar CharKind.ofCode at h
    split_ifs at h with hnewline hblank <;> simp_all
  have hascii : c.val.toNat ≤ 127 := by
    have : c.val.toNat = c.toNat := rfl
    omega
  refine ⟨?_, ?_⟩
  · rw [String.utf8EncodeChar, if_pos hascii]
    rfl
  · rcases hcode with h | h | h | h | h | h <;> rw [h] <;> decide

theorem isGap_quote : IsGap '"' := ⟨by decide, by decide⟩

/-- A state without a class is opened by blanks, line breaks and quotes only. -/
theorem isGap_of_opening {lineStart : Bool} {c : Char}
    (h : (opening lineStart c).tokenClass? = none) : IsGap c := by
  unfold opening at h
  split at h
  case h_2 hkind => exact isGap_of_kind (.inl hkind)
  case h_3 hkind => exact isGap_of_kind (.inr hkind)
  case h_6 hkind =>
    split at h
    case isTrue hquote =>
      rw [hquote]
      exact isGap_quote
    case isFalse => split_ifs at h <;> cases h
  all_goals cases h

theorem isGap_of_fresh {s t : ScanState} {c : Char} (h : step s c = .fresh t)
    (hclass : t.tokenClass? = none) : IsGap c := by
  obtain ⟨_, _, rfl⟩ | ⟨rfl, _, _⟩ | ⟨_, hgrow⟩ := step_fresh_cases h
  · exact isGap_of_opening hclass
  · exact isGap_quote
  · exact absurd hclass (tokenClass?_of_grow hgrow)

/-- Pieces without a class consist of gaps. -/
theorem gap_of_mem_pieces {p : Pending} (hp : p.state.tokenClass? = none → ∀ c ∈ p.chars, IsGap c)
    (here : Point) (cs : List Char) :
    ∀ q ∈ pieces p here cs, q.state.tokenClass? = none → ∀ c ∈ q.chars, IsGap c := by
  refine forall_pieces ?_ ?_ hp here cs
  · intro p here c state _ hstep hclass
    exact absurd hclass (tokenClass?_of_grow hstep)
  · intro p here c state hstep hclass d hd
    rw [List.mem_singleton.mp hd]
    exact isGap_of_fresh hstep hclass

theorem mem_gapBytes_of_encoded {cs : List Char} (h : ∀ c ∈ cs, IsGap c) {byte : UInt8}
    (hbyte : byte ∈ encoded cs) : byte ∈ gapBytes := by
  obtain ⟨c, hc, hmem⟩ := List.mem_flatMap.mp hbyte
  rw [(h c hc).1, List.mem_singleton] at hmem
  rw [hmem]
  exact (h c hc).2

/-- The token covers the byte at an offset. -/
def Covers (t : Token) (offset : Nat) : Prop :=
  t.span.range.1 ≤ offset ∧ offset < t.span.range.2

/-- A byte of pieces that no token covers lies in a piece without a class. -/
theorem Laid.mem_gapBytes {file offset : Nat} {ps : List Pending} (h : Laid file offset ps)
    (hgap : ∀ q ∈ ps, q.state.tokenClass? = none → ∀ c ∈ q.chars, IsGap c) :
    ∀ (k : Nat) (byte : UInt8), (encoded (ps.flatMap Pending.word))[k]? = some byte →
      (∀ t ∈ ps.flatMap (Pending.finish ClassSet.all), ¬ Covers t (offset + k)) →
      byte ∈ gapBytes := by
  induction h with
  | nil offset =>
      intro k byte hbyte _
      cases hbyte
  | @cons offset p ps here after ih =>
      intro k byte hbyte hfree
      rw [List.flatMap_cons, encoded_append] at hbyte
      rw [List.flatMap_cons] at hfree
      by_cases hk : k < (encoded p.word).length
      · -- the byte is one of the piece `p`, which cannot be a token
        rw [List.getElem?_append_left hk] at hbyte
        have hmem : byte ∈ encoded p.word := List.mem_of_getElem? hbyte
        have hchars : p.chars ≠ [] := by
          intro hnil
          rw [Pending.word, hnil] at hmem
          cases hmem
        cases hkind : p.state.tokenClass? with
        | none =>
            refine mem_gapBytes_of_encoded ?_ hmem
            intro c hc
            exact hgap p List.mem_cons_self hkind c (List.mem_reverse.mp hc)
        | some kind =>
            have hmine := finish_all hchars hkind
            have htoken : (⟨kind, ⟨p.start, p.last⟩, String.ofList p.word⟩ : Token) ∈
                p.finish ClassSet.all := by
              rw [hmine]
              exact List.mem_singleton_self _
            refine absurd ?_ (hfree _ (List.mem_append_left _ htoken))
            rw [Covers, here.range htoken]
            constructor <;> dsimp only <;> omega
      · rw [List.getElem?_append_right (by omega)] at hbyte
        refine ih (fun q hq => hgap q (List.mem_cons_of_mem p hq)) (k - (encoded p.word).length) byte
          hbyte fun t ht => ?_
        have := hfree t (List.mem_append_right _ ht)
        rwa [show offset + (encoded p.word).length + (k - (encoded p.word).length) = offset + k by omega]

/-! ### The tokens of a file -/

/-- The token stands in the text of a file: its span begins and ends between characters, and its text
is the slice under the span. -/
structure StandsIn (t : Token) (file : Nat) (text : String) : Prop where
  startFile : t.span.start.file = file
  lastFile : t.span.last.file = file
  nonempty : t.text ≠ ""
  startsAtChar : String.Pos.Raw.IsValid text ⟨t.span.range.1⟩
  endsAtChar : String.Pos.Raw.IsValid text ⟨t.span.range.2⟩
  slice : Text.slice? text t.span.range.1 t.span.range.2 = some t.text
  bytes : Text.utf8Bytes t.text = (Text.utf8Bytes text).extract t.span.range.1 t.span.range.2

/-- A piece of a text gives a token that stands in the text. -/
theorem standsIn_of_laid {file : Nat} {text : String} {keep : ClassSet} {before after : List Pending}
    {q : Pending} {t : Token} (hlaid : Laid file 0 (before ++ q :: after))
    (htext : (before ++ q :: after).flatMap Pending.word = text.toList) (ht : t ∈ q.finish keep) :
    StandsIn t file text := by
  obtain ⟨hchars, hspan, hword⟩ := mem_finish ht
  have hplace := hlaid.standsAt
  have hrange := hplace.range ht
  rw [Nat.zero_add] at hrange
  have hsplit : text.toList =
      before.flatMap Pending.word ++ (q.word ++ after.flatMap Pending.word) := by
    rw [← htext, List.flatMap_append, List.flatMap_cons]
  refine ⟨?_, ?_, ?_, ?_, ?_, ?_, ?_⟩
  · rw [hspan]
    exact hplace.startFile
  · rw [hspan]
    exact hplace.lastFile
  · rw [hword]
    intro hempty
    have hnil : q.word = [] := by
      have := congrArg String.toList hempty
      rwa [String.toList_ofList] at this
    exact hchars (List.reverse_eq_nil_iff.mp hnil)
  · rw [hrange]
    exact isValid_front hsplit
  · rw [hrange]
    rw [← List.append_assoc] at hsplit
    have hvalid := isValid_front hsplit
    rwa [length_encoded_append] at hvalid
  · rw [hrange, hword]
    exact slice?_eq_some hsplit
  · rw [hrange, hword, utf8Bytes_eq_encoded, utf8Bytes_eq_encoded, String.toList_ofList, hsplit,
      encoded_append, encoded_append, List.extract_eq_take_drop, List.drop_left,
      Nat.add_sub_cancel_left, List.take_left]

/-- **Coverage.**  The tokens of a file that is not too long for its offsets to be counted are slices of
its text, in order and apart, and every byte that no token covers is a blank, a line break or a
quote. -/
theorem scan_covers (text : String) (file : Nat) (hsize : text.utf8ByteSize < UInt32.size) :
    let tokens := Token.scan text (Point.fileStart file) (ClassSet.scanned true)
    tokens.Pairwise Before ∧ (∀ t ∈ tokens, StandsIn t file text) ∧
      ∀ (k : Nat) (byte : UInt8), (Text.utf8Bytes text)[k]? = some byte →
        (∀ t ∈ tokens, ¬ Covers t k) → byte ∈ gapBytes := by
  intro tokens
  let first : Pending := ⟨.lineStart, Point.fileStart file, Point.fileStart file, []⟩
  let ps := pieces first (Point.fileStart file) text.toList
  have htokens : tokens = ps.flatMap (Pending.finish ClassSet.all) :=
    (Token.scan_eq text (Point.fileStart file) ClassSet.all).trans
      (scanFrom_eq_flatMap_pieces ClassSet.all first (Point.fileStart file) text.toList)
  have hword : ps.flatMap Pending.word = text.toList := flatMap_word_pieces first _ _
  have hlaid : Laid file 0 ps := by
    refine laid_pieces first _ _ 0 ⟨rfl, rfl, rfl, fun hne => absurd rfl hne⟩ rfl rfl ?_
    rw [← utf8Bytes_eq_encoded, length_utf8Bytes]
    show 0 + text.utf8ByteSize < UInt32.size
    omega
  have hgap : ∀ q ∈ ps, q.state.tokenClass? = none → ∀ c ∈ q.chars, IsGap c :=
    gap_of_mem_pieces (fun _ c hc => by cases hc) _ _
  rw [htokens]
  refine ⟨hlaid.pairwise_before, ?_, ?_⟩
  · intro t ht
    obtain ⟨q, hq, ht⟩ := List.mem_flatMap.mp ht
    obtain ⟨before, after, hps⟩ := List.append_of_mem hq
    rw [hps] at hlaid hword
    exact standsIn_of_laid hlaid hword ht
  · intro k byte hbyte hfree
    rw [utf8Bytes_eq_encoded, ← hword] at hbyte
    refine hlaid.mem_gapBytes hgap k byte hbyte ?_
    rwa [Nat.zero_add]

/-- Wide characters in every kind of token that may hold them, an escaped quote, and a string that is
not closed. -/
def wideSample : String := "#use é\n½ x/*é*/\"µ\\\"\" 0x1f\"ø"

theorem scan_covers_wideSample :
    wideSample.utf8ByteSize < UInt32.size ∧
      (let tokens := Token.scan wideSample (Point.fileStart 3) (ClassSet.scanned true)
      tokens.map (fun t => t.span.range) =
        [(0, 7), (8, 10), (11, 12), (12, 18), (19, 23), (25, 29), (30, 32)] ∧
      tokens.Pairwise Before ∧ (∀ t ∈ tokens, StandsIn t 3 wideSample) ∧
      ∀ (k : Nat) (byte : UInt8), (Text.utf8Bytes wideSample)[k]? = some byte →
        (∀ t ∈ tokens, ¬ Covers t k) → byte ∈ gapBytes) :=
  ⟨by decide +kernel, by decide +kernel, scan_covers wideSample 3 (by decide +kernel)⟩

end Shading.Scan
