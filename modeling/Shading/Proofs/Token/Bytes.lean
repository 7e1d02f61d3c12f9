import Mathlib.Data.List.Basic
import Shading.Token.Scan

/-! # Scanning bytes and scanning characters

The scanner runs over the bytes of a text and cuts its tokens out of it.  What is said about tokens is
mostly said about characters, so here is the same scan over characters (`scanFrom`), which collects the
characters of the token being read, and the proof that the two agree (`scan_eq`).

The first byte of a character does what the character does, and the other bytes of the character
belong to the same token (`run_char`).  So whenever a character has been read, the scanner stands at
the end of the characters collected, and the slice that it would cut out is theirs (`Tracks`). -/

namespace Shading

/-! ### Characters as bytes -/

/-- The byte of a line break. -/
def breakByte : UInt8 := 0x0a

/-- Only the line break is encoded with its byte. -/
theorem breakByte_notMem_of_ne {c : Char} (h : c ≠ '\n') : breakByte ∉ String.utf8EncodeChar c := by
  have hne : c.toNat ≠ 0x0a := fun hcode => h (Char.toNat_inj.mp hcode)
  have hbyte : ∀ b : UInt8, 0x0a = b ↔ b.toNat = 0x0a := by
    intro b
    rw [eq_comm, ← UInt8.toNat_inj]
    rfl
  have hval : c.val.toNat = c.toNat := rfl
  unfold String.utf8EncodeChar breakByte
  simp only [hval]
  intro hmem
  split_ifs at hmem
  all_goals
    simp only [List.mem_cons, List.not_mem_nil, or_false, hbyte, UInt8.toNat_ofNat'] at hmem
    omega

namespace Scan

/-- The UTF-8 bytes of characters. -/
def encoded (cs : List Char) : List UInt8 := cs.flatMap String.utf8EncodeChar

theorem encoded_append (cs ds : List Char) : encoded (cs ++ ds) = encoded cs ++ encoded ds :=
  List.flatMap_append

theorem length_encoded_append (cs ds : List Char) :
    (encoded (cs ++ ds)).length = (encoded cs).length + (encoded ds).length := by
  rw [encoded_append, List.length_append]

theorem utf8EncodeChar_ne_nil (c : Char) : String.utf8EncodeChar c ≠ [] := by
  rw [← List.length_pos_iff, String.length_utf8EncodeChar]
  exact c.utf8Size_pos

theorem encoded_single (c : Char) : encoded [c] = String.utf8EncodeChar c := List.flatMap_singleton _ c

theorem length_encoded_single (c : Char) : (encoded [c]).length = c.utf8Size := by
  rw [encoded_single, String.length_utf8EncodeChar]

theorem length_encoded_cons (c : Char) (cs : List Char) :
    (encoded (c :: cs)).length = c.utf8Size + (encoded cs).length := by
  rw [← List.singleton_append, length_encoded_append, length_encoded_single]

theorem length_encoded_eq_zero {cs : List Char} : (encoded cs).length = 0 ↔ cs = [] := by
  cases cs with
  | nil => exact ⟨fun _ => rfl, fun _ => rfl⟩
  | cons c cs =>
      have hpos := c.utf8Size_pos
      rw [length_encoded_cons]
      constructor
      · intro h
        omega
      · intro h
        cases h

theorem utf8Bytes_eq_encoded (text : String) : Text.utf8Bytes text = encoded text.toList := by
  show text.toByteArray.data.toList = text.toList.flatMap String.utf8EncodeChar
  rw [← String.utf8Encode_toList, List.utf8Encode]
  simp

theorem length_utf8Bytes (text : String) : (Text.utf8Bytes text).length = text.utf8ByteSize := by
  rw [Text.utf8Bytes, Array.length_toList]
  rfl

theorem utf8Bytes_injective {s t : String} (h : Text.utf8Bytes s = Text.utf8Bytes t) : s = t :=
  String.toByteArray_inj.mp (ByteArray.ext (Array.toList_inj.mp h))

/-- The bytes of the characters at the front of a text end where a character ends. -/
theorem isValid_front {text : String} {front back : List Char} (h : text.toList = front ++ back) :
    String.Pos.Raw.IsValid text ⟨(encoded front).length⟩ := by
  have htext : text = String.ofList front ++ String.ofList back := by
    rw [← String.ofList_append, ← h, String.ofList_toList]
  have hsize : (encoded front).length = (String.ofList front).utf8ByteSize := by
    rw [← length_utf8Bytes, utf8Bytes_eq_encoded, String.toList_ofList]
  rw [htext, hsize]
  exact String.Pos.Raw.isValid_rawEndPos.append_right _

/-- The slice under characters of a text is made of these characters. -/
theorem slice?_eq_some {text : String} {front word back : List Char}
    (h : text.toList = front ++ (word ++ back)) :
    Text.slice? text (encoded front).length ((encoded front).length + (encoded word).length) =
      some (String.ofList word) := by
  have hstop := isValid_front ((List.append_assoc front word back).trans h.symm).symm
  rw [length_encoded_append] at hstop
  rw [Text.slice?, dif_pos ⟨Nat.le_add_right _ _, isValid_front h, hstop⟩]
  refine congrArg some (utf8Bytes_injective ?_)
  rw [utf8Bytes_eq_encoded (String.ofList word), String.toList_ofList, Text.utf8Bytes,
    String.toUTF8_eq_toByteArray, String.toByteArray_extract, ByteArray.data_extract,
    Array.toList_extract]
  show (Text.utf8Bytes text).extract _ _ = _
  rw [utf8Bytes_eq_encoded, h, encoded_append, encoded_append, List.extract_eq_take_drop,
    List.drop_left, Nat.add_sub_cancel_left, List.take_left]

/-! ### Scanning characters -/

/-- The token being read, with its characters. -/
structure Pending where
  state : ScanState
  /-- Where its first character stands. -/
  start : Point
  /-- Where its last byte stands. -/
  last : Point
  /-- Its characters, the latest first. -/
  chars : List Char
deriving Repr, Inhabited

/-- The characters read, in the order of the text. -/
def Pending.word (p : Pending) : List Char := p.chars.reverse

theorem word_grow (p : Pending) (state : ScanState) (last : Point) (c : Char) :
    Pending.word ⟨state, p.start, last, c :: p.chars⟩ = p.word ++ [c] := List.reverse_cons

/-- The token that ends here, if it has characters and a wanted class. -/
def Pending.finish (keep : ClassSet) (p : Pending) : List Token :=
  match p.chars, p.state.tokenClass? with
  | _ :: _, some kind =>
    if keep.contains kind then [⟨kind, ⟨p.start, p.last⟩, String.ofList p.chars.reverse⟩] else []
  | _, _ => []

/-- Scans on from a token being read, with the next character at `here`. -/
def scanFrom (keep : ClassSet) (p : Pending) (here : Point) : List Char → List Token
  | [] => p.finish keep
  | c :: cs =>
    match step p.state c with
    | .grow state =>
      scanFrom keep ⟨state, p.start, here.lastByte c, c :: p.chars⟩ (here.after c) cs
    | .fresh state =>
      p.finish keep ++ scanFrom keep ⟨state, here, here.lastByte c, [c]⟩ (here.after c) cs

/-! ### Bytes of wide characters -/

/-- The character takes more than one byte. -/
def IsWide (c : Char) : Prop := 128 ≤ c.toNat

theorem IsWide.ne {c d : Char} (h : IsWide c) (hd : d.toNat < 128) : c ≠ d := by
  rintro rfl
  exact absurd h (Nat.not_le.mpr hd)

theorem IsWide.not_contains {c : Char} (h : IsWide c) {ds : List Char}
    (hds : ds.all (·.toNat < 128) = true) : ds.contains c = false := by
  rw [List.contains_eq_mem, decide_eq_false_iff_not]
  intro hc
  exact h.ne (decide_eq_true_iff.mp (List.all_eq_true.mp hds c hc)) rfl

theorem IsWide.ofChar {c : Char} (h : IsWide c) : CharKind.ofChar c = .unknown := by
  unfold IsWide at h
  simp only [CharKind.ofChar, CharKind.ofCode]
  grind

/-- The automaton does not tell wide characters apart. -/
theorem IsWide.step_eq {c : Char} (h : IsWide c) (s : ScanState) : step s c = step s 'é' := by
  have hkind : CharKind.ofChar c = CharKind.ofChar 'é' := h.ofChar
  have hhex : isHexDigit c = isHexDigit 'é' := by
    rw [isHexDigit, isDigit, h.ofChar, h.not_contains (by decide)]
    decide
  have hfloat : isFloatChar c = isFloatChar 'é' := by
    rw [isFloatChar, isDigit, h.ofChar, h.not_contains (by decide)]
    decide
  have hhexFloat : isHexFloatChar c = isHexFloatChar 'é' := by
    rw [isHexFloatChar, hhex, h.not_contains (by decide)]
    decide
  have hne : ∀ d : Char, d.toNat < 128 → (c = d) = False := fun d hd => eq_false (h.ne hd)
  cases s <;>
    simp (disch := decide) [step, growIf, opening, isDigit, isWordChar, startsFraction,
      startsHexFraction, hkind, hhex, hfloat, hhexFloat, hne]

/-- Once a wide character has been read, another one belongs to the same token. -/
theorem step_wide_again (s t : ScanState) (h : step s 'é' = .grow t ∨ step s 'é' = .fresh t) :
    step t 'é' = .grow t := by
  cases s <;> rcases h with h | h <;> cases h <;> rfl

theorem toNat_ofUInt8 (byte : UInt8) : (Char.ofUInt8 byte).toNat = byte.toNat := rfl

theorem utf8EncodeChar_of_not_wide {c : Char} (h : ¬ IsWide c) :
    ∃ byte, String.utf8EncodeChar c = [byte] ∧ Char.ofUInt8 byte = c := by
  have hcode : c.val.toNat < 128 := Nat.not_le.mp h
  refine ⟨UInt8.ofNat c.val.toNat, ?_, ?_⟩
  · rw [String.utf8EncodeChar, if_pos (by omega)]
  · refine Char.toNat_inj.mp ?_
    rw [toNat_ofUInt8, UInt8.toNat_ofNat']
    exact Nat.mod_eq_of_lt (by omega)

theorem le_toNat_ofNat {n : Nat} (h : 128 ≤ n) (hn : n < 256) : 128 ≤ (UInt8.ofNat n).toNat := by
  rw [UInt8.toNat_ofNat']
  omega

theorem isWide_of_mem_utf8EncodeChar {c : Char} (h : IsWide c) {byte : UInt8}
    (hbyte : byte ∈ String.utf8EncodeChar c) : IsWide (Char.ofUInt8 byte) := by
  have hcode : 128 ≤ c.val.toNat := h
  rw [IsWide, toNat_ofUInt8]
  rw [String.utf8EncodeChar, if_neg (by omega)] at hbyte
  split_ifs at hbyte
  all_goals
    simp only [List.mem_cons, List.not_mem_nil, or_false] at hbyte
    rcases hbyte with rfl | rfl | rfl | rfl
    all_goals exact le_toNat_ofNat (by omega) (by omega)

/-! ### Reading a character -/

namespace Scanner

variable {text : String} {keep : ClassSet}

/-- Passes all bytes of a character. -/
def passChar (s : Scanner) (c : Char) : Scanner := (String.utf8EncodeChar c).foldl pass s

theorem foldl_pass {bytes : List UInt8} (hne : bytes ≠ []) (s : Scanner) :
    bytes.foldl pass s = { s with
      pos := s.pos + bytes.length
      point := s.point.advanced bytes
      last := s.point.advanced bytes.dropLast } := by
  induction bytes generalizing s with
  | nil => exact absurd rfl hne
  | cons byte bytes ih =>
      cases bytes with
      | nil => rfl
      | cons next rest =>
          have hlength : s.pos + 1 + (next :: rest).length = s.pos + (byte :: next :: rest).length := by
            simp only [List.length_cons]
            omega
          rw [List.foldl_cons, ih (List.cons_ne_nil next rest), List.dropLast_cons_cons, pass,
            hlength]
          rfl

theorem passChar_eq (s : Scanner) (c : Char) :
    s.passChar c = { s with
      pos := s.pos + c.utf8Size, point := s.point.after c, last := s.point.lastByte c } := by
  rw [passChar, foldl_pass (utf8EncodeChar_ne_nil c), String.length_utf8EncodeChar]
  rfl

/-- A byte that is not passed is the quote that closes a string. -/
theorem steps_eq_false {mode : Mode} {byte : UInt8} (h : (transition mode byte).steps = false) :
    mode = .reading .string ∧ byte = quoteByte := by
  unfold transition at h
  split at h
  · split at h
    case isTrue hclose => exact ⟨congrArg _ hclose.1, hclose.2⟩
    case isFalse => split at h <;> cases h
  · split at h <;> cases h

/-- The loop of the scan: one transition, and on from the byte after it or from the same byte. -/
theorem run_cons (s : Scanner) (byte : UInt8) (rest : List UInt8) :
    run text keep (byte :: rest) s =
      (s.turn text keep byte).1 ++
        run text keep (if (transition s.mode byte).steps then rest else byte :: rest)
          (s.turn text keep byte).2 := by
  rw [run]
  cases hsteps : (transition s.mode byte).steps with
  | true => rfl
  | false =>
      obtain ⟨hmode, rfl⟩ := steps_eq_false hsteps
      have hnext : (s.turn text keep quoteByte).2.mode = .closing := by
        rw [turn, hmode]
        rfl
      rw [if_neg Bool.false_ne_true, run, hnext]
      simp only [List.append_assoc]
      rfl

/-- A byte does what the character with its number does. -/
theorem run_byte {s : Scanner} {state : ScanState} (hmode : s.mode = .reading state) (byte : UInt8)
    (rest : List UInt8) :
    run text keep (byte :: rest) s =
      match step state (.ofUInt8 byte) with
      | .grow next => run text keep rest (pass { s with mode := .reading next } byte)
      | .fresh next =>
        s.ended text keep ++ run text keep rest (pass { s.restart with mode := .reading next } byte) := by
  by_cases hclose : state = .string ∧ byte = quoteByte
  · obtain ⟨rfl, rfl⟩ := hclose
    -- the string ends without a step, and the quote is passed in the second turn
    have hfirst : s.turn text keep quoteByte = (s.ended text keep, { s.restart with mode := .closing }) := by
      rw [turn, hmode]
      rfl
    rw [run_cons, hfirst, hmode]
    show s.ended text keep ++ run text keep (quoteByte :: rest) { s.restart with mode := .closing } = _
    rw [run_cons]
    rfl
  · have htransition : transition s.mode byte =
        match step state (.ofUInt8 byte) with
        | .grow next => ⟨.reading next, true, false⟩
        | .fresh next => ⟨.reading next, true, true⟩ := by
      rw [hmode]
      exact if_neg hclose
    rw [run_cons, turn, htransition]
    cases step state (.ofUInt8 byte) <;> rfl

/-- The bytes of a wide character behind the first belong to the same token. -/
theorem run_wide {state : ScanState} (hstate : step state 'é' = .grow state) {bytes : List UInt8}
    (h : ∀ byte ∈ bytes, IsWide (.ofUInt8 byte)) {s : Scanner} (hmode : s.mode = .reading state)
    (rest : List UInt8) :
    run text keep (bytes ++ rest) s = run text keep rest (bytes.foldl pass s) := by
  induction bytes generalizing s with
  | nil => rfl
  | cons byte bytes ih =>
      have hstay : ({ s with mode := .reading state } : Scanner) = s := by rw [← hmode]
      rw [List.cons_append, run_byte hmode, (h byte List.mem_cons_self).step_eq, hstate, List.foldl_cons]
      dsimp only
      rw [hstay]
      exact ih (fun b hb => h b (List.mem_cons_of_mem byte hb)) hmode

theorem run_char {s : Scanner} {state : ScanState} (hmode : s.mode = .reading state) (c : Char)
    (rest : List UInt8) :
    run text keep (String.utf8EncodeChar c ++ rest) s =
      match step state c with
      | .grow next => run text keep rest (passChar { s with mode := .reading next } c)
      | .fresh next =>
        s.ended text keep ++ run text keep rest (passChar { s.restart with mode := .reading next } c) := by
  by_cases hc : IsWide c
  · have hwide := fun byte => @isWide_of_mem_utf8EncodeChar c hc byte
    unfold passChar
    cases hbytes : String.utf8EncodeChar c with
    | nil => exact absurd hbytes (utf8EncodeChar_ne_nil c)
    | cons byte bytes =>
        rw [hbytes] at hwide
        rw [List.cons_append, run_byte hmode, (hwide byte List.mem_cons_self).step_eq, hc.step_eq]
        have htail := fun b hb => hwide b (List.mem_cons_of_mem byte hb)
        cases hstep : step state 'é' with
        | grow next => exact run_wide (step_wide_again state next (.inl hstep)) htail rfl rest
        | fresh next =>
            refine congrArg (s.ended text keep ++ ·) ?_
            exact run_wide (step_wide_again state next (.inr hstep)) htail rfl rest
  · obtain ⟨byte, hbytes, hchar⟩ := utf8EncodeChar_of_not_wide hc
    unfold passChar
    rw [hbytes, List.singleton_append, run_byte hmode, hchar]
    rfl

end Scanner

/-! ### The two scans -/

/-- The scanner stands behind the characters of a pending token, which stand behind `front`. -/
structure Tracks (front : List Char) (p : Pending) (s : Scanner) : Prop where
  pos : s.pos = (encoded front).length + (encoded p.word).length
  last : s.last = p.last
  tokenStart : s.tokenStart = (encoded front).length
  tokenPoint : s.tokenPoint = p.start
  mode : s.mode = .reading p.state

/-- The token that the scanner cuts out is the one whose characters were collected. -/
theorem Tracks.ended_eq {text : String} {front back : List Char} {p : Pending} {s : Scanner}
    (h : Tracks front p s) (htext : text.toList = front ++ (p.word ++ back)) (keep : ClassSet) :
    s.ended text keep = p.finish keep := by
  have hempty : s.tokenStart ≠ s.pos ↔ p.chars ≠ [] := by
    rw [h.tokenStart, h.pos, ne_eq, Nat.left_eq_add, length_encoded_eq_zero, Pending.word,
      List.reverse_eq_nil_iff]
  have hslice : Text.slice? text s.tokenStart s.pos = some (String.ofList p.word) := by
    rw [h.tokenStart, h.pos]
    exact slice?_eq_some htext
  unfold Scanner.ended Pending.finish
  rw [hslice, h.mode, h.tokenPoint, h.last, Mode.tokenClass?]
  simp only [hempty, Option.getD_some, Pending.word]
  cases p.chars <;> cases p.state.tokenClass? <;> simp

/-- The scanner and the pending token both take the next character. -/
theorem Tracks.passChar {front : List Char} {p : Pending} {s : Scanner} (h : Tracks front p s) (c : Char)
    (state : ScanState) :
    Tracks front ⟨state, p.start, s.point.lastByte c, c :: p.chars⟩
      (Scanner.passChar { s with mode := .reading state } c) := by
  rw [Scanner.passChar_eq]
  refine ⟨?_, rfl, h.tokenStart, h.tokenPoint, rfl⟩
  rw [word_grow, length_encoded_append, length_encoded_single, ← Nat.add_assoc, ← h.pos]

theorem Tracks.restart {front : List Char} {p : Pending} {s : Scanner} (h : Tracks front p s)
    (state : ScanState) :
    Tracks (front ++ p.word) ⟨state, s.point, s.last, []⟩ { s.restart with mode := .reading state } := by
  have hpos : s.pos = (encoded (front ++ p.word)).length := by
    rw [length_encoded_append, h.pos]
  exact ⟨hpos, rfl, hpos, rfl, rfl⟩

/-- From where it stands, the scanner hands out the tokens of the remaining characters. -/
theorem Tracks.run_eq {text : String} {cs : List Char} {front : List Char} {p : Pending} {s : Scanner}
    (h : Tracks front p s) (htext : text.toList = front ++ (p.word ++ cs)) (keep : ClassSet) :
    Scanner.run text keep (encoded cs) s = scanFrom keep p s.point cs := by
  induction cs generalizing front p s with
  | nil => exact h.ended_eq htext keep
  | cons c cs ih =>
      have hbytes : encoded (c :: cs) = String.utf8EncodeChar c ++ encoded cs := List.flatMap_cons
      have hpoint (t : Scanner) : (t.passChar c).point = t.point.after c := by rw [Scanner.passChar_eq]
      rw [hbytes, Scanner.run_char h.mode, scanFrom]
      cases hstep : step p.state c with
      | grow state =>
          have hnext := h.passChar c state
          dsimp only
          rw [ih hnext, hpoint]
          rw [htext, word_grow]
          simp
      | fresh state =>
          have hnext := (h.restart state).passChar c state
          dsimp only
          rw [h.ended_eq htext, ih hnext, hpoint]
          · rfl
          · rw [htext]
            simp [Pending.word]

end Scan

/-- The tokens of a text are those that a scan of its characters collects. -/
theorem Token.scan_eq (text : String) (start : Point) (keep : ClassSet) :
    Token.scan text start keep =
      Scan.scanFrom keep
        ⟨if start.column = 0 then .lineStart else .blank, start, start, []⟩ start text.toList := by
  have htracks : Scan.Tracks [] ⟨if start.column = 0 then .lineStart else .blank, start, start, []⟩
      ⟨0, start, start, 0, start, .reading (if start.column = 0 then .lineStart else .blank)⟩ :=
    ⟨rfl, rfl, rfl, rfl, rfl⟩
  rw [Token.scan, Scan.utf8Bytes_eq_encoded]
  exact htracks.run_eq rfl keep

end Shading
