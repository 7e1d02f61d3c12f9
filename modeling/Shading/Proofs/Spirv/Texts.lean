import Mathlib.Data.List.TakeWhile
import Shading.Proofs.Binary.Lossless
import Shading.Proofs.Spirv.Framing

/-! # Texts among the words of an instruction

A text is stored without its length: it goes up to the first zero byte, and the operand ends with the
word that holds this byte.  So whoever reads a module finds out where the next operand begins only by
reading the text.  `readText` reads by this rule.  What it finds is the text up to its first zero byte
(`readText_packBytes`), hence the text as it was written exactly if there is no such byte in it
(`readText_textWords_iff`). -/

namespace Shading.Spirv

/-- The bytes before the first that is zero. -/
def beforeZero (bytes : List UInt8) : List UInt8 := bytes.takeWhile (· ≠ 0)

/-- Reads a text from the front of words: its bytes up to the first that is zero, and the words after
the one with this byte.  `none` if there is no zero byte. -/
def readText : List UInt32 → Option (List UInt8 × List UInt32)
  | [] => none
  | word :: rest =>
    let bytes := Word.bytes32 word
    if 0 ∈ bytes then some (beforeZero bytes, rest)
    else (readText rest).map fun read => (bytes ++ read.1, read.2)

/-! ### The first zero byte -/

theorem beforeZero_eq_self_iff {bytes : List UInt8} : beforeZero bytes = bytes ↔ 0 ∉ bytes := by
  unfold beforeZero
  rw [List.takeWhile_eq_self_iff]
  constructor
  · intro h hzero
    simpa using h 0 hzero
  · intro h byte hbyte
    have hne : byte ≠ 0 := fun hzero => h (hzero ▸ hbyte)
    simpa using hne

/-- A first part without a zero byte stands before the first one. -/
theorem beforeZero_append_of_notMem {front : List UInt8} (h : 0 ∉ front) (more : List UInt8) :
    beforeZero (front ++ more) = front ++ beforeZero more := by
  have hfront : front.takeWhile (· ≠ 0) = front := beforeZero_eq_self_iff.mpr h
  unfold beforeZero
  rw [List.takeWhile_append_of_pos (List.takeWhile_eq_self_iff.mp hfront)]

/-- Nothing counts behind a zero byte. -/
theorem beforeZero_append_of_mem {front : List UInt8} (h : 0 ∈ front) (more : List UInt8) :
    beforeZero (front ++ more) = beforeZero front := by
  obtain ⟨before, after, rfl, hbefore⟩ := List.eq_append_cons_of_mem h
  rw [List.append_assoc, beforeZero_append_of_notMem hbefore, beforeZero_append_of_notMem hbefore]
  rfl

theorem length_beforeZero_lt {bytes : List UInt8} (h : 0 ∈ bytes) :
    (beforeZero bytes).length < bytes.length := by
  obtain ⟨before, after, rfl, hbefore⟩ := List.eq_append_cons_of_mem h
  rw [beforeZero_append_of_notMem hbefore]
  simp [beforeZero]

/-! ### Reading what was written -/

/-- A word with a zero byte is the last of a text. -/
theorem readText_last {a b c d : UInt8} (hzero : 0 ∈ [a, b, c, d]) (words : List UInt32) :
    readText (Word.ofBytes32 a b c d :: words) = some (beforeZero [a, b, c, d], words) := by
  rw [readText, Word.bytes32_ofBytes32]
  exact if_pos hzero

/-- A word without a zero byte is passed. -/
theorem readText_pass {a b c d : UInt8} (hzero : 0 ∉ [a, b, c, d]) (words : List UInt32) :
    readText (Word.ofBytes32 a b c d :: words) =
      (readText words).map fun read => ([a, b, c, d] ++ read.1, read.2) := by
  rw [readText, Word.bytes32_ofBytes32]
  exact if_neg hzero

/-- Fewer than four bytes are one word, which holds the zero byte behind them. -/
theorem readText_short {bytes : List UInt8} (padding : List UInt8) {a b c d : UInt8}
    (h : [a, b, c, d] = bytes ++ 0 :: padding) (rest : List UInt32) :
    readText (Word.ofBytes32 a b c d :: rest) = some (beforeZero bytes,
      [Word.ofBytes32 a b c d].drop ((beforeZero bytes).length / 4 + 1) ++ rest) := by
  have hzero : 0 ∈ [a, b, c, d] := by
    rw [h]
    exact List.mem_append_right _ List.mem_cons_self
  have hbefore : beforeZero [a, b, c, d] = beforeZero bytes := by
    by_cases hbytes : 0 ∈ bytes
    · rw [h, beforeZero_append_of_mem hbytes]
    · rw [h, beforeZero_append_of_notMem hbytes, beforeZero_eq_self_iff.mpr hbytes]
      simp [beforeZero]
  rw [readText_last hzero, hbefore, List.drop_succ_cons, List.drop_nil, List.nil_append]

/-- The bytes of a text are read back up to the first that is zero; what is left of the text, and the
words behind it, come after. -/
theorem readText_packBytes : ∀ (bytes : List UInt8) (rest : List UInt32),
    readText (packBytes (bytes ++ [0]) ++ rest) = some (beforeZero bytes,
      (packBytes (bytes ++ [0])).drop ((beforeZero bytes).length / 4 + 1) ++ rest)
  | [], rest => readText_short [0, 0, 0] rfl rest
  | [_], rest => readText_short [0, 0] rfl rest
  | [_, _], rest => readText_short [0] rfl rest
  | [_, _, _], rest => readText_short [] rfl rest
  | a :: b :: c :: d :: more, rest => by
      show readText (Word.ofBytes32 a b c d :: (packBytes (more ++ [0]) ++ rest)) = some
        (beforeZero ([a, b, c, d] ++ more), (Word.ofBytes32 a b c d :: packBytes (more ++ [0])).drop
          ((beforeZero ([a, b, c, d] ++ more)).length / 4 + 1) ++ rest)
      by_cases hzero : 0 ∈ [a, b, c, d]
      · -- the text ends in this word
        have hlength : (beforeZero [a, b, c, d]).length / 4 = 0 :=
          Nat.div_eq_of_lt (length_beforeZero_lt hzero)
        rw [readText_last hzero, beforeZero_append_of_mem hzero, hlength, List.drop_succ_cons,
          List.drop_zero]
      · have hlength : ([a, b, c, d] ++ beforeZero more).length / 4 =
            (beforeZero more).length / 4 + 1 := by
          rw [List.length_append]
          simp only [List.length_cons, List.length_nil]
          omega
        rw [readText_pass hzero, readText_packBytes more rest,
          beforeZero_append_of_notMem hzero, hlength, List.drop_succ_cons]
        rfl

/-- **Texts are read back.**  A text and the words behind it are found exactly if the text has no zero
byte. -/
theorem readText_textWords_iff (text : String) (rest : List UInt32) :
    readText (textWords text ++ rest) = some (Text.utf8Bytes text, rest) ↔
      0 ∉ Text.utf8Bytes text := by
  unfold textWords
  rw [readText_packBytes, Option.some.injEq, Prod.mk.injEq, beforeZero_eq_self_iff]
  refine and_iff_left_of_imp fun hzero => ?_
  -- all words of the text are passed
  have hlength : (packBytes (Text.utf8Bytes text ++ [0])).length ≤
      (beforeZero (Text.utf8Bytes text)).length / 4 + 1 := by
    rw [packBytes_length, beforeZero_eq_self_iff.mpr hzero, List.length_append,
      List.length_singleton]
    omega
  rw [List.drop_eq_nil_of_le hlength, List.nil_append]

end Shading.Spirv
