import Mathlib.Data.List.Basic
import Shading.Proofs.Binary.RoundTrip

/-! # Reading loses nothing but filler and the version

The reader passes over filler without looking at it, and of the version it only looks at the major
number.  All else that it reads can be recovered from the result: `Recovers d fields P` says that what
the reader `d` gives stands in the bytes as its fields (`Matches`), and that it has the property `P`.  The
property is that its numbers of items can be stored, so what was read can be written and read again.

The main result is `encode_restores`. -/

namespace Shading.Word

theorem bytes32_ofBytes32 (a b c d : UInt8) : bytes32 (ofBytes32 a b c d) = [a, b, c, d] := by
  simp only [bytes32, ofBytes32, List.cons.injEq, and_true]
  refine ⟨?_, ?_, ?_, ?_⟩
  all_goals
    apply UInt8.toBitVec_inj.mp
    apply BitVec.eq_of_getLsbD_eq
    intro i hi
    simp only [UInt32.toBitVec_or, UInt32.toBitVec_shiftLeft, UInt8.toBitVec_toUInt32,
      UInt32.toBitVec_toUInt8, UInt32.toBitVec_shiftRight, BitVec.getLsbD_or,
      BitVec.getLsbD_setWidth, BitVec.shiftLeft_eq', BitVec.ushiftRight_eq',
      BitVec.getLsbD_shiftLeft, BitVec.getLsbD_ushiftRight, UInt32.toBitVec_ofNat]
    grind

theorem bytes64_ofHalves (low high : UInt32) :
    bytes64 (ofHalves low high) = bytes32 low ++ bytes32 high := by
  have hlow : (ofHalves low high).toUInt32 = low := by
    apply UInt32.toBitVec_inj.mp
    apply BitVec.eq_of_getLsbD_eq
    intro i hi
    simp only [ofHalves, UInt64.toBitVec_or, UInt64.toBitVec_shiftLeft, UInt32.toBitVec_toUInt64,
      UInt64.toBitVec_toUInt32, BitVec.getLsbD_or, BitVec.getLsbD_setWidth, BitVec.shiftLeft_eq',
      BitVec.getLsbD_shiftLeft, UInt64.toBitVec_ofNat]
    grind
  have hhigh : (ofHalves low high >>> 32).toUInt32 = high := by
    apply UInt32.toBitVec_inj.mp
    apply BitVec.eq_of_getLsbD_eq
    intro i hi
    simp only [ofHalves, UInt64.toBitVec_or, UInt64.toBitVec_shiftLeft, UInt32.toBitVec_toUInt64,
      UInt64.toBitVec_toUInt32, UInt64.toBitVec_shiftRight, BitVec.getLsbD_or,
      BitVec.getLsbD_setWidth, BitVec.shiftLeft_eq', BitVec.ushiftRight_eq',
      BitVec.getLsbD_shiftLeft, BitVec.getLsbD_ushiftRight, UInt64.toBitVec_ofNat]
    grind
  rw [bytes64, hlow, hhigh]

end Shading.Word

namespace Shading.Binary

/-! ### Fields in bytes that may have anything for filler -/

def Field.isFiller : Field → Bool
  | .filler _ => true
  | _ => false

/-- The byte at a place in the stored form of the fields is filler. -/
def fillerAt : List Field → Nat → Bool
  | [], _ => false
  | f :: fs, i =>
    if i < f.stored.length then f.isFiller else fillerAt fs (i - f.stored.length)

/-- The bytes are those of the field, or as many others if it is filler. -/
structure Field.Matches (f : Field) (s : List UInt8) : Prop where
  length : s.length = f.stored.length
  content : f.isFiller = false → s = f.stored

/-- The bytes are those of the fields, except for filler. -/
inductive Matches : List Field → List UInt8 → Prop where
  | nil : Matches [] []
  | cons {f : Field} {fs : List Field} {s t : List UInt8} (hf : f.Matches s) (hfs : Matches fs t) :
      Matches (f :: fs) (s ++ t)

theorem Field.matches_stored (f : Field) : f.Matches f.stored := ⟨rfl, fun _ => rfl⟩

theorem Field.matches_filler (s : List UInt8) : (Field.filler s.length).Matches s :=
  ⟨List.length_replicate.symm, fun h => by cases h⟩

theorem Matches.single {f : Field} {s : List UInt8} (h : f.Matches s) : Matches [f] s := by
  have hcons := Matches.cons h Matches.nil
  rwa [List.append_nil] at hcons

theorem Matches.append {fs gs : List Field} {s t : List UInt8} (hs : Matches fs s)
    (ht : Matches gs t) : Matches (fs ++ gs) (s ++ t) := by
  induction hs with
  | nil => exact ht
  | cons hf _ ih =>
      rw [List.append_assoc]
      exact Matches.cons hf ih

theorem Matches.length_eq {fs : List Field} {s : List UInt8} (h : Matches fs s) :
    (storedAll fs).length = s.length := by
  induction h with
  | nil => rfl
  | cons hf _ ih => rw [storedAll_cons, List.length_append, List.length_append, ih, hf.length]

/-- The bytes agree with the stored form wherever that is not filler. -/
theorem Matches.getElem?_eq {fs : List Field} {s : List UInt8} (h : Matches fs s) :
    ∀ i, fillerAt fs i = false → (storedAll fs)[i]? = s[i]? := by
  induction h with
  | nil => exact fun _ _ => rfl
  | @cons f fs s t hf hfs ih =>
      intro i hi
      rw [fillerAt] at hi
      rw [storedAll_cons]
      by_cases hwithin : i < f.stored.length
      · rw [if_pos hwithin] at hi
        rw [hf.content hi, List.getElem?_append_left hwithin, List.getElem?_append_left hwithin]
      · rw [if_neg hwithin] at hi
        have hpast : f.stored.length ≤ i := by omega
        rw [List.getElem?_append_right hpast, List.getElem?_append_right (hf.length ▸ hpast), hf.length]
        exact ih _ hi

/-! ### What was read -/

/-- Reading went on from the first state to the second over bytes that match the fields. -/
def Spans (u v : Unread) (fields : List Field) : Prop :=
  ∃ s, u.bytes = s ++ v.bytes ∧ v.position = u.position + s.length ∧ Matches fields s

theorem Spans.refl (u : Unread) : Spans u u [] := ⟨[], rfl, rfl, .nil⟩

theorem Spans.append {u v w : Unread} {fs gs : List Field} (huv : Spans u v fs)
    (hvw : Spans v w gs) : Spans u w (fs ++ gs) := by
  obtain ⟨s, hs, hv, hfs⟩ := huv
  obtain ⟨t, ht, hw, hgs⟩ := hvw
  refine ⟨s ++ t, ?_, ?_, hfs.append hgs⟩
  · rw [hs, ht, List.append_assoc]
  · rw [hw, hv, List.length_append, Nat.add_assoc]

theorem Spans.position_eq {u v : Unread} {fs : List Field} (h : Spans u v fs) :
    v.position = u.position + (storedAll fs).length := by
  obtain ⟨s, _, hv, hfs⟩ := h
  rw [hv, hfs.length_eq]

namespace Decoder

variable {α β : Type}

theorem bind_eq_ok {d : Decoder α} {f : α → Decoder β} {u v : Unread} {b : β} :
    (d >>= f) u = .ok (b, v) ↔ ∃ a w, d u = .ok (a, w) ∧ f a w = .ok (b, v) := by
  rw [bind_eq]
  cases hd : d u with
  | error fault =>
      simp only [Except.bind, reduceCtorEq, false_and, exists_false]
  | ok x =>
      simp only [Except.bind, Except.ok.injEq]
      constructor
      · intro h
        exact ⟨x.1, x.2, rfl, h⟩
      · rintro ⟨a, w, rfl, h⟩
        exact h

theorem pure_eq_ok {a b : α} {u v : Unread} :
    (pure a : Decoder α) u = .ok (b, v) ↔ a = b ∧ u = v := by
  show Except.ok (a, u) = Except.ok (b, v) ↔ _
  rw [Except.ok.injEq, Prod.mk.injEq]

theorem get_bind (f : Unread → Decoder α) (u : Unread) : (get >>= f) u = f u u := rfl

theorem throw_ne_ok {fault : Fault} {u v : Unread} {a : α} :
    (throw fault : Decoder α) u ≠ .ok (a, v) := fun h => by cases h

/-- A check that was passed. -/
theorem unless_eq_ok {c : Prop} {_ : Decidable c} {fault : Fault} {f : Unit → Decoder α}
    {u v : Unread} {a : α} (h : (if c then throw fault >>= f else f ()) u = .ok (a, v)) :
    ¬c ∧ f () u = .ok (a, v) := by
  split at h
  case isTrue =>
    obtain ⟨_, _, hthrow, _⟩ := bind_eq_ok.mp h
    exact absurd hthrow throw_ne_ok
  case isFalse hc => exact ⟨hc, h⟩

theorem eq_of_checkRoom {place count size : Nat} {x : Unit} {u v : Unread}
    (h : (checkRoom place count size : Decoder Unit) u = .ok (x, v)) : u = v := by
  rw [checkRoom_eq] at h
  split at h
  case isTrue => exact (Prod.mk.inj (Except.ok.inj h)).2
  case isFalse => cases h

theorem spans_word {u v : Unread} {w : UInt32} (h : word u = .ok (w, v)) : Spans u v [.word w] := by
  unfold word at h
  split at h
  case h_1 a b c d rest hbytes =>
    obtain ⟨rfl, rfl⟩ := Prod.mk.inj (Except.ok.inj h)
    refine ⟨[a, b, c, d], hbytes, rfl, Matches.single ?_⟩
    rw [← Word.bytes32_ofBytes32 a b c d]
    exact Field.matches_stored (.word _)
  case h_2 => cases h

/-- A word whose value is ignored is filler. -/
theorem spans_filler {u v : Unread} {w : UInt32} (h : word u = .ok (w, v)) :
    Spans u v [.filler 4] := by
  obtain ⟨s, hs, hv, hw⟩ := spans_word h
  have hlength : s.length = 4 := hw.length_eq.symm
  refine ⟨s, hs, hv, Matches.single ?_⟩
  rw [← hlength]
  exact Field.matches_filler s

theorem spans_long {u v : Unread} {w : UInt64} (h : long u = .ok (w, v)) : Spans u v [.long w] := by
  unfold long at h
  split at h
  case h_1 a b c d e f g i rest hbytes =>
    obtain ⟨rfl, rfl⟩ := Prod.mk.inj (Except.ok.inj h)
    refine ⟨[a, b, c, d, e, f, g, i], hbytes, rfl, Matches.single ?_⟩
    have hstored : Word.bytes64 (Word.ofHalves (Word.ofBytes32 a b c d) (Word.ofBytes32 e f g i)) =
        [a, b, c, d, e, f, g, i] := by
      rw [Word.bytes64_ofHalves, Word.bytes32_ofBytes32, Word.bytes32_ofBytes32]
      rfl
    rw [← hstored]
    exact Field.matches_stored (.long _)
  case h_2 => cases h

theorem spans_take {u v : Unread} {n : Nat} {s : List UInt8} (h : take n u = .ok (s, v)) :
    s.length = n ∧ Spans u v [.bytes s] := by
  unfold take at h
  split at h
  case isTrue hfits =>
    obtain ⟨rfl, rfl⟩ := Prod.mk.inj (Except.ok.inj h)
    have hlength := List.length_take_of_le hfits
    refine ⟨hlength, u.bytes.take n, (List.take_append_drop n u.bytes).symm, ?_, ?_⟩
    · rw [hlength]
    · exact Matches.single (Field.matches_stored (.bytes _))
  case isFalse => cases h

theorem spans_align {x : Unit} {u v : Unread} (h : (align : Decoder Unit) u = .ok (x, v)) :
    Spans u v [.filler (fillTo8 u.position)] := by
  unfold align at h
  rw [get_bind] at h
  obtain ⟨s, w, htake, hpure⟩ := bind_eq_ok.mp h
  obtain ⟨_, rfl⟩ := pure_eq_ok.mp hpure
  obtain ⟨hlength, t, ht, hw, hmatches⟩ := spans_take htake
  have hsame : t.length = fillTo8 u.position := by
    rw [← hmatches.length_eq, ← hlength]
    simp [Field.stored]
  refine ⟨t, ht, hw, Matches.single ?_⟩
  rw [← hsame]
  exact Field.matches_filler t

theorem spans_count {u v : Unread} {size n : Nat} (h : (count size : Decoder Nat) u = .ok (n, v)) :
    n < UInt64.size ∧ Spans u v [Layout.count n] := by
  unfold count at h
  rw [get_bind] at h
  obtain ⟨w, x, hlong, h⟩ := bind_eq_ok.mp h
  obtain ⟨_, y, hroom, h⟩ := bind_eq_ok.mp h
  obtain ⟨rfl, rfl⟩ := pure_eq_ok.mp h
  obtain rfl := eq_of_checkRoom hroom
  refine ⟨w.toNat_lt, ?_⟩
  have hw : w.toNat.toUInt64 = w := UInt64.ofNat_toNat
  rw [Layout.count, hw]
  exact spans_long hlong

/-! ### Repetition -/

/-- Items that were read one after the other, where `I` holds of the places they stand at. -/
theorem spans_times {I : Nat → Prop} {item : Decoder α} {fields : α → List Field} {P : α → Prop}
    (hitem : ∀ u v a, I u.position → item u = .ok (a, v) →
      Spans u v (fields a) ∧ I v.position ∧ P a) :
    ∀ n u v as, I u.position → times item n u = .ok (as, v) →
      as.length = n ∧ Spans u v (as.flatMap fields) ∧ I v.position ∧ ∀ a ∈ as, P a
  | 0, u, v, as, hu, h => by
      obtain ⟨rfl, rfl⟩ := pure_eq_ok.mp h
      exact ⟨rfl, Spans.refl u, hu, fun a ha => by cases ha⟩
  | n + 1, u, v, as, hu, h => by
      obtain ⟨first, w, hfirst, h⟩ := bind_eq_ok.mp h
      obtain ⟨rest, x, hrest, h⟩ := bind_eq_ok.mp h
      obtain ⟨rfl, rfl⟩ := pure_eq_ok.mp h
      obtain ⟨hspan, hw, hP⟩ := hitem u w first hu hfirst
      obtain ⟨hlength, hspans, hx, hPs⟩ := spans_times hitem n w x rest hw hrest
      refine ⟨by rw [List.length_cons, hlength], ?_, hx, List.forall_mem_cons.mpr ⟨hP, hPs⟩⟩
      rw [List.flatMap_cons]
      exact hspan.append hspans

theorem spans_times_single {item : Decoder α} {field : α → Field}
    (hitem : ∀ {u v a}, item u = .ok (a, v) → Spans u v [field a]) {n : Nat} {u v : Unread}
    {as : List α} (h : times item n u = .ok (as, v)) :
    as.length = n ∧ Spans u v (as.map field) := by
  have hfields : as.map field = as.flatMap fun a => [field a] := List.map_eq_flatMap
  obtain ⟨hlength, hspans, _, _⟩ := spans_times (I := fun _ => True) (P := fun _ => True)
    (fun u v a _ ha => ⟨hitem ha, trivial, trivial⟩) n u v as trivial h
  rw [hfields]
  exact ⟨hlength, hspans⟩

/-- Every item that the reader gives at a multiple of eight stands there as its fields, ends at such a
multiple and has the property. -/
def Recovers (d : Decoder α) (fields : α → List Field) (P : α → Prop) : Prop :=
  ∀ u v a, u.position % 8 = 0 → d u = .ok (a, v) → Spans u v (fields a) ∧ v.position % 8 = 0 ∧ P a

theorem recovers_counted {item : Decoder α} {fields : α → List Field} {P : α → Prop} {size : Nat}
    (hitem : Recovers item fields P) :
    Recovers (count size >>= times item) (fun as => Layout.count as.length :: as.flatMap fields)
      fun as => as.length < UInt64.size ∧ ∀ a ∈ as, P a := by
  intro u v as hu h
  obtain ⟨n, w, hcount, htimes⟩ := bind_eq_ok.mp h
  obtain ⟨hn, hspan⟩ := spans_count hcount
  have hw : w.position % 8 = 0 := by
    have hposition : w.position = u.position + 8 := hspan.position_eq
    omega
  obtain ⟨rfl, hspans, hv, hPs⟩ :=
    spans_times (I := fun place => place % 8 = 0) hitem n w v as hw htimes
  exact ⟨hspan.append hspans, hv, hn, hPs⟩

/-! ### Records -/

theorem recovers_long : Recovers long (fun w => [.long w]) fun _ => True := by
  intro u v w hu h
  have hspan := spans_long h
  have hposition : v.position = u.position + 8 := hspan.position_eq
  exact ⟨hspan, by omega, trivial⟩

theorem recovers_range : Recovers range Layout.range fun _ => True := by
  intro u v r hu h
  obtain ⟨offset, w, hoffset, h⟩ := bind_eq_ok.mp h
  obtain ⟨length, x, hlength, h⟩ := bind_eq_ok.mp h
  obtain ⟨rfl, rfl⟩ := pure_eq_ok.mp h
  obtain ⟨hspanOffset, hw, _⟩ := recovers_long u w offset hu hoffset
  obtain ⟨hspanLength, hx, _⟩ := recovers_long w x length hw hlength
  exact ⟨hspanOffset.append hspanLength, hx, trivial⟩

theorem qualifier_number {n : UInt32} {q : Qualifier} (h : Qualifier.ofNumber? n = some q) :
    q.number = n := by
  simpa using List.find?_some h

theorem kind_number {n : UInt32} {k : EntrypointKind} (h : EntrypointKind.ofNumber? n = some k) :
    k.number = n := by
  simpa using List.find?_some h

theorem spans_qualifier {u v : Unread} {q : Qualifier}
    (h : (qualifier : Decoder Qualifier) u = .ok (q, v)) : Spans u v [.word q.number] := by
  obtain ⟨value, w, hword, h⟩ := bind_eq_ok.mp h
  cases hq : Qualifier.ofNumber? value with
  | none =>
      rw [hq] at h
      exact absurd h throw_ne_ok
  | some found =>
      rw [hq] at h
      obtain ⟨rfl, rfl⟩ := pure_eq_ok.mp h
      rw [qualifier_number hq]
      exact spans_word hword

theorem length_storedAll_qualifiers (qs : List Qualifier) :
    (storedAll (qs.map fun q => .word q.number)).length = 4 * qs.length := by
  have hwords : (qs.map fun q => Field.word q.number) = (qs.map Qualifier.number).map .word :=
    List.map_map.symm
  rw [hwords, storedAll_words, flatMap_bytes32_length, List.length_map]

theorem recovers_parameter :
    Recovers parameter Layout.parameter fun p => p.qualifiers.length < UInt32.size := by
  intro u v p hu h
  obtain ⟨number, w, hnumber, h⟩ := bind_eq_ok.mp h
  rw [get_bind] at h
  obtain ⟨n, x, hn, h⟩ := bind_eq_ok.mp h
  obtain ⟨_, y, hroom, h⟩ := bind_eq_ok.mp h
  obtain ⟨_, z, hfiller, h⟩ := bind_eq_ok.mp h
  obtain ⟨qualifiers, t, hqualifiers, h⟩ := bind_eq_ok.mp h
  obtain ⟨_, t', halign, h⟩ := bind_eq_ok.mp h
  obtain ⟨rfl, rfl⟩ := pure_eq_ok.mp h
  obtain rfl := eq_of_checkRoom hroom
  obtain ⟨hlength, hspanQualifiers⟩ := spans_times_single spans_qualifier hqualifiers
  have hsmall : qualifiers.length < UInt32.size := hlength ▸ n.toNat_lt
  have hcount : Layout.qualifierCount qualifiers = n := by
    apply UInt32.toNat_inj.mp
    rw [qualifierCount_toNat hsmall, hlength]
  have hbefore := (((spans_long hnumber).append (spans_word hn)).append (spans_filler hfiller)).append
    hspanQualifiers
  have hfill : fillTo8 t.position = fillTo8 (4 * qualifiers.length) := by
    have hposition := hbefore.position_eq
    simp only [storedAll_append, List.length_append, length_storedAll_qualifiers] at hposition
    have hfront : (storedAll [.long number]).length + (storedAll [.word n]).length +
        (storedAll [.filler 4]).length = 16 := rfl
    apply fillTo8_congr
    omega
  have hspan := hbefore.append (spans_align halign)
  rw [hfill, ← hcount] at hspan
  have hfields : Layout.parameter ⟨⟨number⟩, qualifiers⟩ =
      [.long number] ++ [.word (Layout.qualifierCount qualifiers)] ++ [.filler 4] ++
        qualifiers.map (fun q => .word q.number) ++ [.filler (fillTo8 (4 * qualifiers.length))] := rfl
  rw [← hfields] at hspan
  refine ⟨hspan, ?_, hsmall⟩
  have hposition := hspan.position_eq
  have haligned := (readsRecord_parameter (p := ⟨⟨number⟩, qualifiers⟩) hsmall).1
  omega

theorem recovers_parameters : Recovers parameters Layout.parameters CountableParameters := by
  intro u v ps hu h
  obtain ⟨hspan, hv, hcount, hqualifiers⟩ := recovers_counted recovers_parameter u v ps hu h
  exact ⟨hspan, hv, hcount, hqualifiers⟩

theorem recovers_entrypoint : Recovers entrypoint Layout.entrypoint
    fun e => CountableParameters e.inputs ∧ CountableParameters e.outputs := by
  intro u v e hu h
  obtain ⟨value, w, hvalue, h⟩ := bind_eq_ok.mp h
  cases hkind : EntrypointKind.ofNumber? value with
  | none =>
      rw [hkind] at h
      exact absurd h throw_ne_ok
  | some kind =>
      rw [hkind] at h
      obtain ⟨_, x, hfiller, h⟩ := bind_eq_ok.mp h
      obtain ⟨code, u₁, hcode, h⟩ := bind_eq_ok.mp h
      obtain ⟨name, u₂, hname, h⟩ := bind_eq_ok.mp h
      obtain ⟨inputs, u₃, hinputs, h⟩ := bind_eq_ok.mp h
      obtain ⟨outputs, u₄, houtputs, h⟩ := bind_eq_ok.mp h
      obtain ⟨rfl, rfl⟩ := pure_eq_ok.mp h
      have hopening : Spans u x [.word kind.number, .filler 4] := by
        rw [kind_number hkind]
        exact (spans_word hvalue).append (spans_filler hfiller)
      have hx : x.position % 8 = 0 := by
        have hposition : x.position = u.position + 8 := hopening.position_eq
        omega
      obtain ⟨hspanCode, h₁, _⟩ := recovers_range x u₁ code hx hcode
      obtain ⟨hspanName, h₂, _⟩ := recovers_range u₁ u₂ name h₁ hname
      obtain ⟨hspanInputs, h₃, hcountInputs⟩ := recovers_parameters u₂ u₃ inputs h₂ hinputs
      obtain ⟨hspanOutputs, h₄, hcountOutputs⟩ := recovers_parameters u₃ u₄ outputs h₃ houtputs
      refine ⟨?_, h₄, hcountInputs, hcountOutputs⟩
      exact (((hopening.append hspanCode).append hspanName).append hspanInputs).append hspanOutputs

theorem recovers_function :
    Recovers function Layout.function fun f => CountableParameters f.parameters := by
  intro u v f hu h
  obtain ⟨code, u₁, hcode, h⟩ := bind_eq_ok.mp h
  obtain ⟨name, u₂, hname, h⟩ := bind_eq_ok.mp h
  obtain ⟨number, u₃, hnumber, h⟩ := bind_eq_ok.mp h
  obtain ⟨parameters, u₄, hparameters, h⟩ := bind_eq_ok.mp h
  obtain ⟨rfl, rfl⟩ := pure_eq_ok.mp h
  obtain ⟨hspanCode, h₁, _⟩ := recovers_range u u₁ code hu hcode
  obtain ⟨hspanName, h₂, _⟩ := recovers_range u₁ u₂ name h₁ hname
  obtain ⟨hspanNumber, h₃, _⟩ := recovers_long u₂ u₃ number h₂ hnumber
  obtain ⟨hspanParameters, h₄, hcount⟩ := recovers_parameters u₃ u₄ parameters h₃ hparameters
  refine ⟨?_, h₄, hcount⟩
  exact ((hspanCode.append hspanName).append hspanNumber).append hspanParameters

/-! ### Whole binaries -/

/-- Filler after a count and what it counts ends at a multiple of eight. -/
theorem spans_filled {u v w : Unread} {x : Unit} {n size : Nat} {fields : List Field}
    (hu : u.position % 8 = 0) (hspan : Spans u v (Layout.count n :: fields))
    (hlength : (storedAll fields).length = size) (halign : (align : Decoder Unit) v = .ok (x, w)) :
    Spans u w (Layout.count n :: fields ++ [.filler (fillTo8 size)]) ∧ w.position % 8 = 0 := by
  have hcount : (storedAll (Layout.count n :: fields)).length = 8 + size := by
    rw [storedAll_cons, List.length_append, hlength]
    rfl
  have hv : v.position = u.position + (8 + size) := by rw [hspan.position_eq, hcount]
  -- reading fills up by the place in the file, writing by the length of the part
  have hfill : fillTo8 v.position = fillTo8 size := by
    apply fillTo8_congr
    omega
  have hspanAlign := spans_align halign
  rw [hfill] at hspanAlign
  refine ⟨hspan.append hspanAlign, ?_⟩
  have hw : w.position = v.position + fillTo8 size := by
    rw [hspanAlign.position_eq]
    simp [Field.stored]
  have hfilled := add_fillTo8 size
  omega

theorem recovers_strings : Recovers strings Layout.strings fun s => s.length < UInt64.size := by
  intro u v s hu h
  obtain ⟨n, w, hcount, h⟩ := bind_eq_ok.mp h
  obtain ⟨data, x, htake, h⟩ := bind_eq_ok.mp h
  obtain ⟨_, y, halign, h⟩ := bind_eq_ok.mp h
  obtain ⟨rfl, rfl⟩ := pure_eq_ok.mp h
  obtain ⟨hn, hspanCount⟩ := spans_count hcount
  obtain ⟨rfl, hspanTake⟩ := spans_take htake
  have hlength : (storedAll [.bytes data]).length = data.length := by simp [Field.stored]
  obtain ⟨hspan, hy⟩ := spans_filled hu (hspanCount.append hspanTake) hlength halign
  exact ⟨hspan, hy, hn⟩

theorem recovers_code : Recovers code Layout.code fun c => c.length < UInt64.size := by
  intro u v c hu h
  obtain ⟨n, w, hcount, h⟩ := bind_eq_ok.mp h
  obtain ⟨words, x, htimes, h⟩ := bind_eq_ok.mp h
  obtain ⟨_, y, halign, h⟩ := bind_eq_ok.mp h
  obtain ⟨rfl, rfl⟩ := pure_eq_ok.mp h
  obtain ⟨hn, hspanCount⟩ := spans_count hcount
  obtain ⟨rfl, hspanWords⟩ := spans_times_single spans_word htimes
  have hlength : (storedAll (words.map .word)).length = 4 * words.length := by
    rw [storedAll_words, flatMap_bytes32_length]
  obtain ⟨hspan, hy⟩ := spans_filled hu (hspanCount.append hspanWords) hlength halign
  exact ⟨hspan, hy, hn⟩

end Decoder

/-- The fields after magic and version. -/
def contentFields (b : Binary) : List Field :=
  Layout.count b.entrypoints.length :: b.entrypoints.flatMap Layout.entrypoint ++
    Layout.count b.functions.length :: b.functions.flatMap Layout.function ++
    Layout.strings b.strings ++ [Layout.count 0] ++ Layout.code b.code

theorem layout_eq (b : Binary) :
    b.layout = .word magic :: .word Version.current.toWord :: b.contentFields := by
  simp [layout, contentFields]

namespace Decoder

theorem recovers_contents : Recovers contents contentFields Countable := by
  intro u v b hu h
  obtain ⟨entrypoints, u₁, hentrypoints, h⟩ := bind_eq_ok.mp h
  obtain ⟨functions, u₂, hfunctions, h⟩ := bind_eq_ok.mp h
  obtain ⟨strings, u₃, hstrings, h⟩ := bind_eq_ok.mp h
  obtain ⟨types, u₄, htypes, h⟩ := bind_eq_ok.mp h
  obtain ⟨hzero, h⟩ := unless_eq_ok h
  obtain ⟨code, u₅, hcode, h⟩ := bind_eq_ok.mp h
  obtain ⟨rfl, rfl⟩ := pure_eq_ok.mp h
  obtain rfl : types = 0 := not_not.mp hzero
  obtain ⟨hspan₁, h₁, hcount₁, hinterfaces⟩ :=
    recovers_counted recovers_entrypoint u u₁ entrypoints hu hentrypoints
  obtain ⟨hspan₂, h₂, hcount₂, hparameters⟩ :=
    recovers_counted recovers_function u₁ u₂ functions h₁ hfunctions
  obtain ⟨hspan₃, h₃, hcount₃⟩ := recovers_strings u₂ u₃ strings h₂ hstrings
  obtain ⟨hspan₄, h₄, _⟩ := recovers_long u₃ u₄ 0 h₃ htypes
  obtain ⟨hspan₅, h₅, hcount₅⟩ := recovers_code u₄ u₅ code h₄ hcode
  refine ⟨?_, h₅, hcount₁, hcount₂, hcount₃, hcount₅, hinterfaces, hparameters⟩
  exact (((hspan₁.append hspan₂).append hspan₃).append hspan₄).append hspan₅

end Decoder

/-- What was read from the front of some bytes is countable, and its fields stand there; the version
is passed over like filler. -/
theorem matches_of_read {bytes rest : List UInt8} {b : Binary} (h : read bytes = .ok (b, rest)) :
    b.Countable ∧
      ∃ s, bytes = s ++ rest ∧ Matches (.word magic :: .filler 4 :: b.contentFields) s := by
  rw [read_eq] at h
  cases hbinary : (Decoder.binary : Decoder Binary) ⟨0, bytes⟩ with
  | error fault =>
      rw [hbinary] at h
      cases h
  | ok x =>
      rw [hbinary] at h
      obtain ⟨rfl, rfl⟩ := Prod.mk.inj (Except.ok.inj h)
      obtain ⟨first, v, hfirst, hbinary⟩ := Decoder.bind_eq_ok.mp hbinary
      obtain ⟨hmagic, hbinary⟩ := Decoder.unless_eq_ok hbinary
      obtain ⟨version, w, hversion, hbinary⟩ := Decoder.bind_eq_ok.mp hbinary
      obtain ⟨_, hcontents⟩ := Decoder.unless_eq_ok hbinary
      obtain rfl : first = magic := not_not.mp hmagic
      have hopening := (Decoder.spans_word hfirst).append (Decoder.spans_filler hversion)
      have hw : w.position % 8 = 0 := by
        have hposition : w.position = 0 + 8 := hopening.position_eq
        omega
      obtain ⟨hspan, _, hcountable⟩ := Decoder.recovers_contents w x.2 x.1 hw hcontents
      obtain ⟨s, hs, _, hmatches⟩ := hopening.append hspan
      exact ⟨hcountable, s, hs, hmatches⟩

/-- Outside of its own bytes, the second of two fields of four bytes does not matter. -/
theorem storedAll_second {e f g : Field} (fs : List Field) {i : Nat}
    (he : e.stored.length = 4) (hf : f.stored.length = 4) (hg : g.stored.length = 4)
    (hi : i < 4 ∨ 8 ≤ i) :
    fillerAt (e :: f :: fs) i = fillerAt (e :: g :: fs) i ∧
      (storedAll (e :: f :: fs))[i]? = (storedAll (e :: g :: fs))[i]? := by
  simp only [storedAll_cons, fillerAt, List.getElem?_append, he, hf, hg]
  rcases hi with hi | hi
  · rw [if_pos hi, if_pos hi, if_pos hi, if_pos hi]
    exact ⟨rfl, rfl⟩
  · have hpast : ¬i < 4 := by omega
    have hpastBoth : ¬i - 4 < 4 := by omega
    rw [if_neg hpast, if_neg hpast, if_neg hpast, if_neg hpast, if_neg hpastBoth, if_neg hpastBoth,
      if_neg hpastBoth, if_neg hpastBoth]
    exact ⟨rfl, rfl⟩

theorem countable_empty : Countable {} := by
  refine ⟨by decide, by decide, by decide, by decide, ?_, ?_⟩
  · intro e he
    cases he
  · intro f hf
    cases hf

/-- What is read leniently is countable, whatever the bytes. -/
theorem countable_decodeLenient (bytes : List UInt8) : (decodeLenient bytes).Countable := by
  unfold decodeLenient
  cases hread : read bytes with
  | error fault => exact countable_empty
  | ok x => exact (matches_of_read hread).1

/-- **Nothing is lost.**  Bytes that are read strictly are the stored form of what was read, except for
the version and for filler.  Whatever is read leniently, from any bytes, is written and read again
without a change. -/
theorem encode_restores (bytes : List UInt8) :
    (∀ b, decodeStrict bytes = .ok b →
      b.encode.length = bytes.length ∧
        ∀ i, i < 4 ∨ 8 ≤ i → fillerAt b.layout i = false → b.encode[i]? = bytes[i]?) ∧
    decodeStrict (decodeLenient bytes).encode = .ok (decodeLenient bytes) := by
  constructor
  · intro b h
    obtain ⟨_, s, hs, hmatches⟩ := matches_of_read (decodeStrict_eq_ok.mp h)
    obtain rfl : bytes = s := by rwa [List.append_nil] at hs
    rw [encode_eq_storedAll, layout_eq]
    constructor
    · rw [← hmatches.length_eq]
      rfl
    · intro i hi hcontent
      -- any version of the format may stand where the current one is written
      obtain ⟨hfiller, hbytes⟩ := storedAll_second (e := .word magic) (f := .filler 4)
        (g := .word Version.current.toWord) b.contentFields rfl rfl rfl hi
      rw [← hbytes]
      apply hmatches.getElem?_eq
      rw [hfiller]
      exact hcontent
  · exact decodeStrict_eq_ok.mpr (countable_decodeLenient bytes).read_encode

/-- A stored form under a newer minor version and with other filler: after the kind, after a number of
qualifiers, after qualifiers and at the end. -/
def foreignSample : List UInt8 :=
  ((((oddSample.encode.set 5 0x0c).set 21 0xaa).set 78 0xbb).set 86 0xcc).set 247 0xdd

theorem encode_restores_foreignSample :
    decodeStrict foreignSample = .ok oddSample ∧ oddSample.encode ≠ foreignSample ∧
      oddSample.encode.length = foreignSample.length ∧
      oddSample.encode[48]? = foreignSample[48]? ∧ foreignSample[48]? = some 0xff ∧
      decodeStrict (decodeLenient foreignSample).encode = .ok (decodeLenient foreignSample) := by
  have hread : decodeStrict foreignSample = .ok oddSample := by decide +kernel
  obtain ⟨hstrict, hlenient⟩ := encode_restores foreignSample
  obtain ⟨hlength, hsame⟩ := hstrict oddSample hread
  refine ⟨hread, by decide +kernel, hlength, ?_, by decide +kernel, hlenient⟩
  exact hsame 48 (by decide) (by decide +kernel)

end Shading.Binary
