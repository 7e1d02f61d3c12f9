import Shading.Proofs.Binary.RoundTrip

/-! # The stored form says where it ends

What a reader makes of some bytes does not depend on those that come later, with one exception: a count is
held against the number of bytes left.  But a count that does not fit is reported as truncation.  So a
reader that does anything else than to report truncation does the same when more bytes follow
(`Steady`).

Sequencing and repetition keep readers steady, so every reader of the format is.  It follows that no
stored form is the beginning of another (`decodeStrict_delimits`). -/

namespace Shading.Binary

variable {α β : Type}

/-- The same place in an input with more bytes. -/
def Unread.extend (u : Unread) (more : List UInt8) : Unread := ⟨u.position, u.bytes ++ more⟩

/-- The bytes ended too early. -/
def IsTruncated (r : Except Fault α) : Prop := ∃ offset, r = .error (.truncated offset)

/-- A result that was read from the front of a longer input. -/
def followedBy (more : List UInt8) (r : Except Fault (α × Unread)) : Except Fault (α × Unread) :=
  r.map fun x => (x.1, x.2.extend more)

namespace Decoder

/-- More bytes can only repair that bytes are missing. -/
def Steady (d : Decoder α) : Prop :=
  ∀ u more, IsTruncated (d u) ∨ d (u.extend more) = followedBy more (d u)

/-! ### Steps -/

theorem steady_pure (a : α) : Steady (pure a : Decoder α) := fun _ _ => .inr rfl

theorem steady_throw (fault : Fault) : Steady (throw fault : Decoder α) := fun _ _ => .inr rfl

theorem Steady.bind {d : Decoder α} {f : α → Decoder β} (hd : Steady d) (hf : ∀ a, Steady (f a)) :
    Steady (d >>= f) := by
  intro u more
  rw [bind_eq, bind_eq]
  rcases hd u more with ⟨offset, htruncated⟩ | hsame
  · left
    exact ⟨offset, by rw [htruncated]; rfl⟩
  · rw [hsame]
    cases hread : d u with
    | error fault =>
        right
        rfl
    | ok x => exact hf x.1 x.2 more

/-- Asking for something that more bytes do not change. -/
theorem Steady.get {f : Unread → Decoder α} (hf : ∀ u more, f (u.extend more) = f u)
    (h : ∀ u, Steady (f u)) : Steady (MonadState.get >>= f) := by
  intro u more
  show IsTruncated (f u u) ∨ f (u.extend more) (u.extend more) = followedBy more (f u u)
  rw [hf]
  exact h u u more

/-- A check of what was read. -/
theorem Steady.unless {c : Prop} {_ : Decidable c} {fault : Fault} {f : Unit → Decoder α}
    (h : Steady (f ())) : Steady (if c then throw fault >>= f else f ()) := by
  split
  · exact (steady_throw fault).bind fun _ => h
  · exact h

theorem steady_take (count : Nat) : Steady (take count) := by
  intro u more
  by_cases hfits : count ≤ u.bytes.length
  · right
    have hlater : count ≤ (u.extend more).bytes.length := by
      simp only [Unread.extend, List.length_append]
      omega
    simp only [take, if_pos hfits, if_pos hlater]
    simp only [Unread.extend, followedBy, Except.map, List.take_append_of_le_length hfits,
      List.drop_append_of_le_length hfits]
  · left
    exact ⟨u.position, by simp only [take, if_neg hfits]⟩

theorem steady_word : Steady word := by
  rintro ⟨position, bytes⟩ more
  match bytes with
  | a :: b :: c :: d :: rest => exact .inr rfl
  | [] | [_] | [_, _] | [_, _, _] => exact .inl ⟨position, rfl⟩

theorem steady_long : Steady long := by
  rintro ⟨position, bytes⟩ more
  match bytes with
  | a :: b :: c :: d :: e :: f :: g :: h :: rest => exact .inr rfl
  | [] | [_] | [_, _] | [_, _, _] | [_, _, _, _] | [_, _, _, _, _] | [_, _, _, _, _, _]
  | [_, _, _, _, _, _, _] => exact .inl ⟨position, rfl⟩

theorem steady_align : Steady align :=
  Steady.get (fun _ _ => rfl) fun u => (steady_take (fillTo8 u.position)).bind fun _ => steady_pure ()

/-- The one step that looks ahead: what does not fit is truncated, and what fits still fits into more
bytes. -/
theorem steady_checkRoom (place count size : Nat) : Steady (checkRoom place count size) := by
  intro u more
  rw [checkRoom_eq, checkRoom_eq]
  by_cases hfits : count * size ≤ u.bytes.length
  · right
    have hlater : count * size ≤ (u.extend more).bytes.length := by
      simp only [Unread.extend, List.length_append]
      omega
    rw [if_pos hfits, if_pos hlater]
    rfl
  · left
    exact ⟨place, if_neg hfits⟩

theorem steady_count (size : Nat) : Steady (count size) := by
  refine Steady.get (fun _ _ => rfl) fun u => steady_long.bind fun n => ?_
  exact (steady_checkRoom u.position n.toNat size).bind fun _ => steady_pure n.toNat

theorem steady_times {item : Decoder α} (h : Steady item) : ∀ n, Steady (times item n)
  | 0 => steady_pure []
  | n + 1 => h.bind fun first => (steady_times h n).bind fun rest => steady_pure (first :: rest)

theorem steady_counted {item : Decoder α} (size : Nat) (h : Steady item) :
    Steady (count size >>= times item) :=
  (steady_count size).bind fun n => steady_times h n

/-! ### Records -/

theorem steady_range : Steady range :=
  steady_long.bind fun _ => steady_long.bind fun _ => steady_pure _

theorem steady_qualifier : Steady qualifier := by
  refine steady_word.bind fun value => ?_
  cases Qualifier.ofNumber? value with
  | some q => exact steady_pure q
  | none => exact steady_throw (.badQualifier value)

theorem steady_parameter : Steady parameter := by
  refine steady_long.bind fun number => Steady.get (fun _ _ => rfl) fun u => ?_
  refine steady_word.bind fun n => (steady_checkRoom u.position n.toNat 4).bind fun _ => ?_
  refine steady_word.bind fun _ => (steady_times steady_qualifier n.toNat).bind fun qualifiers => ?_
  exact steady_align.bind fun _ => steady_pure _

theorem steady_parameters : Steady parameters := steady_counted parameterSize steady_parameter

theorem steady_entrypoint : Steady entrypoint := by
  refine steady_word.bind fun value => ?_
  cases EntrypointKind.ofNumber? value with
  | none => exact steady_throw (.badEntrypointKind value)
  | some kind =>
      refine steady_word.bind fun _ => steady_range.bind fun code => steady_range.bind fun name => ?_
      refine steady_parameters.bind fun inputs => steady_parameters.bind fun outputs => ?_
      exact steady_pure _

theorem steady_function : Steady function := by
  refine steady_range.bind fun code => steady_range.bind fun name => ?_
  refine steady_long.bind fun number => steady_parameters.bind fun parameters => ?_
  exact steady_pure _

theorem steady_strings : Steady strings := by
  refine (steady_count 1).bind fun n => (steady_take n).bind fun data => ?_
  exact steady_align.bind fun _ => steady_pure data

theorem steady_code : Steady code := by
  refine (steady_count 4).bind fun n => (steady_times steady_word n).bind fun words => ?_
  exact steady_align.bind fun _ => steady_pure words

theorem steady_contents : Steady contents := by
  refine (steady_counted entrypointSize steady_entrypoint).bind fun entrypoints => ?_
  refine (steady_counted functionSize steady_function).bind fun functions => ?_
  refine steady_strings.bind fun strings => steady_long.bind fun types => ?_
  exact Steady.unless (steady_code.bind fun code => steady_pure _)

theorem steady_binary : Steady binary := by
  refine steady_word.bind fun found => ?_
  refine Steady.unless (steady_word.bind fun version => ?_)
  exact Steady.unless steady_contents

end Decoder

/-! ### Whole binaries -/

/-- Unless bytes are missing, more of them are left over. -/
theorem read_append (bytes more : List UInt8) :
    IsTruncated (read bytes) ∨
      read (bytes ++ more) = (read bytes).map fun x => (x.1, x.2 ++ more) := by
  rw [read_eq, read_eq]
  rcases Decoder.steady_binary ⟨0, bytes⟩ more with ⟨offset, htruncated⟩ | hsame
  · left
    exact ⟨offset, by rw [htruncated]; rfl⟩
  · right
    rw [show (⟨0, bytes ++ more⟩ : Unread) = Unread.extend ⟨0, bytes⟩ more from rfl, hsame]
    cases (Decoder.binary : Decoder Binary) ⟨0, bytes⟩ with
    | error fault => rfl
    | ok x => rfl

/-- What stands in front of a part of a stored form is truncated. -/
theorem isTruncated_of_read_append {front back : List UInt8} {b : Binary}
    (h : read (front ++ back) = .ok (b, [])) (hback : back ≠ []) : IsTruncated (read front) := by
  rcases read_append front back with htruncated | hsame
  · exact htruncated
  · -- otherwise the back would be left over
    rw [h] at hsame
    cases hread : read front with
    | error fault =>
        rw [hread] at hsame
        cases hsame
    | ok x =>
        rw [hread] at hsame
        have hrest : [] = x.2 ++ back := congrArg Prod.snd (Except.ok.inj hsame)
        exact absurd (List.append_eq_nil_iff.mp hrest.symm).2 hback

theorem read_append_of_ok {bytes rest : List UInt8} {b : Binary} (h : read bytes = .ok (b, rest))
    (more : List UInt8) : read (bytes ++ more) = .ok (b, rest ++ more) := by
  rcases read_append bytes more with ⟨offset, htruncated⟩ | hsame
  · rw [h] at htruncated
    cases htruncated
  · rw [hsame, h]
    rfl

/-- **Self-delimiting.**  Of a stored form, no proper beginning can be read, and the fault is always
that bytes are missing.  Bytes after a stored form are counted by strict reading and ignored by
lenient reading. -/
theorem decodeStrict_delimits (bytes : List UInt8) (b : Binary) (h : decodeStrict bytes = .ok b) :
    (∀ front, front <+: bytes → front ≠ bytes →
      (∃ offset, decodeStrict front = .error (.truncated offset)) ∧ decodeLenient front = {}) ∧
    (∀ more, more ≠ [] →
      decodeStrict (bytes ++ more) = .error (.trailingBytes more.length) ∧
        decodeLenient (bytes ++ more) = b) ∧
    decodeLenient bytes = b := by
  have hread := decodeStrict_eq_ok.mp h
  refine ⟨?_, ?_, ?_⟩
  · rintro front ⟨back, rfl⟩ hproper
    have hback : back ≠ [] := by
      rintro rfl
      exact hproper (List.append_nil front).symm
    obtain ⟨offset, htruncated⟩ := isTruncated_of_read_append hread hback
    refine ⟨⟨offset, ?_⟩, ?_⟩
    · rw [decodeStrict, htruncated]
      rfl
    · rw [decodeLenient, htruncated]
  · intro more hmore
    have hmoreRead := read_append_of_ok hread more
    have hleft : more.isEmpty = false := by
      rw [List.isEmpty_eq_false_iff]
      exact hmore
    refine ⟨?_, ?_⟩
    · rw [decodeStrict, hmoreRead, List.nil_append]
      show (if more.isEmpty = true then pure b else throw _ : Except Fault Binary) = _
      rw [hleft]
      rfl
    · rw [decodeLenient, hmoreRead]
  · rw [decodeLenient, hread]

/-- Cut behind the count of entrypoints, and with one byte too many. -/
theorem decodeStrict_delimits_oddSample :
    decodeStrict oddSample.encode = .ok oddSample ∧
      (∃ offset, decodeStrict (oddSample.encode.take 16) = .error (.truncated offset)) ∧
      decodeStrict (oddSample.encode ++ [7]) = .error (.trailingBytes 1) ∧
      decodeLenient (oddSample.encode ++ [7]) = oddSample := by
  have hodd : decodeStrict oddSample.encode = .ok oddSample :=
    decodeStrict_eq_ok.mpr (read_encode (by decide) (by decide +kernel))
  have hcut : oddSample.encode.take 16 ≠ oddSample.encode := by decide +kernel
  obtain ⟨hfront, hmore, _⟩ := decodeStrict_delimits oddSample.encode oddSample hodd
  obtain ⟨hstrict, hlenient⟩ := hmore [7] (List.cons_ne_nil _ _)
  exact ⟨hodd, (hfront _ (List.take_prefix 16 _) hcut).1, hstrict, hlenient⟩

end Shading.Binary
