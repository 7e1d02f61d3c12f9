import Shading.Proofs.Binary.Reading

/-! # Reading gives back what was written

`decode_encode` says that the stored form of a binary is read as that binary, strictly and leniently.
Two limits are those of the format: a number of qualifiers is stored in a word, and a stored form
whose length exceeds 64 bits has counts that do. -/

namespace Shading.Binary

/-- The parameters of all records: inputs and outputs of entrypoints, parameters of functions. -/
def allParameters (b : Binary) : List Parameter :=
  b.entrypoints.flatMap (fun e => e.inputs ++ e.outputs) ++ b.functions.flatMap Function.parameters

theorem mem_allParameters_entrypoint {b : Binary} {e : Entrypoint} {p : Parameter}
    (he : e ∈ b.entrypoints) (hp : p ∈ e.inputs ++ e.outputs) : p ∈ b.allParameters :=
  List.mem_append_left _ (List.mem_flatMap.mpr ⟨e, he, hp⟩)

theorem mem_allParameters_function {b : Binary} {f : Function} {p : Parameter}
    (hf : f ∈ b.functions) (hp : p ∈ f.parameters) : p ∈ b.allParameters :=
  List.mem_append_right _ (List.mem_flatMap.mpr ⟨f, hf, hp⟩)

/-- All numbers of items in the binary can be stored. -/
structure Countable (b : Binary) : Prop where
  entrypoints : b.entrypoints.length < UInt64.size
  functions : b.functions.length < UInt64.size
  strings : b.strings.length < UInt64.size
  code : b.code.length < UInt64.size
  interfaces : ∀ e ∈ b.entrypoints,
    Decoder.CountableParameters e.inputs ∧ Decoder.CountableParameters e.outputs
  parameters : ∀ f ∈ b.functions, Decoder.CountableParameters f.parameters

/-- The stored form after magic and version, record list by record list. -/
def storedContents (b : Binary) : List UInt8 :=
  ((Layout.count b.entrypoints.length).stored ++
      b.entrypoints.flatMap (fun e => storedAll (Layout.entrypoint e))) ++
    (((Layout.count b.functions.length).stored ++
        b.functions.flatMap (fun f => storedAll (Layout.function f))) ++
      (storedAll (Layout.strings b.strings) ++
        ((Layout.count 0).stored ++ storedAll (Layout.code b.code))))

theorem encode_eq (b : Binary) :
    b.encode = Word.bytes32 magic ++ (Word.bytes32 Version.current.toWord ++ b.storedContents) := by
  rw [encode_eq_storedAll]
  simp [layout, storedContents, storedAll_flatMap, Field.stored]

namespace Decoder

theorem readsRecord_entrypoints {b : Binary} (hb : b.Countable) :
    ReadsRecord (count entrypointSize >>= times entrypoint)
      ((Layout.count b.entrypoints.length).stored ++
        b.entrypoints.flatMap (fun e => storedAll (Layout.entrypoint e))) b.entrypoints := by
  refine readsRecord_counted hb.entrypoints (fun e _ => entrypointSize_le e) ?_
  intro e he
  exact readsRecord_entrypoint (hb.interfaces e he).1 (hb.interfaces e he).2

theorem readsRecord_functions {b : Binary} (hb : b.Countable) :
    ReadsRecord (count functionSize >>= times function)
      ((Layout.count b.functions.length).stored ++
        b.functions.flatMap (fun f => storedAll (Layout.function f))) b.functions := by
  refine readsRecord_counted hb.functions (fun f _ => functionSize_le f) ?_
  intro f hf
  exact readsRecord_function (hb.parameters f hf)

theorem readsRecord_contents {b : Binary} (hb : b.Countable) :
    ReadsRecord contents b.storedContents b := by
  rw [contents, storedContents]
  refine (readsRecord_entrypoints hb).bind ?_
  refine (readsRecord_functions hb).bind ?_
  refine (readsRecord_strings hb.strings).bind ?_
  refine (readsRecord_long 0).bind ?_
  exact (readsRecord_code hb.code).map

theorem reads_binary {b : Binary} (hb : b.Countable) : Reads binary 0 b.encode b := by
  rw [encode_eq]
  unfold binary
  refine (reads_word 0 magic).bind ?_
  refine (reads_word _ Version.current.toWord).bind ?_
  exact (readsRecord_contents hb).2 _ rfl

end Decoder

/-! ### Reading to the end -/

theorem read_eq (bytes : List UInt8) :
    read bytes = ((Decoder.binary : Decoder Binary) ⟨0, bytes⟩).map fun x => (x.1, x.2.bytes) := by
  unfold read StateT.run
  cases (Decoder.binary : Decoder Binary) ⟨0, bytes⟩ with
  | error fault => rfl
  | ok x => rfl

/-- Strict reading succeeds if reading does and nothing is left. -/
theorem decodeStrict_eq_ok {bytes : List UInt8} {b : Binary} :
    decodeStrict bytes = .ok b ↔ read bytes = .ok (b, []) := by
  unfold decodeStrict
  cases read bytes with
  | error fault => simp [bind, Except.bind]
  | ok x =>
      obtain ⟨found, rest⟩ := x
      cases rest with
      | nil => simp [bind, Except.bind, pure, Except.pure]
      | cons c cs => simp [bind, Except.bind, throw, throwThe, MonadExceptOf.throw]

/-- The stored form of a countable binary is read as that binary and leaves nothing. -/
theorem Countable.read_encode {b : Binary} (hb : b.Countable) : read b.encode = .ok (b, []) := by
  have h := Decoder.reads_binary hb []
  rw [List.append_nil] at h
  rw [read_eq, h]
  rfl

/-! ### Lengths that bound counts -/

theorem length_le_storedAll_parameters (ps : List Parameter) :
    ps.length ≤ (storedAll (Layout.parameters ps)).length := by
  have hsize : ∀ p ∈ ps, Decoder.parameterSize ≤ (storedAll (Layout.parameter p)).length :=
    fun p _ => Decoder.parameterSize_le p
  have hcount := length_flatMap_ge hsize
  rw [Decoder.parameterSize] at hcount
  rw [Decoder.storedAll_parameters, List.length_append]
  omega

/-- A stored form of less than 64 bits' length has no count that needs more. -/
theorem countable_of_encode {b : Binary}
    (hq : ∀ p ∈ b.allParameters, p.qualifiers.length < UInt32.size)
    (hlen : b.encode.length < UInt64.size) : b.Countable := by
  have hentrypoints : ∀ e ∈ b.entrypoints,
      Decoder.entrypointSize ≤ (storedAll (Layout.entrypoint e)).length :=
    fun e _ => Decoder.entrypointSize_le e
  have hfunctions : ∀ f ∈ b.functions,
      Decoder.functionSize ≤ (storedAll (Layout.function f)).length :=
    fun f _ => Decoder.functionSize_le f
  have hmanyEntrypoints := length_flatMap_ge hentrypoints
  have hmanyFunctions := length_flatMap_ge hfunctions
  rw [Decoder.entrypointSize] at hmanyEntrypoints
  rw [Decoder.functionSize] at hmanyFunctions
  simp only [encode_eq, storedContents, Layout.strings, Layout.code, storedAll_append, storedAll_cons,
    storedAll_words, List.length_append, flatMap_bytes32_length, Field.stored] at hlen
  refine ⟨by omega, by omega, by omega, by omega, ?_, ?_⟩
  · intro e he
    have hstored := length_le_flatMap (fun e => storedAll (Layout.entrypoint e)) he
    have hinputs := length_le_storedAll_parameters e.inputs
    have houtputs := length_le_storedAll_parameters e.outputs
    have hrecord : (storedAll (Layout.parameters e.inputs)).length +
        (storedAll (Layout.parameters e.outputs)).length ≤ (storedAll (Layout.entrypoint e)).length := by
      simp only [Decoder.storedAll_entrypoint, List.length_append]
      omega
    refine ⟨⟨by omega, fun p hp => ?_⟩, ⟨by omega, fun p hp => ?_⟩⟩
    · exact hq p (mem_allParameters_entrypoint he (List.mem_append_left _ hp))
    · exact hq p (mem_allParameters_entrypoint he (List.mem_append_right _ hp))
  · intro f hf
    have hstored := length_le_flatMap (fun f => storedAll (Layout.function f)) hf
    have hparameters := length_le_storedAll_parameters f.parameters
    have hrecord : (storedAll (Layout.parameters f.parameters)).length ≤
        (storedAll (Layout.function f)).length := by
      simp only [Decoder.storedAll_function, List.length_append]
      omega
    exact ⟨by omega, fun p hp => hq p (mem_allParameters_function hf hp)⟩

/-- The stored form of a binary is read as that binary and leaves nothing. -/
theorem read_encode {b : Binary} (hq : ∀ p ∈ b.allParameters, p.qualifiers.length < UInt32.size)
    (hlen : b.encode.length < UInt64.size) : read b.encode = .ok (b, []) :=
  (countable_of_encode hq hlen).read_encode

/-- **Round trip.**  The stored form of a binary is read as that binary, both strictly and
leniently. -/
theorem decode_encode (b : Binary) (hq : ∀ p ∈ b.allParameters, p.qualifiers.length < UInt32.size)
    (hlen : b.encode.length < UInt64.size) :
    decodeStrict b.encode = .ok b ∧ decodeLenient b.encode = b := by
  have h := read_encode hq hlen
  constructor
  · simp only [decodeStrict, h]
    rfl
  · simp only [decodeLenient, h]

/-- A binary in which every list has an odd length, with offsets that lie outside its tables. -/
def oddSample : Binary where
  entrypoints := [⟨.geometry, ⟨0, 3⟩, ⟨1, 0xffffffffffffffff⟩, [⟨⟨7⟩, [.input]⟩],
    [⟨⟨0xfedcba9876543210⟩, [.output, .none, .both]⟩]⟩]
  functions := [⟨⟨2, 1⟩, ⟨9, 0⟩, ⟨4⟩, [⟨⟨8⟩, []⟩]⟩]
  strings := [0x6d, 0x00, 0xff]
  code := [0x00010001, 0, 0xdeadbeef]

theorem decode_encode_oddSample :
    decodeStrict oddSample.encode = .ok oddSample ∧ decodeLenient oddSample.encode = oddSample :=
  decode_encode oddSample (by decide) (by decide +kernel)

end Shading.Binary
