import Shading.Proofs.Binary.Validation
import Shading.Proofs.Lower.Inventory
import Shading.Proofs.Spirv.Texts

/-! # Names in a module

The names of functions and entrypoints come from any range of the string table that is UTF-8, and a zero
byte is UTF-8 too.  A module stores them as texts, which end with their first zero byte.  So a name is
found in the module, with the ids behind it in their places, exactly if it has no zero byte
(`transpile_names`). -/

namespace Shading.Lower

open Spirv (Id Instruction Operand readText textWords)

/-! ### Names of a valid binary -/

/-- A name that resolves has the bytes of its range. -/
theorem nameBytes?_of_checkName {b : Binary} {range : Binary.Range}
    (h : b.checkName range = .ok ()) :
    b.nameBytes? range = some (Text.utf8Bytes (nameOf b range)) := by
  unfold Binary.checkName at h
  cases hbytes : b.nameBytes? range with
  | none =>
      rw [hbytes] at h
      cases h
  | some bytes =>
      rw [hbytes] at h
      dsimp only at h
      cases htext : Text.ofUtf8? bytes with
      | none =>
          rw [htext] at h
          cases h
      | some text =>
          have hname : nameOf b range = text := by simp [nameOf, Binary.name?, hbytes, htext]
          rw [hname, Text.utf8Bytes_ofUtf8? htext]

theorem checkName_of_validate {b : Binary} (h : b.validate = .ok ()) :
    (∀ e ∈ b.entrypoints, b.checkName e.name = .ok ()) ∧
      ∀ f ∈ b.functions, b.checkName f.name = .ok () := by
  obtain ⟨_, hentrypoints, hfunctions⟩ := bind_eq_ok.mp h
  refine ⟨fun e he => ?_, fun f hf => ?_⟩
  · obtain ⟨_, hname, _⟩ := bind_eq_ok.mp (forM_eq_ok.mp hentrypoints e he)
    exact hname
  · obtain ⟨_, hname, _⟩ := bind_eq_ok.mp (forM_eq_ok.mp hfunctions f hf)
    exact hname

/-! ### Reading names -/

/-- The operand behind the first `skipped` words of an instruction reads as a text with these bytes, and
behind it these words are left. -/
def Reads (i : Instruction) (skipped : Nat) (bytes : List UInt8) (rest : List UInt32) : Prop :=
  readText (i.words.drop skipped) = some (bytes, rest)

/-- The name of an entry point stands after its model and its function, before its interface. -/
theorem reads_entry_iff (e : Entry) :
    Reads e.instruction 3 (Text.utf8Bytes e.name) (e.interface.map Id.number) ↔
      0 ∉ Text.utf8Bytes e.name := by
  have hwords : e.instruction.words.drop 3 = textWords e.name ++ e.interface.map Id.number := by
    simp [Entry.instruction, Instruction.words, Operand.words]
  rw [Reads, hwords, Spirv.readText_textWords_iff]

theorem reads_nameRecord_iff (id : Id) (name : String) :
    Reads (nameRecord id name) 2 (Text.utf8Bytes name) [] ↔ 0 ∉ Text.utf8Bytes name := by
  have hwords : (nameRecord id name).words.drop 2 = textWords name ++ [] := by
    simp [nameRecord, Instruction.words, Operand.words]
  rw [Reads, hwords, Spirv.readText_textWords_iff]

/-- **Names are read back.**  If a binary is transpiled without an error, its words are a header and
whole instructions.  The entry points among them, and the names if they are kept, are those of its
functions and entrypoints, in order, apart from instructions that cannot be written.  In each of them
the name is read back from the string table, with nothing but the ids of the interface behind it,
exactly if it has no zero byte. -/
theorem transpile_names (options : Options) (file : Nat) (b : Binary)
    (hok : (transpileBinary options file b).errored = false) :
    let is := (build options b).output.instructions
    Spirv.splitWords ((transpileBinary options file b).value.drop 5) = some (is.map Instruction.words) ∧
      ∃ functions entries,
        having .entryPoint is = (entries.map Entry.instruction).filter Instruction.isWritable ∧
        having .var is = (entries.flatMap Entry.declarations).filter Instruction.isWritable ∧
        having .name is = (functions.flatMap (fun f => nameRecords options f.head.id f.name) ++
          entries.flatMap fun e => nameRecords options e.head.id e.name).filter
            Instruction.isWritable ∧
        List.Forall₂ (fun e entry => Describes b e entry ∧ ∃ bytes, b.nameBytes? e.name = some bytes ∧
          (Reads entry.instruction 3 bytes (entry.interface.map Id.number) ↔ 0 ∉ bytes) ∧
          (Reads (nameRecord entry.head.id entry.name) 2 bytes [] ↔ 0 ∉ bytes))
          b.entrypoints entries ∧
        List.Forall₂ (fun f entry => DescribesFunction b f entry ∧
          ∃ bytes, b.nameBytes? f.name = some bytes ∧
            (Reads (nameRecord entry.head.id entry.name) 2 bytes [] ↔ 0 ∉ bytes))
          b.functions functions := by
  intro is
  obtain ⟨hvalid, _, _⟩ := accepted_of_transpile hok
  obtain ⟨hwords, h, functions, entries, hbuild, ht, hofFunctions, hofEntrypoints⟩ :=
    transcript_of_transpile hok
  obtain ⟨hentrypoints, hfunctions⟩ := checkName_of_validate hvalid
  have his : is = (after options h).output.instructions :=
    congrArg (fun p => Progress.output p |>.instructions) hbuild
  refine ⟨hwords, functions.map .ofBlock, entries.map Prod.fst, ?_, ?_, ?_, ?_, ?_⟩
  · rw [his, having_instructions (by decide), ht.having_entryPoint]
  · rw [his, having_instructions (by decide), ht.having_var]
  · rw [his, having_instructions (by decide), ht.having_name]
  · refine ((List.forall₂_and_left _ _).mpr ⟨hentrypoints, hofEntrypoints⟩).imp ?_
    rintro e entry ⟨hname, hentry⟩
    refine ⟨hentry, Text.utf8Bytes entry.name, ?_, reads_entry_iff entry,
      reads_nameRecord_iff entry.head.id entry.name⟩
    rw [hentry.name]
    exact nameBytes?_of_checkName hname
  · refine ((List.forall₂_and_left _ _).mpr ⟨hfunctions, hofFunctions⟩).imp ?_
    rintro f entry ⟨hname, hentry⟩
    refine ⟨hentry, Text.utf8Bytes entry.name, ?_, reads_nameRecord_iff entry.head.id entry.name⟩
    rw [hentry.name]
    exact nameBytes?_of_checkName hname

/-- A vertex stage with one input whose name has a zero byte, and a function whose name has none. -/
def zeroSample : Binary where
  entrypoints := [⟨.vertex, ⟨0, 1⟩, ⟨0, 5⟩, [⟨⟨7⟩, []⟩], []⟩]
  functions := [⟨⟨0, 1⟩, ⟨2, 3⟩, ⟨0⟩, []⟩]
  strings := [0x61, 0, 0x62, 0x63, 0x64]
  code := [0x00010001]

/-- The name is cut at its zero byte, and the rest of it stands where the interface should begin. -/
theorem zeroSample_cut :
    (transpileBinary { names := true } 0 zeroSample).errored = false ∧
      zeroSample.nameBytes? ⟨0, 5⟩ = some [0x61, 0, 0x62, 0x63, 0x64] ∧
      (having .entryPoint (build { names := true } zeroSample).output.instructions).map
        (fun i => readText (i.words.drop 3)) = [some ([0x61], [0x64, 9])] := by
  decide +kernel

theorem transpile_names_zeroSample :
    (transpileBinary { names := true } 0 zeroSample).errored = false ∧
      ∃ (f : FunctionEntry) (e : Entry),
        having .entryPoint (build { names := true } zeroSample).output.instructions =
          [e.instruction].filter Instruction.isWritable ∧
        Reads (nameRecord f.head.id f.name) 2 [0x62, 0x63, 0x64] [] ∧
        ¬ Reads e.instruction 3 [0x61, 0, 0x62, 0x63, 0x64] (e.interface.map Id.number) := by
  have hok : (transpileBinary { names := true } 0 zeroSample).errored = false := by decide +kernel
  obtain ⟨_, functions, entries, hpoints, _, _, hentries, hfunctions⟩ :=
    transpile_names { names := true } 0 zeroSample hok
  cases hentries with
  | @cons _ e _ _ hentry hnone =>
    cases hnone
    cases hfunctions with
    | @cons _ f _ _ hfunction hnone =>
      cases hnone
      obtain ⟨_, bytes, hbytes, hreads, _⟩ := hentry
      obtain ⟨_, others, hothers, hreads'⟩ := hfunction
      obtain rfl : [0x61, 0, 0x62, 0x63, 0x64] = bytes := Option.some.inj hbytes
      obtain rfl : [0x62, 0x63, 0x64] = others := Option.some.inj hothers
      exact ⟨hok, f, e, hpoints, hreads'.mpr (by decide), fun h => hreads.mp h (by decide)⟩

end Shading.Lower
