import Shading.Proofs.Lower.Ids
import Shading.Stage

/-! # Options do not show in the code

Options choose the version that a module states and whether it keeps names for debugging.  Names have a
section to themselves, use ids that are handed out anyway and require nothing.  A binary has the same
history with all options, so its modules are the same up to names and versions (`Valid.stripped_eq`), and
their words are the same once names are deleted from them and the version is overwritten
(`transpile_unnamed`). -/

namespace Shading

/-! ### Words without names -/

namespace Spirv

/-- The opcode of an instruction, which is in the lower half of its first word. -/
def opcode (instruction : List UInt32) : UInt32 := instruction.headD 0 &&& 0xffff

/-- The words of a module without the names in it, and with another word for its version.  There are
none if what follows the header does not fall apart into instructions. -/
def unnamed (version : UInt32) (words : List UInt32) : Option (List UInt32) :=
  (splitWords (words.drop 5)).map fun instructions =>
    (words.take 5).set 1 version ++ (instructions.filter fun i => opcode i != 5).flatten

theorem Instruction.opcode_words {i : Instruction} (h : i.isWritable = true) :
    opcode i.words = i.op.entry.number := by
  apply UInt32.toNat_inj.mp
  have hlow : (0xffff : UInt32).toNat = 2 ^ 16 - 1 := rfl
  have hnumber := i.op.number_lt
  show ((i.wordCount.toUInt32 <<< 16 ||| i.op.entry.number) &&& 0xffff).toNat = _
  rw [UInt32.toNat_and, header_toNat (i.wordCount_lt h) hnumber, hlow, Nat.and_two_pow_sub_one_eq_mod]
  omega

theorem Op.number_eq_name {op : Op} : op.entry.number = 5 ↔ op = .name := by
  cases op <;> decide

namespace Module

/-- The instructions other than names. -/
def nameless (m : Module) : List Instruction := m.instructions.filter fun i => i.op != .name

theorem unnamed_assemble {m : Module} (h : m.Grown) (version : UInt32) :
    unnamed version m.assemble =
      some ([magic, version, 0, m.bound, 0] ++ m.nameless.flatMap Instruction.words) := by
  have hfilter : (m.instructions.map Instruction.words).filter (fun i => opcode i != 5) =
      m.nameless.map Instruction.words := by
    rw [nameless, List.filter_map]
    refine congrArg _ (List.filter_congr fun i hi => ?_)
    show (opcode i.words != 5) = (i.op != .name)
    rw [Instruction.opcode_words (h.isWritable_of_mem_instructions i hi), Bool.eq_iff_iff,
      bne_iff_ne, bne_iff_ne]
    exact not_congr Op.number_eq_name
  have hsplit : splitWords (m.assemble.drop 5) = some (m.instructions.map Instruction.words) :=
    h.splitWords_assemble
  have hheader : m.assemble.take m.header.length = m.header := by
    rw [assemble_eq, List.take_left]
  rw [unnamed, hsplit, Option.map_some, hfilter, List.flatMap_def]
  exact congrArg (fun header => some (header.set 1 version ++ _)) hheader

/-- The module without the names in it, and with the standard version. -/
def stripped (m : Module) : Module := { m with version := .standard, debug := {} }

/-- The section for names holds nothing else, and requires nothing. -/
structure NamesApart (m : Module) : Prop where
  names : ∀ i ∈ m.debug.instructions.toList, i.op = .name
  requirements : m.debug.requirements = {}

theorem NamesApart.push {m : Module} (h : m.NamesApart) (x : Id) (name : String) :
    (m.push .debug .name [.id x, .text name]).NamesApart := by
  constructor
  · exact Code.forall_push h.names fun _ => rfl
  · show (m.debug.push .name [.id x, .text name]).requirements = {}
    rcases Code.push_cases m.debug .name [.id x, .text name] with hsame | ⟨_, _, hrequired⟩
    · rw [hsame]
      exact h.requirements
    · rw [hrequired, h.requirements]
      rfl

theorem NamesApart.nameless_eq {m : Module} (h : m.NamesApart) :
    m.nameless = m.stripped.nameless := by
  have hrequirements : m.requirements = m.stripped.requirements := by
    unfold Module.requirements sections
    simp only [List.foldl_cons]
    rw [h.requirements]
    rfl
  have hpreamble : m.preamble = m.stripped.preamble := by
    unfold preamble
    rw [hrequirements]
  have hdebug : m.debug.instructions.toList.filter (fun i => i.op != .name) = [] := by
    rw [List.filter_eq_nil_iff]
    intro i hi
    rw [h.names i hi]
    decide
  unfold nameless instructions pushed
  rw [hpreamble]
  simp only [sections, stripped, List.flatMap_cons, List.filter_append, hdebug]
  rfl

end Module

end Spirv

namespace Lower

open Spirv (Id Op Operand Section Instruction)

variable {b : Binary} {h : List Event} {e : Event}

/-! ### Modules with the same history -/

/-- A push into another section leaves names and the version alone, and does not depend on them. -/
theorem push_apart {s : Section} (hs : s ≠ .debug) (m : Spirv.Module) (op : Op)
    (operands : List Operand) :
    (m.push s op operands).stripped = m.stripped.push s op operands ∧
      (m.push s op operands).debug = m.debug := by
  cases s with
  | debug => exact absurd rfl hs
  | _ => exact ⟨rfl, rfl⟩

theorem home_ne_debug_of_isType {op : Op} (hop : isType op = true) : home op ≠ .debug := by
  rw [home_of_isType hop]
  decide

theorem Emitted.home_ne_debug {i : Instruction} (hi : Emitted i) : home i.op ≠ .debug := by
  have hops : ∀ op ∈ emittedOps, home op ≠ .debug := by decide
  exact hops _ hi.op_mem

/-- An event does the same to modules that are the same up to names. -/
theorem Event.Allowed.stripped_build (he : e.Allowed b h) {m m' : Spirv.Module}
    (hsame : m.stripped = m'.stripped) (options options' : Options) :
    (e.build options m).stripped = (e.build options' m').stripped := by
  have hfresh : m.fresh.2.stripped = m'.fresh.2.stripped := by
    show m.stripped.fresh.2 = m'.stripped.fresh.2
    rw [hsame]
  cases e with
  | reserve => exact hfresh
  | report => exact hsame
  | type k x op operands =>
      have hop := home_ne_debug_of_isType he.2.2.isType_eq
      show (m.fresh.2.push _ _ _).stripped = (m'.fresh.2.push _ _ _).stripped
      rw [(push_apart hop _ _ _).1, (push_apart hop _ _ _).1, hfresh]
  | define x i =>
      have hop := he.2.2.1.home_ne_debug
      show (m.fresh.2.push _ _ _).stripped = (m'.fresh.2.push _ _ _).stripped
      rw [(push_apart hop _ _ _).1, (push_apart hop _ _ _).1, hfresh]
  | push i =>
      have hop := he.2.1.home_ne_debug
      show (m.push _ _ _).stripped = (m'.push _ _ _).stripped
      rw [(push_apart hop _ _ _).1, (push_apart hop _ _ _).1, hsame]
  | name x text =>
      have hname : ∀ (options : Options) (m : Spirv.Module),
          (Event.build options m (.name x text)).stripped = m.stripped := by
        intro options m
        show ((nameRecords options x text).foldl _ m).stripped = _
        unfold nameRecords
        split <;> rfl
      rw [hname, hname, hsame]

/-- An event keeps names apart from all else. -/
theorem Event.Allowed.namesApart_build (he : e.Allowed b h) {m : Spirv.Module} (hm : m.NamesApart)
    (options : Options) : (e.build options m).NamesApart := by
  have hpush : ∀ {op : Op}, home op ≠ .debug → ∀ (m : Spirv.Module) (operands : List Operand),
      m.NamesApart → (m.push (home op) op operands).NamesApart := by
    intro op hop m operands hm
    have hdebug := (push_apart hop m op operands).2
    exact ⟨hdebug ▸ hm.names, hdebug ▸ hm.requirements⟩
  cases e with
  | reserve => exact ⟨hm.names, hm.requirements⟩
  | report => exact hm
  | type k x op operands =>
      exact hpush (home_ne_debug_of_isType he.2.2.isType_eq) m.fresh.2 _ ⟨hm.names, hm.requirements⟩
  | define x i => exact hpush he.2.2.1.home_ne_debug m.fresh.2 _ ⟨hm.names, hm.requirements⟩
  | push i => exact hpush he.2.1.home_ne_debug m _ hm
  | name x text =>
      show Spirv.Module.NamesApart ((nameRecords options x text).foldl _ m)
      unfold nameRecords
      split
      · exact hm.push x text
      · exact hm

/-- Names and versions apart, the modules with the same history are the same. -/
theorem Valid.stripped_eq (hv : Valid b h) (options options' : Options) :
    (after options h).output.stripped = (after options' h).output.stripped := by
  induction hv with
  | nil => rfl
  | snoc _ he ih =>
      rw [after_snoc, after_snoc, Event.output_play, Event.output_play]
      exact he.stripped_build ih options options'

theorem Valid.namesApart (hv : Valid b h) (options : Options) :
    (after options h).output.NamesApart := by
  induction hv with
  | nil => exact ⟨List.forall_mem_nil _, rfl⟩
  | snoc _ he ih =>
      rw [after_snoc, Event.output_play]
      exact he.namesApart_build ih options

/-- Without names, and but for the version, modules with the same history have the same words. -/
theorem Valid.unnamed_after (hv : Valid b h) (options options' : Options) (version : UInt32) :
    ∃ words, Spirv.unnamed version (after options h).output.assemble = some words ∧
      Spirv.unnamed version (after options' h).output.assemble = some words := by
  have hbound : (after options h).output.bound = (after options' h).output.bound := by
    show (after options h).output.stripped.bound = (after options' h).output.stripped.bound
    rw [hv.stripped_eq options options']
  refine ⟨_, Spirv.Module.unnamed_assemble (grown_after options h) version, ?_⟩
  rw [Spirv.Module.unnamed_assemble (grown_after options' h), (hv.namesApart options).nameless_eq,
    hv.stripped_eq options options', ← (hv.namesApart options').nameless_eq, hbound]

end Lower

/-- **Options do not leak into code.**  With any two choices of options, a binary gives the same
messages and, except for the word that states the version and for instructions that give names, the
same words: all ids, the bound on them and all declarations are the same. -/
theorem transpile_unnamed (options options' : Lower.Options) (file : Nat) (b : Binary) :
    (transpileBinary options file b).messages = (transpileBinary options' file b).messages ∧
      ∀ version, ∃ words,
        Spirv.unnamed version (transpileBinary options file b).value = some words ∧
          Spirv.unnamed version (transpileBinary options' file b).value = some words := by
  unfold transpileBinary Lower.lower
  cases b.validate with
  | error fault =>
      refine ⟨rfl, fun version => ⟨[], ?_, ?_⟩⟩
      all_goals simp [Spirv.unnamed, Spirv.splitWords]
  | ok _ =>
      obtain ⟨h, functions, entries, hbuild, ht⟩ := Lower.exists_transcript b
      dsimp only
      rw [hbuild options, hbuild options']
      refine ⟨?_, fun version => ht.valid.unnamed_after options options' version⟩
      rw [Lower.problems_after, Lower.problems_after]

end Shading
