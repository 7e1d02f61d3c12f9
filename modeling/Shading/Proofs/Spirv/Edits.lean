import Shading.Proofs.Spirv.Definite

/-! # Buffers of code keep their frames

Code is collected in several buffers, which grow by pushes and by putting one buffer behind another
(`Edit`).  `held` says what a buffer holds in the end, by a rule that looks only at the words an
instruction would have: it is taken if none of its ids is zero and its words, the header included, can
be counted in a header (`Instruction.Fits`).

A push uses the predicted word count instead, both to refuse an instruction and to write its header.
The prediction is right for every operand, so the two rules agree (`isWritable_iff_fits`), and whatever
the edits, the words of a buffer are cut by their headers into the instructions it holds
(`edits_framed`). -/

namespace Shading.Spirv

/-! ### Instructions and their words -/

namespace Instruction

/-- The words of an instruction: a header that counts them, and the words of its operands. -/
def frame (i : Instruction) : List UInt32 :=
  let written := i.operands.flatMap Operand.words
  ((1 + written.length).toUInt32 <<< 16 ||| i.op.entry.number) :: written

/-- The instruction can be written: no id in it is zero, and a header can count its words. -/
def Fits (i : Instruction) : Prop :=
  (∀ o ∈ i.operands, ∀ x ∈ o.idsOf, x.number ≠ 0) ∧ i.frame.length ≤ 65535

instance (i : Instruction) : Decidable i.Fits := inferInstanceAs (Decidable (_ ∧ _))

/-- The header is written with the predicted count, which is that of the words. -/
theorem words_eq_frame (i : Instruction) : i.words = i.frame := by
  rw [words, frame, wordCount_eq, Nat.add_comm]

theorem isWritable_iff_fits (i : Instruction) : i.isWritable = true ↔ i.Fits := by
  have hnull : i.operands.any Operand.hasNullId = false ↔
      ∀ o ∈ i.operands, ∀ x ∈ o.idsOf, x.number ≠ 0 := by
    simp [Operand.hasNullId, Id.isNull]
  have hlength : i.frame.length = i.wordCount := by
    rw [← words_eq_frame, length_words]
  rw [Fits, ← hnull, hlength]
  simp only [isWritable, UInt16.size, Bool.and_eq_true, Bool.not_eq_true', decide_eq_true_eq]
  exact and_congr_right fun _ => Nat.lt_succ_iff

theorem filter_isWritable (is : List Instruction) :
    is.filter isWritable = is.filter fun i => i.Fits :=
  List.filter_congr fun i _ => Bool.eq_iff_iff.mpr ((isWritable_iff_fits i).trans decide_eq_true_iff.symm)

end Instruction

/-! ### One push -/

theorem Code.words_push {c : Code} {op : Op} {operands : List Operand}
    (h : Instruction.isWritable ⟨op, operands⟩ = true) :
    (c.push op operands).words = c.words ++ Instruction.frame ⟨op, operands⟩ := by
  rw [Code.words, push_instructions, if_pos h, List.flatMap_append, List.flatMap_singleton,
    Instruction.words_eq_frame]
  rfl

/-- A push that is refused changes nothing. -/
theorem Code.push_refused {c : Code} {op : Op} {operands : List Operand}
    (h : Instruction.isWritable ⟨op, operands⟩ = false) : c.push op operands = c := by
  simp [push, h]

/-! ### Edits -/

/-- A change to one of several buffers of code. -/
inductive Edit (β : Type) where
  /-- Pushes an instruction. -/
  | push (target : β) (op : Op) (operands : List Operand)
  /-- Puts the contents of a buffer behind those of another one. -/
  | append (target source : β)
deriving DecidableEq, Repr

section

variable {β : Type} [DecidableEq β]

/-- Changes one buffer. -/
def replace {α : Type} (buffers : β → α) (target : β) (value : α) : β → α :=
  fun x => if x = target then value else buffers x

theorem replace_self {α : Type} (buffers : β → α) (target : β) :
    replace buffers target (buffers target) = buffers := by
  funext x
  unfold replace
  split
  case isTrue hx => rw [hx]
  case isFalse => rfl

/-- What an edit makes of the buffers. -/
def Edit.apply (buffers : β → Code) : Edit β → β → Code
  | .push target op operands => replace buffers target ((buffers target).push op operands)
  | .append target source => replace buffers target ((buffers target).append (buffers source))

/-- What an edit makes of the instructions held. -/
def Edit.hold (held : β → List Instruction) : Edit β → β → List Instruction
  | .push target op operands =>
    if Instruction.Fits ⟨op, operands⟩ then replace held target (held target ++ [⟨op, operands⟩])
    else held
  | .append target source => replace held target (held target ++ held source)

/-- The buffers after some edits.  All are empty at first. -/
def edited (edits : List (Edit β)) : β → Code := edits.foldl Edit.apply fun _ => {}

/-- The instructions that were taken, buffer by buffer. -/
def held (edits : List (Edit β)) : β → List Instruction := edits.foldl Edit.hold fun _ => []

/-- The buffer has grown and holds these instructions. -/
structure Holding (c : Code) (is : List Instruction) : Prop where
  grown : c.Grown
  instructions : c.instructions.toList = is

theorem holding_replace {buffers : β → Code} {is : β → List Instruction} {target : β} {c : Code}
    {js : List Instruction} (h : ∀ x, Holding (buffers x) (is x)) (hc : Holding c js) (x : β) :
    Holding (replace buffers target c x) (replace is target js x) := by
  unfold replace
  split
  · exact hc
  · exact h x

/-- Every edit does to the buffers what it does to the instructions held. -/
theorem holding_apply {buffers : β → Code} {is : β → List Instruction}
    (h : ∀ x, Holding (buffers x) (is x)) (edit : Edit β) (x : β) :
    Holding (edit.apply buffers x) (edit.hold is x) := by
  cases edit with
  | push target op operands =>
      have hfits := Instruction.isWritable_iff_fits ⟨op, operands⟩
      simp only [Edit.apply, Edit.hold]
      split
      case isTrue htaken =>
        refine holding_replace h ⟨(h target).grown.push op operands, ?_⟩ x
        rw [Code.push_instructions, if_pos (hfits.mpr htaken), (h target).instructions]
      case isFalse hleft =>
        have hrefused := Bool.eq_false_iff.mpr (mt hfits.mp hleft)
        rw [Code.push_refused hrefused, replace_self]
        exact h x
  | append target source =>
      refine holding_replace h ⟨(h target).grown.append (h source).grown, ?_⟩ x
      rw [Code.instructions_append, (h target).instructions, (h source).instructions]

theorem holding_edited (edits : List (Edit β)) (x : β) : Holding (edited edits x) (held edits x) := by
  have hfoldl : ∀ (buffers : β → Code) (is : β → List Instruction),
      (∀ x, Holding (buffers x) (is x)) →
        ∀ x, Holding (edits.foldl Edit.apply buffers x) (edits.foldl Edit.hold is x) := by
    induction edits with
    | nil => exact fun _ _ h => h
    | cons edit edits ih =>
        intro buffers is h
        exact ih (edit.apply buffers) (edit.hold is) (holding_apply h edit)
  exact hfoldl _ _ (fun _ => ⟨.empty, rfl⟩) x

theorem map_words_eq (is : List Instruction) :
    is.map Instruction.words = is.map Instruction.frame :=
  List.map_congr_left fun i _ => i.words_eq_frame

/-- The words of a buffer fall apart into the frames of what it holds. -/
theorem Holding.splitWords {c : Code} {is : List Instruction} (h : Holding c is) :
    splitWords c.words = some (is.map Instruction.frame) := by
  rw [Code.words, splitWords_instructions h.grown.writable, h.instructions, map_words_eq]

/-- A module whose sections are buffers: what its sections hold follows its declarations. -/
theorem splitWords_assemble_holding {m : Module} {is : Section → List Instruction}
    (h : ∀ s, Holding (m.code s) (is s)) :
    Spirv.splitWords (m.assemble.drop m.header.length) =
      some ((m.requirements.capabilities.members.map Instruction.declaring ++
        (m.requirements.extensions.map Instruction.enabling).filter (fun i => i.Fits) ++
          Module.memoryModel.instructions.toList ++
            (Named.all (α := Section)).flatMap is).map Instruction.frame) := by
  have hgrown : m.Grown := fun s => (h s).grown
  have hpushed : m.pushed = (Named.all (α := Section)).flatMap is := by
    rw [Module.pushed, Module.sections_eq, List.flatMap_map]
    simp only [(h _).instructions]
  rw [hgrown.splitWords_assemble, m.instructions_eq, Module.declarations,
    Instruction.filter_isWritable, hpushed, map_words_eq]

end

/-- **Frames are never broken.**  Whatever pushes and appends were made to some buffers: the next push
is refused exactly if an id in its operands is zero or its words, the header included, are more than
65535.  Then it changes neither the words of its buffer nor what they require; otherwise it adds that
many words, of which the first has their number above the opcode.  So the words of every buffer are cut
by their headers, up to the last, into the instructions that were taken, in order; and so are the words
behind the header of a module whose sections are such buffers, where declarations come first.  Of these,
none is missing if operands were chosen from the enumerations. -/
theorem edits_framed {β : Type} [DecidableEq β] (edits : List (Edit β)) :
    (∀ (x : β) (op : Op) (operands : List Operand),
      let written := operands.flatMap Operand.words
      let count := 1 + written.length
      let before := edited edits x
      let after := before.push op operands
      (Instruction.isWritable ⟨op, operands⟩ = false ↔
        (∃ o ∈ operands, ∃ y ∈ o.idsOf, y.number = 0) ∨ 65535 < count) ∧
      (Instruction.isWritable ⟨op, operands⟩ = false →
        after.words = before.words ∧ after.requirements = before.requirements) ∧
      (Instruction.isWritable ⟨op, operands⟩ = true →
        after.words = before.words ++ (count.toUInt32 <<< 16 ||| op.entry.number) :: written ∧
          after.words.length = before.words.length + count)) ∧
    (∀ x, splitWords (edited edits x).words = some ((held edits x).map Instruction.frame)) ∧
    ∀ (m : Module) (place : Section → β), (∀ s, m.code s = edited edits (place s)) →
      splitWords (m.assemble.drop 5) =
        some ((m.requirements.capabilities.members.map Instruction.declaring ++
          (m.requirements.extensions.map Instruction.enabling).filter (fun i => i.Fits) ++
            Module.memoryModel.instructions.toList ++
              (Named.all (α := Section)).flatMap fun s => held edits (place s)).map
                Instruction.frame) ∧
      ((∀ s, ∀ i ∈ held edits (place s), i.Listed) →
        ∀ e ∈ m.requirements.extensions, (Instruction.enabling e).Fits) := by
  refine ⟨?_, fun x => (holding_edited edits x).splitWords, ?_⟩
  · intro x op operands written count before after
    have hfits := Instruction.isWritable_iff_fits ⟨op, operands⟩
    have hlength : (Instruction.frame ⟨op, operands⟩).length = count := Nat.add_comm _ _
    refine ⟨?_, ?_, ?_⟩
    · rw [← Bool.not_eq_true, hfits, Instruction.Fits, hlength, Classical.not_and_iff_not_or_not]
      simp
    · intro hrefused
      have hsame : after = before := Code.push_refused hrefused
      exact ⟨congrArg Code.words hsame, congrArg Code.requirements hsame⟩
    · intro hwritable
      have hwords : after.words = before.words ++ Instruction.frame ⟨op, operands⟩ :=
        Code.words_push hwritable
      refine ⟨hwords, ?_⟩
      rw [hwords, List.length_append, hlength]
  · intro m place hplace
    have hholding : ∀ s, Holding (m.code s) (held edits (place s)) := by
      intro s
      rw [hplace s]
      exact holding_edited edits (place s)
    refine ⟨splitWords_assemble_holding hholding, ?_⟩
    intro hlisted e he
    have hknown := Module.known_requirements (fun s => (hholding s).grown.covered)
      (fun s => (hholding s).instructions ▸ hlisted s) e he
    exact (Instruction.isWritable_iff_fits _).mp (Instruction.isWritable_enabling e hknown)

/-- Two buffers: an entry point with a text and ids, a call that uses the null id in a list, and the
first buffer put behind the second, twice. -/
def framedSample : List (Edit Bool) :=
  [.push true .entryPoint
      [.enumerant (.of ExecutionModel.fragment), .id ⟨4⟩, .text "main", .ids [⟨7⟩, ⟨9⟩]],
    .push false .functionCall [.id ⟨1⟩, .optionalId none, .ids [⟨2⟩, ⟨0⟩]],
    .append false true,
    .push true .kill [],
    .append false true]

/-- A module with the first buffer as its globals and the second one everywhere else. -/
def framedModule : Module where
  entryPoints := edited framedSample false
  executionModes := edited framedSample false
  debug := edited framedSample false
  annotations := edited framedSample false
  globals := edited framedSample true
  functions := edited framedSample false

theorem edits_framed_framedSample :
    (edited framedSample true).words =
        [0x0007000f, 4, 4, 0x6e69616d, 0, 7, 9, 0x000100fc] ∧
      splitWords (edited framedSample false).words =
        some [[0x0007000f, 4, 4, 0x6e69616d, 0, 7, 9], [0x0007000f, 4, 4, 0x6e69616d, 0, 7, 9],
          [0x000100fc]] ∧
      Instruction.isWritable ⟨.functionCall, [.id ⟨1⟩, .optionalId none, .ids [⟨2⟩, ⟨0⟩]]⟩ = false ∧
      Instruction.isWritable ⟨.string, [.literals (List.replicate 65535 0)]⟩ = false ∧
      (splitWords (framedModule.assemble.drop 5)).map List.length = some 19 := by
  obtain ⟨hpush, hbuffers, hmodules⟩ := edits_framed framedSample
  refine ⟨by decide +kernel, ?_, (hpush true _ _).1.mpr (Or.inl ?_),
    (hpush true _ _).1.mpr (Or.inr ?_), ?_⟩
  · rw [hbuffers]
    decide +kernel
  · exact ⟨.ids [⟨2⟩, ⟨0⟩], by simp, ⟨0⟩, by simp [Operand.idsOf], rfl⟩
  · rw [List.flatMap_singleton, Operand.words, List.length_replicate]
    decide
  · have hplace : ∀ s, framedModule.code s = edited framedSample (s == .globals) := by
      intro s
      cases s <;> rfl
    rw [(hmodules framedModule (fun s => s == .globals) hplace).1]
    decide +kernel

end Shading.Spirv
