import Mathlib.Data.List.Nodup
import Shading.Proofs.Lower.Transcript

/-! # The ids of the module of a binary

The ids that a history hands out are the numbers from one on (`Valid.handed_eq`).  What is pushed has no
other ids, so unless ids run out it is written if it is not too long (`Valid.isWritable_iff`).  Types and
variables are defined when their ids are handed out and functions only later, but in the end every id is
defined by one push (`Valid.results_perm`).  So the ids of the module are exactly those handed out, each
defined once (`lower_ids`). -/

namespace Shading.Lower

open Spirv (Id Op Operand Section Instruction StorageClass UsesEarlier)
open Binary (BuiltinType Parameter EntrypointKind)

variable {b : Binary} {h : List Event} {options : Options} {i : Instruction}

/-! ### Ids handed out -/

theorem nthId_toNat {k : Nat} (h : k < idLimit) : (nthId k).number.toNat = k + 1 :=
  Nat.mod_eq_of_lt (by simp only [idLimit, UInt32.size] at h; omega)

theorem Valid.handed_eq (hv : Valid b h) : handed h = (List.range (handed h).length).map nthId := by
  induction hv with
  | nil => rfl
  | @snoc h e hv he ih =>
      have hnext : handed [e] = [] ∨ handed [e] = [nthId (handed h).length] := by
        cases e with
        | reserve x => exact .inr (congrArg (fun x => [x]) he)
        | type k x => exact .inr (congrArg (fun x => [x]) he.1)
        | define x i => exact .inr (congrArg (fun x => [x]) he.1)
        | push | report | name => exact .inl rfl
      rw [handed_append]
      rcases hnext with hnext | hnext
      · rwa [hnext, List.append_nil]
      · rw [hnext, List.length_append, List.length_singleton, List.range_succ, List.map_append, ← ih]
        rfl

theorem Valid.toNat_of_mem (hv : Valid b h) (hids : (handed h).length < idLimit) {x : Id}
    (hx : x ∈ handed h) : 1 ≤ x.number.toNat ∧ x.number.toNat ≤ (handed h).length := by
  rw [hv.handed_eq] at hx
  obtain ⟨k, hk, rfl⟩ := List.mem_map.mp hx
  have hlt := List.mem_range.mp hk
  rw [nthId_toNat (by omega)]
  omega

theorem Valid.nodup_handed (hv : Valid b h) (hids : (handed h).length < idLimit) :
    (handed h).Nodup := by
  rw [hv.handed_eq]
  refine List.Nodup.map_on ?_ List.nodup_range
  intro j hj k hk heq
  have hjk := congrArg (fun x : Id => x.number.toNat) heq
  simp only [List.mem_range] at hj hk
  simp only [nthId_toNat (show j < idLimit by omega), nthId_toNat (show k < idLimit by omega)] at hjk
  omega

/-! ### What is pushed -/

/-- Every event of a history was allowed when it came. -/
theorem Valid.allowed (hv : Valid b h) {e : Event} (he : e ∈ h) :
    ∃ front rest, h = front ++ e :: rest ∧ Valid b front ∧ e.Allowed b front := by
  induction hv with
  | nil => cases he
  | @snoc h last hv hlast ih =>
      rcases List.mem_append.mp he with he | he
      · obtain ⟨front, rest, rfl, hfront, hallowed⟩ := ih he
        exact ⟨front, rest ++ [last], by simp, hfront, hallowed⟩
      · obtain rfl := List.mem_singleton.mp he
        exact ⟨h, [], rfl, hv, hlast⟩

theorem home_of_isType {op : Op} (hop : isType op = true) : home op = .globals := by
  revert hop
  cases op <;> decide

theorem resultPlace?_of_isType {op : Op} (hop : isType op = true) : op.resultPlace? = some 0 := by
  revert hop
  cases op <;> decide

namespace DeclaredFrom

variable {k : TypeKey} {op : Op} {operands : List Operand} (hd : DeclaredFrom b h k op operands)
include hd

theorem isType_eq : isType op = true := by
  cases hd <;> rfl

theorem mono (es : List Event) : DeclaredFrom b (h ++ es) k op operands := by
  cases hd with
  | void => exact .void
  | bool => exact .bool
  | int => exact .int
  | uint => exact .uint
  | float => exact .float
  | vec2 hc => exact .vec2 (hc.mono es)
  | vec3 hc => exact .vec3 (hc.mono es)
  | vec4 hc => exact .vec4 (hc.mono es)
  | mat4 hc => exact .mat4 (hc.mono es)
  | pointer hs hp => exact .pointer hs (hp.imp fun _ hp => hp.mono es)
  | function hr hp hcount =>
      exact .function (hr.imp fun _ hr => hr.mono es)
        (fun x hx => (hp x hx).imp fun _ hp => hp.mono es) hcount

/-- A type is made of types. -/
theorem known : ∀ y ∈ operands.flatMap Operand.idsOf, ∃ l, Known h l y := by
  cases hd with
  | void | bool | int | uint | float => nofun
  | vec2 hc | vec3 hc | vec4 hc | mat4 hc => exact List.forall_mem_singleton.mpr ⟨_, hc⟩
  | pointer _ hp =>
      obtain ⟨type, hp⟩ := hp
      exact List.forall_mem_singleton.mpr ⟨_, hp⟩
  | function hr hp => simpa [Operand.idsOf] using ⟨hr, hp⟩

theorem result?_eq (x : Id) : Instruction.result? ⟨op, .id x :: operands⟩ = some x := by
  rw [Instruction.result?, resultPlace?_of_isType hd.isType_eq]
  rfl

theorem uses_eq (x : Id) :
    Instruction.uses ⟨op, .id x :: operands⟩ = operands.flatMap Operand.idsOf := by
  rw [Instruction.uses, resultPlace?_of_isType hd.isType_eq]
  rfl

theorem wordCount_le (hop : op ≠ .typeFunction) (x : Id) :
    Instruction.wordCount ⟨op, .id x :: operands⟩ ≤ 8 := by
  cases hd with
  | function => exact absurd rfl hop
  | _ => exact Nat.le_of_ble_eq_true rfl

end DeclaredFrom

/-- The opcodes of all that is pushed besides types and names. -/
def emittedOps : List Op :=
  [.function, .functionParameter, .label, .functionCall, .ret, .unreachable, .kill, .functionEnd, .var,
    .decorate, .entryPoint, .executionMode]

theorem Emitted.op_mem (hi : Emitted i) : i.op ∈ emittedOps := by
  have hbare : ∀ op ∈ [Op.ret, .unreachable, .kill, .functionEnd], op ∈ emittedOps := by decide
  cases hi with
  | bare hop => exact hbare _ hop
  | mode hmem =>
      rw [op_of_mem_modes hmem]
      decide
  | _ => simp [emittedOps, Block.header, Block.parameter, Call.instruction, Slot.declaration,
      Slot.decoration, Entry.instruction]

theorem Emitted.wordCount_le (hi : Emitted i) (hop : i.op ≠ .entryPoint) : i.wordCount ≤ 8 := by
  cases hi with
  | entry => exact absurd rfl hop
  | mode hmem =>
      rename_i kind id
      cases kind <;> simp only [modes, List.mem_singleton, List.not_mem_nil] at hmem <;> subst hmem <;>
        exact Nat.le_of_ble_eq_true rfl
  | _ => exact Nat.le_of_ble_eq_true rfl

/-- The instructions whose length has no bound. -/
def longOps : List Op := [.typeFunction, .entryPoint, .name]

theorem mem_nameRecords {x : Id} {text : String} :
    i ∈ nameRecords options x text ↔ options.names = true ∧ i = nameRecord x text := by
  unfold nameRecords
  split <;> simp_all

/-- What is pushed declares a type, is one of the instructions for bodies and interfaces, or a name. -/
theorem Valid.origin (hv : Valid b h) (hi : i ∈ pushes options h) :
    (∃ front k x op operands, DeclaredFrom b front k op operands ∧ i = ⟨op, .id x :: operands⟩) ∨
      Emitted i ∨ ∃ x text, i = nameRecord x text := by
  obtain ⟨e, he, hpushed⟩ := List.mem_flatMap.mp hi
  obtain ⟨front, _, _, _, hallowed⟩ := hv.allowed he
  cases e with
  | type k x op operands =>
      exact .inl ⟨front, k, x, op, operands, hallowed.2.2, List.mem_singleton.mp hpushed⟩
  | define x j =>
      obtain rfl := List.mem_singleton.mp hpushed
      exact .inr (.inl hallowed.2.2.1)
  | push j =>
      obtain rfl := List.mem_singleton.mp hpushed
      exact .inr (.inl hallowed.2.1)
  | name x text => exact .inr (.inr ⟨x, text, (mem_nameRecords.mp hpushed).2⟩)
  | reserve | report => cases hpushed

/-- All that is pushed is short, except for a few kinds of instructions. -/
theorem Valid.wordCount_le (hv : Valid b h) (hi : i ∈ pushes options h) (hop : i.op ∉ longOps) :
    i.wordCount ≤ 8 := by
  simp only [longOps, List.mem_cons, List.not_mem_nil, or_false, not_or] at hop
  rcases hv.origin hi with ⟨front, k, x, op, operands, hdeclared, rfl⟩ | hemitted | ⟨x, text, rfl⟩
  · exact hdeclared.wordCount_le hop.1 x
  · exact hemitted.wordCount_le hop.2.1
  · exact absurd rfl hop.2.2

/-- All ids in what is pushed were handed out. -/
theorem Valid.ids_of_mem_pushes (hv : Valid b h) (hi : i ∈ pushes options h) :
    ∀ x ∈ i.operands.flatMap Operand.idsOf, x ∈ handed h := by
  obtain ⟨e, he, hpushed⟩ := List.mem_flatMap.mp hi
  obtain ⟨front, rest, rfl, _, hallowed⟩ := hv.allowed he
  have hearlier : ∀ x ∈ handed front, x ∈ handed (front ++ e :: rest) := fun x hx =>
    mem_handed_append hx _
  have hnew : ∀ x, e.handed? = some x → x ∈ handed (front ++ e :: rest) := fun x hx =>
    List.mem_filterMap.mpr ⟨e, he, hx⟩
  cases e with
  | type k y op operands =>
      obtain rfl := List.mem_singleton.mp hpushed
      refine List.forall_mem_cons.mpr ⟨hnew y rfl, fun x hx => ?_⟩
      obtain ⟨l, hl⟩ := hallowed.2.2.known x hx
      exact hearlier x hl.mem_handed
  | define y j =>
      obtain rfl := List.mem_singleton.mp hpushed
      obtain ⟨_, hresult, _, huses, _⟩ := hallowed
      intro x hx
      obtain ⟨o, ho, hx⟩ := List.mem_flatMap.mp hx
      rcases Instruction.eq_result_or_mem_uses hresult ho hx with rfl | hx
      · exact hnew x rfl
      · exact hearlier x (huses x hx)
  | push j =>
      obtain rfl := List.mem_singleton.mp hpushed
      exact fun x hx => hearlier x (hallowed.2.2 x hx)
  | name y text =>
      obtain ⟨_, rfl⟩ := mem_nameRecords.mp hpushed
      exact List.forall_mem_singleton.mpr (hearlier y hallowed)
  | reserve | report => cases hpushed

/-- Unless ids run out, what is pushed is left out only for its length. -/
theorem Valid.isWritable_iff (hv : Valid b h) (hids : (handed h).length < idLimit)
    (hi : i ∈ pushes options h) : i.isWritable = true ↔ i.wordCount < UInt16.size := by
  refine Instruction.isWritable_iff_of_ids fun x hx => ?_
  have hpositive := (hv.toNat_of_mem hids (hv.ids_of_mem_pushes hi x hx)).1
  rw [Id.isNull, beq_eq_false_iff_ne]
  intro hzero
  rw [hzero] at hpositive
  exact absurd hpositive (by decide)

theorem Valid.isWritable_of_short (hv : Valid b h) (hids : (handed h).length < idLimit)
    (hi : i ∈ pushes options h) (hop : i.op ∉ longOps) : i.isWritable = true :=
  (hv.isWritable_iff hids hi).mpr (Nat.lt_of_le_of_lt (hv.wordCount_le hi hop) (by decide))

/-! ### Definitions -/

/-- The ids that are defined are those handed out, apart from what was reserved and is defined by an
instruction that does not come with an id. -/
theorem Valid.results_perm (hv : Valid b h) (options : Options) :
    ((pushes options h).filterMap Instruction.result? ++ (summary h).reserved).Perm
      (handed h ++ (summary h).settled) := by
  induction hv with
  | nil => exact .refl _
  | @snoc h e hv he ih =>
      have hevent : (e.pushed options).filterMap Instruction.result? ++ e.summary.reserved =
          e.handed?.toList ++ e.summary.settled := by
        cases e with
        | type k x op operands => simp [Event.pushed, Event.summary, Event.handed?, he.2.2.result?_eq x]
        | define x i => simp [Event.pushed, Event.summary, Event.handed?, he.2.1]
        | push i => cases hi : i.result? <;> simp [Event.pushed, Event.summary, Event.handed?, hi]
        | name x text =>
            have hname : (nameRecord x text).result? = none := rfl
            simp only [Event.pushed, nameRecords]
            split <;> simp [Event.summary, Event.handed?, hname]
        | reserve | report => rfl
      have hadded : (pushes options [e]).filterMap Instruction.result? ++ e.summary.reserved =
          handed [e] ++ e.summary.settled := by
        rw [pushes_singleton, hevent]
        cases he : e.handed? <;> simp [handed, he]
      rw [pushes_append, handed_append, summary_append, summary_singleton, List.filterMap_append,
        List.perm_iff_count]
      intro x
      have hih := List.perm_iff_count.mp ih x
      have hcount := congrArg (List.count x) hadded
      simp only [List.count_append] at hih hcount
      show List.count x (_ ++ ((summary h).reserved ++ e.summary.reserved)) =
        List.count x (_ ++ ((summary h).settled ++ e.summary.settled))
      simp only [List.count_append]
      omega

/-- The instructions of all sections are those pushed, apart from the ones that cannot be written. -/
theorem pushed_perm (options : Options) (h : List Event) :
    (after options h).output.pushed.Perm ((pushes options h).filter Instruction.isWritable) := by
  rw [List.perm_iff_count]
  intro i
  have hcount : ∀ p : Instruction → Bool, List.count i ((pushes options h).filter p) =
      if p i then List.count i (pushes options h) else 0 := by
    intro p
    split
    case isTrue hp => exact List.count_filter hp
    case isFalse hp => exact List.count_eq_zero.mpr fun hmem => hp (List.mem_filter.mp hmem).2
  -- every opcode belongs in one of the sections
  rw [Spirv.Module.pushed, Spirv.Module.sections_eq, List.flatMap_map, List.count_flatMap]
  simp only [code_after, Function.comp_def, hcount]
  cases i.isWritable <;> cases home i.op <;> simp [Named.all]

/-- Unless ids run out or a function has more parameters than its type can hold, whatever has a result is
written. -/
theorem Valid.isWritable_of_arities (hv : Valid b h) (hids : (handed h).length < idLimit)
    (harities : ∀ n ∈ arities b, n ≤ 65532) (hi : i ∈ pushes options h)
    (hop : i.op ≠ .entryPoint ∧ i.op ≠ .name) : i.isWritable = true := by
  by_cases htype : i.op = .typeFunction
  · refine (hv.isWritable_iff hids hi).mpr ?_
    rcases hv.origin hi with ⟨front, k, x, op, operands, hdeclared, rfl⟩ | hemitted | ⟨x, text, rfl⟩
    · cases hdeclared with
      | @function result parameters _ _ hcount =>
          have hparameters := harities _ hcount
          show 1 + (1 + (parameters.length + 1)) < 65536
          omega
      | _ => cases htype
    · exact Nat.lt_of_le_of_lt (hemitted.wordCount_le hop.1) (by decide)
    · exact absurd rfl hop.2
  · exact hv.isWritable_of_short hids hi (by simp [longOps, htype, hop.1, hop.2])

theorem Valid.filterMap_written (hv : Valid b h) (options : Options)
    (hids : (handed h).length < idLimit) (harities : ∀ n ∈ arities b, n ≤ 65532) :
    ((pushes options h).filter Instruction.isWritable).filterMap Instruction.result? =
      (pushes options h).filterMap Instruction.result? := by
  rw [List.filterMap_filter]
  refine List.filterMap_congr fun i hi => ?_
  split
  case isTrue => rfl
  case isFalse hnot =>
    have hop : i.op = .entryPoint ∨ i.op = .name := by
      by_contra hop
      exact hnot (hv.isWritable_of_arities hids harities hi (not_or.mp hop))
    rw [Instruction.result?]
    rcases hop with hop | hop <;> rw [hop] <;> rfl

/-- The global instructions that a history leaves. -/
def globalsAfter (options : Options) (h : List Event) : List Instruction :=
  (pushes options h).filter fun i => i.isWritable && home i.op == .globals

theorem mem_globalsAfter : i ∈ globalsAfter options h ↔
    i ∈ pushes options h ∧ i.isWritable = true ∧ home i.op = .globals := by
  simp [globalsAfter]

/-- A type that the history has declared is among the globals, if it is written. -/
theorem Valid.declaration_mem (hv : Valid b h) (options : Options) {k : TypeKey} {x : Id} {op : Op}
    {operands : List Operand} (hmem : .type k x op operands ∈ h) :
    (⟨op, .id x :: operands⟩ : Instruction) ∈ pushes options h ∧ home op = .globals := by
  obtain ⟨_, _, _, _, _, _, hdeclared⟩ := hv.allowed hmem
  exact ⟨List.mem_flatMap.mpr ⟨_, hmem, List.mem_singleton_self _⟩, hdeclared.home_eq⟩

/-- Globals come after the types that they use, if all of them are written. -/
theorem Valid.usesEarlier (hv : Valid b h)
    (hwritten : ∀ i ∈ pushes options h, home i.op = .globals → i.isWritable = true) :
    UsesEarlier (globalsAfter options h) := by
  induction hv with
  | nil => exact Spirv.usesEarlier_nil
  | @snoc h e hv he ih =>
      rw [pushes_append] at hwritten
      obtain ⟨hbefore, _⟩ := List.forall_mem_append.mp hwritten
      have hdefined : ∀ {k x}, Known h k x →
          x ∈ (globalsAfter options h).filterMap Instruction.result? := by
        rintro k x ⟨op, operands, hmem⟩
        obtain ⟨_, _, _, _, _, _, hdeclared⟩ := hv.allowed hmem
        have hpushed := hv.declaration_mem options hmem
        exact List.mem_filterMap.mpr ⟨_, mem_globalsAfter.mpr ⟨hpushed.1,
          hbefore _ hpushed.1 hpushed.2, hpushed.2⟩, hdeclared.result?_eq x⟩
      have hone : ∀ i : Instruction, (home i.op = .globals → ∀ y ∈ i.uses, ∃ k, Known h k y) →
          UsesEarlier (globalsAfter options h ++
            [i].filter fun i => i.isWritable && home i.op == .globals) := by
        intro i huses
        by_cases hkept : (i.isWritable && home i.op == .globals) = true
        · rw [List.filter_cons, if_pos hkept]
          refine (ih hbefore).append fun x hx => ?_
          obtain ⟨k, hk⟩ := huses (by simpa using (Bool.and_eq_true_iff.mp hkept).2) x hx
          exact hdefined hk
        · rw [List.filter_cons, if_neg hkept, List.filter_nil, List.append_nil]
          exact ih hbefore
      have hnone : UsesEarlier (globalsAfter options h ++ []) := by
        rw [List.append_nil]
        exact ih hbefore
      rw [globalsAfter, pushes_append, List.filter_append, pushes_singleton]
      cases e with
      | type k x op operands =>
          refine hone _ fun _ => ?_
          rw [he.2.2.uses_eq x]
          exact he.2.2.known
      | define x i => exact hone i he.2.2.2.2
      | push i => exact hone i fun hplace => absurd hplace he.1
      | name x text =>
          simp only [Event.pushed, nameRecords]
          split
          · exact hone _ (by rintro ⟨⟩)
          · exact hnone
      | reserve | report => exact hnone

/-! ### The module of a binary -/

namespace Transcript

variable {functions : List (String × Block)} {entries : List (Entry × Block)}
  (ht : Transcript b h functions entries)
include ht

/-- All ids that are handed out are defined. -/
theorem results_perm (options : Options) (hids : (handed h).length < idLimit)
    (harities : ∀ n ∈ arities b, n ≤ 65532) :
    ((after options h).output.instructions.filterMap Instruction.result?).Perm (handed h) := by
  have hperm := ht.valid.results_perm options
  have hsettled : (Lower.summary h).settled = (Lower.summary h).reserved := by rw [ht.summary]
  rw [hsettled, List.perm_append_right_iff] at hperm
  rw [Spirv.Module.filterMap_result_instructions]
  exact ((pushed_perm options h).filterMap _).trans
    (ht.valid.filterMap_written options hids harities ▸ hperm)

theorem idsInOrder (hids : (handed h).length < idLimit) (harities : ∀ n ∈ arities b, n ≤ 65532) :
    (after options h).output.IdsInOrder := by
  have hbound : (after options h).output.bound.toNat - 1 = (handed h).length := by
    show (nthId (after options h).output.issued).number.toNat - 1 = _
    rw [issued_after, nthId_toNat hids]
    rfl
  have hresults := ht.results_perm options hids harities
  refine ⟨?_, ?_, ?_, ?_, ?_⟩
  · intro i hi x hx
    rw [hbound]
    exact ht.valid.toNat_of_mem hids (hresults.subset (List.mem_filterMap.mpr ⟨i, hi, hx⟩))
  · exact hresults.nodup_iff.mpr (ht.valid.nodup_handed hids)
  · intro i hi x hx
    rcases List.mem_append.mp hi with hi | hi
    · rw [(Spirv.Module.preamble_isPlain _ i hi).2.2] at hx
      cases hx
    · have hpushed := (List.mem_filter.mp ((pushed_perm options h).subset hi)).1
      have hhanded := ht.valid.ids_of_mem_pushes hpushed x (i.mem_of_mem_uses hx)
      exact List.mem_filterMap.mp (hresults.symm.subset hhanded)
  · have hglobals : (after options h).output.globals.instructions.toList = globalsAfter options h :=
      code_after options h .globals
    rw [hglobals]
    refine ht.valid.usesEarlier fun i hi hplace => ?_
    refine ht.valid.isWritable_of_arities hids harities hi ⟨fun hop => ?_, fun hop => ?_⟩ <;>
    · rw [hop] at hplace
      cases hplace
  · rw [hbound, hresults.length_eq]

end Transcript

/-- **Ids of a lowered binary.**  The words for a valid binary are a header with the bound and whole
instructions, and the ids of these are in order, whatever the options, unless ids run out or a
function has more parameters than its type can hold. -/
theorem lower_ids (options : Options) (b : Binary) (hvalid : b.validate = .ok ())
    (hids : (build options b).output.issued < UInt32.size - 1)
    (hparameters : ∀ f ∈ b.functions, f.parameters.length ≤ 65532) :
    let m := (build options b).output
    (lower options b).1 = m.header ++ m.instructions.flatMap Instruction.words ∧
      m.header[3]? = some m.bound ∧
      Spirv.splitWords ((lower options b).1.drop 5) = some (m.instructions.map Instruction.words) ∧
      m.IdsInOrder := by
  intro m
  obtain ⟨h, functions, entries, hbuild, ht⟩ := exists_transcript b
  have hm : m = (after options h).output := congrArg Progress.output (hbuild options)
  rw [hbuild options, issued_after] at hids
  have hwords : (lower options b).1 = m.header ++ m.instructions.flatMap Instruction.words := by
    rw [lower, hvalid]
    exact m.assemble_eq
  refine ⟨hwords, rfl, ?_, ?_⟩
  · have hheader : m.header.length = 5 := rfl
    have hgrown : m.Grown := hm ▸ grown_after options h
    rw [hwords, ← hheader, List.drop_left]
    exact Spirv.splitWords_instructions hgrown.isWritable_of_mem_instructions
  · rw [hm]
    exact ht.idsInOrder hids (List.forall_mem_cons.mpr ⟨by decide, List.forall_mem_map.mpr hparameters⟩)

/-- A vertex stage and a function with a parameter, both of which call another function. -/
def callingSample : Binary where
  entrypoints := [⟨.vertex, ⟨0, 3⟩, ⟨0, 1⟩, [⟨⟨7⟩, [.input]⟩], [⟨⟨8⟩, [.output]⟩]⟩]
  functions := [⟨⟨2, 1⟩, ⟨1, 1⟩, ⟨0⟩, []⟩, ⟨⟨0, 3⟩, ⟨1, 1⟩, ⟨0⟩, [⟨⟨7⟩, [.both]⟩]⟩]
  strings := [0x6d, 0x66]
  code := [0x00020003, 0, 0x00010001]

theorem lower_ids_callingSample :
    (build { names := true } callingSample).output.issued = 20 ∧
      (build { names := true } callingSample).output.IdsInOrder := by
  have hissued : (build { names := true } callingSample).output.issued = 20 := by decide +kernel
  have hlimit : (build { names := true } callingSample).output.issued < UInt32.size - 1 := by
    rw [hissued]
    decide
  exact ⟨hissued, (lower_ids { names := true } callingSample (by decide +kernel) hlimit
    (by decide +kernel)).2.2.2⟩

end Shading.Lower
