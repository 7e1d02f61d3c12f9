import Shading.Proofs.Lower.Transcript
import Shading.Stage

/-! # What lowering reports

The problems of a binary are known without the module that is built for it (`problems_build`).  From the
list follow the conditions under which there is an error (`Erroneous`), and the number of warnings. -/

namespace Shading.Lower

open Spirv (Id Op Operand Section StorageClass)
open Binary (BuiltinType Parameter EntrypointKind Opcode Range calls ending unreached)

/-- The problems of a binary: those of its functions, then those of its entrypoints. -/
theorem problems_build (options : Options) (b : Binary) :
    (build options b).problems =
      b.functions.flatMap (functionProblems b) ++ b.entrypoints.flatMap (entrypointProblems b) := by
  obtain ⟨h, functions, entries, hbuild, ht⟩ := exists_transcript b
  rw [hbuild options, problems_after, ht.summary]

/-! ### Errors -/

/-- There is an error among the problems. -/
def HasError (problems : List Problem) : Prop := ∃ p ∈ problems, p.severity = .error

theorem hasError_append {first second : List Problem} :
    HasError (first ++ second) ↔ HasError first ∨ HasError second := by
  simp only [HasError, List.mem_append, or_and_right, exists_or]

theorem hasError_flatMap {α : Type} {f : α → List Problem} {xs : List α} :
    HasError (xs.flatMap f) ↔ ∃ a ∈ xs, HasError (f a) := by
  simp only [HasError, List.mem_flatMap]
  grind

theorem hasError_filterMap {α : Type} {f : α → Option Problem} {xs : List α}
    (hf : ∀ a, ∀ p ∈ f a, p.severity = .error) :
    HasError (xs.filterMap f) ↔ ∃ a ∈ xs, (f a).isSome := by
  simp only [HasError, List.mem_filterMap, Option.isSome_iff_exists]
  grind

theorem hasError_toList {problem? : Option Problem} (h : ∀ p ∈ problem?, p.severity = .error) :
    HasError problem?.toList ↔ problem?.isSome := by
  cases problem? with
  | none => simp [HasError]
  | some p => simpa [HasError] using h p rfl

theorem severity_of_ite {c : Prop} [Decidable c] {problem p : Problem}
    (h : p ∈ if c then some problem else none) : p.severity = problem.severity := by
  obtain ⟨_, hp⟩ := Option.ite_none_right_eq_some.mp h
  rw [Option.some.inj hp]

theorem severity_of_callProblem (b : Binary) (caller : String) (n : Nat) :
    ∀ p ∈ callProblem? b caller n, p.severity = .error := by
  intro p hp
  obtain ⟨f, _, hp⟩ := Option.bind_eq_some_iff.mp hp
  exact severity_of_ite hp

theorem severity_of_endProblem (owner : Owner) (opcode : Opcode) :
    ∀ p ∈ endProblem? owner opcode, p.severity = .error := by
  intro p hp
  unfold endProblem? at hp
  split at hp
  · exact severity_of_ite hp
  · exact severity_of_ite hp

theorem severity_of_interfaceProblem (entrypoint : String) (storage : StorageClass)
    (parameter : Parameter) :
    ∀ p ∈ interfaceProblem? entrypoint storage parameter, p.severity = .error :=
  fun _ hp => severity_of_ite hp

/-- A body leads to an error if it calls a function that has parameters, or by how it ends. -/
theorem hasError_bodyProblems {b : Binary} {owner : Owner} {is : List Binary.Instruction} :
    HasError (bodyProblems b owner is) ↔
      (∃ n ∈ calls is, ∃ f, b.functions[n]? = some f ∧ f.parameters ≠ []) ∨
        (endProblem? owner (ending is)).isSome := by
  have hcalls : HasError ((calls is).filterMap (callProblem? b owner.name)) ↔
      ∃ n ∈ calls is, ∃ f, b.functions[n]? = some f ∧ f.parameters ≠ [] := by
    rw [hasError_filterMap (severity_of_callProblem b owner.name)]
    simp [callProblem?, Option.isSome_bind, Option.any_eq_true]
  -- what stands after the end is no error
  have hrest : ¬HasError (restProblem? owner (unreached is)).toList := by
    rintro ⟨p, hp, herror⟩
    have hwarning : p.severity = .warning := severity_of_ite (Option.mem_toList.mp hp)
    rw [hwarning] at herror
    cases herror
  rw [bodyProblems, hasError_append, hasError_append, hcalls,
    hasError_toList (severity_of_endProblem owner _), or_iff_left hrest]

/-- A function owes a value where it returns, unless its type is `Void`. -/
theorem isSome_endProblem_function {b : Binary} {f : Binary.Function}
    (htype : Binary.checkType f.returnType = .ok ()) {opcode : Opcode}
    (hend : opcode = .ret ∨ opcode = .discard) :
    (endProblem? (functionOwner b f) opcode).isSome ↔
      f.returnType.builtin? ≠ some .void ∧ opcode = .ret := by
  obtain ⟨type, htype⟩ := Binary.builtin?_of_checkType htype
  rcases hend with rfl | rfl <;>
    simp [endProblem?, discardProblem?, returnProblem?, functionOwner, resolve, htype]

/-- An entrypoint must not discard, unless it is a fragment entrypoint. -/
theorem isSome_endProblem_entrypoint {b : Binary} {e : Binary.Entrypoint} {opcode : Opcode} :
    (endProblem? (entrypointOwner b e) opcode).isSome ↔ e.kind ≠ .fragment ∧ opcode = .discard := by
  by_cases h : opcode = .discard <;>
    simp [endProblem?, discardProblem?, returnProblem?, entrypointOwner, h]

theorem hasError_interface {entrypoint : String} {storage : StorageClass}
    {parameters : List Parameter} :
    HasError (parameters.filterMap (interfaceProblem? entrypoint storage)) ↔
      ∃ p ∈ parameters, p.type.builtin? = some .void := by
  rw [hasError_filterMap (severity_of_interfaceProblem entrypoint storage)]
  simp [interfaceProblem?]

/-- What cannot be lowered without an error. -/
inductive Erroneous (b : Binary) : Prop where
  | invalid (h : b.validate ≠ .ok ())
  /-- A body calls a function that has parameters before it ends. -/
  | call {is : List Binary.Instruction} {n : Nat} {f : Binary.Function} (his : is ∈ b.bodies)
    (hn : n ∈ calls is) (hf : b.functions[n]? = some f) (h : f.parameters ≠ [])
  /-- A function that has a value returns without it. -/
  | value {f : Binary.Function} (hf : f ∈ b.functions) (hvalue : f.returnType.builtin? ≠ some .void)
    (h : ending (b.body f.code) = .ret)
  /-- An entrypoint discards outside of its stage. -/
  | discard {e : Binary.Entrypoint} (he : e ∈ b.entrypoints) (hkind : e.kind ≠ .fragment)
    (h : ending (b.body e.code) = .discard)
  /-- An input or an output of an entrypoint has no value. -/
  | interface {e : Binary.Entrypoint} {p : Parameter} (he : e ∈ b.entrypoints)
    (hp : p ∈ e.inputs ++ e.outputs) (h : p.type.builtin? = some .void)

theorem hasError_functionProblems {b : Binary} {f : Binary.Function}
    (htype : Binary.checkType f.returnType = .ok ()) :
    HasError (functionProblems b f) ↔
      (∃ n ∈ calls (b.body f.code), ∃ g, b.functions[n]? = some g ∧ g.parameters ≠ []) ∨
        f.returnType.builtin? ≠ some .void ∧ ending (b.body f.code) = .ret := by
  rw [functionProblems, hasError_bodyProblems,
    isSome_endProblem_function htype (Binary.ending_eq_ret_or_discard _)]

theorem hasError_entrypointProblems {b : Binary} {e : Binary.Entrypoint} :
    HasError (entrypointProblems b e) ↔
      (∃ p ∈ e.inputs ++ e.outputs, p.type.builtin? = some .void) ∨
        (∃ n ∈ calls (b.body e.code), ∃ g, b.functions[n]? = some g ∧ g.parameters ≠ []) ∨
          e.kind ≠ .fragment ∧ ending (b.body e.code) = .discard := by
  rw [entrypointProblems, hasError_append, hasError_append, hasError_interface, hasError_interface,
    hasError_bodyProblems, isSome_endProblem_entrypoint, ← or_assoc]
  simp only [List.mem_append, or_and_right, exists_or]

/-- The problems of a valid binary have an error exactly if the binary is erroneous. -/
theorem hasError_problems_build (options : Options) {b : Binary} (hvalid : b.validate = .ok ()) :
    HasError (build options b).problems ↔ Erroneous b := by
  have htype : ∀ f ∈ b.functions, Binary.checkType f.returnType = .ok () := fun f hf =>
    ((Binary.checkBody_of_validate hvalid).2 f hf).2
  rw [problems_build, hasError_append, hasError_flatMap, hasError_flatMap]
  constructor
  · rintro (⟨f, hf, herror⟩ | ⟨e, he, herror⟩)
    · have hbody : b.body f.code ∈ b.bodies :=
        List.mem_append_left _ (List.mem_map_of_mem hf)
      rcases (hasError_functionProblems (htype f hf)).mp herror with ⟨n, hn, g, hg, h⟩ | ⟨hvalue, h⟩
      · exact .call hbody hn hg h
      · exact .value hf hvalue h
    · have hbody : b.body e.code ∈ b.bodies :=
        List.mem_append_right _ (List.mem_map_of_mem he)
      rcases hasError_entrypointProblems.mp herror with ⟨p, hp, h⟩ | ⟨n, hn, g, hg, h⟩ | ⟨hkind, h⟩
      · exact .interface he hp h
      · exact .call hbody hn hg h
      · exact .discard he hkind h
  · intro herror
    cases herror with
    | invalid h => exact absurd hvalid h
    | call his hn hf h =>
        rcases List.mem_append.mp his with his | his
        · obtain ⟨f, hf', rfl⟩ := List.mem_map.mp his
          exact Or.inl ⟨f, hf', (hasError_functionProblems (htype f hf')).mpr
            (Or.inl ⟨_, hn, _, hf, h⟩)⟩
        · obtain ⟨e, he, rfl⟩ := List.mem_map.mp his
          exact Or.inr ⟨e, he, hasError_entrypointProblems.mpr
            (Or.inr (Or.inl ⟨_, hn, _, hf, h⟩))⟩
    | value hf hvalue h =>
        exact Or.inl ⟨_, hf, (hasError_functionProblems (htype _ hf)).mpr (Or.inr ⟨hvalue, h⟩)⟩
    | discard he hkind h =>
        exact Or.inr ⟨_, he, hasError_entrypointProblems.mpr (Or.inr (Or.inr ⟨hkind, h⟩))⟩
    | interface he hp h =>
        exact Or.inr ⟨_, he, hasError_entrypointProblems.mpr (Or.inl ⟨_, hp, h⟩)⟩

/-! ### Warnings -/

/-- The number of warnings among the problems. -/
def warnings (problems : List Problem) : Nat := problems.countP fun p => p.severity == .warning

theorem warnings_append (first second : List Problem) :
    warnings (first ++ second) = warnings first + warnings second :=
  List.countP_append

theorem warnings_of_errors {problems : List Problem} (h : ∀ p ∈ problems, p.severity = .error) :
    warnings problems = 0 := by
  refine List.countP_eq_zero.mpr fun p hp => ?_
  rw [h p hp]
  decide

theorem warnings_filterMap {α : Type} {f : α → Option Problem} (xs : List α)
    (hf : ∀ a, ∀ p ∈ f a, p.severity = .error) : warnings (xs.filterMap f) = 0 := by
  refine warnings_of_errors fun p hp => ?_
  obtain ⟨a, _, ha⟩ := List.mem_filterMap.mp hp
  exact hf a p ha

/-- Where each item leads to at most one warning, the warnings are counted by the items. -/
theorem warnings_flatMap {α : Type} {f : α → List Problem} {warned : α → Bool}
    (h : ∀ a, warnings (f a) = if warned a then 1 else 0) :
    ∀ xs : List α, warnings (xs.flatMap f) = xs.countP warned
  | [] => rfl
  | a :: xs => by
      rw [List.flatMap_cons, warnings_append, h a, warnings_flatMap h xs, List.countP_cons]
      omega

/-- The body goes on after its end. -/
def goesOn (is : List Binary.Instruction) : Bool := !(unreached is).isEmpty

theorem warnings_bodyProblems (b : Binary) (owner : Owner) (is : List Binary.Instruction) :
    warnings (bodyProblems b owner is) = if goesOn is then 1 else 0 := by
  have hcalls := warnings_filterMap (calls is) (severity_of_callProblem b owner.name)
  have hend : warnings (endProblem? owner (ending is)).toList = 0 :=
    warnings_of_errors fun p hp => severity_of_endProblem owner _ p (Option.mem_toList.mp hp)
  rw [bodyProblems, warnings_append, warnings_append, hcalls, hend, goesOn]
  cases unreached is <;> rfl

theorem warnings_entrypointProblems (b : Binary) (e : Binary.Entrypoint) :
    warnings (entrypointProblems b e) = if goesOn (b.body e.code) then 1 else 0 := by
  have hinterface := severity_of_interfaceProblem (nameOf b e.name)
  rw [entrypointProblems, warnings_append, warnings_append,
    warnings_filterMap e.inputs (hinterface .input),
    warnings_filterMap e.outputs (hinterface .output), warnings_bodyProblems]
  omega

theorem warnings_problems_build (options : Options) (b : Binary) :
    warnings (build options b).problems = b.bodies.countP goesOn := by
  have hfunctions := warnings_flatMap (f := functionProblems b)
    (fun f => warnings_bodyProblems b (functionOwner b f) (b.body f.code)) b.functions
  have hentrypoints := warnings_flatMap (warnings_entrypointProblems b) b.entrypoints
  rw [problems_build, warnings_append, hfunctions, hentrypoints, Binary.bodies, List.countP_append,
    List.countP_map, List.countP_map]
  rfl

/-! ### Messages -/

/-- **Messages about a binary.**  There is an error exactly if the binary is erroneous.  If it is
invalid, this error is the only message and there is no output.  If it is valid, there are as many
warnings as there are bodies that go on after their end. -/
theorem transpile_reports (options : Options) (file : Nat) (b : Binary) :
    let out := transpileBinary options file b
    ((∃ m ∈ out.messages, m.severity = .error) ↔ Erroneous b) ∧
      (b.validate ≠ .ok () → (∃ m, out.messages = [m]) ∧ out.value = []) ∧
      (b.validate = .ok () →
        out.messages.countP (fun m => m.severity == .warning) = b.bodies.countP goesOn) := by
  intro out
  cases hvalid : b.validate with
  | error fault =>
      let message := Problem.toMessage (.invalid fault) (Span.single (Point.fileStart file))
      have hout : out = ⟨[], [message]⟩ := by
        simp [out, message, transpileBinary, lower, hvalid]
      have hinvalid : b.validate ≠ .ok () := by
        rw [hvalid]
        exact nofun
      rw [hout]
      refine ⟨⟨fun _ => .invalid hinvalid, fun _ => ?_⟩, fun _ => ⟨⟨message, rfl⟩, rfl⟩, ?_⟩
      · exact ⟨message, List.mem_singleton_self _, rfl⟩
      · exact nofun
  | ok _ =>
      have hmessages : out.messages = (build options b).problems.map
          fun p => p.toMessage (Span.single (Point.fileStart file)) := by
        simp [out, transpileBinary, lower, hvalid]
      rw [hmessages]
      refine ⟨?_, fun h => absurd rfl h, fun _ => ?_⟩
      · rw [← hasError_problems_build options hvalid]
        simp [HasError, Problem.toMessage]
      · rw [← warnings_problems_build options b, List.countP_map]
        rfl

/-- An entrypoint with a void input that calls a function without its argument, discards outside of its
stage and goes on; and a function that owes no value because it discards, and goes on too. -/
def reportingSample : Binary where
  entrypoints := [⟨.vertex, ⟨0, 4⟩, ⟨0, 1⟩, [⟨⟨0⟩, []⟩], []⟩]
  functions := [⟨⟨2, 2⟩, ⟨1, 1⟩, ⟨4⟩, []⟩, ⟨⟨3, 1⟩, ⟨1, 1⟩, ⟨0⟩, [⟨⟨4⟩, [.both]⟩]⟩]
  strings := [0x6d, 0x66]
  code := [0x00020003, 1, 0x00010002, 0x00010001]

theorem transpile_reports_reportingSample :
    reportingSample.validate = .ok () ∧
      (∃ m ∈ (transpileBinary {} 0 reportingSample).messages, m.severity = .error) ∧
      (transpileBinary {} 0 reportingSample).messages.countP (fun m => m.severity == .warning) = 2 ∧
      { reportingSample with code := [] }.validate ≠ .ok () ∧
      (transpileBinary {} 0 { reportingSample with code := [] }).value = [] := by
  have hvalid : reportingSample.validate = .ok () := by decide +kernel
  have hinvalid : { reportingSample with code := [] }.validate ≠ .ok () := by decide +kernel
  obtain ⟨herror, _, hwarnings⟩ := transpile_reports {} 0 reportingSample
  obtain ⟨_, hnone, _⟩ := transpile_reports {} 0 { reportingSample with code := [] }
  have hdiscard : Erroneous reportingSample :=
    .discard (e := ⟨.vertex, ⟨0, 4⟩, ⟨0, 1⟩, [⟨⟨0⟩, []⟩], []⟩) (by decide) (by decide)
      (by decide +kernel)
  refine ⟨hvalid, herror.mpr hdiscard, ?_, hinvalid, (hnone hinvalid).2⟩
  rw [hwarnings hvalid]
  decide +kernel

end Shading.Lower
