import Mathlib.Logic.Relation
import Shading.Proofs.Lower.Omissions

/-! # Which discards an entrypoint can reach

An entrypoint must not discard unless it is a fragment entrypoint, and this is checked for its own body.
A function may discard, whoever calls it.  So what matters is the graph of calls.  In the module it is
found by cutting the code into functions (`functionBodies`); it is the graph of calls of the binary, and
an entrypoint reaches a kill exactly if its body discards or calls, directly or through others, a
function that does (`transpile_discards`). -/

namespace Shading.Lower

open Relation (ReflTransGen)
open Spirv (Id Op Operand Section Instruction ExecutionModel)
open Binary (BuiltinType EntrypointKind Range calls ending ending?)

/-! ### The graph of calls of a module -/

/-- The functions in code: their ids, and their instructions up to the one that closes them. -/
def functionBodies : List Instruction → List (Id × List Instruction)
  | [] => []
  | i :: rest =>
    match i.op, i.result? with
    | .function, some x => (x, rest.takeWhile fun j => j.op != .functionEnd) :: functionBodies rest
    | _, _ => functionBodies rest

/-- The function with the first id calls the one with the second. -/
def CallsIn (code : List Instruction) (x y : Id) : Prop :=
  ∃ body, (x, body) ∈ functionBodies code ∧
    ∃ i ∈ body, i.op = .functionCall ∧ i.operands[2]? = some (.id y)

/-- The function with the id kills. -/
def KillsIn (code : List Instruction) (x : Id) : Prop :=
  ∃ body, (x, body) ∈ functionBodies code ∧ ∃ i ∈ body, i.op = .kill

/-- From the function with the id, a function that kills can be reached by calls. -/
def ReachesKill (code : List Instruction) (x : Id) : Prop :=
  ∃ y, ReflTransGen (CallsIn code) x y ∧ KillsIn code y

/-! ### The graph of calls of a binary -/

/-- The function with the first number calls the one with the second. -/
def Invokes (b : Binary) (m n : Nat) : Prop :=
  ∃ f, b.functions[m]? = some f ∧ n ∈ calls (b.body f.code)

/-- The function with the number discards. -/
def Discards (b : Binary) (n : Nat) : Prop :=
  ∃ f, b.functions[n]? = some f ∧ ending (b.body f.code) = .discard

/-- A body discards or calls, directly or through others, a function that does. -/
def MayDiscard (b : Binary) (is : List Binary.Instruction) : Prop :=
  ending is = .discard ∨ ∃ n ∈ calls is, ∃ m, ReflTransGen (Invokes b) n m ∧ Discards b m

/-! ### Blocks in code -/

/-- The instructions between the header of a block and its end. -/
def Block.inside (k : Block) : List Instruction :=
  k.parameters.map Block.parameter ++ ⟨.label, [.id k.label]⟩ ::
    k.calls.map Call.instruction ++ [⟨k.terminator, []⟩]

theorem Block.instructions_eq (k : Block) :
    k.instructions = header k.returnType k.id k.type :: (k.inside ++ [⟨.functionEnd, []⟩]) := by
  simp [Block.instructions, Block.inside]

theorem functionBodies_cons {i : Instruction} (h : i.op ≠ .function) (rest : List Instruction) :
    functionBodies (i :: rest) = functionBodies rest := by
  rw [functionBodies]
  split
  case h_1 hop _ => exact absurd hop h
  case h_2 => rfl

/-- Code before the first function does not matter. -/
theorem functionBodies_append {front : List Instruction} (h : ∀ i ∈ front, i.op ≠ .function)
    (rest : List Instruction) : functionBodies (front ++ rest) = functionBodies rest := by
  induction front with
  | nil => rfl
  | cons i front ih =>
      obtain ⟨hi, hfront⟩ := List.forall_mem_cons.mp h
      rw [List.cons_append, functionBodies_cons hi, ih hfront]

theorem Block.Closed.inside {k : Block} (h : k.Closed) :
    ∀ i ∈ k.inside, i.op ≠ .function ∧ i.op ≠ .functionEnd := by
  have hend : ∀ op ∈ [Op.kill, .ret, .unreachable], op ≠ .function ∧ op ≠ .functionEnd := by decide
  intro i hi
  simp only [Block.inside, List.mem_append, List.mem_cons, List.mem_map, List.not_mem_nil,
    or_false] at hi
  rcases hi with (⟨x, _, rfl⟩ | rfl | ⟨c, _, rfl⟩) | rfl
  · exact ⟨nofun, nofun⟩
  · exact ⟨nofun, nofun⟩
  · exact ⟨nofun, nofun⟩
  · exact hend _ h

theorem functionBodies_block {k : Block} (h : k.Closed) (rest : List Instruction) :
    functionBodies (k.instructions ++ rest) = (k.id, k.inside) :: functionBodies rest := by
  have hinside := h.inside
  have hrest : functionBodies (k.inside ++ ⟨.functionEnd, []⟩ :: rest) = functionBodies rest := by
    rw [functionBodies_append fun i hi => (hinside i hi).1, functionBodies_cons (by decide)]
  have htake : (k.inside ++ ⟨.functionEnd, []⟩ :: rest).takeWhile
      (fun j => j.op != .functionEnd) = k.inside := by
    rw [List.takeWhile_append_of_pos fun i hi => bne_iff_ne.mpr (hinside i hi).2,
      List.takeWhile_cons_of_neg (by decide), List.append_nil]
  have hcode : k.instructions ++ rest = Block.header k.returnType k.id k.type ::
      (k.inside ++ ⟨.functionEnd, []⟩ :: rest) := by
    rw [k.instructions_eq, List.cons_append, List.append_assoc]
    rfl
  rw [hcode]
  show (k.id, _) :: _ = _
  rw [htake, hrest]

theorem functionBodies_blocks {blocks : List Block} (h : ∀ k ∈ blocks, k.Closed) :
    functionBodies (blocks.flatMap Block.instructions) = blocks.map fun k => (k.id, k.inside) := by
  induction blocks with
  | nil => rfl
  | cons k blocks ih =>
      obtain ⟨hk, hblocks⟩ := List.forall_mem_cons.mp h
      rw [List.flatMap_cons, functionBodies_block hk, ih hblocks, List.map_cons]

/-- The calls in a block. -/
theorem exists_call_inside {k : Block} {y : Id} :
    (∃ i ∈ k.inside, i.op = .functionCall ∧ i.operands[2]? = some (.id y)) ↔
      ∃ c ∈ k.calls, c.target = y := by
  constructor
  · rintro ⟨i, hi, hop, htarget⟩
    simp only [Block.inside, List.mem_append, List.mem_cons, List.mem_map, List.not_mem_nil,
      or_false] at hi
    rcases hi with (⟨x, _, rfl⟩ | rfl | ⟨c, hc, rfl⟩) | rfl
    · cases hop
    · cases hop
    · exact ⟨c, hc, by simpa [Call.instruction] using htarget⟩
    · cases htarget
  · rintro ⟨c, hc, rfl⟩
    refine ⟨c.instruction, ?_, rfl, rfl⟩
    simp only [Block.inside, List.mem_append, List.mem_cons, List.mem_map]
    exact .inl (.inr (.inr ⟨c, hc, rfl⟩))

/-- A block kills where it ends. -/
theorem exists_kill_inside {k : Block} : (∃ i ∈ k.inside, i.op = .kill) ↔ k.terminator = .kill := by
  constructor
  · rintro ⟨i, hi, hop⟩
    simp only [Block.inside, List.mem_append, List.mem_cons, List.mem_map, List.not_mem_nil,
      or_false] at hi
    rcases hi with (⟨x, _, rfl⟩ | rfl | ⟨c, _, rfl⟩) | rfl
    · cases hop
    · cases hop
    · cases hop
    · exact hop
  · intro h
    exact ⟨⟨k.terminator, []⟩, List.mem_append_right _ (List.mem_singleton_self _), h⟩

/-! ### Blocks and bodies -/

/-- The block calls the blocks of the functions that the body calls, and kills if the body discards. -/
structure Traces (ids : List Id) (is : List Binary.Instruction) (k : Block) : Prop where
  called : ∀ n ∈ calls is, n < ids.length
  calls : ∀ y, (∃ c ∈ k.calls, c.target = y) ↔ ∃ n ∈ calls is, ids[n]? = some y
  kill : k.terminator = .kill ↔ ending is = .discard

theorem terminator_eq_kill_iff (returns : BuiltinType) (is : List Binary.Instruction) :
    terminator returns is = .kill ↔ ending is = .discard := by
  unfold terminator ending
  cases ending? is with
  | none =>
      simp only [Option.getD_none]
      split <;> simp
  | some opcode =>
      simp only [Option.getD_some]
      cases opcode with
      | discard => simp
      | nop | call | ret =>
          simp only
          split <;> simp

theorem body_eq_of_hasBody {b : Binary} {range : Range} {is : List Binary.Instruction}
    (h : Binary.HasBody b range is) : b.body range = is := by
  obtain ⟨words, hwords, hread⟩ := h
  rw [Binary.body, hwords, Option.getD_some, hread]

/-- What a valid body calls is there. -/
theorem called_of_checkBody {b : Binary} {range : Range} (h : b.checkBody range = .ok ()) :
    ∀ n ∈ calls (b.body range), n < b.functions.length := by
  obtain ⟨is, hbody, hcalled⟩ := Binary.hasBody_of_checkBody h
  rwa [body_eq_of_hasBody hbody]

theorem traces_of_rendered {b : Binary} {h : List Event} {fs : List Block} {returns : BuiltinType}
    {parameters : List Binary.Parameter} {is : List Binary.Instruction} {k : Block}
    (hk : Rendered b h (fs.map Block.signature) returns parameters is k)
    (hlength : b.functions.length = fs.length) (hcalled : ∀ n ∈ calls is, n < b.functions.length)
    (hcallable : ∀ n ∈ calls is, ∀ f, b.functions[n]? = some f → f.parameters = []) :
    Traces (fs.map Block.id) is k := by
  have htakes : ∀ n ∈ calls is, b.takesNothing n = true := by
    intro n hn
    have hf := List.getElem?_eq_getElem (hcalled n hn)
    rw [Binary.takesNothing, hf, Option.any_some, hcallable n hn _ hf]
    rfl
  have hcalls := hk.calls
  rw [CallsTo, List.filter_eq_self.mpr htakes] at hcalls
  have htarget : ∀ (n : Nat) (type target : Id), (fs.map Block.signature)[n]? = some (type, target) →
      (fs.map Block.id)[n]? = some target := by
    intro n type target hn
    have hsnd := congrArg (Option.map Prod.snd) hn
    rwa [← List.getElem?_map, List.map_map] at hsnd
  refine ⟨?_, fun y => ⟨?_, ?_⟩, ?_⟩
  · rwa [List.length_map, ← hlength]
  · rintro ⟨c, hc, rfl⟩
    obtain ⟨n, hn, hsignature⟩ := exists_mem_of_forall₂ hcalls.flip hc
    exact ⟨n, hn, htarget n _ _ hsignature⟩
  · rintro ⟨n, hn, hy⟩
    obtain ⟨c, hc, hsignature⟩ := exists_mem_of_forall₂ hcalls hn
    refine ⟨c, hc, ?_⟩
    rw [htarget n _ _ hsignature] at hy
    exact Option.some.inj hy
  · rw [hk.terminator]
    exact terminator_eq_kill_iff returns is

/-! ### The same graph -/

/-- The functions in the code are blocks that trace the functions and the entrypoints. -/
structure Charted (b : Binary) (code : List Instruction) (fs es : List Block) : Prop where
  bodies : functionBodies code = (fs ++ es).map fun k => (k.id, k.inside)
  nodup : ((fs ++ es).map Block.id).Nodup
  ofFunctions : List.Forall₂ (fun f k => Traces (fs.map Block.id) (b.body f.code) k) b.functions fs

namespace Charted

variable {b : Binary} {code : List Instruction} {fs es : List Block} (h : Charted b code fs es)
include h

/-- A block is found by its id. -/
theorem mem_bodies_iff {k : Block} (hk : k ∈ fs ++ es) {body : List Instruction} :
    (k.id, body) ∈ functionBodies code ↔ body = k.inside := by
  rw [h.bodies, List.mem_map]
  constructor
  · rintro ⟨k', hk', heq⟩
    obtain ⟨hid, rfl⟩ := Prod.mk.inj heq
    rw [List.inj_on_of_nodup_map h.nodup hk' hk hid]
  · rintro rfl
    exact ⟨k, hk, rfl⟩

theorem callsIn_iff {k : Block} (hk : k ∈ fs ++ es) {is : List Binary.Instruction}
    (htraces : Traces (fs.map Block.id) is k) {y : Id} :
    CallsIn code k.id y ↔ ∃ n ∈ calls is, (fs.map Block.id)[n]? = some y := by
  rw [← htraces.calls, ← exists_call_inside, CallsIn]
  simp only [h.mem_bodies_iff hk, exists_eq_left]

theorem killsIn_iff {k : Block} (hk : k ∈ fs ++ es) {is : List Binary.Instruction}
    (htraces : Traces (fs.map Block.id) is k) : KillsIn code k.id ↔ ending is = .discard := by
  rw [← htraces.kill, ← exists_kill_inside, KillsIn]
  simp only [h.mem_bodies_iff hk, exists_eq_left]

/-- The block of the function with a number. -/
theorem exists_block {m : Nat} {x : Id} (hm : (fs.map Block.id)[m]? = some x) :
    ∃ f k, b.functions[m]? = some f ∧ k ∈ fs ++ es ∧ k.id = x ∧
      Traces (fs.map Block.id) (b.body f.code) k := by
  rw [List.getElem?_map] at hm
  obtain ⟨k, hk, rfl⟩ := Option.map_eq_some_iff.mp hm
  rcases getElem?_of_forall₂ h.ofFunctions m with ⟨_, hnone⟩ | ⟨f, k', hf, hk', htraces⟩
  · cases hk.symm.trans hnone
  · obtain rfl := Option.some.inj (hk.symm.trans hk')
    exact ⟨f, k, hf, List.mem_append_left _ (List.mem_of_getElem? hk), rfl, htraces⟩

/-- A call of the module is a call of the binary. -/
theorem callsIn_iff_invokes {m : Nat} {x y : Id} (hm : (fs.map Block.id)[m]? = some x) :
    CallsIn code x y ↔ ∃ n, Invokes b m n ∧ (fs.map Block.id)[n]? = some y := by
  obtain ⟨f, k, hf, hk, rfl, htraces⟩ := h.exists_block hm
  rw [h.callsIn_iff hk htraces]
  simp only [Invokes, hf, Option.some.injEq, exists_eq_left']

theorem killsIn_iff_discards {m : Nat} {x : Id} (hm : (fs.map Block.id)[m]? = some x) :
    KillsIn code x ↔ Discards b m := by
  obtain ⟨f, k, hf, hk, rfl, htraces⟩ := h.exists_block hm
  rw [h.killsIn_iff hk htraces]
  simp only [Discards, hf, Option.some.injEq, exists_eq_left']

/-- Whatever a function calls has a block. -/
theorem exists_id_of_invokes {m n : Nat} {x : Id} (hm : (fs.map Block.id)[m]? = some x)
    (hn : Invokes b m n) : ∃ y, (fs.map Block.id)[n]? = some y := by
  obtain ⟨f, k, hf, hk, rfl, htraces⟩ := h.exists_block hm
  obtain ⟨f', hf', hn⟩ := hn
  obtain rfl := Option.some.inj (hf.symm.trans hf')
  exact ⟨_, List.getElem?_eq_getElem (htraces.called n hn)⟩

/-- A function reaches a kill exactly if it reaches a function that discards. -/
theorem reachesKill_iff {m : Nat} {x : Id} (hm : (fs.map Block.id)[m]? = some x) :
    ReachesKill code x ↔ ∃ n, ReflTransGen (Invokes b) m n ∧ Discards b n := by
  constructor
  · rintro ⟨y, hreach, hkill⟩
    induction hreach using ReflTransGen.head_induction_on generalizing m with
    | refl => exact ⟨m, .refl, (h.killsIn_iff_discards hm).mp hkill⟩
    | head hcall _ ih =>
        obtain ⟨n, hinvokes, hn⟩ := (h.callsIn_iff_invokes hm).mp hcall
        obtain ⟨l, hreach, hdiscards⟩ := ih hn
        exact ⟨l, .head hinvokes hreach, hdiscards⟩
  · rintro ⟨n, hreach, hdiscards⟩
    induction hreach using ReflTransGen.head_induction_on generalizing x with
    | refl => exact ⟨x, .refl, (h.killsIn_iff_discards hm).mpr hdiscards⟩
    | head hinvokes _ ih =>
        obtain ⟨y, hy⟩ := h.exists_id_of_invokes hm hinvokes
        obtain ⟨z, hreach, hkill⟩ := ih hy
        exact ⟨z, .head ((h.callsIn_iff_invokes hm).mpr ⟨_, hinvokes, hy⟩) hreach, hkill⟩

/-- A block reaches a kill exactly if its body may discard. -/
theorem reachesKill_iff_mayDiscard {k : Block} (hk : k ∈ fs ++ es) {is : List Binary.Instruction}
    (htraces : Traces (fs.map Block.id) is k) : ReachesKill code k.id ↔ MayDiscard b is := by
  constructor
  · rintro ⟨y, hreach, hkill⟩
    rcases ReflTransGen.cases_head hreach with rfl | ⟨z, hcall, hreach⟩
    · exact .inl ((h.killsIn_iff hk htraces).mp hkill)
    · obtain ⟨n, hn, hz⟩ := (h.callsIn_iff hk htraces).mp hcall
      exact .inr ⟨n, hn, (h.reachesKill_iff hz).mp ⟨y, hreach, hkill⟩⟩
  · rintro (hend | ⟨n, hn, hdiscards⟩)
    · exact ⟨k.id, .refl, (h.killsIn_iff hk htraces).mpr hend⟩
    · have hz := List.getElem?_eq_getElem (htraces.called n hn)
      obtain ⟨y, hreach, hkill⟩ := (h.reachesKill_iff hz).mpr hdiscards
      exact ⟨y, .head ((h.callsIn_iff hk htraces).mpr ⟨n, hn, hz⟩) hreach, hkill⟩

end Charted

/-! ### The whole binary -/

/-- Functions begin in the last section only. -/
theorem functionBodies_eq (options : Options) (h : List Event) :
    functionBodies (after options h).output.instructions =
      functionBodies (after options h).output.functions.instructions.toList := by
  have hsplit : ∀ m : Spirv.Module, m.instructions = (m.declarations ++
      [Section.entryPoints, .executionModes, .debug, .annotations, .globals].flatMap fun s =>
        (m.code s).instructions.toList) ++ m.functions.instructions.toList := by
    intro m
    simp [m.instructions_eq, Spirv.Module.pushed, Spirv.Module.sections, Spirv.Module.code]
  have hapart : ∀ op ∈ preambleOps, op ≠ .function := by decide
  rw [hsplit]
  refine functionBodies_append (List.forall_mem_append.mpr ⟨fun i hi => ?_, fun i hi hop => ?_⟩) _
  · exact hapart _ (op_mem_preambleOps _ i hi)
  · obtain ⟨s, hs, hi⟩ := List.mem_flatMap.mp hi
    have hplace := home_of_mem_code hi
    rw [hop] at hplace
    rw [← hplace] at hs
    exact absurd hs (by decide)

theorem callable_of_not_erroneous {b : Binary} (h : ¬ Erroneous b) {is : List Binary.Instruction}
    (his : is ∈ b.bodies) :
    ∀ n ∈ calls is, ∀ f, b.functions[n]? = some f → f.parameters = [] :=
  fun _ hn _ hf => Classical.byContradiction fun hparameters => h (.call his hn hf hparameters)

theorem Transcript.charted {b : Binary} {h : List Event} {functions : List (String × Block)}
    {entries : List (Entry × Block)} (ht : Transcript b h functions entries)
    (hids : (handed h).length < idLimit) (options : Options) (hvalid : b.validate = .ok ())
    (herror : ¬ Erroneous b) :
    Charted b (after options h).output.instructions (functions.map Prod.snd) (entries.map Prod.snd) ∧
      List.Forall₂ (fun e r => Traces ((functions.map Prod.snd).map Block.id) (b.body e.code) r.2)
        b.entrypoints entries := by
  have hlength : b.functions.length = (functions.map Prod.snd).length := by
    rw [List.length_map, ht.ofFunctions.length_eq]
  have hsignatures : (functions.map fun r => r.2.signature) =
      (functions.map Prod.snd).map Block.signature := by rw [List.map_map]; rfl
  obtain ⟨hentrypoints, hfunctions⟩ := Binary.checkBody_of_validate hvalid
  have hclosed : ∀ k ∈ functions.map Prod.snd ++ entries.map Prod.snd, k.Closed :=
    List.forall_mem_append.mpr ⟨List.forall_mem_map.mpr ht.closed.1, List.forall_mem_map.mpr ht.closed.2⟩
  have htraces : ∀ {range returns parameters k}, b.body range ∈ b.bodies → b.checkBody range = .ok () →
      Rendered b h (functions.map fun r => r.2.signature) returns parameters (b.body range) k →
        Traces ((functions.map Prod.snd).map Block.id) (b.body range) k := by
    intro range returns parameters k hbody hcheck hk
    rw [hsignatures] at hk
    exact traces_of_rendered hk hlength (called_of_checkBody hcheck)
      (callable_of_not_erroneous herror hbody)
  refine ⟨⟨?_, ht.nodup_ids hids, ?_⟩, ?_⟩
  · rw [functionBodies_eq, ht.functions_eq hids, functionBodies_blocks hclosed]
  · rw [List.forall₂_map_right_iff]
    refine List.forall₂_iff_zip.mpr ⟨ht.ofFunctions.length_eq, fun {f r} hzip => ?_⟩
    have hf := (List.of_mem_zip hzip).1
    exact htraces (List.mem_append_left _ (List.mem_map_of_mem hf)) (hfunctions f hf).1
      (List.forall₂_zip ht.ofFunctions hzip).block
  · refine List.forall₂_iff_zip.mpr ⟨ht.ofEntrypoints.length_eq, fun {e r} hzip => ?_⟩
    have he := (List.of_mem_zip hzip).1
    exact htraces (List.mem_append_right _ (List.mem_map_of_mem he)) (hentrypoints e he)
      (List.forall₂_zip ht.ofEntrypoints hzip).block

/-- **Discards and stages.**  If a binary is transpiled without an error and ids do not run out, then no
entrypoint other than a fragment entrypoint discards in its own body.  The function of an entry point
reaches a kill in the module, through any chain of calls, exactly if the body of its entrypoint discards
or calls, directly or through others, a function that discards. -/
theorem transpile_discards (options : Options) (file : Nat) (b : Binary)
    (hok : (transpileBinary options file b).errored = false)
    (hids : (build options b).output.issued < UInt32.size - 1) :
    let is := (build options b).output.instructions
    Spirv.splitWords ((transpileBinary options file b).value.drop 5) = some (is.map Instruction.words) ∧
      ∃ entries, having .entryPoint is = (entries.filter Entry.fits).map Entry.instruction ∧
        List.Forall₂ (fun e entry => Describes b e entry ∧
          (e.kind ≠ .fragment → ending (b.body e.code) ≠ .discard) ∧
          (ReachesKill is entry.head.id ↔ MayDiscard b (b.body e.code))) b.entrypoints entries := by
  intro is
  obtain ⟨hvalid, herror, _⟩ := accepted_of_transpile hok
  obtain ⟨hwords, h, functions, entries, hbuild, ht, _, hdescribes⟩ := transcript_of_transpile hok
  have his : is = (after options h).output.instructions :=
    congrArg (fun p => Progress.output p |>.instructions) hbuild
  rw [hbuild, issued_after] at hids
  obtain ⟨hcharted, htraces⟩ := ht.charted hids options hvalid herror
  refine ⟨hwords, entries.map Prod.fst, ?_, ?_⟩
  · rw [his, ht.valid.having_short hids options (by decide), ht.having_entryPoint, List.filter_map]
    rfl
  · rw [List.forall₂_map_right_iff] at hdescribes ⊢
    refine List.forall₂_iff_zip.mpr ⟨hdescribes.length_eq, fun {e r} hzip => ?_⟩
    obtain ⟨he, hr⟩ := List.of_mem_zip hzip
    refine ⟨List.forall₂_zip hdescribes hzip, fun hkind hdiscard => herror (.discard he hkind hdiscard), ?_⟩
    -- the id in the entry is that of the block
    rw [his, ht.head_eq r hr]
    exact hcharted.reachesKill_iff_mayDiscard
      (List.mem_append_right _ (List.mem_map_of_mem hr)) (List.forall₂_zip htraces hzip)

/-- A vertex stage that calls a function that discards. -/
def hiddenSample : Binary where
  entrypoints := [⟨.vertex, ⟨1, 3⟩, ⟨1, 1⟩, [], []⟩]
  functions := [⟨⟨0, 1⟩, ⟨0, 1⟩, ⟨0⟩, []⟩]
  strings := [0x66, 0x76]
  code := [0x00010002, 0x00020003, 0, 0x00010001]

/-- The vertex stage reaches a kill, and nothing is reported. -/
theorem hiddenSample_reachesKill :
    (transpileBinary {} 0 hiddenSample).errored = false ∧
      (having .entryPoint (build {} hiddenSample).output.instructions).map (fun i => i.operands.take 2) =
        [[.enumerant (.of ExecutionModel.vertex), .id ⟨5⟩]] ∧
      ReachesKill (build {} hiddenSample).output.instructions ⟨5⟩ := by
  have hbodies : functionBodies (build {} hiddenSample).output.instructions =
      [(⟨2⟩, [⟨.label, [.id ⟨4⟩]⟩, ⟨.kill, []⟩]),
        (⟨5⟩, [⟨.label, [.id ⟨6⟩]⟩, ⟨.functionCall, [.id ⟨1⟩, .id ⟨7⟩, .id ⟨2⟩]⟩, ⟨.ret, []⟩])] := by
    decide +kernel
  have hcall : CallsIn (build {} hiddenSample).output.instructions ⟨5⟩ ⟨2⟩ := by
    rw [CallsIn, hbodies]
    exact ⟨_, List.mem_cons_of_mem _ (List.mem_singleton_self _), _,
      List.mem_cons_of_mem _ List.mem_cons_self, rfl, rfl⟩
  have hkill : KillsIn (build {} hiddenSample).output.instructions ⟨2⟩ := by
    rw [KillsIn, hbodies]
    exact ⟨_, List.mem_cons_self, _, List.mem_cons_of_mem _ List.mem_cons_self, rfl⟩
  exact ⟨by decide +kernel, by decide +kernel, ⟨2⟩, .single hcall, hkill⟩

theorem transpile_discards_hiddenSample :
    (transpileBinary {} 0 hiddenSample).errored = false ∧
      (build {} hiddenSample).output.issued = 7 ∧
      ∃ entry : Entry, entry.kind = .vertex ∧
        having .entryPoint (build {} hiddenSample).output.instructions =
          ([entry].filter Entry.fits).map Entry.instruction ∧
        ReachesKill (build {} hiddenSample).output.instructions entry.head.id := by
  have hok : (transpileBinary {} 0 hiddenSample).errored = false := by decide +kernel
  have hissued : (build {} hiddenSample).output.issued = 7 := by decide +kernel
  obtain ⟨_, entries, hpoints, hentries⟩ :=
    transpile_discards {} 0 hiddenSample hok (by rw [hissued]; decide)
  have hcalls : 0 ∈ calls (hiddenSample.body ⟨1, 3⟩) := by decide +kernel
  have hdiscards : Discards hiddenSample 0 := ⟨_, rfl, by decide +kernel⟩
  cases hentries with
  | @cons _ entry _ _ hentry hnone =>
    cases hnone
    obtain ⟨hdescribes, _, hreaches⟩ := hentry
    exact ⟨hok, hissued, entry, hdescribes.kind, hpoints,
      hreaches.mpr (.inr ⟨0, hcalls, 0, .refl, hdiscards⟩)⟩

end Shading.Lower
