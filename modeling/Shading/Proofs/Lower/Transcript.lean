import Shading.Proofs.Lower.History

/-! # The history of a binary

Each part of the construction is followed once: types, bodies, functions, interfaces, entrypoints and the
whole binary, in this order below.  A lemma says which events a part adds, by their summary, and which
types and ids are known afterwards.  At the end there is a history for the whole binary, with a block for
each function and an entry and a block for each entrypoint (`exists_transcript`). -/

namespace Shading.Lower

open Spirv (Id Op Operand Section Instruction StorageClass FunctionControl Decoration)
open Binary (BuiltinType EntrypointKind Parameter calls ending? unreached)

variable {b : Binary} {h : List Event}

/-! ### Types -/

theorem runs_floatType (hv : Valid b h) :
    ∃ x es, Runs b (fun _ => floatType) h x es {} ∧ Only [.builtin .float] es ∧
      Known (h ++ es) (.builtin .float) x :=
  runs_fetch_declare hv .float

theorem runs_vectorType (hv : Valid b h) {type : BuiltinType} {size : UInt32} (hne : type ≠ .float)
    (hdeclared : ∀ h y, Known h (.builtin .float) y →
      DeclaredFrom b h (.builtin type) .typeVector [.id y, .literal size]) :
    ∃ x es, Runs b (fun _ => vectorType type size) h x es {} ∧ Only [.builtin type, .builtin .float] es ∧
      Known (h ++ es) (.builtin type) x := by
  obtain ⟨y, es, hrun, honly, hy⟩ := runs_floatType hv
  exact runs_fetch hv (fun y => [.id y, .literal size]) hrun honly (by simpa using hne)
    (hdeclared _ y hy)

theorem runs_builtinType (hv : Valid b h) (type : BuiltinType) :
    ∃ x es, Runs b (fun _ => builtinType type) h x es {} ∧ Known (h ++ es) (.builtin type) x := by
  have hscalar : ∀ {op operands}, DeclaredFrom b h (.builtin type) op operands →
      ∃ x es, Runs b (fun _ => (TypeKey.builtin type).fetch (declare op operands)) h x es {} ∧
        Known (h ++ es) (.builtin type) x := by
    intro op operands hdeclared
    obtain ⟨x, es, hrun, _, hx⟩ := runs_fetch_declare hv hdeclared
    exact ⟨x, es, hrun, hx⟩
  have hvector : ∀ {size}, type ≠ .float → (∀ h y, Known h (.builtin .float) y →
      DeclaredFrom b h (.builtin type) .typeVector [.id y, .literal size]) →
      ∃ x es, Runs b (fun _ => vectorType type size) h x es {} ∧
        Known (h ++ es) (.builtin type) x := by
    intro size hne hdeclared
    obtain ⟨x, es, hrun, _, hx⟩ := runs_vectorType hv hne hdeclared
    exact ⟨x, es, hrun, hx⟩
  cases type with
  | void => exact hscalar .void
  | bool => exact hscalar .bool
  | int => exact hscalar .int
  | uint => exact hscalar .uint
  | float => exact hscalar .float
  | vec2 => exact hvector (by decide) fun _ _ => .vec2
  | vec3 => exact hvector (by decide) fun _ _ => .vec3
  | vec4 => exact hvector (by decide) fun _ _ => .vec4
  | mat4 =>
      obtain ⟨y, es, hrun, honly, hy⟩ := runs_vectorType hv (by decide) fun _ _ => .vec4
      obtain ⟨x, es, hruns, _, hx⟩ := runs_fetch hv (k := .builtin .mat4)
        (fun y => [.id y, .literal 4]) hrun honly (by simp) (.mat4 hy)
      exact ⟨x, es, hruns, hx⟩

theorem runs_pointerType (hv : Valid b h) (storage : StorageClass) (hs : storage ∈ pointerStorage)
    {pointee : Id} (hp : ∃ type, Known h (.builtin type) pointee) :
    ∃ x es, Runs b (fun _ => pointerType storage pointee) h x es {} ∧
      Known (h ++ es) (.pointer storage pointee) x := by
  obtain ⟨x, es, hrun, _, hx⟩ := runs_fetch_declare hv (.pointer hs hp)
  exact ⟨x, es, hrun, hx⟩

theorem runs_functionType (hv : Valid b h) {result : Id} {parameters : List Id}
    (hr : ∃ k, Known h k result) (hp : ∀ x ∈ parameters, ∃ k, Known h k x)
    (hcount : parameters.length ∈ arities b) :
    ∃ x es, Runs b (fun _ => functionType result parameters) h x es {} ∧
      Known (h ++ es) (.function result parameters) x := by
  obtain ⟨x, es, hrun, _, hx⟩ := runs_fetch_declare hv (.function hr hp hcount)
  exact ⟨x, es, hrun, hx⟩

/-- The type in which a parameter is passed is known: that of its values, or of pointers to them if the
function writes to it. -/
def PassedBy (h : List Event) (parameter : Parameter) (x : Id) : Prop :=
  ∃ value, Known h (.builtin (resolve parameter.type)) value ∧
    if isByReference parameter then Known h (.pointer .function value) x else x = value

theorem PassedBy.mono {parameter : Parameter} {x : Id} (hx : PassedBy h parameter x) (es : List Event) :
    PassedBy (h ++ es) parameter x := by
  obtain ⟨value, hvalue, hpassed⟩ := hx
  refine ⟨value, hvalue.mono es, ?_⟩
  split
  case isTrue href =>
    rw [if_pos href] at hpassed
    exact hpassed.mono es
  case isFalse href => rwa [if_neg href] at hpassed

theorem PassedBy.known {parameter : Parameter} {x : Id} (hx : PassedBy h parameter x) :
    ∃ k, Known h k x := by
  obtain ⟨value, hvalue, hpassed⟩ := hx
  split at hpassed
  · exact ⟨_, hpassed⟩
  · exact ⟨_, hpassed ▸ hvalue⟩

theorem runs_parameterType (hv : Valid b h) (parameter : Parameter) :
    ∃ x es, Runs b (fun _ => parameterType parameter) h x es {} ∧ PassedBy (h ++ es) parameter x := by
  obtain ⟨value, es, hrun, hvalue⟩ := runs_builtinType hv (resolve parameter.type)
  unfold parameterType
  by_cases href : isByReference parameter = true
  · obtain ⟨x, more, hruns, hx⟩ := runs_pointerType hrun.valid .function (by decide)
      ⟨_, hvalue⟩
    refine ⟨x, es ++ more, ?_, value, ?_, ?_⟩
    · simp only [href, if_true]
      exact hrun.bind (f := fun value _ => pointerType .function value) hruns
    · rw [← List.append_assoc]
      exact hvalue.mono more
    · rw [if_pos href, ← List.append_assoc]
      exact hx
  · refine ⟨value, es ++ [], ?_, value, ?_, ?_⟩
    · simp only [href]
      exact hrun.bind (f := fun value _ => pure value) (runs_pure hrun.valid value)
    · rwa [List.append_nil]
    · rw [if_neg href]

theorem runs_parameterTypes (hv : Valid b h) (parameters : List Parameter) :
    ∃ types es, Runs b (fun _ => parameters.mapM parameterType) h types es {} ∧
      List.Forall₂ (PassedBy (h ++ es)) parameters types := by
  obtain ⟨types, es, hrun, htypes⟩ := runs_mapM (I := fun _ => True) (R := PassedBy)
    (S := fun _ _ => {}) (f := fun _ => parameterType) (g := id) parameters
    (fun _ _ h => h) (fun _ es _ _ hx => hx.mono es)
    (fun parameter _ h hv _ => runs_parameterType hv parameter) hv trivial
  rw [List.map_id] at hrun
  refine ⟨types, es, hrun.congr ?_, htypes⟩
  rw [Summary.sum_zipWith htypes.length_eq]
  simp

/-! ### Bodies -/

theorem runs_bare (hv : Valid b h) (op : Op) (hop : op ∈ [Op.ret, .unreachable, .kill, .functionEnd]) :
    Runs b (fun _ => push .functions op []) h () [.push ⟨op, []⟩] { log := [⟨op, []⟩] } := by
  have hplace : home op = .functions ∧ op.resultPlace? = none := by
    revert hop op
    decide
  refine (runs_push hv hplace.1 ⟨?_, .bare hop, nofun⟩).congr ?_
  · rw [hplace.1]
    decide
  · rw [Instruction.result?, hplace.2]
    rfl

theorem runs_leave (hv : Valid b h) (owner : Owner) :
    ∃ es, Runs b (fun _ => leave owner) h () es
      { log := [⟨if owner.returnType = .void then .ret else .unreachable, []⟩]
        problems := (returnProblem? owner).toList } := by
  unfold leave returnProblem?
  by_cases hvoid : owner.returnType = .void
  · simp only [hvoid, if_true]
    exact ⟨_, runs_bare hv .ret (by decide)⟩
  · have hreport := runs_report hv (.returnWithoutValue owner.name owner.returnType)
    simp only [hvoid, if_false]
    refine ⟨_, (hreport.andThen (runs_bare hreport.valid .unreachable (by decide))).congr ?_⟩
    simp [hvoid]

theorem runs_discard (hv : Valid b h) (owner : Owner) :
    ∃ es, Runs b (fun _ => discard owner) h () es
      { log := [⟨.kill, []⟩], problems := (discardProblem? owner).toList } := by
  have hkill : ∀ {h}, Valid b h → Runs b (fun _ => push .functions .kill []) h () [.push ⟨.kill, []⟩]
      { log := [⟨.kill, []⟩] } := fun hv => runs_bare hv .kill (by decide)
  have hreport := runs_report hv (.discardOutsideFragment owner.name)
  have hproblem := hreport.andThen (hkill hreport.valid)
  obtain ⟨name, returnType, kind?⟩ := owner
  rcases kind? with _ | kind
  · exact ⟨_, hkill hv⟩
  · cases kind with
    | fragment => exact ⟨_, hkill hv⟩
    | vertex | tessellationControl | tessellationEvaluation | geometry | compute => exact ⟨_, hproblem⟩

theorem runs_ignoreRest (hv : Valid b h) (owner : Owner) (rest : List Binary.Instruction) :
    ∃ es, Runs b (fun _ => ignoreRest owner rest) h () es
      { problems := (restProblem? owner rest).toList } := by
  cases rest with
  | nil => exact ⟨[], runs_pure hv ()⟩
  | cons i rest => exact ⟨_, runs_report hv _⟩

/-- The callee is what was made of the function. -/
structure Declares (b : Binary) (h : List Event) (f : Binary.Function) (c : Callee) : Prop where
  name : c.name = nameOf b f.name
  parameters : c.parameters = f.parameters.length
  returnType : Known h (.builtin (resolve f.returnType)) c.returnType
  id : c.id ∈ handed h

theorem Declares.mono {f : Binary.Function} {c : Callee} (hc : Declares b h f c)
    (es : List Event) : Declares b (h ++ es) f c :=
  ⟨hc.name, hc.parameters, hc.returnType.mono es, mem_handed_append hc.id es⟩

/-- What a callee is called by. -/
def Callee.signature (c : Callee) : Id × Id := (c.returnType, c.id)

/-- The calls are, in order, to the functions of these numbers that need no arguments. -/
def CallsTo (b : Binary) (signatures : List (Id × Id)) (numbers : List Nat) (made : List Call) : Prop :=
  List.Forall₂ (fun n c => signatures[n]? = some (c.type, c.target)) (numbers.filter b.takesNothing)
    made

theorem CallsTo.append {signatures : List (Id × Id)} {numbers more : List Nat}
    {made others : List Call} (hmade : CallsTo b signatures numbers made)
    (hothers : CallsTo b signatures more others) :
    CallsTo b signatures (numbers ++ more) (made ++ others) := by
  unfold CallsTo
  rw [List.filter_append]
  exact List.rel_append hmade hothers

section

variable {callees : List Callee}

/-- One call is made, unless it would need arguments. -/
theorem runs_callNumber (hv : Valid b h) (hc : List.Forall₂ (Declares b h) b.functions callees)
    (owner : Owner) (operands : List UInt32) :
    ∃ made es, Runs b (fun _ => callNumber owner callees operands) h () es
        { log := made.map Call.instruction
          problems := (callProblem? b owner.name (operands.headD 0).toNat).toList } ∧
      CallsTo b (callees.map Callee.signature) [(operands.headD 0).toNat] made := by
  unfold callNumber callProblem? CallsTo
  generalize (operands.headD 0).toNat = n
  rcases getElem?_of_forall₂ hc n with ⟨hf, hcallee⟩ | ⟨f, c, hf, hcallee, hdeclares⟩
  · -- a number that no function has is passed over in silence
    refine ⟨[], [], ?_, ?_⟩
    · simp only [hf, hcallee]
      exact runs_pure hv ()
    · simp [Binary.takesNothing, hf]
  · simp only [hf, hcallee, List.getElem?_map, Option.bind_some]
    unfold call
    cases hparameters : f.parameters with
    | nil =>
        have hcount : c.parameters = 0 := by rw [hdeclares.parameters, hparameters]; rfl
        let made : Call := ⟨c.returnType, nextId h, c.id⟩
        have hallowed : Event.Allowed b h (.define (nextId h) made.instruction) := by
          refine ⟨rfl, rfl, .call made, ?_, nofun⟩
          exact List.forall_mem_cons.mpr ⟨hdeclares.returnType.mem_handed,
            List.forall_mem_singleton.mpr hdeclares.id⟩
        have hrun := runs_define hv (fun x => Call.instruction ⟨c.returnType, x, c.id⟩)
          (rfl : home .functionCall = .functions) hallowed
        simp only [hcount]
        refine ⟨[made], _, hrun.andThen (runs_pure hrun.valid ()), ?_⟩
        · have htakes : b.takesNothing n = true := by simp [Binary.takesNothing, hf, hparameters]
          simp [htakes, hcallee, Callee.signature, made]
    | cons parameter parameters =>
        have hcount : 0 < c.parameters := by rw [hdeclares.parameters, hparameters]; simp
        simp only [hcount, if_true]
        refine ⟨[], _, (runs_report hv _).congr ?_, ?_⟩
        · rw [hdeclares.name, hdeclares.parameters, hparameters]
          rfl
        · have htakes : b.takesNothing n = false := by simp [Binary.takesNothing, hf, hparameters]
          simp [htakes]

theorem terminator_cons {i : Binary.Instruction} (hi : i.opcode.isEnd = false)
    (returns : BuiltinType) (rest : List Binary.Instruction) :
    terminator returns (i :: rest) = terminator returns rest := by
  rw [terminator, Binary.ending?_cons rest hi, terminator]

/-- A body makes its calls and ends. -/
theorem runs_body (owner : Owner) {is : List Binary.Instruction}
    (his : ∀ i ∈ is, i.operands.length = i.opcode.operandCount) (hv : Valid b h)
    (hc : List.Forall₂ (Declares b h) b.functions callees) :
    ∃ made es, Runs b (fun _ => body owner callees is) h () es
        { log := made.map Call.instruction ++ [⟨terminator owner.returnType is, []⟩]
          problems := bodyProblems b owner is } ∧
      CallsTo b (callees.map Callee.signature) (calls is) made := by
  induction is generalizing h with
  | nil =>
      obtain ⟨es, hrun⟩ := runs_leave hv owner
      refine ⟨[], es, hrun.congr ?_, .nil⟩
      simp [bodyProblems, calls, Binary.reached, terminator, Binary.ending?, Binary.ending, endProblem?,
        restProblem?, unreached]
  | cons i rest ih =>
      obtain ⟨hi, hrest⟩ := List.forall_mem_cons.mp his
      unfold body
      cases hopcode : i.opcode with
      | nop =>
          have hgoes : i.opcode.isEnd = false := by rw [hopcode]; rfl
          have hcallee : i.callee? = none := by simp [Binary.Instruction.callee?, hopcode]
          rw [bodyProblems_cons b owner rest hgoes, Binary.calls_cons rest hgoes,
            terminator_cons hgoes, hcallee]
          exact ih hrest hv hc
      | call =>
          have hgoes : i.opcode.isEnd = false := by rw [hopcode]; rfl
          -- the instruction was read whole, so it has the operand that is looked up
          have hcallee := Binary.callee?_of_length hi hopcode
          obtain ⟨made, es, hrun, hmade⟩ := runs_callNumber hv hc owner i.operands
          obtain ⟨others, more, hruns, hothers⟩ := ih hrest hrun.valid (hc.imp fun _ _ h => h.mono es)
          rw [bodyProblems_cons b owner rest hgoes, Binary.calls_cons rest hgoes,
            terminator_cons hgoes, hcallee]
          refine ⟨made ++ others, _, (hrun.bind hruns).congr ?_, hmade.append hothers⟩
          simp
      | ret =>
          have hend : i.opcode.isEnd = true := by rw [hopcode]; rfl
          obtain ⟨es, hrun⟩ := runs_leave hv owner
          obtain ⟨more, hruns⟩ := runs_ignoreRest hrun.valid owner rest
          refine ⟨[], _, (hrun.bind hruns).congr ?_, ?_⟩
          · rw [bodyProblems_end b owner rest hend, terminator, Binary.ending?_end rest hend, hopcode]
            simp [endProblem?]
          · rw [Binary.calls_end rest hend]
            exact .nil
      | discard =>
          have hend : i.opcode.isEnd = true := by rw [hopcode]; rfl
          obtain ⟨es, hrun⟩ := runs_discard hv owner
          obtain ⟨more, hruns⟩ := runs_ignoreRest hrun.valid owner rest
          refine ⟨[], _, (hrun.bind hruns).congr ?_, ?_⟩
          · rw [bodyProblems_end b owner rest hend, terminator, Binary.ending?_end rest hend, hopcode]
            simp [endProblem?]
          · rw [Binary.calls_end rest hend]
            exact .nil

/-! ### Functions -/

/-- The block has the type of results, the parameters, the calls and the end of a body.  Of the calls,
those that would need arguments are left out, and the others are to functions with the given
signatures. -/
structure Rendered (b : Binary) (h : List Event) (signatures : List (Id × Id)) (returns : BuiltinType)
    (parameters : List Parameter) (is : List Binary.Instruction) (k : Block) : Prop where
  returnType : Known h (.builtin returns) k.returnType
  type : Known h (.function k.returnType (k.parameters.map Prod.fst)) k.type
  parameters : List.Forall₂ (fun p x => PassedBy h p x.1) parameters k.parameters
  calls : CallsTo b signatures (calls is) k.calls
  terminator : k.terminator = terminator returns is

theorem Rendered.mono {signatures : List (Id × Id)} {returns : BuiltinType}
    {parameters : List Parameter} {is : List Binary.Instruction} {k : Block}
    (hk : Rendered b h signatures returns parameters is k) (es : List Event) :
    Rendered b (h ++ es) signatures returns parameters is k where
  returnType := hk.returnType.mono es
  type := hk.type.mono es
  parameters := hk.parameters.imp fun _ _ hx => hx.mono es
  calls := hk.calls
  terminator := hk.terminator

/-- Every parameter has a type and an id of its own. -/
theorem runs_functionParameters (hv : Valid b h) (types : List Id) (htypes : ∀ x ∈ types, x ∈ handed h) :
    ∃ (made : List (Id × Id)) (es : List Event), Runs b (fun _ => types.forM fun type => do
          let parameter ← fresh
          push .functions .functionParameter [.id type, .id parameter]) h () es
        { log := made.map Block.parameter } ∧ made.map Prod.fst = types := by
  obtain ⟨made, es, hrun, hmade⟩ := runs_forM (I := fun h => ∀ x ∈ types, x ∈ handed h)
    (R := fun _ type (x : Id × Id) => x.1 = type) (S := fun _ x => { log := [Block.parameter x] })
    (f := fun _ type => do
      let parameter ← fresh
      push .functions .functionParameter [.id type, .id parameter]) types
    (fun h es hx y hy => mem_handed_append (hx y hy) es) (fun _ _ _ _ hx => hx)
    (fun type htype h hv hx => by
      have hallowed : Event.Allowed b h (.define (nextId h) (Block.parameter (type, nextId h))) :=
        ⟨rfl, rfl, .parameter _, List.forall_mem_singleton.mpr (hx type htype), nofun⟩
      have hrun := runs_define hv (fun x => Block.parameter (type, x))
        (rfl : home .functionParameter = .functions) hallowed
      exact ⟨(type, nextId h), _, hrun.andThen (runs_pure hrun.valid ()), rfl⟩) hv htypes
  refine ⟨made, es, hrun.congr ?_, ?_⟩
  · rw [Summary.sum_zipWith hmade.length_eq]
    simp [List.map_eq_flatMap]
  · exact (map_eq_of_forall₂ hmade fun _ _ hx => hx).trans types.map_id

theorem runs_label (hv : Valid b h) :
    ∃ label es, Runs b (fun _ => do
      let label ← fresh
      push .functions .label [.id label]
      return label) h label es { log := [⟨.label, [.id label]⟩] } :=
  ⟨_, _, runs_define hv (fun x => ⟨.label, [.id x]⟩) rfl ⟨rfl, rfl, .label _, nofun, nofun⟩⟩

/-- What follows the types of a function. -/
theorem runs_block (hv : Valid b h) (hc : List.Forall₂ (Declares b h) b.functions callees)
    (owner : Owner) {returnType id type : Id} {types : List Id} {is : List Binary.Instruction}
    (his : ∀ i ∈ is, i.operands.length = i.opcode.operandCount)
    (hids : returnType ∈ handed h ∧ id ∈ handed h ∧ type ∈ handed h) (htypes : ∀ x ∈ types, x ∈ handed h) :
    ∃ (k : Block) (es : List Event), Runs b (fun _ => do
          push .functions .function
            [.id returnType, .id id, .enumerant (.of FunctionControl.none), .id type]
          types.forM fun parameterType => do
            let parameter ← fresh
            push .functions .functionParameter [.id parameterType, .id parameter]
          let label ← fresh
          push .functions .label [.id label]
          body owner callees is
          push .functions .functionEnd []) h () es
        { log := k.instructions, problems := bodyProblems b owner is, settled := [id] } ∧
      k.head = ⟨returnType, id, type, types⟩ ∧
      CallsTo b (callees.map Callee.signature) (calls is) k.calls ∧
      k.terminator = terminator owner.returnType is := by
  have hallowed : Event.Allowed b h (.push (Block.header returnType id type)) :=
    ⟨by rintro ⟨⟩, .header returnType id type, by simpa [Block.header, Operand.idsOf] using hids⟩
  have hheader := runs_push hv (rfl : home .function = .functions) hallowed
  obtain ⟨made, es, hparameters, hmade⟩ := runs_functionParameters hheader.valid types
    fun x hx => mem_handed_append (htypes x hx) _
  obtain ⟨label, _, hlabel⟩ := runs_label hparameters.valid
  obtain ⟨called, more, hbody, hcalled⟩ := runs_body owner his hlabel.valid
    (hc.imp fun _ _ hf => ((hf.mono _).mono _).mono _)
  have hend := runs_bare hbody.valid .functionEnd (by decide)
  refine ⟨⟨returnType, id, type, made, label, called, terminator owner.returnType is⟩, _,
    (hheader.andThen (hparameters.andThen (hlabel.andThen (hbody.andThen hend)))).congr ?_, ?_,
    hcalled, rfl⟩
  · simp [Block.instructions, Block.header, Instruction.result?, Op.resultPlace?]
  · simp [Block.head, hmade]

/-- A function becomes a block. -/
theorem runs_function (hv : Valid b h) (hc : List.Forall₂ (Declares b h) b.functions callees)
    (owner : Owner) {id : Id} (hid : id ∈ handed h) (parameters : List Parameter)
    (hcount : parameters.length ∈ arities b) (words : List UInt32) :
    let is := (Binary.readInstructions words).instructions
    ∃ k es, Runs b (fun _ => function owner callees id parameters words) h () es
        { log := k.instructions, problems := bodyProblems b owner is, settled := [id] } ∧
      k.id = id ∧
      Rendered b (h ++ es) (callees.map Callee.signature) owner.returnType parameters is k := by
  intro is
  obtain ⟨returnType, es₁, hrun₁, hreturn⟩ := runs_builtinType hv owner.returnType
  obtain ⟨types, es₂, hrun₂, hpassed⟩ := runs_parameterTypes hrun₁.valid parameters
  have htypes : ∀ x ∈ types, ∃ k, Known (h ++ es₁ ++ es₂) k x := by
    intro x hx
    obtain ⟨p, _, hpx⟩ := exists_mem_of_forall₂ hpassed.flip hx
    exact PassedBy.known hpx
  obtain ⟨type, es₃, hrun₃, htype⟩ := runs_functionType hrun₂.valid ⟨_, hreturn.mono es₂⟩ htypes
    (hpassed.length_eq ▸ hcount)
  have hhanded : ∀ x ∈ types, x ∈ handed (h ++ es₁ ++ es₂ ++ es₃) := fun x hx =>
    let ⟨_, hknown⟩ := htypes x hx
    (hknown.mono es₃).mem_handed
  have hid' := mem_handed_append (mem_handed_append (mem_handed_append hid es₁) es₂) es₃
  obtain ⟨k, es₄, hrun₄, hhead, hcalls, hend⟩ := runs_block hrun₃.valid
    (hc.imp fun _ _ hf => ((hf.mono es₁).mono es₂).mono es₃) owner (Binary.length_operands words)
    ⟨((hreturn.mono es₂).mono es₃).mem_handed, hid', htype.mem_handed⟩ hhanded
  obtain ⟨rfl, rfl, rfl, rfl⟩ := Head.mk.inj hhead
  have hadded : h ++ (es₁ ++ (es₂ ++ (es₃ ++ es₄))) = h ++ es₁ ++ es₂ ++ es₃ ++ es₄ := by
    simp only [List.append_assoc]
  refine ⟨k, es₁ ++ (es₂ ++ (es₃ ++ es₄)), ?_, rfl, ?_⟩
  · unfold function
    exact (hrun₁.bind (hrun₂.bind (hrun₃.bind hrun₄))).congr rfl
  · rw [hadded]
    refine ⟨((hreturn.mono es₂).mono es₃).mono es₄, htype.mono es₄, ?_, hcalls, hend⟩
    exact (List.forall₂_map_right_iff.mp hpassed).imp fun _ _ hx => (hx.mono es₃).mono es₄

/-! ### Interfaces -/

/-- The variable has the type that is known for pointers to values of the type. -/
def IsSlot (h : List Event) (storage : StorageClass) (type : BuiltinType) (x : Slot) : Prop :=
  ∃ pointee, Known h (.builtin type) pointee ∧ Known h (.pointer storage pointee) x.pointer

/-- The variable is one for the parameter and its place. -/
structure Located (h : List Event) (storage : StorageClass) (p : Parameter × Nat) (x : Slot) :
    Prop where
  location : x.location = p.2
  id : x.id ∈ handed h
  isSlot : IsSlot h storage (resolve p.1.type) x

theorem Located.mono {storage : StorageClass} {p : Parameter × Nat} {x : Slot}
    (hx : Located h storage p x) (es : List Event) : Located (h ++ es) storage p x := by
  obtain ⟨pointee, hpointee, hpointer⟩ := hx.isSlot
  exact ⟨hx.location, mem_handed_append hx.id es, pointee, hpointee.mono es, hpointer.mono es⟩

theorem mem_handed_of_located {storage : StorageClass} {ps : List (Parameter × Nat)} {xs : List Slot}
    (hxs : List.Forall₂ (Located h storage) ps xs) : ∀ y ∈ xs.map Slot.id, y ∈ handed h := by
  refine List.forall_mem_map.mpr fun x hx => ?_
  obtain ⟨p, _, hp⟩ := exists_mem_of_forall₂ hxs.flip hx
  exact Located.id hp

theorem runs_interfaceVariable (hv : Valid b h) {storage : StorageClass} (hs : storage ∈ pointerStorage)
    (location : Nat) (parameter : Parameter) :
    ∃ x es, Runs b (fun _ => interfaceVariable storage location parameter) h (Slot.id x) es
        { log := x.records storage } ∧ Located (h ++ es) storage (parameter, location) x := by
  obtain ⟨pointee, es₁, hrun₁, hpointee⟩ := runs_builtinType hv (resolve parameter.type)
  obtain ⟨pointer, es₂, hrun₂, hpointer⟩ := runs_pointerType hrun₁.valid storage hs ⟨_, hpointee⟩
  let x : Slot := ⟨pointer, nextId (h ++ es₁ ++ es₂), location⟩
  have hallowed : Event.Allowed b (h ++ es₁ ++ es₂) (.define x.id (x.declaration storage)) :=
    ⟨rfl, rfl, .slot hs x, List.forall_mem_singleton.mpr hpointer.mem_handed,
      fun _ => List.forall_mem_singleton.mpr ⟨_, hpointer⟩⟩
  have hrun₃ := runs_define hrun₂.valid (fun id => Slot.declaration storage ⟨pointer, id, location⟩)
    (rfl : home .var = .globals) hallowed
  have hx : x.id ∈ handed (h ++ es₁ ++ es₂ ++ [.define x.id (x.declaration storage)]) := by
    simp [handed, Event.handed?]
  have hallowed' : Event.Allowed b _ (.push x.decoration) :=
    ⟨by rintro ⟨⟩, .location x, List.forall_mem_singleton.mpr hx⟩
  have hrun₄ := runs_push hrun₃.valid (rfl : home .decorate = .annotations) hallowed'
  have hadded : ∀ es₃ es₄ : List Event, h ++ (es₁ ++ (es₂ ++ (es₃ ++ es₄))) =
      h ++ es₁ ++ es₂ ++ es₃ ++ es₄ := fun _ _ => by simp only [List.append_assoc]
  refine ⟨x, es₁ ++ (es₂ ++ ([.define x.id (x.declaration storage)] ++
    ([.push ⟨.decorate, x.decoration.operands⟩] ++ []))), ?_, rfl, ?_, pointee, ?_, ?_⟩
  · unfold interfaceVariable
    exact (hrun₁.bind (hrun₂.bind (hrun₃.bind (f := fun slot _ => do
      push .annotations .decorate
        [.id slot, .enumerant (.of Decoration.location), .literal location.toUInt32]
      return slot) (hrun₄.andThen (runs_pure hrun₄.valid x.id))))).congr rfl
  · rw [hadded]
    exact mem_handed_append hx _
  · rw [hadded]
    exact ((hpointee.mono _).mono _).mono _
  · rw [hadded]
    exact (hpointer.mono _).mono _

/-- The variable for one of the parameters with their places, if it has a value. -/
def slot? (entrypoint : String) (storage : StorageClass) (x : Parameter × Nat) : Build (Option Id) := do
  if x.1.type.builtin? = some .void then
    report (.voidInterface entrypoint storage)
    return none
  else some <$> interfaceVariable storage x.2 x.1

/-- There is a variable exactly if there is a value. -/
def SlotFor (h : List Event) (storage : StorageClass) (p : Parameter × Nat) : Option Slot → Prop
  | none => p.1.type.builtin? = some .void
  | some x => p.1.type.builtin? ≠ some .void ∧ Located h storage p x

theorem runs_slot? (hv : Valid b h) (entrypoint : String) {storage : StorageClass}
    (hs : storage ∈ pointerStorage) (p : Parameter × Nat) :
    ∃ (x? : Option Slot) (es : List Event), Runs b (fun _ => slot? entrypoint storage p) h (x?.map Slot.id) es
        { log := x?.toList.flatMap (Slot.records storage)
          problems := (interfaceProblem? entrypoint storage p.1).toList } ∧
      SlotFor (h ++ es) storage p x? := by
  unfold slot? interfaceProblem?
  by_cases hvoid : p.1.type.builtin? = some .void
  · have hreport := runs_report hv (.voidInterface entrypoint storage)
    simp only [hvoid, if_true]
    exact ⟨none, _, hreport.andThen (runs_pure hreport.valid none), hvoid⟩
  · obtain ⟨x, es, hrun, hx⟩ := runs_interfaceVariable hv hs p.2 p.1
    simp only [hvoid, if_false]
    refine ⟨some x, es ++ [], (hrun.bind (f := fun x _ => pure (some x))
      (runs_pure hrun.valid (some x.id))).congr ?_, hvoid, ?_⟩
    · simp
    · rwa [List.append_nil]

/-- The parameters with values and their places. -/
def places (parameters : List Parameter) : List (Parameter × Nat) :=
  parameters.zipIdx.filter fun x => x.1.type.builtin? ≠ some .void

/-- The values that there are have variables, in order. -/
theorem located_of_slotFor {storage : StorageClass} {ps : List (Parameter × Nat)}
    {xs : List (Option Slot)} (hxs : List.Forall₂ (SlotFor h storage) ps xs) :
    List.Forall₂ (Located h storage) (ps.filter fun x => x.1.type.builtin? ≠ some .void)
      (xs.filterMap id) := by
  induction hxs with
  | nil => exact .nil
  | @cons p x? ps xs hx _ ih =>
      cases x? with
      | none =>
          have hvoid : p.1.type.builtin? = some .void := hx
          rw [List.filter_cons_of_neg (by simpa using hvoid)]
          exact ih
      | some x =>
          obtain ⟨hvalue, hlocated⟩ := hx
          rw [List.filter_cons_of_pos (by simpa using hvalue)]
          exact .cons hlocated ih

theorem runs_interface (hv : Valid b h) (entrypoint : String) (storage : StorageClass)
    (hs : storage ∈ pointerStorage) (parameters : List Parameter) :
    ∃ (xs : List Slot) (es : List Event),
      Runs b (fun _ => interface entrypoint storage parameters) h (xs.map Slot.id) es
        { log := xs.flatMap (Slot.records storage)
          problems := parameters.filterMap (interfaceProblem? entrypoint storage) } ∧
      List.Forall₂ (Located (h ++ es) storage) (places parameters) xs := by
  obtain ⟨xs, es, hrun, hxs⟩ := runs_mapM (I := fun _ => True)
    (R := fun h p x? => SlotFor h storage p x?)
    (S := fun p x? => { log := x?.toList.flatMap (Slot.records storage)
                        problems := (interfaceProblem? entrypoint storage p.1).toList })
    (f := fun _ => slot? entrypoint storage) (g := Option.map Slot.id) parameters.zipIdx
    (fun _ _ h => h)
    (fun h es p x? hx => by
      cases x? with
      | none => exact hx
      | some x => exact ⟨hx.1, hx.2.mono es⟩)
    (fun p _ h hv _ => runs_slot? hv entrypoint hs p) hv trivial
  have hresult : (xs.map (Option.map Slot.id)).filterMap id = (xs.filterMap id).map Slot.id := by
    simp [List.filterMap_map, List.map_filterMap]
  have hlog : xs.flatMap (fun x? => x?.toList.flatMap (Slot.records storage)) =
      (xs.filterMap id).flatMap (Slot.records storage) := by
    rw [List.filterMap_eq_flatMap_toList, List.flatMap_assoc]
    rfl
  have hproblems : parameters.zipIdx.flatMap
      (fun p => (interfaceProblem? entrypoint storage p.1).toList) =
        parameters.filterMap (interfaceProblem? entrypoint storage) := by
    rw [List.filterMap_eq_flatMap_toList]
    conv_rhs => rw [← List.zipIdx_map_fst 0 parameters, List.flatMap_map]
  refine ⟨xs.filterMap id, es ++ [], ?_, ?_⟩
  · rw [← hresult]
    refine (hrun.bind (f := fun slots _ => pure (slots.filterMap id))
      (runs_pure hrun.valid _)).congr ?_
    rw [Summary.sum_zipWith hxs.length_eq, hlog, hproblems, Summary.append_empty]
    simp
  · rw [List.append_nil]
    exact located_of_slotFor hxs

/-! ### Entrypoints -/

theorem runs_executionMode (hv : Valid b h) (kind : EntrypointKind) {id : Id} (hid : id ∈ handed h) :
    ∃ es, Runs b (fun _ => executionMode kind id) h () es { log := modes kind id } := by
  have hmode : ∀ {operands : List Operand}, (⟨.executionMode, operands⟩ : Instruction) ∈ modes kind id →
      operands.flatMap Operand.idsOf = [id] →
      Runs b (fun _ => push .executionModes .executionMode operands) h ()
        [.push ⟨.executionMode, operands⟩] { log := [⟨.executionMode, operands⟩] } := by
    intro operands hmem hids
    refine runs_push hv rfl ⟨by rintro ⟨⟩, .mode hmem, ?_⟩
    rw [hids]
    exact List.forall_mem_singleton.mpr hid
  cases kind with
  | fragment | compute => exact ⟨_, hmode (List.mem_singleton_self _) rfl⟩
  | vertex | tessellationControl | tessellationEvaluation | geometry => exact ⟨_, runs_pure hv ()⟩

/-- The entry point of an entry, whose head is not there yet. -/
theorem runs_entryPoint (hv : Valid b h) (kind : EntrypointKind) (name : String) {id : Id}
    {inputs outputs : List Slot} (hid : id ∈ handed h) (hin : ∀ y ∈ inputs.map Slot.id, y ∈ handed h)
    (hout : ∀ y ∈ outputs.map Slot.id, y ∈ handed h) :
    ∃ es, ∀ head : Head, head.id = id → Runs b (fun _ => push .entryPoints .entryPoint
        [.enumerant (.of (executionModel kind)), .id id, .text name,
          .ids (inputs.map Slot.id ++ outputs.map Slot.id)]) h () es
      { log := [Entry.instruction ⟨kind, name, inputs, outputs, head⟩] } := by
  let entry : Entry := ⟨kind, name, inputs, outputs, ⟨id, id, id, []⟩⟩
  have hallowed : Event.Allowed b h (.push entry.instruction) := by
    refine ⟨by rintro ⟨⟩, .entry entry, List.forall_mem_cons.mpr ⟨hid, ?_⟩⟩
    show ∀ x ∈ inputs.map Slot.id ++ outputs.map Slot.id ++ [], x ∈ handed h
    rw [List.append_nil]
    exact List.forall_mem_append.mpr ⟨hin, hout⟩
  refine ⟨_, fun head hhead => (runs_push hv rfl hallowed).congr ?_⟩
  subst hhead
  rfl

/-- The entry and the block are those of the entrypoint. -/
structure Recorded (b : Binary) (h : List Event) (signatures : List (Id × Id)) (e : Binary.Entrypoint)
    (r : Entry × Block) : Prop where
  kind : r.1.kind = e.kind
  name : r.1.name = nameOf b e.name
  head : r.1.head = r.2.head
  inputs : List.Forall₂ (Located h .input) (places e.inputs) r.1.inputs
  outputs : List.Forall₂ (Located h .output) (places e.outputs) r.1.outputs
  block : Rendered b h signatures .void [] (b.body e.code) r.2

theorem Recorded.mono {signatures : List (Id × Id)} {e : Binary.Entrypoint} {r : Entry × Block}
    (hr : Recorded b h signatures e r) (es : List Event) : Recorded b (h ++ es) signatures e r where
  kind := hr.kind
  name := hr.name
  head := hr.head
  inputs := hr.inputs.imp fun _ _ hx => hx.mono es
  outputs := hr.outputs.imp fun _ _ hx => hx.mono es
  block := hr.block.mono es

theorem runs_defineEntrypoint (hv : Valid b h) (hc : List.Forall₂ (Declares b h) b.functions callees)
    (e : Binary.Entrypoint) :
    ∃ (r : Entry × Block) (es : List Event),
      Runs b (fun options => defineEntrypoint options b callees e) h () es
        { log := r.1.records ++ r.2.instructions
          problems := entrypointProblems b e
          reserved := [r.2.id]
          settled := [r.2.id]
          names := [(r.2.id, r.1.name)] } ∧
      Recorded b (h ++ es) (callees.map Callee.signature) e r := by
  have hid := runs_reserve hv
  generalize nextId h = id at hid
  have hreserved : id ∈ handed (h ++ [.reserve id]) := by simp [handed, Event.handed?]
  have hname := runs_name hid.valid hreserved (nameOf b e.name)
  obtain ⟨inputs, es₁, hin, hinputs⟩ := runs_interface hname.valid (nameOf b e.name) .input (by decide)
    e.inputs
  obtain ⟨outputs, es₂, hout, houtputs⟩ := runs_interface hin.valid (nameOf b e.name) .output
    (by decide) e.outputs
  have hreserved₂ := mem_handed_append (mem_handed_append
    (mem_handed_append hreserved [.name id (nameOf b e.name)]) es₁) es₂
  obtain ⟨es₃, hentry⟩ := runs_entryPoint hout.valid e.kind (nameOf b e.name) hreserved₂
    (fun y hy => mem_handed_append (mem_handed_of_located hinputs y hy) es₂)
    (mem_handed_of_located houtputs)
  have hpushed := hentry ⟨id, id, id, []⟩ rfl
  have hreserved₃ := mem_handed_append hreserved₂ es₃
  obtain ⟨es₄, hmode⟩ := runs_executionMode hpushed.valid e.kind hreserved₃
  obtain ⟨k, es₅, hfunction, hkid, hrendered⟩ := runs_function hmode.valid
    (hc.imp fun _ _ hf => (((((hf.mono _).mono _).mono es₁).mono es₂).mono es₃).mono es₄)
    (entrypointOwner b e) (mem_handed_append hreserved₃ es₄) [] List.mem_cons_self ((b.words? e.code).getD [])
  subst hkid
  refine ⟨(⟨e.kind, nameOf b e.name, inputs, outputs, k.head⟩, k), _,
    (hid.bind (hname.andThen (hin.bind (hout.bind
      ((hentry k.head rfl).andThen (hmode.andThen hfunction)))))).congr ?_, rfl, rfl, rfl, ?_, ?_, ?_⟩
  · simp [Entry.records, entrypointProblems, Binary.body, Block.head]
  all_goals simp only [← List.append_assoc]
  · exact hinputs.imp fun _ _ hx => (((hx.mono es₂).mono es₃).mono es₄).mono es₅
  · exact houtputs.imp fun _ _ hx => ((hx.mono es₃).mono es₄).mono es₅
  · exact hrendered

/-! ### The whole binary -/

theorem runs_declareFunction (hv : Valid b h) (f : Binary.Function) :
    ∃ (c : Callee) (es : List Event), Runs b (fun _ => declareFunction b f) h c es { reserved := [c.id] } ∧
      Declares b (h ++ es) f c := by
  obtain ⟨returnType, es, hrun, hreturn⟩ := runs_builtinType hv (resolve f.returnType)
  have hid := runs_reserve hrun.valid
  generalize nextId (h ++ es) = id at hid
  refine ⟨⟨id, nameOf b f.name, returnType, f.parameters.length⟩, es ++ ([.reserve id] ++ []),
    (hrun.bind (hid.bind (f := fun id _ => pure (Callee.mk id (nameOf b f.name) returnType
      f.parameters.length)) (runs_pure hid.valid _))).congr rfl, rfl, rfl, ?_, ?_⟩
  all_goals rw [List.append_nil, ← List.append_assoc]
  · exact hreturn.mono _
  · simp [handed, Event.handed?]

/-- A type has one id. -/
theorem Valid.known_unique (hv : Valid b h) {k : TypeKey} {x y : Id} (hx : Known h k x)
    (hy : Known h k y) : x = y :=
  Option.some.inj (((hv.look {}).mpr hx).symm.trans ((hv.look {}).mpr hy))

/-- The name and the block are those of the function. -/
structure Defined (b : Binary) (h : List Event) (signatures : List (Id × Id)) (f : Binary.Function)
    (r : String × Block) : Prop where
  name : r.1 = nameOf b f.name
  block : Rendered b h signatures (resolve f.returnType) f.parameters (b.body f.code) r.2

theorem Defined.mono {signatures : List (Id × Id)} {f : Binary.Function} {r : String × Block}
    (hr : Defined b h signatures f r) (es : List Event) : Defined b (h ++ es) signatures f r :=
  ⟨hr.name, hr.block.mono es⟩

theorem runs_defineFunction (hv : Valid b h) (hc : List.Forall₂ (Declares b h) b.functions callees)
    {f : Binary.Function} (hf : f ∈ b.functions) {c : Callee} (hdeclares : Declares b h f c) :
    ∃ (r : String × Block) (es : List Event),
      Runs b (fun options => defineFunction options b callees f c) h () es
        { log := r.2.instructions
          problems := functionProblems b f
          settled := [r.2.id]
          names := [(r.2.id, r.1)] } ∧
      r.2.signature = c.signature ∧ Defined b (h ++ es) (callees.map Callee.signature) f r := by
  have hname := runs_name hv hdeclares.id c.name
  obtain ⟨k, es, hfunction, hkid, hrendered⟩ := runs_function hname.valid
    (hc.imp fun _ _ hf => hf.mono _) ⟨c.name, resolve f.returnType, none⟩
    (mem_handed_append hdeclares.id _) f.parameters (List.mem_cons_of_mem 0 (List.mem_map_of_mem hf))
    ((b.words? f.code).getD [])
  have hreturn : k.returnType = c.returnType :=
    hfunction.valid.known_unique hrendered.returnType ((hdeclares.returnType.mono _).mono es)
  refine ⟨(c.name, k), _, (hname.andThen hfunction).congr ?_, ?_, hdeclares.name, ?_⟩
  · simp [hkid, functionProblems, functionOwner, hdeclares.name, Binary.body]
  · exact Prod.ext hreturn hkid
  · rw [← List.append_assoc]
    exact hrendered

end

/-- What the history of a binary comes to: names and blocks for its functions, entries and blocks for
its entrypoints. -/
structure Transcript (b : Binary) (h : List Event) (functions : List (String × Block))
    (entries : List (Entry × Block)) : Prop where
  valid : Valid b h
  summary : summary h =
    { log := functions.flatMap (fun r => r.2.instructions) ++
        entries.flatMap fun r => r.1.records ++ r.2.instructions
      problems := b.functions.flatMap (functionProblems b) ++
        b.entrypoints.flatMap (entrypointProblems b)
      reserved := functions.map (fun r => r.2.id) ++ entries.map fun r => r.2.id
      settled := functions.map (fun r => r.2.id) ++ entries.map fun r => r.2.id
      names := functions.map (fun r => (r.2.id, r.1)) ++ entries.map fun r => (r.2.id, r.1.name) }
  ofFunctions : List.Forall₂ (Defined b h (functions.map fun r => r.2.signature)) b.functions functions
  ofEntrypoints :
    List.Forall₂ (Recorded b h (functions.map fun r => r.2.signature)) b.entrypoints entries

/-- The functions get their ids first. -/
theorem runs_declareFunctions (b : Binary) :
    ∃ callees es, Runs b (fun _ => b.functions.mapM (declareFunction b)) [] callees es
        { reserved := callees.map Callee.id } ∧
      List.Forall₂ (Declares b es) b.functions callees := by
  obtain ⟨callees, es, hrun, hc⟩ := runs_mapM (I := fun _ => True) (R := Declares b)
    (S := fun _ c => { reserved := [c.id] }) (f := fun _ => declareFunction b) (g := id)
    b.functions (fun _ _ h => h) (fun _ es _ _ hc => hc.mono es)
    (fun f _ h hv _ => runs_declareFunction hv f) .nil trivial
  rw [List.map_id] at hrun
  refine ⟨callees, es, hrun.congr ?_, hc⟩
  rw [Summary.sum_zipWith hc.length_eq]
  simp [List.map_eq_flatMap]

/-- Then each of them is defined. -/
theorem runs_defineFunctions (hv : Valid b h) {callees : List Callee}
    (hc : List.Forall₂ (Declares b h) b.functions callees) :
    ∃ (functions : List (String × Block)) (es : List Event),
      Runs b (fun options => (b.functions.zip callees).forM fun e =>
          defineFunction options b callees e.1 e.2) h () es
        { log := functions.flatMap fun r => r.2.instructions
          problems := b.functions.flatMap (functionProblems b)
          settled := functions.map fun r => r.2.id
          names := functions.map fun r => (r.2.id, r.1) } ∧
      functions.map (fun r => r.2.signature) = callees.map Callee.signature ∧
      List.Forall₂ (Defined b (h ++ es) (callees.map Callee.signature)) b.functions functions := by
  obtain ⟨functions, es, hrun, hf⟩ := runs_forM
    (I := fun h => List.Forall₂ (Declares b h) b.functions callees)
    (R := fun h (e : Binary.Function × Callee) (r : String × Block) =>
      r.2.signature = e.2.signature ∧ Defined b h (callees.map Callee.signature) e.1 r)
    (S := fun e r => { log := r.2.instructions, problems := functionProblems b e.1,
                       settled := [r.2.id], names := [(r.2.id, r.1)] })
    (f := fun options e => defineFunction options b callees e.1 e.2) (b.functions.zip callees)
    (fun _ es hc => hc.imp fun _ _ hf => hf.mono es)
    (fun _ es _ _ hr => ⟨hr.1, hr.2.mono es⟩)
    (fun e he h hv hc => runs_defineFunction hv hc (List.of_mem_zip he).1 (List.forall₂_zip hc he)) hv hc
  have hfst : (b.functions.zip callees).map Prod.fst = b.functions :=
    List.map_fst_zip (Nat.le_of_eq hc.length_eq)
  have hsnd : (b.functions.zip callees).map Prod.snd = callees :=
    List.map_snd_zip (Nat.le_of_eq hc.length_eq.symm)
  refine ⟨functions, es, hrun.congr ?_, ?_, ?_⟩
  · rw [Summary.sum_zipWith hf.length_eq]
    conv_rhs => rw [← hfst, List.flatMap_map]
    simp [List.map_eq_flatMap]
  · conv_rhs => rw [← hsnd, List.map_map]
    exact map_eq_of_forall₂ hf fun _ _ hr => hr.1
  · conv => enter [2]; rw [← hfst]
    exact List.forall₂_map_left_iff.mpr (hf.imp fun _ _ hr => hr.2)

/-- **The history of a binary.**  A construction plays a history that does not depend on the options. -/
theorem exists_transcript (b : Binary) : ∃ h functions entries,
    (∀ options, build options b = after options h) ∧ Transcript b h functions entries := by
  obtain ⟨callees, es₁, hrun₁, hc⟩ := runs_declareFunctions b
  obtain ⟨functions, es₂, hrun₂, hsignatures, hfunctions⟩ := runs_defineFunctions hrun₁.valid hc
  obtain ⟨entries, es₃, hrun₃, hentries⟩ := runs_forM
    (I := fun h => List.Forall₂ (Declares b h) b.functions callees)
    (R := fun h e r => Recorded b h (callees.map Callee.signature) e r)
    (S := fun e r => { log := r.1.records ++ r.2.instructions
                       problems := entrypointProblems b e
                       reserved := [r.2.id]
                       settled := [r.2.id]
                       names := [(r.2.id, r.1.name)] })
    (f := fun options e => defineEntrypoint options b callees e) b.entrypoints
    (fun _ es hc => hc.imp fun _ _ hf => hf.mono es) (fun _ es _ _ hr => hr.mono es)
    (fun e _ h hv hc => runs_defineEntrypoint hv hc e) hrun₂.valid
    (hc.imp fun _ _ hf => hf.mono es₂)
  have hrun := hrun₁.bind (f := fun callees options => do
    (b.functions.zip callees).forM fun e => defineFunction options b callees e.1 e.2
    b.entrypoints.forM (defineEntrypoint options b callees)) (hrun₂.andThen hrun₃)
  refine ⟨es₁ ++ (es₂ ++ es₃), functions, entries, fun options => congrArg Prod.snd (hrun.result options),
    hrun.valid, ?_, ?_, ?_⟩
  · have hids : callees.map Callee.id = functions.map fun r => r.2.id := by
      have hsecond := congrArg (List.map Prod.snd) hsignatures
      rw [List.map_map, List.map_map] at hsecond
      exact hsecond.symm
    rw [hrun.summary, Summary.sum_zipWith hentries.length_eq, hids]
    simp [List.map_eq_flatMap]
  · rw [hsignatures, ← List.append_assoc]
    exact hfunctions.imp fun _ _ hr => hr.mono es₃
  · rw [hsignatures, ← List.append_assoc]
    exact hentries

end Shading.Lower
