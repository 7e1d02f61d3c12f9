import Shading.Proofs.Include.Reach

/-! # What becomes of a directive

A directive is replaced by a file, or it is dropped because the file was included before, because of an
error or because it is not known.  `Exit` names these ends with what each of them tells, `Due` says which
of them a directive comes to, and `Exit.leaves` what is left then: the tokens in place of the directive
and the state.  The expansion leaves what the exit that is due leaves (`splice_of_due`), some exit is due
(`exists_due`), and no two exits leave the same (`Exit.leaves_injective`). -/

namespace Shading.Include

/-! ### Directives -/

/-- The arguments of an include directive. -/
def includeArguments? (t : Token) : Option (List Token) :=
  match Request.parts t with
  | word :: arguments => if word.isWord "include" = true then some arguments else none
  | [] => none

/-- The directive asks for the file with this name; its argument stands at this place. -/
def AsksAt (macros : MacroTable) (t : Token) (name : String) (place : Span) : Prop :=
  ∃ argument rest, includeArguments? t = some (argument :: rest) ∧
    StandsFor macros argument name ∧ argument.span = place

/-- The warning about all arguments of an include directive but the first. -/
def unused (t : Token) : List Message :=
  match includeArguments? t with
  | some (_ :: first :: rest) =>
    [Message.warning (first.span.merge (rest.getLast?.getD first).span) "Unused"]
  | _ => []

/-- The end that a directive comes to. -/
inductive Exit where
  /-- The file is included. -/
  | spliced (file : SourceFile)
  /-- A file with the key of this name was included before. -/
  | known (name : String)
  /-- There is an error, with these questions put to the reader. -/
  | failed (place : Span) (text : String) (asked : List Query)
  /-- The directive is not known. -/
  | unknown (place : Span) (text : String)

/-- The end that a directive comes to, with some include levels left, from a state. -/
inductive Due (s : Setting) (levels : Nat) (p : Progress) (t : Token) : Exit → Prop
  | noName (h : Request.parts t = []) :
      Due s levels p t (.failed (Span.single t.span.start) "Expected identifier" [])
  | badName {word : Token} {arguments : List Token} (h : Request.parts t = word :: arguments)
      (hkind : word.kind ≠ .identifier) :
      Due s levels p t (.failed word.span "Expected identifier" [])
  | unknown {word : Token} {arguments : List Token} (h : Request.parts t = word :: arguments)
      (hkind : word.kind = .identifier) (htext : word.text ≠ "include") :
      Due s levels p t
        (.unknown word.span ("Unknown preprocessor directive \"" ++ word.text ++ "\""))
  | noArgument (h : includeArguments? t = some []) :
      Due s levels p t
        (.failed (Span.single t.span.last.nextColumn) "Expected string or identifier" [])
  | badArgument {argument : Token} {rest : List Token}
      (h : includeArguments? t = some (argument :: rest))
      (hkind : argument.kind ≠ .string ∧ argument.kind ≠ .identifier) :
      Due s levels p t (.failed argument.span "Expected string or identifier" [])
  | undefinedMacro {argument : Token} {rest : List Token}
      (h : includeArguments? t = some (argument :: rest)) (hkind : argument.kind = .identifier)
      (hundefined : s.macros.get? argument.text = none) :
      Due s levels p t (.failed argument.span "Macro has not been defined" [])
  | known {name : String} {place : Span} (hasks : AsksAt s.macros t name place)
      (hseen : s.reader.includeKey name ∈ p.included) : Due s levels p t (.known name)
  | tooDeep {name : String} {place : Span} (hasks : AsksAt s.macros t name place)
      (hnew : s.reader.includeKey name ∉ p.included) (hlevels : levels = 0) :
      Due s levels p t (.failed place "Include nesting is too deep" [.includeKey name])
  | unreadable {name : String} {place : Span} {cause : ReadError}
      (hasks : AsksAt s.macros t name place) (hnew : s.reader.includeKey name ∉ p.included)
      (hlevels : levels ≠ 0) (hread : s.reader.read name = .error cause) :
      Due s levels p t (.failed place ("Could not read \"" ++ name ++ "\": " ++ cause.message)
        [.includeKey name, .read name])
  | spliced {name text : String} {place : Span} (hasks : AsksAt s.macros t name place)
      (hnew : s.reader.includeKey name ∉ p.included) (hlevels : levels ≠ 0)
      (hread : s.reader.read name = .ok text) : Due s levels p t (.spliced ⟨name, text⟩)

namespace Exit

/-- What is reported at the end. -/
def reports : Exit → List Message
  | spliced _ | known _ => []
  | failed place text _ => [Message.error place text]
  | unknown place text => [Message.warning place text]

/-- The questions put to the reader up to the end. -/
def asks : Exit → List Query
  | spliced file => [.includeKey file.name, .read file.name]
  | known name => [.includeKey name]
  | failed _ _ asked => asked
  | unknown _ _ => []

/-- The tokens in place of the directive, and the state.  Only a file that is included changes more than
the messages and the questions: it is added under its key, and expanded from there. -/
def leaves (s : Setting) (expand : List Token → Expand (List Token)) (p : Progress) (t : Token)
    (e : Exit) : List Token × Progress :=
  let told : Progress :=
    { p with messages := p.messages ++ unused t ++ e.reports, queries := p.queries ++ e.asks }
  match e with
  | spliced file =>
    expand (s.tokens p.sources.files.length file)
      { told with
        sources := ⟨p.sources.files ++ [file]⟩
        included := p.included ++ [s.key file] }
  | _ => ([], told)

end Exit

/-! ### Requests -/

theorem isWord_iff {t : Token} {word : String} :
    t.isWord word = true ↔ t.kind = .identifier ∧ t.text = word := by
  simp [Token.isWord]

theorem includeArguments?_eq_some_iff {t : Token} {arguments : List Token} :
    includeArguments? t = some arguments ↔
      ∃ word, Request.parts t = word :: arguments ∧ word.isWord "include" = true := by
  unfold includeArguments?
  cases Request.parts t with
  | nil => simp
  | cons word others =>
      constructor
      · intro h
        dsimp only at h
        split at h
        case isTrue hword =>
          cases h
          exact ⟨word, rfl, hword⟩
        case isFalse => cases h
      · rintro ⟨_, heq, hword⟩
        cases heq
        exact if_pos hword

/-- An include directive asks for what its arguments say. -/
theorem ofDirective_of_include {macros : MacroTable} {t : Token} {arguments : List Token}
    (h : includeArguments? t = some arguments) :
    Request.ofDirective macros t = Request.ofArguments macros t arguments := by
  obtain ⟨word, hparts, hword⟩ := includeArguments?_eq_some_iff.mp h
  obtain ⟨hkind, htext⟩ := isWord_iff.mp hword
  simp [Request.ofDirective, hparts, hkind, htext]

/-- The warning comes before what is said of the argument. -/
theorem ofDirective_of_argument {macros : MacroTable} {t argument : Token} {rest : List Token}
    (h : includeArguments? t = some (argument :: rest)) :
    Request.ofDirective macros t =
      { Request.ofArgument macros argument with
        messages := unused t ++ (Request.ofArgument macros argument).messages } := by
  have hsurplus : Request.surplus rest = unused t := by
    unfold unused
    rw [h]
    cases rest <;> rfl
  rw [ofDirective_of_include h, Request.ofArguments, hsurplus]

theorem ofDirective_of_asksAt {macros : MacroTable} {t : Token} {name : String} {place : Span}
    (h : AsksAt macros t name place) :
    Request.ofDirective macros t = ⟨some ⟨name, place⟩, unused t⟩ := by
  obtain ⟨argument, rest, harguments, hstands, rfl⟩ := h
  rw [ofDirective_of_argument harguments]
  unfold Request.ofArgument
  rcases hstands with ⟨hkind, rfl⟩ | ⟨hkind, hdefined⟩
  · simp [hkind]
  · simp [hkind, hdefined]

theorem unused_of_not_include {t : Token} (h : includeArguments? t = none) : unused t = [] := by
  unfold unused
  rw [h]

/-! ### The step -/

theorem splice_of_asksAt {s : Setting} {deeper : Option (List Token → Expand (List Token))}
    {t : Token} {name : String} {place : Span} (h : AsksAt s.macros t name place) (p : Progress) :
    splice s deeper t p =
      openTarget s deeper ⟨name, place⟩ { p with messages := p.messages ++ unused t } := by
  have hrequest := ofDirective_of_asksAt h
  have htarget : (Request.ofDirective s.macros t).target? = some ⟨name, place⟩ := by rw [hrequest]
  rw [splice_of_target htarget, hrequest]

/-- A directive that asks for no file is dropped with one message after the warning. -/
theorem splice_of_message {s : Setting} {deeper : Option (List Token → Expand (List Token))}
    {t : Token} {m : Message} (h : Request.ofDirective s.macros t = ⟨none, unused t ++ [m]⟩)
    (p : Progress) :
    splice s deeper t p =
      ([], { p with messages := p.messages ++ unused t ++ [m], queries := p.queries ++ [] }) := by
  have htarget : (Request.ofDirective s.macros t).target? = none := by rw [h]
  rw [splice_of_no_target htarget, h, List.append_nil, List.append_assoc]

/-- A directive leaves what the exit that is due leaves, however the files are expanded. -/
theorem splice_of_due {s : Setting} {levels : Nat} {p : Progress} {t : Token} {e : Exit}
    (h : Due s levels p t e) (expand : List Token → Expand (List Token)) :
    splice s (if levels = 0 then none else some expand) t p = e.leaves s expand p t := by
  cases h with
  | noName hparts =>
      have hnone : includeArguments? t = none := by simp [includeArguments?, hparts]
      apply splice_of_message
      rw [unused_of_not_include hnone, Request.ofDirective, hparts]
      rfl
  | badName hparts hkind =>
      have hnone : includeArguments? t = none := by simp [includeArguments?, hparts, isWord_iff, hkind]
      apply splice_of_message
      rw [unused_of_not_include hnone, Request.ofDirective, hparts]
      exact if_pos hkind
  | unknown hparts hkind htext =>
      have hnone : includeArguments? t = none := by simp [includeArguments?, hparts, isWord_iff, htext]
      apply splice_of_message
      rw [unused_of_not_include hnone, Request.ofDirective, hparts]
      exact (if_neg (not_not.mpr hkind)).trans (if_neg htext)
  | noArgument harguments =>
      apply splice_of_message
      rw [ofDirective_of_include harguments]
      simp only [unused, harguments]
      rfl
  | badArgument harguments hkind =>
      apply splice_of_message
      rw [ofDirective_of_argument harguments, Request.ofArgument]
      split
      case h_1 hstring => exact absurd hstring hkind.1
      case h_2 hidentifier => exact absurd hidentifier hkind.2
      case h_3 => rfl
  | undefinedMacro harguments hkind hundefined =>
      apply splice_of_message
      rw [ofDirective_of_argument harguments, Request.ofArgument, hkind, hundefined]
      rfl
  | known hasks hseen =>
      rw [splice_of_asksAt hasks, openTarget_eq]
      dsimp only
      rw [if_pos hseen]
      simp [Exit.leaves, Exit.reports, Exit.asks]
  | tooDeep hasks hnew hlevels =>
      rw [if_pos hlevels, splice_of_asksAt hasks, openTarget_eq]
      dsimp only
      rw [if_neg hnew]
      rfl
  | @unreadable name place cause hasks hnew hlevels hread =>
      rw [if_neg hlevels, splice_of_asksAt hasks, openTarget_eq]
      dsimp only
      rw [if_neg hnew]
      simp only [hread, Exit.leaves, Exit.reports, Exit.asks, List.append_assoc]
      rfl
  | @spliced name text place hasks hnew hlevels hread =>
      rw [if_neg hlevels, splice_of_asksAt hasks, openTarget_eq]
      dsimp only
      rw [if_neg hnew]
      simp only [hread, Exit.leaves, Exit.reports, Exit.asks, List.append_assoc, List.append_nil]
      rfl

theorem below_eq (s : Setting) (levels : Nat) :
    below s levels = if levels = 0 then none else some (expandTokens s (levels - 1)) := by
  cases levels <;> rfl

theorem splice_below_of_due {s : Setting} {levels : Nat} {p : Progress} {t : Token} {e : Exit}
    (h : Due s levels p t e) :
    splice s (below s levels) t p = e.leaves s (expandTokens s (levels - 1)) p t := by
  rw [below_eq]
  exact splice_of_due h _

/-- A directive that asks for a file comes to the end that the state and the reader say. -/
theorem exists_due_of_asksAt {s : Setting} {t : Token} {name : String} {place : Span}
    (hasks : AsksAt s.macros t name place) (levels : Nat) (p : Progress) :
    ∃ e, Due s levels p t e := by
  by_cases hseen : s.reader.includeKey name ∈ p.included
  · exact ⟨_, .known hasks hseen⟩
  by_cases hlevels : levels = 0
  · exact ⟨_, .tooDeep hasks hseen hlevels⟩
  cases hread : s.reader.read name with
  | error cause => exact ⟨_, .unreadable hasks hseen hlevels hread⟩
  | ok text => exact ⟨_, .spliced hasks hseen hlevels hread⟩

theorem exists_due_of_argument {s : Setting} {t argument : Token} {rest : List Token}
    (h : includeArguments? t = some (argument :: rest)) (levels : Nat) (p : Progress) :
    ∃ e, Due s levels p t e := by
  by_cases hstring : argument.kind = .string
  · exact exists_due_of_asksAt ⟨argument, rest, h, .inl ⟨hstring, rfl⟩, rfl⟩ levels p
  by_cases hidentifier : argument.kind = .identifier
  · cases hvalue : s.macros.get? argument.text with
    | none => exact ⟨_, .undefinedMacro h hidentifier hvalue⟩
    | some name =>
        exact exists_due_of_asksAt ⟨argument, rest, h, .inr ⟨hidentifier, hvalue⟩, rfl⟩ levels p
  · exact ⟨_, .badArgument h ⟨hstring, hidentifier⟩⟩

/-- Every directive comes to some end. -/
theorem exists_due (s : Setting) (levels : Nat) (p : Progress) (t : Token) :
    ∃ e, Due s levels p t e := by
  cases hparts : Request.parts t with
  | nil => exact ⟨_, .noName hparts⟩
  | cons word arguments =>
      by_cases hkind : word.kind = .identifier
      · by_cases htext : word.text = "include"
        · have harguments : includeArguments? t = some arguments :=
            includeArguments?_eq_some_iff.mpr ⟨word, hparts, isWord_iff.mpr ⟨hkind, htext⟩⟩
          cases arguments with
          | nil => exact ⟨_, .noArgument harguments⟩
          | cons argument rest => exact exists_due_of_argument harguments levels p
        · exact ⟨_, .unknown hparts hkind htext⟩
      · exact ⟨_, .badName hparts hkind⟩

/-! ### Exits apart -/

namespace Exit

/-- The file that is included at the end. -/
def file? : Exit → Option SourceFile
  | spliced file => some file
  | _ => none

variable {s : Setting} {levels : Nat} {expand : List Token → Expand (List Token)} {p : Progress}
  {t : Token} {e e' : Exit}

/-- A directive that does not splice leaves the state alone, up to what is told and asked. -/
theorem leaves_of_file?_eq_none (h : e.file? = none) :
    e.leaves s expand p t =
      ([], { p with messages := p.messages ++ unused t ++ e.reports, queries := p.queries ++ e.asks }) := by
  cases e with
  | spliced file => cases h
  | known | failed | unknown => rfl

/-- The first file added is the one included. -/
theorem head?_files_leaves (s : Setting) (levels : Nat) (p : Progress) (t : Token) (e : Exit) :
    ((e.leaves s (expandTokens s levels) p t).2.sources.files.drop p.sources.files.length).head? = e.file? := by
  cases hfile : e.file? with
  | none =>
      rw [leaves_of_file?_eq_none hfile]
      simp
  | some file =>
      cases e with
      | spliced file' =>
          cases hfile
          unfold leaves
          obtain ⟨added, _, hadds⟩ := expandsTo_expandTokens s levels
            (s.tokens p.sources.files.length file)
            { sources := ⟨p.sources.files ++ [file]⟩
              included := p.included ++ [s.key file]
              messages := p.messages ++ unused t ++ reports (spliced file)
              queries := p.queries ++ asks (spliced file) }
          rw [hadds.files]
          simp
      | known | failed | unknown => cases hfile

theorem eq_spliced {file : SourceFile} (h : e.file? = some file) : e = spliced file := by
  cases e with
  | spliced other => rw [Option.some.inj h]
  | known | failed | unknown => cases h

/-- Where no file is included, what is told and asked says how it ended. -/
theorem eq_of_tells (hnone : e.file? = none) (hnone' : e'.file? = none)
    (hreports : e.reports = e'.reports) (hasks : e.asks = e'.asks) : e = e' := by
  cases e with
  | spliced => cases hnone
  | known name =>
      cases e' with
      | spliced => cases hnone'
      | known name' => rw [Query.includeKey.inj (List.head_eq_of_cons_eq hasks)]
      | failed | unknown => cases hreports
  | failed place text asked =>
      cases e' with
      | spliced => cases hnone'
      | known => cases hreports
      | failed place' text' asked' =>
          simp only [reports, asks, Message.error, List.cons.injEq, Message.mk.injEq] at hreports hasks
          simp only [hreports, hasks]
      | unknown => simp [reports, Message.error, Message.warning] at hreports
  | unknown place text =>
      cases e' with
      | spliced => cases hnone'
      | known => cases hreports
      | failed => simp [reports, Message.error, Message.warning] at hreports
      | unknown place' text' =>
          simp only [reports, Message.warning, List.cons.injEq, Message.mk.injEq] at hreports
          simp only [hreports]

/-- No two exits leave the same tokens and the same state. -/
theorem leaves_injective
    (h : e.leaves s (expandTokens s levels) p t = e'.leaves s (expandTokens s levels) p t) :
    e = e' := by
  have hfile : e.file? = e'.file? := by
    rw [← head?_files_leaves s levels p t e, h, head?_files_leaves]
  cases hhere : e.file? with
  | some file => rw [eq_spliced hhere, eq_spliced (hfile.symm.trans hhere)]
  | none =>
      have hthere : e'.file? = none := hfile.symm.trans hhere
      rw [leaves_of_file?_eq_none hhere, leaves_of_file?_eq_none hthere] at h
      apply eq_of_tells hhere hthere
      · exact List.append_cancel_left (congrArg (fun result => result.2.messages) h)
      · exact List.append_cancel_left (congrArg (fun result => result.2.queries) h)

end Exit

/-! ### The ends of a directive -/

/-- The directive is an include with two arguments or more. -/
def HasSurplus (t : Token) : Prop :=
  ∃ arguments, includeArguments? t = some arguments ∧ 2 ≤ arguments.length

theorem unused_of_hasSurplus {t : Token} (h : HasSurplus t) :
    ∃ place, unused t = [Message.warning place "Unused"] := by
  obtain ⟨arguments, harguments, hlength⟩ := h
  unfold unused
  rw [harguments]
  match arguments, hlength with
  | _ :: first :: rest, _ => exact ⟨_, rfl⟩

theorem unused_of_not_hasSurplus {t : Token} (h : ¬HasSurplus t) : unused t = [] := by
  unfold unused
  split
  case h_1 argument first rest harguments =>
    exact absurd ⟨_, harguments, Nat.le_add_left 2 rest.length⟩ h
  case h_2 => rfl

/-- **Every directive comes to one end.**  From every state and with any number of include levels left,
exactly one exit leaves what the expansion of a directive leaves, and that exit is due: a file is added
under its key and expanded in place of the directive, or the state stays as it is, with nothing told
about a file that was included before, one error, or one warning about a directive that is not known.
A warning about surplus arguments comes first, for an include with two arguments or more and for no
other directive.  After a read that failed, a later directive for the same name can include the file. -/
theorem splice_exits (s : Setting) (levels : Nat) (p : Progress) (t : Token) :
    (∃ e, Due s levels p t e ∧
      ∀ e', splice s (below s levels) t p = e'.leaves s (expandTokens s (levels - 1)) p t ↔
        e' = e) ∧
    (HasSurplus t → ∃ place, unused t = [Message.warning place "Unused"]) ∧
    (¬HasSurplus t → unused t = []) ∧
    ∀ name place cause, AsksAt s.macros t name place → s.reader.includeKey name ∉ p.included →
      levels ≠ 0 → s.reader.read name = .error cause →
      ∀ (later : Setting) (left : Nat) (u : Token) (there : Span) (text : String),
        later.reader.includeKey name = s.reader.includeKey name → left ≠ 0 →
        AsksAt later.macros u name there → later.reader.read name = .ok text →
        let q := (splice s (below s levels) t p).2
        splice later (below later left) u q =
          (Exit.spliced ⟨name, text⟩).leaves later (expandTokens later (left - 1)) q u := by
  refine ⟨?_, unused_of_hasSurplus, unused_of_not_hasSurplus, ?_⟩
  · obtain ⟨e, hdue⟩ := exists_due s levels p t
    refine ⟨e, hdue, fun e' => ?_⟩
    rw [splice_below_of_due hdue]
    constructor
    · intro h
      exact (Exit.leaves_injective h).symm
    · rintro rfl
      rfl
  · intro name place cause hasks hnew hlevels hread later left u there text hkey hleft hlater htext q
    have hq : q.included = p.included := by
      have hsplice := splice_below_of_due (.unreadable hasks hnew hlevels hread)
      exact congrArg (fun result => result.2.included) hsplice
    apply splice_below_of_due
    apply Due.spliced hlater _ hleft htext
    rw [hkey, hq]
    exact hnew

/-- An include of one file with two arguments too many. -/
def surplusDirective : Token :=
  ⟨.directive, ⟨⟨0, 0, 0, 0⟩, ⟨0, 18, 0, 18⟩⟩, "#include \"gone\" x 1"⟩

/-- A reader that has the file or does not have it. -/
def fleetingSetting (there : Bool) : Setting where
  reader := { read := fun _ => if there then .ok "found" else .error .notFound }
  macros := {}
  keep := ClassSet.withoutComments

/-- The file is not there at first, and is included later. -/
theorem splice_exits_fleeting :
    let missing := splice (fleetingSetting false) (below (fleetingSetting false) 1) surplusDirective {}
    let found :=
      splice (fleetingSetting true) (below (fleetingSetting true) 1) surplusDirective missing.2
    HasSurplus surplusDirective ∧
      missing.2.messages.map (·.text) = ["Unused", "Could not read \"gone\": no such file"] ∧
      missing.2.included = [] ∧
      found = (Exit.spliced ⟨"gone", "found"⟩).leaves (fleetingSetting true)
        (expandTokens (fleetingSetting true) 0) missing.2 surplusDirective ∧
      found.1.map (·.text) = ["found"] ∧ found.2.included = ["gone"] := by
  intro missing found
  have harguments : includeArguments? surplusDirective =
      some [⟨.string, ⟨⟨0, 10, 0, 10⟩, ⟨0, 13, 0, 13⟩⟩, "gone"⟩,
        ⟨.identifier, ⟨⟨0, 16, 0, 16⟩, ⟨0, 16, 0, 16⟩⟩, "x"⟩,
        ⟨.integer, ⟨⟨0, 18, 0, 18⟩, ⟨0, 18, 0, 18⟩⟩, "1"⟩] := by
    decide +kernel
  have hasks (there : Bool) : AsksAt (fleetingSetting there).macros surplusDirective "gone"
      ⟨⟨0, 10, 0, 10⟩, ⟨0, 13, 0, 13⟩⟩ :=
    ⟨_, _, harguments, .inl ⟨rfl, rfl⟩, rfl⟩
  have hexits := splice_exits (fleetingSetting false) 1 {} surplusDirective
  refine ⟨⟨_, harguments, by decide⟩, by decide +kernel, by decide +kernel, ?_, by decide +kernel,
    by decide +kernel⟩
  exact hexits.2.2.2 "gone" _ .notFound (hasks false) List.not_mem_nil (by decide) rfl
    (fleetingSetting true) 1 surplusDirective _ "found" rfl (by decide) (hasks true) rfl

end Shading.Include
