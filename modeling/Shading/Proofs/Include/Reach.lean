import Mathlib.Logic.Relation
import Shading.Proofs.Include.Reports
import Shading.Proofs.Token.Places

/-! # Expansion reaches every file

What a text asks for is read off its directives, wherever the text stands (`TextAsks`).  Keys are
linked when a file with the one asks for a file with the other (`Leads`).  An expansion adds only
files whose keys are linked to that of the root, one after the other (`Splices.forall_key`).  If it
reports no error, then no directive that it came across was left without its file (`Reports.closed`),
so it adds all of them. -/

namespace Shading.Include

open Scan (lexeme)

/-! ### What a text asks for -/

/-- The argument of an include directive stands for this name: it is the name as a string, or a macro
that is defined as the name. -/
def StandsFor (macros : MacroTable) (argument : Token) (name : String) : Prop :=
  argument.kind = .string ∧ argument.text = name ∨
    argument.kind = .identifier ∧ macros.get? argument.text = some name

/-- The directive is an include of the file with this name. -/
def Asks (macros : MacroTable) (directive : Token) (name : String) : Prop :=
  ∃ word argument rest, Request.parts directive = word :: argument :: rest ∧
    word.isWord "include" = true ∧ StandsFor macros argument name

/-- Some directive among the tokens asks for the name. -/
def ListAsks (macros : MacroTable) (tokens : List Token) (name : String) : Prop :=
  ∃ t ∈ tokens, t.kind = .directive ∧ Asks macros t name

/-- Some directive of the text asks for the name. -/
def TextAsks (macros : MacroTable) (text name : String) : Prop :=
  ListAsks macros (Token.scan text (Point.fileStart 0) ClassSet.all) name

theorem listAsks_cons {macros : MacroTable} {t : Token} {rest : List Token} {name : String} :
    ListAsks macros (t :: rest) name ↔
      t.kind = .directive ∧ Asks macros t name ∨ ListAsks macros rest name := by
  simp only [ListAsks, List.mem_cons, or_and_right, exists_or, exists_eq_left]

theorem target?_ofArgument (macros : MacroTable) (argument : Token) (name : String) :
    (∃ place, (Request.ofArgument macros argument).target? = some ⟨name, place⟩) ↔
      StandsFor macros argument name := by
  unfold Request.ofArgument StandsFor
  cases argument.kind with
  | string => simp
  | identifier => cases macros.get? argument.text <;> simp [Request.rejected]
  | _ => simp [Request.rejected]

theorem target?_ofDirective (macros : MacroTable) (t : Token) (name : String) :
    (∃ place, (Request.ofDirective macros t).target? = some ⟨name, place⟩) ↔ Asks macros t name := by
  unfold Request.ofDirective Asks
  cases Request.parts t with
  | nil => simp [Request.rejected]
  | cons word arguments =>
      by_cases hword : word.isWord "include" = true
      · obtain ⟨hkind, htext⟩ : word.kind = .identifier ∧ word.text = "include" := by
          simpa [Token.isWord] using hword
        simp only [hkind, htext, ne_eq, not_true_eq_false, if_false, if_true]
        cases arguments with
        | nil => simp [Request.ofArguments, Request.rejected]
        | cons argument rest =>
            simp only [Request.ofArguments, target?_ofArgument]
            constructor
            · exact fun h => ⟨word, argument, rest, rfl, hword, h⟩
            · rintro ⟨_, _, _, heq, _, h⟩
              cases heq
              exact h
      · constructor
        · rintro ⟨place, h⟩
          dsimp only at h
          split_ifs at h with hkind htext
          · cases h
          · exact absurd (by simp [Token.isWord, not_not.mp hkind, htext]) hword
          · cases h
        · rintro ⟨_, _, _, heq, h, _⟩
          cases heq
          exact absurd h hword

theorem text_eq_of_lexeme {t u : Token} (h : lexeme t = lexeme u) : t.text = u.text :=
  String.toList_inj.mp (Prod.ext_iff.mp h).2

theorem kind_eq_of_lexeme {t u : Token} (h : lexeme t = lexeme u) : t.kind = u.kind :=
  (Prod.ext_iff.mp h).1

/-- What a directive asks for does not depend on its place. -/
theorem Asks.congr {macros : MacroTable} {t u : Token} {name : String} (htext : t.text = u.text)
    (h : Asks macros t name) : Asks macros u name := by
  obtain ⟨word, argument, rest, hparts, hword, hargument⟩ := h
  -- neither body starts a line, so both are scanned alike
  have hcolumn (p : Point) : p.nextColumn.column ≠ 0 := by
    have hlimit : 0 < positionLimit := by decide
    simp only [Point.nextColumn, countOn]
    omega
  have hlexemes : (Request.parts t).map lexeme = (Request.parts u).map lexeme := by
    unfold Request.parts Request.body
    rw [htext]
    exact Scan.map_lexeme_scan_congr _ _ (iff_of_false (hcolumn _) (hcolumn _))
  rw [hparts, List.map_cons, List.map_cons] at hlexemes
  obtain ⟨word', _, hparts', hword', hrest⟩ := List.map_eq_cons_iff.mp hlexemes.symm
  obtain ⟨argument', rest', rfl, hargument', _⟩ := List.map_eq_cons_iff.mp hrest
  refine ⟨word', argument', rest', hparts', ?_, ?_⟩
  · rw [Token.isWord, kind_eq_of_lexeme hword', text_eq_of_lexeme hword']
    exact hword
  · rw [StandsFor, kind_eq_of_lexeme hargument', text_eq_of_lexeme hargument']
    exact hargument

/-- A token is scanned of a text at the start of every file, whatever else is kept. -/
theorem exists_mem_scan_lexeme {text : String} {file other : Nat} {keep kept : ClassSet} {t : Token}
    (h : t ∈ Token.scan text (Point.fileStart file) keep) (hkept : kept.contains t.kind = true) :
    ∃ u ∈ Token.scan text (Point.fileStart other) kept, lexeme u = lexeme t := by
  rw [Scan.scan_eq_filter] at h
  have hmem := List.mem_map_of_mem (f := lexeme) (List.mem_of_mem_filter h)
  have hlexemes : (Token.scan text (Point.fileStart file) ClassSet.all).map lexeme =
      (Token.scan text (Point.fileStart other) ClassSet.all).map lexeme :=
    Scan.map_lexeme_scan_congr _ _ Iff.rfl
  rw [hlexemes] at hmem
  obtain ⟨u, hu, hlexeme⟩ := List.mem_map.mp hmem
  refine ⟨u, ?_, hlexeme⟩
  rw [Scan.scan_eq_filter]
  exact List.mem_filter.mpr ⟨hu, by rwa [kind_eq_of_lexeme hlexeme]⟩

theorem ListAsks.of_scan {macros : MacroTable} {text name : String} {file other : Nat}
    {keep kept : ClassSet} (hkept : kept.contains .directive = true)
    (h : ListAsks macros (Token.scan text (Point.fileStart file) keep) name) :
    ListAsks macros (Token.scan text (Point.fileStart other) kept) name := by
  obtain ⟨t, ht, hkind, hasks⟩ := h
  obtain ⟨u, hu, hlexeme⟩ := exists_mem_scan_lexeme ht (by rwa [hkind])
  exact ⟨u, hu, (kind_eq_of_lexeme hlexeme).trans hkind, hasks.congr (text_eq_of_lexeme hlexeme).symm⟩

/-- The tokens of a file ask for what its text asks for. -/
theorem listAsks_scan_iff {macros : MacroTable} {text name : String} {file : Nat} {keep : ClassSet}
    (hkeep : keep.contains .directive = true) :
    ListAsks macros (Token.scan text (Point.fileStart file) keep) name ↔ TextAsks macros text name :=
  ⟨.of_scan (by decide), .of_scan hkeep⟩

/-! ### What an expansion adds -/

/-- Every file that an expansion adds was read under its name, and its key has every property that
the keys asked for by the tokens have and that passes from a file that was read to what it asks for. -/
theorem Splices.forall_key {s : Setting} {levels n : Nat} {seen : List String}
    {tokens out : List Token} {added : List SourceFile} {P : String → Prop}
    (h : Splices s levels seen n tokens added out) (hkeep : s.keep.contains .directive = true)
    (hstep : ∀ f name, s.key f ∉ seen → s.reader.read f.name = .ok f.text → P (s.key f) →
      TextAsks s.macros f.text name → P (s.reader.includeKey name))
    (htokens : ∀ name, ListAsks s.macros tokens name → P (s.reader.includeKey name)) :
    ∀ f ∈ added, s.reader.read f.name = .ok f.text ∧ P (s.key f) := by
  induction h with
  | done => nofun
  | keep _ _ ih => exact ih hstep fun name hname => htokens name (listAsks_cons.mpr (.inr hname))
  | drop _ _ _ ih => exact ih hstep fun name hname => htokens name (listAsks_cons.mpr (.inr hname))
  | @insert _ n seen t rest _ _ f within added ht hincludes _ _ ihInner ihAfter =>
      obtain ⟨htarget, hnew, hread⟩ := hincludes
      have hasks := (target?_ofDirective s.macros t f.name).mp htarget
      have hf : P (s.key f) := htokens f.name (listAsks_cons.mpr (.inl ⟨ht, hasks⟩))
      -- more keys are taken inside the file and after it, so fewer files are left to step from
      have hinner := ihInner
        (fun g name hg => hstep g name fun hmem => hg (List.mem_append_left _ hmem))
        (fun name hname => hstep f name hnew hread hf ((listAsks_scan_iff hkeep).mp hname))
      have hafter := ihAfter
        (fun g name hg => hstep g name fun hmem => hg (List.mem_append_left _ hmem))
        (fun name hname => htokens name (listAsks_cons.mpr (.inr hname)))
      exact List.forall_mem_append.mpr ⟨List.forall_mem_cons.mpr ⟨⟨hread, hf⟩, hinner⟩, hafter⟩

/-- A directive that includes nothing and is reported without an error asks for no file but one that
was seen before. -/
theorem Fate.mem_seen {s : Setting} {levels : Nat} {seen : List String} {t : Token}
    {here : List Message} (h : Fate s levels seen t none here)
    (hquiet : ∀ m ∈ here, m.isError = false) {name : String} (hasks : Asks s.macros t name) :
    s.reader.includeKey name ∈ seen := by
  obtain ⟨place, htarget⟩ := (target?_ofDirective s.macros t name).mpr hasks
  cases h with
  | idle hnone =>
      rw [hnone] at htarget
      cases htarget
  | known hsome hseen =>
      rw [hsome] at htarget
      cases htarget
      exact hseen
  | @failed target problem _ _ hproblem =>
      have hmessage := hquiet (problem.message target.place) (by simp)
      rcases hproblem with ⟨_, rfl⟩ | ⟨_, _, _, rfl⟩ <;> cases hmessage

theorem Fate.key_eq {s : Setting} {levels : Nat} {seen : List String} {t : Token} {f : SourceFile}
    {here : List Message} (h : Fate s levels seen t (some f) here) {name : String}
    (hasks : Asks s.macros t name) : s.reader.includeKey name = s.key f := by
  obtain ⟨place, htarget⟩ := (target?_ofDirective s.macros t name).mpr hasks
  cases h with
  | included _ hincludes =>
      obtain ⟨⟨_, hsome⟩, _⟩ := hincludes
      rw [hsome] at htarget
      cases htarget
      rfl

/-- An expansion without errors takes the key of every file that its tokens or an added file ask
for. -/
theorem Reports.closed {s : Setting} {levels n : Nat} {seen : List String} {tokens : List Token}
    {added : List SourceFile} {messages : List Message}
    (h : Reports s levels seen n tokens added messages) (hkeep : s.keep.contains .directive = true)
    (hquiet : ∀ m ∈ messages, m.isError = false) :
    (∀ name, ListAsks s.macros tokens name →
      s.reader.includeKey name ∈ seen ++ added.map s.key) ∧
    ∀ f ∈ added, ∀ name, TextAsks s.macros f.text name →
      s.reader.includeKey name ∈ seen ++ added.map s.key := by
  induction h with
  | done => exact ⟨fun name ⟨t, ht, _⟩ => absurd ht List.not_mem_nil, nofun⟩
  | keep ht _ ih =>
      refine ⟨fun name hname => ?_, (ih hquiet).2⟩
      rcases listAsks_cons.mp hname with ⟨hkind, _⟩ | hname
      · exact absurd hkind ht
      · exact (ih hquiet).1 name hname
  | drop _ hfate _ ih =>
      obtain ⟨hhere, hrest⟩ := List.forall_mem_append.mp hquiet
      refine ⟨fun name hname => ?_, (ih hrest).2⟩
      rcases listAsks_cons.mp hname with ⟨_, hasks⟩ | hname
      · exact List.mem_append_left _ (hfate.mem_seen hhere hasks)
      · exact (ih hrest).1 name hname
  | @insert _ n seen t rest f within added _ _ _ _ hfate _ _ ihInner ihAfter =>
      obtain ⟨hfront, hrest⟩ := List.forall_mem_append.mp hquiet
      obtain ⟨hinside, hadded⟩ := ihInner (List.forall_mem_append.mp hfront).2
      obtain ⟨hafter, hlater⟩ := ihAfter hrest
      -- the keys taken inside the file are among all those taken
      have hwithin {key : String} (hkey : key ∈ seen ++ [s.key f] ++ within.map s.key) :
          key ∈ seen ++ (f :: within ++ added).map s.key := by
        simp only [List.map_cons, List.map_append, List.mem_append, List.mem_cons,
          List.not_mem_nil, or_false] at hkey ⊢
        tauto
      rw [List.append_assoc, ← List.map_append] at hafter hlater
      refine ⟨fun name hname => ?_, ?_⟩
      · rcases listAsks_cons.mp hname with ⟨_, hasks⟩ | hname
        · rw [hfate.key_eq hasks]
          exact List.mem_append_right _ List.mem_cons_self
        · exact hafter name hname
      · refine List.forall_mem_append.mpr ⟨List.forall_mem_cons.mpr ⟨?_, ?_⟩, hlater⟩
        · exact fun name hname => hwithin (hinside name ((listAsks_scan_iff hkeep).mpr hname))
        · exact fun g hg name hname => hwithin (hadded g hg name hname)

/-! ### Reachable files -/

/-- The key stands for a file with this text: the root under the key of the root, and under any other
what is read by a name that has the key. -/
def Holds (reader : Reader) (root : SourceFile) (key text : String) : Prop :=
  if key = reader.rootKey root.name then text = root.text
  else ∃ name, reader.includeKey name = key ∧ reader.read name = .ok text

theorem holds_root (reader : Reader) (root : SourceFile) :
    Holds reader root (reader.rootKey root.name) root.text := by
  rw [Holds, if_pos rfl]

theorem holds_of_ne {reader : Reader} {root : SourceFile} {name text : String}
    (hne : reader.includeKey name ≠ reader.rootKey root.name) (hread : reader.read name = .ok text) :
    Holds reader root (reader.includeKey name) text := by
  rw [Holds, if_neg hne]
  exact ⟨name, rfl, hread⟩

/-- A file with the one key has a directive that asks for a file with the other. -/
def Leads (reader : Reader) (macros : MacroTable) (root : SourceFile) (key other : String) : Prop :=
  ∃ text name, Holds reader root key text ∧ TextAsks macros text name ∧
    reader.includeKey name = other

/-- **Expansion reaches every file.**  Let names with one key be read to one text.  If the expansion of
a file reports no error, then the keys of that file and of those that were added are exactly the keys
that directives lead to from its own. -/
theorem expandFile_reaches {reader : Reader} {macros : MacroTable} {sources : SourceMap} {file : Nat}
    {root : SourceFile} {comments : Bool} {run : Staged (List Token) × SourceMap}
    (hroot : sources.get? file = some root)
    (hreader : ∀ name other text text', reader.includeKey name = reader.includeKey other →
      reader.read name = .ok text → reader.read other = .ok text' → text = text')
    (hrun : expandFile reader macros sources file (tokenizeFile sources file comments).value = run)
    (hquiet : run.1.errored = false) (key : String) :
    key ∈ reader.rootKey root.name ::
        (run.2.files.drop sources.files.length).map (fun f => reader.includeKey f.name) ↔
      Relation.ReflTransGen (Leads reader macros root) (reader.rootKey root.name) key := by
  obtain ⟨added, hfiles, hsplices, hreports⟩ :=
    exists_expandFile reader macros sources file (tokenizeFile sources file comments).value
  rw [hrun] at hfiles hsplices hreports
  have hadded : run.2.files.drop sources.files.length = added := by
    rw [hfiles, List.drop_left]
  have hseen : ((sources.name? file).map reader.rootKey).toList = [reader.rootKey root.name] := by
    simp [SourceMap.name?, hroot]
  have htokens (name : String) :
      ListAsks macros (tokenizeFile sources file comments).value name ↔
        TextAsks macros root.text name := by
    have htext : (sources.text? file).getD "" = root.text := by
      simp [SourceMap.text?, hroot]
    simp only [tokenizeFile, htext]
    exact listAsks_scan_iff (by cases comments <;> decide)
  have hkeep : ClassSet.withoutComments.contains .directive = true := by decide
  rw [hseen] at hsplices hreports
  rw [hadded, List.mem_cons, List.mem_map]
  have hadds : ∀ f ∈ added, reader.read f.name = .ok f.text ∧
      Relation.ReflTransGen (Leads reader macros root) (reader.rootKey root.name)
        (reader.includeKey f.name) := by
    refine hsplices.forall_key hkeep ?_ ?_
    · intro f name hnew hread hf hasks
      exact hf.tail ⟨f.text, name, holds_of_ne (hnew ∘ List.mem_singleton.mpr) hread, hasks,
        rfl⟩
    · intro name hasks
      exact .single ⟨root.text, name, holds_root reader root, (htokens name).mp hasks, rfl⟩
  obtain ⟨hclosed, hclosedAdded⟩ := hreports.closed hkeep fun m hm => by
    simpa using List.any_eq_false.mp hquiet m hm
  constructor
  · rintro (rfl | ⟨f, hf, rfl⟩)
    · exact .refl
    · exact (hadds f hf).2
  · intro hkey
    induction hkey with
    | refl => exact .inl rfl
    | @tail key _ _ hleads ih =>
        obtain ⟨text, name, hholds, hasks, rfl⟩ := hleads
        -- the file with the key is the root or one of those added, and neither is left open
        have htaken : reader.includeKey name ∈
            [reader.rootKey root.name] ++ added.map fun f => reader.includeKey f.name := by
          by_cases hkey : key = reader.rootKey root.name
          · rw [Holds, if_pos hkey] at hholds
            rw [hholds] at hasks
            exact hclosed name ((htokens name).mpr hasks)
          · rw [Holds, if_neg hkey] at hholds
            obtain ⟨other, hother, hread⟩ := hholds
            obtain ⟨f, hf, hfile⟩ := ih.resolve_left hkey
            rw [hreader other f.name text f.text (hother.trans hfile.symm) hread (hadds f hf).1] at hasks
            exact hclosedAdded f hf name hasks
        rcases List.mem_append.mp htaken with h | h
        · exact .inl (List.mem_singleton.mp h)
        · exact .inr (List.mem_map.mp h)

/-- Three files, of which two include each other, the root or themselves, one under two names and
one by a macro. -/
def ringFiles : List SourceFile :=
  [⟨"a", "#include B\n#include \"root\"\nin_a"⟩,
    ⟨"b", "#include \"c\"\n#include \"./a\"\n#include \"b\"\n#include A\n"⟩,
    ⟨"c", "in_c // #include \"d\""⟩]

/-- Reads a file by its key. -/
def ringReader : Reader where
  read name :=
    match ringFiles.find? fun f => f.name = if name = "./a" then "a" else name with
    | some f => .ok f.text
    | none => .error .notFound
  includeKey name := if name = "./a" then "a" else name

def ringMacros : MacroTable := .ofList [("A", "a"), ("B", "b")]

def ringRoot : SourceFile := ⟨"root", "/* #include \"d\" */\n#include \"./a\"\n#include B\nmain\n"⟩

def ringRun : Staged (List Token) × SourceMap :=
  expandFile ringReader ringMacros ⟨[ringRoot]⟩ 0 (tokenizeFile ⟨[ringRoot]⟩ 0 true).value

theorem expandFile_reaches_ring :
    ringRun.1.errored = false ∧ ringRun.2.names = ["root", "./a", "b", "c"] ∧
      ∀ key, Relation.ReflTransGen (Leads ringReader ringMacros ringRoot) "root" key ↔
        key ∈ ["root", "a", "b", "c"] := by
  have hquiet : ringRun.1.errored = false := by decide +kernel
  have hnames : ringRun.2.names = ["root", "./a", "b", "c"] := by decide +kernel
  have hkeys : (ringRun.2.files.drop 1).map (fun f => ringReader.includeKey f.name) =
      ["a", "b", "c"] := by
    have hadded : (ringRun.2.files.drop 1).map (fun f => ringReader.includeKey f.name) =
        (ringRun.2.names.drop 1).map ringReader.includeKey := by
      rw [SourceMap.names, ← List.map_drop, List.map_map]
      rfl
    rw [hadded, hnames]
    decide
  have hroot : SourceMap.get? ⟨[ringRoot]⟩ 0 = some ringRoot := rfl
  have hreader : ∀ name other text text', ringReader.includeKey name = ringReader.includeKey other →
      ringReader.read name = .ok text → ringReader.read other = .ok text' → text = text' := by
    intro name other text text' hkey hread hread'
    simp only [ringReader] at hkey hread hread'
    rw [hkey, hread'] at hread
    exact (Except.ok.inj hread).symm
  have hrun : expandFile ringReader ringMacros ⟨[ringRoot]⟩ 0
      (tokenizeFile ⟨[ringRoot]⟩ 0 true).value = ringRun := by
    rw [ringRun]
  refine ⟨hquiet, hnames, fun key => ?_⟩
  have hreaches := expandFile_reaches hroot hreader hrun hquiet key
  have hone : (SourceMap.mk [ringRoot]).files.length = 1 := rfl
  rw [hone, hkeys] at hreaches
  exact hreaches.symm

end Shading.Include
