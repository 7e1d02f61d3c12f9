import Shading.Proofs.Grammar.Building
import Shading.Proofs.Include.Reports
import Shading.Proofs.Stage.Verdict
import Shading.Proofs.Token.Places

/-! # Where messages point

Every message of the front end is about a token of one of its files, about a part of a directive, or
about the end of the tokens.  The tokens were counted off from the start of their files, so the ends of
their spans are places of the text (`Span.Lies`).  So are the ends of all other spans but one: the point
just past the last token is taken to be on the line on which the token ends, which it is not if the
token ends with a line break. -/

namespace Shading

open Scan (encoded encoded_append length_encoded_append)

/-! ### Points and spans of a text -/

namespace Point

/-- The point is a place of the text of a file, or the end of the text. -/
def Lies (p : Point) (file : Nat) (text : String) : Prop :=
  ∃ front, front <+: Text.utf8Bytes text ∧ p = behind file front

/-- Line and column go with the byte offset: the line is the number of line breaks before it, and the
column the number of bytes since the last of them. -/
def Derived (p : Point) (text : String) : Prop :=
  p.line = ((Text.utf8Bytes text).take p.index).count breakByte ∧
    p.column = (lastLine ((Text.utf8Bytes text).take p.index)).length

instance (p : Point) (text : String) : Decidable (p.Derived text) :=
  inferInstanceAs (Decidable (_ ∧ _))

variable {p q : Point} {file : Nat} {text : String}

theorem Lies.file_eq (h : p.Lies file text) : p.file = file := by
  obtain ⟨front, _, rfl⟩ := h
  rfl

theorem Lies.index_le (h : p.Lies file text) : p.index ≤ text.utf8ByteSize := by
  obtain ⟨front, hfront, rfl⟩ := h
  rw [← Scan.length_utf8Bytes]
  exact hfront.length_le

theorem Lies.derived (h : p.Lies file text) : p.Derived text := by
  obtain ⟨front, hfront, rfl⟩ := h
  have htake : (Text.utf8Bytes text).take (behind file front).index = front :=
    (List.prefix_iff_eq_take.mp hfront).symm
  rw [Derived, htake]
  exact ⟨rfl, rfl⟩

/-- Along a line the columns go up. -/
theorem Lies.column_le (hp : p.Lies file text) (hq : q.Lies file text) (hindex : p.index ≤ q.index)
    (hline : p.line = q.line) : p.column ≤ q.column := by
  obtain ⟨front, hfront, rfl⟩ := hp
  obtain ⟨longer, hlonger, rfl⟩ := hq
  obtain ⟨more, rfl⟩ := List.prefix_of_prefix_length_le hfront hlonger hindex
  have hcount : front.count breakByte = (front ++ more).count breakByte := hline
  rw [List.count_append] at hcount
  have hmore : breakByte ∉ more := List.count_eq_zero.mp (by omega)
  show (lastLine front).length ≤ (lastLine (front ++ more)).length
  rw [lastLine_append_of_notMem hmore, List.length_append]
  exact Nat.le_add_right _ _

/-- The next column is a place if the byte between is no line break. -/
theorem lies_nextColumn {bytes : List UInt8} {byte : UInt8}
    (h : bytes ++ [byte] <+: Text.utf8Bytes text) (hsize : text.utf8ByteSize < UInt32.size)
    (hbyte : byte ≠ breakByte) : (behind file bytes).nextColumn.Lies file text := by
  rw [← Scan.length_utf8Bytes] at hsize
  exact ⟨bytes ++ [byte], h, nextColumn_behind hbyte (Nat.lt_of_le_of_lt h.length_le hsize)⟩

/-- The next column goes with no offset if the byte between is a line break. -/
theorem not_derived_nextColumn {bytes : List UInt8}
    (h : bytes ++ [breakByte] <+: Text.utf8Bytes text) (hsize : text.utf8ByteSize < UInt32.size) :
    ¬ (behind file bytes).nextColumn.Derived text := by
  rintro ⟨hline, _⟩
  rw [← Scan.length_utf8Bytes] at hsize
  have hlength := Nat.lt_of_le_of_lt h.length_le hsize
  rw [List.length_append] at hlength
  have hindex : (behind file bytes).nextColumn.index = (bytes ++ [breakByte]).length := by
    rw [List.length_append]
    exact Scan.countOn_eq hlength
  rw [hindex, ← List.prefix_iff_eq_take.mp h, List.count_append, List.count_singleton_self] at hline
  -- the line is still that of the bytes before the line break
  have hstill : (behind file bytes).nextColumn.line = bytes.count breakByte := rfl
  omega

end Point

/-- The ends of the span are places of the text of a file, in order. -/
structure Span.Lies (span : Span) (file : Nat) (text : String) : Prop where
  start : span.start.Lies file text
  last : span.last.Lies file text
  ordered : span.start.index ≤ span.last.index

namespace Span.Lies

variable {p : Point} {s t : Span} {file : Nat} {text : String}

theorem single (h : p.Lies file text) : (Span.single p).Lies file text := ⟨h, h, le_rfl⟩

theorem merge (hs : s.Lies file text) (ht : t.Lies file text) : (s.merge t).Lies file text := by
  have hfile : s.start.file = t.start.file := hs.start.file_eq.trans ht.start.file_eq.symm
  have hfile' : s.last.file = t.last.file := hs.last.file_eq.trans ht.last.file_eq.symm
  have hle : ∀ {p q : Point}, p.file = q.file → (p ≤ q ↔ p.index ≤ q.index) := by
    intro p q h
    show p.file < q.file ∨ p.file = q.file ∧ p.index ≤ q.index ↔ p.index ≤ q.index
    omega
  have hordered := hs.ordered
  have hordered' := ht.ordered
  unfold Span.merge Point.earlier Point.later
  simp only [hle hfile, hle hfile']
  refine ⟨?_, ?_, ?_⟩
  · show Point.Lies (if _ then _ else _) file text
    split
    · exact hs.start
    · exact ht.start
  · show Point.Lies (if _ then _ else _) file text
    split
    · exact ht.last
    · exact hs.last
  · show Point.index (if _ then _ else _) ≤ Point.index (if _ then _ else _)
    split <;> split <;> omega

end Span.Lies

/-- The message points at the start of a span of the text. -/
def Message.SitedIn (m : Message) (file : Nat) (text : String) : Prop :=
  m.span.Lies file text ∧ m.point = m.span.start

/-! ### Tokens -/

namespace Token.LiesIn

variable {t : Token} {file : Nat} {text : String}

/-- The last byte of a token and the bytes before it. -/
theorem exists_last (h : t.LiesIn file text) :
    ∃ bytes byte, bytes ++ [byte] <+: Text.utf8Bytes text ∧ t.span.last = Point.behind file bytes ∧
      (byte = breakByte ↔ t.text.toList.getLast? = some '\n') := by
  obtain ⟨front, after, htext, hstands⟩ := h
  obtain ⟨init, c, hchars, hlast⟩ := hstands.exists_concat
  have hne := Scan.utf8EncodeChar_ne_nil c
  have hchar : leading c ++ [(String.utf8EncodeChar c).getLast hne] = encoded [c] := by
    rw [leading, List.dropLast_append_getLast, Scan.encoded_single]
  refine ⟨_, (String.utf8EncodeChar c).getLast hne, ?_, hlast, ?_⟩
  · rw [List.append_assoc, hchar, ← encoded_append, Scan.utf8Bytes_eq_encoded, htext, hchars,
      ← List.append_assoc front, encoded_append _ after]
    exact List.prefix_append _ _
  · rw [hchars, List.getLast?_concat, Option.some.injEq]
    constructor
    · intro hbyte
      by_contra hc
      exact breakByte_notMem_of_ne hc (hbyte ▸ List.getLast_mem hne)
    · rintro rfl
      rfl

theorem span (h : t.LiesIn file text) : t.span.Lies file text := by
  obtain ⟨bytes, byte, hbytes, hlast, _⟩ := h.exists_last
  obtain ⟨front, after, htext, hstands⟩ := h
  refine ⟨⟨encoded front, ?_, hstands.start⟩, ⟨bytes, ?_, hlast⟩, ?_⟩
  · rw [Scan.utf8Bytes_eq_encoded, htext, List.append_assoc, encoded_append]
    exact List.prefix_append _ _
  · exact (List.prefix_append _ _).trans hbytes
  · obtain ⟨init, c, _, hlast'⟩ := hstands.exists_concat
    rw [hstands.start, hlast', encoded_append, List.append_assoc]
    show (encoded front).length ≤ (encoded front ++ _).length
    rw [List.length_append]
    exact Nat.le_add_right _ _

end Token.LiesIn

/-! ### Directives -/

namespace Include

variable {t : Token} {file : Nat} {text : String} {body : List Char}

theorem liesIn_of_mem_parts (ht : t.LiesIn file text) (hbody : t.text.toList = '#' :: body)
    (hsize : text.utf8ByteSize < UInt32.size) : ∀ u ∈ Request.parts t, u.LiesIn file text := by
  intro u hu
  obtain ⟨front, after, htext, hstands⟩ := ht
  have hrest : text.toList = front ++ ['#'] ++ body ++ after := by
    rw [htext, hbody]
    simp
  rw [← Scan.length_utf8Bytes, Scan.utf8Bytes_eq_encoded, hrest, length_encoded_append] at hsize
  have hsign : t.span.start.nextColumn = Point.behind file (encoded (front ++ ['#'])) := by
    have hsingle : encoded ['#'] = [0x23] := by decide
    rw [length_encoded_append, encoded_append, hsingle] at hsize
    rw [hstands.start, encoded_append, hsingle]
    exact Point.nextColumn_behind (by decide) (by omega)
  have hchars : (Request.body t).toList = body := by
    rw [Request.body, hbody]
    exact String.toList_ofList
  unfold Request.parts at hu
  rw [hsign] at hu
  obtain ⟨before, behind, hsplit, hu⟩ := Scan.exists_stands_of_mem_scan hu (by rw [hchars]; omega)
  refine ⟨front ++ ['#'] ++ before, behind ++ after, ?_, hu⟩
  rw [hrest, ← hchars, hsplit]
  simp

/-- All that a request tells of lies in the text. -/
structure Request.LiesIn (r : Request) (file : Nat) (text : String) : Prop where
  messages : ∀ m ∈ r.messages, m.SitedIn file text
  target : ∀ target, r.target? = some target → target.place.Lies file text

theorem Request.liesIn_rejected {span : Span} (problem : Problem) (h : span.Lies file text) :
    (Request.rejected problem span).LiesIn file text := by
  refine ⟨fun m hm => ?_, nofun⟩
  rw [List.mem_singleton.mp hm]
  exact ⟨h, rfl⟩

theorem Request.liesIn_ofArgument (macros : MacroTable) {argument : Token}
    (h : argument.LiesIn file text) : (Request.ofArgument macros argument).LiesIn file text := by
  have hnamed : ∀ name, Request.LiesIn ⟨some ⟨name, argument.span⟩, []⟩ file text := by
    refine fun name => ⟨nofun, fun target htarget => ?_⟩
    cases htarget
    exact h.span
  unfold Request.ofArgument
  split
  · exact hnamed _
  · split
    · exact hnamed _
    · exact liesIn_rejected _ h.span
  · exact liesIn_rejected _ h.span

theorem sitedIn_of_mem_surplus {arguments : List Token}
    (h : ∀ u ∈ arguments, u.LiesIn file text) :
    ∀ m ∈ Request.surplus arguments, m.SitedIn file text := by
  cases arguments with
  | nil => nofun
  | cons first rest =>
      intro m hm
      rw [Request.surplus, List.mem_singleton] at hm
      obtain ⟨hfirst, hrest⟩ := List.forall_mem_cons.mp h
      have hlast : (rest.getLast?.getD first).LiesIn file text := by
        cases hlast : rest.getLast? with
        | none => exact hfirst
        | some last => exact hrest last (List.mem_of_getLast? hlast)
      rw [hm]
      exact ⟨hfirst.span.merge hlast.span, rfl⟩

theorem Request.liesIn_ofDirective (macros : MacroTable) (ht : t.LiesIn file text)
    (hbody : t.text.toList = '#' :: body) (hbreak : '\n' ∉ body)
    (hsize : text.utf8ByteSize < UInt32.size) : (Request.ofDirective macros t).LiesIn file text := by
  have hparts := liesIn_of_mem_parts ht hbody hsize
  have hend : t.span.last.nextColumn.Lies file text := by
    obtain ⟨bytes, byte, hbytes, hlast, hbyte⟩ := ht.exists_last
    rw [hlast]
    refine Point.lies_nextColumn hbytes hsize fun h => ?_
    have hmem := List.mem_of_getLast? (hbyte.mp h)
    rw [hbody] at hmem
    simp [hbreak] at hmem
  unfold Request.ofDirective
  cases hcons : Request.parts t with
  | nil => exact liesIn_rejected _ (.single ht.span.start)
  | cons name arguments =>
      rw [hcons] at hparts
      obtain ⟨hname, harguments⟩ := List.forall_mem_cons.mp hparts
      dsimp only
      split_ifs
      · exact liesIn_rejected _ hname.span
      · cases arguments with
        | nil => exact liesIn_rejected _ (.single hend)
        | cons argument rest =>
            obtain ⟨hargument, hrest⟩ := List.forall_mem_cons.mp harguments
            have hrequest := liesIn_ofArgument macros hargument
            exact ⟨List.forall_mem_append.mpr ⟨sitedIn_of_mem_surplus hrest, hrequest.messages⟩,
              hrequest.target⟩
      · exact liesIn_rejected _ hname.span

theorem Concerns.sitedIn {s : Setting} {m : Message} (h : Concerns s t m)
    (hrequest : (Request.ofDirective s.macros t).LiesIn file text) : m.SitedIn file text := by
  cases h with
  | request hm => exact hrequest.messages m hm
  | target htarget problem => exact ⟨hrequest.target _ htarget, rfl⟩

end Include

/-! ### Stages -/

/-- The token is one of those of a file of the map. -/
def SourceMap.Scanned (map : SourceMap) (t : Token) : Prop :=
  ∃ file f keep, map.get? file = some f ∧ t ∈ Token.scan f.text (Point.fileStart file) keep

theorem get?_of_prefix {map more : SourceMap} {file : Nat} {f : SourceFile}
    (hmore : map.files <+: more.files) (h : map.get? file = some f) : more.get? file = some f := by
  obtain ⟨added, hadded⟩ := hmore
  have hlt := (List.getElem?_eq_some_iff.mp h).1
  rw [SourceMap.get?, ← hadded, List.getElem?_append_left hlt]
  exact h

theorem SourceMap.Scanned.mono {map more : SourceMap} {t : Token} (h : map.Scanned t)
    (hmore : map.files <+: more.files) : more.Scanned t := by
  obtain ⟨file, f, keep, hfile, ht⟩ := h
  exact ⟨file, f, keep, get?_of_prefix hmore hfile, ht⟩

theorem SourceMap.Scanned.exists_liesIn {map : SourceMap} {t : Token} (h : map.Scanned t)
    (hsize : ∀ f ∈ map.files, f.text.utf8ByteSize < UInt32.size) :
    ∃ file f, map.get? file = some f ∧ t.LiesIn file f.text := by
  obtain ⟨file, f, keep, hfile, ht⟩ := h
  exact ⟨file, f, hfile, liesIn_of_mem_scan ht (hsize f (List.mem_of_getElem? hfile))⟩

section

variable (reader : Reader) (macros : MacroTable) (comments : Bool) (sources : SourceMap)
  (file : Nat)

theorem scanned_tokenizeFile :
    ∀ t ∈ (tokenizeFile sources file comments).value, sources.Scanned t := by
  intro t ht
  simp only [tokenizeFile, SourceMap.text?] at ht
  cases hfile : sources.get? file with
  | none =>
      -- no file, no tokens
      rw [hfile] at ht
      simp [Token.scan_eq, Scan.scanFrom, Scan.Pending.finish] at ht
  | some f =>
      rw [hfile] at ht
      exact ⟨file, f, _, hfile, ht⟩

/-- The files of a run whose stages are all run. -/
def allSources : SourceMap :=
  (expandFile reader macros sources file (tokenizeFile sources file comments).value).2

theorem prefix_allSources : sources.files <+: (allSources reader macros comments sources file).files := by
  obtain ⟨added, hfiles, _⟩ :=
    Include.exists_expandFile reader macros sources file (tokenizeFile sources file comments).value
  exact ⟨added, hfiles.symm⟩

/-- What an expansion comes across are tokens of its files. -/
theorem scanned_of_met {s : Include.Setting} {sources after : SourceMap} {tokens : List Token}
    {added : List SourceFile} {t : Token} (hfiles : after.files = sources.files ++ added)
    (htokens : ∀ t ∈ tokens, sources.Scanned t)
    (h : Include.Met s sources.files.length tokens added t) : after.Scanned t := by
  rcases h with ht | ⟨i, f, hf, ht⟩
  · exact (htokens t ht).mono ⟨added, hfiles.symm⟩
  · refine ⟨sources.files.length + i, f, s.keep, ?_, ht⟩
    rw [SourceMap.get?, hfiles, List.getElem?_append_right (Nat.le_add_right _ _),
      Nat.add_sub_cancel_left, hf]

theorem scanned_expanded :
    ∀ t ∈ (course reader macros comments sources file).expanded.value,
      (allSources reader macros comments sources file).Scanned t := by
  intro t ht
  obtain ⟨added, hfiles, hsplices, _⟩ :=
    Include.exists_expandFile reader macros sources file (tokenizeFile sources file comments).value
  exact scanned_of_met hfiles (scanned_tokenizeFile comments sources file) (hsplices.met t ht)

/-- What the message is about: a token, what a directive asks for, or the end of the tokens. -/
inductive Subject (map : SourceMap) (tokens : List Token) : Message → Prop
  | token {t : Token} (h : map.Scanned t) (text : String) :
      Subject map tokens (Message.error t.span text)
  | directive {s : Include.Setting} {t : Token} {m : Message} (h : map.Scanned t)
      (hkind : t.kind = .directive) (hm : Include.Concerns s t m) : Subject map tokens m
  | pastEnd {t : Token} (h : map.Scanned t) (hlast : tokens.getLast? = some t) (text : String) :
      Subject map tokens (Message.error (Span.single t.span.last.nextColumn) text)

theorem subject_of_mem_scanned {map : SourceMap} (hmap : sources.files <+: map.files)
    (tokens : List Token) :
    ∀ m ∈ (tokenizeFile sources file comments).messages, Subject map tokens m := by
  intro m hm
  obtain ⟨t, ht, rfl⟩ := List.mem_map.mp hm
  exact .token ((scanned_tokenizeFile comments sources file t (List.mem_of_mem_filter ht)).mono hmap) _

theorem subject_of_mem_expanded (tokens : List Token) :
    ∀ m ∈ (course reader macros comments sources file).expanded.messages,
      Subject (allSources reader macros comments sources file) tokens m := by
  intro m hm
  obtain ⟨added, hfiles, _, hreports⟩ :=
    Include.exists_expandFile reader macros sources file (tokenizeFile sources file comments).value
  obtain ⟨t, hmet, hkind, hconcerns⟩ := hreports.concerns m hm
  exact .directive (scanned_of_met hfiles (scanned_tokenizeFile comments sources file) hmet) hkind
    hconcerns

theorem subject_of_mem_parsed :
    let c := course reader macros comments sources file
    ∀ m ∈ c.parsed.messages,
      Subject (allSources reader macros comments sources file) c.expanded.value m := by
  intro c m hm
  obtain ⟨span, problem, rfl, hspan⟩ := Grammar.mem_parse_messages hm
  have hscanned := scanned_expanded reader macros comments sources file
  rcases hspan with ⟨t, ht, rfl⟩ | ⟨t, hlast, rfl⟩
  · exact .token (hscanned t ht) _
  · exact .pastEnd (hscanned t (List.mem_of_getLast? hlast)) hlast _

/-- The files and messages of a run: only the given files if scanning failed. -/
theorem frontEnd_sources :
    let run := frontEnd reader macros comments sources file
    let c := course reader macros comments sources file
    (run.sources = sources ∧ run.messages = c.scanned.messages) ∨
      (run.sources = allSources reader macros comments sources file ∧
        ∀ m ∈ run.messages,
          m ∈ c.scanned.messages ∨ m ∈ c.expanded.messages ∨ m ∈ c.parsed.messages) := by
  intro run c
  by_cases hscanned : (tokenizeFile sources file comments).errored = true
  · left
    simp [run, c, frontEnd, course, Staged.result, hscanned]
  · right
    simp only [run, c, frontEnd, course, allSources, Staged.result, if_neg hscanned]
    by_cases hexpanded : (expandFile reader macros sources file
        (tokenizeFile sources file comments).value).1.errored = true
    · simp only [if_pos hexpanded, List.mem_append, true_and]
      exact fun m h => h.imp_right .inl
    · simp only [if_neg hexpanded, List.mem_append, or_assoc, true_and]
      exact fun m h => h

theorem prefix_frontEnd : (frontEnd reader macros comments sources file).sources.files <+:
    (allSources reader macros comments sources file).files := by
  rcases frontEnd_sources reader macros comments sources file with ⟨hsources, _⟩ | ⟨hsources, _⟩
  · rw [hsources]
    exact prefix_allSources ..
  · rw [hsources]

/-- Every message of the front end has a subject in its files. -/
theorem subject_of_mem_frontEnd {m : Message}
    (h : m ∈ (frontEnd reader macros comments sources file).messages) :
    Subject (frontEnd reader macros comments sources file).sources
      (course reader macros comments sources file).expanded.value m := by
  rcases frontEnd_sources reader macros comments sources file with
    ⟨hsources, hmessages⟩ | ⟨hsources, hmessages⟩
  · rw [hmessages] at h
    rw [hsources]
    exact subject_of_mem_scanned comments sources file (List.prefix_refl _) _ m h
  · rw [hsources]
    rcases hmessages m h with h | h | h
    · exact subject_of_mem_scanned comments sources file (prefix_allSources ..) _ m h
    · exact subject_of_mem_expanded reader macros comments sources file _ m h
    · exact subject_of_mem_parsed reader macros comments sources file m h

end

/-! ### Where the messages of the front end point -/

/-- The last token ends with a line break. -/
def EndsWithBreak (tokens : List Token) : Prop :=
  ∃ t, tokens.getLast? = some t ∧ t.text.toList.getLast? = some '\n'

/-- Line and column of the point just past a last token that ends with a line break go with no
offset. -/
theorem not_derived_pastEnd {map : SourceMap} {tokens : List Token} {f : SourceFile}
    (hscanned : ∀ t ∈ tokens, map.Scanned t) (hbreak : EndsWithBreak tokens)
    (hfile : map.get? (Grammar.pastEnd tokens).start.file = some f)
    (hsize : f.text.utf8ByteSize < UInt32.size) : ¬ (Grammar.pastEnd tokens).start.Derived f.text := by
  obtain ⟨t, hlast, hchar⟩ := hbreak
  obtain ⟨number, g, keep, hnumber, ht⟩ := hscanned t (List.mem_of_getLast? hlast)
  have hend : Grammar.pastEnd tokens = Span.single t.span.last.nextColumn := by
    rw [Grammar.pastEnd, hlast]
  have hlastFile : t.span.last.file = number := (Scan.files_of_mem_scan ht).2
  obtain rfl : g = f := by
    rw [hend, show (Span.single t.span.last.nextColumn).start.file = t.span.last.file from rfl,
      hlastFile, hnumber] at hfile
    exact Option.some.inj hfile
  obtain ⟨bytes, byte, hbytes, hspan, hbyte⟩ := (liesIn_of_mem_scan ht hsize).exists_last
  rw [hbyte.mpr hchar] at hbytes
  rw [hend, hspan]
  exact Point.not_derived_nextColumn hbytes hsize

/-- What is known of the place of a message from its subject. -/
theorem Subject.exists_place {map : SourceMap} {tokens : List Token} {m : Message}
    (h : Subject map tokens m) (hsize : ∀ f ∈ map.files, f.text.utf8ByteSize < UInt32.size) :
    ∃ file f, map.get? file = some f ∧ m.point = m.span.start ∧
      (m.span.Lies file f.text ∨ EndsWithBreak tokens ∧ m.span = Grammar.pastEnd tokens ∧
        ∃ bytes, bytes ++ [breakByte] <+: Text.utf8Bytes f.text ∧
          m.span = Span.single (Point.behind file bytes).nextColumn) := by
  cases h with
  | token ht text =>
      obtain ⟨file, f, hfile, hlies⟩ := ht.exists_liesIn hsize
      exact ⟨file, f, hfile, rfl, .inl hlies.span⟩
  | @directive s _ _ ht hkind hm =>
      obtain ⟨file, f, keep, hfile, ht⟩ := ht
      have hroom := hsize f (List.mem_of_getElem? hfile)
      obtain ⟨body, hbody, hbreak⟩ := Scan.exists_body_of_mem_scan ht hkind
      have hrequest := Include.Request.liesIn_ofDirective s.macros (liesIn_of_mem_scan ht hroom) hbody
        hbreak hroom
      obtain ⟨hspan, hpoint⟩ := hm.sitedIn hrequest
      exact ⟨file, f, hfile, hpoint, .inl hspan⟩
  | @pastEnd t ht hlast text =>
      obtain ⟨file, f, hfile, hlies⟩ := ht.exists_liesIn hsize
      obtain ⟨bytes, byte, hbytes, hspan, hbyte⟩ := hlies.exists_last
      have hend : Grammar.pastEnd tokens = Span.single (Point.behind file bytes).nextColumn := by
        rw [Grammar.pastEnd, hlast, ← hspan]
      rw [hspan]
      refine ⟨file, f, hfile, rfl, ?_⟩
      by_cases hbreak : byte = breakByte
      · rw [hbreak] at hbytes
        exact .inr ⟨⟨t, hlast, hbyte.mp hbreak⟩, hend.symm, bytes, hbytes, rfl⟩
      · have hroom := hsize f (List.mem_of_getElem? hfile)
        exact .inl (.single (Point.lies_nextColumn hbytes hroom hbreak))

variable {reader : Reader} {macros : MacroTable} {comments : Bool} {sources : SourceMap} {file : Nat}
  {run : FrontEnd}

/-- **Spans of messages are sound.**  The span of a message of the front end lies within one of its
files and is in order, also by its columns if it is on one line. -/
theorem frontEnd_spans (hrun : frontEnd reader macros comments sources file = run)
    (hsize : ∀ f ∈ run.sources.files, f.text.utf8ByteSize < UInt32.size) :
    ∀ m ∈ run.messages, ∃ f, run.sources.get? m.span.start.file = some f ∧
      m.span.last.file = m.span.start.file ∧ m.span.start ≤ m.span.last ∧
      m.span.last.index ≤ f.text.utf8ByteSize ∧
      (m.span.start.line = m.span.last.line → m.span.start.column ≤ m.span.last.column) := by
  subst hrun
  intro m hm
  obtain ⟨number, f, hfile, _, hplace⟩ :=
    (subject_of_mem_frontEnd reader macros comments sources file hm).exists_place hsize
  rcases hplace with hlies | ⟨_, _, bytes, hbytes, hspan⟩
  · have hstart := hlies.start.file_eq
    have hlast := hlies.last.file_eq
    refine ⟨f, by rwa [hstart], hlast.trans hstart.symm, .inr ⟨hstart.trans hlast.symm, hlies.ordered⟩,
      hlies.last.index_le, hlies.start.column_le hlies.last hlies.ordered⟩
  · rw [hspan]
    refine ⟨f, hfile, rfl, .inr ⟨rfl, le_rfl⟩, ?_, fun _ => le_rfl⟩
    rw [← Scan.length_utf8Bytes]
    have hlength := hbytes.length_le
    rw [List.length_append, List.length_singleton] at hlength
    exact (Nat.min_le_left _ _).trans hlength

/-- Reads one file, with a directive that is not known. -/
def siteReader : Reader where
  read := fun name => if name = "a" then .ok "T g(T x);\n#use é\n" else .error .notFound

/-- An include with arguments to spare, and an open string that ends with a line break. -/
def siteSources : SourceMap := ⟨[⟨"root", "#include \"a\" b c\nT f()\x7b\"é\n"⟩]⟩

def siteRun : FrontEnd := frontEnd siteReader {} false siteSources 0

theorem siteRun_small : ∀ f ∈ siteRun.sources.files, f.text.utf8ByteSize < UInt32.size := by
  rw [siteRun, frontEnd, parseTokens_eq]
  decide +kernel

theorem frontEnd_spans_siteRun :
    (∀ f ∈ siteRun.sources.files, f.text.utf8ByteSize < UInt32.size) ∧
      siteRun.messages.map (fun m => (m.span.start.file, m.span.range)) =
        [(0, 13, 16), (1, 11, 14), (0, 27, 28), (0, 27, 28)] ∧
      ∀ m ∈ siteRun.messages, ∃ f, siteRun.sources.get? m.span.start.file = some f ∧
        m.span.last.file = m.span.start.file ∧ m.span.start ≤ m.span.last ∧
        m.span.last.index ≤ f.text.utf8ByteSize ∧
        (m.span.start.line = m.span.last.line → m.span.start.column ≤ m.span.last.column) := by
  have hrun : frontEnd siteReader {} false siteSources 0 = siteRun := by rw [siteRun]
  refine ⟨siteRun_small, ?_, frontEnd_spans hrun siteRun_small⟩
  rw [siteRun, frontEnd, parseTokens_eq]
  decide +kernel

/-- **Lines and columns go with the offsets,** except just past a last token that ends with a line
break: there the line is that of the token. -/
theorem frontEnd_places {tokens : List Token}
    (hrun : frontEnd reader macros comments sources file = run)
    (htokens : (course reader macros comments sources file).expanded.value = tokens)
    (hsize : ∀ f ∈ run.sources.files, f.text.utf8ByteSize < UInt32.size) :
    ∀ m ∈ run.messages, ∃ f, run.sources.get? m.span.start.file = some f ∧
      m.span.last.file = m.span.start.file ∧ m.point = m.span.start ∧
      ((m.span.start.Derived f.text ∧ m.span.last.Derived f.text ∧ m.point.Derived f.text) ↔
        ¬ (EndsWithBreak tokens ∧ m.span = Grammar.pastEnd tokens)) := by
  subst hrun htokens
  intro m hm
  obtain ⟨number, f, hfile, hpoint, hplace⟩ :=
    (subject_of_mem_frontEnd reader macros comments sources file hm).exists_place hsize
  have hnumber : m.span.start.file = number ∧ m.span.last.file = number := by
    rcases hplace with hlies | ⟨_, _, bytes, _, hspan⟩
    · exact ⟨hlies.start.file_eq, hlies.last.file_eq⟩
    · rw [hspan]
      exact ⟨rfl, rfl⟩
  rw [hnumber.1, hnumber.2, hpoint]
  refine ⟨f, hfile, rfl, rfl, ?_, ?_⟩
  · rintro ⟨hstart, _⟩ ⟨hbreak, hend⟩
    -- the file is the same one if all stages are run
    have hall := get?_of_prefix (prefix_frontEnd reader macros comments sources file) hfile
    rw [← hnumber.1, hend] at hall
    rw [hend] at hstart
    exact not_derived_pastEnd (scanned_expanded reader macros comments sources file) hbreak hall
      (hsize f (List.mem_of_getElem? hfile)) hstart
  · intro hnot
    rcases hplace with hlies | ⟨hbreak, hend, _⟩
    · exact ⟨hlies.start.derived, hlies.last.derived, hlies.start.derived⟩
    · exact absurd ⟨hbreak, hend⟩ hnot

def siteTokens : List Token := (course siteReader {} false siteSources 0).expanded.value

theorem frontEnd_places_siteRun :
    (∀ f ∈ siteRun.sources.files, f.text.utf8ByteSize < UInt32.size) ∧
      siteRun.messages.map (fun m => decide (m.span = Grammar.pastEnd siteTokens)) =
        [false, false, true, true] ∧
      EndsWithBreak siteTokens ∧
      ∀ m ∈ siteRun.messages, ∃ f, siteRun.sources.get? m.span.start.file = some f ∧
        ((m.span.start.Derived f.text ∧ m.span.last.Derived f.text ∧ m.point.Derived f.text) ↔
          m.span ≠ Grammar.pastEnd siteTokens) := by
  have hrun : frontEnd siteReader {} false siteSources 0 = siteRun := by rw [siteRun]
  have htokens : (course siteReader {} false siteSources 0).expanded.value = siteTokens := by
    rw [siteTokens]
  have hbreak : EndsWithBreak siteTokens := by
    have hlast : (siteTokens.getLast?.bind fun t => t.text.toList.getLast?) = some '\n' := by
      decide +kernel
    exact Option.bind_eq_some_iff.mp hlast
  refine ⟨siteRun_small, ?_, hbreak, fun m hm => ?_⟩
  · rw [siteRun, frontEnd, parseTokens_eq]
    decide +kernel
  · obtain ⟨f, hfile, _, _, hiff⟩ := frontEnd_places hrun htokens siteRun_small m hm
    exact ⟨f, hfile, hiff.trans (not_congr (and_iff_right hbreak))⟩

/-- A function body that breaks off after a string of one line break. -/
def brokenOff : SourceFile := ⟨"main.fsl", "T f()\x7b\"\n\""⟩

/-- What is missing behind the line break is reported on the line before. -/
theorem exists_point_not_derived :
    ∃ m ∈ (frontEnd siteReader {} false ⟨[brokenOff]⟩ 0).messages, m.point = ⟨0, 8, 0, 8⟩ ∧
      ¬ m.point.Derived brokenOff.text ∧ (Point.mk 0 8 1 0).Derived brokenOff.text := by
  rw [frontEnd, parseTokens_eq]
  decide +kernel

end Shading
