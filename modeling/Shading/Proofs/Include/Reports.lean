import Shading.Proofs.Include.Splice
import Shading.Stage

/-! # What an expansion reports

`Fate` says what becomes of a directive: whether it includes a file, and what is reported about it.
`Reports` is the expansion of a token list told by the fates of its directives; unlike `Splices` it
keeps the messages and drops the tokens.  The expansion follows it (`reports_expandTokens`).  Whatever
an expansion comes across stands in its own tokens or in those of a file that it added (`Met`), and so
does the directive that a message is about (`Reports.concerns`). -/

namespace Shading.Include

/-! ### The fate of a directive -/

/-- The file that a directive includes, if any, and the messages about the directive, with some include
levels left and the keys of `seen` taken. -/
inductive Fate (s : Setting) (levels : Nat) (seen : List String) (t : Token) :
    Option SourceFile → List Message → Prop
  /-- It asks for no file. -/
  | idle (htarget : (Request.ofDirective s.macros t).target? = none) :
      Fate s levels seen t none (Request.ofDirective s.macros t).messages
  /-- It asks for a file that was seen before. -/
  | known {target : Target} (htarget : (Request.ofDirective s.macros t).target? = some target)
      (hseen : s.reader.includeKey target.name ∈ seen) :
      Fate s levels seen t none (Request.ofDirective s.macros t).messages
  /-- It asks for a file that lies too deep or cannot be read. -/
  | failed {target : Target} {problem : Problem}
      (htarget : (Request.ofDirective s.macros t).target? = some target)
      (hnew : s.reader.includeKey target.name ∉ seen)
      (hproblem : (levels = 0 ∧ problem = .tooDeep) ∨ (0 < levels ∧
        ∃ cause, s.reader.read target.name = .error cause ∧
          problem = .unreadable target.name cause)) :
      Fate s levels seen t none
        ((Request.ofDirective s.macros t).messages ++ [problem.message target.place])
  | included {f : SourceFile} (hlevels : 0 < levels) (hincludes : Includes s seen t f) :
      Fate s levels seen t (some f) (Request.ofDirective s.macros t).messages

/-- From one state to the other the files were added, each under its key, and the messages reported. -/
structure Tells (s : Setting) (added : List SourceFile) (messages : List Message) (p q : Progress) :
    Prop extends Adds s added p q where
  messages : q.messages = p.messages ++ messages

theorem Tells.append {s : Setting} {added more : List SourceFile} {here after : List Message}
    {p q r : Progress} (h : Tells s added here p q) (h' : Tells s more after q r) :
    Tells s (added ++ more) (here ++ after) p r :=
  ⟨h.toAdds.append h'.toAdds, by rw [h'.messages, h.messages, List.append_assoc]⟩

/-- A directive is dropped, or the file that it includes is expanded in its place. -/
inductive Takes (s : Setting) (levels : Nat) (t : Token) (p : Progress) :
    List Token × Progress → Prop
  | dropped {here : List Message} {q : Progress} (hfate : Fate s levels p.included t none here)
      (hq : Tells s [] here p q) : Takes s levels t p ([], q)
  | opened {l : Nat} {f : SourceFile} {here : List Message} {q : Progress} (hlevels : levels = l + 1)
      (hfate : Fate s levels p.included t (some f) here) (hq : Tells s [f] here p q) :
      Takes s levels t p (expandTokens s l (s.tokens p.sources.files.length f) q)

/-- One step of an expansion. -/
theorem takes_splice (s : Setting) (levels : Nat) (t : Token) (p : Progress) :
    Takes s levels t p (splice s (below s levels) t p) := by
  cases htarget : (Request.ofDirective s.macros t).target? with
  | none =>
      rw [splice_of_no_target htarget]
      exact .dropped (.idle htarget) ⟨Adds.nil rfl rfl, rfl⟩
  | some target =>
      rw [splice_of_target htarget, openTarget_eq]
      dsimp only
      by_cases hseen : s.reader.includeKey target.name ∈ p.included
      · rw [if_pos hseen]
        exact .dropped (.known htarget hseen) ⟨Adds.nil rfl rfl, rfl⟩
      rw [if_neg hseen]
      cases levels with
      | zero =>
          refine .dropped (.failed htarget hseen (.inl ⟨rfl, rfl⟩)) ⟨Adds.nil rfl rfl, ?_⟩
          exact List.append_assoc ..
      | succ l =>
          cases hread : s.reader.read target.name with
          | error cause =>
              refine .dropped (.failed htarget hseen (.inr ⟨Nat.succ_pos l, cause, hread, rfl⟩))
                ⟨Adds.nil rfl rfl, ?_⟩
              exact List.append_assoc ..
          | ok text =>
              have hincludes : Includes s p.included t ⟨target.name, text⟩ :=
                ⟨⟨target.place, htarget⟩, hseen, hread⟩
              exact .opened rfl (.included (Nat.succ_pos l) hincludes) ⟨⟨rfl, rfl⟩, rfl⟩

/-! ### Whole expansions -/

/-- With some include levels left, the keys of `seen` taken and `n` files known, the files that are
added for a token list and the messages that are reported. -/
inductive Reports (s : Setting) :
    (levels : Nat) → (seen : List String) → (n : Nat) → List Token → List SourceFile →
      List Message → Prop
  | done {levels n : Nat} {seen : List String} : Reports s levels seen n [] [] []
  | keep {levels n : Nat} {seen : List String} {t : Token} {rest : List Token}
      {added : List SourceFile} {messages : List Message} (ht : t.kind ≠ .directive)
      (after : Reports s levels seen n rest added messages) :
      Reports s levels seen n (t :: rest) added messages
  | drop {levels n : Nat} {seen : List String} {t : Token} {rest : List Token}
      {added : List SourceFile} {here messages : List Message} (ht : t.kind = .directive)
      (hfate : Fate s levels seen t none here) (after : Reports s levels seen n rest added messages) :
      Reports s levels seen n (t :: rest) added (here ++ messages)
  | insert {levels n : Nat} {seen : List String} {t : Token} {rest : List Token} {f : SourceFile}
      {within added : List SourceFile} {here inside messages : List Message}
      (ht : t.kind = .directive) (hfate : Fate s (levels + 1) seen t (some f) here)
      (inner : Reports s levels (seen ++ [s.key f]) (n + 1) (s.tokens n f) within inside)
      (after : Reports s (levels + 1) (seen ++ (f :: within).map s.key) (n + (f :: within).length)
        rest added messages) :
      Reports s (levels + 1) seen n (t :: rest) (f :: within ++ added) (here ++ inside ++ messages)

/-- What the expansion of token lists adds and reports, from every state. -/
def Reporting (s : Setting) (levels : Nat) : Prop :=
  ∀ (tokens : List Token) (p : Progress), ∃ added messages,
    Reports s levels p.included p.sources.files.length tokens added messages ∧
      Tells s added messages p (expandTokens s levels tokens p).2

theorem expandWith_cons_of_eq {replace : Token → Expand (List Token)} {t : Token}
    (ht : t.kind = .directive) (rest : List Token) (p : Progress) :
    (expandWith replace (t :: rest) p).2 = (expandWith replace rest (replace t p).2).2 := by
  rw [expandWith, if_pos ht]
  rfl

theorem expandWith_cons_of_ne {replace : Token → Expand (List Token)} {t : Token}
    (ht : t.kind ≠ .directive) (rest : List Token) (p : Progress) :
    (expandWith replace (t :: rest) p).2 = (expandWith replace rest p).2 := by
  rw [expandWith, if_neg ht]
  rfl

/-- A list is expanded token by token. -/
theorem reporting_of_below {s : Setting} {levels : Nat}
    (hbelow : ∀ l, levels = l + 1 → Reporting s l) : Reporting s levels := by
  intro tokens
  rw [expandTokens_eq]
  induction tokens with
  | nil =>
      intro p
      exact ⟨[], [], .done, Adds.nil rfl rfl, (List.append_nil _).symm⟩
  | cons t rest ih =>
      intro p
      by_cases ht : t.kind = .directive
      · rw [expandWith_cons_of_eq ht]
        have htakes := takes_splice s levels t p
        generalize splice s (below s levels) t p = outcome at htakes ⊢
        cases htakes with
        | @dropped here q hfate hq =>
            obtain ⟨added, messages, hrest, htells⟩ := ih q
            rw [hq.files, hq.included, List.append_nil, List.map_nil, List.append_nil] at hrest
            exact ⟨added, here ++ messages, .drop ht hfate hrest, hq.append htells⟩
        | @opened l f here q hlevels hfate hq =>
            obtain ⟨within, inside, hinner, hwithin⟩ :=
              hbelow l hlevels (s.tokens p.sources.files.length f) q
            rw [hq.included, hq.files, List.length_append] at hinner
            have hopened := hq.append hwithin
            generalize (expandTokens s l (s.tokens p.sources.files.length f) q).2 = r at hopened ⊢
            obtain ⟨added, messages, hrest, htells⟩ := ih r
            rw [hopened.included, hopened.files, List.length_append] at hrest
            subst hlevels
            exact ⟨f :: within ++ added, here ++ inside ++ messages,
              .insert ht hfate hinner hrest, hopened.append htells⟩
      · rw [expandWith_cons_of_ne ht]
        obtain ⟨added, messages, hrest, htells⟩ := ih p
        exact ⟨added, messages, .keep ht hrest, htells⟩

/-- The expansion reports, by induction on the include levels left. -/
theorem reports_expandTokens (s : Setting) (levels : Nat) : Reporting s levels := by
  induction levels with
  | zero => exact reporting_of_below nofun
  | succ l ih =>
      refine reporting_of_below fun k hk => ?_
      cases hk
      exact ih

/-! ### What an expansion comes across -/

/-- The token is one of the list or of a file that was added. -/
def Met (s : Setting) (n : Nat) (tokens : List Token) (added : List SourceFile) (t : Token) : Prop :=
  t ∈ tokens ∨ ∃ i f, added[i]? = some f ∧ t ∈ s.tokens (n + i) f

namespace Met

variable {s : Setting} {n : Nat} {t u : Token} {rest : List Token} {f : SourceFile}
  {within added : List SourceFile}

theorem head : Met s n (t :: rest) added t := .inl List.mem_cons_self

theorem tail (h : Met s n rest added u) : Met s n (t :: rest) added u :=
  h.imp_left (List.mem_cons_of_mem t)

/-- What an included file comes across. -/
theorem inner (h : Met s (n + 1) (s.tokens n f) within u) :
    Met s n (t :: rest) (f :: within ++ added) u := by
  right
  rcases h with h | ⟨i, g, hg, hu⟩
  · exact ⟨0, f, rfl, h⟩
  · refine ⟨i + 1, g, ?_, ?_⟩
    · have hi := (List.getElem?_eq_some_iff.mp hg).1
      rwa [List.cons_append, List.getElem?_cons_succ, List.getElem?_append_left hi]
    · rwa [Nat.add_right_comm] at hu

/-- What comes across after an included file. -/
theorem after (h : Met s (n + (f :: within).length) rest added u) :
    Met s n (t :: rest) (f :: within ++ added) u := by
  rcases h with h | ⟨i, g, hg, hu⟩
  · exact .inl (List.mem_cons_of_mem t h)
  · right
    refine ⟨(f :: within).length + i, g, ?_, ?_⟩
    · rwa [List.getElem?_append_right (Nat.le_add_right _ _), Nat.add_sub_cancel_left]
    · rwa [Nat.add_assoc] at hu

end Met

/-- Every token that comes out was met. -/
theorem Splices.met {s : Setting} {levels n : Nat} {seen : List String} {tokens out : List Token}
    {added : List SourceFile} (h : Splices s levels seen n tokens added out) :
    ∀ t ∈ out, Met s n tokens added t := by
  induction h with
  | done => nofun
  | keep _ _ ih => exact List.forall_mem_cons.mpr ⟨.head, fun t ht => (ih t ht).tail⟩
  | drop _ _ _ ih => exact fun t ht => (ih t ht).tail
  | insert _ _ _ _ ihInner ihAfter =>
      exact List.forall_mem_append.mpr
        ⟨fun t ht => (ihInner t ht).inner, fun t ht => (ihAfter t ht).after⟩

/-- The message is about what the directive asks for, or about the file that it asks for. -/
inductive Concerns (s : Setting) (t : Token) : Message → Prop
  | request {m : Message} (h : m ∈ (Request.ofDirective s.macros t).messages) : Concerns s t m
  | target {target : Target} (h : (Request.ofDirective s.macros t).target? = some target)
      (problem : Problem) : Concerns s t (problem.message target.place)

theorem Fate.concerns {s : Setting} {levels : Nat} {seen : List String} {t : Token}
    {f? : Option SourceFile} {here : List Message} (h : Fate s levels seen t f? here) :
    ∀ m ∈ here, Concerns s t m := by
  cases h with
  | idle | known | included => exact fun m hm => .request hm
  | @failed target problem htarget =>
      refine List.forall_mem_append.mpr ⟨fun m hm => .request hm, fun m hm => ?_⟩
      rw [List.mem_singleton.mp hm]
      exact .target htarget problem

/-- Every message is about a directive that the expansion came across. -/
theorem Reports.concerns {s : Setting} {levels n : Nat} {seen : List String} {tokens : List Token}
    {added : List SourceFile} {messages : List Message}
    (h : Reports s levels seen n tokens added messages) :
    ∀ m ∈ messages, ∃ t, Met s n tokens added t ∧ t.kind = .directive ∧ Concerns s t m := by
  induction h with
  | done => nofun
  | keep _ _ ih =>
      intro m hm
      obtain ⟨t, hmet, ht, hm⟩ := ih m hm
      exact ⟨t, hmet.tail, ht, hm⟩
  | drop ht hfate _ ih =>
      refine List.forall_mem_append.mpr ⟨fun m hm => ?_, fun m hm => ?_⟩
      · exact ⟨_, .head, ht, hfate.concerns m hm⟩
      · obtain ⟨t, hmet, ht, hm⟩ := ih m hm
        exact ⟨t, hmet.tail, ht, hm⟩
  | insert ht hfate _ _ ihInner ihAfter =>
      refine List.forall_mem_append.mpr ⟨List.forall_mem_append.mpr ⟨?_, ?_⟩, ?_⟩
      · exact fun m hm => ⟨_, .head, ht, hfate.concerns m hm⟩
      · intro m hm
        obtain ⟨t, hmet, ht, hm⟩ := ihInner m hm
        exact ⟨t, hmet.inner, ht, hm⟩
      · intro m hm
        obtain ⟨t, hmet, ht, hm⟩ := ihAfter m hm
        exact ⟨t, hmet.after, ht, hm⟩

/-- The expansion of a file from a fresh start, where the key of the root is the only one taken. -/
theorem exists_expandFile (reader : Reader) (macros : MacroTable) (sources : SourceMap) (file : Nat)
    (tokens : List Token) :
    let s : Setting := ⟨reader, macros, ClassSet.withoutComments⟩
    let seen := ((sources.name? file).map reader.rootKey).toList
    let run := expandFile reader macros sources file tokens
    ∃ added, run.2.files = sources.files ++ added ∧
      Splices s includeLevels seen sources.files.length tokens added run.1.value ∧
      Reports s includeLevels seen sources.files.length tokens added run.1.messages := by
  intro s seen run
  obtain ⟨q, hroot, hsources, hmessages, hincluded⟩ := exists_rooted s file { sources }
  rw [List.nil_append] at hincluded
  obtain ⟨added, hsplices, hadds⟩ := expandsTo_expandTokens s includeLevels tokens q
  obtain ⟨others, messages, hreports, htells⟩ := reports_expandTokens s includeLevels tokens q
  -- both tell what the source files are at the end, so both add the same ones
  obtain rfl : added = others := List.append_cancel_left (hadds.files.symm.trans htells.files)
  have hfiles := hadds.files
  have hlast := htells.messages
  rw [hsources, hincluded] at hsplices hreports
  rw [hmessages, List.nil_append] at hlast
  rw [hsources] at hfiles
  rw [← hroot] at hsplices hfiles hlast
  refine ⟨added, hfiles, hsplices, ?_⟩
  rwa [← hlast] at hreports

end Shading.Include
