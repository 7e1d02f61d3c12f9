import Mathlib.Tactic.SplitIfs
import Shading.Files.Search
import Shading.Proofs.Lists

/-! # Include keys name the file that is read

Reading an include target and making its key are two searches through the same candidates.  Reading passes
over a candidate where nothing is, the key over one that cannot be walked.  They stop at the same one
(`walk_ne_ok_of_notFound`), so the key belongs to the file that is read.

A key is a place written as a path.  Walking it leads back to the place (`walk_canonicalText`), so different
files have different keys (`includeKey_reads`).  For that the names along a place must not look like
anything else in a path: `IsEntryName` says so of a name, and walking only ever goes to such names. -/

namespace Shading

namespace Path

theorem parts_eq_splitOn (cs : List Char) : parts cs = cs.splitOn '/' := by
  induction cs with
  | nil => rfl
  | cons c cs ih =>
      rw [parts, List.splitOn_cons_eq_if_modifyHead, ih]
      by_cases hc : c = '/'
      · simp [hc]
      · cases hparts : cs.splitOn '/' with
        | nil => exact absurd hparts (List.splitOn_ne_nil _ _)
        | cons part more => simp [hc]

theorem parts_ne_nil (cs : List Char) : parts cs ≠ [] := by
  rw [parts_eq_splitOn]
  exact List.splitOn_ne_nil _ _

/-- The parts of a text have its characters, but no slash. -/
theorem mem_of_mem_parts {part cs : List Char} (h : part ∈ parts cs) {c : Char} (hc : c ∈ part) :
    c ∈ cs ∧ c ≠ '/' := by
  induction cs generalizing part with
  | nil =>
      obtain rfl : part = [] := List.mem_singleton.mp h
      cases hc
  | cons d cs ih =>
      have hlater : ∀ p ∈ parts cs, c ∈ p → c ∈ d :: cs ∧ c ≠ '/' := fun p hp hcp =>
        ⟨List.mem_cons_of_mem d (ih hp hcp).1, (ih hp hcp).2⟩
      rw [parts] at h
      split at h
      case isTrue =>
        rcases List.mem_cons.mp h with rfl | h
        · cases hc
        · exact hlater part h hc
      case isFalse hd =>
        cases hparts : parts cs with
        | nil => exact absurd hparts (parts_ne_nil cs)
        | cons first more =>
            rw [hparts] at h hlater
            rcases List.mem_cons.mp h with rfl | h
            · rcases List.mem_cons.mp hc with rfl | hc
              · exact ⟨List.mem_cons_self, hd⟩
              · exact hlater first List.mem_cons_self hc
            · exact hlater part (List.mem_cons_of_mem first h) hc

end Path

theorem FileTree.at?_append (t : FileTree) (front back : List String) :
    t.at? (front ++ back) = (t.at? front).bind (at? · back) := by
  induction front generalizing t with
  | nil => rfl
  | cons name front ih =>
      rw [List.cons_append, at?, at?]
      cases t.child? name with
      | none => rfl
      | some child => exact ih child

namespace FileSystem

variable {fs : FileSystem} {path : String} {place : List String}

/-! ### Places -/

/-- The text can be the name of an entry in a directory. -/
structure IsEntryName (name : String) : Prop where
  notIdle : Path.isIdle name.toList = false
  notUp : name.toList ≠ ['.', '.']
  noSlash : '/' ∉ name.toList
  noZero : '\x00' ∉ name.toList
  short : name.utf8ByteSize ≤ nameLimit

/-- Something is at the place, and it can be named. -/
structure Occupied (fs : FileSystem) (place : List String) : Prop where
  there : (fs.root.at? place).isSome = true
  names : ∀ name ∈ place, IsEntryName name

/-- On the way to something there are directories. -/
theorem isDirectoryAt_of_append {name : String} {names : List String}
    (h : (fs.root.at? (place ++ name :: names)).isSome = true) : fs.isDirectoryAt place = true := by
  rw [FileTree.at?_append] at h
  unfold isDirectoryAt
  cases hplace : fs.root.at? place with
  | none => simp [hplace] at h
  | some t =>
      cases t with
      | directory entries => rfl
      | file bytes => simp [hplace, FileTree.at?, FileTree.child?] at h

theorem isSome_of_isDirectoryAt (h : fs.isDirectoryAt place = true) :
    (fs.root.at? place).isSome = true := by
  unfold isDirectoryAt at h
  cases hplace : fs.root.at? place with
  | none => simp [hplace] at h
  | some t => rfl

/-! ### Walking -/

/-- What one part of a path can do. -/
theorem step_cases {part : List Char} {next : List String} (h : fs.step place part = .ok next) :
    fs.isDirectoryAt place = true ∧
      (next = place ∨ next = place.dropLast ∨
        Path.isIdle part = false ∧ part ≠ ['.', '.'] ∧
          (String.ofList part).utf8ByteSize ≤ nameLimit ∧ next = place ++ [String.ofList part] ∧
          (fs.root.at? next).isSome = true) := by
  simp only [step] at h
  split_ifs at h with hdirectory hidle hup hlong hthere
  all_goals have hdirectory : fs.isDirectoryAt place = true := by simpa using hdirectory
  · exact ⟨hdirectory, .inl (Except.ok.inj h).symm⟩
  · exact ⟨hdirectory, .inr (.inl (Except.ok.inj h).symm)⟩
  · obtain rfl : place ++ [String.ofList part] = next := Except.ok.inj h
    exact ⟨hdirectory, .inr (.inr ⟨by simpa using hidle, hup, Nat.not_lt.mp hlong, rfl, hthere⟩)⟩

/-- A step leads to something. -/
theorem occupied_of_step {part : List Char} {next : List String}
    (hpart : '/' ∉ part ∧ '\x00' ∉ part) (hnames : ∀ name ∈ place, IsEntryName name)
    (h : fs.step place part = .ok next) : fs.Occupied next := by
  obtain ⟨hdirectory, rfl | rfl | ⟨hidle, hup, hshort, rfl, hthere⟩⟩ := step_cases h
  · exact ⟨isSome_of_isDirectoryAt hdirectory, hnames⟩
  · refine ⟨?_, fun name hname => hnames name (List.dropLast_subset place hname)⟩
    rcases List.eq_nil_or_concat place with rfl | ⟨front, last, rfl⟩
    · exact isSome_of_isDirectoryAt hdirectory
    · rw [List.concat_eq_append, List.dropLast_concat]
      rw [List.concat_eq_append] at hdirectory
      exact isSome_of_isDirectoryAt (isDirectoryAt_of_append (isSome_of_isDirectoryAt hdirectory))
  · refine ⟨hthere, fun name hname => ?_⟩
    rcases List.mem_append.mp hname with hname | hname
    · exact hnames name hname
    · obtain rfl := List.mem_singleton.mp hname
      refine ⟨?_, ?_, ?_, ?_, hshort⟩ <;> rw [String.toList_ofList]
      · exact hidle
      · exact hup
      · exact hpart.1
      · exact hpart.2

/-- Steps, one after another, lead from something to something. -/
theorem Occupied.foldlM {parts : List (List Char)} {next : List String} (hplace : fs.Occupied place)
    (hparts : ∀ part ∈ parts, '/' ∉ part ∧ '\x00' ∉ part)
    (h : parts.foldlM fs.step place = .ok next) : fs.Occupied next := by
  induction parts generalizing place with
  | nil =>
      obtain rfl : place = next := Except.ok.inj h
      exact hplace
  | cons part parts ih =>
      rw [List.foldlM_cons] at h
      obtain ⟨mid, hstep, hmore⟩ := bind_eq_ok.mp h
      refine ih ?_ (fun p hp => hparts p (List.mem_cons_of_mem part hp)) hmore
      exact occupied_of_step (hparts part List.mem_cons_self) hplace.names hstep

theorem walk_eq_ok : fs.walk path = .ok place ↔
    checkText path = .ok () ∧ (Path.parts path.toList).foldlM fs.step (fs.start path) = .ok place := by
  rw [walk, bind_eq_ok]
  exact ⟨fun ⟨_, hcheck, h⟩ => ⟨hcheck, h⟩, fun ⟨hcheck, h⟩ => ⟨(), hcheck, h⟩⟩

theorem zero_notMem_of_checkText (h : checkText path = .ok ()) : '\x00' ∉ path.toList := by
  intro hmem
  rw [checkText, if_pos (List.contains_iff_mem.mpr hmem)] at h
  cases h

/-- Walking ends at something, and the root is a directory. -/
theorem occupied_of_walk (hnames : ∀ name ∈ fs.workingDirectory, IsEntryName name)
    (h : fs.walk path = .ok place) : fs.Occupied place ∧ fs.isDirectoryAt [] = true := by
  obtain ⟨hcheck, hsteps⟩ := walk_eq_ok.mp h
  have hparts : ∀ part ∈ Path.parts path.toList, '/' ∉ part ∧ '\x00' ∉ part := fun part hpart =>
    ⟨fun hc => (Path.mem_of_mem_parts hpart hc).2 rfl,
      fun hc => zero_notMem_of_checkText hcheck (Path.mem_of_mem_parts hpart hc).1⟩
  have hstart : ∀ name ∈ fs.start path, IsEntryName name := by
    unfold start
    split
    · exact List.forall_mem_nil _
    · exact hnames
  -- there is a first step, since every path has a part
  cases hall : Path.parts path.toList with
  | nil => exact absurd hall (Path.parts_ne_nil _)
  | cons part parts =>
      rw [hall] at hsteps hparts
      rw [List.foldlM_cons] at hsteps
      obtain ⟨mid, hstep, hmore⟩ := bind_eq_ok.mp hsteps
      have hmid := occupied_of_step (hparts part List.mem_cons_self) hstart hstep
      refine ⟨hmid.foldlM (fun p hp => hparts p (List.mem_cons_of_mem part hp)) hmore, ?_⟩
      have hfirst := (step_cases hstep).1
      cases hbegin : fs.start path with
      | nil => rwa [hbegin] at hfirst
      | cons name names =>
          rw [hbegin] at hfirst
          exact @isDirectoryAt_of_append fs [] _ _ (isSome_of_isDirectoryAt hfirst)

/-! ### Places as paths -/

/-- A step to a name of an entry. -/
theorem step_name {name : String} (hname : IsEntryName name)
    (hthere : (fs.root.at? (place ++ [name])).isSome = true) :
    fs.step place name.toList = .ok (place ++ [name]) := by
  simp only [step, String.ofList_toList, isDirectoryAt_of_append hthere, hname.notIdle, hname.notUp,
    Nat.not_lt.mpr hname.short, hthere, if_true, if_false, Bool.not_true, Bool.false_eq_true]

/-- Following names downwards. -/
theorem foldlM_names {names : List String} (h : fs.Occupied (place ++ names)) :
    (names.map String.toList).foldlM fs.step place = .ok (place ++ names) := by
  induction names generalizing place with
  | nil => rw [List.append_nil]; rfl
  | cons name names ih =>
      have hsplit : place ++ name :: names = (place ++ [name]) ++ names := List.append_cons ..
      have hthere : (fs.root.at? (place ++ [name])).isSome = true := by
        cases names with
        | nil => exact h.there
        | cons next names =>
            have hthere := h.there
            rw [hsplit] at hthere
            exact isSome_of_isDirectoryAt (isDirectoryAt_of_append hthere)
      have hname := h.names name (by simp)
      rw [List.map_cons, List.foldlM_cons, step_name hname hthere]
      rw [hsplit] at h ⊢
      exact ih h

theorem toList_canonicalText (place : List String) :
    (canonicalText place).toList = '/' :: ['/'].intercalate (place.map String.toList) := by
  rw [canonicalText, String.toList_append, String.toList_intercalate]
  rfl

theorem mem_intercalate {c sep : Char} {texts : List (List Char)} (h : c ∈ [sep].intercalate texts) :
    c = sep ∨ ∃ text ∈ texts, c ∈ text := by
  induction texts with
  | nil => cases h
  | cons text texts ih =>
      cases texts with
      | nil => exact .inr ⟨text, List.mem_cons_self, by simpa using h⟩
      | cons next texts =>
          rw [List.intercalate_cons_cons] at h
          rcases List.mem_append.mp h with h | h
          · rcases List.mem_append.mp h with h | h
            · exact .inr ⟨text, List.mem_cons_self, h⟩
            · exact .inl (List.mem_singleton.mp h)
          · rcases ih h with h | ⟨found, hfound, h⟩
            · exact .inl h
            · exact .inr ⟨found, List.mem_cons_of_mem text hfound, h⟩

theorem checkText_canonicalText (hnames : ∀ name ∈ place, IsEntryName name) :
    checkText (canonicalText place) = .ok () := by
  have hzero : '\x00' ∉ (canonicalText place).toList := by
    rw [toList_canonicalText]
    intro hmem
    rcases List.mem_cons.mp hmem with h | h
    · cases h
    · rcases mem_intercalate h with h | ⟨text, htext, h⟩
      · cases h
      · obtain ⟨name, hname, rfl⟩ := List.mem_map.mp htext
        exact (hnames name hname).noZero h
  have hnonempty : (canonicalText place).isEmpty = false := by
    rw [Bool.eq_false_iff, ne_eq, String.isEmpty_iff, ← String.toList_eq_nil_iff, toList_canonicalText]
    exact List.cons_ne_nil _ _
  unfold checkText
  rw [if_neg (fun h => hzero (List.contains_iff_mem.mp h)), hnonempty]
  rfl

/-- A place that is written as a path is found by walking it. -/
theorem walk_canonicalText (hplace : fs.Occupied place) (hroot : fs.isDirectoryAt [] = true) :
    fs.walk (canonicalText place) = .ok place := by
  have hstart : fs.start (canonicalText place) = [] := by
    rw [start, Path.isAbsolute, toList_canonicalText]
    rfl
  have hidle : fs.step [] [] = .ok [] := by
    simp [step, hroot, Path.isIdle]
  refine walk_eq_ok.mpr ⟨checkText_canonicalText hplace.names, ?_⟩
  rw [hstart, toList_canonicalText, Path.parts, if_pos rfl, List.foldlM_cons]
  refine bind_eq_ok.mpr ⟨[], hidle, ?_⟩
  cases place with
  | nil => exact bind_eq_ok.mpr ⟨[], hidle, rfl⟩
  | cons name names =>
      have hslash : ∀ text ∈ (name :: names).map String.toList, '/' ∉ text := by
        intro text htext
        obtain ⟨found, hfound, rfl⟩ := List.mem_map.mp htext
        exact (hplace.names found hfound).noSlash
      rw [Path.parts_eq_splitOn, List.splitOn_intercalate '/' hslash (by simp)]
      exact @foldlM_names fs [] _ hplace

/-! ### Reading -/

theorem walk_of_resolve (h : fs.resolve path = .ok place) : fs.walk path = .ok place := by
  obtain ⟨_, _, hwalk⟩ := bind_eq_ok.mp h
  exact hwalk

/-- The text of what is at a place. -/
def textAt (fs : FileSystem) (place : List String) : Except FileError String :=
  match fs.root.at? place with
  | some (.file bytes) => (Text.ofUtf8? bytes).elim (.error .notText) .ok
  | some (.directory _) => .error .isADirectory
  | none => .error .notFound

theorem textAt_eq_ok {text : String} : fs.textAt place = .ok text ↔
    ∃ bytes, fs.root.at? place = some (.file bytes) ∧ Text.ofUtf8? bytes = some text := by
  unfold textAt
  cases fs.root.at? place with
  | none => simp
  | some t =>
      cases t with
      | directory entries => simp
      | file bytes => cases hutf8 : Text.ofUtf8? bytes <;> simp [hutf8]

theorem textAt_eq_notFound : fs.textAt place = .error .notFound ↔ fs.root.at? place = none := by
  unfold textAt
  cases fs.root.at? place with
  | none => simp
  | some t =>
      cases t with
      | directory entries => simp
      | file bytes => cases hutf8 : Text.ofUtf8? bytes <;> simp [hutf8]

/-- To read is to go to a place and to take what is there. -/
theorem readText_eq : fs.readText path = fs.resolve path >>= fs.textAt := by
  rw [readText, read, bind_assoc]
  refine congrArg _ (funext fun place => ?_)
  unfold textAt
  cases fs.root.at? place with
  | none => rfl
  | some t =>
      cases t with
      | directory entries => rfl
      | file bytes =>
          simp only [pure_bind]
          cases Text.ofUtf8? bytes <;> rfl

/-- A path where nothing is found cannot be walked. -/
theorem walk_ne_ok_of_notFound (hnames : ∀ name ∈ fs.workingDirectory, IsEntryName name)
    (h : fs.readText path = .error .notFound) : fs.walk path ≠ .ok place := by
  intro hwalk
  have hthere := (occupied_of_walk hnames hwalk).1.there
  rw [readText_eq, resolve, hwalk] at h
  cases hcheck : checkPath path with
  | ok u =>
      rw [hcheck] at h
      rw [textAt_eq_notFound.mp h] at hthere
      cases hthere
  | error e =>
      -- the path is too long, which is another error
      rw [hcheck] at h
      obtain rfl : e = .notFound := Except.error.inj h
      simp only [checkPath, (walk_eq_ok.mp hwalk).1, bind, Except.bind] at hcheck
      split at hcheck <;> cases hcheck

end FileSystem

/-! ### Searching -/

namespace SearchPath

open FileSystem (IsEntryName canonicalText)

variable {fs : FileSystem} {s : SearchPath} {target text : String} {place : List String}

/-- A target is read from the file at a place: nothing is at the candidates before one, and that one leads
to the file, whose text it is. -/
def ReadsAt (s : SearchPath) (fs : FileSystem) (target : String) (place : List String) (text : String) :
    Prop :=
  ∃ (before after : List String) (path : String) (bytes : List UInt8),
    s.candidates target = before ++ path :: after ∧
    (∀ missing ∈ before, fs.readText missing = .error .notFound) ∧ fs.resolve path = .ok place ∧
    fs.root.at? place = some (.file bytes) ∧ Text.ofUtf8? bytes = some text

theorem readFirst_append {before : List String}
    (h : ∀ missing ∈ before, fs.readText missing = .error .notFound) (paths : List String) :
    readFirst fs (before ++ paths) = readFirst fs paths := by
  induction before with
  | nil => rfl
  | cons missing before ih =>
      obtain ⟨hmissing, hbefore⟩ := List.forall_mem_cons.mp h
      rw [List.cons_append, readFirst, hmissing]
      exact ih hbefore

/-- The first candidate that is not missing is read. -/
theorem exists_of_readFirst {paths : List String} (h : readFirst fs paths = .ok text) :
    ∃ before after path, paths = before ++ path :: after ∧
      (∀ missing ∈ before, fs.readText missing = .error .notFound) ∧ fs.readText path = .ok text := by
  induction paths with
  | nil => cases h
  | cons first rest ih =>
      rw [readFirst] at h
      cases hfirst : fs.readText first with
      | ok found =>
          rw [hfirst] at h
          obtain rfl : found = text := Except.ok.inj h
          exact ⟨[], rest, first, rfl, List.forall_mem_nil _, hfirst⟩
      | error e =>
          rw [hfirst] at h
          cases e with
          | notFound =>
              obtain ⟨before, after, path, rfl, hmissing, hpath⟩ := ih h
              exact ⟨first :: before, after, path, rfl, List.forall_mem_cons.mpr ⟨hfirst, hmissing⟩,
                hpath⟩
          | _ => cases h

/-- A target is read exactly if it is read from a file at some place. -/
theorem read_eq_ok : s.read fs target = .ok text ↔ ∃ place, s.ReadsAt fs target place text := by
  constructor
  · intro h
    obtain ⟨before, after, path, hpaths, hmissing, hpath⟩ := exists_of_readFirst h
    rw [FileSystem.readText_eq] at hpath
    obtain ⟨place, hresolve, htext⟩ := bind_eq_ok.mp hpath
    obtain ⟨bytes, hfile, hutf8⟩ := FileSystem.textAt_eq_ok.mp htext
    exact ⟨place, before, after, path, bytes, hpaths, hmissing, hresolve, hfile, hutf8⟩
  · rintro ⟨place, before, after, path, bytes, hpaths, hmissing, hresolve, hfile, hutf8⟩
    have hpath : fs.readText path = .ok text := by
      rw [FileSystem.readText_eq]
      exact bind_eq_ok.mpr ⟨place, hresolve, FileSystem.textAt_eq_ok.mpr ⟨bytes, hfile, hutf8⟩⟩
    rw [read, hpaths, readFirst_append hmissing, readFirst, hpath]

theorem canonical_of_walk {path : String} (h : fs.walk path = .ok place) :
    fs.canonical path = .ok (canonicalText place) := by
  rw [FileSystem.canonical, h]
  rfl

theorem toOption_canonical_of_notFound (hnames : ∀ name ∈ fs.workingDirectory, IsEntryName name)
    {path : String} (h : fs.readText path = .error .notFound) :
    (fs.canonical path).toOption = none := by
  rw [FileSystem.canonical]
  cases hwalk : fs.walk path with
  | ok place => exact absurd hwalk (FileSystem.walk_ne_ok_of_notFound hnames h)
  | error e => rfl

/-- The key of a target that is read is the place of the file, and leads there. -/
theorem ReadsAt.includeKey (hnames : ∀ name ∈ fs.workingDirectory, IsEntryName name)
    (h : s.ReadsAt fs target place text) : s.includeKey fs target = canonicalText place ∧
      fs.walk (s.includeKey fs target) = .ok place := by
  obtain ⟨before, after, path, bytes, hpaths, hmissing, hresolve, _, _⟩ := h
  have hwalk := FileSystem.walk_of_resolve hresolve
  have hkey : s.includeKey fs target = canonicalText place := by
    -- the search for the key passes over the same candidates
    have hbefore : before.findSome? (fun path => (fs.canonical path).toOption) = none :=
      List.findSome?_eq_none_iff.mpr fun missing hmem =>
        toOption_canonical_of_notFound hnames (hmissing missing hmem)
    rw [SearchPath.includeKey, hpaths, List.findSome?_append, hbefore, Option.none_or,
      List.findSome?_cons, canonical_of_walk hwalk]
    rfl
  obtain ⟨hplace, hroot⟩ := FileSystem.occupied_of_walk hnames hwalk
  rw [hkey]
  exact ⟨rfl, FileSystem.walk_canonicalText hplace hroot⟩

theorem rootKey_of_walk (hnames : ∀ name ∈ fs.workingDirectory, IsEntryName name) {root : String}
    (h : fs.walk root = .ok place) : rootKey fs root = canonicalText place ∧
      fs.walk (rootKey fs root) = .ok place := by
  have hkey : rootKey fs root = canonicalText place := by
    rw [rootKey, canonical_of_walk h]
    rfl
  obtain ⟨hplace, hroot⟩ := FileSystem.occupied_of_walk hnames h
  rw [hkey]
  exact ⟨rfl, FileSystem.walk_canonicalText hplace hroot⟩

/-- Two texts that lead to places and are these places as paths are equal exactly if the places are. -/
theorem key_eq_iff {key key' : String} {place' : List String}
    (h : key = canonicalText place ∧ fs.walk key = .ok place)
    (h' : key' = canonicalText place' ∧ fs.walk key' = .ok place') : key = key' ↔ place = place' := by
  constructor
  · rintro rfl
    exact Except.ok.inj (h.2.symm.trans h'.2)
  · rintro rfl
    exact h.1.trans h'.1.symm

/-- **Keys identify files.**  A target that can be read is read from a file at some place.  Its key is that
place written as a path, and this path leads to the file.  Two targets that can be read have the same key
exactly if they are read from the same file, and such a target has the key of the root exactly if it is
read from the file that the path of the root leads to. -/
theorem includeKey_reads (fs : FileSystem)
    (hnames : ∀ name ∈ fs.workingDirectory, IsEntryName name) (s : SearchPath) :
    (∀ target text, s.read fs target = .ok text ↔ ∃ place, s.ReadsAt fs target place text) ∧
    (∀ target place text, s.ReadsAt fs target place text →
      s.includeKey fs target = canonicalText place ∧ fs.walk (s.includeKey fs target) = .ok place) ∧
    (∀ target target' place place' text text', s.ReadsAt fs target place text →
      s.ReadsAt fs target' place' text' →
        (s.includeKey fs target = s.includeKey fs target' ↔ place = place')) ∧
    ∀ target root place place' text, s.ReadsAt fs target place text → fs.walk root = .ok place' →
      (s.includeKey fs target = rootKey fs root ↔ place = place') := by
  refine ⟨fun _ _ => read_eq_ok, fun _ _ _ h => h.includeKey hnames, ?_, ?_⟩
  · intro target target' place place' text text' h h'
    exact key_eq_iff (h.includeKey hnames) (h'.includeKey hnames)
  · intro target root place place' text h hroot
    exact key_eq_iff (h.includeKey hnames) (rootKey_of_walk hnames hroot)

/-- Two directories, of which the second is the working directory. -/
def librarySample : FileSystem where
  root := .directory [("lib", .directory [("b", .file [0x62])]), ("src", .directory [("main", .file [])])]
  workingDirectory := ["src"]

/-- The library is searched after the directory of the root. -/
def librarySearch : SearchPath := besides "main" ["../lib"]

theorem includeKey_reads_librarySample :
    (∀ name ∈ librarySample.workingDirectory, IsEntryName name) ∧
      librarySearch.includeKey librarySample "b" = "/lib/b" ∧
      (∃ place place', librarySearch.ReadsAt librarySample "b" place "b" ∧
        librarySearch.ReadsAt librarySample "..//lib/./b" place' "b" ∧
        (librarySearch.includeKey librarySample "b" =
          librarySearch.includeKey librarySample "..//lib/./b" ↔ place = place')) ∧
      ∃ place, librarySearch.ReadsAt librarySample "/src/main" place "" ∧
        (librarySearch.includeKey librarySample "/src/main" = rootKey librarySample "main" ↔
          place = ["src", "main"]) := by
  have hnames : ∀ name ∈ librarySample.workingDirectory, IsEntryName name := by
    intro name hname
    obtain rfl : name = "src" := List.mem_singleton.mp hname
    constructor <;> decide
  obtain ⟨hread, _, hsame, hroot⟩ := includeKey_reads librarySample hnames librarySearch
  obtain ⟨place, hplace⟩ := (hread "b" "b").mp rfl
  obtain ⟨place', hplace'⟩ := (hread "..//lib/./b" "b").mp rfl
  obtain ⟨main, hmain⟩ := (hread "/src/main" "").mp rfl
  exact ⟨hnames, by decide +kernel, ⟨place, place', hplace, hplace', hsame _ _ _ _ _ _ hplace hplace'⟩,
    main, hmain, hroot _ "main" _ _ _ hmain rfl⟩

end SearchPath

end Shading
