import Shading.Proofs.Binary.Lossless

/-! # Fields stand where they are looked for

Writing fills up by the length of what was just written, reading by its position in the bytes.  Both come to
the same (`encode_aligned`): every 64-bit field of a stored form stands at a multiple of eight, and reading
starts its fields exactly where writing put them.

Where reading starts a field is no part of its result.  But the readers of the format serve any way to take
bytes, and one such way notes the place of each field (`Noting`).  What is read with notes and without is
compared step by step (`Follows`). -/

namespace Shading.Binary

/-! ### What is written -/

/-- A field starts here and takes some bytes. -/
structure Start where
  position : Nat
  size : Nat
deriving DecidableEq, Repr

/-- Where fields stand that are written one after another. -/
def places : Nat → List Field → List Start
  | _, [] => []
  | pos, f :: fs => ⟨pos, f.stored.length⟩ :: places (pos + f.stored.length) fs

theorem places_append (pos : Nat) (fs gs : List Field) :
    places pos (fs ++ gs) = places pos fs ++ places (pos + (storedAll fs).length) gs := by
  induction fs generalizing pos with
  | nil => rfl
  | cons f fs ih =>
      rw [List.cons_append, places, places, ih, storedAll_cons, List.length_append, Nat.add_assoc]
      rfl

/-- The field may stand at a place: a 64-bit field at a multiple of eight, and filler where it ends at the
next such multiple. -/
def Field.Fits (pos : Nat) : Field → Prop
  | .long _ => pos % 8 = 0
  | .filler count => count < 8 ∧ (pos + count) % 8 = 0
  | .word _ | .bytes _ => True

/-- Fields that are written one after another all stand where they may. -/
def AllFit : Nat → List Field → Prop
  | _, [] => True
  | pos, f :: fs => f.Fits pos ∧ AllFit (pos + f.stored.length) fs

theorem allFit_append {pos : Nat} {fs gs : List Field} :
    AllFit pos (fs ++ gs) ↔ AllFit pos fs ∧ AllFit (pos + (storedAll fs).length) gs := by
  induction fs generalizing pos with
  | nil => simp [AllFit]
  | cons f fs ih =>
      rw [List.cons_append, AllFit, AllFit, ih, storedAll_cons, List.length_append, Nat.add_assoc,
        and_assoc]

/-- The fields may stand at any multiple of eight and end at one. -/
structure IsRecord (fields : List Field) : Prop where
  fit : ∀ pos, pos % 8 = 0 → AllFit pos fields
  even : (storedAll fields).length % 8 = 0

theorem isRecord_nil : IsRecord [] := ⟨fun _ _ => trivial, rfl⟩

theorem IsRecord.append {fs gs : List Field} (hfs : IsRecord fs) (hgs : IsRecord gs) :
    IsRecord (fs ++ gs) := by
  refine ⟨fun pos hpos => allFit_append.mpr ⟨hfs.fit pos hpos, hgs.fit _ ?_⟩, ?_⟩
  · rw [Nat.add_mod, hpos, hfs.even]
  · rw [storedAll_append, List.length_append, Nat.add_mod, hfs.even, hgs.even]

theorem isRecord_flatMap {α : Type} {fields : α → List Field} (h : ∀ a, IsRecord (fields a))
    (as : List α) : IsRecord (as.flatMap fields) := by
  induction as with
  | nil => exact isRecord_nil
  | cons a as ih => exact (h a).append ih

theorem isRecord_long (w : UInt64) : IsRecord [.long w] :=
  ⟨fun _ hpos => ⟨hpos, trivial⟩, by simp [Field.stored]⟩

theorem isRecord_counted {α : Type} {fields : α → List Field} (h : ∀ a, IsRecord (fields a))
    (as : List α) : IsRecord (Layout.count as.length :: as.flatMap fields) :=
  (isRecord_long _).append (isRecord_flatMap h as)

/-- The field may stand anywhere. -/
def Field.isFree : Field → Bool
  | .word _ | .bytes _ => true
  | .long _ | .filler _ => false

theorem allFit_of_isFree {fields : List Field} (h : ∀ f ∈ fields, f.isFree = true) (pos : Nat) :
    AllFit pos fields := by
  induction fields generalizing pos with
  | nil => trivial
  | cons f fs ih =>
      obtain ⟨hf, hfs⟩ := List.forall_mem_cons.mp h
      refine ⟨?_, ih hfs _⟩
      cases f with
      | word w => trivial
      | bytes data => trivial
      | long w => cases hf
      | filler count => cases hf

/-- Fields that may stand anywhere become a record by filler. -/
theorem isRecord_filled {fields : List Field} (h : ∀ f ∈ fields, f.isFree = true) {size : Nat}
    (hsize : (storedAll fields).length = size) : IsRecord (fields ++ [.filler (fillTo8 size)]) := by
  have hfill := add_fillTo8 size
  have hsmall : fillTo8 size < 8 := Nat.mod_lt _ (by decide)
  constructor
  · intro pos hpos
    refine allFit_append.mpr ⟨allFit_of_isFree h pos, ⟨hsmall, ?_⟩, trivial⟩
    rw [hsize]
    omega
  · rw [storedAll_append, List.length_append, hsize]
    simpa [Field.stored] using hfill

theorem isRecord_word (w : UInt32) : IsRecord [.word w, .filler 4] :=
  @isRecord_filled [_] (List.forall_mem_singleton.mpr rfl) _ rfl

theorem isRecord_words (words : List UInt32) :
    IsRecord (words.map .word ++ [.filler (fillTo8 (4 * words.length))]) := by
  refine isRecord_filled (fun f hf => ?_) (by rw [storedAll_words, flatMap_bytes32_length])
  obtain ⟨w, _, rfl⟩ := List.mem_map.mp hf
  rfl

/-! ### Parts of a stored form -/

theorem isRecord_parameter (p : Parameter) : IsRecord (Layout.parameter p) := by
  have hwords := isRecord_words (p.qualifiers.map Qualifier.number)
  rw [List.map_map, List.length_map] at hwords
  exact ((isRecord_long p.type.number).append (isRecord_word _)).append hwords

theorem isRecord_parameters (ps : List Parameter) : IsRecord (Layout.parameters ps) :=
  isRecord_counted isRecord_parameter ps

theorem isRecord_range (r : Range) : IsRecord (Layout.range r) :=
  (isRecord_long r.offset).append (isRecord_long r.length)

theorem isRecord_entrypoint (e : Entrypoint) : IsRecord (Layout.entrypoint e) :=
  ((((isRecord_word e.kind.number).append (isRecord_range e.code)).append
    (isRecord_range e.name)).append (isRecord_parameters e.inputs)).append (isRecord_parameters e.outputs)

theorem isRecord_function (f : Function) : IsRecord (Layout.function f) :=
  (((isRecord_range f.code).append (isRecord_range f.name)).append
    (isRecord_long f.returnType.number)).append (isRecord_parameters f.parameters)

theorem isRecord_strings (data : List UInt8) : IsRecord (Layout.strings data) := by
  have hlength : (storedAll [.bytes data]).length = data.length := by simp [Field.stored]
  exact (isRecord_long _).append
    (@isRecord_filled [_] (List.forall_mem_singleton.mpr rfl) _ hlength)

theorem isRecord_code (words : List UInt32) : IsRecord (Layout.code words) :=
  (isRecord_long _).append (isRecord_words words)

/-- The whole of a stored form is a record. -/
theorem isRecord_layout (b : Binary) : IsRecord b.layout := by
  have hopening : IsRecord [.word magic, .word Version.current.toWord] :=
    ⟨fun pos _ => allFit_of_isFree (by simp [Field.isFree]) pos, rfl⟩
  have hentrypoints := isRecord_counted isRecord_entrypoint b.entrypoints
  have hfunctions := isRecord_counted isRecord_function b.functions
  have htypes : IsRecord [Layout.count 0] := isRecord_long _
  have hcontents : IsRecord b.contentFields :=
    (((hentrypoints.append hfunctions).append (isRecord_strings b.strings)).append htypes).append
      (isRecord_code b.code)
  rw [layout_eq]
  exact hopening.append hcontents

/-- Each field of a stored form stands where it may. -/
theorem fits_of_layout {b : Binary} {front back : List Field} {f : Field}
    (h : b.layout = front ++ f :: back) : f.Fits (storedAll front).length := by
  have hall := (isRecord_layout b).fit 0 rfl
  rw [h, allFit_append, Nat.zero_add] at hall
  exact hall.2.1

/-! ### What is read, with notes -/

/-- Readers that note where they start fields. -/
abbrev Noting := StateT Unread (ExceptT Fault (StateM (List Start)))

namespace Noting

open Decoder

variable {α β : Type}

/-- A step that takes a field, with a note of its place. -/
def field (size : Nat) (step : Decoder α) : Noting α :=
  fun u notes => (step u, notes ++ [⟨u.position, size⟩])

instance : Feed Noting where
  take count := field count (Decoder.take count)
  word := field 4 Decoder.word
  long := field 8 Decoder.long

/-- What is read from here, and the notes after it. -/
def noted (x : Noting α) (u : Unread) (notes : List Start) :
    Except Fault (α × Unread) × List Start := x u notes

theorem noted_bind (x : Noting α) (f : α → Noting β) (u : Unread) (notes : List Start) :
    noted (x >>= f) u notes =
      noted (fun _ => ExceptT.bindCont (fun found => f found.1 found.2) (noted x u notes).1) u
        (noted x u notes).2 := rfl

/-- From here, reading with notes gives the same as reading.  If that is a result, then its fields are noted
one after another where fields stand that are written from here. -/
def Follows (x : Noting α) (d : Decoder α) (u : Unread) (post : α → List Field → Prop) : Prop :=
  ∀ notes, ∃ more, noted x u notes = (d u, notes ++ more) ∧ ∀ a v, d u = .ok (a, v) →
    ∃ fields, post a fields ∧ more = places u.position fields ∧
      v.position = u.position + (storedAll fields).length

variable {x : Noting α} {d : Decoder α} {u : Unread}

theorem Follows.bind {f : α → Noting β} {g : α → Decoder β} {P : α → List Field → Prop}
    {Q : β → List Field → Prop} (hx : Follows x d u P)
    (hf : ∀ a v fs, P a fs → v.position = u.position + (storedAll fs).length →
      Follows (f a) (g a) v fun b gs => Q b (fs ++ gs)) : Follows (x >>= f) (d >>= g) u Q := by
  intro notes
  obtain ⟨more, hnoted, hresult⟩ := hx notes
  cases hd : d u with
  | error fault =>
      rw [hd] at hnoted
      refine ⟨more, ?_, fun b w h => ?_⟩
      · rw [noted_bind, hnoted, Decoder.bind_eq, hd]
        rfl
      · obtain ⟨a, v, hread, _⟩ := Decoder.bind_eq_ok.mp h
        rw [hd] at hread
        cases hread
  | ok read =>
      obtain ⟨a, v⟩ := read
      rw [hd] at hnoted
      obtain ⟨fs, hP, rfl, hposition⟩ := hresult a v hd
      obtain ⟨rest, hnoted', hresult'⟩ := hf a v fs hP hposition (notes ++ places u.position fs)
      have hbind : (d >>= g) u = g a v := bind_of_ok hd
      refine ⟨places u.position fs ++ rest, ?_, fun b w h => ?_⟩
      · rw [noted_bind, hnoted, hbind, ← List.append_assoc]
        exact hnoted'
      · rw [hbind] at h
        obtain ⟨gs, hQ, rfl, hposition'⟩ := hresult' b w h
        refine ⟨fs ++ gs, hQ, ?_, ?_⟩
        · rw [places_append, hposition]
        · rw [hposition', hposition, storedAll_append, List.length_append, Nat.add_assoc]

theorem Follows.mono {P Q : α → List Field → Prop} (hx : Follows x d u P)
    (h : ∀ a fs, P a fs → Q a fs) : Follows x d u Q := by
  intro notes
  obtain ⟨more, hnoted, hresult⟩ := hx notes
  refine ⟨more, hnoted, fun a v hread => ?_⟩
  obtain ⟨fs, hP, hrest⟩ := hresult a v hread
  exact ⟨fs, h a fs hP, hrest⟩

theorem Follows.and_read {P : α → List Field → Prop} (hx : Follows x d u P) :
    Follows x d u fun a fs => (∃ v, d u = .ok (a, v)) ∧ P a fs := by
  intro notes
  obtain ⟨more, hnoted, hresult⟩ := hx notes
  refine ⟨more, hnoted, fun a v hread => ?_⟩
  obtain ⟨fs, hP, hrest⟩ := hresult a v hread
  exact ⟨fs, ⟨⟨v, hread⟩, hP⟩, hrest⟩

theorem follows_pure {a : α} {P : α → List Field → Prop} (h : P a []) :
    Follows (pure a) (pure a) u P := by
  intro notes
  refine ⟨[], ?_, fun b v hread => ?_⟩
  · rw [List.append_nil]
    rfl
  · obtain ⟨rfl, rfl⟩ := pure_eq_ok.mp hread
    exact ⟨[], h, rfl, rfl⟩

theorem follows_throw {fault : Fault} {P : α → List Field → Prop} :
    Follows (throw fault) (throw fault) u P := by
  intro notes
  refine ⟨[], ?_, fun _ _ hread => absurd hread throw_ne_ok⟩
  rw [List.append_nil]
  rfl

/-- Asking for the position takes no bytes. -/
theorem Follows.get {f : Unread → Noting α} {g : Unread → Decoder α} {P : α → List Field → Prop}
    (h : Follows (f u) (g u) u P) : Follows (MonadState.get >>= f) (MonadState.get >>= g) u P := h

/-- A check of what was read. -/
theorem Follows.unless {c : Prop} {_ : Decidable c} {fault : Fault} {f : Unit → Noting α}
    {g : Unit → Decoder α} {P : α → List Field → Prop} (h : Follows (f ()) (g ()) u P) :
    Follows (if c then throw fault >>= f else f ()) (if c then throw fault >>= g else g ()) u P := by
  split
  · exact follows_throw.bind fun _ _ _ hfalse => absurd hfalse id
  · exact h

theorem follows_checkRoom {place count size : Nat} :
    Follows (checkRoom place count size) (checkRoom place count size) u fun _ fs => fs = [] := by
  refine Follows.get ?_
  split
  · exact follows_pure rfl
  · exact follows_throw

/-- A step that takes one field.  Which one it is does not matter, only how long it is. -/
theorem follows_field {field : α → Field} {size : Nat} (hsize : ∀ a v, d u = .ok (a, v) →
      (field a).stored.length = size ∧ v.position = u.position + size) :
    Follows (Noting.field size d) d u fun a fs => fs = [field a] := by
  intro notes
  refine ⟨[⟨u.position, size⟩], rfl, fun a v hread => ?_⟩
  obtain ⟨hfield, hposition⟩ := hsize a v hread
  have hlength : (storedAll [field a]).length = size := by
    rw [storedAll_cons, storedAll_nil, List.append_nil, hfield]
  refine ⟨[field a], rfl, ?_, ?_⟩
  · rw [← hfield]
    rfl
  · rw [hlength, hposition]

theorem follows_word (field : UInt32 → Field) (h : ∀ w, (field w).stored.length = 4) :
    Follows Feed.word Feed.word u fun w fs => fs = [field w] :=
  follows_field fun w _ hread => ⟨h w, (spans_word hread).position_eq⟩

theorem follows_long (field : UInt64 → Field) (h : ∀ w, (field w).stored.length = 8) :
    Follows Feed.long Feed.long u fun w fs => fs = [field w] :=
  follows_field fun w _ hread => ⟨h w, (spans_long hread).position_eq⟩

theorem follows_take {n : Nat} (field : List UInt8 → Field)
    (h : ∀ s, s.length = n → (field s).stored.length = n) :
    Follows (Feed.take n) (Feed.take n) u fun s fs => fs = [field s] := by
  refine follows_field fun s v hread => ?_
  obtain ⟨hlength, hspan⟩ := spans_take hread
  refine ⟨h s hlength, ?_⟩
  rw [hspan.position_eq, ← hlength]
  simp [Field.stored]

/-- Filler is passed over by the position, whatever it was written by. -/
theorem follows_align {size : Nat} (h : u.position % 8 = size % 8) :
    Follows align align u fun _ fs => fs = [.filler (fillTo8 size)] := by
  have hsize : (Field.filler (fillTo8 size)).stored.length = fillTo8 u.position := by
    rw [fillTo8_congr h]
    exact List.length_replicate
  refine Follows.get ((follows_take (fun _ => .filler (fillTo8 size)) fun _ _ => hsize).bind ?_)
  rintro _ _ _ rfl _
  exact follows_pure rfl

theorem follows_count {size : Nat} :
    Follows (count size) (count size) u fun n fs => fs = [Layout.count n] := by
  refine Follows.get ?_
  refine (follows_long (fun w => Layout.count w.toNat) fun _ => rfl).bind fun n w fs hfs _ => ?_
  refine follows_checkRoom.bind fun _ _ gs hgs _ => follows_pure ?_
  rw [hfs, hgs]
  rfl

/-- Items one after another, where `I` holds of the places they stand at. -/
theorem follows_times {I : Nat → Prop} {item : Noting α} {plain : Decoder α} {fields : α → List Field}
    (hitem : ∀ u, I u.position → Follows item plain u fun a fs => fs = fields a)
    (hnext : ∀ pos a, I pos → I (pos + (storedAll (fields a)).length)) :
    ∀ n u, I u.position → Follows (times item n) (times plain n) u
      fun as fs => as.length = n ∧ fs = as.flatMap fields
  | 0, _, _ => follows_pure ⟨rfl, rfl⟩
  | n + 1, u, hu => by
      refine (hitem u hu).bind fun first v fs hfs hv => ?_
      have hI : I v.position := by
        rw [hv, hfs]
        exact hnext _ first hu
      refine (follows_times hitem hnext n v hI).bind fun rest w gs hgs _ => follows_pure ?_
      rw [hfs, hgs.2, List.append_nil, List.flatMap_cons, List.length_cons, hgs.1]
      exact ⟨rfl, rfl⟩

/-! ### Parts of a stored form -/

/-- At a multiple of eight the reader follows the fields of what it gives. -/
def FollowsRecord (x : Noting α) (d : Decoder α) (fields : α → List Field) : Prop :=
  ∀ u, u.position % 8 = 0 → Follows x d u fun a fs => fs = fields a

theorem position_even {v : Unread} {fs : List Field} (hfs : IsRecord fs) (hu : u.position % 8 = 0)
    (hv : v.position = u.position + (storedAll fs).length) : v.position % 8 = 0 := by
  rw [hv, Nat.add_mod, hu, hfs.even]

/-- A record leaves the reader at a multiple of eight. -/
theorem FollowsRecord.step {fields : α → List Field} {f : α → Noting β} {g : α → Decoder β}
    {Q : β → List Field → Prop} (hx : FollowsRecord x d fields) (hrecord : ∀ a, IsRecord (fields a))
    (hu : u.position % 8 = 0) (hf : ∀ a v, v.position % 8 = 0 →
      Follows (f a) (g a) v fun b gs => Q b (fields a ++ gs)) : Follows (x >>= f) (d >>= g) u Q := by
  refine (hx u hu).bind fun a v fs hfs hv => ?_
  subst hfs
  exact hf a v (position_even (hrecord a) hu hv)

theorem followsRecord_long (field : UInt64 → Field) (h : ∀ w, (field w).stored.length = 8) :
    FollowsRecord Feed.long Feed.long fun w => [field w] :=
  fun _ _ => follows_long field h

theorem followsRecord_counted {fields : α → List Field} {size : Nat} (hitem : FollowsRecord x d fields)
    (hrecord : ∀ a, IsRecord (fields a)) :
    FollowsRecord (count size >>= times x) (count size >>= times d)
      fun as => Layout.count as.length :: as.flatMap fields := by
  intro u hu
  refine follows_count.bind fun n v fs hfs hv => ?_
  have hv : v.position % 8 = 0 := position_even (hfs ▸ isRecord_long _) hu hv
  have hnext : ∀ pos a, pos % 8 = 0 → (pos + (storedAll (fields a)).length) % 8 = 0 :=
    fun pos a hpos => by rw [Nat.add_mod, hpos, (hrecord a).even]
  refine (follows_times (I := fun pos => pos % 8 = 0) hitem hnext n v hv).mono fun as gs hgs => ?_
  rw [hfs, hgs.2, ← hgs.1]
  rfl

theorem followsRecord_range : FollowsRecord range range Layout.range := by
  intro u _
  refine (follows_long .long fun _ => rfl).bind fun offset _ fs hfs _ => ?_
  refine (follows_long .long fun _ => rfl).bind fun length _ gs hgs _ => follows_pure ?_
  rw [hfs, hgs]
  rfl

theorem follows_qualifier : Follows qualifier qualifier u fun q fs => fs = [.word q.number] := by
  refine (follows_word .word fun _ => rfl).bind fun value v fs hfs _ => ?_
  cases hq : Qualifier.ofNumber? value with
  | none => exact follows_throw
  | some q =>
      refine follows_pure ?_
      rw [hfs, ← qualifier_number hq]
      rfl

theorem followsRecord_parameter : FollowsRecord parameter parameter Layout.parameter := by
  intro u hu
  refine (follows_long .long fun _ => rfl).bind fun number u₁ fs₁ h₁ p₁ => ?_
  refine Follows.get ?_
  refine (follows_word .word fun _ => rfl).bind fun n u₃ fs₃ h₃ p₃ => ?_
  refine follows_checkRoom.bind fun _ u₄ fs₄ h₄ p₄ => ?_
  refine (follows_word (fun _ => .filler 4) fun _ => rfl).bind fun _ u₅ fs₅ h₅ p₅ => ?_
  have htimes := follows_times (I := fun _ => True) (fun v _ => follows_qualifier (u := v))
    (fun _ _ _ => trivial) n.toNat u₅ trivial
  refine htimes.bind fun qualifiers u₆ fs₆ h₆ p₆ => ?_
  have hwords : fs₆ = qualifiers.map fun q => .word q.number := h₆.2.trans List.map_eq_flatMap.symm
  have hcount : n = Layout.qualifierCount qualifiers := by
    apply UInt32.toNat_inj.mp
    rw [Decoder.qualifierCount_toNat (h₆.1 ▸ n.toNat_lt), h₆.1]
  -- reading fills up by its position, writing by the number of qualifiers
  have hposition : u₆.position % 8 = (4 * qualifiers.length) % 8 := by
    subst h₁ h₃ h₄ h₅ hwords
    rw [Decoder.length_storedAll_qualifiers] at p₆
    simp [Field.stored] at p₁ p₃ p₄ p₅
    omega
  refine (follows_align hposition).bind fun _ u₇ fs₇ h₇ p₇ => follows_pure ?_
  rw [h₁, h₃, h₄, h₅, hwords, h₇, hcount]
  rfl

theorem followsRecord_parameters : FollowsRecord parameters parameters Layout.parameters :=
  followsRecord_counted followsRecord_parameter isRecord_parameter

theorem followsRecord_entrypoint : FollowsRecord entrypoint entrypoint Layout.entrypoint := by
  intro u hu
  refine (follows_word .word fun _ => rfl).bind fun value u₁ fs₁ h₁ p₁ => ?_
  cases hkind : EntrypointKind.ofNumber? value with
  | none => exact follows_throw
  | some kind =>
      refine (follows_word (fun _ => .filler 4) fun _ => rfl).bind fun _ u₂ fs₂ h₂ p₂ => ?_
      have even₂ : u₂.position % 8 = 0 := by
        subst h₁ h₂
        simp [Field.stored] at p₁ p₂
        omega
      refine followsRecord_range.step isRecord_range even₂ fun code u₃ even₃ => ?_
      refine followsRecord_range.step isRecord_range even₃ fun name u₄ even₄ => ?_
      refine followsRecord_parameters.step isRecord_parameters even₄ fun inputs u₅ even₅ => ?_
      refine followsRecord_parameters.step isRecord_parameters even₅ fun outputs _ _ =>
        follows_pure ?_
      rw [h₁, h₂, ← Decoder.kind_number hkind]
      simp [Layout.entrypoint]

theorem followsRecord_function : FollowsRecord function function Layout.function := by
  intro u hu
  refine followsRecord_range.step isRecord_range hu fun code u₁ even₁ => ?_
  refine followsRecord_range.step isRecord_range even₁ fun name u₂ even₂ => ?_
  refine (followsRecord_long .long fun _ => rfl).step isRecord_long even₂ fun number u₃ even₃ => ?_
  refine followsRecord_parameters.step isRecord_parameters even₃ fun parameters _ _ => follows_pure ?_
  simp [Layout.function]

theorem followsRecord_strings : FollowsRecord Decoder.strings Decoder.strings Layout.strings := by
  intro u hu
  refine follows_count.bind fun n u₁ fs₁ h₁ p₁ => ?_
  have htake : Follows (Feed.take n) (Feed.take n) u₁ fun data fs => fs = [.bytes data] :=
    follows_take .bytes fun _ hlength => hlength
  refine htake.and_read.bind fun data u₂ fs₂ h₂ p₂ => ?_
  obtain ⟨⟨v, hread⟩, rfl⟩ := h₂
  obtain rfl : data.length = n := (spans_take hread).1
  have hposition : u₂.position % 8 = data.length % 8 := by
    rw [h₁] at p₁
    simp [Layout.count, Field.stored] at p₁ p₂
    omega
  refine (follows_align hposition).bind fun _ _ fs₃ h₃ _ => follows_pure ?_
  rw [h₁, h₃]
  rfl

theorem followsRecord_code : FollowsRecord Decoder.code Decoder.code Layout.code := by
  intro u hu
  refine follows_count.bind fun n u₁ fs₁ h₁ p₁ => ?_
  have htimes := follows_times (I := fun _ => True)
    (fun v _ => follows_word (u := v) .word fun _ => rfl) (fun _ _ _ => trivial) n u₁ trivial
  refine htimes.bind fun words u₂ fs₂ h₂ p₂ => ?_
  have hwords : fs₂ = words.map .word := h₂.2.trans List.map_eq_flatMap.symm
  have hposition : u₂.position % 8 = (4 * words.length) % 8 := by
    rw [h₁] at p₁
    rw [hwords, storedAll_words, flatMap_bytes32_length] at p₂
    simp [Layout.count, Field.stored] at p₁
    omega
  refine (follows_align hposition).bind fun _ _ fs₃ h₃ _ => follows_pure ?_
  rw [h₁, hwords, h₃, ← h₂.1]
  simp [Layout.code]

theorem followsRecord_contents : FollowsRecord contents contents contentFields := by
  intro u hu
  refine (followsRecord_counted followsRecord_entrypoint isRecord_entrypoint).step
    (isRecord_counted isRecord_entrypoint) hu fun entrypoints u₁ even₁ => ?_
  refine (followsRecord_counted followsRecord_function isRecord_function).step
    (isRecord_counted isRecord_function) even₁ fun functions u₂ even₂ => ?_
  refine followsRecord_strings.step isRecord_strings even₂ fun strings u₃ even₃ => ?_
  refine (followsRecord_long (fun _ => Layout.count 0) fun _ => rfl).step (fun _ => isRecord_long _)
    even₃ fun types u₄ even₄ => ?_
  refine Follows.unless ?_
  refine followsRecord_code.step isRecord_code even₄ fun code _ _ => follows_pure ?_
  simp [contentFields]

theorem follows_binary (h : u.position = 0) : Follows binary binary u fun b fs => fs = b.layout := by
  refine (follows_word (fun _ => .word magic) fun _ => rfl).bind fun found u₁ fs₁ h₁ p₁ => ?_
  refine Follows.unless ?_
  refine (follows_word (fun _ => .word Version.current.toWord) fun _ => rfl).bind
    fun version u₂ fs₂ h₂ p₂ => ?_
  refine Follows.unless ?_
  have even₂ : u₂.position % 8 = 0 := by
    subst h₁ h₂
    simp [Field.stored] at p₁ p₂
    omega
  refine (followsRecord_contents u₂ even₂).mono fun b fs₃ h₃ => ?_
  rw [h₁, h₂, h₃, layout_eq]
  rfl

/-- Where fields are started when a binary is read from some bytes. -/
def starts (bytes : List UInt8) : List Start := (noted binary ⟨0, bytes⟩ []).2

/-- With notes the same is read from any bytes. -/
theorem noted_binary (bytes : List UInt8) :
    (noted binary ⟨0, bytes⟩ []).1 = (binary : Decoder Binary) ⟨0, bytes⟩ := by
  obtain ⟨more, hnoted, _⟩ := follows_binary (u := ⟨0, bytes⟩) rfl []
  rw [hnoted]

/-- Whatever bytes a binary is read from, reading starts fields where they are written. -/
theorem starts_of_read {bytes rest : List UInt8} {b : Binary} (h : read bytes = .ok (b, rest)) :
    starts bytes = places 0 b.layout := by
  obtain ⟨more, hnoted, hresult⟩ := follows_binary (u := ⟨0, bytes⟩) rfl []
  rw [read_eq] at h
  cases hbinary : (binary : Decoder Binary) ⟨0, bytes⟩ with
  | error fault =>
      rw [hbinary] at h
      cases h
  | ok x =>
      rw [hbinary] at h
      obtain ⟨rfl, rfl⟩ := Prod.mk.inj (Except.ok.inj h)
      obtain ⟨fs, rfl, rfl, _⟩ := hresult x.1 x.2 hbinary
      rw [starts, hnoted, List.nil_append]

end Noting

/-- **Alignment.**  In the stored form of any binary every 64-bit field stands at a multiple of eight, all
filler is the shortest that ends at such a multiple, and the whole has a length divisible by eight.  When a
binary is read, from its stored form or from any other bytes, the fields are started one after another at
the places where its stored form has them. -/
theorem encode_aligned (b : Binary) :
    (∀ front w back, b.layout = front ++ .long w :: back → (storedAll front).length % 8 = 0) ∧
    (∀ front count back, b.layout = front ++ .filler count :: back →
      count < 8 ∧ ((storedAll front).length + count) % 8 = 0) ∧
    b.encode = storedAll b.layout ∧ b.encode.length % 8 = 0 ∧
    (∀ bytes, (Noting.noted Decoder.binary ⟨0, bytes⟩ []).1 = (Decoder.binary : Decoder Binary) ⟨0, bytes⟩) ∧
    (∀ bytes rest, read bytes = .ok (b, rest) → Noting.starts bytes = places 0 b.layout) ∧
    ((∀ p ∈ b.allParameters, p.qualifiers.length < UInt32.size) → b.encode.length < UInt64.size →
      Noting.starts b.encode = places 0 b.layout) := by
  refine ⟨fun front w back h => fits_of_layout h, fun front count back h => fits_of_layout h, rfl,
    (isRecord_layout b).even, Noting.noted_binary, fun bytes rest h => Noting.starts_of_read h, ?_⟩
  intro hqualifiers hlength
  exact Noting.starts_of_read (read_encode hqualifiers hlength)

/-- The stored form of the sample, and bytes with another version and other filler that are read as it. -/
theorem encode_aligned_oddSample :
    decodeStrict foreignSample = .ok oddSample ∧
      (∀ p ∈ oddSample.allParameters, p.qualifiers.length < UInt32.size) ∧
      oddSample.encode.length < UInt64.size ∧
      Noting.starts foreignSample = places 0 oddSample.layout ∧
      Noting.starts oddSample.encode = places 0 oddSample.layout ∧
      (places 0 oddSample.layout).take 5 = [⟨0, 4⟩, ⟨4, 4⟩, ⟨8, 8⟩, ⟨16, 4⟩, ⟨20, 4⟩] := by
  have hread : decodeStrict foreignSample = .ok oddSample := by decide +kernel
  have hqualifiers : ∀ p ∈ oddSample.allParameters, p.qualifiers.length < UInt32.size := by decide
  have hlength : oddSample.encode.length < UInt64.size := by decide +kernel
  obtain ⟨_, _, _, _, _, hforeign, hown⟩ := encode_aligned oddSample
  exact ⟨hread, hqualifiers, hlength, hforeign _ _ (decodeStrict_eq_ok.mp hread),
    hown hqualifiers hlength, by decide +kernel⟩

end Shading.Binary
