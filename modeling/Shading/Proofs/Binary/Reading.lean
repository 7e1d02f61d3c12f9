import Shading.Binary.Decode

/-! # What readers make of stored fields

`Reads d pos s a` says that the reader `d`, started at position `pos`, takes exactly the bytes `s` and
gives `a`, whatever stands behind them.  The predicate is closed under sequencing (`Reads.bind`) and
repetition (`Reads.times`), and there is one lemma for each kind of field.

A count looks ahead: it is refused if the bytes left cannot hold the items.  `Reads.counted` therefore
treats the count and its items together, and needs no more than that every item is stored in at least
the bytes the reader asks for. -/

namespace Shading.Word

/-- A word is the word of its four bytes. -/
theorem ofBytes32_bytes (w : UInt32) :
    ofBytes32 w.toUInt8 (w >>> 8).toUInt8 (w >>> 16).toUInt8 (w >>> 24).toUInt8 = w := by
  apply UInt32.toBitVec_inj.mp
  apply BitVec.eq_of_getLsbD_eq
  intro i hi
  simp only [ofBytes32, UInt32.toBitVec_or, UInt32.toBitVec_shiftLeft, UInt8.toBitVec_toUInt32,
    UInt32.toBitVec_toUInt8, UInt32.toBitVec_shiftRight, BitVec.getLsbD_or,
    BitVec.getLsbD_setWidth, BitVec.shiftLeft_eq', BitVec.ushiftRight_eq',
    BitVec.getLsbD_shiftLeft, BitVec.getLsbD_ushiftRight, UInt32.toBitVec_ofNat]
  -- bit `i` comes from the byte in whose range it lies
  rcases Nat.lt_or_ge i 8 with h8 | h8
  · grind
  rcases Nat.lt_or_ge i 16 with h16 | h16
  · grind
  · grind

/-- A long word is the long word of its two halves. -/
theorem ofHalves_halves (w : UInt64) : ofHalves w.toUInt32 (w >>> 32).toUInt32 = w := by
  apply UInt64.toBitVec_inj.mp
  apply BitVec.eq_of_getLsbD_eq
  intro i hi
  simp only [ofHalves, UInt64.toBitVec_or, UInt64.toBitVec_shiftLeft, UInt32.toBitVec_toUInt64,
    UInt64.toBitVec_toUInt32, UInt64.toBitVec_shiftRight, BitVec.getLsbD_or,
    BitVec.getLsbD_setWidth, BitVec.shiftLeft_eq', BitVec.ushiftRight_eq',
    BitVec.getLsbD_shiftLeft, BitVec.getLsbD_ushiftRight, UInt64.toBitVec_ofNat]
  grind

@[simp] theorem bytes32_length (w : UInt32) : (bytes32 w).length = 4 := rfl

@[simp] theorem bytes64_length (w : UInt64) : (bytes64 w).length = 8 := rfl

end Shading.Word

namespace Shading.Binary

/-! ### Filler -/

theorem fillTo8_congr {m n : Nat} (h : m % 8 = n % 8) : fillTo8 m = fillTo8 n := by
  unfold fillTo8
  rw [h]

theorem add_fillTo8 (n : Nat) : (n + fillTo8 n) % 8 = 0 := by
  unfold fillTo8
  omega

/-- The bytes of several fields, one after the other. -/
def storedAll (fields : List Field) : List UInt8 := fields.flatMap Field.stored

theorem encode_eq_storedAll (b : Binary) : b.encode = storedAll b.layout := rfl

@[simp] theorem storedAll_nil : storedAll [] = [] := rfl

@[simp] theorem storedAll_cons (f : Field) (fs : List Field) :
    storedAll (f :: fs) = f.stored ++ storedAll fs := rfl

@[simp] theorem storedAll_append (fs gs : List Field) :
    storedAll (fs ++ gs) = storedAll fs ++ storedAll gs := List.flatMap_append

theorem storedAll_flatMap {α : Type} (f : α → List Field) (xs : List α) :
    storedAll (xs.flatMap f) = xs.flatMap (fun x => storedAll (f x)) := by
  unfold storedAll
  rw [List.flatMap_assoc]

theorem storedAll_words (ws : List UInt32) :
    storedAll (ws.map .word) = ws.flatMap Word.bytes32 := by
  unfold storedAll
  rw [List.flatMap_map]
  rfl

theorem flatMap_bytes32_length (ws : List UInt32) :
    (ws.flatMap Word.bytes32).length = 4 * ws.length := by
  induction ws with
  | nil => rfl
  | cons w ws ih =>
      rw [List.flatMap_cons, List.length_append, ih, Word.bytes32_length, List.length_cons]
      omega

/-- Items of at least `size` bytes take at least `size` times their number. -/
theorem length_flatMap_ge {α : Type} {f : α → List UInt8} {size : Nat} {xs : List α}
    (h : ∀ x ∈ xs, size ≤ (f x).length) : xs.length * size ≤ (xs.flatMap f).length := by
  induction xs with
  | nil => simp
  | cons x xs ih =>
      have hx := h x List.mem_cons_self
      have hxs := ih fun y hy => h y (List.mem_cons_of_mem x hy)
      rw [List.flatMap_cons, List.length_append, List.length_cons, Nat.succ_mul]
      omega

theorem length_flatMap_mod8 {α : Type} {f : α → List UInt8} {xs : List α}
    (h : ∀ x ∈ xs, (f x).length % 8 = 0) : (xs.flatMap f).length % 8 = 0 := by
  induction xs with
  | nil => rfl
  | cons x xs ih =>
      have hx := h x List.mem_cons_self
      have hxs := ih fun y hy => h y (List.mem_cons_of_mem x hy)
      rw [List.flatMap_cons, List.length_append]
      omega

theorem length_le_flatMap {α : Type} (f : α → List UInt8) {xs : List α} {x : α} (h : x ∈ xs) :
    (f x).length ≤ (xs.flatMap f).length :=
  (List.sublist_flatten_of_mem (List.mem_map_of_mem h)).length_le

/-! ### Readers that take exactly some bytes -/

namespace Decoder

variable {α β : Type}

/-- Started at `pos`, the reader takes the bytes `s` and gives `a`, whatever follows. -/
def Reads (d : Decoder α) (pos : Nat) (s : List UInt8) (a : α) : Prop :=
  ∀ rest, d ⟨pos, s ++ rest⟩ = .ok (a, ⟨pos + s.length, rest⟩)

/-- The bytes `s` are a record that stands at a multiple of eight and ends at one. -/
def ReadsRecord (d : Decoder α) (s : List UInt8) (a : α) : Prop :=
  s.length % 8 = 0 ∧ ∀ pos, pos % 8 = 0 → Reads d pos s a

theorem bind_eq {d : Decoder α} {f : α → Decoder β} (u : Unread) :
    (d >>= f) u = (d u).bind fun x => f x.1 x.2 := rfl

theorem bind_of_ok {d : Decoder α} {f : α → Decoder β} {u v : Unread} {a : α}
    (h : d u = .ok (a, v)) : (d >>= f) u = f a v := by
  rw [bind_eq, h]
  rfl

theorem Reads.pure (pos : Nat) (a : α) : Reads (Pure.pure a) pos [] a := fun _ => rfl

theorem Reads.bind {d : Decoder α} {f : α → Decoder β} {pos : Nat} {s t : List UInt8} {a : α}
    {b : β} (hd : Reads d pos s a) (hf : Reads (f a) (pos + s.length) t b) :
    Reads (d >>= f) pos (s ++ t) b := by
  intro rest
  rw [List.append_assoc, bind_of_ok (hd (t ++ rest)), hf rest, List.length_append, Nat.add_assoc]

/-- A last step that takes no bytes. -/
theorem Reads.map {d : Decoder α} {g : α → β} {pos : Nat} {s : List UInt8} {a : α}
    (hd : Reads d pos s a) : Reads (d >>= fun x => Pure.pure (g x)) pos s (g a) := by
  have h := hd.bind (f := fun x => Pure.pure (g x)) (Reads.pure (pos + s.length) (g a))
  rwa [List.append_nil] at h

/-- Asking for the position takes no bytes. -/
theorem Reads.get {g : Unread → Decoder α} {pos : Nat} {s : List UInt8} {a : α}
    (h : ∀ bytes, Reads (g ⟨pos, bytes⟩) pos s a) : Reads (MonadState.get >>= g) pos s a :=
  fun rest => h (s ++ rest) rest

theorem checkRoom_eq (place count size : Nat) (u : Unread) :
    (checkRoom place count size : Decoder Unit) u =
      if count * size ≤ u.bytes.length then .ok ((), u) else .error (.truncated place) := by
  show (if count * size ≤ u.bytes.length then Pure.pure () else throw _ : Decoder Unit) u = _
  split
  · rfl
  · rfl

/-- A number of items is not refused if the bytes read after it have room for them. -/
theorem Reads.room {f : Unit → Decoder α} {pos place count size : Nat} {s : List UInt8} {a : α}
    (hroom : count * size ≤ s.length) (h : Reads (f ()) pos s a) :
    Reads (checkRoom place count size >>= f) pos s a := by
  intro rest
  have hr : (checkRoom place count size : Decoder Unit) ⟨pos, s ++ rest⟩ = .ok ((), ⟨pos, s ++ rest⟩) := by
    have hfits : count * size ≤ (s ++ rest).length := by rw [List.length_append]; omega
    rw [checkRoom_eq, if_pos hfits]
  rw [bind_of_ok hr]
  exact h rest

theorem reads_take (pos : Nat) (s : List UInt8) : Reads (take s.length) pos s s := by
  intro rest
  simp [take]

theorem reads_word (pos : Nat) (w : UInt32) : Reads word pos (Word.bytes32 w) w := by
  intro rest
  show Except.ok (Word.ofBytes32 _ _ _ _, _) = _
  rw [Word.ofBytes32_bytes]
  rfl

theorem reads_long (pos : Nat) (w : UInt64) : Reads long pos (Word.bytes64 w) w := by
  intro rest
  show Except.ok (Word.ofHalves (Word.ofBytes32 _ _ _ _) (Word.ofBytes32 _ _ _ _), _) = _
  rw [Word.ofBytes32_bytes, Word.ofBytes32_bytes, Word.ofHalves_halves]
  rfl

/-- Alignment takes the filler that belongs to its position. -/
theorem reads_align {pos n : Nat} (h : pos % 8 = n % 8) :
    Reads align pos (Field.filler (fillTo8 n)).stored () := by
  intro rest
  have ht := reads_take pos (Field.filler (fillTo8 n)).stored rest
  have hl : (Field.filler (fillTo8 n)).stored.length = fillTo8 pos := by
    rw [fillTo8_congr h]
    exact List.length_replicate
  rw [hl] at ht
  show (take (fillTo8 pos) >>= fun _ => Pure.pure ()) _ = _
  rw [bind_of_ok ht, hl]
  rfl

/-- A word of filler. -/
theorem reads_filler4 (pos : Nat) : Reads word pos (Field.filler 4).stored 0 := reads_word pos 0

/-! ### Repetition -/

/-- A count is read along with what it counts, which has to fill `size` bytes an item. -/
theorem Reads.count {f : Nat → Decoder α} {pos n size : Nat} {s : List UInt8} {a : α}
    (hn : n < UInt64.size) (hroom : n * size ≤ s.length) (h : Reads (f n) (pos + 8) s a) :
    Reads (Decoder.count size >>= f) pos ((Layout.count n).stored ++ s) a := by
  have hnat : n.toUInt64.toNat = n := Nat.mod_eq_of_lt hn
  have hchecked : Reads (checkRoom pos n size >>= fun _ => f n) (pos + 8) s a := h.room hroom
  have hcounted : Reads (long >>= fun m => checkRoom pos m.toNat size >>= fun _ => f m.toNat) pos
      ((Layout.count n).stored ++ s) a := by
    refine (reads_long pos n.toUInt64).bind ?_
    rw [hnat]
    exact hchecked
  have hget := Reads.get (g := fun u => Feed.long >>= fun m => checkRoom u.position m.toNat size >>=
    fun _ => f m.toNat) (fun _ => hcounted)
  simpa only [Decoder.count, bind_assoc, pure_bind] using hget

/-- Items that are read one after the other, where `P` holds of the places they stand at. -/
theorem reads_times {P : Nat → Prop} {item : Decoder α} {stored : α → List UInt8} :
    ∀ (xs : List α), (∀ x ∈ xs, ∀ pos, P pos →
      Reads item pos (stored x) x ∧ P (pos + (stored x).length)) →
      ∀ pos, P pos → Reads (times item xs.length) pos (xs.flatMap stored) xs
  | [], _, pos, _ => Reads.pure pos []
  | x :: xs, h, pos, hpos => by
      obtain ⟨hx, hnext⟩ := h x List.mem_cons_self pos hpos
      have hxs := reads_times xs (fun y hy => h y (List.mem_cons_of_mem x hy)) _ hnext
      rw [List.flatMap_cons]
      exact hx.bind (f := fun first => times item xs.length >>= fun rest => Pure.pure (first :: rest))
        hxs.map

/-- A count and as many records, each of at least `size` bytes. -/
theorem readsRecord_counted {item : Decoder α} {stored : α → List UInt8} {size : Nat} {xs : List α}
    (hcount : xs.length < UInt64.size) (hsize : ∀ x ∈ xs, size ≤ (stored x).length)
    (hitem : ∀ x ∈ xs, ReadsRecord item (stored x) x) :
    ReadsRecord (count size >>= times item)
      ((Layout.count xs.length).stored ++ xs.flatMap stored) xs := by
  have hlen : (xs.flatMap stored).length % 8 = 0 := length_flatMap_mod8 fun x hx => (hitem x hx).1
  refine ⟨?_, ?_⟩
  · show (Word.bytes64 _ ++ _).length % 8 = 0
    rw [List.length_append, Word.bytes64_length]
    omega
  · intro pos hpos
    have htimes := reads_times (P := fun n => n % 8 = 0) xs
      (fun x hx n hn => ⟨(hitem x hx).2 n hn, by rw [Nat.add_mod, hn, (hitem x hx).1]⟩)
      (pos + 8) (by omega)
    exact htimes.count hcount (length_flatMap_ge hsize)

/-! ### Records -/

theorem ReadsRecord.bind {d : Decoder α} {f : α → Decoder β} {s t : List UInt8} {a : α} {b : β}
    (hd : ReadsRecord d s a) (hf : ReadsRecord (f a) t b) : ReadsRecord (d >>= f) (s ++ t) b := by
  refine ⟨by rw [List.length_append, Nat.add_mod, hd.1, hf.1], ?_⟩
  intro pos hpos
  exact (hd.2 pos hpos).bind (hf.2 _ (by rw [Nat.add_mod, hpos, hd.1]))

theorem ReadsRecord.map {d : Decoder α} {g : α → β} {s : List UInt8} {a : α}
    (hd : ReadsRecord d s a) : ReadsRecord (d >>= fun x => Pure.pure (g x)) s (g a) :=
  ⟨hd.1, fun pos hpos => (hd.2 pos hpos).map⟩

theorem readsRecord_long (w : UInt64) : ReadsRecord long (Field.long w).stored w :=
  ⟨by simp [Field.stored], fun pos _ => reads_long pos w⟩

theorem readsRecord_range (r : Range) : ReadsRecord range (storedAll (Layout.range r)) r :=
  (readsRecord_long r.offset).bind (readsRecord_long r.length).map

theorem qualifier_ofNumber? (q : Qualifier) : Qualifier.ofNumber? q.number = some q := by
  cases q <;> rfl

theorem kind_ofNumber? (k : EntrypointKind) : EntrypointKind.ofNumber? k.number = some k := by
  cases k <;> rfl

theorem reads_qualifier (pos : Nat) (q : Qualifier) :
    Reads qualifier pos (Word.bytes32 q.number) q := by
  rw [qualifier, ← List.append_nil (Word.bytes32 q.number)]
  refine (reads_word pos q.number).bind ?_
  rw [qualifier_ofNumber?]
  exact Reads.pure _ q

/-- The qualifiers of a parameter as bytes. -/
def storedQualifiers (qs : List Qualifier) : List UInt8 := qs.flatMap fun q => Word.bytes32 q.number

theorem storedQualifiers_length (qs : List Qualifier) :
    (storedQualifiers qs).length = 4 * qs.length := by
  rw [storedQualifiers, ← List.flatMap_map Qualifier.number Word.bytes32, flatMap_bytes32_length,
    List.length_map]

theorem reads_qualifiers (pos : Nat) (qs : List Qualifier) :
    Reads (times qualifier qs.length) pos (storedQualifiers qs) qs :=
  reads_times (P := fun _ => True) qs (fun q _ n _ => ⟨reads_qualifier n q, trivial⟩) pos trivial

theorem storedAll_parameter (p : Parameter) :
    storedAll (Layout.parameter p) =
      (Field.long p.type.number).stored ++ (Word.bytes32 (Layout.qualifierCount p.qualifiers) ++
        ((Field.filler 4).stored ++ (storedQualifiers p.qualifiers ++
          (Field.filler (fillTo8 (4 * p.qualifiers.length))).stored))) := by
  simp [Layout.parameter, storedAll, storedQualifiers, Field.stored, List.flatMap_map]

theorem storedAll_parameter_length (p : Parameter) :
    (storedAll (Layout.parameter p)).length =
      16 + (4 * p.qualifiers.length + fillTo8 (4 * p.qualifiers.length)) := by
  rw [storedAll_parameter]
  simp only [List.length_append, storedQualifiers_length, Field.stored, Word.bytes64_length,
    Word.bytes32_length, List.length_replicate]
  omega

/-- The number of qualifiers is stored exactly if it fits into a word. -/
theorem qualifierCount_toNat {qs : List Qualifier} (h : qs.length < UInt32.size) :
    (Layout.qualifierCount qs).toNat = qs.length := by
  have hmin : min qs.length (UInt32.size - 1) = qs.length := by omega
  rw [Layout.qualifierCount, hmin]
  exact Nat.mod_eq_of_lt h

theorem readsRecord_parameter {p : Parameter} (h : p.qualifiers.length < UInt32.size) :
    ReadsRecord parameter (storedAll (Layout.parameter p)) p := by
  have hfill := add_fillTo8 (4 * p.qualifiers.length)
  refine ⟨by rw [storedAll_parameter_length]; omega, ?_⟩
  intro pos hpos
  rw [storedAll_parameter]
  unfold parameter
  refine (reads_long pos p.type.number).bind (Reads.get fun _ => (reads_word _ _).bind ?_)
  -- the qualifiers and the filler word before them leave room for the count
  refine Reads.room ?_ ((reads_filler4 _).bind ?_)
  · rw [qualifierCount_toNat h]
    simp only [List.length_append, storedQualifiers_length]
    omega
  rw [qualifierCount_toNat h]
  refine (reads_qualifiers _ p.qualifiers).bind ?_
  refine (reads_align ?_).map
  rw [storedQualifiers_length]
  simp only [Field.stored, Word.bytes64_length, Word.bytes32_length, List.length_replicate]
  omega

theorem storedAll_parameters (ps : List Parameter) :
    storedAll (Layout.parameters ps) =
      (Layout.count ps.length).stored ++ ps.flatMap (fun p => storedAll (Layout.parameter p)) := by
  rw [Layout.parameters, storedAll_cons, storedAll_flatMap]

theorem parameterSize_le (p : Parameter) :
    parameterSize ≤ (storedAll (Layout.parameter p)).length := by
  rw [storedAll_parameter_length, parameterSize]
  omega

/-- The numbers of parameters and of their qualifiers can be stored. -/
structure CountableParameters (ps : List Parameter) : Prop where
  count : ps.length < UInt64.size
  qualifiers : ∀ p ∈ ps, p.qualifiers.length < UInt32.size

theorem readsRecord_parameters {ps : List Parameter} (h : CountableParameters ps) :
    ReadsRecord parameters (storedAll (Layout.parameters ps)) ps := by
  rw [storedAll_parameters]
  exact readsRecord_counted h.count (fun p _ => parameterSize_le p)
    fun p hp => readsRecord_parameter (h.qualifiers p hp)

/-! ### Entrypoints and functions -/

theorem storedAll_entrypoint (e : Entrypoint) :
    storedAll (Layout.entrypoint e) =
      Word.bytes32 e.kind.number ++ ((Field.filler 4).stored ++ (storedAll (Layout.range e.code) ++
        (storedAll (Layout.range e.name) ++ (storedAll (Layout.parameters e.inputs) ++
          storedAll (Layout.parameters e.outputs))))) := by
  simp [Layout.entrypoint, Field.stored]

theorem storedAll_function (f : Function) :
    storedAll (Layout.function f) =
      storedAll (Layout.range f.code) ++ (storedAll (Layout.range f.name) ++
        ((Field.long f.returnType.number).stored ++ storedAll (Layout.parameters f.parameters))) := by
  simp [Layout.function]

theorem entrypointSize_le (e : Entrypoint) :
    entrypointSize ≤ (storedAll (Layout.entrypoint e)).length := by
  simp only [storedAll_entrypoint, storedAll_parameters, Layout.range, Layout.count, storedAll_cons,
    storedAll_nil, Field.stored, List.length_append, Word.bytes32_length, Word.bytes64_length,
    List.length_replicate, List.length_nil, entrypointSize]
  omega

theorem functionSize_le (f : Function) :
    functionSize ≤ (storedAll (Layout.function f)).length := by
  simp only [storedAll_function, storedAll_parameters, Layout.range, Layout.count, storedAll_cons,
    storedAll_nil, Field.stored, List.length_append, Word.bytes64_length, List.length_nil,
    functionSize]
  omega

theorem readsRecord_entrypoint {e : Entrypoint} (hinputs : CountableParameters e.inputs)
    (houtputs : CountableParameters e.outputs) :
    ReadsRecord entrypoint (storedAll (Layout.entrypoint e)) e := by
  rw [storedAll_entrypoint]
  have hin := readsRecord_parameters hinputs
  have hout := readsRecord_parameters houtputs
  -- everything after the kind and its filler is a chain of records
  have hrest : ReadsRecord
      (do
        let code ← range
        let name ← range
        let inputs ← parameters
        let outputs ← parameters
        return (⟨e.kind, code, name, inputs, outputs⟩ : Entrypoint))
      (storedAll (Layout.range e.code) ++ (storedAll (Layout.range e.name) ++
        (storedAll (Layout.parameters e.inputs) ++ storedAll (Layout.parameters e.outputs)))) e :=
    (readsRecord_range e.code).bind ((readsRecord_range e.name).bind (hin.bind hout.map))
  refine ⟨?_, ?_⟩
  · have := hrest.1
    rw [List.length_append, List.length_append, Word.bytes32_length, Field.stored,
      List.length_replicate]
    omega
  · intro pos hpos
    unfold entrypoint
    refine (reads_word pos e.kind.number).bind ?_
    rw [kind_ofNumber?]
    refine (reads_filler4 _).bind (hrest.2 _ ?_)
    simp only [Field.stored, Word.bytes32_length, List.length_replicate]
    omega

theorem readsRecord_function {f : Function} (h : CountableParameters f.parameters) :
    ReadsRecord function (storedAll (Layout.function f)) f := by
  rw [storedAll_function]
  have hps := readsRecord_parameters h
  unfold function
  exact (readsRecord_range f.code).bind ((readsRecord_range f.name).bind
    ((readsRecord_long f.returnType.number).bind hps.map))

/-! ### Whole binaries -/

/-- Bytes with their filler, after their number. -/
theorem readsRecord_strings {data : List UInt8} (h : data.length < UInt64.size) :
    ReadsRecord strings (storedAll (Layout.strings data)) data := by
  have hfill := add_fillTo8 data.length
  have hstored : storedAll (Layout.strings data) = (Layout.count data.length).stored ++
      (data ++ (Field.filler (fillTo8 data.length)).stored) := by
    simp [Layout.strings, Field.stored]
  rw [hstored]
  refine ⟨?_, ?_⟩
  · simp only [Layout.count, Field.stored, List.length_append, Word.bytes64_length,
      List.length_replicate]
    omega
  · intro pos hpos
    refine Reads.count h (by rw [List.length_append]; omega) ?_
    exact (reads_take _ data).bind (reads_align (by omega)).map

/-- Words with their filler, after their number. -/
theorem readsRecord_code {words : List UInt32} (h : words.length < UInt64.size) :
    ReadsRecord code (storedAll (Layout.code words)) words := by
  have hfill := add_fillTo8 (4 * words.length)
  have hstored : storedAll (Layout.code words) = (Layout.count words.length).stored ++
      (words.flatMap Word.bytes32 ++ (Field.filler (fillTo8 (4 * words.length))).stored) := by
    simp [Layout.code, storedAll_words]
  have hlen := flatMap_bytes32_length words
  rw [hstored]
  refine ⟨?_, ?_⟩
  · simp only [Layout.count, Field.stored, List.length_append, Word.bytes64_length,
      List.length_replicate]
    omega
  · intro pos hpos
    refine Reads.count h (by rw [List.length_append]; omega) ?_
    refine (reads_times (P := fun _ => True) words (fun w _ n _ => ⟨reads_word n w, trivial⟩) _
      trivial).bind (reads_align ?_).map
    omega

end Decoder

end Shading.Binary
