import SchemaWire.Proofs.Layout.NormalForm
import SchemaWire.Proofs.Program.MinSize
import SchemaWire.Proofs.Program.Pieces
/-!
# Reading back what has been written

A decoder undoes the encoder of the same program: from the bytes of a valid script it reads the
normal form of the value that the script writes, and stops where they end
(`Program.reads_decodeLayout`).

The proof follows the two recursions of a codec. Between two records the layouts are taken apart one
by one, given that records are read back (`Program.reads_decodeLayout_of`); records are then read
back by induction on the room that is left for them. The only place where reading could refuse what
writing accepts is the count of a list, which is held against the bytes that are left: there
`Program.minSize_le_length` says that the members do not take fewer.
-/

namespace SchemaWire

open Decoder

namespace Program

variable {p : Program} {room : Nat} {a : Layout} {v : Value}

/-! ### Normal forms, node by node -/

theorem normalize_of_isNull {s : Snapshot} {inner : Layout} (h : v.isNull = true) :
    s.normalize (.nullable inner) v = inner.nullValue := by
  rcases isNull_iff.1 h with rfl | rfl <;> rfl

theorem normalize_box {s : Snapshot} {q : Primitive} {x : Scalar} :
    s.normalize a (q.box x) = q.box x := by
  unfold Primitive.box
  split <;> rfl

/-- A nullable has no part in the normal form of a value that is no null. -/
theorem normalize_nullable_of_not_isNull {s : Snapshot} {inner : Layout}
    (h : ¬v.isNull = true) : s.normalize (.nullable inner) v = s.normalize inner v := by
  -- Only a null has a form that depends on the cover.
  cases v with
  | null => exact absurd rfl h
  | wrapped box =>
    cases box with
    | none => exact absurd rfl h
    | some x => rfl
  | scalar x => rfl
  | text t => rfl
  | record type fields => rfl
  | list vs => rw [Snapshot.normalize, Snapshot.normalize, Layout.member_nullable]

/-- **Nullables** are read back, as long as what they hold is. -/
theorem reads_nullable {inner : Layout} {readCall : TypeName → Decoder Value}
    (hboxed : ∀ q, inner = .primitive q → q.wrapped = true)
    (hinner : (p.layoutScript (p.recordScript room) inner v).Valid →
      (p.decodeLayout readCall inner).Reads p.format
        ((p.layoutScript (p.recordScript room) inner v).bytes p.format)
        (p.snapshot.normalize inner v))
    (h : (p.layoutScript (p.recordScript room) (.nullable inner) v).Valid) :
    (p.decodeLayout readCall (.nullable inner)).Reads p.format
      ((p.layoutScript (p.recordScript room) (.nullable inner) v).bytes p.format)
      (p.snapshot.normalize (.nullable inner) v) := by
  rw [decodeLayout]
  -- As it was written: packed in one byte, or a presence byte with the content behind it.
  cases hpacked : p.packed? inner with
  | some wrapped =>
    obtain ⟨q, rfl, hkind, rfl⟩ := packed?_eq_some hpacked
    rw [layoutScript_nullable_of_packed hpacked] at h ⊢
    rcases (valid_packedScript_iff hkind).1 h with hnull | ⟨⟨k, b⟩, rfl, hs⟩
    · rw [normalize_of_isNull hnull]
      exact reads_decodePacked_of_isNull (hboxed q rfl) hnull p.format
    · obtain rfl : k = .bool := hs.trans hkind
      rw [normalize_box]
      exact reads_decodePacked_box p.format
  | none =>
    by_cases hnull : v.isNull = true
    · rw [layoutScript_nullable_of_isNull hpacked hnull, normalize_of_isNull hnull]
      exact (reads_readByte 0).bind (Reads.pure _)
    · rw [layoutScript_nullable_of_not_isNull hpacked hnull, Script.valid_cons] at *
      rw [Script.bytes_cons, normalize_nullable_of_not_isNull hnull]
      exact (reads_readByte 1).bind (hinner h.2)

/-! ### Lists -/

/-- Members that are all there are not refused for their number. -/
theorem length_le_countLimit {member : Layout} {vs : List Value} {remaining : Nat}
    (hcount : ¬p.TooLong member vs.length)
    (hmembers : ∀ x ∈ vs, (p.layoutScript (p.recordScript room) member x).Valid)
    (hbytes : (vs.flatMap fun x =>
      (p.layoutScript (p.recordScript room) member x).bytes p.format).length ≤ remaining) :
    vs.length ≤ p.countLimit member remaining := by
  unfold countLimit
  by_cases hzero : p.minSize member = 0
  · rw [if_pos hzero]
    exact Nat.not_lt.1 fun h => hcount ⟨h, hzero⟩
  · rw [if_neg hzero, Nat.le_div_iff_mul_le (Nat.pos_of_ne_zero hzero)]
    refine Nat.le_trans ?_ hbytes
    -- Each member takes at least its least size.
    have hsum := List.card_nsmul_le_sum (vs.map fun x =>
      ((p.layoutScript (p.recordScript room) member x).bytes p.format).length)
      (p.minSize member) fun n hn => by
        obtain ⟨x, hx, rfl⟩ := List.mem_map.1 hn
        exact minSize_le_length (hmembers x hx)
    rwa [List.length_map, Nat.nsmul_eq_mul, ← List.length_flatMap] at hsum

theorem reads_list {member : Layout} {vs : List Value} {readCall : TypeName → Decoder Value}
    {valueOf : Value → Value} (hcount : ¬p.TooLong member vs.length) (hlength : vs.length < 2 ^ 32)
    (hmembers : ∀ x ∈ vs, (p.layoutScript (p.recordScript room) member x).Valid)
    (hread : ∀ x ∈ vs, (p.decodeLayout readCall member).Reads p.format
      ((p.layoutScript (p.recordScript room) member x).bytes p.format) (valueOf x)) :
    (p.decodeLayout readCall (.list member)).Reads p.format
      ((p.layoutScript (p.recordScript room) (.list member) (.list vs)).bytes p.format)
      (.list (vs.map valueOf)) := by
  rw [layoutScript_list hcount, Script.bytes_cons, Script.bytes_flatMap, decodeLayout_list]
  refine (reads_readLength hlength).bind ?_
  intro r hr hbytes
  -- The count is checked against what is left, and all members are there.
  have hlimit : vs.length ≤ p.countLimit member r.remaining :=
    length_le_countLimit hcount hmembers (r.remaining_eq ▸ hbytes.length_le)
  rw [decodeCounted_of_le hlimit]
  exact (Reads.replicate _ valueOf vs hread).map Value.list r hr hbytes

/-! ### Records -/

theorem reads_decodeFields {readCall : TypeName → Decoder Value}
    {bytesOf : Field Layout → List UInt8} {valueOf : Field Layout → Value}
    {fields : List (Field Layout)}
    (h : ∀ f ∈ fields, (p.decodeLayout readCall f.layout).Reads p.format (bytesOf f) (valueOf f))
    (done : FieldMap Value) :
    (p.decodeFields readCall fields done).Reads p.format (fields.flatMap bytesOf)
      (fields.foldl (fun m f => m.insert f.name (valueOf f)) done) := by
  induction fields generalizing done with
  | nil => exact Reads.pure done
  | cons f fields ih =>
    obtain ⟨hf, hfields⟩ := List.forall_mem_cons.1 h
    exact hf.bind (ih hfields _)

/-- The present fields in normal form and the defaults of the others make the record complete. -/
theorem withDefaults_eq_complete {name : TypeName} {fields : FieldMap Value}
    {valueOf : Field Layout → Value}
    (h : ∀ f ∈ p.present name, fields.find? f.name = some (valueOf f)) :
    p.withDefaults name ((p.present name).foldl (fun m f => m.insert f.name (valueOf f)) []) =
      p.snapshot.complete name fields := by
  -- Looking up a field gives the value that was read for it.
  have hvalues : (p.present name).map (fun f => (f.name, valueOf f)) =
      (p.present name).map fun f => (f.name, (fields.find? f.name).getD f.layout.default) :=
    List.map_congr_left fun f hf => by rw [h f hf, Option.getD_some]
  unfold withDefaults Snapshot.complete FieldMap.ofList
  rw [List.foldl_append, List.foldl_map]
  change _ = List.foldl _ (List.foldl _ [] (((p.present name).map fun f => _))) (p.omitted name)
  rw [← hvalues, List.foldl_map]

/-- A record is read back, field by field, and completed. -/
theorem reads_decodeBody (hp : p.Proper) {call : TypeName → Value → Script}
    {readCall : TypeName → Decoder Value} {name : TypeName} {fields : FieldMap Value}
    (hdeclared : ∀ x ∈ fields, ∃ f ∈ p.fieldsOf name, f.name = x.1)
    (hfields : ∀ f ∈ p.present name, ∃ x, fields.find? f.name = some x ∧
      (p.decodeLayout readCall f.layout).Reads p.format
        ((p.layoutScript call f.layout x).bytes p.format) (p.snapshot.normalize f.layout x)) :
    (p.decodeBody readCall name).Reads p.format
      ((p.bodyScript call name (.record name fields)).bytes p.format)
      (p.snapshot.normalize a (.record name fields)) := by
  -- What a field holds, and what is read for it.
  let held (f : Field Layout) : Value := (fields.find? f.name).getD f.layout.default
  have hbytes : (p.bodyScript call name (.record name fields)).bytes p.format =
      (p.present name).flatMap fun f => (p.layoutScript call f.layout (held f)).bytes p.format := by
    rw [bodyScript_record hdeclared, Script.bytes_flatMap]
    refine List.flatMap_congr fun f hf => ?_
    obtain ⟨x, hx, -⟩ := hfields f hf
    simp only [held, hx, Option.getD_some]
  have hread : (p.decodeFields readCall (p.present name) []).Reads p.format
      ((p.bodyScript call name (.record name fields)).bytes p.format)
      ((p.present name).foldl
        (fun m f => m.insert f.name (p.snapshot.normalize f.layout (held f))) []) := by
    rw [hbytes]
    refine reads_decodeFields (fun f hf => ?_) []
    obtain ⟨x, hx, hread⟩ := hfields f hf
    simpa only [held, hx, Option.getD_some] using hread
  have hnormal : ∀ f ∈ p.present name,
      FieldMap.find? (p.snapshot.normalizeFields (p.present name) fields) f.name =
        some (p.snapshot.normalize f.layout (held f)) := by
    intro f hf
    obtain ⟨x, hx, -⟩ := hfields f hf
    simp only [Snapshot.find?_normalizeFields, held, hx, Option.map_some, Option.getD_some,
      Snapshot.layoutOf?_eq_some (hp.nodup_present name) hf]
  -- What has been read is completed by the defaults of the other fields.
  have hcomplete := hread.map fun done => Value.record name (p.withDefaults name done)
  rwa [withDefaults_eq_complete hnormal] at hcomplete

/-- The tag of a member leads back to it. -/
theorem reads_subtypes {group : GroupName} {members : List (Member Layout)}
    {readCall : TypeName → Decoder Value}
    (ha : (Layout.subtypes group members).Proper p.tagEncoding)
    (hrecord : ∀ name x, (p.recordScript room name x).Valid → (readCall name).Reads p.format
      ((p.recordScript room name x).bytes p.format) (p.snapshot.normalize (.reference name) x))
    (h : (p.layoutScript (p.recordScript room) (.subtypes group members) v).Valid) :
    (p.decodeLayout readCall (.subtypes group members)).Reads p.format
      ((p.layoutScript (p.recordScript room) (.subtypes group members) v).bytes p.format)
      (p.snapshot.normalize (.subtypes group members) v) := by
  obtain ⟨htags, htypes, hmembers⟩ := ha
  obtain ⟨m, hm, htype, hvalid⟩ := (valid_subtypes_iff htypes).1 h
  obtain ⟨hmax, hname⟩ := hmembers m hm
  -- Only a record is accepted, and its normal form does not depend on how it is laid out.
  obtain ⟨inner, held, -, rfl, -⟩ := exists_of_valid_record hname hvalid
  rw [layoutScript_of_recordName? hname] at hvalid
  rw [layoutScript_subtypes htypes hm htype, Script.bytes_cons, decodeLayout,
    layoutScript_of_recordName? hname]
  refine (reads_readTag hmax p.format).bind ?_
  rw [decodeMember?_of_mem htags hm, decodeLayout_of_recordName? hname]
  exact hrecord m.type (.record m.type held) hvalid

/-! ### Putting the pieces together -/

/-- **A value is read back, if the records in it are.** -/
theorem reads_decodeLayout_of {readCall : TypeName → Decoder Value} (ha : a.Proper p.tagEncoding)
    (hrecord : ∀ name x, (p.recordScript room name x).Valid → (readCall name).Reads p.format
      ((p.recordScript room name x).bytes p.format) (p.snapshot.normalize (.reference name) x))
    (h : (p.layoutScript (p.recordScript room) a v).Valid) :
    (p.decodeLayout readCall a).Reads p.format
      ((p.layoutScript (p.recordScript room) a v).bytes p.format) (p.snapshot.normalize a v) := by
  -- By induction on the layout, with the records it refers to as the hypothesis.
  induction a generalizing v with
  | primitive q =>
    obtain ⟨x, rfl, hkind⟩ := Primitive.valid_script_iff.1 h
    rw [normalize_box]
    change (q.decode p.format).Reads p.format ((q.script p.format (q.box x)).bytes p.format) _
    rw [Primitive.script_box hkind, Script.bytes_cons, Script.bytes_nil, List.append_nil]
    exact Primitive.reads_decode hkind
  | text =>
    obtain ⟨t, rfl, hsize⟩ := valid_textScript_iff.1 h
    exact reads_decodeText hsize p.format
  | nullable inner ih =>
    obtain ⟨-, hboxed, hinner⟩ := ha
    exact reads_nullable hboxed (ih hinner) h
  | list member ih =>
    obtain ⟨vs, rfl, hcount, hlength, hmembers⟩ := valid_list_iff.1 h
    rw [Snapshot.normalize, Snapshot.normalizeMembers_eq_map]
    exact reads_list hcount hlength hmembers fun x hx => ih ha (hmembers x hx)
  | record name fields =>
    obtain ⟨inner, held, -, rfl, -⟩ := exists_of_valid_record rfl h
    exact hrecord name (.record name held) h
  | reference name => exact hrecord name v h
  | subtypes group members ih => exact reads_subtypes ha hrecord h

/-- **A record is read back**, by induction on the records that may be nested in it. -/
theorem reads_decodeRecord (hp : p.Proper) {name : TypeName}
    (h : (p.recordScript room name v).Valid) :
    (p.decodeRecord room name).Reads p.format ((p.recordScript room name v).bytes p.format)
      (p.snapshot.normalize (.reference name) v) := by
  -- By induction on the room; the fields are read with the room they were written with.
  induction room generalizing name v with
  | zero => exact absurd h not_valid_recordScript_zero
  | succ room ih =>
    rw [bytes_recordScript_succ]
    rw [valid_recordScript_succ_iff] at h
    obtain ⟨fields, rfl, hdeclared, hfields⟩ := valid_bodyScript_iff.1 h
    refine (reads_decodeBody hp hdeclared fun f hf => ?_).nested
    obtain ⟨x, hx, hvalid⟩ := hfields f hf
    exact ⟨x, hx, reads_decodeLayout_of (hp.present hf) (fun n y hy => ih hy) hvalid⟩

/-- **Reading back.** From the bytes that a value takes, a decoder reads the normal form of the
value, whatever follows them. -/
theorem reads_decodeLayout (hp : p.Proper) (ha : a.Proper p.tagEncoding)
    (h : (p.layoutScript (p.recordScript room) a v).Valid) :
    (p.decodeLayout (p.decodeRecord room) a).Reads p.format
      ((p.layoutScript (p.recordScript room) a v).bytes p.format) (p.snapshot.normalize a v) :=
  reads_decodeLayout_of ha (fun _ _ hx => reads_decodeRecord hp hx) h

end Program

end SchemaWire
