import SchemaWire.Proofs.Layout.Extension
import SchemaWire.Proofs.Lists
import SchemaWire.Proofs.Program.Soundness
/-!
# Programs with more fields

A program **extends** another one (`Program.Extends`) if it puts the same fields on the wire and
declares some extra ones that it leaves out. Their layouts need not be the same, only similar: the
extra fields may have moved the places where records are spelled out.

What such programs do to bytes is the same.

* `Program.Extends.simulates_decodeLayout` — whatever the smaller program reads, from whatever
  bytes, the larger one reads with the extra fields added, each at its default.
* `Program.Extends.shortens` — whatever the larger program writes, the smaller one writes
  as the same bytes, once the extra fields have been taken away.

Both are inductions over the records that may be nested and, in between, over the similarity of two
layouts. The one point where the two programs might part is the count of a list, as the least sizes
of the members are found by searches that begin at different places; but both find the size that
there is (`Program.HasSize.extend`), and there is one wherever there is a member.
-/

namespace SchemaWire

open Decoder Layout

namespace Program

/-- **A program that extends another one** by extra fields that are not on the wire. What is in the
layouts of both is said for the records that are known. -/
structure Extends (p p' : Program) (known : TypeName → Prop)
    (extra : TypeName → List (Field Layout)) : Prop where
  format : p'.format = p.format
  tagEncoding : p'.tagEncoding = p.tagEncoding
  /-- The same fields are on the wire. -/
  present : ∀ name, known name →
    List.Forall₂ (SimilarField known) (p.present name) (p'.present name)
  /-- The others are those of before and the extra ones. -/
  omitted : ∀ name, known name → ∃ kept, p'.omitted name = kept ++ extra name ∧
    List.Forall₂ (SimilarField known) (p.omitted name) kept

variable {p p' : Program} {known : TypeName → Prop} {extra : TypeName → List (Field Layout)}
  {a b : Layout} {v : Value} {name : TypeName} {room : Nat}

/-- One program accepts a value without its extra fields, and writes it as the other writes it with
them. -/
def Shortens (p p' : Program) (extra : TypeName → List (Field Layout)) (room : Nat) (a b : Layout)
    (v : Value) : Prop :=
  (p.layoutScript (p.recordScript room) a (v.withoutExtra extra)).Valid ∧
    (p.layoutScript (p.recordScript room) a (v.withoutExtra extra)).bytes p.format =
      (p'.layoutScript (p'.recordScript room) b v).bytes p'.format

/-! ### Least sizes -/

namespace Extends

theorem plainSize_eq (h : p.Extends p' known extra) (hab : Similar known a b) :
    p'.plainSize b = p.plainSize a := by
  cases hab with
  | primitive q => exact congrArg q.minSize h.format
  | text | list _ => simp only [plainSize, h.format]
  | nullable _ => rfl
  | subtypes _ _ => simp only [plainSize, h.tagEncoding]
  | record _ ha hb => cases a <;> cases ha <;> cases b <;> cases hb <;> rfl

/-- A nullable is packed in both programs or in none. -/
theorem packed?_eq (h : p.Extends p' known extra) (hab : Similar known a b) :
    p'.packed? b = p.packed? a := by
  cases hab with
  | primitive q => simp only [packed?, h.format]
  | record _ ha hb => cases a <;> cases ha <;> cases b <;> cases hb <;> rfl
  | _ => rfl

/-- **A similar layout has the same size** in the larger program. -/
theorem hasSize (h : p.Extends p' known extra) {k : Nat} (ha : p.HasSize a k)
    (hab : Similar known a b) : p'.HasSize b k := by
  induction ha generalizing b with
  | plain ha =>
    rw [← h.plainSize_eq hab]
    exact .plain (hab.recordName?_eq.trans ha)
  | @record a name size ha _ ih =>
    have hb : b.recordName? = some name := hab.recordName?_eq.trans ha
    have hknown : known name := by
      cases hab with
      | record hknown ha' _ => exact Option.some.inj (ha'.symm.trans ha) ▸ hknown
      | _ => cases ha
    -- Field by field the sizes are those that the search would find.
    have hfields : List.Forall₂ (fun f g => p'.HasSize g.layout (size f.layout))
        (p.present name) (p'.present name) := by
      refine ((List.forall₂_and_left _ _).2 ⟨fun f hf => hf, h.present name hknown⟩).imp ?_
      rintro f g ⟨hf, -, -, hfg⟩
      exact ih f hf hfg
    have hsum : (p'.present name).map (fun g => p'.minSize g.layout) =
        (p.present name).map fun f => size f.layout :=
      map_eq_map_of_forall₂ (hfields.imp fun _ _ hg => minSize_eq hg)
    -- With the sizes that are found there, the larger record has a size of its own.
    rw [← hsum]
    refine .record p'.minSize hb fun g hg => ?_
    obtain ⟨f, -, hsize⟩ := exists_mem_of_forall₂_right hfields hg
    exact (minSize_eq hsize).symm ▸ hsize

/-- Where there is a member, its least size is the same. -/
theorem minSize_eq_minSize (h : p.Extends p' known extra) (hab : Similar known a b)
    (hv : (p.layoutScript (p.recordScript room) a v).Valid) :
    p'.minSize b = p.minSize a :=
  minSize_eq (h.hasSize (hasSize_minSize hv) hab)

/-! ### Reading -/

theorem simulates_decodeFields {call call' : TypeName → Decoder Value}
    {fields fields' : List (Field Layout)}
    (h : List.Forall₂ (fun f g => g.name = f.name ∧ (p'.decodeLayout call' g.layout).Simulates
      p.format (Value.withExtra extra) (p.decodeLayout call f.layout)) fields fields')
    (done : FieldMap Value) :
    (p'.decodeFields call' fields' (Value.mapFields (Value.addExtra extra) done)).Simulates p.format
      (Value.mapFields (Value.addExtra extra)) (p.decodeFields call fields done) := by
  induction h generalizing done with
  | nil => exact Simulates.pure rfl
  | @cons f g _ _ hfg _ ih =>
    obtain ⟨hname, hread⟩ := hfg
    refine hread.bind fun v => ?_
    -- The values read so far correspond, so the insertion keeps them in correspondence.
    have hinsert : FieldMap.insert (Value.mapFields (Value.addExtra extra) done) g.name
        (Value.withExtra extra v) =
        Value.mapFields (Value.addExtra extra) (done.insert f.name v) := by
      rw [Value.mapFields_insert, hname, Value.withExtra]
    rw [hinsert]
    exact ih _

/-- The larger program completes a record by the extra fields as well. -/
theorem withDefaults_mapFields (h : p.Extends p' known extra) (hname : known name)
    (fields : FieldMap Value) :
    p'.withDefaults name (Value.mapFields (Value.addExtra extra) fields) =
      Value.addExtra extra name
        (Value.mapFields (Value.addExtra extra) (p.withDefaults name fields)) := by
  obtain ⟨kept, homitted, hkept⟩ := h.omitted name hname
  unfold withDefaults
  rw [homitted, List.foldl_append]
  change List.foldl _ _ (extra name) = List.foldl _ _ (extra name)
  -- Both sides end with the defaults of the fields that only the later program has.
  congr 1
  clear homitted
  generalize p.omitted name = omitted at hkept ⊢
  induction hkept generalizing fields with
  | nil => rfl
  | cons hfg _ ih =>
    obtain ⟨hfield, -, hlayout⟩ := hfg
    rw [List.foldl_cons, List.foldl_cons, hfield, hlayout.default_eq, ← ih, Value.mapFields_insert,
      Value.mapRecords_default]

/-- A record that is read by one program is read by the other. -/
theorem simulates_decodeBody (h : p.Extends p' known extra) (hname : known name)
    {call call' : TypeName → Decoder Value}
    (hfields : ∀ f ∈ p.present name, ∀ g ∈ p'.present name, SimilarField known f g →
      (p'.decodeLayout call' g.layout).Simulates p.format (Value.withExtra extra)
        (p.decodeLayout call f.layout)) :
    (p'.decodeBody call' name).Simulates p.format (Value.withExtra extra)
      (p.decodeBody call name) := by
  -- The fields on the wire go along in pairs, and each pair is read alike by assumption.
  have hpairs : List.Forall₂ (fun f g => g.name = f.name ∧
      (p'.decodeLayout call' g.layout).Simulates p.format (Value.withExtra extra)
        (p.decodeLayout call f.layout)) (p.present name) (p'.present name) := by
    refine List.Forall₂.imp ?_ (forall₂_and_mem (h.present name hname))
    rintro f g ⟨hf, hg, hfg⟩
    exact ⟨hfg.1, hfields f hf g hg hfg⟩
  unfold decodeBody
  refine (simulates_decodeFields hpairs []).bind fun fields => ?_
  rw [h.withDefaults_mapFields hname]
  exact Simulates.pure rfl

/-- Wherever the count of a list is not refused by one program, it is not by the other. -/
theorem simulates_list (h : p.Extends p' known extra) (hp : p.Proper) (hab : Similar known a b)
    (ha : a.Proper p.tagEncoding) {call' : TypeName → Decoder Value}
    (hmember : (p'.decodeLayout call' b).Simulates p.format (Value.withExtra extra)
      (p.decodeLayout (p.decodeRecord room) a)) :
    (p'.decodeLayout call' (.list b)).Simulates p.format (Value.withExtra extra)
      (p.decodeLayout (p.decodeRecord room) (.list a)) := by
  rw [decodeLayout_list, decodeLayout_list]
  refine Simulates.bind_of_yields yields_readLength ?_
  intro n r v r' hr hd
  obtain ⟨hlimit, hd⟩ := decodeCounted_eq_ok_iff.1 hd
  obtain ⟨vs, r₁, hvs, hv⟩ := Decoder.bind_eq_ok_iff.1 hd
  cases hv
  -- Both read the members in step; what is left is that the count is not refused.
  obtain ⟨hr', hvs'⟩ := hmember.replicate n r vs r' hr hvs
  obtain ⟨-, -, -, hlength, pieces, -, hall⟩ :=
    (yields_decodeLayout hp ha).replicate n r vs r' hr hvs
  have hlimit' : n ≤ p'.countLimit b r.remaining := by
    cases hall with
    | nil => exact hlength ▸ Nat.zero_le _
    | cons hx _ =>
      unfold countLimit at hlimit ⊢
      rwa [h.minSize_eq_minSize hab hx.valid]
  refine ⟨hr', ?_⟩
  rw [decodeCounted_of_le hlimit', bind_apply, hvs']
  rw [Value.withExtra, Value.mapRecords_list]
  rfl

/-- A nullable is packed in both programs or has a byte of its own in both. -/
theorem simulates_nullable (h : p.Extends p' known extra) (hab : Similar known a b)
    (hboxed : ∀ q, a = .primitive q → q.wrapped = true) {call call' : TypeName → Decoder Value}
    (hinner : (p'.decodeLayout call' b).Simulates p.format (Value.withExtra extra)
      (p.decodeLayout call a)) :
    (p'.decodeLayout call' (.nullable b)).Simulates p.format (Value.withExtra extra)
      (p.decodeLayout call (.nullable a)) := by
  rw [decodeLayout, decodeLayout, h.packed?_eq hab]
  cases hpacked : p.packed? a with
  | some wrapped =>
    -- A packed Boolean is no record and holds none, so nothing is added to it.
    obtain ⟨q, rfl, hkind, rfl⟩ := packed?_eq_some hpacked
    refine Simulates.of_yields (yields_decodePacked hkind (hboxed q rfl)) ?_
    rintro v bytes ⟨-, -, rfl | ⟨x, rfl⟩⟩
    · rfl
    · exact Value.mapRecords_box q _
  | none =>
    -- Both read the same byte, and part at the same two values of it.
    refine Simulates.bind_of_yields yields_readByte fun byte => ?_
    by_cases hzero : byte = 0
    · rw [if_pos hzero, if_pos hzero, hab.nullValue_eq]
      exact Simulates.pure (by cases a <;> rfl)
    · rw [if_neg hzero, if_neg hzero]
      by_cases hone : byte = 1
      · rw [if_pos hone, if_pos hone]
        exact hinner
      · rw [if_neg hone, if_neg hone]
        exact Simulates.throw _ _

/-- The tags of one program are those of the other, so they lead to members of the same records. -/
theorem simulates_subtypes (h : p.Extends p' known extra) {group : GroupName}
    {ms ns : List (Member Layout)} (hab : Similar known (.subtypes group ms) (.subtypes group ns))
    (ha : (Layout.subtypes group ms).Proper p.tagEncoding)
    (hb : (Layout.subtypes group ns).Proper p.tagEncoding) {call call' : TypeName → Decoder Value}
    (hrecord : ∀ name, known name → (call' name).Simulates p.format (Value.withExtra extra)
      (call name)) :
    (p'.decodeLayout call' (.subtypes group ns)).Simulates p.format (Value.withExtra extra)
      (p.decodeLayout call (.subtypes group ms)) := by
  obtain ⟨htags, -, hmembers⟩ := ha
  obtain ⟨htags', -, hmembers'⟩ := hb
  have htag : p'.readTag = p.readTag := by
    unfold readTag
    rw [h.tagEncoding]
  rw [decodeLayout, decodeLayout, htag]
  refine Simulates.bind_of_yields yields_readTag fun tag => ?_
  rcases decodeMember?_eq_some_or_eq_none htags call tag with ⟨m, hm, rfl, hread⟩ | hnone
  · obtain ⟨hknown, n, hn, hntag, hntype⟩ := hab.exists_member hm
    have hname : m.layout.recordName? = some m.type := (hmembers m hm).2
    have hname' : n.layout.recordName? = some m.type := hntype ▸ (hmembers' n hn).2
    have hdecode : p'.decodeMember? call' ns m.tag = some (p'.decodeLayout call' n.layout) :=
      hntag ▸ decodeMember?_of_mem htags' hn
    rw [hread, hdecode]
    simp only
    rw [decodeLayout_of_recordName? hname, decodeLayout_of_recordName? hname']
    exact hrecord m.type hknown
  · -- A tag that leads nowhere is refused, so there is nothing to follow.
    rw [hnone]
    exact Simulates.throw _ _

/-- **What one program reads is read by the other, if this holds of records.** The induction is on
the similarity of the two layouts, which ends at records. -/
theorem simulates_decodeLayout_of (h : p.Extends p' known extra) (hp : p.Proper)
    {call' : TypeName → Decoder Value}
    (hrecord : ∀ name, known name → (call' name).Simulates p.format (Value.withExtra extra)
      (p.decodeRecord room name))
    (hab : Similar known a b) (ha : a.Proper p.tagEncoding) (hb : b.Proper p.tagEncoding) :
    (p'.decodeLayout call' b).Simulates p.format (Value.withExtra extra)
      (p.decodeLayout (p.decodeRecord room) a) := by
  -- The two layouts are alike all the way down to the next records, where `hrecord` takes over.
  induction hab with
  | primitive q =>
    change (q.decode p'.format).Simulates _ _ (q.decode p.format)
    rw [h.format]
    refine Simulates.of_yields Primitive.yields_decode ?_
    rintro v bytes ⟨x, -, rfl, -⟩
    exact Value.mapRecords_box q x
  | text =>
    refine Simulates.of_yields (yields_decodeText (p := p)) ?_
    rintro v bytes ⟨-, ⟨t, rfl⟩, -⟩
    rfl
  | nullable hab ih =>
    obtain ⟨-, hboxed, ha⟩ := ha
    exact h.simulates_nullable hab hboxed (ih ha hb.2.2)
  | list hab ih => exact h.simulates_list hp hab ha (ih ha hb)
  | record hknown ha' hb' =>
    rw [decodeLayout_of_recordName? ha', decodeLayout_of_recordName? hb']
    exact hrecord _ hknown
  | subtypes hms hns => exact h.simulates_subtypes (.subtypes hms hns) ha hb hrecord

/-- **Records are read alike**, by induction on the records that may be nested in them. -/
theorem simulates_decodeRecord (h : p.Extends p' known extra) (hp : p.Proper) (hp' : p'.Proper)
    (hname : known name) :
    (p'.decodeRecord room name).Simulates p.format (Value.withExtra extra)
      (p.decodeRecord room name) := by
  -- By induction on the room, which both programs have the same.
  induction room generalizing name with
  | zero => exact Simulates.throw _ _
  | succ room ih =>
    refine (h.simulates_decodeBody hname fun f hf g hg hfg => ?_).nested
    have hproper := hp'.present hg
    rw [h.tagEncoding] at hproper
    exact h.simulates_decodeLayout_of hp (fun n hn => ih hn) hfg.2.2 (hp.present hf) hproper

/-- **Whatever the smaller program reads, the larger one reads**, with the extra fields added. -/
theorem simulates_decodeLayout (h : p.Extends p' known extra) (hp : p.Proper) (hp' : p'.Proper)
    (hab : Similar known a b) (ha : a.Proper p.tagEncoding) (hb : b.Proper p.tagEncoding) :
    (p'.decodeLayout (p'.decodeRecord room) b).Simulates p.format (Value.withExtra extra)
      (p.decodeLayout (p.decodeRecord room) a) :=
  h.simulates_decodeLayout_of hp (fun _ hn => h.simulates_decodeRecord hp hp' hn) hab ha hb

/-! ### Writing -/

/-- The extra fields are named unlike the fields on the wire. -/
theorem extra_name_ne (h : p.Extends p' known extra) (hp' : p'.Proper) (hname : known name)
    {e f : Field Layout} (he : e ∈ extra name) (hf : f ∈ p.present name) : e.name ≠ f.name := by
  obtain ⟨kept, homitted, -⟩ := h.omitted name hname
  obtain ⟨g, hg, hfg⟩ := exists_mem_of_forall₂_left (h.present name hname) hf
  -- In the larger program the extra field and the one on the wire are two of its fields.
  have hnodup := hp'.nodup_declared name
  rw [homitted, List.map_append, List.nodup_append] at hnodup
  have hpresent : f.name ∈ (p'.present name).map (·.name) := List.mem_map.2 ⟨g, hg, hfg.1⟩
  have hextra : e.name ∈ (kept ++ extra name).map (·.name) :=
    List.mem_map.2 ⟨e, List.mem_append_right _ he, rfl⟩
  exact (hnodup.2.2 _ hpresent _ hextra).symm

/-- Every field that the larger program declares is one of before or an extra one. -/
theorem exists_of_mem_fieldsOf (h : p.Extends p' known extra) (hname : known name)
    {g : Field Layout} (hg : g ∈ p'.fieldsOf name) :
    g ∈ extra name ∨ ∃ f ∈ p.fieldsOf name, f.name = g.name := by
  -- A field of the later program has a partner, on the wire or among the omitted, unless it is an
  -- addition.
  obtain ⟨kept, homitted, hkept⟩ := h.omitted name hname
  rcases mem_fieldsOf_iff.1 hg with hg | hg
  · obtain ⟨f, hf, hfg⟩ := exists_mem_of_forall₂_right (h.present name hname) hg
    exact .inr ⟨f, mem_fieldsOf_iff.2 (.inl hf), hfg.1.symm⟩
  · rw [homitted] at hg
    rcases List.mem_append.1 hg with hg | hg
    · obtain ⟨f, hf, hfg⟩ := exists_mem_of_forall₂_right hkept hg
      exact .inr ⟨f, mem_fieldsOf_iff.2 (.inr hf), hfg.1.symm⟩
    · exact .inl hg

/-- Taking the extra fields away leaves what is on the wire. -/
theorem find?_dropExtra (h : p.Extends p' known extra) (hp' : p'.Proper) (hname : known name)
    {f : Field Layout} (hf : f ∈ p.present name) (fields : FieldMap Value) :
    FieldMap.find? (Value.dropExtra extra name
      (Value.mapFields (Value.dropExtra extra) fields)) f.name =
        (fields.find? f.name).map (Value.withoutExtra extra) := by
  rw [Value.dropExtra, FieldMap.find?_filter, Value.find?_mapFields]
  · rfl
  · intro x
    simpa using fun e he => h.extra_name_ne hp' hname he hf

/-- A record is shortened if its fields are. -/
theorem shortens_record (h : p.Extends p' known extra) (hp' : p'.Proper) (hname : known name)
    (ha : a.recordName? = some name) (hb : b.recordName? = some name)
    (hv : (p'.layoutScript (p'.recordScript room) b v).Valid)
    (hfields : ∀ inner, room = inner + 1 → ∀ f ∈ p.present name, ∀ g ∈ p'.present name,
      SimilarField known f g → ∀ x, (p'.layoutScript (p'.recordScript inner) g.layout x).Valid →
        p.Shortens p' extra inner f.layout g.layout x) :
    p.Shortens p' extra room a b v := by
  obtain ⟨inner, fields, rfl, rfl, hdeclared, hfound⟩ := exists_of_valid_record hb hv
  -- What is left of the fields of the record.
  let left := Value.dropExtra extra name (Value.mapFields (Value.dropExtra extra) fields)
  have hpairs : List.Forall₂ (fun f g => ∃ x, fields.find? g.name = some x ∧
      FieldMap.find? left f.name = some (x.withoutExtra extra) ∧
      p.Shortens p' extra inner f.layout g.layout x) (p.present name) (p'.present name) := by
    refine List.Forall₂.imp ?_ (forall₂_and_mem (h.present name hname))
    rintro f g ⟨hf, hg, hfg⟩
    obtain ⟨x, hx, hvalid⟩ := hfound g hg
    refine ⟨x, hx, ?_, hfields inner rfl f hf g hg hfg x hvalid⟩
    rw [h.find?_dropExtra hp' hname hf, ← hfg.1, hx, Option.map_some]
  have hdeclared' : ∀ x ∈ left, ∃ f ∈ p.fieldsOf name, f.name = x.1 := by
    intro x hx
    obtain ⟨hx, hextra⟩ := List.mem_filter.1 hx
    rw [Value.mapFields_eq_map] at hx
    obtain ⟨y, hy, rfl⟩ := List.mem_map.1 hx
    obtain ⟨g, hg, hgname⟩ := hdeclared y hy
    rcases h.exists_of_mem_fieldsOf hname hg with hg | ⟨f, hf, hfg⟩
    · exact absurd hgname (of_decide_eq_true hextra g hg)
    · exact ⟨f, hf, hfg.trans hgname⟩
  have hleft : ∀ f ∈ p.present name, ∃ y, FieldMap.find? left f.name = some y ∧
      (p.layoutScript (p.recordScript inner) f.layout y).Valid := by
    intro f hf
    obtain ⟨g, -, x, -, hx, hshort⟩ := exists_mem_of_forall₂_left hpairs hf
    exact ⟨_, hx, hshort.1⟩
  change (p.layoutScript _ a (.record name left)).Valid ∧
    (p.layoutScript _ a (.record name left)).bytes p.format = _
  -- What is left is declared and complete, so it is accepted; its bytes come field by field.
  constructor
  · rw [layoutScript_of_recordName? ha, valid_recordScript_succ_iff, valid_bodyScript_iff]
    exact ⟨left, rfl, hdeclared', hleft⟩
  · rw [bytes_record ha hdeclared' fun f hf => (hleft f hf).imp fun _ hy => hy.1,
      bytes_record hb hdeclared fun g hg => (hfound g hg).imp fun _ hx => hx.1]
    refine (flatMap_eq_flatMap_of_forall₂ (hpairs.imp ?_)).symm
    rintro f g ⟨x, hx, hy, hshort⟩
    rw [hx, hy, Option.getD_some, Option.getD_some, hshort.2]

theorem shortens_primitive (h : p.Extends p' known extra) (q : Primitive)
    (hv : (p'.layoutScript (p'.recordScript room) (.primitive q) v).Valid) :
    p.Shortens p' extra room (.primitive q) (.primitive q) v := by
  obtain ⟨x, rfl, -⟩ := Primitive.valid_script_iff.1 hv
  -- A value of a primitive holds no record, so nothing is taken from it.
  have hsame : (q.box x).withoutExtra extra = q.box x := Value.mapRecords_box q x
  change (q.script p'.format (q.box x)).Valid at hv
  change (q.script p.format ((q.box x).withoutExtra extra)).Valid ∧
    (q.script p.format ((q.box x).withoutExtra extra)).bytes p.format =
      (q.script p'.format (q.box x)).bytes p'.format
  rw [hsame, ← h.format]
  exact ⟨hv, rfl⟩

/-- A packed Boolean is written by itself, and nothing is taken from it. -/
theorem shortens_packed (h : p.Extends p' known extra) (hab : Similar known a b)
    (hpacked : (p.packed? a).isSome = true)
    (hv : (p'.layoutScript (p'.recordScript room) (.nullable b) v).Valid) :
    p.Shortens p' extra room (.nullable a) (.nullable b) v := by
  obtain ⟨wrapped, hp⟩ := Option.isSome_iff_exists.1 hpacked
  have hp' : p'.packed? b = some wrapped := (h.packed?_eq hab).trans hp
  obtain ⟨q, rfl, hkind, rfl⟩ := packed?_eq_some hp
  unfold Shortens
  rw [layoutScript_nullable_of_packed hp'] at hv ⊢
  rw [layoutScript_nullable_of_packed hp, h.format]
  -- What is packed is null or a boolean, and neither holds a record.
  have hsame : v.withoutExtra extra = v := by
    rcases (valid_packedScript_iff hkind).1 hv with hnull | ⟨x, rfl, -⟩
    · rcases isNull_iff.1 hnull with rfl | rfl <;> rfl
    · exact Value.mapRecords_box q x
  rw [hsame]
  exact ⟨hv, rfl⟩

/-- Otherwise a nullable writes a byte first, and whether that says null does not depend on the
extra fields. -/
theorem shortens_nullable (h : p.Extends p' known extra) (hab : Similar known a b)
    (hinner : (p'.layoutScript (p'.recordScript room) b v).Valid → p.Shortens p' extra room a b v)
    (hv : (p'.layoutScript (p'.recordScript room) (.nullable b) v).Valid) :
    p.Shortens p' extra room (.nullable a) (.nullable b) v := by
  cases hp : p.packed? a with
  | some wrapped => exact h.shortens_packed hab (hp ▸ rfl) hv
  | none =>
    have hp' : p'.packed? b = none := (h.packed?_eq hab).trans hp
    -- Taking the additions away changes records only, so what is null stays null and nothing
    -- becomes null.
    have hsame : (v.withoutExtra extra).isNull = v.isNull := Value.isNull_mapRecords v
    unfold Shortens
    by_cases hnull : v.isNull = true
    · have hnull' := hsame.trans hnull
      rw [layoutScript_nullable_of_isNull hp' hnull] at hv ⊢
      rw [layoutScript_nullable_of_isNull hp hnull']
      exact ⟨hv, rfl⟩
    · have hnull' : ¬(v.withoutExtra extra).isNull = true := hsame ▸ hnull
      rw [layoutScript_nullable_of_not_isNull hp' hnull, Script.valid_cons] at hv
      obtain ⟨hvalid, hbytes⟩ := hinner hv.2
      rw [layoutScript_nullable_of_not_isNull hp' hnull,
        layoutScript_nullable_of_not_isNull hp hnull', Script.valid_cons, Script.bytes_cons,
        Script.bytes_cons, hbytes]
      exact ⟨⟨trivial, hvalid⟩, rfl⟩

/-- A list is as long without the extra fields, so its count is written alike. -/
theorem shortens_list (h : p.Extends p' known extra) (hab : Similar known a b)
    (hmember : ∀ {x : Value}, (p'.layoutScript (p'.recordScript room) b x).Valid →
      p.Shortens p' extra room a b x)
    (hv : (p'.layoutScript (p'.recordScript room) (.list b) v).Valid) :
    p.Shortens p' extra room (.list a) (.list b) v := by
  obtain ⟨vs, rfl, hcount, hlength, hmembers⟩ := valid_list_iff.1 hv
  have hshort : ∀ x ∈ vs, p.Shortens p' extra room a b x := fun x hx => hmember (hmembers x hx)
  have hcount' : ¬p.TooLong a (vs.map (Value.withoutExtra extra)).length := by
    rw [List.length_map]
    rintro ⟨hmany, hzero⟩
    -- A list that is too long has a member, so its least size is that in the larger program.
    obtain ⟨x, hx⟩ := List.exists_mem_of_length_pos (Nat.zero_lt_of_lt hmany)
    exact hcount ⟨hmany, (h.minSize_eq_minSize hab (hshort x hx).1).trans hzero⟩
  unfold Shortens
  rw [Value.withoutExtra, Value.mapRecords_list]
  constructor
  · refine valid_list_iff.2 ⟨_, rfl, hcount', (List.length_map _).trans_lt hlength, ?_⟩
    intro y hy
    obtain ⟨x, hx, rfl⟩ := List.mem_map.1 hy
    exact (hshort x hx).1
  · change (p.layoutScript _ _ (.list (vs.map (Value.withoutExtra extra)))).bytes _ = _
    rw [layoutScript_list hcount, layoutScript_list hcount', Script.bytes_cons,
      Script.bytes_cons, Script.bytes_flatMap, Script.bytes_flatMap, List.length_map, h.format,
      List.flatMap_map]
    congr 1
    exact List.flatMap_congr fun x hx => h.format ▸ (hshort x hx).2

/-- The extra fields do not change the type of a record, so the same tag is written before it. -/
theorem shortens_subtypes (h : p.Extends p' known extra) {group : GroupName}
    {ms ns : List (Member Layout)} (hab : Similar known (.subtypes group ms) (.subtypes group ns))
    (ha : (Layout.subtypes group ms).Proper p.tagEncoding)
    (hb : (Layout.subtypes group ns).Proper p.tagEncoding)
    (hrecord : ∀ {name : TypeName} {a b : Layout}, known name → a.recordName? = some name →
      b.recordName? = some name → (p'.layoutScript (p'.recordScript room) b v).Valid →
        p.Shortens p' extra room a b v)
    (hv : (p'.layoutScript (p'.recordScript room) (.subtypes group ns) v).Valid) :
    p.Shortens p' extra room (.subtypes group ms) (.subtypes group ns) v := by
  obtain ⟨-, htypes, hmembers⟩ := ha
  obtain ⟨-, htypes', hmembers'⟩ := hb
  obtain ⟨n, hn, htype, hvalid⟩ := (valid_subtypes_iff htypes').1 hv
  obtain ⟨m, hm, hmtag, hmtype, hknown⟩ := hab.exists_member_of_mem hn
  have hname : m.layout.recordName? = some m.type := (hmembers m hm).2
  have hname' : n.layout.recordName? = some m.type := hmtype ▸ (hmembers' n hn).2
  -- The type of the record survives as well, so the group selects the same member.
  have htype' : (v.withoutExtra extra).runtimeType? = some m.type := by
    rw [Value.withoutExtra, Value.runtimeType?_mapRecords, htype, hmtype]
  obtain ⟨hshort, hbytes⟩ := hrecord hknown hname hname' hvalid
  have htag : p.tagStep m.tag = p'.tagStep n.tag := by
    unfold tagStep
    rw [h.tagEncoding, hmtag]
  unfold Shortens
  rw [layoutScript_subtypes htypes hm htype', layoutScript_subtypes htypes' hn htype,
    Script.valid_cons, Script.bytes_cons, Script.bytes_cons, hbytes, htag, h.format]
  exact ⟨⟨htag ▸ valid_tagStep m.tag, hshort⟩, rfl⟩

/-- **What the larger program writes is written by the smaller one, if this holds of records.** -/
theorem shortens_of (h : p.Extends p' known extra)
    (hrecord : ∀ {name : TypeName} {a b : Layout} {v : Value}, known name →
      a.recordName? = some name → b.recordName? = some name →
        (p'.layoutScript (p'.recordScript room) b v).Valid → p.Shortens p' extra room a b v)
    (hab : Similar known a b) (ha : a.Proper p.tagEncoding) (hb : b.Proper p.tagEncoding)
    (hv : (p'.layoutScript (p'.recordScript room) b v).Valid) :
    p.Shortens p' extra room a b v := by
  -- By induction on how the layouts correspond, records being what the caller has shown already.
  induction hab generalizing v with
  | primitive q => exact h.shortens_primitive q hv
  | text =>
    obtain ⟨t, rfl, hsize⟩ := valid_textScript_iff.1 hv
    exact ⟨hv, by rw [h.format]; rfl⟩
  | nullable hab ih => exact h.shortens_nullable hab (ih ha.2.2 hb.2.2) hv
  | list hab ih => exact h.shortens_list hab (ih ha hb) hv
  | record hknown ha' hb' => exact hrecord hknown ha' hb' hv
  | subtypes hms hns => exact h.shortens_subtypes (.subtypes hms hns) ha hb hrecord hv

/-- **Whatever the larger program writes, the smaller one writes** as the same bytes, without the
extra fields. -/
theorem shortens (h : p.Extends p' known extra) (hp : p.Proper) (hp' : p'.Proper)
    (hab : Similar known a b) (ha : a.Proper p.tagEncoding) (hb : b.Proper p.tagEncoding)
    (hv : (p'.layoutScript (p'.recordScript room) b v).Valid) :
    p.Shortens p' extra room a b v := by
  induction room using Nat.strongRecOn generalizing a b v with
  | ind room ih =>
    -- Records use up a level of nesting, so their fields are known to be shortened.
    refine h.shortens_of (fun hknown ha hb hv => ?_) hab ha hb hv
    refine h.shortens_record hp' hknown ha hb hv ?_
    rintro inner rfl f hf g hg hfg x hx
    have hproper := hp'.present hg
    rw [h.tagEncoding] at hproper
    exact ih inner (Nat.lt_succ_self inner) hfg.2.2 (hp.present hf) hproper hx

end Extends

end Program

end SchemaWire
