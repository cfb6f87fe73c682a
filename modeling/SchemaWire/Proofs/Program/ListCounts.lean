import SchemaWire.Proofs.Layout.Nodes
import SchemaWire.Proofs.Program.Consumption
import SchemaWire.Proofs.Program.LeftOpen
import SchemaWire.Proofs.Program.Locality
/-!
# Lists that have been written are not refused

A decoder refuses a list whose count is more than the input can hold. The bound is made from the
least size of a member, and as no member takes fewer bytes than that (`Program.Fills`), a list that
an encoder has written stays within it. This is so for every layout, of whatever shape
(`Program.decodeLayout_list_of_valid`).

For a whole value it takes one more thing: a decoder has to come to the lists that have been
written. It may fail to do so in a group where two members share a tag, or where a tag is cut down
to the width of its encoding, as it then reads the bytes of one member as those of another. Without
such groups (`Layout.TagsApart`) everything that has been written is read again
(`Program.exists_reads`), if not as the value that it was; so no count in it is refused, be it for
readers with more records open around them or fewer.
-/

namespace SchemaWire

open Decoder

namespace Layout

/-- **Tags tell members apart**: in every group the members have different tags, which the encoding
can carry. -/
def TagsApart (tagEncoding : TagEncoding) (root : Layout) : Prop :=
  ∀ group members, .subtypes group members ∈ root.nodes →
    (members.map (·.tag)).Nodup ∧ ∀ m ∈ members, m.tag ≤ tagEncoding.maxTag

theorem TagsApart.of_mem_nodes {tagEncoding : TagEncoding} {root a : Layout}
    (h : root.TagsApart tagEncoding) (ha : a ∈ root.nodes) : a.TagsApart tagEncoding :=
  fun group members hgroup => h group members (nodes_trans ha hgroup)

theorem TagsApart.part {tagEncoding : TagEncoding} {a c : Layout} (h : a.TagsApart tagEncoding)
    (hc : c ∈ a.parts) : c.TagsApart tagEncoding :=
  h.of_mem_nodes (mem_nodes_of_part hc c.mem_nodes_self)

end Layout

namespace Program

variable {p : Program} {room : Nat} {a : Layout} {v : Value}

/-- Writes a value in the layout of a node. At its root this is what a program does. -/
def encodeNode (p : Program) (a : Layout) (v : Value) : Encoder := fun w =>
  Script.run (p.layoutScript (p.recordScript (maxDepth - w.depth)) a v) w

/-- Reads a value in the layout of a node. -/
def decodeNode (p : Program) (a : Layout) : Decoder Value := fun r =>
  p.decodeLayout (p.decodeRecord (maxDepth - r.depth)) a r

/-! ### The count of a list -/

/-- Members that have been written take their least size each. -/
theorem mul_minSize_le_length {member : Layout} {vs : List Value}
    (h : ∀ x ∈ vs, (p.layoutScript (p.recordScript room) member x).Valid) :
    vs.length * p.minSize member ≤
      (vs.flatMap fun x =>
        (p.layoutScript (p.recordScript room) member x).bytes p.format).length := by
  -- Each member contributes its piece, and none is shorter than the least size.
  have hpieces : ∀ piece ∈ vs.map fun x =>
      (p.layoutScript (p.recordScript room) member x).bytes p.format,
      p.minSize member ≤ piece.length := by
    intro piece hpiece
    obtain ⟨x, hx, rfl⟩ := List.mem_map.1 hpiece
    exact minSize_le_length (h x hx)
  have htotal := mul_le_length_flatten hpieces
  rwa [List.length_map, ← List.flatMap_def] at htotal

/-- **A count that has been written is not refused**: whatever reads the members, the decoder of the
list comes to them. -/
theorem decodeLayout_list_of_valid {member : Layout} {vs : List Value}
    (h : (p.layoutScript (p.recordScript room) (.list member) (.list vs)).Valid)
    (readCall : TypeName → Decoder Value) {r : Reader} (hr : r.format = p.format)
    (hbytes : (p.layoutScript (p.recordScript room) (.list member) (.list vs)).bytes p.format <+:
      r.ahead) :
    p.decodeLayout readCall (.list member) r =
      (do return .list (← Decoder.replicate vs.length (p.decodeLayout readCall member)) :
        Decoder Value) (r.advance ((Step.length vs.length).bytes p.format).length) := by
  obtain ⟨vs', hvs, hcount, hlength, hmembers⟩ := valid_list_iff.1 h
  cases hvs
  rw [layoutScript_list hcount, Script.bytes_cons, Script.bytes_flatMap] at hbytes
  obtain ⟨counted, hcounted⟩ : ∃ bytes, bytes = (Step.length vs.length).bytes p.format := ⟨_, rfl⟩
  rw [← hcounted] at hbytes ⊢
  have hread : Reader.readLength r = .ok vs.length (r.advance counted.length) := by
    rw [hcounted]
    exact reads_readLength hlength r hr (hcounted ▸ (List.prefix_append _ _).trans hbytes)
  -- Behind the count lie all the members, each of them with its least size.
  have hlimit : vs.length ≤ p.countLimit member (r.advance counted.length).remaining := by
    refine length_le_countLimit hcount hmembers ?_
    rw [Reader.remaining_eq]
    exact (drop_prefix_of_append hbytes).length_le
  rw [decodeLayout_list, bind_apply, hread]
  exact decodeCounted_of_le hlimit

/-! ### Whole values -/

/-- A packed boolean or its null is read again. -/
theorem exists_reads_packed {q : Primitive} (hkind : q.kind = .bool)
    (h : (packedScript q.wrapped v).Valid) (format : WireFormat) :
    ∃ y, (decodePacked q.wrapped).Reads format ((packedScript q.wrapped v).bytes format) y := by
  rcases (valid_packedScript_iff hkind).1 h with hnull | ⟨⟨k, b⟩, rfl, hs⟩
  · rw [packedScript_of_isNull hnull]
    exact ⟨_, (reads_readByte 0).bind (Reads.pure _)⟩
  · obtain rfl : k = .bool := hs.trans hkind
    exact ⟨_, reads_decodePacked_box format⟩

theorem exists_reads_nullable {inner : Layout} {readCall : TypeName → Decoder Value}
    (hinner : (p.layoutScript (p.recordScript room) inner v).Valid →
      ∃ y, (p.decodeLayout readCall inner).Reads p.format
        ((p.layoutScript (p.recordScript room) inner v).bytes p.format) y)
    (h : (p.layoutScript (p.recordScript room) (.nullable inner) v).Valid) :
    ∃ y, (p.decodeLayout readCall (.nullable inner)).Reads p.format
      ((p.layoutScript (p.recordScript room) (.nullable inner) v).bytes p.format) y := by
  rw [decodeLayout]
  -- As in writing: a packed null is told by its byte, any other by the presence byte before it.
  cases hpacked : p.packed? inner with
  | some wrapped =>
    obtain ⟨q, rfl, hkind, rfl⟩ := packed?_eq_some hpacked
    rw [layoutScript_nullable_of_packed hpacked] at h ⊢
    exact exists_reads_packed hkind h p.format
  | none =>
    by_cases hnull : v.isNull = true
    · rw [layoutScript_nullable_of_isNull hpacked hnull]
      exact ⟨_, (reads_readByte 0).bind (Reads.pure _)⟩
    · rw [layoutScript_nullable_of_not_isNull hpacked hnull, Script.valid_cons] at *
      obtain ⟨y, hy⟩ := hinner h.2
      exact ⟨y, (reads_readByte 1).bind hy⟩

/-- **A value is read again, if the records in it are.** -/
theorem exists_reads_of {readCall : TypeName → Decoder Value} (ha : a.TagsApart p.tagEncoding)
    (hrecord : ∀ name x, (p.recordScript room name x).Valid →
      ∃ y, (readCall name).Reads p.format ((p.recordScript room name x).bytes p.format) y)
    (h : (p.layoutScript (p.recordScript room) a v).Valid) :
    ∃ y, (p.decodeLayout readCall a).Reads p.format
      ((p.layoutScript (p.recordScript room) a v).bytes p.format) y := by
  -- By induction on the layout. What is read back need not be what was written, so the value is
  -- left open.
  induction a generalizing v with
  | primitive q =>
    obtain ⟨x, rfl, hkind⟩ := Primitive.valid_script_iff.1 h
    change ∃ y, (q.decode p.format).Reads p.format ((q.script p.format (q.box x)).bytes p.format) y
    rw [Primitive.script_box hkind, Script.bytes_cons, Script.bytes_nil, List.append_nil]
    exact ⟨_, Primitive.reads_decode hkind⟩
  | text =>
    obtain ⟨t, rfl, hsize⟩ := valid_textScript_iff.1 h
    exact ⟨_, reads_decodeText hsize p.format⟩
  | nullable inner ih =>
    exact exists_reads_nullable (ih (ha.part (List.mem_singleton_self inner))) h
  | list member ih =>
    obtain ⟨vs, rfl, hcount, hlength, hmembers⟩ := valid_list_iff.1 h
    have hread := fun x hx => ih (ha.part (List.mem_singleton_self member)) (hmembers x hx)
    choose! valueOf hvalueOf using hread
    exact ⟨_, reads_list hcount hlength hmembers hvalueOf⟩
  | record name fields => exact hrecord name v h
  | reference name => exact hrecord name v h
  | subtypes group members ih =>
    obtain ⟨htags, hmax⟩ := ha group members (Layout.mem_nodes_self _)
    obtain ⟨m, hm, hscript⟩ := exists_of_valid_subtypes h
    rw [hscript, Script.valid_cons] at h
    obtain ⟨y, hy⟩ := ih m hm (ha.part (Layout.member_mem_parts hm)) h.2
    -- Whichever member has written the value, its tag leads back to it.
    refine ⟨y, ?_⟩
    rw [hscript, Script.bytes_cons, decodeLayout]
    refine (reads_readTag (hmax m hm) p.format).bind ?_
    rw [decodeMember?_of_mem htags hm]
    exact hy

/-- **A record is read again**, by induction on the records that may be nested in it. -/
theorem exists_reads_record
    (hfields : ∀ name, ∀ f ∈ p.present name, f.layout.TagsApart p.tagEncoding) {name : TypeName}
    (h : (p.recordScript room name v).Valid) :
    ∃ y, (p.decodeRecord room name).Reads p.format
      ((p.recordScript room name v).bytes p.format) y := by
  -- By induction on the room. What a field holds has been written with less room, so it can be read
  -- with as much.
  induction room generalizing name v with
  | zero => exact absurd h not_valid_recordScript_zero
  | succ room ih =>
    have hcall : p.layoutScript (p.recordScript (room + 1)) (.reference name) v =
        p.recordScript (room + 1) name v := layoutScript_of_recordName? rfl _ v
    rw [← hcall] at h ⊢
    obtain ⟨inner, fields, hroom, rfl, hdeclared, hheld⟩ := exists_of_valid_record rfl h
    cases hroom
    -- The record declares its fields, so what was written for a field is what it holds.
    have hfound := fun f hf => (hheld f hf).imp fun _ hx => hx.1
    have hread : ∀ f ∈ p.present name, ∃ y,
        (p.decodeLayout (p.decodeRecord room) f.layout).Reads p.format
          ((p.layoutScript (p.recordScript room) f.layout
            ((fields.find? f.name).getD f.layout.default)).bytes p.format) y := by
      intro f hf
      obtain ⟨x, hx, hvalid⟩ := hheld f hf
      rw [hx, Option.getD_some]
      exact exists_reads_of (hfields name f hf) (fun n y hy => ih hy) hvalid
    choose! valueOf hvalueOf using hread
    rw [bytes_record rfl hdeclared hfound]
    exact ⟨_, ((reads_decodeFields hvalueOf []).map fun done =>
      Value.record name (p.withDefaults name done)).nested⟩

/-- The fields of a layout are among its nodes, so their groups are among its groups. -/
theorem tagsApart_present {root : Layout} {version : Version} {format : WireFormat}
    {tagEncoding : TagEncoding} (h : root.TagsApart tagEncoding) {name : TypeName}
    {f : Field Layout} (hf : f ∈ (ofLayout root version format tagEncoding).present name) :
    f.layout.TagsApart tagEncoding := by
  have hdeclared : f ∈ root.fieldsOf name := (mem_present.1 hf).1
  have hnode := Layout.record_mem_nodes (List.ne_nil_of_mem hdeclared) rfl
  exact h.of_mem_nodes (Layout.mem_nodes_of_mem_parts hnode (Layout.layout_mem_parts hdeclared))

/-- **Whatever has been written is read again** where tags tell members apart. -/
theorem exists_reads {root : Layout} {version : Version} {format : WireFormat}
    {tagEncoding : TagEncoding} (hroot : root.TagsApart tagEncoding) (ha : a ∈ root.nodes)
    (h : ((ofLayout root version format tagEncoding).layoutScript
      ((ofLayout root version format tagEncoding).recordScript room) a v).Valid) :
    ∃ y, ((ofLayout root version format tagEncoding).decodeLayout
      ((ofLayout root version format tagEncoding).decodeRecord room) a).Reads format
        (((ofLayout root version format tagEncoding).layoutScript
          ((ofLayout root version format tagEncoding).recordScript room) a v).bytes format) y :=
  exists_reads_of (hroot.of_mem_nodes ha)
    (fun _ _ hx => exists_reads_record (fun _ _ hf => tagsApart_present hroot hf) hx) h

/-- **What is read with some room is never refused for a count with any other room**: either it is
read again, or records are nested too deeply. -/
theorem ne_listTooLong_of_ok {room' : Nat} {r r₁ : Reader} {y : Value}
    (h : p.decodeLayout (p.decodeRecord room) a r = .ok y r₁) (count limit : Nat) (r' : Reader) :
    p.decodeLayout (p.decodeRecord room') a r ≠ .error (.listTooLong count limit) r' := by
  -- With less room a decoder reads what it reads with more, or fails for its depth.
  have hcut {small big : Nat} (hle : small ≤ big) :
      p.decodeLayout (p.decodeRecord small) a r =
          Decoder.raised 0 (p.decodeLayout (p.decodeRecord big) a r) ∨
        ∃ s, p.decodeLayout (p.decodeRecord small) a r = .error (.depthExceeded maxDepth) s :=
    (@Decoder.Congruence.decodeLayout _ small p _ _ a cutShort_decode_congruence fun name =>
      cutShort_decode_congruence.decodeRecord hle name).raised_or r 0
  intro hrefused
  rcases Nat.le_total room' room with hle | hle
  · rcases hcut hle with hsame | ⟨s, hdeep⟩
    · rw [h] at hsame
      cases hrefused.symm.trans hsame
    · cases hrefused.symm.trans hdeep
  · rcases hcut hle with hsame | ⟨s, hdeep⟩
    · rw [hrefused] at hsame
      cases h.symm.trans hsame
    · cases h.symm.trans hdeep

/-! ### The codec of a node -/

/-- **What the least size of a node says about its codec**, for writers and readers of the program's
format.

* `written`, `read` — no value is written in fewer bytes, and none is read from fewer; where the
  least size is zero there are no bytes at all.
* `word` — added up in a word it is the same, or does not fit.
* `capped` — the cap on lists of members without bytes applies to no other members.
* `added` — behind the count of a list lies the least size of a member as many times as there are
  members.
* `counted` — so a list that has been written is not refused: behind the count the decoder goes on
  to read as many members as there are.
* `unrefused` — if tags tell members apart, no list in anything that has been written is refused,
  however many records are open around the reader. -/
structure SizeSound (p : Program) (a : Layout) : Prop where
  written : ∀ v w w', w.format = p.format → p.encodeNode a v w = .ok () w' →
    w.position + p.minSize a ≤ w'.position ∧ (p.minSize a = 0 → w'.position = w.position)
  read : ∀ r v r', r.format = p.format → p.decodeNode a r = .ok v r' →
    r.position + p.minSize a ≤ r'.position ∧ (p.minSize a = 0 → r'.position = r.position)
  word : p.wordSize a = .ofNat (p.minSize a)
  capped : ∀ count, p.TooLong a count →
    (∀ v w w', w.format = p.format → p.encodeNode a v w = .ok () w' → w'.position = w.position) ∧
    ∀ r v r', r.format = p.format → p.decodeNode a r = .ok v r' → r'.position = r.position
  added : ∀ vs w w', w.format = p.format → p.encodeNode (.list a) (.list vs) w = .ok () w' →
    w.position + ((Step.length vs.length).bytes p.format).length + vs.length * p.minSize a ≤
      w'.position
  counted : ∀ vs w w' bytes r, w.format = p.format →
    p.encodeNode (.list a) (.list vs) w = .ok () w' →
    w'.written.toList = w.written.toList ++ bytes → r.format = p.format → bytes <+: r.ahead →
    p.decodeNode (.list a) r =
      (do return .list (← Decoder.replicate vs.length
          (p.decodeLayout (p.decodeRecord (maxDepth - r.depth)) a)) : Decoder Value)
        (r.advance ((Step.length vs.length).bytes p.format).length)
  unrefused : p.root.TagsApart p.tagEncoding → a ∈ p.root.nodes → ∀ v w w' bytes r,
    w.format = p.format → p.encodeNode a v w = .ok () w' →
    w'.written.toList = w.written.toList ++ bytes → r.format = p.format → bytes <+: r.ahead →
    ∀ count limit r', p.decodeNode a r ≠ .error (.listTooLong count limit) r'

/-- What a node has written is the bytes of a valid script. -/
theorem valid_of_encodeNode {w w' : Writer} (hw : w.format = p.format)
    (h : p.encodeNode a v w = .ok () w') :
    (p.layoutScript (p.recordScript (maxDepth - w.depth)) a v).Valid ∧
      w'.written.toList = w.written.toList ++
        (p.layoutScript (p.recordScript (maxDepth - w.depth)) a v).bytes p.format := by
  have hwritten := (Script.written_of_run_eq_ok h).2.2
  rw [hw] at hwritten
  exact ⟨(Script.run_eq_ok_iff.1 ⟨w', h⟩).1, hwritten⟩

/-- A node writes its least size at least. -/
theorem minSize_le_of_encodeNode {w w' : Writer} (hw : w.format = p.format)
    (h : p.encodeNode a v w = .ok () w') :
    w.position + p.minSize a ≤ w'.position ∧ (p.minSize a = 0 → w'.position = w.position) := by
  obtain ⟨hvalid, -⟩ := valid_of_encodeNode hw h
  obtain ⟨-, hposition, -⟩ := Script.moves_of_run h
  rw [hw] at hposition
  -- Written is what a valid script says, and that fills the layout.
  have hfills := fills_of_valid hvalid
  refine ⟨hposition ▸ Nat.add_le_add_left hfills.le _, fun hzero => ?_⟩
  rw [hposition, hfills.eq_nil hzero]
  rfl

/-- A node takes up its least size at least, whatever the bytes are. -/
theorem minSize_le_of_decodeNode {r r' : Reader} (hr : r.format = p.format)
    (h : p.decodeNode a r = .ok v r') :
    r.position + p.minSize a ≤ r'.position ∧ (p.minSize a = 0 → r'.position = r.position) := by
  obtain ⟨bytes, -, rfl, hfills⟩ := fills_decodeLayout _ a r v r' hr h
  refine ⟨Nat.add_le_add_left hfills.le _, fun hzero => ?_⟩
  rw [hfills.eq_nil hzero]
  rfl

/-- **The least size is sound**, in every layout, be it resolved or made by hand, at every version,
level and tag encoding, and for every node. -/
theorem minSize_sound (root : Layout) (version : Version) (level : Level)
    (tagEncoding : TagEncoding) (a : Layout) :
    (ofLayout root version level.format tagEncoding).SizeSound a where
  written := fun _ _ _ hw h => minSize_le_of_encodeNode hw h
  read := fun _ _ _ hr h => minSize_le_of_decodeNode hr h
  word := wordSize_eq _ a
  -- Without bytes there is nothing to move over.
  capped := by
    rintro count ⟨-, hzero⟩
    exact ⟨fun _ _ _ hw h => (minSize_le_of_encodeNode hw h).2 hzero,
      fun _ _ _ hr h => (minSize_le_of_decodeNode hr h).2 hzero⟩
  -- One count in front, then the pieces of the members, each of at least the least size.
  added := by
    intro vs w w' hw h
    obtain ⟨hvalid, -⟩ := valid_of_encodeNode hw h
    obtain ⟨-, hposition, -⟩ := Script.moves_of_run h
    obtain ⟨vs', hvs, hcount, -, hmembers⟩ := valid_list_iff.1 hvalid
    cases hvs
    rw [hw, layoutScript_list hcount, Script.bytes_cons, Script.bytes_flatMap, List.length_append,
      ← Nat.add_assoc] at hposition
    exact hposition ▸ Nat.add_le_add_left (mul_minSize_le_length hmembers) _
  counted := by
    intro vs w w' bytes r hw h hbytes hr hahead
    obtain ⟨hvalid, hwritten⟩ := valid_of_encodeNode hw h
    rw [List.append_cancel_left (hbytes.symm.trans hwritten)] at hahead
    exact decodeLayout_list_of_valid hvalid _ hr hahead
  -- With the tags apart, something can be read back, and then it is not refused for its length.
  unrefused := by
    intro hroot ha v w w' bytes r hw h hbytes hr hahead count limit r'
    obtain ⟨hvalid, hwritten⟩ := valid_of_encodeNode hw h
    rw [List.append_cancel_left (hbytes.symm.trans hwritten)] at hahead
    obtain ⟨y, hreads⟩ := exists_reads hroot ha hvalid
    exact ne_listTooLong_of_ok (hreads r hr hahead) count limit r'

/-- A list whose members are nullable twice, and hold a scalar that is not boxed, is written in five
bytes. Behind the first of them, the count of two is accepted. -/
theorem minSize_sound_nullable_twice :
    let cell := Layout.nullable (.nullable (.primitive (.ofKind .u8)))
    let p := ofLayout (.list cell) 0 Level.level3.format .u8
    let vs := [.null, .scalar ⟨.u8, 5⟩]
    let w : Writer := ⟨#[9, 9, 9, 9, 9], 0, #[], p.format, 0, by decide⟩
    let w' := cursorAfter (p.encodeNode (.list cell) (.list vs)) w
    let r : Reader := ⟨[2, 0, 1, 1, 5], 0, 5, p.format, 0, rfl⟩
    p.encodeNode (.list cell) (.list vs) w = .ok () w' ∧ w.position + 1 + 2 * 1 ≤ w'.position ∧
      p.decodeNode (.list cell) r =
        (do return .list (← Decoder.replicate 2
            (p.decodeLayout (p.decodeRecord maxDepth) cell)) : Decoder Value) (r.advance 1) ∧
      p.decodeNode (.list cell) r = .ok (.list vs) (r.advance 5) := by
  intro cell p vs w w' r
  -- The count, the null, and the member behind its two presence bytes.
  have hscript : p.layoutScript (p.recordScript (maxDepth - w.depth)) (.list cell) (.list vs) =
      [.length 2, .raw [0], .raw [1], .raw [1], .fixed 1 5] := by with_unfolding_all rfl
  obtain ⟨after, hafter⟩ : ∃ after, p.encodeNode (.list cell) (.list vs) w = .ok () after := by
    refine Script.run_eq_ok_iff.2 ?_
    rw [hscript]
    exact ⟨by simp [Step.Valid], by decide⟩
  have hcursor : w' = after := by
    change cursorAfter _ w = after
    rw [cursorAfter, hafter]
  have hwrites : p.encodeNode (.list cell) (.list vs) w = .ok () w' := hcursor ▸ hafter
  have hwritten : w'.written.toList = w.written.toList ++ [2, 0, 1, 1, 5] := by
    rw [(valid_of_encodeNode rfl hwrites).2, hscript]
    rfl
  have hcount : ((Step.length vs.length).bytes p.format).length = 1 := by decide +kernel
  have hsize : p.minSize cell = 1 := by decide +kernel
  have hsound : p.SizeSound cell := minSize_sound (.list cell) 0 .level3 .u8 cell
  have hadded := hsound.added vs w w' rfl hwrites
  have hcounted := hsound.counted vs w w' _ r rfl hwrites hwritten rfl (List.prefix_refl _)
  rw [hcount, hsize] at hadded
  rw [hcount] at hcounted
  exact ⟨hwrites, hadded, hcounted, by with_unfolding_all rfl⟩

/-- A group of two records with lists of different members. Both of them have the tag 0. -/
def sharedTag : Layout :=
  .subtypes "Either" [⟨0, "Bytes", .record "Bytes" [⟨"f", 0, .list (.primitive (.ofKind .u8))⟩]⟩,
    ⟨0, "Words", .record "Words" [⟨"f", 0, .list (.primitive (.ofKind .u32))⟩]⟩]

/-- A list of three bytes is written under a tag that is read as that of a list of words. There is
no room for three words in three bytes, so its count is refused. -/
theorem refused_under_shared_tag :
    let p := ofLayout sharedTag 0 Level.level3.format .u8
    let v := Value.record "Bytes"
      [("f", .list [.scalar ⟨.u8, 1⟩, .scalar ⟨.u8, 2⟩, .scalar ⟨.u8, 3⟩])]
    let w : Writer := ⟨#[9, 9, 9, 9, 9], 0, #[], p.format, 0, by decide⟩
    let r : Reader := ⟨[0, 3, 1, 2, 3], 0, 5, p.format, 0, rfl⟩
    (sharedTag.dangling? = none ∧
      (∃ w', p.encode v w = .ok () w' ∧ w'.written.toList = [0, 3, 1, 2, 3]) ∧
      ∃ r', p.decode r = .error (.listTooLong 3 0) r') ∧
    ¬∀ (root : Layout) (version : Version) (level : Level) (tagEncoding : TagEncoding),
      root.dangling? = none →
      let p := ofLayout root version level.format tagEncoding
      ∀ a ∈ p.root.nodes, ∀ v w w' bytes r, w.format = p.format →
        p.encodeNode a v w = .ok () w' → w'.written.toList = w.written.toList ++ bytes →
        r.format = p.format → bytes <+: r.ahead →
        ∀ count limit r', p.decodeNode a r ≠ .error (.listTooLong count limit) r' := by
  intro p v w r
  -- Written with the first member: its tag, the count, and a byte for each of the three numbers.
  have hscript : p.layoutScript (p.recordScript (maxDepth - w.depth)) p.root v =
      [.fixed 1 0, .enter, .length 3, .fixed 1 1, .fixed 1 2, .fixed 1 3, .leave] := by
    with_unfolding_all rfl
  obtain ⟨w', hw'⟩ : ∃ w', p.encodeNode p.root v w = .ok () w' := by
    refine Script.run_eq_ok_iff.2 ?_
    rw [hscript]
    exact ⟨by simp [Step.Valid], by decide⟩
  have hwritten : w'.written.toList = [0, 3, 1, 2, 3] := by
    rw [(valid_of_encodeNode rfl hw').2, hscript]
    rfl
  -- The second member has the tag as well and is the one that is read: its list would need 12
  -- bytes.
  obtain ⟨r', hr'⟩ : ∃ r', p.decodeNode p.root r = .error (.listTooLong 3 0) r' :=
    ⟨_, by with_unfolding_all rfl⟩
  have hdangling : sharedTag.dangling? = none := by decide +kernel
  refine ⟨⟨hdangling, ⟨w', hw', hwritten⟩, r', hr'⟩, fun hclaim => ?_⟩
  exact hclaim sharedTag 0 .level3 .u8 hdangling sharedTag (Layout.mem_nodes_self _) v w w' _ r rfl
    hw' hwritten rfl (List.prefix_refl _) 3 0 r' hr'

end Program

end SchemaWire
