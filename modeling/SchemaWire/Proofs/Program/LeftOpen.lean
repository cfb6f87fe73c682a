import SchemaWire.Proofs.Program.Congruence
import SchemaWire.Proofs.Wire.LessRoom
/-!
# What a call leaves behind in a cursor

A call that succeeds leaves a cursor as deep as it was. A call that fails does not: the records
inside which it stops stay open, and every later call on the cursor has so much less room.

* `Program.DepthOfWriting`, `Program.DepthOfReading` — of one call on any cursor: how deep it leaves
  the cursor, and what it goes by. More records open around a cursor make no other difference than
  that a value may be refused for its depth.
* `DepthOfCalls` — of any number of calls on one cursor, whether they succeed or fail: the depth is
  never lowered again.
* `Program.depth_left_behind` — all programs behave so. One whose values are records leaves
  something behind whenever a call fails, and after as many failures as there is room it refuses
  everything.

Nothing in this comes from the layouts: scripts and decoders close what they open because all ways
of putting them together do (`Program.nests_congruence`, `Program.nests_decode_congruence`).
-/

namespace SchemaWire

/-! ### Calls on one cursor -/

section Calls

variable {ε σ α : Type}

/-- The cursor after a call, whether that succeeds or fails. -/
def cursorAfter (call : EStateM ε σ α) (s : σ) : σ :=
  match call s with
  | .ok _ s' => s'
  | .error _ s' => s'

/-- The cursor after calls in a row, whether these succeed or fail. -/
def cursorAfterAll : List (EStateM ε σ α) → σ → σ
  | [], s => s
  | call :: calls, s => cursorAfterAll calls (cursorAfter call s)

/-- How many calls in a row fail. -/
def failures : List (EStateM ε σ α) → σ → Nat
  | [], _ => 0
  | call :: calls, s =>
    match call s with
    | .ok _ s' => failures calls s'
    | .error _ s' => failures calls s' + 1

/-- **What one call leaves behind**: nothing if it succeeds. If it fails, records may stay open, and
one at least does so where the call `opens` one, if only there is room for it. -/
structure DepthOfCall (depth : σ → Nat) (opens : Prop) (call : EStateM ε σ α) : Prop where
  of_ok : ∀ s x s', call s = .ok x s' → depth s' = depth s
  of_error : ∀ s e s', call s = .error e s' →
    depth s ≤ depth s' ∧ depth s' ≤ max (depth s) maxDepth ∧
      (opens → min maxDepth (depth s + 1) ≤ depth s')

/-- **What calls in a row leave behind**: nothing if none of them fails, never more than there is
room for, and a record for each failure where every call `opens` one. -/
structure DepthOfCalls (depth : σ → Nat) (opens : Prop) (calls : List (EStateM ε σ α)) (s : σ) :
    Prop where
  le : depth s ≤ depth (cursorAfterAll calls s)
  bounded : depth (cursorAfterAll calls s) ≤ max (depth s) maxDepth
  of_successes : failures calls s = 0 → depth (cursorAfterAll calls s) = depth s
  of_failures : opens → min maxDepth (depth s + failures calls s) ≤ depth (cursorAfterAll calls s)

/-- **From one call to many**, by induction on the calls: what has been left behind stays. -/
theorem depthOfCalls {depth : σ → Nat} {opens : Prop} {calls : List (EStateM ε σ α)}
    (h : ∀ call ∈ calls, DepthOfCall depth opens call) (s : σ) :
    DepthOfCalls depth opens calls s := by
  -- By induction on the calls: a call that succeeds keeps the depth, and one that fails may raise
  -- it.
  induction calls generalizing s with
  | nil =>
    exact ⟨Nat.le_refl _, Nat.le_max_left _ _, fun _ => rfl, fun _ => Nat.min_le_right _ _⟩
  | cons call calls ih =>
    obtain ⟨hcall, hcalls⟩ := List.forall_mem_cons.1 h
    obtain ⟨hle, hbounded, hsuccesses, hfailures⟩ := ih hcalls (cursorAfter call s)
    cases hs : call s with
    | ok x s' =>
      have hafter : cursorAfter call s = s' := by rw [cursorAfter, hs]
      have hcount : failures (call :: calls) s = failures calls s' := by rw [failures, hs]
      have hdepth := hcall.of_ok s x s' hs
      rw [hafter, hdepth] at hle hbounded hsuccesses hfailures
      constructor <;> rw [cursorAfterAll, hafter]
      · exact hle
      · exact hbounded
      · rw [hcount]
        exact hsuccesses
      · rw [hcount]
        exact hfailures
    | error e s' =>
      have hafter : cursorAfter call s = s' := by rw [cursorAfter, hs]
      have hcount : failures (call :: calls) s = failures calls s' + 1 := by rw [failures, hs]
      obtain ⟨hle₁, hbounded₁, hopens⟩ := hcall.of_error s e s' hs
      rw [hafter] at hle hbounded hfailures
      constructor <;> rw [cursorAfterAll, hafter]
      · exact hle₁.trans hle
      · omega
      · rw [hcount]
        exact fun h => absurd h (Nat.succ_ne_zero _)
      · intro ho
        have hone := hopens ho
        -- At least one record stays open for this call, and one for each failure to come, up to the
        -- limit.
        have hrest := hfailures ho
        rw [hcount]
        omega

end Calls

namespace Program

/-- A program whose values are records. -/
def OfRecord (p : Program) : Prop := ∃ name, p.root.recordName? = some name

/-! ### Writing -/

/-- **The depth of a writer under a call.** A value that is written leaves the depth as it was; one
that is refused leaves those records open inside which it is. What comes of the value is the same on
all writers of the format that have equally many bytes left and no more records open, unless it is
the depth for which it is refused; and where there is no room left, every record is refused. -/
structure DepthOfWriting (p : Program) (v : Value) (w : Writer) : Prop where
  closed : ∀ w', p.encode v w = .ok () w' → w'.depth = w.depth
  leftOpen : ∀ e w', p.encode v w = .error e w' → ∃ k ≤ maxDepth - w.depth,
    (p.script (maxDepth - w.depth) v).StopsIn w e w' k ∧ w'.depth = w.depth + k
  outcome : ∀ u : Writer, u.format = w.format → u.remaining = w.remaining → u.depth ≤ w.depth →
    Writer.SameOutcome w u (p.encode v w) (p.encode v u) ∨
      u.depth < w.depth ∧ ∃ w', p.encode v w = .error (.depthExceeded maxDepth) w'
  full : p.OfRecord → maxDepth ≤ w.depth →
    p.encode v w = .error (.depthExceeded maxDepth) w

theorem nests_congruence : Script.Congruence fun room _ cut => cut.Nests room where
  nil := Script.Nests.nil
  single hstep := Script.Nests.single hstep.1
  append h h' := h.append h'
  nested h := h.nested
  deep _ := Script.Nests.single trivial

theorem cutShort_congruence :
    Script.Congruence fun _ full cut => Script.CutShort (.depthExceeded maxDepth) full cut where
  nil := .inl rfl
  single _ := .inl rfl
  append h h' := h.append h'
  nested h := h.nested
  deep _ := .inr ⟨[], [], _, rfl, rfl⟩

/-- **A script closes what it opens**, within the room that there is. -/
theorem nests_script (p : Program) (room : Nat) (v : Value) : (p.script room v).Nests room :=
  nests_congruence.script p (Nat.le_refl room) v

theorem depthOfWriting (p : Program) (v : Value) (w : Writer) : p.DepthOfWriting v w where
  closed w' h := (p.nests_script _ v).depth_of_run_eq_ok h
  leftOpen e w' h := (p.nests_script _ v).stopsIn h
  outcome u hformat hremaining hdepth := by
    have hopens := (p.nests_script (maxDepth - u.depth) v).opensFirst
    have hnever := p.neverOverflows_script (maxDepth - u.depth) v
    unfold encode
    -- At the same depth both writings are the same; with fewer records open there is more room than
    -- before.
    rcases hdepth.eq_or_lt with hsame | hless
    · rw [hsame] at hopens hnever ⊢
      exact .inl (Script.sameOutcome hopens hnever hformat hremaining)
    · have hroom : maxDepth - w.depth ≤ maxDepth - u.depth := Nat.sub_le_sub_left hdepth _
      have hcut := (cutShort_congruence.script p hroom v).sameOutcome_or hopens hnever hformat
        hremaining
      exact hcut.imp_right fun hrefused => ⟨hless, hrefused⟩
  full hrecord hfull := by
    obtain ⟨name, hname⟩ := hrecord
    rw [encode, script, layoutScript_of_recordName? hname, Nat.sub_eq_zero_of_le hfull]
    rfl

/-- A record that is refused inside has been opened. -/
theorem depthOfCall_encode (p : Program) (v : Value) :
    DepthOfCall Writer.depth p.OfRecord (p.encode v) where
  of_ok w _ w' h := (p.depthOfWriting v w).closed w' h
  of_error w e w' h := by
    obtain ⟨k, hk, hstops, hdepth⟩ := (p.depthOfWriting v w).leftOpen e w' h
    refine ⟨by omega, by omega, fun ⟨name, hname⟩ => ?_⟩
    rw [encode, script, layoutScript_of_recordName? hname] at h
    cases hroom : maxDepth - w.depth with
    -- Without room nothing is opened, but then there is nothing left to lose.
    | zero => omega
    | succ room =>
      have hbody : (p.bodyScript (p.recordScript room) name v).Nests room :=
        nests_congruence.bodyScript (p.recordScript room) _
          (nests_congruence.recordScript (Nat.le_refl room)) name
      rw [hroom] at h
      have hopen := hbody.depth_lt_of_nested h
      omega

/-! ### Reading -/

/-- **The depth of a reader under a call**, in the same way. -/
structure DepthOfReading (p : Program) (r : Reader) : Prop where
  closed : ∀ v r', p.decode r = .ok v r' → r'.depth = r.depth
  leftOpen : ∀ e r', p.decode r = .error e r' → ∃ k ≤ maxDepth - r.depth,
    (p.decodeLayout (p.decodeRecord (maxDepth - r.depth)) p.root).StopsIn r e r' k ∧
      r'.depth = r.depth + k
  outcome : ∀ k, p.decode (r.atDepth (r.depth + k)) = Decoder.raised k (p.decode r) ∨
    0 < k ∧ ∃ r', p.decode (r.atDepth (r.depth + k)) = .error (.depthExceeded maxDepth) r'
  full : p.OfRecord → maxDepth ≤ r.depth →
    p.decode r = .error (.depthExceeded maxDepth) r

theorem nests_decode_congruence : Decoder.Congruence fun room _ _ cut => cut.Nests room where
  flat hd := Decoder.Nests.of_flat hd
  bind h hf := h.bind hf
  nested h := h.nested
  deep _ := Decoder.Nests.of_flat (Decoder.Flat.throw _)

theorem cutShort_decode_congruence : Decoder.Congruence fun _ _ full cut =>
    Decoder.CutShort (.depthExceeded maxDepth) full cut where
  flat hd := Decoder.CutShort.of_flat hd
  bind h hf := h.bind hf
  nested h := h.nested
  deep h := Decoder.CutShort.throw h.closes.nested

/-- **A decoder closes what it opens**, within the room that there is. -/
theorem nests_decode (p : Program) (room : Nat) :
    (p.decodeLayout (p.decodeRecord room) p.root).Nests room :=
  nests_decode_congruence.decode p (Nat.le_refl room)

theorem depthOfReading (p : Program) (r : Reader) : p.DepthOfReading r where
  closed v r' h := (p.nests_decode _).closes r v r' h
  leftOpen e r' h := by
    -- Reading that stops leaves open what it had entered.
    obtain ⟨k, hk, hstops⟩ := (p.nests_decode _).stops r e r' h
    exact ⟨k, hk, hstops, hstops.depth_eq⟩
  outcome k := by
    have hroom : maxDepth - (r.depth + k) ≤ maxDepth - r.depth :=
      Nat.sub_le_sub_left (Nat.le_add_right _ _) _
    -- Raised by nothing is the same cursor.
    rcases Nat.eq_zero_or_pos k with rfl | hk
    · refine .inl ?_
      change p.decode r = Decoder.raised 0 (p.decode r)
      cases p.decode r <;> rfl
    · have hcut := (cutShort_decode_congruence.decode p hroom).raised_or r k
      exact hcut.imp_right fun hrefused => ⟨hk, hrefused⟩
  full hrecord hfull := by
    obtain ⟨name, hname⟩ := hrecord
    rw [decode, decodeLayout_of_recordName? hname, Nat.sub_eq_zero_of_le hfull]
    rfl

theorem depthOfCall_decode (p : Program) :
    DepthOfCall Reader.depth p.OfRecord p.decode where
  of_ok r v r' h := (p.depthOfReading r).closed v r' h
  of_error r e r' h := by
    obtain ⟨k, hk, hstops, hdepth⟩ := (p.depthOfReading r).leftOpen e r' h
    refine ⟨by omega, by omega, fun ⟨name, hname⟩ => ?_⟩
    rw [decode, decodeLayout_of_recordName? hname] at h
    cases hroom : maxDepth - r.depth with
    -- The limit is reached, so the record is not even entered.
    | zero => omega
    | succ room =>
      have hbody : (p.decodeBody (p.decodeRecord room) name).Nests room :=
        nests_decode_congruence.decodeBody (p.decodeRecord room) _
          -- The record has been entered, and whatever fails in its body leaves it open.
          (nests_decode_congruence.decodeRecord (Nat.le_refl room)) name
      rw [hroom] at h
      have hopen := hbody.depth_lt_of_nested h
      omega

/-- **What calls leave behind in a cursor.** With every program, every value and every cursor:

* a call that succeeds leaves the depth as it was, and one that fails leaves it raised by the number
  of records inside which it stops, be that none or all for which there is room;
* what comes of a value depends on the value, on the bytes that are left and on the depth, and on
  the depth only in that the value may be refused for it;
* whatever calls are made on one cursor, what they leave behind adds up, and is nothing if none of
  them fails;
* with a program of a record, every failure leaves a record open, until there is no room left; from
  then on every value is refused. -/
theorem depth_left_behind (p : Program) :
    (∀ v w, p.DepthOfWriting v w) ∧ (∀ r, p.DepthOfReading r) ∧
    (∀ vs w, DepthOfCalls Writer.depth p.OfRecord (List.map p.encode vs) w) ∧
    ∀ n r, DepthOfCalls Reader.depth p.OfRecord (List.replicate n p.decode) r := by
  refine ⟨p.depthOfWriting, p.depthOfReading, ?_, ?_⟩
  -- Both sequences are made of calls that behave as one call does.
  · intro vs w
    refine depthOfCalls (fun call hcall => ?_) w
    obtain ⟨v, -, rfl⟩ := List.mem_map.1 hcall
    exact p.depthOfCall_encode v
  · intro n r
    refine depthOfCalls (fun call hcall => ?_) r
    rw [List.eq_of_mem_replicate hcall]
    exact p.depthOfCall_decode

/-- A record that lacks its field leaves itself open. Once 256 of them have been refused, so is a
record that lacks nothing, which the same writer would have taken with none of them open. A reader
comes to this with a single value, if it stops inside 256 records. -/
theorem depth_left_behind_by_records :
    let p := ofLayout (.record "N" [⟨"next", 0, .nullable (.reference "N")⟩]) 0
      Level.level3.format .u8
    let empty := Value.record "N" []
    let last := Value.record "N" [("next", .null)]
    let w : Writer := ⟨#[255, 255], 0, #[], p.format, 0, by decide⟩
    let w' := cursorAfterAll (List.replicate 256 (p.encode empty)) w
    let r : Reader := ⟨List.replicate 255 1 ++ [2, 0], 0, 257, p.format, 0, by decide +kernel⟩
    let r' := cursorAfter p.decode r
    ((cursorAfter (p.encode empty) w).depth = w.depth + 1 ∧ w'.depth = 256 ∧
      p.encode last w' = .error (.depthExceeded maxDepth) w' ∧ w'.position = w.position ∧
      failures [p.encode last] w = 0) ∧
    r'.depth = r.depth + 256 ∧ p.decode r' = .error (.depthExceeded maxDepth) r' ∧
      failures [p.decode] (r'.atDepth r.depth) = 0 := by
  intro p empty last w w' r r'
  have hw : w'.depth = 256 := by decide +kernel
  have hr : r'.depth = r.depth + 256 := by decide +kernel
  have hposition : w'.position = w.position := by decide +kernel
  have hread : failures [p.decode] (r'.atDepth r.depth) = 0 := by decide +kernel
  -- At the limit every record is refused, whatever it is.
  have hfull : maxDepth ≤ w'.depth := hw.ge
  have hfull' : maxDepth ≤ r'.depth := by
    rw [hr]
    exact Nat.le_add_left maxDepth r.depth
  have hlast := (p.depthOfWriting last w').full ⟨"N", rfl⟩ hfull
  have hdecode := (p.depthOfReading r').full ⟨"N", rfl⟩ hfull'
  exact ⟨⟨by decide +kernel, hw, hlast, hposition, by decide +kernel⟩, hr, hdecode, hread⟩

end Program

end SchemaWire
