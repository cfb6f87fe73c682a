import SchemaWire.Proofs.Wire.Failing
import SchemaWire.Proofs.Wire.Growing
import SchemaWire.Proofs.Wire.LeftOpen
/-!
# Less room for records

With more records open around it, a cursor has less room for others. All that comes of it is that a
value may be refused for its depth; short of that everything goes as it would have gone elsewhere.

* `Script.CutShort e full cut` — the script `cut` for less room is the script `full`, or breaks off
  with the error `e`.
* `Writer.SameOutcome` — what has come of two runs is the same: the bytes that have been written,
  the records that have been left open and the error, whose position is counted from where the run
  began. A script comes to the same on all writers of one format that have equally many bytes left
  (`Script.sameOutcome`), so a script cut short does so too, unless it breaks off
  (`Script.CutShort.sameOutcome_or`).
* `Decoder.CutShort e full cut` — the decoder `cut` for less room, on a reader with more records
  open, reads what `full` reads, or fails with the error `e`.
-/

namespace SchemaWire

/-! ### Scripts -/

/-- The same error, where the positions are counted from two places. -/
def EncodeError.SameFrom (start start' : Nat) : EncodeError → EncodeError → Prop
  | .bufferOverflow position needed remaining, e' =>
    ∃ position', e' = .bufferOverflow position' needed remaining ∧
      position + start' = position' + start
  | e, e' => e' = e

theorem EncodeError.SameFrom.of_moved {e e' : EncodeError} {start start' moved moved' n : Nat}
    (h : e.SameFrom moved moved' e') (hmoved : moved = start + n) (hmoved' : moved' = start' + n) :
    e.SameFrom start start' e' := by
  cases e with
  | bufferOverflow position needed remaining =>
    obtain ⟨position', he, hposition⟩ := h
    exact ⟨position', he, by omega⟩
  | _ => exact h

namespace Writer

/-- Since two writers were at `w` and `v`, both have written the same bytes and left equally many
records open. -/
structure SameCourse (w v w' v' : Writer) : Prop where
  written : ∃ bytes, w'.written.toList = w.written.toList ++ bytes ∧
    v'.written.toList = v.written.toList ++ bytes
  depth : w'.depth + v.depth = v'.depth + w.depth

/-- **The same outcome** of two runs from `w` and from `v`. -/
inductive SameOutcome (w v : Writer) : EStateM.Result EncodeError Writer Unit →
    EStateM.Result EncodeError Writer Unit → Prop
  | ok {w' v' : Writer} (h : SameCourse w v w' v') : SameOutcome w v (.ok () w') (.ok () v')
  | error {e e' : EncodeError} {w' v' : Writer} (he : e.SameFrom w.position v.position e')
      (h : SameCourse w v w' v') : SameOutcome w v (.error e w') (.error e' v')

variable {w v w' v' : Writer} {step : Step} {e e' : EncodeError}

/-- Whether a step succeeds is a matter of the bytes that are left. -/
theorem exists_perform_congr (hformat : v.format = w.format)
    (hremaining : v.remaining = w.remaining) :
    (∃ w', perform step w = .ok () w') ↔ ∃ v', perform step v = .ok () v' := by
  have hw := w.position_add_remaining
  have hv := v.position_add_remaining
  rw [exists_perform_eq_ok_iff, exists_perform_eq_ok_iff, hformat]
  exact and_congr_right fun _ => by omega

/-- A step that fails does so for the same reason wherever equally many bytes are left. -/
theorem sameFrom_of_perform (hstep : ∀ e, step.fault? = some e → e.isOverflow = false)
    (hremaining : v.remaining = w.remaining) (hformat : v.format = w.format)
    (hw : perform step w = .error e w') (hv : perform step v = .error e' v') :
    e.SameFrom w.position v.position e' := by
  have hpush {bs : List UInt8} (hw : push bs w = .error e w') (hv : push bs v = .error e' v') :
      e.SameFrom w.position v.position e' := by
    obtain ⟨-, rfl, -⟩ := push_eq_error hw
    obtain ⟨-, rfl, -⟩ := push_eq_error hv
    exact ⟨v.position, by rw [hremaining], Nat.add_comm _ _⟩
  -- The bytes of a number are those of the format, which both writers have.
  cases step with
  | raw bs => exact hpush hw hv
  | varint u => exact hpush hw hv
  | fixed width n =>
    simp only [perform, hformat] at hw hv
    exact hpush hw hv
  | length n =>
    simp only [perform, hformat] at hw hv
    split at hw
    · next hn =>
      rw [if_pos hn] at hv
      exact hpush hw hv
    · next hn =>
      rw [if_neg hn] at hv
      cases hw
      cases hv
      rfl
  | enter | leave => cases hw
  | fail e₀ =>
    cases hw
    cases hv
    cases e with
    -- An overflow tells a position of this writer, so no step may make one up.
    | bufferOverflow _ _ _ => cases hstep _ rfl
    | _ => rfl

end Writer

namespace Script

variable {e : EncodeError} {script full cut full' cut' done more : Script} {w v w' v' : Writer}

/-- A run moves on by as many bytes as it writes. -/
theorem moves_of_run (h : run script w = .ok () w') :
    w'.format = w.format ∧ w'.position = w.position + (script.bytes w.format).length ∧
      w'.remaining + (script.bytes w.format).length = w.remaining := by
  -- No step changes the format.
  have hformat : w'.format = w.format := by
    induction script generalizing w with
    | nil =>
      cases h
      rfl
    | cons step script ih =>
      rw [run] at h
      split at h
      · next w₁ hstep => exact (ih h).trans (Writer.perform_eq_ok hstep).2.2.1
      · cases h
  -- The position follows from how much has been written, and the buffer is as long as before.
  obtain ⟨hbuffer, hoffset, hwritten⟩ := written_of_run_eq_ok h
  have hsize := congrArg List.length hwritten
  simp only [List.length_append, Array.length_toList] at hsize
  have hposition : w'.position = w.position + (script.bytes w.format).length := by
    calc w'.position = w.offset + w'.written.size := by rw [Writer.position, hoffset]
      _ = w.offset + (w.written.size + (script.bytes w.format).length) := by rw [hsize]
      _ = w.position + (script.bytes w.format).length := (Nat.add_assoc _ _ _).symm
  have hbefore := w.position_add_remaining
  have hafter := w'.position_add_remaining
  rw [hbuffer] at hafter
  exact ⟨hformat, hposition, by omega⟩

/-- Whether a script can be done to its end is a matter of the bytes that are left. -/
theorem run_congr (hformat : v.format = w.format) (hremaining : v.remaining = w.remaining) :
    (∃ w', run script w = .ok () w') ↔ ∃ v', run script v = .ok () v' := by
  have hw := w.position_add_remaining
  have hv := v.position_add_remaining
  rw [run_eq_ok_iff, run_eq_ok_iff, hformat]
  exact and_congr_right fun _ => by omega

/-- What has been done to its end has gone the same way on both writers. -/
theorem sameCourse_of_run (hopens : script.OpensFirst) (hformat : v.format = w.format)
    (hw : run script w = .ok () w') (hv : run script v = .ok () v') :
    Writer.SameCourse w v w' v' := by
  have hwritten := (written_of_run_eq_ok hv).2.2
  rw [hformat] at hwritten
  have hdepth := depth_of_run hopens hw
  have hdepth' := depth_of_run hopens hv
  exact ⟨⟨_, (written_of_run_eq_ok hw).2.2, hwritten⟩, by omega⟩

/-- **A script comes to the same** on writers with equally many bytes left. If one of them stops,
the other one comes to the same step, with equally many bytes left once more. -/
theorem sameOutcome (hopens : script.OpensFirst) (hnever : script.NeverOverflows)
    (hformat : v.format = w.format) (hremaining : v.remaining = w.remaining) :
    Writer.SameOutcome w v (run script w) (run script v) := by
  cases hw : run script w with
  | ok _ w' =>
    obtain ⟨v', hv⟩ := (run_congr hformat hremaining).1 ⟨w', hw⟩
    rw [hv]
    exact .ok (sameCourse_of_run hopens hformat hw hv)
  | error e w' =>
    obtain ⟨done, step, rest, rfl, hdone, hstep⟩ := exists_of_run_eq_error hw
    -- Up to the step that fails, the other writer has moved on by the same bytes.
    obtain ⟨v', hdone'⟩ := (run_congr hformat hremaining).1 ⟨w', hdone⟩
    obtain ⟨hformat₁, hposition₁, hremaining₁⟩ := moves_of_run hdone
    obtain ⟨hformat₂, hposition₂, hremaining₂⟩ := moves_of_run hdone'
    rw [hformat] at hformat₂ hposition₂ hremaining₂
    have hsame : v'.format = w'.format := hformat₂.trans hformat₁.symm
    have hleft : v'.remaining = w'.remaining := by omega
    cases hstep' : Writer.perform step v' with
    | ok _ v₁ =>
      -- It cannot go on where the first one could not.
      obtain ⟨w₁, hw₁⟩ := (Writer.exists_perform_congr hsame hleft).2 ⟨v₁, hstep'⟩
      cases hstep.symm.trans hw₁
    | error e' v₁ =>
      obtain rfl := Writer.perform_eq_error hstep'
      have hv : run (done ++ step :: rest) v = .error e' v₁ := by
        rw [run_append, hdone']
        change run (step :: rest) v₁ = _
        rw [run, hstep']
      have herror := Writer.sameFrom_of_perform (hnever step (by simp)) hleft hsame hstep hstep'
      rw [hv]
      refine .error (herror.of_moved hposition₁ hposition₂) ?_
      exact sameCourse_of_run (hopens.of_prefix (List.prefix_append _ _)) hformat hdone hdone'

/-! ### Scripts that are cut short -/

/-- **A script is cut short**: it does what another one does, if need be up to an error. -/
def CutShort (e : EncodeError) (full cut : Script) : Prop := cut = full ∨ BreaksOff e full cut

theorem CutShort.refl (script : Script) : CutShort e script script := .inl rfl

theorem CutShort.append (h : CutShort e full cut) (h' : CutShort e full' cut') :
    CutShort e (full ++ full') (cut ++ cut') := by
  rcases h with rfl | h
  · exact h'.imp (fun h' => by rw [h']) (·.append_left _)
  · exact .inr (h.append_right _ _)

theorem CutShort.nested (h : CutShort e full cut) :
    CutShort e (.enter :: (full ++ [.leave])) (.enter :: (cut ++ [.leave])) :=
  (CutShort.refl [.enter]).append (h.append (CutShort.refl [.leave]))

/-- **Less room makes no other difference** than that a script may break off. -/
theorem CutShort.sameOutcome_or (h : CutShort e full cut) (hopens : full.OpensFirst)
    (hnever : full.NeverOverflows) (hformat : v.format = w.format)
    (hremaining : v.remaining = w.remaining) :
    Writer.SameOutcome w v (run cut w) (run full v) ∨ ∃ w', run cut w = .error e w' := by
  rcases h with rfl | ⟨done, rest, more, rfl, rfl⟩
  · exact .inl (sameOutcome hopens hnever hformat hremaining)
  · have hsame := sameOutcome (hopens.of_prefix (List.prefix_append done more))
      (neverOverflows_append.1 hnever).1 hformat hremaining
    rw [run_append, run_append]
    -- Both stop in what they have in common, or else the shorter one breaks off behind it.
    cases hw : run done w with
    | ok _ w' => exact .inr ⟨w', rfl⟩
    | error e₁ w' =>
      rw [hw] at hsame
      cases hv : run done v with
      | ok _ v' =>
        rw [hv] at hsame
        cases hsame
      | error e₂ v' =>
        rw [hv] at hsame
        exact .inl hsame

end Script

/-! ### Decoders -/

namespace Decoder

variable {α β : Type} {e : DecodeError} {full cut : Decoder α} {f g : α → Decoder β} {k : Nat}

/-- What comes of a decoder if more records are open around it. -/
def raised (k : Nat) : EStateM.Result DecodeError Reader α → EStateM.Result DecodeError Reader α
  | .ok x r => .ok x (r.atDepth (r.depth + k))
  | .error e r => .error e (r.atDepth (r.depth + k))

/-- **A decoder is cut short**: with more records open around it, it reads what another one reads,
or fails. -/
structure CutShort (e : DecodeError) (full cut : Decoder α) : Prop where
  closes : full.Closes
  raised_or : ∀ r k, cut (r.atDepth (r.depth + k)) = raised k (full r) ∨
    ∃ r', cut (r.atDepth (r.depth + k)) = .error e r'

theorem CutShort.of_flat {d : Decoder α} (hd : d.Flat) : CutShort e d d where
  closes := hd.closes
  raised_or r k := by
    -- A flat reader keeps its depth, so it does the same at any.
    refine .inl ?_
    rw [hd]
    cases h : d r with
    | ok x r' =>
      change EStateM.Result.ok x _ = EStateM.Result.ok x _
      rw [hd.depth_of_eq_ok h]
    | error e' r' =>
      change EStateM.Result.error e' _ = EStateM.Result.error e' _
      rw [hd.depth_of_eq_error h]

theorem CutShort.throw (h : full.Closes) : CutShort e full (MonadExcept.throw e) :=
  ⟨h, fun r k => .inr ⟨r.atDepth (r.depth + k), rfl⟩⟩

theorem CutShort.bind (h : CutShort e full cut) (hf : ∀ x, CutShort e (f x) (g x)) :
    CutShort e (full >>= f) (cut >>= g) where
  closes := h.closes.bind fun x => (hf x).closes
  raised_or r k := by
    rw [bind_apply, bind_apply]
    -- Refused in the first part, or the same answer there, and then the second part decides.
    rcases h.raised_or r k with h | ⟨r', h⟩
    · rw [h]
      cases full r with
      | ok x r₁ => exact (hf x).raised_or r₁ k
      | error e₁ r₁ => exact .inl rfl
    · exact .inr ⟨r', by rw [h]⟩

/-- A record that is closed again is as deep as it was, whatever is open around it. -/
theorem CutShort.nested (h : CutShort e full cut) :
    CutShort e (do Reader.descend; let x ← full; Reader.ascend; return x)
      (do Reader.descend; let x ← cut; Reader.ascend; return x) where
  closes := h.closes.nested
  raised_or r k := by
    rw [nested_apply, nested_apply]
    -- It is the same whether the records around or the record itself is opened first.
    have hinside : ({ r.atDepth (r.depth + k) with
        depth := (r.atDepth (r.depth + k)).depth + 1 } : Reader) =
        (r.atDepth (r.depth + 1)).atDepth ((r.atDepth (r.depth + 1)).depth + k) := by
      change r.atDepth (r.depth + k + 1) = r.atDepth (r.depth + 1 + k)
      rw [Nat.add_right_comm]
    rw [hinside]
    change _ = raised k (match full (r.atDepth (r.depth + 1)) with
      | .ok x r => .ok x { r with depth := r.depth - 1 }
      | .error e r => .error e r) ∨ _
    rcases h.raised_or (r.atDepth (r.depth + 1)) k with h' | ⟨r', h'⟩
    · rw [h']
      cases hfull : full (r.atDepth (r.depth + 1)) with
      | ok x r₁ =>
        -- Inside, the depth has come back to where it was, so what is closed is this record.
        have hdepth := h.closes _ x r₁ hfull
        refine .inl ?_
        change EStateM.Result.ok x (r₁.atDepth (r₁.depth + k - 1)) =
          EStateM.Result.ok x (r₁.atDepth (r₁.depth - 1 + k))
        rw [hdepth, Reader.atDepth_depth, Nat.add_sub_cancel, Nat.add_right_comm,
          Nat.add_sub_cancel]
      | error e₁ r₁ => exact .inl rfl
    · exact .inr ⟨r', by rw [h']⟩

end Decoder

end SchemaWire
