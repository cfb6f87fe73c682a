import SchemaWire.Proofs.Wire.Reading
import SchemaWire.Proofs.Wire.Script
/-!
# Counting the records that are open

Whether one more record may be opened can be decided in two ways: by the number that a cursor keeps
of the records that are open around it, which has to be raised and lowered on the way, or by the
room that was left when a value was begun, which is handed down from record to record.

The judgements below say that both come to the same. They compare something that goes by the cursor
with something that goes by the room, on cursors that have just this room left, and they say as well
that a success leaves the number of open records as it was; without that, records that stand side by
side would add up.

* `Script.Counts room s t` — on a writer that lets no record be opened below the deepest level
  (`Script.runCounting`), `s` does what `t` does without such a check.
* `Decoder.Counts d format room d'` — `d` reads as `d'` does.
-/

namespace SchemaWire

/-- Performs a step, where a record is opened only if records may nest that deeply. -/
def Writer.performCounting : Step → Encoder
  | .enter => enter
  | step => perform step

/-- Performs the steps of a script in order, up to the first that fails, where a record is opened
only if records may nest that deeply. -/
def Script.runCounting : Script → Encoder
  | [], w => .ok () w
  | step :: steps, w =>
    match Writer.performCounting step w with
    | .ok () w => Script.runCounting steps w
    | .error e w => .error e w

/-- A step that stays inside the record where it is performed. -/
def Step.Stays : Step → Prop
  | .enter | .leave => False
  | .raw _ | .varint _ | .fixed _ _ | .length _ | .fail _ => True

theorem Writer.depth_eq_of_perform {w w' : Writer} {step : Step} (hstep : step.Stays)
    (h : perform step w = .ok () w') : w'.depth = w.depth := by
  -- All steps but `enter` and `leave` come down to pushing bytes.
  have hpush {bs : List UInt8} (h : push bs w = .ok () w') : w'.depth = w.depth := by
    unfold push at h
    split at h <;> cases h
    rfl
  cases step with
  | enter | leave => exact hstep.elim
  | fail e => cases h
  | raw bs => exact hpush h
  | varint u => exact hpush h
  | fixed width n => exact hpush h
  | length n =>
    simp only [perform] at h
    split at h
    · exact hpush h
    · cases h

theorem Writer.performCounting_of_stays {step : Step} (hstep : step.Stays) :
    performCounting step = perform step := by
  cases step with
  | enter => exact hstep.elim
  | _ => rfl

namespace Script

variable {room : Nat} {s t s' t' : Script} {step : Step}

theorem runCounting_append (s s' : Script) (w : Writer) :
    runCounting (s ++ s') w =
      match runCounting s w with
      | .ok () w => runCounting s' w
      | .error e w => .error e w := by
  induction s generalizing w with
  | nil => rfl
  | cons step steps ih =>
    simp only [List.cons_append, runCounting]
    cases Writer.performCounting step w with
    | ok _ w => exact ih w
    | error e w => rfl

/-- **Counting on a writer.** With the given room left, one script does under the check of the
writer what another one does without, and neither leaves a record open. -/
def Counts (room : Nat) (s t : Script) : Prop :=
  ∀ w : Writer, w.depth + room = maxDepth →
    runCounting s w = run t w ∧ ∀ w', run t w = .ok () w' → w'.depth = w.depth

theorem Counts.nil : Counts room [] [] := by
  intro w _
  refine ⟨rfl, fun w' h => ?_⟩
  cases h
  rfl

theorem Counts.append (h : Counts room s t) (h' : Counts room s' t') :
    Counts room (s ++ s') (t ++ t') := by
  intro w hw
  obtain ⟨hrun, hdepth⟩ := h w hw
  rw [runCounting_append, run_append, hrun]
  cases hw₁ : run t w with
  | ok _ w₁ =>
    -- The second script starts at the depth at which the first one did.
    have hw₁ := hdepth w₁ hw₁
    obtain ⟨hrun', hdepth'⟩ := h' w₁ (hw₁ ▸ hw)
    exact ⟨hrun', fun w' hw' => (hdepth' w' hw').trans hw₁⟩
  | error e w₁ =>
    refine ⟨rfl, fun w' hw' => ?_⟩
    cases hw'

theorem Counts.single (hstep : step.Stays) : Counts room [step] [step] := by
  intro w _
  refine ⟨?_, fun w' h => ?_⟩
  · -- The counting cursor differs in `enter` only.
    rw [runCounting, run, Writer.performCounting_of_stays hstep]
    cases Writer.perform step w <;> rfl
  · rw [run] at h
    cases hw' : Writer.perform step w with
    | ok _ w₁ =>
      rw [hw'] at h
      cases h
      exact Writer.depth_eq_of_perform hstep hw'
    | error e w₁ =>
      rw [hw'] at h
      cases h

/-- A record takes one level and gives it back. -/
theorem Counts.nested (h : Counts room s t) :
    Counts (room + 1) (.enter :: (s ++ [.leave])) (.enter :: (t ++ [.leave])) := by
  intro w hw
  -- There is room for one more record, so the check of the counting cursor passes.
  have hlt : w.depth < maxDepth := by omega
  have henter : Writer.performCounting .enter w = .ok () { w with depth := w.depth + 1 } :=
    if_pos hlt
  obtain ⟨hrun, hdepth⟩ := h { w with depth := w.depth + 1 } (by simp only; omega)
  change (match Writer.performCounting .enter w with
    | .ok () w => runCounting (s ++ [.leave]) w
    | .error e w => .error e w) = run (t ++ [.leave]) { w with depth := w.depth + 1 } ∧
    ∀ w', run (t ++ [.leave]) { w with depth := w.depth + 1 } = .ok () w' → w'.depth = w.depth
  rw [henter]
  simp only [runCounting_append, run_append, hrun]
  cases hw₁ : run t { w with depth := w.depth + 1 } with
  | ok _ w₁ =>
    refine ⟨rfl, fun w' hw' => ?_⟩
    cases hw'
    -- What is inside comes back to the depth it was entered at.
    change w₁.depth - 1 = w.depth
    rw [hdepth w₁ hw₁, Nat.add_sub_cancel]
  | error e w₁ =>
    refine ⟨rfl, fun w' hw' => ?_⟩
    cases hw'

/-- At the deepest level no record is opened. -/
theorem counts_zero (s : Script) : Counts 0 (.enter :: s) [.fail (.depthExceeded maxDepth)] := by
  intro w hw
  have hnot : ¬w.depth < maxDepth := by omega
  have henter : Writer.performCounting .enter w = .error (.depthExceeded maxDepth) w := if_neg hnot
  -- No room is left, which the counting cursor sees by its own depth.
  refine ⟨?_, fun w' h => ?_⟩
  · rw [runCounting, henter]
    rfl
  · cases h

end Script

namespace Decoder

variable {α β : Type} {format : WireFormat} {room : Nat}

/-- **Counting on a reader.** With the given room left, one decoder reads what another one reads,
and neither leaves a record open. -/
def Counts (d : Decoder α) (format : WireFormat) (room : Nat) (d' : Decoder α) : Prop :=
  ∀ r : Reader, r.format = format → r.depth + room = maxDepth →
    d r = d' r ∧ ∀ x r', d' r = .ok x r' → r'.format = format ∧ r'.depth = r.depth

/-- Whatever only consumes bytes opens no record. -/
theorem Counts.of_yields {d : Decoder α} {P : α → List UInt8 → Prop} (hd : Yields d format P) :
    Counts d format room d := by
  intro r hr _
  refine ⟨rfl, fun x r' h => ?_⟩
  obtain ⟨bytes, -, rfl, -⟩ := hd r x r' hr h
  exact ⟨hr, rfl⟩

theorem Counts.pure (x : α) : Counts (Pure.pure x) format room (Pure.pure x) := by
  intro r hr _
  refine ⟨rfl, fun y r' h => ?_⟩
  cases h
  exact ⟨hr, rfl⟩

theorem Counts.throw (e : DecodeError) :
    Counts (MonadExcept.throw e : Decoder α) format room (MonadExcept.throw e) := by
  intro r hr _
  refine ⟨rfl, fun y r' h => ?_⟩
  cases h

theorem Counts.bind {d d' : Decoder α} {f f' : α → Decoder β} (hd : Counts d format room d')
    (hf : ∀ x, Counts (f x) format room (f' x)) :
    Counts (d >>= f) format room (d' >>= f') := by
  intro r hr hroom
  obtain ⟨hrun, hafter⟩ := hd r hr hroom
  -- The first part leaves the depth as it was, so the room for the second part is the same.
  rw [bind_apply, bind_apply, hrun]
  cases hx : d' r with
  | ok x r₁ =>
    obtain ⟨hr₁, hdepth⟩ := hafter x r₁ hx
    obtain ⟨hrun', hafter'⟩ := hf x r₁ hr₁ (hdepth ▸ hroom)
    refine ⟨hrun', fun y r' hy => ?_⟩
    obtain ⟨hr', hdepth'⟩ := hafter' y r' hy
    exact ⟨hr', hdepth'.trans hdepth⟩
  | error e r₁ =>
    refine ⟨rfl, fun y r' hy => ?_⟩
    cases hy

theorem Counts.repeatInto {d d' : Decoder α} (hd : Counts d format room d') (n : Nat)
    (done : List α) : Counts (d.repeatInto n done) format room (d'.repeatInto n done) := by
  induction n generalizing done with
  | zero => exact Counts.pure done.reverse
  | succ n ih => exact hd.bind fun x => ih (x :: done)

/-- A record takes one level and gives it back. -/
theorem Counts.nested {d d' : Decoder α} (hd : Counts d format room d') :
    Counts (do Reader.enter; let x ← d; Reader.ascend; return x) format (room + 1)
      (do Reader.descend; let x ← d'; Reader.ascend; return x) := by
  intro r hr hroom
  -- As in writing: with room for one more record, the check passes.
  have hlt : r.depth < maxDepth := by omega
  have henter : Reader.enter r = .ok () { r with depth := r.depth + 1 } := by
    change (if r.depth < maxDepth then Reader.descend else _ : Decoder Unit) r = _
    rw [if_pos hlt]
    rfl
  obtain ⟨hrun, hafter⟩ := hd { r with depth := r.depth + 1 } hr (by simp only; omega)
  have hopen : (do Reader.enter; let x ← d; Reader.ascend; return x : Decoder α) r =
      (do Reader.descend; let x ← d; Reader.ascend; return x : Decoder α) r := by
    rw [bind_apply, henter]
    rfl
  refine ⟨by rw [hopen, nested_apply, nested_apply, hrun], fun x r' hx => ?_⟩
  obtain ⟨r₁, hinside, rfl⟩ := nested_eq_ok_iff.1 hx
  obtain ⟨hr₁, hdepth⟩ := hafter x r₁ hinside
  refine ⟨hr₁, ?_⟩
  change r₁.depth - 1 = r.depth
  rw [hdepth, Nat.add_sub_cancel]

/-- At the deepest level no record is opened. -/
theorem counts_zero (f : Unit → Decoder α) :
    Counts (Reader.enter >>= f) format 0 (MonadExcept.throw (.depthExceeded maxDepth)) := by
  intro r _ hroom
  -- No room is left, so the check refuses the record.
  have hnot : ¬r.depth < maxDepth := by omega
  have henter : Reader.enter r = .error (.depthExceeded maxDepth) r := by
    change (if r.depth < maxDepth then Reader.descend else _ : Decoder Unit) r = _
    rw [if_neg hnot]
    rfl
  refine ⟨?_, fun x r' h => ?_⟩
  · rw [bind_apply, henter]
    rfl
  · cases h

end Decoder

end SchemaWire
