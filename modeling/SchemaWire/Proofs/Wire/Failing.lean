import SchemaWire.Proofs.Wire.Reading
import SchemaWire.Proofs.Wire.Script
/-!
# Scripts and decoders that break off

Two ways to say that something is done up to a point and then fails, one for each direction.

* `Script.Follows fits e full cut` — `cut` is the script `full`, should it fit; otherwise it begins
  like `full` and fails with `e` before its end. What it is that has to fit is left open.
* `Decoder.Fails d format bytes e` — wherever `bytes` lie ahead, `d` fails with `e`, whatever
  follows them.

Both are put together piece by piece: of several pieces in a row, those before the first that does
not fit are done, and those behind it do not matter (`Script.Follows.flatMap`,
`Decoder.Fails.repeatInto`).
-/

namespace SchemaWire

/-! ### Scripts -/

namespace Script

variable {e : EncodeError} {full cut full' cut' : Script} {p q : Prop}

/-- A script begins like another one and then fails. -/
def BreaksOff (e : EncodeError) (full cut : Script) : Prop :=
  ∃ done rest more, full = done ++ more ∧ cut = done ++ .fail e :: rest

/-- **A script follows another one** as far as it fits. -/
def Follows (fits : Prop) (e : EncodeError) (full cut : Script) : Prop :=
  (fits → cut = full) ∧ (¬fits → BreaksOff e full cut)

theorem BreaksOff.append_right (h : BreaksOff e full cut) (s s' : Script) :
    BreaksOff e (full ++ s) (cut ++ s') := by
  obtain ⟨done, rest, more, rfl, rfl⟩ := h
  exact ⟨done, rest ++ s', more ++ s, List.append_assoc _ _ _, by simp⟩

theorem BreaksOff.append_left (h : BreaksOff e full cut) (s : Script) :
    BreaksOff e (s ++ full) (s ++ cut) := by
  obtain ⟨done, rest, more, rfl, rfl⟩ := h
  exact ⟨s ++ done, rest, more, (List.append_assoc _ _ _).symm, (List.append_assoc _ _ _).symm⟩

theorem Follows.refl (h : p) (script : Script) : Follows p e script script :=
  ⟨fun _ => rfl, fun hn => absurd h hn⟩

theorem Follows.fail (h : ¬p) (full : Script) : Follows p e full [.fail e] :=
  ⟨fun hp => absurd hp h, fun _ => ⟨[], [], full, rfl, rfl⟩⟩

theorem Follows.congr (hpq : p ↔ q) (h : Follows p e full cut) : Follows q e full cut :=
  ⟨fun hq => h.1 (hpq.2 hq), fun hq => h.2 fun hp => hq (hpq.1 hp)⟩

/-- Of two pieces the second one matters only if the first one fits. -/
theorem Follows.append (h : Follows p e full cut) (h' : Follows q e full' cut') :
    Follows (p ∧ q) e (full ++ full') (cut ++ cut') := by
  refine ⟨fun hpq => by rw [h.1 hpq.1, h'.1 hpq.2], fun hpq => ?_⟩
  by_cases hp : p
  -- Where the first piece fits it is done completely, and the second one breaks off.
  · rw [h.1 hp]
    exact (h'.2 fun hq => hpq ⟨hp, hq⟩).append_left full
  · exact (h.2 hp).append_right full' cut'

theorem Follows.cons (step : Step) (h : Follows p e full cut) :
    Follows p e (step :: full) (step :: cut) :=
  ((Follows.refl trivial [step]).append h).congr (iff_of_eq (true_and p))

theorem Follows.flatMap {α : Type} {fits : α → Prop} {f g : α → Script} {xs : List α}
    (h : ∀ x ∈ xs, Follows (fits x) e (f x) (g x)) :
    Follows (∀ x ∈ xs, fits x) e (xs.flatMap f) (xs.flatMap g) := by
  induction xs with
  | nil => exact Follows.refl (List.forall_mem_nil _) []
  | cons x xs ih =>
    obtain ⟨hx, hxs⟩ := List.forall_mem_cons.1 h
    rw [List.flatMap_cons, List.flatMap_cons]
    exact (hx.append (ih hxs)).congr List.forall_mem_cons.symm

/-- A writer that could perform a whole script performs its beginning, and then fails. -/
theorem BreaksOff.run_eq_error {w : Writer} (h : BreaksOff e full cut) (hvalid : full.Valid)
    (hroom : w.position + (full.bytes w.format).length ≤ w.buffer.size) :
    ∃ w', run cut w = .error e w' := by
  obtain ⟨done, rest, more, rfl, rfl⟩ := h
  -- What comes before the break has room, as it is a part of the whole.
  have hdone : w.position + (done.bytes w.format).length ≤ w.buffer.size := by
    rw [bytes_append, List.length_append] at hroom
    omega
  obtain ⟨w', hw'⟩ := run_eq_ok_iff.2 ⟨(valid_append.1 hvalid).1, hdone⟩
  refine ⟨w', ?_⟩
  rw [run_append, hw']
  rfl

end Script

/-! ### Decoders -/

namespace Decoder

variable {α β : Type} {format : WireFormat} {bytes more : List UInt8} {e : DecodeError}

/-- **Failure on given bytes.** Wherever the given bytes lie ahead of a reader of the given format,
the decoder fails. -/
def Fails (d : Decoder α) (format : WireFormat) (bytes : List UInt8) (e : DecodeError) : Prop :=
  ∀ r : Reader, r.format = format → bytes <+: r.ahead → ∃ r', d r = .error e r'

theorem Fails.throw (bytes : List UInt8) (e : DecodeError) :
    Fails (MonadExcept.throw e : Decoder α) format bytes e :=
  fun r _ _ => ⟨r, rfl⟩

theorem Fails.append {d : Decoder α} (hd : Fails d format bytes e) (more : List UInt8) :
    Fails d format (bytes ++ more) e :=
  fun r hr h => hd r hr ((List.prefix_append _ _).trans h)

theorem Fails.bind {d : Decoder α} (hd : Fails d format bytes e) (f : α → Decoder β) :
    Fails (d >>= f) format bytes e := by
  intro r hr h
  obtain ⟨r', hr'⟩ := hd r hr h
  exact ⟨r', by rw [bind_apply, hr']⟩

/-- A second step may fail on what a first one has left. -/
theorem Reads.bind_fails {d : Decoder α} {f : α → Decoder β} {x : α} (hd : Reads d format bytes x)
    (hf : Fails (f x) format more e) : Fails (d >>= f) format (bytes ++ more) e := by
  intro r hr h
  obtain ⟨r', hr'⟩ := hf (r.advance bytes.length) hr (drop_prefix_of_append h)
  refine ⟨r', ?_⟩
  rw [bind_apply, hd r hr ((List.prefix_append _ _).trans h)]
  exact hr'

/-- The first member that is not read stops the reading of all. -/
theorem Fails.repeatInto {d : Decoder α} {fits : β → Prop} {bytesOf : β → List UInt8}
    {valueOf : β → α} {xs : List β}
    (hreads : ∀ x ∈ xs, fits x → Reads d format (bytesOf x) (valueOf x))
    (hfails : ∀ x ∈ xs, ¬fits x → Fails d format (bytesOf x) e) (h : ¬∀ x ∈ xs, fits x)
    (done : List α) : Fails (d.repeatInto xs.length done) format (xs.flatMap bytesOf) e := by
  induction xs generalizing done with
  | nil => exact absurd (List.forall_mem_nil _) h
  | cons x xs ih =>
    obtain ⟨hreadsx, hreads⟩ := List.forall_mem_cons.1 hreads
    obtain ⟨hfailsx, hfails⟩ := List.forall_mem_cons.1 hfails
    -- What does not fit is this member, or else one behind it.
    by_cases hx : fits x
    · have hxs : ¬∀ y ∈ xs, fits y := fun hall => h (List.forall_mem_cons.2 ⟨hx, hall⟩)
      exact (hreadsx hx).bind_fails (ih hreads hfails hxs _)
    · exact ((hfailsx hx).bind _).append _

theorem Fails.nested {d : Decoder α} (hd : Fails d format bytes e) :
    Fails (do Reader.descend; let x ← d; Reader.ascend; return x) format bytes e := by
  intro r hr h
  obtain ⟨r', hr'⟩ := hd { r with depth := r.depth + 1 } hr h
  exact ⟨r', by rw [nested_apply, hr']⟩

end Decoder

end SchemaWire
