import SchemaWire.Proofs.Wire.Reading
import SchemaWire.Serializer
/-!
# Alike but for names

Errors tell names: of records and their fields, of groups, of the types that were expected and
found. Without them an error is **anonymous** (`EncodeError.anonymous`, `DecodeError.anonymous`),
and what is left is all that writing and reading go by.

* Scripts that are equal but for the names in their errors write the same bytes and stop at the same
  place, for the same reason: a script can be made anonymous before it is performed or afterwards
  (`Script.run_anonymous`, `Script.writeInto_anonymous`, `Script.writeGrowing_anonymous`).
* `Decoder.InStep d' g d` — from every reader, `d'` reads the image under `g` of what `d` reads and
  stops where `d` stops, or both fail, alike but for names. Unlike `Decoder.Simulates` this speaks
  of failures as well. It composes along `>>=`, along the reading of members, and into records.
-/

namespace SchemaWire

/-! ### Errors -/

/-- An error without the names in it. -/
def EncodeError.anonymous : EncodeError → EncodeError
  | .nullValue _ => .nullValue ""
  | .typeMismatch _ _ => .typeMismatch "" ""
  | .missingField _ _ => .missingField "" ""
  | .unregisteredSubtype _ _ => .unregisteredSubtype "" ""
  | .unknownField _ _ => .unknownField "" ""
  | e => e

/-- An error without the names in it. -/
def DecodeError.anonymous : DecodeError → DecodeError
  | .unknownTag _ tag => .unknownTag "" tag
  | .typeMismatch _ _ => .typeMismatch "" ""
  | .missingField _ _ => .missingField "" ""
  | e => e

/-! ### Scripts -/

/-- A step without the names in its error. -/
def Step.anonymous : Step → Step
  | .fail e => .fail e.anonymous
  | step => step

/-- A result of writing without the names in its error. -/
def Writer.anonymous :
    EStateM.Result EncodeError Writer Unit → EStateM.Result EncodeError Writer Unit
  | .ok u w => .ok u w
  | .error e w => .error e.anonymous w

namespace Script

/-- A script without the names in its errors. -/
def anonymous (script : Script) : Script := script.map Step.anonymous

variable {script script' : Script} {format : WireFormat}

@[simp] theorem anonymous_nil : anonymous [] = [] := rfl

@[simp] theorem anonymous_cons (step : Step) :
    anonymous (step :: script) = step.anonymous :: anonymous script := rfl

@[simp] theorem anonymous_append :
    anonymous (script ++ script') = anonymous script ++ anonymous script' := List.map_append

theorem anonymous_flatMap {α : Type} (xs : List α) (f : α → Script) :
    anonymous (xs.flatMap f) = xs.flatMap fun x => anonymous (f x) := List.map_flatMap

theorem perform_anonymous (step : Step) (w : Writer) :
    Writer.perform step.anonymous w = Writer.anonymous (Writer.perform step w) := by
  -- No step tells a name unless it fails by itself.
  have hpush (bs : List UInt8) : Writer.push bs w = Writer.anonymous (Writer.push bs w) := by
    unfold Writer.push
    split <;> rfl
  cases step with
  | raw bs => exact hpush bs
  | varint u => exact hpush _
  | fixed width n => exact hpush _
  | length n =>
    simp only [Step.anonymous, Writer.perform]
    split
    · exact hpush _
    · rfl
  | enter | leave | fail e => rfl

/-- **Names decide nothing about a run.** -/
theorem run_anonymous (script : Script) (w : Writer) :
    run (anonymous script) w = Writer.anonymous (run script w) := by
  induction script generalizing w with
  | nil => rfl
  | cons step script ih =>
    rw [anonymous_cons, run, run, perform_anonymous]
    -- A step that fails ends both scripts, with the same error up to names.
    cases Writer.perform step w with
    | ok u w' => exact ih w'
    | error e w' => rfl

/-- The outcome of writing is the same but for names, and the bytes are the same. -/
theorem writeInto_anonymous (script : Script) (buffer : Array UInt8) (offset : Nat)
    (format : WireFormat) :
    (anonymous script).writeInto buffer offset format =
      (script.writeInto buffer offset format).map (Except.mapError EncodeError.anonymous) id := by
  unfold writeInto Writer.start
  by_cases hoffset : offset ≤ buffer.size
  · -- The outcome of the run is all that counts, and that is the same up to names.
    rw [dif_pos hoffset]
    simp only [run_anonymous]
    cases run script _ <;> rfl
  · rw [dif_neg hoffset]
    rfl

theorem size_anonymous (script : Script) : (anonymous script).size format = script.size format := by
  have hbytes (step : Step) : step.anonymous.bytes format = step.bytes format := by
    cases step <;> rfl
  unfold size anonymous
  simp only [List.flatMap_map, hbytes]

theorem writeGrowing_anonymous (script : Script) (format : WireFormat) (size : Nat) :
    (anonymous script).writeGrowing format size =
      (script.writeGrowing format size).mapError EncodeError.anonymous := by
  -- The turns of the loop are the same: the buffers are, and what is lacking is told without names.
  fun_induction writeGrowing script format size with
  | case1 size position buffer hwrite =>
    rw [writeGrowing, writeInto_anonymous, hwrite]
    rfl
  | case2 size offset needed remaining buffer hwrite hgrow ih =>
    rw [writeGrowing, writeInto_anonymous, hwrite]
    change (if 0 < size ∧ size < (anonymous script).size format then _ else _) = _
    rw [size_anonymous, if_pos hgrow, ih]
  | case3 size offset needed remaining buffer hwrite hgrow =>
    rw [writeGrowing, writeInto_anonymous, hwrite]
    change (if 0 < size ∧ size < (anonymous script).size format then _ else _) = _
    rw [size_anonymous, if_neg hgrow]
    rfl
  | case4 size e buffer hother hwrite =>
    rw [writeGrowing, writeInto_anonymous, hwrite]
    cases e with
    | bufferOverflow offset needed remaining => exact absurd rfl (hother offset needed remaining)
    | _ => rfl

end Script

/-! ### Decoders -/

namespace Decoder

variable {α β γ δ : Type}

/-- **Two decoders in step.** The second one reads the image of what the first one reads, from the
same bytes; or both fail at the same place, with the same error but for names. -/
def InStep (d' : Decoder β) (g : α → β) (d : Decoder α) : Prop :=
  ∀ r, match d r with
    | .ok x r₁ => d' r = .ok (g x) r₁
    | .error e r₁ => ∃ e', d' r = .error e' r₁ ∧ e'.anonymous = e.anonymous

theorem InStep.refl (d : Decoder α) : InStep d id d := by
  intro r
  cases d r with
  | ok x r₁ => rfl
  | error e r₁ => exact ⟨e, rfl, rfl⟩

theorem InStep.pure {g : α → β} {x : α} {y : β} (h : g x = y) :
    InStep (Pure.pure y) g (Pure.pure x) := by
  intro r
  rw [← h]
  rfl

theorem InStep.throw {g : α → β} {e e' : DecodeError} (h : e'.anonymous = e.anonymous) :
    InStep (MonadExcept.throw e') g (MonadExcept.throw e) :=
  fun _ => ⟨e', rfl, h⟩

theorem InStep.bind {d : Decoder α} {d' : Decoder β} {f : α → Decoder γ} {f' : β → Decoder δ}
    {g : α → β} {h : γ → δ} (hd : InStep d' g d) (hf : ∀ x, InStep (f' (g x)) h (f x)) :
    InStep (d' >>= f') h (d >>= f) := by
  intro r
  have hfirst := hd r
  rw [bind_apply, bind_apply]
  -- Both fail or both go on, and then from the same reader.
  cases hx : d r with
  | ok x r₁ =>
    rw [hx] at hfirst
    rw [show d' r = .ok (g x) r₁ from hfirst]
    exact hf x r₁
  | error e r₁ =>
    rw [hx] at hfirst
    obtain ⟨e', he', hnames⟩ := hfirst
    rw [he']
    exact ⟨e', rfl, hnames⟩

/-- Two decoders may begin with the same step. -/
theorem InStep.bind_same (d : Decoder α) {f : α → Decoder γ} {f' : α → Decoder δ} {h : γ → δ}
    (hf : ∀ x, InStep (f' x) h (f x)) : InStep (d >>= f') h (d >>= f) :=
  (InStep.refl d).bind hf

/-- Both decoders read their members in step. -/
theorem InStep.repeatInto {d : Decoder α} {d' : Decoder β} {g : α → β} (hd : InStep d' g d)
    (n : Nat) (done : List α) :
    InStep (d'.repeatInto n (done.map g)) (List.map g) (d.repeatInto n done) := by
  induction n generalizing done with
  | zero =>
    rw [Decoder.repeatInto, Decoder.repeatInto]
    exact InStep.pure List.map_reverse
  | succ n ih => exact hd.bind fun x => ih (x :: done)

theorem InStep.replicate {d : Decoder α} {d' : Decoder β} {g : α → β} (hd : InStep d' g d)
    (n : Nat) : InStep (Decoder.replicate n d') (List.map g) (Decoder.replicate n d) :=
  hd.repeatInto n []

theorem InStep.nested {d : Decoder α} {d' : Decoder β} {g : α → β} (hd : InStep d' g d) :
    InStep (do Reader.descend; let x ← d'; Reader.ascend; return x) g
      (do Reader.descend; let x ← d; Reader.ascend; return x) := by
  refine InStep.bind_same Reader.descend fun _ => hd.bind fun x => ?_
  exact InStep.bind_same Reader.ascend fun _ => InStep.pure rfl

end Decoder

end SchemaWire
