import SchemaWire.Proofs.Wire.Reading
/-!
# Reading to the same end

Two decoders may read different values from the same bytes. `Decoder.EndsAlike d d'` says that this
is all that differs: from every reader both stop at the same place, with success or with the same
error. Unlike `Decoder.InStep` this asks nothing of the values, so what follows in the two decoders
has to end alike whatever has been read (`Decoder.EndsAlike.bind`). It composes along the reading
of members and into records.
-/

namespace SchemaWire

/-- **The same end** of two runs: success or the same error, with the reader at the same place. -/
inductive Reader.SameEnd {α β : Type} :
    EStateM.Result DecodeError Reader α → EStateM.Result DecodeError Reader β → Prop
  | ok {x : α} {y : β} {r : Reader} : SameEnd (.ok x r) (.ok y r)
  | error {e : DecodeError} {r : Reader} : SameEnd (.error e r) (.error e r)

namespace Decoder

variable {α β γ δ : Type}

/-- **Two decoders that end alike** from every reader. -/
def EndsAlike (d : Decoder α) (d' : Decoder β) : Prop := ∀ r, Reader.SameEnd (d r) (d' r)

namespace EndsAlike

theorem refl (d : Decoder α) : EndsAlike d d := by
  intro r
  cases d r with
  | ok x r' => exact .ok
  | error e r' => exact .error

theorem pure (x : α) (y : β) : EndsAlike (Pure.pure x : Decoder α) (Pure.pure y : Decoder β) :=
  fun _ => .ok

theorem throw (e : DecodeError) :
    EndsAlike (MonadExcept.throw e : Decoder α) (MonadExcept.throw e : Decoder β) :=
  fun _ => .error

theorem bind {d : Decoder α} {d' : Decoder β} {f : α → Decoder γ} {f' : β → Decoder δ}
    (h : EndsAlike d d') (hf : ∀ x y, EndsAlike (f x) (f' y)) :
    EndsAlike (d >>= f) (d' >>= f') := by
  intro r
  have hfirst := h r
  rw [bind_apply, bind_apply]
  generalize d r = first at hfirst ⊢
  generalize d' r = first' at hfirst ⊢
  cases hfirst with
  -- Success goes with success, at the same reader, and failure with failure.
  | ok => exact hf _ _ _
  | error => exact .error

/-- Where two decoders begin with the same step, the same has been read. -/
theorem bind_same (d : Decoder α) {f : α → Decoder γ} {f' : α → Decoder δ}
    (hf : ∀ x, EndsAlike (f x) (f' x)) : EndsAlike (d >>= f) (d >>= f') := by
  intro r
  rw [bind_apply, bind_apply]
  cases d r with
  | ok x r' => exact hf x r'
  | error e r' => exact .error

theorem repeatInto {d : Decoder α} {d' : Decoder β} (h : EndsAlike d d') (n : Nat)
    (done : List α) (done' : List β) : EndsAlike (d.repeatInto n done) (d'.repeatInto n done') := by
  induction n generalizing done done' with
  | zero => exact pure _ _
  | succ n ih => exact h.bind fun x y => ih (x :: done) (y :: done')

/-- As many members are read to the same end. -/
theorem replicate {d : Decoder α} {d' : Decoder β} (h : EndsAlike d d') (n : Nat) :
    EndsAlike (Decoder.replicate n d) (Decoder.replicate n d') :=
  h.repeatInto n [] []

theorem nested {d : Decoder α} {d' : Decoder β} (h : EndsAlike d d') :
    EndsAlike (do Reader.descend; let x ← d; Reader.ascend; return x)
      (do Reader.descend; let x ← d'; Reader.ascend; return x) := by
  refine bind_same Reader.descend fun _ => h.bind fun x y => ?_
  exact bind_same Reader.ascend fun _ => pure x y

end EndsAlike

end Decoder

end SchemaWire
