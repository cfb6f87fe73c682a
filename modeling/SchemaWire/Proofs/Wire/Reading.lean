import Mathlib.Data.List.Forall2
import SchemaWire.Proofs.Wire.FixedWidth
import SchemaWire.Wire.Reader
/-!
# What a decoder does with the bytes ahead

A decoder that succeeds consumes some of the bytes ahead of its reader and leaves everything else
about the reader as it was. `Reader.advance` is a reader after some bytes, and two judgements
describe decoders by it, one in each direction:

* `Decoder.Reads d format bytes x` — wherever `bytes` lie ahead, `d` reads `x` from exactly these
  bytes, whatever follows them;
* `Decoder.Yields d format P` — whatever `d` reads successfully, it reads from the front of the
  bytes ahead, and the value with these bytes satisfies `P`.

A third one, `Decoder.Simulates`, compares two decoders on the same input: whatever one of them
reads the other one reads as well, up to a function on what is read.

All compose along `>>=` (`Decoder.Reads.bind`, `Decoder.Yields.bind`) and along the reading of a
number of members (`Decoder.Reads.replicate`, `Decoder.Yields.replicate`), so a statement about a
whole decoder is put together from statements about its steps. None of them speaks about the
position or the depth of the reader: no successful read depends on them.
-/

namespace SchemaWire

namespace Reader

/-- The reader after the next `n` bytes. -/
def advance (r : Reader) (n : Nat) : Reader :=
  { r with
    ahead := r.ahead.drop n
    position := r.position + n
    remaining := r.remaining - n
    remaining_eq := by simp [r.remaining_eq] }

@[simp] theorem advance_ahead (r : Reader) (n : Nat) : (r.advance n).ahead = r.ahead.drop n := rfl

@[simp] theorem advance_position (r : Reader) (n : Nat) :
    (r.advance n).position = r.position + n := rfl

@[simp] theorem advance_format (r : Reader) (n : Nat) : (r.advance n).format = r.format := rfl

@[simp] theorem advance_depth (r : Reader) (n : Nat) : (r.advance n).depth = r.depth := rfl

/-- The number of bytes ahead is determined by the bytes, so it never has to be compared. -/
theorem ext_of_ahead {r s : Reader} (ahead : r.ahead = s.ahead) (position : r.position = s.position)
    (format : r.format = s.format) (depth : r.depth = s.depth) : r = s := by
  obtain ⟨_, _, _, _, _, hr⟩ := r
  obtain ⟨_, _, _, _, _, hs⟩ := s
  subst ahead position format depth hr hs
  rfl

@[simp] theorem advance_zero (r : Reader) : r.advance 0 = r :=
  ext_of_ahead (by simp) (by simp) rfl rfl

@[simp] theorem advance_advance (r : Reader) (m n : Nat) :
    (r.advance m).advance n = r.advance (m + n) :=
  ext_of_ahead (by simp) (by simp [Nat.add_assoc]) rfl rfl

theorem take_eq {r : Reader} {n : Nat} (h : n ≤ r.ahead.length) :
    take n r = .ok (r.ahead.take n) (r.advance n) := by
  rw [← r.remaining_eq] at h
  simp only [take, if_pos h, advance]

theorem readByte_eq {r : Reader} {b : UInt8} {bs : List UInt8} (h : r.ahead = b :: bs) :
    readByte r = .ok b (r.advance 1) := by
  unfold readByte
  split
  · next h' => rw [h] at h'; cases h'
  · next b' bs' h' =>
    rw [h] at h'
    cases h'
    congr 1
    exact ext_of_ahead (by simp [h]) rfl rfl rfl

/-- A length is read in the form that the format of the reader gives it. -/
theorem readLength_eq {r : Reader} {format : WireFormat} (hr : r.format = format) :
    readLength r =
      (if format.varintLengths then (do return (← readVarint 32).toNat)
        else readFixed 4 : Decoder Nat) r := by
  subst hr
  rfl

end Reader

namespace Decoder

variable {α β : Type}

/-! ### Running composed decoders -/

theorem bind_apply (d : Decoder α) (f : α → Decoder β) (r : Reader) :
    (d >>= f) r =
      match d r with
      | .ok x r => f x r
      | .error e r => .error e r := by
  change EStateM.bind d f r = _
  unfold EStateM.bind
  cases d r <;> rfl

theorem bind_eq_ok_iff {d : Decoder α} {f : α → Decoder β} {r r' : Reader} {y : β} :
    (d >>= f) r = .ok y r' ↔ ∃ x r₁, d r = .ok x r₁ ∧ f x r₁ = .ok y r' := by
  rw [bind_apply]
  cases d r with
  | ok x r₁ => simp [and_assoc]
  | error e r₁ => simp

/-- Inside a record the reader stands one level deeper. -/
theorem nested_apply (d : Decoder α) (r : Reader) :
    (do Reader.descend; let x ← d; Reader.ascend; return x : Decoder α) r =
      match d { r with depth := r.depth + 1 } with
      | .ok x r => .ok x { r with depth := r.depth - 1 }
      | .error e r => .error e r := by
  change (d >>= fun x => do Reader.ascend; return x) { r with depth := r.depth + 1 } = _
  rw [bind_apply]
  rfl

theorem nested_eq_ok_iff {d : Decoder α} {r r' : Reader} {x : α} :
    (do Reader.descend; let x ← d; Reader.ascend; return x : Decoder α) r = .ok x r' ↔
      ∃ r₁, d { r with depth := r.depth + 1 } = .ok x r₁ ∧
        { r₁ with depth := r₁.depth - 1 } = r' := by
  rw [nested_apply]
  cases d { r with depth := r.depth + 1 } with
  | ok y r₁ => simp [and_assoc]
  | error e r₁ => simp

/-! ### Reading given bytes -/

/-- **Reading back.** Wherever the given bytes lie ahead of a reader of the given format, the
decoder reads `x` and stops just behind them. -/
def Reads (d : Decoder α) (format : WireFormat) (bytes : List UInt8) (x : α) : Prop :=
  ∀ r : Reader, r.format = format → bytes <+: r.ahead → d r = .ok x (r.advance bytes.length)

variable {format : WireFormat}

theorem Reads.pure (x : α) : Reads (Pure.pure x) format [] x := by
  intro r _ _
  rw [List.length_nil, Reader.advance_zero]
  rfl

/-- Behind the bytes of the first step lie those of the second. -/
theorem drop_prefix_of_append {bytes more ahead : List UInt8} (h : bytes ++ more <+: ahead) :
    more <+: ahead.drop bytes.length := by
  obtain ⟨rest, rfl⟩ := h
  rw [List.append_assoc, List.drop_left]
  exact List.prefix_append _ _

theorem Reads.bind {d : Decoder α} {f : α → Decoder β} {bytes more : List UInt8} {x : α} {y : β}
    (hd : Reads d format bytes x) (hf : Reads (f x) format more y) :
    Reads (d >>= f) format (bytes ++ more) y := by
  intro r hr h
  -- What follows the bytes of the first step does not disturb it.
  have hfirst := hd r hr ((List.prefix_append _ _).trans h)
  have hsecond := hf (r.advance bytes.length) hr (drop_prefix_of_append h)
  rw [bind_apply, hfirst]
  simpa using hsecond

theorem Reads.map {d : Decoder α} {bytes : List UInt8} {x : α} (hd : Reads d format bytes x)
    (f : α → β) : Reads (do return f (← d)) format bytes (f x) := by
  rw [← List.append_nil bytes]
  exact hd.bind (f := fun x => return f x) (Reads.pure (f x))

theorem reads_ofExcept (x : α) :
    Reads (ofExcept (.ok x : Except DecodeError α)) format [] x := Reads.pure x

theorem reads_take {n : Nat} {bytes : List UInt8} (h : bytes.length = n) :
    Reads (Reader.take n) format bytes bytes := by
  rintro r - ⟨rest, hr⟩
  subst h
  rw [Reader.take_eq (by simp [← hr]), ← hr, List.take_left]

theorem reads_readByte (b : UInt8) : Reads Reader.readByte format [b] b := by
  rintro r - ⟨rest, hr⟩
  exact Reader.readByte_eq hr.symm

theorem reads_readFixed {width n : Nat} (h : n < 256 ^ width) :
    Reads (Reader.readFixed width) format (format.byteOrder.bytes width n) n := by
  intro r hr hbytes
  have htake := reads_take (ByteOrder.length_bytes _ width n) r hr hbytes
  unfold Reader.readFixed
  rw [bind_apply, htake]
  change EStateM.Result.ok (r.format.byteOrder.number _) _ = _
  rw [hr, ByteOrder.number_bytes _ h]

/-- Members are read back one by one, each from its own bytes. -/
theorem Reads.repeatInto {d : Decoder α} {β : Type} (bytesOf : β → List UInt8) (valueOf : β → α)
    (xs : List β) (h : ∀ x ∈ xs, Reads d format (bytesOf x) (valueOf x)) (done : List α) :
    Reads (d.repeatInto xs.length done) format (xs.flatMap bytesOf)
      (done.reverse ++ xs.map valueOf) := by
  induction xs generalizing done with
  -- The values that have been read stand in front, the last one first.
  | nil => simpa [Decoder.repeatInto] using (Reads.pure done.reverse : Reads _ format [] _)
  | cons x xs ih =>
    obtain ⟨hx, hxs⟩ := List.forall_mem_cons.1 h
    have hrest := ih hxs (valueOf x :: done)
    rw [List.reverse_cons, List.append_assoc] at hrest
    exact hx.bind hrest

theorem Reads.replicate {d : Decoder α} {β : Type} (bytesOf : β → List UInt8) (valueOf : β → α)
    (xs : List β) (h : ∀ x ∈ xs, Reads d format (bytesOf x) (valueOf x)) :
    Reads (Decoder.replicate xs.length d) format (xs.flatMap bytesOf) (xs.map valueOf) :=
  Reads.repeatInto bytesOf valueOf xs h []

/-- Moving into a record and out of it again makes no difference to what is read inside. -/
theorem Reads.nested {d : Decoder α} {bytes : List UInt8} {x : α} (hd : Reads d format bytes x) :
    Reads (do Reader.descend; let x ← d; Reader.ascend; return x) format bytes x := by
  intro r hr hbytes
  -- The depth is a field of the reader that no read looks at.
  have hinside := hd { r with depth := r.depth + 1 } hr hbytes
  rw [nested_apply, hinside]
  rfl

/-! ### What has been read -/

/-- **Soundness of reading.** Whatever the decoder reads successfully, it reads from the front of
the bytes ahead, and the value with these bytes satisfies `P`. -/
def Yields (d : Decoder α) (format : WireFormat) (P : α → List UInt8 → Prop) : Prop :=
  ∀ r x r', r.format = format → d r = .ok x r' →
    ∃ bytes, bytes <+: r.ahead ∧ r' = r.advance bytes.length ∧ P x bytes

theorem Yields.mono {d : Decoder α} {P Q : α → List UInt8 → Prop} (h : Yields d format P)
    (hPQ : ∀ x bytes, P x bytes → Q x bytes) : Yields d format Q := by
  intro r x r' hr hd
  obtain ⟨bytes, hbytes, hr', hP⟩ := h r x r' hr hd
  exact ⟨bytes, hbytes, hr', hPQ x bytes hP⟩

theorem Yields.pure {P : α → List UInt8 → Prop} {x : α} (h : P x []) :
    Yields (Pure.pure x) format P := by
  intro r y r' _ hd
  cases hd
  exact ⟨[], List.nil_prefix, by simp, h⟩

theorem Yields.throw {P : α → List UInt8 → Prop} (e : DecodeError) :
    Yields (MonadExcept.throw e) format P := by
  intro r y r' _ hd
  cases hd

theorem yields_ofExcept (e : Except DecodeError α) :
    Yields (ofExcept e) format fun x bytes => e = .ok x ∧ bytes = [] := by
  cases e with
  | ok x => exact Yields.pure ⟨rfl, rfl⟩
  | error e => exact Yields.throw e

/-- The bytes of two steps are those of the first followed by those of the second. -/
theorem Yields.bind {d : Decoder α} {f : α → Decoder β} {P : α → List UInt8 → Prop}
    {Q : β → List UInt8 → Prop} (hd : Yields d format P)
    (hf : ∀ x bytes, P x bytes → Yields (f x) format fun y more => Q y (bytes ++ more)) :
    Yields (d >>= f) format Q := by
  intro r y r' hr h
  obtain ⟨x, r₁, hx, hy⟩ := bind_eq_ok_iff.1 h
  obtain ⟨bytes, ⟨rest, hrest⟩, rfl, hP⟩ := hd r x r₁ hr hx
  -- The second step has read from what the first one left.
  obtain ⟨more, ⟨rest', hrest'⟩, rfl, hQ⟩ := hf x bytes hP (r.advance bytes.length) y r' hr hy
  rw [Reader.advance_ahead, ← hrest, List.drop_left] at hrest'
  refine ⟨bytes ++ more, ⟨rest', ?_⟩, by simp, hQ⟩
  rw [List.append_assoc, hrest', hrest]

/-- Whatever is read inside a record is read from the same bytes without it. -/
theorem Yields.nested {d : Decoder α} {P : α → List UInt8 → Prop} (hd : Yields d format P) :
    Yields (do Reader.descend; let x ← d; Reader.ascend; return x) format P := by
  intro r x r' hr h
  obtain ⟨r₁, hx, rfl⟩ := nested_eq_ok_iff.1 h
  obtain ⟨bytes, hbytes, rfl, hP⟩ := hd { r with depth := r.depth + 1 } x r₁ hr hx
  exact ⟨bytes, hbytes, rfl, hP⟩

theorem yields_take (n : Nat) :
    Yields (Reader.take n) format fun bytes consumed => bytes.length = n ∧ consumed = bytes := by
  intro r bytes r' _ h
  -- Too few bytes are refused, so what was taken is as long as asked for.
  by_cases hn : n ≤ r.ahead.length
  · rw [Reader.take_eq hn] at h
    cases h
    have hlength : (r.ahead.take n).length = n := List.length_take_of_le hn
    exact ⟨_, List.take_prefix _ _, by rw [hlength], hlength, rfl⟩
  · rw [← r.remaining_eq] at hn
    simp only [Reader.take, if_neg hn] at h
    cases h

theorem yields_readByte :
    Yields Reader.readByte format fun b consumed => consumed = [b] := by
  intro r b r' _ h
  cases hahead : r.ahead with
  | nil =>
    unfold Reader.readByte at h
    split at h
    · cases h
    · next h' => rw [hahead] at h'; cases h'
  | cons c rest =>
    rw [Reader.readByte_eq hahead] at h
    cases h
    exact ⟨[b], ⟨rest, rfl⟩, rfl, rfl⟩

theorem yields_readFixed (width : Nat) :
    Yields (Reader.readFixed width) format fun n consumed =>
      n < 256 ^ width ∧ consumed = format.byteOrder.bytes width n := by
  intro r n r' hr h
  unfold Reader.readFixed at h
  obtain ⟨bytes, r₁, hbytes, hn⟩ := bind_eq_ok_iff.1 h
  -- The bytes are those of the number that they spell.
  obtain ⟨consumed, hpre, rfl, hlength, rfl⟩ := yields_take width r bytes r₁ hr hbytes
  cases hn
  refine ⟨consumed, hpre, rfl, ?_, ?_⟩
  · exact hlength ▸ ByteOrder.number_lt _ _
  · change consumed = format.byteOrder.bytes width (r.format.byteOrder.number consumed)
    rw [hr, ← hlength, ByteOrder.bytes_number]

/-- Members that have been read come with the bytes of each, in order. -/
theorem Yields.repeatInto {d : Decoder α} {P : α → List UInt8 → Prop} (hd : Yields d format P)
    (n : Nat) (done : List α) :
    Yields (d.repeatInto n done) format fun xs bytes =>
      ∃ ys pieces, xs = done.reverse ++ ys ∧ ys.length = n ∧ bytes = pieces.flatten ∧
        List.Forall₂ P ys pieces := by
  induction n generalizing done with
  | zero => exact Yields.pure ⟨[], [], by simp, rfl, rfl, .nil⟩
  | succ n ih =>
    refine Yields.bind hd fun x bytes hx => (ih (x :: done)).mono ?_
    rintro xs more ⟨ys, pieces, rfl, rfl, rfl, hys⟩
    exact ⟨x :: ys, bytes :: pieces, by simp, rfl, rfl, .cons hx hys⟩

theorem Yields.replicate {d : Decoder α} {P : α → List UInt8 → Prop} (hd : Yields d format P)
    (n : Nat) :
    Yields (Decoder.replicate n d) format fun xs bytes =>
      xs.length = n ∧ ∃ pieces, bytes = pieces.flatten ∧ List.Forall₂ P xs pieces := by
  refine (hd.repeatInto n []).mono ?_
  rintro xs bytes ⟨ys, pieces, rfl, hlength, hbytes, hys⟩
  exact ⟨by simpa using hlength, pieces, hbytes, by simpa using hys⟩

/-! ### Two decoders on the same input -/

section Simulates

variable {γ δ : Type}

/-- **Simulation.** Whatever `d` reads, `d'` reads from the same bytes as its image under `g`. -/
def Simulates (d' : Decoder β) (format : WireFormat) (g : α → β) (d : Decoder α) : Prop :=
  ∀ r x r', r.format = format → d r = .ok x r' → r'.format = format ∧ d' r = .ok (g x) r'

theorem Simulates.pure {g : α → β} {x : α} {y : β} (h : g x = y) :
    Simulates (Pure.pure y) format g (Pure.pure x) := by
  intro r z r' hr hd
  cases hd
  exact ⟨hr, by rw [h]; rfl⟩

theorem Simulates.throw {g : α → β} (d' : Decoder β) (e : DecodeError) :
    Simulates d' format g (MonadExcept.throw e) := by
  intro r y r' _ hd
  cases hd

/-- A decoder simulates itself, where `g` leaves alone what it reads. -/
theorem Simulates.of_yields {d : Decoder α} {P : α → List UInt8 → Prop} {g : α → α}
    (hd : Yields d format P) (hg : ∀ x bytes, P x bytes → g x = x) : Simulates d format g d := by
  intro r x r' hr h
  obtain ⟨bytes, -, rfl, hP⟩ := hd r x r' hr h
  exact ⟨hr, by rw [hg x bytes hP, h]⟩

theorem Simulates.bind {d : Decoder α} {d' : Decoder β} {f : α → Decoder γ} {f' : β → Decoder δ}
    {g : α → β} {h : γ → δ} (hd : Simulates d' format g d)
    (hf : ∀ x, Simulates (f' (g x)) format h (f x)) :
    Simulates (d' >>= f') format h (d >>= f) := by
  intro r y r' hr hy
  obtain ⟨x, r₁, hx, hy⟩ := bind_eq_ok_iff.1 hy
  obtain ⟨hr₁, hx'⟩ := hd r x r₁ hr hx
  obtain ⟨hr', hy'⟩ := hf x r₁ y r' hr₁ hy
  exact ⟨hr', bind_eq_ok_iff.2 ⟨g x, r₁, hx', hy'⟩⟩

/-- Two decoders may begin with the same step. -/
theorem Simulates.bind_of_yields {d : Decoder α} {P : α → List UInt8 → Prop} {f : α → Decoder γ}
    {f' : α → Decoder δ} {h : γ → δ} (hd : Yields d format P)
    (hf : ∀ x, Simulates (f' x) format h (f x)) : Simulates (d >>= f') format h (d >>= f) :=
  (Simulates.of_yields (g := id) hd fun _ _ _ => rfl).bind hf

/-- Both decoders read their members in step. -/
theorem Simulates.repeatInto {d : Decoder α} {d' : Decoder β} {g : α → β}
    (hd : Simulates d' format g d) (n : Nat) (done : List α) :
    Simulates (d'.repeatInto n (done.map g)) format (List.map g) (d.repeatInto n done) := by
  induction n generalizing done with
  | zero =>
    rw [Decoder.repeatInto, Decoder.repeatInto]
    exact Simulates.pure List.map_reverse
  | succ n ih => exact hd.bind fun x => ih (x :: done)

theorem Simulates.replicate {d : Decoder α} {d' : Decoder β} {g : α → β}
    (hd : Simulates d' format g d) (n : Nat) :
    Simulates (Decoder.replicate n d') format (List.map g) (Decoder.replicate n d) :=
  hd.repeatInto n []

theorem Simulates.nested {d : Decoder α} {d' : Decoder β} {g : α → β}
    (hd : Simulates d' format g d) :
    Simulates (do Reader.descend; let x ← d'; Reader.ascend; return x) format g
      (do Reader.descend; let x ← d; Reader.ascend; return x) := by
  intro r x r' hr h
  obtain ⟨r₁, hx, rfl⟩ := nested_eq_ok_iff.1 h
  obtain ⟨hr₁, hx'⟩ := hd { r with depth := r.depth + 1 } x r₁ hr hx
  exact ⟨hr₁, nested_eq_ok_iff.2 ⟨r₁, hx', rfl⟩⟩

end Simulates

end Decoder

end SchemaWire
