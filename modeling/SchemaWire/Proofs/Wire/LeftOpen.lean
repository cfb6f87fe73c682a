import Mathlib.Data.List.Infix
import SchemaWire.Proofs.Wire.Counting
import SchemaWire.Proofs.Wire.Locality
/-!
# Records that are left open

A record is closed where it has been written or read to its end, and nowhere else. Whatever goes
wrong inside it goes wrong with the record open, and the cursor stays as deep as it was there.

How many records are open is told here by the brackets that have been passed, and not by the cursor.

* `Script.Nests room script` — a script closes what it opens, and opens no more than `room` records
  inside one another. A run to its end leaves the depth as it was; a run that stops inside `k`
  records (`Script.StopsIn`) leaves it raised by `k`.
* `Decoder.Nests room d` — the same of a decoder, with `Decoder.StopsIn` as the way in which it
  stops. Most decoders neither go by the depth nor change it (`Decoder.Flat`).
-/

namespace SchemaWire

/-! ### Scripts -/

namespace Script

open List (count)

variable {room k : Nat} {script done more : Script} {step : Step} {w w' : Writer} {e : EncodeError}

/-- No record is closed that has not been opened before. -/
def OpensFirst (script : Script) : Prop :=
  ∀ done, done <+: script → done.count .leave ≤ done.count .enter

/-- **A script that closes what it opens**, and never has more than `room` records open. -/
structure Nests (room : Nat) (script : Script) : Prop where
  closes : script.count .enter = script.count .leave
  opensFirst : script.OpensFirst
  bounded : ∀ done, done <+: script → done.count .enter ≤ done.count .leave + room

/-- **Where a script stops**: the steps before are performed, and the one that fails stands inside
`k` records that have been opened and not closed. -/
def StopsIn (script : Script) (w : Writer) (e : EncodeError) (w' : Writer) (k : Nat) : Prop :=
  ∃ done step rest, script = done ++ step :: rest ∧ run done w = .ok () w' ∧
    Writer.perform step w' = .error e w' ∧ done.count .enter = done.count .leave + k

theorem OpensFirst.of_prefix (h : script.OpensFirst) (hdone : done <+: script) : done.OpensFirst :=
  fun before hbefore => h before (hbefore.trans hdone)

theorem count_of_stays (hstep : step.Stays) :
    count .enter [step] = 0 ∧ count .leave [step] = 0 := by
  cases step with
  | enter | leave => exact hstep.elim
  | raw _ | varint _ | fixed _ _ | length _ | fail _ => exact ⟨rfl, rfl⟩

/-- A beginning of two scripts together ends in the first one or in the second one. -/
theorem prefix_append_cases (h : done <+: script ++ more) :
    done <+: script ∨ ∃ later, later <+: more ∧ done = script ++ later := by
  rcases List.prefix_or_prefix_of_prefix h (List.prefix_append script more) with h' | ⟨later, rfl⟩
  · exact .inl h'
  · exact .inr ⟨later, (List.prefix_append_right_inj script).1 h, rfl⟩

theorem Nests.nil : Nests room [] := by
  refine ⟨rfl, fun done hdone => ?_, fun done hdone => ?_⟩ <;>
  · obtain rfl := List.prefix_nil.1 hdone
    exact Nat.zero_le _

theorem Nests.single (hstep : step.Stays) : Nests room [step] := by
  obtain ⟨henter, hleave⟩ := count_of_stays hstep
  refine ⟨by rw [henter, hleave], fun done hdone => ?_, fun done hdone => ?_⟩
  · exact (hdone.sublist.count_le _).trans (hleave.trans_le (Nat.zero_le _))
  · exact (hdone.sublist.count_le _).trans (henter.trans_le (Nat.zero_le _))

theorem Nests.append (h : Nests room script) (h' : Nests room more) :
    Nests room (script ++ more) := by
  have hcloses := h.closes
  refine ⟨?_, fun done hdone => ?_, fun done hdone => ?_⟩
  · rw [List.count_append, List.count_append, hcloses, h'.closes]
  -- The beginning of the whole lies in the first script or goes beyond it, and then all of that is
  -- closed.
  · rcases prefix_append_cases hdone with hdone | ⟨later, hlater, rfl⟩
    · exact h.opensFirst done hdone
    · have := h'.opensFirst later hlater
      rw [List.count_append, List.count_append]
      omega
  · rcases prefix_append_cases hdone with hdone | ⟨later, hlater, rfl⟩
    · exact h.bounded done hdone
    · have := h'.bounded later hlater
      rw [List.count_append, List.count_append]
      omega

/-- A record is open around everything inside it, and closed behind it. -/
theorem Nests.nested (h : Nests room script) :
    Nests (room + 1) (.enter :: (script ++ [.leave])) := by
  have hcloses := h.closes
  -- A beginning of the record is empty, or begins with its opening and goes on inside, or is all.
  have hcases {done : Script} (hdone : done <+: .enter :: (script ++ [.leave])) :
      done = [] ∨ (∃ inside, inside <+: script ∧ done = .enter :: inside) ∨
        done = .enter :: (script ++ [.leave]) := by
    rcases List.prefix_cons_iff.1 hdone with rfl | ⟨inside, rfl, hinside⟩
    · exact .inl rfl
    · rcases List.prefix_concat_iff.1 hinside with rfl | hinside
      · exact .inr (.inr rfl)
      · exact .inr (.inl ⟨inside, hinside, rfl⟩)
  have hcount (inside : Script) : count .enter (.enter :: inside) = count .enter inside + 1 ∧
      count .leave (.enter :: inside) = count .leave inside :=
    ⟨List.count_cons_self, List.count_cons_of_ne (by decide)⟩
  have hall : count .enter (.enter :: (script ++ [.leave])) = count .enter script + 1 ∧
      count .leave (.enter :: (script ++ [.leave])) = count .leave script + 1 := by
    rw [(hcount _).1, (hcount _).2, List.count_append, List.count_append]
    exact ⟨rfl, rfl⟩
  refine ⟨by rw [hall.1, hall.2, hcloses], fun done hdone => ?_, fun done hdone => ?_⟩
  · rcases hcases hdone with rfl | ⟨inside, hinside, rfl⟩ | rfl
    · exact Nat.le_refl 0
    · have := h.opensFirst inside hinside
      rw [(hcount inside).1, (hcount inside).2]
      omega
    · rw [hall.1, hall.2, hcloses]
  · rcases hcases hdone with rfl | ⟨inside, hinside, rfl⟩ | rfl
    · exact Nat.zero_le _
    · have := h.bounded inside hinside
      rw [(hcount inside).1, (hcount inside).2]
      omega
    · rw [hall.1, hall.2]
      omega

/-! ### Runs -/

/-- **The depth counts the brackets.** The induction takes the last step off; that a record is
closed only if one is open keeps the count from falling below nothing. -/
theorem depth_of_run (h : done.OpensFirst) (hrun : run done w = .ok () w') :
    w'.depth + done.count .leave = w.depth + done.count .enter := by
  induction done using List.reverseRecOn generalizing w' with
  | nil =>
    cases hrun
    rfl
  | append_singleton before step ih =>
    rw [run_append] at hrun
    cases hw₁ : run before w with
    | error e w₁ =>
      rw [hw₁] at hrun
      cases hrun
    | ok _ w₁ =>
      rw [hw₁] at hrun
      have hdepth := ih (h.of_prefix (List.prefix_append _ _)) hw₁
      have hopen := h _ List.prefix_rfl
      have hstep : Writer.perform step w₁ = .ok () w' := by
        change run [step] w₁ = .ok () w' at hrun
        rw [run] at hrun
        split at hrun
        · next w₂ hstep =>
          cases hrun
          exact hstep
        · cases hrun
      rw [List.count_append, List.count_append] at hopen ⊢
      -- Only the two brackets count, and only they move the depth.
      by_cases hstays : step.Stays
      · obtain ⟨henter, hleave⟩ := count_of_stays hstays
        rw [Writer.depth_eq_of_perform hstays hstep, henter, hleave]
        exact hdepth
      · cases step with
        | enter =>
          cases hstep
          change w₁.depth + 1 + (before.count .leave + 0) = w.depth + (before.count .enter + 1)
          omega
        | leave =>
          -- What is closed here was open before, so the depth does fall by one.
          cases hstep
          change before.count .leave + 1 ≤ before.count .enter + 0 at hopen
          change w₁.depth - 1 + (before.count .leave + 1) = w.depth + (before.count .enter + 0)
          omega
        | _ => exact absurd trivial hstays

/-- A run goes to the end, or up to a step that fails. -/
theorem exists_of_run_eq_error (h : run script w = .error e w') :
    ∃ done step rest, script = done ++ step :: rest ∧ run done w = .ok () w' ∧
      Writer.perform step w' = .error e w' := by
  -- By induction on the steps, up to the one that fails.
  induction script generalizing w with
  | nil => cases h
  | cons step script ih =>
    rw [run] at h
    split at h
    · next w₁ hstep =>
      obtain ⟨done, last, rest, rfl, hdone, hlast⟩ := ih h
      exact ⟨step :: done, last, rest, rfl, by rw [run, hstep]; exact hdone, hlast⟩
    · next e₁ w₁ hstep =>
      cases h
      obtain rfl := Writer.perform_eq_error hstep
      exact ⟨[], step, script, rfl, rfl, hstep⟩

/-- What is written to its end leaves no record open. -/
theorem Nests.depth_of_run_eq_ok (h : Nests room script) (hrun : run script w = .ok () w') :
    w'.depth = w.depth := by
  have hdepth := depth_of_run h.opensFirst hrun
  have hcloses := h.closes
  omega

/-- **A script that stops** leaves those records open inside which it stops. -/
theorem Nests.stopsIn (h : Nests room script) (hrun : run script w = .error e w') :
    ∃ k ≤ room, script.StopsIn w e w' k ∧ w'.depth = w.depth + k := by
  obtain ⟨done, step, rest, rfl, hdone, hstep⟩ := exists_of_run_eq_error hrun
  have hbegins : done <+: done ++ step :: rest := List.prefix_append _ _
  -- The steps before the failing one open at least as many records as they close.
  have hdepth := depth_of_run (h.opensFirst.of_prefix hbegins) hdone
  have hopen := h.opensFirst done hbegins
  have hbounded := h.bounded done hbegins
  exact ⟨done.count .enter - done.count .leave, by omega,
    ⟨done, step, rest, rfl, hdone, hstep, by omega⟩, by omega⟩

/-- A record that is not written to its end stays open. -/
theorem Nests.depth_lt_of_nested (h : Nests room script)
    (hrun : run (.enter :: (script ++ [.leave])) w = .error e w') : w.depth < w'.depth := by
  change run (script ++ [.leave]) { w with depth := w.depth + 1 } = .error e w' at hrun
  rw [run_append] at hrun
  split at hrun
  · cases hrun
  · next hinside =>
    cases hrun
    obtain ⟨k, -, -, hdepth⟩ := h.stopsIn hinside
    -- It has been opened, and what has been opened inside it comes on top.
    calc w.depth < w.depth + 1 := Nat.lt_succ_self _
      _ ≤ w.depth + 1 + k := Nat.le_add_right _ _
      _ = w'.depth := hdepth.symm

end Script

/-! ### Decoders -/

/-- The reader with another number of records open around it. -/
def Reader.atDepth (r : Reader) (depth : Nat) : Reader := { r with depth := depth }

@[simp] theorem Reader.atDepth_depth (r : Reader) (k : Nat) : (r.atDepth k).depth = k := rfl

@[simp] theorem Reader.atDepth_self (r : Reader) : r.atDepth r.depth = r := rfl

namespace Decoder

variable {α β : Type} {room k : Nat} {d : Decoder α} {f : α → Decoder β} {r r' : Reader}
  {e : DecodeError}

/-- What a reader at another depth would have come to. -/
def atDepth (depth : Nat) :
    EStateM.Result DecodeError Reader α → EStateM.Result DecodeError Reader α
  | .ok x r => .ok x (r.atDepth depth)
  | .error e r => .error e (r.atDepth depth)

/-- **A decoder that lets the depth alone**: it neither goes by it nor changes it. -/
def Flat (d : Decoder α) : Prop := ∀ r k, d (r.atDepth k) = atDepth k (d r)

/-- What is read to its end leaves no record open. -/
def Closes (d : Decoder α) : Prop := ∀ r x r', d r = .ok x r' → r'.depth = r.depth

/-- **Where a decoder stops**: what comes before is read to its end, and what fails lies inside `k`
records that have been opened and not closed. -/
inductive StopsIn : {α : Type} → Decoder α → Reader → DecodeError → Reader → Nat → Prop
  | flat {α : Type} {d : Decoder α} {r r' : Reader} {e : DecodeError} (hd : d.Flat)
      (h : d r = .error e r') : StopsIn d r e r' 0
  | first {α β : Type} {d : Decoder α} {f : α → Decoder β} {r r' : Reader} {e : DecodeError}
      {k : Nat} (h : StopsIn d r e r' k) : StopsIn (d >>= f) r e r' k
  | later {α β : Type} {d : Decoder α} {f : α → Decoder β} {r r₁ r' : Reader} {e : DecodeError}
      {x : α} {k : Nat} (hd : d.Closes) (hx : d r = .ok x r₁) (h : StopsIn (f x) r₁ e r' k) :
      StopsIn (d >>= f) r e r' k
  | nested {α : Type} {d : Decoder α} {r r' : Reader} {e : DecodeError} {k : Nat}
      (h : StopsIn d (r.atDepth (r.depth + 1)) e r' k) :
      StopsIn (do Reader.descend; let x ← d; Reader.ascend; return x) r e r' (k + 1)

/-- **A decoder that closes what it opens**, unless it stops, and then it does so inside no more
than `room` records. -/
structure Nests (room : Nat) (d : Decoder α) : Prop where
  closes : d.Closes
  stops : ∀ r e r', d r = .error e r' → ∃ k ≤ room, d.StopsIn r e r' k

/-! ### Decoders without records -/

theorem Flat.depth_of_eq_ok {x : α} (hd : d.Flat) (h : d r = .ok x r') : r'.depth = r.depth := by
  have hself := hd r r.depth
  rw [Reader.atDepth_self, h] at hself
  have hdepth := congrArg Reader.depth (EStateM.Result.ok.inj hself).2
  exact hdepth

theorem Flat.depth_of_eq_error (hd : d.Flat) (h : d r = .error e r') : r'.depth = r.depth := by
  have hself := hd r r.depth
  rw [Reader.atDepth_self, h] at hself
  have hdepth := congrArg Reader.depth (EStateM.Result.error.inj hself).2
  exact hdepth

theorem Flat.pure (x : α) : Flat (Pure.pure x) := fun _ _ => rfl

theorem Flat.throw (e : DecodeError) : Flat (MonadExcept.throw e : Decoder α) := fun _ _ => rfl

theorem flat_ofExcept (x : Except DecodeError α) : Flat (ofExcept x) := by
  cases x with
  | ok x => exact Flat.pure x
  | error e => exact Flat.throw e

theorem Flat.bind (hd : d.Flat) (hf : ∀ x, (f x).Flat) : Flat (d >>= f) := by
  intro r k
  rw [bind_apply, bind_apply, hd r k]
  cases d r with
  | ok x r₁ => exact hf x r₁ k
  | error e r₁ => rfl

theorem Flat.map (hd : d.Flat) (g : α → β) : Flat (do return g (← d)) :=
  hd.bind fun x => Flat.pure (g x)

/-- What a decoder may look at besides the depth. -/
theorem flat_look (g : Reader → β) (hg : ∀ r k, g (r.atDepth k) = g r) :
    Flat (do return g (← get)) := by
  intro r k
  change EStateM.Result.ok (g (r.atDepth k)) (r.atDepth k) = _
  rw [hg r k]
  rfl

theorem flat_take (n : Nat) : Flat (Reader.take n) := by
  intro r k
  unfold Reader.take
  change (if n ≤ r.remaining then _ else _) = _
  split <;> rfl

theorem flat_readByte : Flat Reader.readByte := by
  intro r k
  -- Whether there is a byte does not depend on the depth.
  cases hahead : r.ahead with
  | nil =>
    have hahead' : (r.atDepth k).ahead = [] := hahead
    rw [Reader.readByte_eq_error hahead, Reader.readByte_eq_error hahead']
    rfl
  | cons b bs =>
    have hahead' : (r.atDepth k).ahead = b :: bs := hahead
    rw [Reader.readByte_eq hahead, Reader.readByte_eq hahead']
    rfl

theorem flat_readFixed (width : Nat) : Flat (Reader.readFixed width) :=
  (flat_take width).bind fun _ => flat_look _ fun _ _ => rfl

/-- One group after another, by induction on how many may come. -/
theorem flat_readGroups (bits left : Nat) (u : UInt64) : Flat (Reader.readGroups bits left u) := by
  -- The reader of groups looks at bytes only.
  induction left generalizing u with
  | zero => exact Flat.throw _
  | succ left ih =>
    rw [Reader.readGroups]
    refine flat_readByte.bind fun byte => ?_
    simp only
    split
    · exact Flat.throw _
    · split
      · split
        · exact Flat.throw _
        · exact Flat.pure _
      · exact ih _

theorem flat_readLength : Flat Reader.readLength := by
  have hread : Reader.readLength = (do return (← get).format : Decoder WireFormat) >>= fun format =>
      -- The format is the only thing that is looked at, and it does not change with the depth.
      if format.varintLengths then (do return (← Reader.readVarint 32).toNat)
      else Reader.readFixed 4 := rfl
  rw [hread]
  refine (flat_look _ fun _ _ => rfl).bind fun format => ?_
  split
  · exact (flat_readGroups _ _ _).map UInt64.toNat
  · exact flat_readFixed 4

/-! ### Decoders with records -/

/-- How far the depth has been raised tells how many records are open; so a decoder stops inside as
many as it does, however it is taken apart. -/
theorem StopsIn.depth_eq (h : d.StopsIn r e r' k) : r'.depth = r.depth + k := by
  -- By induction on how the reader stopped; each record around it adds one.
  induction h with
  | flat hd h => exact hd.depth_of_eq_error h
  | first _ ih => exact ih
  | later hd hx _ ih => rw [ih, hd _ _ _ hx]
  | @nested α d r r' e k _ ih =>
    calc r'.depth = r.depth + 1 + k := ih
      _ = r.depth + (k + 1) := by omega

theorem Flat.closes (hd : d.Flat) : d.Closes := fun _ _ _ h => hd.depth_of_eq_ok h

theorem Closes.bind (hd : d.Closes) (hf : ∀ x, (f x).Closes) : (d >>= f).Closes := by
  intro r y r' h
  obtain ⟨x, r₁, hx, hy⟩ := bind_eq_ok_iff.1 h
  rw [hf x r₁ y r' hy, hd r x r₁ hx]

theorem Closes.nested (hd : d.Closes) :
    Closes (do Reader.descend; let x ← d; Reader.ascend; return x) := by
  intro r x r' h
  obtain ⟨r₁, hinside, rfl⟩ := nested_eq_ok_iff.1 h
  change r₁.depth - 1 = r.depth
  rw [hd _ x r₁ hinside]
  exact Nat.add_sub_cancel _ _

theorem Nests.of_flat (hd : d.Flat) : Nests room d where
  closes := hd.closes
  stops _ _ _ h := ⟨0, Nat.zero_le _, .flat hd h⟩

theorem Nests.bind (hd : Nests room d) (hf : ∀ x, Nests room (f x)) : Nests room (d >>= f) where
  closes := hd.closes.bind fun x => (hf x).closes
  stops r e r' h := by
    rw [bind_apply] at h
    -- The second part begins where the first one has closed all it opened.
    cases hx : d r with
    | ok x r₁ =>
      rw [hx] at h
      obtain ⟨k, hk, hstops⟩ := (hf x).stops r₁ e r' h
      exact ⟨k, hk, .later hd.closes hx hstops⟩
    | error e₁ r₁ =>
      rw [hx] at h
      cases h
      obtain ⟨k, hk, hstops⟩ := hd.stops r e r' hx
      exact ⟨k, hk, .first hstops⟩

/-- A record is closed where it has been read to its end, and stays open otherwise. -/
theorem Nests.nested (hd : Nests room d) :
    Nests (room + 1) (do Reader.descend; let x ← d; Reader.ascend; return x) where
  closes := hd.closes.nested
  stops r e r' h := by
    rw [nested_apply] at h
    split at h
    · cases h
    · next hinside =>
      cases h
      obtain ⟨k, hk, hstops⟩ := hd.stops (r.atDepth (r.depth + 1)) e r' hinside
      exact ⟨k + 1, Nat.succ_le_succ hk, .nested hstops⟩

/-- A record that is not read to its end stays open. -/
theorem Nests.depth_lt_of_nested (hd : Nests room d)
    (h : (do Reader.descend; let x ← d; Reader.ascend; return x : Decoder α) r = .error e r') :
    r.depth < r'.depth := by
  rw [nested_apply] at h
  split at h
  · cases h
  · next hinside =>
    cases h
    -- One record was open before the part that failed, which only adds to them.
    obtain ⟨k, -, hstops⟩ := hd.stops (r.atDepth (r.depth + 1)) e r' hinside
    calc r.depth < r.depth + 1 := Nat.lt_succ_self _
      _ ≤ r.depth + 1 + k := Nat.le_add_right _ _
      _ = r'.depth := hstops.depth_eq.symm

end Decoder

end SchemaWire
