import Mathlib.Data.List.Basic
import SchemaWire.Cache
/-!
# Requests to a cache

Whatever a cache holds, a request is answered with the programs that the key asks for, if they can
be made, and with nothing otherwise (`ProgramCache.map_request`). What has been handed out once is
found again in its place, however many requests there have been in between, and nothing is made
anew (`ProgramCache.request_again`).
-/

namespace SchemaWire

namespace ProgramCache

variable {cache : ProgramCache} {key other : ProgramKey} {found : ProgramHandle × ProgramFamily}

/-- The keys of a cache, in the order in which they were first asked for. -/
def keys (cache : ProgramCache) : List ProgramKey := cache.slots.map (·.key)

/-- The cache after a sequence of requests. -/
def requestAll (cache : ProgramCache) (keys : List ProgramKey) : ProgramCache :=
  keys.foldl (fun cache key => (cache.request key).2) cache

theorem mem_keys : key ∈ cache.keys ↔ ∃ slot ∈ cache.slots, slot.key = key := List.mem_map

/-! ### What is found -/

/-- A key is found in the first slot that it has, if its programs can be made. -/
theorem find?_eq_some_iff : cache.find? key = some found ↔
    ∃ slot, cache.slots.findIdx? (·.key = key) = some slot ∧ key.compile = some found.2 ∧
      found.1 = ⟨cache.number, slot⟩ := by
  unfold find?
  cases hslot : cache.slots.findIdx? (·.key = key) with
  | none => exact ⟨nofun, fun ⟨_, h, _⟩ => nomatch h⟩
  | some slot =>
    obtain ⟨hlt, hkey, -⟩ := List.findIdx?_eq_some_iff_getElem.1 hslot
    -- The slot keeps what its key asks for, and this is the key in question.
    have hprograms : cache.slots[slot].programs? = key.compile :=
      of_decide_eq_true hkey ▸ cache.slots[slot].compiled
    obtain ⟨handle, programs⟩ := found
    simp only [Option.bind_eq_bind, Option.bind_some, List.getElem?_eq_getElem hlt, hprograms,
      Option.some.injEq, exists_eq_left']
    cases key.compile with
    | none => exact ⟨nofun, fun h => nomatch h.1⟩
    | some made =>
      simp only [Option.bind_some, pure, Option.some.injEq, Prod.mk.injEq]
      exact ⟨fun h => ⟨h.2, h.1.symm⟩, fun h => ⟨h.2.symm, h.1⟩⟩

theorem findIdx?_ne_none_of_mem_keys (h : key ∈ cache.keys) :
    cache.slots.findIdx? (·.key = key) ≠ none := by
  obtain ⟨slot, hslot, hkey⟩ := mem_keys.1 h
  intro hnone
  exact of_decide_eq_false (List.findIdx?_eq_none_iff.1 hnone slot hslot) hkey

theorem mem_keys_of_findIdx?_eq_some {slot : Nat}
    (h : cache.slots.findIdx? (·.key = key) = some slot) : key ∈ cache.keys := by
  obtain ⟨hlt, hkey, -⟩ := List.findIdx?_eq_some_iff_getElem.1 h
  exact mem_keys.2 ⟨_, List.getElem_mem hlt, of_decide_eq_true hkey⟩

theorem mem_keys_of_find? (h : cache.find? key = some found) : key ∈ cache.keys := by
  obtain ⟨slot, hslot, -⟩ := find?_eq_some_iff.1 h
  exact mem_keys_of_findIdx?_eq_some hslot

/-- Nothing is found under a key that has not been asked for, nor under one for which programs cannot
be made. -/
theorem find?_eq_none_iff : cache.find? key = none ↔ key ∉ cache.keys ∨ key.compile = none := by
  constructor
  · intro hnone
    -- Known and made would mean that it is found.
    by_contra hboth
    obtain ⟨hmem, hmade⟩ := not_or.1 hboth
    obtain ⟨slot, hslot⟩ :=
      Option.ne_none_iff_exists'.1 (findIdx?_ne_none_of_mem_keys (not_not.1 hmem))
    obtain ⟨programs, hprograms⟩ := Option.ne_none_iff_exists'.1 hmade
    have hfound : cache.find? key = some (⟨cache.number, slot⟩, programs) :=
      find?_eq_some_iff.2 ⟨slot, hslot, hprograms, rfl⟩
    cases hnone.symm.trans hfound
  · intro h
    cases hfound : cache.find? key with
    | none => rfl
    | some found =>
      obtain ⟨slot, hslot, hprograms, -⟩ := find?_eq_some_iff.1 hfound
      rcases h with hmem | hmade
      · exact absurd (mem_keys_of_findIdx?_eq_some hslot) hmem
      · cases hmade.symm.trans hprograms

/-! ### An attempt -/

theorem any_eq_true_iff : (cache.slots.any (·.key = key)) = true ↔ key ∈ cache.keys := by
  simp [mem_keys]

/-- An attempt adds its key, unless the cache has it. -/
theorem keys_attempt (cache : ProgramCache) (key : ProgramKey) :
    (cache.attempt key).keys = if key ∈ cache.keys then cache.keys else cache.keys ++ [key] := by
  by_cases h : key ∈ cache.keys
  · rw [if_pos h, attempt, if_pos (any_eq_true_iff.2 h)]
    rfl
  · rw [if_neg h, attempt, if_neg fun hany => h (any_eq_true_iff.1 hany)]
    exact List.map_append

theorem mem_keys_attempt : other ∈ (cache.attempt key).keys ↔ other ∈ cache.keys ∨ other = key := by
  rw [keys_attempt]
  split
  · next h => exact ⟨.inl, fun h' => h'.elim id fun heq => heq ▸ h⟩
  · rw [List.mem_append, List.mem_singleton]

/-- The slots of a cache stay where they are. -/
theorem slots_attempt (cache : ProgramCache) (key : ProgramKey) :
    ∃ new, (cache.attempt key).slots = cache.slots ++ new := by
  unfold attempt
  dsimp only
  split
  · exact ⟨[], (List.append_nil _).symm⟩
  · exact ⟨_, rfl⟩

/-- What has been found is found after an attempt to make something else. -/
theorem find?_attempt_of_some (h : cache.find? key = some found) (other : ProgramKey) :
    (cache.attempt other).find? key = some found := by
  obtain ⟨slot, hslot, hprograms, hhandle⟩ := find?_eq_some_iff.1 h
  obtain ⟨new, hnew⟩ := cache.slots_attempt other
  refine find?_eq_some_iff.2 ⟨slot, ?_, hprograms, hhandle⟩
  rw [hnew, List.findIdx?_append, hslot]
  rfl

/-! ### Requests -/

theorem request_of_some (h : cache.find? key = some found) :
    cache.request key = (some found, cache) := by
  unfold request
  rw [h]

theorem request_of_none (h : cache.find? key = none) :
    cache.request key = ((cache.attempt key).find? key, cache.attempt key) := by
  unfold request
  rw [h]

/-- What a request is answered is what is found after it. -/
theorem find?_request (cache : ProgramCache) (key : ProgramKey) :
    (cache.request key).2.find? key = (cache.request key).1 := by
  cases h : cache.find? key with
  | some found => rw [request_of_some h, h]
  | none => rw [request_of_none h]

/-- **The answer of a request** is what its key asks for, if it can be made. -/
theorem map_request (cache : ProgramCache) (key : ProgramKey) :
    (cache.request key).1.map (·.2) = key.compile := by
  have hmem : key ∈ (cache.request key).2.keys := by
    cases h : cache.find? key with
    | some found =>
      rw [request_of_some h]
      exact mem_keys_of_find? h
    | none =>
      rw [request_of_none h]
      exact mem_keys_attempt.2 (.inr rfl)
  rw [← cache.find?_request key]
  -- The key has a slot by now, so that only the making can have failed.
  cases h : (cache.request key).2.find? key with
  | some found =>
    obtain ⟨-, -, hprograms, -⟩ := find?_eq_some_iff.1 h
    exact hprograms.symm
  | none => exact ((find?_eq_none_iff.1 h).resolve_left (not_not.2 hmem)).symm

theorem request_eq_none_iff : (cache.request key).1 = none ↔ key.compile = none := by
  rw [← cache.map_request key, Option.map_eq_none_iff]

theorem compile_of_request (h : (cache.request key).1 = some found) :
    key.compile = some found.2 := by
  rw [← cache.map_request key, h, Option.map_some]

/-- What has been found is found after other requests. -/
theorem find?_request_of_some (h : cache.find? key = some found) (other : ProgramKey) :
    (cache.request other).2.find? key = some found := by
  cases hother : cache.find? other with
  | none =>
    rw [request_of_none hother]
    exact find?_attempt_of_some h other
  | some found' =>
    rw [request_of_some hother]
    exact h

theorem find?_requestAll_of_some (h : cache.find? key = some found) (keys : List ProgramKey) :
    (cache.requestAll keys).find? key = some found := by
  induction keys generalizing cache with
  | nil => exact h
  | cons other keys ih => exact ih (find?_request_of_some h other)

/-- **A request is answered as before**, and leaves the cache as it is. -/
theorem request_again (h : (cache.request key).1 = some found) (keys : List ProgramKey) :
    ((cache.request key).2.requestAll keys).request key =
      (some found, (cache.request key).2.requestAll keys) := by
  have hfound := h ▸ cache.find?_request key
  exact request_of_some (find?_requestAll_of_some hfound keys)

end ProgramCache

end SchemaWire
