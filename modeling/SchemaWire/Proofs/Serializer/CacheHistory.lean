import Mathlib.Data.Finset.Card
import SchemaWire.Proofs.Serializer.Sharing
/-!
# Histories of a cache

A cache outlives the serializers that are built with it. Between two builds there may be others, of
other schemas and under other settings, some of them failing, and programs may be asked for by their
keys. A `CacheCall` is one such call, and a history (`ProgramCache.history`) is a sequence of calls
with what they have been answered.

Everything runs off what one call does (`ProgramCache.perform_cases`). A build whose root does not
resolve is refused, and the cache is not asked for anything. Every other call asks it for one key,
and is given the programs of this key or panics, depending on the key alone. What holds of a cache at
any time follows from what one request does to it:

* the keys in the cache are those that have been asked for, each once
  (`ProgramCache.mem_keys_after`, `ProgramCache.nodup_keys_after`);
* programs have been begun once for each key that can be made, and once for each panic
  (`ProgramCache.generations_after`);
* what has been given can be found in its place (`ProgramCache.find?_of_mem_history`).

So a cache counts as it should as long as no call panics (`ProgramCache.counters_after`). A panic
leaves a key behind for which there is no program, and is counted every time
(`ProgramCache.counters_after_panics`).
-/

namespace SchemaWire

/-! ### Calls -/

/-- A call on a cache. -/
inductive CacheCall where
  | build (b : Builder) (root : TypeExpr)
  | request (key : ProgramKey)

/-- The key for which a call asks. There is none if the root of a build does not resolve. -/
def CacheCall.key? : CacheCall → Option ProgramKey
  | .build b root => b.key? root
  | .request key => some key

/-- What a call on a cache is answered. -/
inductive CacheAnswer where
  | built (x : Serializer)
  | refused (e : SchemaError)
  | given (found : ProgramHandle × ProgramFamily)
  | panicked

def CacheAnswer.isPanic : CacheAnswer → Bool
  | .panicked => true
  | _ => false

/-- A call on a cache with its answer. -/
structure CacheEvent where
  call : CacheCall
  answer : CacheAnswer

/-- The key for which a call has been given a program, with the place of the program. -/
def CacheEvent.grant? : CacheEvent → Option (ProgramKey × ProgramHandle)
  | ⟨.build b _, .built x⟩ => some (⟨x.layout, x.level, b.settings.tagEncoding⟩, x.handle)
  | ⟨.request key, .given found⟩ => some (key, found.1)
  | _ => none

/-- The key for which a call has been given a program. A build that fails has none. -/
def CacheEvent.key? (event : CacheEvent) : Option ProgramKey := event.grant?.map (·.1)

namespace ProgramCache

/-- The answer of a call, and the cache afterwards. -/
def perform (cache : ProgramCache) : CacheCall → CacheAnswer × ProgramCache
  | .build b root =>
    match b.build root cache with
    | (.ok x, cache) => (.built x, cache)
    | (.error e, cache) => (.refused e, cache)
    | (.panic, cache) => (.panicked, cache)
  | .request key =>
    match cache.request key with
    | (some found, cache) => (.given found, cache)
    | (none, cache) => (.panicked, cache)

/-- The cache after a sequence of calls. -/
def after (cache : ProgramCache) : List CacheCall → ProgramCache
  | [] => cache
  | call :: calls => (cache.perform call).2.after calls

/-- The calls of a sequence with what they are answered one after another. -/
def history (cache : ProgramCache) : List CacheCall → List CacheEvent
  | [] => []
  | call :: calls => ⟨call, (cache.perform call).1⟩ :: (cache.perform call).2.history calls

/-- The keys for which a cache has programs. -/
def made (cache : ProgramCache) : List ProgramKey := cache.keys.filter (·.compile.isSome)

variable {cache : ProgramCache} {key key' : ProgramKey} {calls : List CacheCall}

theorem after_append (cache : ProgramCache) (calls later : List CacheCall) :
    cache.after (calls ++ later) = (cache.after calls).after later := by
  induction calls generalizing cache with
  | nil => rfl
  | cons call calls ih => exact ih _

theorem history_append (cache : ProgramCache) (calls later : List CacheCall) :
    cache.history (calls ++ later) = cache.history calls ++ (cache.after calls).history later := by
  induction calls generalizing cache with
  | nil => rfl
  | cons call calls ih =>
    rw [List.cons_append, history, history, ih, List.cons_append, after]

/-! ### One call -/

/-- A build that is refused leaves the cache alone. -/
theorem perform_of_layout_eq_error {b : Builder} {root : TypeExpr} {e : SchemaError}
    (h : b.schema.layout b.settings.tagEncoding root = .error e) :
    cache.perform (.build b root) = (.refused e, cache) := by
  rw [perform, Builder.build_of_error h]

/-- A build whose root resolves asks for the program of its layout. -/
theorem perform_of_layout {b : Builder} {root : TypeExpr} {layout : Layout}
    (h : b.schema.layout b.settings.tagEncoding root = .ok layout) :
    cache.perform (.build b root) =
      let asked := cache.request ⟨layout, b.settings.level, b.settings.tagEncoding⟩
      (match asked.1 with
        | some compiled => .built (.ofLayout layout compiled b.settings)
        | none => .panicked, asked.2) := by
  rw [perform, Builder.build_of_layout h]
  dsimp only
  cases (cache.request ⟨layout, b.settings.level, b.settings.tagEncoding⟩).1 <;> rfl

/-- **What one call does.** It is refused, and leaves the cache alone; or it asks the cache for a
key, and panics if the programs of this key cannot be made, and is given them otherwise. -/
theorem perform_cases (cache : ProgramCache) (call : CacheCall) :
    (call.key? = none ∧ (∃ e, (cache.perform call).1 = .refused e) ∧
      (cache.perform call).2 = cache) ∨
    ∃ key, call.key? = some key ∧ (cache.perform call).2 = (cache.request key).2 ∧
      ((key.compile = none ∧ (cache.perform call).1 = .panicked) ∨
        ∃ found, (cache.request key).1 = some found ∧
          (cache.perform call).1 ≠ .panicked ∧
          CacheEvent.grant? ⟨call, (cache.perform call).1⟩ = some (key, found.1)) := by
  cases call with
  | request key =>
    refine .inr ⟨key, rfl, ?_⟩
    rw [perform]
    cases hrequest : cache.request key with
    | mk answer after =>
      cases answer with
      | none => exact ⟨rfl, .inl ⟨request_eq_none_iff.1 (congrArg Prod.fst hrequest), rfl⟩⟩
      | some found => exact ⟨rfl, .inr ⟨found, rfl, nofun, rfl⟩⟩
  -- A build asks for the key of its layout, so it comes down to a request unless the root does not
  -- resolve.
  | build b root =>
    cases hlayout : b.schema.layout b.settings.tagEncoding root with
    | error e =>
      rw [perform_of_layout_eq_error hlayout]
      refine .inl ⟨?_, ⟨e, rfl⟩, rfl⟩
      rw [CacheCall.key?, Builder.key?, hlayout]
      rfl
    | ok a =>
      refine .inr ⟨⟨a, b.settings.level, b.settings.tagEncoding⟩, ?_, ?_⟩
      · rw [CacheCall.key?, Builder.key?, hlayout]
        rfl
      · rw [perform_of_layout hlayout]
        refine ⟨rfl, ?_⟩
        dsimp only
        cases hanswer : (cache.request ⟨a, b.settings.level, b.settings.tagEncoding⟩).1 with
        | none => exact .inl ⟨request_eq_none_iff.1 hanswer, rfl⟩
        | some found => exact .inr ⟨found, rfl, nofun, rfl⟩

theorem perform_of_key?_eq_none {call : CacheCall} (h : call.key? = none) :
    (∃ e, (cache.perform call).1 = .refused e) ∧ (cache.perform call).2 = cache := by
  obtain ⟨-, hanswer⟩ | ⟨key, hkey, -⟩ := cache.perform_cases call
  · exact hanswer
  · cases h.symm.trans hkey

theorem perform_snd_of_key?_eq_some {call : CacheCall} (h : call.key? = some key) :
    (cache.perform call).2 = (cache.request key).2 := by
  obtain ⟨hnone, -⟩ | ⟨key', hkey, hcache, -⟩ := cache.perform_cases call
  · cases h.symm.trans hnone
  · cases h.symm.trans hkey
    exact hcache

/-- **A call panics** exactly if it asks for a key whose programs cannot be made. -/
theorem perform_eq_panicked_iff {call : CacheCall} : (cache.perform call).1 = .panicked ↔
    ∃ key, call.key? = some key ∧ key.compile = none := by
  -- Refused, panicked and granted exclude one another.
  obtain ⟨hnone, ⟨e, hanswer⟩, -⟩ | ⟨key, hkey, -, ⟨hmade, hanswer⟩ | ⟨found, hfound, hanswer, -⟩⟩ :=
    cache.perform_cases call
  · exact iff_of_false (hanswer ▸ nofun) fun ⟨key, hkey, _⟩ => nomatch hnone.symm.trans hkey
  · exact iff_of_true hanswer ⟨key, hkey, hmade⟩
  · refine iff_of_false hanswer fun ⟨key', hkey', hmade⟩ => ?_
    cases hkey.symm.trans hkey'
    cases hmade.symm.trans (compile_of_request hfound)

/-- A call is given a program exactly if it asks for a key whose programs can be made. -/
theorem key?_perform_eq_some_iff {call : CacheCall} :
    CacheEvent.key? ⟨call, (cache.perform call).1⟩ = some key ↔
      call.key? = some key ∧ key.compile.isSome = true := by
  rw [CacheEvent.key?]
  obtain ⟨hnone, ⟨e, hanswer⟩, -⟩ | ⟨other, hkey, -, ⟨hmade, hanswer⟩ | ⟨found, hfound, -, hgrant⟩⟩ :=
    cache.perform_cases call
  · -- Refused: neither side has a key.
    rw [hanswer, hnone]
    exact iff_of_false (by cases call <;> exact nofun) (fun h => nomatch h.1)
  · -- Panicked: the call asks for a key, but that key cannot be made.
    rw [hanswer, hkey]
    refine iff_of_false (by cases call <;> exact nofun) ?_
    rintro ⟨⟨⟩, hsome⟩
    rw [hmade] at hsome
    cases hsome
  · -- Given: what is given is in the cache, so it has been made.
    rw [hgrant, hkey]
    refine ⟨?_, fun h => h.1⟩
    rintro ⟨⟩
    exact ⟨rfl, Option.isSome_iff_exists.2 ⟨_, compile_of_request hfound⟩⟩

/-! ### One request -/

theorem keys_request (cache : ProgramCache) (key : ProgramKey) :
    (cache.request key).2.keys = if key ∈ cache.keys then cache.keys else cache.keys ++ [key] := by
  cases hfound : cache.find? key with
  | none =>
    rw [request_of_none hfound]
    exact cache.keys_attempt key
  | some found => rw [request_of_some hfound, if_pos (mem_keys_of_find? hfound)]

theorem mem_keys_request : key' ∈ (cache.request key).2.keys ↔ key' ∈ cache.keys ∨ key' = key := by
  rw [keys_request]
  split
  · next h => exact ⟨.inl, fun h' => h'.elim id fun heq => heq ▸ h⟩
  · rw [List.mem_append, List.mem_singleton]

theorem nodup_keys_request (h : cache.keys.Nodup) (key : ProgramKey) :
    (cache.request key).2.keys.Nodup := by
  rw [keys_request]
  split
  · exact h
  · next hnew => exact h.append (List.nodup_singleton key) (List.disjoint_singleton.2 hnew)

/-- **What one request counts**: a key for which there are programs from now on, or a panic. -/
theorem generations_request (cache : ProgramCache) (key : ProgramKey) :
    (cache.request key).2.generations + cache.made.length =
      cache.generations + (cache.request key).2.made.length +
        if key.compile = none then 1 else 0 := by
  cases hfound : cache.find? key with
  | some found =>
    obtain ⟨-, -, hmade, -⟩ := find?_eq_some_iff.1 hfound
    rw [request_of_some hfound, if_neg (by rw [hmade]; exact nofun), Nat.add_zero]
  | none =>
    have hkeys := cache.keys_attempt key
    have hgenerations : (cache.attempt key).generations = cache.generations + 1 := rfl
    rw [request_of_none hfound, hgenerations, made, made, hkeys]
    by_cases hmade : key.compile = none
    · -- The key may be new, but there is no program for it.
      have hsame : (if key ∈ cache.keys then cache.keys else cache.keys ++ [key]).filter
          (·.compile.isSome) = cache.keys.filter (·.compile.isSome) := by
        split
        · rfl
        · rw [List.filter_append, List.filter_cons_of_neg (by simp [hmade]), List.filter_nil,
            List.append_nil]
      rw [hsame, if_pos hmade]
      omega
    · -- A key that is not found although its programs can be made is new.
      have hnew := (find?_eq_none_iff.1 hfound).resolve_right hmade
      have hadded : [key].filter (·.compile.isSome) = [key] := by
        rw [List.filter_singleton, Option.isSome_iff_ne_none.2 hmade, cond_true]
      rw [if_neg hnew, if_neg hmade, List.filter_append, hadded, List.length_append,
        List.length_singleton]
      omega

/-- In one place there is one key. -/
theorem key_eq_of_find? {found found' : ProgramHandle × ProgramFamily}
    (h : cache.find? key = some found) (h' : cache.find? key' = some found')
    (hplace : found.1 = found'.1) : key = key' := by
  obtain ⟨slot, hslot, -, hhandle⟩ := find?_eq_some_iff.1 h
  obtain ⟨slot', hslot', -, hhandle'⟩ := find?_eq_some_iff.1 h'
  obtain ⟨hlt, hkey, -⟩ := List.findIdx?_eq_some_iff_getElem.1 hslot
  obtain ⟨hlt', hkey', -⟩ := List.findIdx?_eq_some_iff_getElem.1 hslot'
  -- Both slots are the same place, and one place holds one key.
  obtain rfl : slot = slot' := by
    have := hhandle.symm.trans (hplace.trans hhandle')
    cases this
    rfl
  exact (of_decide_eq_true hkey).symm.trans (of_decide_eq_true hkey')

/-! ### Runs -/

/-- **Every key has one slot.** -/
theorem nodup_keys_after (h : cache.keys.Nodup) (calls : List CacheCall) :
    (cache.after calls).keys.Nodup := by
  induction calls generalizing cache with
  | nil => exact h
  | cons call calls ih =>
    -- A refused call leaves the cache alone, and any other is a request.
    refine ih ?_
    cases hkey : call.key? with
    | none => rwa [(perform_of_key?_eq_none hkey).2]
    | some key =>
      rw [perform_snd_of_key?_eq_some hkey]
      exact nodup_keys_request h key

/-- **What is found stays where it is.** -/
theorem find?_after_of_some {found : ProgramHandle × ProgramFamily}
    (h : cache.find? key = some found) (calls : List CacheCall) :
    (cache.after calls).find? key = some found := by
  induction calls generalizing cache with
  | nil => exact h
  | cons call calls ih =>
    -- What has been found stays where it is under a request.
    refine ih ?_
    cases hkey : call.key? with
    | none => rwa [(perform_of_key?_eq_none hkey).2]
    | some other =>
      rw [perform_snd_of_key?_eq_some hkey]
      exact find?_request_of_some h other

/-- **The keys of a cache** are those that it has been asked for. -/
theorem mem_keys_after : key ∈ (cache.after calls).keys ↔
    key ∈ cache.keys ∨ key ∈ calls.filterMap CacheCall.key? := by
  induction calls generalizing cache with
  | nil => simp [after]
  | cons call calls ih =>
    -- The first call adds the key that it asks for, if there is one.
    refine Iff.trans ih ?_
    rw [List.filterMap_cons]
    cases hkey : call.key? with
    | none => rw [(perform_of_key?_eq_none hkey).2]
    | some other =>
      rw [perform_snd_of_key?_eq_some hkey, mem_keys_request, List.mem_cons, or_assoc]

/-- The calls that have been given programs are those that asked for keys whose programs can be
made. -/
theorem mem_granted_iff : key ∈ (cache.history calls).filterMap CacheEvent.key? ↔
    key ∈ calls.filterMap CacheCall.key? ∧ key.compile.isSome = true := by
  induction calls generalizing cache with
  | nil => simp [history]
  | cons call calls ih =>
    -- The list of events is that of the calls, so both are compared call by call.
    have hcall : CacheEvent.key? ⟨call, (cache.perform call).1⟩ = some key ↔
        call.key? = some key ∧ key.compile.isSome = true := key?_perform_eq_some_iff
    have hlater : key ∈ ((cache.perform call).2.history calls).filterMap CacheEvent.key? ↔ _ := ih
    simp only [List.mem_filterMap] at hlater ⊢
    rw [history, List.exists_mem_cons_iff, List.exists_mem_cons_iff, hcall, hlater, or_and_right]

/-- **How often making programs has been begun**: once for each key for which there are programs, and
once for each panic. By induction on the calls, starting from any cache. -/
theorem generations_after (cache : ProgramCache) (calls : List CacheCall) :
    (cache.after calls).generations + cache.made.length =
      cache.generations + (cache.after calls).made.length +
        (cache.history calls).countP (·.answer.isPanic) := by
  -- By induction on the calls: each of them adds the same to both sides, or it panics and the
  -- generations alone grow.
  induction calls generalizing cache with
  | nil => rfl
  | cons call calls ih =>
    have hlater := ih (cache.perform call).2
    rw [after, history, List.countP_cons]
    obtain ⟨-, ⟨e, hanswer⟩, hcache⟩ | ⟨key, -, hcache, hpanic⟩ := cache.perform_cases call
    · rw [hcache] at hlater ⊢
      rw [hanswer]
      exact hlater
    · have hstep := cache.generations_request key
      rw [← hcache] at hstep
      obtain ⟨hmade, hanswer⟩ | ⟨found, hfound, hanswer, -⟩ := hpanic
      · -- The panic: one more generation, no more programs that are there.
        rw [if_pos hmade] at hstep
        rw [hanswer, if_pos (show CacheAnswer.panicked.isPanic = true from rfl)]
        omega
      · -- The programs can be made, so they are begun once and stay: both counts grow by one or
        -- neither does.
        rw [if_neg (by rw [compile_of_request hfound]; exact nofun)] at hstep
        have hno : (cache.perform call).1.isPanic = false := by
          generalize (cache.perform call).1 = answer at hanswer
          cases answer with
          | panicked => exact absurd rfl hanswer
          | _ => rfl
        simp only [hno, Bool.false_eq_true, if_false]
        omega

/-- **What has been given can be found** in the cache, in the place where it was then. -/
theorem find?_of_mem_history {event : CacheEvent} {handle : ProgramHandle}
    (hevent : event ∈ cache.history calls) (hgrant : event.grant? = some (key, handle)) :
    ∃ programs, (cache.after calls).find? key = some (handle, programs) := by
  induction calls generalizing cache with
  | nil => cases hevent
  | cons call calls ih =>
    rcases List.mem_cons.1 hevent with rfl | hlater
    · obtain ⟨-, ⟨e, hanswer⟩, -⟩ | ⟨other, -, hcache, ⟨-, hanswer⟩ | ⟨found, hfound, -, hother⟩⟩ :=
        cache.perform_cases call
      · rw [hanswer] at hgrant
        cases call <;> cases hgrant
      · rw [hanswer] at hgrant
        cases call <;> cases hgrant
      · cases hother.symm.trans hgrant
        -- The key has just been asked for, and is found from then on.
        have hthen := find?_after_of_some ((cache.find?_request key).trans hfound) calls
        rw [← hcache] at hthen
        exact ⟨_, hthen⟩
    · exact ih hlater

/-- **Programs are shared by their keys**, whatever comes between. -/
theorem handle_eq_iff_key_eq {event event' : CacheEvent} {handle handle' : ProgramHandle}
    (hevent : event ∈ cache.history calls) (hevent' : event' ∈ cache.history calls)
    (hgrant : event.grant? = some (key, handle)) (hgrant' : event'.grant? = some (key', handle')) :
    handle = handle' ↔ key = key' := by
  obtain ⟨programs, hfound⟩ := find?_of_mem_history hevent hgrant
  obtain ⟨programs', hfound'⟩ := find?_of_mem_history hevent' hgrant'
  constructor
  · -- A place holds one key,
    intro hplace
    exact key_eq_of_find? hfound hfound' hplace
  · -- and a key has one place.
    rintro rfl
    cases hfound.symm.trans hfound'
    rfl

/-- The number of different members of a list is the length of every list that has the same members,
each once. -/
theorem length_eq_card {α : Type} [DecidableEq α] {xs ys : List α} (hxs : xs.Nodup)
    (h : ∀ x, x ∈ xs ↔ x ∈ ys) : xs.length = ys.toFinset.card := by
  have hsame : xs.toFinset = ys.toFinset := by
    ext x
    rw [List.mem_toFinset, List.mem_toFinset, h]
  rw [← hsame, List.toFinset_card_of_nodup hxs]

/-- The number of keys is that of the different keys that have been asked for. -/
theorem size_after_new (number : Nat) (calls : List CacheCall) :
    (({ number } : ProgramCache).after calls).size =
      (calls.filterMap CacheCall.key?).toFinset.card := by
  have hnew : ({ number } : ProgramCache).keys.Nodup := List.nodup_nil
  have hnodup := nodup_keys_after hnew calls
  have hlength := length_eq_card hnodup fun key =>
    mem_keys_after.trans (or_iff_right List.not_mem_nil)
  rwa [keys, List.length_map] at hlength

/-- Making programs has been begun once for each different key that has been given, and once for each
panic. -/
theorem generations_after_new (number : Nat) (calls : List CacheCall) :
    (({ number } : ProgramCache).after calls).generations =
      ((({ number } : ProgramCache).history calls).filterMap CacheEvent.key?).toFinset.card +
        (({ number } : ProgramCache).history calls).countP (·.answer.isPanic) := by
  have hnew : ({ number } : ProgramCache).keys.Nodup := List.nodup_nil
  have hnodup := nodup_keys_after hnew calls
  -- Made and in the cache is the same as granted at some time, and no key is there twice.
  have hmade : (({ number } : ProgramCache).after calls).made.length =
      ((({ number } : ProgramCache).history calls).filterMap CacheEvent.key?).toFinset.card := by
    refine length_eq_card (hnodup.filter _) fun key => ?_
    rw [made, List.mem_filter, mem_keys_after, mem_granted_iff]
    exact and_congr_left' (or_iff_right List.not_mem_nil)
  have hcount := generations_after { number } calls
  rw [hmade, show ({ number } : ProgramCache).made.length = 0 from rfl, Nat.add_zero,
    show ({ number } : ProgramCache).generations = 0 from rfl, Nat.zero_add] at hcount
  exact hcount

/-- Without a panic, all keys that have been asked for have been given. -/
theorem requested_eq_granted (h : ∀ event ∈ cache.history calls, event.answer ≠ .panicked) :
    (calls.filterMap CacheCall.key?).toFinset =
      ((cache.history calls).filterMap CacheEvent.key?).toFinset := by
  ext key
  rw [List.mem_toFinset, List.mem_toFinset, mem_granted_iff]
  refine (and_iff_left_of_imp fun hkey => ?_).symm
  rw [Option.isSome_iff_ne_none]
  intro hmade
  obtain ⟨call, hcall, hcallKey⟩ := List.mem_filterMap.1 hkey
  obtain ⟨before, later, rfl⟩ := List.append_of_mem hcall
  -- The call that asked for the key would have panicked, whatever the cache held by then.
  have hevent : ⟨call, ((cache.after before).perform call).1⟩ ∈
      cache.history (before ++ call :: later) := by
    rw [history_append, history]
    exact List.mem_append_right _ List.mem_cons_self
  exact h _ hevent (perform_eq_panicked_iff.2 ⟨key, hcallKey, hmade⟩)

theorem countP_isPanic_eq_zero (h : ∀ event ∈ cache.history calls, event.answer ≠ .panicked) :
    (cache.history calls).countP (·.answer.isPanic) = 0 := by
  refine List.countP_eq_zero.2 fun event hevent hpanic => h event hevent ?_
  cases hanswer : event.answer with
  | panicked => rfl
  | _ =>
    rw [hanswer] at hpanic
    cases hpanic

/-- A build that is refused might as well not have been tried. -/
theorem after_and_history_of_build_eq_error {b : Builder} {root : TypeExpr} {e : SchemaError}
    {before : List CacheCall} (h : (b.build root (cache.after before)).1 = .error e)
    (later : List CacheCall) :
    cache.after (before ++ .build b root :: later) = cache.after (before ++ later) ∧
      cache.history (before ++ later) =
        cache.history before ++ (cache.after before).history later ∧
      cache.history (before ++ .build b root :: later) =
        cache.history before ++
          ⟨.build b root, .refused e⟩ :: (cache.after before).history later := by
  have hperform : (cache.after before).perform (.build b root) = (.refused e, cache.after before) :=
    perform_of_layout_eq_error (Builder.build_eq_error_iff.1 h)
  refine ⟨?_, history_append _ _ _, ?_⟩
  · rw [after_append, after_append, after, hperform]
  · rw [history_append, history, hperform]

theorem answer_of_mem_history {event : CacheEvent} (h : event ∈ cache.history calls) :
    ∃ cache' : ProgramCache, event.answer = (cache'.perform event.call).1 := by
  induction calls generalizing cache with
  | nil => cases h
  | cons call calls ih =>
    rcases List.mem_cons.1 h with rfl | hlater
    · exact ⟨cache, rfl⟩
    · exact ih hlater

/-- **A cache over all of its history.** Whatever has been built with a new cache or asked of it, of
any schemas and under any settings:

* there are as many keys in it as different ones have been asked for, by builds whose roots resolve
  and by requests;
* making programs has been begun once for each key that has been given, and once more for each call
  that has panicked;
* so if no call has panicked, programs have been made as many times as there are keys in it, and
  these are the different keys of the builds that have succeeded and of the requests;
* a call panics exactly if the programs of its key cannot be made, whatever came before;
* two serializers share their program exactly if they have the same tree, at the same level, with
  tags encoded alike;
* a build that is refused leaves no trace: the cache and all answers before and after are as they
  would be without it. -/
theorem counters_after (number : Nat) (calls : List CacheCall) :
    let new : ProgramCache := { number }
    (new.after calls).size = (calls.filterMap CacheCall.key?).toFinset.card ∧
    (new.after calls).generations =
      ((new.history calls).filterMap CacheEvent.key?).toFinset.card +
        (new.history calls).countP (·.answer.isPanic) ∧
    ((∀ event ∈ new.history calls, event.answer ≠ .panicked) →
      (new.after calls).generations = (new.after calls).size ∧
      (new.after calls).size =
        ((new.history calls).filterMap CacheEvent.key?).toFinset.card) ∧
    (∀ event ∈ new.history calls, event.answer = .panicked ↔
      ∃ key, event.call.key? = some key ∧ key.compile = none) ∧
    (∀ b root x b' root' y, ⟨.build b root, .built x⟩ ∈ new.history calls →
      ⟨.build b' root', .built y⟩ ∈ new.history calls →
        (x.sharesProgramWith y ↔ x.layout = y.layout ∧ x.level = y.level ∧
          b.settings.tagEncoding = b'.settings.tagEncoding)) ∧
    ∀ before b root later e, calls = before ++ .build b root :: later →
      (b.build root (new.after before)).1 = .error e →
        new.after calls = new.after (before ++ later) ∧
        new.history (before ++ later) =
          new.history before ++ (new.after before).history later ∧
        new.history calls = new.history before ++
          ⟨.build b root, .refused e⟩ :: (new.after before).history later := by
  intro new
  -- What a call answers is decided by its key, whatever the cache holds by then.
  have hanswers : ∀ event ∈ new.history calls, event.answer = .panicked ↔
      ∃ key, event.call.key? = some key ∧ key.compile = none := by
    intro event hevent
    obtain ⟨cache, hanswer⟩ := answer_of_mem_history hevent
    rw [hanswer, perform_eq_panicked_iff]
  refine ⟨size_after_new number calls, generations_after_new number calls, fun hnone => ?_, hanswers,
    ?_, ?_⟩
  · have hgenerations := generations_after_new number calls
    have hsize := size_after_new number calls
    rw [countP_isPanic_eq_zero hnone, Nat.add_zero] at hgenerations
    rw [requested_eq_granted hnone] at hsize
    exact ⟨hgenerations.trans hsize.symm, hsize⟩
  · intro b root x b' root' y hx hy
    have hshares := handle_eq_iff_key_eq hx hy rfl rfl
    rw [ProgramKey.mk.injEq] at hshares
    exact decide_eq_true_iff.trans hshares
  · rintro before b root later e rfl hrefused
    exact after_and_history_of_build_eq_error hrefused later

/-- Chains are built at the standard level, after a failure at another one, and at the standard
level again with other versions: the first and the last serializer share their program, and the
failure does not show. -/
theorem counters_after_chain :
    let new : ProgramCache := { number := 0 }
    let chain (settings : Settings) : CacheCall := .build ⟨Chain.schema, settings⟩ (.record "Chain")
    let dated : Settings := { encodeVersion := some 0, versionHeader := true }
    let calls := [chain {}, .build {} (.record "Chain"), chain { level := .level1 }, chain dated]
    (∀ event ∈ new.history calls, event.answer ≠ .panicked) ∧
    (new.after calls).generations = 2 ∧ (new.after calls).size = 2 ∧
    (∃ x y, ⟨chain {}, .built x⟩ ∈ new.history calls ∧ ⟨chain dated, .built y⟩ ∈ new.history calls ∧
      x.sharesProgramWith y) ∧
    new.after calls = new.after [chain {}, chain { level := .level1 }, chain dated] := by
  intro new chain dated calls
  have hchain (settings : Settings) (cache : ProgramCache) :=
    @perform_of_layout cache ⟨Chain.schema, settings⟩ (.record "Chain") _ (Chain.layout_schema _)
  -- Nothing has been declared to the second builder.
  have hrefused : ({} : Builder).schema.layout .u8 (.record "Chain") =
      .error (.unresolvable "record Chain" "root") := rfl
  have hhistory : ∃ x y z e, new.history calls =
        [⟨chain {}, .built x⟩, ⟨.build {} (.record "Chain"), .refused e⟩,
          ⟨chain { level := .level1 }, .built z⟩, ⟨chain dated, .built y⟩] ∧
      x.layout = y.layout ∧ x.level = y.level := by
    simp only [calls, chain, history, hchain, perform_of_layout_eq_error hrefused]
    exact ⟨_, _, _, _, rfl, rfl, rfl⟩
  obtain ⟨x, y, z, e, hhistory, hlayout, hlevel⟩ := hhistory
  have hcalm : ∀ event ∈ new.history calls, event.answer ≠ .panicked := by
    rw [hhistory]
    simp
  obtain ⟨-, -, hequal, -, hshares, htraceless⟩ := counters_after 0 calls
  have hcount : (new.after calls).generations = 2 := by
    simp only [calls, chain, after, hchain, perform_of_layout_eq_error hrefused]
    decide +kernel
  have hsize := (hequal hcalm).1
  refine ⟨hcalm, hcount, hsize ▸ hcount, ?_, ?_⟩
  · -- The two builds ask for one key.
    have hx : ⟨chain {}, .built x⟩ ∈ new.history calls := by simp [hhistory]
    have hy : ⟨chain dated, .built y⟩ ∈ new.history calls := by simp [hhistory]
    exact ⟨x, y, hx, hy, (hshares _ _ x _ _ y hx hy).2 ⟨hlayout, hlevel, rfl⟩⟩
  · have hwithout := htraceless [chain {}] {} (.record "Chain")
      [chain { level := .level1 }, chain dated] _ rfl (Builder.build_eq_error_iff.2 hrefused)
    exact hwithout.1

/-- Two builds of a list of towers that are too high panic both. The cache has counted two programs
and keeps one key, and no program has been given to anyone. -/
theorem counters_after_panics :
    let new : ProgramCache := { number := 0 }
    let tower : CacheCall := .build { schema := Tower.schema 16 16 } (Tower.root 16)
    ((new.after [tower, tower]).generations = 2 ∧ (new.after [tower, tower]).size = 1 ∧
      ((new.history [tower, tower]).filterMap CacheEvent.key?).toFinset.card = 0) ∧
    ¬∀ (number : Nat) (calls : List CacheCall),
      let new : ProgramCache := { number }
      (new.after calls).generations = (new.after calls).size ∧
        (new.after calls).size =
          ((new.history calls).filterMap CacheEvent.key?).toFinset.card := by
  intro new tower
  obtain ⟨a, hlayout⟩ := Tower.exists_layout 16 16 TagEncoding.standard
  -- A tower of 16 records above one of a byte cannot be measured, so its programs cannot be made.
  have hmade : ProgramKey.compile ⟨a, .standard, .standard⟩ = none := by
    refine (ProgramFamily.compile_eq_none_iff (Schema.spelledFirst_of_layout hlayout)).2 ?_
    rw [Tower.sizesFit_iff (by decide) (Schema.resolves_of_layout hlayout)]
    decide
  have hkey : tower.key? = some ⟨a, .standard, .standard⟩ := by
    change (Builder.key? _ _) = _
    rw [Builder.key?]
    simp only [hlayout]
    rfl
  -- This holds whatever the cache has been asked before, so the second build panics as well.
  have hpanic (cache : ProgramCache) : (cache.perform tower).1 = .panicked :=
    perform_eq_panicked_iff.2 ⟨_, hkey, hmade⟩
  have hhistory : new.history [tower, tower] = [⟨tower, .panicked⟩, ⟨tower, .panicked⟩] := by
    rw [history, history, history, hpanic, hpanic]
  have hgranted : (new.history [tower, tower]).filterMap CacheEvent.key? = [] := by
    rw [hhistory]
    rfl
  have hgenerations : (new.after [tower, tower]).generations = 2 := by
    have hcount := generations_after_new 0 [tower, tower]
    rw [hgranted, hhistory] at hcount
    exact hcount
  have hsize : (new.after [tower, tower]).size = 1 := by
    refine (size_after_new 0 [tower, tower]).trans ?_
    simp [hkey]
  refine ⟨⟨hgenerations, hsize, by rw [hgranted]; rfl⟩, fun hclaim => ?_⟩
  have hequal := (hclaim 0 [tower, tower]).1
  rw [hgenerations, hsize] at hequal
  cases hequal

end ProgramCache

end SchemaWire
