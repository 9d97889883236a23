/-
# `HatBackup.UniquePriorityQueue.Calls` — what each call does, and when it panics

With `Inv` in hand, each call of the queue has an exact description in every reachable state:

* `popMinIfComplete_spec` — `pop_min_if_complete` looks only at the least entry, never
  panics, and on success removes that entry's priority and key and nothing else;
* `reachable_panics_iff` — `put_value`, `update_value` and `set_ready` panic exactly when
  their precondition in the spec's table fails, and the lookup through `key_to_priority` always
  lands on an entry;
* `reachable_frame` — a successful `put_value`, `update_value` or `set_ready` changes one
  value or one status and nothing else.

`put_value` and `update_value` are one lemma (`Inv.updateKeyValue_frame`) about their shared
body, instantiated twice.
-/
import HatBackup.UniquePriorityQueue.Invariant

namespace HatBackup

namespace UniquePriorityQueue

variable {P K V : Type} [LinearOrder P] [DecidableEq K]
variable {q q' : UniquePriorityQueue P K V} {p : P} {k : K}

/-! ## `pop_min_if_complete` -/

/-- `pop_min_if_complete` returns `(p, k, v)` exactly when the least entry is
`(p, (Ready(k), Some(v)))`; it then drops that entry and the key `k` and changes nothing else.
Otherwise it returns `None` and changes nothing, whatever larger entries hold. -/
theorem popMinIfComplete_spec (q : UniquePriorityQueue P K V) :
    ∃ r q', q.popMinIfComplete = .ok (r, q') ∧
      (∀ p k v, r = some (p, k, v) ↔ q.priority.entries.head? = some (p, .ready k, some v)) ∧
      (r = none → q' = q) ∧
      (∀ p k v, r = some (p, k, v) →
        q'.priority.entries = q.priority.entries.tail ∧
        q'.keyToPriority = q.keyToPriority.erase k ∧
        q'.priority.find p = none ∧ q'.findKey k = none ∧
        (∀ p', p' ≠ p → q'.priority.find p' = q.priority.find p') ∧
        (∀ k', k' ≠ k → q'.findKey k' = q.findKey k')) := by
  rw [popMinIfComplete_eq]
  obtain ⟨⟨entries, hs⟩, m⟩ := q
  rcases entries with _ | ⟨⟨p, _ | k, _ | v⟩, rest⟩ <;>
    refine ⟨_, _, rfl, ?_, ?_, ?_⟩ <;> simp
  simp only [findKey]
  refine ⟨by simpa using OrderedCollection.find_tail hs p, AList.lookup_erase _ _,
    fun p0 hp0 => ?_, fun k0 hk0 => AList.lookup_erase_ne hk0⟩
  simpa [hp0] using OrderedCollection.find_tail hs p0

/-! ## Panics -/

theorem exists_error_iff {ε α : Type} (x : Except ε α) :
    (∃ e, x = .error e) ↔ ¬ ∃ a, x = .ok a := by
  cases x <;> simp

theorem Inv.find_of_findKey (h : Inv q) (hk : q.findKey k = some p) :
    ∃ st, q.priority.find p = some (st, q.findValueOfKey k) := by
  obtain ⟨⟨st, vo⟩, hf, -⟩ := h.keyAt_of_findKey hk
  exact ⟨st, by simp [findValueOfKey, show q.keyToPriority.lookup k = some p from hk, hf]⟩

theorem Inv.updateKeyValue_ok_iff (h : Inv q) {msg : String} {g : Option V → Option V} :
    (∃ q', q.updateKeyValue k msg g = .ok q') ↔
      q.findKey k ≠ none ∧ (g (q.findValueOfKey k)).isSome := by
  simp only [updateKeyValue_eq_ok]
  constructor
  · rintro ⟨_, p, st, vo, v, hk, hf, hg, -⟩
    obtain ⟨st', hf'⟩ := h.find_of_findKey hk
    rw [hf, Option.some.injEq, Prod.mk.injEq] at hf'
    simp [hk, ← hf'.2, hg]
  · rintro ⟨hk, hg⟩
    obtain ⟨p, hp⟩ := Option.ne_none_iff_exists'.mp hk
    obtain ⟨st, hf⟩ := h.find_of_findKey hp
    obtain ⟨v, hv⟩ := Option.isSome_iff_exists.mp hg
    exact ⟨_, p, st, _, v, hp, hf, hv, rfl⟩

/-- In every reachable state: `put_value(k, v)` panics iff `k` has no entry or its entry holds a
value; `update_value(k, f)` iff `k` has no entry or its entry holds none; `set_ready(p)` iff
there is no entry at `p` or it is already `Ready`; `pop_min_if_complete` never panics; and the
priority found through `key_to_priority` always has an entry. -/
theorem reachable_panics_iff (hq : q.Reachable) :
    (∀ k v, (∃ e, q.putValue k v = .error e) ↔
      q.findKey k = none ∨ (q.findValueOfKey k).isSome) ∧
    (∀ k f, (∃ e, q.updateValue k f = .error e) ↔
      q.findKey k = none ∨ q.findValueOfKey k = none) ∧
    (∀ p, (∃ e, q.setReady p = .error e) ↔
      q.priority.find p = none ∨ ∃ k vo, q.priority.find p = some (.ready k, vo)) ∧
    (∃ r q', q.popMinIfComplete = .ok (r, q')) ∧
    (∀ k p, q.findKey k = some p → (q.priority.find p).isSome) := by
  have h := reachable_inv hq
  refine ⟨fun k v => ?_, fun k f => ?_, fun p => ?_, ?_, fun k p hk => ?_⟩
  · rw [exists_error_iff, putValue, h.updateKeyValue_ok_iff]
    cases q.findValueOfKey k <;> simp [or_iff_not_imp_left]
  · rw [exists_error_iff, updateValue, h.updateKeyValue_ok_iff]
    cases q.findValueOfKey k <;> simp [or_iff_not_imp_left]
  · rw [exists_error_iff]
    simp only [setReady_eq_ok, exists_eq_right, not_exists]
    rcases q.priority.find p with _ | ⟨_ | k, vo⟩ <;> simp
  · obtain ⟨r, q', hr, -⟩ := popMinIfComplete_spec q
    exact ⟨r, q', hr⟩
  · obtain ⟨st, hf⟩ := h.find_of_findKey hk
    simp [hf]

theorem reachable_panics_iff_two_entries :
    ∃ q : UniquePriorityQueue Nat Nat Nat, q.Reachable ∧ q.len = 2 ∧
      ((∀ k v, (∃ e, q.putValue k v = .error e) ↔
        q.findKey k = none ∨ (q.findValueOfKey k).isSome) ∧
      (∀ k f, (∃ e, q.updateValue k f = .error e) ↔
        q.findKey k = none ∨ q.findValueOfKey k = none) ∧
      (∀ p, (∃ e, q.setReady p = .error e) ↔
        q.priority.find p = none ∨ ∃ k vo, q.priority.find p = some (.ready k, vo)) ∧
      (∃ r q', q.popMinIfComplete = .ok (r, q')) ∧
      (∀ k p, q.findKey k = some p → (q.priority.find p).isSome)) :=
  let ops : List (Op Nat Nat Nat) :=
    [.reservePriority 1 10, .reservePriority 2 20, .putValue 10 5, .setReady 1]
  ⟨_, ⟨ops, _, rfl⟩, rfl, reachable_panics_iff ⟨ops, _, rfl⟩⟩

/-! ## Frames -/

/-- `q'` differs from `q` at most in the value of `k`'s entry: every status, every `find_key`,
the value of every other key and `len()` are as in `q`. -/
def OnlyValueOf (q q' : UniquePriorityQueue P K V) (k : K) : Prop :=
  (∀ p, (q'.priority.find p).map (·.1) = (q.priority.find p).map (·.1)) ∧
  (∀ k', q'.findKey k' = q.findKey k') ∧
  (∀ k', k' ≠ k → q'.findValueOfKey k' = q.findValueOfKey k') ∧
  q'.len = q.len

theorem Inv.updateKeyValue_frame (h : Inv q) {msg : String} {g : Option V → Option V}
    (hq : q.updateKeyValue k msg g = .ok q') :
    ∃ v, g (q.findValueOfKey k) = some v ∧ q'.findValueOfKey k = some v ∧ OnlyValueOf q q' k := by
  obtain ⟨p, st, vo, v, hk, hf, hg, rfl⟩ := updateKeyValue_eq_ok.mp hq
  obtain ⟨st', hf'⟩ := h.find_of_findKey hk
  rw [hf, Option.some.injEq, Prod.mk.injEq] at hf'
  have hk' : q.keyToPriority.lookup k = some p := hk
  refine ⟨v, hf'.2 ▸ hg, ?_, fun p0 => ?_, fun _ => rfl, fun k0 hk0 => ?_, ?_⟩
  · simp [findValueOfKey, hk', OrderedCollection.find_insert]
  · rw [OrderedCollection.find_insert]; split_ifs with hp
    · simp [hp, hf]
    · rfl
  · simp only [findValueOfKey]
    rcases hl : q.keyToPriority.lookup k0 with _ | p0
    · rfl
    · have hne : p0 ≠ p := fun hp => hk0 <| by
        obtain ⟨e, he, rfl⟩ := h.keyAt_of_findKey hl
        rw [hp, hf] at he
        cases he
        obtain ⟨e', he', hke'⟩ := h.keyAt_of_findKey hk
        rw [hf] at he'; cases he'; exact hke'
      simp [OrderedCollection.find_insert, hne]
  · exact OrderedCollection.len_insert (by simp [hf])

/-- In every reachable state: `put_value(k, v)` on a key whose entry holds no value stores `v`;
`update_value(k, f)` on a key whose entry holds `w` stores `f w`; each changes nothing else.
`set_ready(p)` on a `Pending(k)` entry makes it `Ready(k)` and changes nothing else. -/
theorem reachable_frame (hq : q.Reachable) :
    (∀ k v, q.findKey k ≠ none → q.findValueOfKey k = none →
      ∃ q', q.putValue k v = .ok q' ∧ q'.findValueOfKey k = some v ∧ OnlyValueOf q q' k) ∧
    (∀ k f w, q.findValueOfKey k = some w →
      ∃ q', q.updateValue k f = .ok q' ∧ q'.findValueOfKey k = some (f w) ∧
        OnlyValueOf q q' k) ∧
    (∀ p k vo, q.priority.find p = some (.pending k, vo) →
      ∃ q', q.setReady p = .ok q' ∧ q'.priority.find p = some (.ready k, vo) ∧
        (∀ p', p' ≠ p → q'.priority.find p' = q.priority.find p') ∧
        q'.keyToPriority = q.keyToPriority ∧ q'.len = q.len) := by
  have h := reachable_inv hq
  refine ⟨fun k v hk hv => ?_, fun k f w hw => ?_, fun p k vo hf => ?_⟩
  · obtain ⟨q', hq'⟩ : ∃ q', q.putValue k v = .ok q' :=
      h.updateKeyValue_ok_iff.mpr ⟨hk, by simp [hv]⟩
    obtain ⟨v', hg, hv', hframe⟩ := h.updateKeyValue_frame hq'
    rw [hv] at hg
    exact ⟨q', hq', by simpa [← hg] using hv', hframe⟩
  · have hk : q.findKey k ≠ none := fun hk => by simp [findValueOfKey, show
      q.keyToPriority.lookup k = none from hk] at hw
    obtain ⟨q', hq'⟩ : ∃ q', q.updateValue k f = .ok q' :=
      h.updateKeyValue_ok_iff.mpr ⟨hk, by simp [hw]⟩
    obtain ⟨v', hg, hv', hframe⟩ := h.updateKeyValue_frame hq'
    rw [hw] at hg
    exact ⟨q', hq', by simpa [← hg] using hv', hframe⟩
  · refine ⟨_, setReady_eq_ok.mpr ⟨k, vo, hf, rfl⟩, ?_, fun p' hp' => ?_, rfl,
      OrderedCollection.len_insert (by simp [hf])⟩
    · simp [OrderedCollection.find_insert]
    · simp [OrderedCollection.find_insert, hp']

theorem reachable_frame_two_entries :
    ∃ q : UniquePriorityQueue Nat Nat Nat, q.Reachable ∧ q.len = 2 ∧
      ((∀ k v, q.findKey k ≠ none → q.findValueOfKey k = none →
        ∃ q', q.putValue k v = .ok q' ∧ q'.findValueOfKey k = some v ∧ OnlyValueOf q q' k) ∧
      (∀ k f w, q.findValueOfKey k = some w →
        ∃ q', q.updateValue k f = .ok q' ∧ q'.findValueOfKey k = some (f w) ∧
          OnlyValueOf q q' k) ∧
      (∀ p k vo, q.priority.find p = some (.pending k, vo) →
        ∃ q', q.setReady p = .ok q' ∧ q'.priority.find p = some (.ready k, vo) ∧
          (∀ p', p' ≠ p → q'.priority.find p' = q.priority.find p') ∧
          q'.keyToPriority = q.keyToPriority ∧ q'.len = q.len)) :=
  let ops : List (Op Nat Nat Nat) :=
    [.reservePriority 1 10, .reservePriority 2 20, .putValue 10 5, .setReady 1]
  ⟨_, ⟨ops, _, rfl⟩, rfl, reachable_frame ⟨ops, _, rfl⟩⟩

end UniquePriorityQueue

end HatBackup
