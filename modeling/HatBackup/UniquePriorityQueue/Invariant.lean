/-
# `HatBackup.UniquePriorityQueue.Invariant` — the two maps stay inverse

`key_to_priority` is meant to invert `priority`: `k ↦ p` exactly when the entry at `p` carries
`k` (`Inv`).  Nothing in `unique_priority_queue.rs` checks this; `put_value` and
`update_value` look a priority up through `key_to_priority` and then trust that `priority` has
an entry there.  Every call keeps `Inv` (`inv_step`), so every reachable state has it
(`reachable_inv`).

The module first gives one specification lemma per call (`reservePriority_of_free`,
`updateKeyValue_eq_ok`, `setReady_eq_ok`, `popMinIfComplete_eq`), so that nothing after it
unfolds a call.
-/
import HatBackup.UniquePriorityQueue.Basic

namespace HatBackup

namespace UniquePriorityQueue

variable {P K V : Type} [LinearOrder P] [DecidableEq K]
variable {q q' : UniquePriorityQueue P K V} {p : P} {k : K}

/-! ## One specification lemma per call -/

theorem reservePriority_of_taken
    (h : (q.priority.find p).isSome ∨ (q.findKey k).isSome) :
    q.reservePriority p k = (.error (), q) := by
  simp [reservePriority, findKey] at h ⊢; exact fun h1 h2 => by simp_all

theorem reservePriority_of_free (hp : q.priority.find p = none) (hk : q.findKey k = none) :
    q.reservePriority p k =
      (.ok (), ⟨q.priority.insert p (.pending k, none), q.keyToPriority.insert k p⟩) := by
  simp only [findKey] at hk
  simp [reservePriority, hp, hk]

theorem updateKeyValue_eq_ok {msg : String} {g : Option V → Option V} :
    q.updateKeyValue k msg g = .ok q' ↔
      ∃ p st vo v, q.findKey k = some p ∧ q.priority.find p = some (st, vo) ∧ g vo = some v ∧
        ⟨q.priority.insert p (st, some v), q.keyToPriority⟩ = q' := by
  unfold updateKeyValue findKey
  rcases q.keyToPriority.lookup k with _ | p
  · simp [bind, Except.bind]
  · rcases hf : q.priority.find p with _ | ⟨st, vo⟩
    · simp [hf, bind, Except.bind, OrderedCollection.updateValue, throw, throwThe,
        MonadExceptOf.throw, Except.map]
    · rcases hg : g vo with _ | v <;>
        simp [hf, hg, bind, Except.bind, OrderedCollection.updateValue, Except.map, pure,
          Except.pure, and_assoc]

omit [DecidableEq K] in
theorem setReady_eq_ok :
    q.setReady p = .ok q' ↔
      ∃ k vo, q.priority.find p = some (.pending k, vo) ∧
        ⟨q.priority.insert p (.ready k, vo), q.keyToPriority⟩ = q' := by
  unfold setReady
  rcases hf : q.priority.find p with _ | ⟨_ | k, vo⟩ <;>
    simp [hf, bind, Except.bind, OrderedCollection.updateValue, throw, throwThe,
      MonadExceptOf.throw, Except.map, pure, Except.pure, and_assoc]

theorem popMinIfComplete_eq (q : UniquePriorityQueue P K V) :
    q.popMinIfComplete =
      match q.priority.entries with
      | (p, (.ready k, some v)) :: _ =>
          .ok (some (p, k, v), ⟨⟨q.priority.entries.tail, q.priority.sorted.tail⟩,
            q.keyToPriority.erase k⟩)
      | _ => .ok (none, q) := by
  obtain ⟨⟨entries, h⟩, ktp⟩ := q
  cases entries with
  | nil => rfl
  | cons e rest =>
    obtain ⟨p, st, vo⟩ := e
    cases st <;> cases vo <;> rfl

/-! ## The invariant -/

def keyAt (q : UniquePriorityQueue P K V) (p : P) : Option K := (q.priority.find p).map (·.1.key)

/-- `key_to_priority` inverts `priority`: `k ↦ p` exactly when the entry at `p` carries `k`. -/
def Inv (q : UniquePriorityQueue P K V) : Prop :=
  ∀ k p, q.findKey k = some p ↔ q.keyAt p = some k

omit [DecidableEq K] in
theorem keyAt_insert (m : AList fun _ : K => P) (a : Status K × Option V) (p0 : P) :
    keyAt ⟨q.priority.insert p a, m⟩ p0 = if p0 = p then some a.1.key else q.keyAt p0 := by
  simp only [keyAt, OrderedCollection.find_insert]; split_ifs <;> rfl

theorem findKey_insert (a : Status K × Option V) (k0 : K) :
    findKey ⟨q.priority.insert p a, q.keyToPriority.insert k p⟩ k0 =
      if k0 = k then some p else q.findKey k0 := by
  unfold findKey; split_ifs with h
  · subst h; exact AList.lookup_insert _
  · exact AList.lookup_insert_ne h

theorem inv_new : Inv (new : UniquePriorityQueue P K V) := by
  intro k p; simp [findKey, keyAt, new, AList.lookup_empty]

theorem Inv.of_keys (h : Inv q) (hm : q'.keyToPriority = q.keyToPriority)
    (hk : ∀ p, q'.keyAt p = q.keyAt p) : Inv q' := by
  intro k p; rw [findKey, hm, hk]; exact h k p

theorem Inv.keyAt_of_findKey (h : Inv q) (hk : q.findKey k = some p) :
    ∃ e, q.priority.find p = some e ∧ e.1.key = k :=
  Option.map_eq_some'.mp ((h k p).mp hk)

theorem Inv.findKey_of_find (h : Inv q) {e : Status K × Option V}
    (hf : q.priority.find p = some e) : q.findKey e.1.key = some p :=
  (h _ p).mpr (by simp [keyAt, hf])

theorem inv_reservePriority (h : Inv q) : Inv (q.reservePriority p k).2 := by
  by_cases hfree : q.priority.find p = none ∧ q.findKey k = none
  · rw [reservePriority_of_free hfree.1 hfree.2]
    intro k0 p0
    rw [findKey_insert, keyAt_insert]
    by_cases hk : k0 = k <;> by_cases hp : p0 = p <;> simp only [hk, hp, if_true, if_false]
    · simp
    · simp only [Option.some.injEq, Ne.symm hp, false_iff]
      rw [← h, hfree.2]; simp
    · rw [h, keyAt, hfree.1]; simp [Ne.symm hk]
    · exact h k0 p0
  · rw [reservePriority_of_taken ((not_and_or.mp hfree).imp Option.ne_none_iff_isSome.mp
      Option.ne_none_iff_isSome.mp)]
    exact h

theorem inv_updateKeyValue (h : Inv q) {msg : String} {g : Option V → Option V}
    (hq : q.updateKeyValue k msg g = .ok q') : Inv q' := by
  obtain ⟨p, st, vo, v, -, hf, -, rfl⟩ := updateKeyValue_eq_ok.mp hq
  refine h.of_keys rfl fun p0 => ?_
  rw [keyAt_insert]; split_ifs with hp
  · simp [keyAt, hp, hf]
  · rfl

theorem inv_setReady (h : Inv q) (hq : q.setReady p = .ok q') : Inv q' := by
  obtain ⟨k, vo, hf, rfl⟩ := setReady_eq_ok.mp hq
  refine h.of_keys rfl fun p0 => ?_
  rw [keyAt_insert]; split_ifs with hp
  · simp [keyAt, hp, hf]
  · rfl

theorem inv_popMinIfComplete (h : Inv q) {r : Option (P × K × V)}
    (hq : q.popMinIfComplete = .ok (r, q')) : Inv q' := by
  obtain ⟨⟨entries, hs⟩, m⟩ := q
  rw [popMinIfComplete_eq] at hq
  rcases entries with _ | ⟨⟨p, _ | k, _ | v⟩, rest⟩ <;> simp only [Except.ok.injEq,
    Prod.mk.injEq] at hq <;> obtain ⟨-, rfl⟩ := hq <;> try exact h
  have hpk : keyAt ⟨⟨(p, .ready k, some v) :: rest, hs⟩, m⟩ p = some k := by
    simp [keyAt, OrderedCollection.find, lookup_cons_eq_ite]
  intro k0 p0
  have hkey : keyAt ⟨⟨rest, hs.tail⟩, m.erase k⟩ p0 =
      if p0 = p then none else keyAt ⟨⟨(p, .ready k, some v) :: rest, hs⟩, m⟩ p0 := by
    simp only [keyAt, List.tail_cons, OrderedCollection.find_tail hs]; split_ifs <;> rfl
  have hfind : findKey ⟨⟨rest, hs.tail⟩, m.erase k⟩ k0 =
      if k0 = k then none else findKey ⟨⟨(p, .ready k, some v) :: rest, hs⟩, m⟩ k0 := by
    unfold findKey; split_ifs with hk
    · subst hk; exact AList.lookup_erase _ _
    · exact AList.lookup_erase_ne hk
  show findKey ⟨⟨rest, hs.tail⟩, m.erase k⟩ k0 = some p0 ↔
    keyAt ⟨⟨rest, hs.tail⟩, m.erase k⟩ p0 = some k0
  rw [hkey, hfind]
  by_cases hk : k0 = k <;> by_cases hp : p0 = p <;> simp only [hk, hp, if_true, if_false]
  · simp
  · simp only [false_iff, reduceCtorEq]
    intro hk'
    exact hp (Option.some.inj (((h k p0).mpr hk').symm.trans ((h k p).mpr hpk)))
  · simp only [iff_false, reduceCtorEq]
    intro hk'
    exact hk (Option.some.inj (((h k0 p).mp hk').symm.trans hpk))
  · exact h k0 p0

/-- Every call that does not panic keeps `Inv`. -/
theorem inv_step (h : Inv q) {op : Op P K V} {o : Out P K V} (hs : q.step op = .ok (q', o)) :
    Inv q' := by
  cases op with
  | reservePriority p k =>
    simp only [step, pure, Except.pure, Except.ok.injEq, Prod.mk.injEq] at hs
    exact hs.1 ▸ inv_reservePriority h
  | putValue k v =>
    rcases hq : q.putValue k v with _ | q₁ <;> simp [step, hq, Except.map] at hs
    exact hs.1 ▸ inv_updateKeyValue h hq
  | updateValue k f =>
    rcases hq : q.updateValue k f with _ | q₁ <;> simp [step, hq, Except.map] at hs
    exact hs.1 ▸ inv_updateKeyValue h hq
  | setReady p =>
    rcases hq : q.setReady p with _ | q₁ <;> simp [step, hq, Except.map] at hs
    exact hs.1 ▸ inv_setReady h hq
  | popMinIfComplete =>
    rcases hq : q.popMinIfComplete with _ | ⟨r, q₁⟩ <;> simp [step, hq, Except.map] at hs
    exact hs.1 ▸ inv_popMinIfComplete h hq

theorem reachable_inv (hq : q.Reachable) : Inv q := by
  obtain ⟨ops, outs, h⟩ := hq
  exact run_preserves Inv (fun _ _ _ _ hi hs => inv_step hi hs) ops _ _ _ inv_new h

/-! ## What the invariant gives -/

theorem Inv.nodup_entry_keys (h : Inv q) : (q.priority.entries.map (·.2.1.key)).Nodup := by
  refine List.Nodup.map_on (fun x hx y hy hxy => ?_) (q.priority.nodup_keys.of_map _)
  have hfx := OrderedCollection.find_eq_some_iff_mem.mpr hx
  have hfy := OrderedCollection.find_eq_some_iff_mem.mpr hy
  have hp : x.1 = y.1 := Option.some.inj <|
    (h.findKey_of_find hfx).symm.trans (hxy ▸ h.findKey_of_find hfy)
  exact Prod.ext hp (Option.some.inj (hfx.symm.trans (hp ▸ hfy)))

theorem Inv.len_eq (h : Inv q) : q.len = q.keyToPriority.keys.length := by
  have hperm := (List.perm_ext_iff_of_nodup h.nodup_entry_keys q.keyToPriority.keys_nodup).mpr
    fun k => by
      simp only [List.mem_map, ← AList.mem_keys, ← AList.lookup_isSome, Option.isSome_iff_exists]
      constructor
      · rintro ⟨x, hx, rfl⟩
        exact ⟨x.1, h.findKey_of_find (OrderedCollection.find_eq_some_iff_mem.mpr hx)⟩
      · rintro ⟨p, hp⟩
        obtain ⟨e, hf, rfl⟩ := h.keyAt_of_findKey hp
        exact ⟨(p, e), OrderedCollection.find_eq_some_iff_mem.mp hf, rfl⟩
  simpa [len, OrderedCollection.len] using hperm.length_eq

/-- In every reachable state `key_to_priority` and `priority` are mutually inverse, so keys and
priorities are each unique and `len()` is the number of keys in `key_to_priority`. -/
theorem reachable_maps_inverse (hq : q.Reachable) :
    (∀ k p, q.findKey k = some p →
      ∃ vo, q.priority.find p = some (.pending k, vo) ∨ q.priority.find p = some (.ready k, vo)) ∧
    (∀ p st vo, q.priority.find p = some (st, vo) → q.findKey st.key = some p) ∧
    (q.priority.entries.map (·.1)).Nodup ∧ (q.priority.entries.map (·.2.1.key)).Nodup ∧
    q.len = q.keyToPriority.keys.length := by
  have h := reachable_inv hq
  refine ⟨fun k p hk => ?_, fun p st vo hf => h.findKey_of_find hf, q.priority.nodup_keys,
    h.nodup_entry_keys, h.len_eq⟩
  obtain ⟨⟨_ | _, vo⟩, hf, rfl⟩ := h.keyAt_of_findKey hk
  · exact ⟨vo, .inl hf⟩
  · exact ⟨vo, .inr hf⟩

theorem reachable_maps_inverse_two_entries :
    ∃ q : UniquePriorityQueue Nat Nat Nat, q.Reachable ∧ q.len = 2 ∧
      ((∀ k p, q.findKey k = some p →
        ∃ vo, q.priority.find p = some (.pending k, vo) ∨ q.priority.find p = some (.ready k, vo)) ∧
      (∀ p st vo, q.priority.find p = some (st, vo) → q.findKey st.key = some p) ∧
      (q.priority.entries.map (·.1)).Nodup ∧ (q.priority.entries.map (·.2.1.key)).Nodup ∧
      q.len = q.keyToPriority.keys.length) :=
  let ops : List (Op Nat Nat Nat) :=
    [.reservePriority 1 10, .reservePriority 2 20, .putValue 10 5, .setReady 1]
  ⟨_, ⟨ops, _, rfl⟩, rfl, reachable_maps_inverse ⟨ops, _, rfl⟩⟩

end UniquePriorityQueue

end HatBackup
