/-
# `HatBackup.UniquePriorityQueue.Ledger` — results leave in the order they entered

What the queue is for (spec §4.4): "results leave in the same order they entered, and only after
they are complete".  The ledger says that and nothing more: a list of slots in reservation
order, each holding its priority, its key, whether `set_ready` has reached it, and the value last
stored in it by `put_value` or `update_value`.  A pop takes the first slot when it is ready and
holds a value, and no other slot.

The queue orders by priority, not by arrival, so it behaves as the ledger only when every
successful reservation uses a priority above all earlier ones, as the hash-tree builder's
per-file counter does.  Under that condition `run_fifo` shows, for every panic-free run from
`new()`:

* on every call the queue returns what the ledger returns, and it holds the ledger's slots;
* the popped `(priority, key)` pairs followed by the live slots are exactly the successful
  reservations, so the pops are a prefix of them, none skipped and none repeated;
* once every live slot is complete, `len()` pops return them all in order and leave the queue
  as `new()` made it.

The simulation is one lemma per call (`refines_step`), composed along the run (`refines_run`).
-/
import HatBackup.UniquePriorityQueue.Calls

namespace HatBackup

namespace UniquePriorityQueue

variable {P K V : Type}

/-! ## Slots -/

/-- A reservation not yet popped: its priority and key, whether `set_ready` reached it, and the
value last stored for it. -/
structure Slot (P K V : Type) where
  priority : P
  key : K
  ready : Bool
  value : Option V

def Slot.entry (s : Slot P K V) : P × (Status K × Option V) :=
  (s.priority, (if s.ready then .ready s.key else .pending s.key, s.value))

@[simp] theorem Slot.entry_fst (s : Slot P K V) : s.entry.1 = s.priority := rfl

@[simp] theorem Slot.entry_key (s : Slot P K V) : s.entry.2.1.key = s.key := by
  unfold Slot.entry; split <;> rfl

theorem Slot.entry_eq_iff {s : Slot P K V} {p : P} {st : Status K} {vo : Option V} :
    s.entry = (p, (st, vo)) ↔
      s.priority = p ∧ (if s.ready then .ready s.key else .pending s.key) = st ∧ s.value = vo := by
  simp [Slot.entry]

/-! ## Reservations and pops of a run -/

/-- The `(priority, key)` a call reserved, if it was a successful `reserve_priority`. -/
def Op.reserved : Op P K V → Out P K V → Option (P × K)
  | .reservePriority p k, .reserved (.ok ()) => some (p, k)
  | _, _ => none

def reservations (ops : List (Op P K V)) (outs : List (Out P K V)) : List (P × K) :=
  (List.zipWith Op.reserved ops outs).filterMap id

def Out.poppedEntry : Out P K V → Option (P × K × V)
  | .popped r => r
  | _ => none

def pops (outs : List (Out P K V)) : List (P × K × V) := outs.filterMap Out.poppedEntry

@[simp] theorem reservations_cons (op : Op P K V) (o : Out P K V) (ops outs) :
    reservations (op :: ops) (o :: outs) = (Op.reserved op o).toList ++ reservations ops outs := by
  simp only [reservations, List.zipWith_cons_cons, List.filterMap_cons, id]
  cases Op.reserved op o <;> rfl

@[simp] theorem pops_cons (o : Out P K V) (outs) :
    pops (o :: outs) = (Out.poppedEntry o).toList ++ pops outs := by
  simp only [pops, List.filterMap_cons]; cases Out.poppedEntry o <;> rfl

def Slot.pk (s : Slot P K V) : P × K := (s.priority, s.key)

def popPk (r : P × K × V) : P × K := (r.1, r.2.1)

variable [LinearOrder P] [DecidableEq K]

/-! ## The ledger -/

namespace Ledger

/-- One call on the ledger; `none` where the spec's precondition fails. -/
def step (l : List (Slot P K V)) : Op P K V → Option (List (Slot P K V) × Out P K V)
  | .reservePriority p k =>
      if l.any (fun s => s.priority = p || s.key = k) then some (l, .reserved (.error ()))
      else some (l ++ [⟨p, k, false, none⟩], .reserved (.ok ()))
  | .putValue k v =>
      if l.any (fun s => s.key = k && s.value.isNone) then
        some (l.map fun s => if s.key = k then { s with value := some v } else s, .unit)
      else none
  | .updateValue k f =>
      if l.any (fun s => s.key = k && s.value.isSome) then
        some (l.map fun s => if s.key = k then { s with value := s.value.map f } else s, .unit)
      else none
  | .setReady p =>
      if l.any (fun s => s.priority = p && !s.ready) then
        some (l.map fun s => if s.priority = p then { s with ready := true } else s, .unit)
      else none
  | .popMinIfComplete =>
      match l with
      | ⟨p, k, true, some v⟩ :: rest => some (rest, .popped (some (p, k, v)))
      | _ => some (l, .popped none)

def run (l : List (Slot P K V)) :
    List (Op P K V) → Option (List (Slot P K V) × List (Out P K V))
  | [] => some (l, [])
  | op :: ops => (step l op).bind fun r => (run r.1 ops).map fun r' => (r'.1, r.2 :: r'.2)

end Ledger

theorem Ledger.step_bookkeeping {l l' : List (Slot P K V)} {op : Op P K V} {o : Out P K V}
    (h : Ledger.step l op = some (l', o)) :
    (Out.poppedEntry o).toList.map popPk ++ l'.map Slot.pk =
      l.map Slot.pk ++ (Op.reserved op o).toList := by
  cases op with
  | reservePriority p k =>
    simp only [Ledger.step] at h
    split_ifs at h <;> cases h <;> simp [Op.reserved, Out.poppedEntry, Slot.pk]
  | popMinIfComplete =>
    rcases l with _ | ⟨⟨p, k, _ | _, _ | v⟩, rest⟩ <;> cases h <;>
      simp [Op.reserved, Out.poppedEntry, Slot.pk, popPk]
  | _ =>
    simp only [Ledger.step] at h
    split_ifs at h; cases h
    simp only [Out.poppedEntry, Op.reserved, Option.toList_none, List.map_nil, List.nil_append,
      List.append_nil, List.map_map]
    exact List.map_congr_left fun s _ => by simp only [Function.comp]; split_ifs <;> rfl

theorem Ledger.run_bookkeeping :
    ∀ (ops : List (Op P K V)) (l l' : List (Slot P K V)) outs,
      Ledger.run l ops = some (l', outs) →
      (pops outs).map popPk ++ l'.map Slot.pk = l.map Slot.pk ++ reservations ops outs
  | [], l, l', outs, h => by cases h; simp [pops, reservations]
  | op :: ops, l, l', outs, h => by
    simp only [Ledger.run, Option.bind_eq_some, Option.map_eq_some', Prod.mk.injEq] at h
    obtain ⟨⟨l₁, o⟩, h1, ⟨l₂, os⟩, h2, rfl, rfl⟩ := h
    have ih := Ledger.run_bookkeeping ops l₁ l₂ os h2
    have hs := Ledger.step_bookkeeping h1
    simp only [pops_cons, reservations_cons, List.map_append, List.append_assoc] at ih hs ⊢
    rw [ih, ← List.append_assoc, hs, List.append_assoc]

/-! ## The queue refines the ledger -/

section Refinement

variable {q q' : UniquePriorityQueue P K V} {l : List (Slot P K V)} {p : P} {k : K}

omit [DecidableEq K] in
theorem find_of_slot (hl : q.priority.entries = l.map Slot.entry) {s : Slot P K V}
    (hs : s ∈ l) : q.priority.find s.priority = some s.entry.2 :=
  OrderedCollection.find_eq_some_iff_mem.mpr (hl ▸ List.mem_map_of_mem _ hs)

omit [DecidableEq K] in
theorem slot_of_find (hl : q.priority.entries = l.map Slot.entry) {e : Status K × Option V}
    (hf : q.priority.find p = some e) : ∃ s ∈ l, s.entry = (p, e) := by
  have := OrderedCollection.find_eq_some_iff_mem.mp hf
  rwa [hl, List.mem_map] at this

theorem Inv.priority_eq_iff (h : Inv q) (hl : q.priority.entries = l.map Slot.entry)
    (hk : q.findKey k = some p) {s : Slot P K V} (hs : s ∈ l) : s.priority = p ↔ s.key = k := by
  have hks : q.findKey s.key = some s.priority := by
    simpa using h.findKey_of_find (find_of_slot hl hs)
  constructor
  · rintro rfl
    exact Option.some.inj (((h s.key _).mp hks).symm.trans ((h k _).mp hk))
  · rintro rfl
    exact Option.some.inj (hks.symm.trans hk)

theorem Inv.taken_iff (h : Inv q) (hl : q.priority.entries = l.map Slot.entry) :
    ((q.priority.find p).isSome || (q.keyToPriority.lookup k).isSome) =
      l.any (fun s => s.priority = p || s.key = k) := by
  refine Bool.eq_iff_iff.mpr ?_
  simp only [Bool.or_eq_true, List.any_eq_true, decide_eq_true_eq, Option.isSome_iff_exists]
  constructor
  · rintro (⟨e, hf⟩ | ⟨p', hk⟩)
    · obtain ⟨s, hs, he⟩ := slot_of_find hl hf
      exact ⟨s, hs, .inl (congrArg Prod.fst he)⟩
    · obtain ⟨e, hf, rfl⟩ := h.keyAt_of_findKey hk
      obtain ⟨s, hs, he⟩ := slot_of_find hl hf
      exact ⟨s, hs, .inr (by simpa using congrArg (·.2.1.key) he)⟩
  · rintro ⟨s, hs, rfl | rfl⟩
    · exact .inl ⟨_, find_of_slot hl hs⟩
    · exact .inr ⟨_, by simpa using h.findKey_of_find (find_of_slot hl hs)⟩

theorem updateKeyValue_entries {msg : String} {g : Option V → Option V}
    (hq : q.updateKeyValue k msg g = .ok q') :
    ∃ p st vo v, q.findKey k = some p ∧ q.priority.find p = some (st, vo) ∧ g vo = some v ∧
      q'.priority.entries =
        q.priority.entries.map fun x => if x.1 = p then (p, (st, some v)) else x := by
  obtain ⟨p, st, vo, v, hk, hf, hg, rfl⟩ := updateKeyValue_eq_ok.mp hq
  exact ⟨p, st, vo, v, hk, hf, hg, insertSorted_eq_map q.priority.sorted
    (OrderedCollection.find_eq_some_iff_mem.mp hf)⟩

omit [DecidableEq K] in
theorem setReady_entries (hq : q.setReady p = .ok q') :
    ∃ k vo, q.priority.find p = some (.pending k, vo) ∧
      q'.priority.entries =
        q.priority.entries.map fun x => if x.1 = p then (p, (.ready k, vo)) else x := by
  obtain ⟨k, vo, hf, rfl⟩ := setReady_eq_ok.mp hq
  exact ⟨k, vo, hf, insertSorted_eq_map q.priority.sorted
    (OrderedCollection.find_eq_some_iff_mem.mp hf)⟩

omit [DecidableEq K] in
theorem map_entry_rewrite (hl : q.priority.entries = l.map Slot.entry)
    {a : Status K × Option V} (c : Slot P K V → Prop) [DecidablePred c]
    (G : Slot P K V → Slot P K V) (hc : ∀ s ∈ l, c s ↔ s.priority = p)
    (hG : ∀ s ∈ l, s.priority = p → (G s).entry = (p, a)) :
    q.priority.entries.map (fun x => if x.1 = p then (p, a) else x) =
      (l.map fun s => if c s then G s else s).map Slot.entry := by
  rw [hl, List.map_map, List.map_map]
  refine List.map_congr_left fun s hs => ?_
  simp only [Function.comp, Slot.entry_fst]
  by_cases hp : s.priority = p
  · rw [if_pos hp, if_pos ((hc s hs).mpr hp), hG s hs hp]
  · rw [if_neg hp, if_neg (mt (hc s hs).mp hp)]

theorem refines_updateKeyValue (h : Inv q) (hl : q.priority.entries = l.map Slot.entry)
    {msg : String} {g : Option V → Option V} (hq : q.updateKeyValue k msg g = .ok q')
    (ok : Option V → Bool) (G : Option V → Option V)
    (hg : ∀ vo v, g vo = some v → ok vo = true ∧ G vo = some v) :
    l.any (fun s => s.key = k && ok s.value) = true ∧
      q'.priority.entries =
        (l.map fun s => if s.key = k then { s with value := G s.value } else s).map Slot.entry := by
  obtain ⟨p, st, vo, v, hk, hf, hgv, he⟩ := updateKeyValue_entries hq
  obtain ⟨hok, hG⟩ := hg vo v hgv
  obtain ⟨s, hs, hse⟩ := slot_of_find hl hf
  obtain ⟨hsp, -, hsv⟩ := Slot.entry_eq_iff.mp hse
  refine ⟨List.any_eq_true.mpr ⟨s, hs, ?_⟩, he.trans (map_entry_rewrite hl _ _
    (fun t ht => (h.priority_eq_iff hl hk ht).symm) fun t ht htp => ?_)⟩
  · simp [← (h.priority_eq_iff hl hk hs).mp hsp, hsv, hok]
  · have := Option.some.inj ((find_of_slot hl ht).symm.trans (htp ▸ hf))
    have hst : t.entry.2.1 = st := congrArg Prod.fst this
    have hv : G t.value = some v := by rw [show t.value = vo from congrArg Prod.snd this, hG]
    exact Prod.ext htp (Prod.ext hst hv)

/-- One call: whatever the queue returns, the ledger returns too, and the queue still holds the
ledger's slots.  A successful reservation must lie above every live priority. -/
theorem refines_step (h : Inv q) (hl : q.priority.entries = l.map Slot.entry) {op : Op P K V}
    {o : Out P K V} (hfresh : ∀ r ∈ Op.reserved op o, ∀ s ∈ l, s.priority < r.1)
    (hs : q.step op = .ok (q', o)) :
    ∃ l', Ledger.step l op = some (l', o) ∧ q'.priority.entries = l'.map Slot.entry := by
  cases op with
  | reservePriority p k =>
    simp only [step, pure, Except.pure, Except.ok.injEq, Prod.mk.injEq] at hs
    obtain ⟨rfl, rfl⟩ := hs
    by_cases ht : l.any (fun s => s.priority = p || s.key = k)
    · have hr : q.reservePriority p k = (.error (), q) := by
        unfold reservePriority; rw [h.taken_iff hl, if_pos ht]
      simp [Ledger.step, ht, hl, hr]
    · have hr : q.reservePriority p k =
          (.ok (), ⟨q.priority.insert p (.pending k, none), q.keyToPriority.insert k p⟩) := by
        unfold reservePriority; rw [h.taken_iff hl, if_neg ht]
      simp only [hr, Op.reserved, Option.mem_def, Option.some.injEq, forall_eq'] at hfresh
      refine ⟨l ++ [⟨p, k, false, none⟩], by simp [Ledger.step, ht, hr], ?_⟩
      simp only [hr, OrderedCollection.insert_entries, hl, List.map_append]
      exact insertSorted_of_lt fun x hx => by
        obtain ⟨s, hs, rfl⟩ := List.mem_map.mp hx; exact hfresh s hs
  | putValue k v =>
    rcases hq : q.putValue k v with _ | q₁ <;> simp [step, hq, Except.map] at hs
    obtain ⟨rfl, rfl⟩ := hs
    obtain ⟨hany, he⟩ := refines_updateKeyValue h hl hq Option.isNone (fun _ => some v)
      fun vo w hg => by
        cases vo with
        | none => exact ⟨rfl, hg⟩
        | some _ => cases hg
    exact ⟨_, if_pos hany, he⟩
  | updateValue k f =>
    rcases hq : q.updateValue k f with _ | q₁ <;> simp [step, hq, Except.map] at hs
    obtain ⟨rfl, rfl⟩ := hs
    obtain ⟨hany, he⟩ := refines_updateKeyValue h hl hq Option.isSome (Option.map f)
      fun vo w hg => ⟨by simpa using congrArg Option.isSome hg, hg⟩
    exact ⟨_, if_pos hany, he⟩
  | setReady p =>
    rcases hq : q.setReady p with _ | q₁ <;> simp [step, hq, Except.map] at hs
    obtain ⟨rfl, rfl⟩ := hs
    obtain ⟨k, vo, hf, he⟩ := setReady_entries hq
    obtain ⟨s, hs, hse⟩ := slot_of_find hl hf
    obtain ⟨hsp, hst, -⟩ := Slot.entry_eq_iff.mp hse
    refine ⟨_, if_pos (List.any_eq_true.mpr ⟨s, hs, ?_⟩), he.trans (map_entry_rewrite hl _ _
      (fun t _ => Iff.rfl) fun t ht htp => ?_)⟩
    · split_ifs at hst with hr
      simp [hsp, hr]
    · have := (find_of_slot hl ht).symm.trans (htp ▸ hf)
      simp only [Option.some.injEq, Slot.entry] at this
      split_ifs at this with hr
      · cases this
      · obtain ⟨⟨⟩, hv⟩ := Prod.mk.inj this
        exact Slot.entry_eq_iff.mpr ⟨htp, if_pos rfl, hv⟩
  | popMinIfComplete =>
    rcases hq : q.popMinIfComplete with _ | ⟨r, q₁⟩ <;> simp [step, hq, Except.map] at hs
    obtain ⟨rfl, rfl⟩ := hs
    rw [popMinIfComplete_eq] at hq
    split at hq
    · rename_i p k v rest he
      simp only [Except.ok.injEq, Prod.mk.injEq] at hq
      obtain ⟨rfl, rfl⟩ := hq
      rw [hl] at he
      rcases l with _ | ⟨⟨p', k', _ | _, _ | v'⟩, l⟩ <;> simp [Slot.entry] at he
      obtain ⟨⟨rfl, rfl, rfl⟩, rfl⟩ := he
      exact ⟨_, rfl, by simp [hl]⟩
    · rename_i hne
      simp only [Except.ok.injEq, Prod.mk.injEq] at hq
      obtain ⟨rfl, rfl⟩ := hq
      refine ⟨l, ?_, hl⟩
      rcases l with _ | ⟨⟨p, k, _ | _, _ | v⟩, rest⟩ <;> simp only [Ledger.step]
      exact (hne p k v _ (by rw [hl]; rfl)).elim

/-- Along a run whose successful reservations climb above every live priority, the queue
returns what the ledger returns and keeps holding the ledger's slots. -/
theorem refines_run :
    ∀ (ops : List (Op P K V)) (q q' : UniquePriorityQueue P K V) (l : List (Slot P K V)) outs,
      Inv q → q.priority.entries = l.map Slot.entry →
      (∀ s ∈ l, ∀ r ∈ reservations ops outs, s.priority < r.1) →
      ((reservations ops outs).map Prod.fst).Sorted (· < ·) →
      q.run ops = .ok (q', outs) →
      ∃ l', Ledger.run l ops = some (l', outs) ∧ q'.priority.entries = l'.map Slot.entry
  | [], q, q', l, outs, _, hl, _, _, h => by
    cases h; exact ⟨l, rfl, hl⟩
  | op :: ops, q, q', l, outs, hi, hl, hfresh, hsort, h => by
    obtain ⟨q₁, o, os, h1, h2, rfl⟩ := run_cons_eq_ok.mp h
    simp only [reservations_cons, List.map_append, List.mem_append, List.Sorted,
      List.pairwise_append] at hfresh hsort
    obtain ⟨l₁, hl1, he1⟩ := refines_step hi hl
      (fun r hr s hs => hfresh s hs r (.inl (Option.mem_toList.mpr hr))) h1
    have hbook := Ledger.step_bookkeeping hl1
    have hfresh₁ : ∀ s ∈ l₁, ∀ r ∈ reservations ops os, s.priority < r.1 := fun s hs r hr => by
      have : s.pk ∈ l.map Slot.pk ++ (Op.reserved op o).toList :=
        hbook ▸ List.mem_append_right _ (List.mem_map_of_mem _ hs)
      rcases List.mem_append.mp this with h0 | h0
      · obtain ⟨s0, hs0, he⟩ := List.mem_map.mp h0
        simp only [Slot.pk, Prod.mk.injEq] at he
        exact he.1 ▸ hfresh s0 hs0 r (.inr hr)
      · exact hsort.2.2 _ (List.mem_map_of_mem Prod.fst h0) _ (List.mem_map_of_mem _ hr)
    obtain ⟨l', hl', he'⟩ := refines_run ops q₁ q' l₁ os (inv_step hi h1) he1 hfresh₁ hsort.2.1 h2
    exact ⟨l', by simp [Ledger.run, hl1, hl'], he'⟩

theorem Inv.eq_new (h : Inv q) (he : q.priority.entries = []) : q = new := by
  have hk : q.keyToPriority.keys = [] := List.eq_nil_of_length_eq_zero <| by
    rw [← h.len_eq]; simp [len, OrderedCollection.len, he]
  obtain ⟨⟨entries, hs⟩, ⟨m, hm⟩⟩ := q
  simp only at he hk
  subst he
  obtain rfl : m = [] := by simpa [AList.keys, List.keys] using hk
  rfl

/-- Popping once per entry from a state whose entries are all complete returns them in order
and leaves the queue as `new()` made it. -/
theorem drain : ∀ (l : List (Slot P K V)) (q : UniquePriorityQueue P K V), Inv q →
    q.priority.entries = l.map Slot.entry → (∀ s ∈ l, s.ready = true ∧ s.value.isSome) →
    q.run (List.replicate l.length .popMinIfComplete) =
      .ok (new, l.filterMap fun s => s.value.map fun v => .popped (some (s.priority, s.key, v)))
  | [], q, hi, hl, _ => by simp [hi.eq_new hl]
  | s :: rest, q, hi, hl, hc => by
    obtain ⟨p, k, r, vo⟩ := s
    obtain ⟨rfl, v, rfl⟩ : r = true ∧ ∃ v, vo = some v := by
      simpa [Option.isSome_iff_exists] using hc _ (List.mem_cons_self _ _)
    obtain ⟨q₁, hpop, he₁⟩ : ∃ q₁, q.popMinIfComplete = .ok (some (p, k, v), q₁) ∧
        q₁.priority.entries = rest.map Slot.entry := by
      rw [popMinIfComplete_eq]
      split
      · rename_i he
        rw [hl] at he
        simp only [List.map_cons, List.cons.injEq, Slot.entry, if_true, Prod.mk.injEq,
          Status.ready.injEq, Option.some.injEq] at he
        obtain ⟨⟨rfl, rfl, rfl⟩, -⟩ := he
        exact ⟨_, rfl, by simp [hl]⟩
      · rename_i hne
        exact (hne p k v _ (by rw [hl]; rfl)).elim
    have hstep : q.step .popMinIfComplete = .ok (q₁, .popped (some (p, k, v))) := by
      simp [step, hpop, Except.map]
    rw [List.length_cons, List.replicate_succ, run_cons_of_step hstep,
      drain rest q₁ (inv_popMinIfComplete hi hpop) he₁ fun s hs => hc s (List.mem_cons_of_mem _ hs)]
    rfl

end Refinement

/-! ## The queue is a FIFO of completed reservations -/

/-- For every panic-free run from `new()` whose successful reservations climb in priority, the
queue returns what the ledger returns, so entries pop in reservation order, each once it is ready
and holds a value; once every live entry is complete, `len()` pops return them all in that order
and empty the queue. -/
theorem run_fifo {ops : List (Op P K V)} {q : UniquePriorityQueue P K V}
    {outs : List (Out P K V)} (hrun : (new : UniquePriorityQueue P K V).run ops = .ok (q, outs))
    (hinc : ((reservations ops outs).map Prod.fst).Sorted (· < ·)) :
    ∃ l, Ledger.run [] ops = some (l, outs) ∧ q.priority.entries = l.map Slot.entry ∧
      (pops outs).map popPk ++ l.map Slot.pk = reservations ops outs ∧
      ((∀ s ∈ l, s.ready = true ∧ s.value.isSome) →
        q.run (List.replicate q.len .popMinIfComplete) =
          .ok (new, l.filterMap fun s => s.value.map fun v => .popped (some (s.priority, s.key, v)))) := by
  obtain ⟨l, hl, he⟩ := refines_run ops new q [] outs inv_new rfl (by simp) hinc hrun
  refine ⟨l, hl, he, by simpa using Ledger.run_bookkeeping ops [] l outs hl, fun hc => ?_⟩
  have hlen : q.len = l.length := by simp [len, OrderedCollection.len, he]
  rw [hlen]
  exact drain l q (reachable_inv ⟨ops, outs, hrun⟩) he hc

/-- The first pop finds the entry at priority 1 without a value and returns nothing, though
the entry at 2 is complete; once 1 is complete it leaves first. -/
theorem run_fifo_blocked_head :
    ∃ q outs, (new : UniquePriorityQueue Nat Nat Nat).run
        [.reservePriority 1 10, .reservePriority 2 20, .putValue 20 5, .setReady 2,
          .popMinIfComplete, .putValue 10 7, .setReady 1, .popMinIfComplete] = .ok (q, outs) ∧
      ((reservations [.reservePriority 1 10, .reservePriority 2 20, .putValue 20 5, .setReady 2,
          .popMinIfComplete, .putValue 10 7, .setReady 1, .popMinIfComplete] outs).map
            Prod.fst).Sorted (· < ·) ∧
      pops outs = [(1, 10, 7)] ∧
      ∃ l, Ledger.run [] [.reservePriority 1 10, .reservePriority 2 20, .putValue 20 5,
          .setReady 2, .popMinIfComplete, .putValue 10 7, .setReady 1, .popMinIfComplete] =
            some (l, outs) ∧
        q.priority.entries = l.map Slot.entry ∧
        (pops outs).map popPk ++ l.map Slot.pk =
          reservations [.reservePriority 1 10, .reservePriority 2 20, .putValue 20 5,
            .setReady 2, .popMinIfComplete, .putValue 10 7, .setReady 1, .popMinIfComplete] outs ∧
        ((∀ s ∈ l, s.ready = true ∧ s.value.isSome) →
          q.run (List.replicate q.len .popMinIfComplete) =
            .ok (new, l.filterMap fun s => s.value.map fun v => .popped (some (s.priority, s.key, v)))) :=
  ⟨_, _, rfl, by decide, by decide, run_fifo rfl (by decide)⟩

end UniquePriorityQueue

end HatBackup
