/-
# `HatBackup.BlobIndex.Lifetimes` — ids across restarts

`Reserve` hands out `next_id` and moves it on; a restart reseeds it from `MAX(id)` of the durable
table.  An id that was reserved but never written `InAir` leaves no row, so after a restart it is
handed out again (`reserve_ids_repeat_after_restart`).  What does hold is
`reserve_exceeds_issued_and_landed`: the id `Reserve` returns is above every id returned earlier
in the same lifetime and above every id of the durable table, which keeps the id of every desc
whose `InAir` committed, in any lifetime.  It needs the ids to fit in 32 bits, where `get_int`
reads `MAX(id)` back exactly (`FitsInt32`).  Where they do not, the counter can land on an id the
table already has, and the next `InAir` panics on the primary key
(`inAir_insert_fails_after_wide_max`).

Whatever the ids, nothing acknowledged is lost (`reachable_durable`).  Between messages the open
transaction holds no change, and every desc whose `InAir` was answered keeps a durable row with
its id and name, across restarts.

The runs are those in which `InAir` and `CommitDone` carry a desc that `Reserve` returned in the
same lifetime.  `Sys` adds two ghost logs to the process: the ids returned in this lifetime and
the descs whose `InAir` committed.
-/
import HatBackup.BlobIndex.Basic
import Mathlib.Data.List.Sort

namespace HatBackup

namespace BlobIndex

/-- The process with its ghost logs. -/
structure Sys where
  idx : BlobIndex
  issued : List Int
  landed : List BlobDesc

/-- `Reachable t n s`: a run with `n` reservations from a file holding `t` ends in `s`; each
`InAir` and `CommitDone` carries a desc that `Reserve` returned in the same lifetime. -/
inductive Reachable (t : Table) : Nat → Sys → Prop
  | start {b} : new t = .ok b → Reachable t 0 ⟨b, [], []⟩
  | reserve (rand : List UInt8) {n s b' d} : Reachable t n s →
      s.idx.step (.msg .reserve rand) = .ok (b', some (.reserved d)) →
      Reachable t (n + 1) ⟨b', s.issued ++ [d.id], s.landed⟩
  | inAir (d : BlobDesc) {n s b' o} : Reachable t n s → s.idx.reserved.lookup d.name = some d →
      s.idx.step (.msg (.inAir d) []) = .ok (b', o) →
      Reachable t n ⟨b', s.issued, s.landed ++ [d]⟩
  | commitDone (d : BlobDesc) {n s b' o} : Reachable t n s →
      s.idx.reserved.lookup d.name = some d →
      s.idx.step (.msg (.commitDone d) []) = .ok (b', o) → Reachable t n ⟨b', s.issued, s.landed⟩
  | restart {n s b' o} : Reachable t n s → s.idx.step .restart = .ok (b', o) →
      Reachable t n ⟨b', [], s.landed⟩

/-- The ids of `t` fit in 32 bits, with room for `k` reservations above `MAX(id)`. -/
def FitsInt32 (t : Table) (k : Nat) : Prop :=
  k < 2 ^ 31 ∧ ∀ r ∈ t.rows, -2 ^ 31 ≤ r.id ∧ r.id + k < 2 ^ 31

/-! ## Reading `MAX(id)` back -/

theorem getInt_maxId {tab : Table} (h : ∀ r ∈ tab.rows, -2 ^ 31 ≤ r.id ∧ r.id < 2 ^ 31) :
    getInt tab.maxId = tab.maxId.getD 0 := by
  cases hm : tab.maxId with
  | none => rfl
  | some m =>
    obtain ⟨⟨r, hr, rfl⟩, -⟩ := Table.maxId_eq_some.mp hm
    exact getInt_some_of_fits (h r hr).1 (h r hr).2

theorem lt_maxId_succ {tab : Table} {r : Row} (hr : r ∈ tab.rows) :
    r.id < tab.maxId.getD 0 + 1 := by
  obtain ⟨m, hm⟩ := Option.ne_none_iff_exists'.mp
    (mt Table.maxId_eq_none.mp (List.ne_nil_of_mem hr))
  have := (Table.maxId_eq_some.mp hm).2 r hr
  simp only [hm, Option.getD_some]; omega

theorem maxId_mem {tab : Table} (h : tab.rows ≠ []) :
    ∃ r ∈ tab.rows, tab.maxId.getD 0 = r.id := by
  obtain ⟨m, hm⟩ := Option.ne_none_iff_exists'.mp (mt Table.maxId_eq_none.mp h)
  obtain ⟨r, hr, rfl⟩ := (Table.maxId_eq_some.mp hm).1
  exact ⟨r, hr, by simp [hm]⟩

@[simp] theorem maxId_empty_rows {tab : Table} (h : tab.rows = []) : tab.maxId = none :=
  Table.maxId_eq_none.mpr h

theorem refreshed_bounds {tab : Table} {c : Int} (h : ∀ r ∈ tab.rows, -2 ^ 31 ≤ r.id ∧ r.id < c)
    (hc : c ≤ 2 ^ 31) :
    (∀ r ∈ tab.rows, r.id < getInt tab.maxId + 1) ∧ -2 ^ 31 < getInt tab.maxId + 1 ∧
      (tab.rows = [] → getInt tab.maxId + 1 = 1) ∧ (tab.rows ≠ [] → getInt tab.maxId + 1 ≤ c) := by
  rw [getInt_maxId fun r hr => ⟨(h r hr).1, by have := (h r hr).2; omega⟩]
  refine ⟨fun r hr => lt_maxId_succ hr, ?_, fun he => by simp [he], fun he => ?_⟩
  · by_cases he : tab.rows = []
    · simp [he]
    · obtain ⟨r, hr, hm⟩ := maxId_mem he
      have := (h r hr).1; omega
  · obtain ⟨r, hr, hm⟩ := maxId_mem he
    have := (h r hr).2; omega

theorem inAir_fails_of_refreshed_taken {t : Table} (h : getInt t.maxId + 1 ∈ t.rows.map Row.id)
    (rand : List UInt8) :
    runFrom t [.msg .reserve rand, .msg (.inAir ⟨rand, getInt t.maxId + 1⟩) []] =
      .error (.exec .constraintPrimaryKey [.insert ⟨getInt t.maxId + 1, rand, 1⟩]) := by
  simp [-AList.insert_empty, AList.lookup_insert, runFrom, run, step, handle, inAir, assert,
    execOrDie, Database.execAll, Database.exec, Database.view, Table.insert, h, bind, Except.bind,
    pure, Except.pure, Except.map, throw, throwThe, MonadExceptOf.throw]

/-- A table whose `MAX(id)` is `2^32 + 5`, with a row of id `6`. -/
def wideMaxTable : Table := ⟨[⟨6, [0xaa], 0⟩, ⟨4294967301, [0xbb], 0⟩], by decide, by decide⟩

/-- On `wideMaxTable`, `get_int` reads `MAX(id)` as `5`: `Reserve` returns id `6`, and `InAir` of
that desc panics on the primary key. -/
theorem inAir_insert_fails_after_wide_max :
    (∃ b, runFrom wideMaxTable [.msg .reserve [7]] = .ok (b, [some (.reserved ⟨[7], 6⟩)])) ∧
      runFrom wideMaxTable [.msg .reserve [7], .msg (.inAir ⟨[7], 6⟩) []] =
        .error (.exec .constraintPrimaryKey [.insert ⟨6, [7], 1⟩]) := by
  have h6 : getInt wideMaxTable.maxId + 1 = 6 := rfl
  exact ⟨⟨_, rfl⟩, h6 ▸ inAir_fails_of_refreshed_taken (by rw [h6]; decide) [7]⟩

/-! ## The invariant -/

/-- What holds between messages, for a run that keeps ids in 32 bits. -/
structure Inv (t : Table) (n : Nat) (s : Sys) : Prop where
  settled : s.idx.Settled
  rows : ∀ r ∈ s.idx.dbh.durable.rows, -2 ^ 31 ≤ r.id ∧ r.id < s.idx.nextId
  reserved : ∀ nm d, s.idx.reserved.lookup nm = some d → -2 ^ 31 < d.id ∧ d.id < s.idx.nextId
  issued : ∀ i ∈ s.issued, i < s.idx.nextId
  landed : ∀ d ∈ s.landed, ∃ r ∈ s.idx.dbh.durable.rows, r.id = d.id
  lower : -2 ^ 31 < s.idx.nextId
  empty : s.idx.dbh.durable.rows = [] → 1 ≤ s.idx.nextId
  budget : s.idx.nextId ≤ getInt t.maxId + 1 + n

section
variable {t : Table} {N n : Nat} {s : Sys}

theorem start_bounds (hfit : FitsInt32 t N) :
    (∀ r ∈ t.rows, r.id < getInt t.maxId + 1) ∧ -2 ^ 31 < getInt t.maxId + 1 ∧
      (t.rows = [] → getInt t.maxId + 1 = 1) ∧ getInt t.maxId + 1 + N ≤ 2 ^ 31 := by
  obtain ⟨h1, h2, h3, h4⟩ := refreshed_bounds
    (show ∀ r ∈ t.rows, -2 ^ 31 ≤ r.id ∧ r.id < 2 ^ 31 - N from
      fun r hr => ⟨(hfit.2 r hr).1, by have := (hfit.2 r hr).2; omega⟩) (by omega)
  refine ⟨h1, h2, h3, ?_⟩
  by_cases he : t.rows = []
  · have := hfit.1; rw [h3 he]; omega
  · have := h4 he; omega

theorem inv_start (hfit : FitsInt32 t N) :
    Inv t 0 ⟨⟨⟨t, some t⟩, getInt t.maxId + 1, ∅⟩, [], []⟩ := by
  obtain ⟨h1, h2, h3, -⟩ := start_bounds hfit
  exact ⟨rfl, fun r hr => ⟨(hfit.2 r hr).1, h1 r hr⟩, by simp, by simp, by simp, h2,
    fun he => (h3 he).ge, by simp⟩

theorem Inv.nextId_lt (hi : Inv t n s) (hn : n < N) (hfit : FitsInt32 t N) :
    s.idx.nextId + 1 ≤ 2 ^ 31 := by
  have := hi.budget; have := (start_bounds hfit).2.2.2; omega

theorem inv_reserve (hi : Inv t n s) (hn : n + 1 ≤ N) (hfit : FitsInt32 t N) (rand : List UInt8) :
    Inv t (n + 1) ⟨(s.idx.reserve rand).2, s.issued ++ [(s.idx.reserve rand).1.id], s.landed⟩ := by
  have hlt := hi.nextId_lt hn hfit
  have hw : wrapI64 (s.idx.nextId + 1) = s.idx.nextId + 1 :=
    wrapI64_of_fits (by have := hi.lower; omega) (by omega)
  refine
    { settled := hi.settled
      rows := ?rows
      reserved := ?reserved
      issued := ?issued
      landed := hi.landed
      lower := ?lower
      empty := ?empty
      budget := ?budget } <;>
    simp only [reserve_snd, reserve_fst, hw]
  case rows => exact fun r hr => by have := hi.rows r hr; omega
  case reserved =>
    intro nm d hd
    by_cases hnm : nm = rand
    · subst hnm
      simp only [AList.lookup_insert, Option.some.injEq] at hd
      subst hd; exact ⟨hi.lower, Int.lt_succ _⟩
    · rw [AList.lookup_insert_ne hnm] at hd
      have := hi.reserved nm d hd; omega
  case issued =>
    simp only [List.mem_append, List.mem_singleton]
    rintro i (h | rfl)
    · have := hi.issued i h; omega
    · exact Int.lt_succ _
  case lower => have := hi.lower; omega
  case empty => exact fun he => by have := hi.empty he; omega
  case budget => have := hi.budget; push_cast; omega


theorem inv_inAir (hi : Inv t n s) {d : BlobDesc} (hd : s.idx.reserved.lookup d.name = some d)
    {b' : BlobIndex} (h : s.idx.inAir d = .ok b') : Inv t n ⟨b', s.issued, s.landed ++ [d]⟩ := by
  obtain ⟨-, tab, hins, rfl⟩ := (inAir_eq_ok hi.settled).mp h
  obtain ⟨-, -, hrows⟩ := Table.insert_eq_ok.mp hins
  have hdid := hi.reserved _ _ hd
  refine
    { settled := rfl
      rows := ?rows
      reserved := hi.reserved
      issued := hi.issued
      landed := ?landed
      lower := hi.lower
      empty := by simp [hrows]
      budget := hi.budget } <;>
    simp only [hrows, List.mem_append, List.mem_singleton]
  case rows =>
    rintro r (hr | rfl)
    · exact hi.rows r hr
    · exact ⟨hdid.1.le, hdid.2⟩
  case landed =>
    rintro e (he | rfl)
    · obtain ⟨r, hr, hid⟩ := hi.landed e he
      exact ⟨r, .inl hr, hid⟩
    · exact ⟨_, .inr rfl, rfl⟩

theorem inv_commitBlob (hi : Inv t n s) {d : BlobDesc} {b' : BlobIndex}
    (h : s.idx.commitBlob d = .ok b') : Inv t n ⟨b', s.issued, s.landed⟩ := by
  obtain ⟨-, rfl⟩ := (commitBlob_eq_ok hi.settled).mp h
  refine
    { settled := rfl
      rows := fun r hr => ?rows
      reserved := hi.reserved
      issued := hi.issued
      landed := fun e he => ?landed
      lower := hi.lower
      empty := fun he => hi.empty (List.map_eq_nil_iff.mp he)
      budget := hi.budget }
  case rows =>
    obtain ⟨r₀, h₀, hid, -⟩ := Table.mem_setTagZero hr
    exact hid ▸ hi.rows r₀ h₀
  case landed =>
    obtain ⟨r, hr, hid⟩ := hi.landed e he
    exact ⟨_, List.mem_map_of_mem _ hr, by simpa using hid⟩

theorem inv_restart (hi : Inv t n s) (hn : n ≤ N) (hfit : FitsInt32 t N) {b' : BlobIndex}
    (h : s.idx.restart = .ok b') : Inv t n ⟨b', [], s.landed⟩ := by
  rw [restart_of_settled hi.settled, Except.ok.injEq] at h
  subst h
  have hc : s.idx.nextId ≤ 2 ^ 31 := by
    have := hi.budget; have := (start_bounds hfit).2.2.2; omega
  obtain ⟨h1, h2, h3, h4⟩ := refreshed_bounds hi.rows hc
  refine
    { settled := rfl
      rows := fun r hr => ⟨(hi.rows r hr).1, h1 r hr⟩
      reserved := by simp
      issued := by simp
      landed := hi.landed
      lower := h2
      empty := fun he => (h3 he).ge
      budget := ?budget }
  show getInt s.idx.dbh.durable.maxId + 1 ≤ _
  have := hi.budget
  by_cases he : s.idx.dbh.durable.rows = []
  · have := hi.empty he; rw [h3 he]; omega
  · have := h4 he; omega

/-- Every state of a run within the budget satisfies the invariant. -/
theorem reachable_inv (hs : Reachable t n s) (hn : n ≤ N) (hfit : FitsInt32 t N) : Inv t n s := by
  induction hs with
  | start h => rw [new_eq, Except.ok.injEq] at h; exact h ▸ inv_start hfit
  | reserve rand _ h ih =>
    obtain ⟨rfl, ho⟩ := step_reserve_eq_ok.mp h
    cases ho
    exact inv_reserve (ih (by omega)) hn hfit rand
  | inAir d _ hd h ih => exact inv_inAir (ih hn) hd (step_inAir_eq_ok.mp h).1
  | commitDone d _ _ h ih => exact inv_commitBlob (ih hn) (step_commitDone_eq_ok.mp h).1
  | restart _ h ih => exact inv_restart (ih hn) hn hfit (step_restart_eq_ok.mp h).1

end

/-! ## Ids across restarts -/

/-- The id `Reserve` returns is above every id returned earlier in the same lifetime, every id of
the durable table, and every id whose `InAir` committed, in this lifetime or an earlier one. -/
theorem reserve_exceeds_issued_and_landed {t : Table} {n : Nat} {s : Sys} (hs : Reachable t n s)
    (hfit : FitsInt32 t (n + 1)) (rand : List UInt8) :
    (∀ i ∈ s.issued, i < (s.idx.reserve rand).1.id) ∧
      (∀ r ∈ s.idx.dbh.durable.rows, r.id < (s.idx.reserve rand).1.id) ∧
      ∀ d ∈ s.landed, d.id < (s.idx.reserve rand).1.id := by
  have hi := reachable_inv hs (Nat.le_succ n) hfit
  refine ⟨hi.issued, fun r hr => (hi.rows r hr).2, fun d hd => ?_⟩
  obtain ⟨r, hr, hid⟩ := hi.landed d hd
  exact hid ▸ (hi.rows r hr).2

/-- After a reservation, its `InAir`, a restart and a second reservation, a third id is above
both. -/
theorem reserve_exceeds_after_restart :
    ∃ s, Reachable Table.empty 2 s ∧ FitsInt32 Table.empty 3 ∧ s.issued = [2] ∧
      s.landed = [⟨[1], 1⟩] ∧
      ((∀ i ∈ s.issued, i < (s.idx.reserve [3]).1.id) ∧
        (∀ r ∈ s.idx.dbh.durable.rows, r.id < (s.idx.reserve [3]).1.id) ∧
        ∀ d ∈ s.landed, d.id < (s.idx.reserve [3]).1.id) :=
  have h0 : Reachable Table.empty 0 _ := .start rfl
  have h4 := ((((h0.reserve [1] rfl).inAir ⟨[1], 1⟩ rfl rfl).restart rfl).reserve [2] rfl)
  have hfit : FitsInt32 Table.empty 3 := ⟨by decide, by simp [Table.empty]⟩
  ⟨_, h4, hfit, rfl, rfl, reserve_exceeds_issued_and_landed h4 hfit [3]⟩

/-- A reservation abandoned before a restart is handed out again after it: the ids `Reserve`
returns over a run are not increasing. -/
theorem reserve_ids_repeat_after_restart :
    ∃ b os, runFrom Table.empty [.msg .reserve [1], .restart, .msg .reserve [2]] = .ok (b, os) ∧
      reservedIds os = [1, 1] ∧ ¬ (reservedIds os).Sorted (· < ·) :=
  ⟨_, _, rfl, rfl, by decide⟩

/-! ## Nothing acknowledged is lost -/

def Keeps (tab tab' : Table) : Prop :=
  ∀ r ∈ tab.rows, ∃ r' ∈ tab'.rows, r'.id = r.id ∧ r'.name = r.name

theorem Keeps.refl (tab : Table) : Keeps tab tab := fun r hr => ⟨r, hr, rfl, rfl⟩

theorem Keeps.mem {a b : Table} (hk : Keeps a b) {id : Int} {name : List UInt8}
    (h : ∃ r ∈ a.rows, r.id = id ∧ r.name = name) : ∃ r ∈ b.rows, r.id = id ∧ r.name = name :=
  let ⟨r, hr, e₁, e₂⟩ := h
  let ⟨r', hr', e₁', e₂'⟩ := hk r hr
  ⟨r', hr', e₁'.trans e₁, e₂'.trans e₂⟩

theorem Keeps.trans {a b c : Table} (h₁ : Keeps a b) (h₂ : Keeps b c) : Keeps a c :=
  fun r hr => h₂.mem (h₁ r hr)

theorem keeps_setTagZero (tab : Table) (id : Int) : Keeps tab (tab.setTagZero id) := fun r hr =>
  ⟨Table.clearTag id r, by simpa using List.mem_map_of_mem _ hr, Table.clearTag_id id r,
    Table.clearTag_name id r⟩

/-- What a run keeps between messages: the open transaction holds no change, the rows of the file
the process started on are there, and so is a row for each desc whose `InAir` was answered. -/
structure Durable (t : Table) (s : Sys) : Prop where
  settled : s.idx.Settled
  kept : Keeps t s.idx.dbh.durable
  landed : ∀ d ∈ s.landed, ∃ r ∈ s.idx.dbh.durable.rows, r.id = d.id ∧ r.name = d.name

theorem Durable.of_keeps {t : Table} {s s' : Sys} (h : Durable t s) (hset : s'.idx.Settled)
    (hk : Keeps s.idx.dbh.durable s'.idx.dbh.durable) (hl : s'.landed = s.landed) :
    Durable t s' :=
  ⟨hset, h.kept.trans hk, fun d hd => hk.mem (h.landed d (hl ▸ hd))⟩

/-- Nothing acknowledged is lost.  In every run, across restarts and with no bound on the ids:
between messages the open transaction holds no change, so a crash there loses nothing; every
row of the file the process started on is still there, with its id and name; and every desc
whose `InAir` was answered `CommitOK` has a durable row with its id and name. -/
theorem reachable_durable {t : Table} {n : Nat} {s : Sys} (hs : Reachable t n s) :
    s.idx.Settled ∧ (∀ r ∈ t.rows, ∃ r' ∈ s.idx.dbh.durable.rows, r'.id = r.id ∧ r'.name = r.name) ∧
      ∀ d ∈ s.landed, ∃ r ∈ s.idx.dbh.durable.rows, r.id = d.id ∧ r.name = d.name := by
  have h : Durable t s := by
    induction hs with
    | start h =>
      rw [new_eq, Except.ok.injEq] at h
      subst h
      exact ⟨rfl, Keeps.refl t, nofun⟩
    | reserve rand _ h ih =>
      obtain ⟨rfl, -⟩ := step_reserve_eq_ok.mp h
      exact ih.of_keeps ih.settled (Keeps.refl _) rfl
    | inAir d _ _ h ih =>
      obtain ⟨-, t', hins, rfl⟩ := (inAir_eq_ok ih.settled).mp (step_inAir_eq_ok.mp h).1
      obtain ⟨-, -, hrows⟩ := Table.insert_eq_ok.mp hins
      -- `INSERT` appends the desc's row to what was there
      have hold : Keeps _ t' := fun r hr =>
        ⟨r, hrows ▸ List.mem_append_left _ hr, rfl, rfl⟩
      refine ⟨rfl, ih.kept.trans hold, fun d' hd' => ?_⟩
      rcases List.mem_append.mp hd' with hd' | hd'
      · exact hold.mem (ih.landed d' hd')
      · rw [List.mem_singleton.mp hd']
        exact ⟨_, hrows ▸ List.mem_append_right _ (List.mem_singleton_self _), rfl, rfl⟩
    | commitDone d _ _ h ih =>
      obtain ⟨-, rfl⟩ := (commitBlob_eq_ok ih.settled).mp (step_commitDone_eq_ok.mp h).1
      exact ih.of_keeps rfl (keeps_setTagZero _ _) rfl
    | restart _ h ih =>
      have hb := (step_restart_eq_ok.mp h).1
      rw [restart_of_settled ih.settled, Except.ok.injEq] at hb
      subst hb
      exact ⟨rfl, ih.kept, ih.landed⟩
  exact ⟨h.settled, h.kept, h.landed⟩

/-- A reservation, its `InAir` and `CommitDone`, then a restart: the desc's row is still there. -/
theorem reachable_durable_after_restart :
    ∃ s, Reachable Table.empty 1 s ∧ s.landed = [⟨[1], 1⟩] ∧
      (s.idx.Settled ∧
        (∀ r ∈ Table.empty.rows, ∃ r' ∈ s.idx.dbh.durable.rows, r'.id = r.id ∧ r'.name = r.name) ∧
        ∀ d ∈ s.landed, ∃ r ∈ s.idx.dbh.durable.rows, r.id = d.id ∧ r.name = d.name) :=
  have h0 : Reachable Table.empty 0 _ := .start rfl
  have h4 := (((h0.reserve [1] rfl).inAir ⟨[1], 1⟩ rfl rfl).commitDone ⟨[1], 1⟩ rfl rfl).restart rfl
  ⟨_, h4, rfl, reachable_durable h4⟩

end BlobIndex

end HatBackup
