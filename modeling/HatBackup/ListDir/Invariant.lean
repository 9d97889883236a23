/-
# `HatBackup.ListDir.Invariant` — what every state of a walk satisfies

`Inv` ties the master's counter to the jobs and the channel: `running_workers` is the number of
jobs whose idle signal the master has not received, every message in the channel comes from such
a job, a job's idle signal is the last message it sends, and the tasks handed to the pool together
with the tasks still in the channel are the root and every task a job sent.  None of this needs
anything of the file system or of `handle_path`.

**Proved here.**

    what a master move and a job move can do   (`masterStep_cases`, `jobStep_move`, `jobStep_frame`)
    every reachable state satisfies `Inv`               (`reachable_inv`)
-/
import HatBackup.ListDir.Basic
import Mathlib.Data.List.Perm.Basic

namespace HatBackup

namespace ListDir

variable {P : Type}

/-! ## What one move can do -/

/-- The jobs once the master has received job `i`'s idle signal. -/
def ackJob (jobs : List (Job P)) : Option Nat → List (Job P)
  | some i => jobs.modify (fun j => { j with acked := true }) i
  | none => jobs

theorem masterStep_cases {w w' : Walk P} (h : masterStep w = some w') :
    w.returned = false ∧
      ((∃ s rest, w.chan = (s, none) :: rest ∧
        w' = ⟨rest, w.running - 1, w.running - 1 == 0, ackJob w.jobs s⟩) ∨
       (∃ s t rest, w.chan = (s, some t) :: rest ∧
        w' = ⟨rest, w.running + 1, false, w.jobs ++ [Job.new t]⟩)) := by
  unfold masterStep at h
  split_ifs at h with hr
  refine ⟨by simpa using hr, ?_⟩
  split at h
  · cases h
  · cases h; exact .inl ⟨_, _, ‹_›, by cases ‹Option Nat› <;> rfl⟩
  · cases h; exact .inr ⟨_, _, _, ‹_›, rfl⟩

theorem next_job_cases {fs : Fs} {H : P → Path → Option P → Bool} {w w' : Walk P} {i : Nat}
    {r : Option P} (h : next fs H w (.job i) r = some w') :
    ∃ j, w.jobs[i]? = some j ∧ w.runnable i = true ∧
      ∃ j' m, jobStep fs H j r (threads ≤ w.chan.length) = some (j', m) ∧
        w' = { w with jobs := w.jobs.set i j', chan := w.chan ++ m.toList.map (some i, ·) } := by
  simp only [next] at h
  cases hj : w.jobs[i]? with
  | none => simp [hj] at h
  | some j =>
    cases hr : w.runnable i
    · simp [hj, hr] at h
    · simp only [hj, hr, ↓reduceIte] at h
      obtain ⟨⟨j', m⟩, hs, rfl⟩ := Option.map_eq_some'.mp h
      exact ⟨j, rfl, rfl, j', m, hs, rfl⟩

/-- The moves of a job, one for each arm of `jobStep`, with its guard. -/
inductive JobMove (fs : Fs) (H : P → Path → Option P → Bool) (r : Option P) (full : Bool) :
    Job P → Job P × Option (Msg P) → Prop
  | start {j : Job P} : j.pc = .start →
      JobMove fs H r full j ({ j with pc := match fs.listing j.root with
                                             | some stream => .loop stream
                                             | none => .idle }, none)
  | done {j : Job P} : j.pc = .loop [] → JobMove fs H r full j ({ j with pc := .idle }, none)
  | notUtf8 {j : Job P} {n : Name} {rest : List Name} : j.pc = .loop (n :: rest) →
      validUtf8 n = false → JobMove fs H r full j ({ j with pc := .panicked }, none)
  | empty {j : Job P} {rest : List Name} : j.pc = .loop ([] :: rest) →
      JobMove fs H r full j ({ j with pc := .idle }, none)
  | skip {j : Job P} {n : Name} {rest : List Name} : j.pc = .loop (n :: rest) →
      validUtf8 n = true → n ≠ [] → (n = dot ∨ n = dotdot) →
      JobMove fs H r full j ({ j with pc := .loop rest }, none)
  | callNone {j : Job P} {n : Name} {rest : List Name} : j.pc = .loop (n :: rest) →
      validUtf8 n = true → n ≠ [] → ¬(n = dot ∨ n = dotdot) → r = none →
      H j.task.2 (j.root ++ [n]) none = true →
      JobMove fs H r full j
        ({ j with pc := .loop rest, handled := j.handled ++ [(j.task.2, j.root ++ [n], none)] }, none)
  | callSome {j : Job P} {n : Name} {rest : List Name} {q : P} : j.pc = .loop (n :: rest) →
      validUtf8 n = true → n ≠ [] → ¬(n = dot ∨ n = dotdot) → r = some q →
      H j.task.2 (j.root ++ [n]) (some q) = true →
      JobMove fs H r full j
        ({ j with
          root := j.root ++ [n]
          pc := .push rest q
          handled := j.handled ++ [(j.task.2, j.root ++ [n], some q)] }, none)
  | push {j : Job P} {rest : List Name} {q : P} : j.pc = .push rest q → full = false →
      JobMove fs H r full j
        ({ j with
          root := j.root.dropLast
          pc := .loop rest
          pushed := j.pushed ++ [(j.root, q)] }, some (some (j.root, q)))
  | idle {j : Job P} : j.pc = .idle → full = false →
      JobMove fs H r full j ({ j with pc := .finished }, some none)

theorem jobStep_move {fs : Fs} {H : P → Path → Option P → Bool} {j : Job P} {r : Option P}
    {full : Bool} {res : Job P × Option (Msg P)} (h : jobStep fs H j r full = some res) :
    JobMove fs H r full j res := by
  obtain ⟨task, root, pc, handled, pushed, acked⟩ := j
  cases pc with
  | start => cases h; exact .start rfl
  | loop rest =>
    cases rest with
    | nil => cases h; exact .done rfl
    | cons n rest =>
      simp only [jobStep] at h
      split_ifs at h with hv hn hd hH <;> cases h
      · exact .notUtf8 rfl (by simpa using hv)
      · subst hn; exact .empty rfl
      · exact .skip rfl (by simpa using hv) hn hd
      · cases r with
        | none => exact .callNone rfl (by simpa using hv) hn hd rfl hH
        | some q => exact .callSome rfl (by simpa using hv) hn hd rfl hH
  | push rest q =>
    simp only [jobStep] at h
    split_ifs at h with hf
    cases h; exact .push rfl (by simpa using hf)
  | idle =>
    simp only [jobStep] at h
    split_ifs at h with hf
    cases h; exact .idle rfl (by simpa using hf)
  | finished | panicked => cases h

theorem jobStep_frame {fs : Fs} {H : P → Path → Option P → Bool} {j j' : Job P} {r : Option P}
    {full : Bool} {m : Option (Msg P)} (h : jobStep fs H j r full = some (j', m)) :
    j'.task = j.task ∧ j'.acked = j.acked ∧ j.pc.isFinished = false ∧
      (m = none ∧ j'.pushed = j.pushed ∧ j'.pc.isFinished = false ∨
       (∃ t, m = some (some t) ∧ j'.pushed = j.pushed ++ [t] ∧ j'.pc.isFinished = false) ∨
       m = some none ∧ j'.pushed = j.pushed ∧ j'.pc = .finished) := by
  cases jobStep_move h with
  | start hpc =>
    exact ⟨rfl, rfl, by rw [hpc]; rfl, .inl ⟨rfl, rfl, by cases fs.listing j.root <;> rfl⟩⟩
  | done hpc | empty hpc => exact ⟨rfl, rfl, by rw [hpc]; rfl, .inl ⟨rfl, rfl, rfl⟩⟩
  | notUtf8 hpc _ => exact ⟨rfl, rfl, by rw [hpc]; rfl, .inl ⟨rfl, rfl, rfl⟩⟩
  | skip hpc _ _ _ => exact ⟨rfl, rfl, by rw [hpc]; rfl, .inl ⟨rfl, rfl, rfl⟩⟩
  | callNone hpc _ _ _ _ _ | callSome hpc _ _ _ _ _ =>
    exact ⟨rfl, rfl, by rw [hpc]; rfl, .inl ⟨rfl, rfl, rfl⟩⟩
  | push hpc _ => exact ⟨rfl, rfl, by rw [hpc]; rfl, .inr (.inl ⟨_, rfl, rfl, rfl⟩)⟩
  | idle hpc _ => exact ⟨rfl, rfl, by rw [hpc]; rfl, .inr (.inr ⟨rfl, rfl, rfl⟩)⟩

/-! ## Lists of jobs -/

theorem getElem?_ackJob (jobs : List (Job P)) (i k : Nat) :
    (ackJob jobs (some i))[k]? =
      (jobs[k]?).map fun j => if i = k then { j with acked := true } else j := by
  simp [ackJob, List.getElem?_modify]

theorem mem_ackJob {jobs : List (Job P)} {s : Option Nat} {j' : Job P} (h : j' ∈ ackJob jobs s) :
    j' ∈ jobs ∨ ∃ j ∈ jobs, j' = { j with acked := true } := by
  cases s with
  | none => exact .inl h
  | some i =>
    obtain ⟨k, hk⟩ := List.getElem?_of_mem h
    rw [getElem?_ackJob] at hk
    obtain ⟨j, hj, rfl⟩ := Option.map_eq_some'.mp hk
    split_ifs
    · exact .inr ⟨j, List.getElem?_mem hj, rfl⟩
    · exact .inl (List.getElem?_mem hj)

theorem map_ackJob {β : Type} (g : Job P → β) (hg : ∀ j, g { j with acked := true } = g j)
    (jobs : List (Job P)) (s : Option Nat) : (ackJob jobs s).map g = jobs.map g := by
  cases s with
  | none => rfl
  | some i =>
    refine List.ext_getElem? fun k => ?_
    simp only [List.getElem?_map, getElem?_ackJob, Option.map_map]
    cases jobs[k]? <;> simp only [Option.map_none', Option.map_some', Function.comp_apply]
    split <;> simp [hg]

theorem countP_ackJob {jobs : List (Job P)} {i : Nat} {j : Job P} (h : jobs[i]? = some j)
    (hj : j.acked = false) :
    (ackJob jobs (some i)).countP (fun j => !j.acked) + 1 = jobs.countP (fun j => !j.acked) := by
  have : Inhabited (Job P) := ⟨j⟩
  obtain ⟨hi, rfl⟩ := List.getElem?_eq_some_iff.mp h
  rw [ackJob, List.modify_eq_set, h, Option.getD_some, List.countP_set _ _ _ _ hi]
  have : 0 < jobs.countP (fun j => !j.acked) :=
    List.countP_pos_iff.mpr ⟨_, List.getElem_mem hi, by simp [hj]⟩
  simp only [hj, Bool.not_false, ↓reduceIte, Bool.not_true, Bool.false_eq_true]
  omega

theorem flatMap_set_perm {jobs : List (Job P)} {i : Nat} {j j' : Job P} (h : jobs[i]? = some j)
    {d : List (Path × P)} (hd : j'.pushed = j.pushed ++ d) :
    ((jobs.set i j').flatMap Job.pushed).Perm (jobs.flatMap Job.pushed ++ d) := by
  obtain ⟨hi, rfl⟩ := List.getElem?_eq_some_iff.mp h
  conv_rhs => rw [← List.take_append_drop (i + 1) jobs, List.take_succ, List.getElem?_eq_getElem hi]
  rw [List.set_eq_take_append_cons_drop, if_pos hi]
  simp only [List.flatMap_append, List.flatMap_cons, hd, Option.toList_some, List.flatMap_singleton,
    List.flatMap_nil, List.append_nil, List.append_assoc]
  exact List.Perm.append_left _ (List.Perm.append_left _ List.perm_append_comm)

/-! ## The invariant -/

/-- What holds of every state of a walk from `root`. -/
structure Inv (root : Path × P) (w : Walk P) : Prop where
  /-- `running_workers` counts the jobs whose idle signal the master has not received. -/
  running : w.running = w.jobs.countP (fun j => !j.acked)
  /-- The master's one message is the root task, sent before there is any job. -/
  master : ∀ m, (none, m) ∈ w.chan → w.jobs = []
  /-- Every other message comes from a job whose idle signal the master has not received. -/
  sender : ∀ (i : Nat) m, (some i, m) ∈ w.chan → ∃ j : Job P, w.jobs[i]? = some j ∧ j.acked = false
  /-- An idle signal comes from a finished job, -/
  idle : ∀ (i : Nat) (j : Job P), (some i, none) ∈ w.chan → w.jobs[i]? = some j → j.pc = .finished
  /-- and stays in the channel until the master takes it. -/
  pending : ∀ (i : Nat) (j : Job P), w.jobs[i]? = some j → j.pc = .finished → j.acked = false →
    (some i, none) ∈ w.chan
  acked : ∀ (i : Nat) (j : Job P), w.jobs[i]? = some j → j.acked = true → j.pc = .finished
  /-- A job sends nothing after its idle signal. -/
  last : w.chan.Pairwise fun x y => x.2 = none → y.1 ≠ x.1
  start : w.jobs = [] → w.chan = [(none, some root)] ∧ w.returned = false
  live : w.returned = false → w.jobs ≠ [] → 0 < w.running
  done : w.returned = true → w.chan = [] ∧ ∀ (i : Nat) (j : Job P), w.jobs[i]? = some j → j.acked = true
  /-- The tasks handed to the pool and those still in the channel are the root and every task
  a job has sent. -/
  tasks : (w.jobs.map Job.task ++ w.chan.filterMap (·.2)).Perm (root :: w.jobs.flatMap Job.pushed)

theorem inv_init (root : Path × P) : Inv root (Walk.init root) where
  running := rfl
  master _ _ := rfl
  sender _ _ h := by simp [Walk.init] at h
  idle _ _ h := by simp [Walk.init] at h
  pending _ _ h := by simp [Walk.init] at h
  acked _ _ h := by simp [Walk.init] at h
  last := List.pairwise_singleton _ _
  start _ := ⟨rfl, rfl⟩
  live _ h := absurd rfl h
  done h := by simp [Walk.init] at h
  tasks := .refl _

section
variable {root : Path × P} {w : Walk P}

theorem Inv.master_absurd (hi : Inv root w) {i : Nat} {j : Job P} (hj : w.jobs[i]? = some j)
    {m : Msg P} (hm : (none, m) ∈ w.chan) : False := by
  simp [hi.master m hm] at hj

theorem inv_recvIdle (hi : Inv root w) {s : Option Nat} {rest : List (Option Nat × Msg P)}
    (hc : w.chan = (s, none) :: rest) :
    Inv root ⟨rest, w.running - 1, w.running - 1 == 0, ackJob w.jobs s⟩ := by
  have hhead : (s, none) ∈ w.chan := hc ▸ List.mem_cons_self _ _
  obtain ⟨i, rfl⟩ : ∃ i, s = some i := by
    cases s with
    | none => exact absurd (hi.start (hi.master _ hhead)).1 (by rw [hc]; simp)
    | some i => exact ⟨i, rfl⟩
  obtain ⟨j, hj, hja⟩ := hi.sender i none hhead
  have hjf := hi.idle i j hhead hj
  have hrest : ∀ x ∈ rest, x.1 ≠ some i := by
    have := hi.last; rw [hc, List.pairwise_cons] at this
    exact fun x hx => this.1 x hx rfl
  have hcount := countP_ackJob hj hja
  have hrun := hi.running
  have hmem : ∀ x ∈ rest, x ∈ w.chan := fun x hx => hc ▸ List.mem_cons_of_mem _ hx
  have hne : ∀ {k}, (some k, (none : Msg P)) ∈ rest → i ≠ k := fun hk h => hrest _ hk (h ▸ rfl)
  refine
    { running := by dsimp only; rw [hrun, ← hcount]; omega
      master := fun m hm => (hi.master_absurd hj (hmem _ hm)).elim
      sender := fun k m hk => ?sender
      idle := fun k j' hk hj' => ?idle
      pending := fun k j' hj' hf ha => ?pending
      acked := fun k j' hj' ha => ?acked
      last := by have := hi.last; rw [hc] at this; exact (List.pairwise_cons.mp this).2
      start := fun h => ?start
      live := fun hr _ => ?live
      done := fun hr => ?done
      tasks := ?tasks }
  case sender =>
    have hik : i ≠ k := fun h => hrest _ hk (h ▸ rfl)
    simpa [getElem?_ackJob, hik] using hi.sender k m (hmem _ hk)
  case idle =>
    simp only [getElem?_ackJob, hne hk, if_false, Option.map_id'] at hj'
    exact hi.idle k j' (hmem _ hk) hj'
  case pending =>
    rw [getElem?_ackJob] at hj'
    by_cases hik : i = k
    · obtain ⟨_, -, rfl⟩ := Option.map_eq_some'.mp hj'; simp [hik] at ha
    · simp only [hik, if_false, Option.map_id'] at hj'
      have := hi.pending k j' hj' hf ha
      rw [hc] at this
      exact (List.mem_cons.mp this).resolve_left fun h => hik (by cases h; rfl)
  case acked =>
    rw [getElem?_ackJob] at hj'
    obtain ⟨j₀, hj₀, rfl⟩ := Option.map_eq_some'.mp hj'
    by_cases hik : i = k
    · subst hik; simp only [if_true]; rw [hj] at hj₀; cases hj₀; exact hjf
    · simp only [hik, if_false] at ha ⊢; exact hi.acked k j₀ hj₀ ha
  case start =>
    simp [ackJob] at h; simp [h] at hj
  case live =>
    dsimp only at hr ⊢
    simp only [beq_eq_false_iff_ne, ne_eq] at hr
    have := hcount; omega
  case done =>
    dsimp only at hr ⊢
    simp only [beq_iff_eq] at hr
    have hzero : (ackJob w.jobs (some i)).countP (fun j => !j.acked) = 0 := by
      have := hcount; omega
    have hall : ∀ j' ∈ ackJob w.jobs (some i), j'.acked = true := fun j' h' => by
      simpa using List.countP_eq_zero.mp hzero j' h'
    refine ⟨List.eq_nil_iff_forall_not_mem.mpr fun ⟨s', m⟩ hx => ?_,
      fun k j' hk => hall j' (List.getElem?_mem hk)⟩
    cases s' with
    | none => exact hi.master_absurd hj (hmem _ hx)
    | some k =>
      obtain ⟨jk, hjk, hjka⟩ := hi.sender k m (hmem _ hx)
      have hik : i ≠ k := fun h => hrest _ hx (h ▸ rfl)
      have : (ackJob w.jobs (some i))[k]? = some jk := by simp [getElem?_ackJob, hik, hjk]
      simp [hall jk (List.getElem?_mem this)] at hjka
  case tasks =>
    have ht := hi.tasks
    rw [hc, List.filterMap_cons_none rfl] at ht
    rwa [map_ackJob Job.task (fun _ => rfl), List.flatMap_def, map_ackJob Job.pushed (fun _ => rfl),
      ← List.flatMap_def]

theorem inv_recvTask (hi : Inv root w) {s : Option Nat} {t : Path × P}
    {rest : List (Option Nat × Msg P)} (hc : w.chan = (s, some t) :: rest) :
    Inv root ⟨rest, w.running + 1, false, w.jobs ++ [Job.new t]⟩ := by
  have hmem : ∀ x ∈ rest, x ∈ w.chan := fun x hx => hc ▸ List.mem_cons_of_mem _ hx
  have hnone : ∀ m, (none, m) ∉ rest := fun m hm => by
    have := (hi.start (hi.master m (hmem _ hm))).1
    rw [hc, List.cons.injEq] at this
    simp [this.2] at hm
  have hleft : ∀ {k} {j : Job P}, w.jobs[k]? = some j → (w.jobs ++ [Job.new t])[k]? = some j :=
    fun hk => by rw [List.getElem?_append_left (List.getElem?_eq_some_iff.mp hk).1]; exact hk
  have hnew : ∀ {k} {j : Job P}, (w.jobs ++ [Job.new t])[k]? = some j →
      w.jobs[k]? = some j ∨ j = Job.new t := fun hk => by
    rw [List.getElem?_append] at hk
    split at hk
    · exact .inl hk
    · exact .inr (by simpa using (List.getElem?_eq_some_iff.mp hk).2.symm)
  refine
    { running := ?running
      master := fun m hm => absurd hm (hnone m)
      sender := fun k m hk => ?sender
      idle := fun k j hk hj => ?idle
      pending := fun k j hj hf ha => ?pending
      acked := fun k j hj ha => ?acked
      last := (List.pairwise_cons.mp (hc ▸ hi.last)).2
      start := fun h => by simp at h
      live := fun _ _ => ?live
      done := fun h => by simp at h
      tasks := ?tasks }
  case running =>
    simp [hi.running, List.countP_append, Job.new]
  case sender =>
    obtain ⟨j, hj, hja⟩ := hi.sender k m (hmem _ hk)
    exact ⟨j, hleft hj, hja⟩
  case idle =>
    obtain ⟨j', hj', -⟩ := hi.sender k none (hmem _ hk)
    rw [hleft hj', Option.some.injEq] at hj
    exact hj ▸ hi.idle k j' (hmem _ hk) hj'
  case pending =>
    rcases hnew hj with hj | rfl
    · have := hi.pending k j hj hf ha
      rw [hc] at this
      exact (List.mem_cons.mp this).resolve_left (by simp)
    · cases hf
  case acked =>
    rcases hnew hj with hj | rfl
    · exact hi.acked k j hj ha
    · cases ha
  case live =>
    have := hi.running; dsimp only; omega
  case tasks =>
    have ht := hi.tasks
    simp only [hc, List.filterMap_cons] at ht
    simpa [List.flatMap_append, Job.new] using ht

theorem inv_jobMove {fs : Fs} {H : P → Path → Option P → Bool} (hi : Inv root w) {i : Nat}
    {j j' : Job P} (hj : w.jobs[i]? = some j) {r : Option P} {full : Bool} {m : Option (Msg P)}
    (hs : jobStep fs H j r full = some (j', m)) :
    Inv root { w with jobs := w.jobs.set i j', chan := w.chan ++ m.toList.map (some i, ·) } := by
  obtain ⟨htask, hack, hnf, hm⟩ := jobStep_frame hs
  have hja : j.acked = false := by
    cases h' : j.acked
    · rfl
    · simp [hi.acked i j hj h', Pc.isFinished] at hnf
  have hidle : (some i, (none : Msg P)) ∉ w.chan := fun h => by
    simp [hi.idle i j h hj, Pc.isFinished] at hnf
  obtain ⟨hlt, hji⟩ := List.getElem?_eq_some_iff.mp hj
  have hset : ∀ k, (w.jobs.set i j')[k]? = if i = k then some j' else w.jobs[k]? := fun k => by
    simp [List.getElem?_set, hlt]
  have hmemc : ∀ x, x ∈ w.chan ++ m.toList.map (some i, ·) →
      x ∈ w.chan ∨ ∃ y, m = some y ∧ x = (some i, y) := fun x hx => by
    rcases List.mem_append.mp hx with hx | hx
    · exact .inl hx
    · obtain ⟨y, hy, rfl⟩ := List.mem_map.mp hx
      exact .inr ⟨y, by simpa using hy, rfl⟩
  have hfin : j'.pc = .finished → m = some none := fun hf => by
    rcases hm with ⟨-, -, h⟩ | ⟨_, -, -, h⟩ | ⟨h, -⟩
    · rw [hf] at h; cases h
    · rw [hf] at h; cases h
    · exact h
  refine
    { running := ?running
      master := fun m' hm' => ?master
      sender := fun k m' hk => ?sender
      idle := fun k j'' hk hj'' => ?idle
      pending := fun k j'' hj'' hf ha => ?pending
      acked := fun k j'' hj'' ha => ?acked
      last := ?last
      start := fun h => ?start
      live := fun hr _ => hi.live hr (List.ne_nil_of_mem (List.getElem?_mem hj))
      done := fun hr => absurd ((hi.done hr).2 i j hj) (by simp [hja])
      tasks := ?tasks }
  case running =>
    have : 0 < w.jobs.countP (fun j => !j.acked) :=
      List.countP_pos_iff.mpr ⟨j, List.getElem?_mem hj, by simp [hja]⟩
    simp only [hi.running, List.countP_set _ _ _ _ hlt, hji, hack, hja]
    simp only [Bool.not_false, ↓reduceIte]
    omega
  case master =>
    rcases hmemc _ hm' with hm' | ⟨_, -, h⟩
    · exact (hi.master_absurd hj hm').elim
    · cases h
  case sender =>
    rw [hset]
    rcases hmemc _ hk with hk | ⟨_, -, h⟩
    · split_ifs with hik
      · subst hik; exact ⟨j', rfl, hack ▸ hja⟩
      · exact hi.sender k m' hk
    · cases h; exact ⟨j', if_pos rfl, hack ▸ hja⟩
  case idle =>
    rw [hset] at hj''
    rcases hmemc _ hk with hk | ⟨_, hmy, h⟩
    · split_ifs at hj'' with hik
      · subst hik; exact absurd hk hidle
      · exact hi.idle k j'' hk hj''
    · cases h
      rw [if_pos rfl, Option.some.injEq] at hj''
      subst hj''
      rcases hm with ⟨rfl, -⟩ | ⟨_, rfl, -⟩ | ⟨-, -, h⟩
      · cases hmy
      · cases hmy
      · exact h
  case pending =>
    rw [hset] at hj''
    split_ifs at hj'' with hik
    · cases hj''; subst hik
      exact List.mem_append_right _ (by simp [hfin hf])
    · exact List.mem_append_left _ (hi.pending k j'' hj'' hf ha)
  case acked =>
    rw [hset] at hj''
    split_ifs at hj'' with hik
    · cases hj''; simp [hack, hja] at ha
    · exact hi.acked k j'' hj'' ha
  case last =>
    refine List.pairwise_append.mpr ⟨hi.last, by cases m <;> simp, fun a ha b hb hna heq => ?_⟩
    obtain ⟨y, -, rfl⟩ := List.mem_map.mp hb
    obtain ⟨s, ma⟩ := a
    simp only at heq hna; subst heq hna
    exact hidle ha
  case start =>
    simp [List.set_eq_nil_iff] at h; simp [h] at hj
  case tasks =>
    have hmap : (w.jobs.set i j').map Job.task = w.jobs.map Job.task :=
      List.ext_getElem? fun k => by
        simp only [List.getElem?_map, hset]; split_ifs with hik
        · subst hik; simp [hj, htask]
        · rfl
    dsimp only
    rw [hmap]
    rcases hm with ⟨rfl, hp, -⟩ | ⟨t, rfl, hp, -⟩ | ⟨rfl, hp, -⟩
    pick_goal 2
    · -- one task sent
      have := flatMap_set_perm hj hp
      simp only [Option.toList_some, List.map_cons, List.map_nil, List.filterMap_append,
        List.filterMap_cons_some, List.filterMap_nil, ← List.append_assoc]
      exact (hi.tasks.append_right _).trans (List.Perm.cons _ this.symm)
    -- no task sent
    all_goals
      have := flatMap_set_perm hj (show j'.pushed = j.pushed ++ [] by simpa using hp)
      simpa using hi.tasks.trans (List.Perm.cons _ (by simpa using this.symm))

theorem inv_next {fs : Fs} {H : P → Path → Option P → Bool} (hi : Inv root w) {a : Actor}
    {r : Option P} {w' : Walk P} (h : next fs H w a r = some w') : Inv root w' := by
  cases a with
  | master =>
    obtain ⟨-, ⟨s, rest, hc, rfl⟩ | ⟨s, t, rest, hc, rfl⟩⟩ := masterStep_cases h
    · exact inv_recvIdle hi hc
    · exact inv_recvTask hi hc
  | job i =>
    obtain ⟨j, hj, -, j', m, hs, rfl⟩ := next_job_cases h
    exact inv_jobMove hi hj hs

/-- Every state a walk reaches satisfies the invariant. -/
theorem reachable_inv {fs : Fs} {H : P → Path → Option P → Bool} (hw : Reachable fs H root w) :
    Inv root w := by
  induction hw with
  | init => exact inv_init root
  | step _ h ih => exact inv_next ih h

end

end ListDir

end HatBackup
