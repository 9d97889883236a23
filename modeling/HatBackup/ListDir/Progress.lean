/-
# `HatBackup.ListDir.Progress` — the walk never sticks and always ends, if every name is UTF-8

Each task, job and message has a price: the moves still needed before the master has taken the
idle signals they lead to.  A task's price counts its directory's whole subtree, so it is finite
when the tree is no deeper than some `D`.  Every move of the walk lowers the total by at least
one, whatever the file system and the handler: a run from the start is no longer than the
start's price.

Progress needs more.  A name that is not UTF-8 makes `expect("Path not UTF8.")` panic inside its
job, which then never sends its idle signal, and the master waits in `recv` for ever.  When every
name is UTF-8 and `handle_path` always returns, some actor can move in every state in which the
master has not returned: the master when the channel holds a message, and otherwise the first
job that has not finished, which by `Inv` exists and whose pool thread is free.

**Proved here.**

    every move lowers the walk's price               (`walkCost_next_lt`, `run_length_le`)
    with UTF-8 names no job panics                   (`reachable_not_panicked`)
    an idle master leaves a job free to run          (`Inv.exists_runnable`)
    some actor can move until the master returns     (`reachable_can_move`)
    a name that is not UTF-8 leaves the master waiting
    for ever: no schedule returns                    (`walk_never_returns_of_nonUtf8`)
-/
import HatBackup.ListDir.Complete
import Mathlib.Algebra.BigOperators.Group.List
import Mathlib.Algebra.Order.Ring.Nat
import Mathlib.Data.Nat.Find

namespace HatBackup

namespace ListDir

variable {P : Type}

/-- The walk after a list of moves, each an actor and the answer `handle_path` gives if it is
called; `none` if one of them cannot be made. -/
def run (fs : Fs) (H : P → Path → Option P → Bool) : Walk P → List (Actor × Option P) →
    Option (Walk P)
  | w, [] => some w
  | w, (a, r) :: moves => (next fs H w a r).bind fun w' => run fs H w' moves

theorem run_reachable {fs : Fs} {H : P → Path → Option P → Bool} {root : Path × P} :
    ∀ {moves : List (Actor × Option P)} {w w' : Walk P}, Reachable fs H root w →
      run fs H w moves = some w' → Reachable fs H root w'
  | [], _, _, hw, h => by cases h; exact hw
  | (a, r) :: moves, w, w', hw, h => by
    simp only [run, Option.bind_eq_some] at h
    obtain ⟨w₁, h₁, h⟩ := h
    exact run_reachable (.step hw h₁) h

/-! ## The price of what is left -/

section Cost

variable (fs : Fs) (D : Nat)

/-- The moves a task for `p` costs, its subtree explored to depth `k` below `p`: the master's
`recv`, `DirIterator::new`, two moves per name (the call and a send) with the task it may send,
the loop's end, the idle signal and its `recv`. -/
def taskCostUpTo : Nat → Path → Nat
  | 0, _ => 4
  | k + 1, p =>
    2 + (fs.listing p).elim 2 fun s => (s.map fun n => 2 + taskCostUpTo k (p ++ [n])).sum + 3

/-- The price of a task for `p`, in a tree no deeper than `D`. -/
def taskCost (p : Path) : Nat := taskCostUpTo fs (D + 1 - p.length) p

/-- The price of a job in its `for` loop, `rest` being what `readdir` has still to give. -/
def loopCost (root : Path) (rest : List Name) : Nat :=
  (rest.map fun n => 2 + taskCost fs D (root ++ [n])).sum + 3

def jobCost (j : Job P) : Nat :=
  match j.pc with
  | .start => 1 + (fs.listing j.root).elim 2 (loopCost fs D j.root)
  | .loop rest => loopCost fs D j.root rest
  | .push rest _ => 1 + taskCost fs D j.root + loopCost fs D j.root.dropLast rest
  | .idle => 2
  | .finished | .panicked => 0

def msgCost : Msg P → Nat
  | none => 1
  | some t => taskCost fs D t.1

def walkCost (w : Walk P) : Nat :=
  (w.jobs.map (jobCost fs D)).sum + (w.chan.map fun x => msgCost fs D x.2).sum

end Cost

section Decrease

variable {fs : Fs} {D : Nat}

theorem taskCost_eq (hD : ∀ p : Path, D < p.length → fs.listing p = none) (p : Path) :
    taskCost fs D p = 2 + (fs.listing p).elim 2 (loopCost fs D p) := by
  unfold taskCost
  by_cases hp : p.length ≤ D
  · rw [show D + 1 - p.length = (D - p.length) + 1 by omega, taskCostUpTo]
    have hk : ∀ n : Name, D + 1 - (p ++ [n]).length = D - p.length := by simp
    cases fs.listing p <;> simp [loopCost, taskCost, hk]
  · rw [show D + 1 - p.length = 0 by omega, hD p (by omega)]; rfl

theorem jobCost_ack (j : Job P) : jobCost fs D { j with acked := true } = jobCost fs D j := rfl

theorem jobCost_jobStep {H : P → Path → Option P → Bool} {j j' : Job P} {r : Option P}
    {full : Bool} {m : Option (Msg P)} (h : jobStep fs H j r full = some (j', m)) :
    jobCost fs D j' + (m.toList.map (msgCost fs D)).sum < jobCost fs D j := by
  cases jobStep_move h with
  | start hpc =>
    cases h : fs.listing j.root <;>
      simp only [jobCost, loopCost, hpc, h, Option.elim_none, Option.elim_some, Option.toList_none,
        List.map_nil, List.sum_nil] <;> omega
  | done hpc | empty hpc | notUtf8 hpc _ | skip hpc _ _ _ | callNone hpc _ _ _ _ _
  | callSome hpc _ _ _ _ _ | push hpc _ | idle hpc _ =>
    simp only [jobCost, loopCost, msgCost, hpc, Option.toList_none, Option.toList_some,
      List.map_nil, List.map_cons, List.sum_nil, List.sum_cons, List.dropLast_concat]
    omega

theorem sum_map_set {f : Job P → Nat} {jobs : List (Job P)} {i : Nat} {j : Job P}
    (h : jobs[i]? = some j) (j' : Job P) :
    ((jobs.set i j').map f).sum + f j = (jobs.map f).sum + f j' := by
  obtain ⟨hi, rfl⟩ := List.getElem?_eq_some_iff.mp h
  conv_rhs => rw [← List.take_append_drop (i + 1) jobs, List.take_succ, List.getElem?_eq_getElem hi]
  rw [List.set_eq_take_append_cons_drop, if_pos hi]
  simp only [List.map_append, List.map_cons, List.sum_append, List.sum_cons, Option.toList_some,
    List.map_cons, List.map_nil, List.sum_nil]
  omega

/-- Every move of the walk lowers its price. -/
theorem walkCost_next_lt (hD : ∀ p : Path, D < p.length → fs.listing p = none)
    {H : P → Path → Option P → Bool} {w w' : Walk P} {a : Actor} {r : Option P}
    (h : next fs H w a r = some w') : walkCost fs D w' < walkCost fs D w := by
  cases a with
  | master =>
    obtain ⟨-, ⟨s, rest, hc, rfl⟩ | ⟨s, t, rest, hc, rfl⟩⟩ := masterStep_cases h
    · simp [walkCost, hc, map_ackJob _ jobCost_ack, msgCost]
    · simp [walkCost, hc, msgCost, taskCost_eq hD, jobCost, Job.new]; omega
  | job i =>
    obtain ⟨j, hj, -, j', m, hs, rfl⟩ := next_job_cases h
    have hset : ((w.jobs.set i j').map (jobCost fs D)).sum + jobCost fs D j =
        (w.jobs.map (jobCost fs D)).sum + jobCost fs D j' := sum_map_set hj j'
    have hlt : jobCost fs D j' + (m.toList.map (msgCost fs D)).sum < jobCost fs D j :=
      jobCost_jobStep hs
    have hmsg : (fun x : Option Nat × Msg P => msgCost fs D x.2) ∘ (some i, ·) = msgCost fs D := rfl
    simp only [walkCost, List.map_append, List.sum_append, List.map_map, hmsg]
    omega

/-- A run is no longer than the price of the state it starts from. -/
theorem run_length_le (hD : ∀ p : Path, D < p.length → fs.listing p = none)
    {H : P → Path → Option P → Bool} :
    ∀ {moves : List (Actor × Option P)} {w w' : Walk P}, run fs H w moves = some w' →
      moves.length + walkCost fs D w' ≤ walkCost fs D w
  | [], _, _, h => by cases h; simp
  | (a, r) :: moves, w, w', h => by
    simp only [run, Option.bind_eq_some] at h
    obtain ⟨w₁, h₁, h⟩ := h
    have := run_length_le hD h
    have := walkCost_next_lt hD h₁
    simp only [List.length_cons]
    omega

end Decrease

/-! ## Progress -/

section Progress

variable {fs : Fs} {H : P → Path → Option P → Bool}

theorem jobStep_not_panicked (hutf : ∀ p s, fs.listing p = some s → ∀ n ∈ s, validUtf8 n = true)
    {j j' : Job P} {r : Option P} {full : Bool} {m : Option (Msg P)} (hinv : JobInv fs H j)
    (hs : jobStep fs H j r full = some (j', m)) : j'.pc ≠ .panicked := by
  cases jobStep_move hs with
  | start => split <;> nofun
  | @notUtf8 n _ hpc hv =>
    simp only [JobInv, hpc] at hinv
    obtain ⟨-, -, pre, hl, -⟩ := hinv
    simp [hutf _ _ hl n (by simp)] at hv
  | done | empty | skip | callNone | callSome | push | idle => nofun

theorem reachable_not_panicked
    (hutf : ∀ p s, fs.listing p = some s → ∀ n ∈ s, validUtf8 n = true) {root : Path × P}
    {w : Walk P} (hw : Reachable fs H root w) : ∀ j ∈ w.jobs, JobInv fs H j ∧ j.pc ≠ .panicked :=
  reachable_jobs (fun t => ⟨jobInv_new fs H t, by simp [Job.new]⟩) (fun _ h => h)
    (fun h hs => ⟨jobInv_jobStep h.1 hs, jobStep_not_panicked hutf h.1 hs⟩) hw

theorem jobStep_isSome (hutf : ∀ p s, fs.listing p = some s → ∀ n ∈ s, validUtf8 n = true)
    (hH : ∀ q p, ∃ r, H q p r = true) {j : Job P} (hinv : JobInv fs H j)
    (hp : j.pc ≠ .panicked) (hf : j.pc.isFinished = false) :
    ∃ r j' m, jobStep fs H j r false = some (j', m) := by
  obtain ⟨task, root, pc, handled, pushed, acked⟩ := j
  cases pc with
  | loop rest =>
    cases rest with
    | nil => exact ⟨none, _, _, rfl⟩
    | cons n rest =>
      obtain ⟨-, hroot, pre, hl, -⟩ := hinv
      dsimp only at hroot hl
      subst hroot
      have hv : validUtf8 n = true := hutf _ _ hl n (by simp)
      obtain ⟨r, hr⟩ := hH task.2 (task.1 ++ [n])
      refine ⟨r, ?_⟩
      simp only [jobStep, hv, hr, Bool.not_true, Bool.false_eq_true, if_false, if_true]
      split_ifs <;> exact ⟨_, _, rfl⟩
  | start | push rest q | idle => exact ⟨none, _, _, rfl⟩
  | finished => simp [Pc.isFinished] at hf
  | panicked => exact absurd rfl hp

theorem masterStep_isSome {w : Walk P} (hret : w.returned = false) (hc : w.chan ≠ []) :
    ∃ w', masterStep w = some w' := by
  obtain ⟨chan, running, returned, jobs⟩ := w
  obtain ⟨⟨s, m⟩, rest, rfl⟩ := List.exists_cons_of_ne_nil hc
  cases m <;> simp_all [masterStep]

theorem Inv.exists_unfinished {root : Path × P} {w : Walk P} (hi : Inv root w)
    (hret : w.returned = false) (hc : w.chan = []) :
    ∃ i : Nat, (w.jobs[i]?.map fun j : Job P => j.pc.isFinished) = some false := by
  have hjobs : w.jobs ≠ [] := fun h => by simp [(hi.start h).1] at hc
  have hpos := hi.live hret hjobs
  rw [hi.running] at hpos
  obtain ⟨j, hj, hja⟩ :=
    List.countP_pos_iff.mp (show 0 < w.jobs.countP (fun j => !j.acked) by omega)
  obtain ⟨i, hji⟩ := List.getElem?_of_mem hj
  refine ⟨i, ?_⟩
  cases hf : j.pc.isFinished
  · simp [hji, hf]
  · simpa [hc] using hi.pending i j hji (Pc.isFinished_iff.mp hf) (by simpa using hja)

theorem runnable_of_first {w : Walk P} {i : Nat} {j : Job P} (hj : w.jobs[i]? = some j)
    (hmin : ∀ k < i, (w.jobs[k]?.map fun j : Job P => j.pc.isFinished) ≠ some false) :
    w.runnable i = true := by
  simp only [Walk.runnable, List.all_eq_true, List.mem_range]
  intro k hk
  have hk' : k < w.jobs.length := lt_trans hk (List.getElem?_eq_some_iff.mp hj).1
  have := hmin k hk
  rw [List.getElem?_eq_getElem hk'] at this ⊢
  simp_all

theorem Inv.exists_runnable {root : Path × P} {w : Walk P} (hi : Inv root w)
    (hret : w.returned = false) (hc : w.chan = []) :
    ∃ i j, w.jobs[i]? = some j ∧ j.pc.isFinished = false ∧ w.runnable i = true := by
  classical
  have hex := hi.exists_unfinished hret hc
  obtain ⟨j, hj, hf⟩ := Option.map_eq_some'.mp (Nat.find_spec hex)
  exact ⟨_, j, hj, hf, runnable_of_first hj fun _ hk => Nat.find_min hex hk⟩

/-- With UTF-8 names and a `handle_path` that returns, some actor can move in every reachable
state in which the master has not returned: the master if a message is in flight, else the
first job that has not finished. -/
theorem reachable_can_move (hutf : ∀ p s, fs.listing p = some s → ∀ n ∈ s, validUtf8 n = true)
    (hH : ∀ q p, ∃ r, H q p r = true) {root : Path × P} {w : Walk P}
    (hw : Reachable fs H root w) (hret : w.returned = false) :
    ∃ a r w', next fs H w a r = some w' := by
  by_cases hc : w.chan = []
  case neg =>
    obtain ⟨w', h⟩ := masterStep_isSome hret hc
    exact ⟨.master, none, w', h⟩
  obtain ⟨i, j, hj, hf, hrun⟩ := (reachable_inv hw).exists_runnable hret hc
  obtain ⟨hinv, hp⟩ := reachable_not_panicked hutf hw j (List.getElem?_mem hj)
  obtain ⟨r, j', m, hs⟩ := jobStep_isSome hutf hH hinv hp hf
  exact ⟨.job i, r, { w with jobs := w.jobs.set i j', chan := m.toList.map (some i, ·) },
    by simp [next, hj, hrun, hc, threads, hs]⟩

/-- The walk completes: with UTF-8 names, a `handle_path` that returns and a tree no deeper than
`D`, some actor can move in every reachable state until the master returns, and no run from the
start makes more moves than the start's price. -/
theorem walk_completes {root : Path × P} {D : Nat}
    (hD : ∀ p : Path, D < p.length → fs.listing p = none)
    (hutf : ∀ p s, fs.listing p = some s → ∀ n ∈ s, validUtf8 n = true)
    (hH : ∀ q p, ∃ r, H q p r = true) :
    (∀ w, Reachable fs H root w → w.returned = false → ∃ a r w', next fs H w a r = some w') ∧
      ∀ moves w, run fs H (Walk.init root) moves = some w →
        moves.length ≤ walkCost fs D (Walk.init root) :=
  ⟨fun _ hw hret => reachable_can_move hutf hH hw hret,
   fun _ _ h => by have := run_length_le hD h; omega⟩

end Progress

/-! ## A name that is not UTF-8 -/

section Stuck

variable {fs : Fs} {H : P → Path → Option P → Bool} {p : Path} {s : List Name} {b : Name}

theorem takeWhile_append_empty {pre rest : List Name} (hpre : ∀ n ∈ pre, n ≠ [])
    (hrest : ∀ n rest', rest = n :: rest' → n = []) : (pre ++ rest).takeWhile (· ≠ []) = pre := by
  rw [List.takeWhile_append_of_pos (by simpa using hpre)]
  cases rest with
  | nil => simp
  | cons n rest' => simp [hrest n rest' rfl]

theorem jobStep_not_idle (hl : fs.listing p = some s) (hb : b ∈ s.takeWhile (· ≠ []))
    (hbad : validUtf8 b = false) {j j' : Job P} {r : Option P} {full : Bool}
    {m : Option (Msg P)} (hj : JobInv fs H j ∧ (j.task.1 = p → j.pc ≠ .idle ∧ j.pc ≠ .finished))
    (hs : jobStep fs H j r full = some (j', m)) (hp : j'.task.1 = p) :
    j'.pc ≠ .idle ∧ j'.pc ≠ .finished := by
  rw [(jobStep_frame hs).1] at hp
  obtain ⟨⟨-, hinv⟩, hQ⟩ := hj
  -- the loop ends only after every name before the first empty one, all UTF-8
  have hend : ∀ pre rest, fs.listing j.task.1 = some (pre ++ rest) →
      (∀ n ∈ pre, n ≠ [] ∧ validUtf8 n = true) → (∀ n rest', rest = n :: rest' → n = []) →
      False := fun pre rest hl' hpre hrest => by
    rw [hp, hl, Option.some.injEq] at hl'
    rw [hl', takeWhile_append_empty (fun n hn => (hpre n hn).1) hrest] at hb
    simp [(hpre b hb).2] at hbad
  cases jobStep_move hs with
  | start hpc =>
    simp only [hpc, JobInv] at hinv
    simp only [hinv.1, hp, hl]
    exact ⟨nofun, nofun⟩
  | done hpc =>
    simp only [hpc] at hinv
    obtain ⟨-, pre, hl', hpre, -⟩ := hinv
    exact (hend pre [] (by simpa using hl') hpre nofun).elim
  | empty hpc =>
    simp only [hpc] at hinv
    obtain ⟨-, pre, hl', hpre, -⟩ := hinv
    exact (hend pre _ hl' hpre fun _ _ h => (List.cons.inj h).1.symm).elim
  | idle hpc => exact absurd hpc (hQ hp).1
  | notUtf8 | skip | callNone | callSome | push => exact ⟨nofun, nofun⟩

/-- In every run, a job for such a directory is never idle nor finished. -/
theorem reachable_not_idle (hl : fs.listing p = some s) (hb : b ∈ s.takeWhile (· ≠ []))
    (hbad : validUtf8 b = false) {root : Path × P} {w : Walk P} (hw : Reachable fs H root w) :
    ∀ j ∈ w.jobs, j.task.1 = p → j.pc ≠ .idle ∧ j.pc ≠ .finished := by
  have hQ : ∀ j ∈ w.jobs, JobInv fs H j ∧ (j.task.1 = p → j.pc ≠ .idle ∧ j.pc ≠ .finished) :=
    reachable_jobs (fun t => ⟨jobInv_new fs H t, fun _ => ⟨nofun, nofun⟩⟩) (fun _ h => h)
      (fun h hs => ⟨jobInv_jobStep h.1 hs, jobStep_not_idle hl hb hbad h hs⟩) hw
  exact fun j hj => (hQ j hj).2

/-- A walk whose root directory hands over a name that is not UTF-8 never returns, whatever the
schedule and whatever `handle_path` answers: the root's job panics before its idle signal. -/
theorem walk_never_returns_of_nonUtf8 {root : Path × P} (hl : fs.listing root.1 = some s)
    (hb : b ∈ s.takeWhile (· ≠ [])) (hbad : validUtf8 b = false) {w : Walk P}
    (hw : Reachable fs H root w) : w.returned = false := by
  cases hret : w.returned
  · rfl
  · obtain ⟨-, htasks, hjobs⟩ := returned_walk_complete hw hret
    obtain ⟨j, hj, hjt⟩ := List.mem_map.mp (htasks.symm.subset (List.mem_cons_self _ _))
    exact absurd (hjobs j hj).1 (reachable_not_idle hl hb hbad hw j hj (by rw [hjt])).2

end Stuck

def oneFileFs : Fs := ⟨fun p => if p = [] then some [[0x61]] else none⟩

theorem walk_completes_one_file :
    (∀ w, Reachable oneFileFs (fun _ _ _ => true) ([], ()) w → w.returned = false →
      ∃ a r w', next oneFileFs (fun _ _ _ => true) w a r = some w') ∧
    ∀ moves w, run oneFileFs (fun _ _ _ => true) (Walk.init ([], ())) moves = some w →
      moves.length ≤ walkCost oneFileFs 0 (Walk.init ([], ())) :=
  walk_completes (fun _ hp => if_neg (List.ne_nil_of_length_pos hp))
    (fun p s h n hn => by
      simp only [oneFileFs] at h
      split_ifs at h
      cases h
      rw [List.mem_singleton.mp hn]
      decide)
    (fun _ _ => ⟨none, rfl⟩)

/-- A directory holding one entry whose name is the byte `0xFF`, which is not UTF-8. -/
def nonUtf8Fs : Fs := ⟨fun p => if p = [] then some [[0xFF]] else none⟩

/-- Whatever `handle_path` answers and whatever the schedule, the walk of `nonUtf8Fs` never
returns. -/
theorem walk_never_returns_on_non_utf8_name {P : Type} (H : P → Path → Option P → Bool) (x : P)
    (w : Walk P) (hw : Reachable nonUtf8Fs H ([], x) w) : w.returned = false :=
  walk_never_returns_of_nonUtf8 (show nonUtf8Fs.listing [] = some [[0xFF]] from rfl)
    (show [0xFF] ∈ [[(0xFF : UInt8)]].takeWhile (· ≠ []) by decide) rfl hw

/-- The root's job reads the name `0xFF` and panics, and the master, counting one running
worker, has nothing to receive. -/
theorem walk_stuck_on_non_utf8_name :
    ∃ w : Walk Unit, Reachable nonUtf8Fs (fun _ _ _ => true) ([], ()) w ∧ w.returned = false ∧
      w.running = 1 ∧ ∀ a r, next nonUtf8Fs (fun _ _ _ => true) w a r = none := by
  have hw := run_reachable .init (show run nonUtf8Fs (fun _ _ _ => true) (Walk.init ([], ()))
    [(.master, none), (.job 0, none), (.job 0, none)] =
      some ⟨[], 1, false, [⟨([], ()), [], .panicked, [], [], false⟩]⟩ from rfl)
  exact ⟨_, hw, walk_never_returns_on_non_utf8_name _ () _ hw, rfl,
    by rintro (_ | _ | i) r <;> rfl⟩

end ListDir

end HatBackup
