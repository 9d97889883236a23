/-
# `HatBackup.ListDir.Complete` — when the master returns, every directory has been listed

Each job carries, in its ghost fields, how far it has got through its directory: the names
`readdir` has given so far, the `handle_path` calls made for them and the tasks sent for the calls
that answered `Some`.  `JobInv` says these agree with the job's place in the `for` loop; every job
of every reachable state satisfies it.  With `Inv` this gives the walk's completeness: when the
master leaves its loop the channel is empty, every job has finished, its `handle_path` calls are
one per name its directory hands over, with its payload and the path `root/name`, and the jobs
are exactly the root task and the tasks sent.

**Proved here.**

    a job's ghost fields follow its progress               (`jobInv_jobStep`, `reachable_jobInv`)
    the master returns only once the walk is complete       (`returned_walk_complete`)
-/
import HatBackup.ListDir.Invariant

namespace HatBackup

namespace ListDir

variable {P : Type}

/-! ## The names a directory hands over -/

@[simp] theorem handedNames_nil : handedNames [] = [] := rfl

theorem handedNames_append {pre rest : List Name} (h : ∀ n ∈ pre, n ≠ []) :
    handedNames (pre ++ rest) = handedNames pre ++ handedNames rest := by
  have hw : (pre ++ rest).takeWhile (· ≠ []) = pre ++ rest.takeWhile (· ≠ []) :=
    List.takeWhile_append_of_pos (by simpa using h)
  have hp : pre.takeWhile (· ≠ []) = pre := List.takeWhile_eq_self_iff.mpr (by simpa using h)
  simp only [handedNames, hw, hp, List.filter_append]

@[simp] theorem handedNames_empty_cons (rest : List Name) : handedNames ([] :: rest) = [] := by
  simp [handedNames]

theorem handedNames_cons {n : Name} (h : n ≠ []) (rest : List Name) :
    handedNames (n :: rest) = (if n = dot ∨ n = dotdot then [] else [n]) ++ handedNames rest := by
  by_cases hd : n = dot ∨ n = dotdot
  · rw [if_pos hd]
    rcases hd with rfl | rfl <;>
      simp [handedNames, List.takeWhile_cons, List.filter_cons, dot, dotdot]
  · rw [if_neg hd]
    simp [handedNames, List.takeWhile_cons, h, List.filter_cons, not_or.mp hd]

/-! ## A job's ghost fields -/

/-- The calls a job for `task` makes for the names `ns`: its payload, and `path/name`. -/
def callsFor (task : Path × P) (ns : List Name) : List (P × Path) :=
  ns.map fun n => (task.2, task.1 ++ [n])

/-- The tasks sent for the calls that answered `Some`. -/
def childrenOf (handled : List (P × Path × Option P)) : List (Path × P) :=
  handled.filterMap fun c => c.2.2.map (c.2.1, ·)

def Job.calls (j : Job P) : List (P × Path) := j.handled.map fun c => (c.1, c.2.1)

/-- A job's ghost fields agree with its place in the `for` loop: `pre` is what `readdir` has
given so far, with no empty name and no name that is not UTF-8. -/
def JobInv (fs : Fs) (H : P → Path → Option P → Bool) (j : Job P) : Prop :=
  (∀ c ∈ j.handled, H c.1 c.2.1 c.2.2 = true) ∧
  match j.pc with
  | .start => j.root = j.task.1 ∧ j.handled = [] ∧ j.pushed = []
  | .loop rest => j.root = j.task.1 ∧ ∃ pre, fs.listing j.task.1 = some (pre ++ rest) ∧
      (∀ n ∈ pre, n ≠ [] ∧ validUtf8 n = true) ∧ j.calls = callsFor j.task (handedNames pre) ∧
      j.pushed = childrenOf j.handled
  | .push rest q => j.root.dropLast = j.task.1 ∧ ∃ pre, fs.listing j.task.1 = some (pre ++ rest) ∧
      (∀ n ∈ pre, n ≠ [] ∧ validUtf8 n = true) ∧ j.calls = callsFor j.task (handedNames pre) ∧
      ∃ hs, j.handled = hs ++ [(j.task.2, j.root, some q)] ∧ j.pushed = childrenOf hs
  | .idle | .finished => j.root = j.task.1 ∧
      j.calls = callsFor j.task (fs.names j.task.1) ∧
      j.pushed = childrenOf j.handled
  | .panicked => True

theorem listing_snoc {fs : Fs} {p : Path} {pre rest : List Name} {n : Name}
    (hl : fs.listing p = some (pre ++ n :: rest))
    (hpre : ∀ n' ∈ pre, n' ≠ [] ∧ validUtf8 n' = true) (hn : n ≠ []) (hv : validUtf8 n = true) :
    fs.listing p = some ((pre ++ [n]) ++ rest) ∧
      (∀ n' ∈ pre ++ [n], n' ≠ [] ∧ validUtf8 n' = true) ∧
      handedNames (pre ++ [n]) = handedNames pre ++ if n = dot ∨ n = dotdot then [] else [n] :=
  ⟨by simp [hl], List.forall_mem_append.mpr ⟨hpre, List.forall_mem_singleton.mpr ⟨hn, hv⟩⟩, by
    rw [handedNames_append fun n' h' => (hpre n' h').1, handedNames_cons hn, handedNames_nil,
      List.append_nil]⟩

theorem jobInv_jobStep {fs : Fs} {H : P → Path → Option P → Bool} {j j' : Job P} {r : Option P}
    {full : Bool} {m : Option (Msg P)} (hinv : JobInv fs H j)
    (hs : jobStep fs H j r full = some (j', m)) : JobInv fs H j' := by
  obtain ⟨task, root, pc, handled, pushed, acked⟩ := j
  simp only [JobInv] at hinv
  obtain ⟨hH, hinv⟩ := hinv
  cases jobStep_move hs with
  | start hpc =>
    cases hpc
    obtain ⟨rfl, rfl, rfl⟩ := hinv
    cases h : fs.listing task.1 with
    | none => simp [JobInv, h, Job.calls, callsFor, childrenOf, Fs.names]
    | some stream => simp only [JobInv, h]; exact ⟨hH, trivial, [], by simp, by simp, rfl, rfl⟩
  | done hpc =>
    cases hpc
    obtain ⟨rfl, pre, hl, -, hcalls, hpushed⟩ := hinv
    exact ⟨hH, rfl, by simpa [Fs.names, hl] using hcalls, hpushed⟩
  | notUtf8 => exact ⟨hH, trivial⟩
  | empty hpc =>
    cases hpc
    obtain ⟨rfl, pre, hl, hpre, hcalls, hpushed⟩ := hinv
    have hne : ∀ n ∈ pre, n ≠ [] := fun n h => (hpre n h).1
    exact ⟨hH, rfl, by simpa [Fs.names, hl, handedNames_append hne] using hcalls, hpushed⟩
  | skip hpc hv hn hd =>
    cases hpc
    obtain ⟨rfl, pre, hl, hpre, hcalls, hpushed⟩ := hinv
    obtain ⟨hl', hpre', hnames⟩ := listing_snoc hl hpre hn hv
    exact ⟨hH, rfl, pre ++ [_], hl', hpre', by simpa [hnames, hd] using hcalls, hpushed⟩
  | callNone hpc hv hn hd hr hH' =>
    cases hpc; cases hr
    obtain ⟨rfl, pre, hl, hpre, hcalls, hpushed⟩ := hinv
    obtain ⟨hl', hpre', hnames⟩ := listing_snoc hl hpre hn hv
    exact ⟨List.forall_mem_append.mpr ⟨hH, List.forall_mem_singleton.mpr hH'⟩, rfl, pre ++ [_],
      hl', hpre', by simpa [Job.calls, callsFor, hnames, hd] using hcalls,
      by simp [hpushed, childrenOf]⟩
  | callSome hpc hv hn hd hr hH' =>
    cases hpc; cases hr
    obtain ⟨rfl, pre, hl, hpre, hcalls, hpushed⟩ := hinv
    obtain ⟨hl', hpre', hnames⟩ := listing_snoc hl hpre hn hv
    exact ⟨List.forall_mem_append.mpr ⟨hH, List.forall_mem_singleton.mpr hH'⟩, by simp,
      pre ++ [_], hl', hpre', by simpa [Job.calls, callsFor, hnames, hd] using hcalls, handled,
      rfl, hpushed⟩
  | push hpc =>
    cases hpc
    obtain ⟨hroot, pre, hl, hpre, hcalls, hs', rfl, hpushed⟩ := hinv
    exact ⟨hH, hroot, pre, hl, hpre, hcalls, by simp [hpushed, childrenOf]⟩
  | idle hpc => cases hpc; exact ⟨hH, hinv⟩

theorem jobInv_new (fs : Fs) (H : P → Path → Option P → Bool) (t : Path × P) :
    JobInv fs H (Job.new t) :=
  ⟨by simp [Job.new], rfl, rfl, rfl⟩

/-- A property of jobs that every new job has, that the master's acknowledgement keeps and that
every job move keeps holds of every job of every reachable state. -/
theorem reachable_jobs {fs : Fs} {H : P → Path → Option P → Bool} {root : Path × P}
    {Q : Job P → Prop} (hnew : ∀ t, Q (Job.new t)) (hack : ∀ j, Q j → Q { j with acked := true })
    (hstep : ∀ {j j' : Job P} {r : Option P} {full : Bool} {m : Option (Msg P)}, Q j →
      jobStep fs H j r full = some (j', m) → Q j')
    {w : Walk P} (hw : Reachable fs H root w) : ∀ j ∈ w.jobs, Q j := by
  induction hw with
  | init => simp [Walk.init]
  | step _ h ih =>
    rename_i w w' a r _
    cases a with
    | master =>
      obtain ⟨-, ⟨s, rest, -, rfl⟩ | ⟨s, t, rest, -, rfl⟩⟩ := masterStep_cases h
      · intro j' hj'
        rcases mem_ackJob hj' with hj' | ⟨j, hj, rfl⟩
        · exact ih j' hj'
        · exact hack j (ih j hj)
      · intro j' hj'
        rcases List.mem_append.mp hj' with hj' | hj'
        · exact ih j' hj'
        · rw [List.mem_singleton.mp hj']; exact hnew t
    | job i =>
      obtain ⟨j, hj, -, j', m, hs, rfl⟩ := next_job_cases h
      intro x hx
      rcases List.mem_or_eq_of_mem_set hx with hx | rfl
      · exact ih x hx
      · exact hstep (ih j (List.getElem?_mem hj)) hs

theorem reachable_jobInv {fs : Fs} {H : P → Path → Option P → Bool} {root : Path × P}
    {w : Walk P} (hw : Reachable fs H root w) : ∀ j ∈ w.jobs, JobInv fs H j :=
  reachable_jobs (jobInv_new fs H) (fun _ h => h) jobInv_jobStep hw

/-! ## Completeness -/

/-- When the master leaves its loop, every message sent has been received, the jobs handed to
the pool are the root task and every task sent, each exactly once, and every job has finished:
its `root` is restored, and it called `handle_path` once for each name its directory handed
over, in order, with its payload and the path `root/name`, sending a task for each call that
answered `Some`. -/
theorem returned_walk_complete {fs : Fs} {H : P → Path → Option P → Bool} {root : Path × P}
    {w : Walk P} (hw : Reachable fs H root w) (hret : w.returned = true) :
    w.chan = [] ∧ (w.jobs.map Job.task).Perm (root :: w.jobs.flatMap Job.pushed) ∧
      ∀ j ∈ w.jobs, j.pc = .finished ∧ j.root = j.task.1 ∧
        j.calls = callsFor j.task (fs.names j.task.1) ∧
        j.pushed = childrenOf j.handled ∧ ∀ c ∈ j.handled, H c.1 c.2.1 c.2.2 = true := by
  have hi := reachable_inv hw
  obtain ⟨hchan, hacked⟩ := hi.done hret
  refine ⟨hchan, by simpa [hchan] using hi.tasks, fun j hj => ?_⟩
  obtain ⟨k, hk⟩ := List.getElem?_of_mem hj
  have hf := hi.acked k j hk (hacked k j hk)
  obtain ⟨hH, hpc⟩ := reachable_jobInv hw j hj
  simp only [hf] at hpc
  exact ⟨hf, hpc.1, hpc.2.1, hpc.2.2, hH⟩

end ListDir

end HatBackup
