/-
# `HatBackup.ListDir.Sequential` — a returned walk did what a sequential walk does

For a `handle_path` whose answer is a function `h` of its arguments, a returned walk has handed
the pool exactly the directory tasks a sequential, depth-first walk visits, each as often, and
its jobs made exactly the sequential walk's `handle_path` calls.  By `returned_walk_complete` the
tasks `T` of a returned walk solve `T ~ root :: T.flatMap subtasks`; when every task sends only
tasks of smaller measure (here: longer paths, in a tree no deeper than `D`), that equation has
one solution up to order, the tree of tasks below `root`.

**Proved here.**

    the tree of tasks is the equation's one solution   (`perm_taskTree_of_fixpoint`)
    a returned walk made the sequential walk's calls    (`returned_walk_sequential`)
    so the pool's schedule does not change what it did  (`returned_walks_agree`)
    at every point of any run, a job's calls begin its
    task's sequential calls, and the tasks and calls so
    far are among the sequential walk's                 (`reachable_within`, `reachable_walk_subperm`)

The last needs neither a returned walk nor UTF-8 names: a job that panics keeps what it did.
Every state's tasks `T` satisfy `T <+~ root :: T.flatMap subtasks`, and such a `T` lies within
the one solution of the equation (`subperm_of_prefixpoint`).
-/
import HatBackup.ListDir.Complete
import HatBackup.ListDir.Progress
import Mathlib.Algebra.Order.BigOperators.Group.List
import Mathlib.Algebra.Order.Ring.Nat

namespace HatBackup

namespace ListDir

/-! ## Trees of tasks -/

section TaskTree

variable {α : Type} (c : α → List α)

/-- The tasks below `t` when each task `u` sends the tasks `c u`, `k` levels explored. -/
def taskTree : Nat → α → List α
  | 0, t => [t]
  | k + 1, t => t :: (c t).flatMap (taskTree k)

variable {c} {μ : α → Nat}

theorem taskTree_perm (hμ : ∀ t, ∀ u ∈ c t, μ u < μ t) :
    ∀ k t, μ t ≤ k → (taskTree c k t).Perm (t :: (taskTree c k t).flatMap c)
  | 0, t, h => by
    have : c t = [] := List.eq_nil_iff_forall_not_mem.mpr fun u hu => by
      have := hμ t u hu; omega
    simp [taskTree, this]
  | k + 1, t, h => by
    have ih : ∀ u ∈ c t, (taskTree c k u).Perm (u :: (taskTree c k u).flatMap c) :=
      fun u hu => taskTree_perm hμ k u (by have := hμ t u hu; omega)
    simp only [taskTree, List.flatMap_cons, List.flatMap_assoc]
    have hsplit :=
      (List.flatMap_append_perm (c t) (fun u => [u]) fun u => (taskTree c k u).flatMap c).symm
    simp only [List.singleton_append, List.flatMap_singleton'] at hsplit
    exact ((List.Perm.flatMap_left _ ih).trans hsplit).cons t

theorem sum_map_filter_of_ne_zero {l : List α} {g : α → Nat} {p : α → Bool}
    (h : ∀ t, g t ≠ 0 → p t = true) : ((l.filter p).map g).sum = (l.map g).sum := by
  induction l with
  | nil => rfl
  | cons a l ih =>
    by_cases ha : p a = true
    · simp [List.filter_cons, ha, ih]
    · have : g a = 0 := by by_contra h'; exact ha (h a h')
      simp [List.filter_cons, ha, ih, this]

/-- Two lists that both solve `T ~ r :: T.flatMap c` are permutations of each other: counted
from the largest measure down, each element occurs in both as often as the tasks that send it. -/
theorem perm_of_fixpoint (hμ : ∀ t, ∀ u ∈ c t, μ u < μ t) {r : α} {T T' : List α}
    (hT : T.Perm (r :: T.flatMap c)) (hT' : T'.Perm (r :: T'.flatMap c)) : T.Perm T' := by
  classical
  obtain ⟨N, hN⟩ : ∃ N, ∀ x ∈ T ++ T', μ x < N :=
    ⟨((T ++ T').map μ).sum + 1, fun x hx =>
      Nat.lt_succ_of_le (List.le_sum_of_mem (List.mem_map_of_mem μ hx))⟩
  have key : ∀ n x, N ≤ μ x + n → T.count x = T'.count x := by
    intro n
    induction n with
    | zero =>
      intro x hx
      have hT0 : x ∉ T := fun h => by have := hN x (List.mem_append_left _ h); omega
      have hT0' : x ∉ T' := fun h => by have := hN x (List.mem_append_right _ h); omega
      rw [List.count_eq_zero_of_not_mem hT0, List.count_eq_zero_of_not_mem hT0']
    | succ n ih =>
      intro x hx
      let p : α → Bool := fun t => decide (N ≤ μ t + n)
      have hfilter : (T.filter p).Perm (T'.filter p) := by
        refine List.perm_iff_count.mpr fun y => ?_
        by_cases hy : p y = true
        · rw [List.count_filter hy, List.count_filter hy]
          exact ih y (by simpa [p] using hy)
        · rw [List.count_eq_zero_of_not_mem (fun h => hy (List.mem_filter.mp h).2),
            List.count_eq_zero_of_not_mem (fun h => hy (List.mem_filter.mp h).2)]
      -- only the tasks of larger measure than `x` can send it
      have hsend : ∀ t, (List.count x ∘ c) t ≠ 0 → p t = true := fun t ht => by
        have := hμ t x (List.count_pos_iff.mp (Nat.pos_of_ne_zero ht))
        simp only [p, decide_eq_true_eq]; omega
      rw [hT.count_eq, hT'.count_eq, List.count_cons, List.count_cons, List.count_flatMap,
        List.count_flatMap, ← sum_map_filter_of_ne_zero hsend,
        ← @sum_map_filter_of_ne_zero _ T' _ _ hsend]
      simp only [Function.comp_def, (hfilter.map _).sum_eq]
  exact List.perm_iff_count.mpr fun x => key N x (by omega)

theorem perm_taskTree_of_fixpoint (hμ : ∀ t, ∀ u ∈ c t, μ u < μ t) {r : α} {T : List α} {k : Nat}
    (hT : T.Perm (r :: T.flatMap c)) (hk : μ r ≤ k) : T.Perm (taskTree c k r) :=
  perm_of_fixpoint hμ hT (taskTree_perm hμ k r hk)

theorem subperm_of_prefixpoint (hμ : ∀ t, ∀ u ∈ c t, μ u < μ t) {r : α} {T T' : List α}
    (hT : T.Subperm (r :: T.flatMap c)) (hT' : T'.Perm (r :: T'.flatMap c)) : T.Subperm T' := by
  classical
  obtain ⟨N, hN⟩ : ∃ N, ∀ x ∈ T, μ x < N :=
    ⟨(T.map μ).sum + 1, fun x hx =>
      Nat.lt_succ_of_le (List.le_sum_of_mem (List.mem_map_of_mem μ hx))⟩
  have key : ∀ n x, N ≤ μ x + n → T.count x ≤ T'.count x := by
    intro n
    induction n with
    | zero =>
      intro x hx
      rw [List.count_eq_zero_of_not_mem fun h => by have := hN x h; omega]
      exact Nat.zero_le _
    | succ n ih =>
      intro x hx
      let p : α → Bool := fun t => decide (N ≤ μ t + n)
      have hfilter : (T.filter p).Subperm (T'.filter p) := List.subperm_ext_iff.mpr fun y hy => by
        have hpy := (List.mem_filter.mp hy).2
        rw [List.count_filter hpy, List.count_filter hpy]
        exact ih y (by simpa [p] using hpy)
      -- only the tasks of larger measure than `x` can send it
      have hsend : ∀ t, (List.count x ∘ c) t ≠ 0 → p t = true := fun t ht => by
        have := hμ t x (List.count_pos_iff.mp (Nat.pos_of_ne_zero ht))
        simp only [p, decide_eq_true_eq]; omega
      have hsum : (T.map (List.count x ∘ c)).sum ≤ (T'.map (List.count x ∘ c)).sum := by
        rw [← @sum_map_filter_of_ne_zero _ T _ _ hsend, ← @sum_map_filter_of_ne_zero _ T' _ _ hsend]
        obtain ⟨l, hl, hsub⟩ := hfilter
        exact (hl.map _).sum_eq.symm.trans_le ((hsub.map _).sum_le_sum fun _ _ => Nat.zero_le _)
      calc T.count x ≤ (r :: T.flatMap c).count x := hT.count_le x
        _ ≤ (r :: T'.flatMap c).count x := by
          rw [List.count_cons, List.count_cons, List.count_flatMap, List.count_flatMap]
          exact Nat.add_le_add_right hsum _
        _ = T'.count x := (hT'.count_eq x).symm
  exact List.subperm_ext_iff.mpr fun x _ => key N x (by omega)

end TaskTree

/-! ## The sequential walk -/

section Walk

variable {P : Type} (fs : Fs) (h : P → Path → Option P)

/-- A `handle_path` that answers as `h` does. -/
def answersBy [DecidableEq P] : P → Path → Option P → Bool := fun q p r => decide (r = h q p)

def callsOf (t : Path × P) : List (P × Path × Option P) :=
  (fs.names t.1).map fun n => (t.2, t.1 ++ [n], h t.2 (t.1 ++ [n]))

def subtasks (t : Path × P) : List (Path × P) := childrenOf (callsOf fs h t)

/-- The tasks a sequential walk from `root` visits, in a tree no deeper than `D`. -/
def seqTasks (D : Nat) (root : Path × P) : List (Path × P) :=
  taskTree (subtasks fs h) (D + 1 - root.1.length) root

variable {fs h}

theorem Fs.names_eq_nil {D : Nat} (hD : ∀ p : Path, D < p.length → fs.listing p = none)
    {p : Path} (hp : D < p.length) : fs.names p = [] := by
  simp [Fs.names, hD p hp]

theorem subtasks_lt {D : Nat} (hD : ∀ p : Path, D < p.length → fs.listing p = none)
    (t u : Path × P) (hu : u ∈ subtasks fs h t) : D + 1 - u.1.length < D + 1 - t.1.length := by
  simp only [subtasks, childrenOf, callsOf, List.filterMap_map, List.mem_filterMap,
    Function.comp_apply, Option.map_eq_some'] at hu
  obtain ⟨n, hn, q, -, rfl⟩ := hu
  have ht : t.1.length ≤ D := by
    by_contra hgt
    simp [Fs.names_eq_nil hD (Nat.lt_of_not_le hgt)] at hn
  simp only [List.length_append, List.length_singleton]
  omega

theorem handled_eq_callsOf [DecidableEq P] {t : Path × P} {hs : List (P × Path × Option P)}
    (hc : hs.map (fun c => (c.1, c.2.1)) = callsFor t (fs.names t.1))
    (hH : ∀ c ∈ hs, answersBy h c.1 c.2.1 c.2.2 = true) : hs = callsOf fs h t :=
  calc hs = hs.map fun c => (c.1, c.2.1, h c.1 c.2.1) :=
        (List.map_id hs).symm.trans <| List.map_congr_left fun c hm => by
          obtain ⟨q, p, r⟩ := c
          simpa [answersBy] using hH _ hm
    _ = (hs.map fun c => (c.1, c.2.1)).map fun m => (m.1, m.2, h m.1 m.2) := by
        rw [List.map_map]; rfl
    _ = callsOf fs h t := by rw [hc]; simp [callsFor, callsOf, Function.comp_def]

/-- A returned walk whose `handle_path` answers as `h` does handed the pool the tasks of the
sequential walk, each as often, and made the sequential walk's calls. -/
theorem returned_walk_sequential [DecidableEq P] {D : Nat} (hD : ∀ p : Path, D < p.length → fs.listing p = none)
    {root : Path × P} {w : Walk P} (hw : Reachable fs (answersBy h) root w)
    (hret : w.returned = true) :
    (w.jobs.map Job.task).Perm (seqTasks fs h D root) ∧
      (w.jobs.flatMap Job.handled).Perm ((seqTasks fs h D root).flatMap (callsOf fs h)) := by
  obtain ⟨-, htasks, hjobs⟩ := returned_walk_complete hw hret
  have hcalls : ∀ j ∈ w.jobs, j.handled = callsOf fs h j.task := fun j hj =>
    handled_eq_callsOf (hjobs j hj).2.2.1 (hjobs j hj).2.2.2.2
  have hpushed : w.jobs.flatMap Job.pushed = (w.jobs.map Job.task).flatMap (subtasks fs h) := by
    rw [List.flatMap_map]
    exact List.flatMap_congr fun j hj => by rw [(hjobs j hj).2.2.2.1, hcalls j hj]; rfl
  have hT : (w.jobs.map Job.task).Perm (seqTasks fs h D root) :=
    perm_taskTree_of_fixpoint (subtasks_lt hD) (hpushed ▸ htasks) le_rfl
  have hhandled : w.jobs.flatMap Job.handled = (w.jobs.map Job.task).flatMap (callsOf fs h) := by
    rw [List.flatMap_map]; exact List.flatMap_congr hcalls
  exact ⟨hT, hhandled ▸ hT.flatMap_right _⟩

/-- The pool's schedule does not matter: any two returned walks from one root, with a
`handle_path` that answers as `h` does, handed the pool the same tasks and made the same
`handle_path` calls, each as often, whatever the order the threads ran in. -/
theorem returned_walks_agree [DecidableEq P] {D : Nat}
    (hD : ∀ p : Path, D < p.length → fs.listing p = none) {root : Path × P} {w w' : Walk P}
    (hw : Reachable fs (answersBy h) root w) (hret : w.returned = true)
    (hw' : Reachable fs (answersBy h) root w') (hret' : w'.returned = true) :
    (w.jobs.map Job.task).Perm (w'.jobs.map Job.task) ∧
      (w.jobs.flatMap Job.handled).Perm (w'.jobs.flatMap Job.handled) := by
  obtain ⟨hT, hC⟩ := returned_walk_sequential hD hw hret
  obtain ⟨hT', hC'⟩ := returned_walk_sequential hD hw' hret'
  exact ⟨hT.trans hT'.symm, hC.trans hC'.symm⟩

end Walk

/-- The root lists directories `a` and `b`; `a` lists a directory `c`, `b` a directory `d`. -/
def twoDirsFs : Fs := ⟨fun p =>
  if p = [] then some [[0x61], [0x62]] else if p = [[0x61]] then some [[0x63]]
  else if p = [[0x62]] then some [[0x64]]
  else if p = [[0x61], [0x63]] ∨ p = [[0x62], [0x64]] then some [] else none⟩

def allDirs (_ : Unit) (_ : Path) : Option Unit := some ()

/-- The jobs for `a` and `b` run one after the other, so the task for `c` reaches the master
first. -/
def aFirst : List (Actor × Option Unit) :=
  [(.master, none), (.job 0, none), (.job 0, some ()), (.job 0, none), (.job 0, some ()),
    (.job 0, none), (.job 0, none), (.job 0, none), (.master, none), (.master, none),
    (.master, none)] ++
  [(.job 1, none), (.job 1, some ()), (.job 1, none), (.job 1, none), (.job 1, none)] ++
  [(.job 2, none), (.job 2, some ()), (.job 2, none), (.job 2, none), (.job 2, none)] ++
  [(.master, none), (.master, none), (.master, none), (.master, none),
    (.job 3, none), (.job 3, none), (.job 3, none), (.job 4, none), (.job 4, none),
    (.job 4, none), (.master, none), (.master, none)]

/-- As `aFirst`, but the job for `b` runs first, so the task for `d` reaches the master first. -/
def bFirst : List (Actor × Option Unit) :=
  aFirst.take 11 ++
  [(.job 2, none), (.job 2, some ()), (.job 2, none), (.job 2, none), (.job 2, none)] ++
  [(.job 1, none), (.job 1, some ()), (.job 1, none), (.job 1, none), (.job 1, none)] ++
  aFirst.drop 21

theorem returned_walks_agree_two_schedules :
    ∃ w w', Reachable twoDirsFs (answersBy allDirs) ([], ()) w ∧ w.returned = true ∧
      Reachable twoDirsFs (answersBy allDirs) ([], ()) w' ∧ w'.returned = true ∧
      w.jobs.map Job.task ≠ w'.jobs.map Job.task ∧
      (w.jobs.map Job.task).Perm (w'.jobs.map Job.task) ∧
      (w.jobs.flatMap Job.handled).Perm (w'.jobs.flatMap Job.handled) := by
  have hD : ∀ p : Path, 2 < p.length → twoDirsFs.listing p = none := fun p hp => by
    simp only [twoDirsFs]
    split_ifs with h₁ h₂ h₃ h₄ <;> try rcases h₄ with h₄ | h₄
    all_goals first | rfl | (subst_vars; simp at hp)
  have hA := run_reachable .init (show run twoDirsFs (answersBy allDirs) (Walk.init ([], ()))
    aFirst = some _ from rfl)
  have hB := run_reachable .init (show run twoDirsFs (answersBy allDirs) (Walk.init ([], ()))
    bFirst = some _ from rfl)
  exact ⟨_, _, hA, rfl, hB, rfl, by decide, returned_walks_agree hD hA rfl hB rfl⟩

/-! ## At every point of a run -/

section Lists

variable {α β : Type}

theorem flatMap_sublist_of_sublist {l₁ l₂ : List α} (h : l₁.Sublist l₂)
    (f : α → List β) : (l₁.flatMap f).Sublist (l₂.flatMap f) := by
  induction h with
  | slnil => exact .slnil
  | cons a _ ih => rw [List.flatMap_cons]; exact ih.trans (List.sublist_append_right _ _)
  | cons₂ a _ ih => rw [List.flatMap_cons, List.flatMap_cons]; exact ih.append_left (f a)

theorem flatMap_sublist_of_forall {l : List α} {f g : α → List β}
    (h : ∀ a ∈ l, (f a).Sublist (g a)) : (l.flatMap f).Sublist (l.flatMap g) := by
  induction l with
  | nil => exact .slnil
  | cons a l ih =>
    rw [List.flatMap_cons, List.flatMap_cons]
    exact (h a (List.mem_cons_self _ _)).append (ih fun b hb => h b (List.mem_cons_of_mem _ hb))

theorem subperm_flatMap {l₁ l₂ : List α} (h : l₁.Subperm l₂) (f : α → List β) :
    (l₁.flatMap f).Subperm (l₂.flatMap f) :=
  let ⟨l, hl, hs⟩ := h
  ⟨l.flatMap f, hl.flatMap_right f, flatMap_sublist_of_sublist hs f⟩

theorem subperm_filterMap {l₁ l₂ : List α} (h : l₁.Subperm l₂) (f : α → Option β) :
    (l₁.filterMap f).Subperm (l₂.filterMap f) :=
  let ⟨l, hl, hs⟩ := h
  ⟨l.filterMap f, hl.filterMap f, hs.filterMap f⟩

end Lists

section Within

variable {P : Type}

/-- What a job has done so far is the start of what the sequential walk does for its task. -/
structure Job.Within (fs : Fs) (h : P → Path → Option P) (j : Job P) : Prop where
  /-- Its calls are the first of those the sequential walk makes for its task, -/
  calls : j.handled.IsPrefix (callsOf fs h j.task)
  /-- and each task it sent was the answer of one of its calls. -/
  pushed : j.pushed.Sublist (childrenOf j.handled)

variable {fs : Fs} {h : P → Path → Option P}

theorem Job.Within.sent {j : Job P} (hj : j.Within fs h) :
    j.pushed.Sublist (subtasks fs h j.task) :=
  hj.pushed.trans (hj.calls.sublist.filterMap _)

theorem handled_prefix_callsOf [DecidableEq P] {t : Path × P} {pre rest : List Name}
    {hs : List (P × Path × Option P)} (hl : fs.listing t.1 = some (pre ++ rest))
    (hpre : ∀ n ∈ pre, n ≠ [] ∧ validUtf8 n = true)
    (hc : hs.map (fun c => (c.1, c.2.1)) = callsFor t (handedNames pre))
    (hH : ∀ c ∈ hs, answersBy h c.1 c.2.1 c.2.2 = true) : hs.IsPrefix (callsOf fs h t) := by
  -- they are all the calls for a directory that lists `pre` alone
  have hs_eq : hs = callsOf ⟨fun _ => some pre⟩ h t := handled_eq_callsOf hc hH
  rw [hs_eq]
  simp only [callsOf, Fs.names, hl, Option.elim, handedNames_append fun n hn => (hpre n hn).1,
    List.map_append]
  exact List.prefix_append _ _

theorem within_of_jobInv [DecidableEq P] {j : Job P} (hj : JobInv fs (answersBy h) j)
    (hp : j.pc ≠ .panicked) : j.Within fs h := by
  obtain ⟨task, root, pc, handled, pushed, acked⟩ := j
  simp only [JobInv] at hj
  obtain ⟨hH, hinv⟩ := hj
  cases pc with
  | start =>
    obtain ⟨-, rfl, rfl⟩ := hinv
    exact ⟨List.nil_prefix, List.nil_sublist _⟩
  | loop rest =>
    obtain ⟨-, pre, hl, hpre, hcalls, rfl⟩ := hinv
    exact ⟨handled_prefix_callsOf hl hpre hcalls hH, List.Sublist.refl _⟩
  | push rest q =>
    obtain ⟨-, pre, hl, hpre, hcalls, hs, rfl, rfl⟩ := hinv
    exact ⟨handled_prefix_callsOf hl hpre hcalls hH,
      (List.prefix_append hs _).sublist.filterMap _⟩
  | idle | finished =>
    obtain ⟨-, hcalls, rfl⟩ := hinv
    obtain rfl : handled = callsOf fs h task := handled_eq_callsOf hcalls hH
    exact ⟨List.prefix_rfl, List.Sublist.refl _⟩
  | panicked => exact absurd rfl hp

theorem jobStep_panicked {H : P → Path → Option P → Bool} {j j' : Job P} {r : Option P}
    {full : Bool} {m : Option (Msg P)} (hs : jobStep fs H j r full = some (j', m))
    (hp : j'.pc = .panicked) : j' = { j with pc := .panicked } := by
  cases jobStep_move hs with
  | notUtf8 => rfl
  | start => revert hp; split <;> nofun
  | _ => cases hp

theorem within_jobStep [DecidableEq P] {j j' : Job P} {r : Option P} {full : Bool}
    {m : Option (Msg P)} (hj : JobInv fs (answersBy h) j ∧ j.Within fs h)
    (hs : jobStep fs (answersBy h) j r full = some (j', m)) : j'.Within fs h := by
  by_cases hp : j'.pc = .panicked
  · -- the panic leaves the calls and the tasks sent as they were
    rw [jobStep_panicked hs hp]
    exact ⟨hj.2.calls, hj.2.pushed⟩
  · exact within_of_jobInv (jobInv_jobStep hj.1 hs) hp

/-- Every job of every reachable state is within its task's sequential calls. -/
theorem reachable_within [DecidableEq P] {root : Path × P} {w : Walk P}
    (hw : Reachable fs (answersBy h) root w) : ∀ j ∈ w.jobs, j.Within fs h := by
  have hQ : ∀ j ∈ w.jobs, JobInv fs (answersBy h) j ∧ j.Within fs h :=
    reachable_jobs (fun t => ⟨jobInv_new fs _ t, List.nil_prefix, List.nil_sublist _⟩)
      (fun _ hj => ⟨hj.1, hj.2.calls, hj.2.pushed⟩)
      (fun hj hs => ⟨jobInv_jobStep hj.1 hs, within_jobStep hj hs⟩) hw
  exact fun j hj => (hQ j hj).2

theorem reachable_task_sent [DecidableEq P] {root : Path × P} {w : Walk P}
    (hw : Reachable fs (answersBy h) root w) {j : Job P} (hj : j ∈ w.jobs) :
    j.task = root ∨
      ∃ j' ∈ w.jobs, ∃ c ∈ j'.handled, c.2.1 = j.task.1 ∧ c.2.2 = some j.task.2 := by
  have hmem : j.task ∈ root :: w.jobs.flatMap Job.pushed :=
    (reachable_inv hw).tasks.subset (List.mem_append_left _ (List.mem_map_of_mem _ hj))
  rcases List.mem_cons.mp hmem with hr | hr
  · exact .inl hr
  · obtain ⟨j', hj', ht⟩ := List.mem_flatMap.mp hr
    obtain ⟨c, hc, hct⟩ := List.mem_filterMap.mp ((reachable_within hw j' hj').pushed.subset ht)
    obtain ⟨q, hq, hqt⟩ := Option.map_eq_some'.mp hct
    exact .inr ⟨j', hj', c, hc, by rw [← hqt], by rw [hq, ← hqt]⟩

/-- At every point of every run, whatever the pool has scheduled and whether or not a job has
panicked, the tasks handed to the pool are among those the sequential walk visits, none more
often, and the calls made so far are among the sequential walk's calls. -/
theorem reachable_walk_subperm [DecidableEq P] {D : Nat}
    (hD : ∀ p : Path, D < p.length → fs.listing p = none) {root : Path × P} {w : Walk P}
    (hw : Reachable fs (answersBy h) root w) :
    (w.jobs.map Job.task).Subperm (seqTasks fs h D root) ∧
      (w.jobs.flatMap Job.handled).Subperm ((seqTasks fs h D root).flatMap (callsOf fs h)) := by
  have hin := reachable_within hw
  -- the tasks of the jobs and of the channel send no more than the sequential walk's subtasks
  have hpushed : (w.jobs.flatMap Job.pushed).Sublist
      ((w.jobs.map Job.task ++ w.chan.filterMap (·.2)).flatMap (subtasks fs h)) := by
    rw [List.flatMap_append, List.flatMap_map]
    exact (flatMap_sublist_of_forall fun j hj => (hin j hj).sent).trans
      (List.sublist_append_left _ _)
  have hA := subperm_of_prefixpoint (subtasks_lt hD)
    ((reachable_inv hw).tasks.subperm.trans (hpushed.cons₂ root).subperm)
    (taskTree_perm (subtasks_lt hD) _ root le_rfl)
  have hT : (w.jobs.map Job.task).Subperm (seqTasks fs h D root) :=
    (List.sublist_append_left _ _).subperm.trans hA
  have hcalls :
      (w.jobs.flatMap Job.handled).Sublist ((w.jobs.map Job.task).flatMap (callsOf fs h)) := by
    rw [List.flatMap_map]
    exact flatMap_sublist_of_forall fun j hj => (hin j hj).calls.sublist
  exact ⟨hT, hcalls.subperm.trans (subperm_flatMap hT _)⟩

end Within

end ListDir

end HatBackup
