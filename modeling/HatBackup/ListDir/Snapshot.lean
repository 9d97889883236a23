/-
# `HatBackup.ListDir.Snapshot` — what `snapshot_dir` sends the key store

`snapshot_dir(dir)` walks `dir` with an `InsertPathHandler`.  Its `handle_path(parent, path)`
makes a `FileEntry` of `path` from its file name and `lstat`, skips it when that fails or when
it is a symlink, and otherwise sends `Insert(entry)` to the key store; for a directory it
answers `Some(id)`, the id the key store replied with, which becomes the parent id of the
directory's own entries.

The handler's answer is a function of its arguments, so a returned walk made the calls of the
sequential walk (`returned_walk_sequential`).  `recordedEntries` says which entries these send,
in the words of the snapshot's purpose: every entry listed in `dir`, or in a directory entry
recorded below it, whose `lstat` succeeds and which is not a symlink.

**Proved here.**

    a returned snapshot sent each recorded entry once    (`returned_snapshot_inserts`)
    a symlink listed in `dir` is not sent                 (`snapshot_skips_symlink`)
    at every point, returned or stuck, what was sent is
    among the recorded entries, none sent twice           (`reachable_inserts_subperm`)
    and each entry sent is listed in `dir` or in a
    directory already sent, whose id is its parent id     (`reachable_inserts_parent_sent`)
-/
import HatBackup.ListDir.Progress
import HatBackup.ListDir.Sequential

namespace HatBackup

namespace ListDir

/-- What `lstat` says an entry is, as far as `handle_path` asks (`is_symlink`, `is_directory`). -/
inductive FileKind where
  | file
  | directory
  | symlink
  deriving DecidableEq, Repr

abbrev KeyId := List UInt8

/-- `FileEntry`: the file name, the id of the directory it is listed in, what `lstat` returned
and the full path. -/
structure FileEntry (S : Type) where
  name : Name
  parentId : Option KeyId
  stat : S
  fullPath : Path

/-- What a snapshot reads besides the listings: `lstat` (an error text when it fails) with the
kind of file it reports, and the key store's answer to `Insert`. -/
structure Snap (S : Type) where
  lstat : Path → Except String S
  kind : S → FileKind
  /-- Modelled from the spec: the key store is not under src/; `Insert(entry)` replies
  `Id(id)` with an id it computes from the entry. -/
  keyId : FileEntry S → KeyId

variable {S : Type}

/-- `Path::filename`: the last component, unless there is none or it is `..`. -/
def filename (p : Path) : Option Name :=
  p.getLast?.bind fun n => if n = dotdot then none else some n

def FileEntry.new (snap : Snap S) (fullPath : Path) (parent : Option KeyId) :
    Except String (FileEntry S) :=
  match filename fullPath with
  | some n => (snap.lstat fullPath).map fun st => ⟨n, parent, st, fullPath⟩
  | none => .error "Could not parse filename."

/-- `InsertPathHandler::handle_path(parent, path)`: the entry it sends with `Insert`, if any,
and its answer. -/
def handlePath (snap : Snap S) (parent : Option KeyId) (path : Path) :
    Option (FileEntry S) × Option (Option KeyId) :=
  match FileEntry.new snap path parent with
  | .error _ => (none, none)
  | .ok e =>
    if snap.kind e.stat = .symlink then (none, none)
    else (some e, if snap.kind e.stat = .directory then some (some (snap.keyId e)) else none)

def insertHandler (snap : Snap S) : Option KeyId → Path → Option (Option KeyId) → Bool :=
  answersBy fun q p => (handlePath snap q p).2

/-- The `Insert`s a walk with `InsertPathHandler` has sent, job by job. -/
def sentInserts (snap : Snap S) (w : Walk (Option KeyId)) : List (FileEntry S) :=
  w.jobs.flatMap fun j => j.handled.filterMap fun c => (handlePath snap c.1 c.2.1).1

/-- The entries a snapshot of the directory `p` records, `k` levels deep: each entry `p` lists
whose `lstat` succeeds and which is not a symlink, with `parent` as parent id, and after each
directory among them its own entries, with the key store's id for the directory as parent. -/
def recordedEntries (fs : Fs) (snap : Snap S) : Nat → Path → Option KeyId → List (FileEntry S)
  | 0, _, _ => []
  | k + 1, p, parent => (fs.names p).flatMap fun n =>
    match snap.lstat (p ++ [n]) with
    | .error _ => []
    | .ok st =>
      match snap.kind st with
      | .symlink => []
      | .file => [⟨n, parent, st, p ++ [n]⟩]
      | .directory => ⟨n, parent, st, p ++ [n]⟩ ::
          recordedEntries fs snap k (p ++ [n]) (some (snap.keyId ⟨n, parent, st, p ++ [n]⟩))

/-! ## The handler on a listed name -/

theorem ne_dotdot_of_mem_names {fs : Fs} {p : Path} {n : Name} (h : n ∈ fs.names p) :
    n ≠ dotdot := by
  cases hl : fs.listing p with
  | none => simp [Fs.names, hl] at h
  | some s =>
    simp only [Fs.names, hl, Option.elim, handedNames, List.mem_filter] at h
    exact (by simpa using h.2 : n ≠ dot ∧ n ≠ dotdot).2

theorem recorded_name_eq {fs : Fs} (snap : Snap S) (k : Nat) {p : Path} {n : Name} (hn : n ≠ dotdot)
    (q : Option KeyId) :
    (match snap.lstat (p ++ [n]) with
      | .error _ => []
      | .ok st =>
        match snap.kind st with
        | .symlink => []
        | .file => [⟨n, q, st, p ++ [n]⟩]
        | .directory => ⟨n, q, st, p ++ [n]⟩ ::
            recordedEntries fs snap k (p ++ [n]) (some (snap.keyId ⟨n, q, st, p ++ [n]⟩))) =
      (handlePath snap q (p ++ [n])).1.toList ++
        (((handlePath snap q (p ++ [n])).2.map (p ++ [n], ·)).toList.flatMap fun u =>
          recordedEntries fs snap k u.1 u.2) := by
  simp only [handlePath, FileEntry.new, filename, List.getLast?_concat, Option.some_bind, hn,
    if_false]
  cases snap.lstat (p ++ [n]) with
  | error => rfl
  | ok st => cases hk : snap.kind st <;> simp [Except.map, hk]

/-! ## What a returned snapshot sent -/

section Returned

variable {fs : Fs} {snap : Snap S}

theorem callsOf_inserts (t : Path × Option KeyId) :
    (callsOf fs (fun q p => (handlePath snap q p).2) t).filterMap
        (fun c => (handlePath snap c.1 c.2.1).1) =
      (fs.names t.1).flatMap fun n => (handlePath snap t.2 (t.1 ++ [n])).1.toList := by
  simp [callsOf, List.filterMap_eq_flatMap_toList, List.flatMap_map, Function.comp_def]

theorem subtasks_eq (t : Path × Option KeyId) :
    subtasks fs (fun q p => (handlePath snap q p).2) t =
      (fs.names t.1).flatMap fun n =>
        ((handlePath snap t.2 (t.1 ++ [n])).2.map (t.1 ++ [n], ·)).toList := by
  simp [subtasks, childrenOf, callsOf, List.filterMap_eq_flatMap_toList, List.flatMap_map,
    Function.comp_def]

theorem taskTree_inserts_perm {D : Nat} (hD : ∀ p : Path, D < p.length → fs.listing p = none) :
    ∀ k (t : Path × Option KeyId), D + 1 - t.1.length ≤ k →
      ((taskTree (subtasks fs fun q p => (handlePath snap q p).2) k t).flatMap fun t =>
        (callsOf fs (fun q p => (handlePath snap q p).2) t).filterMap
          (fun c => (handlePath snap c.1 c.2.1).1)).Perm (recordedEntries fs snap k t.1 t.2)
  | 0, t, hk => by
    simp [taskTree, recordedEntries, callsOf, Fs.names_eq_nil hD (show D < t.1.length by omega)]
  | k + 1, t, hk => by
    have ih : ∀ u ∈ subtasks fs (fun q p => (handlePath snap q p).2) t,
        ((taskTree (subtasks fs fun q p => (handlePath snap q p).2) k u).flatMap fun t =>
          (callsOf fs (fun q p => (handlePath snap q p).2) t).filterMap
            (fun c => (handlePath snap c.1 c.2.1).1)).Perm (recordedEntries fs snap k u.1 u.2) :=
      fun u hu => taskTree_inserts_perm hD k u (by have := subtasks_lt hD t u hu; omega)
    have hrec : recordedEntries fs snap (k + 1) t.1 t.2 = (fs.names t.1).flatMap fun n =>
        (handlePath snap t.2 (t.1 ++ [n])).1.toList ++
          (((handlePath snap t.2 (t.1 ++ [n])).2.map (t.1 ++ [n], ·)).toList.flatMap fun u =>
            recordedEntries fs snap k u.1 u.2) :=
      List.flatMap_congr fun n hn => recorded_name_eq snap k (ne_dotdot_of_mem_names hn) t.2
    have hsplit := (List.flatMap_append_perm (fs.names t.1)
      (fun n => (handlePath snap t.2 (t.1 ++ [n])).1.toList)
      (fun n => ((handlePath snap t.2 (t.1 ++ [n])).2.map (t.1 ++ [n], ·)).toList.flatMap fun u =>
        recordedEntries fs snap k u.1 u.2)).symm
    rw [← List.flatMap_assoc, ← subtasks_eq, ← callsOf_inserts, ← hrec] at hsplit
    simp only [taskTree, List.flatMap_cons, List.flatMap_assoc]
    exact ((List.Perm.flatMap_left _ ih).append_left _).trans hsplit.symm

/-- A returned snapshot of `dir` sent each entry `recordedEntries` records once, and nothing
else. -/
theorem returned_snapshot_inserts {D : Nat} (hD : ∀ p : Path, D < p.length → fs.listing p = none)
    {dir : Path} {w : Walk (Option KeyId)} (hw : Reachable fs (insertHandler snap) (dir, none) w)
    (hret : w.returned = true) :
    (sentInserts snap w).Perm (recordedEntries fs snap (D + 1 - dir.length) dir none) := by
  have hcalls := ((returned_walk_sequential hD hw hret).2).filterMap
    fun c => (handlePath snap c.1 c.2.1).1
  rw [List.filterMap_flatMap, List.filterMap_flatMap] at hcalls
  exact hcalls.trans (taskTree_inserts_perm hD _ (dir, none) le_rfl)

end Returned

/-- Whenever the walk returns, every message sent has been received, each directory task (the
root and every task sent) was handed to exactly one job, and that job called `handle_path` once
for each name its directory handed over, with its payload and `path/name`, its `root` restored
after each.  For `InsertPathHandler` on `dir`, in a tree no deeper than `D`, the `Insert`s sent
are the entries `recordedEntries` records, each once. -/
theorem returned_walk_inserts_recorded (fs : Fs) (snap : Snap S) {D : Nat}
    (hD : ∀ p : Path, D < p.length → fs.listing p = none) (dir : Path) :
    (∀ {P : Type} (H : P → Path → Option P → Bool) (root : Path × P) (w : Walk P),
      Reachable fs H root w → w.returned = true →
        w.chan = [] ∧ (w.jobs.map Job.task).Perm (root :: w.jobs.flatMap Job.pushed) ∧
          ∀ j ∈ w.jobs, j.pc = .finished ∧ j.root = j.task.1 ∧
            j.calls = callsFor j.task (fs.names j.task.1) ∧ j.pushed = childrenOf j.handled ∧
            ∀ c ∈ j.handled, H c.1 c.2.1 c.2.2 = true) ∧
    ∀ w, Reachable fs (insertHandler snap) (dir, none) w → w.returned = true →
      (sentInserts snap w).Perm (recordedEntries fs snap (D + 1 - dir.length) dir none) :=
  ⟨fun _ _ _ hw hret => returned_walk_complete hw hret,
   fun _ hw hret => returned_snapshot_inserts hD hw hret⟩

def oneFileSnap : Snap FileKind := ⟨fun _ => .ok .file, id, fun _ => []⟩

/-- A schedule of the snapshot of `oneFileFs` that returns: the root's job sends `Insert(a)`. -/
theorem returned_walk_inserts_one_file :
    ∃ w, Reachable oneFileFs (insertHandler oneFileSnap) ([], none) w ∧ w.returned = true ∧
      (sentInserts oneFileSnap w).map FileEntry.fullPath = [[[0x61]]] ∧
      (w.chan = [] ∧ (w.jobs.map Job.task).Perm (([], none) :: w.jobs.flatMap Job.pushed) ∧
        ∀ j ∈ w.jobs, j.pc = .finished ∧ j.root = j.task.1 ∧
          j.calls = callsFor j.task (oneFileFs.names j.task.1) ∧
          j.pushed = childrenOf j.handled ∧
          ∀ c ∈ j.handled, insertHandler oneFileSnap c.1 c.2.1 c.2.2 = true) ∧
      (sentInserts oneFileSnap w).Perm (recordedEntries oneFileFs oneFileSnap (0 + 1 - 0) [] none) := by
  have hw := run_reachable .init (show run oneFileFs (insertHandler oneFileSnap)
      (Walk.init ([], none)) [(.master, none), (.job 0, none), (.job 0, none), (.job 0, none),
        (.job 0, none), (.master, none)] = some _ from rfl)
  obtain ⟨hall, hins⟩ := returned_walk_inserts_recorded oneFileFs oneFileSnap
    (fun _ hp => if_neg (List.ne_nil_of_length_pos hp)) []
  exact ⟨_, hw, rfl, rfl, hall _ _ _ hw rfl, hins _ hw rfl⟩

def symlinkFs : Fs := ⟨fun p => if p = [] then some [[0x6C]] else none⟩

def symlinkSnap : Snap FileKind := ⟨fun _ => .ok .symlink, id, fun _ => []⟩

/-- The walk of a directory holding only the symlink `l` returns without sending `l` to the
key store. -/
theorem snapshot_skips_symlink :
    ∃ w, Reachable symlinkFs (insertHandler symlinkSnap) ([], none) w ∧ w.returned = true ∧
      ([0x6C] : Name) ∈ symlinkFs.names [] ∧ sentInserts symlinkSnap w = [] :=
  ⟨_, run_reachable .init (show run symlinkFs (insertHandler symlinkSnap) (Walk.init ([], none))
      [(.master, none), (.job 0, none), (.job 0, none), (.job 0, none), (.job 0, none),
        (.master, none)] = some _ from rfl), rfl, by decide, rfl⟩

/-! ## At every point of a snapshot -/

section Handler

variable {snap : Snap S} {q : Option KeyId} {p : Path}

theorem handlePath_fst {n : Name} {e : FileEntry S}
    (h : (handlePath snap q (p ++ [n])).1 = some e) : e.name = n ∧ e.parentId = q ∧ e.fullPath = p ++ [n] := by
  by_cases hn : n = dotdot
  · simp [handlePath, FileEntry.new, filename, hn] at h
  simp only [handlePath, FileEntry.new, filename, List.getLast?_concat, Option.some_bind, hn,
    if_false] at h
  cases hl : snap.lstat (p ++ [n]) with
  | error => simp [hl, Except.map] at h
  | ok st =>
    simp only [hl, Except.map] at h
    split_ifs at h <;> simp at h <;> subst h <;> exact ⟨rfl, rfl, rfl⟩

theorem handlePath_snd {k : Option KeyId} (h : (handlePath snap q p).2 = some k) :
    ∃ d, (handlePath snap q p).1 = some d ∧ snap.kind d.stat = .directory ∧
      k = some (snap.keyId d) := by
  simp only [handlePath] at h ⊢
  split at h
  · cases h
  · split_ifs at h ⊢ with hs hd
    cases h
    exact ⟨_, rfl, hd, rfl⟩

end Handler

theorem mem_sentInserts {snap : Snap S} {w : Walk (Option KeyId)} {e : FileEntry S} :
    e ∈ sentInserts snap w ↔
      ∃ j ∈ w.jobs, ∃ c ∈ j.handled, (handlePath snap c.1 c.2.1).1 = some e := by
  simp only [sentInserts, List.mem_flatMap, List.mem_filterMap]

/-- At every point of every snapshot of `dir`, returned or not, with a job stuck on a name that
is not UTF-8 or not: each `Insert` sent so far is of an entry `recordedEntries` records, and no
entry has been sent more often than it is recorded.  A snapshot cut short has sent a part of the
snapshot, and nothing else. -/
theorem reachable_inserts_subperm {fs : Fs} {snap : Snap S} {D : Nat}
    (hD : ∀ p : Path, D < p.length → fs.listing p = none) {dir : Path} {w : Walk (Option KeyId)}
    (hw : Reachable fs (insertHandler snap) (dir, none) w) :
    (sentInserts snap w).Subperm (recordedEntries fs snap (D + 1 - dir.length) dir none) := by
  have hcalls := subperm_filterMap (reachable_walk_subperm hD hw).2
    fun c => (handlePath snap c.1 c.2.1).1
  rw [List.filterMap_flatMap, List.filterMap_flatMap] at hcalls
  exact hcalls.trans (taskTree_inserts_perm hD _ (dir, none) le_rfl).subperm

/-- `dir` lists a file `a`, then a name, the byte `0xFF`, that is not UTF-8. -/
def fileThenNonUtf8Fs : Fs := ⟨fun p => if p = [] then some [[0x61], [0xFF]] else none⟩

/-- The root's job sends `Insert(a)` and then panics on `0xFF`, so the snapshot never returns;
what it has sent is a part of what it records. -/
theorem reachable_inserts_subperm_stuck :
    ∃ w, Reachable fileThenNonUtf8Fs (insertHandler oneFileSnap) ([], none) w ∧
      w.returned = false ∧ w.jobs.map Job.pc = [.panicked] ∧
      (sentInserts oneFileSnap w).map FileEntry.fullPath = [[[0x61]]] ∧
      (sentInserts oneFileSnap w).Subperm
        (recordedEntries fileThenNonUtf8Fs oneFileSnap (0 + 1 - 0) [] none) := by
  have hw := run_reachable .init (show run fileThenNonUtf8Fs (insertHandler oneFileSnap)
      (Walk.init ([], none)) [(.master, none), (.job 0, none), (.job 0, none), (.job 0, none)] =
        some _ from rfl)
  exact ⟨_, hw, rfl, rfl, rfl,
    reachable_inserts_subperm (fun _ hp => if_neg (List.ne_nil_of_length_pos hp)) hw⟩

/-- At every point of every snapshot of `dir`, each `Insert` sent so far is of an entry listed
in `dir` itself, with no parent id, or of an entry listed in a directory whose own `Insert` was
sent, with the key store's id for that directory as parent id.  A snapshot cut short has sent
no entry whose parent directory it has not sent. -/
theorem reachable_inserts_parent_sent {fs : Fs} {snap : Snap S} {dir : Path}
    {w : Walk (Option KeyId)} (hw : Reachable fs (insertHandler snap) (dir, none) w) :
    ∀ e ∈ sentInserts snap w,
      (e.parentId = none ∧ e.fullPath = dir ++ [e.name] ∧ e.name ∈ fs.names dir) ∨
      ∃ d ∈ sentInserts snap w, snap.kind d.stat = .directory ∧
        e.parentId = some (snap.keyId d) ∧ e.fullPath = d.fullPath ++ [e.name] ∧
          e.name ∈ fs.names d.fullPath := by
  intro e he
  obtain ⟨j, hj, c, hc, hce⟩ := mem_sentInserts.mp he
  -- the call was for a name `n` the job's directory hands over, with the job's payload
  obtain ⟨n, hn, rfl⟩ := List.mem_map.mp ((reachable_within hw j hj).calls.subset hc)
  obtain ⟨rfl, hparent, hpath⟩ := handlePath_fst hce
  rcases reachable_task_sent hw hj with hroot | ⟨j', hj', c', hc', hpath', hans⟩
  · rw [hroot] at hparent hpath hn
    exact .inl ⟨hparent, hpath, hn⟩
  · -- the task is the answer of the directory's own call, which sent the directory
    obtain ⟨n', -, rfl⟩ := List.mem_map.mp ((reachable_within hw j' hj').calls.subset hc')
    obtain ⟨d, hd, hdir, hk⟩ := handlePath_snd hans
    have hdp : d.fullPath = j.task.1 := (handlePath_fst hd).2.2.trans hpath'
    exact .inr ⟨d, mem_sentInserts.mpr ⟨j', hj', _, hc', hd⟩, hdir, hparent.trans hk,
      hdp ▸ hpath, hdp ▸ hn⟩

def namedDirsSnap : Snap FileKind := ⟨fun _ => .ok .directory, id, fun e => e.name⟩

/-- The root's job sends `a` and the task for it; the job for `a` sends `c`, whose parent id is
the id of `a`. -/
theorem reachable_inserts_parent_sent_nested :
    ∃ w, Reachable twoDirsFs (insertHandler namedDirsSnap) ([], none) w ∧
      (sentInserts namedDirsSnap w).map FileEntry.parentId = [none, some [0x61]] ∧
      ∀ e ∈ sentInserts namedDirsSnap w,
        (e.parentId = none ∧ e.fullPath = [] ++ [e.name] ∧ e.name ∈ twoDirsFs.names []) ∨
        ∃ d ∈ sentInserts namedDirsSnap w, namedDirsSnap.kind d.stat = .directory ∧
          e.parentId = some (namedDirsSnap.keyId d) ∧ e.fullPath = d.fullPath ++ [e.name] ∧
            e.name ∈ twoDirsFs.names d.fullPath := by
  have hw := run_reachable .init (show run twoDirsFs (insertHandler namedDirsSnap)
      (Walk.init ([], none)) [(.master, none), (.job 0, none), (.job 0, some (some [0x61])),
        (.job 0, none), (.master, none), (.job 1, none), (.job 1, some (some [0x63]))] =
        some _ from rfl)
  exact ⟨_, hw, rfl, reachable_inserts_parent_sent hw⟩

end ListDir

end HatBackup
