/-
# `HatBackup.Hat.RoundTrip` — a checkout of a snapshot restores the tree

`snapshot_dir(dir)` sends the key store an `Insert` for each entry it records.  The parent id of
each entry is the id the key store replied for its directory, and a file comes with the
`FileIterator` that reads its chunks.  Into a fresh family, with no two recorded entries sharing
an id, the key index then holds one row for each `Insert` (`Hat.KeyStore`).

`checkout_in_dir(out, None)` on that key index, after a snapshot that returned, makes `out` and
its missing parents and creates below `out` each recorded entry, at the path of its names below
`dir`: a directory for a directory, and for a file the bytes the file held.  Nothing else on the
disk changes.  The `Insert`s may reach the key store in any order, and `ListDir` may answer in
any order.  A file's hash must not be empty, since an empty hash means a directory to
`checkout_in_dir`.  Each recorded file must open and none of its reads fail: a file that does
not open is stored without chunks, and a failed read ends its chunks early.

The snapshot and the checkout meet at `Checkoutable`.  The listings a snapshot leaves form a
forest ranked by depth, with distinct names among siblings and content for every file, so
`checkoutInDir_eq` applies.  Up to order, `checkoutNodes` of these listings are the recorded
entries, each at its place below `out`.

**Proved here.**

    a recorded entry is listed in a directory the snapshot walks  (`mem_recorded_task`)
    recorded entries have distinct paths                           (`recorded_paths_nodup`)
    `ListDir` of a walked directory is its recorded children       (`filter_parent_perm`)
    the listings form a checkoutable forest                        (`snapshotListings_checkoutable`)
    a checkout writes each recorded entry at its place             (`checkoutNodes_perm`)
    snapshot, then checkout, restores the tree                     (`checkout_restores_snapshot`)
-/
import HatBackup.Hat.KeyStore
import HatBackup.Checkout.Tree

namespace HatBackup

namespace Hat

open ListDir Checkout

variable {S : Type}

/-- The entries `handle_path` sends for the names `q` hands over, with parent id `parent`. -/
def childEntries (fs : Fs) (snap : Snap S) (q : Path) (parent : Option KeyId) :
    List (FileEntry S) :=
  (fs.names q).filterMap fun n => (handlePath snap parent (q ++ [n])).1

/-- The node a checkout should leave for a recorded entry: a directory, or a file holding what
the file held. -/
def restoredNode (snap : Snap S) (files : Files) (e : FileEntry S) : Node :=
  if snap.kind e.stat = .directory then .dir else .file ((files.contents e.fullPath).getD [])

/-- A rank for the listings a snapshot with recorded entries `R` leaves, in a tree no deeper
than `D`: `D + 1` for the root, and `D + 1` less its depth for a recorded directory's id. -/
def snapshotRank (snap : Snap S) (R : List (FileEntry S)) (D : Nat) : Option KeyId → Nat
  | none => D + 1
  | some id =>
    match R.find? fun e => snap.kind e.stat = .directory ∧ snap.keyId e = id with
    | some e => D + 1 - e.fullPath.length
    | none => 0

/-- The directories a snapshot of `dir` with recorded entries `R` walks, each with the parent
id of its entries: `dir` itself, and each recorded directory with its key id. -/
def IsTask (snap : Snap S) (R : List (FileEntry S)) (dir q : Path) (parent : Option KeyId) :
    Prop :=
  (q = dir ∧ parent = none) ∨
    ∃ c ∈ R, snap.kind c.stat = .directory ∧ q = c.fullPath ∧ parent = some (snap.keyId c)

/-- What a snapshot of `dir` needs for a checkout to restore it: the tree is no deeper than `D`,
no directory lists a name twice, and distinct recorded entries get distinct ids (no two are hard
links to one file). -/
structure Restorable (fs : Fs) (snap : Snap S) (D : Nat) (dir : Path) : Prop where
  depth : ∀ p : Path, D < p.length → fs.listing p = none
  nodup : ∀ p s, fs.listing p = some s → s.Nodup
  ids : ∀ c ∈ recordedEntries fs snap (D + 1 - dir.length) dir none,
    ∀ c' ∈ recordedEntries fs snap (D + 1 - dir.length) dir none,
      snap.keyId c = snap.keyId c' → c.fullPath = c'.fullPath

/-! ## The names a directory hands over -/

theorem mem_names {fs : Fs} {p : Path} {n : Name} (h : n ∈ fs.names p) :
    n ≠ [] ∧ n ≠ dot ∧ n ≠ dotdot := by
  cases hl : fs.listing p with
  | none => simp [Fs.names, hl] at h
  | some s =>
    simp only [Fs.names, hl, Option.elim, handedNames, List.mem_filter] at h
    exact ⟨by simpa using List.mem_takeWhile_imp h.1, by simpa using h.2⟩

theorem names_nodup {fs : Fs} (hnd : ∀ p s, fs.listing p = some s → s.Nodup) (p : Path) :
    (fs.names p).Nodup := by
  cases hl : fs.listing p with
  | none => simp [Fs.names, hl]
  | some s =>
    simp only [Fs.names, hl, Option.elim, handedNames]
    exact ((hnd p s hl).sublist (List.takeWhile_prefix _).sublist).filter _

/-! ## The entries of one directory -/

section Children

variable {fs : Fs} {snap : Snap S}

theorem childEntries_spec {q : Path} {parent : Option KeyId} {c : FileEntry S}
    (h : c ∈ childEntries fs snap q parent) :
    c.fullPath = q ++ [c.name] ∧ c.parentId = parent ∧ c.name ∈ fs.names q := by
  obtain ⟨n, hn, hc⟩ := List.mem_filterMap.mp h
  obtain ⟨rfl, rfl, hp⟩ := handlePath_fst hc
  exact ⟨hp, rfl, hn⟩

theorem childEntries_pairwise (hnd : ∀ p s, fs.listing p = some s → s.Nodup) (q : Path)
    (parent : Option KeyId) :
    (childEntries fs snap q parent).Pairwise fun a b => a.name ≠ b.name := by
  refine List.pairwise_filterMap.mpr ((names_nodup hnd q).imp_of_mem fun _ _ hne a ha b hb => ?_)
  rw [(handlePath_fst ha).1, (handlePath_fst hb).1]
  exact hne

theorem childEntries_nodup (hnd : ∀ p s, fs.listing p = some s → s.Nodup) (q : Path)
    (parent : Option KeyId) : (childEntries fs snap q parent).Nodup :=
  (childEntries_pairwise hnd q parent).imp fun hne heq => hne (congrArg FileEntry.name heq)

theorem length_le_of_mem_childEntries {D : Nat}
    (hD : ∀ p : Path, D < p.length → fs.listing p = none) {q : Path} {parent : Option KeyId}
    {c : FileEntry S} (h : c ∈ childEntries fs snap q parent) : q.length ≤ D := by
  by_contra hq
  simp [childEntries, Fs.names_eq_nil hD (Nat.lt_of_not_le hq)] at h

end Children

/-! ## The entries a snapshot records -/

section Recorded

variable {fs : Fs} {snap : Snap S}

theorem recordedEntries_succ (k : Nat) (p : Path) (parent : Option KeyId) :
    recordedEntries fs snap (k + 1) p parent = (childEntries fs snap p parent).flatMap fun c =>
      c :: if snap.kind c.stat = .directory then
        recordedEntries fs snap k c.fullPath (some (snap.keyId c)) else [] := by
  rw [recordedEntries, childEntries, List.filterMap_eq_flatMap_toList, List.flatMap_assoc]
  refine List.flatMap_congr fun n hn => ?_
  simp only [handlePath, FileEntry.new, filename, List.getLast?_concat, Option.some_bind,
    ne_dotdot_of_mem_names hn, if_false]
  cases snap.lstat (p ++ [n]) with
  | error => rfl
  | ok st => cases h : snap.kind st <;> simp [Except.map, h]

theorem mem_recorded_succ {k : Nat} {p : Path} {parent : Option KeyId} {e : FileEntry S}
    (h : e ∈ recordedEntries fs snap (k + 1) p parent) :
    ∃ c ∈ childEntries fs snap p parent, e = c ∨ (snap.kind c.stat = .directory ∧
      e ∈ recordedEntries fs snap k c.fullPath (some (snap.keyId c))) := by
  rw [recordedEntries_succ] at h
  obtain ⟨c, hc, he⟩ := List.mem_flatMap.mp h
  refine ⟨c, hc, ?_⟩
  rcases List.mem_cons.mp he with rfl | he
  · exact .inl rfl
  · split_ifs at he with hdir
    · exact .inr ⟨hdir, he⟩
    · simp at he

theorem child_mem_recorded {k : Nat} {p : Path} {parent : Option KeyId} {c : FileEntry S}
    (hc : c ∈ childEntries fs snap p parent) :
    c ∈ recordedEntries fs snap (k + 1) p parent := by
  rw [recordedEntries_succ]
  exact List.mem_flatMap.mpr ⟨c, hc, List.mem_cons_self _ _⟩

theorem sub_mem_recorded {k : Nat} {p : Path} {parent : Option KeyId} {c e : FileEntry S}
    (hc : c ∈ childEntries fs snap p parent) (hdir : snap.kind c.stat = .directory)
    (he : e ∈ recordedEntries fs snap k c.fullPath (some (snap.keyId c))) :
    e ∈ recordedEntries fs snap (k + 1) p parent := by
  rw [recordedEntries_succ]
  exact List.mem_flatMap.mpr ⟨c, hc, List.mem_cons_of_mem _ (by rwa [if_pos hdir])⟩

theorem mem_recorded : ∀ {k : Nat} {p : Path} {parent : Option KeyId} {e : FileEntry S},
    e ∈ recordedEntries fs snap k p parent →
      e ∈ childEntries fs snap p parent ∨ ∃ c ∈ recordedEntries fs snap k p parent,
        snap.kind c.stat = .directory ∧
          e ∈ childEntries fs snap c.fullPath (some (snap.keyId c))
  | 0, _, _, _, h => by simp [recordedEntries] at h
  | k + 1, p, parent, e, h => by
    obtain ⟨c, hc, rfl | ⟨hdir, he⟩⟩ := mem_recorded_succ h
    · exact .inl hc
    · rcases mem_recorded he with he' | ⟨c', hc', hdir', he'⟩
      · exact .inr ⟨c, child_mem_recorded hc, hdir, he'⟩
      · exact .inr ⟨c', sub_mem_recorded hc hdir hc', hdir', he'⟩

theorem recorded_below : ∀ {k : Nat} {p : Path} {parent : Option KeyId} {e : FileEntry S},
    e ∈ recordedEntries fs snap k p parent → ∃ n r, e.fullPath = p ++ n :: r
  | 0, _, _, _, h => by simp [recordedEntries] at h
  | k + 1, p, parent, e, h => by
    obtain ⟨c, hc, rfl | ⟨-, he⟩⟩ := mem_recorded_succ h
    · exact ⟨_, [], (childEntries_spec hc).1⟩
    · obtain ⟨n, r, hr⟩ := recorded_below he
      exact ⟨c.name, n :: r, by simp [hr, (childEntries_spec hc).1]⟩

theorem block_below {k : Nat} {c e : FileEntry S}
    (he : e ∈ c :: if snap.kind c.stat = .directory then
      recordedEntries fs snap k c.fullPath (some (snap.keyId c)) else []) :
    ∃ r, e.fullPath = c.fullPath ++ r := by
  rcases List.mem_cons.mp he with rfl | he
  · exact ⟨[], (List.append_nil _).symm⟩
  · split_ifs at he
    · obtain ⟨n, r, hr⟩ := recorded_below he
      exact ⟨n :: r, hr⟩
    · simp at he

theorem recorded_paths_nodup (hnd : ∀ p s, fs.listing p = some s → s.Nodup) :
    ∀ k p parent, ((recordedEntries fs snap k p parent).map FileEntry.fullPath).Nodup
  | 0, _, _ => List.nodup_nil
  | k + 1, p, parent => by
    rw [recordedEntries_succ, List.map_flatMap, List.nodup_flatMap]
    refine ⟨fun c _ => ?_, (childEntries_pairwise hnd p parent).imp_of_mem fun ha hb hne => ?_⟩
    · rw [List.map_cons, List.nodup_cons]
      split_ifs
      · refine ⟨fun h => ?_, recorded_paths_nodup hnd k _ _⟩
        obtain ⟨x, hx, heq⟩ := List.mem_map.mp h
        obtain ⟨n, r, hr⟩ := recorded_below hx
        have := congrArg List.length (hr.symm.trans heq)
        simp at this
      · simp
    · intro x hx hx'
      obtain ⟨e, he, rfl⟩ := List.mem_map.mp hx
      obtain ⟨e', he', heq⟩ := List.mem_map.mp hx'
      obtain ⟨r, hr⟩ := block_below he
      obtain ⟨r', hr'⟩ := block_below he'
      rw [hr, (childEntries_spec ha).1, hr', (childEntries_spec hb).1] at heq
      simp only [List.append_assoc, List.singleton_append] at heq
      exact append_cons_ne hne heq.symm

end Recorded

/-! ## Enough fuel -/

section Fuel

variable {fs : Fs} {snap : Snap S} {D : Nat}
  (hD : ∀ p : Path, D < p.length → fs.listing p = none)

include hD

theorem recordedEntries_eq_nil {p : Path} (hp : D < p.length) (parent : Option KeyId) :
    ∀ k, recordedEntries fs snap k p parent = []
  | 0 => rfl
  | k + 1 => by simp [recordedEntries, Fs.names_eq_nil hD hp]

theorem child_mem_recorded_of_le {k : Nat} {p : Path} {parent : Option KeyId} {c : FileEntry S}
    (hk : D + 1 - p.length ≤ k) (hc : c ∈ childEntries fs snap p parent) :
    c ∈ recordedEntries fs snap k p parent := by
  cases k with
  | zero => exact absurd (length_le_of_mem_childEntries hD hc) (by omega)
  | succ k => exact child_mem_recorded hc

theorem childEntries_subset : ∀ {k : Nat} {p : Path} {parent : Option KeyId} {c e : FileEntry S},
    D + 1 - p.length ≤ k → c ∈ recordedEntries fs snap k p parent →
      snap.kind c.stat = .directory →
        e ∈ childEntries fs snap c.fullPath (some (snap.keyId c)) →
          e ∈ recordedEntries fs snap k p parent
  | 0, _, _, _, _, _, hc, _, _ => by simp [recordedEntries] at hc
  | k + 1, p, parent, c, e, hk, hc, hdir, he => by
    obtain ⟨c₀, hc₀, hcase⟩ := mem_recorded_succ hc
    have hlen : D + 1 - c₀.fullPath.length ≤ k := by
      rw [(childEntries_spec hc₀).1, List.length_append, List.length_singleton]; omega
    rcases hcase with rfl | ⟨hdir₀, hc'⟩
    · exact sub_mem_recorded hc₀ hdir (child_mem_recorded_of_le hD hlen he)
    · exact sub_mem_recorded hc₀ hdir₀ (childEntries_subset hlen hc' hdir he)

theorem recordedEntries_fuel : ∀ {k k' : Nat} {p : Path} {parent : Option KeyId},
    D + 1 - p.length ≤ k → D + 1 - p.length ≤ k' →
      recordedEntries fs snap k p parent = recordedEntries fs snap k' p parent
  | 0, _, p, parent, hk, _ => by
    rw [recordedEntries_eq_nil hD (by omega), recordedEntries_eq_nil hD (by omega)]
  | _ + 1, 0, p, parent, _, hk' => by
    rw [recordedEntries_eq_nil hD (by omega), recordedEntries_eq_nil hD (by omega)]
  | k + 1, k' + 1, p, parent, _, _ => by
    rw [recordedEntries_succ, recordedEntries_succ]
    refine List.flatMap_congr fun c hc => ?_
    have hlen : D + 1 - c.fullPath.length ≤ k ∧ D + 1 - c.fullPath.length ≤ k' := by
      rw [(childEntries_spec hc).1, List.length_append, List.length_singleton]; omega
    rw [recordedEntries_fuel hlen.1 hlen.2]

end Fuel

/-! ## The directories a snapshot walks -/

section Snapshot

variable {fs : Fs} {snap : Snap S} {D : Nat} {dir : Path}

theorem mem_recorded_task {e : FileEntry S}
    (he : e ∈ recordedEntries fs snap (D + 1 - dir.length) dir none) :
    ∃ q, IsTask snap (recordedEntries fs snap (D + 1 - dir.length) dir none) dir q e.parentId ∧
      e ∈ childEntries fs snap q e.parentId := by
  rcases mem_recorded he with hc | ⟨c, hc, hdir, hce⟩
  · have hpar := (childEntries_spec hc).2.1
    exact ⟨dir, .inl ⟨rfl, hpar⟩, hpar ▸ hc⟩
  · have hpar := (childEntries_spec hce).2.1
    exact ⟨c.fullPath, .inr ⟨c, hc, hdir, rfl, hpar⟩, hpar ▸ hce⟩

theorem Restorable.task_path_eq (h : Restorable fs snap D dir) {q q' : Path} {d : Option KeyId}
    (ht : IsTask snap (recordedEntries fs snap (D + 1 - dir.length) dir none) dir q d)
    (ht' : IsTask snap (recordedEntries fs snap (D + 1 - dir.length) dir none) dir q' d) :
    q = q' := by
  rcases ht with ⟨rfl, rfl⟩ | ⟨c, hc, -, rfl, rfl⟩ <;>
    rcases ht' with ⟨rfl, hd⟩ | ⟨c', hc', -, rfl, hd⟩
  · rfl
  · cases hd
  · cases hd
  · exact h.ids c hc c' hc' (Option.some.inj hd)

theorem IsTask.child_mem (h : Restorable fs snap D dir) {q : Path} {d : Option KeyId}
    (ht : IsTask snap (recordedEntries fs snap (D + 1 - dir.length) dir none) dir q d)
    {c : FileEntry S} (hc : c ∈ childEntries fs snap q d) :
    c ∈ recordedEntries fs snap (D + 1 - dir.length) dir none := by
  rcases ht with ⟨rfl, rfl⟩ | ⟨c₀, hc₀, hdir, rfl, rfl⟩
  · exact child_mem_recorded_of_le h.depth le_rfl hc
  · exact childEntries_subset h.depth le_rfl hc₀ hdir hc

theorem filter_parent_perm (h : Restorable fs snap D dir) {q : Path} {d : Option KeyId}
    (ht : IsTask snap (recordedEntries fs snap (D + 1 - dir.length) dir none) dir q d) :
    ((recordedEntries fs snap (D + 1 - dir.length) dir none).filter fun e => e.parentId = d).Perm
      (childEntries fs snap q d) := by
  refine (List.perm_ext_iff_of_nodup
    (((recorded_paths_nodup h.nodup _ _ _).of_map _).filter _) (childEntries_nodup h.nodup q d)).mpr
    fun e => ⟨fun he => ?_, fun he => ?_⟩
  · obtain ⟨he, hd⟩ := List.mem_filter.mp he
    obtain ⟨q', ht', hc⟩ := mem_recorded_task he
    rw [of_decide_eq_true hd] at ht' hc
    rwa [h.task_path_eq ht ht']
  · exact List.mem_filter.mpr ⟨ht.child_mem h he, decide_eq_true (childEntries_spec he).2.1⟩

end Snapshot

/-! ## The key store's listings -/

section Listings

variable {fs : Fs} {snap : Snap S} {D : Nat} {dir : Path} {rootHash : FileEntry S → List UInt8}
  {files : Files} {ks : Listings}

theorem snapshotRank_some (h : Restorable fs snap D dir) {e : FileEntry S}
    (he : e ∈ recordedEntries fs snap (D + 1 - dir.length) dir none)
    (hdir : snap.kind e.stat = .directory) :
    snapshotRank snap (recordedEntries fs snap (D + 1 - dir.length) dir none) D
      (some (snap.keyId e)) = D + 1 - e.fullPath.length := by
  cases hf : (recordedEntries fs snap (D + 1 - dir.length) dir none).find?
      fun e' => snap.kind e'.stat = .directory ∧ snap.keyId e' = snap.keyId e with
  | none => exact absurd (List.find?_eq_none.mp hf e he) (by simp [hdir])
  | some e' =>
    have hsat := List.find?_some hf
    obtain ⟨-, hid⟩ := of_decide_eq_true hsat
    simp only [snapshotRank, hf, h.ids e' (List.mem_of_find?_eq_some hf) e he hid]

theorem mem_listDir
    (hks : ∀ d, (ks.listDir d).Perm
      (((recordedEntries fs snap (D + 1 - dir.length) dir none).filter fun e => e.parentId = d).map
        (insertedRow snap rootHash files)))
    {d : Option KeyId} {row : Checkout.Row} (hrow : row ∈ ks.listDir d) :
    ∃ e ∈ recordedEntries fs snap (D + 1 - dir.length) dir none,
      e.parentId = d ∧ insertedRow snap rootHash files e = row := by
  obtain ⟨e, he, rfl⟩ := List.mem_map.mp ((hks d).mem_iff.mp hrow)
  obtain ⟨he, hd⟩ := List.mem_filter.mp he
  exact ⟨e, he, of_decide_eq_true hd, rfl⟩

/-- The listings a snapshot leaves are a forest that `checkout_in_dir` can restore. -/
theorem snapshotListings_checkoutable (h : Restorable fs snap D dir)
    (hhash : ∀ e ∈ recordedEntries fs snap (D + 1 - dir.length) dir none,
      snap.kind e.stat ≠ .directory → rootHash e ≠ [])
    (hks : ∀ d, (ks.listDir d).Perm
      (((recordedEntries fs snap (D + 1 - dir.length) dir none).filter fun e => e.parentId = d).map
        (insertedRow snap rootHash files))) :
    ks.Checkoutable (snapshotRank snap (recordedEntries fs snap (D + 1 - dir.length) dir none) D)
    where
  forest d row hrow hh := by
    obtain ⟨e, he, rfl, rfl⟩ := mem_listDir hks hrow
    have hdir : snap.kind e.stat = .directory := by
      by_contra hne
      simp only [insertedRow, hne, if_false] at hh
      exact hhash e he hne hh
    obtain ⟨q, ht, hc⟩ := mem_recorded_task he
    have hlen : e.fullPath.length = q.length + 1 := by simp [(childEntries_spec hc).1]
    have hq := length_le_of_mem_childEntries h.depth hc
    rw [insertedRow_id, snapshotRank_some h he hdir]
    rcases ht with ⟨rfl, hd⟩ | ⟨c, hcR, hcdir, rfl, hd⟩
    · rw [hd, snapshotRank]; omega
    · rw [hd, snapshotRank_some h hcR hcdir]; omega
  names d row hrow := by
    obtain ⟨e, he, -, rfl⟩ := mem_listDir hks hrow
    obtain ⟨q, -, hc⟩ := mem_recorded_task he
    rw [insertedRow_name]
    exact mem_names (childEntries_spec hc).2.2
  distinct d := by
    rw [((hks d).map Checkout.Row.name).nodup_iff, List.map_map]
    have hpaths : ((recordedEntries fs snap (D + 1 - dir.length) dir none).map
        FileEntry.fullPath).Nodup := recorded_paths_nodup h.nodup _ _ _
    refine List.Nodup.map_on (fun x hx y hy hxy => ?_) ((hpaths.of_map _).filter _)
    obtain ⟨hx, hxd⟩ := List.mem_filter.mp hx
    obtain ⟨hy, hyd⟩ := List.mem_filter.mp hy
    obtain ⟨q, ht, hxc⟩ := mem_recorded_task hx
    obtain ⟨q', ht', hyc⟩ := mem_recorded_task hy
    rw [of_decide_eq_true hxd] at ht
    rw [of_decide_eq_true hyd] at ht'
    refine List.inj_on_of_nodup_map hpaths hx hy ?_
    simp only [Function.comp_apply, insertedRow_name] at hxy
    rw [(childEntries_spec hxc).1, (childEntries_spec hyc).1, h.task_path_eq ht ht', hxy]
  data d row hrow hh := by
    obtain ⟨e, -, -, rfl⟩ := mem_listDir hks hrow
    unfold insertedRow at hh ⊢
    split_ifs at hh ⊢
    · exact absurd rfl hh
    · exact nofun

end Listings

/-! ## The round trip -/

section RoundTrip

variable {fs : Fs} {snap : Snap S} {D : Nat} {dir : Path} {rootHash : FileEntry S → List UInt8}
  {files : Files} {ks : Listings}

/-- Up to order, the nodes a checkout of a walked directory's id writes into `out` are the
entries recorded below the directory, each at the path of its names below it. -/
theorem checkoutNodes_perm (h : Restorable fs snap D dir)
    (hhash : ∀ e ∈ recordedEntries fs snap (D + 1 - dir.length) dir none,
      snap.kind e.stat ≠ .directory → rootHash e ≠ [])
    (hread : ∀ e ∈ recordedEntries fs snap (D + 1 - dir.length) dir none,
      snap.kind e.stat ≠ .directory → files.Readable e.fullPath)
    (hL : ∀ q d, IsTask snap (recordedEntries fs snap (D + 1 - dir.length) dir none) dir q d →
      (ks.listDir d).Perm ((childEntries fs snap q d).map (insertedRow snap rootHash files))) :
    ∀ k q d out, IsTask snap (recordedEntries fs snap (D + 1 - dir.length) dir none) dir q d →
      (checkoutNodes ks k out d).Perm ((recordedEntries fs snap k q d).map fun e =>
        (out ++ e.fullPath.drop q.length, restoredNode snap files e))
  | 0, _, _, _, _ => by simp [checkoutNodes, recordedEntries]
  | k + 1, q, d, out, ht => by
    rw [checkoutNodes_succ, recordedEntries_succ, List.map_flatMap]
    refine ((hL q d ht).flatMap_right _).trans ?_
    rw [List.flatMap_map]
    refine List.Perm.flatMap_left _ fun c hc => ?_
    have hcR := ht.child_mem h hc
    have hpath := (childEntries_spec hc).1
    have hout : out ++ c.fullPath.drop q.length = out ++ [c.name] := by rw [hpath, List.drop_left]
    by_cases hdir : snap.kind c.stat = .directory
    · -- a directory: `out/name`, then the checkout of its own id into `out/name`
      simp only [rowNodes, insertedRow, restoredNode, hdir, if_true, List.map_cons, hout]
      refine .cons _
        ((checkoutNodes_perm h hhash hread hL k _ _ _ (.inr ⟨c, hcR, hdir, rfl, rfl⟩)).trans
          (.of_eq (List.map_congr_left fun e he => ?_)))
      obtain ⟨n, r, hr⟩ := recorded_below he
      simp [hr, hpath, restoredNode]
    · -- a file: `out/name` holding the chunks its iterator read
      simp only [rowNodes, insertedRow, restoredNode, hdir, if_false, hhash c hcR hdir,
        List.map_cons, List.map_nil, hout, ReaderResult.contents,
        fileChunks_flatten (hread c hcR hdir)]
      exact .refl _

/-- A key store that answers each `ListDir(d)` with the rows of the `Insert`s a returned snapshot
sent under parent id `d`, in any order, is restored by `checkout_in_dir(out, None)`: it returns
with `out` as it was, and afterwards the paths along `out` are directories, each recorded entry
is at the path of its names below `dir`, and every other path holds what it held before. -/
theorem checkout_restores_recorded (fs : Fs) (snap : Snap S) (D : Nat) (dir : Path)
    (h : Restorable fs snap D dir) (rootHash : FileEntry S → List UInt8)
    (hhash : ∀ e ∈ recordedEntries fs snap (D + 1 - dir.length) dir none,
      snap.kind e.stat ≠ .directory → rootHash e ≠ [])
    (files : Files) (hread : ∀ e ∈ recordedEntries fs snap (D + 1 - dir.length) dir none,
      snap.kind e.stat ≠ .directory → files.Readable e.fullPath)
    {io : Io} (hio : io.Succeeds) {disk : Disk} {out : Path}
    (hf : Fits disk out ((recordedEntries fs snap (D + 1 - dir.length) dir none).map fun e =>
      (out ++ e.fullPath.drop dir.length, restoredNode snap files e))) :
    ∀ w, Reachable fs (insertHandler snap) (dir, none) w → w.returned = true →
      ∀ ks : Listings, (∀ d, (ks.listDir d).Perm
          (((sentInserts snap w).filter fun e => e.parentId = d).map
            (insertedRow snap rootHash files))) →
        ∃ disk', checkoutInDir ks io (D + 2) disk out none = some (.ok (disk', out)) ∧
          (∀ i ≤ out.length, disk' (out.take i) = some .dir) ∧
          (∀ e ∈ recordedEntries fs snap (D + 1 - dir.length) dir none,
            disk' (out ++ e.fullPath.drop dir.length) = some (restoredNode snap files e)) ∧
          ∀ p, (∀ i ≤ out.length, out.take i ≠ p) →
            (∀ e ∈ recordedEntries fs snap (D + 1 - dir.length) dir none,
              out ++ e.fullPath.drop dir.length ≠ p) → disk' p = disk p := by
  intro w hw hret ks hks
  have hks' : ∀ d, (ks.listDir d).Perm
      (((recordedEntries fs snap (D + 1 - dir.length) dir none).filter
        fun e => e.parentId = d).map (insertedRow snap rootHash files)) :=
    fun d => (hks d).trans (((returned_snapshot_inserts h.depth hw hret).filter _).map _)
  have hck := snapshotListings_checkoutable h hhash hks'
  have hN : (checkoutNodes ks (D + 2) out none).Perm
      ((recordedEntries fs snap (D + 1 - dir.length) dir none).map fun e =>
        (out ++ e.fullPath.drop dir.length, restoredNode snap files e)) := by
    have := checkoutNodes_perm h hhash hread
      (fun q d ht => (hks' d).trans ((filter_parent_perm h ht).map _))
      (D + 2) dir none out (.inl ⟨rfl, rfl⟩)
    rwa [recordedEntries_fuel h.depth (by omega) le_rfl] at this
  have hf' := hf.mono fun pn hpn => hN.mem_iff.mp hpn
  obtain ⟨hdirs, hnodes, hframe⟩ := applyNodes_prefixDirs_append_spec hf'
    (checkoutNodes_nodup hck _ _ _) fun pn hpn =>
      let ⟨row, _, q, hq⟩ := mem_checkoutNodes hpn; ⟨row.name, q, hq⟩
  refine ⟨_, checkoutInDir_eq hck hio _ disk out none hf' (by simp [snapshotRank]), hdirs,
    fun e he => hnodes _ (hN.mem_iff.mpr (List.mem_map_of_mem _ he)), fun p hp hne =>
      hframe p hp fun pn hpn => ?_⟩
  obtain ⟨e, he, rfl⟩ := List.mem_map.mp (hN.mem_iff.mp hpn)
  exact hne e he

theorem Restorable.ids_nodup (h : Restorable fs snap D dir) :
    ((recordedEntries fs snap (D + 1 - dir.length) dir none).map snap.keyId).Nodup := by
  have hpaths : ((recordedEntries fs snap (D + 1 - dir.length) dir none).map
      FileEntry.fullPath).Nodup := recorded_paths_nodup h.nodup _ _ _
  exact (hpaths.of_map _).map_on fun x hx y hy hxy =>
    List.inj_on_of_nodup_map hpaths hx hy (h.ids x hx y hy hxy)

end RoundTrip

/-- The root lists a directory `s`, which lists a file `f`. -/
def oneDirFs : Fs :=
  ⟨fun p => if p = [] then some [[0x73]] else if p = [[0x73]] then some [[0x66]] else none⟩

def oneDirSnap : Snap FileKind :=
  ⟨fun p => .ok (if p = [[0x73]] then .directory else .file), id, FileEntry.name⟩

theorem oneDirFs_recorded : recordedEntries oneDirFs oneDirSnap 2 [] none =
    [⟨[0x73], none, .directory, [[0x73]]⟩,
      ⟨[0x66], some [0x73], .file, [[0x73], [0x66]]⟩] :=
  rfl

theorem oneDirFs_restorable : Restorable oneDirFs oneDirSnap 1 [] where
  depth p hp := by
    have h0 : p ≠ [] := List.ne_nil_of_length_pos (by omega)
    have h1 : p ≠ [[0x73]] := fun h => by simp [h] at hp
    simp [oneDirFs, h0, h1]
  nodup p s hs := by
    simp only [oneDirFs] at hs
    split_ifs at hs <;> cases hs <;> simp
  ids c hc c' hc' hid := by
    rw [show 1 + 1 - ([] : Path).length = 2 from rfl, oneDirFs_recorded] at hc hc'
    simp only [List.mem_cons, List.mem_singleton, List.not_mem_nil, or_false] at hc hc'
    rcases hc with rfl | rfl <;> rcases hc' with rfl | rfl <;>
      first | rfl | exact absurd hid (by decide)

def oneByteFiles : Files := ⟨fun _ => some [0x41], fun _ _ => 1⟩

/-- A run of the snapshot of `oneDirFs`: the root's job hands `s` to `handle_path`, which
answers with its id, and sends the task; the job for `s` hands over `f`. -/
def oneDirMoves : List (Actor × Option (Option KeyId)) :=
  [(.master, none), (.job 0, none), (.job 0, some (some [0x73])), (.job 0, none), (.job 0, none),
    (.job 0, none), (.master, none), (.master, none), (.job 1, none), (.job 1, none),
    (.job 1, none), (.job 1, none), (.master, none)]

end Hat

end HatBackup
