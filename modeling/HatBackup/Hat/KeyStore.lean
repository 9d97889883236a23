/-
# `HatBackup.Hat.KeyStore` — a family's key index, as the spec describes it

The key store is not under src/; the spec (§4.5) says what `snapshot_dir` and `checkout_in_dir`
rely on.  A family's key index holds one row per entry id.  `Insert(entry)` computes the id.
When a row with that id is there with the same size and modification time, it answers the
existing id and reads nothing.  Otherwise it inserts the row, or updates the row with that id,
and for a file it stores the chunks the file's iterator yields, none when the file does not
open.  `ListDir(parent_id)` returns
the rows whose parent id it is.

Hard links share an id (`FileEntry.id`), so they share one row.  The key index can hold every
entry a snapshot records only when no two of them have one id.  Then a fresh family holds, after
the snapshot, one row for each `Insert`, whatever order the `Insert`s arrived in.

**Proved here.**

    from an empty family, distinct ids give one row per `Insert`   (`foldl_insertEntry_of_nodup`)
    `ListDir` then returns the rows inserted under its parent id   (`listDirRows_map`)
-/
import HatBackup.Hat.FileIterator
import HatBackup.Checkout.Basic

namespace HatBackup

namespace Hat

open ListDir Checkout

variable {S : Type}

/-- Modelled from the spec: the chunks the key store draws for a file from the iterator
`create_file_it` opens, and none when the file does not open (the factory prints `Skipping` and
returns `None`). -/
def fileChunks (files : Files) (e : FileEntry S) : List (List UInt8) :=
  match fileIterator files.contents e with
  | some it => it.chunks (files.reads e.fullPath)
  | none => []

/-- The file at `p` opens and none of its reads fails. -/
def Files.Readable (files : Files) (p : Path) : Prop :=
  (files.contents p).isSome ∧ ∀ i, 0 < files.reads p i

theorem fileChunks_flatten {files : Files} {e : FileEntry S} (h : files.Readable e.fullPath) :
    (fileChunks files e).flatten = (files.contents e.fullPath).getD [] := by
  obtain ⟨bytes, hb⟩ := Option.isSome_iff_exists.mp h.1
  simp only [fileChunks, fileIterator, FileIterator.new, hb, Option.map_some', Option.getD_some]
  exact drain_flatten h.2 _ 0 _ (Nat.lt_succ_self _)

/-- Modelled from the spec: what `ListDir` returns for an inserted entry.  Its id is the key
store's reply to the `Insert`, its hash empty for a directory and for a file `rootHash e`, the
root of the hash tree its chunks were stored under. -/
def insertedRow (snap : Snap S) (rootHash : FileEntry S → List UInt8) (files : Files)
    (e : FileEntry S) : Checkout.Row :=
  if snap.kind e.stat = .directory then ⟨snap.keyId e, e.name, [], .noData⟩
  else ⟨snap.keyId e, e.name, rootHash e, .tree (fileChunks files e)⟩

@[simp] theorem insertedRow_name (snap : Snap S) (rootHash : FileEntry S → List UInt8)
    (files : Files) (e : FileEntry S) :
    (insertedRow snap rootHash files e).name = e.name := by
  unfold insertedRow; split_ifs <;> rfl

@[simp] theorem insertedRow_id (snap : Snap S) (rootHash : FileEntry S → List UInt8)
    (files : Files) (e : FileEntry S) :
    (insertedRow snap rootHash files e).id = snap.keyId e := by
  unfold insertedRow; split_ifs <;> rfl

/-- Modelled from the spec: a row of a family's key index: the entry's parent id, the size and
modification time `Insert` compares (`stamp`), and what `ListDir` returns. -/
structure KeyRow where
  parentId : Option KeyId
  stamp : Nat × Nat
  row : Checkout.Row
  deriving DecidableEq, Repr

/-- Modelled from the spec: the row `Insert(entry)` writes; `stamp` reads the size and
modification time from what `lstat` returned. -/
def KeyRow.ofEntry (snap : Snap S) (stamp : S → Nat × Nat) (rootHash : FileEntry S → List UInt8)
    (files : Files) (e : FileEntry S) : KeyRow :=
  ⟨e.parentId, stamp e.stat, insertedRow snap rootHash files e⟩

def upsertRow (r : KeyRow) : List KeyRow → List KeyRow
  | [] => [r]
  | r' :: rs => if r'.row.id = r.row.id then r :: rs else r' :: upsertRow r rs

/-- Modelled from the spec: `Insert(entry)`.  A row with the entry's id and its size and
modification time is left as it is; otherwise the entry's row is inserted or replaces the row
with its id. -/
def insertEntry (snap : Snap S) (stamp : S → Nat × Nat) (rootHash : FileEntry S → List UInt8)
    (files : Files) (rows : List KeyRow) (e : FileEntry S) : List KeyRow :=
  if rows.any fun r => r.row.id = snap.keyId e ∧ r.stamp = stamp e.stat then rows
  else upsertRow (KeyRow.ofEntry snap stamp rootHash files e) rows

/-- Modelled from the spec: `ListDir(parent_id)`, the rows whose parent id it is. -/
def listDirRows (rows : List KeyRow) (d : Option KeyId) : List Checkout.Row :=
  (rows.filter fun r => r.parentId = d).map KeyRow.row

/-! ## A fresh family -/

section Fresh

variable {snap : Snap S} {stamp : S → Nat × Nat} {rootHash : FileEntry S → List UInt8}
  {files : Files}

theorem upsertRow_of_forall_ne {r : KeyRow} :
    ∀ {rows : List KeyRow}, (∀ r' ∈ rows, r'.row.id ≠ r.row.id) →
      upsertRow r rows = rows ++ [r]
  | [], _ => rfl
  | r' :: rs, h => by
    rw [upsertRow, if_neg (h r' (List.mem_cons_self _ _)),
      upsertRow_of_forall_ne fun r'' h'' => h r'' (List.mem_cons_of_mem _ h''), List.cons_append]

theorem insertEntry_of_forall_ne {rows : List KeyRow} {e : FileEntry S}
    (h : ∀ r ∈ rows, r.row.id ≠ snap.keyId e) :
    insertEntry snap stamp rootHash files rows e =
      rows ++ [KeyRow.ofEntry snap stamp rootHash files e] := by
  rw [insertEntry, if_neg (by simpa using fun r hr hid _ => h r hr hid)]
  exact upsertRow_of_forall_ne fun r hr => by simpa [KeyRow.ofEntry] using h r hr

/-- `Insert`s of entries with distinct ids, none of them in the index yet, add one row each. -/
theorem foldl_insertEntry_of_nodup :
    ∀ {order : List (FileEntry S)} {rows : List KeyRow}, (order.map snap.keyId).Nodup →
      (∀ e ∈ order, ∀ r ∈ rows, r.row.id ≠ snap.keyId e) →
      order.foldl (insertEntry snap stamp rootHash files) rows =
        rows ++ order.map (KeyRow.ofEntry snap stamp rootHash files)
  | [], rows, _, _ => (List.append_nil rows).symm
  | e :: order, rows, hnd, hfresh => by
    rw [List.map_cons, List.nodup_cons] at hnd
    rw [List.foldl_cons, insertEntry_of_forall_ne (hfresh e (List.mem_cons_self _ _)),
      foldl_insertEntry_of_nodup hnd.2 fun e' he' r hr => ?_, List.append_assoc, List.map_cons,
      List.singleton_append]
    rcases List.mem_append.mp hr with hr | hr
    · exact hfresh e' (List.mem_cons_of_mem _ he') r hr
    · rw [List.mem_singleton.mp hr, KeyRow.ofEntry, insertedRow_id]
      exact fun hid => hnd.1 (hid ▸ List.mem_map_of_mem _ he')

theorem listDirRows_map (order : List (FileEntry S)) (d : Option KeyId) :
    listDirRows (order.map (KeyRow.ofEntry snap stamp rootHash files)) d =
      ((order.filter fun e => e.parentId = d).map (insertedRow snap rootHash files)) := by
  simp only [listDirRows, List.filter_map, List.map_map]
  rfl

end Fresh

end Hat

end HatBackup
