/-
# `HatBackup.BlobIndex.Sql` — the SQLite the blob index talks to

`blob_index.rs` keeps its ledger in SQLite through the `sqlite3` crate; neither is in the
repository.  This module models the part of them the blob index uses: the one table it creates,

    blob_index (id INTEGER PRIMARY KEY, name BLOB, tag INT),  UNIQUE INDEX on name,

a connection that is in autocommit mode or holds one open transaction, the statements the blob
index issues, and how a value comes back from a `SELECT`.

A `Table` carries its two constraints as fields, so no table with a repeated `id` or `name` can
be built.  The connection keeps the durable table apart from the table the open transaction
sees; `COMMIT` makes the second durable, and a crash forgets it.  `Cursor::get_int` reads a
column through `sqlite3_column_int`, which keeps the low 32 bits of a 64-bit integer: `getInt`.
-/
import Mathlib.Data.List.Nodup
import Mathlib.Order.MinMax
import Mathlib.Algebra.Group.Int

namespace HatBackup

structure Row where
  id : Int
  name : List UInt8
  tag : Int
  deriving DecidableEq, Repr

/-- What a failed statement reports. -/
inductive SqlError where
  /-- `INSERT` with an `id` already in the table (the primary key). -/
  | constraintPrimaryKey
  /-- `INSERT` with a `name` already in the table (`BlobIndex_UniqueName`). -/
  | constraintUnique
  /-- `BEGIN` while a transaction is open. -/
  | nestedBegin
  /-- `COMMIT` with no transaction open. -/
  | noTransaction
  deriving DecidableEq, Repr

/-- The contents of `blob_index`; the primary key and the unique index are fields. -/
structure Table where
  rows : List Row
  ids_nodup : (rows.map Row.id).Nodup
  names_nodup : (rows.map Row.name).Nodup
  deriving DecidableEq

namespace Table

/-- The table `CREATE TABLE` makes. -/
def empty : Table := ⟨[], List.nodup_nil, List.nodup_nil⟩

/-- `INSERT INTO blob_index (id, name, tag) VALUES (..)`: the primary key is checked first,
then the unique index on `name`. -/
def insert (t : Table) (r : Row) : Except SqlError Table :=
  if hi : r.id ∈ t.rows.map Row.id then .error .constraintPrimaryKey
  else if hn : r.name ∈ t.rows.map Row.name then .error .constraintUnique
  else .ok ⟨t.rows ++ [r], by simpa using t.ids_nodup.concat hi,
    by simpa using t.names_nodup.concat hn⟩

/-- The row `UPDATE blob_index SET tag=0 WHERE id=..` makes of `r`. -/
def clearTag (id : Int) (r : Row) : Row := if r.id = id then { r with tag := 0 } else r

@[simp] theorem clearTag_id (id : Int) (r : Row) : (clearTag id r).id = r.id := by
  unfold clearTag; split <;> rfl

@[simp] theorem clearTag_name (id : Int) (r : Row) : (clearTag id r).name = r.name := by
  unfold clearTag; split <;> rfl

/-- `UPDATE blob_index SET tag=0 WHERE id=..`. -/
def setTagZero (t : Table) (id : Int) : Table :=
  ⟨t.rows.map (clearTag id), by simpa [Function.comp_def] using t.ids_nodup,
    by simpa [Function.comp_def] using t.names_nodup⟩

/-- `SELECT MAX(id) FROM blob_index`: `NULL` on the empty table. -/
def maxId (t : Table) : Option Int := (t.rows.map Row.id).max?

theorem insert_eq_ok {t t' : Table} {r : Row} :
    t.insert r = .ok t' ↔
      r.id ∉ t.rows.map Row.id ∧ r.name ∉ t.rows.map Row.name ∧ t'.rows = t.rows ++ [r] := by
  unfold insert
  split_ifs with hi hn
  · simp [hi]
  · simp [hn]
  · simp only [Except.ok.injEq, hi, hn, not_false_eq_true, true_and]
    exact ⟨fun h => h ▸ rfl, fun h => by cases t'; cases h; rfl⟩

@[simp] theorem setTagZero_rows (t : Table) (id : Int) :
    (t.setTagZero id).rows = t.rows.map (clearTag id) := rfl

theorem mem_setTagZero {t : Table} {id : Int} {r : Row} (h : r ∈ (t.setTagZero id).rows) :
    ∃ r₀ ∈ t.rows, r.id = r₀.id ∧ r.name = r₀.name := by
  obtain ⟨r₀, h₀, rfl⟩ := List.mem_map.mp h
  exact ⟨r₀, h₀, by simp, by simp⟩

theorem maxId_eq_some {t : Table} {m : Int} :
    t.maxId = some m ↔ (∃ r ∈ t.rows, r.id = m) ∧ ∀ r ∈ t.rows, r.id ≤ m := by
  have : Std.Antisymm (fun x y : Int => x ≤ y) := ⟨Int.le_antisymm⟩
  rw [maxId, List.max?_eq_some_iff le_refl (fun a b => max_choice a b) (fun _ _ _ => max_le_iff)]
  simp

theorem maxId_eq_none {t : Table} : t.maxId = none ↔ t.rows = [] := by
  simp [maxId, List.max?_eq_none_iff]

end Table

/-- The SQL statements the blob index issues. -/
inductive Stmt where
  | createTable
  | createIndex
  | begin
  | commit
  | insert (r : Row)
  | setTagZero (id : Int)
  deriving DecidableEq, Repr

/-- A connection: the durable table and, while a transaction is open, the table it sees. -/
structure Database where
  durable : Table
  txn : Option Table
  deriving DecidableEq

namespace Database

/-- `open(path)` of a file holding `t`: no transaction is open. -/
def openDatabase (t : Table) : Database := ⟨t, none⟩

/-- The table a statement reads. -/
def view (db : Database) : Table := db.txn.getD db.durable

/-- Store `t` as what the next statement reads; in autocommit mode that is durable at once. -/
def write (db : Database) (t : Table) : Database :=
  match db.txn with
  | some _ => { db with txn := some t }
  | none => { db with durable := t }

/-- Run one statement.  `CREATE .. IF NOT EXISTS` changes nothing: the table and its index are
part of every `Database` here. -/
def exec (db : Database) : Stmt → Except SqlError Database
  | .createTable | .createIndex => pure db
  | .begin =>
    match db.txn with
    | none => pure { db with txn := some db.durable }
    | some _ => throw .nestedBegin
  | .commit =>
    match db.txn with
    | some t => pure ⟨t, none⟩
    | none => throw .noTransaction
  | .insert r => (db.view.insert r).map db.write
  | .setTagZero id => pure (db.write (db.view.setTagZero id))

/-- `Database::exec` of text holding several statements runs them in order and stops at the
first that fails. -/
def execAll (db : Database) : List Stmt → Except SqlError Database
  | [] => pure db
  | s :: ss => db.exec s >>= (execAll · ss)

/-- A crash keeps the durable table; the open transaction is lost. -/
def crash (db : Database) : Database := ⟨db.durable, none⟩

@[simp] theorem execAll_nil (db : Database) : db.execAll [] = .ok db := rfl

theorem execAll_cons_eq_ok {db db' : Database} {s : Stmt} {ss : List Stmt} :
    db.execAll (s :: ss) = .ok db' ↔ ∃ d, db.exec s = .ok d ∧ d.execAll ss = .ok db' := by
  simp only [execAll, bind, Except.bind]
  cases db.exec s <;> simp

theorem view_of_txn {db : Database} {t : Table} (h : db.txn = some t) : db.view = t := by
  simp [view, h]

theorem write_of_txn {db : Database} {t t' : Table} (h : db.txn = some t) :
    db.write t' = ⟨db.durable, some t'⟩ := by
  simp [write, h]

theorem exec_commit_of_txn {db : Database} {t : Table} (h : db.txn = some t) :
    db.exec .commit = .ok ⟨t, none⟩ := by
  simp [exec, h]; rfl

@[simp] theorem exec_begin_openDatabase (t : Table) :
    (openDatabase t).exec .begin = .ok ⟨t, some t⟩ := rfl

end Database

/-- `Cursor::get_int` of the `sqlite3` crate is `sqlite3_column_int`: `NULL` reads as `0`, and a
64-bit integer as its low 32 bits taken as a signed C `int`. -/
def getInt : Option Int → Int
  | none => 0
  | some x => x.bmod (2 ^ 32)

theorem getInt_some_of_fits {x : Int} (h1 : -2 ^ 31 ≤ x) (h2 : x < 2 ^ 31) :
    getInt (some x) = x := by
  simp only [getInt, Int.bmod_def]; split <;> omega

end HatBackup
