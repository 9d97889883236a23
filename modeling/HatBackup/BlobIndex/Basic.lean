/-
# `HatBackup.BlobIndex.Basic` — `blob_index.rs`, message by message

The blob index is a process that owns a SQLite connection, the counter `next_id` and the map
`reserved` from a blob name to the `BlobDesc` handed out under it.  Its handler answers three
messages: `Reserve` makes a desc with 24 random bytes as name and the next id; `InAir` writes
the desc's row with `tag = 1`; `CommitDone` sets the row's tag to `0`.  Each of the last two
ends with `COMMIT; BEGIN`, so between messages exactly one transaction is open and it holds no
change.

A panic (`fail!` in `exec_or_die`, a failed `assert!`) is an error of type `Panic`.  The random
name is an argument: whatever `randombytes(24)` returned.  A run of the process is a list of
events, each a message or a restart (drop, which commits, then `BlobIndex::new` on the same
file).
-/
import HatBackup.BlobIndex.Sql
import Mathlib.Data.List.AList

namespace HatBackup

/-- `BlobDesc`: the name a blob is stored under and its internal id. -/
structure BlobDesc where
  name : List UInt8
  id : Int
  deriving DecidableEq, Repr

inductive Msg where
  | reserve
  | inAir (blob : BlobDesc)
  | commitDone (blob : BlobDesc)
  deriving DecidableEq, Repr

inductive Reply where
  | reserved (blob : BlobDesc)
  | commitOK
  deriving DecidableEq, Repr

/-- How the process dies. -/
inductive Panic where
  /-- `exec_or_die`: `fail!` with SQLite's error and the SQL text. -/
  | exec (err : SqlError) (sql : List Stmt)
  /-- `assert!(cond, msg)`. -/
  | assert (msg : String)
  deriving DecidableEq, Repr

/-- The message of the `assert!` in `in_air` and `commit_blob`. -/
def notReservedMsg : String := "blob was not reserved!"

/-- Signed 64-bit arithmetic wraps. -/
def wrapI64 (x : Int) : Int := x.bmod (2 ^ 64)

theorem wrapI64_of_fits {x : Int} (h1 : -2 ^ 63 ≤ x) (h2 : x < 2 ^ 63) : wrapI64 x = x := by
  simp only [wrapI64, Int.bmod_def]; split <;> omega

structure BlobIndex where
  dbh : Database
  nextId : Int
  reserved : AList (fun _ : List UInt8 => BlobDesc)

namespace BlobIndex

def execOrDie (b : BlobIndex) (sql : List Stmt) : Except Panic BlobIndex :=
  match b.dbh.execAll sql with
  | .ok dbh => pure { b with dbh }
  | .error e => throw (.exec e sql)

/-- `refresh_next_id()`: `MAX(id)` read back through `get_int(0)`, plus one.  The aggregate
query always yields a row, so its `unwrap` never fails; `id as i64 + 1` cannot overflow, the
value being a 32-bit `int`. -/
def refreshNextId (b : BlobIndex) : BlobIndex :=
  { b with nextId := getInt b.dbh.view.maxId + 1 }

/-- `initialize()` (a keyword here). -/
def initializeDb (b : BlobIndex) : Except Panic BlobIndex := do
  let b ← b.execOrDie [.createTable]
  let b ← b.execOrDie [.createIndex]
  let b ← b.execOrDie [.begin]
  pure b.refreshNextId

/-- `BlobIndex::new(path)` on a file holding `t`. -/
def new (t : Table) : Except Panic BlobIndex :=
  initializeDb ⟨.openDatabase t, -1, ∅⟩

/-- `next_id()` (the field has the same name): the counter, which moves on by one. -/
def takeNextId (b : BlobIndex) : Int × BlobIndex :=
  (b.nextId, { b with nextId := wrapI64 (b.nextId + 1) })

/-- `new_blob_desc()`, `rand` being what `randombytes(24)` returned. -/
def newBlobDesc (b : BlobIndex) (rand : List UInt8) : BlobDesc × BlobIndex :=
  let (id, b) := b.takeNextId
  (⟨rand, id⟩, b)

def reserve (b : BlobIndex) (rand : List UInt8) : BlobDesc × BlobIndex :=
  let (blob, b) := b.newBlobDesc rand
  (blob, { b with reserved := b.reserved.insert blob.name blob })

def assert (c : Bool) (msg : String) : Except Panic Unit :=
  if c then pure () else throw (.assert msg)

def newTransaction (b : BlobIndex) : Except Panic BlobIndex :=
  b.execOrDie [.commit, .begin]

/-- `in_air(blob)`: the row is written with `tag = 1`. -/
def inAir (b : BlobIndex) (blob : BlobDesc) : Except Panic BlobIndex := do
  assert (b.reserved.lookup blob.name).isSome notReservedMsg
  let b ← b.execOrDie [.insert ⟨blob.id, blob.name, 1⟩]
  b.newTransaction

def commitBlob (b : BlobIndex) (blob : BlobDesc) : Except Panic BlobIndex := do
  assert (b.reserved.lookup blob.name).isSome notReservedMsg
  let b ← b.execOrDie [.setTagZero blob.id]
  b.newTransaction

def drop (b : BlobIndex) : Except Panic BlobIndex :=
  b.execOrDie [.commit]

/-- `MsgHandler::handle(msg, reply)`, returning the reply. -/
def handle (b : BlobIndex) (rand : List UInt8) : Msg → Except Panic (BlobIndex × Reply)
  | .reserve => pure ((b.reserve rand).2, .reserved (b.reserve rand).1)
  | .inAir blob => (b.inAir blob).map (·, .commitOK)
  | .commitDone blob => (b.commitBlob blob).map (·, .commitOK)

/-! ## Runs -/

/-- What the process sees: a message (with the bytes `randombytes(24)` would return), or a
restart. -/
inductive Event where
  | msg (m : Msg) (rand : List UInt8)
  | restart
  deriving DecidableEq, Repr

/-- A restart: the old process drops, committing, and a new one opens the same file. -/
def restart (b : BlobIndex) : Except Panic BlobIndex := do
  let b ← b.drop
  new b.dbh.durable

/-- One event; a restart answers nothing. -/
def step (b : BlobIndex) : Event → Except Panic (BlobIndex × Option Reply)
  | .msg m rand => (b.handle rand m).map fun r => (r.1, some r.2)
  | .restart => (b.restart).map (·, none)

/-- Events in order, collecting the replies; a panic ends the run. -/
def run (b : BlobIndex) : List Event → Except Panic (BlobIndex × List (Option Reply))
  | [] => pure (b, [])
  | e :: es => do
      let (b', o) ← b.step e
      let (b'', os) ← run b' es
      pure (b'', o :: os)

def runFrom (t : Table) (es : List Event) : Except Panic (BlobIndex × List (Option Reply)) := do
  (← new t).run es

def reservedIds (os : List (Option Reply)) : List Int :=
  os.filterMap fun
    | some (.reserved blob) => some blob.id
    | _ => none

/-! ## Calls between messages -/

/-- Between messages: one transaction is open and it holds no change. -/
def Settled (b : BlobIndex) : Prop := b.dbh.txn = some b.dbh.durable

@[simp] theorem new_eq (t : Table) : new t = .ok ⟨⟨t, some t⟩, getInt t.maxId + 1, ∅⟩ := rfl

@[simp] theorem reserve_fst (b : BlobIndex) (rand : List UInt8) :
    (b.reserve rand).1 = ⟨rand, b.nextId⟩ := rfl

@[simp] theorem reserve_snd (b : BlobIndex) (rand : List UInt8) :
    (b.reserve rand).2 = ⟨b.dbh, wrapI64 (b.nextId + 1), b.reserved.insert rand ⟨rand, b.nextId⟩⟩ :=
  rfl

@[simp] theorem newTransaction_mk (d t : Table) (n : Int)
    (r : AList (fun _ : List UInt8 => BlobDesc)) :
    (⟨⟨d, some t⟩, n, r⟩ : BlobIndex).newTransaction = .ok ⟨⟨t, some t⟩, n, r⟩ := rfl

theorem inAir_eq_ok {b b' : BlobIndex} {blob : BlobDesc} (h : b.Settled) :
    b.inAir blob = .ok b' ↔ (b.reserved.lookup blob.name).isSome ∧
      ∃ t, b.dbh.durable.insert ⟨blob.id, blob.name, 1⟩ = .ok t ∧
        ⟨⟨t, some t⟩, b.nextId, b.reserved⟩ = b' := by
  unfold inAir assert
  by_cases hr : (b.reserved.lookup blob.name).isSome
  · simp only [hr, if_true, execOrDie, Database.execAll, Database.exec, Database.view_of_txn h]
    rcases b.dbh.durable.insert ⟨blob.id, blob.name, 1⟩ with e | t
    · simp [bind, Except.bind, pure, Except.pure, throw, throwThe, MonadExceptOf.throw, Except.map]
    · simp [bind, Except.bind, pure, Except.pure, Except.map, Database.write_of_txn h]
  · simp [hr, bind, Except.bind, throw, throwThe, MonadExceptOf.throw]

theorem commitBlob_eq_ok {b b' : BlobIndex} {blob : BlobDesc} (h : b.Settled) :
    b.commitBlob blob = .ok b' ↔ (b.reserved.lookup blob.name).isSome ∧
      ⟨⟨b.dbh.durable.setTagZero blob.id, some (b.dbh.durable.setTagZero blob.id)⟩, b.nextId,
        b.reserved⟩ = b' := by
  unfold commitBlob assert
  by_cases hr : (b.reserved.lookup blob.name).isSome
  · simp [hr, execOrDie, Database.execAll, Database.exec, Database.view_of_txn h, bind,
      Except.bind, pure, Except.pure, Database.write_of_txn h]
  · simp [hr, bind, Except.bind, throw, throwThe, MonadExceptOf.throw]

theorem restart_of_settled {b : BlobIndex} (h : b.Settled) :
    b.restart = .ok ⟨⟨b.dbh.durable, some b.dbh.durable⟩, getInt b.dbh.durable.maxId + 1, ∅⟩ := by
  simp [restart, drop, execOrDie, Database.execAll, Database.exec_commit_of_txn h, bind,
    Except.bind, pure, Except.pure]

theorem step_reserve_eq_ok {b b' : BlobIndex} {rand : List UInt8} {o : Option Reply} :
    b.step (.msg .reserve rand) = .ok (b', o) ↔
      (b.reserve rand).2 = b' ∧ some (.reserved (b.reserve rand).1) = o := by
  simp [step, handle, pure, Except.pure, Except.map]

theorem step_inAir_eq_ok {b b' : BlobIndex} {d : BlobDesc} {rand : List UInt8} {o : Option Reply} :
    b.step (.msg (.inAir d) rand) = .ok (b', o) ↔ b.inAir d = .ok b' ∧ some .commitOK = o := by
  simp only [step, handle]; cases b.inAir d <;> simp [Except.map]

theorem step_commitDone_eq_ok {b b' : BlobIndex} {d : BlobDesc} {rand : List UInt8}
    {o : Option Reply} :
    b.step (.msg (.commitDone d) rand) = .ok (b', o) ↔ b.commitBlob d = .ok b' ∧ some .commitOK = o := by
  simp only [step, handle]; cases b.commitBlob d <;> simp [Except.map]

theorem step_restart_eq_ok {b b' : BlobIndex} {o : Option Reply} :
    b.step .restart = .ok (b', o) ↔ b.restart = .ok b' ∧ none = o := by
  simp only [step]; cases b.restart <;> simp [Except.map]

end BlobIndex

end HatBackup
