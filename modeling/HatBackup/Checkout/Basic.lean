/-
# `HatBackup.Checkout.Basic` — `Family::checkout_in_dir`

`checkout_in_dir(output_dir, dir_id)` restores the entries the key store lists under `dir_id`
into `output_dir`.  It creates `output_dir` (`mkdir_recursive`), and for each row of
`ListDir(dir_id)` pushes the row's name onto `output_dir`, recurses for a directory (an empty
hash) or creates the file and writes its chunks, and pops the name again.  An error of
`mkdir_recursive` or `File::create` is unwrapped, so it panics; each `write` and the `flush` are
tried up to four times by `try_a_few_times_then_fail`, which panics when all four fail.

The output file system is a map from paths to nodes, the key store the function that answers
`ListDir`, and `Io` says which tries of a write or a flush succeed.  The recursion runs on fuel,
`none` meaning it ran out.
-/
import HatBackup.ListDir.Snapshot
import Mathlib.Logic.Function.Basic

namespace HatBackup

namespace Checkout

open ListDir

/-- `hash_tree::ReaderResult`: a file's content, as the key store hands it over. -/
inductive ReaderResult where
  | noData
  | singleBlock (chunk : List UInt8)
  | tree (chunks : List (List UInt8))
  deriving DecidableEq, Repr

/-- The fields of a `ListDir` row that `checkout_in_dir` reads: the id, the name, the hash
(empty for a directory) and the content. -/
structure Row where
  id : KeyId
  name : Name
  hash : List UInt8
  dataRes : ReaderResult
  deriving DecidableEq, Repr

/-- The key store, as `checkout_in_dir` asks it.  Modelled from the spec: the key store is not
under src/; `ListDir(parent_id)` returns every entry whose parent is `parent_id`. -/
structure Listings where
  listDir : Option KeyId → List Row

inductive Node where
  | dir
  | file (contents : List UInt8)
  deriving DecidableEq, Repr

abbrev Disk := Path → Option Node

/-- The kinds of `IoError` the calls here return. -/
inductive IoError where
  | pathAlreadyExists
  | pathDoesntExist
  | mismatchedFileTypeForOperation
  deriving DecidableEq, Repr

/-- How `checkout_in_dir` dies. -/
inductive Panic where
  /-- `.unwrap()` on an error. -/
  | unwrap (e : IoError)
  /-- `fail!(msg)`. -/
  | fail (msg : String)
  deriving DecidableEq, Repr

/-! ## `try_a_few_times_then_fail` -/

/-- The loop of `try_a_few_times_then_fail` over the indices `is`, `attempt i` being what `f()`
returns on the call for index `i`: the index of the call that succeeded. -/
def tryLoop (attempt : Nat → Bool) (msg : String) : List Nat → Except Panic Nat
  | [] => .error (.fail msg)
  | i :: is => if attempt i then .ok i else tryLoop attempt msg is

/-- `try_a_few_times_then_fail(f, msg)`: the loop over `range(1u, 5)`. -/
def tryAFewTimesThenFail (attempt : Nat → Bool) (msg : String) : Except Panic Nat :=
  tryLoop attempt msg (List.range' 1 4)

/-! ## The file system calls -/

/-- What the output file system answers: whether try `i` of the `k`-th `write` to the file at
`p` succeeds, and whether try `i` of its `flush` does.  A write that fails writes nothing. -/
structure Io where
  writeOk : Path → Nat → Nat → Bool
  flushOk : Path → Nat → Bool

/-- `mkdir(path)`: fails when `path` exists or its parent is not a directory. -/
def mkdir (disk : Disk) (p : Path) : Except IoError Disk :=
  if (disk p).isSome then .error .pathAlreadyExists
  else if disk p.dropLast = some .dir then .ok (Function.update disk p (some .dir))
  else .error .pathDoesntExist

/-- The loop of `mkdir_recursive`: `mkdir` each longer prefix of the path, one that is already
a directory being passed over. -/
def mkdirPrefixes (cur : Path) : Disk → List Name → Except IoError Disk
  | disk, [] => .ok disk
  | disk, c :: cs =>
    match mkdir disk (cur ++ [c]) with
    | .ok disk' => mkdirPrefixes (cur ++ [c]) disk' cs
    | .error e =>
      if disk (cur ++ [c]) = some .dir then mkdirPrefixes (cur ++ [c]) disk cs else .error e

def mkdirRecursive (disk : Disk) (p : Path) : Except IoError Disk :=
  if disk p = some .dir then .ok disk else mkdirPrefixes [] disk p

/-- `File::create(path)`: an empty file, replacing a file already there. -/
def fileCreate (disk : Disk) (p : Path) : Except IoError Disk :=
  if disk p = some .dir then .error .mismatchedFileTypeForOperation
  else if disk p.dropLast = some .dir then .ok (Function.update disk p (some (.file [])))
  else .error .pathDoesntExist

/-- `fd.write(chunk)`, `fd` being the file at `p`. -/
def write (disk : Disk) (p : Path) (chunk : List UInt8) : Disk :=
  match disk p with
  | some (.file c) => Function.update disk p (some (.file (c ++ chunk)))
  | _ => disk

/-- `try_a_few_times_then_fail(|| fd.write(chunk).is_ok(), "Could not write chunk.")`, the
`k`-th write to the file at `p`. -/
def writeChunk (io : Io) (disk : Disk) (p : Path) (k : Nat) (chunk : List UInt8) :
    Except Panic Disk :=
  (tryAFewTimesThenFail (io.writeOk p k) "Could not write chunk.").map fun _ => write disk p chunk

/-- The `for` loop of `put_chunks` over a tree's chunks, from the `k`-th write on. -/
def writeChunks (io : Io) (p : Path) : Nat → Disk → List (List UInt8) → Except Panic Disk
  | _, disk, [] => .ok disk
  | k, disk, c :: cs => (writeChunk io disk p k c).bind fun disk => writeChunks io p (k + 1) disk cs

def putChunks (io : Io) (disk : Disk) (p : Path) : ReaderResult → Except Panic Disk
  | .noData => .error (.fail "Trying to read data where none exist.")
  | .singleBlock chunk => writeChunk io disk p 0 chunk
  | .tree chunks => writeChunks io p 0 disk chunks

/-- `Path::push(name)` of a name read from the key store: the empty name and `.` leave the
path as it is, `..` goes up, any other name is one more component. -/
def pushName (p : Path) (n : Name) : Path :=
  if n = [] ∨ n = dot then p else if n = dotdot then p.dropLast else p ++ [n]

/-! ## `checkout_in_dir` -/

/-- The `for` loop's body for a file: `File::create(output_dir).unwrap()`, `put_chunks`, then
`try_a_few_times_then_fail(|| fd.flush().is_ok(), "Could not flush file.")`. -/
def checkoutFile (io : Io) (disk : Disk) (p : Path) (data : ReaderResult) : Except Panic Disk :=
  match fileCreate disk p with
  | .error e => .error (.unwrap e)
  | .ok disk => (putChunks io disk p data).bind fun disk =>
    (tryAFewTimesThenFail (io.flushOk p) "Could not flush file.").map fun _ => disk

/-- The `for` loop of `checkout_in_dir`, `recurse` being the recursive call: the disk and
`output_dir` afterwards. -/
def checkoutRows (io : Io)
    (recurse : Disk → Path → Option KeyId → Option (Except Panic (Disk × Path))) :
    Disk → Path → List Row → Option (Except Panic (Disk × Path))
  | disk, out, [] => some (.ok (disk, out))
  | disk, out, row :: rows =>
    let out := pushName out row.name
    let r := if row.hash = [] then recurse disk out (some row.id)
      else some ((checkoutFile io disk out row.dataRes).map (·, out))
    match r with
    | some (.ok (disk, out)) => checkoutRows io recurse disk out.dropLast rows
    | r => r

/-- `checkout_in_dir(output_dir, dir_id)`, `k` levels of recursion deep: the disk and
`output_dir` when it returns. -/
def checkoutInDir (ks : Listings) (io : Io) : Nat → Disk → Path → Option KeyId →
    Option (Except Panic (Disk × Path))
  | 0, _, _, _ => none
  | k + 1, disk, out, dirId =>
    match mkdirRecursive disk out with
    | .error e => some (.error (.unwrap e))
    | .ok disk => checkoutRows io (checkoutInDir ks io k) disk out (ks.listDir dirId)

end Checkout

end HatBackup
