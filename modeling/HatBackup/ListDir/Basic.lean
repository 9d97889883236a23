/-
# `HatBackup.ListDir.Basic` — `iterate_recursively`, thread by thread

`iterate_recursively` walks a directory tree with a master thread, a pool of five threads and
one bounded channel of capacity five.  A message is a directory task `Some((path, payload))` or
an idle signal `None`.  The master sends the root task, then loops:

    master    recv None            running_workers -= 1; break when it is 0
              recv Some(task)      running_workers += 1; pool.execute(job for the task)
    job       DirIterator::new     the readdir stream of the task's path, or straight to idle
              it.next()            a name; "Path not UTF8." panics; "" ends the loop
              (name . or ..)       skipped
              handle_path          root.push(name); handle_path(payload, root); Some(q) ⟹ send
              send Some((root,q))  then root.pop()
              send None            the job is finished

A state of the walk (`Walk`) holds the channel, the master's counter and every job handed to
the pool; job `i` runs on pool thread `i % threads`, after the jobs before it on that thread.
`next` moves one actor; the walk's other parties are parameters: the file system (`Fs`) and
what `handle_path` may answer (`H`, a relation, so that any handler fits).

Ghost fields, which the code does not keep, record each message's sender, the `handle_path`
calls a job made, the tasks it sent and whether the master has received its idle signal.
-/
import Mathlib.Data.List.Basic

namespace HatBackup

namespace ListDir

/-- A directory entry's name: the bytes `readdir` returns. -/
abbrev Name := List UInt8

abbrev Path := List Name

/-- What the walk sees of the file system: what `opendir` and then `readdir` give for a path
(`none` when `opendir` fails; a read error ends the stream early). -/
structure Fs where
  listing : Path → Option (List Name)

/-! ## `DirIterator` -/

/-- A continuation byte `10xxxxxx`. -/
def isCont (b : UInt8) : Bool := 0x80 ≤ b && b ≤ 0xBF

/-- A well-formed UTF-8 byte string, the check `CString::as_str` makes (Unicode Table 3-7:
no overlong forms, no surrogates, nothing above `U+10FFFF`). -/
def validUtf8 : List UInt8 → Bool
  | [] => true
  | b :: rest =>
    if b < 0x80 then validUtf8 rest
    else match rest with
      | [] => false
      | c1 :: rest1 =>
        if 0xC2 ≤ b && b ≤ 0xDF then isCont c1 && validUtf8 rest1
        else match rest1 with
          | [] => false
          | c2 :: rest2 =>
            if 0xE0 ≤ b && b ≤ 0xEF then
              (if b = 0xE0 then 0xA0 ≤ c1 && c1 ≤ 0xBF
               else if b = 0xED then 0x80 ≤ c1 && c1 ≤ 0x9F else isCont c1) &&
                isCont c2 && validUtf8 rest2
            else match rest2 with
              | [] => false
              | c3 :: rest3 =>
                if 0xF0 ≤ b && b ≤ 0xF4 then
                  (if b = 0xF0 then 0x90 ≤ c1 && c1 ≤ 0xBF
                   else if b = 0xF4 then 0x80 ≤ c1 && c1 ≤ 0x8F else isCont c1) &&
                    isCont c2 && isCont c3 && validUtf8 rest3
                else false

example : validUtf8 [0x68, 0xC3, 0xA9, 0xE2, 0x82, 0xAC] = true := by decide
example : validUtf8 [0xFF] = false := by decide
example : validUtf8 [0xED, 0xA0, 0x80] = false := by decide

def dot : Name := [0x2E]

def dotdot : Name := [0x2E, 0x2E]

/-- The names a complete enumeration hands to `handle_path`: the iterator stops at the first
empty name, and `.` and `..` are skipped. -/
def handedNames (stream : List Name) : List Name :=
  (stream.takeWhile (· ≠ [])).filter fun n => n ≠ dot ∧ n ≠ dotdot

/-- The names a job for `p` hands to `handle_path`: none when `opendir` fails. -/
def Fs.names (fs : Fs) (p : Path) : List Name := (fs.listing p).elim [] handedNames

/-! ## The walk -/

abbrev Msg (P : Type) := Option (Path × P)

/-- The pool size and the channel's capacity. -/
def threads : Nat := 5

/-- Where a pool job stands. -/
inductive Pc (P : Type) where
  /-- Before `DirIterator::new(root)`. -/
  | start
  /-- At the head of the `for` loop; `rest` is what `readdir` will still yield. -/
  | loop (rest : List Name)
  /-- `handle_path` returned `Some(q)`: next, send `Some((root, q))`, then `root.pop()`. -/
  | push (rest : List Name) (q : P)
  /-- Next, send the idle signal `None`. -/
  | idle
  | finished
  /-- `expect("Path not UTF8.")` failed: the job, and its pool thread, are dead. -/
  | panicked

/-- The job has sent its idle signal. -/
def Pc.isFinished {P : Type} : Pc P → Bool
  | .finished => true
  | _ => false

theorem Pc.isFinished_iff {P : Type} {pc : Pc P} : pc.isFinished = true ↔ pc = .finished := by
  cases pc <;> simp [Pc.isFinished]

/-- A job handed to the pool. -/
structure Job (P : Type) where
  /-- The task it was handed: a directory and the payload for its entries. -/
  task : Path × P
  /-- Its local `root`, pushed and popped around each entry. -/
  root : Path
  pc : Pc P
  /-- Ghost: the `handle_path` calls it made, as (payload, path, result). -/
  handled : List (P × Path × Option P)
  /-- Ghost: the tasks it has sent. -/
  pushed : List (Path × P)
  /-- Ghost: the master has received its idle signal. -/
  acked : Bool

/-- The job `pool.execute` starts for a task. -/
def Job.new {P : Type} (task : Path × P) : Job P := ⟨task, task.1, .start, [], [], false⟩

/-- The walk: the channel, oldest message first, each with its sender (`none` the master,
`some i` job `i`); `running_workers`; whether the master has left its loop; the jobs. -/
structure Walk (P : Type) where
  chan : List (Option Nat × Msg P)
  running : Int
  returned : Bool
  jobs : List (Job P)

inductive Actor where
  | master
  | job (i : Nat)

variable {P : Type}

/-- The state right after `push_ch.send(Some(root))`. -/
def Walk.init (root : Path × P) : Walk P := ⟨[(none, some root)], 0, false, []⟩

/-- `recv` on the channel and what the master does with the message. -/
def masterStep (w : Walk P) : Option (Walk P) :=
  if w.returned then none else
  match w.chan with
  | [] => none
  | (s, none) :: rest =>
    some ⟨rest, w.running - 1, w.running - 1 == 0,
      match s with
      | some i => w.jobs.modify (fun j => { j with acked := true }) i
      | none => w.jobs⟩
  | (_, some task) :: rest => some ⟨rest, w.running + 1, false, w.jobs ++ [Job.new task]⟩

/-- One move of a job: its new state and the message it sends, if any.  `r` is the answer
`handle_path` gives when called; `H q path r` says it may give it; `full` says the channel
is full, which blocks a send. -/
def jobStep (fs : Fs) (H : P → Path → Option P → Bool) (j : Job P) (r : Option P) (full : Bool) :
    Option (Job P × Option (Msg P)) :=
  match j.pc with
  | .start =>
    some ({ j with pc := match fs.listing j.root with
                         | some stream => .loop stream
                         | none => .idle }, none)
  | .loop [] => some ({ j with pc := .idle }, none)
  | .loop (n :: rest) =>
    if !validUtf8 n then some ({ j with pc := .panicked }, none)
    else if n = [] then some ({ j with pc := .idle }, none)
    else if n = dot ∨ n = dotdot then some ({ j with pc := .loop rest }, none)
    else if H j.task.2 (j.root ++ [n]) r then
      some ({ j with
        root := match r with
                | some _ => j.root ++ [n]
                | none => j.root
        pc := match r with
              | some q => .push rest q
              | none => .loop rest
        handled := j.handled ++ [(j.task.2, j.root ++ [n], r)] }, none)
    else none
  | .push rest q =>
    if full then none
    else some ({ j with
      root := j.root.dropLast
      pc := .loop rest
      pushed := j.pushed ++ [(j.root, q)] }, some (some (j.root, q)))
  | .idle => if full then none else some ({ j with pc := .finished }, some none)
  | .finished | .panicked => none

/-- Job `i` may run: every earlier job on its pool thread has finished. -/
def Walk.runnable (w : Walk P) (i : Nat) : Bool :=
  (List.range i).all fun k =>
    k % threads ≠ i % threads || (w.jobs[k]?.map (·.pc.isFinished)).getD false

/-- One move of the walk. -/
def next (fs : Fs) (H : P → Path → Option P → Bool) (w : Walk P) (a : Actor) (r : Option P) :
    Option (Walk P) :=
  match a with
  | .master => masterStep w
  | .job i =>
    match w.jobs[i]? with
    | none => none
    | some j =>
      if w.runnable i then
        (jobStep fs H j r (threads ≤ w.chan.length)).map fun (j', m) =>
          { w with jobs := w.jobs.set i j', chan := w.chan ++ m.toList.map (some i, ·) }
      else none

/-- The states a walk from `root` reaches. -/
inductive Reachable (fs : Fs) (H : P → Path → Option P → Bool) (root : Path × P) : Walk P → Prop
  | init : Reachable fs H root (Walk.init root)
  | step {w w' : Walk P} {a : Actor} {r : Option P} :
      Reachable fs H root w → next fs H w a r = some w' → Reachable fs H root w'

end ListDir

end HatBackup
