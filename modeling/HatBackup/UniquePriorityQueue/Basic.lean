/-
# `HatBackup.UniquePriorityQueue.Basic` — `unique_priority_queue.rs`, call by call

The queue holds two maps: `priority`, the ordered collection from a priority to its entry
`(Status<K>, Option<V>)`, and `key_to_priority`, the `HashMap<K, P>` from a key back to its
priority.  The `HashMap` is Mathlib's `AList`, whose keys are distinct by construction.

A panic is an `Except String` error carrying the message Rust prints: the text given to
`expect`, the text of `unreachable!()`, or the text of `Option::unwrap`.  `put_value` and
`update_value` differ only in their message and in which value their closure accepts, so both
are `updateKeyValue` applied to their own message and closure.

A run is a list of calls (`Op`) applied from a state by `step`; a call that panics stops it.
-/
import HatBackup.OrderedCollection
import Mathlib.Data.List.AList

namespace HatBackup

/-- `Status<K>`: an entry waits (`Pending`) or is done (`Ready`); both carry its key. -/
inductive Status (K : Type) where
  | pending (k : K)
  | ready (k : K)
  deriving DecidableEq, Repr

def Status.key {K : Type} : Status K → K
  | .pending k | .ready k => k

@[simp] theorem Status.key_pending {K : Type} (k : K) : (Status.pending k).key = k := rfl
@[simp] theorem Status.key_ready {K : Type} (k : K) : (Status.ready k).key = k := rfl

/-- The message of `unreachable!()`. -/
def unreachableMsg : String := "internal error: entered unreachable code"

/-- The message of `Option::unwrap` on `None`. -/
def unwrapNoneMsg : String := "called `Option::unwrap()` on a `None` value"

/-- `Option::expect(msg)`. -/
def expect {α : Type} (o : Option α) (msg : String) : Except String α :=
  match o with
  | some a => pure a
  | none => throw msg

@[simp] theorem expect_some {α : Type} (a : α) (msg : String) :
    expect (some a) msg = .ok a := rfl
@[simp] theorem expect_none {α : Type} (msg : String) :
    expect (none : Option α) msg = .error msg := rfl

structure UniquePriorityQueue (P K V : Type) [LinearOrder P] where
  priority : OrderedCollection P (Status K × Option V)
  keyToPriority : AList (fun _ : K => P)

namespace UniquePriorityQueue

variable {P K V : Type} [LinearOrder P] [DecidableEq K]

def new : UniquePriorityQueue P K V := ⟨.new, ∅⟩

/-- `reserve_priority(p, k)`: `Err(())` when `p` or `k` is taken; else a `Pending(k)` entry
with no value at `p`, and `k ↦ p`. -/
def reservePriority (q : UniquePriorityQueue P K V) (p : P) (k : K) :
    Except Unit Unit × UniquePriorityQueue P K V :=
  if (q.priority.find p).isSome || (q.keyToPriority.lookup k).isSome then (.error (), q)
  else (.ok (), ⟨q.priority.insert p (.pending k, none), q.keyToPriority.insert k p⟩)

def findKey (q : UniquePriorityQueue P K V) (k : K) : Option P := q.keyToPriority.lookup k

def findValueOfKey (q : UniquePriorityQueue P K V) (k : K) : Option V :=
  (q.keyToPriority.lookup k).bind fun prio => (q.priority.find prio).bind Prod.snd

/-- The body of `put_value` and `update_value`: the priority of `k`, or a panic with `msg`;
then the value of its entry rewritten by `g`, where `g` answers `none` on the closure's
`unreachable!()` arm (the status is kept). -/
def updateKeyValue (q : UniquePriorityQueue P K V) (k : K) (msg : String)
    (g : Option V → Option V) : Except String (UniquePriorityQueue P K V) := do
  let prio ← expect (q.keyToPriority.lookup k) msg
  let priority ← q.priority.updateValue prio fun
    | some (status, vOpt) => (expect (g vOpt) unreachableMsg).map (status, some ·)
    | none => throw unreachableMsg
  pure { q with priority }

/-- `put_value(k, v)`: only an entry with no value accepts `v`. -/
def putValue (q : UniquePriorityQueue P K V) (k : K) (v : V) :
    Except String (UniquePriorityQueue P K V) :=
  q.updateKeyValue k "put_value: Key must exist." fun vOpt => vOpt.elim (some v) fun _ => none

/-- `update_value(k, f)`: only an entry with a value `w` accepts, and gets `f w`. -/
def updateValue (q : UniquePriorityQueue P K V) (k : K) (f : V → V) :
    Except String (UniquePriorityQueue P K V) :=
  q.updateKeyValue k "update_value: Key must exist." (Option.map f)

/-- `set_ready(p)`: `Pending(k)` becomes `Ready(k)`, the value kept. -/
def setReady (q : UniquePriorityQueue P K V) (p : P) :
    Except String (UniquePriorityQueue P K V) := do
  let priority ← q.priority.updateValue p fun
    | some (.pending k, vOpt) => pure (.ready k, vOpt)
    | _ => throw unreachableMsg
  pure { q with priority }

/-- The predicate `pop_min_if_complete` hands to `pop_min_when`: `Ready` with a value. -/
def isComplete : Status K × Option V → Bool
  | (.ready _, some _) => true
  | _ => false

def popMinIfComplete (q : UniquePriorityQueue P K V) :
    Except String (Option (P × K × V) × UniquePriorityQueue P K V) :=
  match q.priority.popMinWhen (fun _ min => isComplete min) with
  | (none, priority) => pure (none, { q with priority })
  | (some (p, (.ready k, vOpt)), priority) => do
      let v ← expect vOpt unwrapNoneMsg
      pure (some (p, k, v), ⟨priority, q.keyToPriority.erase k⟩)
  | (some (_, (.pending _, _)), _) => throw unreachableMsg

def len (q : UniquePriorityQueue P K V) : Nat := q.priority.len

/-! ## Runs -/

/-- One call on the queue, with its arguments. -/
inductive Op (P K V : Type) where
  | reservePriority (p : P) (k : K)
  | putValue (k : K) (v : V)
  | updateValue (k : K) (f : V → V)
  | setReady (p : P)
  | popMinIfComplete

inductive Out (P K V : Type) where
  | reserved (r : Except Unit Unit)
  | unit
  | popped (r : Option (P × K × V))

def step (q : UniquePriorityQueue P K V) :
    Op P K V → Except String (UniquePriorityQueue P K V × Out P K V)
  | .reservePriority p k => pure ((q.reservePriority p k).2, .reserved (q.reservePriority p k).1)
  | .putValue k v => (q.putValue k v).map (·, .unit)
  | .updateValue k f => (q.updateValue k f).map (·, .unit)
  | .setReady p => (q.setReady p).map (·, .unit)
  | .popMinIfComplete => (q.popMinIfComplete).map fun r => (r.2, .popped r.1)

/-- Apply calls in order, collecting what each returns; the first panic ends the run. -/
def run (q : UniquePriorityQueue P K V) :
    List (Op P K V) → Except String (UniquePriorityQueue P K V × List (Out P K V))
  | [] => pure (q, [])
  | op :: ops => do
      let (q', o) ← q.step op
      let (q'', os) ← run q' ops
      pure (q'', o :: os)

/-- A state some panic-free run from `new()` ends in. -/
def Reachable (q : UniquePriorityQueue P K V) : Prop :=
  ∃ ops outs, (new : UniquePriorityQueue P K V).run ops = .ok (q, outs)

@[simp] theorem run_nil (q : UniquePriorityQueue P K V) : q.run [] = .ok (q, []) := rfl

theorem run_cons_eq_ok {q q'' : UniquePriorityQueue P K V} {op : Op P K V} {ops : List (Op P K V)}
    {outs : List (Out P K V)} :
    q.run (op :: ops) = .ok (q'', outs) ↔
      ∃ q' o os, q.step op = .ok (q', o) ∧ q'.run ops = .ok (q'', os) ∧ outs = o :: os := by
  simp only [run, bind, Except.bind]
  rcases q.step op with e | ⟨q', o⟩
  · simp
  · rcases h : q'.run ops with e | ⟨q₂, os⟩
    · simp [h]
    · simp only [h, pure, Except.pure, Except.ok.injEq, Prod.mk.injEq]
      constructor
      · rintro ⟨rfl, rfl⟩; exact ⟨_, _, _, ⟨rfl, rfl⟩, h, rfl⟩
      · rintro ⟨_, _, _, ⟨rfl, rfl⟩, h', rfl⟩
        rw [h, Except.ok.injEq, Prod.mk.injEq] at h'
        exact ⟨h'.1, by rw [h'.2]⟩

theorem run_cons_of_step {q q' : UniquePriorityQueue P K V} {op : Op P K V} {o : Out P K V}
    (h : q.step op = .ok (q', o)) (ops : List (Op P K V)) :
    q.run (op :: ops) = (q'.run ops).map fun r => (r.1, o :: r.2) := by
  simp only [run, h, bind, Except.bind]
  rcases q'.run ops with _ | _ <;> rfl

/-- What a run preserves: a property every call keeps holds at the end of every run. -/
theorem run_preserves (I : UniquePriorityQueue P K V → Prop)
    (hstep : ∀ q q' op o, I q → q.step op = .ok (q', o) → I q') :
    ∀ (ops : List (Op P K V)) (q q' : UniquePriorityQueue P K V) outs,
      I q → q.run ops = .ok (q', outs) → I q'
  | [], q, q', outs, hq, h => by cases h; exact hq
  | op :: ops, q, q', outs, hq, h => by
    obtain ⟨q₁, o, os, h1, h2, -⟩ := run_cons_eq_ok.mp h
    exact run_preserves I hstep ops q₁ q' os (hstep q q₁ op o hq h1) h2

end UniquePriorityQueue

end HatBackup
