/-
# `HatBackup.Hat.PrintRate` — `InsertPathHandler`'s progress lines

The clones of `InsertPathHandler` share `count` and `last_print`, each behind its own mutex, and
each clone keeps its own `my_last_print`.  `handle_path` takes the `count` lock, adds one and
keeps the new value.  Then, if its own last print is a second old, it takes the `last_print`
lock and reads the clock.  If `last_print` is a second old too, it prints `#count: path` and
sets `last_print` to that reading.  Either way it sets `my_last_print` to the reading.  The
readings are `Timespec`s, and only their seconds fields (`.sec`) are compared, so two lines may
be a nanosecond apart in time while their stored seconds differ by one.

The master clones the handler for each job, so a clone starts with the `my_last_print` that
`InsertPathHandler::new` read.  The clones run on the pool's threads, and the locked parts of
different calls interleave in any order.  A move carries the clock readings it makes, so
nothing here assumes the clock runs forward.  The state records, as a ghost, the lines printed,
each with its count and the seconds it stored in `last_print`.

**Proved here.**

    each line's stored seconds exceed the one before's,
    so no more lines than the seconds field advances             (`reachable_lines_spaced`)
-/
import Mathlib.Data.List.Chain

namespace HatBackup

namespace Hat

/-- `time::Timespec`: a reading of the clock. -/
structure Timespec where
  sec : Int
  nsec : Int
  deriving DecidableEq, Repr

/-- A clone of the handler: its `my_last_print`, and the count its `handle_path` call took while
the call is between the two locks. -/
structure Clone where
  myLastPrint : Timespec
  call : Option Nat
  deriving DecidableEq, Repr

/-- The handlers of a snapshot: the shared `count` and `last_print`, the `my_last_print` of the
handler `snapshot_dir` made, which each clone copies, the clones, and the lines printed. -/
structure Printer where
  count : Nat
  lastPrint : Timespec
  origin : Timespec
  clones : List Clone
  /-- Ghost: the lines printed, oldest first, each with its count and the reading stored. -/
  lines : List (Nat × Timespec)
  deriving DecidableEq, Repr

/-- `InsertPathHandler::new`: `count` is zero, and `last_print` and `my_last_print` are two
readings of the clock. -/
def Printer.new (t₁ t₂ : Timespec) : Printer := ⟨0, t₁, t₂, [], []⟩

inductive Move where
  /-- `worker.clone()`, for a new job. -/
  | clone
  /-- Clone `i` enters `handle_path` and takes the `count` lock. -/
  | count (i : Nat)
  /-- Clone `i` reads the clock for its own test (`now₁`) and again under the `last_print` lock
  (`now₂`). -/
  | print (i : Nat) (now₁ now₂ : Timespec)
  deriving DecidableEq, Repr

/-- Under the `last_print` lock: when `last_print.sec <= now.sec - 1`, print line `c` and store
`now`. -/
def Printer.lockedPrint (s : Printer) (c : Nat) (now : Timespec) : Printer :=
  if s.lastPrint.sec ≤ now.sec - 1 then { s with lastPrint := now, lines := s.lines ++ [(c, now)] }
  else s

def Printer.step (s : Printer) : Move → Option Printer
  | .clone => some { s with clones := s.clones ++ [⟨s.origin, none⟩] }
  | .count i =>
    match s.clones[i]? with
    | some ⟨my, none⟩ =>
      some { s with count := s.count + 1, clones := s.clones.set i ⟨my, some (s.count + 1)⟩ }
    | _ => none
  | .print i now₁ now₂ =>
    match s.clones[i]? with
    | some ⟨my, some c⟩ =>
      if my.sec ≤ now₁.sec - 1 then
        some { s.lockedPrint c now₂ with clones := s.clones.set i ⟨now₂, none⟩ }
      else some { s with clones := s.clones.set i ⟨my, none⟩ }
    | _ => none

/-- The states the handlers of a snapshot reach, `new` having read `t₁` and `t₂`. -/
inductive Printer.Reachable (t₁ t₂ : Timespec) : Printer → Prop
  | new : Printer.Reachable t₁ t₂ (Printer.new t₁ t₂)
  | step {s s' : Printer} {m : Move} :
      Printer.Reachable t₁ t₂ s → s.step m = some s' → Printer.Reachable t₁ t₂ s'

def Printer.run (s : Printer) : List Move → Option Printer
  | [] => some s
  | m :: ms => (s.step m).bind fun s' => s'.run ms

theorem Printer.run_reachable {t₁ t₂ : Timespec} :
    ∀ {ms : List Move} {s s' : Printer}, s.Reachable t₁ t₂ → s.run ms = some s' →
      s'.Reachable t₁ t₂
  | [], _, _, hs, h => by cases h; exact hs
  | m :: ms, s, s', hs, h => by
    simp only [Printer.run, Option.bind_eq_some] at h
    obtain ⟨s₁, h₁, h⟩ := h
    exact Printer.run_reachable (.step hs h₁) h

/-! ## Spaced lines -/

/-- From the reading `t₁` of `new` on, each stored reading's seconds exceed the one before's,
`last_print` holds the latest, and there are no more lines than its seconds have advanced. -/
structure Spaced (t₁ : Timespec) (s : Printer) : Prop where
  chain : (t₁.sec :: s.lines.map (·.2.sec)).Chain' fun a b => a + 1 ≤ b
  last : (t₁.sec :: s.lines.map (·.2.sec)).getLast? = some s.lastPrint.sec
  length : (s.lines.length : Int) ≤ s.lastPrint.sec - t₁.sec

theorem spaced_new (t₁ t₂ : Timespec) : Spaced t₁ (Printer.new t₁ t₂) :=
  ⟨List.chain'_singleton _, rfl, by simp [Printer.new]⟩

theorem Spaced.of_eq {t₁ : Timespec} {s s' : Printer} (h : Spaced t₁ s)
    (hl : s'.lines = s.lines) (hp : s'.lastPrint = s.lastPrint) : Spaced t₁ s' := by
  obtain ⟨hc, hlast, hlen⟩ := h
  exact ⟨hl ▸ hc, hl ▸ hp ▸ hlast, hl ▸ hp ▸ hlen⟩

theorem Spaced.lockedPrint {t₁ : Timespec} {s : Printer} (h : Spaced t₁ s) (c : Nat)
    (now : Timespec) : Spaced t₁ (s.lockedPrint c now) := by
  unfold Printer.lockedPrint
  split_ifs with hnow
  · have hlast : ∀ x ∈ (t₁.sec :: s.lines.map (·.2.sec)).getLast?,
        ∀ y ∈ [now.sec].head?, x + 1 ≤ y := by
      simp only [h.last, List.head?_cons, Option.mem_def, Option.some.injEq]
      rintro x rfl y rfl
      omega
    have happ : t₁.sec :: (s.lines ++ [(c, now)]).map (·.2.sec) =
        (t₁.sec :: s.lines.map (·.2.sec)) ++ [now.sec] := by
      simp
    refine ⟨?_, ?_, ?_⟩
    · rw [happ]; exact h.chain.append (List.chain'_singleton _) hlast
    · rw [happ, List.getLast?_concat]
    · have := h.length
      simp only [List.length_append, List.length_singleton]
      omega
  · exact h

/-- A move keeps the lines spaced: only the `last_print` lock prints. -/
theorem Spaced.step {t₁ : Timespec} {s : Printer} (h : Spaced t₁ s) :
    ∀ {m : Move} {s' : Printer}, s.step m = some s' → Spaced t₁ s'
  | .clone, _, hs => by cases hs; exact h.of_eq rfl rfl
  | .count i, _, hs => by
    simp only [Printer.step] at hs
    split at hs
    · cases hs; exact h.of_eq rfl rfl
    · cases hs
  | .print i now₁ now₂, _, hs => by
    simp only [Printer.step] at hs
    split at hs
    · split_ifs at hs
      · cases hs; exact (h.lockedPrint _ _).of_eq rfl rfl
      · cases hs; exact h.of_eq rfl rfl
    · cases hs

/-- In every run, whatever the interleaving of the clones and whatever the clock reads, the
seconds field stored with each progress line exceeds the one stored before it, the first
exceeding that of `InsertPathHandler::new`'s reading; so no more lines are printed than that
seconds field advances.  Two lines may still be a nanosecond apart. -/
theorem reachable_lines_spaced {t₁ t₂ : Timespec} {s : Printer} (hs : s.Reachable t₁ t₂) :
    (t₁.sec :: s.lines.map (·.2.sec)).Chain' (fun a b => a + 1 ≤ b) ∧
      (s.lines.length : Int) ≤ s.lastPrint.sec - t₁.sec := by
  have h : Spaced t₁ s := by
    induction hs with
    | new => exact spaced_new t₁ t₂
    | step _ hm ih => exact ih.step hm
  exact ⟨h.chain, h.length⟩

/-- `new` reads 4.999999999 s.  Two clones take a count each; the first prints at 5.000000000 s,
a nanosecond after `new`, and the second, at 5.000000001 s, does not. -/
def twoCalls : List Move :=
  [.clone, .clone, .count 0, .count 1, .print 0 ⟨5, 0⟩ ⟨5, 0⟩, .print 1 ⟨5, 1⟩ ⟨5, 1⟩]

theorem reachable_lines_spaced_two_calls :
    ∃ s : Printer, s.Reachable ⟨4, 999999999⟩ ⟨4, 999999999⟩ ∧ s.lines = [(1, ⟨5, 0⟩)] ∧
      ((4 : Int) :: s.lines.map (·.2.sec)).Chain' (fun a b => a + 1 ≤ b) ∧
        (s.lines.length : Int) ≤ s.lastPrint.sec - 4 := by
  have hs := Printer.run_reachable .new
    (show (Printer.new ⟨4, 999999999⟩ ⟨4, 999999999⟩).run twoCalls = some _ from rfl)
  exact ⟨_, hs, rfl, reachable_lines_spaced hs⟩

end Hat

end HatBackup
