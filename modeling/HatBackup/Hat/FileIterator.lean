/-
# `HatBackup.Hat.FileIterator` — a file read in chunks

`FileEntry::file_iterator` opens the entry's file (`File::open`), which may fail.
`FileIterator::next` reads into a fresh buffer of 128 KiB and yields the bytes `read` put
there; an error ends the sequence.  A `read` returns what the system delivers, at most the
buffer: a regular file fills it until the end, a pipe or a device may deliver less, and once
nothing is left `read` returns the std's `EndOfFile` error.  The key store draws the chunks
until `next` returns `None` and gives them back to `checkout_in_dir` as the entry's data.

**Proved here.**

    the chunks are non-empty, at most 128 KiB, and the file's first bytes   (`drain_prefix`)
    when no read fails they are the whole file                               (`drain_flatten`)
    when every read fills the buffer, all but the last are full              (`drain_full`)
-/
import HatBackup.ListDir.Snapshot

namespace HatBackup

namespace Hat

open ListDir

/-- `128*1024`, the length of the buffer `FileIterator::next` reads into. -/
def bufLen : Nat := 128 * 1024

/-- An open file: the bytes it has still to yield. -/
structure OpenFile where
  rest : List UInt8
  deriving DecidableEq, Repr

/-- `File::read(buf)`, `len` the buffer's length and `got` what the system delivers to this
call, zero for an error: the next `min(len, got)` bytes, or `EndOfFile` once nothing is left. -/
def OpenFile.read (f : OpenFile) (len got : Nat) : Option (List UInt8 × OpenFile) :=
  if f.rest = [] ∨ got = 0 then none
  else some (f.rest.take (min len got), ⟨f.rest.drop (min len got)⟩)

structure FileIterator where
  file : OpenFile
  deriving DecidableEq, Repr

/-- `FileIterator::new(path)`: `File::open`, `contents` giving what each path that opens holds. -/
def FileIterator.new (contents : Path → Option (List UInt8)) (p : Path) : Option FileIterator :=
  (contents p).map fun c => ⟨⟨c⟩⟩

def fileIterator {S : Type} (contents : Path → Option (List UInt8)) (e : FileEntry S) :
    Option FileIterator :=
  FileIterator.new contents e.fullPath

/-- The files a snapshot reads: what each path that opens holds, and what the system delivers to
each read of it, zero for an error. -/
structure Files where
  contents : Path → Option (List UInt8)
  reads : Path → Nat → Nat

def FileIterator.next (it : FileIterator) (got : Nat) : Option (List UInt8 × FileIterator) :=
  (it.file.read bufLen got).map fun r => (r.1, ⟨r.2⟩)

/-- Modelled from the spec: the key store draws chunks until `next` returns `None`, read `i`
getting `reads i` from the system; `k` bounds the number of reads. -/
def FileIterator.drain (reads : Nat → Nat) : Nat → Nat → FileIterator → List (List UInt8)
  | 0, _, _ => []
  | k + 1, i, it =>
    match it.next (reads i) with
    | none => []
    | some (c, it') => c :: drain reads k (i + 1) it'

/-- Every chunk the key store draws: a read that succeeds takes a byte at least, so one read more
than there are bytes reaches `None`. -/
def FileIterator.chunks (reads : Nat → Nat) (it : FileIterator) : List (List UInt8) :=
  it.drain reads (it.file.rest.length + 1) 0

/-! ## The chunks -/

section Chunks

variable {reads : Nat → Nat}

theorem next_eq_none {it : FileIterator} {got : Nat} (h : it.file.rest = [] ∨ got = 0) :
    it.next got = none := by
  simp [FileIterator.next, OpenFile.read, h]

theorem next_eq_some {it : FileIterator} {got : Nat} (h : it.file.rest ≠ []) (hg : got ≠ 0) :
    it.next got =
      some (it.file.rest.take (min bufLen got), ⟨⟨it.file.rest.drop (min bufLen got)⟩⟩) := by
  simp [FileIterator.next, OpenFile.read, h, hg]

theorem drain_eq_nil {it : FileIterator} (h : it.file.rest = []) :
    ∀ {k i}, it.drain reads k i = []
  | 0, _ => rfl
  | _ + 1, _ => by simp [FileIterator.drain, next_eq_none (.inl h)]

theorem drain_prefix (reads : Nat → Nat) :
    ∀ k i (it : FileIterator), (it.drain reads k i).flatten.IsPrefix it.file.rest ∧
      ∀ c ∈ it.drain reads k i, c ≠ [] ∧ c.length ≤ bufLen
  | 0, _, _ => by simp [FileIterator.drain]
  | k + 1, i, it => by
    by_cases h : it.file.rest = [] ∨ reads i = 0
    · simp [FileIterator.drain, next_eq_none h]
    obtain ⟨hne, hg⟩ := not_or.mp h
    obtain ⟨ih, ihc⟩ := drain_prefix reads k (i + 1) ⟨⟨it.file.rest.drop (min bufLen (reads i))⟩⟩
    simp only [FileIterator.drain, next_eq_some hne hg, List.flatten_cons, List.mem_cons,
      forall_eq_or_imp]
    refine ⟨?_, ⟨?_, ?_⟩, ihc⟩
    · have := (List.prefix_append_right_inj (it.file.rest.take (min bufLen (reads i)))).mpr ih
      rwa [List.take_append_drop] at this
    · simp only [ne_eq, List.take_eq_nil_iff, hne, or_false, bufLen]; omega
    · simp only [List.length_take]; omega

/-- When no read fails, enough reads draw the whole file. -/
theorem drain_flatten (hr : ∀ i, 0 < reads i) :
    ∀ k i (it : FileIterator), it.file.rest.length < k → (it.drain reads k i).flatten = it.file.rest
  | 0, _, _, h => absurd h (Nat.not_lt_zero _)
  | k + 1, i, ⟨⟨[]⟩⟩, _ => by simp [FileIterator.drain, next_eq_none]
  | k + 1, i, ⟨⟨b :: bs⟩⟩, h => by
    have hm : 0 < min bufLen (reads i) := by have := hr i; simp only [bufLen]; omega
    simp only [FileIterator.drain,
      @next_eq_some ⟨⟨b :: bs⟩⟩ _ (List.cons_ne_nil b bs) (hr i).ne', List.flatten_cons]
    rw [drain_flatten hr k (i + 1) _ (by simp only [List.length_drop, List.length_cons] at h ⊢; omega),
      List.take_append_drop]

/-- When every read fills the buffer, every chunk but the last is a full 128 KiB. -/
theorem drain_full (hr : ∀ i, bufLen ≤ reads i) :
    ∀ k i (it : FileIterator), ∀ c ∈ (it.drain reads k i).dropLast, c.length = bufLen
  | 0, _, _ => by simp [FileIterator.drain]
  | k + 1, i, ⟨⟨[]⟩⟩ => by simp [FileIterator.drain, next_eq_none]
  | k + 1, i, ⟨⟨b :: bs⟩⟩ => by
    have hg : reads i ≠ 0 := by have := hr i; simp only [bufLen] at this; omega
    simp only [FileIterator.drain, @next_eq_some ⟨⟨b :: bs⟩⟩ _ (List.cons_ne_nil b bs) hg,
      min_eq_left (hr i)]
    cases hd : FileIterator.drain reads k (i + 1) ⟨⟨(b :: bs).drop bufLen⟩⟩ with
    | nil => simp
    | cons c' cs =>
      -- a chunk follows, so bytes were left after this one: it took a whole buffer
      have hlong : bufLen < (b :: bs).length := by
        by_contra hle
        rw [drain_eq_nil (List.drop_eq_nil_of_le (by omega))] at hd
        cases hd
      rw [List.dropLast_cons₂, List.forall_mem_cons, List.length_take]
      exact ⟨by omega, hd ▸ drain_full hr k (i + 1) _⟩

end Chunks

/-- A file that `FileEntry::file_iterator` opens, read until `next` returns `None`, whatever
each read delivers: the chunks are non-empty, at most 128 KiB each, and the file's first bytes in
order, all of them when no read fails (a failed read ends them early).  When every read fills
the buffer, as on a regular file, every chunk but the last is exactly 128 KiB. -/
theorem fileIterator_chunks {S : Type} (contents : Path → Option (List UInt8)) (e : FileEntry S)
    {it : FileIterator} (h : fileIterator contents e = some it) (reads : Nat → Nat) :
    ∃ bytes, contents e.fullPath = some bytes ∧ (it.chunks reads).flatten.IsPrefix bytes ∧
      (∀ c ∈ it.chunks reads, c ≠ [] ∧ c.length ≤ bufLen) ∧
      ((∀ i, 0 < reads i) → (it.chunks reads).flatten = bytes) ∧
      ((∀ i, bufLen ≤ reads i) → ∀ c ∈ (it.chunks reads).dropLast, c.length = bufLen) := by
  obtain ⟨bytes, hb, rfl⟩ := Option.map_eq_some'.mp h
  obtain ⟨hpre, hc⟩ := drain_prefix reads (bytes.length + 1) 0 ⟨⟨bytes⟩⟩
  exact ⟨bytes, hb, hpre, hc, fun hr => drain_flatten hr _ 0 ⟨⟨bytes⟩⟩ (Nat.lt_succ_self _),
    fun hr => drain_full hr _ 0 _⟩

def twoBytes (_ : Path) : Option (List UInt8) := some [0x61, 0x62]

/-- Reads of one byte each cut `ab` into two chunks. -/
theorem fileIterator_chunks_two_bytes :
    ∃ it, fileIterator twoBytes (⟨[0x66], none, (), [[0x66]]⟩ : FileEntry Unit) = some it ∧
      it.chunks (fun _ => 1) = [[0x61], [0x62]] ∧
      ∃ bytes, twoBytes [[0x66]] = some bytes ∧ (it.chunks fun _ => 1).flatten.IsPrefix bytes ∧
        (∀ c ∈ it.chunks fun _ => 1, c ≠ [] ∧ c.length ≤ bufLen) ∧
        ((Nat → 0 < 1) → (it.chunks fun _ => 1).flatten = bytes) ∧
        ((Nat → bufLen ≤ 1) → ∀ c ∈ (it.chunks fun _ => 1).dropLast, c.length = bufLen) :=
  ⟨_, rfl, rfl, fileIterator_chunks twoBytes ⟨[0x66], none, (), [[0x66]]⟩ rfl fun _ => 1⟩

end Hat

end HatBackup
