/-
# `HatBackup.OrderedCollection` — the ordered map under the priority queue

`UniquePriorityQueue` keeps its entries in an `OrderedCollection<P, _>` from the
`ordered_collection` crate, which the repository does not contain.  The spec gives it as "an
ordered map from P to (status, option<V>), sorted ascending".  The queue calls six of its
operations — `new`, `find`, `insert`, `update_value`, `pop_min_when` and `len` — and this module
models those six over an association list whose keys strictly increase.

Sortedness is a field of the structure: no collection with a repeated or misplaced key can be
built, and nothing downstream re-proves it.
-/
import Mathlib.Data.List.Sort

namespace HatBackup

variable {P α : Type} [LinearOrder P]

/-! ## Sorted association lists -/

theorem lookup_cons_eq_ite {k p : P} {a : α} {l : List (P × α)} :
    ((k, a) :: l).lookup p = if p = k then some a else l.lookup p := by
  simp only [List.lookup_cons]; split <;> simp_all

/-- Sorted insertion; an entry of the same key is replaced. -/
def insertSorted (p : P) (a : α) : List (P × α) → List (P × α)
  | [] => [(p, a)]
  | (q, b) :: rest =>
      if p < q then (p, a) :: (q, b) :: rest
      else if p = q then (p, a) :: rest
      else (q, b) :: insertSorted p a rest

theorem lookup_insertSorted (p p0 : P) (a : α) (l : List (P × α)) :
    (insertSorted p a l).lookup p0 = if p0 = p then some a else l.lookup p0 := by
  induction l with
  | nil => simp [insertSorted, lookup_cons_eq_ite]
  | cons e rest ih =>
    obtain ⟨q, b⟩ := e
    simp only [insertSorted]
    split_ifs with h1 h2 <;> simp only [lookup_cons_eq_ite, ih] <;> split_ifs <;> simp_all

theorem mem_insertSorted {p : P} {a : α} {l : List (P × α)} {x : P × α}
    (h : x ∈ insertSorted p a l) : x = (p, a) ∨ x ∈ l := by
  induction l with
  | nil => simpa [insertSorted] using h
  | cons e rest ih =>
    obtain ⟨q, b⟩ := e
    simp only [insertSorted] at h
    split_ifs at h <;> simp only [List.mem_cons] at h ⊢
    · exact h
    · exact h.imp_right .inr
    · rcases h with h | h
      · exact .inr (.inl h)
      · exact (ih h).imp_right .inr

theorem sorted_insertSorted {p : P} {a : α} {l : List (P × α)}
    (h : l.Sorted (·.1 < ·.1)) : (insertSorted p a l).Sorted (·.1 < ·.1) := by
  induction l with
  | nil => simp [insertSorted]
  | cons e rest ih =>
    obtain ⟨q, b⟩ := e
    rw [List.sorted_cons] at h
    simp only [insertSorted]
    split_ifs with h1 h2
    · exact List.sorted_cons.mpr ⟨fun x hx => by
        rcases List.mem_cons.mp hx with rfl | hx
        · exact h1
        · exact h1.trans (h.1 x hx), List.sorted_cons.mpr h⟩
    · subst h2; exact List.sorted_cons.mpr h
    · refine List.sorted_cons.mpr ⟨fun x hx => ?_, ih h.2⟩
      rcases mem_insertSorted hx with rfl | hx
      · exact lt_of_le_of_ne (not_lt.mp h1) (Ne.symm h2)
      · exact h.1 x hx

theorem insertSorted_of_lt {p : P} {a : α} {l : List (P × α)} (h : ∀ x ∈ l, x.1 < p) :
    insertSorted p a l = l ++ [(p, a)] := by
  induction l with
  | nil => rfl
  | cons e rest ih =>
    obtain ⟨q, b⟩ := e
    have hq : q < p := h _ (List.mem_cons_self _ _)
    simp [insertSorted, not_lt.mpr hq.le, hq.ne', ih fun x hx => h x (List.mem_cons_of_mem _ hx)]

theorem lookup_tail_of_sorted {p p0 : P} {a : α} {rest : List (P × α)}
    (h : ((p, a) :: rest).Sorted (·.1 < ·.1)) :
    rest.lookup p0 = if p0 = p then none else ((p, a) :: rest).lookup p0 := by
  rw [lookup_cons_eq_ite]
  split_ifs with hp
  · subst hp
    refine List.lookup_eq_none_iff.mpr fun x hx => ?_
    have := (List.sorted_cons.mp h).1 x hx
    simpa using this.ne
  · rfl

theorem lookup_eq_some_iff_mem {p : P} {a : α} {l : List (P × α)}
    (h : l.Sorted (·.1 < ·.1)) : l.lookup p = some a ↔ (p, a) ∈ l := by
  induction l with
  | nil => simp
  | cons e rest ih =>
    obtain ⟨q, b⟩ := e
    rw [List.sorted_cons] at h
    rw [lookup_cons_eq_ite, List.mem_cons, Prod.mk.injEq, ← ih h.2]
    split_ifs with hp
    · subst hp
      have : rest.lookup p = none := (lookup_tail_of_sorted (List.sorted_cons.mpr h)).trans (if_pos rfl)
      simp [this, eq_comm]
    · simp [hp]

theorem insertSorted_eq_map {p : P} {a b : α} {l : List (P × α)} (hs : l.Sorted (·.1 < ·.1))
    (hp : (p, b) ∈ l) : insertSorted p a l = l.map fun x => if x.1 = p then (p, a) else x := by
  induction l with
  | nil => simp at hp
  | cons e rest ih =>
    obtain ⟨q, c⟩ := e
    rw [List.sorted_cons] at hs
    have hrest : ∀ x ∈ rest, q < x.1 := hs.1
    simp only [insertSorted, List.map_cons]
    rcases List.mem_cons.mp hp with h | h
    · cases h
      simp only [lt_irrefl, if_false, if_true, List.cons.injEq, true_and]
      exact (List.map_congr_left fun x hx => if_neg (hrest x hx).ne').trans (List.map_id' _) |>.symm
    · have hq : q < p := hrest _ h
      simp [not_lt.mpr hq.le, hq.ne', hq.ne, ih hs.2 h]

theorem length_insertSorted {p : P} {a : α} {l : List (P × α)} (hs : l.Sorted (·.1 < ·.1))
    (h : l.lookup p ≠ none) : (insertSorted p a l).length = l.length := by
  induction l with
  | nil => simp at h
  | cons e rest ih =>
    obtain ⟨q, b⟩ := e
    rw [lookup_cons_eq_ite] at h
    simp only [insertSorted]
    split_ifs at h ⊢ with h1 h2 h2
    · exact absurd h1 (lt_irrefl _ |>.comp (h2 ▸ ·))
    · obtain ⟨x, hx⟩ := Option.ne_none_iff_exists'.mp h
      have := (List.sorted_cons.mp hs).1 _ ((lookup_eq_some_iff_mem hs.of_cons).mp hx)
      exact absurd (h1.trans this) (lt_irrefl _)
    · rfl
    · simp [ih hs.of_cons h]

/-! ## The collection -/

/-- Modelled from the spec: `ordered_collection::OrderedCollection<P, V>`, "an ordered map ...
sorted ascending" by key. -/
structure OrderedCollection (P α : Type) [LinearOrder P] where
  entries : List (P × α)
  sorted : entries.Sorted (·.1 < ·.1)

namespace OrderedCollection

def new : OrderedCollection P α := ⟨[], List.sorted_nil⟩

def find (c : OrderedCollection P α) (p : P) : Option α := c.entries.lookup p

/-- `insert(p, a)`, replacing the value at `p` if there is one. -/
def insert (c : OrderedCollection P α) (p : P) (a : α) : OrderedCollection P α :=
  ⟨insertSorted p a c.entries, sorted_insertSorted c.sorted⟩

/-- `update_value(p, f)`: store `f` of the value now at `p`.  The closures the queue passes
panic on some inputs, so `f` answers in `Except`. -/
def updateValue (c : OrderedCollection P α) (p : P) (f : Option α → Except String α) :
    Except String (OrderedCollection P α) :=
  (f (c.find p)).map (c.insert p)

/-- `pop_min_when(pred)`: remove and return the least entry when `pred` holds of it. -/
def popMinWhen (c : OrderedCollection P α) (pred : P → α → Bool) :
    Option (P × α) × OrderedCollection P α :=
  match c with
  | ⟨e :: rest, h⟩ => if pred e.1 e.2 then (some e, ⟨rest, h.of_cons⟩) else (none, c)
  | ⟨[], _⟩ => (none, c)

def len (c : OrderedCollection P α) : Nat := c.entries.length

@[simp] theorem new_entries : (new : OrderedCollection P α).entries = [] := rfl

@[simp] theorem insert_entries (c : OrderedCollection P α) (p : P) (a : α) :
    (c.insert p a).entries = insertSorted p a c.entries := rfl

@[simp] theorem find_new (p : P) : (new : OrderedCollection P α).find p = none := rfl

theorem find_insert (c : OrderedCollection P α) (p p0 : P) (a : α) :
    (c.insert p a).find p0 = if p0 = p then some a else c.find p0 :=
  lookup_insertSorted p p0 a c.entries

theorem updateValue_eq_ok {c c' : OrderedCollection P α} {p : P}
    {f : Option α → Except String α} :
    c.updateValue p f = .ok c' ↔ ∃ a, f (c.find p) = .ok a ∧ c' = c.insert p a := by
  unfold updateValue
  cases f (c.find p) <;> simp [Except.map, eq_comm]

theorem updateValue_eq_error {c : OrderedCollection P α} {p : P}
    {f : Option α → Except String α} {e : String} :
    c.updateValue p f = .error e ↔ f (c.find p) = .error e := by
  unfold updateValue
  cases f (c.find p) <;> simp [Except.map]

theorem popMinWhen_cons {p : P} {a : α} {rest : List (P × α)} (h) (pred : P → α → Bool) :
    popMinWhen ⟨(p, a) :: rest, h⟩ pred =
      if pred p a then (some (p, a), ⟨rest, h.of_cons⟩) else (none, ⟨(p, a) :: rest, h⟩) := rfl

theorem find_tail {p : P} {a : α} {rest : List (P × α)} (h) (p0 : P) :
    find ⟨rest, List.Sorted.of_cons h⟩ p0 =
      if p0 = p then none else find ⟨(p, a) :: rest, h⟩ p0 :=
  lookup_tail_of_sorted h

theorem find_eq_some_iff_mem {c : OrderedCollection P α} {p : P} {a : α} :
    c.find p = some a ↔ (p, a) ∈ c.entries :=
  lookup_eq_some_iff_mem c.sorted

theorem nodup_keys (c : OrderedCollection P α) : (c.entries.map (·.1)).Nodup :=
  (List.Pairwise.map _ (fun _ _ h => h) c.sorted : (c.entries.map (·.1)).Sorted (· < ·)).nodup

theorem len_insert {c : OrderedCollection P α} {p : P} {a : α} (h : c.find p ≠ none) :
    (c.insert p a).len = c.len :=
  length_insertSorted c.sorted h

theorem popMinWhen_nil (h) (pred : P → α → Bool) :
    popMinWhen (⟨[], h⟩ : OrderedCollection P α) pred = (none, ⟨[], h⟩) := rfl

end OrderedCollection

end HatBackup
