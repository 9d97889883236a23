/-
# `HatBackup.Hat.KeyEntry` — the key store's id of a `FileEntry`

`impl KeyEntry for FileEntry` names each entry by `format!("d{:u}i{:u}", device, inode)`, the
device and inode `lstat` reported, as bytes.  The key store keeps one row per id, and a
directory's id is the parent id of its entries, so the format must lose nothing: two entries
get the same id exactly when they have the same device and inode.  Hard links to one file
share an id; any two other files, or directories, get different ones.

**Proved here.**

    `{:u}` is read back by its decimal value               (`ofDecimal_decimal`)
    ids are equal exactly when device and inode are       (`FileEntry.id_eq_iff`)
-/
import HatBackup.ListDir.Snapshot
import Mathlib.Data.Nat.Digits

namespace HatBackup

namespace Hat

open ListDir

/-- The fields of `FileStat` the snapshot reads: the kind `is_directory` and `is_symlink` test,
and the device and inode of `unstable` that `id` formats. -/
structure FileStat where
  kind : FileKind
  device : UInt64
  inode : UInt64
  deriving DecidableEq, Repr

def digitByte (d : Nat) : UInt8 := UInt8.ofNat (0x30 + d)

/-- `{:u}`: the decimal digits of `n`, most significant first, `0` for zero. -/
def decimal (n : Nat) : List UInt8 :=
  if n = 0 then [0x30] else (Nat.digits 10 n).reverse.map digitByte

/-- `KeyEntry::id` for `FileEntry`: `Some` of the bytes of `d{device}i{inode}`. -/
def FileEntry.id (e : FileEntry FileStat) : Option KeyId :=
  some (0x64 :: decimal e.stat.device.toNat ++ 0x69 :: decimal e.stat.inode.toNat)

example : decimal 2049 = [0x32, 0x30, 0x34, 0x39] := by simp [decimal, digitByte]

/-- `with_id(id)`: `assert_eq!(Some(id), self.id())`, then a copy of the entry; `none` when the
assertion fails. -/
def FileEntry.withId (e : FileEntry FileStat) (id : KeyId) : Option (FileEntry FileStat) :=
  if some id = FileEntry.id e then some e else none

/-! ## Reading `{:u}` back -/

/-- The value of ASCII decimal digits, most significant first. -/
def ofDecimal (bs : List UInt8) : Nat := Nat.ofDigits 10 (bs.reverse.map fun b => b.toNat - 0x30)

theorem digitByte_toNat {d : Nat} (h : d < 10) : (digitByte d).toNat = 0x30 + d :=
  UInt8.toNat_ofNat_of_lt (by simp only [UInt8.size]; omega)

theorem ofDecimal_decimal (n : Nat) : ofDecimal (decimal n) = n := by
  unfold decimal ofDecimal
  split_ifs with h
  · subst h; decide
  · have hd : ∀ d ∈ Nat.digits 10 n, ((fun b : UInt8 => b.toNat - 0x30) ∘ digitByte) d = id d :=
      fun d hd => by
        rw [Function.comp_apply, digitByte_toNat (Nat.digits_lt_base (by norm_num) hd)]
        exact Nat.add_sub_cancel_left _ _
    rw [← List.map_reverse, List.reverse_reverse, List.map_map, List.map_congr_left hd,
      List.map_id, Nat.ofDigits_digits]

theorem mem_decimal {n : Nat} {b : UInt8} (h : b ∈ decimal n) :
    0x30 ≤ b.toNat ∧ b.toNat ≤ 0x39 := by
  unfold decimal at h
  split_ifs at h
  · rw [List.mem_singleton.mp h]; decide
  · obtain ⟨d, hd, rfl⟩ := List.mem_map.mp h
    have hd10 : d < 10 := Nat.digits_lt_base (by norm_num) (List.mem_reverse.mp hd)
    rw [digitByte_toNat hd10]
    omega

theorem append_cons_inj {x : UInt8} :
    ∀ {l₁ l₂ r₁ r₂ : List UInt8}, x ∉ l₁ → x ∉ l₂ → l₁ ++ x :: r₁ = l₂ ++ x :: r₂ →
      l₁ = l₂ ∧ r₁ = r₂
  | [], [], _, _, _, _, h => ⟨rfl, (List.cons.inj h).2⟩
  | [], y :: l₂, _, _, _, h₂, h =>
    absurd (List.cons.inj h).1 fun e => h₂ (e ▸ List.mem_cons_self _ _)
  | y :: l₁, [], _, _, h₁, _, h =>
    absurd (List.cons.inj h).1.symm fun e => h₁ (e ▸ List.mem_cons_self _ _)
  | y :: l₁, z :: l₂, _, _, h₁, h₂, h => by
    obtain ⟨rfl, h'⟩ := List.cons.inj h
    obtain ⟨rfl, rfl⟩ := append_cons_inj (fun m => h₁ (List.mem_cons_of_mem _ m))
      (fun m => h₂ (List.mem_cons_of_mem _ m)) h'
    exact ⟨rfl, rfl⟩

theorem i_not_mem_decimal (n : Nat) : (0x69 : UInt8) ∉ decimal n := fun h =>
  absurd (mem_decimal h) (by decide)

/-- Two entries get the same key id exactly when `lstat` gave them the same device and the same
inode. -/
theorem FileEntry.id_eq_iff (e e' : FileEntry FileStat) :
    FileEntry.id e = FileEntry.id e' ↔
      e.stat.device = e'.stat.device ∧ e.stat.inode = e'.stat.inode := by
  constructor
  · intro h
    obtain ⟨hd, hi⟩ := append_cons_inj (i_not_mem_decimal _) (i_not_mem_decimal _)
      (List.cons.inj (Option.some.inj h)).2
    exact ⟨UInt64.toNat.inj <| by
        rw [← ofDecimal_decimal e.stat.device.toNat, hd, ofDecimal_decimal],
      UInt64.toNat.inj <| by rw [← ofDecimal_decimal e.stat.inode.toNat, hi, ofDecimal_decimal]⟩
  · rintro ⟨hd, hi⟩
    simp [FileEntry.id, hd, hi]

end Hat

end HatBackup
