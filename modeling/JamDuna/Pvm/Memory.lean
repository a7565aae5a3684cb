/-
# The memory of the interpreter

`RawRam` of `pvm/interpreter/vmgo.go`: a map of pages of 4096 bytes and a map of
their access rights, and the functions through which the host calls reach them.
`readRAMBytes` and `writeRAMBytes` are `none` where the source returns `OOB`; the
registers, which `RawRam` also holds, are with the machine.

Addresses and lengths have 32 bits. A range is refused when its end, taken modulo
`2 ^ 32`, lies below its start; so the range that ends exactly at `2 ^ 32` is
refused too (`readRAMBytes_eq`, `writeRAMBytes_eq`). `getMemAccess` has no such
check, and for a range that wraps it looks at no page at all. The length of the
data to be written is taken modulo `2 ^ 32` first. `exactAccess_iff` says when reads and
writes are exact all the same.
-/

import JamDuna.Basis.PagedMemory
import JamDuna.Types.Basic

namespace JamDuna.Pvm

open JamDuna.Basis List UInt32 Nat

/-- `PageSize`. -/
abbrev pageSize : ℕ := 4096

instance neZero_pageSize : NeZero pageSize := ⟨by decide⟩

/-- `PageInaccessible`, `PageImmutable` and `PageMutable`. -/
inductive PageAccess where
  | inaccessible
  | immutable
  | mutable
  deriving DecidableEq, Repr

/-- The numbers of the constants: `PROT_NONE`, `PROT_READ`, `PROT_READ | PROT_WRITE`. -/
def PageAccess.level : PageAccess → ℕ
  | .inaccessible => 0
  | .immutable => 1
  | .mutable => 3

/-- The smaller of two rights. -/
def PageAccess.lower (a b : PageAccess) : PageAccess := if b.level < a.level then b else a

/-- `RawRam`, less the registers. -/
structure Ram where
  pages : Pages pageSize UInt8
  memAccess : ℕ → Option PageAccess

section

variable (ram : Ram)

/-- The rights of a page; a page that is not there, or has no rights, is
inaccessible. -/
def Ram.pageAccess (p : ℕ) : PageAccess :=
  if (ram.pages p).isSome then (ram.memAccess p).getD .inaccessible else .inaccessible

/-- `GetMemAccess`: the smallest right of the pages of a range. -/
def Ram.getMemAccess (address length : UInt32) : PageAccess :=
  if length = 0 then .mutable
  else
    let startPage := address.toNat / pageSize
    let endPage := (address + length - 1).toNat / pageSize
    (range' startPage (endPage + 1 - startPage)).foldl
      (fun minAccess p => minAccess.lower (ram.pageAccess p)) .mutable

/-- `ReadMemory`. -/
def Ram.readMemory (address length : UInt32) : Option Bytes :=
  if length = 0 then some []
  else if address + length < address then none
  else if ram.getMemAccess address length = .inaccessible then none
  else ram.pages.readChunks address.toNat length.toNat 0

/-- `WriteMemory`. -/
def Ram.writeMemory (address : UInt32) (data : Bytes) : Option Ram :=
  if data.length = 0 then some ram
  else
    let length := ofNat data.length
    if address + length < address then none
    else if ram.getMemAccess address length ≠ .mutable then none
    else (ram.pages.writeChunks address.toNat length.toNat data 0).map fun pages =>
      { ram with pages := pages }

/-- `ReadRAMBytes`. -/
def Ram.readRAMBytes (address length : UInt32) : Option Bytes :=
  if length = 0 then some [] else ram.readMemory address length

/-- `WriteRAMBytes`. -/
def Ram.writeRAMBytes (address : UInt32) (data : Bytes) : Option Ram :=
  if data.length = 0 then some ram else ram.writeMemory address data

/-- The second result of `CheckMemoryAccess`: the range is writable. -/
def Ram.canWrite (address length : UInt32) : Bool := ram.getMemAccess address length == .mutable

/-- Every byte of a range is on a readable page. -/
def Ram.Readable (a n : ℕ) : Prop := ∀ i < n, ram.pageAccess ((a + i) / pageSize) ≠ .inaccessible

/-- Every byte of a range is on a writable page. -/
def Ram.Writable (a n : ℕ) : Prop := ∀ i < n, ram.pageAccess ((a + i) / pageSize) = .mutable

instance Ram.decidableReadable (a n : ℕ) : Decidable (ram.Readable a n) :=
  inferInstanceAs (Decidable (∀ i < n, _))

instance Ram.decidableWritable (a n : ℕ) : Decidable (ram.Writable a n) :=
  inferInstanceAs (Decidable (∀ i < n, _))

/-- The memory with `data` written from the address `a` on. -/
def Ram.patch (a : ℕ) (data : Bytes) : Ram := { ram with pages := ram.pages.patch a data }

end

section

variable {ram : Ram}

theorem PageAccess.lower_mutable {a b : PageAccess} :
    a.lower b = .mutable ↔ a = .mutable ∧ b = .mutable := by
  cases a <;> cases b <;> decide

theorem PageAccess.lower_ne_inaccessible {a b : PageAccess} :
    a.lower b ≠ .inaccessible ↔ a ≠ .inaccessible ∧ b ≠ .inaccessible := by
  cases a <;> cases b <;> decide

/-- A property that survives `lower` exactly when both rights have it holds of the
smallest right exactly when it holds of all. -/
theorem foldl_lower_iff {p : PageAccess → Prop} (f : ℕ → PageAccess)
    (hp : ∀ a b : PageAccess, p (a.lower b) ↔ p a ∧ p b) (l : List ℕ) (a : PageAccess) :
    p (l.foldl (fun minAccess k => minAccess.lower (f k)) a) ↔ p a ∧ ∀ k ∈ l, p (f k) := by
  induction l generalizing a with
  | nil => simp
  | cons k l ih =>
    rw [foldl_cons, ih, hp, forall_mem_cons, and_assoc]

/-- The pages of a range that does not wrap are those of its bytes. -/
theorem mem_pages_iff {a n k : ℕ} (hn : 0 < n) :
    k ∈ range' (a / pageSize) ((a + n - 1) / pageSize + 1 - a / pageSize) ↔
      ∃ i < n, (a + i) / pageSize = k := by
  rw [mem_range'_1]
  constructor
  · rintro ⟨hlo, hhi⟩
    -- the first byte of the range that is on page `k`
    unfold pageSize at *
    exact ⟨max a (k * 4096) - a, by omega, by omega⟩
  · rintro ⟨i, hi, rfl⟩
    unfold pageSize
    omega

theorem toNat_pos {length : UInt32} (hlen : length ≠ 0) : 0 < length.toNat :=
  pos_of_ne_zero fun h => hlen (UInt32.toNat_inj.mp h)

/-- **The rights of a range that does not wrap.** -/
theorem getMemAccess_iff (ram : Ram) {address length : UInt32} (hlen : length ≠ 0)
    (hend : address.toNat + length.toNat ≤ 2 ^ 32) :
    (ram.getMemAccess address length ≠ .inaccessible ↔ ram.Readable address.toNat length.toNat) ∧
      (ram.getMemAccess address length = .mutable ↔ ram.Writable address.toNat length.toNat) := by
  have hpos := toNat_pos hlen
  have hlast : (address + length - 1).toNat = address.toNat + length.toNat - 1 := by
    rw [UInt32.toNat_sub, UInt32.toNat_add, UInt32.toNat_one]
    omega
  have hmem : ∀ {p : PageAccess → Prop}, (∀ k ∈ range' (address.toNat / pageSize)
        ((address.toNat + length.toNat - 1) / pageSize + 1 - address.toNat / pageSize),
          p (ram.pageAccess k)) ↔
        ∀ i < length.toNat, p (ram.pageAccess ((address.toNat + i) / pageSize)) := by
    intro p
    constructor
    · intro h i hi
      exact h _ ((mem_pages_iff hpos).mpr ⟨i, hi, rfl⟩)
    · intro h k hk
      obtain ⟨i, hi, rfl⟩ := (mem_pages_iff hpos).mp hk
      exact h i hi
  rw [Ram.getMemAccess, if_neg hlen]
  simp only [hlast]
  constructor
  · rw [foldl_lower_iff (p := (· ≠ .inaccessible)) _ fun _ _ => PageAccess.lower_ne_inaccessible,
      hmem (p := (· ≠ .inaccessible))]
    simp [Ram.Readable]
  · rw [foldl_lower_iff (p := (· = .mutable)) _ fun _ _ => PageAccess.lower_mutable,
      hmem (p := (· = .mutable))]
    simp [Ram.Writable]

/-- The end of a range wraps exactly when the range leaves the address space or ends
with it. -/
theorem end_wraps_iff {address length : UInt32} :
    address + length < address ↔ 2 ^ 32 ≤ address.toNat + length.toNat := by
  have := length.toNat_lt
  rw [UInt32.lt_iff_toNat_lt, UInt32.toNat_add]
  omega

theorem writable_zero (a : ℕ) : ram.Writable a 0 := fun i hi => absurd hi (not_lt_zero i)

theorem Ram.Writable.readable {a n : ℕ} (h : ram.Writable a n) : ram.Readable a n := by
  intro i hi
  rw [h i hi]
  decide

/-- The pages of a readable range are there. -/
theorem Ram.Readable.isSome {a n : ℕ} (h : ram.Readable a n) {i : ℕ} (hi : i < n) :
    (ram.pages ((a + i) / pageSize)).isSome := by
  have hpage := h i hi
  unfold Ram.pageAccess at hpage
  split_ifs at hpage with hsome
  · exact hsome
  · exact absurd rfl hpage

end

variable (ram : Ram)

/-- **What is read**: the bytes of the range, when it is readable and ends below
`2 ^ 32`. -/
theorem readRAMBytes_eq (address length : UInt32) :
    ram.readRAMBytes address length = if length = 0 ∨ (address.toNat + length.toNat < 2 ^ 32 ∧
          ram.Readable address.toNat length.toNat)
      then ram.pages.cells address.toNat length.toNat else none := by
  unfold Ram.readRAMBytes Ram.readMemory
  by_cases hlen : length = 0
  · subst hlen
    rfl
  · rw [if_neg hlen, if_neg hlen]
    by_cases hwrap : address + length < address
    · have hend := end_wraps_iff.mp hwrap
      rw [if_pos hwrap, if_neg (by rintro (h | h) <;> [exact hlen h; omega])]
    · have hend := not_le.mp (mt end_wraps_iff.mpr hwrap)
      have haccess := (getMemAccess_iff ram hlen hend.le).1
      rw [if_neg hwrap]
      by_cases hread : ram.Readable address.toNat length.toNat
      · rw [if_neg (haccess.mpr hread), if_pos (.inr ⟨hend, hread⟩),
          Pages.readChunks_eq _ (zero_le _)]
        rfl
      · have hnone : ram.getMemAccess address length = .inaccessible := by
          by_contra h
          exact hread (haccess.mp h)
        rw [if_pos hnone, if_neg (by rintro (h | h) <;> [exact hlen h; exact hread h.2])]

/-- A read succeeds exactly when the range is empty, or readable and below
`2 ^ 32`. -/
theorem isSome_readRAMBytes_iff (address length : UInt32) :
    (ram.readRAMBytes address length).isSome ↔ length = 0 ∨ (address.toNat + length.toNat < 2 ^ 32 ∧
        ram.Readable address.toNat length.toNat) := by
  rw [readRAMBytes_eq]
  split_ifs with h
  · simp only [h, iff_true]
    rcases h with rfl | h
    · rfl
    · exact (Pages.isSome_cells_iff _ _ _).mpr fun i hi => h.2.isSome hi
  · simp only [Option.isSome_none, Bool.false_eq_true, h]

theorem length_of_readRAMBytes {address length : UInt32} {data : Bytes}
    (h : ram.readRAMBytes address length = some data) : data.length = length.toNat := by
  rw [readRAMBytes_eq] at h
  split_ifs at h
  exact (Pages.of_cells h).1

theorem patch_nil (a : ℕ) : ram.patch a [] = ram := by
  rw [Ram.patch, Pages.patch_nil]

/-- **What is written**: the data, or as much of it as its length modulo `2 ^ 32`
says, when the range is writable and ends below `2 ^ 32`. -/
theorem writeRAMBytes_eq (address : UInt32) (data : Bytes) :
    ram.writeRAMBytes address data = if data = [] then some ram
      else if address.toNat + data.length % 2 ^ 32 < 2 ^ 32 ∧
          ram.Writable address.toNat (data.length % 2 ^ 32)
      then some (ram.patch address.toNat (data.take (data.length % 2 ^ 32))) else none := by
  unfold Ram.writeRAMBytes Ram.writeMemory
  by_cases hnil : data = []
  · rw [if_pos hnil, if_pos (by rw [hnil]; rfl)]
  · have hne : data.length ≠ 0 := by simpa using hnil
    have hlength : (ofNat data.length).toNat = data.length % 2 ^ 32 := toNat_ofNat'
    have hle : data.length % 2 ^ 32 ≤ data.length := mod_le _ _
    rw [if_neg hnil, if_neg hne, if_neg hne]
    rw [← hlength] at hle ⊢
    generalize ofNat data.length = length at hle ⊢
    by_cases hlen : length = 0
    · subst hlen
      have hwrap : ¬ address + 0 < address := by simp
      have haccess : ¬ ram.getMemAccess address 0 ≠ .mutable := by simp [Ram.getMemAccess]
      have hnothing : ram.pages.writeChunks address.toNat (0 : UInt32).toNat data 0 =
          some (ram.pages.patch address.toNat []) :=
        Pages.writeChunks_eq (zero_le _) le_rfl fun i _ hi => absurd hi (not_lt_zero i)
      rw [if_neg hwrap, if_neg haccess, if_pos ⟨address.toNat_lt, writable_zero _⟩, hnothing]
      rfl
    · by_cases hwrap : address + length < address
      · have hend := end_wraps_iff.mp hwrap
        rw [if_pos hwrap, if_neg (by rintro ⟨h, -⟩; omega)]
      · have hend := not_le.mp (mt end_wraps_iff.mpr hwrap)
        have haccess := (getMemAccess_iff ram hlen hend.le).2
        rw [if_neg hwrap]
        by_cases hwrite : ram.Writable address.toNat length.toNat
        · rw [if_neg (not_not.mpr (haccess.mpr hwrite)), if_pos ⟨hend, hwrite⟩,
            Pages.writeChunks_eq hle (zero_le _) fun i _ hi => hwrite.readable.isSome hi]
          rfl
        · rw [if_pos fun h => hwrite (haccess.mp h), if_neg fun h => hwrite h.2]

/-- A read returns the bytes of a range inside the address space whose pages are accessible, and
fails otherwise. -/
def Ram.ReadExact (address length : UInt32) : Prop :=
  ram.readRAMBytes address length =
    if address.toNat + length.toNat ≤ 2 ^ 32 ∧ ram.Readable address.toNat length.toNat
    then ram.pages.cells address.toNat length.toNat else none

/-- The checks of `WriteMemory`, which come before the first byte is written, refuse the range. -/
def Ram.Refuses (address : UInt32) (data : Bytes) : Prop :=
  address + ofNat data.length < address ∨ ram.getMemAccess address (ofNat data.length) ≠ .mutable

/-- Data that the memory takes as it is: none, or data that ends below the end of the address
space. Data as long as the address space is dropped, which is right if it is there. -/
def Fits (ram : Ram) (a : ℕ) (data : Bytes) : Prop :=
  data = [] ∨ a + data.length < 2 ^ 32 ∨ (data.length = 2 ^ 32 ∧ ram.patch a data = ram)

/-- A write lays the data down in a range inside the address space whose pages are mutable, and
fails otherwise, before anything is written. -/
def Ram.WriteExact (address : UInt32) (data : Bytes) : Prop :=
  (ram.writeRAMBytes address data =
    if address.toNat + data.length ≤ 2 ^ 32 ∧ ram.Writable address.toNat data.length
    then some (ram.patch address.toNat data) else none) ∧
  (ram.writeRAMBytes address data = none → ram.Refuses address data)

variable {ram} {address length : UInt32} {data : Bytes}

/-- A write that fails fails in the checks. -/
theorem refuses_of_writeRAMBytes (h : ram.writeRAMBytes address data = none) :
    ram.Refuses address data := by
  rw [writeRAMBytes_eq, ← toNat_ofNat'] at h
  unfold Ram.Refuses
  generalize ofNat data.length = length at h ⊢
  split_ifs at h with hnil hroom
  by_contra haccess
  obtain ⟨hwraps, hmutable⟩ := not_or.mp haccess
  by_cases hlen : length = 0
  · subst hlen
    exact hroom ⟨address.toNat_lt, writable_zero _⟩
  · have hend := not_le.mp (mt end_wraps_iff.mpr hwraps)
    exact hroom ⟨hend, (getMemAccess_iff ram hlen hend.le).2.mp (not_not.mp hmutable)⟩

/-- **What the memory takes**: data for a writable range is written exactly when it fits. -/
theorem writeRAMBytes_eq_patch_iff (hend : address.toNat + data.length ≤ 2 ^ 32)
    (hwritable : ram.Writable address.toNat data.length) :
    ram.writeRAMBytes address data = some (ram.patch address.toNat data) ↔
      Fits ram address.toNat data := by
  rw [writeRAMBytes_eq]
  by_cases hnil : data = []
  · subst hnil
    rw [if_pos rfl, patch_nil]
    simp [Fits]
  · rw [if_neg hnil]
    rcases lt_or_ge data.length (2 ^ 32) with hlt | hge
    · rw [mod_eq_of_lt hlt, take_length]
      by_cases hfit : address.toNat + data.length < 2 ^ 32
      · rw [if_pos ⟨hfit, hwritable⟩]
        exact ⟨fun _ => .inr (.inl hfit), fun _ => rfl⟩
      · rw [if_neg fun h => hfit h.1]
        simp only [reduceCtorEq, Fits, hnil, hfit, false_or, false_iff]
        omega
    · -- the whole address space: its length is zero as a word
      have hlength : data.length = 2 ^ 32 := by omega
      rw [hlength, mod_self, if_pos ⟨by omega, writable_zero _⟩, take_zero, patch_nil]
      constructor
      · intro h
        exact .inr (.inr ⟨hlength, (Option.some.inj h).symm⟩)
      · rintro (h | h | h)
        · exact absurd h hnil
        · omega
        · exact congrArg some h.2.symm

/-- **When bulk access is exact**: a readable range does not end with the address space, data for
a writable one fits, and other data is refused with its length modulo `2 ^ 32` as well. -/
theorem exactAccess_iff (ram : Ram) (address length : UInt32) (data : Bytes) :
    ram.ReadExact address length ∧ ram.WriteExact address data ↔
      ¬ (address.toNat + length.toNat = 2 ^ 32 ∧ ram.Readable address.toNat length.toNat) ∧
      if address.toNat + data.length ≤ 2 ^ 32 ∧ ram.Writable address.toNat data.length
      then Fits ram address.toNat data
      else ¬ (address.toNat + data.length % 2 ^ 32 < 2 ^ 32 ∧
        ram.Writable address.toNat (data.length % 2 ^ 32)) := by
  have haddress := address.toNat_lt
  refine and_congr ?_ ((and_iff_left refuses_of_writeRAMBytes).trans ?_)
  · have hzero : length = 0 → address.toNat + length.toNat < 2 ^ 32 ∧
        ram.Readable address.toNat length.toNat := by
      rintro rfl
      exact ⟨haddress, (writable_zero _).readable⟩
    have hread := isSome_readRAMBytes_iff ram address length
    rw [or_iff_right_of_imp hzero] at hread
    unfold Ram.ReadExact
    split_ifs with hin
    · constructor
      · rintro heq ⟨hend, -⟩
        rw [heq, Pages.isSome_cells_iff] at hread
        exact absurd (hread.mp fun i hi => hin.2.isSome hi).1 (by omega)
      · intro hend
        have hlt : address.toNat + length.toNat < 2 ^ 32 :=
          lt_of_le_of_ne hin.1 fun h => hend ⟨h, hin.2⟩
        rw [readRAMBytes_eq, if_pos (.inr ⟨hlt, hin.2⟩)]
    · refine iff_of_true (Option.not_isSome_iff_eq_none.mp fun h => ?_) fun h => hin ⟨h.1.le, h.2⟩
      exact hin ⟨(hread.mp h).1.le, (hread.mp h).2⟩
  · split_ifs with hin
    · exact writeRAMBytes_eq_patch_iff hin.1 hin.2
    · have hnil : data ≠ [] := by
        rintro rfl
        exact hin ⟨haddress.le, writable_zero _⟩
      rw [writeRAMBytes_eq, if_neg hnil]
      simp

/-- The last page of the address space, mutable. -/
def lastPage : Ram where
  pages p := if p = 0xfffff then some fun _ => 0 else none
  memAccess p := if p = 0xfffff then some .mutable else none

/-- The last byte of the address space can be neither read nor written. -/
theorem lastByte_refused :
    lastPage.Writable 0xffffffff 1 ∧ lastPage.readRAMBytes 0xffffffff 1 = none ∧
      lastPage.writeRAMBytes 0xffffffff [7] = none ∧
        ¬ (lastPage.ReadExact 0xffffffff 1 ∧ lastPage.WriteExact 0xffffffff [7]) := by
  have hwritable : lastPage.Writable 0xffffffff 1 := by decide
  have hnone : lastPage.writeRAMBytes 0xffffffff [7] = none := rfl
  refine ⟨hwritable, rfl, hnone, fun h => ?_⟩
  have hexact := h.2.1
  rw [hnone, if_pos ⟨by decide, hwritable⟩] at hexact
  cases hexact

end JamDuna.Pvm
