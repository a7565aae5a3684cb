/-
# Windows into a value

The host calls that copy a value to the guest clamp a 64-bit offset to the value and a
64-bit length to what is left of it. A clamped window is always a slice of the value
(`window_eq`), so the calls that take it cannot fail on it (`isSome_copyOut`). LOOKUP takes
the slice from the offset to the length instead (`isSome_goSlice_clamped`).
-/

import JamDuna.Pvm.HostMachine

namespace JamDuna.Pvm

open UInt64

theorem toNat_goMin (a b : UInt64) : (goMin a b).toNat = min a.toNat b.toNat := by
  unfold goMin
  split_ifs with h
  all_goals
    rw [le_iff_toNat_le] at h
    omega

theorem toNat_clampedOffset (v : Bytes) (f : UInt64) :
    (clampedOffset v f).toNat = min f.toNat (v.length % 2 ^ 64) := by
  rw [clampedOffset, toNat_goMin, toNat_ofNat']

theorem toNat_clampedLength (v : Bytes) (f l : UInt64) :
    (clampedLength v f l).toNat = min l.toNat (v.length % 2 ^ 64 - (clampedOffset v f).toNat) := by
  have hle : clampedOffset v f ≤ ofNat v.length := by
    rw [le_iff_toNat_le, toNat_clampedOffset, toNat_ofNat']
    omega
  rw [clampedLength, toNat_goMin, UInt64.toNat_sub_of_le _ _ hle, UInt64.toNat_ofNat']

/-- **A clamped window is a slice of the value.** -/
theorem window_eq (v : Bytes) (f l : UInt64) :
    window v f l = some ((v.take ((clampedOffset v f).toNat + (clampedLength v f l).toNat)).drop
      (clampedOffset v f).toNat) := by
  have hoffset := toNat_clampedOffset v f
  have hlength := toNat_clampedLength v f l
  have hsum : (clampedOffset v f + clampedLength v f l).toNat =
      (clampedOffset v f).toNat + (clampedLength v f l).toNat := by
    rw [UInt64.toNat_add]
    omega
  show goSlice v (clampedOffset v f).toNat (clampedOffset v f + clampedLength v f l).toNat = _
  rw [hsum, goSlice, if_pos (by omega)]

theorem isSome_copyOut (vm : HostVM) (v : Bytes) (o f l : UInt64) :
    (vm.copyOut v o f l).isSome := by
  unfold HostVM.copyOut
  rw [window_eq]
  dsimp only
  cases vm.ram.writeRAMBytes o.toUInt32 _ <;> rfl

/-- The slice of LOOKUP is none when the length is smaller than the offset. -/
theorem isSome_goSlice_clamped (v : Bytes) (f l : UInt64) :
    (goSlice v (clampedOffset v f).toNat (clampedLength v f l).toNat).isSome ↔
      (clampedOffset v f).toNat ≤ (clampedLength v f l).toNat := by
  have hlength := toNat_clampedLength v f l
  unfold goSlice
  split_ifs with h
  · simp [h.1]
  · simp only [Option.isSome_none, Bool.false_eq_true, false_iff]
    omega

end JamDuna.Pvm
