import SpKernel.Lib.Memory

/-!
# Moving bytes in place

`moved m dest src lo hi` is the memory with the bytes `lo` up to `hi` of
the destination as those of the source were in `m`. It is the invariant
of a loop that moves bytes one at a time, in either direction: at the
start nothing is moved (`moved_empty`), and at the end everything is.

One more byte can be moved as long as it is still there (`store_moved`),
at either end: going up when the destination is below the source
(`moved_up`), going down when it is not (`moved_down`). The ranges may
overlap, but not wrap around; this is what makes "below" mean something
for addresses.
-/

namespace SpKernel.Lib

variable {m : Mem} {dest src x : BitVec 32} {lo hi n i : Nat}

/-- The bytes with an offset from `lo` on and below `hi` have been moved. -/
def moved (m : Mem) (dest src : BitVec 32) (lo hi : Nat) : Mem := fun x =>
  if lo ≤ (x - dest).toNat ∧ (x - dest).toNat < hi then m (src + (x - dest)) else m x

theorem moved_empty (m : Mem) (dest src : BitVec 32) (i : Nat) : moved m dest src i i = m := by
  funext x
  exact if_neg fun h => absurd (Nat.lt_of_le_of_lt h.1 h.2) (Nat.lt_irrefl i)

theorem moved_inside (hi32 : i < 2 ^ 32) (hlo : lo ≤ i) (hhi : i < hi) :
    moved m dest src lo hi (dest + BitVec.ofNat 32 i) = m (src + BitVec.ofNat 32 i) := by
  have hoff := toNat_offset dest hi32
  have hsub : dest + BitVec.ofNat 32 i - dest = BitVec.ofNat 32 i := by
    rw [BitVec.add_comm, BitVec.add_sub_cancel]
  rw [moved, if_pos (by omega), hsub]

theorem moved_outside (h : ¬(lo ≤ (x - dest).toNat ∧ (x - dest).toNat < hi)) :
    moved m dest src lo hi x = m x :=
  if_neg h

/-- What is stored at an offset, when the byte of the source is still there. -/
theorem store_moved (hi32 : i < 2 ^ 32)
    (hkeep : moved m dest src lo hi (src + BitVec.ofNat 32 i) = m (src + BitVec.ofNat 32 i))
    {lo' hi' : Nat} (hjoin : ∀ j, lo' ≤ j ∧ j < hi' ↔ lo ≤ j ∧ j < hi ∨ j = i) :
    store 1 (moved m dest src lo hi) (dest + BitVec.ofNat 32 i)
      (moved m dest src lo hi (src + BitVec.ofNat 32 i)) = moved m dest src lo' hi' := by
  funext x
  rw [store_byte, hkeep]
  by_cases hx : x = dest + BitVec.ofNat 32 i
  · have hin := (hjoin i).mpr (.inr rfl)
    rw [if_pos hx, hx, moved_inside hi32 hin.1 hin.2]
  · have hne : (x - dest).toNat ≠ i := fun he => hx (he ▸ (add_offset dest x).symm)
    rw [if_neg hx]
    exact if_congr (((hjoin _).trans (or_iff_left hne)).symm) rfl rfl

theorem moved_up (hlt : dest.toNat < src.toNat) (hs : src.toNat + n ≤ 2 ^ 32) (hi : i < n) :
    store 1 (moved m dest src 0 i) (dest + BitVec.ofNat 32 i)
      (moved m dest src 0 i (src + BitVec.ofNat 32 i)) = moved m dest src 0 (i + 1) := by
  refine store_moved (by omega) (moved_outside ?_) fun j => by omega
  have hd := dest.isLt
  simp only [BitVec.toNat_sub, BitVec.toNat_add, BitVec.toNat_ofNat]
  omega

/-- Downwards, the bytes below have not been written. -/
theorem moved_down (hle : src.toNat ≤ dest.toNat) (hd : dest.toNat + n ≤ 2 ^ 32) (hi : i < n) :
    store 1 (moved m dest src (i + 1) n) (dest + BitVec.ofNat 32 i)
      (moved m dest src (i + 1) n (src + BitVec.ofNat 32 i)) = moved m dest src i n := by
  refine store_moved (by omega) (moved_outside ?_) fun j => by omega
  have hs := src.isLt
  simp only [BitVec.toNat_sub, BitVec.toNat_add, BitVec.toNat_ofNat]
  omega

end SpKernel.Lib
