import Zsync.Bytes.Window

/-!
# Checksums of blocks

The two checksums a control file stores for each block of the target.

* `Rsum`, `calcRsumBlock` : the rolling checksum, two 16-bit sums that wrap;
* `shiftedOut` : the contribution of a byte that leaves the window to the second sum;
* `calcRsumBlock_slide` : the update the scanner makes from one offset to the next gives the
  checksum of the next window, for every power of two as the window length, those included
  whose leaving byte is shifted out of the 16 bits altogether;
* `Hashes` : the two strong hashes, MD4 and SHA-1, which come from libraries.
-/

namespace Zsync

/-- The rolling checksum of one block. -/
structure Rsum where
  /-- The sum of the block's bytes. -/
  a : UInt16
  /-- The sum of the running values of `a`. -/
  b : UInt16
  deriving DecidableEq, Repr, Inhabited

/-- Computes the rolling checksum of `data` from scratch. -/
def calcRsumBlock (data : Bytes) : Rsum :=
  data.foldl (fun r byte => ⟨r.a + byte.toUInt16, r.b + (r.a + byte.toUInt16)⟩) ⟨0, 0⟩

/-- The contribution of a byte leaving the window to the rolling `b` sum: the byte shifted left
by `blockshift`, or zero when the shift reaches the width (`checked_shl`). -/
def shiftedOut (byte : UInt8) (blockshift : ℕ) : UInt16 :=
  if blockshift < 16 then byte.toUInt16 <<< UInt16.ofNat blockshift else 0

/-- An MD4 digest. -/
abbrev Md4 := List.Vector UInt8 16

/-- A SHA-1 digest. -/
abbrev Sha1 := List.Vector UInt8 20

/-- The strong hashes: `calc_md4` and `calc_sha1`, computed by the crates `md4` and `sha1`. -/
structure Hashes where
  /-- The MD4 digest of some bytes. -/
  md4 : Bytes → Md4
  /-- The SHA-1 digest of some bytes. -/
  sha1 : Bytes → Sha1

section Slide

open scoped UInt16.CommRing

theorem calcRsumBlock_eq_sums (data : Bytes) :
    ((calcRsumBlock data).a, (calcRsumBlock data).b) = Rolling.sums (data.map UInt8.toUInt16) := by
  induction data using List.reverseRecOn with
  | nil => rfl
  | append_singleton data x ih =>
    rw [List.map_append, List.map_singleton, Rolling.sums_concat, ← ih]
    simp [calcRsumBlock, Rolling.push]

/-- Shifting a byte out is taking it once for every byte of the window. -/
theorem shiftedOut_eq (byte : UInt8) (k : ℕ) : shiftedOut byte k = (2 ^ k : ℕ) • byte.toUInt16 := by
  apply UInt16.toNat_inj.1
  have hsmul : (2 ^ k : ℕ) • byte.toUInt16 = UInt16.ofNat (2 ^ k) * byte.toUInt16 := by
    rw [nsmul_eq_mul]
    rfl
  rw [hsmul, UInt16.toNat_mul, UInt16.toNat_ofNat']
  unfold shiftedOut
  split_ifs with hk
  · have h1 : 2 ^ k < 2 ^ 16 := Nat.pow_lt_pow_right (by decide) hk
    rw [UInt16.toNat_shiftLeft, UInt16.toNat_ofNat', Nat.mod_eq_of_lt h1,
      Nat.mod_eq_of_lt (show k < 2 ^ 16 by omega), Nat.mod_eq_of_lt hk, Nat.shiftLeft_eq,
      Nat.mul_comm]
  · obtain ⟨j, rfl⟩ := Nat.exists_eq_add_of_le (Nat.le_of_not_lt hk)
    simp [Nat.pow_add]

/-- **Sliding the window**: the update of the scanner gives the checksum of the next window. -/
theorem calcRsumBlock_slide {data : Bytes} {x k : ℕ} {oc nc : UInt8} (ho : data[x]? = some oc)
    (hn : data[x + 2 ^ k]? = some nc) {r : Rsum}
    (hr : r = calcRsumBlock (window data x (2 ^ k))) :
    calcRsumBlock (window data (x + 1) (2 ^ k)) =
      ⟨r.a + nc.toUInt16 - oc.toUInt16,
        r.b + (r.a + nc.toUInt16 - oc.toUInt16) - shiftedOut oc k⟩ := by
  obtain ⟨m, hm⟩ : ∃ m, 2 ^ k = m + 1 := ⟨2 ^ k - 1, by have := Nat.two_pow_pos k; omega⟩
  have hlen : (window data (x + 1) m).length = m := by
    obtain ⟨hx, -⟩ := List.getElem?_eq_some_iff.1 hn
    exact length_window (by omega)
  have hold := calcRsumBlock_eq_sums (window data x (2 ^ k))
  have hnew := calcRsumBlock_eq_sums (window data (x + 1) (2 ^ k))
  rw [hm, window_concat (a := nc) (by rw [← hn, hm]; congr 1; omega), List.map_append,
    List.map_singleton, Rolling.sums_slide oc.toUInt16, ← List.map_cons, ← window_cons ho, ← hm,
    ← hold, List.length_map, hlen, ← hm, ← shiftedOut_eq, ← hr] at hnew
  rw [hm, window_concat (a := nc) (by rw [← hn, hm]; congr 1; omega)]
  exact Rsum.mk.injEq .. ▸ (Prod.mk.injEq .. ▸ hnew)

end Slide

end Zsync
