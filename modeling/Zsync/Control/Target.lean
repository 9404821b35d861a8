import Zsync.Control.Records

/-!
# The blocks of a target

A target of `length` bytes is cut into blocks of `blocksize` bytes, the last one filled up with
zeros before it is hashed.

* `ControlFile.lt_numBlocks` : block `i` exists exactly when it starts inside the target;
* `targetBlock` : the zero-padded block;
* `ControlFile.window_blockLen` : it is the block that `generate` reads and hashes;
* `ControlFile.Checked` : what `parse` checks of the sizes in a control file;
* `ControlFile.DescribesTarget` : the control file of a target.
-/

namespace Zsync

/-- The `i`-th zero-padded block of `T`. -/
def targetBlock (T : Bytes) (blocksize i : ℕ) : Bytes :=
  padTo blocksize (window T (i * blocksize) blocksize)

@[simp] theorem length_targetBlock (T : Bytes) (blocksize i : ℕ) :
    (targetBlock T blocksize i).length = blocksize := length_padTo _ _

namespace ControlFile

/-! ### How many blocks -/

variable {length blocksize i : ℕ}

theorem lt_numBlocks (hb : 0 < blocksize) :
    i < numBlocks length blocksize ↔ i * blocksize < length := by
  rw [numBlocks, Nat.lt_iff_add_one_le, Nat.le_div_iff_mul_le hb, Nat.add_mul, Nat.one_mul]
  omega

theorem numBlocks_le_mul (hb : 0 < blocksize) (length : ℕ) :
    length ≤ numBlocks length blocksize * blocksize := by
  by_contra h
  exact lt_irrefl _ ((lt_numBlocks hb).2 (Nat.lt_of_not_le h))

theorem blockLen_eq (hb : 0 < blocksize) (hi : i < numBlocks length blocksize) :
    blockLen length blocksize (numBlocks length blocksize) i =
      min blocksize (length - i * blocksize) := by
  obtain ⟨r, hr⟩ := Nat.exists_eq_add_of_lt ((lt_numBlocks hb).1 hi)
  have hrest : length - i * blocksize = r + 1 := by omega
  rw [hrest]
  unfold blockLen
  by_cases hlast : i + 1 = numBlocks length blocksize
  · have hend := numBlocks_le_mul hb length
    rw [← hlast, Nat.add_mul, Nat.one_mul] at hend
    have hmod : length % blocksize = (r + 1) % blocksize := by
      rw [hr, Nat.add_assoc, Nat.mul_add_mod']
    rw [if_pos hlast, hmod]
    rcases Nat.lt_or_ge (r + 1) blocksize with hlt | hge
    · rw [Nat.mod_eq_of_lt hlt, if_neg (by omega)]
      omega
    · obtain rfl : r + 1 = blocksize := by omega
      simp
  · have hnext : (i + 1) * blocksize < length := (lt_numBlocks hb).1 (by omega)
    rw [Nat.add_mul, Nat.one_mul] at hnext
    rw [if_neg hlast]
    omega

theorem window_blockLen {T : Bytes} (hb : 0 < blocksize) (hi : i < numBlocks T.length blocksize) :
    window T (i * blocksize) (blockLen T.length blocksize (numBlocks T.length blocksize) i) =
      window T (i * blocksize) blocksize := by
  rw [blockLen_eq hb hi, window, window, ← List.length_drop, List.take_eq_take_min (i := blocksize),
    List.take_eq_take_min (i := min _ _)]

/-! ### The control file of a target -/

/-- The sizes that `parse` accepts. -/
structure Checked (cf : ControlFile) : Prop where
  blocksize : cf.blocksize.isPowerOfTwo
  blocksize_le : cf.blocksize ≤ maxBlocksize
  hashLengths : cf.hashLengths.Valid
  count : cf.blockChecksums.length = numBlocks cf.length cf.blocksize
  count_le : cf.blockChecksums.length ≤ maxBlocks

theorem Checked.blocksize_pos {cf : ControlFile} (h : cf.Checked) : 0 < cf.blocksize :=
  Nat.pos_of_isPowerOfTwo h.blocksize

theorem Checked.exists_block {cf : ControlFile} (h : cf.Checked) {i : ℕ} (hi : i < cf.length) :
    ∃ id r, i = id * cf.blocksize + r ∧ r < cf.blocksize ∧ id < cf.blockChecksums.length := by
  have hdiv := Nat.div_add_mod' i cf.blocksize
  refine ⟨i / cf.blocksize, i % cf.blocksize, hdiv.symm, Nat.mod_lt _ h.blocksize_pos, ?_⟩
  rw [h.count, lt_numBlocks h.blocksize_pos]
  omega

/-- `cf` describes `T`: its records hold the stored parts of the checksums of the zero-padded
blocks of `T`. -/
structure DescribesTarget (H : Hashes) (cf : ControlFile) (T : Bytes) : Prop where
  length : cf.length = T.length
  records : cf.blockChecksums = (List.range (numBlocks cf.length cf.blocksize)).map fun i =>
    BlockChecksum.stored cf.hashLengths ⟨calcRsumBlock (targetBlock T cf.blocksize i),
      H.md4 (targetBlock T cf.blocksize i)⟩

end ControlFile

end Zsync
