import Zsync.Matcher.Index
import Zsync.Control.Target

/-!
# Reachable matchers

What every matcher of a control file has, whatever was submitted to it.

* `BlockMatcher.Reachable` : a matcher after any calls, with the blocks still in its index;
* `BlockMatcher.Reachable.indexed` : its index holds these blocks, and its other fields are those
  it was made with;
* `BlockMatcher.sameChecksum_target`, `BlockMatcher.agrees_target` : what it compares windows with.
-/

namespace Zsync

namespace BlockMatcher

variable {H : Hashes} {cf : ControlFile} {m : BlockMatcher} {ids : List ℕ}

/-! ### Reachable matchers -/

/-- The matchers of a control file after any calls, with the blocks still in the index: those that
no scan has reported. -/
inductive Reachable (H : Hashes) (cf : ControlFile) : BlockMatcher → List ℕ → Prop
  | new : Reachable H cf (new cf) (List.range cf.blockChecksums.length)
  | submitSourceData {m : BlockMatcher} {ids : List ℕ} (cores : ℕ) (data : Bytes) (offset : ℕ) :
      Reachable H cf m ids → Reachable H cf (m.submitSourceData H cores data offset).1
        (ids.filter (· ∉ (m.submitSourceData H cores data offset).2.map Prod.fst))
  | submitBlocks {m : BlockMatcher} {ids : List ℕ} (data : Bytes) (blockStart : ℕ) :
      Reachable H cf m ids →
      Reachable H cf (m.submitBlocks H data blockStart).1 ids

theorem claimBlocks_indexed (found : List (ℕ × ℕ)) (hm : m.Indexed ids) :
    (claimBlocks found m).1.Indexed (ids.filter (· ∉ (claimBlocks found m).2.map Prod.fst)) ∧
      (claimBlocks found m).1.shape = m.shape := by
  induction found generalizing m ids with
  | nil => simpa [claimBlocks] using hm
  | cons c found ih =>
    rw [claimBlocks]
    split_ifs
    · exact ih hm
    · obtain ⟨hind, hshape⟩ := ih ((hm.markKnown c.1).removeBlockFromHash c.1)
      refine ⟨?_, by simpa using hshape⟩
      rw [List.filter_filter] at hind
      convert hind using 2
      funext id
      by_cases hid : id = c.1 <;> simp [hid]

theorem submitSourceData_indexed (cores : ℕ) (data : Bytes) (offset : ℕ) (hm : m.Indexed ids) :
    (m.submitSourceData H cores data offset).1.Indexed
        (ids.filter (· ∉ (m.submitSourceData H cores data offset).2.map Prod.fst)) ∧
      (m.submitSourceData H cores data offset).1.shape = m.shape := by
  unfold submitSourceData
  split_ifs
  · simpa using hm
  · exact claimBlocks_indexed _ hm

theorem submitBlocks_indexed (data : Bytes) (blockStart : ℕ) (hm : m.Indexed ids) :
    (m.submitBlocks H data blockStart).1.Indexed ids ∧
      (m.submitBlocks H data blockStart).1.shape = m.shape := by
  unfold submitBlocks
  generalize List.range _ = is
  induction is generalizing m with
  | nil => exact ⟨hm, rfl⟩
  | cons i is ih =>
    rw [submitBlocksFrom]
    split_ifs
    · exact ⟨hm, rfl⟩
    · simpa using ih (hm.markKnown (blockStart + i))
    · exact ⟨hm, rfl⟩

/-- **Every reachable matcher** indexes the blocks that no scan has reported. -/
theorem Reachable.indexed (h : Reachable H cf m ids) (hcf : cf.Checked) :
    m.Indexed ids ∧ m.shape = (unindexed cf).shape := by
  induction h with
  | new => exact indexed_new hcf.count_le
  | submitSourceData cores data offset _ ih =>
    obtain ⟨hind, hshape⟩ := submitSourceData_indexed (H := H) cores data offset ih.1
    exact ⟨hind, hshape.trans ih.2⟩
  | submitBlocks data blockStart _ ih =>
    obtain ⟨hind, hshape⟩ := submitBlocks_indexed (H := H) data blockStart ih.1
    exact ⟨hind, hshape.trans ih.2⟩

/-! ### Scannable matchers -/

/-- The sizes a scan relies on. -/
structure Sized (m : BlockMatcher) : Prop where
  blocksize : m.blocksize = 2 ^ m.blockshift
  hashLengths : m.hashLengths.Valid

theorem Sized.blocksize_pos (h : m.Sized) : 0 < m.blocksize := h.blocksize ▸ Nat.two_pow_pos _

theorem Sized.seq_pos (h : m.Sized) : 0 < m.hashLengths.seqMatches := h.hashLengths.one_le_seq

theorem Sized.seq_eq_two (h : m.Sized) (hseq : 1 < m.hashLengths.seqMatches) :
    m.hashLengths.seqMatches = 2 := Nat.le_antisymm h.hashLengths.seq_le_two hseq

theorem Sized.context_eq (h : m.Sized) (hseq : 1 < m.hashLengths.seqMatches) :
    m.context = m.blocksize + m.blocksize := by
  rw [context, h.seq_eq_two hseq, Nat.mul_two]

theorem Sized.blocksize_le_context (h : m.Sized) : m.blocksize ≤ m.context :=
  Nat.le_mul_of_pos_right _ h.seq_pos

theorem trailingZeros_two_pow {k : ℕ} (h : k ≤ 20) : trailingZeros (2 ^ k) = k := by
  have hall : ∀ k : Fin 21, trailingZeros (2 ^ k.val) = k.val := by decide
  exact hall ⟨k, by omega⟩

theorem sized_of_shape (hcf : cf.Checked) (h : m.shape = (unindexed cf).shape) : m.Sized := by
  obtain ⟨k, hk⟩ := hcf.blocksize
  have hk20 : k ≤ 20 := by
    have hle := hcf.blocksize_le
    rw [hk, maxBlocksize] at hle
    exact (Nat.pow_le_pow_iff_right (by decide)).1 hle
  refine ⟨?_, hashLengths_congr h ▸ hcf.hashLengths⟩
  rw [blocksize_congr h, blockshift_congr h]
  change cf.blocksize = 2 ^ trailingZeros cf.blocksize
  rw [hk, trailingZeros_two_pow hk20]

theorem Reachable.sized (h : Reachable H cf m ids) (hcf : cf.Checked) : m.Sized :=
  sized_of_shape hcf (h.indexed hcf).2

theorem sized_new (hcf : cf.Checked) : (new cf).Sized :=
  sized_of_shape hcf (indexed_new hcf.count_le).2

theorem Sized.coverOf_pos (hm : m.Sized) (id : ℕ) : 0 < (m.coverOf id).1 := by
  cases hp : m.inPair id <;> simp [coverOf, hp, hm.seq_pos]

/-! ### The blocks of a target -/

variable {T : Bytes} {id : ℕ}

theorem target_eq (hT : cf.DescribesTarget H T) (h : m.shape = (unindexed cf).shape)
    (hid : id < m.targets.length) :
    let bc := BlockChecksum.stored cf.hashLengths ⟨calcRsumBlock (targetBlock T cf.blocksize id),
      H.md4 (targetBlock T cf.blocksize id)⟩
    m.target id = ⟨⟨bc.rsum.a &&& m.rsumAMask, bc.rsum.b⟩, bc.checksum⟩ := by
  have hmask : m.rsumAMask = rsumAMaskOf cf.hashLengths.rsumBytes := by
    change m.shape.rsumAMask = _
    rw [h]
    rfl
  rw [targets_congr h] at hid
  rw [target, targets_congr h, hmask]
  simp only [unindexed, List.length_map] at hid
  simp only [unindexed, List.getD_eq_getElem?_getD, List.getElem?_map]
  rw [hT.records] at hid ⊢
  simp only [List.length_map, List.length_range] at hid
  simp [hid]

/-- A digest passes the test of a block when it agrees with the block's own digest on the stored
bytes. -/
theorem sameChecksum_target (hcf : cf.Checked) (hT : cf.DescribesTarget H T)
    (h : m.shape = (unindexed cf).shape) (hid : id < m.targets.length) (d : Md4) :
    m.sameChecksum d (m.target id).checksum ↔ d.toList.take cf.hashLengths.checksumBytes =
      (H.md4 (targetBlock T cf.blocksize id)).toList.take cf.hashLengths.checksumBytes := by
  have h16 := hcf.hashLengths.checksum_le_sixteen
  have hl : m.hashLengths = cf.hashLengths := hashLengths_congr h
  rw [sameChecksum, target_eq hT h hid, decide_eq_true_iff, hl]
  simp only [BlockChecksum.stored]
  rw [ControlFile.take_md4OfPrefix _ h16]
  simp [h16]

theorem stored_and_mask {n : ℕ} (hn : n = 2 ∨ n = 3 ∨ n = 4) (r : Rsum) :
    (r.stored n).a &&& rsumAMaskOf n = r.a &&& rsumAMaskOf n ∧ (r.stored n).b = r.b := by
  rcases hn with rfl | rfl | rfl
  · simp [Rsum.stored, rsumAMaskOf]
  · simp [Rsum.stored, rsumAMaskOf, UInt16.and_assoc]
  · simp [Rsum.stored]

/-- A window that is a block of the target passes the test of that block, when two or more bytes
of the rolling checksum are stored. -/
theorem agrees_target (hcf : cf.Checked) (hT : cf.DescribesTarget H T)
    (hr : 2 ≤ cf.hashLengths.rsumBytes) (h : m.shape = (unindexed cf).shape)
    (hid : id < m.targets.length) :
    m.agrees H id (calcRsumBlock (targetBlock T cf.blocksize id))
      (targetBlock T cf.blocksize id) := by
  have hmask : m.rsumAMask = rsumAMaskOf cf.hashLengths.rsumBytes := by
    change m.shape.rsumAMask = _
    rw [h]
    rfl
  have hcases := hcf.hashLengths.rsum_cases
  obtain ⟨ha, hb⟩ := stored_and_mask (n := cf.hashLengths.rsumBytes) (by omega)
    (calcRsumBlock (targetBlock T cf.blocksize id))
  rw [agrees, Bool.and_eq_true, sameChecksum_target hcf hT h hid]
  refine ⟨?_, rfl⟩
  rw [rsumMatch, target_eq hT h hid, decide_eq_true_iff, hmask]
  exact ⟨ha, hb⟩

end BlockMatcher

end Zsync
