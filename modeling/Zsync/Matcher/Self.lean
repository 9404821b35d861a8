import Zsync.Control.Maker
import Zsync.Control.RoundTrip
import Zsync.Data.Sparse
import Zsync.Matcher.Known

/-!
# A target scanned for itself

An unsplit scan of a target, padded with zeros, finds every block of it.

* `BlockMatcher.window_padded` : the windows of the padded target at block offsets are its blocks;
* `BlockMatcher.mem_plainHits_self` : a lookup there finds the block, the last one included;
* `BlockMatcher.reports_self` : the scan never leaves the block offsets;
* `BlockMatcher.target_found_in_itself` : so that every block becomes known.
-/

namespace Zsync

namespace BlockMatcher

variable {H : Hashes} {cf : ControlFile} {m : BlockMatcher} {T : Bytes}

/-! ### Blocks of the padded target -/

theorem window_padded {n x k : ℕ} (h : x + k ≤ T.length + n) :
    window (T ++ List.replicate n 0) x k = slice T x k := by
  refine eq_of_byteAt ?_ fun i _ => ?_
  · rw [length_slice, length_window (by simpa using h)]
  · rw [byteAt_window, byteAt_slice, byteAt_append]
    split_ifs with hi hlt
    · rfl
    · rw [byteAt_of_le (Nat.le_of_not_lt hlt), byteAt_replicate_zero]
    · rfl

theorem calcRsumBlock_zeros (n : ℕ) : calcRsumBlock (List.replicate n 0) = ⟨0, 0⟩ := by
  induction n with
  | zero => rfl
  | succ n ih => exact ih

theorem window_self (hs : m.Sized) {i : ℕ} (hi : i * m.blocksize < T.length) :
    window (T ++ List.replicate m.context 0) (i * m.blocksize) m.blocksize =
        targetBlock T m.blocksize i ∧
      (1 < m.hashLengths.seqMatches →
        window (T ++ List.replicate m.context 0) (i * m.blocksize + m.blocksize) m.blocksize =
          targetBlock T m.blocksize (i + 1)) := by
  have hbs := hs.blocksize_le_context
  refine ⟨window_padded (by omega), fun hseq => ?_⟩
  have hctx := hs.context_eq hseq
  rw [window_padded (by omega), targetBlock, Nat.succ_mul]
  rfl

theorem lt_targets_iff (hcf : cf.Checked) (hT : cf.DescribesTarget H T)
    (hshape : m.shape = (unindexed cf).shape) {i : ℕ} :
    i < m.targets.length ↔ i * m.blocksize < T.length := by
  have hbs : m.blocksize = cf.blocksize := blocksize_congr hshape
  rw [length_targets hshape, hbs, ← hT.length, hcf.count,
    ControlFile.lt_numBlocks hcf.blocksize_pos]

section Self

variable (hcf : cf.Checked) (hT : cf.DescribesTarget H T) (hrsum : 2 ≤ cf.hashLengths.rsumBytes)
  {ids : List ℕ} (hm : m.Indexed ids) (hs : m.Sized) (hshape : m.shape = (unindexed cf).shape)
include hcf hT hrsum hm hs hshape

/-- **A lookup at a block's own offset** finds it, unless it is skipped.  The last block, which no
pair confirms, is in the bucket of a block that zeros follow. -/
theorem mem_plainHits_self {i : ℕ} (hi : i ∈ ids) {matched : Option ℕ}
    (hmatched : matched ≠ some i) :
    i ∈ m.plainHits H ids (T ++ List.replicate m.context 0) (i * m.blocksize) matched := by
  have hlt := hm.lt i hi
  have hoffset := (lt_targets_iff hcf hT hshape).1 hlt
  obtain ⟨hw, hnext⟩ := window_self hs hoffset
  by_cases hlast : 1 < m.hashLengths.seqMatches → i + 1 < m.targets.length
  · exact mem_plainHits hcf hT hrsum hshape hi hlt hlast hw hnext hmatched
  · simp only [Classical.not_imp, Nat.not_lt] at hlast
    obtain ⟨hseq, hend⟩ := hlast
    have hpair : m.inPair i = false := by simp [inPair, Nat.not_lt.2 hend]
    have hbs : m.blocksize = cf.blocksize := blocksize_congr hshape
    have hagrees := agrees_target hcf hT hrsum hshape hlt
    rw [← hbs] at hagrees
    -- the window after the last block is all zeros
    have hzeros : targetBlock T m.blocksize (i + 1) = List.replicate m.blocksize 0 := by
      have hpast : T.length ≤ (i + 1) * m.blocksize := by
        by_contra hlt'
        have := (lt_targets_iff hcf hT hshape).2 (Nat.lt_of_not_le hlt')
        omega
      rw [targetBlock, window, List.drop_eq_nil_of_le hpast]
      simp [padTo]
    have hhash : m.calcHashRolling (calcRsumBlock (targetBlock T m.blocksize i)) ⟨0, 0⟩ =
        m.calcHash i := by
      have hb : (m.target i).rsum.b = (calcRsumBlock (targetBlock T m.blocksize i)).b := by
        simp only [agrees, rsumMatch, Bool.and_eq_true, decide_eq_true_eq] at hagrees
        exact hagrees.1.2
      simp only [calcHash, calcHashRolling, hseq, if_true, Nat.not_lt.2 hend, if_false, hb]
      rfl
    have hlook : m.looksUp (calcRsumBlock (targetBlock T m.blocksize i)) ⟨0, 0⟩ i := by
      simp [looksUp, hhash, hm.filter i hi]
    refine mem_plainHits_iff.2 ⟨hi, hmatched, hw ▸ hagrees, by simp [hpair], Or.inr (Or.inr ?_)⟩
    rw [hw, hnext hseq, hzeros, calcRsumBlock_zeros]
    exact hlook

/-- **One test** at the offset of block `i` reports it, and moves on to the next block, or past the
next one, which it reports too. -/
theorem step_self (hall : ∀ i < m.targets.length, i ∈ ids) {i : ℕ} (hi : i < m.targets.length)
    (hint : Option ℕ) :
    let S := m.plainScanner hs H ids (T ++ List.replicate m.context 0) 0
    let v := (i * m.blocksize, hint)
    i ∈ (S.found v).map Prod.fst ∧ ((S.step v).1 = (i + 1) * m.blocksize ∨
      (S.step v).1 = (i + 2) * m.blocksize ∧
        (i + 1 < m.targets.length → i + 1 ∈ (S.found v).map Prod.fst)) := by
  have hhit : ∀ {matched}, matched ≠ some i →
      i ∈ m.plainHits H ids (T ++ List.replicate m.context 0) (i * m.blocksize) matched := fun h =>
    mem_plainHits_self hcf hT hrsum hm hs hshape (hall i hi) h
  intro S v
  have hfound : i ∈ (S.found v).map Prod.fst := by
    by_cases hexpected :
        m.plainHint H (T ++ List.replicate m.context 0) (i * m.blocksize) hint = some i
    · exact List.mem_map_of_mem (f := Prod.fst) (mem_found_of_hint (u := v) hs hexpected)
    · exact List.mem_map_of_mem (f := Prod.fst) (mem_found_of_hit (u := v) hs (hhit hexpected)).1
  refine ⟨hfound, ?_⟩
  simp only [Scanner.step, S, plainScanner_span, plainSpan, v]
  cases hhint : m.plainHint H (T ++ List.replicate m.context 0) (i * m.blocksize) hint with
  | some j => exact Or.inl (by simp [Nat.succ_mul])
  | none =>
    have hmem : i ∈ m.plainHits H ids (T ++ List.replicate m.context 0) (i * m.blocksize) none :=
      hhit (by simp)
    cases hhits : m.plainHits H ids (T ++ List.replicate m.context 0) (i * m.blocksize) none with
    | nil => rw [hhits] at hmem; cases hmem
    | cons f rest =>
      simp only [Option.isSome_none, Bool.false_eq_true, if_false]
      by_cases hpair : m.inPair f
      · right
        rw [if_pos hpair]
        refine ⟨by rw [Nat.add_mul], fun hnext => ?_⟩
        have hinPair : m.inPair i := decide_eq_true ⟨(of_decide_eq_true hpair).1, hnext⟩
        have hsecond : (i + 1, 0 + v.1 + m.blocksize) ∈ S.found v :=
          (mem_found_of_hit (u := v) hs (hhint.symm ▸ hmem)).2 hinPair
        exact List.mem_map_of_mem (f := Prod.fst) hsecond
      · left
        rw [if_neg hpair, Nat.succ_mul]

/-- **The scan of the target** reports every block from the one at the cursor on. -/
theorem reports_self (hall : ∀ i < m.targets.length, i ∈ ids) (v : ℕ × Option ℕ) {i : ℕ}
    (hv : v.1 = i * m.blocksize) {id : ℕ} (hle : i ≤ id) (hid : id < m.targets.length) :
    id ∈ ((m.plainScanner hs H ids (T ++ List.replicate m.context 0) 0).reports T.length v).map
      Prod.fst := by
  have hoffset := (lt_targets_iff hcf hT hshape).1 hid
  induction v using (m.plainScanner hs H ids (T ++ List.replicate m.context 0) 0).run_induction
    T.length generalizing i with
  | hend v hend =>
    have := Nat.mul_le_mul_right m.blocksize hle
    omega
  | hstep v hlt ih =>
    have hi : i < m.targets.length := by omega
    obtain ⟨hfound, hstep⟩ := step_self hcf hT hrsum hm hs hshape hall hi v.2
    rw [← hv] at hfound hstep
    rw [Scanner.reports_of_lt _ hlt, List.map_append, List.mem_append]
    rcases Nat.eq_or_lt_of_le hle with rfl | hgt
    · exact Or.inl hfound
    · rcases hstep with hone | ⟨htwo, hnext⟩
      · exact Or.inr (ih hone hgt)
      · rcases Nat.eq_or_lt_of_le hgt with rfl | hgt'
        · exact Or.inl (hnext hid)
        · exact Or.inr (ih htwo hgt')

end Self

/-- **A target is found in itself.**  For every target and every control file that describes it with
two or more bytes of rolling checksum, an unsplit scan of the target and the zeros after it reports
every block to a new matcher, which is complete then. -/
theorem target_found_in_itself {input : Bytes} (hp : ControlFile.parse input = .ok cf)
    (hT : cf.DescribesTarget H T) (hrsum : 2 ≤ cf.hashLengths.rsumBytes) :
    let data := T ++ List.replicate (cf.blocksize * cf.hashLengths.seqMatches) 0
    (∀ id < (new cf).totalBlocks, ∃ offset, (id, offset) ∈ (new cf).scanChunk H data 0) ∧
      ((new cf).submitSourceData H 1 data 0).1.isComplete := by
  have hcf := ControlFile.checked_of_parse hp
  have hnew : Reachable H cf (new cf) (List.range cf.blockChecksums.length) := Reachable.new
  obtain ⟨hm, hshape⟩ := hnew.indexed hcf
  have hs := hnew.sized hcf
  have hc := hnew.counted hcf
  have hcontext := context_of_shape hshape
  have htotal := length_targets hshape
  have hfound : ∀ id < (new cf).totalBlocks, ∃ offset, (id, offset) ∈ (new cf).scanChunk H
      (T ++ List.replicate (cf.blocksize * cf.hashLengths.seqMatches) 0) 0 := by
    intro id hid
    have hmem := reports_self hcf hT hrsum hm hs hshape (fun i hi => List.mem_range.2 (htotal ▸ hi))
      (0, none) (Nat.zero_mul _).symm (Nat.zero_le id) hid
    rw [scanChunk_eq hs hm, ← hcontext, List.length_append, List.length_replicate,
      Nat.add_sub_cancel]
    simpa using hmem
  refine ⟨hfound, ?_⟩
  obtain ⟨hcounted, -⟩ := submitSourceData_spec (H := H) hs hm hc 1
    (T ++ List.replicate (cf.blocksize * cf.hashLengths.seqMatches) 0) 0
  have hshape' := (submitSourceData_indexed (H := H) 1
    (T ++ List.replicate (cf.blocksize * cf.hashLengths.seqMatches) 0) 0 hm).2
  rw [hcounted.isComplete_iff]
  intro id hid
  obtain ⟨offset, hmem⟩ := hfound id (by rwa [totalBlocks, ← targets_congr hshape'])
  exact hc.isBlockKnown_of_mem_scanChunk hs hm (by simp [hcontext]) hmem

/-- The control file of `n` zero bytes in blocks of one byte. -/
def zeroBlocks (hl : HashLengths) (n : ℕ) : ControlFile where
  version := "0.6.2"
  filename := none
  mtime := none
  blocksize := 1
  length := n
  hashLengths := hl
  urls := ["u"]
  sha1 := none
  blockChecksums := (List.range n).map fun i => BlockChecksum.stored hl
    ⟨calcRsumBlock (targetBlock (List.replicate n 0) 1 i),
      ControlFile.zeroHashes.md4 (targetBlock (List.replicate n 0) 1 i)⟩

/-- Three equal blocks, matched as pairs: the hint follows the first copy and the last block has
no successor. -/
theorem target_found_in_itself_zeros :
    (∃ offset, (2, offset) ∈ (new (zeroBlocks ⟨2, 2, 3⟩ 3)).scanChunk ControlFile.zeroHashes
        [0, 0, 0, 0, 0] 0) ∧
      ((new (zeroBlocks ⟨2, 2, 3⟩ 3)).submitSourceData ControlFile.zeroHashes 1
        [0, 0, 0, 0, 0] 0).1.isComplete := by
  have hparse : ControlFile.parse (ControlFile.write (zeroBlocks ⟨2, 2, 3⟩ 3)) =
      .ok (zeroBlocks ⟨2, 2, 3⟩ 3) := by decide +kernel
  obtain ⟨hfound, hcomplete⟩ := target_found_in_itself (H := ControlFile.zeroHashes)
    (T := List.replicate 3 0) hparse ⟨rfl, rfl⟩ (by decide)
  exact ⟨hfound 2 (by decide), hcomplete⟩

end BlockMatcher

end Zsync
