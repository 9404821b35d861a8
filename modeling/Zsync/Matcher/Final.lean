import Zsync.Matcher.Bounds

/-!
# The final block

When a scan finds the final block of a target in data that goes on behind it, where blocks are
matched in pairs.

* `BlockMatcher.mem_visits_iff_round` : the tested offsets are those of the rounds of `scan_chunk`;
* `BlockMatcher.LooksUpFinal` : the bytes behind the final block let a lookup come across it;
* `BlockMatcher.FollowsCopy` : the final block ends a pair found next to an expected block;
* `BlockMatcher.final_block_reported_iff` : exactly when the final block is reported.
-/

namespace Zsync

namespace BlockMatcher

variable {H : Hashes} {cf : ControlFile} {m : BlockMatcher} {ids : List ℕ} {data : Bytes}

/-! ### Rounds -/

theorem scanFrom_of_le {base xLimit : ℕ} {c : ScanCursor} (h : xLimit ≤ c.x) (round : ℕ) :
    m.scanFrom H data base xLimit round c = c := by
  cases round with
  | zero => rfl
  | succ round => rw [scanFrom, if_neg (Nat.not_lt.2 h)]

theorem mem_visits_iff_round (hs : m.Sized) (hm : m.Indexed ids) {base xLimit : ℕ}
    (hlim : xLimit + m.context ≤ data.length) {c : ScanCursor} (hc : m.CursorOk data xLimit c)
    (u : ℕ × Option ℕ) :
    u ∈ (m.plainScanner hs H ids data base).visits xLimit (c.x, c.nextMatchId) ↔
      ∃ round, (m.scanFrom H data base xLimit round c).x < xLimit ∧
        ((m.scanFrom H data base xLimit round c).x,
          (m.scanFrom H data base xLimit round c).nextMatchId) = u := by
  induction hn : xLimit - c.x using Nat.strong_induction_on generalizing c with
  | _ n ih =>
    rcases Nat.lt_or_ge c.x xLimit with hx | hx
    · obtain ⟨hstep, -, hok⟩ := scanStep_eq (H := H) base hs hm hlim hc hx
      have hpos := (m.plainScanner hs H ids data base).span_eq_pos (c.x, c.nextMatchId)
      have hnext := congrArg Prod.fst hstep
      simp only [Scanner.step] at hnext
      have hrest := ih _ (by omega) hok rfl
      rw [Scanner.visits_of_lt _ (v := (c.x, c.nextMatchId)) hx, ← hstep, List.mem_cons, hrest]
      have hsucc : ∀ round, m.scanFrom H data base xLimit (round + 1) c =
          m.scanFrom H data base xLimit round (m.scanStep H data base xLimit c) := fun round => by
        rw [scanFrom, if_pos hx]
      constructor
      · rintro (rfl | ⟨round, hlt, heq⟩)
        · exact ⟨0, hx, rfl⟩
        · exact ⟨round + 1, by rwa [hsucc], by rwa [hsucc]⟩
      · rintro ⟨_ | round, hlt, heq⟩
        · exact Or.inl heq.symm
        · exact Or.inr ⟨round, by rwa [← hsucc], by rwa [← hsucc]⟩
    · rw [Scanner.visits_of_le _ (v := (c.x, c.nextMatchId)) hx]
      simp [scanFrom_of_le hx, hx]

/-! ### Lookups of the final block -/

/-- The window behind offset `x` lets a lookup come across the final block.  The block was indexed
with nothing behind it, so the second sum of this window must not reach the bits of the bucket,
and the bit filter must have the hash of the two windows. -/
def LooksUpFinal (m : BlockMatcher) (data : Bytes) (x : ℕ) : Prop :=
  let r0 := calcRsumBlock (window data x m.blocksize)
  let r1 := calcRsumBlock (window data (x + m.blocksize) m.blocksize)
  m.inFilter (m.calcHashRolling r0 r1) ∧ (r1.b.toUInt32 <<< m.hashFuncShift) &&& m.hashMask = 0

/-- The expected block is at the offset of `u`, and so is another copy of it, block `last - 1`,
which is still indexed. -/
def FollowsCopy (m : BlockMatcher) (H : Hashes) (ids : List ℕ) (data : Bytes) (last : ℕ)
    (u : ℕ × Option ℕ) : Prop :=
  ∃ j k, m.plainHint H data u.1 u.2 = some j ∧ k ∈ ids ∧ k + 1 = last ∧ k ≠ j ∧
    m.agrees H k (calcRsumBlock (window data u.1 m.blocksize)) (window data u.1 m.blocksize)

theorem and_xor_eq_iff (a s k : UInt32) : a &&& k = (a ^^^ s) &&& k ↔ s &&& k = 0 := by
  have hdistrib : (a ^^^ s) &&& k = (a &&& k) ^^^ (s &&& k) := by
    apply UInt32.toNat_inj.1
    simp only [UInt32.toNat_and, UInt32.toNat_xor, Nat.and_xor_distrib_right]
  rw [hdistrib, eq_comm]
  nth_rewrite 2 [← UInt32.xor_zero (a := a &&& k)]
  exact UInt32.xor_right_inj _

theorem looksUp_final_iff {last x : ℕ} (hseq : 1 < m.hashLengths.seqMatches)
    (hlast : last + 1 = m.targets.length)
    (hagrees : m.agrees H last (calcRsumBlock (window data x m.blocksize))
      (window data x m.blocksize)) :
    m.looksUp (calcRsumBlock (window data x m.blocksize))
      (calcRsumBlock (window data (x + m.blocksize) m.blocksize)) last ↔
      m.LooksUpFinal data x := by
  have hb : (m.target last).rsum.b = (calcRsumBlock (window data x m.blocksize)).b := by
    simp only [agrees, rsumMatch, Bool.and_eq_true, decide_eq_true_eq] at hagrees
    exact hagrees.1.2
  have hnone : ¬ last + 1 < m.targets.length := by omega
  have hzero : (0 : UInt32) <<< m.hashFuncShift = 0 := UInt32.zero_shiftLeft
  simp only [looksUp, LooksUpFinal, Bool.and_eq_true, decide_eq_true_eq, bucket,
    UInt32.toNat_inj, calcHash, hseq, if_true, hnone, if_false, hb, hzero, UInt32.xor_zero]
  rw [calcHashRolling, if_pos hseq, and_xor_eq_iff]

/-! ### Reports of the final block -/

section Final

variable (hs : m.Sized) (hm : m.Indexed ids) (hseq : 1 < m.hashLengths.seqMatches) {last : ℕ}
  (hlast : last + 1 = m.targets.length)

include hlast

/-- A test reports the final block at its own offset, or one block on as the end of a pair. -/
theorem cases_of_mem_found_final {base x : ℕ} {u : ℕ × Option ℕ}
    (h : (last, base + x) ∈ (m.plainScanner hs H ids data base).found u) :
    (u.1 = x ∧ (m.plainHint H data u.1 u.2 = some last ∨
        last ∈ m.plainHits H ids data u.1 (m.plainHint H data u.1 u.2))) ∨
      ∃ k ∈ m.plainHits H ids data u.1 (m.plainHint H data u.1 u.2), k + 1 = last ∧
        u.1 + m.blocksize = x := by
  rw [plainScanner_found, List.mem_append, List.mem_map, List.mem_flatMap] at h
  rcases h with ⟨id, hid, heq⟩ | ⟨k, hk, hrep⟩
  · obtain ⟨rfl, hx⟩ := Prod.mk.inj heq
    exact Or.inl ⟨by omega, Or.inl (Option.mem_toList.1 hid)⟩
  · unfold reportOf at hrep
    split_ifs at hrep with hpair
    · have hklt : k + 1 < m.targets.length := (decide_eq_true_eq.mp hpair).2
      simp only [List.mem_cons, Prod.mk.injEq, List.not_mem_nil, or_false] at hrep
      rcases hrep with ⟨rfl, -⟩ | ⟨rfl, hx⟩
      · omega
      · exact Or.inr ⟨k, hk, rfl, by omega⟩
    · obtain ⟨rfl, hx⟩ := Prod.mk.inj (List.mem_singleton.1 hrep)
      exact Or.inl ⟨by omega, Or.inr hk⟩

include hm hseq

/-- A lookup that finds the block before the final block, where no block was expected, moves on by
both. -/
theorem span_of_mem_plainHits {base k : ℕ} {u : ℕ × Option ℕ}
    (hhint : m.plainHint H data u.1 u.2 = none) (hk : k ∈ m.plainHits H ids data u.1 none)
    (hklast : k + 1 = last) :
    (m.plainScanner hs H ids data base).span u = 2 * m.blocksize := by
  have hsorted : (m.plainHits H ids data u.1 none).Pairwise (· < ·) := hm.sorted.filter _
  rw [plainScanner_span, plainSpan, hhint]
  cases hhits : m.plainHits H ids data u.1 none with
  | nil => simp [hhits] at hk
  | cons id rest =>
    rw [hhits] at hk hsorted
    have hle : id ≤ k := by
      rcases List.mem_cons.1 hk with rfl | hk
      · exact le_rfl
      · exact (List.rel_of_pairwise_cons hsorted hk).le
    have hpair : m.inPair id := by
      simp only [inPair, decide_eq_true_eq]
      exact ⟨hseq, by omega⟩
    simp [hpair]

/-- **The final block is reported** at a tested offset where its bytes are exactly when it is
expected there, when a lookup comes across it, or when it ends a pair found next to an expected
block. -/
theorem final_reported_iff {base xLimit : ℕ} {v u : ℕ × Option ℕ} (hid : last ∈ ids)
    (hu : u ∈ (m.plainScanner hs H ids data base).visits xLimit v)
    (hagrees : m.agrees H last (calcRsumBlock (window data u.1 m.blocksize))
      (window data u.1 m.blocksize)) :
    (last, base + u.1) ∈ (m.plainScanner hs H ids data base).reports xLimit v ↔
      u.2 = some last ∨ m.LooksUpFinal data u.1 ∨
        ∃ u' ∈ (m.plainScanner hs H ids data base).visits xLimit v, u'.1 + m.blocksize = u.1 ∧
          m.FollowsCopy H ids data last u' := by
  have hlt : last < m.targets.length := by omega
  have hnot : ¬ m.inPair last := by simp [inPair, hlast]
  have hhint : u.2 = some last ↔ m.plainHint H data u.1 u.2 = some last := by
    simp [plainHint, Option.filter_eq_some_iff, hseq, hlt, hagrees]
  rw [hhint, ← looksUp_final_iff hseq hlast hagrees, Scanner.reports, List.mem_flatMap]
  constructor
  · rintro ⟨u', hu', hfound⟩
    rcases cases_of_mem_found_final hs hlast hfound with ⟨hx, hcase⟩ | ⟨k, hk, hklast, hx⟩
    · obtain rfl := Scanner.eq_of_mem_visits _ hu' hu hx
      rcases hcase with hcase | hcase
      · exact Or.inl hcase
      · exact Or.inr (Or.inl (((mem_plainHits_iff.1 hcase).2.2.2.2.resolve_left hnot).resolve_left
          (not_not.2 hseq)))
    · cases hexpected : m.plainHint H data u'.1 u'.2 with
      | none =>
        -- the scan would have passed over the offset of the final block
        have hspan : (m.plainScanner hs H ids data base).span u' = 2 * m.blocksize :=
          span_of_mem_plainHits hs hm hseq hlast hexpected (hexpected ▸ hk) hklast
        have hpos := hs.blocksize_pos
        have hkept := ((Scanner.mem_visits_iff _).1 ⟨u, hu, rfl⟩).2.2 u' hu'
        omega
      | some j =>
        obtain ⟨hmem, hne, hk0, -⟩ := mem_plainHits_iff.1 hk
        refine Or.inr (Or.inr ⟨u', hu', hx, j, k, hexpected, hmem, hklast, ?_, hk0⟩)
        rintro rfl
        exact hne hexpected
  · rintro (hexpected | hlook | ⟨u', hu', hx, j, k, hexpected, hmem, hklast, hne, hk0⟩)
    · exact ⟨u, hu, mem_found_of_hint hs hexpected⟩
    · by_cases hexpected : m.plainHint H data u.1 u.2 = some last
      · exact ⟨u, hu, mem_found_of_hint hs hexpected⟩
      · exact ⟨u, hu, (mem_found_of_hit hs (mem_plainHits_iff.2 ⟨hid, hexpected, hagrees,
          fun hpair => absurd hpair hnot, Or.inr (Or.inr hlook)⟩)).1⟩
    · have hpair : m.inPair k := by
        simp only [inPair, decide_eq_true_eq]
        exact ⟨hseq, by omega⟩
      have hhit : k ∈ m.plainHits H ids data u'.1 (m.plainHint H data u'.1 u'.2) := by
        refine mem_plainHits_iff.2 ⟨hmem, ?_, hk0, fun _ => ?_, Or.inl hpair⟩
        · simpa [hexpected] using Ne.symm hne
        · rwa [hx, hklast]
      refine ⟨u', hu', ?_⟩
      have hnext : (k + 1, base + u'.1 + m.blocksize) ∈
          (m.plainScanner hs H ids data base).found u' := (mem_found_of_hit hs hhit).2 hpair
      rwa [hklast, Nat.add_assoc, hx] at hnext

end Final

/-- **Whether the final block is found on its own.**  At an offset that `scan_chunk` tests, where
the data has the zero-padded final block of the target, the block is reported exactly when it is
the block expected there, when the bytes behind it let a lookup come across it, or when it ends a
pair that was found one block before, next to the block expected there. -/
theorem final_block_reported_iff {T : Bytes} (hcf : cf.Checked) (hT : cf.DescribesTarget H T)
    (hrsum : 2 ≤ cf.hashLengths.rsumBytes) (hseq : cf.hashLengths.seqMatches = 2)
    (hm : Reachable H cf m ids) {last : ℕ} (hlast : last + 1 = cf.blockChecksums.length)
    (hid : last ∈ ids) (data : Bytes) (base round : ℕ) :
    let cursor := fun round =>
      m.scanFrom H data base (data.length - m.context) round (m.scanStart data)
    (cursor round).x < data.length - m.context →
    window data (cursor round).x m.blocksize = targetBlock T m.blocksize last →
      ((last, base + (cursor round).x) ∈ m.scanChunk H data base ↔
        (cursor round).nextMatchId = some last ∨ m.LooksUpFinal data (cursor round).x ∨
          ∃ earlier, (cursor earlier).x + m.blocksize = (cursor round).x ∧
            m.FollowsCopy H ids data last ((cursor earlier).x, (cursor earlier).nextMatchId)) := by
  intro cursor hx hw
  have hs := hm.sized hcf
  obtain ⟨hind, hshape⟩ := hm.indexed hcf
  have htotal := length_targets hshape
  have hseq' : 1 < m.hashLengths.seqMatches := by
    rw [hashLengths_congr hshape]
    change 1 < cf.hashLengths.seqMatches
    omega
  have hagrees : m.agrees H last (calcRsumBlock (window data (cursor round).x m.blocksize))
      (window data (cursor round).x m.blocksize) := by
    have hbs : m.blocksize = cf.blocksize := blocksize_congr hshape
    rw [hw, hbs]
    exact agrees_target hcf hT hrsum hshape (hind.lt _ hid)
  have hlim : data.length - m.context + m.context ≤ data.length := by omega
  have hvisit (u : ℕ × Option ℕ) :
      u ∈ (m.plainScanner hs H ids data base).visits (data.length - m.context) (0, none) ↔
        ∃ round, (cursor round).x < data.length - m.context ∧
          ((cursor round).x, (cursor round).nextMatchId) = u :=
    mem_visits_iff_round hs hind hlim (scanStart_ok m data _) u
  rw [scanChunk_eq hs hind]
  refine (final_reported_iff hs hind hseq' (hlast.trans htotal.symm) hid
    (u := ((cursor round).x, (cursor round).nextMatchId)) ((hvisit _).2 ⟨round, hx, rfl⟩)
    hagrees).trans ?_
  refine or_congr Iff.rfl (or_congr Iff.rfl ⟨?_, ?_⟩)
  · rintro ⟨u', hu', hback, hcopy⟩
    obtain ⟨earlier, -, rfl⟩ := (hvisit u').1 hu'
    exact ⟨earlier, hback, hcopy⟩
  · rintro ⟨earlier, hback, hcopy⟩
    exact ⟨_, (hvisit _).2 ⟨earlier, by dsimp only [cursor] at *; omega, rfl⟩, hback, hcopy⟩

/-- Before zeros the final block of a pair is found on its own. -/
theorem final_block_reported_pair :
    (1, 10) ∈ (new pairControl).scanChunk pairHashes [3, 4, 0, 0, 0] 10 := by
  have hm : Reachable pairHashes pairControl (new pairControl) (List.range 2) := Reachable.new
  refine (final_block_reported_iff (T := [1, 2, 3, 4]) pairControl_checked ⟨rfl, rfl⟩ (by decide)
    rfl hm rfl (by decide) [3, 4, 0, 0, 0] 10 0 (by decide) rfl).2 (Or.inr (Or.inl ?_))
  exact ⟨by decide, by decide⟩

/-- Before other bytes it is not found, although its offset is tested. -/
theorem final_block_lost :
    let m := new pairControl
    let data : Bytes := [3, 4, 9, 9, 9]
    ControlFile.parse (ControlFile.write pairControl) = .ok pairControl ∧
      pairControl.DescribesTarget pairHashes [1, 2, 3, 4] ∧
      (m.scanStart data).x < data.length - m.context ∧
      window data (m.scanStart data).x m.blocksize = targetBlock [1, 2, 3, 4] m.blocksize 1 ∧
      m.scanChunk pairHashes data 10 = [] := by
  exact ⟨by decide +kernel, ⟨rfl, rfl⟩, by decide, rfl, by decide +kernel⟩

end BlockMatcher

end Zsync
