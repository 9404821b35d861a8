import Zsync.Matcher.Reading
import Zsync.Matcher.Self

/-!
# Copies of a block

Blocks that the stored checksums cannot tell apart, and what one sighting of them gives.

* `BlockMatcher.sameBlock` : two blocks with the same stored rolling checksum and digest;
* `BlockMatcher.length_scanChunk_le` : a scan lists a sighting for each copy, so its list is linear
  in the data, by a factor of the largest number of copies;
* `BlockMatcher.finds_copy_iff` : when a reading finds the copy of a pair where the pair is;
* `BlockMatcher.copies_known_iff` : which copies of a block one sighting makes known.
-/

namespace Zsync

namespace BlockMatcher

variable {H : Hashes} {cf : ControlFile} {m : BlockMatcher} {ids : List ℕ} {data : Bytes}

/-! ### Copies -/

/-- The stored checksums of two blocks are the same. -/
def sameBlock (m : BlockMatcher) (i j : ℕ) : Bool :=
  (m.target i).rsum = (m.target j).rsum ∧
    m.sameChecksum (m.target i).checksum (m.target j).checksum

/-- How many blocks have the stored checksums of block `i`. -/
def copies (m : BlockMatcher) (i : ℕ) : ℕ := (List.range m.targets.length).countP (m.sameBlock i)

/-- The largest number of blocks with the same stored checksums. -/
def maxCopies (m : BlockMatcher) : ℕ := (Finset.range m.targets.length).sup m.copies

theorem agrees_copy {i j : ℕ} (h : m.sameBlock i j) (r : Rsum) (w : Bytes) :
    m.agrees H i r w = m.agrees H j r w := by
  simp only [sameBlock, sameChecksum, decide_eq_true_eq] at h
  simp only [agrees, sameChecksum, h.1, h.2]

theorem sameBlock_of_agrees {i j : ℕ} {r : Rsum} {w : Bytes} (hi : m.agrees H i r w)
    (hj : m.agrees H j r w) : m.sameBlock i j := by
  simp only [agrees, rsumMatch, sameChecksum, Bool.and_eq_true, decide_eq_true_eq] at hi hj
  simp only [sameBlock, sameChecksum, decide_eq_true_eq]
  have hrsum : ∀ r₁ r₂ : Rsum, r₁.a = r₂.a → r₁.b = r₂.b → r₁ = r₂ := by
    rintro ⟨a, b⟩ ⟨a', b'⟩ rfl rfl
    rfl
  exact ⟨hrsum _ _ (hi.1.1.trans hj.1.1.symm) (hi.1.2.trans hj.1.2.symm), hi.2.symm.trans hj.2⟩

theorem copies_le_maxCopies {i : ℕ} (hi : i < m.targets.length) : m.copies i ≤ m.maxCopies :=
  Finset.le_sup (Finset.mem_range.2 hi)

theorem length_le_maxCopies {l : List ℕ} {r : Rsum} {w : Bytes} (hnodup : l.Nodup)
    (hlt : ∀ i ∈ l, i < m.targets.length) (hagrees : ∀ i ∈ l, m.agrees H i r w) :
    l.length ≤ m.maxCopies := by
  cases l with
  | nil => exact Nat.zero_le _
  | cons i l =>
    have hi := List.mem_cons_self (a := i) (l := l)
    have hsub : i :: l ⊆ (List.range m.targets.length).filter (m.sameBlock i) := fun j hj =>
      List.mem_filter.2 ⟨List.mem_range.2 (hlt j hj),
        sameBlock_of_agrees (hagrees i hi) (hagrees j hj)⟩
    calc (i :: l).length
        ≤ ((List.range m.targets.length).filter (m.sameBlock i)).length :=
          (List.subperm_of_subset hnodup hsub).length_le
      _ = m.copies i := List.countP_eq_length_filter.symm
      _ ≤ m.maxCopies := copies_le_maxCopies (hlt i hi)

/-! ### The candidate list -/

theorem length_reportOf_le (hs : m.Sized) (offset id : ℕ) :
    (m.reportOf offset id).length ≤ m.hashLengths.seqMatches := by
  have := hs.seq_pos
  unfold reportOf
  split_ifs with hpair
  · simp only [inPair, decide_eq_true_eq] at hpair
    exact hpair.1
  · exact this

/-- One test reports no block more often than there are blocks matched together, and only copies of
one block and the blocks after them. -/
theorem length_found_le (hs : m.Sized) (hm : m.Indexed ids) {base : ℕ} {u : ℕ × Option ℕ}
    (hu : u.1 + m.context ≤ data.length) :
    ((m.plainScanner hs H ids data base).found u).length ≤
      m.hashLengths.seqMatches * m.maxCopies := by
  have hseq := hs.seq_pos
  rw [plainScanner_found, List.length_append, List.length_map]
  have hhits : ∀ l : List ℕ, (l.flatMap (m.reportOf (base + u.1))).length ≤
      m.hashLengths.seqMatches * l.length := by
    intro l
    induction l with
    | nil => simp
    | cons id l ih =>
      have := length_reportOf_le hs (base + u.1) id
      rw [List.flatMap_cons, List.length_append, List.length_cons, Nat.mul_succ]
      omega
  -- the expected block and the blocks of the lookup are different copies of one block
  have hclass : ((m.plainHint H data u.1 u.2).toList ++
      m.plainHits H ids data u.1 (m.plainHint H data u.1 u.2)).length ≤ m.maxCopies := by
    refine length_le_maxCopies (H := H) (r := calcRsumBlock (window data u.1 m.blocksize))
      (w := window data u.1 m.blocksize) ?_ ?_ ?_
    · refine List.Nodup.append (by cases m.plainHint H data u.1 u.2 <;> simp)
        (hm.table.nodup.filter _) ?_
      intro id hhint hid
      simp only [Option.mem_toList] at hhint
      simp [hhint, plainHits, chainHit] at hid
    · intro id hid
      rcases List.mem_append.1 hid with hid | hid
      · exact (sees_of_plainHint hs hu (Option.mem_toList.1 hid)).2.lt
      · exact (sees_of_mem_plainHits hs hm.lt hu hid).1.lt
    · intro id hid
      rcases List.mem_append.1 hid with hid | hid
      · simpa using (sees_of_plainHint hs hu (Option.mem_toList.1 hid)).2.agrees
      · simpa using (sees_of_mem_plainHits hs hm.lt hu hid).1.agrees
  rw [List.length_append] at hclass
  calc (m.plainHint H data u.1 u.2).toList.length + _
      ≤ m.hashLengths.seqMatches * (m.plainHint H data u.1 u.2).toList.length +
          m.hashLengths.seqMatches *
            (m.plainHits H ids data u.1 (m.plainHint H data u.1 u.2)).length :=
        Nat.add_le_add (Nat.le_mul_of_pos_left _ hseq) (hhits _)
    _ ≤ m.hashLengths.seqMatches * m.maxCopies := by
        rw [← Nat.mul_add]
        exact Nat.mul_le_mul_left _ hclass

/-- A test that reports something moves on by a block at least, and none by more than two. -/
theorem span_le (hs : m.Sized) (H : Hashes) (ids : List ℕ) (data : Bytes) (base : ℕ)
    (u : ℕ × Option ℕ) :
    let S := m.plainScanner hs H ids data base
    S.span u ≤ m.context ∧ (S.found u ≠ [] → m.blocksize ≤ S.span u) := by
  have hbs := hs.blocksize_le_context
  have hpos := hs.blocksize_pos
  have htwo : ∀ id, m.inPair id → 2 * m.blocksize ≤ m.context := by
    intro id hid
    simp only [inPair, decide_eq_true_eq] at hid
    have := hs.context_eq hid.1
    omega
  dsimp only
  rw [plainScanner_span, plainScanner_found, plainSpan]
  cases m.plainHint H data u.1 u.2 with
  | some id => simpa using hbs
  | none =>
    cases m.plainHits H ids data u.1 none with
    | nil => simpa using Nat.succ_le_of_lt (hpos.trans_le hbs)
    | cons id rest =>
      by_cases hid : m.inPair id
      · simpa [hid] using ⟨htwo id hid, fun _ => by omega⟩
      · simpa [hid] using hbs

/-- **The candidate list** of every reachable matcher is linear in the data, by a factor of the
largest number of copies of one block; when the stored checksums tell all blocks apart it is at most
the data. -/
theorem length_scanChunk_le (hcf : cf.Checked) (hm : Reachable H cf m ids) (data : Bytes)
    (base : ℕ) : (m.scanChunk H data base).length * m.blocksize ≤
        m.hashLengths.seqMatches * m.maxCopies * data.length ∧
      (m.maxCopies ≤ 1 → (m.scanChunk H data base).length ≤ 2 * (m.totalBlocks + data.length)) := by
  have hs := hm.sized hcf
  have hind := (hm.indexed hcf).1
  have hlinear : (m.scanChunk H data base).length * m.blocksize ≤
      m.hashLengths.seqMatches * m.maxCopies * data.length := by
    rw [scanChunk_eq hs hind]
    rcases Nat.lt_or_ge data.length m.context with hlt | hge
    · rw [Scanner.reports_of_le _ (by simp; omega)]
      simp
    · refine (Scanner.length_reports_le _ (c := m.context) (fun v _ => (span_le hs _ _ _ _ v).1)
        (fun v hv => ?_) (0, none)).trans_eq (by rw [Nat.sub_zero, Nat.sub_add_cancel hge])
      obtain ⟨-, hspan⟩ := span_le hs H ids data base v
      by_cases hnil : (m.plainScanner hs H ids data base).found v = []
      · simp [hnil]
      · exact Nat.mul_le_mul (length_found_le hs hind (by omega)) (hspan hnil)
  refine ⟨hlinear, fun hone => ?_⟩
  calc (m.scanChunk H data base).length
      ≤ (m.scanChunk H data base).length * m.blocksize := Nat.le_mul_of_pos_right _ hs.blocksize_pos
    _ ≤ m.hashLengths.seqMatches * m.maxCopies * data.length := hlinear
    _ ≤ 2 * 1 * data.length :=
      Nat.mul_le_mul_right _ (Nat.mul_le_mul hs.hashLengths.seq_le_two hone)
    _ ≤ 2 * (m.totalBlocks + data.length) := by omega

/-- Two different blocks, and a list of both. -/
theorem length_scanChunk_le_pair :
    (new pairControl).maxCopies = 1 ∧
      ((new pairControl).scanChunk pairHashes [1, 2, 3, 4, 0, 0, 0, 0] 0).length ≤ 2 * (2 + 8) := by
  have hone : (new pairControl).maxCopies = 1 := by decide
  exact ⟨hone, (length_scanChunk_le (H := pairHashes) pairControl_checked Reachable.new
    [1, 2, 3, 4, 0, 0, 0, 0] 0).2 hone.le⟩

/-- A zero-filled target of ten blocks, scanned for ten zero bytes: each of the nine tested offsets
lists all ten blocks. -/
theorem length_scanChunk_zeros :
    let cf := zeroBlocks ⟨1, 2, 3⟩ 10
    ControlFile.parse (ControlFile.write cf) = .ok cf ∧
      cf.DescribesTarget ControlFile.zeroHashes (List.replicate 10 0) ∧
      ((new cf).scanChunk ControlFile.zeroHashes (List.replicate 10 0) 0).length = 90 ∧
      ¬ ((new cf).scanChunk ControlFile.zeroHashes (List.replicate 10 0) 0).length ≤
        2 * ((new cf).totalBlocks + (List.replicate 10 (0 : UInt8)).length) := by
  refine ⟨by decide +kernel, ⟨rfl, rfl⟩, ?_⟩
  have hlen : ((new (zeroBlocks ⟨1, 2, 3⟩ 10)).scanChunk ControlFile.zeroHashes
      (List.replicate 10 0) 0).length = 90 := by decide +kernel
  rw [hlen]
  decide

/-! ### One sighting for every copy -/

theorem Sees.copy {i j o base : ℕ} (h : m.Sees H data base i o) (hij : m.sameBlock i j)
    (hj : j < m.targets.length) : m.Sees H data base j o :=
  ⟨h.base_le, h.inside, hj, agrees_copy (H := H) hij _ _ ▸ h.agrees⟩

section Copies

variable (hs : m.Sized) (hall : ∀ id < m.targets.length, id ∈ ids)
include hall

theorem mem_found_copy (hseq : ¬ 1 < m.hashLengths.seqMatches) {base : ℕ}
    {u : ℕ × Option ℕ} {i j o : ℕ} (hij : m.sameBlock i j) (hj : j < m.targets.length)
    (h : (i, o) ∈ (m.plainScanner hs H ids data base).found u) :
    (j, base + u.1) ∈ (m.plainScanner hs H ids data base).found u := by
  have hlone : ∀ id, ¬ m.inPair id := by simp [inPair, hseq]
  have hhint : m.plainHint H data u.1 u.2 = none := by simp [plainHint, hseq]
  rw [plainScanner_found, hhint] at h
  simp only [Option.toList_none, List.map_nil, List.nil_append, List.mem_flatMap, reportOf, hlone,
    if_false, List.mem_singleton, Prod.mk.injEq, Bool.false_eq_true] at h
  obtain ⟨id, hid, rfl, -⟩ := h
  obtain ⟨-, -, hagrees, -⟩ := mem_plainHits_iff.1 hid
  have hmem : j ∈ m.plainHits H ids data u.1 (m.plainHint H data u.1 u.2) :=
    mem_plainHits_iff.2 ⟨hall j hj, by simp [hhint], agrees_copy (H := H) hij _ _ ▸ hagrees,
      fun hp => absurd hp (hlone j), Or.inr (Or.inl hseq)⟩
  exact (mem_found_of_hit hs hmem).1

end Copies

/-- **The copy of a pair.**  Blocks `j` and `j + 1` are at offset `x`, one behind the other.  A
reading finds the second one there when it comes to `x`, unless it expects block `j` and ends before
the second block, or when it comes to the second block and expects it there or can read it without
that. -/
theorem finds_copy_iff (start stop : ℕ) {j x : ℕ} (hpair : m.inPair j) (hj : j ∈ ids)
    (hfirst : m.Sees H data 0 j x) (hsecond : m.Sees H data 0 (j + 1) (x + m.blocksize)) :
    m.Finds H ids data start stop (j + 1) (x + m.blocksize) ↔
      (∃ e, m.Reads H ids data start stop x e ∧ (e = some j → x + m.blocksize < stop)) ∨
        ∃ e, m.Reads H ids data start stop (x + m.blocksize) e ∧
          (e = some (j + 1) ∨ m.Legible H ids data (x + m.blocksize) (j + 1)) := by
  constructor
  · rintro ⟨z, e, hreads, hshows⟩
    generalize hb : j + 1 = b at hshows
    generalize hy : x + m.blocksize = y at hshows
    cases hshows with
    | awaited heq _ => exact Or.inr ⟨e, hreads, Or.inl heq⟩
    | legible hlegible => exact Or.inr ⟨e, hreads, Or.inr hlegible⟩
    | @second a hne _ _ =>
      obtain rfl : j = a := Nat.succ.inj hb
      obtain rfl : x = z := Nat.add_right_cancel hy
      exact Or.inl ⟨e, hreads, fun heq => absurd heq hne⟩
  · rintro (⟨e, hreads, hends⟩ | ⟨e, hreads, heq | hlegible⟩)
    · by_cases heq : e = some j
      · -- the expected block is read alone, and the second one is expected behind it
        subst heq
        have hnext : m.after j = some (j + 1) := if_pos hsecond.lt
        exact ⟨_, _, hreads.next (.awaited hfirst) (hends rfl), .awaited hnext hsecond⟩
      · exact ⟨x, e, hreads, .second heq ⟨hj, hfirst, fun _ => hsecond, Or.inl hpair⟩ hpair⟩
    · exact ⟨_, e, hreads, .awaited heq hsecond⟩
    · exact ⟨_, e, hreads, .legible hlegible⟩

/-- **One sighting for every copy.**  After an unsplit scan by a new matcher, where blocks are
matched alone, every copy of a block that was found is known.  Where pairs are matched, and block
`i + 1` was found behind block `i`, which was at offset `x`, the copy `j + 1` behind a copy `j` is
known exactly when a reading of the data comes to `x`, so that it does not pass over this offset as
the second half of a pair (and does not end with the copy `j`, as the block that it expects there);
or comes to the block behind, and expects the copy there or can read it without that; or finds the
copy at another offset. -/
theorem copies_known_iff (hcf : cf.Checked) (H : Hashes) (data : Bytes) (offset : ℕ) :
    let m := new cf
    let r := (m.submitSourceData H 1 data offset).1
    let all := List.range cf.blockChecksums.length
    let stop := data.length - m.context
    (m.hashLengths.seqMatches = 1 → ∀ i o, (i, o) ∈ m.scanChunk H data offset →
        ∀ j < m.totalBlocks, m.sameBlock i j → r.isBlockKnown j) ∧
      (m.hashLengths.seqMatches = 2 → ∀ i x, (i, offset + x) ∈ m.scanChunk H data offset →
        (i + 1, offset + (x + m.blocksize)) ∈ m.scanChunk H data offset →
        ∀ j, j + 1 < m.totalBlocks → m.sameBlock i j → m.sameBlock (i + 1) (j + 1) →
          (r.isBlockKnown (j + 1) ↔
            (∃ e, m.Reads H all data 0 stop x e ∧ (e = some j → x + m.blocksize < stop)) ∨
            (∃ e, m.Reads H all data 0 stop (x + m.blocksize) e ∧
              (e = some (j + 1) ∨ m.Legible H all data (x + m.blocksize) (j + 1))) ∨
            ∃ y, y ≠ x + m.blocksize ∧ m.Finds H all data 0 stop (j + 1) y)) := by
  have hs := sized_new hcf
  obtain ⟨hm, hshape⟩ := indexed_new hcf.count_le
  have hscan := scanChunk_eq (H := H) hs hm data offset
  have hall : ∀ id < (new cf).targets.length, id ∈ List.range cf.blockChecksums.length :=
    fun id hid => List.mem_range.2 (length_targets hshape ▸ hid)
  refine ⟨fun hseq i o hi j hj hij => ?_, fun hseq i x hi hnext j hj hij hij' => ?_⟩
  · rw [hscan, Scanner.reports, List.mem_flatMap] at hi
    obtain ⟨u, hu, hfound⟩ := hi
    have hmem := mem_found_copy hs hall (by omega) hij hj hfound
    rw [isBlockKnown_scan_new hcf, hscan]
    exact ⟨offset + u.1, List.mem_flatMap.2 ⟨u, hu, hmem⟩⟩
  · have hfirst := (scanChunk_sees hs hm hi).unshift.copy hij (Nat.lt_of_succ_lt hj)
    have hsecond := (scanChunk_sees hs hm hnext).unshift.copy hij' hj
    have hpair : (new cf).inPair j := decide_eq_true ⟨by omega, hj⟩
    have hknown : ((new cf).submitSourceData H 1 data offset).1.isBlockKnown (j + 1) ↔
        ∃ y, (new cf).Finds H (List.range cf.blockChecksums.length) data 0
          (data.length - (new cf).context) (j + 1) y :=
      (isBlockKnown_scan_new hcf).trans (exists_mem_scanChunk_iff hcf)
    have hhere := finds_copy_iff 0 (data.length - (new cf).context) hpair
      (hall j (Nat.lt_of_succ_lt hj)) hfirst hsecond
    rw [hknown, ← or_assoc, ← hhere]
    constructor
    · rintro ⟨y, hfinds⟩
      by_cases hy : y = x + (new cf).blocksize
      · exact Or.inl (hy ▸ hfinds)
      · exact Or.inr ⟨y, hy, hfinds⟩
    · rintro (hfinds | ⟨y, -, hfinds⟩)
      · exact ⟨_, hfinds⟩
      · exact ⟨y, hfinds⟩

/-- The MD4 digests of some single bytes. -/
def byteHashes : Hashes where
  md4 w :=
    match w with
    | [1] => ⟨[0x33, 0xf9, 0xa9, 0xfb, 0xd9, 0x3e, 0xcc, 0xa0,
        0x18, 0xb0, 0x38, 0x7a, 0x4a, 0x6a, 0xec, 0x5d], rfl⟩
    | [2] => ⟨[0x57, 0x25, 0x92, 0x82, 0xe4, 0x0a, 0xd5, 0x32,
        0x2d, 0xc5, 0x09, 0x1e, 0x2b, 0xe4, 0x38, 0xd7], rfl⟩
    | [3] => ⟨[0x7a, 0x71, 0xb8, 0x3f, 0xcd, 0x0c, 0xaf, 0x6f,
        0xd7, 0x7d, 0xe7, 0x57, 0x3b, 0x0d, 0x24, 0xab], rfl⟩
    | [4] => ⟨[0xac, 0x9c, 0xc0, 0x0b, 0x3b, 0x00, 0xb4, 0x64,
        0x27, 0xd1, 0x8a, 0x37, 0x80, 0x2e, 0x89, 0x11], rfl⟩
    | [5] => ⟨[0xf8, 0x8a, 0xa7, 0x43, 0x1c, 0x1f, 0x7d, 0x01,
        0xed, 0x17, 0x1c, 0x1d, 0xa5, 0x39, 0x95, 0xba], rfl⟩
    | _ => ⟨[0x7b, 0x94, 0x53, 0xb4, 0x43, 0xb1, 0x9d, 0xab,
        0xd2, 0x4c, 0x29, 0x4a, 0x1c, 0xd6, 0x8b, 0x60], rfl⟩
  sha1 _ := .replicate 20 0

/-- The control file of some single bytes, matched in pairs. -/
def byteBlocks (T : Bytes) : ControlFile where
  version := "0.6.2"
  filename := none
  mtime := none
  blocksize := 1
  length := T.length
  hashLengths := ⟨2, 2, 3⟩
  urls := ["u"]
  sha1 := none
  blockChecksums := (List.range T.length).map fun i => BlockChecksum.stored ⟨2, 2, 3⟩
    ⟨calcRsumBlock (targetBlock T 1 i), byteHashes.md4 (targetBlock T 1 i)⟩

theorem byteBlocks_checked {T : Bytes} (h : T.length ≤ maxBlocks) : (byteBlocks T).Checked := by
  have hvalid : (⟨2, 2, 3⟩ : HashLengths).Valid :=
    ⟨by decide, by decide, by decide, by decide, by decide, by decide⟩
  refine ⟨⟨0, rfl⟩, ?_, hvalid, ?_, ?_⟩
  · exact (by decide : 1 ≤ maxBlocksize)
  · simp [byteBlocks, ControlFile.numBlocks]
  · simpa [byteBlocks] using h

/-- The bytes 2 and 3 are repeated.  The reading passes over the first of them, and comes to the
second one, where the data goes on with the byte that follows the second copy. -/
theorem copies_known_iff_bytes :
    ((new (byteBlocks [1, 2, 3, 4, 2, 3, 5])).submitSourceData byteHashes 1 [1, 2, 3, 5, 9, 9]
      0).1.isBlockKnown 5 := by
  obtain ⟨-, hpairs⟩ := copies_known_iff
    (byteBlocks_checked (T := [1, 2, 3, 4, 2, 3, 5]) (by decide)) byteHashes [1, 2, 3, 5, 9, 9] 0
  refine (hpairs (by decide) 1 1 (by decide) (by decide) 4 (by decide) (by decide) (by decide)).2
    (Or.inr (Or.inl ⟨some 2, ?_, Or.inr ?_⟩))
  · have hlegible : (new (byteBlocks [1, 2, 3, 4, 2, 3, 5])).Legible byteHashes (List.range 7)
        [1, 2, 3, 5, 9, 9] 0 0 :=
      ⟨by decide, ⟨by decide, by decide, by decide, by decide⟩,
        fun _ => ⟨by decide, by decide, by decide, by decide⟩, by decide⟩
    exact (Reads.start (by decide)).next (.pair (fun _ h => nomatch h) hlegible
      (fun a ha => absurd ha (Nat.not_lt_zero a)) (by decide)) (by decide)
  · exact ⟨by decide, ⟨by decide, by decide, by decide, by decide⟩,
      fun _ => ⟨by decide, by decide, by decide, by decide⟩, by decide⟩

/-- The data goes on with another byte: block 2 continues the pair of blocks 0 and 1, and block 5,
which has the checksums of block 2 and a predecessor with those of block 1, stays unknown. -/
theorem copy_unknown :
    let cf := byteBlocks [1, 2, 3, 4, 2, 3, 5]
    let r := (new cf).submitSourceData byteHashes 1 [1, 2, 3, 9, 9, 9] 0
    ControlFile.parse (ControlFile.write cf) = .ok cf ∧
      cf.DescribesTarget byteHashes [1, 2, 3, 4, 2, 3, 5] ∧
      r.2 = [(0, 0), (1, 1), (2, 2)] ∧
      (new cf).sameBlock 2 5 ∧ (new cf).sameBlock 1 4 ∧ r.1.isBlockKnown 5 = false := by
  exact ⟨by decide +kernel, ⟨rfl, rfl⟩, by decide +kernel, by decide +kernel, by decide +kernel,
    by decide⟩

end BlockMatcher

end Zsync
