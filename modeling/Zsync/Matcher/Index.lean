import Zsync.Matcher.Scan

/-!
# The index

What the hash table and the bit filter hold, and what a lookup finds.

* `BlockMatcher.Indexed` : the index holds the blocks `ids`, each bucket in ascending order;
* `BlockMatcher.indexed_new`, `BlockMatcher.Indexed.removeBlockFromHash` : a new matcher indexes
  every block, and a block that is found leaves the index;
* `BlockMatcher.chainTest` : the test of one block at one offset;
* `BlockMatcher.matchChain_eq` : the lookup finds the indexed blocks that pass the test, in
  ascending order, whatever their bucket.
-/

namespace Zsync

namespace BlockMatcher

/-! ### What never changes -/

/-- The fields that no operation on a matcher changes. -/
def shape (m : BlockMatcher) : BlockMatcher :=
  { m with knownBlocks := [], knownCount := 0, hashTable := [], hashNext := [], bithash := [] }

@[simp] theorem shape_markKnown (m : BlockMatcher) (id : ℕ) : (m.markKnown id).shape = m.shape := by
  unfold markKnown
  split_ifs <;> rfl

@[simp] theorem shape_removeBlockFromHash (m : BlockMatcher) (id : ℕ) :
    (m.removeBlockFromHash id).shape = m.shape := rfl

@[simp] theorem shape_insertBlock (m : BlockMatcher) (id : ℕ) :
    (m.insertBlock id).shape = m.shape := rfl

theorem targets_congr {m m' : BlockMatcher} (h : m.shape = m'.shape) : m.targets = m'.targets := by
  change m.shape.targets = m'.shape.targets
  rw [h]

theorem length_targets {m : BlockMatcher} {cf : ControlFile} (h : m.shape = (unindexed cf).shape) :
    m.targets.length = cf.blockChecksums.length := by
  rw [targets_congr h]
  exact List.length_map _

theorem blocksize_congr {m m' : BlockMatcher} (h : m.shape = m'.shape) :
    m.blocksize = m'.blocksize := by
  change m.shape.blocksize = m'.shape.blocksize
  rw [h]

theorem hashLengths_congr {m m' : BlockMatcher} (h : m.shape = m'.shape) :
    m.hashLengths = m'.hashLengths := by
  change m.shape.hashLengths = m'.shape.hashLengths
  rw [h]

theorem context_of_shape {m : BlockMatcher} {cf : ControlFile}
    (h : m.shape = (unindexed cf).shape) :
    m.context = cf.blocksize * cf.hashLengths.seqMatches := by
  rw [context, blocksize_congr h, hashLengths_congr h]
  rfl

theorem blockshift_congr {m m' : BlockMatcher} (h : m.shape = m'.shape) :
    m.blockshift = m'.blockshift := by
  change m.shape.blockshift = m'.shape.blockshift
  rw [h]

/-! ### The invariant -/

/-- The index holds the blocks `ids`. -/
structure Indexed (m : BlockMatcher) (ids : List ℕ) : Prop where
  sorted : ids.Pairwise (· < ·)
  lt : ∀ id ∈ ids, id < m.targets.length
  next_length : m.hashNext.length = m.targets.length
  bucket_lt : ∀ h, m.bucket h < m.hashTable.length
  filterByte_lt : ∀ h, m.filterByte h < m.bithash.length
  table : Chain.Holds hashEmpty m.hashTable m.hashNext (fun id => m.bucket (m.calcHash id)) ids
  filter : ∀ id ∈ ids, m.inFilter (m.calcHash id)

theorem Indexed.length_le {m : BlockMatcher} {ids : List ℕ} (h : m.Indexed ids) :
    ids.length ≤ m.targets.length := by
  have hsub : ids ⊆ List.range m.targets.length := fun id hid => List.mem_range.2 (h.lt id hid)
  simpa using (List.subperm_of_subset h.table.nodup hsub).length_le

theorem Indexed.markKnown {m : BlockMatcher} {ids : List ℕ} (h : m.Indexed ids) (id : ℕ) :
    (m.markKnown id).Indexed ids := by
  unfold BlockMatcher.markKnown
  split_ifs
  · exact h
  · exact ⟨h.sorted, h.lt, h.next_length, h.bucket_lt, h.filterByte_lt, h.table, h.filter⟩

/-- **A found block leaves the index**, and the others stay. -/
theorem Indexed.removeBlockFromHash {m : BlockMatcher} {ids : List ℕ} (h : m.Indexed ids) (id : ℕ) :
    (m.removeBlockFromHash id).Indexed (ids.filter (· ≠ id)) := by
  obtain ⟨htable, hheads, hnext⟩ := h.table.unlink id h.length_le (h.bucket_lt _)
    (Prod.mk.eta (p := Chain.unlinkFrom hashEmpty m.hashTable m.hashNext
      (m.bucket (m.calcHash id)) id m.targets.length hashEmpty
      (m.hashTable.getD (m.bucket (m.calcHash id)) hashEmpty))).symm
  exact ⟨h.sorted.filter _, fun i hi => h.lt i (List.mem_of_mem_filter hi),
    hnext.trans h.next_length, fun k => hheads.symm ▸ h.bucket_lt k, h.filterByte_lt, htable,
    fun i hi => h.filter i (List.mem_of_mem_filter hi)⟩

/-! ### The bit filter -/

theorem or_and_distrib (b s t : UInt8) : (b ||| s) &&& t = b &&& t ||| s &&& t := by
  apply UInt8.toNat_inj.1
  simp only [UInt8.toNat_and, UInt8.toNat_or, Nat.and_or_distrib_right]

theorem or_and_ne_zero {b t : UInt8} (s : UInt8) (h : b &&& t ≠ 0) : (b ||| s) &&& t ≠ 0 := by
  rw [or_and_distrib, ne_eq, UInt8.or_eq_zero_iff]
  exact fun hz => h hz.1

theorem filterBit_ne_zero (m : BlockMatcher) (h : UInt32) : m.filterBit h ≠ 0 := by
  have hall : ∀ k : Fin 8, (1 : UInt8) <<< UInt8.ofNat k ≠ 0 := by decide
  exact hall ⟨_, Nat.mod_lt _ (by decide)⟩

/-- A block just inserted passes the filter, and so does every hash that passed before. -/
theorem inFilter_insertBlock {m : BlockMatcher} {id : ℕ} {h : UInt32}
    (hlt : m.filterByte (m.calcHash id) < m.bithash.length)
    (hh : h = m.calcHash id ∨ m.inFilter h) : (m.insertBlock id).inFilter h := by
  have hbyte : (m.insertBlock id).bithash.getD (m.filterByte h) 0 =
      if m.filterByte h = m.filterByte (m.calcHash id) then
        m.bithash.getD (m.filterByte h) 0 ||| m.filterBit (m.calcHash id)
      else m.bithash.getD (m.filterByte h) 0 := by
    simp only [insertBlock, List.getD_eq_getElem?_getD, List.getElem?_set]
    by_cases heq : m.filterByte h = m.filterByte (m.calcHash id)
    · simp [heq, hlt]
    · simp [heq, Ne.symm heq]
  change decide ((m.insertBlock id).bithash.getD (m.filterByte h) 0 &&& m.filterBit h ≠ 0) = true
  rw [hbyte, decide_eq_true_iff]
  rcases hh with rfl | hh
  · rw [if_pos rfl, or_and_distrib, UInt8.and_self, ne_eq, UInt8.or_eq_zero_iff]
    exact fun hz => filterBit_ne_zero _ _ hz.2
  · have hold : m.bithash.getD (m.filterByte h) 0 &&& m.filterBit h ≠ 0 := by
      simpa [inFilter] using hh
    split_ifs
    · exact or_and_ne_zero _ hold
    · exact hold

/-! ### A new index -/

theorem Indexed.insertBlock {m : BlockMatcher} {ids : List ℕ} (h : m.Indexed ids) (id : ℕ)
    (hlt : id < m.targets.length) (hmin : ∀ i ∈ ids, id < i)
    (hsmall : m.targets.length ≤ maxBlocks) : (m.insertBlock id).Indexed (id :: ids) := by
  have hnil : id ≠ hashEmpty := by
    have : maxBlocks < hashEmpty := by decide
    omega
  have hnot : id ∉ ids := fun hid => lt_irrefl _ (hmin id hid)
  refine ⟨List.pairwise_cons.2 ⟨hmin, h.sorted⟩, ?_, ?_, ?_, ?_, ?_, ?_⟩
  · simpa [BlockMatcher.insertBlock] using ⟨hlt, h.lt⟩
  · simpa [BlockMatcher.insertBlock] using h.next_length
  · intro k
    change m.bucket k < (m.hashTable.set _ _).length
    rw [List.length_set]
    exact h.bucket_lt k
  · intro k
    change m.filterByte k < (m.bithash.set _ _).length
    rw [List.length_set]
    exact h.filterByte_lt k
  · exact h.table.insert hnot hnil (h.next_length ▸ hlt) (h.bucket_lt _)
  · intro i hi
    refine inFilter_insertBlock (h.filterByte_lt _) ?_
    rcases List.mem_cons.1 hi with rfl | hi
    · exact Or.inl rfl
    · exact Or.inr (h.filter i hi)

theorem toNat_and_mask_lt (h : UInt32) (bits : ℕ) :
    (h &&& UInt32.ofNat (2 ^ bits - 1)).toNat < 2 ^ bits := by
  have hpos := Nat.two_pow_pos bits
  have hle : (h &&& UInt32.ofNat (2 ^ bits - 1)).toNat ≤ (2 ^ bits - 1) % 2 ^ 32 := by
    rw [UInt32.toNat_and, UInt32.toNat_ofNat']
    exact Nat.and_le_right
  have := Nat.mod_le (2 ^ bits - 1) (2 ^ 32)
  omega

theorem indexed_unindexed (cf : ControlFile) : (unindexed cf).Indexed [] := by
  refine ⟨List.Pairwise.nil, by simp, by simp [unindexed], fun h => ?_, fun h => ?_,
    Chain.holds_nil _ _ _ _, by simp⟩
  · simpa [unindexed, bucket] using toNat_and_mask_lt h _
  · have := toNat_and_mask_lt h (bithashBitsTotal cf.hashLengths cf.blockChecksums.length)
    simp only [unindexed, filterByte, List.length_replicate]
    omega

/-- **A new matcher** indexes every block. -/
theorem indexed_new {cf : ControlFile} (hsmall : cf.blockChecksums.length ≤ maxBlocks) :
    (new cf).Indexed (List.range cf.blockChecksums.length) ∧
      (new cf).shape = (unindexed cf).shape := by
  -- the blocks from `k` on are already in the index
  have hfold : ∀ k m, k ≤ cf.blockChecksums.length → m.shape = (unindexed cf).shape →
      m.Indexed (List.range' k (cf.blockChecksums.length - k)) →
      ((List.range k).reverse.foldl insertBlock m).Indexed (List.range cf.blockChecksums.length) ∧
        ((List.range k).reverse.foldl insertBlock m).shape = (unindexed cf).shape := by
    intro k
    induction k with
    | zero =>
      intro m _ hshape hm
      rw [Nat.sub_zero, ← List.range_eq_range'] at hm
      exact ⟨hm, hshape⟩
    | succ k ih =>
      intro m hk hshape hm
      have htargets := length_targets hshape
      rw [List.range_succ, List.reverse_append, List.reverse_singleton, List.singleton_append,
        List.foldl_cons]
      refine ih _ (by omega) hshape ?_
      have hins := hm.insertBlock k (by omega)
        (fun i hi => by have := (List.mem_range'_1.1 hi).1; omega) (by omega)
      rwa [← List.range'_succ, show cf.blockChecksums.length - (k + 1) + 1 =
        cf.blockChecksums.length - k by omega] at hins
  refine hfold _ _ le_rfl rfl ?_
  rw [Nat.sub_self]
  exact indexed_unindexed cf

/-! ### Lookups -/

variable {m : BlockMatcher} {H : Hashes}

/-- Whether a window with rolling checksum `r` is target block `id`, on the stored bytes. -/
def agrees (m : BlockMatcher) (H : Hashes) (id : ℕ) (r : Rsum) (w : Bytes) : Bool :=
  m.rsumMatch (m.target id).rsum r && m.sameChecksum (H.md4 w) (m.target id).checksum

/-- Whether a match of block `id` must be confirmed by the next block. -/
def inPair (m : BlockMatcher) (id : ℕ) : Bool :=
  1 < m.hashLengths.seqMatches ∧ id + 1 < m.targets.length

/-- The test of block `id` by the two windows at an offset. -/
def chainTest (m : BlockMatcher) (H : Hashes) (r0 r1 : Rsum) (w0 w1 : Bytes) (id : ℕ) : Bool :=
  m.agrees H id r0 w0 && (!m.inPair id || m.agrees H (id + 1) r1 w1)

/-- Whether a lookup of the two windows comes across block `id` at all. -/
def looksUp (m : BlockMatcher) (r0 r1 : Rsum) (id : ℕ) : Bool :=
  m.inFilter (m.calcHashRolling r0 r1) &&
    m.bucket (m.calcHash id) = m.bucket (m.calcHashRolling r0 r1)

/-- What a match of block `id` at `offset` reports. -/
def reportOf (m : BlockMatcher) (offset id : ℕ) : List (ℕ × ℕ) :=
  if m.inPair id then [(id, offset), (id + 1, offset + m.blocksize)] else [(id, offset)]

theorem eq_or_eq_of_mem_reportOf {m : BlockMatcher} {offset id : ℕ} {p : ℕ × ℕ}
    (h : p ∈ m.reportOf offset id) : p = (id, offset) ∨ p = (id + 1, offset + m.blocksize) := by
  unfold reportOf at h
  split_ifs at h
  · rcases List.mem_cons.1 h with rfl | h
    · exact Or.inl rfl
    · exact Or.inr (List.mem_singleton.1 h)
  · exact Or.inl (List.mem_singleton.1 h)

/-- How many blocks a match of block `id` covers, and the block expected to follow. -/
def coverOf (m : BlockMatcher) (id : ℕ) : ℕ × Option ℕ :=
  if m.inPair id then
    (m.hashLengths.seqMatches, if id + 2 < m.targets.length then some (id + 2) else none)
  else (1, none)

/-- A block that passes the test has the hash of the windows, unless it is a last block that
pairs would have to confirm. -/
theorem calcHash_eq_of_chainTest {r0 r1 : Rsum} {w0 w1 : Bytes} {id : ℕ}
    (h : m.chainTest H r0 r1 w0 w1 id) (hp : m.inPair id ∨ ¬ 1 < m.hashLengths.seqMatches) :
    m.calcHash id = m.calcHashRolling r0 r1 := by
  simp only [chainTest, agrees, rsumMatch, Bool.and_eq_true, Bool.or_eq_true, Bool.not_eq_true',
    decide_eq_true_eq] at h
  obtain ⟨⟨⟨ha, hb⟩, -⟩, hnext⟩ := h
  rcases hp with hp | hp
  · have hp' := hp
    simp only [inPair, decide_eq_true_eq] at hp'
    rw [hp] at hnext
    simp only [Bool.true_eq_false, false_or] at hnext
    simp only [calcHash, calcHashRolling, hp'.1, hp'.2, if_true, hb, hnext.1.2]
  · simp only [calcHash, calcHashRolling, hp, if_false, ha, hb]

/-- The digests that are carried along a bucket are those of the two windows. -/
def ChainState.Cached (H : Hashes) (w0 w1 : Bytes) (s : ChainState) : Prop :=
  (∀ c ∈ s.checksum, c = H.md4 w0) ∧ ∀ c ∈ s.nextChecksum, c = H.md4 w1

theorem ChainState.Cached.getD {w0 w1 : Bytes} {s : ChainState} (h : s.Cached H w0 w1) :
    s.checksum.getD (H.md4 w0) = H.md4 w0 ∧ s.nextChecksum.getD (H.md4 w1) = H.md4 w1 := by
  constructor
  · cases hc : s.checksum with
    | none => rfl
    | some c => exact h.1 c hc
  · cases hc : s.nextChecksum with
    | none => rfl
    | some c => exact h.2 c hc

/-- Whether the test of block `id` finds it, when block `matched` is skipped. -/
def chainHit (m : BlockMatcher) (H : Hashes) (r0 r1 : Rsum) (w0 w1 : Bytes) (matched : Option ℕ)
    (id : ℕ) : Bool :=
  matched ≠ some id && m.chainTest H r0 r1 w0 w1 id

section Chain

variable (m : BlockMatcher) (H : Hashes) (data : Bytes) (x base : ℕ) (r0 r1 : Rsum)
  (matched : Option ℕ)

theorem chainStep_cached {s : ChainState} (id : ℕ)
    (hs : s.Cached H (window data x m.blocksize) (window data (x + m.blocksize) m.blocksize)) :
    (m.chainStep H data x r0 r1 base matched s id).Cached H (window data x m.blocksize)
      (window data (x + m.blocksize) m.blocksize) := by
  obtain ⟨hsum, hnext⟩ := hs.getD
  unfold chainStep
  simp only [hsum, hnext]
  split_ifs <;> first
    | exact hs
    | exact ⟨by simp, hs.2⟩
    | exact ⟨by simp, by simp⟩

theorem chainStep_eq {s : ChainState} (id : ℕ)
    (hs : s.Cached H (window data x m.blocksize) (window data (x + m.blocksize) m.blocksize)) :
    let hit := m.chainHit H r0 r1 (window data x m.blocksize)
      (window data (x + m.blocksize) m.blocksize) matched id
    (m.chainStep H data x r0 r1 base matched s id).matchedBlocks =
        s.matchedBlocks ++ (if hit then m.reportOf (base + x) id else []) ∧
      (m.chainStep H data x r0 r1 base matched s id).first =
        s.first.or (if hit then some (m.coverOf id) else none) := by
  obtain ⟨hsum, hnext⟩ := hs.getD
  unfold chainStep
  simp only [hsum, hnext]
  by_cases hskip : matched = some id
  · simp [hskip, chainHit]
  by_cases hr0 : m.rsumMatch (m.target id).rsum r0
  swap
  · simp [hr0, chainHit, chainTest, agrees]
  by_cases hpair : 1 < m.hashLengths.seqMatches ∧ id + 1 < m.targets.length
  · by_cases hr1 : m.rsumMatch (m.target (id + 1)).rsum r1
    swap
    · simp [hskip, hr0, hr1, hpair, chainHit, chainTest, agrees, inPair]
    by_cases hc0 : m.sameChecksum (H.md4 (window data x m.blocksize)) (m.target id).checksum
    swap
    · simp [hskip, hr0, hr1, hpair, hc0, chainHit, chainTest, agrees]
    by_cases hc1 : m.sameChecksum (H.md4 (window data (x + m.blocksize) m.blocksize))
        (m.target (id + 1)).checksum <;>
      simp [hskip, hr0, hr1, hpair, hc0, hc1, chainHit, chainTest, agrees, inPair,
        reportOf, coverOf]
  · by_cases hc0 : m.sameChecksum (H.md4 (window data x m.blocksize)) (m.target id).checksum <;>
      simp [hskip, hr0, hpair, hc0, chainHit, chainTest, agrees, inPair, reportOf, coverOf]

theorem foldl_chainStep_eq (ids : List ℕ) {s : ChainState}
    (hs : s.Cached H (window data x m.blocksize) (window data (x + m.blocksize) m.blocksize)) :
    let hits := ids.filter (m.chainHit H r0 r1 (window data x m.blocksize)
      (window data (x + m.blocksize) m.blocksize) matched)
    (ids.foldl (m.chainStep H data x r0 r1 base matched) s).matchedBlocks =
        s.matchedBlocks ++ hits.flatMap (m.reportOf (base + x)) ∧
      (ids.foldl (m.chainStep H data x r0 r1 base matched) s).first =
        s.first.or (hits.head?.map m.coverOf) := by
  induction ids generalizing s with
  | nil => simp
  | cons id ids ih =>
    obtain ⟨hblocks, hfirst⟩ := chainStep_eq m H data x base r0 r1 matched id hs
    obtain ⟨ihblocks, ihfirst⟩ := ih (chainStep_cached m H data x base r0 r1 matched id hs)
    simp only [List.foldl_cons, ihblocks, ihfirst, hblocks, hfirst, List.filter_cons]
    split_ifs with hhit
    · simp
    · simp

/-- A lookup comes across every block that the test finds, but for a last block that a pair cannot
confirm. -/
theorem looksUp_of_chainHit {ids : List ℕ} (hm : m.Indexed ids) {id : ℕ} (hid : id ∈ ids)
    {w0 w1 : Bytes} (hhit : m.chainHit H r0 r1 w0 w1 matched id)
    (hp : m.inPair id ∨ ¬ 1 < m.hashLengths.seqMatches) : m.looksUp r0 r1 id := by
  simp only [chainHit, Bool.and_eq_true] at hhit
  have hhash := calcHash_eq_of_chainTest hhit.2 hp
  simpa [looksUp, hhash] using hhash ▸ hm.filter id hid

/-- **The lookup** finds the indexed blocks that pass the test, in ascending order.  Only the last
block of the target, which a pair cannot confirm, depends on the bucket and the filter. -/
theorem matchChain_eq {ids : List ℕ} (hm : m.Indexed ids) {checksum : Option Md4}
    (hc : ∀ c ∈ checksum, c = H.md4 (window data x m.blocksize)) (out : List (ℕ × ℕ)) :
    let hits := ids.filter fun id => m.chainHit H r0 r1 (window data x m.blocksize)
        (window data (x + m.blocksize) m.blocksize) matched id &&
      (m.inPair id || decide (¬ 1 < m.hashLengths.seqMatches) || m.looksUp r0 r1 id)
    m.matchChain H data x r0 r1 base matched checksum out =
      (out ++ hits.flatMap (m.reportOf (base + x)), hits.head?.map m.coverOf) := by
  have hlook : ∀ id ∈ ids, (m.chainHit H r0 r1 (window data x m.blocksize)
        (window data (x + m.blocksize) m.blocksize) matched id &&
      (m.inPair id || decide (¬ 1 < m.hashLengths.seqMatches) || m.looksUp r0 r1 id)) =
      (m.chainHit H r0 r1 (window data x m.blocksize)
        (window data (x + m.blocksize) m.blocksize) matched id && m.looksUp r0 r1 id) := by
    intro id hid
    by_cases hhit : m.chainHit H r0 r1 (window data x m.blocksize)
        (window data (x + m.blocksize) m.blocksize) matched id
    · by_cases hp : m.inPair id ∨ ¬ 1 < m.hashLengths.seqMatches
      · simp [hhit, looksUp_of_chainHit m H r0 r1 matched hm hid hhit hp]
      · simp only [not_or, Bool.not_eq_true, not_not] at hp
        simp [hhit, hp.1, hp.2]
    · simp [hhit]
  simp only [List.filter_congr hlook]
  unfold matchChain
  by_cases hf : m.inFilter (m.calcHashRolling r0 r1)
  · have hwalk := hm.table.walk_eq (hm.bucket_lt (m.calcHashRolling r0 r1)) hm.length_le
    obtain ⟨hblocks, hfirst⟩ := foldl_chainStep_eq m H data x base r0 r1 matched
      (ids.filter fun id => m.bucket (m.calcHash id) = m.bucket (m.calcHashRolling r0 r1))
      (s := ⟨out, none, checksum, none⟩) ⟨hc, by simp⟩
    simp only [hf, not_true_eq_false, if_false, hwalk, hblocks, hfirst, List.filter_filter, looksUp,
      Bool.true_and, Option.none_or]
  · simp [hf, looksUp]

end Chain

end BlockMatcher

end Zsync
