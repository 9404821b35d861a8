import Zsync.Data.Checked
import Zsync.Matcher.Reachable
import Zsync.Control.RoundTrip

/-!
# Widths of the index

`BlockMatcher.new` with every step checked for overflow, and what each stored width compares.

* `BlockMatcher.deriveWidths` : the sizes, masks and shift, or nothing where a step would overflow;
* `BlockMatcher.deriveWidths_eq` : what it derives is what the matcher has;
* `BlockMatcher.arithmeticSafe_iff` : nothing overflows and every index is in its table, but for
  one pair of hash lengths;
* `BlockMatcher.rsumMatch_written_iff` : when a block's own bytes pass its rolling checksum.
-/

namespace Zsync

namespace BlockMatcher

/-- What `new` derives from the hash lengths and the number of blocks. -/
structure Widths where
  hashBits : ℕ
  hashMask : ℕ
  bithashBitsTotal : ℕ
  bithashMask : ℕ
  hashFuncShift : ℕ
  /-- The length of `hash_table`. -/
  tableLength : ℕ
  /-- The length of `bithash`. -/
  bithashLength : ℕ

/-- The loop that lowers `hash_bits`. -/
def deriveHashBits (numBlocks : ℕ) : ℕ → Option ℕ
  | 0 => some 0
  | bits + 1 =>
    if 5 < bits + 1 then do
      let half ← Checked.bit 32 (← Checked.sub (bits + 1) 1)
      if numBlocks < half then deriveHashBits numBlocks bits else some (bits + 1)
    else some (bits + 1)

/-- `avail_bits`. -/
def deriveAvailBits (hl : HashLengths) : Option ℕ := do
  let rsumBits ← Checked.mul 32 hl.rsumBytes 8
  if 1 < hl.seqMatches then Checked.mul 32 (min rsumBits 16) 2 else some rsumBits

/-- `hash_func_shift`. -/
def deriveHashFuncShift (hl : HashLengths) (availBits total : ℕ) : Option ℕ :=
  if 1 < hl.seqMatches ∧ availBits < 24 then some (total - availBits / 2)
  else (Checked.sub availBits 16).map fun bits => total - bits

/-- The first lines of `new`, in the order of the source. -/
def deriveWidths (hl : HashLengths) (numBlocks : ℕ) : Option Widths := do
  let availBits ← deriveAvailBits hl
  let hashBits ← deriveHashBits (numBlocks % 2 ^ 32) availBits
  let hashMask ← Checked.sub (← Checked.bit 32 hashBits) 1
  let bithashBitsTotal := min (← Checked.add 32 hashBits bithashBits) availBits
  let bithashMask ← Checked.sub (← Checked.bit 32 bithashBitsTotal) 1
  let hashFuncShift ← deriveHashFuncShift hl availBits bithashBitsTotal
  let tableLength ← Checked.add 32 hashMask 1
  let filterBits ← Checked.add 32 bithashMask 1
  some ⟨hashBits, hashMask, bithashBitsTotal, bithashMask, hashFuncShift, tableLength,
    filterBits / 8 + 1⟩

/-! ### The bound on the bits -/

variable {hl : HashLengths} {n : ℕ}

theorem availBits_le (h : hl.Valid) : 8 ≤ availBits hl ∧ availBits hl ≤ 32 := by
  have := h.rsum_cases
  unfold availBits
  split_ifs <;> omega

theorem hashBits_le (hn : n ≤ maxBlocks) : ∀ bits, hashBits n bits ≤ 27 ∧ hashBits n bits ≤ bits
  | 0 => ⟨by simp [hashBits], le_rfl⟩
  | bits + 1 => by
    obtain ⟨hcap, hle⟩ := hashBits_le hn bits
    rw [hashBits]
    split_ifs with h
    · exact ⟨hcap, hle.trans (Nat.le_succ _)⟩
    · refine ⟨?_, le_rfl⟩
      by_contra hbig
      have hpow : 2 ^ 27 ≤ 2 ^ bits := Nat.pow_le_pow_right (by decide) (by omega)
      exact h ⟨by omega, lt_of_le_of_lt hn (lt_of_lt_of_le (by decide) hpow)⟩

theorem deriveHashBits_eq : ∀ {bits : ℕ}, bits ≤ 32 → deriveHashBits n bits = some (hashBits n bits)
  | 0, _ => rfl
  | bits + 1, hbits => by
    rw [deriveHashBits, hashBits]
    by_cases h5 : 5 < bits + 1
    · have hsub : Checked.sub (bits + 1) 1 = some bits := Checked.sub_eq (Nat.le_add_left _ _)
      have hbit : Checked.bit 32 bits = some (2 ^ bits) := Checked.bit_eq (by omega)
      simp only [hsub, hbit, h5, if_true, true_and, Option.bind_eq_bind, Option.bind_some]
      split_ifs
      · exact deriveHashBits_eq (by omega)
      · rfl
    · simp [h5]

/-- The subtraction of 16 stays above zero but for one byte of rolling checksum and single
blocks. -/
theorem sixteen_le_availBits (h : hl.Valid) :
    16 ≤ availBits hl ↔ ¬ (hl.seqMatches = 1 ∧ hl.rsumBytes = 1) := by
  have := h.rsum_cases
  have := h.one_le_seq
  unfold availBits
  split_ifs <;> omega

/-- The sizes of a matcher, from the model's own formulas. -/
def widthsOf (hl : HashLengths) (n : ℕ) : Widths where
  hashBits := hashBits n (availBits hl)
  hashMask := 2 ^ hashBits n (availBits hl) - 1
  bithashBitsTotal := bithashBitsTotal hl n
  bithashMask := 2 ^ bithashBitsTotal hl n - 1
  hashFuncShift := hashFuncShiftOf hl n
  tableLength := 2 ^ hashBits n (availBits hl)
  bithashLength := 2 ^ bithashBitsTotal hl n / 8 + 1

theorem deriveAvailBits_eq (h : hl.Valid) : deriveAvailBits hl = some (availBits hl) := by
  have hrsum := h.rsum_cases
  have hrsumBits : Checked.mul 32 hl.rsumBytes 8 = some (hl.rsumBytes * 8) :=
    Checked.mul_eq (by omega)
  have hdouble : Checked.mul 32 (min (hl.rsumBytes * 8) 16) 2 =
      some (min (hl.rsumBytes * 8) 16 * 2) := Checked.mul_eq (by omega)
  rw [deriveAvailBits, hrsumBits, Option.bind_eq_bind, Option.bind_some, hdouble, availBits]
  split_ifs <;> rfl

/-- The shift is derived but for the subtraction of 16 from 8. -/
theorem deriveHashFuncShift_eq (h : hl.Valid) :
    deriveHashFuncShift hl (availBits hl) (bithashBitsTotal hl n) =
      if 16 ≤ availBits hl then some (hashFuncShiftOf hl n) else none := by
  have havail := availBits_le h
  have hseq : 1 < hl.seqMatches → 16 ≤ availBits hl := fun hs =>
    (sixteen_le_availBits h).2 fun hone => by omega
  unfold deriveHashFuncShift hashFuncShiftOf
  by_cases h16 : 16 ≤ availBits hl
  · have hwrap : wrappingSub16 (availBits hl) = availBits hl - 16 := by
      unfold wrappingSub16
      omega
    rw [hwrap, if_pos h16]
    split_ifs
    · rfl
    · rw [Checked.sub, if_pos h16, Option.map_some]
  · rw [if_neg h16, if_neg fun hs => h16 (hseq hs.1), Checked.sub, if_neg h16, Option.map_none]

/-- **Deriving the widths**: every step but the subtraction of 16 is in range. -/
theorem deriveWidths_eq (h : hl.Valid) (hn : n ≤ maxBlocks) :
    deriveWidths hl n = if 16 ≤ availBits hl then some (widthsOf hl n) else none := by
  obtain ⟨-, havail⟩ := availBits_le h
  obtain ⟨hbits, -⟩ := hashBits_le hn (availBits hl)
  have htotal : bithashBitsTotal hl n ≤ 30 := by
    unfold bithashBitsTotal bithashBits
    omega
  have hmod : n % 2 ^ 32 = n := Nat.mod_eq_of_lt (lt_of_le_of_lt hn (by decide))
  have hbit : ∀ {k}, k ≤ 30 → Checked.bit 32 k = some (2 ^ k) := fun hk =>
    Checked.bit_eq (by omega)
  have hsub : ∀ k, Checked.sub (2 ^ k) 1 = some (2 ^ k - 1) := fun k =>
    Checked.sub_eq (Nat.two_pow_pos k)
  have hsucc : ∀ {k}, k ≤ 30 → Checked.add 32 (2 ^ k - 1) 1 = some (2 ^ k) := fun {k} hk => by
    have hle : 2 ^ k ≤ 2 ^ 30 := Nat.pow_le_pow_right (by decide) hk
    rw [Checked.add_eq (by omega), Nat.sub_add_cancel (Nat.two_pow_pos k)]
  have hadd : Checked.add 32 (hashBits n (availBits hl)) bithashBits =
      some (hashBits n (availBits hl) + bithashBits) :=
    Checked.add_eq (by unfold bithashBits; omega)
  have hmin :
      min (hashBits n (availBits hl) + bithashBits) (availBits hl) = bithashBitsTotal hl n :=
    rfl
  simp only [deriveWidths, deriveAvailBits_eq h, hmod, deriveHashBits_eq havail,
    hbit (hbits.trans (by decide)), hsub, hadd, hmin, hbit htotal, deriveHashFuncShift_eq h,
    Option.bind_eq_bind, Option.bind_some]
  split_ifs
  · simp only [Option.bind_some, hsucc (hbits.trans (by decide)), hsucc htotal]
    rfl
  · rfl

/-! ### Safety -/

variable {cf : ControlFile}

/-- A matcher has the widths `w`. -/
structure HasWidths (m : BlockMatcher) (w : Widths) : Prop where
  hashMask : m.hashMask.toNat = w.hashMask
  bithashMask : m.bithashMask.toNat = w.bithashMask
  hashFuncShift : m.hashFuncShift.toNat = w.hashFuncShift
  hashTable : m.hashTable.length = w.tableLength
  bithash : m.bithash.length = w.bithashLength

/-- A hash leads to a bucket and to a bit of the filter that are there. -/
def InTables (m : BlockMatcher) (h : UInt32) : Prop :=
  m.bucket h < m.hashTable.length ∧ m.filterByte h < m.bithash.length

/-- `new` derives the widths it works with, none of whose steps overflows, and every later index is
in its table. -/
structure ArithmeticSafe (cf : ControlFile) : Prop where
  widths : ∃ w, deriveWidths cf.hashLengths cf.blockChecksums.length = some w ∧
    w.hashFuncShift < 32 ∧ (new cf).HasWidths w
  calcHash : ∀ {H m ids}, Reachable H cf m ids → ∀ id < m.totalBlocks, m.InTables (m.calcHash id)
  calcHashRolling : ∀ {H m ids}, Reachable H cf m ids →
    ∀ r0 r1, m.InTables (m.calcHashRolling r0 r1)

theorem length_insertBlocks (ids : List ℕ) (m : BlockMatcher) :
    (ids.foldl insertBlock m).hashTable.length = m.hashTable.length ∧
      (ids.foldl insertBlock m).bithash.length = m.bithash.length := by
  induction ids generalizing m with
  | nil => exact ⟨rfl, rfl⟩
  | cons id ids ih =>
    obtain ⟨htable, hbits⟩ := ih (m.insertBlock id)
    exact ⟨htable.trans List.length_set, hbits.trans List.length_set⟩

theorem hasWidths_new (hcf : cf.Checked) :
    (new cf).HasWidths (widthsOf cf.hashLengths cf.blockChecksums.length) ∧
      hashFuncShiftOf cf.hashLengths cf.blockChecksums.length < 32 := by
  obtain ⟨-, hshape⟩ := indexed_new hcf.count_le
  obtain ⟨htable, hbits⟩ := length_insertBlocks
    (List.range cf.blockChecksums.length).reverse (unindexed cf)
  obtain ⟨hcap, -⟩ := hashBits_le hcf.count_le (availBits cf.hashLengths)
  have htotal : bithashBitsTotal cf.hashLengths cf.blockChecksums.length ≤ 30 := by
    unfold bithashBitsTotal bithashBits
    omega
  have hshift : hashFuncShiftOf cf.hashLengths cf.blockChecksums.length ≤ 30 := by
    unfold hashFuncShiftOf
    split_ifs <;> omega
  have hmask : ∀ {k}, k ≤ 30 → (UInt32.ofNat (2 ^ k - 1)).toNat = 2 ^ k - 1 := fun {k} hk => by
    have hle : 2 ^ k ≤ 2 ^ 30 := Nat.pow_le_pow_right (by decide) hk
    rw [UInt32.toNat_ofNat', Nat.mod_eq_of_lt (by omega)]
  refine ⟨⟨?_, ?_, ?_, ?_, ?_⟩, by omega⟩
  · change (new cf).shape.hashMask.toNat = _
    rw [hshape]
    exact hmask (hcap.trans (by decide))
  · change (new cf).shape.bithashMask.toNat = _
    rw [hshape]
    exact hmask htotal
  · change (new cf).shape.hashFuncShift.toNat = _
    rw [hshape]
    exact (UInt32.toNat_ofNat').trans (Nat.mod_eq_of_lt (by omega))
  · exact htable.trans List.length_replicate
  · exact hbits.trans List.length_replicate

/-- **Safe but for one pair of hash lengths.**  For every control file that `parse` accepts, `new`
is safe exactly when it is not single blocks with one byte of rolling checksum, where
`avail_bits - 16` is below zero. -/
theorem arithmeticSafe_iff {input : Bytes} (hp : ControlFile.parse input = .ok cf) :
    ArithmeticSafe cf ↔ ¬ (cf.hashLengths.seqMatches = 1 ∧ cf.hashLengths.rsumBytes = 1) := by
  have hcf := ControlFile.checked_of_parse hp
  rw [← sixteen_le_availBits hcf.hashLengths]
  constructor
  · rintro ⟨⟨w, hw, -⟩, -, -⟩
    rw [deriveWidths_eq hcf.hashLengths hcf.count_le] at hw
    by_contra h16
    rw [if_neg h16] at hw
    cases hw
  · intro h16
    obtain ⟨hwidths, hshift⟩ := hasWidths_new hcf
    refine ⟨⟨_, ?_, hshift, hwidths⟩, fun hm _ _ => ?_, fun hm _ _ => ?_⟩
    · rw [deriveWidths_eq hcf.hashLengths hcf.count_le, if_pos h16]
    · exact ⟨(hm.indexed hcf).1.bucket_lt _, (hm.indexed hcf).1.filterByte_lt _⟩
    · exact ⟨(hm.indexed hcf).1.bucket_lt _, (hm.indexed hcf).1.filterByte_lt _⟩

/-- The digest of the block `[255, 255]`. -/
def fullHashes : Hashes where
  md4 _ := ⟨[0xfa, 0x7a, 0x0f, 0x8d, 0x37, 0x37, 0x71, 0x24,
    0x0c, 0xc6, 0x3f, 0xfb, 0xe6, 0x9f, 0xff, 0xf0], rfl⟩
  sha1 _ := .replicate 20 0

/-- The control file of this block, as it is read back. -/
def oneBlock (hl : HashLengths) : ControlFile where
  version := "0.6.2"
  filename := none
  mtime := none
  blocksize := 2
  length := 2
  hashLengths := hl
  urls := ["u"]
  sha1 := none
  blockChecksums := [BlockChecksum.stored hl
    ⟨calcRsumBlock [255, 255], fullHashes.md4 [255, 255]⟩]

/-- It is accepted with one byte of rolling checksum, and then 16 is subtracted from 8. -/
theorem widths_unsafe :
    ControlFile.parse (ControlFile.write (oneBlock ⟨1, 1, 16⟩)) = .ok (oneBlock ⟨1, 1, 16⟩) ∧
      deriveWidths ⟨1, 1, 16⟩ (oneBlock ⟨1, 1, 16⟩).blockChecksums.length = none ∧
      ¬ ArithmeticSafe (oneBlock ⟨1, 1, 16⟩) := by
  have hparse : ControlFile.parse (ControlFile.write (oneBlock ⟨1, 1, 16⟩)) =
    .ok (oneBlock ⟨1, 1, 16⟩) := by decide +kernel
  have hnone : deriveWidths ⟨1, 1, 16⟩ (oneBlock ⟨1, 1, 16⟩).blockChecksums.length = none := by
    decide
  refine ⟨hparse, hnone, ?_⟩
  rintro ⟨⟨w, hw, -⟩, -, -⟩
  rw [show (oneBlock ⟨1, 1, 16⟩).hashLengths = ⟨1, 1, 16⟩ from rfl, hnone] at hw
  cases hw

/-- Two bytes are enough. -/
theorem arithmeticSafe_oneBlock : ArithmeticSafe (oneBlock ⟨1, 2, 16⟩) := by
  have hparse : ControlFile.parse (ControlFile.write (oneBlock ⟨1, 2, 16⟩)) =
    .ok (oneBlock ⟨1, 2, 16⟩) := by decide +kernel
  exact (arithmeticSafe_iff hparse).2 (by decide)

/-! ### What the stored bytes compare -/

theorem target_of_shape {m : BlockMatcher} (h : m.shape = (unindexed cf).shape) {id : ℕ}
    {bc : BlockChecksum} (hid : cf.blockChecksums[id]? = some bc) :
    m.target id = ⟨⟨bc.rsum.a &&& rsumAMaskOf cf.hashLengths.rsumBytes, bc.rsum.b⟩,
      bc.checksum⟩ := by
  rw [target, targets_congr h]
  simp only [unindexed, List.getD_eq_getElem?_getD, List.getElem?_map, hid, Option.map_some,
    Option.getD_some]

/-- Writing and reading one byte loses the high byte of the second sum. -/
theorem stored_one_eq_iff (r : Rsum) : (r.stored 1).b = r.b ↔ r.b < 256 := by
  have hff : (r.stored 1).b.toNat = r.b.toNat % 256 := ControlFile.toNat_and_ff r.b
  rw [← UInt16.toNat_inj, hff, UInt16.lt_iff_toNat_lt]
  change _ ↔ r.b.toNat < 256
  omega

/-- A block of the bucket whose rolling checksum passes is held to its MD4, which is then known. -/
theorem checksum_chainStep {m : BlockMatcher} {H : Hashes} {data : Bytes} {x base id : ℕ}
    {r0 r1 : Rsum} {matched : Option ℕ} {s : ChainState} (hmatched : matched ≠ some id)
    (h0 : m.rsumMatch (m.target id).rsum r0)
    (h1 : m.inPair id → m.rsumMatch (m.target (id + 1)).rsum r1) :
    (m.chainStep H data x r0 r1 base matched s id).checksum.isSome := by
  unfold chainStep
  rw [if_neg (by simp [hmatched, h0])]
  by_cases hpair : 1 < m.hashLengths.seqMatches ∧ id + 1 < m.targets.length
  · rw [if_pos hpair, if_neg (by simpa using h1 (by simpa [inPair] using hpair))]
    dsimp only
    split_ifs <;> rfl
  · rw [if_neg hpair]
    dsimp only
    split_ifs <;> rfl

/-- **Precision.**  A block's record is written, read back and masked.  The block's own bytes pass
the test of its rolling checksum, and so reach its MD4 wherever its bucket is walked, exactly when
two or more bytes are stored or the second sum is below 256. -/
theorem rsumMatch_written_iff {input : Bytes} (hp : ControlFile.parse input = .ok cf) {H : Hashes}
    {m : BlockMatcher} {ids : List ℕ} (hm : Reachable H cf m ids) {id : ℕ} {B : Bytes}
    (hid : cf.blockChecksums[id]? = some (ControlFile.decodeEntry cf.hashLengths
      (ControlFile.writeEntry cf.hashLengths ⟨calcRsumBlock B, H.md4 B⟩))) :
    (m.rsumMatch (m.target id).rsum (calcRsumBlock B) ∧
      ∀ data x r1 base matched s, matched ≠ some id →
        (m.inPair id → m.rsumMatch (m.target (id + 1)).rsum r1) →
        (m.chainStep H data x (calcRsumBlock B) r1 base matched s id).checksum.isSome) ↔
      2 ≤ cf.hashLengths.rsumBytes ∨ (calcRsumBlock B).b < 256 := by
  have hcf := ControlFile.checked_of_parse hp
  obtain ⟨-, hshape⟩ := hm.indexed hcf
  have hmask : m.rsumAMask = rsumAMaskOf cf.hashLengths.rsumBytes := by
    change m.shape.rsumAMask = _
    rw [hshape]
    rfl
  have hrsum : m.rsumMatch (m.target id).rsum (calcRsumBlock B) ↔
      2 ≤ cf.hashLengths.rsumBytes ∨ (calcRsumBlock B).b < 256 := by
    rw [rsumMatch, decide_eq_true_iff, target_of_shape hshape hid,
      ControlFile.decodeEntry_writeEntry hcf.hashLengths, BlockChecksum.stored, hmask]
    rcases hcf.hashLengths.rsum_cases with h1 | h2
    · rw [h1, stored_one_eq_iff]
      simp [rsumAMaskOf]
    · obtain ⟨ha, hb⟩ := stored_and_mask h2 (calcRsumBlock B)
      simp only [ha, hb, and_self, true_iff]
      omega
  rw [← hrsum]
  exact ⟨And.left,
    fun h => ⟨h, fun _ _ _ _ _ _ hmatched hnext => checksum_chainStep hmatched h hnext⟩⟩

/-- One byte stored of a block whose second sum is 765. -/
theorem rsumMatch_rejects_block :
    let cf := oneBlock ⟨1, 1, 16⟩
    ControlFile.parse (ControlFile.write cf) = .ok cf ∧
      cf.blockChecksums[0]? = some (ControlFile.decodeEntry cf.hashLengths
        (ControlFile.writeEntry cf.hashLengths
          ⟨calcRsumBlock [255, 255], fullHashes.md4 [255, 255]⟩)) ∧
      ¬ (new cf).rsumMatch ((new cf).target 0).rsum (calcRsumBlock [255, 255]) := by
  decide +kernel

/-- Two bytes of it. -/
theorem rsumMatch_block :
    (new (oneBlock ⟨1, 2, 16⟩)).rsumMatch ((new (oneBlock ⟨1, 2, 16⟩)).target 0).rsum
      (calcRsumBlock [255, 255]) := by
  have hparse : ControlFile.parse (ControlFile.write (oneBlock ⟨1, 2, 16⟩)) =
    .ok (oneBlock ⟨1, 2, 16⟩) := by decide +kernel
  have hid : (oneBlock ⟨1, 2, 16⟩).blockChecksums[0]? =
      some (ControlFile.decodeEntry (oneBlock ⟨1, 2, 16⟩).hashLengths
        (ControlFile.writeEntry (oneBlock ⟨1, 2, 16⟩).hashLengths
          ⟨calcRsumBlock [255, 255], fullHashes.md4 [255, 255]⟩)) := by decide
  exact ((rsumMatch_written_iff hparse Reachable.new hid).2 (by decide)).1

end BlockMatcher

end Zsync
