import Zsync.Control.Basic
import Zsync.Data.Chain

/-!
# The block matcher

The index of a target's blocks and the record of which are known.

* `BlockMatcher` : the matcher's fields.  The scan threads share a read-only view of them, so
  `ScanState` is the matcher itself here;
* `BlockMatcher.new` : the index of a control file, with every block unknown;
* `BlockMatcher.removeBlockFromHash`, `BlockMatcher.markKnown` : what a found block changes;
* `BlockMatcher.submitBlocks` : the check of downloaded blocks;
* `BlockMatcher.neededBlockRanges` : the runs of blocks still unknown.

Block ids and array indices are natural numbers; hashes are the machine words of the source.
-/

namespace Zsync

/-- `HASH_EMPTY`: the end of a bucket. -/
def hashEmpty : ℕ := 2 ^ 32 - 1

/-- `BITHASH_BITS`. -/
def bithashBits : ℕ := 3

/-- A block of the target in the index. -/
structure TargetBlock where
  /-- The rolling checksum, its first sum cut to the stored bytes. -/
  rsum : Rsum
  checksum : Md4
  deriving DecidableEq

/-- The index of a target's blocks and the record of which are known. -/
structure BlockMatcher where
  blocksize : ℕ
  blockshift : ℕ
  hashLengths : HashLengths
  rsumAMask : UInt16
  hashFuncShift : UInt32
  targets : List TargetBlock
  knownBlocks : List Bool
  /-- How many entries of `knownBlocks` are set. -/
  knownCount : ℕ
  hashTable : List ℕ
  hashNext : List ℕ
  hashMask : UInt32
  bithash : List UInt8
  bithashMask : UInt32
  deriving DecidableEq

namespace BlockMatcher

/-! ### Sizes -/

/-- The bits of the stored first sum that are compared. -/
def rsumAMaskOf (rsumBytes : ℕ) : UInt16 :=
  if rsumBytes ≤ 2 then 0 else if rsumBytes = 3 then 0x00ff else 0xffff

/-- The bits of rolling checksum that a lookup can use. -/
def availBits (hl : HashLengths) : ℕ :=
  if 1 < hl.seqMatches then min (hl.rsumBytes * 8) 16 * 2 else hl.rsumBytes * 8

/-- The loop that lowers `hash_bits` while half the table would do for `numBlocks` blocks. -/
def hashBits (numBlocks : ℕ) : ℕ → ℕ
  | 0 => 0
  | bits + 1 => if 5 < bits + 1 ∧ numBlocks < 2 ^ bits then hashBits numBlocks bits else bits + 1

/-- The bits of the bit filter. -/
def bithashBitsTotal (hl : HashLengths) (numBlocks : ℕ) : ℕ :=
  min (hashBits numBlocks (availBits hl) + bithashBits) (availBits hl)

/-- `avail_bits - 16`, which wraps for a single block with one byte of rolling checksum. -/
def wrappingSub16 (bits : ℕ) : ℕ := (bits + 2 ^ 32 - 16) % 2 ^ 32

/-- How far the second sum of a combined hash is shifted. -/
def hashFuncShiftOf (hl : HashLengths) (numBlocks : ℕ) : ℕ :=
  if 1 < hl.seqMatches ∧ availBits hl < 24 then
    bithashBitsTotal hl numBlocks - availBits hl / 2
  else bithashBitsTotal hl numBlocks - wrappingSub16 (availBits hl)

/-- `usize::trailing_zeros`. -/
def trailingZeros (n : ℕ) : ℕ := ((List.range 64).takeWhile fun i => !n.testBit i).length

/-! ### Hashes -/

/-- Target block `id`. -/
def target (m : BlockMatcher) (id : ℕ) : TargetBlock :=
  m.targets.getD id ⟨⟨0, 0⟩, ControlFile.md4OfPrefix []⟩

/-- The hash of target block `id`: its own sums, or its second sum and that of the next block. -/
def calcHash (m : BlockMatcher) (id : ℕ) : UInt32 :=
  if 1 < m.hashLengths.seqMatches then
    (m.target id).rsum.b.toUInt32 ^^^
      ((if id + 1 < m.targets.length then (m.target (id + 1)).rsum.b.toUInt32 else 0)
        <<< m.hashFuncShift)
  else (m.target id).rsum.b.toUInt32 ^^^ ((m.target id).rsum.a.toUInt32 <<< m.hashFuncShift)

/-- The hash of the window with rolling checksum `r0`, followed by one with `r1`. -/
def calcHashRolling (m : BlockMatcher) (r0 r1 : Rsum) : UInt32 :=
  if 1 < m.hashLengths.seqMatches then r0.b.toUInt32 ^^^ (r1.b.toUInt32 <<< m.hashFuncShift)
  else r0.b.toUInt32 ^^^ ((r0.a &&& m.rsumAMask).toUInt32 <<< m.hashFuncShift)

/-- The bucket of a hash. -/
def bucket (m : BlockMatcher) (h : UInt32) : ℕ := (h &&& m.hashMask).toNat

/-- The byte of the bit filter with the bit of a hash. -/
def filterByte (m : BlockMatcher) (h : UInt32) : ℕ := (h &&& m.bithashMask).toNat / 8

/-- The bit of a hash in its byte. -/
def filterBit (m : BlockMatcher) (h : UInt32) : UInt8 :=
  1 <<< UInt8.ofNat ((h &&& m.bithashMask).toNat % 8)

/-- Whether the bit filter has the bit of a hash. -/
def inFilter (m : BlockMatcher) (h : UInt32) : Bool :=
  m.bithash.getD (m.filterByte h) 0 &&& m.filterBit h ≠ 0

/-! ### Building the index -/

/-- The matcher before any block is in its tables. -/
def unindexed (control : ControlFile) : BlockMatcher :=
  let n := control.blockChecksums.length
  let mask := rsumAMaskOf control.hashLengths.rsumBytes
  let bits := hashBits n (availBits control.hashLengths)
  let bitsTotal := bithashBitsTotal control.hashLengths n
  { blocksize := control.blocksize
    blockshift := trailingZeros control.blocksize
    hashLengths := control.hashLengths
    rsumAMask := mask
    hashFuncShift := UInt32.ofNat (hashFuncShiftOf control.hashLengths n)
    targets := control.blockChecksums.map fun bc => ⟨⟨bc.rsum.a &&& mask, bc.rsum.b⟩, bc.checksum⟩
    knownBlocks := List.replicate n false
    knownCount := 0
    hashTable := List.replicate (2 ^ bits) hashEmpty
    hashNext := List.replicate n hashEmpty
    hashMask := UInt32.ofNat (2 ^ bits - 1)
    bithash := List.replicate (2 ^ bitsTotal / 8 + 1) 0
    bithashMask := UInt32.ofNat (2 ^ bitsTotal - 1) }

/-- Puts block `id` in front of its bucket and sets its bit in the filter. -/
def insertBlock (m : BlockMatcher) (id : ℕ) : BlockMatcher :=
  let h := m.calcHash id
  { m with
    hashNext := m.hashNext.set id (m.hashTable.getD (m.bucket h) hashEmpty)
    hashTable := m.hashTable.set (m.bucket h) id
    bithash := m.bithash.set (m.filterByte h)
      (m.bithash.getD (m.filterByte h) 0 ||| m.filterBit h) }

/-- Indexes the block checksums in `control`, with every block unknown. -/
def new (control : ControlFile) : BlockMatcher :=
  (List.range control.blockChecksums.length).reverse.foldl insertBlock (unindexed control)

/-- Takes block `id` out of its bucket, if it is there. -/
def removeBlockFromHash (m : BlockMatcher) (id : ℕ) : BlockMatcher :=
  let k := m.bucket (m.calcHash id)
  let r := Chain.unlinkFrom hashEmpty m.hashTable m.hashNext k id m.targets.length hashEmpty
    (m.hashTable.getD k hashEmpty)
  { m with hashTable := r.1, hashNext := r.2 }

/-! ### Known blocks -/

/-- Marks block `id` as known, and counts it the first time. -/
def markKnown (m : BlockMatcher) (id : ℕ) : BlockMatcher :=
  if m.knownBlocks.getD id false then m
  else { m with knownBlocks := m.knownBlocks.set id true, knownCount := m.knownCount + 1 }

/-- Whether block `id` is known, which is `false` past the end of the target. -/
def isBlockKnown (m : BlockMatcher) (id : ℕ) : Bool := m.knownBlocks.getD id false

/-- The number of blocks still unknown. -/
def blocksTodo (m : BlockMatcher) : ℕ := m.knownBlocks.length - m.knownCount

/-- Whether every block is known. -/
def isComplete (m : BlockMatcher) : Bool := m.knownCount = m.knownBlocks.length

/-- The number of blocks in the target. -/
def totalBlocks (m : BlockMatcher) : ℕ := m.targets.length

/-- Two digests agree on the stored bytes. -/
def sameChecksum (m : BlockMatcher) (c c' : Md4) : Bool :=
  c.toList.take m.hashLengths.checksumBytes = c'.toList.take m.hashLengths.checksumBytes

/-- The loop of `submit_blocks` over the block indices of `data`. -/
def submitBlocksFrom (H : Hashes) (data : Bytes) (blockStart : ℕ) :
    List ℕ → BlockMatcher → BlockMatcher × Bool
  | [], m => (m, true)
  | i :: is, m =>
    if m.targets.length ≤ blockStart + i then (m, true)
    else if m.sameChecksum (H.md4 (window data (i * m.blocksize) m.blocksize))
        (m.target (blockStart + i)).checksum then
      submitBlocksFrom H data blockStart is (m.markKnown (blockStart + i))
    else (m, false)

/-- Verifies `data` as consecutive whole blocks from block `blockStart` on, marking each one that
matches its checksum as known. -/
def submitBlocks (m : BlockMatcher) (H : Hashes) (data : Bytes) (blockStart : ℕ) :
    BlockMatcher × Bool :=
  submitBlocksFrom H data blockStart (List.range (data.length / m.blocksize)) m

/-- The loop of `needed_block_ranges`, at block `i` with an unknown run open since `start`. -/
def neededFrom : ℕ → Option ℕ → List Bool → List (ℕ × ℕ)
  | i, some s, [] => [(s, i)]
  | _, none, [] => []
  | i, some s, known :: rest =>
    if known then (s, i) :: neededFrom (i + 1) none rest else neededFrom (i + 1) (some s) rest
  | i, none, known :: rest =>
    if known then neededFrom (i + 1) none rest else neededFrom (i + 1) (some i) rest

/-- The runs of blocks still unknown, as half-open ranges in ascending order. -/
def neededBlockRanges (m : BlockMatcher) : List (ℕ × ℕ) := neededFrom 0 none m.knownBlocks

end BlockMatcher

end Zsync
