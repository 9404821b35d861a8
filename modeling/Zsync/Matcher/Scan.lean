import Zsync.Matcher.Basic

/-!
# The rolling scan

Finding target blocks in data, at every offset.

* `BlockMatcher.matchChain` : tests every block hashed like the window at an offset;
* `BlockMatcher.scanStep` : one offset of `scan_chunk`.  The inner loop of the source is the same
  test without a hint, so one step is one round of either loop;
* `BlockMatcher.scanChunk` : the offsets of a piece of data, each block found with its offset;
* `BlockMatcher.submitSourceData` : the scan split across threads, and what it marks as known.
-/

namespace Zsync

namespace BlockMatcher

/-! ### One offset -/

/-- Whether a window's rolling checksum is that of a target block, on the compared bits. -/
def rsumMatch (m : BlockMatcher) (target rolling : Rsum) : Bool :=
  target.a = rolling.a &&& m.rsumAMask ∧ target.b = rolling.b

/-- What `match_chain` carries along a bucket. -/
structure ChainState where
  matchedBlocks : List (ℕ × ℕ)
  /-- How many blocks the first match covers, and the block expected to follow it. -/
  first : Option (ℕ × Option ℕ)
  /-- The digest of the window, once it was needed. -/
  checksum : Option Md4
  /-- The digest of the window after it, once it was needed. -/
  nextChecksum : Option Md4

/-- One block of the bucket, tested at offset `x`. -/
def chainStep (m : BlockMatcher) (H : Hashes) (data : Bytes) (x : ℕ) (r0 r1 : Rsum)
    (baseOffset : ℕ) (matched : Option ℕ) (s : ChainState) (id : ℕ) : ChainState :=
  if matched = some id ∨ ¬ m.rsumMatch (m.target id).rsum r0 then s
  else if 1 < m.hashLengths.seqMatches ∧ id + 1 < m.targets.length then
    if ¬ m.rsumMatch (m.target (id + 1)).rsum r1 then s
    else
      let sum := s.checksum.getD (H.md4 (window data x m.blocksize))
      let s := { s with checksum := some sum }
      if ¬ m.sameChecksum sum (m.target id).checksum then s
      else
        let nextSum := s.nextChecksum.getD (H.md4 (window data (x + m.blocksize) m.blocksize))
        let s := { s with nextChecksum := some nextSum }
        if m.sameChecksum nextSum (m.target (id + 1)).checksum then
          { s with
            matchedBlocks := s.matchedBlocks ++
              [(id, baseOffset + x), (id + 1, baseOffset + x + m.blocksize)]
            first := s.first.or (some (m.hashLengths.seqMatches,
              if id + 2 < m.targets.length then some (id + 2) else none)) }
        else s
  else
    let sum := s.checksum.getD (H.md4 (window data x m.blocksize))
    let s := { s with checksum := some sum }
    if m.sameChecksum sum (m.target id).checksum then
      { s with
        matchedBlocks := s.matchedBlocks ++ [(id, baseOffset + x)]
        first := s.first.or (some (1, none)) }
    else s

/-- Tests every target block hashed like the window at `x`, recording each one that matches.
`matched` names a block that is skipped, and `checksum` is the window's digest when the caller has
it.  The blocks of the bucket are listed first: testing them changes nothing the walk reads. -/
def matchChain (m : BlockMatcher) (H : Hashes) (data : Bytes) (x : ℕ) (r0 r1 : Rsum)
    (baseOffset : ℕ) (matched : Option ℕ) (checksum : Option Md4)
    (matchedBlocks : List (ℕ × ℕ)) : List (ℕ × ℕ) × Option (ℕ × Option ℕ) :=
  let hash := m.calcHashRolling r0 r1
  if ¬ m.inFilter hash then (matchedBlocks, none)
  else
    let ids := Chain.walk hashEmpty m.hashNext m.targets.length
      (m.hashTable.getD (m.bucket hash) hashEmpty)
    let s := ids.foldl (m.chainStep H data x r0 r1 baseOffset matched)
      ⟨matchedBlocks, none, checksum, none⟩
    (s.matchedBlocks, s.first)

/-! ### The loop -/

/-- The local variables of `scan_chunk`. -/
structure ScanCursor where
  x : ℕ
  /-- The rolling checksum of the window at `x`. -/
  r0 : Rsum
  /-- The rolling checksum of the window after it, when pairs of blocks are matched. -/
  r1 : Rsum
  nextMatchId : Option ℕ
  matchedBlocks : List (ℕ × ℕ)

/-- The expected block and the window's digest, when the window at the cursor is that block. -/
def hintMatches (m : BlockMatcher) (H : Hashes) (data : Bytes) (c : ScanCursor) :
    Option (ℕ × Md4) :=
  match c.nextMatchId with
  | some id =>
    if 1 < m.hashLengths.seqMatches ∧ id < m.targets.length ∧
        m.rsumMatch (m.target id).rsum c.r0 then
      let checksum := H.md4 (window data c.x m.blocksize)
      if m.sameChecksum checksum (m.target id).checksum then some (id, checksum) else none
    else none
  | none => none

/-- Moves the cursor past `matched` blocks. -/
def skipBlocks (m : BlockMatcher) (data : Bytes) (xLimit : ℕ) (c : ScanCursor) (matched : ℕ)
    (next : Option ℕ) (matchedBlocks : List (ℕ × ℕ)) : ScanCursor :=
  let x := c.x + m.blocksize * matched
  if xLimit ≤ x then ⟨x, c.r0, c.r1, next, matchedBlocks⟩
  else
    ⟨x,
      if 1 < m.hashLengths.seqMatches ∧ matched = 1 then c.r1
        else calcRsumBlock (window data x m.blocksize),
      if 1 < m.hashLengths.seqMatches then calcRsumBlock (window data (x + m.blocksize) m.blocksize)
        else c.r1,
      next, matchedBlocks⟩

/-- Moves the cursor by one byte, `nc` entering the window and `oc` leaving it. -/
def slideRsum (m : BlockMatcher) (r : Rsum) (oc nc : UInt8) : Rsum :=
  let a := r.a + nc.toUInt16 - oc.toUInt16
  ⟨a, r.b + a - shiftedOut oc m.blockshift⟩

/-- Moves the cursor by one byte after nothing matched. -/
def slide (m : BlockMatcher) (data : Bytes) (c : ScanCursor) : ScanCursor :=
  let oc := data.getD c.x 0
  let nc := data.getD (c.x + m.blocksize) 0
  let nc2 := data.getD (c.x + m.blocksize * 2) 0
  ⟨c.x + 1, m.slideRsum c.r0 oc nc,
    if 1 < m.hashLengths.seqMatches then m.slideRsum c.r1 nc nc2 else c.r1, none, c.matchedBlocks⟩

/-- One tested offset. -/
def scanStep (m : BlockMatcher) (H : Hashes) (data : Bytes) (baseOffset xLimit : ℕ)
    (c : ScanCursor) : ScanCursor :=
  match m.hintMatches H data c with
  | some (id, checksum) =>
    -- the hint continues one copy of repeated data, and the chain holds the others
    let r := m.matchChain H data c.x c.r0 c.r1 baseOffset (some id) (some checksum)
      (c.matchedBlocks ++ [(id, baseOffset + c.x)])
    m.skipBlocks data xLimit c 1 (if id + 1 < m.targets.length then some (id + 1) else none) r.1
  | none =>
    match m.matchChain H data c.x c.r0 c.r1 baseOffset none none c.matchedBlocks with
    | (matchedBlocks, some (matched, next)) => m.skipBlocks data xLimit c matched next matchedBlocks
    | (_, none) => m.slide data c

/-- The scan from a cursor on, at most `fuel` offsets. -/
def scanFrom (m : BlockMatcher) (H : Hashes) (data : Bytes) (baseOffset xLimit : ℕ) :
    ℕ → ScanCursor → ScanCursor
  | 0, c => c
  | fuel + 1, c =>
    if c.x < xLimit then
      scanFrom m H data baseOffset xLimit fuel (m.scanStep H data baseOffset xLimit c)
    else c

/-- The bytes a match may look at: `blocksize * seq_matches`. -/
def context (m : BlockMatcher) : ℕ := m.blocksize * m.hashLengths.seqMatches

/-- Scans a chunk of data for matching blocks.  `baseOffset` is the offset of `data[0]` in the
source; the result lists target blocks with their offsets in the source. -/
def scanChunk (m : BlockMatcher) (H : Hashes) (data : Bytes) (baseOffset : ℕ) : List (ℕ × ℕ) :=
  if data.length < m.context then []
  else
    let xLimit := data.length - m.context
    let c : ScanCursor := ⟨0, calcRsumBlock (window data 0 m.blocksize),
      if 1 < m.hashLengths.seqMatches then calcRsumBlock (window data m.blocksize m.blocksize)
        else ⟨0, 0⟩,
      none, []⟩
    (m.scanFrom H data baseOffset xLimit xLimit c).matchedBlocks

/-! ### Threads -/

/-- `min_per_thread`: the least share of a thread. -/
def minPerThread : ℕ := 2 * 1024 * 1024

/-- The piece of `data` that thread `i` of `threads` scans, with its offset in `data`. -/
def threadPiece (m : BlockMatcher) (data : Bytes) (threads i : ℕ) : ℕ × Bytes :=
  let chunkSize := (data.length - m.context) / threads
  let start := i * chunkSize
  let stop := if i + 1 = threads then data.length else (i + 1) * chunkSize + m.context
  (start, window data start (stop - start))

/-- The blocks found in `data`, on a machine with `cores` cores. -/
def candidates (m : BlockMatcher) (H : Hashes) (cores : ℕ) (data : Bytes) (offset : ℕ) :
    List (ℕ × ℕ) :=
  let scannable := data.length - m.context
  if 1 < cores ∧ minPerThread * 2 ≤ scannable then
    let threads := min cores (scannable / minPerThread)
    (List.range threads).flatMap fun i =>
      m.scanChunk H (m.threadPiece data threads i).2 (offset + (m.threadPiece data threads i).1)
  else m.scanChunk H data offset

/-- Keeps the first sighting of each block still unknown and marks it as known. -/
def claimBlocks : List (ℕ × ℕ) → BlockMatcher → BlockMatcher × List (ℕ × ℕ)
  | [], m => (m, [])
  | (id, offset) :: rest, m =>
    if m.knownBlocks.getD id false then claimBlocks rest m
    else
      let r := claimBlocks rest ((m.markKnown id).removeBlockFromHash id)
      (r.1, (id, offset) :: r.2)

/-- Scans `data` for target blocks at every byte offset and marks the ones found as known. -/
def submitSourceData (m : BlockMatcher) (H : Hashes) (cores : ℕ) (data : Bytes) (offset : ℕ) :
    BlockMatcher × List (ℕ × ℕ) :=
  if data.length < m.context then (m, [])
  else claimBlocks (m.candidates H cores data offset) m

end BlockMatcher

end Zsync
