import Zsync.Data.Checked
import Zsync.Matcher.Known

/-!
# Bounds of the scan

`scan_chunk` with every index into the data checked, and the rolling sums it works with.

* `BlockMatcher.checkedScanChunk` : the scan, or nothing where an index would be out of range;
* `BlockMatcher.checkedScanStep_eq` : a step from a cursor with its sums stays in range;
* `BlockMatcher.scanFrom_ok` : every cursor of the scan has the sums of its windows;
* `BlockMatcher.scan_sums` : both for whole scans.
-/

namespace Zsync

namespace BlockMatcher

variable {m : BlockMatcher} {data : Bytes} {xLimit : ℕ} {c : ScanCursor}

/-! ### The scan with its indices checked -/

/-- The digest at hand, or the digest of the window at `x`. -/
def checkedDigest (m : BlockMatcher) (H : Hashes) (data : Bytes) (x : ℕ) :
    Option Md4 → Option Md4
  | some sum => some sum
  | none => (Checked.slice data x m.blocksize).map H.md4

/-- `chainStep`. -/
def checkedChainStep (m : BlockMatcher) (H : Hashes) (data : Bytes) (x : ℕ) (r0 r1 : Rsum)
    (baseOffset : ℕ) (matched : Option ℕ) (s : ChainState) (id : ℕ) : Option ChainState :=
  if matched = some id ∨ ¬ m.rsumMatch (m.target id).rsum r0 then some s
  else if 1 < m.hashLengths.seqMatches ∧ id + 1 < m.targets.length then
    if ¬ m.rsumMatch (m.target (id + 1)).rsum r1 then some s
    else do
      let sum ← m.checkedDigest H data x s.checksum
      let s := { s with checksum := some sum }
      if ¬ m.sameChecksum sum (m.target id).checksum then some s
      else do
        let nextSum ← m.checkedDigest H data (x + m.blocksize) s.nextChecksum
        let s := { s with nextChecksum := some nextSum }
        if m.sameChecksum nextSum (m.target (id + 1)).checksum then
          some { s with
            matchedBlocks := s.matchedBlocks ++
              [(id, baseOffset + x), (id + 1, baseOffset + x + m.blocksize)]
            first := s.first.or (some (m.hashLengths.seqMatches,
              if id + 2 < m.targets.length then some (id + 2) else none)) }
        else some s
  else do
    let sum ← m.checkedDigest H data x s.checksum
    let s := { s with checksum := some sum }
    if m.sameChecksum sum (m.target id).checksum then
      some { s with
        matchedBlocks := s.matchedBlocks ++ [(id, baseOffset + x)]
        first := s.first.or (some (1, none)) }
    else some s

/-- `match_chain`. -/
def checkedMatchChain (m : BlockMatcher) (H : Hashes) (data : Bytes) (x : ℕ) (r0 r1 : Rsum)
    (baseOffset : ℕ) (matched : Option ℕ) (checksum : Option Md4)
    (matchedBlocks : List (ℕ × ℕ)) : Option (List (ℕ × ℕ) × Option (ℕ × Option ℕ)) :=
  let hash := m.calcHashRolling r0 r1
  if ¬ m.inFilter hash then some (matchedBlocks, none)
  else do
    let ids := Chain.walk hashEmpty m.hashNext m.targets.length
      (m.hashTable.getD (m.bucket hash) hashEmpty)
    let s ← ids.foldlM (m.checkedChainStep H data x r0 r1 baseOffset matched)
      ⟨matchedBlocks, none, checksum, none⟩
    some (s.matchedBlocks, s.first)

/-- The test of the expected block. -/
def checkedHintMatches (m : BlockMatcher) (H : Hashes) (data : Bytes) (c : ScanCursor) :
    Option (Option (ℕ × Md4)) :=
  match c.nextMatchId with
  | some id =>
    if 1 < m.hashLengths.seqMatches ∧ id < m.targets.length ∧
        m.rsumMatch (m.target id).rsum c.r0 then do
      let checksum ← (Checked.slice data c.x m.blocksize).map H.md4
      some (if m.sameChecksum checksum (m.target id).checksum then some (id, checksum) else none)
    else some none
  | none => some none

/-- Moves the cursor past `matched` blocks. -/
def checkedSkipBlocks (m : BlockMatcher) (data : Bytes) (xLimit : ℕ) (c : ScanCursor)
    (matched : ℕ) (next : Option ℕ) (matchedBlocks : List (ℕ × ℕ)) : Option ScanCursor :=
  let x := c.x + m.blocksize * matched
  if xLimit ≤ x then some ⟨x, c.r0, c.r1, next, matchedBlocks⟩
  else do
    let r0 ← if 1 < m.hashLengths.seqMatches ∧ matched = 1 then some c.r1
      else (Checked.slice data x m.blocksize).map calcRsumBlock
    let r1 ← if 1 < m.hashLengths.seqMatches then
        (Checked.slice data (x + m.blocksize) m.blocksize).map calcRsumBlock
      else some c.r1
    some ⟨x, r0, r1, next, matchedBlocks⟩

/-- Moves the cursor by one byte. -/
def checkedSlide (m : BlockMatcher) (data : Bytes) (c : ScanCursor) : Option ScanCursor := do
  let oc ← data[c.x]?
  let nc ← data[c.x + m.blocksize]?
  let r1 ← if 1 < m.hashLengths.seqMatches then do
      let nc2 ← data[c.x + m.blocksize * 2]?
      some (m.slideRsum c.r1 nc nc2)
    else some c.r1
  some ⟨c.x + 1, m.slideRsum c.r0 oc nc, r1, none, c.matchedBlocks⟩

/-- One tested offset. -/
def checkedScanStep (m : BlockMatcher) (H : Hashes) (data : Bytes) (baseOffset xLimit : ℕ)
    (c : ScanCursor) : Option ScanCursor := do
  match ← m.checkedHintMatches H data c with
  | some (id, checksum) => do
    let r ← m.checkedMatchChain H data c.x c.r0 c.r1 baseOffset (some id) (some checksum)
      (c.matchedBlocks ++ [(id, baseOffset + c.x)])
    m.checkedSkipBlocks data xLimit c 1
      (if id + 1 < m.targets.length then some (id + 1) else none) r.1
  | none => do
    match ← m.checkedMatchChain H data c.x c.r0 c.r1 baseOffset none none c.matchedBlocks with
    | (matchedBlocks, some (matched, next)) =>
      m.checkedSkipBlocks data xLimit c matched next matchedBlocks
    | (_, none) => m.checkedSlide data c

/-- The scan from a cursor on. -/
def checkedScanFrom (m : BlockMatcher) (H : Hashes) (data : Bytes) (baseOffset xLimit : ℕ) :
    ℕ → ScanCursor → Option ScanCursor
  | 0, c => some c
  | fuel + 1, c =>
    if c.x < xLimit then do
      checkedScanFrom m H data baseOffset xLimit fuel
        (← m.checkedScanStep H data baseOffset xLimit c)
    else some c

/-- `scan_chunk`. -/
def checkedScanChunk (m : BlockMatcher) (H : Hashes) (data : Bytes) (baseOffset : ℕ) :
    Option (List (ℕ × ℕ)) :=
  if data.length < m.context then some []
  else do
    let xLimit := data.length - m.context
    let r0 ← (Checked.slice data 0 m.blocksize).map calcRsumBlock
    let r1 ← if 1 < m.hashLengths.seqMatches then
        (Checked.slice data m.blocksize m.blocksize).map calcRsumBlock
      else some ⟨0, 0⟩
    let c ← m.checkedScanFrom H data baseOffset xLimit xLimit ⟨0, r0, r1, none, []⟩
    some c.matchedBlocks

/-! ### No index is out of range -/

variable {H : Hashes} {x base : ℕ} {r0 r1 : Rsum}

theorem checkedDigest_eq (hx : x + m.blocksize ≤ data.length) (sum : Option Md4) :
    m.checkedDigest H data x sum = some (sum.getD (H.md4 (window data x m.blocksize))) := by
  cases sum with
  | none => rw [checkedDigest, Checked.slice_eq hx, Option.map_some, Option.getD_none]
  | some d => rfl

/-- A block is tested within the data when the windows that it may look at are. -/
theorem checkedChainStep_eq (hx : x + m.blocksize ≤ data.length)
    (hx' : 1 < m.hashLengths.seqMatches → x + m.blocksize + m.blocksize ≤ data.length)
    (matched : Option ℕ) (s : ChainState) (id : ℕ) :
    m.checkedChainStep H data x r0 r1 base matched s id =
      some (m.chainStep H data x r0 r1 base matched s id) := by
  unfold checkedChainStep chainStep
  simp only [checkedDigest_eq hx, Option.bind_eq_bind, Option.bind_some]
  by_cases hpair : 1 < m.hashLengths.seqMatches ∧ id + 1 < m.targets.length
  · simp only [checkedDigest_eq (hx' hpair.1), Option.bind_some]
    split_ifs <;> rfl
  · simp only [hpair, if_false]
    split_ifs <;> rfl

theorem checkedMatchChain_eq (hx : x + m.blocksize ≤ data.length)
    (hx' : 1 < m.hashLengths.seqMatches → x + m.blocksize + m.blocksize ≤ data.length)
    (matched : Option ℕ) (checksum : Option Md4) (out : List (ℕ × ℕ)) :
    m.checkedMatchChain H data x r0 r1 base matched checksum out =
      some (m.matchChain H data x r0 r1 base matched checksum out) := by
  have hfold : ∀ (ids : List ℕ) (s : ChainState),
      ids.foldlM (m.checkedChainStep H data x r0 r1 base matched) s =
        some (ids.foldl (m.chainStep H data x r0 r1 base matched) s) := by
    intro ids
    induction ids with
    | nil => exact fun s => rfl
    | cons id ids ih =>
      intro s
      rw [List.foldlM_cons, checkedChainStep_eq hx hx', Option.bind_eq_bind, Option.bind_some, ih,
        List.foldl_cons]
  unfold checkedMatchChain matchChain
  simp only [hfold, Option.bind_eq_bind, Option.bind_some]
  split_ifs <;> rfl

theorem checkedHintMatches_eq (hx : c.x + m.blocksize ≤ data.length) :
    m.checkedHintMatches H data c = some (m.hintMatches H data c) := by
  unfold checkedHintMatches hintMatches
  rw [Checked.slice_eq hx]
  cases c.nextMatchId with
  | none => rfl
  | some id =>
    simp only [Option.map_some, Option.bind_eq_bind, Option.bind_some]
    split_ifs <;> rfl

section InRange

variable (hs : m.Sized) (hlim : xLimit + m.context ≤ data.length)

include hs hlim

theorem windows_in_range (hx : x < xLimit) : x + m.blocksize ≤ data.length ∧
    (1 < m.hashLengths.seqMatches → x + m.blocksize + m.blocksize < data.length) := by
  have hbs := hs.blocksize_le_context
  refine ⟨by omega, fun hseq => ?_⟩
  have := hs.context_eq hseq
  omega

theorem checkedSkipBlocks_eq (matched : ℕ) (next : Option ℕ) (out : List (ℕ × ℕ)) :
    m.checkedSkipBlocks data xLimit c matched next out =
      some (m.skipBlocks data xLimit c matched next out) := by
  unfold checkedSkipBlocks skipBlocks
  by_cases hle : xLimit ≤ c.x + m.blocksize * matched
  · simp only [hle, if_true]
  · obtain ⟨h0, h1⟩ := windows_in_range hs hlim (Nat.lt_of_not_le hle)
    simp only [hle, if_false, Checked.slice_eq h0]
    by_cases hseq : 1 < m.hashLengths.seqMatches
    · simp only [hseq, true_and, if_true, Checked.slice_eq (h1 hseq).le]
      split_ifs <;> rfl
    · simp only [hseq, false_and, if_false]
      rfl

theorem checkedSlide_eq (hx : c.x < xLimit) :
    m.checkedSlide data c = some (m.slide data c) := by
  have hget : ∀ i < data.length, data[i]? = some (data.getD i 0) := fun i hi => by
    simp [List.getD_eq_getElem?_getD, hi]
  have hbs := hs.blocksize_le_context
  obtain ⟨-, h1⟩ := windows_in_range hs hlim hx
  unfold checkedSlide slide
  rw [hget c.x (by omega), hget (c.x + m.blocksize) (by omega)]
  by_cases hseq : 1 < m.hashLengths.seqMatches
  · rw [hget (c.x + m.blocksize * 2) (by have := h1 hseq; omega)]
    simp only [hseq, if_true]
    rfl
  · simp only [hseq, if_false]
    rfl

/-- **One step** before the limit stays within the data. -/
theorem checkedScanStep_eq (hx : c.x < xLimit) :
    m.checkedScanStep H data base xLimit c = some (m.scanStep H data base xLimit c) := by
  obtain ⟨h0, h1⟩ := windows_in_range hs hlim hx
  have hchain (matched : Option ℕ) (checksum : Option Md4) (out : List (ℕ × ℕ)) :
      m.checkedMatchChain H data c.x c.r0 c.r1 base matched checksum out =
        some (m.matchChain H data c.x c.r0 c.r1 base matched checksum out) :=
    checkedMatchChain_eq h0 (fun hseq => (h1 hseq).le) matched checksum out
  unfold checkedScanStep scanStep
  rw [checkedHintMatches_eq h0]
  cases m.hintMatches H data c with
  | some hit =>
    simp only [Option.bind_eq_bind, Option.bind_some, hchain]
    exact checkedSkipBlocks_eq hs hlim _ _ _
  | none =>
    simp only [Option.bind_eq_bind, Option.bind_some, hchain]
    rcases m.matchChain H data c.x c.r0 c.r1 base none none c.matchedBlocks with
      ⟨out, _ | ⟨matched, next⟩⟩
    · exact checkedSlide_eq hs hlim hx
    · exact checkedSkipBlocks_eq hs hlim _ _ _

theorem checkedScanFrom_eq (fuel : ℕ) :
    m.checkedScanFrom H data base xLimit fuel c = some (m.scanFrom H data base xLimit fuel c) := by
  induction fuel generalizing c with
  | zero => rfl
  | succ fuel ih =>
    rw [checkedScanFrom, scanFrom]
    split_ifs with hx
    · rw [checkedScanStep_eq hs hlim hx, Option.bind_eq_bind, Option.bind_some, ih]
    · rfl

/-! ### The sums are the real sums -/

theorem scanStep_ok (hc : m.CursorOk data xLimit c) (hx : c.x < xLimit) :
    m.CursorOk data xLimit (m.scanStep H data base xLimit c) := by
  unfold scanStep
  cases m.hintMatches H data c with
  | some hit => exact skipBlocks_ok hc hx _ _ _
  | none =>
    rcases m.matchChain H data c.x c.r0 c.r1 base none none c.matchedBlocks with
      ⟨out, _ | ⟨matched, next⟩⟩
    · exact slide_ok hs hlim hc hx
    · exact skipBlocks_ok hc hx _ _ _

/-- **A run** of steps leaves the cursor with the sums of its windows. -/
theorem scanFrom_ok (hc : m.CursorOk data xLimit c) (fuel : ℕ) :
    m.CursorOk data xLimit (m.scanFrom H data base xLimit fuel c) := by
  induction fuel generalizing c with
  | zero => exact hc
  | succ fuel ih =>
    rw [scanFrom]
    split_ifs with hx
    · exact ih (scanStep_ok hs hlim hc hx)
    · exact hc

end InRange

/-- The cursor that a scan of enough data starts from. -/
def scanStart (m : BlockMatcher) (data : Bytes) : ScanCursor :=
  ⟨0, calcRsumBlock (window data 0 m.blocksize),
    if 1 < m.hashLengths.seqMatches then calcRsumBlock (window data m.blocksize m.blocksize)
      else ⟨0, 0⟩,
    none, []⟩

theorem scanChunk_eq_scanFrom (h : m.context ≤ data.length) (base : ℕ) :
    m.scanChunk H data base = (m.scanFrom H data base (data.length - m.context)
      (data.length - m.context) (m.scanStart data)).matchedBlocks :=
  if_neg (Nat.not_lt.2 h)

theorem scanStart_ok (m : BlockMatcher) (data : Bytes) (xLimit : ℕ) :
    m.CursorOk data xLimit (m.scanStart data) := by
  refine fun _ => ⟨rfl, fun hseq => ?_⟩
  rw [scanStart, if_pos hseq, Nat.zero_add]

theorem checkedScanChunk_eq (hs : m.Sized) (data : Bytes) (base : ℕ) :
    m.checkedScanChunk H data base = some (m.scanChunk H data base) := by
  by_cases hlen : data.length < m.context
  · rw [checkedScanChunk, scanChunk, if_pos hlen, if_pos hlen]
  · have hbs := hs.blocksize_le_context
    have hlim : data.length - m.context + m.context ≤ data.length := by omega
    rw [scanChunk_eq_scanFrom (Nat.le_of_not_lt hlen), checkedScanChunk, if_neg hlen,
      Checked.slice_eq (show 0 + m.blocksize ≤ data.length by omega)]
    by_cases hseq : 1 < m.hashLengths.seqMatches
    · have := hs.context_eq hseq
      simp only [hseq, if_true,
        Checked.slice_eq (show m.blocksize + m.blocksize ≤ data.length by omega), Option.map_some,
        Option.bind_eq_bind, Option.bind_some, checkedScanFrom_eq hs hlim, scanStart]
    · simp only [hseq, if_false, Option.map_some, Option.bind_eq_bind, Option.bind_some,
        checkedScanFrom_eq hs hlim, scanStart]

/-- **The rolling sums are the real sums**, and no index into the data is out of range.  The scan
is the scan with every index checked, and at each of its rounds the cursor has the sums of its
windows: the second one where pairs are matched. -/
theorem scan_sums (hs : m.Sized) (H : Hashes) (data : Bytes) (base : ℕ) :
    m.checkedScanChunk H data base = some (m.scanChunk H data base) ∧
      (m.context ≤ data.length → m.scanChunk H data base =
        (m.scanFrom H data base (data.length - m.context) (data.length - m.context)
          (m.scanStart data)).matchedBlocks) ∧
      ∀ round,
        let c := m.scanFrom H data base (data.length - m.context) round (m.scanStart data)
        c.x < data.length - m.context →
          c.r0 = calcRsumBlock (window data c.x m.blocksize) ∧
          (m.hashLengths.seqMatches = 2 →
            c.r1 = calcRsumBlock (window data (c.x + m.blocksize) m.blocksize)) := by
  refine ⟨checkedScanChunk_eq hs data base, fun h => scanChunk_eq_scanFrom h base,
    fun round => ?_⟩
  intro c hx
  have hlim : data.length - m.context + m.context ≤ data.length := by omega
  have hok : m.CursorOk data (data.length - m.context) c :=
    scanFrom_ok hs hlim (scanStart_ok m data _) round
  obtain ⟨h0, h1⟩ := hok hx
  exact ⟨h0, fun hseq => h1 (by omega)⟩

/-- The sums after two steps over data that is no block of the target. -/
theorem scan_sums_pair :
    (new pairControl).checkedScanChunk pairHashes [9, 8, 7, 6, 5, 4, 3] 0 = some [] ∧
      ((new pairControl).scanFrom pairHashes [9, 8, 7, 6, 5, 4, 3] 0 3 2
        ((new pairControl).scanStart [9, 8, 7, 6, 5, 4, 3])).r1 = calcRsumBlock [5, 4] := by
  obtain ⟨hchecked, -, hsums⟩ := scan_sums (sized_new pairControl_checked) pairHashes
    [9, 8, 7, 6, 5, 4, 3] 0
  refine ⟨hchecked.trans (by decide), ?_⟩
  exact (hsums 2 (by decide)).2 rfl

end BlockMatcher

end Zsync
