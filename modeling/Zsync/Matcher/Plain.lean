import Zsync.Matcher.Reachable
import Zsync.Data.Scanner

/-!
# The plain scan

A scan that recomputes the checksums of both windows at every offset and tests every indexed block,
without the rolling update, the hash table and the bit filter, and the proof that `scan_chunk` is
this scan.

* `BlockMatcher.plainScanner` : the plain scan;
* `BlockMatcher.scanChunk_eq` : `scan_chunk` reports what the plain scan reports;
* `BlockMatcher.plainScanner_found`, `BlockMatcher.plainScanner_span` : what one test reports, and
  how far it moves on;
* `BlockMatcher.scanChunk_plain` : the tested offsets, and that no indexed block of the target is
  missed at a tested offset.
-/

namespace Zsync

namespace BlockMatcher

variable {H : Hashes} {cf : ControlFile} {m : BlockMatcher} {ids : List ℕ}

/-! ### The plain scan -/

/-- The indexed blocks that the two windows at offset `x` are found to be. -/
def plainHits (m : BlockMatcher) (H : Hashes) (ids : List ℕ) (data : Bytes) (x : ℕ)
    (matched : Option ℕ) : List ℕ :=
  let w0 := window data x m.blocksize
  let w1 := window data (x + m.blocksize) m.blocksize
  let r0 := calcRsumBlock w0
  let r1 := calcRsumBlock w1
  ids.filter fun id => m.chainHit H r0 r1 w0 w1 matched id &&
    (m.inPair id || decide (¬ 1 < m.hashLengths.seqMatches) || m.looksUp r0 r1 id)

theorem mem_plainHits_iff {data : Bytes} {x id : ℕ} {matched : Option ℕ} :
    id ∈ m.plainHits H ids data x matched ↔ id ∈ ids ∧ matched ≠ some id ∧
      m.agrees H id (calcRsumBlock (window data x m.blocksize)) (window data x m.blocksize) ∧
      (m.inPair id → m.agrees H (id + 1) (calcRsumBlock (window data (x + m.blocksize) m.blocksize))
        (window data (x + m.blocksize) m.blocksize)) ∧
      (m.inPair id ∨ ¬ 1 < m.hashLengths.seqMatches ∨
        m.looksUp (calcRsumBlock (window data x m.blocksize))
          (calcRsumBlock (window data (x + m.blocksize) m.blocksize)) id) := by
  simp only [plainHits, List.mem_filter, Bool.and_eq_true, chainHit, chainTest, decide_eq_true_eq,
    Bool.or_eq_true, Bool.not_eq_true', or_assoc, and_assoc, ← imp_iff_not_or,
    ← Bool.not_eq_true]

/-- The expected block, when the window at offset `x` is that block. -/
def plainHint (m : BlockMatcher) (H : Hashes) (data : Bytes) (x : ℕ) (hint : Option ℕ) : Option ℕ :=
  hint.filter fun id => decide (1 < m.hashLengths.seqMatches ∧ id < m.targets.length) &&
    m.agrees H id (calcRsumBlock (window data x m.blocksize)) (window data x m.blocksize)

@[simp] theorem plainHint_none (m : BlockMatcher) (H : Hashes) (data : Bytes) (x : ℕ) :
    m.plainHint H data x none = none := rfl

/-- The test of the plain scan at offset `x`. -/
def plainTest (m : BlockMatcher) (H : Hashes) (ids : List ℕ) (data : Bytes) (base x : ℕ)
    (hint : Option ℕ) : Option (Hit ℕ (ℕ × ℕ)) :=
  match m.plainHint H data x hint with
  | some id => some ⟨m.blocksize, if id + 1 < m.targets.length then some (id + 1) else none,
      (id, base + x) :: (m.plainHits H ids data x (some id)).flatMap (m.reportOf (base + x))⟩
  | none =>
    match m.plainHits H ids data x none with
    | [] => none
    | id :: rest => some ⟨m.blocksize * (m.coverOf id).1, (m.coverOf id).2,
        (id :: rest).flatMap (m.reportOf (base + x))⟩

/-- The plain scan. -/
def plainScanner (m : BlockMatcher) (hm : m.Sized) (H : Hashes) (ids : List ℕ) (data : Bytes)
    (base : ℕ) : Scanner ℕ (ℕ × ℕ) where
  test := m.plainTest H ids data base
  span_pos {x h hit} heq := by
    have hpos := hm.blocksize_pos
    unfold plainTest at heq
    split at heq
    · obtain rfl := Option.some.inj heq
      exact hpos
    · split at heq
      · cases heq
      · obtain rfl := Option.some.inj heq
        exact Nat.mul_pos hpos (hm.coverOf_pos _)

/-! ### The rolling scan is the plain scan -/

variable {data : Bytes} {xLimit : ℕ} {c : ScanCursor}

/-- The cursor carries the rolling checksums of its two windows. -/
def CursorOk (m : BlockMatcher) (data : Bytes) (xLimit : ℕ) (c : ScanCursor) : Prop :=
  c.x < xLimit → c.r0 = calcRsumBlock (window data c.x m.blocksize) ∧
    (1 < m.hashLengths.seqMatches →
      c.r1 = calcRsumBlock (window data (c.x + m.blocksize) m.blocksize))

/-- The second checksum matters only where pairs are matched. -/
theorem chainHit_congr {r0 r1 r1' : Rsum} (hr : 1 < m.hashLengths.seqMatches → r1 = r1')
    (w0 w1 : Bytes) (matched : Option ℕ) (id : ℕ) :
    (m.chainHit H r0 r1 w0 w1 matched id &&
      (m.inPair id || decide (¬ 1 < m.hashLengths.seqMatches) || m.looksUp r0 r1 id)) =
    (m.chainHit H r0 r1' w0 w1 matched id &&
      (m.inPair id || decide (¬ 1 < m.hashLengths.seqMatches) || m.looksUp r0 r1' id)) := by
  by_cases hseq : 1 < m.hashLengths.seqMatches
  · rw [hr hseq]
  · simp [hseq, chainHit, chainTest, inPair]

theorem matchChain_cursor (hm : m.Indexed ids) (hc : m.CursorOk data xLimit c) (hx : c.x < xLimit)
    (base : ℕ) (matched : Option ℕ) {checksum : Option Md4}
    (hsum : ∀ d ∈ checksum, d = H.md4 (window data c.x m.blocksize)) (out : List (ℕ × ℕ)) :
    m.matchChain H data c.x c.r0 c.r1 base matched checksum out =
      (out ++ (m.plainHits H ids data c.x matched).flatMap (m.reportOf (base + c.x)),
        (m.plainHits H ids data c.x matched).head?.map m.coverOf) := by
  obtain ⟨hr0, hr1⟩ := hc hx
  rw [matchChain_eq m H data c.x base c.r0 c.r1 matched hm hsum out, hr0]
  simp only [chainHit_congr hr1]
  rfl

theorem hintMatches_cursor (hc : m.CursorOk data xLimit c) (hx : c.x < xLimit) :
    m.hintMatches H data c = (m.plainHint H data c.x c.nextMatchId).map
      fun id => (id, H.md4 (window data c.x m.blocksize)) := by
  unfold hintMatches plainHint
  rw [← (hc hx).1]
  cases c.nextMatchId with
  | none => rfl
  | some id =>
    by_cases h1 : 1 < m.hashLengths.seqMatches ∧ id < m.targets.length
    · by_cases h2 : m.rsumMatch (m.target id).rsum c.r0
      · by_cases h3 : m.sameChecksum (H.md4 (window data c.x m.blocksize)) (m.target id).checksum
        · simp [h1, h2, h3, agrees, Option.filter]
        · simp [h1, h2, h3, agrees, Option.filter]
      · simp [h1, h2, agrees, Option.filter]
    · by_cases h2 : m.rsumMatch (m.target id).rsum c.r0 <;>
        simp [h1, h2, agrees, Option.filter]

theorem skipBlocks_fields (m : BlockMatcher) (data : Bytes) (xLimit : ℕ) (c : ScanCursor)
    (matched : ℕ) (next : Option ℕ) (out : List (ℕ × ℕ)) :
    (m.skipBlocks data xLimit c matched next out).x = c.x + m.blocksize * matched ∧
      (m.skipBlocks data xLimit c matched next out).nextMatchId = next ∧
      (m.skipBlocks data xLimit c matched next out).matchedBlocks = out := by
  unfold skipBlocks
  by_cases hle : xLimit ≤ c.x + m.blocksize * matched
  · simp only [hle, if_true, and_self]
  · simp only [hle, if_false, and_self]

theorem skipBlocks_ok (hc : m.CursorOk data xLimit c) (hx : c.x < xLimit) (matched : ℕ)
    (next : Option ℕ) (out : List (ℕ × ℕ)) :
    m.CursorOk data xLimit (m.skipBlocks data xLimit c matched next out) := by
  unfold skipBlocks
  by_cases hle : xLimit ≤ c.x + m.blocksize * matched
  · intro hlt
    simp only [hle, if_true] at hlt
    omega
  · intro _
    simp only [hle, if_false]
    refine ⟨?_, fun hseq => by rw [if_pos hseq]⟩
    split_ifs with h
    · -- after one block the second window becomes the first
      obtain ⟨hseq, rfl⟩ := h
      rw [(hc hx).2 hseq, Nat.mul_one]
    · rfl

theorem slideRsum_eq (hm : m.Sized) {x : ℕ} {r : Rsum} (hx : x + m.blocksize < data.length)
    (hr : r = calcRsumBlock (window data x m.blocksize)) :
    m.slideRsum r (data.getD x 0) (data.getD (x + m.blocksize) 0) =
      calcRsumBlock (window data (x + 1) m.blocksize) := by
  have hget : ∀ i, i < data.length → data[i]? = some (data.getD i 0) := fun i hi => by
    simp [List.getD_eq_getElem?_getD, hi]
  rw [hm.blocksize] at hx hr ⊢
  rw [calcRsumBlock_slide (hget x ((Nat.le_add_right _ _).trans_lt hx)) (hget _ hx) hr]
  rfl

theorem slide_ok (hm : m.Sized) (hlim : xLimit + m.context ≤ data.length)
    (hc : m.CursorOk data xLimit c) (hx : c.x < xLimit) :
    m.CursorOk data xLimit (m.slide data c) := by
  intro _
  have hbs := hm.blocksize_le_context
  refine ⟨slideRsum_eq hm (by omega) (hc hx).1, fun hpair => ?_⟩
  have hctx := hm.context_eq hpair
  simp only [slide, hpair, if_true, Nat.mul_two, ← Nat.add_assoc]
  rw [slideRsum_eq hm (by omega) ((hc hx).2 hpair), Nat.add_right_comm]

/-- **One step** of the rolling scan is one test of the plain scan. -/
theorem scanStep_eq (base : ℕ) (hs : m.Sized) (hm : m.Indexed ids)
    (hlim : xLimit + m.context ≤ data.length) (hc : m.CursorOk data xLimit c) (hx : c.x < xLimit) :
    let S := m.plainScanner hs H ids data base
    let c' := m.scanStep H data base xLimit c
    (c'.x, c'.nextMatchId) = S.step (c.x, c.nextMatchId) ∧
      c'.matchedBlocks = c.matchedBlocks ++ S.found (c.x, c.nextMatchId) ∧
      m.CursorOk data xLimit c' := by
  have htest : (m.plainScanner hs H ids data base).test c.x c.nextMatchId =
      m.plainTest H ids data base c.x c.nextMatchId := rfl
  simp only [Scanner.step, Scanner.span, Scanner.found, htest]
  unfold scanStep plainTest
  rw [hintMatches_cursor hc hx]
  cases hhint : m.plainHint H data c.x c.nextMatchId with
  | some id =>
    have hsum : ∀ d ∈ some (H.md4 (window data c.x m.blocksize)),
        d = H.md4 (window data c.x m.blocksize) := by simp
    simp only [Option.map_some, matchChain_cursor hm hc hx base (some id) hsum]
    refine ⟨?_, ?_, skipBlocks_ok hc hx _ _ _⟩
    · simp only [skipBlocks_fields, Option.getD_some, Option.bind_some, Nat.mul_one]
    · simp only [skipBlocks_fields, Option.getD_some, List.append_assoc, List.singleton_append]
  | none =>
    have hsum : ∀ d ∈ (none : Option Md4), d = H.md4 (window data c.x m.blocksize) := by simp
    simp only [Option.map_none, matchChain_cursor hm hc hx base none hsum]
    cases m.plainHits H ids data c.x none with
    | nil =>
      refine ⟨rfl, ?_, slide_ok hs hlim hc hx⟩
      simp [slide]
    | cons id rest =>
      refine ⟨?_, ?_, skipBlocks_ok hc hx _ _ _⟩
      · simp only [List.head?_cons, skipBlocks_fields, Option.map_some, Option.getD_some,
          Option.bind_some]
      · simp only [List.head?_cons, skipBlocks_fields, Option.map_some, Option.getD_some]

/-- **The run**: from a cursor with its checksums, with enough rounds to reach the limit. -/
theorem scanFrom_eq (base : ℕ) (hs : m.Sized) (hm : m.Indexed ids)
    (hlim : xLimit + m.context ≤ data.length)
    (hc : m.CursorOk data xLimit c) {fuel : ℕ} (hfuel : xLimit ≤ c.x + fuel) :
    (m.scanFrom H data base xLimit fuel c).matchedBlocks = c.matchedBlocks ++
      (m.plainScanner hs H ids data base).reports xLimit (c.x, c.nextMatchId) := by
  induction fuel generalizing c with
  | zero =>
    rw [scanFrom, Scanner.reports_of_le _ (by simpa using hfuel), List.append_nil]
  | succ fuel ih =>
    rw [scanFrom]
    split_ifs with hx
    · obtain ⟨hstep, hfound, hok⟩ := scanStep_eq base hs hm hlim hc hx
      have hspan := (m.plainScanner hs H ids data base).span_eq_pos (c.x, c.nextMatchId)
      have hx' := congrArg Prod.fst hstep
      simp only [Scanner.step] at hx'
      rw [ih hok (by omega), hfound, Scanner.reports_of_lt _ (v := (c.x, c.nextMatchId)) hx, hstep,
        List.append_assoc]
    · rw [Scanner.reports_of_le _ (Nat.le_of_not_lt hx), List.append_nil]

/-- **`scan_chunk` is the plain scan.** -/
theorem scanChunk_eq (hs : m.Sized) (hm : m.Indexed ids) (data : Bytes) (base : ℕ) :
    m.scanChunk H data base =
      (m.plainScanner hs H ids data base).reports (data.length - m.context) (0, none) := by
  unfold scanChunk
  by_cases hlen : data.length < m.context
  · rw [if_pos hlen, Scanner.reports_of_le _ (by simp; omega)]
  · have hok : m.CursorOk data (data.length - m.context) ⟨0,
        calcRsumBlock (window data 0 m.blocksize),
        if 1 < m.hashLengths.seqMatches then calcRsumBlock (window data m.blocksize m.blocksize)
          else ⟨0, 0⟩,
        none, []⟩ := by
      intro _
      refine ⟨rfl, fun hseq => ?_⟩
      rw [if_pos hseq, Nat.zero_add]
    rw [if_neg hlen]
    exact scanFrom_eq base hs hm (by omega) hok (by simp)

/-! ### Nothing indexed is missed -/

/-- How far the plain scan moves on: over one block after the expected block or a match that stands
alone, over two after a pair. -/
def plainSpan (m : BlockMatcher) (H : Hashes) (ids : List ℕ) (data : Bytes)
    (u : ℕ × Option ℕ) : ℕ :=
  if (m.plainHint H data u.1 u.2).isSome then m.blocksize
  else
    match m.plainHits H ids data u.1 none with
    | [] => 1
    | id :: _ => if m.inPair id then 2 * m.blocksize else m.blocksize

theorem plainScanner_span (hs : m.Sized) (data : Bytes) (base : ℕ) (u : ℕ × Option ℕ) :
    (m.plainScanner hs H ids data base).span u = m.plainSpan H ids data u := by
  have hpair : ∀ id, m.inPair id → m.hashLengths.seqMatches = 2 := fun id hid =>
    hs.seq_eq_two (of_decide_eq_true hid).1
  simp only [Scanner.span, plainScanner, plainTest, plainSpan]
  cases m.plainHint H data u.1 u.2 with
  | some id => rfl
  | none =>
    cases m.plainHits H ids data u.1 none with
    | nil => rfl
    | cons id rest =>
      by_cases hid : m.inPair id
      · simp [coverOf, hid, hpair id hid, Nat.mul_comm]
      · simp [coverOf, hid]

/-- One test reports the expected block when the window is that block, and every indexed block that
the two windows are found to be. -/
theorem plainScanner_found (hs : m.Sized) (data : Bytes) (base : ℕ) (u : ℕ × Option ℕ) :
    (m.plainScanner hs H ids data base).found u =
      (m.plainHint H data u.1 u.2).toList.map (fun id => (id, base + u.1)) ++
        (m.plainHits H ids data u.1 (m.plainHint H data u.1 u.2)).flatMap
          (m.reportOf (base + u.1)) := by
  simp only [Scanner.found, plainScanner, plainTest]
  cases m.plainHint H data u.1 u.2 with
  | some id => rfl
  | none =>
    cases m.plainHits H ids data u.1 none with
    | nil => rfl
    | cons id rest => rfl

theorem mem_found_of_hint (hs : m.Sized) {base : ℕ} {u : ℕ × Option ℕ} {id : ℕ}
    (h : m.plainHint H data u.1 u.2 = some id) :
    (id, base + u.1) ∈ (m.plainScanner hs H ids data base).found u := by
  rw [plainScanner_found, h]
  exact List.mem_append_left _ List.mem_cons_self

theorem mem_found_of_hit (hs : m.Sized) {base : ℕ} {u : ℕ × Option ℕ} {id : ℕ}
    (h : id ∈ m.plainHits H ids data u.1 (m.plainHint H data u.1 u.2)) :
    (id, base + u.1) ∈ (m.plainScanner hs H ids data base).found u ∧
      (m.inPair id → (id + 1, base + u.1 + m.blocksize) ∈
        (m.plainScanner hs H ids data base).found u) := by
  rw [plainScanner_found]
  constructor
  · refine List.mem_append_right _ (List.mem_flatMap.2 ⟨id, h, ?_⟩)
    unfold reportOf
    split_ifs <;> exact List.mem_cons_self
  · intro hpair
    refine List.mem_append_right _ (List.mem_flatMap.2 ⟨id, h, ?_⟩)
    simp [reportOf, hpair]

theorem mem_plainHits {T : Bytes} (hcf : cf.Checked) (hT : cf.DescribesTarget H T)
    (hr : 2 ≤ cf.hashLengths.rsumBytes) (h : m.shape = (unindexed cf).shape) {x id : ℕ}
    (hid : id ∈ ids) (hlt : id < m.targets.length)
    (hlast : 1 < m.hashLengths.seqMatches → id + 1 < m.targets.length)
    (hw : window data x m.blocksize = targetBlock T m.blocksize id)
    (hnext : 1 < m.hashLengths.seqMatches →
      window data (x + m.blocksize) m.blocksize = targetBlock T m.blocksize (id + 1))
    {matched : Option ℕ} (hm : matched ≠ some id) : id ∈ m.plainHits H ids data x matched := by
  have hbs : m.blocksize = cf.blocksize := blocksize_congr h
  have hid0 := agrees_target hcf hT hr h hlt
  refine mem_plainHits_iff.2 ⟨hid, hm, ?_, fun hpair => ?_, ?_⟩
  · rw [hw, hbs]
    exact hid0
  · simp only [inPair, decide_eq_true_eq] at hpair
    rw [hnext hpair.1, hbs]
    exact agrees_target hcf hT hr h hpair.2
  · by_cases hseq : 1 < m.hashLengths.seqMatches
    · simp [inPair, hseq, hlast hseq]
    · simp [hseq]

/-- **The rolling scan is the plain scan**: it tests the offsets that no skip passes over, and at
each of them it finds every indexed block of the target whose bytes, and whose successor's bytes
where pairs are matched, are there.  The last block of the target has no successor, so where pairs
are matched it is left out. -/
theorem scanChunk_plain {T : Bytes} (hcf : cf.Checked) (hT : cf.DescribesTarget H T)
    (hrsum : 2 ≤ cf.hashLengths.rsumBytes) (hm : Reachable H cf m ids) (data : Bytes) (base : ℕ) :
    let S := m.plainScanner (hm.sized hcf) H ids data base
    let visits := S.visits (data.length - m.context) (0, none)
    m.scanChunk H data base = visits.flatMap S.found ∧
      (∀ x, (∃ u ∈ visits, u.1 = x) ↔
        x < data.length - m.context ∧ ∀ u ∈ visits, ¬ (u.1 < x ∧ x < u.1 + S.span u)) ∧
      (∀ u ∈ visits, S.span u = m.plainSpan H ids data u) ∧
      ∀ u ∈ visits, ∀ id ∈ ids, (1 < m.hashLengths.seqMatches → id + 1 < m.targets.length) →
        window data u.1 m.blocksize = targetBlock T m.blocksize id →
        (1 < m.hashLengths.seqMatches →
          window data (u.1 + m.blocksize) m.blocksize = targetBlock T m.blocksize (id + 1)) →
        (id, base + u.1) ∈ S.found u ∧
          (1 < m.hashLengths.seqMatches → m.plainHint H data u.1 u.2 ≠ some id →
            (id + 1, base + u.1 + m.blocksize) ∈ S.found u) := by
  obtain ⟨hind, hshape⟩ := hm.indexed hcf
  refine ⟨scanChunk_eq _ hind data base, fun x => ?_, fun u _ => plainScanner_span _ _ _ u, ?_⟩
  · have hiff := (m.plainScanner (hm.sized hcf) H ids data base).mem_visits_iff
      (v := (0, none)) (x := x) (l := data.length - m.context)
    simpa using hiff
  intro u _ id hid hlast hw hnext
  have hhit : m.plainHint H data u.1 u.2 ≠ some id →
      id ∈ m.plainHits H ids data u.1 (m.plainHint H data u.1 u.2) :=
    mem_plainHits hcf hT hrsum hshape hid (hind.lt id hid) hlast hw hnext
  constructor
  · by_cases hhint : m.plainHint H data u.1 u.2 = some id
    · exact mem_found_of_hint _ hhint
    · exact (mem_found_of_hit _ (hhit hhint)).1
  · intro hseq hhint
    exact (mem_found_of_hit _ (hhit hhint)).2 (by simp [inPair, hseq, hlast hseq])

/-- The MD4 digests of the two blocks of a target of four bytes. -/
def pairHashes : Hashes where
  md4 w :=
    if w = [1, 2] then
      ⟨[0x36, 0x84, 0x52, 0xce, 0x22, 0x42, 0xf6, 0x96,
        0xdd, 0x01, 0xd9, 0x46, 0x0d, 0x8d, 0xf4, 0x1a], rfl⟩
    else
      ⟨[0x78, 0x1b, 0xae, 0x02, 0x8b, 0x5c, 0x18, 0x5a,
        0x87, 0x71, 0xbb, 0x57, 0x02, 0x0d, 0x70, 0x00], rfl⟩
  sha1 _ := ⟨List.replicate 20 0, rfl⟩

/-- The control file of the target of four bytes, in two blocks that are matched as a pair. -/
def pairControl : ControlFile where
  version := "0.6.2"
  filename := none
  mtime := none
  blocksize := 2
  length := 4
  hashLengths := ⟨2, 2, 3⟩
  urls := []
  sha1 := none
  blockChecksums := (List.range 2).map fun i => BlockChecksum.stored ⟨2, 2, 3⟩
    ⟨calcRsumBlock (targetBlock [1, 2, 3, 4] 2 i), pairHashes.md4 (targetBlock [1, 2, 3, 4] 2 i)⟩

theorem pairControl_checked : pairControl.Checked :=
  ⟨⟨1, rfl⟩, by decide, ⟨by decide, by decide, by decide, by decide, by decide, by decide⟩, rfl,
    by decide⟩

/-- A new matcher finds both blocks at the start of the target itself. -/
theorem scanChunk_plain_pair :
    (0, 10) ∈ (new pairControl).scanChunk pairHashes [1, 2, 3, 4, 0, 0, 0, 0] 10 ∧
      (1, 12) ∈ (new pairControl).scanChunk pairHashes [1, 2, 3, 4, 0, 0, 0, 0] 10 := by
  have hnew : Reachable pairHashes pairControl (new pairControl) (List.range 2) := Reachable.new
  obtain ⟨hscan, -, -, hfound⟩ := scanChunk_plain (T := [1, 2, 3, 4]) pairControl_checked ⟨rfl, rfl⟩
    (by decide) hnew [1, 2, 3, 4, 0, 0, 0, 0] 10
  have hlim : 0 < [1, 2, 3, 4, 0, 0, 0, 0].length - (new pairControl).context := by decide
  have hstart := Scanner.mem_visits_self ((new pairControl).plainScanner
    (hnew.sized pairControl_checked)
    pairHashes (List.range 2) [1, 2, 3, 4, 0, 0, 0, 0] 10) (v := (0, none)) hlim
  obtain ⟨h0, h1⟩ := hfound _ hstart 0 (by decide) (fun _ => by decide) rfl (fun _ => rfl)
  rw [hscan]
  exact ⟨List.mem_flatMap.2 ⟨_, hstart, h0⟩,
    List.mem_flatMap.2 ⟨_, hstart, h1 (by decide) (by decide)⟩⟩

end BlockMatcher

end Zsync
