import Zsync.Assembly.Flaky
import Zsync.Http.Plan
import Zsync.Matcher.Shape

/-!
# Ranges in memory

The other way to download: the ranges are fetched into memory, and their blocks are given to the
matcher.

* `HttpClient.fetchRanges` : each range into memory, one request at a time;
* `fetched_capped` : no body is longer than its range, whatever the server sends;
* `HttpRangeReader.readToEnd_sends` : what is read to the end is all that was requested;
* `fetched_completes` : the ranges planned for the blocks that are unknown complete the matcher.
-/

namespace Zsync

/-- `read_to_end`, with the length of the buffer that each read is made with.  It makes a read that
was interrupted again, so a read here is one that was not. -/
def HttpRangeReader.readToEnd (bufs : ℕ → ℕ+) (r : HttpRangeReader) (buf : Bytes) :
    Except IoErrorKind Bytes :=
  match _h : r.read (bufs r.reads) with
  | (.error e, _) => .error e
  | (.ok got, r') => if _hgot : got = [] then .ok buf else readToEnd bufs r' (buf ++ got)
termination_by r.remaining
decreasing_by
  have hsum := read_eq_ok _h
  have hpos := List.length_pos_iff.2 _hgot
  omega

namespace HttpClient

/-- Fetches `start..=stop` of `url` into memory. -/
def fetchRange (agent : Agent) (bufs : ℕ → ℕ+) (url : String) (start stop : ℕ) :
    Prog HttpClient HttpError Bytes := do
  let client ← Prog.read
  let r := fetchRangeReader agent client url start stop
  Prog.modify fun _ => r.2
  let reader ← Prog.ofExcept r.1
  Prog.ofExcept ((reader.readToEnd bufs []).mapError .io)

/-- Fetches each range, one request at a time.  Each body is paired with its start, rounded down to
a multiple of `blocksize`, which is positive. -/
def fetchRanges (agent : Agent) (bufs : ℕ → ℕ+) (url : String) (blocksize : ℕ) :
    List (ℕ × ℕ) → Prog HttpClient HttpError (List (ℕ × Bytes))
  | [] => pure []
  | (start, stop) :: ranges => do
    let data ← fetchRange agent bufs url start stop
    let results ← fetchRanges agent bufs url blocksize ranges
    pure ((start / blocksize * blocksize, data) :: results)

end HttpClient

/-! ### The cap -/

theorem HttpRangeReader.length_readToEnd_le {bufs : ℕ → ℕ+} {r : HttpRangeReader} {buf out : Bytes}
    (h : r.readToEnd bufs buf = .ok out) : out.length ≤ buf.length + r.remaining := by
  induction hrem : r.remaining using Nat.strong_induction_on generalizing r buf with
  | _ k ih =>
    rw [readToEnd] at h
    split at h
    · cases h
    · rename_i got r' hread
      have hsum := read_eq_ok hread
      split_ifs at h with hgot
      · cases h
        exact Nat.le_add_right _ _
      · have hpos := List.length_pos_iff.2 hgot
        have hrest := ih r'.remaining (by omega) h rfl
        rw [List.length_append] at hrest
        omega

/-- **The cap in memory.**  Whatever the server sends, a fetch returns one body for each range, with
the block that the range starts in, and no body is longer than its range. -/
theorem fetched_capped (agent : Agent) (bufs : ℕ → ℕ+) (url : String) (blocksize : ℕ)
    (ranges : List (ℕ × ℕ)) (client : HttpClient) :
    Prog.Post
      (fun results _ => List.Forall₂
        (fun r p => p.1 = r.1 / blocksize * blocksize ∧ p.2.length ≤ r.2 - r.1 + 1) ranges results)
      (fun _ _ => True) (HttpClient.fetchRanges agent bufs url blocksize ranges client) := by
  have hone : ∀ start stop, Prog.Triple (fun _ => True)
      (HttpClient.fetchRange agent bufs url start stop)
      (fun data _ => data.length ≤ stop - start + 1) (fun _ _ => True) := by
    intro start stop
    refine Prog.Triple.read fun client _ => Prog.Triple.bind (Q := fun _ _ => True)
      (Prog.Triple.modify fun _ _ => trivial) fun _ => ?_
    refine Prog.Triple.bind (Q := fun reader _ => reader.remaining = stop - start + 1)
      (Prog.Triple.ofExcept (fun reader hreader _ _ => ?_) fun _ _ _ _ => trivial) fun reader =>
        fun c hreader => Prog.Triple.ofExcept (P := fun _ => True) (fun data hdata _ _ => ?_)
          (fun _ _ _ _ => trivial) c trivial
    · exact HttpClient.remaining_of_fetchRangeReader (Prod.ext hreader rfl)
    · cases hend : reader.readToEnd bufs [] with
      | error kind => simp [hend, Except.mapError] at hdata
      | ok out =>
        rw [hend] at hdata
        cases hdata
        have hle := HttpRangeReader.length_readToEnd_le hend
        rwa [List.length_nil, Nat.zero_add, hreader] at hle
  suffices h : Prog.Triple (fun _ => True)
      (HttpClient.fetchRanges agent bufs url blocksize ranges) _ _ from h client trivial
  induction ranges with
  | nil => exact Prog.Triple.pure fun _ _ => List.Forall₂.nil
  | cons r ranges ih =>
    refine Prog.Triple.bind (hone r.1 r.2) fun data c hdata => ?_
    exact Prog.Triple.bind (P := fun _ => True) ih (fun results => Prog.Triple.pure fun _ h =>
      List.Forall₂.cons ⟨rfl, hdata⟩ h) c trivial

/-! ### What arrives -/

/-- **Reading to the end** gives all bytes that are left, or fails because they are not given. -/
theorem HttpRangeReader.readToEnd_sends (bufs : ℕ → ℕ+) {r : HttpRangeReader} {data : Bytes}
    (hs : Sends r.reader data) (hlen : r.consumed + r.remaining = data.length) (buf : Bytes) :
    r.readToEnd bufs buf = .ok (buf ++ window data r.consumed r.remaining) ∨
      ¬ Serves r.reader data ∧ ∃ kind, r.readToEnd bufs buf = .error kind := by
  induction hrem : r.remaining using Nat.strong_induction_on generalizing r buf with
  | _ k ih =>
    rw [readToEnd]
    rcases Nat.eq_zero_or_pos r.remaining with hzero | hpos
    · left
      have hread : r.read (bufs r.reads) =
          (.ok [], { r with reader := Body.empty, reads := 0, consumed := 0 }) := if_pos hzero
      rw [← hrem, hzero]
      split
      · cases hread.symm.trans ‹_›
      · cases hread.symm.trans ‹_›
        simp [window]
    · obtain ⟨n, hn, hle, hread⟩ | ⟨hnot, kind, reader', hread⟩ :=
        read_of_sends hs hlen (bufs r.reads).pos hpos
      · have hne : window data r.consumed n ≠ [] :=
          List.ne_nil_of_length_pos (by rw [length_window (by omega)]; exact hn)
        -- the bytes that are read now come before those that are read later
        have hsplit : window data r.consumed n ++ window data (r.consumed + n) (r.remaining - n) =
            window data r.consumed k := by
          rw [window_append_window, Nat.add_sub_cancel' hle, hrem]
        have hrest := ih (r.remaining - n) (by omega)
          (r := ⟨r.reader, r.reads + 1, r.consumed + n, r.remaining - n⟩) hs
          (by dsimp only; omega) (buf ++ window data r.consumed n) rfl
        rw [List.append_assoc, hsplit] at hrest
        split
        · cases hread.symm.trans ‹_›
        · cases hread.symm.trans ‹_›
          rw [dif_neg hne]
          exact hrest
      · refine Or.inr ⟨hnot, kind, ?_⟩
        split
        · cases hread.symm.trans ‹_›
          rfl
        · cases hread.symm.trans ‹_›

section Fetch

variable {agent : Agent} {T : Bytes} {bad : ℕ → Prop} {bufs : ℕ → ℕ+}

/-- A fetch fails in a way that may pass, and its last requests were bad. -/
def FetchFailed (bad : ℕ → Prop) (q : ℕ) (e : HttpError) (client : HttpClient) : Prop :=
  e.isTransient ∧ ∃ p, q ≤ p ∧ AllBad bad p client

variable (hf : Flaky agent T bad)
include hf

/-- **One range** in memory is that of the target, or its requests were bad. -/
theorem HttpClient.fetchRange_flaky (url : String) {start stop : ℕ} (hle : start ≤ stop)
    (hlt : stop < T.length) (q : ℕ) :
    Prog.Triple (fun client => q ≤ client.requests)
      (HttpClient.fetchRange agent bufs url start stop)
      (fun data client => data = window T start (stop - start + 1) ∧ q ≤ client.requests)
      (FetchFailed bad q) := by
  refine Prog.Triple.read fun client hq => ?_
  refine Prog.Triple.bind (Q := fun _ c => c = (fetchRangeReader agent client url start stop).2)
    (Prog.Triple.modify fun _ _ => rfl) fun _ => ?_
  rcases Zsync.fetchRangeReader_flaky hf client url hle hlt with
    ⟨body, hok, hmore, hsends, hserves⟩ | ⟨e, herr, he, hall⟩
  · have hread := HttpRangeReader.readToEnd_sends bufs
      (r := ⟨body, 0, 0, stop - start + 1⟩) hsends
      (by rw [length_window (by omega)]; exact Nat.zero_add _) []
    rw [hok]
    rintro _ rfl
    rcases hread with hall | ⟨hnot, kind, herr⟩
    · have hwindow : window (window T start (stop - start + 1)) 0 (stop - start + 1) =
          window T start (stop - start + 1) := window_window (by omega)
      change Prog.Post _ _ (Prog.ofExcept ((HttpRangeReader.readToEnd _ _ _).mapError _) _)
      rw [hall, List.nil_append, hwindow]
      exact ⟨rfl, hq.trans hmore.le⟩
    · change Prog.Post _ _ (Prog.ofExcept ((HttpRangeReader.readToEnd _ _ _).mapError _) _)
      rw [herr]
      exact ⟨rfl, _, hq, hserves.resolve_left hnot⟩
  · rw [herr]
    rintro _ rfl
    exact ⟨he, _, hq, hall⟩

/-- **The ranges** in memory are those of the target, or the last requests were bad. -/
theorem HttpClient.fetchRanges_flaky (url : String) {blocksize : ℕ} {ranges : List (ℕ × ℕ)}
    (hranges : ∀ r ∈ ranges, Planned blocksize T.length r) (q : ℕ) :
    Prog.Triple (fun client => q ≤ client.requests)
      (HttpClient.fetchRanges agent bufs url blocksize ranges)
      (fun results client =>
        results = ranges.map (fun r => (r.1, window T r.1 (r.2 - r.1 + 1))) ∧
          q ≤ client.requests)
      (FetchFailed bad q) := by
  induction ranges with
  | nil => exact Prog.Triple.pure fun _ hq => ⟨rfl, hq⟩
  | cons r ranges ih =>
    obtain ⟨hr, hrest⟩ := List.forall_mem_cons.1 hranges
    refine Prog.Triple.bind (HttpClient.fetchRange_flaky hf url hr.le hr.lt q) fun data =>
      Prog.Triple.assuming fun hdata => Prog.Triple.bind (ih hrest) fun results =>
        Prog.Triple.pure fun client h => ⟨?_, h.2⟩
    rw [hdata, h.1, List.map_cons, Nat.div_mul_cancel hr.start]

end Fetch

/-! ### Blocks -/

namespace BlockMatcher

/-- The call that gives the matcher a fetched range: its bytes, filled up to whole blocks. -/
def Submission.fetched (blocksize : ℕ) (p : ℕ × Bytes) : Submission :=
  .blocks (padTo (ControlFile.numBlocks p.2.length blocksize * blocksize) p.2) (p.1 / blocksize)

end BlockMatcher

section Blocks

variable {H : Hashes} {cf : ControlFile} {T : Bytes} {m : BlockMatcher} {ids : List ℕ}

/-- A planned range, filled up to whole blocks, is made of target blocks. -/
theorem Planned.window_padTo {blocksize i : ℕ} {r : ℕ × ℕ} (hr : Planned blocksize T.length r)
    (hbs : 0 < blocksize) {n : ℕ} (hn : n = ControlFile.numBlocks (r.2 - r.1 + 1) blocksize)
    (hi : i < n) :
    window (padTo (n * blocksize) (window T r.1 (r.2 - r.1 + 1))) (i * blocksize) blocksize =
      targetBlock T blocksize (r.1 / blocksize + i) := by
  have hle := hr.le
  have hlt := hr.lt
  have hstart : r.1 = r.1 / blocksize * blocksize := (Nat.div_mul_cancel hr.start).symm
  have hin : i * blocksize < r.2 - r.1 + 1 := (ControlFile.lt_numBlocks hbs).1 (hn ▸ hi)
  have hwhole : (i + 1) * blocksize ≤ n * blocksize := Nat.mul_le_mul_right _ hi
  -- a block that ends past the range ends past the target
  have hstop : (i + 1) * blocksize ≤ r.2 - r.1 + 1 ∨ r.2 + 1 = T.length := by
    refine hr.stop.imp_left fun hdvd => ?_
    obtain ⟨k, hk⟩ := Nat.dvd_sub hdvd hr.start
    have hlen : r.2 - r.1 + 1 = k * blocksize := by rw [Nat.mul_comm, ← hk]; omega
    rw [hlen] at hin ⊢
    exact Nat.mul_le_mul_right _ (Nat.lt_of_mul_lt_mul_right hin)
  rw [Nat.succ_mul] at hwhole hstop
  apply List.ext_getElem?
  intro j
  rw [targetBlock, getElem?_window, getElem?_padTo, getElem?_padTo]
  by_cases hj : j < blocksize
  · rw [if_pos hj, if_pos hj, if_pos (by omega), List.getD_eq_getElem?_getD,
      List.getD_eq_getElem?_getD, getElem?_window, getElem?_window, if_pos hj, Nat.add_mul,
      ← hstart, ← Nat.add_assoc]
    split_ifs with hshort
    · rfl
    · rw [List.getElem?_eq_none (by omega : T.length ≤ r.1 + i * blocksize + j)]
  · rw [if_neg hj, if_neg hj]

theorem submitBlocksFrom_target (hcf : cf.Checked) (hT : cf.DescribesTarget H T)
    (hshape : m.shape = (BlockMatcher.unindexed cf).shape) (hc : m.Counted) (data : Bytes)
    (first : ℕ) {is : List ℕ} (his : ∀ i ∈ is, first + i < cf.blockChecksums.length ∧
      window data (i * cf.blocksize) cf.blocksize = targetBlock T cf.blocksize (first + i)) :
    (BlockMatcher.submitBlocksFrom H data first is m).2 ∧
      ∀ id, (m.isBlockKnown id ∨ ∃ i ∈ is, id = first + i) →
        (BlockMatcher.submitBlocksFrom H data first is m).1.isBlockKnown id := by
  induction is generalizing m with
  | nil => exact ⟨rfl, fun id h => h.resolve_right (by simp)⟩
  | cons i is ih =>
    obtain ⟨⟨hlt, hblock⟩, hrest⟩ := List.forall_mem_cons.1 his
    have hid : first + i < m.targets.length := by rwa [BlockMatcher.length_targets hshape]
    have hbs : m.blocksize = cf.blocksize := BlockMatcher.blocksize_congr hshape
    have hsame : m.sameChecksum (H.md4 (window data (i * m.blocksize) m.blocksize))
        (m.target (first + i)).checksum :=
      (BlockMatcher.sameChecksum_target hcf hT hshape hid _).2 (by rw [hbs, hblock])
    rw [BlockMatcher.submitBlocksFrom, if_neg (Nat.not_le.2 hid), if_pos hsame]
    obtain ⟨hok, hknown⟩ := ih ((BlockMatcher.shape_markKnown m _).trans hshape)
      (hc.markKnown hid) hrest
    refine ⟨hok, fun id h => hknown id ?_⟩
    rw [BlockMatcher.isBlockKnown_markKnown (hc.length ▸ hid)]
    rcases h with h | ⟨j, hj, rfl⟩
    · exact Or.inl (by rw [h, Bool.or_true])
    · rcases List.mem_cons.1 hj with rfl | hj
      · exact Or.inl (by simp)
      · exact Or.inr ⟨j, hj, rfl⟩

/-- **A fetched range** is taken by every matcher of the control file, which then knows its
blocks. -/
theorem submit_fetched (hcf : cf.Checked) (hT : cf.DescribesTarget H T)
    (hm : BlockMatcher.Reachable H cf m ids) {r : ℕ × ℕ}
    (hr : Planned cf.blocksize T.length r) :
    let data := window T r.1 (r.2 - r.1 + 1)
    let n := ControlFile.numBlocks data.length cf.blocksize
    let result := m.submitBlocks H (padTo (n * cf.blocksize) data) (r.1 / cf.blocksize)
    result.2 ∧ ∀ id, m.isBlockKnown id ∨ r.1 ≤ id * cf.blocksize ∧ id * cf.blocksize ≤ r.2 →
      result.1.isBlockKnown id := by
  intro data n result
  have hbs := hcf.blocksize_pos
  have hle := hr.le
  have hlt := hr.lt
  have hn : n = ControlFile.numBlocks (r.2 - r.1 + 1) cf.blocksize := by
    rw [← length_window (l := T) (x := r.1) (n := r.2 - r.1 + 1) (by omega)]
  obtain ⟨-, hshape⟩ := hm.indexed hcf
  have hcount : (padTo (n * cf.blocksize) data).length / m.blocksize = n := by
    rw [length_padTo, BlockMatcher.blocksize_congr hshape]
    exact Nat.mul_div_cancel _ hbs
  have hstart : r.1 / cf.blocksize * cf.blocksize = r.1 := Nat.div_mul_cancel hr.start
  have hblocks : ∀ i ∈ List.range n, r.1 / cf.blocksize + i < cf.blockChecksums.length ∧
      window (padTo (n * cf.blocksize) data) (i * cf.blocksize) cf.blocksize =
        targetBlock T cf.blocksize (r.1 / cf.blocksize + i) := by
    intro i hi
    have hi := List.mem_range.1 hi
    refine ⟨?_, hr.window_padTo hbs hn hi⟩
    have hin := (ControlFile.lt_numBlocks hbs).1 (hn ▸ hi)
    have hlength := hT.length
    rw [hcf.count, ControlFile.lt_numBlocks hbs, Nat.add_mul, hstart]
    omega
  obtain ⟨hok, hknown⟩ := submitBlocksFrom_target hcf hT hshape (hm.counted hcf)
    (padTo (n * cf.blocksize) data) _ hblocks
  have hresult : result = BlockMatcher.submitBlocksFrom H (padTo (n * cf.blocksize) data)
      (r.1 / cf.blocksize) (List.range n) m := by
    simp only [result, BlockMatcher.submitBlocks, hcount]
  rw [hresult]
  refine ⟨hok, fun id h => hknown id (h.imp_right fun hin => ?_)⟩
  obtain ⟨h1, h2⟩ := hin
  have hfirst : r.1 / cf.blocksize ≤ id := (Nat.div_le_div_right h1).trans_eq
    (Nat.mul_div_cancel _ hbs)
  refine ⟨id - r.1 / cf.blocksize, List.mem_range.2 ?_, (Nat.add_sub_cancel' hfirst).symm⟩
  rw [hn, ControlFile.lt_numBlocks hbs, Nat.sub_mul, hstart]
  omega

theorem submitAll_fetched (hcf : cf.Checked) (hT : cf.DescribesTarget H T)
    {ranges : List (ℕ × ℕ)} (hranges : ∀ r ∈ ranges, Planned cf.blocksize T.length r)
    (hm : BlockMatcher.Reachable H cf m ids) {id : ℕ}
    (hid : m.isBlockKnown id ∨
      ∃ r ∈ ranges, r.1 ≤ id * cf.blocksize ∧ id * cf.blocksize ≤ r.2) :
    (BlockMatcher.submitAll H (ranges.map fun r =>
      .fetched cf.blocksize (r.1, window T r.1 (r.2 - r.1 + 1))) m).1.isBlockKnown id := by
  induction ranges generalizing m ids with
  | nil => exact hid.resolve_right (by simp)
  | cons r ranges ih =>
    obtain ⟨hr, hrest⟩ := List.forall_mem_cons.1 hranges
    have hknown := (submit_fetched hcf hT hm hr).2
    refine ih hrest (hm.submit (.fetched cf.blocksize (r.1, window T r.1 (r.2 - r.1 + 1)))) ?_
    rcases hid with hid | ⟨r', hr', hin⟩
    · exact Or.inl (hknown id (Or.inl hid))
    · rcases List.mem_cons.1 hr' with rfl | hr'
      · exact Or.inl (hknown id (Or.inr hin))
      · exact Or.inr ⟨r', hr', hin⟩

/-- **A download in memory.**  A server that sends the target, over connections that break now and
then, is asked for the ranges planned for the blocks that a matcher does not know.  Unless the last
requests were bad, the result is these ranges of the target.  Filled up to whole blocks, no matcher
of the control file refuses one of them, and given them all the matcher is complete. -/
theorem fetched_completes {agent : Agent} {bad : ℕ → Prop} (hf : Flaky agent T bad)
    (hcf : cf.Checked) (hT : cf.DescribesTarget H T) (hm : BlockMatcher.Reachable H cf m ids)
    (gapThreshold : ℕ) (bufs : ℕ → ℕ+) (url : String) (client : HttpClient) :
    Prog.Post
      (fun results _ =>
        results = (requestsFor m cf gapThreshold).map
          (fun r => (r.1, window T r.1 (r.2 - r.1 + 1))) ∧
        (∀ p ∈ results, ∀ m' ids', BlockMatcher.Reachable H cf m' ids' →
          (m'.submitBlocks H
            (padTo (ControlFile.numBlocks p.2.length cf.blocksize * cf.blocksize) p.2)
            (p.1 / cf.blocksize)).2) ∧
        (BlockMatcher.submitAll H (results.map (.fetched cf.blocksize)) m).1.isComplete)
      (fun e client' => e.isTransient ∧ ∃ p, client.requests ≤ p ∧ AllBad bad p client')
      (HttpClient.fetchRanges agent bufs url cf.blocksize (requestsFor m cf gapThreshold)
        client) := by
  have hbs := hcf.blocksize_pos
  obtain ⟨-, hshape⟩ := hm.indexed hcf
  have htotal : m.totalBlocks = cf.blockChecksums.length := BlockMatcher.length_targets hshape
  have hplanned : ∀ r ∈ requestsFor m cf gapThreshold, Planned cf.blocksize T.length r :=
    hT.length ▸ (planExact hcf (hm.counted hcf) htotal gapThreshold).planned
  refine (HttpClient.fetchRanges_flaky hf url hplanned client.requests client le_rfl).mono
    (fun results client' h => ⟨h.1, ?_, ?_⟩) fun _ _ h => h
  · rw [h.1]
    simp only [List.forall_mem_map]
    exact fun r hr m' ids' hm' => (submit_fetched hcf hT hm' (hplanned r hr)).1
  · have hall := hm.submitAll (results.map (.fetched cf.blocksize))
    rw [(hall.counted hcf).isComplete_iff]
    intro id hid
    rw [BlockMatcher.totalBlocks, BlockMatcher.length_targets (hall.indexed hcf).2] at hid
    rw [h.1, List.map_map]
    refine submitAll_fetched hcf hT hplanned hm ?_
    cases hknown : m.isBlockKnown id with
    | true => exact Or.inl rfl
    | false =>
      -- the first byte of the block is requested
      refine Or.inr (exists_request hcf (hm.counted hcf) htotal gapThreshold ?_ ?_)
      · rwa [← ControlFile.lt_numBlocks hbs, ← hcf.count]
      · rwa [Nat.mul_div_cancel _ hbs]

/-- One block, fetched from a server that sends it a byte at a time. -/
theorem fetched_completes_tiny :
    let cf := tinyControl none
    let m := BlockMatcher.new cf
    Flaky (Agent.serving [1, 0]) [1, 0] (fun _ => False) ∧
      ∃ client', HttpClient.fetchRanges (Agent.serving [1, 0]) (fun _ => 1) "u" 2
          (requestsFor m cf 0) ⟨none, 0⟩ = (.ok [(0, [1, 0])], client') ∧
        (BlockMatcher.submitAll tinyHashes [.blocks [1, 0] 0] m).1.isComplete := by
  intro cf m
  have hf : Flaky (Agent.serving [1, 0]) [1, 0] (fun _ => False) := fun _ _ _ _ _ _ =>
    Or.inl ⟨_, rfl, Or.inl rfl, fun _ _ len _ hlen => Or.inl ⟨len, hlen, rfl⟩,
      Or.inl fun _ _ len _ hlen => ⟨len, hlen, rfl⟩⟩
  refine ⟨hf, ?_⟩
  have hall := fetched_completes hf (checked_tinyControl none) describesTarget_tiny
    BlockMatcher.Reachable.new 0 (fun _ => 1) "u" ⟨none, 0⟩
  revert hall
  change Prog.Post _ _ (HttpClient.fetchRanges (Agent.serving [1, 0]) (fun _ => 1) "u" 2
    (requestsFor m cf 0) ⟨none, 0⟩) → _
  match HttpClient.fetchRanges (Agent.serving [1, 0]) (fun _ => 1) "u" 2
    (requestsFor m cf 0) ⟨none, 0⟩ with
  | (.ok results, client') =>
    rintro ⟨hresults, -, hcomplete⟩
    have hone : results = [(0, [1, 0])] := hresults.trans (by decide +kernel)
    subst hone
    exact ⟨client', rfl, hcomplete⟩
  | (.error e, client') =>
    rintro ⟨-, p, -, hmore, hbad⟩
    exact (hbad p le_rfl hmore).elim

end Blocks

end Zsync
