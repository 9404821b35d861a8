import Zsync.Assembly.Progress
import Zsync.Matcher.Threads

/-!
# The windows of a seed scan

The chunks in which a seed is scanned, when it does not change and its reads are not short.

* `chunkData` : the data of one chunk, said of the content of the seed;
* `bufferSlices` : the slices of the buffer that one chunk takes;
* `scanRound_window` : one chunk scans this data and copies blocks of the seed;
* `submitSourceFile_windows` : the chunks of a scan, which leave out no offset.
-/

namespace Zsync

variable {env : Env} {cf : ControlFile} {s : State} {seed : Seed} {S : Bytes}

/-! ### Reads -/

/-- A seed with the content `S`, which does not change and whose reads are not short. -/
structure Seed.Holds (seed : Seed) (S : Bytes) : Prop where
  size : seed.size = .ok S.length
  read : ∀ clock offset len, seed.read clock offset len = .ok (window S offset len)
  limit : S.length ≤ seed.limit

/-- The state `n` instants later. -/
def State.later (n : ℕ) (s : State) : State := { s with clock := s.clock + n }

theorem quiet_later (n : ℕ) (s : State) : Quiet s (s.later n) :=
  Quiet.of_eq rfl rfl rfl rfl rfl rfl ⟨[], rfl, by simp⟩

theorem later_later (n k : ℕ) (s : State) : (s.later n).later k = s.later (n + k) := by
  simp only [State.later, Nat.add_assoc]

theorem Seed.Holds.readAtOffset (hS : seed.Holds S) (offset len : ℕ) (s : State) :
    seed.readAtOffset offset len s = (.ok (window S offset len), s.later 1) := by
  have hlimit := hS.limit
  simp only [Seed.readAtOffset, hS.read]
  split_ifs with h
  · rw [window, List.drop_eq_nil_of_le (hlimit.trans h), List.take_nil]
    rfl
  · rw [List.take_of_length_le (length_window_le _ _ _)]
    rfl

theorem checkAborted_run (h : env.abort s.clock = false) :
    checkAborted env s = (.ok (), s.later 1) := by
  simp only [checkAborted, Prog.bind_run, Prog.read, Prog.modify, Prog.next, h, Bool.false_eq_true,
    if_false]
  rfl

theorem byteAt_overlap (buf : Bytes) {start len i : ℕ} (h : start + len ≤ S.length) (hi : i < len) :
    byteAt (writeAt buf 0 (window S start len)) i = byteAt S (start + i) := by
  rw [byteAt_writeAt, length_window h, if_pos (by omega), Nat.sub_zero, byteAt_window, if_pos hi]

/-- What is behind a chunk in the buffer: the bytes that follow it, and zeros past the end. -/
theorem byteAt_context (buf : Bytes) {context dataLen stop : ℕ} (hlt : stop < S.length) :
    let available := min (S.length - stop) context
    let read := writeAt buf dataLen (window S stop available)
    let filled := if available < context then
      writeAt read (dataLen + available) (List.replicate (context - available) 0) else read
    (∀ i < dataLen, byteAt filled i = byteAt buf i) ∧
      ∀ i < context, byteAt filled (dataLen + i) = byteAt S (stop + i) := by
  intro available read filled
  have hlen : (window S stop available).length = available := length_window (by omega)
  constructor
  · intro i hi
    simp only [filled, read]
    split_ifs
    · rw [byteAt_writeAt, if_neg (by omega), byteAt_writeAt, if_neg (by omega)]
    · rw [byteAt_writeAt, if_neg (by omega)]
  · intro i hi
    -- the bytes that were read, and the zeros that fill them up
    by_cases hread : i < S.length - stop
    · have hold : byteAt read (dataLen + i) = byteAt S (stop + i) := by
        rw [byteAt_writeAt, hlen, if_pos (by omega), byteAt_window, if_pos (by omega),
          Nat.add_sub_cancel_left]
      simp only [filled]
      split_ifs
      · rw [byteAt_writeAt, if_neg (by omega), hold]
      · exact hold
    · simp only [filled]
      rw [if_pos (by omega), byteAt_writeAt, List.length_replicate, if_pos (by omega),
        byteAt_replicate_zero, byteAt_of_le (l := S) (by omega)]

theorem byteAt_zeros_behind (buf : Bytes) {context dataLen stop : ℕ} (hle : S.length ≤ stop) :
    (∀ i < dataLen, byteAt (writeAt buf dataLen (List.replicate context 0)) i = byteAt buf i) ∧
      ∀ i < context, byteAt (writeAt buf dataLen (List.replicate context 0)) (dataLen + i) =
        byteAt S (stop + i) := by
  refine ⟨fun i hi => ?_, fun i hi => ?_⟩
  · rw [byteAt_writeAt, if_neg (by omega)]
  · rw [byteAt_writeAt, List.length_replicate, if_pos (by omega), byteAt_replicate_zero,
      byteAt_of_le (l := S) (by omega)]

/-- **The overlap** is in front of the buffer. -/
theorem readOverlap_run (hS : seed.Holds S) (buf : Bytes) (start len : ℕ)
    (h : start + len ≤ S.length) (s : State) :
    ∃ n buf', readOverlap seed.readAtOffset buf start len s = (.ok buf', s.later n) ∧
      ∀ i < len, byteAt buf' i = byteAt S (start + i) := by
  unfold readOverlap
  split_ifs with hlen
  · rw [Prog.bind_run, hS.readAtOffset]
    exact ⟨1, _, rfl, fun i hi => byteAt_overlap buf h hi⟩
  · exact ⟨0, buf, rfl, fun i hi => by omega⟩

/-- **The context** follows the chunk, with zeros past the end of the seed. -/
theorem readContext_run (hS : seed.Holds S) (context : ℕ) (buf : Bytes) (dataLen stop : ℕ)
    (s : State) :
    ∃ n buf', readContext seed.readAtOffset S.length context buf dataLen stop s =
        (.ok buf', s.later n) ∧
      (∀ i < dataLen, byteAt buf' i = byteAt buf i) ∧
      ∀ i < context, byteAt buf' (dataLen + i) = byteAt S (stop + i) := by
  unfold readContext
  split_ifs with hlt
  · rw [Prog.bind_run, hS.readAtOffset]
    exact ⟨1, _, rfl, byteAt_context buf hlt⟩
  · exact ⟨0, _, rfl, byteAt_zeros_behind buf (Nat.le_of_not_lt hlt)⟩

/-! ### One chunk -/

/-- The data of the chunk at `offset` of `S`: the bytes of `S` from the overlap on, with zeros past
the end. -/
def chunkData (S : Bytes) (chunkSize context offset : ℕ) : Bytes :=
  let overlapStart := offset - context
  let overlapLen := offset - overlapStart
  let bytesRead := min chunkSize (S.length - offset)
  slice S overlapStart (overlapLen + bytesRead + context)

/-- What a scan does with a chunk of a file whose content is `S`. -/
def scanWindow (env : Env) (S : Bytes) (create : Bool) (blocksize chunkSize context : ℕ)
    (buf : Bytes) (v : ScanVars) : Asm (ScanVars ⊕ ℕ) := do
  let bytesRead := min chunkSize (S.length - v.fileOffset)
  let matchedBlocks ←
    submitChunk env (chunkData S chunkSize context v.fileOffset) (v.fileOffset - context)
  matchedBlocks.forM fun p => do
    openTemp env create
    writeAtOffset env (slice S p.2 blocksize) (p.1 * blocksize)
  Prog.modify fun s => s.note (.scanProgress (v.fileOffset + bytesRead) S.length)
  let totalMatched := v.totalMatched + matchedBlocks.length
  if bytesRead < chunkSize then pure (.inr totalMatched)
  else pure (.inl ⟨buf, v.fileOffset + bytesRead, totalMatched⟩)

theorem storeMatches_eq (hcontrol : s.control = cf) {create : Bool} {buf : Bytes} {start : ℕ}
    {matched : List (ℕ × ℕ)}
    (h : ∀ p ∈ matched, slice buf (p.2 - start) cf.blocksize = slice S p.2 cf.blocksize) :
    storeMatches env create buf start matched s =
      (matched.forM fun p => do
        openTemp env create
        writeAtOffset env (slice S p.2 cf.blocksize) (p.1 * cf.blocksize)) s := by
  rw [storeMatches, Prog.bind_run]
  simp only [Prog.read, Prog.next, hcontrol]
  exact congrFun (Prog.forM_congr fun p hp => by rw [h p hp]) s

theorem Base.inside (hs : Base env cf s) (hcf : cf.Checked) {data : Bytes} {offset : ℕ} {p : ℕ × ℕ}
    (hp : p ∈ (s.matcher.submitSourceData env.hashes env.cores data offset).2) :
    offset ≤ p.2 ∧ p.2 - offset + cf.blocksize ≤ data.length := by
  obtain ⟨ids, hm⟩ := hs.matcher
  have hsees := ((BlockMatcher.submitSourceData_spec (H := env.hashes) (hs.sized hcf)
    (hm.indexed hcf).1 (hs.counted hcf) env.cores data offset).2.2.1 p hp).1
  exact ⟨hsees.base_le, hs.blocksize hcf ▸ hsees.inside⟩

/-- The three reads of a chunk leave its data in the buffer, whatever the buffer held before. -/
theorem slice_buffer {buf₁ buf₂ : Bytes} {chunkSize context offset : ℕ}
    (hoverlap : ∀ i < offset - (offset - context), byteAt buf₁ i = byteAt S (offset - context + i))
    (hchunk : ∀ i < offset - (offset - context) + (window S offset chunkSize).length,
      byteAt buf₂ i =
        byteAt (writeAt buf₁ (offset - (offset - context)) (window S offset chunkSize)) i)
    (hafter : ∀ i < context,
      byteAt buf₂ (offset - (offset - context) + (window S offset chunkSize).length + i) =
        byteAt S (offset + (window S offset chunkSize).length + i)) :
    slice buf₂ 0 (offset - (offset - context) + (window S offset chunkSize).length + context) =
      chunkData S chunkSize context offset := by
  have hgot : (window S offset chunkSize).length = min chunkSize (S.length - offset) := by
    simp [window]
  rw [chunkData, ← hgot]
  refine slice_ext fun i hi => ?_
  rw [Nat.zero_add]
  by_cases hdata : i < offset - (offset - context) + (window S offset chunkSize).length
  · rw [hchunk i hdata, byteAt_writeAt]
    split_ifs with hcovered
    · rw [byteAt_window, if_pos (by omega)]
      congr 1
      omega
    · exact hoverlap i (by omega)
  · have hi' := hafter (i - (offset - (offset - context) + (window S offset chunkSize).length))
      (by omega)
    rw [Nat.add_sub_of_le (by omega)] at hi'
    rw [hi']
    congr 1
    omega

theorem slice_found {buf : Bytes} {chunkSize context offset dataLen x n : ℕ}
    (hbuf : slice buf 0 dataLen = chunkData S chunkSize context offset)
    (hle : offset - context ≤ x)
    (hinside : x - (offset - context) + n ≤ (chunkData S chunkSize context offset).length) :
    slice buf (x - (offset - context)) n = slice S x n := by
  have hlen : x - (offset - context) + n ≤ dataLen := by
    rwa [← hbuf, length_slice] at hinside
  rw [chunkData, length_slice] at hinside
  calc slice buf (x - (offset - context)) n
      = slice (chunkData S chunkSize context offset) (x - (offset - context)) n := by
        rw [← hbuf, slice_slice hlen, Nat.zero_add]
    _ = slice S x n := by
        rw [chunkData, slice_slice hinside, Nat.add_sub_of_le hle]

/-- **One chunk** of a scan is a chunk of the content of the seed, whatever the buffer held
before. -/
theorem scanRound_window (hcf : cf.Checked) (hS : seed.Holds S) (hs : Base env cf s) {v : ScanVars}
    (create : Bool) {chunkSize : ℕ} (hpos : 0 < chunkSize) (hoffset : v.fileOffset < S.length)
    (hgo : env.abort s.clock = false) (context : ℕ) :
    ∃ n buf, scanRound env seed.readAtOffset create S.length chunkSize context v s =
      scanWindow env S create cf.blocksize chunkSize context buf v (s.later n) := by
  obtain ⟨n₁, buf₁, hoverlap, hbuf₁⟩ := readOverlap_run hS v.buf
    (v.fileOffset - context) (v.fileOffset - (v.fileOffset - context)) (by omega)
    (s.later 1)
  have hgot :
      (window S v.fileOffset chunkSize).length = min chunkSize (S.length - v.fileOffset) := by
    simp [window]
  have hne : window S v.fileOffset chunkSize ≠ [] := List.ne_nil_of_length_pos (by omega)
  obtain ⟨n₂, buf₂, hcontext, hbuf₂, hafter⟩ := readContext_run hS context
    (writeAt buf₁ (v.fileOffset - (v.fileOffset - context)) (window S v.fileOffset chunkSize))
    (v.fileOffset - (v.fileOffset - context) + (window S v.fileOffset chunkSize).length)
    (v.fileOffset + (window S v.fileOffset chunkSize).length)
    ((s.later 1).later (n₁ + 1))
  have hslice := slice_buffer hbuf₁ hbuf₂ hafter
  refine ⟨1 + (n₁ + 1 + n₂), buf₂, ?_⟩
  simp only [scanRound, scanWindow]
  rw [Prog.bind_run, checkAborted_run hgo]
  simp only [Prog.next]
  rw [Prog.bind_run, hoverlap]
  simp only [Prog.next]
  rw [Prog.bind_run, hS.readAtOffset, later_later]
  simp only [Prog.next, hne, if_false]
  rw [Prog.bind_run, hcontext, later_later, later_later]
  simp only [Prog.next]
  rw [hslice, hgot, Prog.bind_run, Prog.bind_run]
  -- what is found is stored from the buffer, where it is as in the seed
  have hbase : Base env cf (s.later (1 + (n₁ + 1 + n₂))) := (quiet_later _ s).base hs
  obtain ⟨t, hrun, hcontrol⟩ : ∃ t, submitChunk env (chunkData S chunkSize context v.fileOffset)
      (v.fileOffset - context) (s.later (1 + (n₁ + 1 + n₂))) =
        (.ok ((s.later (1 + (n₁ + 1 + n₂))).matcher.submitSourceData env.hashes env.cores
          (chunkData S chunkSize context v.fileOffset) (v.fileOffset - context)).2, t) ∧
      t.control = cf := ⟨_, rfl, hbase.control⟩
  rw [hrun]
  simp only [Prog.next]
  rw [Prog.bind_run, Prog.bind_run, storeMatches_eq (S := S) hcontrol fun p hp => ?_]
  obtain ⟨hle, hinside⟩ := hbase.inside hcf hp
  exact slice_found hslice hle hinside

/-- What a chunk returns: the end of the scan when it was not full. -/
theorem scanWindow_result (env : Env) (S : Bytes) (create : Bool) (blocksize chunkSize context : ℕ)
    (buf : Bytes) (v : ScanVars) :
    let bytesRead := min chunkSize (S.length - v.fileOffset)
    Prog.Triple (fun _ => True) (scanWindow env S create blocksize chunkSize context buf v)
      (fun r _ => ∃ total, r = if bytesRead < chunkSize then .inr total
        else .inl ⟨buf, v.fileOffset + bytesRead, total⟩) (fun _ _ => True) := by
  refine Prog.Triple.bind (Prog.Triple.trivial _) fun matched => ?_
  refine Prog.Triple.bind (Prog.Triple.trivial _) fun _ => ?_
  refine Prog.Triple.bind (Prog.Triple.trivial _) fun _ => ?_
  refine Prog.Triple.ite (fun h => Prog.Triple.pure fun _ _ => ⟨_, (if_pos h).symm⟩) fun h =>
    Prog.Triple.pure fun _ _ => ⟨_, (if_neg h).symm⟩

theorem scanRound_aborted (hgo : env.abort s.clock = true) (readAt : ℕ → ℕ → Asm Bytes)
    (create : Bool) (fileSize chunkSize context : ℕ) (v : ScanVars) :
    scanRound env readAt create fileSize chunkSize context v s = (.error .aborted, s.later 1) := by
  have hrun : checkAborted env s = (.error .aborted, s.later 1) := by
    simp only [checkAborted, Prog.bind_run, Prog.read, Prog.modify, Prog.next, hgo, if_true]
    rfl
  rw [scanRound, Prog.bind_run, hrun]
  rfl

theorem abort_of_scanRound {readAt : ℕ → ℕ → Asm Bytes} {create : Bool}
    {fileSize chunkSize context : ℕ} {v : ScanVars} {r : ScanVars ⊕ ℕ} {s' : State}
    (hrun : scanRound env readAt create fileSize chunkSize context v s = (.ok r, s')) :
    env.abort s.clock = false := by
  by_contra habort
  rw [scanRound_aborted (by simpa using habort)] at hrun
  cases hrun

theorem scanRound_end (hS : seed.Holds S) {v : ScanVars} (create : Bool) (chunkSize : ℕ)
    (hoffset : v.fileOffset = S.length) (hgo : env.abort s.clock = false) (context : ℕ) :
    ∃ n, scanRound env seed.readAtOffset create S.length chunkSize context v s =
      (.ok (.inr v.totalMatched), s.later n) := by
  obtain ⟨n₁, buf₁, hoverlap, -⟩ := readOverlap_run hS v.buf
    (v.fileOffset - context) (v.fileOffset - (v.fileOffset - context)) (by omega)
    (s.later 1)
  have hnil : window S v.fileOffset chunkSize = [] := by
    rw [window, List.drop_eq_nil_of_le hoffset.ge, List.take_nil]
  refine ⟨1 + n₁ + 1, ?_⟩
  simp only [scanRound]
  rw [Prog.bind_run, checkAborted_run hgo]
  simp only [Prog.next]
  rw [Prog.bind_run, hoverlap]
  simp only [Prog.next]
  rw [Prog.bind_run, hS.readAtOffset, later_later, later_later]
  simp only [Prog.next, hnil, if_true, Nat.add_assoc]
  rfl

/-- **The next chunk** follows a full one. -/
theorem scanRound_next (hcf : cf.Checked) (hS : seed.Holds S) (hs : Base env cf s) {v v' : ScanVars}
    {s' : State} {chunkSize : ℕ} (hpos : 0 < chunkSize) (hoffset : v.fileOffset ≤ S.length)
    {context : ℕ} (hrun : scanRound env seed.readAtOffset true S.length chunkSize context v s =
      (.ok (.inl v'), s')) :
    Base env cf s' ∧ v'.fileOffset = v.fileOffset + chunkSize ∧ v'.fileOffset ≤ S.length := by
  have hbase := (keeps_true env cf).scanRound hcf (fun _ _ => trivial)
    (fun P hP => triple_seed_readAtOffset hP seed) true S.length chunkSize context v s
    ⟨trivial, hs, Or.inl rfl⟩
  rw [hrun] at hbase
  have hgo := abort_of_scanRound hrun
  rcases Nat.lt_or_eq_of_le hoffset with hlt | heq
  · obtain ⟨n, buf, hwindow⟩ := scanRound_window hcf hS hs true hpos hlt hgo context
    have hresult := scanWindow_result env S true cf.blocksize chunkSize context buf v
      (s.later n) trivial
    rw [← hwindow, hrun] at hresult
    obtain ⟨total, htotal⟩ := hresult
    split_ifs at htotal with hfull
    obtain rfl := Sum.inl.inj htotal
    refine ⟨hbase.2.1, ?_, ?_⟩ <;> dsimp only <;> omega
  · obtain ⟨n, hend⟩ := scanRound_end hS true chunkSize heq hgo context
    rw [hend] at hrun
    cases hrun

/-! ### The whole scan -/

/-- The slices of the buffer that a chunk takes, by start and stop: for the overlap, for the chunk,
for what follows it and for the zeros after that, for the data, and for each block found. -/
def bufferSlices (fileSize chunkSize context blocksize fileOffset bytesRead : ℕ)
    (matchedBlocks : List (ℕ × ℕ)) : List (ℕ × ℕ) :=
  let overlapStart := fileOffset - context
  let overlapLen := fileOffset - overlapStart
  let dataLen := overlapLen + bytesRead
  let available := min (fileSize - (fileOffset + bytesRead)) context
  [(0, overlapLen), (overlapLen, overlapLen + chunkSize)] ++
    (if fileOffset + bytesRead < fileSize then
      [(dataLen, dataLen + available), (dataLen + available, dataLen + context)]
    else [(dataLen, dataLen + context)]) ++
    (0, dataLen + context) ::
      matchedBlocks.map fun p => (p.2 - overlapStart, p.2 - overlapStart + blocksize)

theorem bufferSlices_le {fileSize chunkSize context blocksize fileOffset bytesRead : ℕ}
    {matchedBlocks : List (ℕ × ℕ)} (hread : bytesRead ≤ chunkSize)
    (hinside : ∀ p ∈ matchedBlocks, p.2 - (fileOffset - context) + blocksize ≤
      fileOffset - (fileOffset - context) + bytesRead + context) {b : ℕ × ℕ}
    (hb : b ∈
      bufferSlices fileSize chunkSize context blocksize fileOffset bytesRead matchedBlocks) :
    b.1 ≤ b.2 ∧ b.2 ≤ chunkSize + 2 * context := by
  simp only [bufferSlices, List.mem_append, List.mem_cons, List.not_mem_nil, or_false,
    List.mem_map] at hb
  rcases hb with ((rfl | rfl) | hb) | rfl | ⟨p, hp, rfl⟩
  · dsimp only
    omega
  · dsimp only
    omega
  · split_ifs at hb
    · simp only [List.mem_cons, List.not_mem_nil, or_false] at hb
      rcases hb with rfl | rfl <;> dsimp only <;> omega
    · obtain rfl := List.mem_singleton.1 hb
      dsimp only
      omega
  · dsimp only
    omega
  · have := hinside p hp
    dsimp only
    omega

/-- Offset `o` is one that the scan of a piece of the chunk at `fileOffset` may test: one of the
first positions of the piece, up to the context. -/
def InPiece (m : BlockMatcher) (cores : ℕ) (S : Bytes) (chunkSize context fileOffset o : ℕ) :
    Prop :=
  ∃ b ∈ m.threadSlices cores (chunkData S chunkSize context fileOffset).length,
    fileOffset - context + b.1 ≤ o ∧ o - (fileOffset - context + b.1) < b.2 - b.1 - context

theorem Base.context (hs : Base env cf s) (hcf : cf.Checked) :
    s.matcher.context = cf.blocksize * cf.hashLengths.seqMatches :=
  BlockMatcher.context_of_shape (hs.shape hcf)

theorem inPiece_chunk {m : BlockMatcher} {cores chunkSize context fileOffset o : ℕ}
    (hm : m.context = context) (hle : fileOffset ≤ o) (hlt : o < fileOffset + chunkSize)
    (ho : o < S.length) : InPiece m cores S chunkSize context fileOffset o := by
  obtain ⟨b, hb, h1, h2⟩ := BlockMatcher.exists_threadSlice m cores
    (x := o - (fileOffset - context)) (n := (chunkData S chunkSize context fileOffset).length) (by
      rw [chunkData, length_slice]
      omega)
  exact ⟨b, hb, by omega, by omega⟩

/-- **The rounds of a scan** are the chunks of the seed, one after another. -/
theorem reaches_window (hcf : cf.Checked) (hS : seed.Holds S) (hs : Base env cf s) {chunkSize : ℕ}
    (hpos : 0 < chunkSize) {context k : ℕ} {b v : ScanVars} {t : State}
    (h : Prog.Reaches (scanRound env seed.readAtOffset true S.length chunkSize context) k b s v t)
    (hb : b.fileOffset ≤ S.length) :
    Base env cf t ∧ v.fileOffset = b.fileOffset + k * chunkSize ∧ v.fileOffset ≤ S.length := by
  induction h with
  | refl => exact ⟨hs, by simp, hb⟩
  | next _ hrun ih =>
    obtain ⟨hbase, hoffset, hle⟩ := ih hs hb
    obtain ⟨hbase', hoffset', hle'⟩ := scanRound_next hcf hS hbase hpos hle hrun
    refine ⟨hbase', ?_, hle'⟩
    rw [hoffset', hoffset, Nat.succ_mul, Nat.add_assoc]

theorem round_of_reaches {chunkSize context n k : ℕ} {v : ScanVars} {t : State} {limit : ℕ}
    (hk : k ≤ limit)
    (hok : (Prog.loop (scanRound env seed.readAtOffset true S.length chunkSize context)
      ScanVars.totalMatched (limit + 1) ⟨[], 0, 0⟩ s).1 = .ok n)
    (h : Prog.Reaches (scanRound env seed.readAtOffset true S.length chunkSize context) k ⟨[], 0, 0⟩
      s v t) :
    env.abort t.clock = false ∧ ∃ r t',
      scanRound env seed.readAtOffset true S.length chunkSize context v t = (.ok r, t') := by
  have hloop := h.loop_eq ScanVars.totalMatched (limit - k + 1)
  rw [show k + (limit - k + 1) = limit + 1 by omega] at hloop
  rw [hloop, Prog.loop, Prog.bind_run] at hok
  rcases hrun : scanRound env seed.readAtOffset true S.length chunkSize context v t with
    ⟨e | r, t'⟩
  · rw [hrun] at hok
    cases hok
  · exact ⟨abort_of_scanRound hrun, r, t', rfl⟩

/-- The bound that the model gives the rounds leaves none out. -/
theorem Seed.Holds.rounds_le (hS : seed.Holds S) {k chunkSize : ℕ} (hpos : 0 < chunkSize)
    (hk : k * chunkSize < S.length) : k ≤ seed.limit := by
  have := Nat.le_mul_of_pos_right k hpos
  have := hS.limit
  omega

/-- **A scan that returns** has come to every chunk. -/
theorem exists_reaches (hcf : cf.Checked) (hS : seed.Holds S) (hs : Base env cf s) {chunkSize : ℕ}
    (hpos : 0 < chunkSize) {context n : ℕ}
    (hok : (Prog.loop (scanRound env seed.readAtOffset true S.length chunkSize context)
      ScanVars.totalMatched (seed.limit + 1) ⟨[], 0, 0⟩ s).1 = .ok n) (k : ℕ)
    (hk : k * chunkSize < S.length) :
    ∃ v t, Prog.Reaches (scanRound env seed.readAtOffset true S.length chunkSize context) k
      ⟨[], 0, 0⟩ s v t ∧ env.abort t.clock = false := by
  have hreach : ∃ v t,
      Prog.Reaches (scanRound env seed.readAtOffset true S.length chunkSize context) k
      ⟨[], 0, 0⟩ s v t := by
    induction k with
    | zero => exact ⟨_, _, .refl⟩
    | succ k ih =>
      rw [Nat.succ_mul] at hk
      obtain ⟨v, t, h⟩ := ih (by omega)
      obtain ⟨hbase, hoffset, -⟩ := reaches_window hcf hS hs hpos h (Nat.zero_le _)
      rw [Nat.zero_add] at hoffset
      obtain ⟨hgo, r, t', hrun⟩ := round_of_reaches (hS.rounds_le hpos (by omega)) hok h
      have hlt : v.fileOffset < S.length := by omega
      obtain ⟨i, buf, hwindow⟩ := scanRound_window hcf hS hbase true hpos hlt hgo context
      have hresult := scanWindow_result env S true cf.blocksize chunkSize context buf v
        (t.later i) trivial
      rw [← hwindow, hrun] at hresult
      obtain ⟨total, htotal⟩ := hresult
      -- the chunk was full
      rw [if_neg (by omega)] at htotal
      exact ⟨_, _, .next h (htotal ▸ hrun)⟩
  obtain ⟨v, t, h⟩ := hreach
  exact ⟨v, t, h, (round_of_reaches (hS.rounds_le hpos hk) hok h).1⟩

theorem submitSourceFile_eq (hs : Base env cf s) (hS : seed.Holds S)
    (hlen : cf.blocksize * cf.hashLengths.seqMatches ≤ S.length) :
    submitSourceFile env seed s = Prog.loop (scanRound env seed.readAtOffset true S.length
        (max streamChunkSize (cf.blocksize * cf.hashLengths.seqMatches * 2))
        (cf.blocksize * cf.hashLengths.seqMatches))
      ScanVars.totalMatched (seed.limit + 1) ⟨[], 0, 0⟩ s := by
  rw [submitSourceFile, hS.size, Prog.bind_run]
  change scanFile env seed.readAtOffset true S.length (seed.limit + 1) s = _
  rw [scanFile, Prog.bind_run]
  simp only [Prog.read, Prog.next, hs.control]
  rw [if_neg (Nat.not_lt.2 hlen)]

/-- **The windows of a seed scan.**  For every control file that `parse` accepts, after any calls,
and for every seed that does not change, whose reads are not short and that is long enough to be
scanned: the scan takes the chunks of the seed one after another; the slices that a chunk takes lie
in the buffer, and those of its threads in its data; what is submitted is the seed from the overlap
on, with zeros past its end, and what is written is what the seed has at the offset of each match.
A scan that returns has tested every offset of the seed in some piece of some chunk. -/
theorem submitSourceFile_windows {input : Bytes} (hp : ControlFile.parse input = .ok cf) (env : Env)
    (outputPath : String) (baseUrl : Option String) (http : HttpClient) (fs : String → Option File)
    (calls : List Call) (hS : seed.Holds S)
    (hlen : cf.blocksize * cf.hashLengths.seqMatches ≤ S.length) :
    let s := runCalls env calls
      (State.start (ZsyncAssembly.withClient cf outputPath baseUrl http) fs)
    let context := cf.blocksize * cf.hashLengths.seqMatches
    let chunkSize := max streamChunkSize (context * 2)
    let round := scanRound env seed.readAtOffset true S.length chunkSize context
    submitSourceFile env seed s =
        Prog.loop round ScanVars.totalMatched (seed.limit + 1) ⟨[], 0, 0⟩ s ∧
      (∀ k v t, Prog.Reaches round k ⟨[], 0, 0⟩ s v t →
        let data := chunkData S chunkSize context v.fileOffset
        let found := t.matcher.submitSourceData env.hashes env.cores data (v.fileOffset - context)
        let slices := bufferSlices S.length chunkSize context cf.blocksize v.fileOffset
          (min chunkSize (S.length - v.fileOffset)) found.2
        v.fileOffset = k * chunkSize ∧ v.fileOffset ≤ S.length ∧
          (∀ b ∈ slices, b.1 ≤ b.2 ∧ b.2 ≤ chunkSize + 2 * context) ∧
          (∀ b ∈ t.matcher.threadSlices env.cores data.length,
            b.1 + context ≤ b.2 ∧ b.2 ≤ data.length) ∧
          (t.matcher.candidates env.hashes env.cores data (v.fileOffset - context) =
            (t.matcher.threadSlices env.cores data.length).flatMap fun b =>
              t.matcher.scanChunk env.hashes (window data b.1 (b.2 - b.1))
                (v.fileOffset - context + b.1)) ∧
          (v.fileOffset < S.length → env.abort t.clock = false → ∃ n buf,
            round v t = scanWindow env S true cf.blocksize chunkSize context buf v (t.later n))) ∧
      ∀ n, (submitSourceFile env seed s).1 = .ok n → ∀ o < S.length, ∃ k v t,
        Prog.Reaches round k ⟨[], 0, 0⟩ s v t ∧ v.fileOffset < S.length ∧
          env.abort t.clock = false ∧
          InPiece t.matcher env.cores S chunkSize context v.fileOffset o := by
  have hcf := ControlFile.checked_of_parse hp
  intro s context chunkSize round
  have hbase : Base env cf s := ((keeps_true env cf).runCalls hcf (fun _ => trivial) calls
    ⟨trivial, base_start cf outputPath baseUrl http fs⟩).2
  have hpos : 0 < chunkSize := lt_max_of_lt_left (by decide)
  have hrun : submitSourceFile env seed s =
      Prog.loop round ScanVars.totalMatched (seed.limit + 1) ⟨[], 0, 0⟩ s :=
    submitSourceFile_eq hbase hS hlen
  refine ⟨hrun, fun k v t h => ?_, fun n hok o ho => ?_⟩
  · obtain ⟨hbase', hoffset, hle⟩ := reaches_window hcf hS hbase hpos h (Nat.zero_le _)
    have hdata : (chunkData S chunkSize context v.fileOffset).length =
        v.fileOffset - (v.fileOffset - context) + min chunkSize (S.length - v.fileOffset) +
          context :=
      length_slice _ _ _
    refine ⟨by simpa using hoffset, hle, fun b hb => ?_, fun b hb => ?_,
      BlockMatcher.candidates_eq_slices _ _, fun hlt hgo => ?_⟩
    · exact bufferSlices_le (min_le_left _ _) (fun p hp => hdata ▸ (hbase'.inside hcf hp).2) hb
    · have hcontext := hbase'.context hcf
      have := BlockMatcher.threadSlices_le (by rw [hcontext, hdata]; omega) hb
      rwa [hcontext] at this
    · exact scanRound_window hcf hS hbase' true hpos hlt hgo context
  · rw [hrun] at hok
    have hdiv := Nat.div_mul_le_self o chunkSize
    have hlt := Nat.lt_div_mul_add (a := o) hpos
    obtain ⟨v, t, h, hgo⟩ := exists_reaches hcf hS hbase hpos hok (o / chunkSize) (by omega)
    obtain ⟨hbase', hoffset, -⟩ := reaches_window hcf hS hbase hpos h (Nat.zero_le _)
    rw [Nat.zero_add] at hoffset
    exact ⟨_, v, t, h, by omega, hgo,
      inPiece_chunk (hbase'.context hcf) (by omega) (by omega) ho⟩

/-- A seed of three bytes that is read in full. -/
def tinySeed : Seed where
  size := .ok 3
  read _ offset len := .ok (window [9, 1, 0] offset len)
  limit := 3

theorem tinySeed_holds : tinySeed.Holds [9, 1, 0] := ⟨rfl, fun _ _ _ => rfl, le_rfl⟩

/-- The scan of this seed finds the target behind its first byte, and tests the last offset too. -/
theorem submitSourceFile_windows_tiny :
    (submitSourceFile (tinyEnv [1, 0] none) tinySeed (tinyStart none none)).1 = .ok 1 ∧
      ∃ k v t, Prog.Reaches (scanRound (tinyEnv [1, 0] none) tinySeed.readAtOffset true 3
          (max streamChunkSize (2 * 2)) 2) k ⟨[], 0, 0⟩ (tinyStart none none) v t ∧
        InPiece t.matcher 1 [9, 1, 0] (max streamChunkSize (2 * 2)) 2 v.fileOffset 2 := by
  have hparse :
      ControlFile.parse (ControlFile.write (tinyControl none)) = .ok (tinyControl none) := by
    decide +kernel
  have hrun :
      (submitSourceFile (tinyEnv [1, 0] none) tinySeed (tinyStart none none)).1 = .ok 1 := by
    decide
  unfold tinyStart at *
  obtain ⟨-, -, hall⟩ := submitSourceFile_windows hparse (tinyEnv [1, 0] none) "o" none ⟨none, 0⟩
    (tinyFs none) [] tinySeed_holds (by decide)
  obtain ⟨k, v, t, hreach, -, -, hpiece⟩ := hall 1 hrun 2 (by decide)
  exact ⟨hrun, k, v, t, hreach, hpiece⟩

end Zsync
