import Zsync.Assembly.Chunks
import Zsync.Assembly.Growth
import Zsync.Assembly.Honest

/-!
# A scan that overruns the size

The scan of the temporary file as a replay, chunk by chunk, from the matcher and the file alone.

* `scanOwn`, `copyBlocks` : what is found in a chunk, and the file once it is stored;
* `triple_scanRound_own` : one chunk of the scan, while the file has the recorded size;
* `rescan_or_extended` : the scan follows the replay until it extends the file;
* `StaysInside` : no block found in a chunk inside the file belongs behind the end of the file;
* `self_scan_consistent_iff` : the scan ends, and reports as promised exactly then;
* `self_scan_passes` : how a block behind the end is reported.
-/

namespace Zsync

variable {env : Env} {cf : ControlFile} {s s' : State} {m : BlockMatcher} {T : Bytes}

/-! ### One chunk -/

/-- What is found in the chunk at `offset` of the temporary file `T`, and the matcher after it. -/
def scanOwn (env : Env) (chunkSize context : ℕ) (m : BlockMatcher) (T : Bytes) (offset : ℕ) :
    BlockMatcher × List (ℕ × ℕ) :=
  m.submitSourceData env.hashes env.cores (chunkData T chunkSize context offset) (offset - context)

theorem scanOwn_whole {chunkSize context : ℕ} (h : T.length ≤ chunkSize) :
    scanOwn env chunkSize context m T 0 =
      m.submitSourceData env.hashes env.cores (padTo (T.length + context) T) 0 := by
  have hlen : 0 - (0 - context) + min chunkSize (T.length - 0) + context = T.length + context := by
    omega
  unfold scanOwn chunkData
  dsimp only
  rw [hlen, Nat.zero_sub, slice, window, List.drop_zero, List.take_of_length_le (by omega)]

/-- The file `T` with some blocks that were found in it copied to their places. -/
def copyBlocks (blocksize : ℕ) (T : Bytes) (found : List (ℕ × ℕ)) : Bytes :=
  found.foldl (fun U p => writeAt U (p.1 * blocksize) (slice T p.2 blocksize)) T

/-- Copies extend the file to the end of the places of the blocks. -/
theorem length_copyBlocks_le_iff {blocksize n : ℕ} (hpos : 0 < blocksize) (T : Bytes)
    (found : List (ℕ × ℕ)) : (copyBlocks blocksize T found).length ≤ n ↔
      T.length ≤ n ∧ ∀ p ∈ found, (p.1 + 1) * blocksize ≤ n := by
  have hall : ∀ (found : List (ℕ × ℕ)) (U : Bytes),
      (found.foldl (fun U p => writeAt U (p.1 * blocksize) (slice T p.2 blocksize)) U).length ≤ n ↔
        U.length ≤ n ∧ ∀ p ∈ found, (p.1 + 1) * blocksize ≤ n := by
    intro found
    induction found with
    | nil => simp
    | cons p found ih =>
      intro U
      have hne : slice T p.2 blocksize ≠ [] := List.ne_nil_of_length_pos (by simpa using hpos)
      rw [List.foldl_cons, ih, length_writeAt _ _ hne, length_slice, ← Nat.succ_mul, max_le_iff,
        List.forall_mem_cons, and_assoc]
  exact hall found T

theorem ReadsFully.mono {len len' : ℕ} (h : ReadsFully env len) (hle : len' ≤ len) :
    ReadsFully env len' := fun n => hle.trans (h n)

section Reads

variable {P : State → Prop} (hP : ∀ s s', Quiet s s' → P s → P s') (htemp : ∀ s, P s → s.temp = T)
include hP htemp

theorem triple_readOverlap_own {start len : ℕ} (hread : ReadsFully env len)
    (hinside : start + len ≤ T.length) (buf : Bytes) :
    Prog.Triple P (readOverlap (readAtOffset env) buf start len)
      (fun buf' s => (∀ i < len, byteAt buf' i = byteAt T (start + i)) ∧ P s)
      (fun _ _ => True) := by
  refine Prog.Triple.ite (fun _ => ?_) fun hlen => Prog.Triple.pure fun s hs =>
    ⟨fun i hi => by omega, hs⟩
  refine Prog.Triple.bind ((triple_readAtOffset_full hread hP htemp start).conseq (fun _ h => h)
    (fun _ _ h => h) fun _ _ _ => trivial) fun got => Prog.Triple.assuming ?_
  rintro rfl
  exact Prog.Triple.pure fun s hs => ⟨fun i hi => byteAt_overlap buf hinside hi, hs⟩

theorem triple_readContext_own {context : ℕ} (hread : ReadsFully env context) (buf : Bytes)
    (dataLen stop : ℕ) :
    Prog.Triple P (readContext (readAtOffset env) T.length context buf dataLen stop)
      (fun buf' s => ((∀ i < dataLen, byteAt buf' i = byteAt buf i) ∧
        ∀ i < context, byteAt buf' (dataLen + i) = byteAt T (stop + i)) ∧ P s)
      (fun _ _ => True) := by
  refine Prog.Triple.ite (fun hlt => ?_) fun hle => Prog.Triple.pure fun s hs =>
    ⟨byteAt_zeros_behind buf (Nat.le_of_not_lt hle), hs⟩
  refine Prog.Triple.bind ((triple_readAtOffset_full (hread.mono (min_le_right _ _)) hP htemp
    stop).conseq (fun _ h => h) (fun _ _ h => h) fun _ _ _ => trivial) fun got =>
      Prog.Triple.assuming ?_
  rintro rfl
  exact Prog.Triple.pure fun s hs => ⟨byteAt_context buf hlt, hs⟩

end Reads

theorem triple_storeMatches_own {buf : Bytes} {start : ℕ} {found : List (ℕ × ℕ)}
    (hbuf : ∀ p ∈ found, slice buf (p.2 - start) cf.blocksize = slice T p.2 cf.blocksize) :
    Prog.Triple (fun s => Base env cf s ∧ s.file = true ∧ s.temp = T ∧ s.matcher = m)
      (storeMatches env false buf start found)
      (fun _ s => Base env cf s ∧ s.file = true ∧ s.temp = copyBlocks cf.blocksize T found ∧
        s.matcher = m) (fun _ _ => True) := by
  intro s hs
  rw [storeMatches_eq hs.1.control hbuf]
  let I : List (ℕ × ℕ) → State → Prop := fun rest s => Base env cf s ∧ s.file = true ∧
    rest.foldl (fun U p => writeAt U (p.1 * cf.blocksize) (slice T p.2 cf.blocksize)) s.temp =
      copyBlocks cf.blocksize T found ∧ s.matcher = m
  have hI : ∀ rest s s', Quiet s s' → I rest s → I rest s' := fun rest s s' hq h =>
    ⟨hq.base h.1, hq.file h.2.1, hq.temp ▸ h.2.2.1, hq.matcher.trans h.2.2.2⟩
  refine Prog.Triple.forM (I := I) (fun p rest => ?_) found s ⟨hs.1, hs.2.1, by rw [hs.2.2.1]; rfl,
    hs.2.2.2⟩
  refine Prog.Triple.bind (Q := fun _ => I (p :: rest)) (Prog.Triple.pure fun _ h => h) fun _ => ?_
  refine (triple_writeAtOffset (hI (p :: rest)) _ _).conseq (fun s h => ⟨h, h.1.file h.2.1⟩) ?_
    fun _ _ _ => trivial
  rintro _ _ ⟨s, ⟨hs, hfile, htemp, hm⟩, hsome, rfl⟩
  exact ⟨hs.wrote hsome _ _, hfile, temp_wrote hsome _ _ ▸ htemp, hm⟩

/-- **One chunk** of a scan of the temporary file, while the file has the recorded size. -/
theorem triple_scanRound_own (hcf : cf.Checked) {chunkSize context : ℕ} (hpos : 0 < chunkSize)
    (hcontext : context ≤ chunkSize) (hread : ReadsFully env chunkSize) {v : ScanVars}
    (hoffset : v.fileOffset < T.length) :
    let r := scanOwn env chunkSize context m T v.fileOffset
    Prog.Triple (fun s => Base env cf s ∧ s.file = true ∧ s.temp = T ∧ s.matcher = m)
      (scanRound env (readAtOffset env) false T.length chunkSize context v)
      (fun _ s => s.temp = copyBlocks cf.blocksize T r.2 ∧ s.matcher = r.1) (fun _ _ => True) := by
  intro r
  let A : State → Prop := fun s => Base env cf s ∧ s.file = true ∧ s.temp = T ∧ s.matcher = m
  have hA : ∀ s s', Quiet s s' → A s → A s' := fun s s' hq h =>
    ⟨hq.base h.1, hq.file h.2.1, hq.temp.trans h.2.2.1, hq.matcher.trans h.2.2.2⟩
  have htemp : ∀ s, A s → s.temp = T := fun _ h => h.2.2.1
  refine Prog.Triple.bind ((triple_checkAborted hA).conseq (fun _ h => h) (fun _ _ h => h)
    fun _ _ _ => trivial) fun _ => ?_
  refine Prog.Triple.bind (triple_readOverlap_own hA htemp (hread.mono (by omega))
    (by omega) v.buf) fun buf₁ => Prog.Triple.assuming fun hoverlap => ?_
  refine Prog.Triple.bind ((triple_readAtOffset_full hread hA htemp _).conseq (fun _ h => h)
    (fun _ _ h => h) fun _ _ _ => trivial) fun got => Prog.Triple.assuming ?_
  rintro rfl
  have hlen : (window T v.fileOffset chunkSize).length =
      min chunkSize (T.length - v.fileOffset) := by
    simp [window]
  have hne : window T v.fileOffset chunkSize ≠ [] := List.ne_nil_of_length_pos (by omega)
  refine Prog.Triple.ite (fun hnil => absurd hnil hne) fun _ => ?_
  refine Prog.Triple.bind (triple_readContext_own hA htemp (hread.mono hcontext) _ _ _)
    fun buf₂ => Prog.Triple.assuming ?_
  rintro ⟨hchunk, hafter⟩
  have hslice := slice_buffer hoverlap hchunk hafter
  rw [hslice]
  refine Prog.Triple.bind (Q := fun found s => (found = r.2 ∧ ∀ p ∈ found,
    slice buf₂ (p.2 - (v.fileOffset - context)) cf.blocksize = slice T p.2 cf.blocksize) ∧
      Base env cf s ∧ s.file = true ∧ s.temp = T ∧ s.matcher = r.1) ?_ fun found =>
        Prog.Triple.assuming ?_
  · rintro s ⟨hs, hfile, hT, rfl⟩
    obtain ⟨ids, hids⟩ := hs.matcher
    exact ⟨⟨rfl, fun p hp => slice_found hslice (hs.inside hcf hp).1 (hs.inside hcf hp).2⟩,
      ⟨hs.control, ⟨_, hids.submitSourceData _ _ _⟩, hs.tempPath, hs.file⟩, hfile, hT, rfl⟩
  rintro ⟨rfl, hbuf⟩
  refine Prog.Triple.bind (triple_storeMatches_own hbuf) fun _ => ?_
  refine Prog.Triple.bind (Q := fun _ s => s.temp = copyBlocks cf.blocksize T r.2 ∧
    s.matcher = r.1) (Prog.Triple.modify fun _ h => ⟨h.2.2.1, h.2.2.2⟩) fun _ => ?_
  exact Prog.Triple.ite (fun _ => Prog.Triple.pure fun _ h => h) fun _ =>
    Prog.Triple.pure fun _ h => h

/-! ### The chunks of a scan -/

/-- The matcher and the file after `k` chunks of a scan of the temporary file `T`, when the blocks
found in each one are stored. -/
def rescan (env : Env) (blocksize chunkSize context : ℕ) (m : BlockMatcher) (T : Bytes) :
    ℕ → BlockMatcher × Bytes
  | 0 => (m, T)
  | k + 1 =>
    let p := rescan env blocksize chunkSize context m T k
    let r := scanOwn env chunkSize context p.1 p.2 (k * chunkSize)
    (r.1, copyBlocks blocksize p.2 r.2)

/-- The blocks found in chunk `k` have their places inside the file as it was at first. -/
def FoundInside (env : Env) (blocksize chunkSize context : ℕ) (m : BlockMatcher) (T : Bytes)
    (k : ℕ) : Prop :=
  let p := rescan env blocksize chunkSize context m T k
  ∀ q ∈ (scanOwn env chunkSize context p.1 p.2 (k * chunkSize)).2,
    (q.1 + 1) * blocksize ≤ T.length

/-- In a file of at most one chunk, the blocks are found in the whole file. -/
theorem foundInside_zero {blocksize chunkSize context : ℕ} (h : T.length ≤ chunkSize) :
    FoundInside env blocksize chunkSize context m T 0 ↔ ∀ q ∈ (m.submitSourceData env.hashes
      env.cores (padTo (T.length + context) T) 0).2, (q.1 + 1) * blocksize ≤ T.length := by
  rw [FoundInside, rescan, Nat.zero_mul, scanOwn_whole h]

/-- No block that is found in a chunk inside the temporary file has its place behind the end of the
file. -/
def StaysInside (env : Env) (blocksize chunkSize context : ℕ) (m : BlockMatcher) (T : Bytes) :
    Prop :=
  ∀ k, (k + 1) * chunkSize ≤ T.length → FoundInside env blocksize chunkSize context m T k

/-- **The rounds of the scan** so far have left the file as long as it was, or extended it. -/
theorem rescan_or_extended {size hi chunkSize context : ℕ} (hcf : cf.Checked)
    (hpos : 0 < chunkSize) (hcontext : context ≤ chunkSize)
    (hhi : cf.blockChecksums.length * cf.blocksize ≤ hi) (hread : ReadsFully env chunkSize)
    (hs : Rereading env cf size hi s) (hsize : s.temp.length = size) {k : ℕ} {b v : ScanVars}
    {t : State} (hb : b.fileOffset = 0)
    (h : Prog.Reaches (scanRound env (readAtOffset env) false size chunkSize context) k b s v t) :
    (t.temp.length = size ∧
      (t.matcher, t.temp) = rescan env cf.blocksize chunkSize context s.matcher s.temp k ∧
      ∀ j < k, FoundInside env cf.blocksize chunkSize context s.matcher s.temp j) ∨
    (size < t.temp.length ∧ ¬ StaysInside env cf.blocksize chunkSize context s.matcher s.temp) := by
  induction h with
  | refl => exact Or.inl ⟨hsize, rfl, fun j hj => absurd hj (Nat.not_lt_zero j)⟩
  | @next k b v v' s t t' hreach hrun ih =>
    obtain ⟨hreading, hoffset, -, -⟩ := reaches_reports hcf hpos hhi hread hs hb hreach
    have hpost := scanRound_reports hcf hpos hhi hread context v hreading
    rw [hrun] at hpost
    obtain ⟨-, hgrown, hoffset', hle, -⟩ := hpost
    rcases ih hs hsize hb with ⟨hlen, hown, hinside⟩ | ⟨hlt, hnot⟩
    · have hfits : (k + 1) * chunkSize ≤ size := by
        rw [Nat.succ_mul]
        omega
      have hround := triple_scanRound_own (T := t.temp) (m := t.matcher) hcf hpos hcontext hread
        (v := v) (by omega) t ⟨hreading.base, hreading.file, rfl, rfl⟩
      rw [hlen, hrun] at hround
      obtain ⟨htemp, hmatcher⟩ := hround
      have hnext : (t'.matcher, t'.temp) =
          rescan env cf.blocksize chunkSize context s.matcher s.temp (k + 1) := by
        rw [rescan, ← hown, htemp, hmatcher, hoffset]
      have hiff : t'.temp.length ≤ size ↔
          FoundInside env cf.blocksize chunkSize context s.matcher s.temp k := by
        rw [htemp, length_copyBlocks_le_iff hcf.blocksize_pos, hoffset, FoundInside, ← hown, hsize]
        exact and_iff_right hlen.le
      by_cases hfound : FoundInside env cf.blocksize chunkSize context s.matcher s.temp k
      · refine Or.inl ⟨le_antisymm (hiff.2 hfound) (by omega), hnext, fun j hj => ?_⟩
        rcases Nat.lt_succ_iff_lt_or_eq.1 hj with hlt | rfl
        · exact hinside j hlt
        · exact hfound
      · exact Or.inr ⟨Nat.lt_of_not_le fun hle' => hfound (hiff.1 hle'), fun hstays =>
          hfound (hstays k (hsize ▸ hfits))⟩
    · exact Or.inr ⟨hlt.trans_le hgrown, hnot⟩

section Reread

variable {chunkSize context : ℕ} (hcf : cf.Checked) (hpos : 0 < chunkSize)
  (hcontext : context ≤ chunkSize) (hread : ReadsFully env chunkSize) (hs : Base env cf s)
  (hfile : s.file = true)
include hcf hpos hcontext hread hs hfile

theorem reread_or_extended {k : ℕ} {v : ScanVars} {t : State}
    (h : Prog.Reaches (scanRound env (readAtOffset env) false s.temp.length chunkSize context)
      k ⟨[], 0, 0⟩ (rereadStart env s) v t) :
    (t.temp.length = s.temp.length ∧
      ∀ j < k, FoundInside env cf.blocksize chunkSize context s.matcher s.temp j) ∨
    (s.temp.length < t.temp.length ∧
      ¬ StaysInside env cf.blocksize chunkSize context s.matcher s.temp) := by
  have hq := quiet_rereadStart env s
  have hcases := rescan_or_extended hcf hpos hcontext (le_max_right _ _) hread
    (rereading_start hs hfile) (congrArg List.length hq.temp) rfl h
  rw [hq.temp, hq.matcher] at hcases
  exact hcases.imp_left fun h => ⟨h.1, h.2.2⟩

theorem endsInside_of_staysInside
    (hstays : StaysInside env cf.blocksize chunkSize context s.matcher s.temp) :
    EndsInside env s.temp.length chunkSize context (rereadStart env s) := fun _ _ _ hreach =>
  (reread_or_extended hcf hpos hcontext hread hs hfile hreach).elim (fun h => Or.inr h.1)
    fun h => absurd hstays h.2

/-- **A scan that returns** and leaves the file as long as it was has found no block in a chunk
inside the file that belongs behind its end. -/
theorem staysInside_of_length_eq {k : ℕ} {v : ScanVars} {t : State}
    (hreach : Prog.Reaches (scanRound env (readAtOffset env) false s.temp.length chunkSize context)
      k ⟨[], 0, 0⟩ (rereadStart env s) v t) (hlast : t.temp.length < k * chunkSize + chunkSize)
    (hlen : t.temp.length = s.temp.length) :
    StaysInside env cf.blocksize chunkSize context s.matcher s.temp := by
  rcases reread_or_extended hcf hpos hcontext hread hs hfile hreach with ⟨-, hinside⟩ | ⟨hlt, -⟩
  · refine fun j hj => hinside j (Nat.lt_of_mul_lt_mul_right (a := chunkSize) ?_)
    rw [Nat.succ_mul] at hj
    omega
  · exact absurd hlen hlt.ne'

end Reread

theorem reachable_rescan {ids : List ℕ} (hm : BlockMatcher.Reachable env.hashes cf m ids)
    (blocksize chunkSize context k : ℕ) : ∃ ids, BlockMatcher.Reachable env.hashes cf
      (rescan env blocksize chunkSize context m T k).1 ids := by
  induction k with
  | zero => exact ⟨ids, hm⟩
  | succ k ih =>
    obtain ⟨ids, hids⟩ := ih
    exact ⟨_, hids.submitSourceData _ _ _⟩

/-- No block belongs behind the end of a file that reaches the end of the last one. -/
theorem staysInside_of_le (hcf : cf.Checked) {ids : List ℕ}
    (hm : BlockMatcher.Reachable env.hashes cf m ids) {chunkSize context : ℕ}
    (h : cf.blockChecksums.length * cf.blocksize ≤ T.length) :
    StaysInside env cf.blocksize chunkSize context m T := by
  intro k _ q hq
  obtain ⟨ids, hids⟩ := reachable_rescan hm cf.blocksize chunkSize context k
  have hsees := ((BlockMatcher.submitSourceData_spec (hids.sized hcf) (hids.indexed hcf).1
    (hids.counted hcf) _ _ _).2.2.1 q hq).1
  have hlt : q.1 < cf.blockChecksums.length :=
    hsees.lt.trans_eq (BlockMatcher.length_targets (hids.indexed hcf).2)
  exact (Nat.mul_le_mul_right cf.blocksize hlt).trans h

/-! ### One block of a seed -/

/-- When no write fails, a block that is known and is not still to be written is in the file. -/
theorem keeps_reached (hdisk : ∀ n op, (env.disk n op).error = none) (id : ℕ) :
    Keeps env cf (fun q => q.2.length = cf.blocksize) fun p s =>
      (∀ q ∈ p, q.2.length = cf.blocksize) ∧ (s.matcher.isBlockKnown id →
        id ∈ p.map Prod.fst ∨ (id + 1) * cf.blocksize ≤ s.temp.length) where
  quiet hq h := by rwa [hq.matcher, hq.temp]
  claimed {s s' p} _ hc hp h := by
    have htemp : s'.temp = s.temp := by rw [State.temp, State.temp, hc.fs, hc.tempPath]
    refine ⟨hp, fun hknown => ?_⟩
    rw [hc.known, Bool.or_eq_true, decide_eq_true_iff] at hknown
    rcases hknown with hknown | hknown
    · exact Or.inr (htemp ▸ (h.2 hknown).resolve_left List.not_mem_nil)
    · exact Or.inl hknown
  wrote {j data p s} _ hsome h := by
    obtain ⟨hdata, hrest⟩ := List.forall_mem_cons.1 h.1
    have htemp := temp_wrote hsome (j * cf.blocksize) data
    refine ⟨hrest, fun hknown => ?_⟩
    rcases h.2 hknown with hmem | hle
    · rcases List.mem_cons.1 hmem with rfl | hmem
      · refine Or.inr ?_
        by_cases hnil : data = []
        · rw [hnil, List.length_nil] at hdata
          rw [← hdata, Nat.mul_zero]
          exact Nat.zero_le _
        · rw [htemp, length_writeAt _ _ hnil, hdata, Nat.add_one_mul]
          exact le_max_right _ _
      · exact Or.inl hmem
    · exact Or.inr (htemp ▸ hle.trans (length_le_writeAt _ _ _))
  failed _ hf _ := by
    obtain ⟨n, op, herror⟩ := hf.error
    exact absurd (hdisk n op) herror

theorem isBlockKnown_start (cf : ControlFile) (outputPath : String) (baseUrl : Option String)
    (http : HttpClient) (fs : String → Option File) (id : ℕ) :
    (State.start (ZsyncAssembly.withClient cf outputPath baseUrl http) fs).matcher.isBlockKnown id =
      false := BlockMatcher.isBlockKnown_new cf id

theorem submitSourceFile_reached (hdisk : ∀ n op, (env.disk n op).error = none) (hcf : cf.Checked)
    (seed : Seed) (hs : Base env cf s) {id : ℕ} (hid : s.matcher.isBlockKnown id = false) :
    Base env cf (runCalls env [.submitSourceFile seed] s) ∧
      ((runCalls env [.submitSourceFile seed] s).matcher.isBlockKnown id →
        (id + 1) * cf.blocksize ≤ (runCalls env [.submitSourceFile seed] s).temp.length) := by
  have hidle := ((keeps_reached hdisk id).submitSourceFile hcf (fun _ h => h) seed).state
    (s := s) ⟨⟨List.forall_mem_nil _, fun h => by simp [hid] at h⟩, hs⟩
  exact ⟨hidle.2, fun h => (hidle.1.2 h).resolve_left List.not_mem_nil⟩

theorem triple_ensureFile_opens : Prog.Triple (fun _ => True) (ensureFile env)
    (fun _ s => s.file = true) (fun _ _ => True) := by
  refine Prog.Triple.read fun s _ => Prog.Triple.ite (fun hopen => Prog.Triple.pure ?_) fun _ =>
    Prog.Triple.bind (Prog.Triple.trivial _) fun _ => Prog.Triple.modify fun _ _ => rfl
  rintro _ rfl
  exact hopen

theorem triple_submitChunk_found {data : Bytes} {offset : ℕ} {found : List (ℕ × ℕ)}
    {E : AssemblyError → State → Prop} : Prog.Triple
      (fun s => Base env cf s ∧ s.temp = T ∧
        (s.matcher.submitSourceData env.hashes env.cores data offset).2 = found)
      (submitChunk env data offset)
      (fun matched s => matched = found ∧ Base env cf s ∧ s.temp = T) E := by
  rintro s ⟨hs, htemp, hfound⟩
  obtain ⟨ids, hids⟩ := hs.matcher
  exact ⟨hfound, ⟨hs.control, ⟨_, hids.submitSourceData _ _ _⟩, hs.tempPath, hs.file⟩, htemp⟩

theorem triple_scanWindow_one {S : Bytes} (buf : Bytes) {chunkSize context id x : ℕ} {v : ScanVars}
    (hshort : min chunkSize (S.length - v.fileOffset) < chunkSize) : Prog.Triple
      (fun s => Base env cf s ∧ s.temp = T ∧ (s.matcher.submitSourceData env.hashes env.cores
        (chunkData S chunkSize context v.fileOffset) (v.fileOffset - context)).2 = [(id, x)])
      (scanWindow env S true cf.blocksize chunkSize context buf v)
      (fun r s => (∃ n, r = .inr n) ∧ Base env cf s ∧ s.file = true ∧
        s.temp = writeAt T (id * cf.blocksize) (slice S x cf.blocksize))
      (fun _ _ => True) := by
  let A : State → Prop := fun s => Base env cf s ∧ s.temp = T
  have hA : ∀ s s', Quiet s s' → A s → A s' := fun s s' hq h => ⟨hq.base h.1, hq.temp.trans h.2⟩
  have hopen : ∀ s s', Quiet s s' → A s ∧ s.file = true → A s' ∧ s'.file = true :=
    fun s s' hq h => ⟨hA s s' hq h.1, hq.file h.2⟩
  let B : State → Prop := fun s => Base env cf s ∧ s.file = true ∧
    s.temp = writeAt T (id * cf.blocksize) (slice S x cf.blocksize)
  refine Prog.Triple.bind triple_submitChunk_found fun found => Prog.Triple.assuming ?_
  rintro rfl
  refine Prog.Triple.bind (Q := fun _ => B) ?_ fun _ => ?_
  · refine Prog.Triple.bind (Q := fun _ => B) ?_ fun _ => Prog.Triple.pure fun _ h => h
    refine Prog.Triple.bind (((triple_ensureFile hA (fun s h => h.1.file) 0 []).and
      triple_ensureFile_opens).conseq (fun _ h => ⟨h, trivial⟩)
      (fun _ s h => (⟨⟨h.1.1, h.2⟩, h.1.2⟩ : (A s ∧ s.file = true) ∧ (s.fs s.tempPath).isSome))
      fun _ _ _ => trivial) fun _ => ?_
    refine (triple_writeAtOffset hopen _ _).conseq (fun _ h => h) ?_ fun _ _ _ => trivial
    rintro _ _ ⟨s, ⟨⟨hs, htemp⟩, hfile⟩, hsome, rfl⟩
    exact ⟨hs.wrote hsome _ _, hfile, htemp ▸ temp_wrote hsome _ _⟩
  · refine Prog.Triple.bind (Q := fun _ => B) (Prog.Triple.modify fun s h => ⟨?_, h.2.1, h.2.2⟩)
      fun _ => ?_
    · exact ⟨h.1.control, h.1.matcher, h.1.tempPath, h.1.file⟩
    · rw [if_pos hshort]
      exact Prog.Triple.pure fun _ h => ⟨⟨_, rfl⟩, h⟩

theorem submitSourceFile_one (hh : Honest env T) (hcf : cf.Checked) {seed : Seed} {S : Bytes}
    (hS : seed.Holds S) (hs : Base env cf s)
    (hlen : cf.blocksize * cf.hashLengths.seqMatches ≤ S.length) {chunkSize id x : ℕ}
    (hchunk : max streamChunkSize (cf.blocksize * cf.hashLengths.seqMatches * 2) = chunkSize)
    (hshort : S.length < chunkSize)
    (hfound : (s.matcher.submitSourceData env.hashes env.cores
      (chunkData S chunkSize (cf.blocksize * cf.hashLengths.seqMatches) 0)
      (0 - cf.blocksize * cf.hashLengths.seqMatches)).2 = [(id, x)]) :
    (runCalls env [.submitSourceFile seed] s).file = true ∧
      (runCalls env [.submitSourceFile seed] s).temp =
        writeAt s.temp (id * cf.blocksize) (slice S x cf.blocksize) := by
  have hpos : 0 < S.length :=
    (Nat.mul_pos hcf.blocksize_pos hcf.hashLengths.one_le_seq).trans_le hlen
  obtain ⟨n, buf, hround⟩ := scanRound_window (v := ⟨[], 0, 0⟩) hcf hS hs true
    (by omega : 0 < chunkSize) hpos (hh.abort _) (cf.blocksize * cf.hashLengths.seqMatches)
  have hq := quiet_later n s
  have hpost := triple_scanWindow_one buf (v := ⟨[], 0, 0⟩)
    (lt_of_le_of_lt (min_le_right _ _) hshort : min chunkSize (S.length - 0) < chunkSize)
    (s.later n) ⟨hq.base hs, hq.temp, hq.matcher ▸ hfound⟩
  obtain ⟨r, hr⟩ := succeeds_scanRound hh
    (fun offset len s' => ⟨_, congrArg Prod.fst (hS.readAtOffset offset len s')⟩) true S.length
    chunkSize (cf.blocksize * cf.hashLengths.seqMatches) ⟨[], 0, 0⟩ s
  change (submitSourceFile env seed s).2.file = true ∧ (submitSourceFile env seed s).2.temp = _
  rw [submitSourceFile_eq hs hS hlen, hchunk, Prog.loop, Prog.bind_run]
  rw [← hround] at hpost
  generalize scanRound env seed.readAtOffset true S.length chunkSize
    (cf.blocksize * cf.hashLengths.seqMatches) ⟨[], 0, 0⟩ s = out at hpost hr ⊢
  obtain ⟨_, t⟩ := out
  obtain rfl : _ = Except.ok r := hr
  obtain ⟨⟨m, rfl⟩, -, hfile, htemp⟩ := hpost
  exact ⟨hfile, htemp⟩

/-! ### A target with a hole -/

/-- The first bytes of the blocks of a target of 33 mebibytes, one more than a chunk of a scan. -/
def holeBytes : Bytes := List.replicate 31 1 ++ [2, 0]

/-- The control file of these blocks, matched one by one. -/
def holeControl : ControlFile where
  version := "0.6.2"
  filename := none
  mtime := none
  blocksize := 2 ^ 20
  length := 33 * 2 ^ 20
  hashLengths := ⟨1, 4, 16⟩
  urls := ["u"]
  sha1 := none
  blockChecksums := holeBytes.map fun v => ⟨⟨v.toUInt16, 0⟩, spikeDigest v⟩

theorem parse_holeControl :
    ControlFile.parse (ControlFile.write holeControl) = .ok holeControl := by
  decide +kernel

theorem holeControl_checked : holeControl.Checked := ControlFile.checked_of_parse parse_holeControl

/-- A disk that does not fail and whose reads are not short, and a scan in one thread. -/
def holeEnv : Env where
  hashes := spikeHashes
  disk _ _ := ⟨none, streamChunkSize⟩
  agent := ⟨fun _ _ _ _ => .error (.transport .hostNotFound)⟩
  abort _ := false
  cores := 1

/-- A seed with the last block but one. -/
def holeSeed : Seed where
  size := .ok (spike (2 ^ 20) 2).length
  read _ offset len := .ok (window (spike (2 ^ 20) 2) offset len)
  limit := 2 ^ 20

/-- The temporary file with this block, and a hole before it. -/
def holeTemp : Bytes := writeAt [] (31 * 2 ^ 20) (spike (2 ^ 20) 2)

theorem holeSeed_holds : holeSeed.Holds (spike (2 ^ 20) 2) :=
  ⟨rfl, fun _ _ _ => rfl, (length_spike (by decide) 2).le⟩

theorem honest_holeEnv : Honest holeEnv [] :=
  ⟨fun _ _ => rfl, fun _ => rfl, fun _ _ _ _ _ h => absurd h (Nat.not_lt_zero _)⟩

theorem length_holeTemp : holeTemp.length = streamChunkSize := by
  have hne : spike (2 ^ 20) 2 ≠ [] := List.cons_ne_nil _ _
  rw [holeTemp, length_writeAt _ _ hne, length_spike (by decide)]
  decide

theorem byteAt_holeTemp {i : ℕ} (hi : i < 31 * 2 ^ 20) : byteAt holeTemp i = 0 := by
  rw [holeTemp, byteAt_writeAt, if_neg (by omega)]
  rfl

theorem window_eq_zeros {data : Bytes} {x n : ℕ} (hn : 0 < n) (hlen : x + n ≤ data.length)
    (hzero : ∀ i < n, byteAt data (x + i) = 0) : window data x n = spike n 0 := by
  refine eq_of_byteAt (by rw [length_window hlen, length_spike hn]) fun i hi => ?_
  rw [length_spike hn] at hi
  rw [byteAt_window, if_pos hi, hzero i hi, byteAt_spike, ite_self]

theorem length_le_padTo_holeTemp :
    2 * 2 ^ 20 ≤ (padTo (streamChunkSize + 2 ^ 20) holeTemp).length := by
  rw [length_padTo]
  decide

theorem window_padTo_holeTemp {x : ℕ} (hx : x + 2 ^ 20 ≤ 2 * 2 ^ 20) :
    window (padTo (streamChunkSize + 2 ^ 20) holeTemp) x (2 ^ 20) = spike (2 ^ 20) 0 := by
  have hdouble : 2 * 2 ^ 20 ≤ streamChunkSize + 2 ^ 20 := by decide
  refine window_eq_zeros (Nat.two_pow_pos 20) (hx.trans length_le_padTo_holeTemp) fun i hi => ?_
  rw [byteAt_padTo, if_pos (by omega)]
  exact byteAt_holeTemp (by omega)

theorem submit_holeSeed {data : Bytes} (hlen : data.length = 2 * 2 ^ 20)
    (hfirst : window data 0 (2 ^ 20) = spike (2 ^ 20) 2)
    (hnext : window data (0 + 2 ^ 20) (2 ^ 20) = spike (2 ^ 20) 0) :
    ((BlockMatcher.new holeControl).submitSourceData spikeHashes 1 data 0).2 = [(31, 0)] := by
  have hs := BlockMatcher.sized_new holeControl_checked
  have hind : (BlockMatcher.new holeControl).Indexed (List.range 33) :=
    (BlockMatcher.indexed_new holeControl_checked.count_le).1
  have hctx : (BlockMatcher.new holeControl).context = 2 ^ 20 := by decide
  have hbs : (BlockMatcher.new holeControl).blocksize = 2 ^ 20 := by decide
  have hhits : (BlockMatcher.new holeControl).plainHits spikeHashes (List.range 33) data 0 none =
      [31] := by
    rw [plainHits_spike (by decide) hfirst hnext]
    decide
  have hcover : (BlockMatcher.new holeControl).coverOf 31 = (1, none) := by decide
  have hreport : (BlockMatcher.new holeControl).reportOf (0 + 0) 31 = [(31, 0)] := by decide
  have hscan : (BlockMatcher.new holeControl).scanChunk spikeHashes data 0 = [(31, 0)] := by
    rw [BlockMatcher.scanChunk_eq hs hind, hlen, hctx, Scanner.reports_of_lt _ (by decide)]
    simp only [Scanner.step, Scanner.span, Scanner.found, BlockMatcher.plainScanner,
      BlockMatcher.plainTest, BlockMatcher.plainHint_none, hhits, hcover, List.flatMap_cons,
      List.flatMap_nil, hreport, List.append_nil, Option.map_some, Option.getD_some,
      Option.bind_some, hbs]
    rw [Scanner.reports_of_le _ (by decide), List.append_nil]
  have hunknown : (BlockMatcher.new holeControl).knownBlocks.getD 31 false = false :=
    BlockMatcher.isBlockKnown_new holeControl 31
  rw [BlockMatcher.submitSourceData, if_neg (by rw [hctx, hlen]; decide),
    BlockMatcher.candidates_one, hscan]
  simp only [BlockMatcher.claimBlocks, hunknown, Bool.false_eq_true, if_false]

theorem submit_hole {m : BlockMatcher} {ids : List ℕ}
    (hm : BlockMatcher.Reachable spikeHashes holeControl m ids) {data : Bytes}
    (hlen : 2 * 2 ^ 20 ≤ data.length) (hfirst : window data 0 (2 ^ 20) = spike (2 ^ 20) 0)
    (hnext : window data (0 + 2 ^ 20) (2 ^ 20) = spike (2 ^ 20) 0) :
    (m.submitSourceData spikeHashes 1 data 0).1.isBlockKnown 32 := by
  have hcf := holeControl_checked
  obtain ⟨hind, hshape⟩ := hm.indexed hcf
  have hctx : m.context = 2 ^ 20 := BlockMatcher.context_of_shape hshape
  have hlt : 32 < m.totalBlocks := (by decide : 32 < 33).trans_eq
    (BlockMatcher.length_targets hshape).symm
  have hhits : (BlockMatcher.new holeControl).plainHits spikeHashes (List.range 33) data 0 none =
      [32] := by
    rw [plainHits_spike (by decide) hfirst hnext]
    decide
  have hknown := BlockMatcher.isBlockKnown_window_iff (b := 32) hcf hm 1
    (hctx.trans_le (by omega)) (Nat.zero_add data.length).le
  rw [window_zero_length] at hknown
  rw [hknown]
  by_cases hid : 32 ∈ ids
  · -- the reading starts at the block
    have hlegible := (BlockMatcher.mem_plainHits_iff_legible (BlockMatcher.sized_new hcf)
      (fun id hmem => (hind.lt id hmem).trans_eq (BlockMatcher.length_targets hshape))
      (by rw [show (BlockMatcher.new holeControl).context = 2 ^ 20 by decide]; omega)).1
        (BlockMatcher.mem_plainHits_of_mem hid (hhits ▸ List.mem_cons_self))
    exact Or.inr ⟨(0, data.length), List.mem_singleton_self _, 0, 0, none,
      .start (by rw [hctx]; dsimp only; omega), .legible hlegible.2⟩
  · exact Or.inl (hm.isBlockKnown_of_notMem hcf hlt hid)

theorem submitSourceFile_hole (hs : Base holeEnv holeControl s)
    (hm : s.matcher = BlockMatcher.new holeControl) :
    (runCalls holeEnv [.submitSourceFile holeSeed] s).file = true ∧
      (runCalls holeEnv [.submitSourceFile holeSeed] s).temp =
        writeAt s.temp (31 * 2 ^ 20) (spike (2 ^ 20) 2) := by
  have hpos : 0 < 2 ^ 20 := Nat.two_pow_pos 20
  have hlen : (spike (2 ^ 20) 2).length = 2 ^ 20 := length_spike hpos 2
  have hdata : chunkData (spike (2 ^ 20) 2) streamChunkSize (2 ^ 20) 0 =
      slice (spike (2 ^ 20) 2) 0 (2 * 2 ^ 20) := by
    have hn : 0 - (0 - 2 ^ 20) + min streamChunkSize (2 ^ 20 - 0) + 2 ^ 20 = 2 * 2 ^ 20 := by decide
    unfold chunkData
    dsimp only
    rw [hlen, hn, Nat.zero_sub]
  have hwhole : slice (spike (2 ^ 20) 2) 0 (2 ^ 20) = spike (2 ^ 20) 2 := by
    refine eq_of_byteAt (by rw [length_slice, hlen]) fun i hi => ?_
    rw [hlen] at hi
    rw [byteAt_slice, if_pos hi, Nat.zero_add]
  have hfirst : window (slice (spike (2 ^ 20) 2) 0 (2 * 2 ^ 20)) 0 (2 ^ 20) =
      spike (2 ^ 20) 2 := by
    refine eq_of_byteAt (by rw [hlen, length_window (by rw [length_slice]; decide)]) fun i hi => ?_
    rw [hlen] at hi
    rw [byteAt_window, if_pos hi, byteAt_slice, if_pos (by omega), Nat.zero_add, Nat.zero_add]
  have hnext : window (slice (spike (2 ^ 20) 2) 0 (2 * 2 ^ 20)) (0 + 2 ^ 20) (2 ^ 20) =
      spike (2 ^ 20) 0 := by
    refine window_eq_zeros hpos (by rw [length_slice]; decide) fun i hi => ?_
    rw [byteAt_slice, if_pos (by omega)]
    exact byteAt_of_le (by rw [hlen]; omega)
  have hcontext : holeControl.blocksize * holeControl.hashLengths.seqMatches = 2 ^ 20 := by decide
  have hchunk : max streamChunkSize
      (holeControl.blocksize * holeControl.hashLengths.seqMatches * 2) = streamChunkSize := by
    decide
  have hfound : ((BlockMatcher.new holeControl).submitSourceData holeEnv.hashes holeEnv.cores
      (chunkData (spike (2 ^ 20) 2) streamChunkSize
        (holeControl.blocksize * holeControl.hashLengths.seqMatches) 0)
      (0 - holeControl.blocksize * holeControl.hashLengths.seqMatches)).2 = [(31, 0)] := by
    rw [hcontext, hdata, Nat.zero_sub]
    exact submit_holeSeed (length_slice _ _ _) hfirst hnext
  have hone := submitSourceFile_one honest_holeEnv holeControl_checked holeSeed_holds hs
    (by rw [hcontext, hlen]) hchunk (by rw [hlen]; decide) (by rw [hm]; exact hfound)
  exact ⟨hone.1, hone.2.trans (congrArg (writeAt s.temp (31 * 2 ^ 20)) hwhole)⟩

/-- A block that is known after a scan and was not before is found in it. -/
theorem mem_found_of_isBlockKnown (hcf : cf.Checked) (hs : Base env cf s) {cores : ℕ} {data : Bytes}
    {offset id : ℕ} (hunknown : s.matcher.isBlockKnown id = false)
    (hknown : (s.matcher.submitSourceData env.hashes cores data offset).1.isBlockKnown id) :
    ∃ p ∈ (s.matcher.submitSourceData env.hashes cores data offset).2, p.1 = id := by
  obtain ⟨ids, hm⟩ := hs.matcher
  obtain ⟨-, -, -, -, hall⟩ := BlockMatcher.submitSourceData_spec (H := env.hashes) (hs.sized hcf)
    (hm.indexed hcf).1 (hs.counted hcf) cores data offset
  rw [hall, hunknown, Bool.false_or, decide_eq_true_iff] at hknown
  exact List.mem_map.1 hknown

/-- The scan of the seed leaves a file of 32 MiB, in which the scan of the file finds the last
block. -/
theorem hole_found :
    let s := runCalls holeEnv [.submitSourceFile holeSeed]
      (State.start (ZsyncAssembly.withClient holeControl "o" none ⟨none, 0⟩) fun _ => none)
    Base holeEnv holeControl s ∧ s.file = true ∧ s.temp.length = streamChunkSize ∧
      s.matcher.isBlockKnown 32 = false ∧
      (s.matcher.submitSourceData holeEnv.hashes holeEnv.cores (padTo (s.temp.length +
        holeControl.blocksize * holeControl.hashLengths.seqMatches) s.temp) 0).1.isBlockKnown
          32 := by
  have hcf := holeControl_checked
  have hcontext : holeControl.blocksize * holeControl.hashLengths.seqMatches = 2 ^ 20 := by decide
  have hend : streamChunkSize < (32 + 1) * holeControl.blocksize := by decide
  have hstart : Base holeEnv holeControl (State.start (ZsyncAssembly.withClient holeControl "o" none
    ⟨none, 0⟩) fun _ => none) := base_start holeControl "o" none ⟨none, 0⟩ _
  obtain ⟨hfile, htemp⟩ := submitSourceFile_hole hstart rfl
  -- the block of zeros is not known yet: it would be in the file
  obtain ⟨hbase, hreached⟩ := submitSourceFile_reached honest_holeEnv.disk hcf holeSeed hstart
    (isBlockKnown_start holeControl "o" none ⟨none, 0⟩ (fun _ => none) 32)
  change _ = holeTemp at htemp
  generalize runCalls holeEnv [.submitSourceFile holeSeed] (State.start
    (ZsyncAssembly.withClient holeControl "o" none ⟨none, 0⟩) fun _ => none) = s at *
  have hlen : s.temp.length = streamChunkSize := (congrArg List.length htemp).trans length_holeTemp
  have hunknown : s.matcher.isBlockKnown 32 = false := by
    refine Bool.eq_false_iff.2 fun h => ?_
    have hle := hreached h
    omega
  obtain ⟨ids, hm⟩ := hbase.matcher
  refine ⟨hbase, hfile, hlen, hunknown, ?_⟩
  rw [hlen, hcontext, htemp]
  exact submit_hole hm length_le_padTo_holeTemp (window_padTo_holeTemp (by decide))
    (window_padTo_holeTemp (by decide))

/-! ### What is promised -/

/-- **What is promised of the scan of the temporary file.**  For every control file that `parse`
accepts, after any calls, when reads of the temporary file are not short: the scan ends, although
its own writes can extend the file that it reads, and what it reports increases strictly, with the
recorded size throughout.  It stays below this size when no block that is found in a chunk inside
the file belongs behind the end of the file, and a scan that returns reports as promised exactly
then. -/
theorem self_scan_consistent_iff {input : Bytes} (hp : ControlFile.parse input = .ok cf)
    (hread : ReadsFully env
      (max streamChunkSize (cf.blocksize * cf.hashLengths.seqMatches * 2)))
    (outputPath : String) (baseUrl : Option String) (http : HttpClient) (fs : String → Option File)
    (calls : List Call) :
    let s := runCalls env calls
      (State.start (ZsyncAssembly.withClient cf outputPath baseUrl http) fs)
    let size := s.temp.length
    let context := cf.blocksize * cf.hashLengths.seqMatches
    let chunkSize := max streamChunkSize (context * 2)
    let r := submitSelfReferential env s
    ∃ reports, r.2.scans = s.scans ++ reports ∧
      (reports.map Prod.fst).Pairwise (· < ·) ∧ (∀ p ∈ reports, p.2 = size) ∧
      (s.file = false ∨ size < context → reports = []) ∧
      (s.file = true → context ≤ size →
        ((∃ e, r.1 = .error e ∧ reports = []) ∨
          ∃ k, Prog.Ends (scanRound env (readAtOffset env) false size chunkSize context) k
            ⟨[], 0, 0⟩ (rereadStart env s) r) ∧
        (StaysInside env cf.blocksize chunkSize context s.matcher s.temp →
          ∀ p ∈ reports, p.1 ≤ p.2) ∧
        ∀ n, r.1 = .ok n → (Documented size reports ↔
          StaysInside env cf.blocksize chunkSize context s.matcher s.temp)) := by
  have hcf := ControlFile.checked_of_parse hp
  intro s size context chunkSize r
  have hbase : Base env cf s := ((keeps_true env cf).runCalls hcf (fun _ => trivial) calls
    ⟨trivial, base_start cf outputPath baseUrl http fs⟩).2
  have hpos : 0 < chunkSize := lt_max_of_lt_left (by decide)
  have hnil : chunkReports chunkSize size 0 0 = [] := by simp [chunkReports]
  obtain ⟨k, len, hk, hscans, hskip, hrest⟩ := submitSelfReferential_reports hcf hbase hread
  refine ⟨_, hscans, increasing_chunkReports hpos, fun p hp => total_chunkReports hp, ?_,
    fun hfile hlen => ?_⟩
  · intro h
    obtain ⟨rfl, rfl⟩ := hskip h
    exact hnil
  · obtain ⟨hends, hle, hok⟩ := hrest hfile hlen
    have hsize : 0 < size := lt_of_lt_of_le
      (Nat.mul_pos hcf.blocksize_pos hcf.hashLengths.one_le_seq) hlen
    have hcontext : context ≤ chunkSize :=
      (Nat.le_mul_of_pos_right context Nat.two_pos).trans (le_max_right _ _)
    have hinside (h : StaysInside env cf.blocksize chunkSize context s.matcher s.temp) :
        len ≤ size := hle (endsInside_of_staysInside hcf hpos hcontext hread hbase hfile h)
    refine ⟨hends.imp_left ?_, fun hstays p hp => le_chunkReports (hk.trans (hinside hstays))
      (hinside hstays) hp, fun total htotal => ?_⟩
    · rintro ⟨⟨e, herror⟩, rfl, rfl⟩
      exact ⟨e, herror, hnil⟩
    · obtain ⟨hsizele, hlast, -, v, t, hreach, rfl⟩ := hok total htotal
      rw [documented_chunkReports_iff hpos hsize hk hsizele]
      exact ⟨staysInside_of_length_eq hcf hpos hcontext hread hbase hfile hreach hlast,
        fun hstays => le_antisymm (hinside hstays) hsizele⟩

/-- The scan of a file of 33 MiB, which reaches the end of the last block, reports as promised. -/
theorem self_scan_consistent_iff_hole :
    let s := runCalls holeEnv [.submitSourceFile holeSeed]
      (State.start (ZsyncAssembly.withClient holeControl "o" none ⟨none, 0⟩) fun _ =>
        some ⟨List.replicate (33 * 2 ^ 20) 0, 0⟩)
    ∃ reports, (submitSelfReferential holeEnv s).2.scans = s.scans ++ reports ∧
      Documented (33 * 2 ^ 20) reports := by
  have hcf := holeControl_checked
  have hcontext : holeControl.blocksize * holeControl.hashLengths.seqMatches = 2 ^ 20 := by decide
  have hread : ReadsFully holeEnv (max streamChunkSize
      (holeControl.blocksize * holeControl.hashLengths.seqMatches * 2)) := by
    refine fun _ => ?_
    rw [hcontext]
    exact (by decide : max streamChunkSize (2 ^ 20 * 2) ≤ streamChunkSize + 1)
  obtain ⟨reports, hscans, -, -, -, hrest⟩ := self_scan_consistent_iff parse_holeControl hread "o"
    none ⟨none, 0⟩ (fun _ => some ⟨List.replicate (33 * 2 ^ 20) 0, 0⟩) [.submitSourceFile holeSeed]
  have hstart : Base holeEnv holeControl (State.start (ZsyncAssembly.withClient holeControl "o" none
    ⟨none, 0⟩) fun _ => some ⟨List.replicate (33 * 2 ^ 20) 0, 0⟩) :=
    base_start holeControl "o" none ⟨none, 0⟩ _
  obtain ⟨hfile, htemp⟩ := submitSourceFile_hole hstart rfl
  obtain ⟨hbase, -⟩ := submitSourceFile_reached honest_holeEnv.disk hcf holeSeed hstart
    (isBlockKnown_start holeControl "o" none ⟨none, 0⟩ _ 32)
  change _ = writeAt (List.replicate (33 * 2 ^ 20) 0) _ _ at htemp
  have hne : spike (2 ^ 20) 2 ≠ [] := List.cons_ne_nil _ _
  have hlen := congrArg List.length htemp
  rw [length_writeAt _ _ hne, List.length_replicate, length_spike (by decide),
    max_eq_left (by decide)] at hlen
  intro s
  obtain ⟨n, hok⟩ := succeeds_submitSelfReferential honest_holeEnv s
  obtain ⟨-, -, hiff⟩ := hrest hfile (by rw [hlen, hcontext]; decide)
  refine ⟨reports, hscans, ?_⟩
  obtain ⟨ids, hm⟩ := hbase.matcher
  have hdocumented := (hiff n hok).2 (staysInside_of_le hcf hm (by rw [hlen]; decide))
  rw [hlen] at hdocumented
  exact hdocumented

/-- The scan of the file of 32 MiB finds the block behind its end, and reports more than its
size. -/
theorem self_scan_overruns :
    ControlFile.parse (ControlFile.write holeControl) = .ok holeControl ∧
      ReadsFully holeEnv (max streamChunkSize
        (holeControl.blocksize * holeControl.hashLengths.seqMatches * 2)) ∧
      let s := runCalls holeEnv [.submitSourceFile holeSeed]
        (State.start (ZsyncAssembly.withClient holeControl "o" none ⟨none, 0⟩) fun _ => none)
      (∃ n, (submitSelfReferential holeEnv s).1 = .ok n) ∧
        ∃ reports, (submitSelfReferential holeEnv s).2.scans = s.scans ++ reports ∧
          ¬ Documented s.temp.length reports := by
  have hcf := holeControl_checked
  have hcontext : holeControl.blocksize * holeControl.hashLengths.seqMatches = 2 ^ 20 := by decide
  have hchunk : max streamChunkSize (2 ^ 20 * 2) = streamChunkSize := by decide
  have hread : ReadsFully holeEnv streamChunkSize := fun _ => Nat.le_succ _
  obtain ⟨hbase, hfile, hlen, hunknown, hfind⟩ := hole_found
  have hreports := submitSelfReferential_reports hcf hbase (by rw [hcontext, hchunk]; exact hread)
  dsimp only at hreports
  rw [hcontext, hchunk] at hreports ⊢
  rw [hcontext] at hfind
  refine ⟨parse_holeControl, hread, ?_⟩
  intro s
  obtain ⟨n, hok⟩ := succeeds_submitSelfReferential honest_holeEnv s
  obtain ⟨k, len, hk, hscans, -, hrest⟩ := hreports
  refine ⟨⟨n, hok⟩, _, hscans, ?_⟩
  obtain ⟨-, -, hreturned⟩ := hrest hfile (by rw [hlen]; decide)
  obtain ⟨hle, hlast, -, v, t, hreach, htemp⟩ := hreturned n hok
  have hpos : 0 < streamChunkSize := by decide
  rw [documented_chunkReports_iff hpos (by rw [hlen]; exact hpos) hk hle]
  intro heq
  -- the first chunk lies inside the file, and the block found in it does not
  have hstays := staysInside_of_length_eq hcf hpos (by decide) hread hbase hfile hreach
    (by rw [htemp]; exact hlast) (htemp.trans heq)
  obtain ⟨p, hp, hid⟩ := mem_found_of_isBlockKnown hcf hbase hunknown hfind
  have hplace := (foundInside_zero hlen.le).1
    (hstays 0 (by rw [hlen, Nat.zero_add, Nat.one_mul])) p hp
  rw [hid, hlen] at hplace
  exact absurd hplace (by decide)

/-! ### A block behind the end -/

/-- **A scan that passes the size.**  When the last block is unknown, lies behind a temporary file
of one chunk, ends before a second chunk does and is found in the first one, a second round reports
the end of the block. -/
theorem self_scan_passes (hdisk : ∀ n op, (env.disk n op).error = none)
    (habort : ∀ n, env.abort n = false) (hcf : cf.Checked) {chunkSize id : ℕ}
    (hchunk : max streamChunkSize (cf.blocksize * cf.hashLengths.seqMatches * 2) = chunkSize)
    (hread : ReadsFully env chunkSize) (hs : Base env cf s) (hfile : s.file = true)
    (hlen : s.temp.length = chunkSize) (hunknown : s.matcher.isBlockKnown id = false)
    (hfind : (s.matcher.submitSourceData env.hashes env.cores
      (padTo (s.temp.length + cf.blocksize * cf.hashLengths.seqMatches) s.temp) 0).1.isBlockKnown
        id)
    (hlast : id + 1 = cf.blockChecksums.length) (hlt : chunkSize < (id + 1) * cf.blocksize)
    (hnext : (id + 1) * cf.blocksize < 2 * chunkSize) :
    (∃ n, (submitSelfReferential env s).1 = .ok n) ∧ (submitSelfReferential env s).2.scans =
      s.scans ++ [(chunkSize, chunkSize), ((id + 1) * cf.blocksize, chunkSize)] := by
  have hh : Honest env [] := ⟨hdisk, habort, fun _ _ _ _ _ h => absurd h (Nat.not_lt_zero _)⟩
  obtain ⟨total, hok⟩ := succeeds_submitSelfReferential hh s
  refine ⟨⟨total, hok⟩, ?_⟩
  obtain ⟨k, len, hle, hscans, -, hrest⟩ :=
    submitSelfReferential_reports hcf hs (hchunk ▸ hread)
  subst hchunk
  generalize hcontext : cf.blocksize * cf.hashLengths.seqMatches = context at *
  have hpos : 0 < max streamChunkSize (context * 2) := lt_max_of_lt_left (by decide)
  have hctx : context ≤ max streamChunkSize (context * 2) := by
    have := le_max_right streamChunkSize (context * 2)
    omega
  generalize max streamChunkSize (context * 2) = chunkSize at *
  obtain ⟨-, -, hreturned⟩ := hrest hfile (hctx.trans hlen.ge)
  obtain ⟨hsize, hstop, -, v, t, hreach, rfl⟩ := hreturned total hok
  rw [hlen] at hsize hscans hreach
  have hstart := rereading_start hs hfile
  rw [hlen, ← hlast, max_eq_right hlt.le] at hstart
  have hup := (reaches_reports hcf hpos (hlast ▸ le_rfl) hread hstart rfl hreach).1.le_hi
  -- there is one full chunk before the last one
  have hk0 : k ≠ 0 := by
    rintro rfl
    omega
  have hk2 : k < 2 := Nat.lt_of_mul_lt_mul_right (a := chunkSize) (by omega)
  obtain rfl : k = 1 := by omega
  cases hreach with
  | @next _ _ v' _ _ t' _ hzero hround =>
  cases hzero
  have hq := quiet_rereadStart env s
  -- the first chunk stores the block
  have hown := triple_scanRound_own (T := s.temp) (m := s.matcher) (v := ⟨[], 0, 0⟩) hcf hpos hctx
    hread (by dsimp only; omega) (rereadStart env s)
    ⟨hq.base hs, hq.file hfile, hq.temp, hq.matcher⟩
  rw [hlen, hround] at hown
  obtain ⟨p, hp, rfl⟩ := mem_found_of_isBlockKnown hcf hs hunknown hfind
  have hend := ((length_copyBlocks_le_iff hcf.blocksize_pos _ _).1
    (congrArg List.length hown.1).ge).2 p (by rw [scanOwn_whole hlen.le]; exact hp)
  rw [hscans, chunkReports, if_pos (by omega), le_antisymm hup hend]
  simp

/-- A hole of 31 MiB holds a block of zeros: a scan of 32 MiB reports 33 MiB. -/
theorem self_scan_passes_hole :
    let s := runCalls holeEnv [.submitSourceFile holeSeed]
      (State.start (ZsyncAssembly.withClient holeControl "o" none ⟨none, 0⟩) fun _ => none)
    (∃ n, (submitSelfReferential holeEnv s).1 = .ok n) ∧
      (submitSelfReferential holeEnv s).2.scans =
        s.scans ++ [(streamChunkSize, streamChunkSize), ((32 + 1) * holeControl.blocksize,
          streamChunkSize)] := by
  have hchunk : max streamChunkSize
      (holeControl.blocksize * holeControl.hashLengths.seqMatches * 2) = streamChunkSize := by
    decide
  have hlast : 32 + 1 = holeControl.blockChecksums.length := by decide
  have hend : streamChunkSize < (32 + 1) * holeControl.blocksize := by decide
  have hnext : (32 + 1) * holeControl.blocksize < 2 * streamChunkSize := by decide
  obtain ⟨hbase, hfile, hlen, hunknown, hfind⟩ := hole_found
  exact self_scan_passes (fun _ _ => rfl) (fun _ => rfl) holeControl_checked hchunk
    (fun _ => Nat.le_succ _) hbase hfile hlen hunknown hfind hlast hend hnext

end Zsync
