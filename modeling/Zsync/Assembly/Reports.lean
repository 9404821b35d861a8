import Zsync.Assembly.Growth
import Zsync.Assembly.Steps

/-!
# Progress reports

What the progress callback gets.

* `State.reports`, `progressAt` : the values that it got, and those after some blocks;
* `Told` : one report for every block that became known, one block after another;
* `download_told` : a download, and what it has reported when it fails;
* `reports_ascend` : over every run of calls the reports grow, up to the length of the target.
-/

namespace Zsync

variable {env : Env} {cf : ControlFile} {s t : State}

/-- What the progress callback received with an event. -/
def Event.report? : Event → Option (ℕ × ℕ)
  | .progress done total => some (done, total)
  | _ => none

/-- What the progress callback received in a run, oldest first. -/
def State.reports (s : State) : List (ℕ × ℕ) := (s.trace.filterMap Event.report?).reverse

theorem reports_of_trace (es : List Event) (h : t.trace = es ++ s.trace)
    (hes : ∀ e ∈ es, e.report? = none) : t.reports = s.reports := by
  rw [State.reports, h, List.filterMap_append, List.filterMap_eq_nil_iff.2 hes, List.nil_append,
    State.reports]

theorem reports_note (s : State) (done total : ℕ) :
    (s.note (.progress done total)).reports = s.reports ++ [(done, total)] := by
  simp [State.reports, State.note, Event.report?]

/-- The matcher is one of `cf`. -/
structure Fit (env : Env) (cf : ControlFile) (s : State) : Prop where
  control : s.control = cf
  matcher : ∃ ids, BlockMatcher.Reachable env.hashes cf s.matcher ids

theorem Base.fit (h : Base env cf s) : Fit env cf s := ⟨h.control, h.matcher⟩

theorem Fit.counted (hcf : cf.Checked) (h : Fit env cf s) : s.matcher.Counted :=
  h.matcher.elim fun _ hm => hm.counted hcf

theorem Fit.knownCount_le (hcf : cf.Checked) (h : Fit env cf s) :
    s.matcher.knownCount ≤ cf.blockChecksums.length := by
  obtain ⟨ids, hm⟩ := h.matcher
  have hcounted := hm.counted hcf
  have htotal : s.matcher.totalBlocks = cf.blockChecksums.length :=
    BlockMatcher.length_targets (hm.indexed hcf).2
  rw [hcounted.count, ← htotal]
  exact List.count_le_length.trans hcounted.length.le

/-! ### The values -/

/-- What `progress` returns when `k` blocks are known. -/
def progressAt (cf : ControlFile) (k : ℕ) : ℕ × ℕ := (min (k * cf.blocksize) cf.length, cf.length)

theorem Fit.progress_eq (hcf : cf.Checked) (h : Fit env cf s) :
    s.progress = progressAt cf s.matcher.knownCount := by
  have hcounted := h.counted hcf
  have hle : s.matcher.knownCount ≤ s.matcher.knownBlocks.length :=
    hcounted.count ▸ List.count_le_length
  have hlen : s.matcher.knownBlocks.length = s.matcher.totalBlocks := hcounted.length
  have hdone : s.matcher.totalBlocks - s.matcher.blocksTodo = s.matcher.knownCount := by
    rw [BlockMatcher.blocksTodo]
    omega
  rw [ZsyncAssembly.progress, hdone, h.control, progressAt]

/-- Each block adds to the progress, the last one less than the others. -/
theorem progressAt_lt (hcf : cf.Checked) {k l : ℕ} (hkl : k < l)
    (hl : l ≤ cf.blockChecksums.length) : (progressAt cf k).1 < (progressAt cf l).1 := by
  have hlt : k * cf.blocksize < cf.length := by
    rw [← ControlFile.lt_numBlocks hcf.blocksize_pos, ← hcf.count]
    exact hkl.trans_le hl
  have hmul : k * cf.blocksize < l * cf.blocksize :=
    Nat.mul_lt_mul_of_pos_right hkl hcf.blocksize_pos
  simp only [progressAt]
  omega

theorem Fit.progress_of_complete (hcf : cf.Checked) (h : Fit env cf s)
    (hcomplete : s.matcher.isComplete) : s.progress = (cf.length, cf.length) := by
  obtain ⟨ids, hm⟩ := h.matcher
  have htotal : s.matcher.totalBlocks = cf.blockChecksums.length :=
    BlockMatcher.length_targets (hm.indexed hcf).2
  have hlen : s.matcher.knownBlocks.length = s.matcher.totalBlocks := (hm.counted hcf).length
  have hknown : s.matcher.knownCount = s.matcher.knownBlocks.length := by
    simpa [BlockMatcher.isComplete] using hcomplete
  have hle := ControlFile.numBlocks_le_mul hcf.blocksize_pos cf.length
  rw [h.progress_eq hcf, hknown, hlen, htotal, hcf.count, progressAt, min_eq_right hle]

/-! ### One call -/

/-- The reports of the blocks after the first `known`, `n` of them. -/
def reportsFrom (cf : ControlFile) (known n : ℕ) : List (ℕ × ℕ) :=
  (List.range' (known + 1) n).map (progressAt cf)

theorem reportsFrom_append (cf : ControlFile) (known n m : ℕ) :
    reportsFrom cf known n ++ reportsFrom cf (known + n) m = reportsFrom cf known (n + m) := by
  rw [reportsFrom, reportsFrom, reportsFrom, ← List.map_append, Nat.add_right_comm,
    List.range'_append_1]

/-- One report was made for each of `n` blocks that became known, one block after another; `Left`
relates the blocks that this accounts for to those known. -/
def Told (env : Env) (cf : ControlFile) (Left : ℕ → ℕ → Prop) (s t : State) : Prop :=
  Fit env cf s → Fit env cf t ∧ ∃ n, Left (s.matcher.knownCount + n) t.matcher.knownCount ∧
    t.reports = s.reports ++ reportsFrom cf s.matcher.knownCount n

/-- A failure may leave a block that is known and was not reported. -/
instance : Prog.Passes (Told env cf (· = ·)) (Told env cf (· ≤ ·)) where
  refl s h := ⟨h, 0, rfl, (List.append_nil _).symm⟩
  trans {s t u} h h' hs := by
    obtain ⟨ht, n, hn, hreports⟩ := h hs
    obtain ⟨hu, m, hm, hreports'⟩ := h' ht
    refine ⟨hu, n + m, by omega, ?_⟩
    rw [hreports', hreports, ← hn, List.append_assoc, reportsFrom_append]
  fail {s t} h hs := by
    obtain ⟨ht, n, hn, hreports⟩ := h hs
    exact ⟨ht, n, hn.le, hreports⟩
  later {s t u} h h' hs := by
    obtain ⟨ht, n, hn, hreports⟩ := h hs
    obtain ⟨hu, m, hm, hreports'⟩ := h' ht
    refine ⟨hu, n + m, by omega, ?_⟩
    rw [hreports', hreports, ← hn, List.append_assoc, reportsFrom_append]

/-- What no step on files changes of what the reports are about. -/
abbrev State.kept (s : State) : ControlFile × BlockMatcher × List (ℕ × ℕ) :=
  (s.control, s.matcher, s.reports)

theorem allows_kept : Allows (Prog.Unchanged State.kept) where
  clock _ _ := rfl
  file _ _ := rfl
  fs _ _ := rfl
  disk s op error := congrArg (fun r => (s.control, s.matcher, r))
    (reports_of_trace [.disk op error] rfl (by simp [Event.report?]))
  wrote s offset data := congrArg (fun r => (s.control, s.matcher, r))
    (reports_of_trace [.wrote offset data] rfl (by simp [Event.report?]))

theorem Told.of_kept {Left : ℕ → ℕ → Prop} (hLeft : ∀ n, Left n n) (h : t.kept = s.kept) :
    Told env cf Left s t := by
  simp only [State.kept, Prod.mk.injEq] at h
  obtain ⟨hcontrol, hmatcher, hreports⟩ := h
  refine fun hs => ⟨⟨hcontrol.trans hs.control, hmatcher ▸ hs.matcher⟩, 0, ?_, ?_⟩
  · rw [hmatcher]
    exact hLeft _
  · rw [hreports]
    exact (List.append_nil _).symm

theorem allows_told : Allows (Told env cf (· = ·)) where
  clock s clock := Told.of_kept (fun _ => rfl) (allows_kept.clock s clock)
  file s file := Told.of_kept (fun _ => rfl) (allows_kept.file s file)
  fs s fs := Told.of_kept (fun _ => rfl) (allows_kept.fs s fs)
  disk s op error := Told.of_kept (fun _ => rfl) (allows_kept.disk s op error)
  wrote s offset data := Told.of_kept (fun _ => rfl) (allows_kept.wrote s offset data)

theorem writeClaimed_reports (id : ℕ) (data : Bytes) (s : State) :
    Prog.Post
      (fun _ t => t.control = s.control ∧ t.matcher = s.matcher ∧
        t.reports = s.reports ++ [s.progress])
      (fun _ t => t.kept = s.kept) (writeClaimed env id data s) := by
  suffices h : Prog.Triple (fun t => t.kept = s.kept) (writeClaimed env id data) _ _ from h s rfl
  refine Prog.Triple.bind (Prog.Frames.triple allows_kept.ensureFile _) fun _ =>
    Prog.Triple.peek fun _ _ => ?_
  refine Prog.Triple.bind (Prog.Frames.triple (allows_kept.writeAtOffset _ _) _) fun _ => ?_
  refine Prog.Triple.bind (Prog.Triple.modify fun t ht => ?_) fun _ => Prog.Triple.pure fun _ h => h
  simp only [State.kept, Prod.mk.injEq] at ht
  obtain ⟨hcontrol, hmatcher, hreports⟩ := ht
  refine ⟨hcontrol, hmatcher, ?_⟩
  have hprogress : t.progress = s.progress := by
    rw [ZsyncAssembly.progress, hcontrol, hmatcher, ZsyncAssembly.progress]
  rw [reports_note, hreports, hprogress]

/-- **A downloaded block** is reported exactly when it was found right and is written. -/
theorem storeBlock_told (hcf : cf.Checked) (s : State) (id : ℕ) (data : Bytes)
    (hid : id < s.matcher.totalBlocks) (hunknown : s.matcher.isBlockKnown id = false) :
    Prog.Post (fun _ t => Told env cf (· = ·) s t) (fun _ t => Told env cf (· ≤ ·) s t)
      (storeBlock env id (padTo s.control.blocksize data) data s) := by
  by_cases hs : Fit env cf s
  swap
  · exact Prog.Post.of_forall (fun _ _ h => absurd h hs) fun _ _ h => absurd h hs
  obtain ⟨ids, hm⟩ := hs.matcher
  have hsized := hm.sized hcf
  have hlen : (padTo s.control.blocksize data).length = s.matcher.blocksize := by
    rw [length_padTo, hs.control, BlockMatcher.blocksize_congr (hm.indexed hcf).2]
    rfl
  have hone := BlockMatcher.submitBlocks_one (H := env.hashes) hsized hlen hid
  have hnext := hm.submitBlocks (padTo s.control.blocksize data) id
  by_cases hsame : s.matcher.sameChecksum (env.hashes.md4 (padTo s.control.blocksize data))
      (s.matcher.target id).checksum
  · -- it is known from here on, whether its write succeeds or not
    rw [if_pos hsame] at hone
    rw [hone] at hnext
    let s' : State := { s with
      matcher := s.matcher.markKnown id
      trace := .took id (padTo s.control.blocksize data) :: s.trace }
    have hrun : submitBlock env (padTo s.control.blocksize data) id s = (.ok true, s') := by
      simp only [submitBlock, hone, if_true, s']
    have hfit : Fit env cf s' := ⟨hs.control, _, hnext⟩
    have hcount : s'.matcher.knownCount = s.matcher.knownCount + 1 :=
      BlockMatcher.knownCount_markKnown hunknown
    have hreports : s'.reports = s.reports :=
      reports_of_trace [.took id _] rfl (by simp [Event.report?])
    rw [storeBlock_run hrun, if_pos rfl]
    refine (writeClaimed_reports id data s').mono (fun _ t ht _ => ?_) fun _ t ht _ => ?_
    · obtain ⟨hcontrol, hmatcher, ht⟩ := ht
      refine ⟨⟨hcontrol.trans hfit.control, hmatcher ▸ hfit.matcher⟩, 1, ?_, ?_⟩
      · rw [hmatcher, hcount]
      · rw [ht, hreports, hfit.progress_eq hcf, hcount]
        rfl
    · simp only [State.kept, Prod.mk.injEq] at ht
      obtain ⟨hcontrol, hmatcher, ht⟩ := ht
      refine ⟨⟨hcontrol.trans hfit.control, hmatcher ▸ hfit.matcher⟩, 0, ?_, ?_⟩
      · rw [hmatcher, hcount]
        exact Nat.le_succ _
      · rw [ht, hreports]
        exact (List.append_nil _).symm
  · rw [if_neg hsame] at hone
    have hrun : submitBlock env (padTo s.control.blocksize data) id s = (.ok false, s) := by
      simp only [submitBlock, hone, Bool.false_eq_true, if_false]
    rw [storeBlock_run hrun]
    exact fun _ => ⟨hs, 0, rfl, (List.append_nil _).symm⟩

/-- **A download** reports the blocks that become known one after another.  When it fails the last
one may not have been reported. -/
theorem download_told (hcf : cf.Checked) :
    Prog.Steps (Told env cf (· = ·)) (Told env cf (· ≤ ·)) (downloadMissingBlocks env) :=
  allows_told.downloadMissingBlocks (storeBlock_told hcf) fun _ _ =>
    Told.of_kept (fun _ => rfl) rfl

/-! ### Every run -/

/-- The reports are those of ascending numbers of blocks, each known by then. -/
def Ascends (env : Env) (cf : ControlFile) (s t : State) : Prop :=
  Fit env cf s → Fit env cf t ∧ s.matcher.knownCount ≤ t.matcher.knownCount ∧
    ∃ ks : List ℕ, ks.Pairwise (· < ·) ∧
      (∀ k ∈ ks, s.matcher.knownCount < k ∧ k ≤ t.matcher.knownCount) ∧
      t.reports = s.reports ++ ks.map (progressAt cf)

instance : Prog.Passes (Ascends env cf) (Ascends env cf) := by
  refine .of_trans (fun s hs => ⟨hs, le_rfl, [], .nil, by simp, by simp⟩) ?_
  intro s t u h h' hs
  obtain ⟨ht, hle, ks, hks, hmem, hreports⟩ := h hs
  obtain ⟨hu, hle', ls, hls, hmem', hreports'⟩ := h' ht
  refine ⟨hu, hle.trans hle', ks ++ ls, List.pairwise_append.2 ⟨hks, hls, fun k hk l hl => ?_⟩,
    fun k hk => ?_, ?_⟩
  · exact (hmem k hk).2.trans_lt (hmem' l hl).1
  · rcases List.mem_append.1 hk with hk | hk
    · exact ⟨(hmem k hk).1, (hmem k hk).2.trans hle'⟩
    · exact ⟨hle.trans_lt (hmem' k hk).1, (hmem' k hk).2⟩
  · rw [hreports', hreports, List.append_assoc, List.map_append]

theorem Told.ascends {Left : ℕ → ℕ → Prop} (hLeft : ∀ n m, Left n m → n ≤ m)
    (h : Told env cf Left s t) : Ascends env cf s t := by
  intro hs
  obtain ⟨ht, n, hn, hreports⟩ := h hs
  have hle := hLeft _ _ hn
  refine ⟨ht, by omega, _, List.pairwise_lt_range', fun k hk => ?_, hreports⟩
  obtain ⟨hlow, hhigh⟩ := List.mem_range'_1.1 hk
  exact ⟨hlow, by omega⟩

theorem allows_ascends : Allows (Ascends env cf) where
  clock s clock := (allows_told.clock s clock).ascends fun _ _ => Eq.le
  file s file := (allows_told.file s file).ascends fun _ _ => Eq.le
  fs s fs := (allows_told.fs s fs).ascends fun _ _ => Eq.le
  disk s op error := (allows_told.disk s op error).ascends fun _ _ => Eq.le
  wrote s offset data := (allows_told.wrote s offset data).ascends fun _ _ => Eq.le

/-- **A scan** reports nothing to this callback. -/
theorem submitChunk_ascends (hcf : cf.Checked) (data : Bytes) (offset : ℕ) :
    Prog.Steps (Ascends env cf) (Ascends env cf) (submitChunk env data offset) := by
  intro s hs
  obtain ⟨ids, hm⟩ := hs.matcher
  obtain ⟨-, hcount, -⟩ := BlockMatcher.submitSourceData_spec
    (H := env.hashes) (hm.sized hcf) (hm.indexed hcf).1 (hs.counted hcf) env.cores data offset
  refine ⟨⟨hs.control, _, hm.submitSourceData env.cores data offset⟩, ?_, [], .nil, by simp, ?_⟩
  · exact hcount.ge.trans' (Nat.le_add_right _ _)
  · rw [List.map_nil, List.append_nil]
    refine reports_of_trace _ rfl fun e he => ?_
    obtain ⟨p, -, rfl⟩ := List.mem_map.1 (List.mem_reverse.1 he)
    rfl

/-- **Every call.** -/
theorem call_ascends (hcf : cf.Checked) (call : Call) :
    Prog.Steps (Ascends env cf) (Ascends env cf) (call.exec env) := by
  have hsubmit : ∀ data offset, Prog.Steps (Ascends env cf) (Ascends env cf)
      (submitChunk env data offset) := submitChunk_ascends hcf
  have hscan : ∀ s done total, Ascends env cf s (s.note (.scanProgress done total)) :=
    fun s done total => by
    refine (Told.of_kept (fun _ => rfl) ?_).ascends fun _ _ => Eq.le
    exact congrArg (fun r => (s.control, s.matcher, r))
      (reports_of_trace [.scanProgress done total] rfl (by simp [Event.report?]))
  cases call with
  | submitSourceFile seed => exact allows_ascends.submitSourceFile hsubmit hscan seed
  | submitSelfReferential => exact allows_ascends.submitSelfReferential hsubmit hscan
  | downloadMissingBlocks =>
    exact (download_told hcf).mono (fun _ _ h => h.ascends fun _ _ => Eq.le)
      fun _ _ h => h.ascends fun _ _ => id
  | setRangeGapThreshold threshold =>
    refine Prog.Steps.bind (fun s => ?_) fun _ => .pure _
    have hkept : State.kept { s with rangeGapThreshold := threshold } = s.kept := rfl
    exact (Told.of_kept (fun _ => rfl) hkept).ascends fun _ _ => Eq.le

theorem runCalls_ascends (hcf : cf.Checked) (calls : List Call) (s : State) :
    Ascends env cf s (runCalls env calls s) := by
  induction calls generalizing s with
  | nil => exact Prog.Passes.refl (Ascends env cf) s
  | cons call calls ih =>
    exact Prog.Passes.trans (Ascends env cf) ((call_ascends hcf call).state s) (ih _)

theorem reports_start (a : ZsyncAssembly) (fs : String → Option File) :
    (State.start a fs).reports = [] := rfl

theorem download_ok (hcf : cf.Checked) (hs : Base env cf s) {n : ℕ}
    (hn : (downloadMissingBlocks env s).1 = .ok n) :
    let t := (downloadMissingBlocks env s).2
    Fit env cf t ∧ t.reports = s.reports ++ reportsFrom cf s.matcher.knownCount n ∧
      t.matcher.knownCount = s.matcher.knownCount + n := by
  intro t
  have hrun : downloadMissingBlocks env s = (.ok n, t) := Prod.ext hn rfl
  have hsince := download_since (keeps_true env cf) hcf (fun _ => trivial) ⟨trivial, hs⟩ s rfl
  have htold := @download_told env cf hcf s
  rw [hrun] at hsince htold
  obtain ⟨ht, m, hm, hreports⟩ := htold hs.fit
  have hcount : t.matcher.knownCount = s.matcher.knownCount + n := hsince.count
  obtain rfl : m = n := by omega
  exact ⟨ht, hreports, hcount⟩

/-- **The progress callback.**  For every control file that `parse` accepts and after any calls, the
bytes done that were reported grow from one report to the next, are never past the progress of the
assembly, and come with the length of the target.  A download that then returns `n` reports `n`
times: what `progress` is after each of the blocks that it added, last what it is at its end. -/
theorem reports_ascend {input : Bytes} (hp : ControlFile.parse input = .ok cf) (env : Env)
    (outputPath : String) (baseUrl : Option String) (http : HttpClient) (fs : String → Option File)
    (calls : List Call) :
    let s := runCalls env calls
      (State.start (ZsyncAssembly.withClient cf outputPath baseUrl http) fs)
    let out := downloadMissingBlocks env s
    (s.reports.map Prod.fst).Pairwise (· < ·) ∧
      (∀ r ∈ s.reports, 0 < r.1 ∧ r.1 ≤ s.progress.1 ∧ r.2 = cf.length) ∧
      ∀ n, out.1 = .ok n → out.2.reports = s.reports ++ reportsFrom cf s.matcher.knownCount n ∧
        (0 < n → out.2.reports.getLast? = some out.2.progress) := by
  have hcf := ControlFile.checked_of_parse hp
  intro s out
  have hstart : Fit env cf (State.start (ZsyncAssembly.withClient cf outputPath baseUrl http) fs) :=
    (base_start cf outputPath baseUrl http fs).fit
  obtain ⟨hs, -, ks, hks, hmem, hreports⟩ := runCalls_ascends hcf calls _ hstart
  rw [reports_start, List.nil_append] at hreports
  have hbound : ∀ k ∈ ks, 0 < k ∧ k ≤ s.matcher.knownCount := fun k hk =>
    ⟨Nat.zero_lt_of_lt (hmem k hk).1, (hmem k hk).2⟩
  have hmax := hs.knownCount_le hcf
  refine ⟨?_, fun r hr => ?_, fun n hn => ?_⟩
  · rw [hreports, List.map_map, List.pairwise_map]
    exact hks.imp_of_mem fun _ hl hlt => progressAt_lt hcf hlt ((hbound _ hl).2.trans hmax)
  · rw [hreports] at hr
    obtain ⟨k, hk, rfl⟩ := List.mem_map.1 hr
    obtain ⟨hpos, hle⟩ := hbound k hk
    have hzero := progressAt_lt hcf hpos (hle.trans hmax)
    refine ⟨Nat.zero_lt_of_lt hzero, ?_, rfl⟩
    rw [hs.progress_eq hcf]
    rcases hle.eq_or_lt with rfl | hlt
    · exact le_rfl
    · exact (progressAt_lt hcf hlt hmax).le
  · have hbase : Base env cf s := ((keeps_true env cf).runCalls hcf (fun _ => trivial) calls
      ⟨trivial, base_start cf outputPath baseUrl http fs⟩).2
    obtain ⟨ht, htold, hcount⟩ := download_ok hcf hbase hn
    refine ⟨htold, fun hpos => ?_⟩
    obtain ⟨m, rfl⟩ := Nat.exists_eq_add_one.2 hpos
    rw [htold, ← reportsFrom_append, ← List.append_assoc, List.getLast?_append, ht.progress_eq hcf,
      hcount]
    rfl

/-- The one block of a target is reported with all its bytes. -/
theorem reports_ascend_tiny :
    (downloadMissingBlocks (tinyEnv [1, 0] none) (tinyStart none none)).2.reports = [(2, 2)] := by
  have hparse :
      ControlFile.parse (ControlFile.write (tinyControl none)) = .ok (tinyControl none) := by
    decide +kernel
  have hrun : (downloadMissingBlocks (tinyEnv [1, 0] none) (tinyStart none none)).1 = .ok 1 := by
    decide +kernel
  unfold tinyStart at *
  exact ((reports_ascend hparse (tinyEnv [1, 0] none) "o" none ⟨none, 0⟩ (tinyFs none) []).2.2 1
    hrun).1

end Zsync
