import Zsync.Assembly.Fault
import Zsync.Assembly.Output

/-!
# Safety against any server

What a temporary file that was not there before holds, whatever the seeds and the server send.

* `NoFalseAgreement` : no bytes that were taken for a block only agree with its stored digest;
* `Holds` : known blocks hold their bytes of the target, and the rest of the file is zero;
* `assembly_safe` : over every run, and at its end.
-/

namespace Zsync

variable {env : Env} {cf : ControlFile} {T : Bytes} {s s' : State}

/-- No bytes that were taken for a block agree with its stored digest unless they are that
zero-padded block of `T`. -/
def NoFalseAgreement (H : Hashes) (cf : ControlFile) (T : Bytes) (trace : List Event) : Prop :=
  ∀ id w, .took id w ∈ trace →
    (H.md4 w).toList.take cf.hashLengths.checksumBytes =
      (H.md4 (targetBlock T cf.blocksize id)).toList.take cf.hashLengths.checksumBytes →
    w = targetBlock T cf.blocksize id

/-- Known blocks hold their bytes of `T`; those claimed or unknown hold zeros, and what is to be
written of a claimed block is the block but for zeros at its end. -/
structure Holds (cf : ControlFile) (T : Bytes) (p : List (ℕ × Bytes)) (s : State) : Prop where
  known : ∀ id, s.matcher.isBlockKnown id → id ∉ p.map Prod.fst →
    slice s.temp (id * cf.blocksize) cf.blocksize = targetBlock T cf.blocksize id
  zero : ∀ id, s.matcher.isBlockKnown id = false ∨ id ∈ p.map Prod.fst →
    slice s.temp (id * cf.blocksize) cf.blocksize = List.replicate cf.blocksize 0
  pending : ∀ q ∈ p, s.matcher.isBlockKnown q.1 ∧ q.2.length ≤ cf.blocksize ∧
    padTo cf.blocksize q.2 = targetBlock T cf.blocksize q.1
  nodup : (p.map Prod.fst).Nodup

/-- `Holds` in a run in which nothing went wrong so far. -/
def Safe (env : Env) (cf : ControlFile) (T : Bytes) (p : List (ℕ × Bytes)) (s : State) : Prop :=
  Healthy s.trace → NoFalseAgreement env.hashes cf T s.trace → Holds cf T p s

/-! ### One step -/

theorem NoFalseAgreement.mono {H : Hashes} {trace trace' : List Event}
    (h : NoFalseAgreement H cf T trace') (hsub : ∀ e ∈ trace, e ∈ trace') :
    NoFalseAgreement H cf T trace := fun id w hmem => h id w (hsub _ hmem)

theorem Healthy.mono {trace trace' : List Event} (h : Healthy trace')
    (hsub : ∀ e ∈ trace, e ∈ trace') : Healthy trace := fun op kind hmem => h op kind (hsub _ hmem)

/-- Zeros at the end of what is written need not be written over zeros. -/
theorem append_zeros {n : ℕ} {data : Bytes} (h : data.length ≤ n) :
    data ++ List.replicate (n - data.length) 0 = padTo n data := by
  rw [padTo, List.take_of_length_le h]

theorem Safe.wrote {id : ℕ} {data : Bytes} {p : List (ℕ × Bytes)}
    (hsome : (s.fs s.tempPath).isSome) (h : Safe env cf T ((id, data) :: p) s) :
    Safe env cf T p (s.wrote (id * cf.blocksize) data) := by
  intro hhealthy hagree
  have hsub : ∀ e ∈ s.trace, e ∈ (s.wrote (id * cf.blocksize) data).trace := fun e =>
    List.mem_cons_of_mem _
  obtain ⟨hknown, hzero, hpending, hnodup⟩ := h (hhealthy.mono hsub) (hagree.mono hsub)
  obtain ⟨⟨hidknown, hlen, hdata⟩, hrest⟩ := List.forall_mem_cons.1 hpending
  have hlen : data.length ≤ cf.blocksize := hlen
  obtain ⟨hid, hnodup⟩ := List.nodup_cons.1 (List.map_cons ▸ hnodup)
  have hother : ∀ j ≠ id, slice (s.wrote (id * cf.blocksize) data).temp (j * cf.blocksize)
      cf.blocksize = slice s.temp (j * cf.blocksize) cf.blocksize := by
    intro j hj
    rw [temp_wrote hsome, slice_writeAt_of_disjoint]
    exact block_disjoint (Ne.symm hj) hlen le_rfl
  refine ⟨fun j hk hj => ?_, fun j hj => ?_, hrest, hnodup⟩
  · by_cases hji : j = id
    · subst hji
      -- the part of the block after the bytes written was zero before
      have hblock := hzero j (Or.inr List.mem_cons_self)
      have htail : slice s.temp (j * cf.blocksize + data.length) (cf.blocksize - data.length) =
          List.replicate (cf.blocksize - data.length) 0 := by
        rw [← slice_slice (n := cf.blocksize) (by omega), hblock]
        refine (slice_eq_iff (by simp)).2 fun i hi => ?_
        simp only [byteAt, List.getD_eq_getElem?_getD, List.getElem?_replicate]
        split_ifs <;> rfl
      rw [temp_wrote hsome, slice_writeAt _ _ hlen, htail, append_zeros hlen, hdata]
    · rw [hother j hji]
      exact hknown j hk (by simpa [hji] using hj)
  · have hji : j ≠ id := by
      rintro rfl
      rcases hj with hj | hj
      · exact Bool.false_ne_true (hj.symm.trans hidknown)
      · exact hid hj
    rw [hother j hji]
    exact hzero j (hj.imp (fun h => h) (List.mem_cons_of_mem _))

theorem Safe.claimed (hcf : cf.Checked) (hT : cf.DescribesTarget env.hashes T)
    {p : List (ℕ × Bytes)} (hs : Base env cf s) (hc : Claimed env s s' p)
    (h : Safe env cf T [] s) : Safe env cf T p s' := by
  intro hhealthy hagree
  have hsub : ∀ e ∈ s.trace, e ∈ s'.trace := fun e he => hc.trace ▸ List.mem_append_right _ he
  obtain ⟨hknown, hzero, -, -⟩ := h (hhealthy.mono hsub) (hagree.mono hsub)
  have htemp : s'.temp = s.temp := by simp only [State.temp, hc.fs, hc.tempPath]
  refine ⟨fun id hk hid => ?_, fun id hid => ?_, fun q hq => ?_, hc.nodup⟩
  · rw [hc.known, decide_eq_false hid, Bool.or_false] at hk
    exact htemp ▸ hknown id hk (by simp)
  · rw [htemp]
    refine hzero id (Or.inl ?_)
    rcases hid with hid | hid
    · rw [hc.known, Bool.or_eq_false_iff] at hid
      exact hid.1
    · obtain ⟨q, hq, rfl⟩ := List.mem_map.1 hid
      exact (hc.unknown q hq).2
  · have hcontrol := hs.control
    have hlen := (hc.length q hq).2
    have hsame := hc.agrees q hq
    have htook : Event.took q.1 (padTo s.control.blocksize q.2) ∈ s'.trace := by
      rw [hc.trace]
      exact List.mem_append_left _ (List.mem_reverse.2 (List.mem_map.2 ⟨q, hq, rfl⟩))
    rw [hcontrol] at hlen hsame htook
    refine ⟨?_, hlen, hagree _ _ htook ?_⟩
    · rw [hc.known, decide_eq_true (List.mem_map_of_mem hq), Bool.or_true]
    · exact (BlockMatcher.sameChecksum_target hcf hT (hs.shape hcf) (hc.unknown q hq).1 _).1 hsame

theorem keeps_safe (hcf : cf.Checked) (hT : cf.DescribesTarget env.hashes T) :
    Keeps env cf (fun _ => True) (Safe env cf T) where
  quiet := fun hq h hhealthy hagree => by
    obtain ⟨es, htrace, -⟩ := hq.trace
    have hsub : ∀ e ∈ _, e ∈ _ := fun e he => htrace ▸ List.mem_append_right es he
    obtain ⟨hknown, hzero, hpending, hnodup⟩ := h (hhealthy.mono hsub) (hagree.mono hsub)
    refine ⟨?_, ?_, ?_, hnodup⟩ <;> rw [hq.matcher]
    · exact hq.temp ▸ hknown
    · exact hq.temp ▸ hzero
    · exact hpending
  claimed := fun hs hc _ h => h.claimed hcf hT hs hc
  wrote := fun _ hsome h => h.wrote hsome
  failed := fun _ hf _ hhealthy _ => by
    obtain ⟨op, kind, es, htrace, hop, -⟩ := hf.trace
    have := hhealthy op kind (htrace ▸ List.mem_cons_self)
    exact absurd (hop.symm.trans this) Bool.noConfusion

/-! ### Runs -/

theorem safe_start {outputPath : String} {baseUrl : Option String} {http : HttpClient}
    {fs : String → Option File} (hfresh : fs (outputPath ++ ".zsync-tmp") = none) :
    Safe env cf T [] (State.start (ZsyncAssembly.withClient cf outputPath baseUrl http) fs) := by
  have htemp :
      (State.start (ZsyncAssembly.withClient cf outputPath baseUrl http) fs).temp = [] := by
    simp [State.temp, State.start, ZsyncAssembly.withClient, hfresh]
  refine fun _ _ => ⟨fun id hk => ?_, fun id _ => ?_, by simp, List.nodup_nil⟩
  · exact absurd (hk.symm.trans (BlockMatcher.isBlockKnown_new cf id)) Bool.noConfusion
  · rw [htemp]
    simp [slice, padTo, window]

theorem padTo_temp_eq (hcf : cf.Checked) (hT : cf.DescribesTarget env.hashes T) {temp : Bytes}
    (h : ∀ id < cf.blockChecksums.length,
      slice temp (id * cf.blocksize) cf.blocksize = targetBlock T cf.blocksize id) :
    padTo cf.length temp = T := by
  rw [hT.length]
  refine padTo_eq_of_byteAt fun i hi => ?_
  obtain ⟨id, r, rfl, hr, hid⟩ := hcf.exists_block (hT.length.symm ▸ hi)
  have hslice : slice temp (id * cf.blocksize) cf.blocksize =
      slice T (id * cf.blocksize) cf.blocksize := h id hid
  rw [slice_eq_iff (length_slice _ _ _)] at hslice
  rw [hslice r hr, byteAt_slice, if_pos hr]

/-- **Safety against any server.**  The assembly starts with nothing at the temporary path.  After
any calls, with any seeds, any responses, any aborts and any failed reads, when no operation to
store a block has failed and no bytes were taken for a block that they are not, every known block
holds its bytes of the target, and `complete` can only install the target. -/
theorem assembly_safe (env : Env) (hcf : cf.Checked) (hT : cf.DescribesTarget env.hashes T)
    {outputPath : String} (baseUrl : Option String) (http : HttpClient) {fs : String → Option File}
    (hfresh : fs (outputPath ++ ".zsync-tmp") = none) (calls : List Call)
    (hhealthy : Healthy (runCalls env calls
      (State.start (ZsyncAssembly.withClient cf outputPath baseUrl http) fs)).trace)
    (hagree : NoFalseAgreement env.hashes cf T (runCalls env calls
      (State.start (ZsyncAssembly.withClient cf outputPath baseUrl http) fs)).trace) :
    let s := runCalls env calls
      (State.start (ZsyncAssembly.withClient cf outputPath baseUrl http) fs)
    (∀ id, s.matcher.isBlockKnown id →
      slice s.temp (id * cf.blocksize) cf.blocksize = targetBlock T cf.blocksize id) ∧
      ((finish env s).1 = .ok () →
        ∃ file, (finish env s).2.fs outputPath = some file ∧ file.data = T) := by
  intro s
  obtain ⟨hsafe, hbase⟩ := (keeps_safe hcf hT).runCalls hcf (fun _ => trivial) calls
    ⟨safe_start hfresh, base_start cf outputPath baseUrl http fs⟩
  obtain ⟨hothers, -⟩ := (keeps_others env fs outputPath).runCalls hcf (fun _ => trivial) calls
    ⟨⟨rfl, rfl, fun _ _ => rfl⟩, base_start cf outputPath baseUrl http fs⟩
  have hknown := (hsafe hhealthy hagree).known
  refine ⟨fun id hk => hknown id hk (by simp), fun hok => ?_⟩
  have hinstalled := finish_ok hbase hok
  obtain ⟨file, hsome, hdata⟩ := hinstalled.output
  refine ⟨file, hothers.outputPath ▸ hsome, ?_⟩
  rw [hdata, hbase.control]
  refine padTo_temp_eq hcf hT fun id hid => hknown id ?_ (by simp)
  exact (hbase.counted hcf).isComplete_iff.1 hinstalled.complete id (hbase.totalBlocks hcf ▸ hid)

theorem describesTarget_tiny : (tinyControl none).DescribesTarget tinyHashes [1, 0] :=
  ⟨rfl, by decide +kernel⟩

/-- A download that cannot open the temporary file: nothing else fails, the server sends the
target, and the block is known with nothing in the file. -/
theorem unopened_block_known :
    let r := downloadMissingBlocks (tinyEnv [1, 0] (some .openTemp)) (tinyStart none none)
    (tinyControl none).DescribesTarget tinyHashes [1, 0] ∧
      r.1 = .error (.io .other) ∧
      r.2.trace = [.disk .openTemp (some .other), .took 0 [1, 0]] ∧
      NoFalseAgreement tinyHashes (tinyControl none) [1, 0] r.2.trace ∧
      r.2.matcher.isBlockKnown 0 ∧
      slice r.2.temp 0 2 = [0, 0] ∧ targetBlock [1, 0] 2 0 = [1, 0] := by
  have htrace : (downloadMissingBlocks (tinyEnv [1, 0] (some .openTemp))
      (tinyStart none none)).2.trace = [.disk .openTemp (some .other), .took 0 [1, 0]] := by
    decide +kernel
  refine ⟨describesTarget_tiny, by decide +kernel, htrace, ?_, by decide +kernel,
    by decide +kernel, by decide⟩
  intro id w hmem _
  rw [htrace] at hmem
  simp only [List.mem_cons, reduceCtorEq, Event.took.injEq, List.not_mem_nil, or_false,
    false_or] at hmem
  obtain ⟨rfl, rfl⟩ := hmem
  rfl

/-- A download without failures. -/
theorem assembly_safe_tiny :
    ∃ file, (finish (tinyEnv [1, 0] none) (runCalls (tinyEnv [1, 0] none) [.downloadMissingBlocks]
      (tinyStart none none))).2.fs "o" = some file ∧ file.data = [1, 0] := by
  have htrace : (runCalls (tinyEnv [1, 0] none) [.downloadMissingBlocks]
      (tinyStart none none)).trace = [.progress 2 2, .wrote 0 [1, 0], .disk .writeTemp none,
        .disk .seekToWrite none, .disk .openTemp none, .took 0 [1, 0]] := by decide +kernel
  have hhealthy : Healthy (runCalls (tinyEnv [1, 0] none) [.downloadMissingBlocks]
      (tinyStart none none)).trace := by
    rw [htrace]
    exact healthy_of_all (by decide)
  have hagree : NoFalseAgreement (tinyEnv [1, 0] none).hashes (tinyControl none) [1, 0]
      (runCalls (tinyEnv [1, 0] none) [.downloadMissingBlocks] (tinyStart none none)).trace := by
    rw [htrace]
    intro id w hmem _
    simp only [List.mem_cons, reduceCtorEq, Event.took.injEq, List.not_mem_nil, or_false,
      false_or] at hmem
    obtain ⟨rfl, rfl⟩ := hmem
    rfl
  have hfresh : tinyFs none ("o" ++ ".zsync-tmp") = none := by decide
  have hok : (finish (tinyEnv [1, 0] none) (runCalls (tinyEnv [1, 0] none)
      [.downloadMissingBlocks] (tinyStart none none))).1 = .ok () := by decide +kernel
  have hsafe := assembly_safe (tinyEnv [1, 0] none) (checked_tinyControl none) describesTarget_tiny
    none ⟨none, 0⟩ hfresh [.downloadMissingBlocks] hhealthy hagree
  unfold tinyStart
  exact hsafe.2 hok

end Zsync
