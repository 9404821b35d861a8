import Zsync.Assembly.Honest
import Zsync.Assembly.Safety
import Zsync.Control.Maker

/-!
# Delivery from an honest server

From the bytes that `write` emits for a generated control file to the target at the output path.

* `Delivering` : every block was written in all its bytes, which agreed with its digest;
* `padTo_temp_eq_target` : then the temporary file, cut to the target's length, is the target;
* `complete_honest` : `complete` succeeds when nothing fails and the digest is right;
* `delivers_target` : generate, write, parse, scan, download and complete.
-/

namespace Zsync

variable {env : Env} {cf : ControlFile} {T : Bytes} {s s' : State}

/-! ### What is written -/

/-- Nothing failed, every write covered its block's part of the target, and the bytes that blocks
were taken for agree with their digests. -/
structure Delivering (env : Env) (cf : ControlFile) (T : Bytes) (p : List (ℕ × Bytes)) (s : State) :
    Prop where
  accounted : Accounted cf p s
  healthy : Healthy s.trace
  pending : ∀ q ∈ p, Covers cf q
  covers : ∀ id data, .wrote (id * cf.blocksize) data ∈ s.trace → Covers cf (id, data)
  agrees : ∀ id w, .took id w ∈ s.trace →
    (env.hashes.md4 w).toList.take cf.hashLengths.checksumBytes =
    (env.hashes.md4 (targetBlock T cf.blocksize id)).toList.take cf.hashLengths.checksumBytes

theorem keeps_delivering (hcf : cf.Checked) (hT : cf.DescribesTarget env.hashes T)
    (hdisk : ∀ n op, (env.disk n op).error = none) :
    Keeps env cf (Covers cf) (Delivering env cf T) where
  quiet := by
    rintro p s s' hq ⟨hacc, hhealthy, hpending, hcovers, hagrees⟩
    obtain ⟨es, htrace, hes⟩ := hq.trace
    refine ⟨hacc.quiet hq, htrace ▸ (healthy_append hes).2 hhealthy, hpending, fun id data hw => ?_,
      fun id w hw => ?_⟩
    · rw [htrace, wrote_mem_append fun e he => ne_wrote_of_neutral (hes e he)] at hw
      exact hcovers id data hw
    · rw [htrace] at hw
      rcases List.mem_append.1 hw with hw | hw
      · exact absurd (hes _ hw) (by simp [Event.neutral])
      · exact hagrees id w hw
  claimed := by
    rintro s s' p hs hc hp ⟨hacc, hhealthy, -, hcovers, hagrees⟩
    have htook : ∀ e ∈ s'.trace, e ∈ s.trace ∨
        ∃ q ∈ p, e = .took q.1 (padTo cf.blocksize q.2) := by
      intro e he
      rw [hc.trace, List.mem_append, List.mem_reverse, List.mem_map, hs.control] at he
      rcases he with ⟨q, hq, heq⟩ | he
      · exact Or.inr ⟨q, hq, heq.symm⟩
      · exact Or.inl he
    refine ⟨hacc.claimed hs hc, fun op kind hmem => ?_, hp, fun id data hw => ?_, fun id w hw => ?_⟩
    · obtain hmem | ⟨q, -, heq⟩ := htook _ hmem
      · exact hhealthy op kind hmem
      · exact Event.noConfusion heq
    · obtain hmem | ⟨q, -, heq⟩ := htook _ hw
      · exact hcovers id data hmem
      · exact Event.noConfusion heq
    · obtain hmem | ⟨q, hq, heq⟩ := htook _ hw
      · exact hagrees id w hmem
      · obtain ⟨rfl, rfl⟩ := Event.took.inj heq
        have hsame := hc.agrees q hq
        rw [hs.control] at hsame
        exact (BlockMatcher.sameChecksum_target hcf hT (hs.shape hcf) (hc.unknown q hq).1 _).1 hsame
  wrote := by
    rintro id data p s hs hsome ⟨hacc, hhealthy, hpending, hcovers, hagrees⟩
    have hbs := hcf.blocksize_pos
    obtain ⟨hhead, hrest⟩ := List.forall_mem_cons.1 hpending
    refine ⟨hacc.wrote hcf hsome, (healthy_cons (by simp)).2 hhealthy, hrest, fun j d hw => ?_,
      fun j w hw => ?_⟩
    · rcases List.mem_cons.1 hw with heq | hw
      · simp only [Event.wrote.injEq, Nat.mul_left_inj hbs.ne'] at heq
        obtain ⟨rfl, rfl⟩ := heq
        exact hhead
      · exact hcovers j d hw
    · rcases List.mem_cons.1 hw with heq | hw
      · exact Event.noConfusion heq
      · exact hagrees j w hw
  failed := by
    rintro id data p s s' - hf -
    obtain ⟨n, op, herror⟩ := hf.error
    exact absurd (hdisk n op) herror

theorem delivering_start (outputPath : String) (baseUrl : Option String) (http : HttpClient)
    (fs : String → Option File) : Delivering env cf T []
      (State.start (ZsyncAssembly.withClient cf outputPath baseUrl http) fs) :=
  ⟨accounted_start cf outputPath baseUrl http fs, fun _ _ h => absurd h List.not_mem_nil, by simp,
    fun _ _ h => absurd h List.not_mem_nil, fun _ _ h => absurd h List.not_mem_nil⟩

/-- **Every byte of the target** was written with its block. -/
theorem padTo_temp_eq_target (hcf : cf.Checked) (hT : cf.DescribesTarget env.hashes T)
    (h : Delivering env cf T [] s) (hbase : Base env cf s) (hcomplete : s.matcher.isComplete)
    (hagree : NoFalseAgreement env.hashes cf T s.trace) : padTo cf.length s.temp = T := by
  rw [hT.length]
  refine padTo_eq_of_byteAt fun i hi => ?_
  obtain ⟨id, r, rfl, hr, hid⟩ := hcf.exists_block (hT.length.symm ▸ hi)
  have hknown := (hbase.counted hcf).isComplete_iff.1 hcomplete id (hbase.totalBlocks hcf ▸ hid)
  obtain ⟨data, hwrote⟩ := h.accounted.known h.healthy id hknown (by simp)
  obtain ⟨htook, -, -, hdata⟩ := h.accounted.intact id data hwrote
  have hcovers : min cf.blocksize (cf.length - id * cf.blocksize) ≤ data.length :=
    h.covers id data hwrote
  have hblock := hagree id _ htook (h.agrees id _ htook)
  have hlt : r < data.length := by
    rw [hT.length] at hcovers
    omega
  calc byteAt s.temp (id * cf.blocksize + r)
      = byteAt data r := (slice_eq_iff rfl).1 hdata r hlt
    _ = byteAt (padTo cf.blocksize data) r := by rw [byteAt_padTo, if_pos hr]
    _ = byteAt (slice T (id * cf.blocksize) cf.blocksize) r := by rw [hblock]; rfl
    _ = byteAt T (id * cf.blocksize + r) := by rw [byteAt_slice, if_pos hr]

/-! ### The end -/

/-- The temporary file is there, with this content. -/
def HasTemp (data : Bytes) (s : State) : Prop := s.temp = data ∧ (s.fs s.tempPath).isSome

theorem HasTemp.quiet {data : Bytes} (s s' : State) (hq : Quiet s s') (h : HasTemp data s) :
    HasTemp data s' := ⟨hq.temp.trans h.1, hq.present h.2⟩

section Complete

variable (hh : Honest env T)
include hh

theorem triple_io_honest {P : State → Prop} (hP : ∀ s s', Quiet s s' → P s → P s') (op : DiskOp)
    (hop : op.stores = false) : Prog.Triple P (io env op) (fun _ => P) (fun _ _ => False) :=
  (triple_io hP hop).of_succeeds (succeeds_io hh op)

theorem triple_keepPermissions_honest (data : Bytes) :
    Prog.Triple (HasTemp data) (keepPermissions env) (fun _ => HasTemp data)
      (fun _ _ => False) := by
  refine Prog.Triple.bind (Q := fun _ => HasTemp data) (fun s hs =>
    HasTemp.quiet s _ (quiet_attempt (Or.inr rfl)) hs) fun r => ?_
  refine Prog.Triple.read fun s₁ hs₁ => ?_
  split
  · refine Prog.Triple.bind ((triple_io_honest hh HasTemp.quiet .chmodTemp rfl).conseq
      (fun s hs => hs ▸ hs₁) (fun _ _ h => h) fun _ _ h => h)
      fun _ => Prog.Triple.modify fun s hs => ?_
    obtain ⟨file, hfile⟩ := Option.isSome_iff_exists.1 hs.2
    refine ⟨?_, isSome_mapTemp hs.2 _⟩
    rw [temp_mapTemp hfile, ← hs.1, temp_eq hfile]
  · exact Prog.Triple.pure fun s hs => hs ▸ hs₁

/-- **Completing** succeeds when every block is known, the digest is right and nothing fails. -/
theorem complete_honest (hbase : Base env cf s) (hcomplete : s.matcher.isComplete)
    (hverified : Verified env s) : (complete env s).1 = .ok () := by
  have hrun : Prog.Triple (· = s) (complete env) (fun _ _ => True) (fun _ _ => False) := by
    refine Prog.Triple.bind (Q := fun _ => HasTemp (padTo s.control.length s.temp)) ?_ fun _ => ?_
    · refine Prog.Triple.read fun s₁ hs₁ => ?_
      rw [hs₁]
      refine Prog.Triple.ite (fun h => absurd hcomplete h) fun _ => ?_
      have hopen :
          Prog.Triple (· = s) (ensureFile env) (fun _ => HasTemp s.temp) fun _ _ => False :=
        ((triple_ensureFile (P := fun t => Base env cf t ∧ t.temp = s.temp)
          (fun t t' hq h => ⟨hq.base h.1, hq.temp.trans h.2⟩) (fun t h => h.1.file) 0
          []).of_succeeds (succeeds_ensureFile hh)).conseq (by rintro t rfl; exact ⟨hbase, rfl⟩)
          (fun _ t ht => ⟨ht.1.2, ht.2⟩) fun _ _ h => h
      refine Prog.Triple.bind hopen fun _ => ?_
      refine Prog.Triple.bind (triple_io_honest hh HasTemp.quiet .setLenTemp rfl) fun _ => ?_
      refine Prog.Triple.bind (Q := fun _ => HasTemp (padTo s.control.length s.temp))
        (Prog.Triple.modify fun t ht => ?_) fun _ => ?_
      · obtain ⟨file, hfile⟩ := Option.isSome_iff_exists.1 ht.2
        refine ⟨?_, isSome_mapTemp ht.2 _⟩
        rw [temp_mapTemp hfile, ← ht.1, temp_eq hfile]
      refine Prog.Triple.bind (Q := fun _ => HasTemp (padTo s.control.length s.temp)) ?_ fun _ => ?_
      · cases hsha : s.control.sha1 with
        | none => exact Prog.Triple.pure fun _ h => h
        | some expected =>
          refine Prog.Triple.bind (triple_io_honest hh HasTemp.quiet .seekToRead rfl) fun _ => ?_
          refine Prog.Triple.bind (triple_io_honest hh HasTemp.quiet .readTemp rfl) fun _ => ?_
          refine Prog.Triple.read fun t ht => Prog.Triple.ite (fun _ => Prog.Triple.pure ?_)
            fun hne => ?_
          · rintro _ rfl
            exact ht
          · rw [ht.1] at hne
            exact absurd (hverified expected hsha) hne
      refine Prog.Triple.bind (triple_io_honest hh HasTemp.quiet .syncTemp rfl) fun _ => ?_
      exact Prog.Triple.bind (Prog.Triple.modify fun t ht => ht) fun _ =>
        triple_keepPermissions_honest hh _
    · refine Prog.Triple.bind (triple_io_honest hh HasTemp.quiet .renameTemp rfl) fun _ => ?_
      refine Prog.Triple.read fun t ht => ?_
      obtain ⟨file, hfile⟩ := Option.isSome_iff_exists.1 ht.2
      rw [hfile]
      exact Prog.Triple.modify fun _ _ => trivial
  have hpost := hrun s rfl
  revert hpost
  match complete env s with
  | (.ok _, _) => exact fun _ => rfl
  | (.error _, _) => exact False.elim

end Complete

/-! ### From the target to its copy -/

/-- A call before the download: a scan, or a change of the threshold. -/
def Call.isScan : Call → Bool
  | .downloadMissingBlocks => false
  | _ => true

/-- Scans keep an invariant that need only be kept by claims that cover their blocks. -/
theorem Keeps.runScans {I : List (ℕ × Bytes) → State → Prop} (hI : Keeps env cf (Covers cf) I)
    (hcf : cf.Checked) {calls : List Call} (hcalls : ∀ call ∈ calls, call.isScan)
    (h : Idle env cf I s) : Idle env cf I (Zsync.runCalls env calls s) := by
  have hC : ∀ q : ℕ × Bytes, q.2.length = cf.blocksize → Covers cf q := fun q hq =>
    (min_le_left _ _).trans hq.ge
  induction calls generalizing s with
  | nil => exact h
  | cons call calls ih =>
    obtain ⟨hcall, hrest⟩ := List.forall_mem_cons.1 hcalls
    refine ih hrest (Prog.Triple.state (P := Idle env cf I) ?_ h)
    cases call with
    | submitSourceFile seed => exact hI.submitSourceFile hcf hC seed
    | submitSelfReferential => exact hI.submitSelfReferential hcf hC
    | downloadMissingBlocks => exact absurd hcall Bool.false_ne_true
    | setRangeGapThreshold threshold =>
      refine Prog.Triple.bind (Prog.Triple.modify (Q := fun _ => Idle env cf I) fun s hs => ?_)
        fun _ => Prog.Triple.pure fun _ h => h
      exact hI.idle_quiet s _ (Quiet.of_eq rfl rfl rfl rfl rfl rfl ⟨[], rfl, by simp⟩) hs

/-- **Delivery.**  The client parses what `write` emits for the control file that `generate` made of
`T`, scans any seeds and perhaps the temporary file, and downloads once from an honest server.  The
download returns how many blocks were missing, every block is known then, and `complete` succeeds
with `T` at the output path. -/
theorem delivers_target (env : Env) {F : ControlFile.FloatFormulas} {filename url : String}
    {blocksize : Option ℕ} {made : ControlFile}
    (hg : ControlFile.generate env.hashes F T filename url blocksize = .ok made)
    (hfilename : ControlFile.Plain filename.toList) (hurl : ControlFile.Plain url.toList)
    (hblocks : ControlFile.numBlocks T.length (ControlFile.chosenBlocksize blocksize T.length) ≤
      maxBlocks)
    (hcap : (ControlFile.writeHeader made).length ≤ maxHeaderBytes) (hh : Honest env T)
    (outputPath : String) (baseUrl : Option String) (http : HttpClient) (fs : String → Option File)
    {calls : List Call} (hcalls : ∀ call ∈ calls, call.isScan)
    (hagree : NoFalseAgreement env.hashes made.stored T
      (downloadMissingBlocks env (runCalls env calls (State.start
        (ZsyncAssembly.withClient made.stored outputPath baseUrl http) fs))).2.trace) :
    ControlFile.parse (ControlFile.write made) = .ok made.stored ∧
      let s := runCalls env calls
        (State.start (ZsyncAssembly.withClient made.stored outputPath baseUrl http) fs)
      let r := downloadMissingBlocks env s
      r.1 = .ok (s.matcher.knownBlocks.count false) ∧ r.2.matcher.isComplete ∧
        (finish env r.2).1 = .ok () ∧
        ∃ file, (finish env r.2).2.fs outputPath = some file ∧ file.data = T := by
  have hparse := ControlFile.parse_write_of_generate hg hfilename hurl hblocks hcap
  have hcf := ControlFile.checked_of_parse hparse
  have hT := ControlFile.describesTarget_of_generate hg
  refine ⟨hparse, ?_⟩
  intro s r
  have hI : Keeps env made.stored (Covers made.stored) (Delivering env made.stored T) :=
    keeps_delivering hcf hT hh.disk
  have hidle := hI.runScans hcf hcalls
    ⟨delivering_start outputPath baseUrl http fs, base_start made.stored outputPath baseUrl http fs⟩
  have hurls : made.stored.urls ≠ [] := by
    obtain ⟨-, -, -, rfl⟩ := ControlFile.generate_eq_ok.1 hg
    simp [ControlFile.stored]
  obtain ⟨s', hrun, ⟨hdelivering, hbase⟩, hcomplete⟩ := download_honest hI hcf hT hh hidle hurls
  have hr : r = (.ok (s.matcher.knownBlocks.count false), s') := hrun
  have hs' : (downloadMissingBlocks env s).2 = s' := congrArg Prod.snd hrun
  -- the temporary file is the target, so its digest is the one in the control file
  have htemp : padTo made.stored.length s'.temp = T :=
    padTo_temp_eq_target hcf hT hdelivering hbase hcomplete (hs' ▸ hagree)
  have hsha : made.stored.sha1 = some (ControlFile.hexEncode (env.hashes.sha1 T).toList) := by
    obtain ⟨-, -, -, rfl⟩ := ControlFile.generate_eq_ok.1 hg
    rfl
  have hverified : Verified env s' := by
    intro digest hdigest
    rw [hbase.control, hsha, Option.mem_some_iff] at hdigest
    rw [hbase.control, htemp, ← hdigest]
    simp [eqIgnoreAsciiCase]
  have hfinish : (finish env s').1 = .ok () := complete_honest hh hbase hcomplete hverified
  -- the path is the one the assembly was made with
  have hothers : Keeps env made.stored _ _ := keeps_others env fs outputPath
  have hpath := hothers.runCalls hcf (fun _ => trivial) calls
    ⟨⟨rfl, rfl, fun _ _ => rfl⟩, base_start made.stored outputPath baseUrl http fs⟩
  obtain ⟨hout, -⟩ := (hothers.downloadMissingBlocks hcf fun _ => trivial).state hpath
  obtain ⟨file, hfile, hdata⟩ := (finish_ok hbase hfinish).output
  rw [hr]
  refine ⟨rfl, hcomplete, hfinish, file, ?_, ?_⟩
  · rw [← hout.outputPath]
    exact hs' ▸ hfile
  · rw [hdata, hbase.control, htemp]

/-! ### Two targets -/

/-- The control file that `generate` makes of `[1, 0]`. -/
def tinyMade : ControlFile where
  version := "0.6.2"
  filename := some "f"
  mtime := none
  blocksize := 2
  length := 2
  hashLengths := ControlFile.calculateHashLengths ControlFile.zeroFormulas 2 2
  urls := ["u"]
  sha1 := some (ControlFile.hexEncode (tinyHashes.sha1 [1, 0]).toList)
  blockChecksums := [⟨calcRsumBlock [1, 0], tinyHashes.md4 [1, 0]⟩]

/-- The bytes 5 to 13, which are four blocks of two bytes and a short one. -/
abbrev countTarget : Bytes := [5, 6, 7, 8, 9, 10, 11, 12, 13]

/-- A server of these bytes, and a disk where nothing fails. -/
def countEnv : Env where
  hashes := ControlFile.countHashes
  disk _ _ := ⟨none, 0⟩
  agent := ⟨fun _ url start stop => .ok ⟨206, url, ⟨fun _ consumed len =>
    .ok (window (window countTarget start (stop - start + 1)) consumed len)⟩⟩⟩
  abort _ := false
  cores := 1

theorem honest_countEnv : Honest countEnv countTarget where
  disk _ _ := rfl
  abort _ := rfl
  server _ url start stop _ _ := ⟨⟨206, url, ⟨fun _ consumed len =>
    .ok (window (window countTarget start (stop - start + 1)) consumed len)⟩⟩, rfl, Or.inl rfl,
    fun _ _ len _ hlen => ⟨len, hlen, rfl⟩⟩

/-- The control file that `generate` makes of these bytes. -/
def countMade : ControlFile where
  version := "0.6.2"
  filename := some "f"
  mtime := none
  blocksize := 2
  length := 9
  hashLengths := ⟨2, 2, 4⟩
  urls := ["u"]
  sha1 := some (ControlFile.hexEncode (ControlFile.countHashes.sha1 countTarget).toList)
  blockChecksums := (List.range 5).map fun i => ⟨calcRsumBlock (targetBlock countTarget 2 i),
    ControlFile.countHashes.md4 (targetBlock countTarget 2 i)⟩

/-- A seed that has blocks 2 and 3. -/
def countSeed : Seed where
  size := .ok 6
  read _ offset len := .ok (window [7, 9, 10, 11, 12, 0] offset len)
  limit := 6

/-- The assembly of what the client parses of it, after a scan of this seed and of an old temporary
file. -/
abbrev countScanned : State :=
  runCalls countEnv [.submitSourceFile countSeed, .submitSelfReferential] (State.start
    (ZsyncAssembly.withClient countMade.stored "o" none ⟨none, 0⟩) (tinyFs (some ⟨[9, 9], 0⟩)))

/-- Two scans that find the two blocks in the middle, then the download of what is left, in one
request that holds these blocks as well. -/
theorem delivers_target_count :
    countScanned.matcher.knownBlocks = [false, false, true, true, false] ∧
      ∃ file, (finish countEnv (downloadMissingBlocks countEnv countScanned).2).2.fs "o" =
        some file ∧ file.data = countTarget := by
  have hg : ControlFile.generate countEnv.hashes ControlFile.countFormulas countTarget
      "f" "u" (some 2) = .ok countMade :=
    ControlFile.generate_eq_ok.2 ⟨by decide, by decide, by decide, rfl⟩
  have hplain : ControlFile.Plain "f".toList ∧ ControlFile.Plain "u".toList := by decide +kernel
  have hcap : (ControlFile.writeHeader countMade).length ≤ maxHeaderBytes := by decide +kernel
  have hall : (downloadMissingBlocks countEnv countScanned).2.trace.all (fun
      | .took id w => w == targetBlock countTarget 2 id
      | _ => true) = true := by decide +kernel
  have hagree : NoFalseAgreement countEnv.hashes countMade.stored countTarget
      (downloadMissingBlocks countEnv countScanned).2.trace := fun id w hmem _ => by
    have htook : w = targetBlock countTarget 2 id := by simpa using List.all_eq_true.1 hall _ hmem
    exact htook
  have hcalls : ∀ call ∈ [Call.submitSourceFile countSeed, Call.submitSelfReferential],
      call.isScan := by
    simp [Call.isScan]
  have hknown : countScanned.matcher.knownBlocks = [false, false, true, true, false] := by
    decide +kernel
  unfold countScanned at *
  exact ⟨hknown, (delivers_target countEnv hg hplain.1 hplain.2 (by decide) hcap honest_countEnv
    "o" none ⟨none, 0⟩ (tinyFs (some ⟨[9, 9], 0⟩)) hcalls hagree).2.2.2.2⟩

end Zsync
