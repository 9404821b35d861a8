import Zsync.Assembly.Rules

/-!
# The output path

What `complete` and dropping an assembly do to the files.

* `Untouched` : no file but the temporary one has changed;
* `triple_complete` : `complete` either leaves everything but the temporary file alone, or moves the
  verified file to the output path;
* `output_all_or_nothing` : over every run, the output path changes by the rename of a complete and
  verified file only.
-/

namespace Zsync

variable {env : Env} {cf : ControlFile} {s s' s₀ : State}

/-! ### The paths -/

/-- The paths and the control file are those of `s₀`, and no file but the temporary one differs. -/
structure Untouched (s₀ s : State) : Prop where
  control : s.control = s₀.control
  outputPath : s.outputPath = s₀.outputPath
  tempPath : s.tempPath = s₀.tempPath
  others : ∀ path ≠ s₀.tempPath, s.fs path = s₀.fs path

theorem Untouched.refl (s : State) : Untouched s s := ⟨rfl, rfl, rfl, fun _ _ => rfl⟩

theorem Untouched.mapTemp (h : Untouched s₀ s) (f : File → File) : Untouched s₀ (s.mapTemp f) :=
  ⟨h.control, h.outputPath, h.tempPath, fun path hp =>
    (others_mapTemp f (h.tempPath ▸ hp)).trans (h.others path hp)⟩

theorem Untouched.quiet (h : Untouched s₀ s) (hq : Quiet s s') : Untouched s₀ s' :=
  ⟨hq.control.trans h.control, hq.outputPath.trans h.outputPath, hq.tempPath.trans h.tempPath,
    fun path hp => (hq.others path (h.tempPath ▸ hp)).trans (h.others path hp)⟩

theorem outputPath_ne_tempPath (hs : Base env cf s) : s.outputPath ≠ s.tempPath := by
  intro heq
  have hlen := congrArg String.length (heq.trans hs.tempPath)
  rw [String.length_append] at hlen
  have : ".zsync-tmp".length = 10 := rfl
  omega

/-! ### Completing -/

/-- An operation whose failure changes no file. -/
theorem triple_io_untouched {P : State → Prop}
    (hP : ∀ s clock trace, P s → P { s with clock := clock, trace := trace }) (op : DiskOp) :
    Prog.Triple P (io env op) (fun _ => P) (fun _ => P) := by
  intro s hs
  rw [io_run]
  have hnext : P (attempt env op s).2 := hP s _ _ hs
  cases (env.disk s.clock op).error <;> exact hnext

/-- The temporary file is the file of `s₀`, cut or filled up to the length of the target. -/
def Prepared (s₀ s : State) : Prop :=
  Untouched s₀ s ∧ ∃ file, s.fs s.tempPath = some file ∧
    file.data = padTo s₀.control.length s₀.temp

theorem Prepared.ignores (h : Prepared s₀ s) (clock : ℕ) (trace : List Event) :
    Prepared s₀ { s with clock := clock, trace := trace } :=
  ⟨⟨h.1.control, h.1.outputPath, h.1.tempPath, h.1.others⟩, h.2⟩

/-- The digest of the prepared file is the one in the control file, if there is one. -/
def Verified (env : Env) (s₀ : State) : Prop :=
  ∀ digest ∈ s₀.control.sha1, eqIgnoreAsciiCase (ControlFile.hexEncode
    (env.hashes.sha1 (padTo s₀.control.length s₀.temp)).toList) digest

theorem triple_checkSha1 :
    Prog.Triple (Prepared s₀) (checkSha1 env s₀.control.sha1)
      (fun _ s => Prepared s₀ s ∧ Verified env s₀) (fun _ => Prepared s₀) := by
  cases hsha : s₀.control.sha1 with
  | none => exact Prog.Triple.pure fun s hs => ⟨hs, by simp [Verified, hsha]⟩
  | some expected =>
    refine Prog.Triple.bind (triple_io_untouched (fun _ c t h => h.ignores c t) _) fun _ => ?_
    refine Prog.Triple.bind (triple_io_untouched (fun _ c t h => h.ignores c t) _) fun _ => ?_
    refine Prog.Triple.read fun s hs => Prog.Triple.ite (fun heq => Prog.Triple.pure ?_)
      fun _ => Prog.Triple.throw ?_
    · rintro _ rfl
      refine ⟨hs, fun digest hdigest => ?_⟩
      obtain ⟨file, hfile, hdata⟩ := hs.2
      obtain rfl : expected = digest := Option.some.inj (hsha ▸ hdigest)
      rwa [temp_eq hfile, hdata] at heq
    · rintro _ rfl
      exact hs

variable (env) in
theorem triple_keepPermissions : Prog.Triple (Prepared s₀) (keepPermissions env)
    (fun _ => Prepared s₀) (fun _ => Prepared s₀) := by
  refine Prog.Triple.bind (Q := fun _ => Prepared s₀) (fun s hs => hs.ignores _ _) fun r => ?_
  refine Prog.Triple.read fun s hs => ?_
  split
  · rename_i existing _ _
    refine Prog.Triple.bind ((triple_io_untouched (fun _ c t h => h.ignores c t) _).conseq ?_
      (fun _ _ h => h) fun _ _ h => h) fun _ => Prog.Triple.modify fun s hs => ?_
    · rintro _ rfl
      exact hs
    · obtain ⟨file, hfile, hdata⟩ := hs.2
      exact ⟨hs.1.mapTemp _, { file with permissions := existing.permissions },
        by simp [State.mapTemp, hfile], hdata⟩
  · exact Prog.Triple.pure fun _ h => h ▸ hs

/-- **Before the rename**: everything but the temporary file is as it was. -/
theorem triple_prepare (hs₀ : Base env cf s₀) : Prog.Triple (· = s₀) (prepare env)
    (fun _ s => Prepared s₀ s ∧ s₀.matcher.isComplete ∧ Verified env s₀)
    (fun _ => Untouched s₀) := by
  refine Prog.Triple.read fun s hs => ?_
  rw [hs]
  refine Prog.Triple.ite (fun _ => Prog.Triple.throw ?_) fun hcomplete => ?_
  · rintro _ rfl
    exact Untouched.refl _
  have hopen : ∀ s : State, (Untouched s₀ s ∧ s.temp = s₀.temp ∧ Base env cf s) → s.file = true →
      (s.fs s.tempPath).isSome := fun s h => h.2.2.file
  refine Prog.Triple.bind ((triple_ensureFile (fun s s' hq h => ⟨h.1.quiet hq,
    hq.temp.trans h.2.1, hq.base h.2.2⟩) hopen 0 []).conseq ?_ (fun _ _ h => h) ?_) fun _ => ?_
  · rintro _ rfl
    exact ⟨Untouched.refl _, rfl, hs₀⟩
  · rintro _ s' ⟨s, hs, hf⟩
    exact ⟨hf.control.trans hs.1.control, hf.outputPath.trans hs.1.outputPath,
      hf.tempPath.trans hs.1.tempPath, fun path hp =>
        (hf.others path (hs.1.tempPath ▸ hp)).trans (hs.1.others path hp)⟩
  refine Prog.Triple.bind ((triple_io_untouched (P := fun s => (Untouched s₀ s ∧ s.temp = s₀.temp) ∧
    (s.fs s.tempPath).isSome) (fun s _ _ h => ⟨⟨⟨h.1.1.control, h.1.1.outputPath, h.1.1.tempPath,
      h.1.1.others⟩, h.1.2⟩, h.2⟩) .setLenTemp).conseq (fun s h => ⟨⟨h.1.1, h.1.2.1⟩, h.2⟩)
    (fun _ _ h => h) fun _ _ h => h.1.1) fun _ => ?_
  refine Prog.Triple.bind (Q := fun _ => Prepared s₀) (Prog.Triple.modify fun s hs => ?_)
    fun _ => ?_
  · obtain ⟨file, hfile⟩ := Option.isSome_iff_exists.1 hs.2
    refine ⟨hs.1.1.mapTemp _, { file with data := padTo s₀.control.length file.data },
      by simp [State.mapTemp, hfile], ?_⟩
    rw [← hs.1.2, temp_eq hfile]
  refine Prog.Triple.bind (triple_checkSha1.conseq (fun _ h => h) (fun _ _ h => h)
    fun _ _ h => h.1) fun _ => ?_
  refine Prog.Triple.bind ((triple_io_untouched (P := fun s => Prepared s₀ s ∧ Verified env s₀)
    (fun _ c t h => ⟨h.1.ignores c t, h.2⟩) .syncTemp).conseq (fun _ h => h)
    (fun _ _ h => h) fun _ _ h => h.1.1) fun _ => ?_
  refine Prog.Triple.bind (Q := fun _ s => Prepared s₀ s ∧ Verified env s₀)
    (Prog.Triple.modify fun s hs => ?_) fun _ => ?_
  · exact ⟨⟨⟨hs.1.1.control, hs.1.1.outputPath, hs.1.1.tempPath, hs.1.1.others⟩, hs.1.2⟩, hs.2⟩
  · intro s hs
    have hkeep := triple_keepPermissions env s hs.1
    revert hkeep
    rcases keepPermissions env s with ⟨_ | _, s'⟩
    · exact fun h => h.1
    · exact fun h => ⟨h, by simpa using hcomplete, hs.2⟩

variable (env) in
/-- **Completing** either leaves every file but the temporary one alone, or moves the verified file
to the output path. -/
theorem triple_complete (hs₀ : Base env cf s₀) : Prog.Triple (· = s₀) (complete env)
    (fun _ s => s₀.matcher.isComplete ∧ Verified env s₀ ∧ s.tempPath = s₀.tempPath ∧
      s.outputPath = s₀.outputPath ∧ s.fs s₀.tempPath = none ∧
      (s.fs s₀.outputPath).map File.data = some (padTo s₀.control.length s₀.temp) ∧
      ∀ path, path ≠ s₀.tempPath → path ≠ s₀.outputPath → s.fs path = s₀.fs path)
    (fun _ => Untouched s₀) := by
  have hne := outputPath_ne_tempPath hs₀
  refine Prog.Triple.bind (triple_prepare hs₀) fun _ => ?_
  refine Prog.Triple.bind ((triple_io_untouched
    (P := fun s => Prepared s₀ s ∧ s₀.matcher.isComplete ∧ Verified env s₀)
    (fun _ c t h => ⟨h.1.ignores c t, h.2⟩) .renameTemp).conseq (fun _ h => h)
    (fun _ _ h => h) fun _ _ h => h.1.1) fun _ => ?_
  refine Prog.Triple.read fun s hs => ?_
  obtain ⟨⟨hunt, file, hfile, hdata⟩, hcomplete, hverified⟩ := hs
  rw [hfile]
  refine Prog.Triple.modify ?_
  rintro _ rfl
  refine ⟨hcomplete, hverified, hunt.tempPath, hunt.outputPath, ?_, ?_, fun path h1 h2 => ?_⟩
  · simp [hunt.tempPath]
  · simp [hunt.tempPath, hunt.outputPath, hne, hdata]
  · simp [hunt.tempPath, hunt.outputPath, h1, h2, hunt.others path h1]

/-! ### Runs -/

/-- The paths are those of the assembly, and no file but the temporary one differs from `fs`. -/
structure OthersAre (fs : String → Option File) (out : String) (s : State) : Prop where
  outputPath : s.outputPath = out
  tempPath : s.tempPath = out ++ ".zsync-tmp"
  others : ∀ path ≠ out ++ ".zsync-tmp", s.fs path = fs path

variable (env) in
theorem keeps_others (fs : String → Option File) (outputPath : String) :
    Keeps env cf (fun _ => True) fun _ => OthersAre fs outputPath where
  quiet := fun hq h => ⟨hq.outputPath.trans h.outputPath, hq.tempPath.trans h.tempPath,
    fun path hp => (hq.others path (h.tempPath ▸ hp)).trans (h.others path hp)⟩
  claimed := fun _ hc _ h => ⟨hc.outputPath.trans h.outputPath, hc.tempPath.trans h.tempPath,
    fun path hp => hc.fs ▸ h.others path hp⟩
  wrote := fun _ _ h => ⟨h.outputPath, h.tempPath,
    fun path hp => (others_mapTemp _ (h.tempPath ▸ hp)).trans (h.others path hp)⟩
  failed := fun _ hf h => ⟨hf.outputPath.trans h.outputPath, hf.tempPath.trans h.tempPath,
    fun path hp => (hf.others path (h.tempPath ▸ hp)).trans (h.others path hp)⟩

theorem fs_dropAssembly (s : State) {path : String} (hp : path ≠ s.tempPath) :
    (dropAssembly env s).fs path = s.fs path := by
  simp only [dropAssembly]
  split_ifs
  · simp [hp]
  · rfl

theorem fs_dropAssembly_temp (h : (env.disk s.clock .removeTemp).error = none) :
    (dropAssembly env s).fs s.tempPath = none := by
  simp [dropAssembly, h]

/-- What a transfer that succeeds leaves behind. -/
structure Installed (env : Env) (s₀ s : State) : Prop where
  complete : s₀.matcher.isComplete
  verified : Verified env s₀
  output : ∃ file, s.fs s₀.outputPath = some file ∧ file.data = padTo s₀.control.length s₀.temp
  temp : s.fs s₀.tempPath = none

theorem finish_ok (hs : Base env cf s) (hok : (finish env s).1 = .ok ()) :
    Installed env s (finish env s).2 := by
  have hpost := triple_complete env hs s rfl
  have hrun : complete env s = (.ok (), (complete env s).2) := Prod.ext hok rfl
  rw [hrun] at hpost
  obtain ⟨hcomplete, hverified, htemp, -, hnone, hfile, -⟩ := hpost
  have hne : s.outputPath ≠ (complete env s).2.tempPath := htemp ▸ outputPath_ne_tempPath hs
  obtain ⟨file, hsome, hdata⟩ := Option.map_eq_some_iff.1 hfile
  refine ⟨hcomplete, hverified, ⟨file, (fs_dropAssembly _ hne).trans hsome, hdata⟩, ?_⟩
  -- the rename has already taken the temporary file away
  by_cases hrem : (env.disk (complete env s).2.clock .removeTemp).error = none
  · exact htemp ▸ fs_dropAssembly_temp hrem
  · have hkeep : (finish env s).2.fs = (complete env s).2.fs := by
      simp [finish, dropAssembly, hrem]
    rw [hkeep]
    exact hnone

theorem finish_error (hs : Base env cf s) {e : AssemblyError} (herr : (finish env s).1 = .error e) :
    Untouched s (complete env s).2 := by
  have hpost := triple_complete env hs s rfl
  have hrun : complete env s = (.error e, (complete env s).2) := Prod.ext herr rfl
  rw [hrun] at hpost
  exact hpost

/-- **The output path is all or nothing.**  No call changes a file but the temporary one, nor does
`complete` before its rename.  When `complete` succeeds, the file at the output path has the length
and the digest of the control file and every block was known.  When it fails, or when the assembly
is dropped without it, the output path is as it was, and nothing is left at the temporary path
unless removing it fails. -/
theorem output_all_or_nothing (env : Env) (hcf : cf.Checked) {digest : String}
    (hsha : cf.sha1 = some digest) (outputPath : String) (baseUrl : Option String)
    (http : HttpClient) (fs : String → Option File) (calls : List Call) :
    let s := runCalls env calls
      (State.start (ZsyncAssembly.withClient cf outputPath baseUrl http) fs)
    let temp := outputPath ++ ".zsync-tmp"
    (∀ path ≠ temp, s.fs path = fs path ∧ (prepare env s).2.fs path = fs path) ∧
      ((finish env s).1 = .ok () →
        (∃ file, (finish env s).2.fs outputPath = some file ∧ file.data.length = cf.length ∧
          eqIgnoreAsciiCase (ControlFile.hexEncode (env.hashes.sha1 file.data).toList) digest) ∧
        (finish env s).2.fs temp = none ∧
        ∀ id < s.matcher.totalBlocks, s.matcher.isBlockKnown id) ∧
      (∀ e, (finish env s).1 = .error e →
        (∀ path ≠ temp, (finish env s).2.fs path = fs path) ∧
        ((env.disk (complete env s).2.clock .removeTemp).error = none →
          (finish env s).2.fs temp = none)) ∧
      (∀ path ≠ temp, (dropAssembly env s).fs path = fs path) ∧
      ((env.disk s.clock .removeTemp).error = none → (dropAssembly env s).fs temp = none) := by
  intro s temp
  obtain ⟨hothers, hbase⟩ := (keeps_others env fs outputPath).runCalls hcf (fun _ => trivial) calls
    ⟨⟨rfl, rfl, fun _ _ => rfl⟩, base_start cf outputPath baseUrl http fs⟩
  have htemp : s.tempPath = temp := hothers.tempPath
  have hunt : ∀ s', Untouched s s' → ∀ path ≠ temp, s'.fs path = fs path := fun s' h path hp =>
    (h.others path (htemp ▸ hp)).trans (hothers.others path hp)
  refine ⟨fun path hp => ⟨hothers.others path hp, ?_⟩, ?_, ?_, fun path hp => ?_, fun h => ?_⟩
  · exact hunt _ (((triple_prepare hbase).conseq (fun _ h => h) (fun _ _ h => h.1.1)
      fun _ _ h => h).state rfl) path hp
  · intro hok
    have hinstalled := finish_ok hbase hok
    obtain ⟨file, hsome, hdata⟩ := hinstalled.output
    have hcontrol : s.control = cf := hbase.control
    refine ⟨⟨file, hothers.outputPath ▸ hsome, ?_, ?_⟩, htemp ▸ hinstalled.temp,
      (hbase.counted hcf).isComplete_iff.1 hinstalled.complete⟩
    · rw [hdata, length_padTo, hcontrol]
    · rw [hdata]
      exact hinstalled.verified digest (by rw [hcontrol]; exact hsha)
  · intro e herr
    have hunt' : Untouched s (complete env s).2 := finish_error hbase herr
    refine ⟨fun path hp => ?_, fun hrem => ?_⟩
    · exact (fs_dropAssembly _ (hunt'.tempPath ▸ htemp ▸ hp)).trans (hunt _ hunt' path hp)
    · exact htemp ▸ hunt'.tempPath ▸ fs_dropAssembly_temp hrem
  · exact (fs_dropAssembly s (htemp ▸ hp)).trans (hothers.others path hp)
  · exact htemp ▸ fs_dropAssembly_temp h

/-- The digest of the target `[1, 0]` in upper case. -/
def tinySha1 : String := "0E356BA505631FBF715758BED27D503F8B260E3A"

/-- A transfer over a file left at the temporary path. -/
theorem output_of_download_tiny :
    ∃ file, (finish (tinyEnv [1, 0] none) (runCalls (tinyEnv [1, 0] none) [.downloadMissingBlocks]
        (tinyStart (some tinySha1) (some ⟨[9, 9, 9], 0⟩)))).2.fs "o" = some file ∧
      file.data.length = (tinyControl (some tinySha1)).length ∧ eqIgnoreAsciiCase
        (ControlFile.hexEncode ((tinyEnv [1, 0] none).hashes.sha1 file.data).toList) tinySha1 := by
  have hok : (finish (tinyEnv [1, 0] none) (runCalls (tinyEnv [1, 0] none) [.downloadMissingBlocks]
      (tinyStart (some tinySha1) (some ⟨[9, 9, 9], 0⟩)))).1 = .ok () := by decide +kernel
  have houtput := output_all_or_nothing (tinyEnv [1, 0] none) (checked_tinyControl (some tinySha1))
    rfl "o" none ⟨none, 0⟩ (tinyFs (some ⟨[9, 9, 9], 0⟩)) [.downloadMissingBlocks]
  unfold tinyStart
  exact (houtput.2.1 hok).1

end Zsync
