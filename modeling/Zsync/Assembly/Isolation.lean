import Zsync.Assembly.Simulation

/-!
# Assemblies side by side

Several assemblies on one file system, whose calls come in any order.

* `Beside` : a state and the same state with other files around the two of its assembly;
* `Act`, `World` : what can be done to an assembly, and the assemblies with their file system;
* `beside_run` : an act does not see the other files, and does not change them;
* `assemblies_isolated` : in every order of the acts, an assembly goes as it does alone.
-/

namespace Zsync

variable {env : Env} {s t : State} {own : Set String} {rest : String → Option File}

/-! ### The files of others -/

/-- `t` is `s` with the files of `rest` at all paths but those in `own`, which has the two paths of
the assembly. -/
structure Beside (own : Set String) (rest : String → Option File) (s t : State) : Prop where
  tempPath : s.tempPath ∈ own
  outputPath : s.outputPath ∈ own
  assembly : t.toZsyncAssembly = s.toZsyncAssembly
  clock : t.clock = s.clock
  trace : t.trace = s.trace
  same : ∀ path ∈ own, t.fs path = s.fs path
  others : ∀ path ∉ own, t.fs path = rest path

theorem Beside.update (h : Beside own rest s t) {path : String} (hpath : path ∈ own)
    (file : Option File) : Beside own rest { s with fs := Function.update s.fs path file }
      { t with fs := Function.update t.fs path file } := by
  refine ⟨h.tempPath, h.outputPath, h.assembly, h.clock, h.trace, fun p hp => ?_, fun p hp => ?_⟩
  · by_cases hpp : p = path
    · simp [hpp]
    · simp [hpp, h.same p hp]
  · have hne : p ≠ path := fun heq => hp (heq ▸ hpath)
    simp [hne, h.others p hp]

theorem respects_beside (env : Env) (own : Set String) (rest : String → Option File) :
    Respects env (Beside own rest) where
  assembly h := h.assembly
  temp h := by
    rw [h.assembly]
    exact h.same _ h.tempPath
  output h := by
    rw [h.assembly]
    exact h.same _ h.outputPath
  disk h op := by rw [h.clock]
  abort h := by rw [h.clock]
  tick h := ⟨h.tempPath, h.outputPath, h.assembly, congrArg (· + 1) h.clock, h.trace, h.same,
    h.others⟩
  record h es := ⟨h.tempPath, h.outputPath, h.assembly, h.clock, congrArg (es ++ ·) h.trace, h.same,
    h.others⟩
  change h a htemp hout := ⟨htemp ▸ h.tempPath, hout ▸ h.outputPath, rfl, h.clock, h.trace, h.same,
    h.others⟩
  write h file := by
    rw [congrArg ZsyncAssembly.tempPath h.assembly]
    exact h.update h.tempPath file
  install h file := by
    rw [congrArg ZsyncAssembly.outputPath h.assembly]
    exact h.update h.outputPath file

/-! ### Acts -/

/-- What is done to an assembly. -/
inductive Act where
  /-- `submit_source_file` on a file of the file system.  What opening and reading it answers goes
  by the file that is at the path when the call begins, and may be short or fail. -/
  | scan (path : String) (answers : Option File → Seed)
  | selfScan
  | download
  | setRangeGapThreshold (threshold : ℕ)
  /-- `complete`, which consumes the assembly. -/
  | complete
  | drop

/-- An act and its outcome. -/
def Act.run (env : Env) : Act → State → Except AssemblyError ℕ × State
  | .scan path answers, s => submitSourceFile env (answers (s.fs path)) s
  | .selfScan, s => submitSelfReferential env s
  | .download, s => downloadMissingBlocks env s
  | .setRangeGapThreshold threshold, s => (Call.setRangeGapThreshold threshold).exec env s
  | .complete, s => ((finish env s).1.map fun _ => 0, (finish env s).2)
  | .drop, s => (.ok 0, dropAssembly env s)

/-- The file that an act scans. -/
def Act.source : Act → Option String
  | .scan path _ => some path
  | _ => none

/-- **An act** has the same outcome whatever the files of others, when it scans none of them. -/
theorem beside_run (env : Env) (h : Beside own rest s t) (act : Act)
    (hsource : ∀ path ∈ act.source, t.fs path = s.fs path) :
    (act.run env t).1 = (act.run env s).1 ∧
      Beside own rest (act.run env s).2 (act.run env t).2 := by
  have hL := respects_beside env own rest
  have hcall : ∀ call, Respects.ReadsAlike (Beside own rest) call →
      (call.exec env t).1 = (call.exec env s).1 ∧
        Beside own rest (call.exec env s).2 (call.exec env t).2 := by
    intro call hcall
    have hsame := hL.call hcall s t h
    exact ⟨hsame.fst.symm, hsame.snd⟩
  cases act with
  | scan path answers =>
    have hfile := hsource path rfl
    simp only [Act.run, hfile]
    exact hcall (.submitSourceFile (answers (s.fs path))) fun s t h => by rw [h.clock]
  | selfScan => exact hcall .submitSelfReferential trivial
  | download => exact hcall .downloadMissingBlocks trivial
  | setRangeGapThreshold threshold => exact hcall (.setRangeGapThreshold threshold) trivial
  | complete =>
    obtain ⟨hout, hnext⟩ := hL.finish h
    exact ⟨congrArg (Except.map fun _ => 0) hout, hnext⟩
  | drop => exact ⟨rfl, hL.dropAssembly h⟩

theorem run_frame (env : Env) (htemp : s.tempPath ∈ own) (hout : s.outputPath ∈ own) (act : Act) :
    (act.run env s).2.tempPath ∈ own ∧ (act.run env s).2.outputPath ∈ own ∧
      ∀ path ∉ own, (act.run env s).2.fs path = s.fs path := by
  have hself : Beside own s.fs s s :=
    ⟨htemp, hout, rfl, rfl, rfl, fun _ _ => rfl, fun _ _ => rfl⟩
  obtain ⟨-, hnext⟩ := beside_run env hself act fun _ _ => rfl
  exact ⟨hnext.tempPath, hnext.outputPath, hnext.others⟩

/-! ### One file system -/

section World

variable {ι : Type}

/-- An assembly without the file system, and the outcomes of the acts on it, newest first. -/
structure Party where
  assembly : ZsyncAssembly
  clock : ℕ
  trace : List Event
  outcomes : List (Except AssemblyError ℕ)

/-- Several assemblies and their file system. -/
structure World (ι : Type) where
  party : ι → Party
  fs : String → Option File

/-- What assembly `i` sees. -/
def World.view (w : World ι) (i : ι) : State :=
  ⟨(w.party i).assembly, w.fs, (w.party i).clock, (w.party i).trace⟩

variable [DecidableEq ι]

/-- An act on assembly `i`, which has surroundings of its own. -/
def World.act (env : ι → Env) (w : World ι) (step : ι × Act) : World ι :=
  let r := step.2.run (env step.1) (w.view step.1)
  { party := Function.update w.party step.1 ⟨r.2.toZsyncAssembly, r.2.clock, r.2.trace,
      r.1 :: (w.party step.1).outcomes⟩
    fs := r.2.fs }

/-- Acts on the assemblies, one after another. -/
def World.run (env : ι → Env) (schedule : List (ι × Act)) (w : World ι) : World ι :=
  schedule.foldl (World.act env) w

/-- Every assembly has its paths in its own part of the file system. -/
def World.Apart (own : ι → Set String) (w : World ι) : Prop :=
  ∀ i, (w.view i).tempPath ∈ own i ∧ (w.view i).outputPath ∈ own i

variable {env : ι → Env} {own : ι → Set String} {w a : World ι} {i : ι}

theorem World.view_act_self (w : World ι) (i : ι) (act : Act) :
    (w.act env (i, act)).view i = (act.run (env i) (w.view i)).2 := by
  simp [World.act, World.view]

theorem World.party_act_of_ne (w : World ι) {j : ι} (h : i ≠ j) (act : Act) :
    (w.act env (j, act)).party i = w.party i := Function.update_of_ne h _ _

theorem World.Apart.act (env : ι → Env) (h : w.Apart own) (step : ι × Act) :
    (w.act env step).Apart own ∧ ∀ path ∉ own step.1, (w.act env step).fs path = w.fs path := by
  obtain ⟨htemp, hout, hfs⟩ :=
    run_frame (env step.1) (h step.1).1 (h step.1).2 step.2
  refine ⟨fun i => ?_, hfs⟩
  by_cases hi : i = step.1
  · subst hi
    rw [World.view_act_self]
    exact ⟨htemp, hout⟩
  · simp only [World.view, World.party_act_of_ne w hi]
    exact h i

/-- The part of the file system that no assembly but `i` has. -/
def notOthers (own : ι → Set String) (i : ι) : Set String := {path | ∀ j ≠ i, path ∉ own j}

/-- Assembly `i` is the same in two worlds, and so are all files but those of the others. -/
def World.SameFor (own : ι → Set String) (i : ι) (w a : World ι) : Prop :=
  w.party i = a.party i ∧ ∀ path ∈ notOthers own i, w.fs path = a.fs path

/-- **One act** of the schedule: assembly `i` goes as it does when only its own acts are done. -/
theorem World.SameFor.act (env : ι → Env) (hdisjoint : ∀ i j, i ≠ j → Disjoint (own i) (own j))
    (hw : w.Apart own) (ha : a.Apart own) (h : w.SameFor own i a) (step : ι × Act)
    (hsource : ∀ path ∈ step.2.source, path ∈ notOthers own step.1) :
    (w.act env step).SameFor own i (if step.1 = i then a.act env step else a) := by
  by_cases hstep : step.1 = i
  · subst hstep
    rw [if_pos rfl]
    have hown : own step.1 ⊆ notOthers own step.1 := fun path hp j hj =>
      (hdisjoint step.1 j (Ne.symm hj)).notMem_of_mem_left hp
    have hbeside : Beside (notOthers own step.1) w.fs (a.view step.1) (w.view step.1) :=
      ⟨hown (ha step.1).1, hown (ha step.1).2, congrArg Party.assembly h.1,
        congrArg Party.clock h.1, congrArg Party.trace h.1, h.2, fun _ _ => rfl⟩
    obtain ⟨hout, hnext⟩ := beside_run (env step.1) hbeside step.2
      fun path hp => h.2 path (hsource path hp)
    refine ⟨?_, hnext.same⟩
    simp only [World.act, Function.update_self, hout, hnext.assembly, hnext.clock, hnext.trace,
      h.1]
  · rw [if_neg hstep]
    refine ⟨(World.party_act_of_ne w (Ne.symm hstep) step.2).trans h.1, fun path hp => ?_⟩
    rw [(hw.act env step).2 path (hp step.1 hstep)]
    exact h.2 path hp

/-- **A schedule** of acts. -/
theorem World.SameFor.run (hdisjoint : ∀ i j, i ≠ j → Disjoint (own i) (own j))
    (schedule : List (ι × Act)) (hw : w.Apart own) (ha : a.Apart own) (h : w.SameFor own i a)
    (hsource : ∀ step ∈ schedule, ∀ path ∈ step.2.source, path ∈ notOthers own step.1) :
    (World.run env schedule w).SameFor own i
      (World.run env (schedule.filter fun step => step.1 = i) a) := by
  induction schedule generalizing w a with
  | nil => exact h
  | cons step schedule ih =>
    have hnext := h.act env hdisjoint hw ha step (hsource step List.mem_cons_self)
    have hrest := fun other hmem => hsource other (List.mem_cons_of_mem _ hmem)
    by_cases hstep : step.1 = i
    · rw [List.filter_cons_of_pos (by simpa using hstep)]
      rw [if_pos hstep] at hnext
      exact ih (hw.act env step).1 (ha.act env step).1 hnext hrest
    · rw [List.filter_cons_of_neg (by simpa using hstep)]
      rw [if_neg hstep] at hnext
      exact ih (hw.act env step).1 ha hnext hrest

/-- New assemblies, which share a file system. -/
def World.start (assemblies : ι → ZsyncAssembly) (fs : String → Option File) : World ι :=
  ⟨fun i => ⟨assemblies i, 0, [], []⟩, fs⟩

/-- The two paths of an assembly. -/
def pathsOf (outputPath : String) : Set String := {outputPath, outputPath ++ ".zsync-tmp"}

/-- **Assemblies do not disturb each other.**  Assemblies of any targets share a file system.  No
output path is the output or the temporary path of another, no assembly scans the output file of
another, and none scans a temporary file as a source.  In every order of calls, completions and
drops, each one has the outcomes, the state and the files that its own acts alone would give it, and
no other file is touched. -/
theorem assemblies_isolated (env : ι → Env) (cf : ι → ControlFile) (outputPath : ι → String)
    (baseUrl : ι → Option String) (http : ι → HttpClient) (fs : String → Option File)
    (hdistinct : ∀ i j, i ≠ j →
      outputPath i ≠ outputPath j ∧ outputPath i ≠ outputPath j ++ ".zsync-tmp")
    (schedule : List (ι × Act))
    (hsource : ∀ step ∈ schedule, ∀ path ∈ step.2.source, ∀ j,
      (j ≠ step.1 → path ≠ outputPath j) ∧ path ≠ outputPath j ++ ".zsync-tmp") :
    let start := World.start (fun i =>
      ZsyncAssembly.withClient (cf i) (outputPath i) (baseUrl i) (http i)) fs
    let w := World.run env schedule start
    (∀ i, let alone := World.run env (schedule.filter fun step => step.1 = i) start
      w.party i = alone.party i ∧ ∀ path ∈ pathsOf (outputPath i), w.fs path = alone.fs path) ∧
      ∀ path, (∀ i, path ∉ pathsOf (outputPath i)) → w.fs path = fs path := by
  intro start w
  have hapart : start.Apart fun i => pathsOf (outputPath i) := fun i => ⟨Or.inr rfl, Or.inl rfl⟩
  have hdisjoint : ∀ i j, i ≠ j → Disjoint (pathsOf (outputPath i)) (pathsOf (outputPath j)) := by
    intro i j hij
    refine Set.disjoint_left.2 ?_
    rintro path (rfl | rfl) (heq | heq)
    · exact (hdistinct i j hij).1 heq
    · exact (hdistinct i j hij).2 heq
    · exact (hdistinct j i (Ne.symm hij)).2 heq.symm
    · exact (hdistinct i j hij).1 (String.append_left_inj _ |>.1 heq)
  refine ⟨fun i => ?_, fun path hpath => ?_⟩
  · have hfree : ∀ step ∈ schedule, ∀ path ∈ step.2.source,
        path ∈ notOthers (fun j => pathsOf (outputPath j)) step.1 := by
      rintro step hstep path hp j hj (rfl | rfl)
      · exact (hsource step hstep _ hp j).1 hj rfl
      · exact (hsource step hstep _ hp j).2 rfl
    have hsame : w.SameFor (fun j => pathsOf (outputPath j)) i
        (World.run env (schedule.filter fun step => step.1 = i) start) :=
      World.SameFor.run hdisjoint schedule hapart hapart ⟨rfl, fun _ _ => rfl⟩ hfree
    exact ⟨hsame.1, fun path hp => hsame.2 path fun j hj =>
      (hdisjoint i j (Ne.symm hj)).notMem_of_mem_left hp⟩
  -- no act touches a file of none
  have hrun : ∀ (schedule : List (ι × Act)) (w : World ι), w.Apart (fun i =>
      pathsOf (outputPath i)) → (World.run env schedule w).fs path = w.fs path := by
    intro schedule
    induction schedule with
    | nil => exact fun _ _ => rfl
    | cons step schedule ih =>
      intro w hw
      obtain ⟨hnext, hfs⟩ := hw.act env step
      exact (ih _ hnext).trans (hfs path (hpath step.1))
  exact hrun schedule start hapart

/-- The seed at a path, whose reads are never short. -/
def seedOf : Option File → Seed
  | none => ⟨.error .other, fun _ _ _ => .error .other, 0⟩
  | some file => ⟨.ok file.data.length, fun _ offset len => .ok (window file.data offset len),
      file.data.length⟩

/-- Two downloads of one target that scan the same file; one is dropped while the other one
completes. -/
theorem assemblies_isolated_two :
    let start : World Bool := World.start (fun b =>
      ZsyncAssembly.withClient (tinyControl none) (if b then "a" else "b") none ⟨none, 0⟩)
        fun path => if path = "seed" then some ⟨[9, 1, 0], newPermissions⟩ else none
    let run := fun schedule => World.run (fun _ => tinyEnv [1, 0] none) schedule start
    (run [(true, .scan "seed" seedOf), (false, .scan "seed" seedOf), (false, .download),
      (false, .drop), (true, .complete)]).fs "a" =
      (run [(true, .scan "seed" seedOf), (true, .complete)]).fs "a" := by
  have h := assemblies_isolated (fun _ : Bool => tinyEnv [1, 0] none) (fun _ => tinyControl none)
    (fun b => if b then "a" else "b") (fun _ => none) (fun _ => ⟨none, 0⟩)
    (fun path => if path = "seed" then some ⟨[9, 1, 0], newPermissions⟩ else none) (by decide)
    [(true, .scan "seed" seedOf), (false, .scan "seed" seedOf), (false, .download),
      (false, .drop), (true, .complete)]
    (by simp [Act.source])
  exact (h.1 true).2 "a" (Or.inl rfl)

end World

end Zsync
