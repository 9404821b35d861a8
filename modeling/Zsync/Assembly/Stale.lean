import Zsync.Assembly.Fault
import Zsync.Assembly.Output

/-!
# A temporary file left behind

What a file that was at the temporary path before can change.

* `Alike` : two states that differ in the temporary file only;
* `lockstep_call` : the calls other than the self scan do not look at the temporary file;
* `Covered` : every block of the target was written in full;
* `stale_temp_unseen` : two runs over different temporary files.
-/

namespace Zsync

variable {env : Env} {cf : ControlFile}

/-- Two states that differ in the temporary file only, which `P` relates. -/
structure Alike (P : Option File → Option File → Prop) (s t : State) : Prop where
  assembly : t.toZsyncAssembly = s.toZsyncAssembly
  clock : t.clock = s.clock
  trace : t.trace = s.trace
  temp : P (s.fs s.tempPath) (t.fs t.tempPath)
  others : ∀ path ≠ s.tempPath, t.fs path = s.fs path
  outputPath : s.outputPath ≠ s.tempPath
  opened : s.file = true → (s.fs s.tempPath).isSome ∧ (t.fs t.tempPath).isSome

/-- Nothing is said of the temporary files. -/
abbrev AlikeButTemp : State → State → Prop := Alike fun _ _ => True

namespace Alike

variable {P Q : Option File → Option File → Prop} {s t : State}

theorem mono (h : Alike P s t) (hPQ : ∀ a b, P a b → Q a b) : Alike Q s t :=
  ⟨h.assembly, h.clock, h.trace, hPQ _ _ h.temp, h.others, h.outputPath, h.opened⟩

theorem attempt (h : Alike P s t) (op : DiskOp) :
    Alike P (attempt env op s).2 (attempt env op t).2 := by
  refine ⟨h.assembly, congrArg (· + 1) h.clock, ?_, h.temp, h.others, h.outputPath, h.opened⟩
  simp only [Zsync.attempt, h.clock, h.trace]

theorem update (h : Alike P s t) {a b : Option File} (hab : Q a b)
    (hopened : s.file = true → a.isSome ∧ b.isSome) :
    Alike Q { s with fs := Function.update s.fs s.tempPath a }
      { t with fs := Function.update t.fs t.tempPath b } := by
  have htemp : t.tempPath = s.tempPath := congrArg ZsyncAssembly.tempPath h.assembly
  refine ⟨h.assembly, h.clock, h.trace, by simpa using hab, fun path hp => ?_, h.outputPath,
    by simpa using hopened⟩
  have hp : path ≠ s.tempPath := hp
  simp only [Function.update_of_ne hp, htemp]
  exact h.others path hp

end Alike

/-! ### The operations -/

section Operations

variable {P : Option File → Option File → Prop}

theorem lockstep_attempt (op : DiskOp) {E : State → State → Prop} :
    Prog.Lockstep (Alike P) (attempt env op) (Alike P) E :=
  fun s t h => ⟨by rw [h.clock], h.attempt op⟩

theorem lockstep_io (op : DiskOp) :
    Prog.Lockstep (Alike P) (io env op) (Alike P) (Alike P) := by
  refine Prog.Lockstep.bind (lockstep_attempt op) fun r => ?_
  cases r.error with
  | none => exact Prog.Lockstep.pure fun _ _ h => h
  | some kind => exact Prog.Lockstep.throw fun _ _ h => h

theorem lockstep_ensureFile (hP : ∀ a b, P a b →
      P (some (a.getD ⟨[], newPermissions⟩)) (some (b.getD ⟨[], newPermissions⟩))) :
    Prog.Lockstep (Alike P) (ensureFile env)
      (Alike fun a b => P a b ∧ a.isSome ∧ b.isSome) (Alike P) := by
  intro s t h
  have hfile : t.file = s.file := congrArg ZsyncAssembly.file h.assembly
  by_cases hopen : s.file = true
  · have hrun : ∀ r : State, r.file = true → ensureFile env r = (.ok (), r) := by
      intro r hr
      rw [ensureFile, Prog.bind_run]
      simp [Prog.read, Prog.next, hr, Prog.pure_run]
    rw [hrun s hopen, hrun t (hfile ▸ hopen)]
    exact ⟨rfl, h.assembly, h.clock, h.trace, ⟨h.temp, h.opened hopen⟩, h.others, h.outputPath,
      h.opened⟩
  · have hrun : ∀ r : State, r.file ≠ true → ensureFile env r = (io env .openTemp >>= fun _ =>
        Prog.modify fun s => { s with
          file := true
          fs := Function.update s.fs s.tempPath
            (some ((s.fs s.tempPath).getD ⟨[], newPermissions⟩)) }) r := by
      intro r hr
      rw [ensureFile, Prog.bind_run]
      simp [Prog.read, Prog.next, hr]
    rw [hrun s hopen, hrun t (hfile ▸ hopen)]
    refine Prog.Lockstep.bind (lockstep_io _) (fun _ => Prog.Lockstep.modify fun s t h => ?_) s t h
    have hupdate := h.update (Q := fun a b => P a b ∧ a.isSome ∧ b.isSome)
      ⟨hP _ _ h.temp, rfl, rfl⟩ fun _ => ⟨rfl, rfl⟩
    exact ⟨congrArg (fun a => { a with file := true }) hupdate.assembly, hupdate.clock,
      hupdate.trace, hupdate.temp, hupdate.others, hupdate.outputPath,
      fun _ => hupdate.temp.2⟩

theorem lockstep_mapTemp {Q : Option File → Option File → Prop} {f : File → File}
    {E : State → State → Prop} (hf : ∀ a b, P a b → Q (a.map f) (b.map f)) :
    Prog.Lockstep (Alike P) (Prog.modify (State.mapTemp f) : Asm Unit) (Alike Q) E :=
  Prog.Lockstep.modify fun _ _ h => h.update (hf _ _ h.temp) (by simpa using h.opened)

theorem lockstep_note {f : State → Event} {E : State → State → Prop}
    (hf : ∀ s t, Alike P s t → f t = f s) :
    Prog.Lockstep (Alike P) (Prog.modify fun s => s.note (f s) : Asm Unit) (Alike P) E := by
  refine Prog.Lockstep.modify fun s t h => ?_
  refine ⟨h.assembly, h.clock, ?_, h.temp, h.others, h.outputPath, h.opened⟩
  simp only [State.note, hf s t h, h.trace]

theorem lockstep_checkAborted :
    Prog.Lockstep (Alike P) (checkAborted env) (Alike P) (Alike P) := by
  refine Prog.Lockstep.read (fun s t h => by rw [h.clock]) fun s t _ => ?_
  refine Prog.Lockstep.bind (Prog.Lockstep.modify (M := Alike P) fun s t h => ?_) fun _ => ?_
  · exact ⟨h.assembly, congrArg (· + 1) h.clock, h.trace, h.temp, h.others, h.outputPath, h.opened⟩
  · exact Prog.Lockstep.ite (Prog.Lockstep.throw fun _ _ h => h) (Prog.Lockstep.pure fun _ _ h => h)

theorem lockstep_writeAtOffset (data : Bytes) (offset : ℕ) :
    Prog.Lockstep AlikeButTemp (writeAtOffset env data offset) AlikeButTemp AlikeButTemp := by
  refine Prog.Lockstep.bind (lockstep_io _) fun _ =>
    Prog.Lockstep.bind (lockstep_attempt _) fun r => ?_
  cases r.error with
  | none =>
    refine Prog.Lockstep.modify fun s t h => ?_
    have hwrote := h.update (Q := fun _ _ => True)
      (a := (s.fs s.tempPath).map fun file => { file with data := writeAt file.data offset data })
      (b := (t.fs t.tempPath).map fun file => { file with data := writeAt file.data offset data })
      trivial (by simpa using h.opened)
    exact ⟨hwrote.assembly, hwrote.clock, congrArg (List.cons _) hwrote.trace, trivial,
      hwrote.others, hwrote.outputPath, hwrote.opened⟩
  | some kind =>
    exact Prog.Lockstep.bind (lockstep_mapTemp fun _ _ _ => trivial) fun _ =>
      Prog.Lockstep.throw fun _ _ h => h

end Operations

/-! ### The calls -/

/-- The two runs stay alike, whatever is at the temporary path. -/
abbrev Unseen {α : Type} (x : Asm α) : Prop :=
  Prog.Lockstep AlikeButTemp x AlikeButTemp AlikeButTemp

theorem unseen_pure {α : Type} (a : α) : Unseen (pure a : Asm α) :=
  Prog.Lockstep.pure fun _ _ h => h

theorem unseen_throw {α : Type} (e : AssemblyError) : Unseen (Prog.throw e : Asm α) :=
  Prog.Lockstep.throw fun _ _ h => h

theorem unseen_ensureFile : Unseen (ensureFile env) :=
  (lockstep_ensureFile fun _ _ _ => trivial).conseq (fun _ _ h => h)
    (fun _ _ h => h.mono fun _ _ _ => trivial) fun _ _ h => h

theorem unseen_submitChunk (data : Bytes) (offset : ℕ) : Unseen (submitChunk env data offset) := by
  intro s t h
  have hm : t.matcher = s.matcher := congrArg ZsyncAssembly.matcher h.assembly
  refine ⟨by rw [hm], ?_, h.clock, ?_, trivial, h.others, h.outputPath, h.opened⟩
  · simp only [h.assembly]
  · simp only [hm, h.trace]

theorem unseen_storeMatches (create : Bool) (buf : Bytes) (overlapStart : ℕ)
    (matchedBlocks : List (ℕ × ℕ)) :
    Unseen (storeMatches env create buf overlapStart matchedBlocks) := by
  refine Prog.Lockstep.read (fun s t h => by rw [h.assembly]) fun s _ _ => ?_
  refine Prog.Lockstep.forM (fun p => Prog.Lockstep.bind ?_ fun _ => lockstep_writeAtOffset _ _) _
  exact Prog.Lockstep.ite unseen_ensureFile (unseen_pure ())

theorem unseen_seed_readAtOffset (seed : Seed) (offset len : ℕ) :
    Unseen (seed.readAtOffset offset len) := by
  intro s t h
  unfold Seed.readAtOffset
  rw [h.clock]
  have hnext : AlikeButTemp { s with clock := s.clock + 1 } { t with clock := s.clock + 1 } :=
    ⟨h.assembly, rfl, h.trace, trivial, h.others, h.outputPath, h.opened⟩
  cases seed.read s.clock offset len <;> exact ⟨rfl, hnext⟩

theorem unseen_submitSourceFile (seed : Seed) : Unseen (submitSourceFile env seed) := by
  refine Prog.Lockstep.bind (Prog.Lockstep.ofExcept (fun _ _ h => h) fun _ _ h => h)
    fun fileSize => ?_
  refine Prog.Lockstep.read (fun s t h => by rw [h.assembly]) fun s _ _ => ?_
  refine Prog.Lockstep.ite (unseen_pure 0) (Prog.Lockstep.loop (fun v => ?_) _ _)
  -- one chunk
  refine Prog.Lockstep.bind lockstep_checkAborted fun _ =>
    Prog.Lockstep.bind (M := AlikeButTemp) ?_ fun buf => ?_
  · exact Prog.Lockstep.ite (Prog.Lockstep.bind (unseen_seed_readAtOffset seed _ _) fun _ =>
      unseen_pure _) (unseen_pure _)
  refine Prog.Lockstep.bind (unseen_seed_readAtOffset seed _ _) fun got => ?_
  refine Prog.Lockstep.ite (unseen_pure _)
    (Prog.Lockstep.bind (M := AlikeButTemp) ?_ fun buf => ?_)
  · exact Prog.Lockstep.ite (Prog.Lockstep.bind (unseen_seed_readAtOffset seed _ _) fun _ =>
      unseen_pure _) (unseen_pure _)
  refine Prog.Lockstep.bind (unseen_submitChunk _ _) fun matchedBlocks => ?_
  refine Prog.Lockstep.bind (unseen_storeMatches _ _ _ _) fun _ => ?_
  refine Prog.Lockstep.bind (lockstep_note fun _ _ _ => rfl) fun _ => ?_
  exact Prog.Lockstep.ite (unseen_pure _) (unseen_pure _)

theorem unseen_storeBlock (id : ℕ) (padded blockData : Bytes) :
    Unseen (storeBlock env id padded blockData) := by
  refine Prog.Lockstep.bind (M := AlikeButTemp) (fun s t h => ?_) fun ok => ?_
  · have hm : t.matcher = s.matcher := congrArg ZsyncAssembly.matcher h.assembly
    refine ⟨by rw [hm], ?_, h.clock, ?_, trivial, h.others, h.outputPath, h.opened⟩
    · simp only [h.assembly]
    · simp only [hm, h.trace]
  refine Prog.Lockstep.ite (Prog.Lockstep.bind unseen_ensureFile fun _ => ?_) (unseen_pure 0)
  refine Prog.Lockstep.read (fun s t h => by rw [h.assembly]) fun s _ _ => ?_
  refine Prog.Lockstep.bind (lockstep_writeAtOffset _ _) fun _ => ?_
  exact Prog.Lockstep.bind (lockstep_note fun _ _ h => by rw [h.assembly]) fun _ => unseen_pure 1

theorem unseen_bodyRound (v : HttpRangeReader × CutVars) : Unseen (bodyRound env v) := by
  refine Prog.Lockstep.bind lockstep_checkAborted fun _ => ?_
  cases v.1.read readBufSize with
  | mk r reader =>
    cases r with
    | error kind => exact unseen_throw _
    | ok got =>
      refine Prog.Lockstep.ite (unseen_pure _) (Prog.Lockstep.bind
        (Prog.Lockstep.loop (fun c => ?_) _ _) fun _ => unseen_pure _)
      -- one block
      refine Prog.Lockstep.read (fun s t h => ?_) fun s _ _ => ?_
      · simp only [storeCut, h.assembly]
      refine Prog.Lockstep.ite (unseen_pure _) (Prog.Lockstep.bind ?_ fun _ => unseen_pure _)
      exact Prog.Lockstep.ite (unseen_pure _) (unseen_storeBlock _ _ _)

theorem unseen_fetchRange (url : String) (rangeStart rangeEnd : ℕ) :
    Unseen (fetchRange env url rangeStart rangeEnd) := by
  refine Prog.Lockstep.bind lockstep_checkAborted fun _ => ?_
  refine Prog.Lockstep.read (fun s t h => by rw [h.assembly]) fun s _ _ => ?_
  refine Prog.Lockstep.bind (Prog.Lockstep.modify (M := AlikeButTemp) fun s t h => ?_) fun _ => ?_
  · exact ⟨by rw [h.assembly], h.clock, h.trace, trivial, h.others, h.outputPath, h.opened⟩
  cases (HttpClient.fetchRangeReader env.agent s.http url rangeStart rangeEnd).1 with
  | error e => exact unseen_throw _
  | ok reader =>
    refine Prog.Lockstep.bind (Prog.Lockstep.loop unseen_bodyRound _ _) fun v => ?_
    refine Prog.Lockstep.bind ?_ fun _ => unseen_pure _
    -- the short block at the end
    refine Prog.Lockstep.read (fun s t h => by rw [h.assembly]) fun s _ _ => ?_
    exact Prog.Lockstep.ite (unseen_storeBlock _ _ _) (unseen_pure 0)

theorem unseen_fetchRanges (url : String) (ranges : List (ℕ × ℕ)) :
    Unseen (fetchRanges env url ranges) := by
  induction ranges with
  | nil => exact unseen_pure 0
  | cons r rest ih =>
    exact Prog.Lockstep.bind (unseen_fetchRange url r.1 r.2) fun _ =>
      Prog.Lockstep.bind ih fun _ => unseen_pure _

theorem unseen_downloadMissingBlocks : Unseen (downloadMissingBlocks env) := by
  refine Prog.Lockstep.read (fun s t h => by rw [h.assembly]) fun s _ _ => ?_
  cases s.control.urls with
  | nil => exact unseen_throw _
  | cons url rest => exact Prog.Lockstep.ite (unseen_pure 0) (unseen_fetchRanges _ _)

/-- A call that does not read the temporary file. -/
def Call.noSelf : Call → Bool
  | .submitSelfReferential => false
  | _ => true

/-- **Every call** but the self scan goes alike over any temporary files. -/
theorem unseen_call {call : Call} (h : call.noSelf) : Unseen (call.exec env) := by
  cases call with
  | submitSourceFile seed => exact unseen_submitSourceFile seed
  | submitSelfReferential => exact absurd h Bool.false_ne_true
  | downloadMissingBlocks => exact unseen_downloadMissingBlocks
  | setRangeGapThreshold threshold =>
    refine Prog.Lockstep.bind (Prog.Lockstep.modify (M := AlikeButTemp) fun s t h => ?_) fun _ =>
      unseen_pure 0
    exact ⟨by rw [h.assembly], h.clock, h.trace, trivial, h.others, h.outputPath, h.opened⟩

theorem alike_runCalls {calls : List Call} (h : ∀ call ∈ calls, call.noSelf) {s t : State}
    (hst : AlikeButTemp s t) : AlikeButTemp (runCalls env calls s) (runCalls env calls t) := by
  induction calls generalizing s t with
  | nil => exact hst
  | cons call calls ih =>
    obtain ⟨hcall, hcalls⟩ := List.forall_mem_cons.1 h
    exact ih hcalls (unseen_call hcall s t hst).snd

/-! ### The end -/

/-- The content of a file that may not be there. -/
def contentOf (file : Option File) : Bytes := (file.map File.data).getD []

/-- The temporary files have the same first `n` bytes. -/
def SameUpTo (n : ℕ) (a b : Option File) : Prop := padTo n (contentOf a) = padTo n (contentOf b)

/-- Both files are there, with the same content. -/
def SameContent (a b : Option File) : Prop := ∃ f g, a = some f ∧ b = some g ∧ f.data = g.data

theorem Alike.temp_eq {s t : State} (h : Alike SameContent s t) : t.temp = s.temp := by
  obtain ⟨f, g, hf, hg, hdata⟩ := h.temp
  simp [State.temp, hf, hg, hdata]

theorem Alike.output_eq {P : Option File → Option File → Prop} {s t : State} (h : Alike P s t) :
    t.fs t.outputPath = s.fs s.outputPath := by
  rw [h.assembly]
  exact h.others _ h.outputPath

theorem lockstep_checkSha1 (sha1 : Option String) :
    Prog.Lockstep (Alike SameContent) (checkSha1 env sha1) (Alike SameContent)
      (Alike SameContent) := by
  cases sha1 with
  | none => exact Prog.Lockstep.pure fun _ _ h => h
  | some expected =>
    refine Prog.Lockstep.bind (lockstep_io _) fun _ =>
      Prog.Lockstep.bind (lockstep_io _) fun _ => ?_
    refine Prog.Lockstep.read (fun s t h => by rw [h.temp_eq]) fun s t _ => ?_
    exact Prog.Lockstep.ite (Prog.Lockstep.pure fun _ _ h => h) (Prog.Lockstep.throw fun _ _ h => h)

theorem lockstep_keepPermissions :
    Prog.Lockstep (Alike SameContent) (keepPermissions env) (Alike SameContent)
      (Alike SameContent) := by
  refine Prog.Lockstep.bind (lockstep_attempt _) fun r => ?_
  refine Prog.Lockstep.read (fun s t h => by rw [h.output_eq]) fun s t _ => ?_
  cases r.error with
  | some kind => exact Prog.Lockstep.pure fun _ _ h => h
  | none =>
    cases s.fs s.outputPath with
    | none => exact Prog.Lockstep.pure fun _ _ h => h
    | some existing =>
      refine Prog.Lockstep.bind (lockstep_io _) fun _ => lockstep_mapTemp ?_
      rintro _ _ ⟨f, g, rfl, rfl, hdata⟩
      exact ⟨_, _, rfl, rfl, hdata⟩

theorem lockstep_rename :
    Prog.Lockstep (Alike SameContent) (rename env) (fun _ _ => True) fun _ _ => True := by
  refine Prog.Lockstep.bind ((lockstep_io _).conseq (fun _ _ h => h) (fun _ _ h => h)
    fun _ _ _ => trivial) fun _ => ?_
  intro s t h
  obtain ⟨f, g, hf, hg, -⟩ := h.temp
  simp only [Prog.bind_run, Prog.read, Prog.next, hf, hg]
  exact ⟨rfl, trivial⟩

/-- Temporary files that are the same up to the target's length are the same after they are cut to
it, so the two runs end alike. -/
theorem lockstep_complete :
    Prog.Lockstep (fun s t => s.control = cf ∧ Alike (SameUpTo cf.length) s t) (complete env)
      (fun _ _ => True) fun _ _ => True := by
  have hlost : ∀ {P : Option File → Option File → Prop} (s t : State), Alike P s t → True :=
    fun _ _ _ => trivial
  refine Prog.Lockstep.bind (M := Alike SameContent) ?_ fun _ => lockstep_rename
  refine Prog.Lockstep.read (fun s t h => by rw [h.2.assembly]) fun s t h => ?_
  rw [h.1]
  refine Prog.Lockstep.ite (Prog.Lockstep.throw fun _ _ _ => trivial) ?_
  refine Prog.Lockstep.bind ((lockstep_ensureFile ?_).conseq (fun _ _ h => h.2) (fun _ _ h => h)
    hlost) fun _ => ?_
  · intro a b hab
    cases a <;> cases b <;> exact hab
  refine Prog.Lockstep.bind ((lockstep_io _).conseq (fun _ _ h => h) (fun _ _ h => h) hlost)
    fun _ => ?_
  refine Prog.Lockstep.bind (lockstep_mapTemp (Q := SameContent) ?_) fun _ => ?_
  · rintro a b ⟨hsame, ha, hb⟩
    obtain ⟨f, rfl⟩ := Option.isSome_iff_exists.1 ha
    obtain ⟨g, rfl⟩ := Option.isSome_iff_exists.1 hb
    exact ⟨_, _, rfl, rfl, hsame⟩
  refine Prog.Lockstep.bind ((lockstep_checkSha1 _).conseq (fun _ _ h => h) (fun _ _ h => h) hlost)
    fun _ => ?_
  refine Prog.Lockstep.bind ((lockstep_io _).conseq (fun _ _ h => h) (fun _ _ h => h) hlost)
    fun _ => ?_
  refine Prog.Lockstep.bind (Prog.Lockstep.modify (M := Alike SameContent) fun s t h => ?_) fun _ =>
    lockstep_keepPermissions.conseq (fun _ _ h => h) (fun _ _ h => h) hlost
  exact ⟨congrArg (fun a => { a with file := false }) h.assembly, h.clock, h.trace, h.temp,
    h.others, h.outputPath, fun h => nomatch h⟩

/-! ### Runs -/

/-- No operation to store a block has failed, and what was written of each block is all that it
holds of the target: no response ended inside a block that was then taken with zeros for the
rest. -/
def Covered (cf : ControlFile) (trace : List Event) : Prop :=
  Healthy trace ∧ ∀ id data, .wrote (id * cf.blocksize) data ∈ trace →
    min cf.blocksize (cf.length - id * cf.blocksize) ≤ data.length

/-- When every block was written in full the temporary file has its bytes from the writes. -/
theorem sameUpTo_of_covered (hcf : cf.Checked) {s t : State} (hs : Accounted cf [] s)
    (ht : Accounted cf [] t) (hbase : Base env cf s) (htrace : t.trace = s.trace)
    (hcovered : Covered cf s.trace) (hcomplete : s.matcher.isComplete) :
    padTo cf.length s.temp = padTo cf.length t.temp := by
  refine eq_of_byteAt (by simp) fun i hi => ?_
  rw [length_padTo] at hi
  rw [byteAt_padTo, byteAt_padTo, if_pos hi, if_pos hi]
  -- the block of byte `i` is known and so was written
  obtain ⟨id, r, rfl, hr, hid⟩ := hcf.exists_block hi
  have hknown := (hbase.counted hcf).isComplete_iff.1 hcomplete id (hbase.totalBlocks hcf ▸ hid)
  obtain ⟨data, hwrote⟩ := hs.known hcovered.1 id hknown (by simp)
  obtain ⟨-, -, -, hdata⟩ := hs.intact id data hwrote
  obtain ⟨-, -, -, hdata'⟩ := ht.intact id data (htrace ▸ hwrote)
  have hlen := hcovered.2 id data hwrote
  rw [(slice_eq_iff rfl).1 hdata r (by omega), (slice_eq_iff rfl).1 hdata' r (by omega)]

theorem complete_missing {s : State} (h : s.matcher.isComplete = false) :
    (complete env s).1 = .error (.control (missingMessage s.matcher)) := by
  simp [complete, prepare, Prog.bind_run, Prog.read, Prog.next, Prog.throw, h]

/-- **Two runs** of the same calls, none of them a self scan, over different files at the temporary
path.  They know the same blocks after any calls; and when every block was written in full,
`complete` ends alike and installs the same bytes. -/
theorem stale_temp_unseen (env : Env) (hcf : cf.Checked) (outputPath : String)
    (baseUrl : Option String) (http : HttpClient) {fs₁ fs₂ : String → Option File}
    (hfs : ∀ path ≠ outputPath ++ ".zsync-tmp", fs₂ path = fs₁ path) {calls : List Call}
    (hcalls : ∀ call ∈ calls, call.noSelf) :
    let s := runCalls env calls
      (State.start (ZsyncAssembly.withClient cf outputPath baseUrl http) fs₁)
    let t := runCalls env calls
      (State.start (ZsyncAssembly.withClient cf outputPath baseUrl http) fs₂)
    (∀ id, t.matcher.isBlockKnown id = s.matcher.isBlockKnown id) ∧
      (Covered cf s.trace →
        (finish env t).1 = (finish env s).1 ∧
          ((finish env s).1 = .ok () → ∃ f g, (finish env s).2.fs outputPath = some f ∧
            (finish env t).2.fs outputPath = some g ∧ g.data = f.data)) := by
  intro s t
  have hstart :
      Base env cf (State.start (ZsyncAssembly.withClient cf outputPath baseUrl http) fs₁) :=
    base_start cf outputPath baseUrl http fs₁
  have halike : AlikeButTemp s t := alike_runCalls hcalls
    ⟨rfl, rfl, rfl, trivial, hfs, outputPath_ne_tempPath hstart, fun h => nomatch h⟩
  have hkeeps : Keeps env cf (fun _ => True) (Accounted cf) := keeps_accounted hcf
  obtain ⟨haccs, hbases⟩ := hkeeps.runCalls hcf (fun _ => trivial) calls
    ⟨accounted_start cf outputPath baseUrl http fs₁, base_start cf outputPath baseUrl http fs₁⟩
  obtain ⟨hacct, hbaset⟩ := hkeeps.runCalls hcf (fun _ => trivial) calls
    ⟨accounted_start cf outputPath baseUrl http fs₂, base_start cf outputPath baseUrl http fs₂⟩
  have hmatcher : t.matcher = s.matcher := congrArg ZsyncAssembly.matcher halike.assembly
  refine ⟨fun id => by rw [hmatcher], fun hcovered => ?_⟩
  cases hcomplete : s.matcher.isComplete with
  | false =>
    have hs : (finish env s).1 = .error _ := complete_missing hcomplete
    have ht : (finish env t).1 = .error _ := complete_missing (hmatcher ▸ hcomplete)
    rw [hs, ht, hmatcher]
    exact ⟨rfl, fun h => nomatch h⟩
  | true =>
    have hsame : padTo cf.length s.temp = padTo cf.length t.temp :=
      sameUpTo_of_covered hcf haccs hacct hbases halike.trace hcovered hcomplete
    have hresult : (finish env s).1 = (finish env t).1 :=
      (lockstep_complete s t ⟨hbases.control, halike.assembly, halike.clock, halike.trace, hsame,
        halike.others, halike.outputPath, halike.opened⟩).fst
    refine ⟨hresult.symm, fun hok => ?_⟩
    obtain ⟨hotherss, -⟩ := (keeps_others env fs₁ outputPath).runCalls hcf (fun _ => trivial) calls
      ⟨⟨rfl, rfl, fun _ _ => rfl⟩, hstart⟩
    have hout : t.outputPath = outputPath := by rw [halike.assembly]; exact hotherss.outputPath
    obtain ⟨f, hf, hfdata⟩ := (finish_ok hbases hok).output
    obtain ⟨g, hg, hgdata⟩ := (finish_ok hbaset (hresult ▸ hok)).output
    refine ⟨f, g, hotherss.outputPath ▸ hf, hout ▸ hg, ?_⟩
    rw [hfdata, hgdata, hbases.control, hbaset.control, hsame]

/-- A response that ends inside a block, whose rest is zeros: the block is taken and written in
part, and the rest of the file that was there before is installed with it. -/
theorem short_response_shows_stale :
    let env := tinyEnv [1] none
    let run := fun stale =>
      finish env (runCalls env [.downloadMissingBlocks] (tinyStart none stale))
    (run none).1 = .ok () ∧ (run (some ⟨[9, 9], 0⟩)).1 = .ok () ∧
      ((run none).2.fs "o").map File.data = some [1, 0] ∧
      ((run (some ⟨[9, 9], 0⟩)).2.fs "o").map File.data = some [1, 9] := by
  decide +kernel

/-- A download of the whole block leaves nothing of the file that was there. -/
theorem stale_temp_unseen_tiny : ∃ f g,
    (finish (tinyEnv [1, 0] none) (runCalls (tinyEnv [1, 0] none) [.downloadMissingBlocks]
      (tinyStart none none))).2.fs "o" = some f ∧
    (finish (tinyEnv [1, 0] none) (runCalls (tinyEnv [1, 0] none) [.downloadMissingBlocks]
      (tinyStart none (some ⟨[9, 9], 0⟩)))).2.fs "o" = some g ∧ g.data = f.data := by
  have htrace : (runCalls (tinyEnv [1, 0] none) [.downloadMissingBlocks]
      (tinyStart none none)).trace = [.progress 2 2, .wrote 0 [1, 0], .disk .writeTemp none,
        .disk .seekToWrite none, .disk .openTemp none, .took 0 [1, 0]] := by decide +kernel
  have hcovered : Covered (tinyControl none) (runCalls (tinyEnv [1, 0] none)
      [.downloadMissingBlocks] (tinyStart none none)).trace := by
    rw [htrace]
    refine ⟨healthy_of_all (by decide), fun id data hmem => ?_⟩
    simp only [List.mem_cons, reduceCtorEq, Event.wrote.injEq, List.not_mem_nil, or_false,
      false_or] at hmem
    obtain ⟨hid, rfl⟩ := hmem
    exact min_le_left _ _
  have hfs : ∀ path ≠ "o" ++ ".zsync-tmp", tinyFs (some ⟨[9, 9], 0⟩) path = tinyFs none path := by
    intro path hp
    have hp : path ≠ "o.zsync-tmp" := hp
    simp [tinyFs, hp]
  have hok : (finish (tinyEnv [1, 0] none) (runCalls (tinyEnv [1, 0] none)
      [.downloadMissingBlocks] (tinyStart none none))).1 = .ok () := by decide +kernel
  have hcalls : ∀ call ∈ [Call.downloadMissingBlocks], call.noSelf := by simp [Call.noSelf]
  unfold tinyStart at *
  exact ((stale_temp_unseen (tinyEnv [1, 0] none) (checked_tinyControl none) "o" none ⟨none, 0⟩ hfs
    hcalls).2 hcovered).2 hok

end Zsync
