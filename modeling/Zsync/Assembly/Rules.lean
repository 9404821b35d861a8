import Zsync.Assembly.Complete
import Zsync.Matcher.Known

/-!
# Invariants of an assembly

What each step of an assembly can do, and from it the rule for what a whole run preserves.

* `Quiet` : a change that no block takes part in;
* `Claimed` : some blocks become known, before any of them is written;
* `StoreFailed` : a failure that leaves a block without its bytes;
* `Keeps` : an invariant, which may speak of the blocks that are claimed and not yet written;
* `Keeps.call`, `Keeps.runCalls` : what every call, and every run of calls, preserves.
-/

namespace Zsync

variable {env : Env} {cf : ControlFile} {s s' : State}

/-! ### Changes -/

/-- The operations whose failure leaves a block without its bytes. -/
def DiskOp.stores : DiskOp → Bool
  | .openTemp | .seekToWrite | .writeTemp => true
  | _ => false

/-- The events that no block takes part in. -/
def Event.neutral : Event → Bool
  | .disk op error => error.isNone || !op.stores
  | .took _ _ | .wrote _ _ => false
  | .progress _ _ | .scanProgress _ _ => true

/-- A change that no block takes part in. -/
structure Quiet (s s' : State) : Prop where
  control : s'.control = s.control
  matcher : s'.matcher = s.matcher
  outputPath : s'.outputPath = s.outputPath
  tempPath : s'.tempPath = s.tempPath
  file : s.file = true → s'.file = true
  opened : s'.file = true → s.file = true ∨ (s'.fs s'.tempPath).isSome
  temp : s'.temp = s.temp
  present : (s.fs s.tempPath).isSome → (s'.fs s'.tempPath).isSome
  others : ∀ path ≠ s.tempPath, s'.fs path = s.fs path
  trace : ∃ es, s'.trace = es ++ s.trace ∧ ∀ e ∈ es, e.neutral

/-- Some blocks become known: for each one its number and what is to be written of it, whose
zero-padded bytes have its checksum. -/
structure Claimed (env : Env) (s s' : State) (p : List (ℕ × Bytes)) : Prop where
  control : s'.control = s.control
  outputPath : s'.outputPath = s.outputPath
  tempPath : s'.tempPath = s.tempPath
  file : s'.file = s.file
  fs : s'.fs = s.fs
  trace : s'.trace =
    (p.map fun q => Event.took q.1 (padTo s.control.blocksize q.2)).reverse ++ s.trace
  unknown : ∀ q ∈ p, q.1 < s.matcher.totalBlocks ∧ s.matcher.isBlockKnown q.1 = false
  length : ∀ q ∈ p, q.2 ≠ [] ∧ q.2.length ≤ s.control.blocksize
  agrees : ∀ q ∈ p, s.matcher.sameChecksum (env.hashes.md4 (padTo s.control.blocksize q.2))
    (s.matcher.target q.1).checksum
  nodup : (p.map Prod.fst).Nodup
  known : ∀ id, s'.matcher.isBlockKnown id =
    (s.matcher.isBlockKnown id || decide (id ∈ p.map Prod.fst))
  count : s'.matcher.knownCount = s.matcher.knownCount + p.length
  totalBlocks : s'.matcher.totalBlocks = s.matcher.totalBlocks

/-- An operation to store `data` at `offset` failed, having written some of it. -/
structure StoreFailed (env : Env) (s s' : State) (offset : ℕ) (data : Bytes) : Prop where
  control : s'.control = s.control
  matcher : s'.matcher = s.matcher
  outputPath : s'.outputPath = s.outputPath
  tempPath : s'.tempPath = s.tempPath
  file : s.file = true → s'.file = true
  present : (s'.file = true → s.file = true ∨ (s'.fs s'.tempPath).isSome) ∧
    ((s.fs s.tempPath).isSome → (s'.fs s'.tempPath).isSome)
  temp : ∃ n, s'.temp = writeAt s.temp offset (data.take n)
  others : ∀ path ≠ s.tempPath, s'.fs path = s.fs path
  trace : ∃ op kind es, s'.trace = .disk op (some kind) :: es ++ s.trace ∧ op.stores ∧
    ∀ e ∈ es, e.neutral
  error : ∃ n op, (env.disk n op).error ≠ none

/-- What every state of an assembly of `cf` satisfies. -/
structure Base (env : Env) (cf : ControlFile) (s : State) : Prop where
  control : s.control = cf
  matcher : ∃ ids, BlockMatcher.Reachable env.hashes cf s.matcher ids
  tempPath : s.tempPath = s.outputPath ++ ".zsync-tmp"
  file : s.file = true → (s.fs s.tempPath).isSome

/-- An invariant of the assembly of `cf`, which may speak of the blocks that are claimed and not yet
written.  It need only be kept by claims of the kind `C`. -/
structure Keeps (env : Env) (cf : ControlFile) (C : ℕ × Bytes → Prop)
    (I : List (ℕ × Bytes) → State → Prop) : Prop where
  quiet : ∀ {p s s'}, Quiet s s' → I p s → I p s'
  claimed : ∀ {s s' p}, Base env cf s → Claimed env s s' p → (∀ q ∈ p, C q) → I [] s → I p s'
  wrote : ∀ {id data p s}, Base env cf s → (s.fs s.tempPath).isSome → I ((id, data) :: p) s →
    I p (s.wrote (id * cf.blocksize) data)
  failed : ∀ {id data p s s'}, Base env cf s → StoreFailed env s s' (id * cf.blocksize) data →
    I ((id, data) :: p) s → I [] s'

namespace Quiet

theorem refl (s : State) : Quiet s s :=
  ⟨rfl, rfl, rfl, rfl, id, Or.inl, rfl, id, fun _ _ => rfl, [], rfl, by simp⟩

theorem trans {s₁ s₂ s₃ : State} (h : Quiet s₁ s₂) (h' : Quiet s₂ s₃) : Quiet s₁ s₃ := by
  obtain ⟨es, htrace, hes⟩ := h.trace
  obtain ⟨es', htrace', hes'⟩ := h'.trace
  refine ⟨h'.control.trans h.control, h'.matcher.trans h.matcher, h'.outputPath.trans h.outputPath,
    h'.tempPath.trans h.tempPath, h'.file ∘ h.file, fun hf => ?_, h'.temp.trans h.temp,
    h'.present ∘ h.present, fun path hp => ?_, es' ++ es, ?_, ?_⟩
  · rcases h'.opened hf with hf | hf
    · exact (h.opened hf).imp id h'.present
    · exact Or.inr hf
  · exact (h'.others path (h.tempPath ▸ hp)).trans (h.others path hp)
  · rw [htrace', htrace, List.append_assoc]
  · intro e he
    rcases List.mem_append.1 he with he | he
    · exact hes' e he
    · exact hes e he

theorem base (h : Quiet s s') (hs : Base env cf s) : Base env cf s' := by
  refine ⟨h.control.trans hs.control, h.matcher ▸ hs.matcher, ?_, fun hf => ?_⟩
  · rw [h.tempPath, h.outputPath, hs.tempPath]
  · exact (h.opened hf).elim (fun hf => h.present (hs.file hf)) id

theorem of_eq (hcontrol : s'.control = s.control) (hmatcher : s'.matcher = s.matcher)
    (hout : s'.outputPath = s.outputPath) (htemp : s'.tempPath = s.tempPath)
    (hfile : s'.file = s.file) (hfs : s'.fs = s.fs)
    (htrace : ∃ es, s'.trace = es ++ s.trace ∧ ∀ e ∈ es, e.neutral) : Quiet s s' := by
  refine ⟨hcontrol, hmatcher, hout, htemp, fun h => hfile ▸ h, fun h => Or.inl (hfile ▸ h), ?_, ?_,
    fun path _ => congrFun hfs path, htrace⟩
  · simp only [State.temp, hfs, htemp]
  · simp only [hfs, htemp, imp_self]

end Quiet

/-! ### The operations -/

section Operations

variable {P : State → Prop} {α : Type}

theorem quiet_attempt {op : DiskOp} (h : (env.disk s.clock op).error = none ∨ op.stores = false) :
    Quiet s (attempt env op s).2 := by
  refine Quiet.of_eq rfl rfl rfl rfl rfl rfl ⟨[.disk op (env.disk s.clock op).error], rfl, ?_⟩
  rcases h with h | h <;> simp [Event.neutral, h]

theorem io_run (op : DiskOp) (s : State) : io env op s =
    ((match (env.disk s.clock op).error with
      | none => .ok (env.disk s.clock op).count
      | some kind => .error (.io kind)), (attempt env op s).2) := by
  rw [io, Prog.bind_run]
  simp only [attempt, Prog.next]
  cases (env.disk s.clock op).error <;> rfl

theorem triple_io (hP : ∀ s s', Quiet s s' → P s → P s') {op : DiskOp} (hop : op.stores = false) :
    Prog.Triple P (io env op) (fun _ => P) (fun _ => P) := by
  intro s hs
  have hq : P (attempt env op s).2 := hP s _ (quiet_attempt (Or.inr hop)) hs
  rw [io_run]
  cases (env.disk s.clock op).error <;> exact hq

/-- An operation to store a block either goes well or fails. -/
theorem triple_io_stores (hP : ∀ s s', Quiet s s' → P s → P s') {op : DiskOp} (hop : op.stores)
    (offset : ℕ) (data : Bytes) :
    Prog.Triple P (io env op) (fun _ => P)
      (fun _ s' => ∃ s, P s ∧ StoreFailed env s s' offset data) := by
  intro s hs
  rw [io_run]
  cases herr : (env.disk s.clock op).error with
  | none => exact hP s _ (quiet_attempt (Or.inl herr)) hs
  | some kind =>
    refine ⟨s, hs, rfl, rfl, rfl, rfl, id, ⟨Or.inl, id⟩, ⟨0, by simp [writeAt]; rfl⟩,
      fun _ _ => rfl, ⟨op, kind, [], ?_, hop, by simp⟩, s.clock, op, by simp [herr]⟩
    simp [attempt, herr]

theorem triple_readAtOffset (hP : ∀ s s', Quiet s s' → P s → P s') (offset len : ℕ) :
    Prog.Triple P (readAtOffset env offset len) (fun _ => P) (fun _ => P) := by
  refine Prog.Triple.bind (triple_io hP rfl) fun _ =>
    Prog.Triple.bind (triple_io hP rfl) fun _ => ?_
  refine Prog.Triple.read fun s₀ hs₀ => Prog.Triple.pure ?_
  rintro s rfl
  exact hs₀

theorem triple_seed_readAtOffset (hP : ∀ s s', Quiet s s' → P s → P s') (seed : Seed)
    (offset len : ℕ) :
    Prog.Triple P (seed.readAtOffset offset len) (fun _ => P) (fun _ => P) := by
  intro s hs
  have hq := hP s { s with clock := s.clock + 1 }
    (Quiet.of_eq rfl rfl rfl rfl rfl rfl ⟨[], rfl, by simp⟩) hs
  unfold Seed.readAtOffset
  cases seed.read s.clock offset len <;> exact hq

theorem triple_checkAborted (hP : ∀ s s', Quiet s s' → P s → P s') :
    Prog.Triple P (checkAborted env) (fun _ => P) (fun _ => P) := by
  refine Prog.Triple.read fun s₀ hs₀ => ?_
  refine Prog.Triple.bind (Prog.Triple.modify (Q := fun _ => P) ?_) fun _ => ?_
  · rintro s rfl
    exact hP s _ (Quiet.of_eq rfl rfl rfl rfl rfl rfl ⟨[], rfl, by simp⟩) hs₀
  · exact Prog.Triple.ite (fun _ => Prog.Triple.throw fun _ => id) fun _ =>
      Prog.Triple.pure fun _ => id

theorem triple_note (hP : ∀ s s', Quiet s s' → P s → P s') {f : State → Event}
    (hf : ∀ s, (f s).neutral) {E : AssemblyError → State → Prop} :
    Prog.Triple P (Prog.modify fun s => s.note (f s)) (fun _ => P) E :=
  Prog.Triple.modify fun s hs => hP s _
    (Quiet.of_eq rfl rfl rfl rfl rfl rfl ⟨[f s], rfl, by simpa using hf s⟩) hs

/-! ### Storing -/

theorem temp_mapTemp {file : File} (h : s.fs s.tempPath = some file) (f : File → File) :
    (s.mapTemp f).temp = (f file).data := by
  simp [State.temp, State.mapTemp, h]

theorem temp_eq {file : File} (h : s.fs s.tempPath = some file) : s.temp = file.data := by
  simp [State.temp, h]

theorem isSome_mapTemp (h : (s.fs s.tempPath).isSome) (f : File → File) :
    ((s.mapTemp f).fs (s.mapTemp f).tempPath).isSome := by
  simpa [State.mapTemp] using h

theorem temp_wrote (h : (s.fs s.tempPath).isSome) (offset : ℕ) (data : Bytes) :
    (s.wrote offset data).temp = writeAt s.temp offset data := by
  obtain ⟨file, hfile⟩ := Option.isSome_iff_exists.1 h
  rw [temp_eq hfile]
  exact temp_mapTemp hfile fun file => { file with data := writeAt file.data offset data }

theorem others_mapTemp (f : File → File) {path : String} (h : path ≠ s.tempPath) :
    (s.mapTemp f).fs path = s.fs path := by
  simp [State.mapTemp, h]

theorem Base.wrote (hs : Base env cf s) (h : (s.fs s.tempPath).isSome) (offset : ℕ) (data : Bytes) :
    Base env cf (s.wrote offset data) :=
  ⟨hs.control, hs.matcher, hs.tempPath,
    fun _ => isSome_mapTemp h fun file => { file with data := writeAt file.data offset data }⟩

theorem StoreFailed.base {offset : ℕ} {data : Bytes} (h : StoreFailed env s s' offset data)
    (hs : Base env cf s) : Base env cf s' := by
  refine ⟨h.control.trans hs.control, h.matcher ▸ hs.matcher, ?_, fun hf => ?_⟩
  · rw [h.tempPath, h.outputPath, hs.tempPath]
  · exact (h.present.1 hf).elim (fun hf => h.present.2 (hs.file hf)) id

theorem triple_ensureFile (hP : ∀ s s', Quiet s s' → P s → P s')
    (hfile : ∀ s, P s → s.file = true → (s.fs s.tempPath).isSome) (offset : ℕ) (data : Bytes) :
    Prog.Triple P (ensureFile env) (fun _ s => P s ∧ (s.fs s.tempPath).isSome)
      (fun _ s' => ∃ s, P s ∧ StoreFailed env s s' offset data) := by
  refine Prog.Triple.read fun s₀ hs₀ => Prog.Triple.ite (fun hopen => Prog.Triple.pure ?_)
    fun _ => ?_
  · rintro s rfl
    exact ⟨hs₀, hfile s hs₀ hopen⟩
  · refine Prog.Triple.bind ((triple_io_stores hP rfl offset data).conseq ?_ (fun _ _ => id)
      fun _ _ => id) fun _ => Prog.Triple.modify fun s hs => ?_
    · rintro s rfl
      exact hs₀
    · refine ⟨hP s _ ⟨rfl, rfl, rfl, rfl, fun _ => rfl, fun _ => Or.inr ?_, ?_, fun _ => ?_,
        fun path hp => ?_, [], rfl, by simp⟩ hs, ?_⟩
      · simp
      · cases h : s.fs s.tempPath <;> simp [State.temp, h]
      · simp
      · simp [hp]
      · simp

theorem triple_writeAtOffset (hP : ∀ s s', Quiet s s' → P s → P s') (data : Bytes) (offset : ℕ) :
    Prog.Triple (fun s => P s ∧ (s.fs s.tempPath).isSome) (writeAtOffset env data offset)
      (fun _ s' => ∃ s, P s ∧ (s.fs s.tempPath).isSome ∧ s' = s.wrote offset data)
      (fun _ s' => ∃ s, P s ∧ StoreFailed env s s' offset data) := by
  have hstable : ∀ s s', Quiet s s' → P s ∧ (s.fs s.tempPath).isSome →
      P s' ∧ (s'.fs s'.tempPath).isSome := fun s s' hq h => ⟨hP s s' hq h.1, hq.present h.2⟩
  refine Prog.Triple.bind ((triple_io_stores hstable rfl offset data).conseq (fun _ => id)
    (fun _ _ => id) ?_) fun _ => ?_
  · rintro _ s' ⟨s, hs, hfail⟩
    exact ⟨s, hs.1, hfail⟩
  intro s hs
  rw [Prog.bind_run]
  have hrun : attempt env .writeTemp s =
    (.ok (env.disk s.clock .writeTemp), (attempt env .writeTemp s).2) := rfl
  rw [hrun]
  simp only [Prog.next]
  cases herr : (env.disk s.clock .writeTemp).error with
  | none =>
    have hq : P (attempt env .writeTemp s).2 ∧ _ := hstable s _ (quiet_attempt (Or.inl herr)) hs
    exact ⟨_, hq.1, hq.2, rfl⟩
  | some kind =>
    obtain ⟨file, hfile⟩ := Option.isSome_iff_exists.1 hs.2
    refine ⟨s, hs.1, rfl, rfl, rfl, rfl, id, ⟨Or.inl, fun h => ?_⟩,
      ⟨(env.disk s.clock .writeTemp).count, ?_⟩, fun path hp => ?_,
      ⟨.writeTemp, kind, [], ?_, rfl, by simp⟩, _, _, by rw [herr]; simp⟩
    · exact isSome_mapTemp (s := (attempt env .writeTemp s).2) h _
    · rw [temp_eq hfile]
      exact temp_mapTemp (s := (attempt env .writeTemp s).2) hfile _
    · exact others_mapTemp (s := (attempt env .writeTemp s).2) _ hp
    · change (attempt env .writeTemp s).2.trace = _
      simp [attempt, herr]

end Operations

/-! ### The rule -/

section Rule

variable {C : ℕ × Bytes → Prop} {I : List (ℕ × Bytes) → State → Prop}

/-- The blocks `p` are claimed and not yet written, and the file is open unless it will be
opened. -/
def Keeps.At (env : Env) (cf : ControlFile) (I : List (ℕ × Bytes) → State → Prop) (create : Bool)
    (p : List (ℕ × Bytes)) (s : State) : Prop :=
  I p s ∧ Base env cf s ∧ (create = true ∨ s.file = true)

/-- No block is claimed and not yet written. -/
def Keeps.Idle (env : Env) (cf : ControlFile) (I : List (ℕ × Bytes) → State → Prop) (s : State) :
    Prop := I [] s ∧ Base env cf s

theorem Keeps.at_quiet (hI : Keeps env cf C I) {create : Bool} {p : List (ℕ × Bytes)} (s s' : State)
    (hq : Quiet s s') (h : At env cf I create p s) : At env cf I create p s' :=
  ⟨hI.quiet hq h.1, hq.base h.2.1, h.2.2.imp id hq.file⟩

theorem Keeps.idle_quiet (hI : Keeps env cf C I) (s s' : State) (hq : Quiet s s')
    (h : Idle env cf I s) : Idle env cf I s' := ⟨hI.quiet hq h.1, hq.base h.2⟩

theorem Keeps.idle_of_failed (hI : Keeps env cf C I) {create : Bool} {id : ℕ} {data : Bytes}
    {p : List (ℕ × Bytes)} (h : At env cf I create ((id, data) :: p) s)
    (hf : StoreFailed env s s' (id * cf.blocksize) data) : Idle env cf I s' :=
  ⟨hI.failed h.2.1 hf h.1, hf.base h.2.1⟩

theorem Keeps.openTemp (hI : Keeps env cf C I) (create : Bool) (id : ℕ) (data : Bytes)
    (p : List (ℕ × Bytes)) :
    Prog.Triple (At env cf I create ((id, data) :: p)) (openTemp env create)
      (fun _ s => At env cf I create ((id, data) :: p) s ∧ (s.fs s.tempPath).isSome)
      (fun _ => Idle env cf I) := by
  refine Prog.Triple.ite (fun _ => ?_) fun hcreate => Prog.Triple.pure fun s hs => ?_
  · refine (triple_ensureFile hI.at_quiet (fun s hs => hs.2.1.file) (id * cf.blocksize) data).conseq
      (fun _ h => h) (fun _ _ h => h) ?_
    rintro _ s' ⟨s, hs, hf⟩
    exact hI.idle_of_failed hs hf
  · exact ⟨hs, hs.2.1.file (hs.2.2.resolve_left hcreate)⟩

theorem Keeps.writeBlock (hI : Keeps env cf C I) (create : Bool) (id : ℕ) (data : Bytes)
    (p : List (ℕ × Bytes)) :
    Prog.Triple (fun s => At env cf I create ((id, data) :: p) s ∧ (s.fs s.tempPath).isSome)
      (writeAtOffset env data (id * cf.blocksize)) (fun _ => At env cf I create p)
      (fun _ => Idle env cf I) := by
  refine (triple_writeAtOffset hI.at_quiet data (id * cf.blocksize)).conseq (fun _ h => h) ?_ ?_
  · rintro _ _ ⟨s, hs, hsome, rfl⟩
    exact ⟨hI.wrote hs.2.1 hsome hs.1, hs.2.1.wrote hsome _ _, hs.2.2⟩
  · rintro _ s' ⟨s, hs, hf⟩
    exact hI.idle_of_failed hs hf

theorem Keeps.storeMatches (hI : Keeps env cf C I) (create : Bool) (buf : Bytes) (overlapStart : ℕ)
    (matched : List (ℕ × ℕ)) :
    Prog.Triple
      (At env cf I create (matched.map fun q => (q.1, slice buf (q.2 - overlapStart) cf.blocksize)))
      (storeMatches env create buf overlapStart matched) (fun _ => At env cf I create [])
      (fun _ => Idle env cf I) := by
  refine Prog.Triple.read fun s₀ hs₀ => ?_
  rw [hs₀.2.1.control]
  refine (Prog.Triple.forM (I := fun l => At env cf I create (l.map fun q =>
    (q.1, slice buf (q.2 - overlapStart) cf.blocksize))) (fun q l => ?_) matched).conseq
    (fun s hs => hs ▸ hs₀) (fun _ _ h => h) fun _ _ h => h
  exact Prog.Triple.bind (hI.openTemp create q.1 _ _) fun _ => hI.writeBlock create q.1 _ _

/-! ### Scans -/

theorem Base.sized (h : Base env cf s) (hcf : cf.Checked) : s.matcher.Sized :=
  h.matcher.elim fun _ hm => hm.sized hcf

theorem Base.counted (h : Base env cf s) (hcf : cf.Checked) : s.matcher.Counted :=
  h.matcher.elim fun _ hm => hm.counted hcf

theorem Base.shape (h : Base env cf s) (hcf : cf.Checked) :
    s.matcher.shape = (BlockMatcher.unindexed cf).shape :=
  h.matcher.elim fun _ hm => (hm.indexed hcf).2

theorem Base.blocksize (h : Base env cf s) (hcf : cf.Checked) :
    s.matcher.blocksize = cf.blocksize :=
  BlockMatcher.blocksize_congr (h.shape hcf)

theorem Base.totalBlocks (h : Base env cf s) (hcf : cf.Checked) :
    s.matcher.totalBlocks = cf.blockChecksums.length := BlockMatcher.length_targets (h.shape hcf)

/-- **Scanned data**: the blocks found in it are claimed. -/
theorem claimed_submitChunk (hcf : cf.Checked) (hs : Base env cf s) (data : Bytes) (offset : ℕ) :
    ∃ matched s', submitChunk env data offset s = (.ok matched, s') ∧ Base env cf s' ∧
      s'.file = s.file ∧ (∀ q ∈ matched, q.2 - offset + cf.blocksize ≤ data.length) ∧
      Claimed env s s' (matched.map fun q => (q.1, window data (q.2 - offset) cf.blocksize)) := by
  obtain ⟨ids, hm⟩ := hs.matcher
  have hbs := hs.blocksize hcf
  have hpos := (hs.sized hcf).blocksize_pos
  obtain ⟨hcounted, hcount, hsees, hnodup, hknown⟩ := BlockMatcher.submitSourceData_spec
    (H := env.hashes) (hs.sized hcf) (hm.indexed hcf).1 (hs.counted hcf) env.cores data offset
  have hnext := hm.submitSourceData env.cores data offset
  have hlen : ∀ q ∈ (s.matcher.submitSourceData env.hashes env.cores data offset).2,
      (window data (q.2 - offset) cf.blocksize).length = cf.blocksize := fun q hq =>
    length_window (hbs ▸ (hsees q hq).1.inside)
  refine ⟨_, _, rfl, ⟨hs.control, ⟨_, hnext⟩, hs.tempPath, hs.file⟩, rfl,
    fun q hq => hbs ▸ (hsees q hq).1.inside,
    ⟨rfl, rfl, rfl, rfl, rfl, ?_, ?_, ?_, ?_, ?_, ?_, ?_, ?_⟩⟩
  · -- the windows are whole blocks, which padding leaves alone
    simp only [List.map_map, hs.control]
    congr 2
    refine List.map_congr_left fun q hq => ?_
    simp only [Function.comp_apply, padTo_of_length (hlen q hq), hbs]
  · simp only [List.forall_mem_map]
    exact fun q hq => ⟨(hsees q hq).1.lt, (hsees q hq).2⟩
  · simp only [List.forall_mem_map, hs.control]
    intro q hq
    have := hlen q hq
    exact ⟨List.ne_nil_of_length_pos (by omega), by omega⟩
  · simp only [List.forall_mem_map, hs.control]
    intro q hq
    have hagrees := (hsees q hq).1.agrees
    rw [padTo_of_length (hlen q hq), ← hbs]
    simp only [BlockMatcher.agrees, Bool.and_eq_true] at hagrees
    exact hagrees.2
  · simpa [Function.comp_def] using hnodup
  · intro id
    rw [List.map_map]
    exact hknown id
  · simpa using hcount
  · exact congrArg List.length (BlockMatcher.targets_congr
      ((hnext.indexed hcf).2.trans (hs.shape hcf).symm))

theorem Keeps.submitChunk (hI : Keeps env cf C I) (hcf : cf.Checked)
    (hC : ∀ q : ℕ × Bytes, q.2.length = cf.blocksize → C q) (create : Bool) (buf : Bytes)
    (n offset : ℕ) :
    Prog.Triple (At env cf I create []) (submitChunk env (slice buf 0 n) offset)
      (fun matched => At env cf I create
        (matched.map fun q => (q.1, slice buf (q.2 - offset) cf.blocksize)))
      (fun _ => Idle env cf I) := by
  intro s hs
  obtain ⟨matched, s', hrun, hbase, hfile, hinside, hclaimed⟩ :=
    claimed_submitChunk hcf hs.2.1 (slice buf 0 n) offset
  rw [hrun]
  -- a block found in the data is the same part of the buffer
  have hwindow : matched.map (fun q => (q.1, window (slice buf 0 n) (q.2 - offset) cf.blocksize)) =
      matched.map fun q => (q.1, slice buf (q.2 - offset) cf.blocksize) := by
    refine List.map_congr_left fun q hq => ?_
    have hin := hinside q hq
    rw [← slice_eq_window hin, slice_slice (by simpa using hin), Nat.zero_add]
  rw [hwindow] at hclaimed
  refine ⟨hI.claimed hs.2.1 hclaimed ?_ hs.1, hbase, hs.2.2.imp (fun h => h) hfile.trans⟩
  simp only [List.forall_mem_map]
  exact fun q _ => hC _ (length_slice _ _ _)

/-- How a scan reads its file: quietly. -/
def ReadsQuietly (readAt : ℕ → ℕ → Asm Bytes) : Prop :=
  ∀ (P : State → Prop), (∀ s s', Quiet s s' → P s → P s') → ∀ offset len,
    Prog.Triple P (readAt offset len) (fun _ => P) (fun _ => P)

variable {readAt : ℕ → ℕ → Asm Bytes} {P : State → Prop}

theorem triple_readOverlap (hread : ReadsQuietly readAt) (hP : ∀ s s', Quiet s s' → P s → P s')
    (buf : Bytes) (overlapStart overlapLen : ℕ) :
    Prog.Triple P (readOverlap readAt buf overlapStart overlapLen) (fun _ => P) (fun _ => P) :=
  Prog.Triple.ite
    (fun _ => Prog.Triple.bind (hread P hP _ _) fun _ => Prog.Triple.pure fun _ h => h)
    fun _ => Prog.Triple.pure fun _ h => h

theorem triple_readContext (hread : ReadsQuietly readAt) (hP : ∀ s s', Quiet s s' → P s → P s')
    (fileSize context : ℕ) (buf : Bytes) (dataLen stop : ℕ) :
    Prog.Triple P (readContext readAt fileSize context buf dataLen stop) (fun _ => P)
      (fun _ => P) :=
  Prog.Triple.ite
    (fun _ => Prog.Triple.bind (hread P hP _ _) fun _ => Prog.Triple.pure fun _ h => h)
    fun _ => Prog.Triple.pure fun _ h => h

/-- **One chunk** of a scan keeps the invariant. -/
theorem Keeps.scanRound (hI : Keeps env cf C I) (hcf : cf.Checked)
    (hC : ∀ q : ℕ × Bytes, q.2.length = cf.blocksize → C q) (hread : ReadsQuietly readAt)
    (create : Bool) (fileSize chunkSize context : ℕ) (v : ScanVars) :
    Prog.Triple (At env cf I create []) (scanRound env readAt create fileSize chunkSize context v)
      (fun _ => At env cf I create []) (fun _ => Idle env cf I) := by
  have hidle : ∀ (_ : AssemblyError) (s : State), At env cf I create [] s → Idle env cf I s :=
    fun _ s hs => ⟨hs.1, hs.2.1⟩
  have hq : ∀ s s', Quiet s s' → At env cf I create [] s → At env cf I create [] s' := hI.at_quiet
  refine Prog.Triple.bind ((triple_checkAborted hq).conseq (fun _ h => h) (fun _ _ h => h) hidle)
    fun _ => ?_
  refine Prog.Triple.bind ((triple_readOverlap hread hq _ _ _).conseq (fun _ h => h)
    (fun _ _ h => h) hidle) fun buf => ?_
  refine Prog.Triple.bind ((hread _ hq _ _).conseq (fun _ h => h) (fun _ _ h => h) hidle)
    fun got => ?_
  refine Prog.Triple.ite (fun _ => Prog.Triple.pure fun _ h => h) fun _ => ?_
  refine Prog.Triple.bind ((triple_readContext hread hq _ _ _ _ _).conseq (fun _ h => h)
    (fun _ _ h => h) hidle) fun buf' => ?_
  refine Prog.Triple.bind (hI.submitChunk hcf hC create buf' _ _) fun matched => ?_
  refine Prog.Triple.bind (hI.storeMatches create buf' _ matched) fun _ => ?_
  refine Prog.Triple.bind (triple_note hq fun _ => rfl) fun _ => ?_
  exact Prog.Triple.ite (fun _ => Prog.Triple.pure fun _ h => h) fun _ =>
    Prog.Triple.pure fun _ h => h

/-- **A scan** keeps the invariant. -/
theorem Keeps.scanFile (hI : Keeps env cf C I) (hcf : cf.Checked)
    (hC : ∀ q : ℕ × Bytes, q.2.length = cf.blocksize → C q) (hread : ReadsQuietly readAt)
    (create : Bool) (fileSize rounds : ℕ) :
    Prog.Triple (At env cf I create []) (scanFile env readAt create fileSize rounds)
      (fun _ => Idle env cf I) (fun _ => Idle env cf I) := by
  refine Prog.Triple.read fun s₀ hs₀ => Prog.Triple.ite (fun _ => Prog.Triple.pure ?_) fun _ => ?_
  · rintro s rfl
    exact ⟨hs₀.1, hs₀.2.1⟩
  · refine (Prog.Triple.loop (I := fun _ => At env cf I create [])
      (Q := fun _ => Idle env cf I) (fun v => ?_) (fun _ s hs => ⟨hs.1, hs.2.1⟩) rounds _).conseq
      (fun s hs => hs ▸ hs₀) (fun _ _ h => h) fun _ _ h => h
    refine (hI.scanRound hcf hC hread create _ _ _ v).conseq (fun _ h => h) (fun r s hs => ?_)
      fun _ _ h => h
    cases r with
    | inl _ => exact hs
    | inr _ => exact ⟨hs.1, hs.2.1⟩

/-! ### Downloads -/

/-- **A downloaded block** is claimed exactly when its digest agrees. -/
theorem submitBlock_run (hcf : cf.Checked) (hs : Base env cf s) {id : ℕ} {data : Bytes}
    (hdata : data ≠ [] ∧ data.length ≤ cf.blocksize) (hid : id < s.matcher.totalBlocks)
    (hunknown : s.matcher.isBlockKnown id = false) :
    ∃ s', submitBlock env (padTo cf.blocksize data) id s =
        (.ok (s.matcher.sameChecksum (env.hashes.md4 (padTo cf.blocksize data))
          (s.matcher.target id).checksum), s') ∧ Base env cf s' ∧ s'.file = s.file ∧
      if s.matcher.sameChecksum (env.hashes.md4 (padTo cf.blocksize data))
          (s.matcher.target id).checksum then Claimed env s s' [(id, data)] else s' = s := by
  obtain ⟨ids, hm⟩ := hs.matcher
  have hlen : (padTo cf.blocksize data).length = s.matcher.blocksize := by
    rw [length_padTo, hs.blocksize hcf]
  have hone := BlockMatcher.submitBlocks_one (H := env.hashes) (hs.sized hcf) hlen hid
  have hnext := hm.submitBlocks (padTo cf.blocksize data) id
  by_cases hsame : s.matcher.sameChecksum (env.hashes.md4 (padTo cf.blocksize data))
      (s.matcher.target id).checksum
  · simp only [hsame, if_true] at hone ⊢
    rw [hone] at hnext
    have hlt : id < s.matcher.knownBlocks.length := (hs.counted hcf).length ▸ hid
    have hrun : submitBlock env (padTo cf.blocksize data) id s = (.ok true, { s with
        matcher := s.matcher.markKnown id
        trace := .took id (padTo cf.blocksize data) :: s.trace }) := by
      simp only [submitBlock, hone, if_true]
    refine ⟨_, hrun, ⟨hs.control, ⟨_, hnext⟩, hs.tempPath, hs.file⟩, rfl,
      ⟨rfl, rfl, rfl, rfl, rfl, ?_, ?_, ?_, ?_, ?_, ?_, ?_, ?_⟩⟩
    · simp [hs.control]
    · simpa using ⟨hid, hunknown⟩
    · simpa [hs.control] using hdata
    · simpa [hs.control] using hsame
    · simp
    · intro j
      simp [BlockMatcher.isBlockKnown_markKnown hlt, Bool.or_comm]
    · simpa using BlockMatcher.knownCount_markKnown hunknown
    · simp [BlockMatcher.totalBlocks]
  · simp only [hsame, Bool.false_eq_true, if_false] at hone ⊢
    refine ⟨s, ?_, hs, rfl, rfl⟩
    simp only [submitBlock, hone, Bool.false_eq_true, if_false]

/-- What is done with a block that was found right. -/
def writeClaimed (env : Env) (id : ℕ) (data : Bytes) : Asm ℕ := do
  ensureFile env
  let s ← Prog.read
  writeAtOffset env data (id * s.control.blocksize)
  reportProgress
  pure 1

theorem storeBlock_run {id : ℕ} {padded : Bytes} {ok : Bool}
    (h : submitBlock env padded id s = (.ok ok, s')) (data : Bytes) :
    storeBlock env id padded data s = if ok then writeClaimed env id data s' else (.ok 0, s') := by
  rw [storeBlock, Prog.bind_run, h]
  cases ok <;> rfl

theorem Keeps.writeClaimed (hI : Keeps env cf C I) (id : ℕ) (data : Bytes) (m : BlockMatcher) :
    Prog.Triple (fun s => At env cf I true [(id, data)] s ∧ s.matcher = m)
      (writeClaimed env id data) (fun k s => k = 1 ∧ At env cf I true [] s ∧ s.matcher = m)
      (fun _ s => Idle env cf I s ∧ s.matcher = m) := by
  have hquiet : ∀ p s s', Quiet s s' → At env cf I true p s ∧ s.matcher = m →
      At env cf I true p s' ∧ s'.matcher = m := fun p s s' hq h =>
    ⟨hI.at_quiet s s' hq h.1, hq.matcher.trans h.2⟩
  have hfailed : ∀ (_ : AssemblyError) s', (∃ s, (At env cf I true [(id, data)] s ∧ s.matcher = m) ∧
      StoreFailed env s s' (id * cf.blocksize) data) → Idle env cf I s' ∧ s'.matcher = m := by
    rintro _ s' ⟨s, ⟨hat, hm⟩, hf⟩
    exact ⟨hI.idle_of_failed hat hf, hf.matcher.trans hm⟩
  refine Prog.Triple.bind ((triple_ensureFile (hquiet _) (fun s hs => hs.1.2.1.file)
    (id * cf.blocksize) data).conseq (fun _ h => h) (fun _ _ h => h) hfailed) fun _ =>
      Prog.Triple.read fun s₀ hs₀ => ?_
  rw [hs₀.1.1.2.1.control]
  refine Prog.Triple.bind (Q := fun _ s => At env cf I true [] s ∧ s.matcher = m)
    ((triple_writeAtOffset (hquiet [(id, data)]) data (id * cf.blocksize)).conseq ?_ ?_ hfailed)
    fun _ => ?_
  · rintro s rfl
    exact hs₀
  · rintro _ _ ⟨s, hs, hsome, rfl⟩
    exact ⟨⟨hI.wrote hs.1.2.1 hsome hs.1.1, hs.1.2.1.wrote hsome _ _, hs.1.2.2⟩, hs.2⟩
  · exact Prog.Triple.bind (triple_note (hquiet []) fun _ => rfl) fun _ =>
      Prog.Triple.pure fun s hs => ⟨rfl, hs⟩

theorem Keeps.storeBlock (hI : Keeps env cf C I) (hcf : cf.Checked) {id : ℕ} {data : Bytes}
    (hC : C (id, data)) (hdata : data ≠ [] ∧ data.length ≤ cf.blocksize) :
    Prog.Triple (fun s => Idle env cf I s ∧ id < s.matcher.totalBlocks ∧
        s.matcher.isBlockKnown id = false)
      (storeBlock env id (padTo cf.blocksize data) data) (fun _ => Idle env cf I)
      (fun _ => Idle env cf I) := by
  rintro s ⟨hs, hid, hunknown⟩
  obtain ⟨s', hrun, hbase, hfile, hclaimed⟩ := submitBlock_run hcf hs.2 hdata hid hunknown
  rw [storeBlock_run hrun]
  split_ifs at hclaimed ⊢
  · exact (hI.writeClaimed id data s'.matcher).conseq (fun _ h => h)
      (fun _ _ h => ⟨h.2.1.1, h.2.1.2.1⟩) (fun _ _ h => h.1) s'
      ⟨⟨hI.claimed hs.2 hclaimed (by simpa using hC) hs.1, hbase, Or.inl rfl⟩, rfl⟩
  · exact hclaimed ▸ hs

theorem blockDataEnd_pos_le (hcf : cf.Checked) (totalBlocks id : ℕ) :
    0 < blockDataEnd cf totalBlocks id ∧ blockDataEnd cf totalBlocks id ≤ cf.blocksize := by
  have hpos := hcf.blocksize_pos
  have hmod := Nat.mod_lt cf.length hpos
  unfold blockDataEnd
  split_ifs <;> omega

/-- No whole block of the target is left in the buffer. -/
def Ended (cf : ControlFile) (v : CutVars) : Prop :=
  v.buf.length < cf.blocksize ∨ cf.blockChecksums.length ≤ v.currentBlockId

theorem Keeps.cutRound (hI : Keeps env cf C I) (hcf : cf.Checked) (hC : ∀ q, C q) (v : CutVars) :
    Prog.Triple (Idle env cf I) (cutRound env v)
      (fun r s => Idle env cf I s ∧
        Sum.elim (fun v' => v'.buf.length < v.buf.length) (Ended cf) r)
      (fun _ => Idle env cf I) := by
  refine Prog.Triple.read fun s₀ hs₀ => Prog.Triple.ite (fun hend => Prog.Triple.pure ?_)
    fun hcut => ?_
  · rintro s rfl
    rw [hs₀.2.control, hs₀.2.totalBlocks hcf] at hend
    exact ⟨hs₀, hend⟩
  rw [hs₀.2.control] at hcut ⊢
  simp only [not_or, Nat.not_lt, Nat.not_le] at hcut
  have hbs := (hs₀.2.sized hcf).blocksize_pos
  rw [hs₀.2.blocksize hcf] at hbs
  refine Prog.Triple.bind (Q := fun _ => Idle env cf I) ?_ fun _ => Prog.Triple.pure fun _ hs =>
    ⟨hs, by simp only [Sum.elim_inl, List.length_drop]; omega⟩
  refine Prog.Triple.ite (fun _ => Prog.Triple.pure ?_) fun hunknown => ?_
  · rintro s rfl
    exact hs₀
  · rw [hs₀.2.control]
    obtain ⟨hpos, hle⟩ := blockDataEnd_pos_le hcf s₀.matcher.totalBlocks v.currentBlockId
    refine (hI.storeBlock hcf (hC _) ⟨?_, ?_⟩).conseq ?_ (fun _ _ h => h) fun _ _ h => h
    · rw [ne_eq, List.take_eq_nil_iff, not_or]
      exact ⟨by omega, List.ne_nil_of_length_pos (by omega)⟩
    · exact (List.length_take_le _ _).trans hle
    · rintro s rfl
      exact ⟨hs₀, hcut.2, by simpa using hunknown⟩

theorem Keeps.bodyRound (hI : Keeps env cf C I) (hcf : cf.Checked) (hC : ∀ q, C q)
    {v : HttpRangeReader × CutVars} (hv : Ended cf v.2) :
    Prog.Triple (Idle env cf I) (bodyRound env v)
      (fun r s => Idle env cf I s ∧ Ended cf (Sum.elim Prod.snd (fun c => c) r))
      (fun _ => Idle env cf I) := by
  refine Prog.Triple.bind (triple_checkAborted hI.idle_quiet) fun _ => ?_
  cases v.1.read readBufSize with
  | mk r reader =>
    cases r with
    | error kind => exact Prog.Triple.throw fun _ h => h
    | ok got =>
      refine Prog.Triple.ite (fun _ => Prog.Triple.pure fun _ h => ⟨h, hv⟩) fun _ => ?_
      -- each block cut off makes the buffer shorter
      refine Prog.Triple.bind (Prog.Triple.loop_variant (I := fun _ => Idle env cf I)
        (Q := fun c s => Idle env cf I s ∧ Ended cf c) (fun c => c.buf.length) (fun c => ?_)
        (Nat.lt_succ_self _)) fun _ => Prog.Triple.pure fun _ h => h
      refine (hI.cutRound hcf hC c).conseq (fun _ h => h) (fun r _ h => ?_) fun _ _ h => h
      cases r with
      | inl c' => exact h
      | inr c' => exact h

theorem Keeps.storeTail (hI : Keeps env cf C I) (hcf : cf.Checked) (hC : ∀ q, C q) {v : CutVars}
    (hv : Ended cf v) :
    Prog.Triple (Idle env cf I) (storeTail env v) (fun _ => Idle env cf I)
      (fun _ => Idle env cf I) := by
  refine Prog.Triple.read fun s₀ hs₀ => Prog.Triple.ite (fun htail => ?_)
    fun _ => Prog.Triple.pure ?_
  · obtain ⟨hpos, hlt, hunknown⟩ := htail
    rw [hs₀.2.control]
    have hlen := hv.resolve_right (by rw [← hs₀.2.totalBlocks hcf]; omega)
    refine (hI.storeBlock hcf (hC _) ⟨List.ne_nil_of_length_pos hpos, hlen.le⟩).conseq
      ?_ (fun _ _ h => h) fun _ _ h => h
    rintro s rfl
    exact ⟨hs₀, hlt, by simpa using hunknown⟩
  · rintro s rfl
    exact hs₀

theorem Keeps.fetchRange (hI : Keeps env cf C I) (hcf : cf.Checked) (hC : ∀ q, C q) (url : String)
    (rangeStart rangeEnd : ℕ) :
    Prog.Triple (Idle env cf I) (fetchRange env url rangeStart rangeEnd) (fun _ => Idle env cf I)
      (fun _ => Idle env cf I) := by
  refine Prog.Triple.bind (triple_checkAborted hI.idle_quiet) fun _ => ?_
  refine Prog.Triple.read fun s₀ hs₀ => ?_
  have hbs := (hs₀.2.sized hcf).blocksize_pos
  rw [hs₀.2.blocksize hcf] at hbs
  rw [hs₀.2.control]
  refine Prog.Triple.bind (Prog.Triple.modify (Q := fun _ => Idle env cf I) ?_) fun _ => ?_
  · rintro s rfl
    exact hI.idle_quiet s _ (Quiet.of_eq rfl rfl rfl rfl rfl rfl ⟨[], rfl, by simp⟩) hs₀
  cases (HttpClient.fetchRangeReader env.agent s₀.http url rangeStart rangeEnd).1 with
  | error e => exact Prog.Triple.throw fun _ h => h
  | ok reader =>
    refine Prog.Triple.bind ((Prog.Triple.loop
      (I := fun v s => Idle env cf I s ∧ Ended cf v.2)
      (Q := fun c s => Idle env cf I s ∧ Ended cf c)
      (fun v => ?_) (fun _ _ h => h) _ _).conseq (fun _ h => ⟨h, ?_⟩) (fun _ _ h => h)
      fun _ _ h => h) fun c => ?_
    · intro s hs
      refine (hI.bodyRound hcf hC hs.2).conseq (fun _ h => h) (fun r _ h => ?_)
        (fun _ _ h => h) s hs.1
      cases r with
      | inl v' => exact h
      | inr c => exact h
    · refine Or.inl ?_
      rw [List.length_replicate]
      exact Nat.mod_lt _ hbs
    · intro s hs
      have htail : Prog.Triple (Idle env cf I) (do
          let n ← Zsync.storeTail env c
          pure (c.downloadedBlocks + n)) (fun _ => Idle env cf I) (fun _ => Idle env cf I) :=
        Prog.Triple.bind (hI.storeTail hcf hC hs.2) fun _ => Prog.Triple.pure fun _ h => h
      exact htail s hs.1

theorem Keeps.fetchRanges (hI : Keeps env cf C I) (hcf : cf.Checked) (hC : ∀ q, C q) (url : String)
    (ranges : List (ℕ × ℕ)) :
    Prog.Triple (Idle env cf I) (fetchRanges env url ranges) (fun _ => Idle env cf I)
      (fun _ => Idle env cf I) := by
  induction ranges with
  | nil => exact Prog.Triple.pure fun _ h => h
  | cons r rest ih =>
    exact Prog.Triple.bind (hI.fetchRange hcf hC url r.1 r.2) fun _ => Prog.Triple.bind ih fun _ =>
      Prog.Triple.pure fun _ h => h

/-! ### Calls -/

theorem Keeps.downloadMissingBlocks (hI : Keeps env cf C I) (hcf : cf.Checked) (hC : ∀ q, C q) :
    Prog.Triple (Idle env cf I) (downloadMissingBlocks env) (fun _ => Idle env cf I)
      (fun _ => Idle env cf I) := by
  refine Prog.Triple.read fun s₀ hs₀ => ?_
  have hread : ∀ s, s = s₀ → Idle env cf I s := fun s hs => hs ▸ hs₀
  cases s₀.control.urls with
  | nil => exact Prog.Triple.throw hread
  | cons url rest =>
    refine Prog.Triple.ite (fun _ => Prog.Triple.pure hread) fun _ => ?_
    exact (hI.fetchRanges hcf hC _ _).conseq hread (fun _ _ h => h) fun _ _ h => h

theorem Keeps.submitSourceFile (hI : Keeps env cf C I) (hcf : cf.Checked)
    (hC : ∀ q : ℕ × Bytes, q.2.length = cf.blocksize → C q) (seed : Seed) :
    Prog.Triple (Idle env cf I) (submitSourceFile env seed) (fun _ => Idle env cf I)
      (fun _ => Idle env cf I) := by
  refine Prog.Triple.bind (Prog.Triple.ofExcept (Q := fun _ => Idle env cf I)
    (fun _ _ _ h => h) fun _ _ _ h => h) fun fileSize => ?_
  refine (hI.scanFile hcf hC (fun P hP => triple_seed_readAtOffset hP seed) true _ _).conseq
    (fun s hs => ⟨hs.1, hs.2, Or.inl rfl⟩) (fun _ _ h => h) fun _ _ h => h

theorem Keeps.submitSelfReferential (hI : Keeps env cf C I) (hcf : cf.Checked)
    (hC : ∀ q : ℕ × Bytes, q.2.length = cf.blocksize → C q) :
    Prog.Triple (Idle env cf I) (submitSelfReferential env) (fun _ => Idle env cf I)
      (fun _ => Idle env cf I) := by
  refine Prog.Triple.read fun s₀ hs₀ => Prog.Triple.ite (fun _ => Prog.Triple.pure ?_)
    fun hopen => ?_
  · rintro s rfl
    exact hs₀
  have hidle : ∀ (_ : AssemblyError) (s : State), At env cf I false [] s → Idle env cf I s :=
    fun _ s hs => ⟨hs.1, hs.2.1⟩
  have hq : ∀ s s', Quiet s s' → At env cf I false [] s → At env cf I false [] s' := hI.at_quiet
  refine Prog.Triple.bind ((triple_io hq rfl).conseq ?_ (fun _ _ h => h) hidle) fun _ => ?_
  · rintro s rfl
    exact ⟨hs₀.1, hs₀.2, Or.inr (by simpa using hopen)⟩
  refine Prog.Triple.bind ((triple_io hI.at_quiet rfl).conseq (fun _ h => h) (fun _ _ h => h) hidle)
    fun _ => ?_
  exact hI.scanFile hcf hC (fun P hP => triple_readAtOffset hP) false _ _

/-- **Every call** keeps the invariant, whether it succeeds or fails. -/
theorem Keeps.call (hI : Keeps env cf C I) (hcf : cf.Checked) (hC : ∀ q, C q) (call : Call) :
    Prog.Triple (Idle env cf I) (call.exec env) (fun _ => Idle env cf I)
      (fun _ => Idle env cf I) := by
  cases call with
  | submitSourceFile seed => exact hI.submitSourceFile hcf (fun q _ => hC q) seed
  | submitSelfReferential => exact hI.submitSelfReferential hcf fun q _ => hC q
  | downloadMissingBlocks => exact hI.downloadMissingBlocks hcf hC
  | setRangeGapThreshold threshold =>
    refine Prog.Triple.bind (Prog.Triple.modify (Q := fun _ => Idle env cf I) fun s hs => ?_)
      fun _ => Prog.Triple.pure fun _ h => h
    exact hI.idle_quiet s _ (Quiet.of_eq rfl rfl rfl rfl rfl rfl ⟨[], rfl, by simp⟩) hs

/-- **Every run of calls** keeps the invariant. -/
theorem Keeps.runCalls (hI : Keeps env cf C I) (hcf : cf.Checked) (hC : ∀ q, C q)
    (calls : List Call) (h : Idle env cf I s) : Idle env cf I (runCalls env calls s) := by
  induction calls generalizing s with
  | nil => exact h
  | cons call calls ih => exact ih ((hI.call hcf hC call).state h)

end Rule

theorem base_start (cf : ControlFile) (outputPath : String) (baseUrl : Option String)
    (http : HttpClient) (fs : String → Option File) :
    Base env cf (State.start (ZsyncAssembly.withClient cf outputPath baseUrl http) fs) :=
  ⟨rfl, ⟨_, BlockMatcher.Reachable.new⟩, rfl, fun h => nomatch h⟩

/-! ### A target of one block -/

/-- The digests of a target of two bytes, which is one block. -/
def tinyHashes : Hashes where
  md4 _ := ⟨[0x1c, 0x1d, 0x82, 0x8e, 0x14, 0x02, 0xe7, 0x7f,
    0x19, 0x7c, 0x26, 0xa1, 0x10, 0x6b, 0x7d, 0x9a], rfl⟩
  sha1 _ := ⟨[0x0e, 0x35, 0x6b, 0xa5, 0x05, 0x63, 0x1f, 0xbf, 0x71, 0x57,
    0x58, 0xbe, 0xd2, 0x7d, 0x50, 0x3f, 0x8b, 0x26, 0x0e, 0x3a], rfl⟩

/-- The control file of the target `[1, 0]`, in one block. -/
def tinyControl (sha1 : Option String) : ControlFile where
  version := "0.6.2"
  filename := none
  mtime := none
  blocksize := 2
  length := 2
  hashLengths := ⟨1, 4, 16⟩
  urls := ["u"]
  sha1 := sha1
  blockChecksums := [⟨calcRsumBlock [1, 0], tinyHashes.md4 [1, 0]⟩]

theorem checked_tinyControl (sha1 : Option String) : (tinyControl sha1).Checked := by
  have h : (tinyControl none).Checked := ⟨⟨1, rfl⟩, by decide,
    ⟨by decide, by decide, by decide, by decide, by decide, by decide⟩, rfl, by decide⟩
  exact ⟨h.blocksize, h.blocksize_le, h.hashLengths, h.count, h.count_le⟩

/-- A server that has `body`, and a disk where only the operation `fails` fails. -/
def tinyEnv (body : Bytes) (fails : Option DiskOp) : Env where
  hashes := tinyHashes
  disk _ op := ⟨if fails = some op then some .other else none, 0⟩
  agent := ⟨fun _ url start stop => .ok ⟨206, url, ⟨fun _ consumed len =>
    .ok (window (window body start (stop - start + 1)) consumed len)⟩⟩⟩
  abort _ := false
  cores := 1

/-- The file system with nothing but `stale` at the temporary path. -/
def tinyFs (stale : Option File) (path : String) : Option File :=
  if path = "o.zsync-tmp" then stale else none

/-- The assembly of this target. -/
abbrev tinyStart (sha1 : Option String) (stale : Option File) : State :=
  State.start (ZsyncAssembly.withClient (tinyControl sha1) "o" none ⟨none, 0⟩) (tinyFs stale)

end Zsync
