import Zsync.Assembly.Complete
import Zsync.Assembly.Rules

/-!
# Runs in step

Relations between states that no operation of an assembly can tell apart.

* `Respects` : related states are the same to the next operation, and are related after it;
* `InStep` : two runs of a program from related states end alike;
* `Respects.call`, `Respects.finish` : every call, and the end of an assembly.
-/

namespace Zsync

/-- States related by `L` have the same assembly, the same files at its two paths and the same
outcome of the next operation, and what an operation does to both leaves them related. -/
structure Respects (env : Env) (L : State → State → Prop) : Prop where
  assembly : ∀ {s t}, L s t → t.toZsyncAssembly = s.toZsyncAssembly
  temp : ∀ {s t}, L s t → t.fs t.tempPath = s.fs s.tempPath
  output : ∀ {s t}, L s t → t.fs t.outputPath = s.fs s.outputPath
  disk : ∀ {s t}, L s t → ∀ op, env.disk t.clock op = env.disk s.clock op
  abort : ∀ {s t}, L s t → env.abort t.clock = env.abort s.clock
  tick : ∀ {s t}, L s t → L { s with clock := s.clock + 1 } { t with clock := t.clock + 1 }
  record : ∀ {s t}, L s t → ∀ es,
    L { s with trace := es ++ s.trace } { t with trace := es ++ t.trace }
  change : ∀ {s t}, L s t → ∀ a : ZsyncAssembly, a.tempPath = s.tempPath →
    a.outputPath = s.outputPath → L { s with toZsyncAssembly := a } { t with toZsyncAssembly := a }
  write : ∀ {s t}, L s t → ∀ file, L { s with fs := Function.update s.fs s.tempPath file }
    { t with fs := Function.update t.fs t.tempPath file }
  install : ∀ {s t}, L s t → ∀ file, L { s with fs := Function.update s.fs s.outputPath file }
    { t with fs := Function.update t.fs t.outputPath file }

/-- Two runs from related states have the same outcome and end in related states. -/
abbrev InStep (L : State → State → Prop) {α : Type} (x : Asm α) : Prop := Prog.Lockstep L x L L

namespace InStep

variable {L : State → State → Prop} {α : Type}

theorem pure (a : α) : InStep L (Pure.pure a : Asm α) := Prog.Lockstep.pure fun _ _ h => h

theorem throw (e : AssemblyError) : InStep L (Prog.throw e : Asm α) :=
  Prog.Lockstep.throw fun _ _ h => h

end InStep

namespace Respects

variable {env : Env} {L : State → State → Prop} {s t : State} (hL : Respects env L)
include hL

/-! ### Operations -/

theorem temp_eq (h : L s t) : t.temp = s.temp := by rw [State.temp, State.temp, hL.temp h]

theorem note (h : L s t) (e : Event) : L (s.note e) (t.note e) := hL.record h [e]

theorem attempt (op : DiskOp) : InStep L (attempt env op) := by
  intro s t h
  have hdisk := hL.disk h op
  refine ⟨hdisk.symm, ?_⟩
  have hnext := hL.record (hL.tick h) [.disk op (env.disk s.clock op).error]
  simp only [hdisk]
  exact hnext

theorem io (op : DiskOp) : InStep L (io env op) := by
  refine Prog.Lockstep.bind (hL.attempt op) fun r => ?_
  cases r.error with
  | none => exact InStep.pure _
  | some kind => exact InStep.throw _

theorem ensureFile : InStep L (ensureFile env) := by
  refine Prog.Lockstep.read (fun s t h => by rw [hL.assembly h]) fun s t _ => ?_
  refine Prog.Lockstep.ite (InStep.pure ()) (Prog.Lockstep.bind (hL.io _) fun _ =>
    Prog.Lockstep.modify fun s t h => ?_)
  have hopen := hL.change (hL.write h (some ((s.fs s.tempPath).getD ⟨[], newPermissions⟩)))
    { s.toZsyncAssembly with file := true } rfl rfl
  rw [hL.temp h]
  convert hopen using 2
  rw [hL.assembly h]

theorem mapTemp (f : File → File) : InStep L (Prog.modify (State.mapTemp f) : Asm Unit) := by
  refine Prog.Lockstep.modify fun s t h => ?_
  have hwrite := hL.write h ((s.fs s.tempPath).map f)
  rw [State.mapTemp, State.mapTemp, hL.temp h]
  exact hwrite

theorem noteOf {f : State → Event} (hf : ∀ s t, L s t → f t = f s) :
    InStep L (Prog.modify fun s => s.note (f s) : Asm Unit) :=
  Prog.Lockstep.modify fun s t h => hf s t h ▸ hL.note h (f s)

theorem checkAborted : InStep L (checkAborted env) := by
  refine Prog.Lockstep.read (fun s t h => by rw [hL.abort h]) fun s _ _ => ?_
  refine Prog.Lockstep.bind (Prog.Lockstep.modify fun s t h => hL.tick h) fun _ => ?_
  exact Prog.Lockstep.ite (InStep.throw _) (InStep.pure ())

theorem readAtOffset (offset len : ℕ) : InStep L (readAtOffset env offset len) := by
  refine Prog.Lockstep.bind (hL.io _) fun _ => Prog.Lockstep.bind (hL.io _) fun count => ?_
  exact Prog.Lockstep.read (fun s t h => by rw [hL.temp_eq h]) fun s _ _ => InStep.pure _

theorem writeAtOffset (data : Bytes) (offset : ℕ) : InStep L (writeAtOffset env data offset) := by
  refine Prog.Lockstep.bind (hL.io _) fun _ => Prog.Lockstep.bind (hL.attempt _) fun r => ?_
  cases r.error with
  | none =>
    refine Prog.Lockstep.modify fun s t h => ?_
    have hwrite := hL.note (hL.write h ((s.fs s.tempPath).map fun file =>
      { file with data := writeAt file.data offset data })) (.wrote offset data)
    rw [State.wrote, State.wrote, State.mapTemp, State.mapTemp, hL.temp h]
    exact hwrite
  | some kind => exact Prog.Lockstep.bind (hL.mapTemp _) fun _ => InStep.throw _

/-! ### Scans -/

theorem submitChunk (data : Bytes) (offset : ℕ) : InStep L (submitChunk env data offset) := by
  intro s t h
  have ha := hL.assembly h
  have hnext := hL.record (hL.change h { s.toZsyncAssembly with
    matcher := (s.matcher.submitSourceData env.hashes env.cores data offset).1 } rfl rfl)
    ((s.matcher.submitSourceData env.hashes env.cores data offset).2.map fun p =>
      Event.took p.1 (window data (p.2 - offset) s.matcher.blocksize)).reverse
  refine ⟨by rw [ha], ?_⟩
  simp only [ha]
  exact hnext

theorem storeMatches (create : Bool) (buf : Bytes) (overlapStart : ℕ)
    (matchedBlocks : List (ℕ × ℕ)) :
    InStep L (storeMatches env create buf overlapStart matchedBlocks) := by
  refine Prog.Lockstep.read (fun s t h => by rw [hL.assembly h]) fun s _ _ => ?_
  refine Prog.Lockstep.forM (fun p => Prog.Lockstep.bind ?_ fun _ => hL.writeAtOffset _ _) _
  exact Prog.Lockstep.ite hL.ensureFile (InStep.pure ())

theorem scanFile {readAt : ℕ → ℕ → Asm Bytes} (hread : ∀ offset len, InStep L (readAt offset len))
    (create : Bool) (fileSize rounds : ℕ) :
    InStep L (scanFile env readAt create fileSize rounds) := by
  refine Prog.Lockstep.read (fun s t h => by rw [hL.assembly h]) fun s _ _ => ?_
  refine Prog.Lockstep.ite (InStep.pure 0) (Prog.Lockstep.loop (fun v => ?_) _ _)
  -- one chunk
  refine Prog.Lockstep.bind hL.checkAborted fun _ => Prog.Lockstep.bind (M := L) ?_ fun buf => ?_
  · exact Prog.Lockstep.ite (Prog.Lockstep.bind (hread _ _) fun _ => InStep.pure _) (InStep.pure _)
  refine Prog.Lockstep.bind (hread _ _) fun got => ?_
  refine Prog.Lockstep.ite (InStep.pure _) (Prog.Lockstep.bind (M := L) ?_ fun buf => ?_)
  · exact Prog.Lockstep.ite (Prog.Lockstep.bind (hread _ _) fun _ => InStep.pure _) (InStep.pure _)
  refine Prog.Lockstep.bind (hL.submitChunk _ _) fun matchedBlocks => ?_
  refine Prog.Lockstep.bind (hL.storeMatches _ _ _ _) fun _ => ?_
  refine Prog.Lockstep.bind (hL.noteOf fun _ _ _ => rfl) fun _ => ?_
  exact Prog.Lockstep.ite (InStep.pure _) (InStep.pure _)

theorem submitSourceFile {seed : Seed}
    (hseed : ∀ s t, L s t → seed.read t.clock = seed.read s.clock) :
    InStep L (submitSourceFile env seed) := by
  refine Prog.Lockstep.bind (Prog.Lockstep.ofExcept (fun _ _ h => h) fun _ _ h => h)
    fun fileSize => hL.scanFile (fun offset len s t h => ?_) _ _ _
  unfold Seed.readAtOffset
  rw [hseed s t h]
  have hnext := hL.tick h
  cases seed.read s.clock offset len <;> exact ⟨rfl, hnext⟩

theorem submitSelfReferential : InStep L (submitSelfReferential env) := by
  refine Prog.Lockstep.read (fun s t h => by rw [hL.assembly h, hL.temp_eq h]) fun s _ _ => ?_
  refine Prog.Lockstep.ite (InStep.pure 0) ?_
  exact Prog.Lockstep.bind (hL.io _) fun _ => Prog.Lockstep.bind (hL.io _) fun _ =>
    hL.scanFile hL.readAtOffset _ _ _

/-! ### Downloads -/

theorem submitBlock (padded : Bytes) (id : ℕ) : InStep L (submitBlock env padded id) := by
  intro s t h
  have ha := hL.assembly h
  have hchange := hL.change h { s.toZsyncAssembly with
    matcher := (s.matcher.submitBlocks env.hashes padded id).1 } rfl rfl
  refine ⟨by rw [ha], ?_⟩
  simp only [ha]
  cases (s.matcher.submitBlocks env.hashes padded id).2 with
  | false => exact hchange
  | true => exact hL.note hchange (.took id padded)

theorem storeBlock (id : ℕ) (padded blockData : Bytes) :
    InStep L (storeBlock env id padded blockData) := by
  refine Prog.Lockstep.bind (hL.submitBlock _ _) fun ok => ?_
  refine Prog.Lockstep.ite (Prog.Lockstep.bind hL.ensureFile fun _ => ?_) (InStep.pure 0)
  refine Prog.Lockstep.read (fun s t h => by rw [hL.assembly h]) fun s _ _ => ?_
  refine Prog.Lockstep.bind (hL.writeAtOffset _ _) fun _ => ?_
  exact Prog.Lockstep.bind (hL.noteOf fun _ _ h => by rw [hL.assembly h]) fun _ => InStep.pure 1

theorem cutRound (v : CutVars) : InStep L (cutRound env v) := by
  refine Prog.Lockstep.read (fun s t h => by simp only [storeCut, hL.assembly h]) fun s _ _ => ?_
  refine Prog.Lockstep.ite (InStep.pure _) (Prog.Lockstep.bind ?_ fun _ => InStep.pure _)
  exact Prog.Lockstep.ite (InStep.pure _) (hL.storeBlock _ _ _)

theorem bodyRound (v : HttpRangeReader × CutVars) : InStep L (bodyRound env v) := by
  refine Prog.Lockstep.bind hL.checkAborted fun _ => ?_
  cases v.1.read readBufSize with
  | mk r reader =>
    cases r with
    | error kind => exact InStep.throw _
    | ok got =>
      exact Prog.Lockstep.ite (InStep.pure _) (Prog.Lockstep.bind
        (Prog.Lockstep.loop hL.cutRound _ _) fun _ => InStep.pure _)

theorem storeTail (v : CutVars) : InStep L (storeTail env v) := by
  refine Prog.Lockstep.read (fun s t h => by rw [hL.assembly h]) fun s _ _ => ?_
  exact Prog.Lockstep.ite (hL.storeBlock _ _ _) (InStep.pure 0)

theorem fetchRange (url : String) (rangeStart rangeEnd : ℕ) :
    InStep L (fetchRange env url rangeStart rangeEnd) := by
  refine Prog.Lockstep.bind hL.checkAborted fun _ => ?_
  refine Prog.Lockstep.read (fun s t h => by rw [hL.assembly h]) fun s _ _ => ?_
  refine Prog.Lockstep.bind (M := L) (Prog.Lockstep.modify fun s' t' h => ?_) fun _ => ?_
  · have hchange := hL.change h { s'.toZsyncAssembly with
      http := (HttpClient.fetchRangeReader env.agent s.http url rangeStart rangeEnd).2 } rfl rfl
    rw [hL.assembly h]
    exact hchange
  cases (HttpClient.fetchRangeReader env.agent s.http url rangeStart rangeEnd).1 with
  | error e => exact InStep.throw _
  | ok reader =>
    refine Prog.Lockstep.bind (Prog.Lockstep.loop hL.bodyRound _ _) fun v => ?_
    exact Prog.Lockstep.bind (hL.storeTail v) fun _ => InStep.pure _

theorem fetchRanges (url : String) (ranges : List (ℕ × ℕ)) :
    InStep L (fetchRanges env url ranges) := by
  induction ranges with
  | nil => exact InStep.pure 0
  | cons r rest ih =>
    exact Prog.Lockstep.bind (hL.fetchRange url r.1 r.2) fun _ =>
      Prog.Lockstep.bind ih fun _ => InStep.pure _

theorem downloadMissingBlocks : InStep L (downloadMissingBlocks env) := by
  refine Prog.Lockstep.read (fun s t h => by rw [hL.assembly h]) fun s _ _ => ?_
  cases s.control.urls with
  | nil => exact InStep.throw _
  | cons url rest => exact Prog.Lockstep.ite (InStep.pure 0) (hL.fetchRanges _ _)

/-! ### The end -/

theorem checkSha1 (sha1 : Option String) : InStep L (checkSha1 env sha1) := by
  cases sha1 with
  | none => exact InStep.pure ()
  | some expected =>
    refine Prog.Lockstep.bind (hL.io _) fun _ => Prog.Lockstep.bind (hL.io _) fun _ => ?_
    refine Prog.Lockstep.read (fun s t h => by rw [hL.temp_eq h]) fun s _ _ => ?_
    exact Prog.Lockstep.ite (InStep.pure ()) (InStep.throw _)

theorem keepPermissions : InStep L (keepPermissions env) := by
  refine Prog.Lockstep.bind (hL.attempt _) fun r => ?_
  refine Prog.Lockstep.read (fun s t h => by rw [hL.output h]) fun s _ _ => ?_
  cases r.error with
  | some kind => exact InStep.pure ()
  | none =>
    cases s.fs s.outputPath with
    | none => exact InStep.pure ()
    | some existing => exact Prog.Lockstep.bind (hL.io _) fun _ => hL.mapTemp _

theorem prepare : InStep L (prepare env) := by
  refine Prog.Lockstep.read (fun s t h => by rw [hL.assembly h]) fun s _ _ => ?_
  refine Prog.Lockstep.ite (InStep.throw _) (Prog.Lockstep.bind hL.ensureFile fun _ => ?_)
  refine Prog.Lockstep.bind (hL.io _) fun _ => Prog.Lockstep.bind (hL.mapTemp _) fun _ => ?_
  refine Prog.Lockstep.bind (hL.checkSha1 _) fun _ => Prog.Lockstep.bind (hL.io _) fun _ => ?_
  refine Prog.Lockstep.bind (M := L) (Prog.Lockstep.modify fun s t h => ?_) fun _ =>
    hL.keepPermissions
  have hclosed := hL.change h { s.toZsyncAssembly with file := false } rfl rfl
  rw [hL.assembly h]
  exact hclosed

theorem rename : InStep L (rename env) := by
  refine Prog.Lockstep.bind (hL.io _) fun _ => ?_
  refine Prog.Lockstep.read (fun s t h => by rw [hL.temp h]) fun s _ _ => ?_
  cases s.fs s.tempPath with
  | none => exact InStep.throw _
  | some file =>
    exact Prog.Lockstep.modify fun s t h => hL.write (hL.install h (some file)) none

theorem complete : InStep L (complete env) := Prog.Lockstep.bind hL.prepare fun _ => hL.rename

theorem dropAssembly (h : L s t) : L (dropAssembly env s) (dropAssembly env t) := by
  have hnext := hL.record (hL.tick h) [.disk .removeTemp (env.disk s.clock .removeTemp).error]
  have hremoved := hL.write hnext none
  unfold Zsync.dropAssembly
  simp only [hL.disk h]
  split_ifs
  · exact hremoved
  · exact hnext

/-- **The end** of an assembly. -/
theorem finish (h : L s t) :
    (finish env t).1 = (finish env s).1 ∧ L (finish env s).2 (finish env t).2 := by
  have hsame := hL.complete s t h
  exact ⟨hsame.fst.symm, hL.dropAssembly hsame.snd⟩

/-! ### Calls -/

omit hL in
/-- What a call reads of a seed is the same in related states. -/
def ReadsAlike (L : State → State → Prop) : Call → Prop
  | .submitSourceFile seed => ∀ s t, L s t → seed.read t.clock = seed.read s.clock
  | _ => True

/-- **Every call** goes alike from related states. -/
theorem call {call : Call} (hcall : ReadsAlike L call) : InStep L (call.exec env) := by
  cases call with
  | submitSourceFile seed => exact hL.submitSourceFile hcall
  | submitSelfReferential => exact hL.submitSelfReferential
  | downloadMissingBlocks => exact hL.downloadMissingBlocks
  | setRangeGapThreshold threshold =>
    refine Prog.Lockstep.bind (M := L) (Prog.Lockstep.modify fun s t h => ?_) fun _ =>
      InStep.pure 0
    have hset := hL.change h { s.toZsyncAssembly with rangeGapThreshold := threshold } rfl rfl
    rw [hL.assembly h]
    exact hset

end Respects

end Zsync
