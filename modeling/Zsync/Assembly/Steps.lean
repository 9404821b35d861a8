import Zsync.Assembly.Complete

/-!
# Steps of an assembly

What the operations do to the state, as a relation between the states before and after them.

* `Allows` : a relation that files, the clock and the record of disk operations do not matter to;
* `Allows.io`, …, `Allows.storeMatches` : what is done with files keeps to it;
* `Allows.scanFile`, `Allows.downloadMissingBlocks`, `Allows.complete` : so do scans, downloads and
  the end, when the steps do that blocks and reports take part in.
-/

namespace Zsync

/-- A relation that allows every change of files, of the clock and of the record of disk
operations. -/
structure Allows (R : State → State → Prop) : Prop where
  clock : ∀ s clock, R s { s with clock := clock }
  file : ∀ s file, R s { s with file := file }
  fs : ∀ s fs, R s { s with fs := fs }
  disk : ∀ s op error, R s (s.note (.disk op error))
  wrote : ∀ s offset data, R s (s.note (.wrote offset data))

/-- What is done with a response. -/
def readBody (env : Env) (blocksize rangeStart : ℕ) (reader : HttpRangeReader) : Asm ℕ := do
  let v ← Prog.loop (bodyRound env) Prod.snd (reader.remaining + 2)
    (reader, ⟨List.replicate (rangeStart % blocksize) 0, rangeStart / blocksize, 0⟩)
  let n ← storeTail env v
  pure (v.downloadedBlocks + n)

namespace Allows

variable {env : Env} {R E : State → State → Prop} [hRE : Prog.Passes R E] (h : Allows R)

/-! ### Files -/

section Files

include h

theorem attempt (op : DiskOp) : Prog.Steps R E (attempt env op) :=
  fun s => hRE.trans (h.disk s op (env.disk s.clock op).error) (h.clock _ _)

theorem io (op : DiskOp) : Prog.Steps R E (io env op) := by
  refine (h.attempt op).bind fun r => ?_
  cases r.error with
  | none => exact .pure _
  | some kind => exact .throw _

theorem checkAborted : Prog.Steps R E (checkAborted env) :=
  .read fun _ => Prog.Steps.bind (fun _ => h.clock _ _) fun _ => .ite (.throw _) (.pure _)

omit hRE in
theorem mapTemp (f : File → File) :
    Prog.Steps R E (Prog.modify (State.mapTemp f) : Asm Unit) := fun s => h.fs s _

theorem ensureFile : Prog.Steps R E (ensureFile env) := by
  refine .read fun _ => .ite (.pure _) ((h.io _).bind fun _ s => ?_)
  exact hRE.trans (h.fs s (Function.update s.fs s.tempPath
    (some ((s.fs s.tempPath).getD ⟨[], newPermissions⟩)))) (h.file _ true)

theorem readAtOffset (offset len : ℕ) : Prog.Steps R E (readAtOffset env offset len) :=
  (h.io _).bind fun _ => (h.io _).bind fun _ => .read fun _ => .pure _

theorem writeAtOffset (data : Bytes) (offset : ℕ) :
    Prog.Steps R E (writeAtOffset env data offset) := by
  refine (h.io _).bind fun _ => (h.attempt _).bind fun r => ?_
  cases r.error with
  | none => exact fun s => hRE.trans (h.fs s _) (h.wrote _ offset data)
  | some kind => exact (h.mapTemp _).bind fun _ => .throw _

theorem seed_readAtOffset (seed : Seed) (offset len : ℕ) :
    Prog.Steps R E (seed.readAtOffset offset len) := by
  intro s
  unfold Seed.readAtOffset
  cases seed.read s.clock offset len with
  | error kind => exact hRE.fail (h.clock s _)
  | ok bs => exact h.clock s _

theorem storeMatches (create : Bool) (buf : Bytes) (overlapStart : ℕ) (matched : List (ℕ × ℕ)) :
    Prog.Steps R E (storeMatches env create buf overlapStart matched) :=
  .read fun _ => .forM (fun _ => Prog.Steps.bind (.ite h.ensureFile (.pure _)) fun _ =>
    h.writeAtOffset _ _) _

end Files

/-! ### Scans -/

section Scan

variable {readAt : ℕ → ℕ → Asm Bytes} (hread : ∀ offset len, Prog.Steps R E (readAt offset len))
include hread

theorem readOverlap (buf : Bytes) (overlapStart overlapLen : ℕ) :
    Prog.Steps R E (readOverlap readAt buf overlapStart overlapLen) :=
  .ite ((hread _ _).bind fun _ => .pure _) (.pure _)

theorem readContext (fileSize context : ℕ) (buf : Bytes) (dataLen stop : ℕ) :
    Prog.Steps R E (readContext readAt fileSize context buf dataLen stop) :=
  .ite ((hread _ _).bind fun _ => .pure _) (.pure _)

variable (hsubmit : ∀ data offset, Prog.Steps R E (submitChunk env data offset))
  (hscan : ∀ s done total, R s (s.note (.scanProgress done total)))
include h hsubmit hscan

/-- **One chunk.** -/
theorem scanRound (create : Bool) (fileSize chunkSize context : ℕ) (v : ScanVars) :
    Prog.Steps R E (scanRound env readAt create fileSize chunkSize context v) := by
  refine h.checkAborted.bind fun _ => (readOverlap hread _ _ _).bind fun _ => ?_
  refine (hread _ _).bind fun got => .ite (.pure _) ?_
  refine (readContext hread _ _ _ _ _).bind fun _ => (hsubmit _ _).bind fun _ => ?_
  refine (h.storeMatches _ _ _ _).bind fun _ => Prog.Steps.bind (fun s => hscan s _ _) fun _ => ?_
  exact .ite (.pure _) (.pure _)

theorem scanFile (create : Bool) (fileSize rounds : ℕ) :
    Prog.Steps R E (scanFile env readAt create fileSize rounds) :=
  .read fun _ => .ite (.pure _) (.loop (fun v => scanRound h hread hsubmit hscan _ _ _ _ v) _ _)

end Scan

section Scans

variable (hsubmit : ∀ data offset, Prog.Steps R E (submitChunk env data offset))
  (hscan : ∀ s done total, R s (s.note (.scanProgress done total)))
include h hsubmit hscan

theorem submitSourceFile (seed : Seed) : Prog.Steps R E (submitSourceFile env seed) := by
  refine Prog.Steps.bind ?_ fun _ => h.scanFile (h.seed_readAtOffset seed) hsubmit hscan _ _ _
  cases seed.size with
  | error kind => exact .throw _
  | ok size => exact .pure _

theorem submitSelfReferential : Prog.Steps R E (submitSelfReferential env) :=
  .read fun _ => .ite (.pure _) ((h.io _).bind fun _ => (h.io _).bind fun _ =>
    h.scanFile h.readAtOffset hsubmit hscan _ _ _)

end Scans

/-! ### Downloads -/

section Download

variable (hstore : ∀ s id data, id < s.matcher.totalBlocks → s.matcher.isBlockKnown id = false →
    Prog.Post (fun _ t => R s t) (fun _ t => E s t)
      (storeBlock env id (padTo s.control.blocksize data) data s))
include hstore

/-- **One block** cut off the buffer. -/
theorem cutRound (v : CutVars) : Prog.Steps R E (cutRound env v) := by
  intro s
  change Prog.Post _ _ ((if _ then _ else _ : Asm _) s)
  split_ifs with hend
  · exact Prog.Steps.pure _ s
  · refine Prog.Steps.bind_at ?_ fun _ => .pure _
    unfold storeCut
    split_ifs with hknown
    · exact Prog.Steps.pure _ s
    · exact hstore s _ _ (by omega) (by simpa using hknown)

theorem storeTail (v : CutVars) : Prog.Steps R E (storeTail env v) := by
  intro s
  change Prog.Post _ _ ((if _ then _ else _ : Asm _) s)
  split_ifs with htail
  · exact hstore s _ _ htail.2.1 (by simpa using htail.2.2)
  · exact Prog.Steps.pure _ s

include h

/-- **One read** of a response. -/
theorem bodyRound (v : HttpRangeReader × CutVars) : Prog.Steps R E (bodyRound env v) := by
  refine h.checkAborted.bind fun _ => ?_
  split
  · exact .throw _
  · exact .ite (.pure _) ((Prog.Steps.loop (cutRound hstore) _ _).bind fun _ => .pure _)

theorem readBody (blocksize rangeStart : ℕ) (reader : HttpRangeReader) :
    Prog.Steps R E (readBody env blocksize rangeStart reader) :=
  (Prog.Steps.loop (bodyRound h hstore) _ _).bind fun _ => (storeTail hstore _).bind fun _ =>
    .pure _

variable (hhttp : ∀ s http, R s { s with http := http })
include hhttp

theorem fetchRange (url : String) (rangeStart rangeEnd : ℕ) :
    Prog.Steps R E (fetchRange env url rangeStart rangeEnd) := by
  refine h.checkAborted.bind fun _ => .read fun s =>
    Prog.Steps.bind (fun s => hhttp s _) fun _ => ?_
  split
  · exact .throw _
  · exact readBody h hstore _ _ _

theorem fetchRanges (url : String) (ranges : List (ℕ × ℕ)) :
    Prog.Steps R E (fetchRanges env url ranges) := by
  induction ranges with
  | nil => exact .pure _
  | cons r rest ih =>
    exact (fetchRange h hstore hhttp url r.1 r.2).bind fun _ => ih.bind fun _ => .pure _

/-- **A download.** -/
theorem downloadMissingBlocks : Prog.Steps R E (downloadMissingBlocks env) := by
  refine .read fun s => ?_
  split
  · exact .throw _
  · exact .ite (.pure _) (fetchRanges h hstore hhttp _ _)

end Download

/-! ### The end -/

section End

include h

theorem checkSha1 (sha1 : Option String) : Prog.Steps R E (checkSha1 env sha1) := by
  cases sha1 with
  | none => exact .pure _
  | some expected =>
    exact (h.io _).bind fun _ => (h.io _).bind fun _ => .read fun _ => .ite (.pure _) (.throw _)

theorem keepPermissions : Prog.Steps R E (keepPermissions env) := by
  refine (h.attempt _).bind fun r => .read fun s => ?_
  split
  · exact (h.io _).bind fun _ => h.mapTemp _
  · exact .pure _

theorem rename : Prog.Steps R E (rename env) := by
  refine (h.io _).bind fun _ => .read fun s => ?_
  split
  · exact .throw _
  · exact fun s => h.fs s _

/-- **Completing.** -/
theorem complete : Prog.Steps R E (complete env) := by
  refine Prog.Steps.bind (.read fun s => .ite (.throw _) ?_) fun _ => h.rename
  refine h.ensureFile.bind fun _ => (h.io _).bind fun _ => (h.mapTemp _).bind fun _ => ?_
  refine (h.checkSha1 _).bind fun _ => (h.io _).bind fun _ => ?_
  exact Prog.Steps.bind (fun s => h.file s _) fun _ => h.keepPermissions

end End

end Allows

end Zsync
