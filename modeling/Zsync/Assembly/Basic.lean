import Zsync.Control.Basic
import Zsync.Data.Prog
import Zsync.Data.Sparse
import Zsync.Http.Client
import Zsync.Matcher.Scan

/-!
# The assembly and its files

One transfer of a target file: its state, the operations on the temporary file, and the blocks that
go into it.

* `Env` : everything outside the program, which may fail at any operation;
* `State` : the fields of a `ZsyncAssembly` and the file system around it;
* `io`, `readAtOffset`, `writeAtOffset`, `ensureFile` : the operations on the temporary file;
* `submitChunk`, `storeMatches` : the blocks found in data, and their copies;
* `storeBlock` : a downloaded block.

A failed write may leave any part of its data in the file.  The events of a run are recorded in
`State.trace`, newest first; no operation reads them.
-/

namespace Zsync

/-- The operations of the operating system that an assembly makes. -/
inductive DiskOp where
  | openTemp
  /-- The seek before a read, and the seek before a write. -/
  | seekToRead
  | seekToWrite
  | readTemp
  | writeTemp
  | statTemp
  | syncTemp
  | setLenTemp
  | chmodTemp
  | renameTemp
  | removeTemp
  | statOutput
  deriving DecidableEq, Repr

/-- How an operation ends: its error, or how many bytes a read or a failed write got through. -/
structure Outcome where
  error : Option IoErrorKind
  count : ℕ

/-- Everything outside the program. -/
structure Env where
  hashes : Hashes
  /-- How the operation at each instant ends. -/
  disk : ℕ → DiskOp → Outcome
  agent : Agent
  /-- Whether the abort flag is up at each instant. -/
  abort : ℕ → Bool
  /-- `available_parallelism`. -/
  cores : ℕ

/-- A file. -/
structure File where
  data : Bytes
  permissions : ℕ
  deriving DecidableEq

/-- The permissions of a new file. -/
def newPermissions : ℕ := 0o644

/-- What a run leaves behind. -/
inductive Event where
  /-- An operation on the temporary or the output file, and its error. -/
  | disk (op : DiskOp) (error : Option IoErrorKind)
  /-- A block was marked as known because of these bytes. -/
  | took (id : ℕ) (data : Bytes)
  /-- A write of the temporary file was completed. -/
  | wrote (offset : ℕ) (data : Bytes)
  /-- The progress callback ran. -/
  | progress (done total : ℕ)
  /-- The scan progress callback ran. -/
  | scanProgress (done total : ℕ)
  deriving DecidableEq

/-- Why a step of an assembly failed. -/
inductive AssemblyError where
  | io (kind : IoErrorKind)
  | http (e : HttpError)
  | control (message : String)
  | checksumMismatch (expected actual : String)
  | noUrls
  | aborted
  deriving DecidableEq, Repr

/-- Whether retrying the step that failed might succeed. -/
def AssemblyError.isTransient : AssemblyError → Bool
  | .http e => e.isTransient
  | _ => false

/-- One transfer of a target file. -/
structure ZsyncAssembly where
  control : ControlFile
  baseUrl : Option String
  matcher : BlockMatcher
  http : HttpClient
  outputPath : String
  tempPath : String
  /-- Whether the temporary file is open. -/
  file : Bool
  rangeGapThreshold : ℕ

/-- An assembly in its surroundings. -/
structure State extends ZsyncAssembly where
  fs : String → Option File
  clock : ℕ
  trace : List Event

/-- The steps of an assembly. -/
abbrev Asm (α : Type) : Type := Prog State AssemblyError α

/-! ### The temporary file -/

/-- The content of the temporary file. -/
def State.temp (s : State) : Bytes := ((s.fs s.tempPath).map File.data).getD []

/-- Changes the file at the temporary path. -/
def State.mapTemp (f : File → File) (s : State) : State :=
  { s with fs := Function.update s.fs s.tempPath ((s.fs s.tempPath).map f) }

/-- Records an event. -/
def State.note (e : Event) (s : State) : State := { s with trace := e :: s.trace }

/-- The state after a completed write. -/
def State.wrote (offset : ℕ) (data : Bytes) (s : State) : State :=
  (s.mapTemp fun file => { file with data := writeAt file.data offset data }).note
    (.wrote offset data)

/-- An operation that was made and how it ended. -/
def attempt (env : Env) (op : DiskOp) : Asm Outcome := fun s =>
  let r := env.disk s.clock op
  (.ok r, { s with clock := s.clock + 1, trace := .disk op r.error :: s.trace })

/-- An operation whose failure ends the step. -/
def io (env : Env) (op : DiskOp) : Asm ℕ := do
  let r ← attempt env op
  match r.error with
  | none => pure r.count
  | some kind => Prog.throw (.io kind)

/-- Opens the temporary file unless it is open, creating it if it is not there.  Its content is
left as it is. -/
def ensureFile (env : Env) : Asm Unit := do
  let s ← Prog.read
  if s.file then pure ()
  else do
    let _ ← io env .openTemp
    Prog.modify fun s => { s with
      file := true
      fs := Function.update s.fs s.tempPath (some ((s.fs s.tempPath).getD ⟨[], newPermissions⟩)) }

/-- Reads up to `len` bytes of the temporary file. -/
def readAtOffset (env : Env) (offset len : ℕ) : Asm Bytes := do
  let _ ← io env .seekToRead
  let count ← io env .readTemp
  let s ← Prog.read
  pure (window s.temp offset (min len (count + 1)))

/-- Writes `data` into the temporary file.  A write that fails may have written some of it. -/
def writeAtOffset (env : Env) (data : Bytes) (offset : ℕ) : Asm Unit := do
  let _ ← io env .seekToWrite
  let r ← attempt env .writeTemp
  match r.error with
  | none => Prog.modify (State.wrote offset data)
  | some kind => do
    Prog.modify (State.mapTemp fun file =>
      { file with data := writeAt file.data offset (data.take r.count) })
    Prog.throw (.io kind)

/-- Polls the abort flag. -/
def checkAborted (env : Env) : Asm Unit := do
  let s ← Prog.read
  Prog.modify fun s => { s with clock := s.clock + 1 }
  if env.abort s.clock then Prog.throw .aborted else pure ()

/-! ### Progress -/

/-- Bytes of the target known so far, and the target's length. -/
def ZsyncAssembly.progress (a : ZsyncAssembly) : ℕ × ℕ :=
  let blocksDone := a.matcher.totalBlocks - a.matcher.blocksTodo
  (min (blocksDone * a.control.blocksize) a.control.length, a.control.length)

/-- Blocks known so far, and the target's total block count. -/
def ZsyncAssembly.blockStats (a : ZsyncAssembly) : ℕ × ℕ :=
  (a.matcher.totalBlocks - a.matcher.blocksTodo, a.matcher.totalBlocks)

/-- Passes the progress on to the callback. -/
def reportProgress : Asm Unit :=
  Prog.modify fun s => s.note (.progress s.progress.1 s.progress.2)

/-! ### Blocks found and downloaded -/

/-- Scans `data`, which starts at `offset` of its source, and marks the blocks found as known. -/
def submitChunk (env : Env) (data : Bytes) (offset : ℕ) : Asm (List (ℕ × ℕ)) := fun s =>
  let r := s.matcher.submitSourceData env.hashes env.cores data offset
  let took := r.2.map fun p => Event.took p.1 (window data (p.2 - offset) s.matcher.blocksize)
  (.ok r.2, { s with matcher := r.1, trace := took.reverse ++ s.trace })

/-- Opens the temporary file when `create` says so. -/
def openTemp (env : Env) (create : Bool) : Asm Unit := if create then ensureFile env else pure ()

/-- Copies each block found from the buffer into the temporary file. -/
def storeMatches (env : Env) (create : Bool) (buf : Bytes) (overlapStart : ℕ)
    (matchedBlocks : List (ℕ × ℕ)) : Asm Unit := do
  let s ← Prog.read
  matchedBlocks.forM fun p => do
    openTemp env create
    writeAtOffset env (slice buf (p.2 - overlapStart) s.control.blocksize)
      (p.1 * s.control.blocksize)

/-- Checks one padded block, marking it as known when it is right. -/
def submitBlock (env : Env) (padded : Bytes) (id : ℕ) : Asm Bool := fun s =>
  let r := s.matcher.submitBlocks env.hashes padded id
  (.ok r.2, { s with matcher := r.1, trace := if r.2 then .took id padded :: s.trace else s.trace })

/-- Checks a downloaded block and writes the part of it that arrived.  Returns how many blocks were
written. -/
def storeBlock (env : Env) (id : ℕ) (padded blockData : Bytes) : Asm ℕ := do
  let ok ← submitBlock env padded id
  if ok then do
    ensureFile env
    let s ← Prog.read
    writeAtOffset env blockData (id * s.control.blocksize)
    reportProgress
    pure 1
  else pure 0

/-! ### A new assembly -/

/-- An assembly of the target that `control` describes into `outputPath`, with nothing known. -/
def ZsyncAssembly.withClient (control : ControlFile) (outputPath : String) (baseUrl : Option String)
    (http : HttpClient) : ZsyncAssembly where
  control := control
  baseUrl := baseUrl
  matcher := BlockMatcher.new control
  http := http
  outputPath := outputPath
  tempPath := outputPath ++ ".zsync-tmp"
  file := false
  rangeGapThreshold := 16 * 1024

end Zsync
