import Zsync.Assembly.Download
import Zsync.Assembly.Scan

/-!
# Completing an assembly

The end of a transfer, and whole transfers.

* `complete` : verifies the assembled file and moves it to the output path;
* `dropAssembly` : removes the temporary file, as every assembly does at its end;
* `Call`, `runCalls` : the calls on an assembly before its end, in any order and number.
-/

namespace Zsync

/-! ### The end -/

/-- `eq_ignore_ascii_case`. -/
def eqIgnoreAsciiCase (a b : String) : Bool := a.toList.map Char.toLower = b.toList.map Char.toLower

/-- Compares the SHA-1 of the temporary file with the digest of the control file, if it has one. -/
def checkSha1 (env : Env) : Option String → Asm Unit
  | none => pure ()
  | some expected => do
    let _ ← io env .seekToRead
    let _ ← io env .readTemp
    let s ← Prog.read
    let actual := ControlFile.hexEncode (env.hashes.sha1 s.temp).toList
    if eqIgnoreAsciiCase actual expected then pure ()
    else Prog.throw (.checksumMismatch expected actual)

/-- Gives the temporary file the permissions of a file at the output path. -/
def keepPermissions (env : Env) : Asm Unit := do
  let r ← attempt env .statOutput
  let s ← Prog.read
  match r.error, s.fs s.outputPath with
  | none, some existing => do
    let _ ← io env .chmodTemp
    Prog.modify (State.mapTemp fun file => { file with permissions := existing.permissions })
  | _, _ => pure ()

/-- Moves the temporary file to the output path. -/
def rename (env : Env) : Asm Unit := do
  let _ ← io env .renameTemp
  let s ← Prog.read
  match s.fs s.tempPath with
  | none => Prog.throw (.io .other)
  | some file => Prog.modify fun s =>
    { s with fs := Function.update (Function.update s.fs s.outputPath (some file)) s.tempPath none }

/-- The message of an incomplete assembly. -/
def missingMessage (m : BlockMatcher) : String :=
  toString m.blocksTodo ++ " of " ++ toString m.totalBlocks ++ " blocks are still missing"

/-- What `complete` does before it renames. -/
def prepare (env : Env) : Asm Unit := do
  let s ← Prog.read
  if ¬ s.matcher.isComplete then Prog.throw (.control (missingMessage s.matcher))
  else do
    ensureFile env
    let _ ← io env .setLenTemp
    Prog.modify (State.mapTemp fun file => { file with data := padTo s.control.length file.data })
    checkSha1 env s.control.sha1
    let _ ← io env .syncTemp
    Prog.modify fun s => { s with file := false }
    keepPermissions env

/-- Verifies the assembled file and moves it to the output path. -/
def complete (env : Env) : Asm Unit := do
  prepare env
  rename env

/-- Removes the temporary file, if it is there and can be removed. -/
def dropAssembly (env : Env) (s : State) : State :=
  let r := env.disk s.clock .removeTemp
  { s with
    clock := s.clock + 1
    trace := .disk .removeTemp r.error :: s.trace
    fs := if r.error = none then Function.update s.fs s.tempPath none else s.fs }

/-- `complete` consumes the assembly, which is dropped at its end. -/
def finish (env : Env) (s : State) : Except AssemblyError Unit × State :=
  let r := complete env s
  (r.1, dropAssembly env r.2)

/-! ### Runs -/

/-- The calls on an assembly that change it. -/
inductive Call where
  | submitSourceFile (seed : Seed)
  | submitSelfReferential
  | downloadMissingBlocks
  | setRangeGapThreshold (threshold : ℕ)

/-- One call. -/
def Call.exec (env : Env) : Call → Asm ℕ
  | .submitSourceFile seed => Zsync.submitSourceFile env seed
  | .submitSelfReferential => Zsync.submitSelfReferential env
  | .downloadMissingBlocks => Zsync.downloadMissingBlocks env
  | .setRangeGapThreshold threshold => do
    Prog.modify fun s => { s with rangeGapThreshold := threshold }
    pure 0

/-- The state after some calls, whether they succeed or fail. -/
def runCalls (env : Env) (calls : List Call) (s : State) : State :=
  calls.foldl (fun s call => (call.exec env s).2) s

/-- A new assembly with a file system. -/
def State.start (a : ZsyncAssembly) (fs : String → Option File) : State := ⟨a, fs, 0, []⟩

end Zsync
