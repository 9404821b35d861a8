import Zsync.Assembly.Delivery
import Zsync.Assembly.Output
import Zsync.Cli.Report
import Zsync.Cli.Retry

/-!
# The command line tool

One run of the tool: it fetches a control file, scans the files it is given, downloads what is
missing and completes.

* `Cli`, `Host` : the arguments, and everything outside the process;
* `Cli.transfer` : what the process does once it has an assembly; it fails with an exit code;
* `Cli.main` : the whole run, with the files it leaves and what it told its reporter;
* `Cli.downloads_end` : the loop of downloads ends by itself;
* `Cli.main_all_or_nothing` : what is at the output path after each exit code.

What is printed on the standard error is left out.
-/

namespace Zsync

/-! ### Texts of errors -/

/-- The texts of the errors that other crates report. -/
structure Texts where
  io : IoErrorKind → String
  request : RequestError → String

/-- The text of a failed request. -/
def HttpError.display (t : Texts) : HttpError → String
  | .request e => "HTTP error: " ++ t.request e
  | .status code => "HTTP error: server answered with status " ++ toString code
  | .rangeIgnored =>
    "HTTP error: server ignored the Range header, so it cannot serve partial downloads"
  | .io kind => "IO error: " ++ t.io kind

/-- The text of a failed call on the assembly. -/
def AssemblyError.display (t : Texts) : AssemblyError → String
  | .io kind => "IO error: " ++ t.io kind
  | .http e => e.display t
  | .control message => "Control file error: " ++ message
  | .checksumMismatch expected actual =>
    "Checksum mismatch: expected " ++ expected ++ ", got " ++ actual
  | .noUrls => "No URLs available"
  | .aborted => "Aborted"

/-- The text of a control file that is refused. -/
def ParseError.display (t : Texts) : ParseError → String
  | .io kind => "IO error: " ++ t.io kind
  | .invalidHeader line => "Invalid header: " ++ line
  | .missingField name => "Missing required field: " ++ name
  | .invalidBlocksize value => "Invalid blocksize: " ++ value
  | .invalidHashLengths value => "Invalid hash lengths: " ++ value
  | .invalidLength value => "Invalid length: " ++ value
  | .unexpectedEof => "Unexpected end of file"
  | .headerTooLarge cap => "Header section exceeds " ++ toString cap ++ " bytes"

/-- Why a control file could not be fetched. -/
inductive FetchError
  | http (e : HttpError)
  | invalidControl (e : ParseError)

/-- The text of a control file that could not be fetched. -/
def FetchError.display (t : Texts) : FetchError → String
  | http e => e.display t
  | invalidControl e => "invalid control file: " ++ e.display t

/-! ### Arguments -/

/-- The arguments of the tool.  A source file is its path and what is there. -/
structure Cli where
  url : String
  output : Option String
  input : List (String × Seed)
  /-- In KiB. -/
  rangeGap : ℕ
  json : Bool
  retries : UInt32

/-- The output name for `url` when none is given: its last path segment, without any query, fragment
or `.zsync` suffix. -/
def defaultOutput (url : String) : String :=
  let path := url.toList.takeWhile fun c => c ≠ '?' ∧ c ≠ '#'
  let name := path.rtakeWhile (· ≠ '/')
  let name := if ".zsync".toList <:+ name then name.take (name.length - 6) else name
  if name = [] then "output" else String.ofList name

/-- Everything outside the process. -/
structure Host where
  hashes : Hashes
  disk : ℕ → DiskOp → Outcome
  /-- The answers to requests for ranges. -/
  agent : Agent
  cores : ℕ
  /-- What comes of a request for a whole file: no response, or a body, which may fail before all
  that is read of it has come. -/
  get : String → Except AgentError (Except IoErrorKind Bytes)
  /-- Whether the standard error is a terminal. -/
  terminal : Bool
  texts : Texts
  /-- The two clocks that each call on the reporter reads. -/
  now : ℕ → ℕ
  elapsed : ℕ → ℕ

/-- The tool sets no abort flag. -/
def Host.env (host : Host) : Env := ⟨host.hashes, host.disk, host.agent, fun _ => false, host.cores⟩

/-- Fetches and parses the control file at `url`. -/
def fetchControlFile (host : Host) (url : String) : Except FetchError ControlFile :=
  match host.get url with
  | .error e => .error (.http e.toHttp)
  | .ok (.error kind) => .error (.invalidControl (.io kind))
  | .ok (.ok bytes) => (ControlFile.parse bytes).mapError .invalidControl

/-- Fetches the control file and assembles into `outputPath`. -/
def ZsyncAssembly.fromUrl (host : Host) (controlUrl outputPath : String) :
    Except FetchError ZsyncAssembly :=
  (fetchControlFile host controlUrl).map fun control =>
    ZsyncAssembly.withClient control outputPath (some (extractBaseUrl controlUrl)) ⟨none, 0⟩

namespace Cli

/-- The mode of output: JSON if asked for, a bar on a terminal, else lines. -/
def mode (host : Host) (cli : Cli) : Mode :=
  if cli.json then .json else if host.terminal then .bar else .lines

/-- The path of the output: the argument, or the default for the URL. -/
def outputPath (cli : Cli) : String := cli.output.getD (defaultOutput cli.url)

/-! ### The process -/

/-- An assembly, and the calls that its reporter got, newest first. -/
structure Run where
  state : State
  told : List Reporter.Call

/-- The steps of the process, which fail with its exit code. -/
abbrev Proc (α : Type) : Type := Prog Run ℕ α

/-- A call on the reporter, which reads its clocks. -/
def Run.tell (host : Host) (call : ℕ → ℕ → Reporter.Call) (r : Run) : Run :=
  { r with told := call (host.now r.told.length) (host.elapsed r.told.length) :: r.told }

/-- A call on the reporter, as a step of the process. -/
def tell (host : Host) (call : ℕ → ℕ → Reporter.Call) : Proc Unit :=
  Prog.modify (Run.tell host call)

/-- What the callbacks of the assembly get. -/
def reported : Event → Option (ℕ × ℕ)
  | .progress done total => some (done, total)
  | .scanProgress done total => some (done, total)
  | _ => none

/-- A call on the assembly, whose callbacks pass its progress on to the reporter. -/
def perform (host : Host) (call : Call) : Proc (Except AssemblyError ℕ) := fun r =>
  let out := call.exec host.env r.state
  let new := out.2.trace.take (out.2.trace.length - r.state.trace.length)
  (.ok out.1, (new.reverse.filterMap reported).foldl
    (fun r p => r.tell host fun now elapsed => .progress p.1 p.2 now elapsed)
    { r with state := out.2 })

/-- Scans a source file.  A file that cannot be read is passed over. -/
def scanInput (host : Host) (input : String × Seed) : Proc Unit := do
  tell host fun _ _ => .begin .scan (some input.1)
  let _ ← perform host (.submitSourceFile input.2)
  tell host fun _ elapsed => .finishScan elapsed

/-- Scans the temporary file, once a source file has had a block of the target. -/
def scanSelf (host : Host) : Proc Unit := do
  let r ← Prog.read
  if 0 < r.state.blockStats.1 ∧ ¬ r.state.matcher.isComplete then do
    tell host fun _ _ => .begin .selfScan none
    let _ ← perform host .submitSelfReferential
    tell host fun _ elapsed => .finishScan elapsed
  else pure ()

/-- Reports an error, drops the assembly and exits. -/
def exit {α : Type} (host : Host) (message : String) : Proc α := do
  tell host fun _ _ => .emitError message
  Prog.modify fun r => { r with state := dropAssembly host.env r.state }
  Prog.throw 1

/-- The message of a retry. -/
def retryMessage (host : Host) (cli : Cli) (e : AssemblyError) (failures delay : ℕ) : String :=
  "Download error: " ++ e.display host.texts ++ "; retrying in " ++ toString delay ++ " s (" ++
    toString failures ++ "/" ++ toString cli.retries.toNat ++ ")"

/-- One round of the loop of downloads. -/
def downloadRound (host : Host) (cli : Cli) (v : Retry.Vars) : Proc (Retry.Vars ⊕ Unit) := do
  let result ← perform host .downloadMissingBlocks
  let r ← Prog.read
  match result with
  | .ok n => pure (if n = 0 then .inr () else .inl v)
  | .error e =>
    match Retry.turn cli.retries.toNat v ⟨.error e, r.state.blockStats.1⟩ with
    | .retry v delay => do
      tell host fun _ _ => .emitRetry v.failures cli.retries.toNat (delay * 10 ^ 9)
        (retryMessage host cli e v.failures delay)
      pure (.inl v)
    | _ => exit host ("Download error: " ++ e.display host.texts)

/-- More rounds than the loop of downloads can take. -/
def maxRounds (cli : Cli) (s : State) : ℕ := (s.blockStats.2 + 1) * (cli.retries.toNat + 2) + 1

/-- Downloads until a call adds nothing. -/
def download (host : Host) (cli : Cli) : Proc Unit := do
  let r ← Prog.read
  if r.state.matcher.isComplete then pure ()
  else
    Prog.loop (downloadRound host cli) (fun _ => ()) (maxRounds cli r.state)
      (Retry.Vars.mk 0 r.state.blockStats.1)

/-- The message when a call added nothing and blocks are missing. -/
def mismatchMessage (s : State) : String :=
  "Download error: " ++ toString (s.blockStats.2 - s.blockStats.1) ++ " of " ++
    toString s.blockStats.2 ++ " blocks from the server did not match the control file, so it " ++
    "may be serving a different version of the file"

/-- Completes the assembly, which consumes it. -/
def completeAssembly (host : Host) : Proc (Except AssemblyError Unit) := fun r =>
  let out := finish host.env r.state
  (.ok out.1, { r with state := out.2 })

/-- What is done with the assembly after the downloads. -/
def verify (host : Host) (cli : Cli) : Proc Unit := do
  let r ← Prog.read
  if ¬ r.state.matcher.isComplete then exit host (mismatchMessage r.state)
  else do
    tell host fun _ elapsed => .finish r.state.progress.1 r.state.progress.2 elapsed
    tell host fun _ _ => .emitPhase .verify
    match ← completeAssembly host with
    | .error e => do
      tell host fun _ _ => .emitError ("Error: " ++ e.display host.texts)
      Prog.throw 1
    | .ok () => tell host fun _ _ => .emitDone cli.outputPath

/-- The scans of the source files and of what they left. -/
def scans (host : Host) (cli : Cli) : Proc Unit := do
  let _ ← perform host (.setRangeGapThreshold (min (cli.rangeGap * 1024) (2 ^ 64 - 1)))
  let r ← Prog.read
  tell host fun _ _ =>
    .emitStart r.state.progress.2 r.state.blockStats.2 r.state.control.blocksize
  cli.input.forM (scanInput host)
  scanSelf host
  tell host fun _ _ => .begin .download none

/-- What the process does once it has an assembly. -/
def transfer (host : Host) (cli : Cli) : Proc Unit := do
  scans host cli
  download host cli
  verify host cli

/-- What a process leaves behind: its exit code and the files.  The calls on its reporter and the
events, newest first, are recorded. -/
structure Exit where
  code : ℕ
  fs : String → Option File
  told : List Reporter.Call
  trace : List Event

/-- What a process leaves that had an assembly. -/
def Exit.of : Except ℕ Unit × Run → Exit
  | (.ok (), r) => ⟨0, r.state.fs, r.told.reverse, r.state.trace⟩
  | (.error code, r) => ⟨code, r.state.fs, r.told.reverse, r.state.trace⟩

/-- A run of the tool. -/
def main (host : Host) (cli : Cli) (fs : String → Option File) : Exit :=
  match ZsyncAssembly.fromUrl host cli.url cli.outputPath with
  | .error e => ⟨1, fs, [.emitError ("Error initializing: " ++ e.display host.texts)], []⟩
  | .ok assembly =>
    Exit.of (transfer host cli ⟨State.start assembly fs, []⟩)

/-! ### Calls -/

variable {host : Host} {cli : Cli} {s₀ : State} {r : Run}

@[simp]
theorem Run.tell_state (call : ℕ → ℕ → Reporter.Call) : (r.tell host call).state = r.state := rfl

theorem perform_state (call : Call) (r : Run) :
    (perform host call r).2.state = (call.exec host.env r.state).2 := by
  have hfold (ps : List (ℕ × ℕ)) (r : Run) : (ps.foldl
      (fun r p => r.tell host fun now elapsed => .progress p.1 p.2 now elapsed) r).state =
        r.state := by
    induction ps generalizing r with
    | nil => rfl
    | cons p ps ih => exact ih _
  exact hfold _ _

/-- A property of the assembly. -/
def On (P : State → Prop) (r : Run) : Prop := P r.state

section On

variable {P : State → Prop} {E : ℕ → Run → Prop}

theorem triple_tell (call : ℕ → ℕ → Reporter.Call) :
    Prog.Triple (On P) (tell host call) (fun _ => On P) E := Prog.Triple.modify fun _ h => h

theorem triple_perform {call : Call} (h : ∀ s, P s → P (call.exec host.env s).2) :
    Prog.Triple (On P) (perform host call) (fun _ => On P) E :=
  fun r hr => Eq.mpr (congrArg P (perform_state call r)) (h r.state hr)

theorem triple_exit {α : Type} {Q : α → Run → Prop}
    (hE : ∀ (r : Run) told, P r.state → E 1 ⟨dropAssembly host.env r.state, told⟩)
    (message : String) : Prog.Triple (On P) (exit host message) Q E := fun r hr => hE r _ hr

/-- **The scans** keep what every scan keeps. -/
theorem triple_scans (hP : ∀ call : Call, call.isScan → ∀ s, P s → P (call.exec host.env s).2) :
    Prog.Triple (On P) (scans host cli) (fun _ => On P) E := by
  refine Prog.Triple.bind (triple_perform (hP _ rfl)) fun _ => Prog.Triple.peek fun r _ => ?_
  refine Prog.Triple.bind (triple_tell _) fun _ => ?_
  refine Prog.Triple.bind (Prog.Triple.forM (I := fun _ => On P) (fun input _ => ?_) _) fun _ => ?_
  · refine Prog.Triple.bind (triple_tell _) fun _ => ?_
    exact Prog.Triple.bind (triple_perform (hP _ rfl)) fun _ => triple_tell _
  refine Prog.Triple.bind (Q := fun _ => On P) (Prog.Triple.peek fun r _ => ?_) fun _ =>
    triple_tell _
  refine Prog.Triple.ite (fun _ => ?_) fun _ => Prog.Triple.pure fun _ h => h
  refine Prog.Triple.bind (triple_tell _) fun _ => ?_
  exact Prog.Triple.bind (triple_perform (hP _ rfl)) fun _ => triple_tell _

end On

/-! ### The loop of downloads -/

theorem turn_error_cases (retries : ℕ) (v : Retry.Vars) (e : AssemblyError) (known : ℕ) :
    (∃ v' delay, Retry.turn retries v ⟨.error e, known⟩ = .retry v' delay) ∨
      Retry.turn retries v ⟨.error e, known⟩ = .exit e := by
  simp only [Retry.turn]
  split_ifs
  · exact Or.inl ⟨_, _, rfl⟩
  · exact Or.inr rfl

variable (host cli) in
/-- **One round** calls once, and goes on as `Retry.turn` says. -/
theorem downloadRound_turn (v : Retry.Vars) (r : Run) :
    let out := downloadMissingBlocks host.env r.state
    let turn := Retry.turn cli.retries.toNat v ⟨out.1, out.2.blockStats.1⟩
    Prog.Post (fun next r' => r'.state = out.2 ∧
        Sum.elim (fun v' => turn.vars = some v') (fun _ => out.1 = .ok 0) next)
      (fun _ _ => ∃ e, turn = .exit e) (downloadRound host cli v r) := by
  intro out turn
  suffices h : Prog.Triple (· = r) (downloadRound host cli v) _ _ from h r rfl
  refine Prog.Triple.bind (Q := fun result => On fun s => result = out.1 ∧ s = out.2) ?_
    fun result => Prog.Triple.assuming (P := On (· = out.2)) fun hresult =>
      Prog.Triple.peek fun r' hr' => ?_
  · rintro _ rfl
    exact ⟨rfl, perform_state _ _⟩
  have hstate : r'.state = out.2 := hr'
  rw [hresult, hstate]
  match hout : out.1 with
  | .ok n =>
    refine Prog.Triple.pure fun r'' hr'' => ⟨hr'', ?_⟩
    by_cases hn : n = 0
    · rw [if_pos hn]
      exact congrArg Except.ok hn
    · rw [if_neg hn]
      simp [turn, hout, Retry.turn, hn, Retry.Turn.vars]
  | .error e =>
    have hturn : turn = Retry.turn cli.retries.toNat v ⟨.error e, out.2.blockStats.1⟩ := by
      simp only [turn, hout]
    rcases turn_error_cases cli.retries.toNat v e out.2.blockStats.1 with ⟨v', delay, h⟩ | h
    · rw [hturn, h]
      dsimp only
      rw [h]
      exact Prog.Triple.bind (triple_tell _) fun _ => Prog.Triple.pure fun r' h => ⟨h, rfl⟩
    · rw [hturn, h]
      dsimp only
      rw [h]
      exact triple_exit (fun _ _ _ => ⟨e, rfl⟩) _

/-- The process is before call `i` of the loop that starts at `s₀`. -/
structure Before (host : Host) (cli : Cli) (s₀ : State) (i : ℕ) (v : Retry.Vars) (r : Run) :
    Prop where
  state : r.state = Retry.stateBefore host.env s₀ i
  vars : Retry.vars cli.retries.toNat s₀.blockStats.1 (Retry.downloads host.env s₀) i = some v

theorem Before.start (r : Run) : Before host cli r.state 0 ⟨0, r.state.blockStats.1⟩ r := ⟨rfl, rfl⟩

theorem Before.turn {i : ℕ} {v v' : Retry.Vars} {r r' : Run} (h : Before host cli s₀ i v r)
    (hrun : downloadRound host cli v r = (.ok (.inl v'), r')) :
    (Retry.turn cli.retries.toNat v (Retry.downloads host.env s₀ i)).vars = some v' ∧
      r'.state = Retry.stateBefore host.env s₀ (i + 1) := by
  have hround := downloadRound_turn host cli v r
  rw [hrun, h.state] at hround
  exact ⟨hround.2, hround.1⟩

theorem Before.next {i : ℕ} {v v' : Retry.Vars} {r r' : Run} (h : Before host cli s₀ i v r)
    (hrun : downloadRound host cli v r = (.ok (.inl v'), r')) :
    Before host cli s₀ (i + 1) v' r' := by
  obtain ⟨hturn, hstate⟩ := h.turn hrun
  exact ⟨hstate, by rw [Retry.vars, h.vars, Option.bind_some, hturn]⟩

variable {cf : ControlFile}

/-- How the process ends: its assembly completes, fails to, or is dropped before. -/
inductive Over (host : Host) (s₀ : State) : Except ℕ Unit → State → Prop
  | done (calls : List Call) : (finish host.env (runCalls host.env calls s₀)).1 = .ok () →
      Over host s₀ (.ok ()) (finish host.env (runCalls host.env calls s₀)).2
  | failed (calls : List Call) (e : AssemblyError) :
      (finish host.env (runCalls host.env calls s₀)).1 = .error e →
      Over host s₀ (.error 1) (finish host.env (runCalls host.env calls s₀)).2
  | dropped (calls : List Call) :
      Over host s₀ (.error 1) (dropAssembly host.env (runCalls host.env calls s₀))

/-- The assembly is where some calls have led it. -/
def Led (host : Host) (s₀ s : State) : Prop := ∃ calls, s = runCalls host.env calls s₀

theorem Led.call (call : Call) {s : State} (h : Led host s₀ s) :
    Led host s₀ (call.exec host.env s).2 := by
  obtain ⟨calls, rfl⟩ := h
  exact ⟨calls ++ [call], by simp [runCalls, List.foldl_append]⟩

theorem Led.dropped (r : Run) (told : List Reporter.Call) (h : Led host s₀ r.state) :
    Over host s₀ (.error 1) (⟨dropAssembly host.env r.state, told⟩ : Run).state := by
  obtain ⟨calls, hcalls⟩ := h
  exact hcalls ▸ Over.dropped calls

theorem triple_download : Prog.Triple (On (Led host s₀)) (download host cli)
    (fun _ => On (Led host s₀)) fun code => On (Over host s₀ (.error code)) := by
  refine Prog.Triple.peek fun r _ => Prog.Triple.ite (fun _ => Prog.Triple.pure fun _ h => h)
    fun _ => Prog.Triple.loop (I := fun _ => On (Led host s₀)) (Q := fun _ => On (Led host s₀))
      (fun v => ?_) (fun _ _ h => h) _ _
  refine Prog.Triple.bind (triple_perform fun _ => Led.call _) fun result =>
    Prog.Triple.peek fun r _ => ?_
  cases result with
  | ok n =>
    refine Prog.Triple.pure fun _ h => ?_
    split_ifs <;> exact h
  | error e =>
    dsimp only
    split
    · exact Prog.Triple.bind (triple_tell _) fun _ => Prog.Triple.pure fun _ h => h
    · exact triple_exit Led.dropped _

theorem triple_verify : Prog.Triple (On (Led host s₀)) (verify host cli)
    (fun _ => On (Over host s₀ (.ok ()))) fun code => On (Over host s₀ (.error code)) := by
  refine Prog.Triple.peek fun r _ =>
    Prog.Triple.ite (fun _ => triple_exit Led.dropped _) fun _ => ?_
  refine Prog.Triple.bind (triple_tell _) fun _ => Prog.Triple.bind (triple_tell _) fun _ => ?_
  refine Prog.Triple.bind (Q := fun result => On (Over host s₀ (result.mapError fun _ => 1)))
    ?_ fun result => ?_
  · rintro r ⟨calls, hcalls⟩
    change Over host s₀ ((finish host.env r.state).1.mapError fun _ => 1)
      (finish host.env r.state).2
    rw [hcalls]
    cases hfinish : (finish host.env (runCalls host.env calls s₀)).1 with
    | ok u => exact Over.done calls hfinish
    | error e => exact Over.failed calls e hfinish
  cases result with
  | error e => exact Prog.Triple.bind (triple_tell _) fun _ => Prog.Triple.throw fun _ h => h
  | ok u => exact triple_tell _

variable (host cli) in
/-- **A process** ends with its assembly completed or dropped. -/
theorem over_transfer (s₀ : State) (told : List Reporter.Call) :
    Over host s₀ (transfer host cli ⟨s₀, told⟩).1 (transfer host cli ⟨s₀, told⟩).2.state := by
  have hrun : Prog.Triple (On (Led host s₀)) (transfer host cli)
      (fun _ => On (Over host s₀ (.ok ()))) fun code => On (Over host s₀ (.error code)) :=
    Prog.Triple.bind (triple_scans fun call _ _ => Led.call call) fun _ =>
      Prog.Triple.bind triple_download fun _ => triple_verify
  have hpost := hrun ⟨s₀, told⟩ ⟨[], rfl⟩
  revert hpost
  match transfer host cli ⟨s₀, told⟩ with
  | (.ok (), r) => exact id
  | (.error code, r) => exact id

/-! ### The files -/

theorem checked_of_fetch {url : String} {cf : ControlFile}
    (h : fetchControlFile host url = .ok cf) : cf.Checked := by
  unfold fetchControlFile at h
  split at h
  · cases h
  · cases h
  · rename_i bytes _
    cases hparse : ControlFile.parse bytes with
    | error e => simp [hparse, Except.mapError] at h
    | ok cf' =>
      obtain rfl : cf' = cf := by simpa [hparse, Except.mapError] using h
      exact ControlFile.checked_of_parse hparse

variable {out : String} {baseUrl : Option String} {http : HttpClient}
  {fs : String → Option File} {s : State}

variable (host out baseUrl http fs) in
theorem others_of_calls (hcf : cf.Checked) (calls : List Call) :
    OthersAre fs out (runCalls host.env calls
      (State.start (ZsyncAssembly.withClient cf out baseUrl http) fs)) ∧
      Base host.env cf (runCalls host.env calls
        (State.start (ZsyncAssembly.withClient cf out baseUrl http) fs)) :=
  (keeps_others host.env fs out).runCalls hcf (fun _ => trivial) calls
    ⟨⟨rfl, rfl, fun _ _ => rfl⟩, base_start cf out baseUrl http fs⟩

/-- What a process that succeeds leaves: a file of the length and the digest of the control file,
and all else as it was. -/
structure Delivered (host : Host) (cf : ControlFile) (out : String)
    (fs fs' : String → Option File) : Prop where
  output : ∃ file, fs' out = some file ∧ file.data.length = cf.length ∧
    ∀ digest ∈ cf.sha1, eqIgnoreAsciiCase
      (ControlFile.hexEncode (host.hashes.sha1 file.data).toList) digest
  temp : fs' (out ++ ".zsync-tmp") = none
  others : ∀ path ≠ out, path ≠ out ++ ".zsync-tmp" → fs' path = fs path

theorem Over.delivered (hcf : cf.Checked) (h : Over host
    (State.start (ZsyncAssembly.withClient cf out baseUrl http) fs) (.ok ()) s) :
    Delivered host cf out fs s.fs := by
  obtain ⟨calls, hok⟩ := h
  obtain ⟨hothers, hbase⟩ := others_of_calls host out baseUrl http fs hcf calls
  have hinstalled := finish_ok hbase hok
  obtain ⟨file, hsome, hdata⟩ := hinstalled.output
  have hverified := hinstalled.verified
  have hnone := hinstalled.temp
  rw [hothers.outputPath] at hsome
  rw [hothers.tempPath] at hnone
  rw [hbase.control] at hdata
  rw [Verified, hbase.control, ← hdata] at hverified
  refine ⟨⟨file, hsome, by rw [hdata, length_padTo], hverified⟩, hnone, fun path hout htemp => ?_⟩
  -- neither the rename nor the drop touches another file
  have hpost := triple_complete host.env hbase _ rfl
  rw [show complete host.env _ = (.ok (), _) from Prod.ext hok rfl] at hpost
  obtain ⟨-, -, hpath, -, -, -, hkeep⟩ := hpost
  refine (fs_dropAssembly _ ?_).trans ((hkeep path ?_ ?_).trans (hothers.others path htemp))
  · rwa [hpath, hothers.tempPath]
  · rwa [hothers.tempPath]
  · rwa [hothers.outputPath]

/-- A process that fails after it has an assembly leaves all but the temporary file as it was, and
removes that one unless it cannot. -/
theorem Over.restored (hcf : cf.Checked) {code : ℕ} (h : Over host
    (State.start (ZsyncAssembly.withClient cf out baseUrl http) fs) (.error code) s) :
    code = 1 ∧ (∀ path ≠ out ++ ".zsync-tmp", s.fs path = fs path) ∧
      ((∀ n, (host.disk n .removeTemp).error = none) → s.fs (out ++ ".zsync-tmp") = none) := by
  have hdrop : ∀ t : State, t.tempPath = out ++ ".zsync-tmp" →
      (∀ path ≠ out ++ ".zsync-tmp", t.fs path = fs path) →
      (∀ path ≠ out ++ ".zsync-tmp", (dropAssembly host.env t).fs path = fs path) ∧
        ((∀ n, (host.disk n .removeTemp).error = none) →
          (dropAssembly host.env t).fs (out ++ ".zsync-tmp") = none) := by
    refine fun t htemp ht => ⟨fun path hp => ?_, fun hremove => ?_⟩
    · exact (fs_dropAssembly t (htemp ▸ hp)).trans (ht path hp)
    · exact htemp ▸ fs_dropAssembly_temp (hremove _)
  obtain - | ⟨calls, e, hfail⟩ | ⟨calls⟩ := h
  · obtain ⟨hothers, hbase⟩ := others_of_calls host out baseUrl http fs hcf calls
    have hunt := finish_error hbase hfail
    exact ⟨rfl, hdrop _ (hunt.tempPath.trans hothers.tempPath) fun path hp =>
      (hunt.others path (hothers.tempPath ▸ hp)).trans (hothers.others path hp)⟩
  · obtain ⟨hothers, -⟩ := others_of_calls host out baseUrl http fs hcf calls
    exact ⟨rfl, hdrop _ hothers.tempPath hothers.others⟩

/-- The assembly that a run starts with. -/
def startOf (cli : Cli) (cf : ControlFile) (fs : String → Option File) : State :=
  State.start (ZsyncAssembly.withClient cf cli.outputPath (some (extractBaseUrl cli.url)) ⟨none, 0⟩)
    fs

theorem main_of_error {e : FetchError} (h : fetchControlFile host cli.url = .error e) :
    main host cli fs =
      ⟨1, fs, [.emitError ("Error initializing: " ++ e.display host.texts)], []⟩ := by
  simp only [main, ZsyncAssembly.fromUrl, h, Except.map]

theorem main_of_ok (h : fetchControlFile host cli.url = .ok cf) :
    main host cli fs = Exit.of (transfer host cli ⟨startOf cli cf fs, []⟩) := by
  simp only [main, ZsyncAssembly.fromUrl, h, Except.map, startOf]

/-- **All or nothing.**  A run of the tool exits with 0 or 1.  With 0 the file at the output path
has the length and the digest of the control file that was fetched, nothing is at the temporary
path, and no other file has changed.  With 1 no file but the temporary one has changed, and that one
is gone, unless it could not be removed or no control file was fetched, when it was not touched. -/
theorem main_all_or_nothing (host : Host) (cli : Cli) (fs : String → Option File) :
    let exit := main host cli fs
    let temp := cli.outputPath ++ ".zsync-tmp"
    (exit.code = 0 ∧ ∃ cf, fetchControlFile host cli.url = .ok cf ∧
        Delivered host cf cli.outputPath fs exit.fs) ∨
      exit.code = 1 ∧ (∀ path ≠ temp, exit.fs path = fs path) ∧
        ((∀ n, (host.disk n .removeTemp).error = none) → exit.fs temp = none ∨
          (∃ e, fetchControlFile host cli.url = .error e) ∧ exit.fs temp = fs temp) := by
  intro exit temp
  cases hfetch : fetchControlFile host cli.url with
  | error e =>
    have hexit : exit = _ := main_of_error hfetch
    rw [hexit]
    exact Or.inr ⟨rfl, fun _ _ => rfl, fun _ => Or.inr ⟨⟨e, rfl⟩, rfl⟩⟩
  | ok cf =>
    have hcf := checked_of_fetch hfetch
    have hover := over_transfer host cli (startOf cli cf fs) []
    simp only [exit, main_of_ok hfetch]
    revert hover
    match transfer host cli ⟨startOf cli cf fs, []⟩ with
    | (.ok (), r) => exact fun hover => Or.inl ⟨rfl, cf, rfl, hover.delivered hcf⟩
    | (.error code, r) =>
      intro hover
      obtain ⟨rfl, hkeep, hgone⟩ := hover.restored hcf
      exact Or.inr ⟨rfl, hkeep, fun h => Or.inl (hgone h)⟩

end Cli

end Zsync
