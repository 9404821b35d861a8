import Zsync.Data.Json

/-!
# Progress events

The lines that the command line tool writes to its standard output, one JSON event a line.

* `jsonEscape` : a string inside a JSON string literal;
* `Reporter`, `Reporter.call` : the reporter, and the lines that a call on it writes.  What goes to
  the standard error for a reader at a terminal, and the bar drawn there, are left out;
* `Event` : what a line tells, with the original strings;
* `Reporter.lines_decode` : every line is one JSON object that carries its event.

Times are nanoseconds since the reporter was made.
-/

namespace Zsync

/-! ### Escaping -/

/-- `{:04x}`. -/
def hex4 (n : ℕ) : List Char := (Nat.toDigits 16 n).leftpad 4 '0'

/-- What `jsonEscape` writes for one character. -/
def jsonEscapeChar (ch : Char) : List Char :=
  if ch = '"' then ['\\', '"']
  else if ch = '\\' then ['\\', '\\']
  else if ch = '\n' then ['\\', 'n']
  else if ch = '\r' then ['\\', 'r']
  else if ch = '\t' then ['\\', 't']
  else if ch.toNat < 0x20 then '\\' :: 'u' :: hex4 ch.toNat
  else [ch]

/-- Escapes a string for embedding in a JSON string literal. -/
def jsonEscape (input : String) : String := String.ofList (input.toList.flatMap jsonEscapeChar)

@[simp]
theorem toList_jsonEscape (s : String) :
    (jsonEscape s).toList = s.toList.flatMap jsonEscapeChar := String.toList_ofList

theorem hexValue_digitChar : ∀ k < 16, Json.hexValue (Nat.digitChar k) = some k := by
  decide

theorem hex4_eq : ∀ n < 0x20,
    hex4 n = ['0', '0', Nat.digitChar (n / 16), Nat.digitChar (n % 16)] := by
  decide

theorem readEscape_hex4 {ch : Char} (h : ch.toNat < 0x20) (cs : List Char) :
    Json.readEscape ('u' :: hex4 ch.toNat ++ cs) = some (ch, cs) := by
  have hzero : Json.hexValue '0' = some 0 := hexValue_digitChar 0 (by decide)
  have hvalue : ((0 * 16 + 0) * 16 + ch.toNat / 16) * 16 + ch.toNat % 16 = ch.toNat := by omega
  rw [hex4_eq _ h]
  simp only [List.cons_append, List.nil_append, Json.readEscape, Json.readHex, hzero,
    hexValue_digitChar _ (show ch.toNat / 16 < 16 by omega),
    hexValue_digitChar _ (show ch.toNat % 16 < 16 by omega), Option.bind_eq_bind, Option.bind_some,
    hvalue]
  rw [if_neg (by omega), if_neg (by omega), Char.ofNat_toNat]

/-- **Escaping** is undone by a reader of JSON strings. -/
theorem encodes_escape (s : List Char) : Json.Encodes (s.flatMap jsonEscapeChar) s := by
  induction s with
  | nil => exact Json.Encodes.nil
  | cons ch s ih =>
    rw [List.flatMap_cons, jsonEscapeChar]
    split_ifs with hquote hslash hfeed hreturn htab hcontrol
    · subst hquote
      exact ih.escape (p := ['"']) fun cs => rfl
    · subst hslash
      exact ih.escape (p := ['\\']) fun cs => rfl
    · subst hfeed
      exact ih.escape (p := ['n']) fun cs => rfl
    · subst hreturn
      exact ih.escape (p := ['r']) fun cs => rfl
    · subst htab
      exact ih.escape (p := ['t']) fun cs => rfl
    · exact ih.escape (readEscape_hex4 hcontrol)
    · exact ih.cons (Nat.not_lt.1 hcontrol) hquote hslash

theorem digitChar_ge : ∀ k < 16, 0x20 ≤ (Nat.digitChar k).toNat := by decide

theorem escape_ge (s : List Char) : ∀ ch ∈ s.flatMap jsonEscapeChar, 0x20 ≤ ch.toNat := by
  intro ch hch
  obtain ⟨c, -, hch⟩ := List.mem_flatMap.1 hch
  have hpair {d : Char} (hd : 0x20 ≤ d.toNat) (h : ch ∈ ['\\', d]) : 0x20 ≤ ch.toNat := by
    rcases List.mem_cons.1 h with rfl | h
    · decide
    · rwa [List.mem_singleton.1 h]
  rw [jsonEscapeChar] at hch
  split_ifs at hch with hquote hslash hfeed hreturn htab hcontrol
  · exact hpair (by decide) hch
  · exact hpair (by decide) hch
  · exact hpair (by decide) hch
  · exact hpair (by decide) hch
  · exact hpair (by decide) hch
  · rw [hex4_eq _ hcontrol] at hch
    simp only [List.mem_cons, List.not_mem_nil, or_false] at hch
    rcases hch with rfl | rfl | rfl | rfl | rfl | rfl
    · decide
    · decide
    · decide
    · decide
    · exact digitChar_ge _ (by omega)
    · exact digitChar_ge _ (by omega)
  · rw [List.mem_singleton.1 hch]
    exact Nat.not_lt.1 hcontrol

/-! ### The reporter -/

/-- Where progress goes and how it is drawn. -/
inductive Mode
  | bar
  | lines
  | json
  deriving DecidableEq

/-- The phases of a transfer. -/
inductive Phase
  | scan
  | selfScan
  | download
  | verify

/-- `phase` of a progress event. -/
def Phase.name : Phase → String
  | scan => "scan"
  | selfScan => "self_scan"
  | download => "download"
  | verify => "verify"

/-- Renders the progress of the phases, in one mode of output. -/
structure Reporter where
  mode : Mode
  phase : Phase
  /-- The file the phase works through, already escaped for JSON. -/
  file : Option String
  /-- The last values the library reported, whether or not they were shown. -/
  latest : Option (ℕ × ℕ)
  lastEmit : Option ℕ
  lastPercent : ℤ
  finished : Bool

/-- `PROGRESS_INTERVAL`: how often a progress event may be emitted. -/
def progressInterval : ℕ := 100 * 10 ^ 6

/-- `as_millis`. -/
def asMillis (time : ℕ) : ℕ := time / 10 ^ 6

/-- The progress in whole percent: a product that saturates, cut to 32 bits. -/
def wholePercent (done total : ℕ) : ℤ :=
  if total = 0 then 100 else Int.bmod (min (done * 100) (2 ^ 64 - 1) / total : ℕ) (2 ^ 32)

namespace Reporter

/-- A reporter that has shown nothing. -/
def new (mode : Mode) : Reporter := ⟨mode, .download, none, none, none, -1, false⟩

/-- Starts reporting a new phase, optionally naming the file it reads. -/
def begin (r : Reporter) (phase : Phase) (file : Option String) : Reporter :=
  { r with
    phase := phase
    file := file.map jsonEscape
    latest := none
    lastEmit := none
    lastPercent := -1
    finished := false }

/-- The line of a progress event; the file and the end mark are left out when not there. -/
def progressJson (r : Reporter) (done total elapsed : ℕ) (last : Bool) : String :=
  let file := (r.file.map fun f => ",\"file\":\"" ++ f ++ "\"").getD ""
  let last := if last then ",\"final\":true" else ""
  "\x7b\"event\":\"progress\",\"phase\":\"" ++ r.phase.name ++ "\"" ++ file ++
    ",\"done_bytes\":" ++ toString done ++ ",\"total_bytes\":" ++ toString total ++
    ",\"elapsed_ms\":" ++ toString (asMillis elapsed) ++ last ++ "\x7d"

/-- The lines of an event that only JSON mode has. -/
def emit (r : Reporter) (line : String) : List String := if r.mode = .json then [line] else []

/-- The size of the target, once the control file is read. -/
def emitStart (r : Reporter) (totalBytes totalBlocks blocksize : ℕ) : List String :=
  r.emit ("\x7b\"event\":\"start\",\"total_bytes\":" ++ toString totalBytes ++
    ",\"total_blocks\":" ++ toString totalBlocks ++ ",\"blocksize\":" ++ toString blocksize ++
    "\x7d")

/-- Emits a progress event for the current phase if the throttle allows it. -/
def progress (r : Reporter) (done total now elapsed : ℕ) : Reporter × List String :=
  if r.finished then (r, [])
  else
    let r := { r with latest := some (done, total) }
    if r.lastEmit.any fun last => now - last < progressInterval then (r, [])
    else
      let percent := wholePercent done total
      if r.mode = .lines ∧ percent = r.lastPercent then (r, [])
      else
        let r := { r with lastEmit := some now, lastPercent := percent }
        (r, r.emit (r.progressJson done total elapsed false))

/-- Emits the phase's terminal event, bypassing the throttle. -/
def finish (r : Reporter) (done total elapsed : ℕ) : Reporter × List String :=
  if r.finished then (r, [])
  else
    let r := { r with finished := true }
    (r, r.emit (r.progressJson done total elapsed true))

/-- Ends a scan with the last values the library reported, or silently when it reported none. -/
def finishScan (r : Reporter) (elapsed : ℕ) : Reporter × List String :=
  match r.latest with
  | some (done, total) => r.finish done total elapsed
  | none => ({ r with finished := true }, [])

/-- The start of a phase without progress of its own. -/
def emitPhase (r : Reporter) (name : String) : List String :=
  r.emit ("\x7b\"event\":\"phase\",\"phase\":\"" ++ name ++ "\"\x7d")

/-- The success of the whole run. -/
def emitDone (r : Reporter) (path : String) : List String :=
  r.emit ("\x7b\"event\":\"done\",\"path\":\"" ++ jsonEscape path ++ "\"\x7d")

/-- A failed download that is tried again after a delay. -/
def emitRetry (r : Reporter) (attempt retries delay : ℕ) (message : String) : List String :=
  r.emit ("\x7b\"event\":\"retry\",\"attempt\":" ++ toString attempt ++ ",\"retries\":" ++
    toString retries ++ ",\"delay_ms\":" ++ toString (asMillis delay) ++ ",\"message\":\"" ++
    jsonEscape message ++ "\"\x7d")

/-- The failure of the run. -/
def emitError (r : Reporter) (message : String) : List String :=
  r.emit ("\x7b\"event\":\"error\",\"message\":\"" ++ jsonEscape message ++ "\"\x7d")

/-! ### Calls -/

/-- A call on the reporter, with what it reads from the clock. -/
inductive Call
  | begin (phase : Phase) (file : Option String)
  | emitStart (totalBytes totalBlocks blocksize : ℕ)
  | progress (done total now elapsed : ℕ)
  | finish (done total elapsed : ℕ)
  | finishScan (elapsed : ℕ)
  | emitPhase (phase : Phase)
  | emitDone (path : String)
  | emitRetry (attempt retries delay : ℕ) (message : String)
  | emitError (message : String)

/-- The reporter after a call, and the lines it writes to the standard output. -/
def call (r : Reporter) : Call → Reporter × List String
  | .begin phase file => (r.begin phase file, [])
  | .emitStart totalBytes totalBlocks blocksize => (r, r.emitStart totalBytes totalBlocks blocksize)
  | .progress done total now elapsed => r.progress done total now elapsed
  | .finish done total elapsed => r.finish done total elapsed
  | .finishScan elapsed => r.finishScan elapsed
  | .emitPhase phase => (r, r.emitPhase phase.name)
  | .emitDone path => (r, r.emitDone path)
  | .emitRetry attempt retries delay message => (r, r.emitRetry attempt retries delay message)
  | .emitError message => (r, r.emitError message)

/-- The reporter after calls one after another. -/
def run (calls : List Call) (r : Reporter) : Reporter := calls.foldl (fun r c => (r.call c).1) r

/-! ### Events -/

/-- What a line tells, with the strings as they were given. -/
inductive Event
  | start (totalBytes totalBlocks blocksize : ℕ)
  | progress (phase : Phase) (file : Option String) (done total elapsed : ℕ) (final : Bool)
  | protected phase (phase : Phase)
  | protected done (path : String)
  | retry (attempt retries delay : ℕ) (message : String)
  | error (message : String)

namespace Event

/-- A string member of an event, with its original value. -/
def str (name value : String) : List Char × Json.Value := (name.toList, .string value.toList)

/-- A number member of an event, as its digits. -/
def num (name : String) (value : ℕ) : List Char × Json.Value :=
  (name.toList, .number (Nat.toDigits 10 value))

/-- The members of an event. -/
def fields : Event → List (List Char × Json.Value)
  | .start totalBytes totalBlocks blocksize =>
    [str "event" "start", num "total_bytes" totalBytes, num "total_blocks" totalBlocks,
      num "blocksize" blocksize]
  | .progress phase file done total elapsed final =>
    [str "event" "progress", str "phase" phase.name] ++ (file.map (str "file")).toList ++
      [num "done_bytes" done, num "total_bytes" total, num "elapsed_ms" (asMillis elapsed)] ++
      if final then [("final".toList, .bool true)] else []
  | .phase phase => [str "event" "phase", str "phase" phase.name]
  | .done path => [str "event" "done", str "path" path]
  | .retry attempt retries delay message =>
    [str "event" "retry", num "attempt" attempt, num "retries" retries,
      num "delay_ms" (asMillis delay), str "message" message]
  | .error message => [str "event" "error", str "message" message]

/-- The values that events have: strings, naturals and the flag. -/
inductive Scalar : Json.Value → Prop
  | string (s : List Char) : Scalar (.string s)
  | number (n : ℕ) : Scalar (.number (Nat.toDigits 10 n))
  | flag : Scalar (.bool true)

/-- The text of such a value in a line. -/
def text : Json.Value → List Char
  | .string s => '"' :: s.flatMap jsonEscapeChar ++ ['"']
  | .number n => n
  | _ => "true".toList

/-- A member as a line has it. -/
def member (f : List Char × Json.Value) : Json.Member := ⟨f.1, text f.2, f.2⟩

/-- The line of an event. -/
def line (e : Event) : List Char := '{' :: Json.writeMembers (e.fields.map member) ++ ['}']

/-! ### Every line carries its event -/

theorem fields_ne_nil (e : Event) : e.fields ≠ [] := by cases e <;> simp [fields]

theorem fields_scalar (e : Event) : ∀ f ∈ e.fields, Scalar f.2 := by
  have hstr (n v : String) : Scalar (str n v).2 := Scalar.string _
  have hnum (n : String) (v : ℕ) : Scalar (num n v).2 := Scalar.number _
  cases e with
  | progress phase file done total elapsed final =>
    cases file <;> cases final <;> simp [fields, hstr, hnum, Scalar.flag]
  | _ => simp [fields, hstr, hnum]

theorem fields_name (e : Event) :
    ∀ f ∈ e.fields, ∀ ch ∈ f.1, 0x20 ≤ ch.toNat ∧ ch ≠ '"' ∧ ch ≠ '\\' := by
  cases e with
  | progress phase file done total elapsed final =>
    cases file <;> cases final <;> simp [fields, str, num]
  | _ => simp [fields, str, num]

theorem Scalar.reads {v : Json.Value} (h : Scalar v) : Json.Reads (text v) v := by
  cases h with
  | string s => exact (encodes_escape s).reads
  | number n => exact Json.reads_toDigits n
  | flag => exact Json.reads_true

theorem Scalar.text_ge {v : Json.Value} (h : Scalar v) : ∀ ch ∈ text v, 0x20 ≤ ch.toNat := by
  cases h with
  | string s =>
    intro ch hch
    rcases List.mem_append.1 hch with hch | hch
    · rcases List.mem_cons.1 hch with rfl | hch
      · decide
      · exact escape_ge s ch hch
    · rw [List.mem_singleton.1 hch]
      decide
  | number n =>
    intro ch hch
    have hdigit : ch.isDigit := Nat.isDigit_of_mem_toDigits (by decide) (by decide) hch
    have hzero : (48 : UInt32) ≤ ch.val := by
      rw [Char.isDigit, Bool.and_eq_true, decide_eq_true_eq] at hdigit
      exact hdigit.1
    exact le_trans (by decide) hzero
  | flag => simp [text]

/-- **A line** is read to its event. -/
theorem decode_line (e : Event) : Json.decode e.line = some (.object e.fields) := by
  have hok : ∀ m ∈ e.fields.map member, m.Ok := by
    intro m hm
    obtain ⟨f, hf, rfl⟩ := List.mem_map.1 hm
    exact ⟨Json.encodes_self (e.fields_name f hf), (e.fields_scalar f hf).reads⟩
  rw [line, Json.decode_object (by simpa using e.fields_ne_nil) hok, List.map_map]
  simp [Function.comp_def, member]

/-- **A line** has no control character, so no line break. -/
theorem line_ge (e : Event) : ∀ ch ∈ e.line, 0x20 ≤ ch.toNat := by
  have hmember : ∀ m ∈ e.fields.map member, ∀ ch ∈ m.write, 0x20 ≤ ch.toNat := by
    intro m hm
    obtain ⟨f, hf, rfl⟩ := List.mem_map.1 hm
    have hname : ∀ ch ∈ f.1, 0x20 ≤ ch.toNat := fun ch hch => (e.fields_name f hf ch hch).1
    have htext := (e.fields_scalar f hf).text_ge
    simpa [Json.Member.write, member, or_imp, forall_and] using ⟨hname, htext⟩
  intro ch hch
  rcases List.mem_cons.1 hch with rfl | hch
  · decide
  rcases List.mem_append.1 hch with hch | hch
  · rcases Json.mem_writeMembers hch with rfl | ⟨m, hm, hch⟩
    · decide
    · exact hmember m hm ch hch
  · rw [List.mem_singleton.1 hch]
    decide

theorem write_str (name value : String) :
    (member (str name value)).write =
      '"' :: name.toList ++ ['"', ':', '"'] ++ (jsonEscape value).toList ++ ['"'] := by
  simp [member, str, text, Json.Member.write]

theorem write_num (name : String) (value : ℕ) :
    (member (num name value)).write =
      '"' :: name.toList ++ ['"', ':'] ++ (toString value).toList := by
  simp [member, num, text, Json.Member.write]

theorem write_flag (name : String) :
    (member (name.toList, .bool true)).write = '"' :: name.toList ++ "\":true".toList := by
  simp [member, text, Json.Member.write]

end Event

theorem toList_progressJson {r : Reporter} {file : Option String}
    (hfile : r.file = file.map jsonEscape) (done total elapsed : ℕ) (final : Bool) :
    (r.progressJson done total elapsed final).toList =
      (Event.progress r.phase file done total elapsed final).line := by
  have hevent : jsonEscape "progress" = "progress" := by decide
  have hphase : jsonEscape r.phase.name = r.phase.name := by cases r.phase <;> decide
  unfold progressJson
  cases file <;> cases final <;>
  · simp only [hfile, hevent, hphase, Event.line, Event.fields, Event.write_str, Event.write_num,
      Event.write_flag, Json.writeMembers, Option.map_none, Option.map_some, Option.getD_none,
      Option.getD_some, Option.toList_none, Option.toList_some, if_true, Bool.false_eq_true,
      if_false, List.cons_append, List.nil_append, List.append_nil, List.map_cons, List.map_nil]
    simp [-toList_jsonEscape]

/-- The phase and the file after a call. -/
def begun (b : Phase × Option String) : Call → Phase × Option String
  | .begin phase file => (phase, file)
  | _ => b

/-- The phase and the file of the last `begin` among calls. -/
def began (calls : List Call) : Phase × Option String := calls.foldl begun (.download, none)

/-- What a line of a call tells, in a phase of a file whose last values reported are `latest`. -/
def Call.event (phase : Phase) (file : Option String) (latest : Option (ℕ × ℕ)) :
    Call → Option Event
  | .begin _ _ => none
  | .emitStart totalBytes totalBlocks blocksize => some (.start totalBytes totalBlocks blocksize)
  | .progress done total _ elapsed => some (.progress phase file done total elapsed false)
  | .finish done total elapsed => some (.progress phase file done total elapsed true)
  | .finishScan elapsed => latest.map fun p => .progress phase file p.1 p.2 elapsed true
  | .emitPhase phase => some (.phase phase)
  | .emitDone path => some (.done path)
  | .emitRetry attempt retries delay message => some (.retry attempt retries delay message)
  | .emitError message => some (.error message)

/-- The reporter works through this file, whose name it has escaped. -/
def At (r : Reporter) (b : Phase × Option String) : Prop :=
  r.phase = b.1 ∧ r.file = b.2.map jsonEscape

theorem At.call {r : Reporter} {b : Phase × Option String} (h : r.At b) (c : Call) :
    (r.call c).1.At (begun b c) := by
  cases c with
  | begin phase file => exact ⟨rfl, rfl⟩
  | progress done total now elapsed =>
    simp only [Reporter.call, progress]
    split_ifs <;> exact h
  | finish done total elapsed =>
    simp only [Reporter.call, finish]
    split_ifs <;> exact h
  | finishScan elapsed =>
    simp only [Reporter.call, finishScan, finish]
    split
    · split_ifs <;> exact h
    · exact h
  | _ => exact h

/-- **A run** is at the phase and the file last begun. -/
theorem at_run (mode : Mode) (calls : List Call) : (run calls (new mode)).At (began calls) := by
  have hrun (r : Reporter) (b : Phase × Option String) (h : r.At b) :
      (run calls r).At (calls.foldl begun b) := by
    induction calls generalizing r b with
    | nil => exact h
    | cons c calls ih => exact ih _ _ (h.call c)
  exact hrun _ _ ⟨rfl, rfl⟩

/-! ### The lines of a call -/

theorem mem_emit {r : Reporter} {l line : String} (h : line ∈ r.emit l) : line = l := by
  rw [emit] at h
  split_ifs at h
  · exact List.mem_singleton.1 h
  · exact absurd h List.not_mem_nil

theorem mem_progress {r : Reporter} {done total now elapsed : ℕ} {line : String}
    (h : line ∈ (r.progress done total now elapsed).2) :
    line = r.progressJson done total elapsed false := by
  simp only [progress] at h
  split_ifs at h
  · exact absurd h List.not_mem_nil
  · exact absurd h List.not_mem_nil
  · exact absurd h List.not_mem_nil
  · exact mem_emit h

theorem mem_finish {r : Reporter} {done total elapsed : ℕ} {line : String}
    (h : line ∈ (r.finish done total elapsed).2) :
    line = r.progressJson done total elapsed true := by
  unfold finish at h
  split_ifs at h
  · exact absurd h List.not_mem_nil
  · exact mem_emit h

theorem exists_event {r : Reporter} {b : Phase × Option String} (hat : r.At b) {c : Call}
    {line : String} (h : line ∈ (r.call c).2) :
    ∃ e, c.event b.1 b.2 r.latest = some e ∧ line.toList = e.line := by
  cases c with
  | begin phase file => exact absurd h List.not_mem_nil
  | emitStart totalBytes totalBlocks blocksize =>
    have hevent : jsonEscape "start" = "start" := by decide
    refine ⟨_, rfl, ?_⟩
    rw [mem_emit h]
    simp [Event.line, Event.fields, Event.write_str, Event.write_num, Json.writeMembers, hevent,
      -toList_jsonEscape]
  | progress done total now elapsed =>
    refine ⟨_, rfl, ?_⟩
    rw [mem_progress h, toList_progressJson hat.2, hat.1]
  | finish done total elapsed =>
    refine ⟨_, rfl, ?_⟩
    rw [mem_finish h, toList_progressJson hat.2, hat.1]
  | finishScan elapsed =>
    simp only [call, finishScan] at h
    cases hlatest : r.latest with
    | none =>
      rw [hlatest] at h
      exact absurd h List.not_mem_nil
    | some p =>
      rw [hlatest] at h
      refine ⟨_, rfl, ?_⟩
      rw [mem_finish h, toList_progressJson hat.2, hat.1]
  | emitPhase phase =>
    have hevent : jsonEscape "phase" = "phase" := by decide
    have hphase : jsonEscape phase.name = phase.name := by cases phase <;> decide
    refine ⟨_, rfl, ?_⟩
    rw [mem_emit h]
    simp [Event.line, Event.fields, Event.write_str, Json.writeMembers, hevent, hphase,
      -toList_jsonEscape]
  | emitDone path =>
    have hevent : jsonEscape "done" = "done" := by decide
    refine ⟨_, rfl, ?_⟩
    rw [mem_emit h]
    simp [Event.line, Event.fields, Event.write_str, Json.writeMembers, hevent, -toList_jsonEscape]
  | emitRetry attempt retries delay message =>
    have hevent : jsonEscape "retry" = "retry" := by decide
    refine ⟨_, rfl, ?_⟩
    rw [mem_emit h]
    simp [Event.line, Event.fields, Event.write_str, Event.write_num, Json.writeMembers, hevent,
      -toList_jsonEscape]
  | emitError message =>
    have hevent : jsonEscape "error" = "error" := by decide
    refine ⟨_, rfl, ?_⟩
    rw [mem_emit h]
    simp [Event.line, Event.fields, Event.write_str, Json.writeMembers, hevent, -toList_jsonEscape]

/-- **Every line is its event.**  Whatever the reporter was called with before, a line that a call
writes has no line break or other control character, and is one JSON object whose members are those
of the event, each string read back to the characters it was given with. -/
theorem lines_decode (mode : Mode) (calls : List Call) (c : Call) {line : String}
    (h : line ∈ ((run calls (new mode)).call c).2) :
    (∀ ch ∈ line.toList, 0x20 ≤ ch.toNat) ∧
      ∃ e, c.event (began calls).1 (began calls).2 (run calls (new mode)).latest = some e ∧
        Json.decode line.toList = some (.object e.fields) := by
  obtain ⟨e, he, hline⟩ := exists_event (at_run mode calls) h
  rw [hline]
  exact ⟨e.line_ge, e, he, e.decode_line⟩

/-- The scan of a file whose name has a quotation mark and a line break. -/
theorem lines_decode_scan :
    let calls := [Call.begin .scan (some "a\"\n")]
    let line := "\x7b\"event\":\"progress\",\"phase\":\"scan\",\"file\":\"a\\\"\\n\"," ++
      "\"done_bytes\":1,\"total_bytes\":2,\"elapsed_ms\":0\x7d"
    (∀ ch ∈ line.toList, 0x20 ≤ ch.toNat) ∧
      ∃ e, (Call.progress 1 2 0 0).event (began calls).1 (began calls).2
        (run calls (new .json)).latest = some e ∧
        Json.decode line.toList = some (.object e.fields) :=
  lines_decode .json [.begin .scan (some "a\"\n")] (.progress 1 2 0 0) (by decide)

end Reporter

end Zsync
