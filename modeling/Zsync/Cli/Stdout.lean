import Zsync.Assembly.Reports
import Zsync.Cli.Delivery

/-!
# The standard output

What a run of the tool writes to its standard output, which programs read in JSON mode.

* `Reporter.output`, `Reporter.stream` : the lines of some calls, and the events they tell;
* `output_stream` : in JSON mode each line is the line of its event, and there are no others;
* `transcript` : the events of a run, as languages;
* `main_speaks` : every run writes such a transcript, which its exit code decides the end of.
-/

namespace Zsync

open scoped Computability

namespace Reporter

/-! ### Lines and events -/

/-- The lines that calls one after another write. -/
def output : List Call → Reporter → List String
  | [], _ => []
  | c :: calls, r => (r.call c).2 ++ output calls (r.call c).1

/-- What a call tells, if it writes a line. -/
def tells (r : Reporter) (b : Phase × Option String) (c : Call) : List Event :=
  if (r.call c).2 = [] then [] else (c.event b.1 b.2 r.latest).toList

/-- What calls one after another tell. -/
def streamFrom : List Call → Reporter → Phase × Option String → List Event
  | [], _, _ => []
  | c :: calls, r, b => r.tells b c ++ streamFrom calls (r.call c).1 (begun b c)

/-- What calls on a new reporter tell. -/
def stream (mode : Mode) (calls : List Call) : List Event :=
  streamFrom calls (new mode) (.download, none)

theorem length_emit_le (r : Reporter) (line : String) : (r.emit line).length ≤ 1 := by
  rw [emit]
  split_ifs <;> simp

theorem length_call_le (r : Reporter) (c : Call) : (r.call c).2.length ≤ 1 := by
  have hfinish (done total elapsed : ℕ) : (r.finish done total elapsed).2.length ≤ 1 := by
    unfold finish
    split_ifs
    · simp
    · exact length_emit_le _ _
  cases c with
  | begin phase file => simp [call]
  | progress done total now elapsed =>
    simp only [call, progress]
    split_ifs
    · exact Nat.zero_le _
    · exact Nat.zero_le _
    · exact Nat.zero_le _
    · exact length_emit_le _ _
  | finish done total elapsed => exact hfinish _ _ _
  | finishScan elapsed =>
    simp only [call, finishScan]
    split
    · exact hfinish _ _ _
    · simp
  | _ => exact length_emit_le _ _

/-- **A call** writes the lines of what it tells. -/
theorem call_tells {r : Reporter} {b : Phase × Option String} (hat : r.At b) (c : Call) :
    (r.call c).2.map String.toList = (r.tells b c).map Event.line := by
  rw [tells]
  match hlines : (r.call c).2, length_call_le r c with
  | [], _ => rfl
  | [line], _ =>
    obtain ⟨e, he, hline⟩ := exists_event hat (hlines ▸ List.mem_singleton_self line)
    rw [if_neg (List.cons_ne_nil _ _), he]
    simp [hline]
  | _ :: _ :: _, hle => simp at hle

/-- **The output** is the lines of the stream. -/
theorem output_stream (mode : Mode) (calls : List Call) :
    (output calls (new mode)).map String.toList = (stream mode calls).map Event.line := by
  have hrun (r : Reporter) (b : Phase × Option String) (hat : r.At b) :
      (output calls r).map String.toList = (streamFrom calls r b).map Event.line := by
    induction calls generalizing r b with
    | nil => rfl
    | cons c calls ih =>
      rw [output, streamFrom, List.map_append, List.map_append, call_tells hat, ih _ _ (hat.call c)]
  exact hrun _ _ ⟨rfl, rfl⟩

theorem streamFrom_append (calls calls' : List Call) (r : Reporter) (b : Phase × Option String) :
    streamFrom (calls ++ calls') r b =
      streamFrom calls r b ++ streamFrom calls' (run calls r) (calls.foldl begun b) := by
  induction calls generalizing r b with
  | nil => rfl
  | cons c calls ih =>
    rw [List.cons_append, streamFrom, streamFrom, ih, List.append_assoc]
    rfl

theorem stream_concat (mode : Mode) (calls : List Call) (c : Call) :
    stream mode (calls ++ [c]) =
      stream mode calls ++ (run calls (new mode)).tells (began calls) c := by
  rw [stream, streamFrom_append, streamFrom, streamFrom, List.append_nil]
  rfl

theorem mode_call (r : Reporter) (c : Call) : (r.call c).1.mode = r.mode := by
  cases c with
  | progress done total now elapsed =>
    simp only [call, progress]
    split_ifs <;> rfl
  | finish done total elapsed =>
    simp only [call, finish]
    split_ifs <;> rfl
  | finishScan elapsed =>
    simp only [call, finishScan, finish]
    split
    · split_ifs <;> rfl
    · rfl
  | _ => rfl

theorem mode_run (mode : Mode) (calls : List Call) : (run calls (new mode)).mode = mode := by
  have hrun (r : Reporter) : (run calls r).mode = r.mode := by
    induction calls generalizing r with
    | nil => rfl
    | cons c calls ih => exact (ih _).trans (mode_call r c)
  exact hrun _

theorem output_eq_nil {mode : Mode} (hmode : mode ≠ .json) (calls : List Call) :
    output calls (new mode) = [] := by
  have hfinish (r : Reporter) (h : r.mode ≠ .json) (done total elapsed : ℕ) :
      (r.finish done total elapsed).2 = [] := by
    unfold finish
    split_ifs
    · rfl
    · exact if_neg h
  have hcall (r : Reporter) (h : r.mode ≠ .json) (c : Call) : (r.call c).2 = [] := by
    cases c with
    | begin phase file => rfl
    | progress done total now elapsed =>
      simp only [call, progress]
      split_ifs
      · rfl
      · rfl
      · rfl
      · exact if_neg h
    | finish done total elapsed => exact hfinish r h _ _ _
    | finishScan elapsed =>
      simp only [call, finishScan]
      split
      · exact hfinish r h _ _ _
      · rfl
    | _ => exact if_neg h
  have hrun (r : Reporter) (h : r.mode ≠ .json) : output calls r = [] := by
    induction calls generalizing r with
    | nil => rfl
    | cons c calls ih =>
      rw [output, hcall r h, List.nil_append]
      exact ih _ ((mode_call r c).symm ▸ h)
  exact hrun _ hmode

/-! ### Languages -/

/-- One line of progress that is not the last of its phase. -/
def shown (phase : Phase) (file : Option String) : Language Event :=
  {w | ∃ done total elapsed, w = [.progress phase file done total elapsed false]}

/-- The last line of a phase. -/
def ended (phase : Phase) (file : Option String) : Language Event :=
  {w | ∃ done total elapsed, w = [.progress phase file done total elapsed true]}

/-- A scan: nothing, or lines of progress and a last one. -/
def scanned (phase : Phase) (file : Option String) : Language Event :=
  1 + shown phase file * (shown phase file)∗ * ended phase file

/-- The line before a download is tried again. -/
def retried : Language Event :=
  {w | ∃ attempt retries delay message, w = [.retry attempt retries delay message]}

/-- The lines of a download before its last. -/
def downloading : Language Event := (shown .download none + retried)∗

/-- The line of a run that fails. -/
def failed : Language Event := {w | ∃ message, w = [.error message]}

/-! ### The phases of the reporter -/

/-- After these calls, newest first, a reporter in JSON mode is in a phase that has not ended, whose
last values are `latest`; a phase without any has shown nothing. -/
structure InPhase (phase : Phase) (file : Option String) (latest : Option (ℕ × ℕ))
    (told : List Call) : Prop where
  began : began told.reverse = (phase, file)
  finished : (run told.reverse (new .json)).finished = false
  values : (run told.reverse (new .json)).latest = latest
  fresh : latest = none → (run told.reverse (new .json)).lastEmit = none

/-- What was told by calls, newest first. -/
def said (told : List Call) : List Event := stream .json told.reverse

theorem said_cons (c : Call) (told : List Call) : said (c :: told) =
    said told ++ (run told.reverse (new .json)).tells (began told.reverse) c := by
  rw [said, List.reverse_cons, stream_concat, said]

theorem run_cons (c : Call) (told : List Call) (r : Reporter) :
    run (c :: told).reverse r = ((run told.reverse r).call c).1 := by
  rw [List.reverse_cons, run, List.foldl_append]
  rfl

theorem began_cons (c : Call) (told : List Call) :
    began (c :: told).reverse = begun (began told.reverse) c := by
  rw [List.reverse_cons, began, List.foldl_append]
  rfl

variable {phase : Phase} {file : Option String} {latest : Option (ℕ × ℕ)} {told : List Call}

/-- **A phase begins** without a line. -/
theorem said_begin (phase : Phase) (file : Option String) (told : List Call) :
    said (.begin phase file :: told) = said told ∧
      InPhase phase file none (.begin phase file :: told) := by
  refine ⟨?_, ?_, ?_, ?_, fun _ => ?_⟩
  · rw [said_cons]
    exact List.append_nil _
  · rw [began_cons]
    rfl
  all_goals
    rw [run_cons]
    rfl

theorem said_emit {c : Call} {e : Event} {line : String}
    (hlines : ∀ r : Reporter, r.call c = (r, r.emit line))
    (he : ∀ phase file latest, c.event phase file latest = some e) (told : List Call) :
    said (c :: told) = said told ++ [e] := by
  have hmode := mode_run .json told.reverse
  rw [said_cons, tells, hlines, emit, if_pos hmode, if_neg (List.cons_ne_nil _ _), he]
  rfl

theorem InPhase.emit {c : Call} {line : String} (h : InPhase phase file latest told)
    (hlines : ∀ r : Reporter, r.call c = (r, r.emit line)) (hbegun : ∀ b, begun b c = b) :
    InPhase phase file latest (c :: told) := by
  refine ⟨?_, ?_, ?_, fun hnone => ?_⟩
  · rw [began_cons, hbegun, h.began]
  all_goals
    rw [run_cons, hlines]
  · exact h.finished
  · exact h.values
  · exact h.fresh hnone

/-- **Progress** is shown unless a line of the phase was shown shortly before. -/
theorem InPhase.progress (h : InPhase phase file latest told) (done total now elapsed : ℕ) :
    InPhase phase file (some (done, total)) (.progress done total now elapsed :: told) ∧
      (said (.progress done total now elapsed :: told) =
          said told ++ [.progress phase file done total elapsed false] ∨
        latest ≠ none ∧ said (.progress done total now elapsed :: told) = said told) := by
  let r := run told.reverse (new .json)
  have hfinished : r.finished = false := h.finished
  have hmode : r.mode = .json := mode_run .json told.reverse
  have hphase (r' : Reporter) (lines : List String)
      (hcall : r.call (.progress done total now elapsed) = (r', lines))
      (hr' : r'.finished = false ∧ r'.latest = some (done, total)) :
      InPhase phase file (some (done, total)) (.progress done total now elapsed :: told) := by
    refine ⟨(began_cons _ told).trans h.began, ?_, ?_, fun hnone => absurd hnone (by simp)⟩
    all_goals
      rw [run_cons, hcall]
    · exact hr'.1
    · exact hr'.2
  by_cases hthrottle : r.lastEmit.any fun last => now - last < progressInterval
  · have hcall : r.call (.progress done total now elapsed) =
        ({ r with latest := some (done, total) }, []) := by
      simp only [call, Reporter.progress, hfinished, Bool.false_eq_true, if_false, hthrottle,
        if_true]
    refine ⟨hphase _ _ hcall ⟨hfinished, rfl⟩, Or.inr ⟨fun hnone => ?_, ?_⟩⟩
    · have hlast : r.lastEmit = none := h.fresh hnone
      rw [hlast] at hthrottle
      exact Bool.false_ne_true hthrottle
    · rw [said_cons, tells, if_pos (congrArg Prod.snd hcall), List.append_nil]
  · have hcall : r.call (.progress done total now elapsed) =
        ({ r with
          latest := some (done, total)
          lastEmit := some now
          lastPercent := wholePercent done total },
        [progressJson { r with
          latest := some (done, total)
          lastEmit := some now
          lastPercent := wholePercent done total } done total elapsed false]) := by
      simp only [call, Reporter.progress, hfinished, Bool.false_eq_true, if_false, hthrottle,
        hmode, reduceCtorEq, false_and, Reporter.emit, if_true]
    refine ⟨hphase _ _ hcall ⟨hfinished, rfl⟩, Or.inl ?_⟩
    rw [said_cons, tells, if_neg, h.began]
    · rfl
    · rw [hcall]
      exact List.cons_ne_nil _ _

theorem InPhase.finish (h : InPhase phase file latest told) (done total elapsed : ℕ) :
    said (.finish done total elapsed :: told) =
      said told ++ [.progress phase file done total elapsed true] := by
  have hmode := mode_run .json told.reverse
  rw [said_cons, tells, if_neg, h.began]
  · rfl
  · simp [call, Reporter.finish, h.finished, Reporter.emit, hmode]

/-- **A scan ends** with its last values, if it has any. -/
theorem InPhase.finishScan (h : InPhase phase file latest told) (elapsed : ℕ) :
    said (.finishScan elapsed :: told) = said told ++
      (latest.map fun p => Event.progress phase file p.1 p.2 elapsed true).toList := by
  have hmode := mode_run .json told.reverse
  rw [said_cons, tells, h.began]
  cases latest with
  | none => simp [call, Reporter.finishScan, h.values]
  | some p =>
    rw [if_neg]
    · simp [Call.event, h.values]
    · simp [call, Reporter.finishScan, h.values, Reporter.finish, h.finished, Reporter.emit, hmode]

end Reporter

namespace Cli

open Reporter (said shown ended scanned retried downloading failed InPhase)

variable {host : Host} {cli : Cli} {cf : ControlFile} {fs : String → Option File}
  {L : Language Reporter.Event} {phase : Phase} {file : Option String}
  {told : List Reporter.Call}

/-! ### Scans -/

/-- A phase has shown nothing so far, or some lines of progress. -/
def Underway (phase : Phase) (file : Option String) (L : Language Reporter.Event)
    (told : List Reporter.Call) : Prop :=
  said told ∈ L ∧ InPhase phase file none told ∨
    said told ∈ L * (shown phase file * (shown phase file)∗) ∧
      ∃ v, InPhase phase file (some v) told

theorem append_mem_mul {M : Language Reporter.Event} {v w : List Reporter.Event} (hv : v ∈ L)
    (hw : w ∈ M) : v ++ w ∈ L * M := Language.mem_mul.2 ⟨v, hv, w, hw, rfl⟩

theorem mem_of_le {M : Language Reporter.Event} {w : List Reporter.Event} (h : L ≤ M)
    (hw : w ∈ L) : w ∈ M := Set.mem_of_subset_of_mem h hw

theorem Underway.progress (h : Underway phase file L told) (done total now elapsed : ℕ) :
    Underway phase file L (.progress done total now elapsed :: told) := by
  have hline : [Reporter.Event.progress phase file done total elapsed false] ∈ shown phase file :=
    ⟨done, total, elapsed, rfl⟩
  refine Or.inr ?_
  rcases h with ⟨hsaid, hphase⟩ | ⟨hsaid, v, hphase⟩
  · obtain ⟨hnext, hshown | ⟨hne, -⟩⟩ := hphase.progress done total now elapsed
    · refine ⟨?_, _, hnext⟩
      rw [hshown]
      refine append_mem_mul hsaid ?_
      simpa using append_mem_mul hline (Language.nil_mem_kstar (shown phase file))
    · exact absurd rfl hne
  · obtain ⟨hnext, hshown | ⟨-, hshown⟩⟩ := hphase.progress done total now elapsed
    · refine ⟨?_, _, hnext⟩
      rw [hshown]
      have hmore := append_mem_mul hsaid hline
      rw [mul_assoc, mul_assoc] at hmore
      exact mem_of_le (mul_le_mul_right (mul_le_mul_right kstar_mul_le_kstar _) _) hmore
    · exact ⟨hshown ▸ hsaid, _, hnext⟩

/-- **A scan** ends with its last values, if it has any. -/
theorem Underway.finishScan (h : Underway phase file L told) (elapsed : ℕ) :
    said (.finishScan elapsed :: told) ∈ L * scanned phase file := by
  rcases h with ⟨hsaid, hphase⟩ | ⟨hsaid, v, hphase⟩
  · rw [hphase.finishScan]
    exact append_mem_mul hsaid (Or.inl rfl)
  · rw [hphase.finishScan]
    have hend : [Reporter.Event.progress phase file v.1 v.2 elapsed true] ∈ ended phase file :=
      ⟨_, _, _, rfl⟩
    have hall := append_mem_mul hsaid hend
    rw [mul_assoc] at hall
    exact mem_of_le (mul_le_mul_right le_add_self _) hall

theorem triple_perform_told {J : List Reporter.Call → Prop} {E : ℕ → Run → Prop}
    (hJ : ∀ told done total now elapsed, J told → J (.progress done total now elapsed :: told))
    (call : Call) : Prog.Triple (fun r => J r.told) (perform host call)
      (fun _ r => J r.told) E := by
  intro r hr
  have hfold (ps : List (ℕ × ℕ)) (r : Run) (h : J r.told) : J (ps.foldl
      (fun r p => r.tell host fun now elapsed => .progress p.1 p.2 now elapsed) r).told := by
    induction ps generalizing r with
    | nil => exact h
    | cons p ps ih => exact ih _ (hJ _ _ _ _ _ h)
  exact hfold _ _ hr

/-- **A scan** says nothing, or shows progress and ends. -/
theorem triple_scan (phase : Phase) (file : Option String) (call : Call) {E : ℕ → Run → Prop} :
    Prog.Triple (fun r => said r.told ∈ L)
      (do
        tell host fun _ _ => .begin phase file
        let _ ← perform host call
        tell host fun _ elapsed => .finishScan elapsed)
      (fun _ r => said r.told ∈ L * scanned phase file) E := by
  refine Prog.Triple.bind (Q := fun _ r => Underway phase file L r.told)
    (Prog.Triple.modify fun r hr => ?_) fun _ => ?_
  · obtain ⟨hsaid, hphase⟩ := Reporter.said_begin phase file r.told
    exact Or.inl ⟨hsaid.symm ▸ hr, hphase⟩
  refine Prog.Triple.bind (triple_perform_told (fun _ _ _ _ _ h => h.progress _ _ _ _) _)
    fun _ => Prog.Triple.modify fun r hr => ?_
  exact hr.finishScan _

theorem triple_scanInputs (inputs : List (String × Seed)) {E : ℕ → Run → Prop} :
    Prog.Triple (fun r => said r.told ∈ L) (inputs.forM (scanInput host))
      (fun _ r => said r.told ∈
        L * (inputs.map fun input => scanned .scan (some input.1)).prod) E := by
  induction inputs generalizing L with
  | nil => exact Prog.Triple.pure fun r hr => (mul_one L).symm ▸ hr
  | cons input inputs ih =>
    refine Prog.Triple.bind (triple_scan .scan (some input.1) _) fun _ => ?_
    rw [List.map_cons, List.prod_cons, ← mul_assoc]
    exact ih

theorem triple_scanSelf {E : ℕ → Run → Prop} :
    Prog.Triple (fun r => said r.told ∈ L) (scanSelf host)
      (fun _ r => said r.told ∈ L * scanned .selfScan none) E := by
  refine Prog.Triple.peek fun _ _ => Prog.Triple.ite (fun _ => triple_scan _ _ _) fun _ =>
    Prog.Triple.pure fun r hr => ?_
  exact List.append_nil (said r.told) ▸ append_mem_mul hr (Or.inl rfl)

/-! ### Downloads -/

/-- The download has begun, and showed progress and retries. -/
def Downloading (L : Language Reporter.Event) (told : List Reporter.Call) : Prop :=
  said told ∈ L * downloading ∧ ∃ v, InPhase .download none v told

theorem Downloading.more (h : Downloading L told) {e : Reporter.Event} {c : Reporter.Call}
    (he : [e] ∈ shown .download none + retried) (hsaid : said (c :: told) = said told ++ [e])
    {v : Option (ℕ × ℕ)} (hphase : InPhase .download none v (c :: told)) :
    Downloading L (c :: told) := by
  refine ⟨?_, v, hphase⟩
  have hmore := append_mem_mul h.1 he
  rw [mul_assoc] at hmore
  rw [hsaid]
  exact mem_of_le (mul_le_mul_right kstar_mul_le_kstar _) hmore

theorem Downloading.progress (h : Downloading L told) (done total now elapsed : ℕ) :
    Downloading L (.progress done total now elapsed :: told) := by
  obtain ⟨v, hphase⟩ := h.2
  obtain ⟨hnext, hshown | ⟨-, hshown⟩⟩ := hphase.progress done total now elapsed
  · exact h.more (Or.inl ⟨_, _, _, rfl⟩) hshown hnext
  · exact ⟨hshown ▸ h.1, _, hnext⟩

theorem Downloading.retry (h : Downloading L told) (attempt retries delay : ℕ) (message : String) :
    Downloading L (.emitRetry attempt retries delay message :: told) := by
  obtain ⟨v, hphase⟩ := h.2
  exact h.more (Or.inr ⟨_, _, _, _, rfl⟩)
    (Reporter.said_emit (fun _ => rfl) (fun _ _ _ => rfl) told)
    (hphase.emit (fun _ => rfl) fun _ => rfl)

theorem said_error (message : String) (told : List Reporter.Call) :
    said (.emitError message :: told) = said told ++ [.error message] :=
  Reporter.said_emit (fun _ => rfl) (fun _ _ _ => rfl) told

/-- **An error** is the last line. -/
theorem triple_exit_said {α : Type} {A : Run → Prop} {Q : α → Run → Prop} (message : String)
    (hL : ∀ r, A r → said r.told ∈ L) :
    Prog.Triple A (exit host message) Q
      (fun code r => code = 1 ∧ said r.told ∈ L * failed) := by
  refine fun r hr => ⟨rfl, ?_⟩
  exact (said_error message r.told).symm ▸ append_mem_mul (hL r hr) ⟨message, rfl⟩

/-- **The downloads** show progress and retries, and an error when they are given up. -/
theorem triple_download_said :
    Prog.Triple (fun r => Downloading L r.told) (download host cli)
      (fun _ r => Downloading L r.told)
      (fun code r => code = 1 ∧ said r.told ∈ L * downloading * failed) := by
  refine Prog.Triple.peek fun r _ => Prog.Triple.ite (fun _ => Prog.Triple.pure fun _ h => h)
    fun _ => Prog.Triple.loop (I := fun _ (r : Run) => Downloading L r.told)
      (Q := fun _ (r : Run) => Downloading L r.told) (fun v => ?_) (fun _ _ h => h) _ _
  refine Prog.Triple.bind (triple_perform_told (fun _ _ _ _ _ h => h.progress _ _ _ _) _)
    fun result => Prog.Triple.peek fun r _ => ?_
  cases result with
  | ok n =>
    refine Prog.Triple.pure fun _ h => ?_
    split_ifs <;> exact h
  | error e =>
    dsimp only
    split
    · exact Prog.Triple.bind (Q := fun _ r => Downloading L r.told)
        (Prog.Triple.modify fun _ h => h.retry _ _ _ _) fun _ =>
          Prog.Triple.pure fun r (h : Downloading L r.told) => h
    · exact triple_exit_said _ fun _ h => h.1

/-! ### Transcripts -/

/-- The first line. -/
def started (cf : ControlFile) : Language Reporter.Event :=
  {[.start cf.length cf.blockChecksums.length cf.blocksize]}

/-- The end of the downloads, with every byte of the target. -/
def downloaded (cf : ControlFile) : Language Reporter.Event :=
  {w | ∃ elapsed, w = [.progress .download none cf.length cf.length elapsed true, .phase .verify]}

/-- The last line. -/
def installed (path : String) : Language Reporter.Event := {[.done path]}

/-- What a run tells before the end of its downloads: the scans of the source files in their order,
that of the temporary file, and then the downloads with their retries. -/
def transcript (cli : Cli) (cf : ControlFile) : Language Reporter.Event :=
  started cf * (cli.input.map fun input => scanned .scan (some input.1)).prod *
    scanned .selfScan none * downloading

/-- **The end** of a run. -/
theorem triple_verify_said (hcf : cf.Checked) :
    Prog.Triple (fun r => Downloading L r.told ∧ Base host.env cf r.state) (verify host cli)
      (fun _ r => said r.told ∈ L * downloading *
        (downloaded cf * installed cli.outputPath))
      (fun code r => code = 1 ∧ said r.told ∈ L * downloading *
        ((1 + downloaded cf) * failed)) := by
  have hskip : (1 : Language Reporter.Event) ≤ 1 + downloaded cf := le_self_add
  refine Prog.Triple.peek fun r hr => Prog.Triple.ite (fun _ => ?_) fun hcomplete => ?_
  · refine (triple_exit_said _ fun _ h => h.1.1).conseq (fun _ h => h) (fun _ _ h => h) ?_
    refine fun code r h => ⟨h.1, mem_of_le (mul_le_mul_right ?_ _) h.2⟩
    exact (one_mul failed).ge.trans (mul_le_mul_left hskip _)
  have hprogress := hr.2.fit.progress_of_complete hcf (not_not.1 hcomplete)
  rw [hprogress]
  refine Prog.Triple.bind (Q := fun _ r => ∃ w ∈ L * downloading, ∃ elapsed,
      said r.told = w ++ [.progress .download none cf.length cf.length elapsed true])
    (Prog.Triple.modify fun r h => ?_) fun _ => ?_
  · obtain ⟨v, hphase⟩ := h.1.2
    exact ⟨_, h.1.1, _, hphase.finish _ _ _⟩
  refine Prog.Triple.bind (Q := fun _ r => said r.told ∈
      L * downloading * downloaded cf)
    (Prog.Triple.modify ?_) fun _ => ?_
  · rintro r ⟨w, hw, elapsed, hsaid⟩
    have hphase : said (.emitPhase .verify :: r.told) = said r.told ++ [.phase .verify] :=
      Reporter.said_emit (fun _ => rfl) (fun _ _ _ => rfl) _
    rw [hsaid, List.append_assoc] at hphase
    exact hphase ▸ append_mem_mul hw ⟨elapsed, rfl⟩
  refine Prog.Triple.bind (Q := fun _ (r : Run) => said r.told ∈
    L * downloading * downloaded cf) (fun r h => h) fun result => ?_
  cases result with
  | error e =>
    refine Prog.Triple.bind (Q := fun _ r => said r.told ∈
      L * downloading * downloaded cf * failed)
      (Prog.Triple.modify fun r h => ?_) fun _ => Prog.Triple.throw fun r h => ⟨rfl, ?_⟩
    · exact (said_error _ r.told).symm ▸ append_mem_mul h ⟨_, rfl⟩
    · rw [mul_assoc (L * downloading)] at h
      exact mem_of_le (mul_le_mul_right (mul_le_mul_left le_add_self _) _) h
  | ok u =>
    refine Prog.Triple.modify fun r h => ?_
    have hsaid : said (.emitDone cli.outputPath :: r.told) =
        said r.told ++ [.done cli.outputPath] :=
      Reporter.said_emit (fun _ => rfl) (fun _ _ _ => rfl) _
    have hlast : [Reporter.Event.done cli.outputPath] ∈ installed cli.outputPath := rfl
    have hall := append_mem_mul h hlast
    rw [mul_assoc (L * downloading)] at hall
    exact hsaid ▸ hall

theorem perform_threshold (threshold : ℕ) (r : Run) :
    perform host (.setRangeGapThreshold threshold) r =
      (.ok (.ok 0), { r with state := { r.state with rangeGapThreshold := threshold } }) := by
  have hexec : (Call.setRangeGapThreshold threshold).exec host.env r.state =
      (.ok 0, { r.state with rangeGapThreshold := threshold }) := rfl
  simp only [perform, hexec, Nat.sub_self, List.take_zero, List.reverse_nil, List.filterMap_nil,
    List.foldl_nil]

/-- **The scans** follow the first line. -/
theorem triple_scans_said (hcf : cf.Checked) :
    Prog.Triple (fun r => r.told = [] ∧ Base host.env cf r.state) (scans host cli)
      (fun _ r => Downloading (started cf * (cli.input.map fun input =>
        scanned .scan (some input.1)).prod * scanned .selfScan none) r.told)
      fun _ _ => False := by
  refine Prog.Triple.bind (Q := fun _ r => r.told = [] ∧ Base host.env cf r.state)
    (fun r hr => ?_) fun _ => Prog.Triple.peek fun r hr => ?_
  · rw [perform_threshold]
    exact ⟨hr.1, hr.2.control, hr.2.matcher, hr.2.tempPath, hr.2.file⟩
  rw [hr.2.fit.progress_eq hcf, Retry.blockStats_eq hcf hr.2, hr.2.control]
  refine Prog.Triple.bind (Q := fun _ r => said r.told ∈ started cf)
    (Prog.Triple.modify fun r h => ?_) fun _ => ?_
  · have hsaid : said (.emitStart cf.length cf.blockChecksums.length cf.blocksize :: r.told) =
        said r.told ++ [.start cf.length cf.blockChecksums.length cf.blocksize] :=
      Reporter.said_emit (fun _ => rfl) (fun _ _ _ => rfl) _
    rw [h.1] at hsaid
    rw [Run.tell, h.1]
    exact hsaid ▸ rfl
  refine Prog.Triple.bind (triple_scanInputs _) fun _ => Prog.Triple.bind triple_scanSelf fun _ =>
    Prog.Triple.modify fun r h => ?_
  obtain ⟨hsaid, hphase⟩ := Reporter.said_begin .download none r.told
  refine ⟨hsaid.symm ▸ ?_, none, hphase⟩
  exact mem_of_le ((mul_one _).ge.trans (mul_le_mul_right one_le_kstar _)) h

variable (host cli fs) in
/-- **A process** tells a transcript. -/
theorem triple_transfer_said (hcf : cf.Checked) :
    Prog.Triple (· = ⟨startOf cli cf fs, []⟩) (transfer host cli)
      (fun _ r => said r.told ∈ transcript cli cf * (downloaded cf * installed cli.outputPath))
      (fun code r => code = 1 ∧
        said r.told ∈ transcript cli cf * ((1 + downloaded cf) * failed)) := by
  have hskip : (1 : Language Reporter.Event) ≤ 1 + downloaded cf := le_self_add
  have hstart : Base host.env cf (startOf cli cf fs) := base_start _ _ _ _ _
  have hled : Prog.Triple (On (Led host (startOf cli cf fs))) (scans host cli)
      (fun _ => On (Led host (startOf cli cf fs))) fun _ _ => False :=
    triple_scans fun call _ s => Led.call call
  refine Prog.Triple.bind (((triple_scans_said hcf).and hled).conseq ?_ (fun _ _ h => h)
    fun _ _ h => h.1.elim) fun _ => ?_
  · rintro _ rfl
    exact ⟨⟨rfl, hstart⟩, [], rfl⟩
  refine Prog.Triple.bind ((triple_download_said.and triple_download).conseq (fun _ h => h)
    (fun _ _ h => h) fun code r h => ⟨h.1.1, ?_⟩) fun _ => ?_
  · exact mem_of_le (mul_le_mul_right ((one_mul failed).ge.trans (mul_le_mul_left hskip _)) _) h.1.2
  · refine (triple_verify_said hcf).conseq (fun r h => ⟨h.1, ?_⟩) (fun _ _ h => h) fun _ _ h => h
    obtain ⟨calls, hcalls⟩ := h.2
    exact hcalls ▸ (others_of_calls host _ _ _ fs hcf calls).2

/-- **The standard output.**  Outside JSON mode a run writes nothing.  In JSON mode its lines are
JSON objects, each decoding to an event with the values it was given, and the events are: the start
with the sizes of the control file; for each source file in order, and then for the temporary file,
nothing or progress and a last line; progress and retries of the download; and at the end, when the
exit code is 0, the last line of the download, which tells the whole target, the verification and
the path, and else one error, before or after the first two of these.  When there is no control file
the error is the only line. -/
theorem main_speaks (host : Host) (cli : Cli) (fs : String → Option File) :
    let exit := main host cli fs
    let lines := Reporter.output exit.told (.new (mode host cli))
    (cli.json = false → lines = []) ∧
    (cli.json = true → ∃ es : List Reporter.Event,
      (lines.map fun line => Json.decode line.toList) = es.map (fun e => some (.object e.fields)) ∧
      ((∃ e, fetchControlFile host cli.url = .error e ∧ exit.code = 1 ∧ es ∈ failed) ∨
        ∃ cf, fetchControlFile host cli.url = .ok cf ∧
          (exit.code = 0 ∧ es ∈ transcript cli cf * (downloaded cf * installed cli.outputPath) ∨
            exit.code = 1 ∧ es ∈ transcript cli cf * ((1 + downloaded cf) * failed)))) := by
  intro exit lines
  refine ⟨fun hjson => Reporter.output_eq_nil ?_ _, fun hjson =>
    ⟨Reporter.stream .json exit.told, ?_, ?_⟩⟩
  · rw [mode, hjson, if_neg Bool.false_ne_true]
    split_ifs
    · exact Mode.noConfusion
    · exact Mode.noConfusion
  · have hlines : lines.map String.toList =
        (Reporter.stream .json exit.told).map Reporter.Event.line := by
      rw [← Reporter.output_stream, ← show mode host cli = .json from if_pos hjson]
    have hdecode := congrArg (List.map Json.decode) hlines
    rw [List.map_map, List.map_map] at hdecode
    refine hdecode.trans (List.map_congr_left fun e _ => e.decode_line)
  · cases hfetch : fetchControlFile host cli.url with
    | error e =>
      refine Or.inl ⟨e, rfl, ?_⟩
      have hmain : exit = _ := main_of_error hfetch
      rw [hmain]
      exact ⟨rfl, _, said_error _ []⟩
    | ok cf =>
      refine Or.inr ⟨cf, rfl, ?_⟩
      have hpost := triple_transfer_said host cli fs (checked_of_fetch hfetch)
        ⟨startOf cli cf fs, []⟩ rfl
      simp only [exit, main_of_ok hfetch]
      revert hpost
      match transfer host cli ⟨startOf cli cf fs, []⟩ with
      | (.ok (), r) => exact fun h => Or.inl ⟨rfl, h⟩
      | (.error code, r) => exact fun h => Or.inr h

end Cli

end Zsync
