import Zsync.Cli.Stdout
import Zsync.Data.Throttle

/-!
# The lines of a phase

Which of the reports in a phase are written, and what the phase ends with.

* `Reporter.Reading` : a report, and the clocks when it came;
* `Reporter.streamFrom_reports` : what the reports of a phase tell;
* `Reporter.phase_throttled` : the lines of a phase come a tenth of a second apart, and the last
  one has the last values.
-/

namespace Zsync

namespace Reporter

/-- A report and what the reporter reads from its clocks then. -/
structure Reading where
  done : ℕ
  total : ℕ
  now : ℕ
  elapsed : ℕ

/-- The call that a report makes. -/
def Reading.call (p : Reading) : Call := .progress p.done p.total p.now p.elapsed

/-- What a line of a report tells. -/
def Reading.event (phase : Phase) (file : Option String) (p : Reading) : Event :=
  .progress phase file p.done p.total p.elapsed false

variable {r : Reporter}

/-- The reporter after a line with these values. -/
def Reading.shown (p : Reading) (r : Reporter) : Reporter :=
  { r with
    latest := some (p.done, p.total)
    lastEmit := some p.now
    lastPercent := wholePercent p.done p.total }

/-- **A report** tells nothing while the throttle holds it back. -/
theorem call_held (hfinished : r.finished = false) {p : Reading}
    (hheld : r.lastEmit.any fun last => p.now - last < progressInterval) :
    r.call p.call = ({ r with latest := some (p.done, p.total) }, []) := by
  simp only [Reading.call, call, progress, hfinished, Bool.false_eq_true, if_false, hheld, if_true]

/-- **A report** that gets through tells its values. -/
theorem call_free (hmode : r.mode = .json) (hfinished : r.finished = false) {p : Reading}
    (hfree : ¬ r.lastEmit.any fun last => p.now - last < progressInterval) :
    r.call p.call = (p.shown r, [progressJson (p.shown r) p.done p.total p.elapsed false]) := by
  simp only [Reading.call, call, progress, hfinished, Bool.false_eq_true, if_false, hfree, hmode,
    reduceCtorEq, false_and, emit, if_true, Reading.shown]

theorem tells_finishScan (hmode : r.mode = .json) (hfinished : r.finished = false)
    (b : Phase × Option String) (elapsed : ℕ) :
    r.tells b (.finishScan elapsed) =
      (r.latest.map fun v => Event.progress b.1 b.2 v.1 v.2 elapsed true).toList := by
  rw [tells]
  cases hlatest : r.latest with
  | none => simp [call, finishScan, hlatest]
  | some v =>
    rw [if_neg]
    · rfl
    · simp [call, finishScan, hlatest, finish, hfinished, emit, hmode]

/-- **The reports of a phase** tell what gets through the throttle, and at its end the last values,
if there are any. -/
theorem streamFrom_reports (hmode : r.mode = .json) (hfinished : r.finished = false)
    (phase : Phase) (file : Option String) (ps : List Reading) (elapsed : ℕ) :
    streamFrom (ps.map Reading.call ++ [.finishScan elapsed]) r (phase, file) =
      (throttled progressInterval Reading.now r.lastEmit ps).map (Reading.event phase file) ++
        (((ps.getLast?.map fun p => (p.done, p.total)).or r.latest).map fun v =>
          Event.progress phase file v.1 v.2 elapsed true).toList := by
  induction ps generalizing r with
  | nil =>
    simp only [List.map_nil, List.nil_append, streamFrom, List.append_nil]
    rw [tells_finishScan hmode hfinished]
    rfl
  | cons p ps ih =>
    have hlast (v : Option (ℕ × ℕ)) : ((p :: ps).getLast?.map fun p => (p.done, p.total)).or v =
        (ps.getLast?.map fun p => (p.done, p.total)).or (some (p.done, p.total)) := by
      cases h : ps.getLast? <;> simp [List.getLast?_cons, h]
    rw [List.map_cons, List.cons_append, streamFrom, hlast]
    by_cases hheld : r.lastEmit.any fun last => p.now - last < progressInterval
    · have hcall := call_held hfinished hheld
      rw [throttled_of_held hheld, tells, if_pos (congrArg Prod.snd hcall), hcall, List.nil_append]
      exact ih hmode hfinished
    · have hcall := call_free hmode hfinished hheld
      have hlines : (r.call p.call).2 ≠ [] := by
        rw [hcall]
        exact List.cons_ne_nil _ _
      rw [throttled_of_free hheld, tells, if_neg hlines, hcall, List.map_cons]
      exact congrArg _ (ih (r := p.shown r) hmode hfinished)

/-- **The lines of a phase.**  Whatever was told before, a phase that gets reports and then ends
writes lines for some of them in their order, and one more.  The first report has its line; the
lines are a tenth of a second apart, so that in `n` of these there are at most `n + 1`; a report
without a line comes less than that after the last line before it; and the last line, marked as
final, has the values of the last report.  A phase without reports writes no line. -/
theorem phase_throttled (calls : List Call) (phase : Phase) (file : Option String)
    (ps : List Reading) (elapsed : ℕ) :
    ∃ shown : List Reading,
      stream .json (calls ++ .begin phase file :: (ps.map Reading.call ++ [.finishScan elapsed])) =
        stream .json calls ++ (shown.map (Reading.event phase file) ++
          (ps.getLast?.map fun p => Event.progress phase file p.done p.total elapsed true).toList) ∧
      shown.Sublist ps ∧ shown.head? = ps.head? ∧
      (shown.Pairwise fun p q => p.now + progressInterval ≤ q.now) ∧
      (∀ before p after, ps = before ++ p :: after → ∃ shown₁ q shown₂,
        shown = shown₁ ++ q :: shown₂ ∧ (shown₁ ++ [q]).Sublist (before ++ [p]) ∧
          shown₂.Sublist after ∧ p.now < q.now + progressInterval ∧
          ((ps.Pairwise fun p p' => p.now ≤ p'.now) → q.now ≤ p.now)) ∧
      ∀ a b, (∀ p ∈ ps, a ≤ p.now ∧ p.now ≤ b) →
        shown.length ≤ (b - a) / progressInterval + 1 := by
  have hpos : 0 < progressInterval := by decide
  have hmode := mode_run .json calls
  refine ⟨throttled progressInterval Reading.now none ps, ?_, throttled_sublist _ _, ?_,
    pairwise_throttled hpos _ _, ?_, fun a b hmem => length_throttled_le hpos _ hmem⟩
  · have hphase := streamFrom_reports (r := (run calls (new .json)).begin phase file) hmode rfl
      phase file ps elapsed
    have hbegin : (run calls (new .json)).tells (began calls) (.begin phase file) = [] := if_pos rfl
    have hlatest : ((run calls (new .json)).begin phase file).latest = none := rfl
    rw [hlatest, Option.or_none, Option.map_map] at hphase
    rw [stream, streamFrom_append, streamFrom]
    refine congrArg _ ?_
    rw [show calls.foldl begun (.download, none) = began calls from rfl, hbegin]
    exact hphase
  · cases ps with
    | nil => rfl
    | cons p ps => rw [throttled_none_cons, List.head?_cons, List.head?_cons]
  · rintro before p after rfl
    obtain ⟨l, hl, hlt⟩ : ∃ l ∈ ((throttled progressInterval Reading.now none
        (before ++ [p])).getLast?.map Reading.now).or none, p.now < l + progressInterval :=
      throttled_covers hpos none before p
    rw [Option.or_none, Option.mem_def, Option.map_eq_some_iff] at hl
    obtain ⟨q, hq, rfl⟩ := hl
    obtain ⟨shown₁, hshown⟩ := List.getLast?_eq_some_iff.1 hq
    have hsub : (shown₁ ++ [q]).Sublist (before ++ [p]) := hshown ▸ throttled_sublist _ _
    refine ⟨shown₁, q, throttled progressInterval Reading.now (some q.now) after, ?_, hsub,
      throttled_sublist _ _, hlt, fun hsorted => ?_⟩
    · rw [List.append_cons, throttled_append, hq, hshown, List.append_assoc]
      rfl
    · -- the line is for this report or for one before it
      have hmem : q ∈ before ++ [p] := hsub.subset (by simp)
      rcases List.mem_append.1 hmem with hmem | hmem
      · exact (List.pairwise_append.1 hsorted).2.2 q hmem p List.mem_cons_self
      · exact (List.mem_singleton.1 hmem) ▸ le_rfl

end Reporter

end Zsync
