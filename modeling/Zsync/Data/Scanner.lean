import Mathlib

/-!
# Greedy scanners

A scanner tests one offset after another.  A test may be given a hint by the test before it; when
it finds something it says how far to skip, what to expect next and what to report, and otherwise
the scan goes on at the next offset without a hint.

* `Scanner`, `Scanner.visits`, `Scanner.reports` : a scanner, the offsets it tests, what it reports;
* `Scanner.mem_visits_iff` : the tested offsets are those that no skip passes over;
* `Scanner.length_reports_le` : how much a run reports, from what each test reports;
* `Scanner.reports_congr`, `Scanner.reports_shift` : scanners whose tests are the same, at the same
  or at shifted offsets.
-/

namespace Zsync

/-- What a test has found. -/
structure Hit (η β : Type*) where
  /-- How many offsets are skipped, the tested one included. -/
  span : ℕ
  /-- The hint for the next test. -/
  next : Option η
  reports : List β

/-- The tests of a scanner, by offset and hint. -/
structure Scanner (η β : Type*) where
  test : ℕ → Option η → Option (Hit η β)
  span_pos : ∀ {x h hit}, test x h = some hit → 0 < hit.span

namespace Scanner

variable {η β : Type*} (S : Scanner η β) {l : ℕ} {v : ℕ × Option η}

/-! ### Runs -/

/-- How many offsets the test at `v` moves on. -/
def span (v : ℕ × Option η) : ℕ := ((S.test v.1 v.2).map Hit.span).getD 1

/-- The offset and the hint after the test at `v`. -/
def step (v : ℕ × Option η) : ℕ × Option η := (v.1 + S.span v, (S.test v.1 v.2).bind Hit.next)

/-- What the test at `v` reports. -/
def found (v : ℕ × Option η) : List β := ((S.test v.1 v.2).map Hit.reports).getD []

theorem span_eq_pos (v : ℕ × Option η) : 0 < S.span v := by
  unfold span
  cases h : S.test v.1 v.2 with
  | none => exact Nat.one_pos
  | some hit => exact S.span_pos h

/-- The tests below offset `l`, from `v` on. -/
def visits (l : ℕ) (v : ℕ × Option η) : List (ℕ × Option η) :=
  if v.1 < l then v :: visits l (S.step v) else []
termination_by l - v.1
decreasing_by
  have := S.span_eq_pos v
  simp only [step]
  omega

/-- What the tests below offset `l` report, from `v` on. -/
def reports (l : ℕ) (v : ℕ × Option η) : List β := (S.visits l v).flatMap S.found

theorem visits_of_lt (h : v.1 < l) : S.visits l v = v :: S.visits l (S.step v) := by
  rw [visits, if_pos h]

theorem mem_visits_self (h : v.1 < l) : v ∈ S.visits l v :=
  S.visits_of_lt h ▸ List.mem_cons_self

theorem visits_of_le (h : l ≤ v.1) : S.visits l v = [] := by
  rw [visits, if_neg (Nat.not_lt.2 h)]

theorem reports_of_lt (h : v.1 < l) :
    S.reports l v = S.found v ++ S.reports l (S.step v) := by
  rw [reports, visits_of_lt S h, List.flatMap_cons, ← reports]

theorem reports_of_le (h : l ≤ v.1) : S.reports l v = [] := by
  rw [reports, visits_of_le S h, List.flatMap_nil]

theorem run_induction {P : ℕ × Option η → Prop} (l : ℕ) (hend : ∀ v, l ≤ v.1 → P v)
    (hstep : ∀ v, v.1 < l → P (S.step v) → P v) (v : ℕ × Option η) : P v := by
  induction hn : l - v.1 using Nat.strong_induction_on generalizing v with
  | _ n ih =>
    rcases Nat.lt_or_ge v.1 l with hlt | hge
    · refine hstep v hlt (ih _ ?_ _ rfl)
      have := S.span_eq_pos v
      simp only [step]
      omega
    · exact hend v hge

/-! ### Tested offsets -/

theorem le_of_mem_visits {u : ℕ × Option η} (h : u ∈ S.visits l v) : v.1 ≤ u.1 ∧ u.1 < l := by
  induction v using S.run_induction l with
  | hend v hv => simp [visits_of_le S hv] at h
  | hstep v hv ih =>
    rw [visits_of_lt S hv] at h
    rcases List.mem_cons.1 h with rfl | h
    · exact ⟨le_rfl, hv⟩
    · have := ih h
      simp only [step] at this
      omega

theorem eq_of_mem_visits {u u' : ℕ × Option η} (hu : u ∈ S.visits l v) (hu' : u' ∈ S.visits l v)
    (h : u.1 = u'.1) : u = u' := by
  induction v using S.run_induction l with
  | hend v hv => simp [visits_of_le S hv] at hu
  | hstep v hv ih =>
    have hpos := S.span_eq_pos v
    have hnext : (S.step v).1 = v.1 + S.span v := rfl
    rw [visits_of_lt S hv] at hu hu'
    rcases List.mem_cons.1 hu with rfl | hu <;> rcases List.mem_cons.1 hu' with rfl | hu'
    · rfl
    · have := (S.le_of_mem_visits hu').1
      omega
    · have := (S.le_of_mem_visits hu).1
      omega
    · exact ih hu hu'

theorem step_mem_visits {u : ℕ × Option η} (hu : u ∈ S.visits l v) (hlt : (S.step u).1 < l) :
    S.step u ∈ S.visits l v := by
  induction v using S.run_induction l with
  | hend v hv => simp [visits_of_le S hv] at hu
  | hstep v hv ih =>
    rw [visits_of_lt S hv] at hu ⊢
    rcases List.mem_cons.1 hu with rfl | hu
    · exact List.mem_cons_of_mem _ (S.mem_visits_self hlt)
    · exact List.mem_cons_of_mem _ (ih hu)

theorem of_mem_visits {I : ℕ × Option η → Prop} (hstep : ∀ v, v.1 < l → I v → I (S.step v))
    (hv : I v) {u : ℕ × Option η} (h : u ∈ S.visits l v) : I u := by
  induction v using S.run_induction l with
  | hend v hge => simp [visits_of_le S hge] at h
  | hstep v hlt ih =>
    rw [visits_of_lt S hlt] at h
    rcases List.mem_cons.1 h with rfl | h
    · exact hv
    · exact ih (hstep v hlt hv) h

/-- **The tested offsets** are those below the limit that no skip passes over. -/
theorem mem_visits_iff {x : ℕ} : (∃ u ∈ S.visits l v, u.1 = x) ↔
    v.1 ≤ x ∧ x < l ∧ ∀ u ∈ S.visits l v, ¬ (u.1 < x ∧ x < u.1 + S.span u) := by
  induction v using S.run_induction l with
  | hend v hv =>
    simp only [visits_of_le S hv, List.not_mem_nil, false_and, exists_false, false_iff]
    omega
  | hstep v hv ih =>
    have hpos := S.span_eq_pos v
    have hnext : (S.step v).1 = v.1 + S.span v := rfl
    simp only [visits_of_lt S hv, List.mem_cons, exists_eq_or_imp, forall_eq_or_imp, ih, hnext]
    constructor
    · rintro (rfl | ⟨h1, h2, h3⟩)
      · refine ⟨le_rfl, hv, by omega, fun u hu => ?_⟩
        have := (S.le_of_mem_visits hu).1
        omega
      · exact ⟨by omega, h2, by omega, h3⟩
    · rintro ⟨h1, h2, h3, h4⟩
      rcases Nat.eq_or_lt_of_le h1 with rfl | hlt
      · exact Or.inl rfl
      · exact Or.inr ⟨by omega, h2, h4⟩

/-- When every find reports at most `k` items for `w` offsets that it moves on, and moves on by at
most `c` of them, so does the run. -/
theorem length_reports_le {w k c : ℕ} (hspan : ∀ v, v.1 < l → S.span v ≤ c)
    (hfound : ∀ v, v.1 < l → (S.found v).length * w ≤ k * S.span v) (v : ℕ × Option η) :
    (S.reports l v).length * w ≤ k * (l + c - v.1) := by
  induction v using S.run_induction l with
  | hend v hge => simp [reports_of_le S hge]
  | hstep v hlt ih =>
    have hnext : (S.step v).1 = v.1 + S.span v := rfl
    have hle := hspan v hlt
    have hsplit : l + c - v.1 = S.span v + (l + c - (S.step v).1) := by omega
    rw [reports_of_lt S hlt, List.length_append, Nat.add_mul, hsplit, Nat.mul_add]
    exact Nat.add_le_add (hfound v hlt) ih

/-! ### Comparing runs -/

theorem step_congr {S' : Scanner η β} (h : S.test v.1 v.2 = S'.test v.1 v.2) :
    S.step v = S'.step v ∧ S.found v = S'.found v := by
  simp only [step, found, span, h, and_self]

/-- A scanner whose steps are those of another one, up to the test at `u`, comes to this test
too. -/
theorem mem_visits_of_step_eq {S' : Scanner η β} {u : ℕ × Option η} (hu : u ∈ S.visits l v)
    (h : ∀ u' ∈ S.visits l v, u'.1 < u.1 → S'.step u' = S.step u') : u ∈ S'.visits l v := by
  induction v using S.run_induction l with
  | hend v hv => simp [visits_of_le S hv] at hu
  | hstep v hv ih =>
    rw [visits_of_lt S hv] at hu h
    rcases List.mem_cons.1 hu with rfl | hu
    · exact S'.mem_visits_self hv
    · have hlt : v.1 < u.1 := (Nat.lt_add_of_pos_right (S.span_eq_pos v)).trans_le
        (S.le_of_mem_visits hu).1
      rw [visits_of_lt S' hv, h v List.mem_cons_self hlt]
      exact List.mem_cons_of_mem _ (ih hu fun u' hu' => h u' (List.mem_cons_of_mem _ hu'))

theorem reports_congr {S' : Scanner η β}
    (h : ∀ x h, v.1 ≤ x → x < l → S.test x h = S'.test x h) :
    S.reports l v = S'.reports l v := by
  induction v using S.run_induction l with
  | hend v hv => rw [reports_of_le S hv, reports_of_le S' hv]
  | hstep v hv ih =>
    obtain ⟨hstep, hfound⟩ := S.step_congr (h v.1 v.2 le_rfl hv)
    have hle : v.1 ≤ (S.step v).1 := Nat.le_add_right _ _
    rw [reports_of_lt S hv, reports_of_lt S' hv, ih fun x h' hx => h x h' (hle.trans hx), hstep,
      hfound]

/-- A scanner with the tests of another one, `d` offsets before them. -/
theorem reports_shift {S' : Scanner η β} {d : ℕ}
    (h : ∀ x h, v.1 ≤ x → x < l → S'.test x h = S.test (d + x) h) :
    S'.reports l v = S.reports (d + l) (d + v.1, v.2) := by
  induction v using S'.run_induction l with
  | hend v hv => rw [reports_of_le S' hv, reports_of_le S (by simpa using hv)]
  | hstep v hv ih =>
    have hle : v.1 ≤ (S'.step v).1 := Nat.le_add_right _ _
    have htest := h v.1 v.2 le_rfl hv
    rw [reports_of_lt S' hv, reports_of_lt S (by simpa using hv),
      ih fun x h' hx => h x h' (hle.trans hx)]
    simp only [found, step, span, htest, Nat.add_assoc]

end Scanner

end Zsync
