import Mathlib.Data.List.Basic
import Mathlib.Tactic

/-!
# Throttling

What gets through a throttle, which lets nothing through for some time after what it let through
last.

* `throttled` : what gets through, in order;
* `pairwise_throttled` : any two of these are at least the interval apart;
* `throttled_covers` : what is held back comes shortly after what got through last;
* `length_throttled_le` : how many get through in a span of time.
-/

namespace Zsync

variable {α : Type} (interval : ℕ) (time : α → ℕ)

/-- What gets through of some items, after an item at `last`, if any. -/
def throttled : Option ℕ → List α → List α
  | _, [] => []
  | last, p :: ps =>
    if last.any fun l => time p - l < interval then throttled last ps
    else p :: throttled (some (time p)) ps

variable {interval time} {last : Option ℕ} {p : α} {ps : List α}

theorem throttled_of_held (h : last.any fun l => time p - l < interval) :
    throttled interval time last (p :: ps) = throttled interval time last ps := by
  rw [throttled, if_pos h]

theorem throttled_of_free (h : ¬ last.any fun l => time p - l < interval) :
    throttled interval time last (p :: ps) = p :: throttled interval time (some (time p)) ps := by
  rw [throttled, if_neg h]

theorem throttled_none_cons (p : α) (ps : List α) :
    throttled interval time none (p :: ps) = p :: throttled interval time (some (time p)) ps :=
  throttled_of_free (by simp)

theorem throttled_sublist (last : Option ℕ) (ps : List α) :
    (throttled interval time last ps).Sublist ps := by
  induction ps generalizing last with
  | nil => exact List.Sublist.refl []
  | cons p ps ih =>
    by_cases h : last.any fun l => time p - l < interval
    · rw [throttled_of_held h]
      exact (ih last).cons p
    · rw [throttled_of_free h]
      exact (ih _).cons_cons p

/-- What gets through comes the interval after the last that did. -/
theorem le_time_of_throttled (hpos : 0 < interval) {l : ℕ} (ps : List α) :
    ∀ q ∈ throttled interval time (some l) ps, l + interval ≤ time q := by
  induction ps generalizing l with
  | nil => exact fun q hq => absurd hq List.not_mem_nil
  | cons p ps ih =>
    by_cases h : (some l).any fun l => time p - l < interval
    · rw [throttled_of_held h]
      exact ih
    · rw [throttled_of_free h]
      have hp : l + interval ≤ time p := by
        simp only [Option.any_some, decide_eq_true_eq, not_lt] at h
        omega
      intro q hq
      rcases List.mem_cons.1 hq with rfl | hq
      · exact hp
      · have hlater := ih q hq
        omega

/-- **What gets through** is at least the interval apart. -/
theorem pairwise_throttled (hpos : 0 < interval) (last : Option ℕ) (ps : List α) :
    (throttled interval time last ps).Pairwise fun p q => time p + interval ≤ time q := by
  induction ps generalizing last with
  | nil => exact List.Pairwise.nil
  | cons p ps ih =>
    by_cases h : last.any fun l => time p - l < interval
    · rw [throttled_of_held h]
      exact ih last
    · rw [throttled_of_free h]
      exact List.pairwise_cons.2 ⟨le_time_of_throttled hpos ps, ih _⟩

theorem throttled_append (last : Option ℕ) (ps ps' : List α) :
    throttled interval time last (ps ++ ps') = throttled interval time last ps ++
      throttled interval time
        (((throttled interval time last ps).getLast?.map time).or last) ps' := by
  induction ps generalizing last with
  | nil => rfl
  | cons p ps ih =>
    by_cases h : last.any fun l => time p - l < interval
    · rw [List.cons_append, throttled_of_held h, throttled_of_held h, ih]
    · have hlast (l : List α) : ((p :: l).getLast?.map time).or last =
          (l.getLast?.map time).or (some (time p)) := by
        cases hl : l.getLast? <;> simp [List.getLast?_cons, hl]
      rw [List.cons_append, throttled_of_free h, throttled_of_free h, ih, hlast, List.cons_append]

/-- **What is held back** comes less than the interval after what got through last. -/
theorem throttled_covers (hpos : 0 < interval) (last : Option ℕ) (ps : List α) (p : α) :
    ∃ l ∈ ((throttled interval time last (ps ++ [p])).getLast?.map time).or last,
      time p < l + interval := by
  rw [throttled_append]
  generalize hbefore : ((throttled interval time last ps).getLast?.map time).or last = before
  by_cases h : before.any fun l => time p - l < interval
  · rw [throttled_of_held h, throttled, List.append_nil, hbefore]
    obtain ⟨l, rfl, hl⟩ := (Option.any_eq_true _ _).1 h
    simp only [decide_eq_true_eq] at hl
    exact ⟨l, rfl, by omega⟩
  · rw [throttled_of_free h, throttled]
    exact ⟨time p, by simp, by omega⟩

theorem length_le_of_pairwise (hpos : 0 < interval) {l : List α}
    (h : l.Pairwise fun p q => time p + interval ≤ time q) {a b : ℕ}
    (hmem : ∀ p ∈ l, a ≤ time p ∧ time p ≤ b) : l.length ≤ (b - a) / interval + 1 := by
  induction l generalizing a with
  | nil => exact Nat.zero_le _
  | cons p l ih =>
    obtain ⟨hp, hl⟩ := List.pairwise_cons.1 h
    obtain ⟨hap, hpb⟩ := hmem p List.mem_cons_self
    cases l with
    | nil => exact Nat.succ_le_succ (Nat.zero_le _)
    | cons q l =>
      have hq := hp q List.mem_cons_self
      have hqb := (hmem q (List.mem_cons_of_mem _ List.mem_cons_self)).2
      have hrest := ih hl (a := a + interval) fun r hr =>
        ⟨by have := hp r hr; omega, (hmem r (List.mem_cons_of_mem _ hr)).2⟩
      have hspan : (b - a) / interval = (b - (a + interval)) / interval + 1 := by
        rw [← Nat.add_div_right _ hpos]
        congr 1
        omega
      rw [List.length_cons, hspan]
      omega

/-- **How much gets through** in a span of time. -/
theorem length_throttled_le (hpos : 0 < interval) (last : Option ℕ) {ps : List α} {a b : ℕ}
    (hmem : ∀ p ∈ ps, a ≤ time p ∧ time p ≤ b) :
    (throttled interval time last ps).length ≤ (b - a) / interval + 1 :=
  length_le_of_pairwise hpos (pairwise_throttled hpos last ps) fun p hp =>
    hmem p ((throttled_sublist last ps).subset hp)

end Zsync
