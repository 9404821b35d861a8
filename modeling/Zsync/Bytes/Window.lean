import Zsync.Bytes.Text

/-!
# Windows of a byte string and their rolling sums

A scanner looks at the windows of a fixed length of a byte string, one offset after another.
This file has the facts about windows and the sums that can be carried from one window to the
next, for elements of any type and any commutative ring:

* `window` : the `n` elements from offset `x` on;
* `window_window` : the window of a window is a window of the whole;
* `padTo` : a string filled up with zeros;
* `Rolling.sums` : the sum of a list and the sum of its running sums;
* `Rolling.sums_slide` : the sums of the next window from those of this one.
-/

namespace Zsync

variable {α : Type*}

/-- The `n` elements of `l` from offset `x` on (fewer at the end of `l`). -/
def window (l : List α) (x n : ℕ) : List α := (l.drop x).take n

theorem length_window {l : List α} {x n : ℕ} (h : x + n ≤ l.length) :
    (window l x n).length = n := by
  simp only [window, List.length_take, List.length_drop]
  omega

theorem length_window_le (l : List α) (x n : ℕ) : (window l x n).length ≤ n := by
  simp [window]

theorem getElem?_window (l : List α) (x n i : ℕ) :
    (window l x n)[i]? = if i < n then l[x + i]? else none := by
  simp only [window, List.getElem?_take, List.getElem?_drop]

theorem window_window {l : List α} {x n y m : ℕ} (h : y + m ≤ n) :
    window (window l x n) y m = window l (x + y) m := by
  apply List.ext_getElem?
  intro i
  simp only [getElem?_window]
  split_ifs <;> (try omega) <;> simp [Nat.add_assoc]

theorem window_cons {l : List α} {x n : ℕ} {a : α} (h : l[x]? = some a) :
    window l x (n + 1) = a :: window l (x + 1) n := by
  obtain ⟨hx, rfl⟩ := List.getElem?_eq_some_iff.1 h
  rw [window, List.drop_eq_getElem_cons hx, List.take_succ_cons, window]

theorem window_concat {l : List α} {x n : ℕ} {a : α} (h : l[x + n]? = some a) :
    window l x (n + 1) = window l x n ++ [a] := by
  obtain ⟨hx, rfl⟩ := List.getElem?_eq_some_iff.1 h
  have hn : n < (l.drop x).length := by rw [List.length_drop]; omega
  rw [window, window, List.take_succ_eq_append_getElem hn, List.getElem_drop]

theorem window_zero_length (l : List α) : window l 0 l.length = l := by simp [window]

theorem window_append_window {l : List α} {x n m : ℕ} :
    window l x n ++ window l (x + n) m = window l x (n + m) := by
  rw [window, window, window, List.take_add, ← List.drop_drop]

/-- `l` cut or filled up with zeros to `n` elements. -/
def padTo (n : ℕ) (l : Bytes) : Bytes := l.take n ++ List.replicate (n - l.length) 0

@[simp] theorem length_padTo (n : ℕ) (l : Bytes) : (padTo n l).length = n := by
  simp only [padTo, List.length_append, List.length_take, List.length_replicate]
  omega

theorem padTo_of_length {n : ℕ} {l : Bytes} (h : l.length = n) : padTo n l = l := by
  simp [padTo, h, List.take_of_length_le]

theorem getElem?_padTo (n : ℕ) (l : Bytes) (i : ℕ) :
    (padTo n l)[i]? = if i < n then some (l.getD i 0) else none := by
  simp only [padTo, List.getElem?_append, List.length_take, List.getElem?_take,
    List.getElem?_replicate, List.getD_eq_getElem?_getD]
  by_cases hn : i < n
  · by_cases hl : i < l.length
    · have h1 : i < min n l.length := by omega
      simp [h1, hn, List.getElem?_eq_getElem hl]
    · have h1 : ¬ i < min n l.length := by omega
      have h2 : i - min n l.length < n - l.length := by omega
      simp [h1, h2, hn, List.getElem?_eq_none (Nat.le_of_not_lt hl)]
  · have h1 : ¬ i < min n l.length := by omega
    have h2 : ¬ i - min n l.length < n - l.length := by omega
    simp [h1, h2, hn]

namespace Rolling

variable {R : Type*} [CommRing R]

/-- One more element: the sum grows by it, the sum of sums by the new sum. -/
def push (s : R × R) (x : R) : R × R := (s.1 + x, s.2 + (s.1 + x))

/-- The sum of a list, and the sum of its running sums. -/
def sums (w : List R) : R × R := w.foldl push (0, 0)

theorem sums_concat (w : List R) (x : R) : sums (w ++ [x]) = push (sums w) x := by
  simp [sums]

theorem foldl_push (w : List R) (s : R × R) :
    w.foldl push s = (s.1 + (sums w).1, s.2 + w.length • s.1 + (sums w).2) := by
  induction w using List.reverseRecOn with
  | nil => simp [sums]
  | append_singleton w x ih =>
    rw [List.foldl_append, List.foldl_cons, List.foldl_nil, ih, sums_concat]
    simp only [push, List.length_append, List.length_singleton, add_smul, one_smul]
    ext <;> ring

theorem sums_cons (x : R) (w : List R) :
    sums (x :: w) = (x + (sums w).1, (w.length + 1) • x + (sums w).2) := by
  rw [sums, List.foldl_cons, foldl_push]
  simp only [push, add_smul, one_smul]
  ext <;> ring

/-- **Sliding the window.**  When `o` leaves a window and `n` enters it, the sum changes by
`n - o`, and the sum of sums by the new sum less `o` once for every element of the window. -/
theorem sums_slide (o n : R) (w : List R) :
    sums (w ++ [n]) = ((sums (o :: w)).1 + n - o,
      (sums (o :: w)).2 + ((sums (o :: w)).1 + n - o) - (w.length + 1) • o) := by
  rw [sums_concat, sums_cons]
  simp only [push]
  ext <;> ring

end Rolling

end Zsync
