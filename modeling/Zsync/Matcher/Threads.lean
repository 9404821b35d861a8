import Zsync.Matcher.Scan

/-!
# The pieces of the threads

How `submit_source_data` cuts its data for the threads.

* `BlockMatcher.threadSlices` : where each piece starts and stops;
* `BlockMatcher.candidates_eq_slices` : each piece is scanned for itself;
* `BlockMatcher.threadSlices_le` : the pieces lie in the data;
* `BlockMatcher.exists_threadSlice` : every offset that an unsplit scan may test is one that the
  scan of some piece may test.
-/

namespace Zsync

namespace BlockMatcher

variable {H : Hashes} {m : BlockMatcher} {cores n : ℕ}

/-- The start and the stop of each piece of `n` bytes of data. -/
def threadSlices (m : BlockMatcher) (cores n : ℕ) : List (ℕ × ℕ) :=
  let scannable := n - m.context
  if 1 < cores ∧ minPerThread * 2 ≤ scannable then
    let threads := min cores (scannable / minPerThread)
    (List.range threads).map fun i => (i * (scannable / threads),
      if i + 1 = threads then n else (i + 1) * (scannable / threads) + m.context)
  else [(0, n)]

theorem candidates_eq_slices (data : Bytes) (offset : ℕ) :
    m.candidates H cores data offset = (m.threadSlices cores data.length).flatMap fun b =>
      m.scanChunk H (window data b.1 (b.2 - b.1)) (offset + b.1) := by
  simp only [candidates, threadSlices]
  split_ifs
  · rw [List.flatMap_map]
    rfl
  · rw [List.flatMap_singleton, Nat.sub_zero, window_zero_length, Nat.add_zero]

theorem share_le (scannable : ℕ) {threads i : ℕ} (hi : i < threads) :
    (i + 1) * (scannable / threads) ≤ scannable :=
  (Nat.mul_le_mul_right _ hi).trans (Nat.mul_div_le scannable threads)

theorem threadSlices_le (hn : m.context ≤ n) {b : ℕ × ℕ} (hb : b ∈ m.threadSlices cores n) :
    b.1 + m.context ≤ b.2 ∧ b.2 ≤ n := by
  simp only [threadSlices] at hb
  split_ifs at hb
  · obtain ⟨i, hi, rfl⟩ := List.mem_map.1 hb
    have hshare := share_le (n - m.context) (List.mem_range.1 hi)
    rw [Nat.succ_mul] at hshare
    dsimp only
    generalize (n - m.context) / min cores ((n - m.context) / minPerThread) = share at hshare ⊢
    split_ifs
    · omega
    · rw [Nat.succ_mul]
      omega
  · obtain rfl := List.mem_singleton.1 hb
    exact ⟨by simpa using hn, le_rfl⟩

/-- **The pieces cover the data**: the last one takes what the division leaves. -/
theorem exists_threadSlice (m : BlockMatcher) (cores : ℕ) {x : ℕ} (hx : x < n - m.context) :
    ∃ b ∈ m.threadSlices cores n, b.1 ≤ x ∧ x - b.1 < b.2 - b.1 - m.context := by
  simp only [threadSlices]
  split_ifs with hsplit
  · have hmin : 0 < minPerThread := by decide
    have htwo : 2 ≤ (n - m.context) / minPerThread :=
      (Nat.le_div_iff_mul_le hmin).2 (by rw [Nat.mul_comm]; exact hsplit.2)
    generalize hthreads : min cores ((n - m.context) / minPerThread) = threads
    generalize hshare : (n - m.context) / threads = share
    have hpos : 0 < threads := by omega
    have hmul : threads * share ≤ n - m.context := hshare ▸ Nat.mul_div_le _ _
    by_cases hlast : (threads - 1) * share ≤ x
    · refine ⟨_, List.mem_map.2 ⟨threads - 1, List.mem_range.2 (by omega), rfl⟩, hlast, ?_⟩
      rw [if_pos (by omega)]
      dsimp only
      omega
    · -- before the last piece the shares are equal
      have hsharepos : 0 < share := by
        by_contra hzero
        obtain rfl : share = 0 := by omega
        simp at hlast
      have hdiv := Nat.div_mul_le_self x share
      have hlt := Nat.lt_div_mul_add (a := x) hsharepos
      have hi : x / share < threads - 1 := (Nat.div_lt_iff_lt_mul hsharepos).2 (by omega)
      refine ⟨_, List.mem_map.2 ⟨x / share, List.mem_range.2 (by omega), rfl⟩, hdiv, ?_⟩
      rw [if_neg (by omega), Nat.succ_mul]
      dsimp only
      omega
  · exact ⟨_, List.mem_singleton_self _, Nat.zero_le _, by simpa using hx⟩

end BlockMatcher

end Zsync
