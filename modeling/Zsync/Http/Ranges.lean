import Zsync.Bytes.Text

/-!
# Planning range requests

From the block ranges that are still needed to the byte ranges that are requested.

* `mergeFrom_spec` : merged ranges hold all ranges, and start and stop where ranges do;
* `Planned` : a byte range of whole blocks, up to the end of the file;
* `planned_of_mem`, `exists_planned` : the ranges requested are planned and hold every block needed.
-/

namespace Zsync

/-- Converts half-open block ranges into the inclusive byte ranges that hold them. -/
def byteRangesFromBlockRanges (blockRanges : List (ℕ × ℕ)) (blocksize fileLength : ℕ) :
    List (ℕ × ℕ) :=
  blockRanges.map fun r => (r.1 * blocksize, min (r.2 * blocksize - 1) (fileLength - 1))

/-- The loop of `merge_byte_ranges`, with the range merged last. -/
def mergeFrom (gapThreshold : ℕ) : ℕ × ℕ → List (ℕ × ℕ) → List (ℕ × ℕ)
  | last, [] => [last]
  | last, (start, stop) :: rest =>
    if start - (last.2 + 1) ≤ gapThreshold then mergeFrom gapThreshold (last.1, stop) rest
    else last :: mergeFrom gapThreshold (start, stop) rest

/-- Merges byte ranges that at most `gapThreshold` bytes separate. -/
def mergeByteRanges (ranges : List (ℕ × ℕ)) (gapThreshold : ℕ) : List (ℕ × ℕ) :=
  match ranges with
  | [] => []
  | r :: rest => mergeFrom gapThreshold r rest

/-- Inclusive ranges that are not empty, in ascending order and apart. -/
structure Ascending (ranges : List (ℕ × ℕ)) : Prop where
  proper : ∀ r ∈ ranges, r.1 ≤ r.2
  apart : ranges.Pairwise fun r r' => r.2 < r'.1

/-- **Merging** makes ranges from the start of one range to the stop of another, which hold every
range. -/
theorem mergeFrom_spec (gapThreshold : ℕ) {last : ℕ × ℕ} {rest : List (ℕ × ℕ)}
    (h : Ascending (last :: rest)) :
    (∀ m ∈ mergeFrom gapThreshold last rest, m.1 ≤ m.2 ∧ (∃ r ∈ last :: rest, r.1 = m.1) ∧
        ∃ r ∈ last :: rest, r.2 = m.2) ∧
      ∀ r ∈ last :: rest, ∃ m ∈ mergeFrom gapThreshold last rest, m.1 ≤ r.1 ∧ r.2 ≤ m.2 := by
  induction rest generalizing last with
  | nil => simpa [mergeFrom] using h.proper last List.mem_cons_self
  | cons next rest ih =>
    obtain ⟨hlast, hproper⟩ := List.forall_mem_cons.1 h.proper
    obtain ⟨hfirst, hapart⟩ := List.pairwise_cons.1 h.apart
    obtain ⟨hnext, hproper'⟩ := List.forall_mem_cons.1 hproper
    obtain ⟨hfirst', hapart'⟩ := List.pairwise_cons.1 hapart
    have hgap := hfirst next List.mem_cons_self
    rw [mergeFrom]
    split_ifs
    · -- `next` is merged into the last range
      obtain ⟨hmem, hcover⟩ := @ih (last.1, next.2)
        ⟨List.forall_mem_cons.2 ⟨by dsimp only; omega, hproper'⟩,
          List.pairwise_cons.2 ⟨hfirst', hapart'⟩⟩
      refine ⟨fun m hm => ?_, fun r hr => ?_⟩
      · obtain ⟨hle, hstart, hstop⟩ := hmem m hm
        refine ⟨hle, ?_, ?_⟩
        · simp only [List.exists_mem_cons_iff] at hstart ⊢
          exact hstart.imp id Or.inr
        · simp only [List.exists_mem_cons_iff] at hstop ⊢
          exact Or.inr hstop
      · obtain ⟨m, hm, h1, h2⟩ := hcover _ List.mem_cons_self
        simp only [List.mem_cons] at hr
        rcases hr with rfl | rfl | hr
        · exact ⟨m, hm, h1, by dsimp only at h2; omega⟩
        · exact ⟨m, hm, by dsimp only at h1; omega, h2⟩
        · exact hcover r (List.mem_cons_of_mem _ hr)
    · obtain ⟨hmem, hcover⟩ := ih ⟨hproper, hapart⟩
      refine ⟨List.forall_mem_cons.2 ⟨⟨hlast, ⟨last, by simp, rfl⟩, ⟨last, by simp, rfl⟩⟩,
        fun m hm => ?_⟩, List.forall_mem_cons.2 ⟨⟨last, by simp, le_rfl, le_rfl⟩, fun r hr => ?_⟩⟩
      · obtain ⟨hle, ⟨a, ha, hstart⟩, b, hb, hstop⟩ := hmem m hm
        exact ⟨hle, ⟨a, List.mem_cons_of_mem _ ha, hstart⟩, b, List.mem_cons_of_mem _ hb, hstop⟩
      · obtain ⟨m, hm, hle⟩ := hcover r hr
        exact ⟨m, List.mem_cons_of_mem _ hm, hle⟩

/-! ### From blocks to bytes -/

/-- A byte range from the start of a block to the end of a block or of the file. -/
structure Planned (blocksize fileLength : ℕ) (r : ℕ × ℕ) : Prop where
  start : blocksize ∣ r.1
  le : r.1 ≤ r.2
  lt : r.2 < fileLength
  stop : blocksize ∣ r.2 + 1 ∨ r.2 + 1 = fileLength

variable {blockRanges : List (ℕ × ℕ)} {blocksize fileLength : ℕ}

theorem ascending_byteRanges (hbs : 0 < blocksize)
    (hblocks : ∀ r ∈ blockRanges, r.1 < r.2 ∧ ∀ id < r.2, id * blocksize < fileLength)
    (hpair : blockRanges.Pairwise fun r r' => r.2 ≤ r'.1) :
    Ascending (byteRangesFromBlockRanges blockRanges blocksize fileLength) := by
  constructor
  · simp only [byteRangesFromBlockRanges, List.forall_mem_map]
    intro r hr
    obtain ⟨hlt, hlen⟩ := hblocks r hr
    have hstart := hlen r.1 hlt
    have hmul : (r.1 + 1) * blocksize ≤ r.2 * blocksize := Nat.mul_le_mul_right _ hlt
    rw [Nat.succ_mul] at hmul
    omega
  · rw [byteRangesFromBlockRanges, List.pairwise_map]
    refine hpair.imp_of_mem fun {r r'} hr _ hle => ?_
    have hpos : 0 < r.2 * blocksize := Nat.mul_pos (by have := (hblocks r hr).1; omega) hbs
    have hmul := Nat.mul_le_mul_right blocksize hle
    dsimp only
    omega

variable (hbs : 0 < blocksize)
  (hblocks : ∀ r ∈ blockRanges, r.1 < r.2 ∧ ∀ id < r.2, id * blocksize < fileLength)
  (hpair : blockRanges.Pairwise fun r r' => r.2 ≤ r'.1) (gapThreshold : ℕ)
include hbs hblocks hpair

/-- **Every range requested** starts and stops at blocks and lies in the file. -/
theorem planned_of_mem {m : ℕ × ℕ} (hm : m ∈ mergeByteRanges
    (byteRangesFromBlockRanges blockRanges blocksize fileLength) gapThreshold) :
    Planned blocksize fileLength m := by
  have hascending := ascending_byteRanges hbs hblocks hpair
  have hends : ∀ r ∈ byteRangesFromBlockRanges blockRanges blocksize fileLength,
      blocksize ∣ r.1 ∧ r.2 < fileLength ∧ (blocksize ∣ r.2 + 1 ∨ r.2 + 1 = fileLength) := by
    simp only [byteRangesFromBlockRanges, List.forall_mem_map]
    intro r hr
    obtain ⟨hlt, hlen⟩ := hblocks r hr
    have hstart := hlen r.1 hlt
    have hpos : 0 < r.2 * blocksize := Nat.mul_pos (by omega) hbs
    refine ⟨Nat.dvd_mul_left _ _, by omega, ?_⟩
    rcases Nat.le_total (r.2 * blocksize) fileLength with hle | hle
    · left
      rw [min_eq_left (by omega), Nat.sub_add_cancel hpos]
      exact Nat.dvd_mul_left _ _
    · right
      omega
  revert hm hascending hends
  cases byteRangesFromBlockRanges blockRanges blocksize fileLength with
  | nil => simp [mergeByteRanges]
  | cons r rest =>
    intro hm hascending hends
    obtain ⟨hle, ⟨a, ha, hstart⟩, b, hb, hstop⟩ :=
      (mergeFrom_spec gapThreshold hascending).1 m hm
    obtain ⟨-, hlt, hend⟩ := hends b hb
    exact ⟨hstart ▸ (hends a ha).1, hle, hstop ▸ hlt, hstop ▸ hend⟩

theorem start_of_mem {m : ℕ × ℕ} (hm : m ∈ mergeByteRanges
    (byteRangesFromBlockRanges blockRanges blocksize fileLength) gapThreshold) :
    ∃ r ∈ blockRanges, r.1 * blocksize = m.1 := by
  have hascending := ascending_byteRanges hbs hblocks hpair
  have hstarts : ∀ a ∈ byteRangesFromBlockRanges blockRanges blocksize fileLength,
      ∃ r ∈ blockRanges, r.1 * blocksize = a.1 := by
    simp only [byteRangesFromBlockRanges, List.forall_mem_map]
    exact fun r hr => ⟨r, hr, rfl⟩
  revert hm hascending hstarts
  cases byteRangesFromBlockRanges blockRanges blocksize fileLength with
  | nil => simp [mergeByteRanges]
  | cons first rest =>
    intro hm hascending hstarts
    obtain ⟨-, ⟨a, ha, hstart⟩, -⟩ := (mergeFrom_spec gapThreshold hascending).1 m hm
    exact hstart ▸ hstarts a ha

/-- **Every block that is needed** lies in a range requested. -/
theorem exists_planned {r : ℕ × ℕ} (hr : r ∈ blockRanges) {id : ℕ} (hid : r.1 ≤ id ∧ id < r.2) :
    ∃ m ∈ mergeByteRanges (byteRangesFromBlockRanges blockRanges blocksize fileLength) gapThreshold,
      m.1 ≤ id * blocksize ∧ min ((id + 1) * blocksize) fileLength ≤ m.2 + 1 := by
  have hascending := ascending_byteRanges hbs hblocks hpair
  have hmem : (r.1 * blocksize, min (r.2 * blocksize - 1) (fileLength - 1)) ∈
      byteRangesFromBlockRanges blockRanges blocksize fileLength :=
    List.mem_map.2 ⟨r, hr, rfl⟩
  have hstart : r.1 * blocksize ≤ id * blocksize := Nat.mul_le_mul_right _ hid.1
  have hstop : (id + 1) * blocksize ≤ r.2 * blocksize := Nat.mul_le_mul_right _ hid.2
  revert hmem hascending
  cases byteRangesFromBlockRanges blockRanges blocksize fileLength with
  | nil => simp
  | cons first rest =>
    intro hascending hmem
    obtain ⟨m, hm, h1, h2⟩ := (mergeFrom_spec gapThreshold hascending).2 _ hmem
    refine ⟨m, hm, h1.trans hstart, ?_⟩
    dsimp only at h2
    omega

end Zsync
