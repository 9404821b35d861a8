import Zsync.Bytes.Window

/-!
# Byte strings with holes

A file that is written at any offset, whose bytes past its end, or in a hole before a write past its
end, read as zeros.

* `byteAt` : the byte at an offset, which is zero past the end;
* `slice` : the `n` bytes at an offset, with zeros past the end;
* `writeAt` : the file after a write;
* `slice_writeAt` : what a write changes, and `slice_writeAt_of_disjoint` : what it leaves alone.
-/

namespace Zsync

/-- The byte at offset `i`, which is zero past the end. -/
def byteAt (l : Bytes) (i : ℕ) : UInt8 := l.getD i 0

/-- The `n` bytes from offset `x` on, with zeros past the end. -/
def slice (l : Bytes) (x n : ℕ) : Bytes := padTo n (window l x n)

/-- The file after `data` was written at offset `x`; writing nothing does not touch it. -/
def writeAt (l : Bytes) (x : ℕ) (data : Bytes) : Bytes :=
  if data = [] then l else padTo x l ++ data ++ l.drop (x + data.length)

/-! ### Bytes -/

theorem byteAt_of_le {l : Bytes} {i : ℕ} (h : l.length ≤ i) : byteAt l i = 0 := by
  simp [byteAt, List.getElem?_eq_none h]

@[simp] theorem byteAt_replicate_zero (n i : ℕ) : byteAt (List.replicate n 0) i = 0 := by
  rw [byteAt, List.getD_eq_getElem?_getD, List.getElem?_replicate]
  split_ifs <;> rfl

theorem byteAt_padTo (n : ℕ) (l : Bytes) (i : ℕ) :
    byteAt (padTo n l) i = if i < n then byteAt l i else 0 := by
  rw [byteAt, List.getD_eq_getElem?_getD, getElem?_padTo]
  split_ifs <;> rfl

theorem byteAt_window (l : Bytes) (x n i : ℕ) :
    byteAt (window l x n) i = if i < n then byteAt l (x + i) else 0 := by
  rw [byteAt, List.getD_eq_getElem?_getD, getElem?_window]
  split_ifs
  · rw [← List.getD_eq_getElem?_getD, byteAt]
  · rfl

theorem byteAt_slice (l : Bytes) (x n i : ℕ) :
    byteAt (slice l x n) i = if i < n then byteAt l (x + i) else 0 := by
  rw [slice, byteAt_padTo, byteAt_window]
  split_ifs <;> rfl

theorem byteAt_append (l m : Bytes) (i : ℕ) :
    byteAt (l ++ m) i = if i < l.length then byteAt l i else byteAt m (i - l.length) := by
  simp only [byteAt, List.getD_eq_getElem?_getD, List.getElem?_append]
  split_ifs <;> rfl

/-- **A write** changes the bytes that it covers. -/
theorem byteAt_writeAt (l : Bytes) (x : ℕ) (data : Bytes) (i : ℕ) :
    byteAt (writeAt l x data) i =
      if x ≤ i ∧ i < x + data.length then byteAt data (i - x) else byteAt l i := by
  unfold writeAt
  by_cases hd : data = []
  · rw [if_pos hd, if_neg (by simp [hd])]
  rw [if_neg hd, byteAt_append, byteAt_append, byteAt_padTo]
  simp only [List.length_append, length_padTo]
  by_cases h1 : i < x
  · rw [if_pos (by omega), if_pos h1, if_pos h1, if_neg (by omega)]
  by_cases h2 : i < x + data.length
  · rw [if_pos h2, if_neg h1, if_pos ⟨by omega, h2⟩]
  · rw [if_neg h2, if_neg (by omega)]
    simp only [byteAt, List.getD_eq_getElem?_getD, List.getElem?_drop]
    rw [Nat.add_sub_of_le (Nat.le_of_not_lt h2)]

theorem length_writeAt (l : Bytes) (x : ℕ) {data : Bytes} (h : data ≠ []) :
    (writeAt l x data).length = max l.length (x + data.length) := by
  rw [writeAt, if_neg h, List.length_append, List.length_append, length_padTo, List.length_drop]
  omega

theorem length_le_writeAt (l : Bytes) (x : ℕ) (data : Bytes) :
    l.length ≤ (writeAt l x data).length := by
  by_cases h : data = []
  · rw [writeAt, if_pos h]
  · rw [length_writeAt l x h]
    exact le_max_left _ _

theorem length_writeAt_le {l data : Bytes} {x n : ℕ} (hl : l.length ≤ n)
    (h : x + data.length ≤ n) : (writeAt l x data).length ≤ n := by
  by_cases hd : data = []
  · rwa [writeAt, if_pos hd]
  · rw [length_writeAt l x hd]
    exact max_le hl h

theorem eq_of_byteAt {l m : Bytes} (hlen : l.length = m.length)
    (h : ∀ i < m.length, byteAt l i = byteAt m i) : l = m := by
  refine List.ext_getElem hlen fun i hl hm => ?_
  simpa [byteAt, hl, hm] using h i hm

/-! ### Slices -/

@[simp] theorem length_slice (l : Bytes) (x n : ℕ) : (slice l x n).length = n := length_padTo _ _

theorem slice_eq_window {l : Bytes} {x n : ℕ} (h : x + n ≤ l.length) : slice l x n = window l x n :=
  padTo_of_length (length_window h)

theorem slice_ext {l m : Bytes} {x y n : ℕ} (h : ∀ i < n, byteAt l (x + i) = byteAt m (y + i)) :
    slice l x n = slice m y n := by
  refine eq_of_byteAt (by simp) fun i hi => ?_
  rw [length_slice] at hi
  rw [byteAt_slice, byteAt_slice, if_pos hi, if_pos hi, h i hi]

theorem slice_eq_iff {l w : Bytes} {x n : ℕ} (hw : w.length = n) :
    slice l x n = w ↔ ∀ i < n, byteAt l (x + i) = byteAt w i := by
  subst hw
  constructor
  · intro h i hi
    conv_rhs => rw [← h]
    rw [byteAt_slice, if_pos hi]
  · intro h
    refine eq_of_byteAt (by simp) fun i hi => ?_
    rw [byteAt_slice, if_pos hi, h i hi]

theorem slice_slice {l : Bytes} {x n y k : ℕ} (h : y + k ≤ n) :
    slice (slice l x n) y k = slice l (x + y) k := by
  refine slice_ext fun i hi => ?_
  rw [byteAt_slice, if_pos (by omega), Nat.add_assoc]

theorem slice_writeAt (l : Bytes) (x : ℕ) {data : Bytes} {n : ℕ} (h : data.length ≤ n) :
    slice (writeAt l x data) x n = data ++ slice l (x + data.length) (n - data.length) := by
  refine (slice_eq_iff (by simp; omega)).2 fun i hi => ?_
  rw [byteAt_writeAt, byteAt_append, byteAt_slice]
  by_cases h1 : i < data.length
  · rw [if_pos ⟨by omega, by omega⟩, if_pos h1, Nat.add_sub_cancel_left]
  · rw [if_neg (by omega), if_neg h1, if_pos (by omega),
      show x + data.length + (i - data.length) = x + i by omega]

theorem slice_writeAt_of_disjoint (l : Bytes) {x y n : ℕ} {data : Bytes}
    (h : x + data.length ≤ y ∨ y + n ≤ x) : slice (writeAt l x data) y n = slice l y n := by
  refine slice_ext fun i hi => ?_
  rw [byteAt_writeAt, if_neg (by omega)]

/-- A file cut or filled up to the length of `T` is `T` when it has the bytes of `T`. -/
theorem padTo_eq_of_byteAt {l T : Bytes} (h : ∀ i < T.length, byteAt l i = byteAt T i) :
    padTo T.length l = T := by
  refine eq_of_byteAt (by simp) fun i hi => ?_
  rw [byteAt_padTo, if_pos hi, h i hi]

end Zsync
