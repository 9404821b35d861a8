import Zsync.Bytes.Window

/-!
# Checked operations

The operations on unsigned integers of `w` bits, with no result where the operation would leave
them, and the slices of a list, with no result where a slice reaches past its end.
-/

namespace Zsync

namespace Checked

variable {w a b : ℕ}

/-- `+`. -/
def add (w a b : ℕ) : Option ℕ := if a + b < 2 ^ w then some (a + b) else none

/-- `-`. -/
def sub (a b : ℕ) : Option ℕ := if b ≤ a then some (a - b) else none

/-- `*`. -/
def mul (w a b : ℕ) : Option ℕ := if a * b < 2 ^ w then some (a * b) else none

/-- `1 << a`. -/
def bit (w a : ℕ) : Option ℕ := if a < w then some (2 ^ a) else none

theorem add_eq (h : a + b < 2 ^ w) : add w a b = some (a + b) := if_pos h

theorem sub_eq (h : b ≤ a) : sub a b = some (a - b) := if_pos h

theorem mul_eq (h : a * b < 2 ^ w) : mul w a b = some (a * b) := if_pos h

theorem bit_eq (h : a < w) : bit w a = some (2 ^ a) := if_pos h

/-! ### Slices -/

variable {α : Type*} {l : List α} {x n : ℕ}

/-- `l[x..x + n]`. -/
def slice (l : List α) (x n : ℕ) : Option (List α) :=
  if x + n ≤ l.length then some (window l x n) else none

theorem slice_eq (h : x + n ≤ l.length) : slice l x n = some (window l x n) := if_pos h

end Checked

end Zsync
