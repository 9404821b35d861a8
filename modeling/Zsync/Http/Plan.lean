import Zsync.Control.RoundTrip
import Zsync.Data.Checked
import Zsync.Http.Ranges
import Zsync.Matcher.Known

/-!
# The download plan

What the requests of a download have to do with the blocks that are still unknown.

* `IsRun`, `BlockMatcher.runs_neededBlockRanges` : the block ranges are the maximal runs of unknown
  blocks;
* `mergeFrom_apart`, `mergeFrom_gaps` : merged ranges are more than the threshold apart, and hold
  besides the ranges only gaps of at most the threshold;
* `planExact`, `plan_of_parse` : the requests hold each unknown byte once, and few known ones.
-/

namespace Zsync

/-! ### Runs of unknown blocks -/

/-- A maximal run of `false`, as a half-open range. -/
structure IsRun (l : List Bool) (r : ℕ × ℕ) : Prop where
  lt : r.1 < r.2
  le : r.2 ≤ l.length
  unknown : ∀ i, r.1 ≤ i → i < r.2 → l[i]? = some false
  left : r.1 = 0 ∨ l[r.1 - 1]? = some true
  right : r.2 = l.length ∨ l[r.2]? = some true

namespace BlockMatcher

/-- The run that is open before entry `i`, or none: then `i` may start one. -/
def OpenRun (l : List Bool) (i : ℕ) : Option ℕ → Prop
  | some s => s < i ∧ (∀ j, s ≤ j → j < i → l[j]? = some false) ∧ (s = 0 ∨ l[s - 1]? = some true)
  | none => i = 0 ∨ l[i - 1]? = some true

/-- **The ranges are runs**: one entry opens, extends or closes the run that is open. -/
theorem isRun_neededFrom {l rest : List Bool} {i : ℕ} {start : Option ℕ} (hrest : l.drop i = rest)
    (hi : i ≤ l.length) (hopen : OpenRun l i start) : ∀ r ∈ neededFrom i start rest, IsRun l r := by
  induction rest generalizing i start with
  | nil =>
    have hend : i = l.length := le_antisymm hi (List.drop_eq_nil_iff.1 hrest)
    cases start with
    | none => simp [neededFrom]
    | some s =>
      obtain ⟨hlt, hall, hleft⟩ := hopen
      simp only [neededFrom, List.mem_singleton, forall_eq]
      exact ⟨hlt, hi, hall, hleft, Or.inl hend⟩
  | cons known rest ih =>
    have hget : l[i]? = some known := by
      rw [← Nat.add_zero i, ← List.getElem?_drop, hrest, List.getElem?_cons_zero]
    have hrest' : l.drop (i + 1) = rest := by
      rw [← List.drop_drop, hrest, List.drop_one, List.tail_cons]
    obtain ⟨hlt, -⟩ := List.getElem?_eq_some_iff.1 hget
    cases start with
    | none =>
      cases known with
      | false =>
        refine ih hrest' hlt ⟨Nat.lt_succ_self i, fun j h1 h2 => ?_, hopen⟩
        rwa [show j = i by omega]
      | true => exact ih hrest' hlt (Or.inr hget)
    | some s =>
      obtain ⟨hsi, hall, hleft⟩ := hopen
      cases known with
      | false =>
        refine ih hrest' hlt ⟨by omega, fun j h1 h2 => ?_, hleft⟩
        rcases Nat.lt_or_ge j i with hj | hj
        · exact hall j h1 hj
        · rwa [show j = i by omega]
      | true =>
        exact List.forall_mem_cons.2
          ⟨⟨hsi, hi, hall, hleft, Or.inr hget⟩, ih hrest' hlt (Or.inr hget)⟩

theorem sum_neededFrom (l : List Bool) {i : ℕ} {start : Option ℕ} (hs : ∀ s ∈ start, s ≤ i) :
    ((neededFrom i start l).map fun r => r.2 - r.1).sum = l.count false + (i - start.getD i) := by
  induction l generalizing i start with
  | nil => cases start <;> simp [neededFrom]
  | cons known rest ih =>
    have hnone := @ih (i + 1) none (by simp)
    have hopen := @ih (i + 1) (some i) (by simp)
    cases start with
    | none => cases known <;> simp_all [neededFrom]
    | some s =>
      have hsi := hs s rfl
      have hkeep := @ih (i + 1) (some s) (by simp; omega)
      cases known <;> simp_all [neededFrom] <;> omega

variable {m : BlockMatcher}

/-- **The block ranges** are the maximal runs of unknown blocks, in order. -/
theorem runs_neededBlockRanges (m : BlockMatcher) :
    (∀ r ∈ m.neededBlockRanges, IsRun m.knownBlocks r) ∧
      m.neededBlockRanges.Pairwise fun r r' => r.2 < r'.1 := by
  have hruns : ∀ r ∈ m.neededBlockRanges, IsRun m.knownBlocks r :=
    isRun_neededFrom List.drop_zero (Nat.zero_le _) (Or.inl rfl)
  refine ⟨hruns, (neededFrom_ascending m.knownBlocks (by simp)).2.imp_of_mem
    fun {r r'} hr hr' hle => ?_⟩
  refine lt_of_le_of_ne hle fun heq => ?_
  -- the entry after a run is `true`, and the first entry of a run is not
  have hfirst := (hruns r' hr').unknown r'.1 le_rfl (hruns r' hr').lt
  rcases (hruns r hr).right with hend | htrue
  · have := (hruns r' hr').lt
    have := (hruns r' hr').le
    omega
  · rw [heq, hfirst] at htrue
    cases htrue

theorem Counted.sum_neededBlockRanges (h : m.Counted) :
    (m.neededBlockRanges.map fun r => r.2 - r.1).sum = m.blocksTodo := by
  have hcount := List.count_not_add_count m.knownBlocks true
  rw [neededBlockRanges, sum_neededFrom _ (by simp), blocksTodo, h.count]
  simp only [Option.getD_none, Nat.sub_self, Nat.add_zero, Bool.not_true] at hcount ⊢
  omega

end BlockMatcher

/-! ### Gaps -/

/-- **Merged ranges** are more than the threshold apart. -/
theorem mergeFrom_apart (gapThreshold : ℕ) {last : ℕ × ℕ} {rest : List (ℕ × ℕ)}
    (h : Ascending (last :: rest)) :
    (mergeFrom gapThreshold last rest).Pairwise fun r r' => r.2 + 1 + gapThreshold < r'.1 := by
  induction rest generalizing last with
  | nil => simp [mergeFrom]
  | cons next rest ih =>
    obtain ⟨hlast, hproper⟩ := List.forall_mem_cons.1 h.proper
    obtain ⟨hfirst, hapart⟩ := List.pairwise_cons.1 h.apart
    obtain ⟨hnext, hproper'⟩ := List.forall_mem_cons.1 hproper
    obtain ⟨hfirst', hapart'⟩ := List.pairwise_cons.1 hapart
    have hlt := hfirst next List.mem_cons_self
    rw [mergeFrom]
    split_ifs with hgap
    · exact ih ⟨List.forall_mem_cons.2 ⟨by dsimp only; omega, hproper'⟩,
        List.pairwise_cons.2 ⟨hfirst', hapart'⟩⟩
    · have hascending : Ascending (next :: rest) := ⟨hproper, hapart⟩
      refine List.pairwise_cons.2 ⟨fun m hm => ?_, ih hascending⟩
      -- a merged range starts where a range does, so not before `next`
      obtain ⟨-, ⟨r, hr, hstart⟩, -⟩ := (mergeFrom_spec gapThreshold hascending).1 m hm
      rcases List.mem_cons.1 hr with rfl | hr
      · omega
      · have := hfirst' r hr
        omega

/-- `i` lies between two neighbours that at most the threshold separates. -/
def InGap (ranges : List (ℕ × ℕ)) (gapThreshold i : ℕ) : Prop :=
  ∃ r r', [r, r'] <:+: ranges ∧ r.2 < i ∧ i < r'.1 ∧ r'.1 ≤ r.2 + 1 + gapThreshold

/-- **A merged range** holds nothing but ranges and the gaps between them. -/
theorem mergeFrom_gaps (gapThreshold : ℕ) {ranges : List (ℕ × ℕ)} {P : ℕ → Prop}
    (hrange : ∀ r ∈ ranges, ∀ i, r.1 ≤ i → i ≤ r.2 → P i)
    (hgap : ∀ i, InGap ranges gapThreshold i → P i) {last prev : ℕ × ℕ} {rest : List (ℕ × ℕ)}
    (hsuffix : prev :: rest <:+ ranges) (hstop : last.2 = prev.2)
    (hlast : ∀ i, last.1 ≤ i → i ≤ last.2 → P i) :
    ∀ m ∈ mergeFrom gapThreshold last rest, ∀ i, m.1 ≤ i → i ≤ m.2 → P i := by
  induction rest generalizing last prev with
  | nil => simpa [mergeFrom] using hlast
  | cons next rest ih =>
    have hsuffix' : next :: rest <:+ ranges := (List.suffix_cons _ _).trans hsuffix
    have hnext := hrange next (hsuffix'.mem List.mem_cons_self)
    rw [mergeFrom]
    split_ifs with hle
    · refine ih hsuffix' rfl fun i h1 h2 => ?_
      -- in what was merged before, in the gap, or in `next`
      rcases Nat.lt_or_ge last.2 i with hi | hi
      · rcases Nat.lt_or_ge i next.1 with hi' | hi'
        · have hpair : [prev, next] <:+: ranges :=
            (List.prefix_append [prev, next] rest).isInfix.trans hsuffix.isInfix
          exact hgap i ⟨prev, next, hpair, by omega, hi', by omega⟩
        · exact hnext i hi' h2
      · exact hlast i h1 hi
    · exact List.forall_mem_cons.2 ⟨hlast, ih hsuffix' rfl hnext⟩

/-! ### Nothing overflows -/

/-- `byte_ranges_from_block_ranges` for one range, with checked arithmetic. -/
def checkedByteRange (blocksize fileLength : ℕ) (r : ℕ × ℕ) : Option (ℕ × ℕ) := do
  let start ← Checked.mul 64 r.1 blocksize
  let stop := (← Checked.mul 64 r.2 blocksize) - 1
  some (start, min stop (← Checked.sub fileLength 1))

/-- The loop of `merge_byte_ranges`, with checked arithmetic. -/
def checkedMergeFrom (gapThreshold : ℕ) : ℕ × ℕ → List (ℕ × ℕ) → Option (List (ℕ × ℕ))
  | last, [] => some [last]
  | last, (start, stop) :: rest => do
    let gap := start - (← Checked.add 64 last.2 1)
    if gap ≤ gapThreshold then checkedMergeFrom gapThreshold (last.1, stop) rest
    else (checkedMergeFrom gapThreshold (start, stop) rest).map (last :: ·)

/-- The requests for block ranges, with checked arithmetic. -/
def checkedRequests (blockRanges : List (ℕ × ℕ)) (blocksize fileLength gapThreshold : ℕ) :
    Option (List (ℕ × ℕ)) := do
  match ← blockRanges.mapM (checkedByteRange blocksize fileLength) with
  | [] => some []
  | r :: rest => checkedMergeFrom gapThreshold r rest

theorem checkedMergeFrom_eq (gapThreshold : ℕ) {last : ℕ × ℕ} {rest : List (ℕ × ℕ)}
    (h : ∀ r ∈ last :: rest, r.2 + 1 < 2 ^ 64) :
    checkedMergeFrom gapThreshold last rest = some (mergeFrom gapThreshold last rest) := by
  induction rest generalizing last with
  | nil => rfl
  | cons next rest ih =>
    obtain ⟨hlast, hrest⟩ := List.forall_mem_cons.1 h
    obtain ⟨hnext, hrest'⟩ := List.forall_mem_cons.1 hrest
    have hmerged := @ih (last.1, next.2) (List.forall_mem_cons.2 ⟨hnext, hrest'⟩)
    simp only [checkedMergeFrom, mergeFrom, Checked.add_eq hlast, Option.bind_eq_bind,
      Option.bind_some, hmerged, ih hrest, Option.map_some]
    split_ifs <;> rfl

/-- **No step overflows** for block ranges of a file that is not empty. -/
theorem checkedRequests_eq {blockRanges : List (ℕ × ℕ)} {blocksize fileLength : ℕ}
    (gapThreshold : ℕ) (hlen : 0 < fileLength) (hlen' : fileLength < 2 ^ 64)
    (hranges : ∀ r ∈ blockRanges, r.1 * blocksize < 2 ^ 64 ∧ r.2 * blocksize < 2 ^ 64) :
    checkedRequests blockRanges blocksize fileLength gapThreshold = some (mergeByteRanges
      (byteRangesFromBlockRanges blockRanges blocksize fileLength) gapThreshold) := by
  have hmap : blockRanges.mapM (checkedByteRange blocksize fileLength) =
      some (byteRangesFromBlockRanges blockRanges blocksize fileLength) := by
    rw [byteRangesFromBlockRanges]
    induction blockRanges with
    | nil => rfl
    | cons r blockRanges ih =>
      obtain ⟨⟨h1, h2⟩, hrest⟩ := List.forall_mem_cons.1 hranges
      rw [List.mapM_cons, ih hrest]
      simp [checkedByteRange, Checked.mul_eq h1, Checked.mul_eq h2, Checked.sub_eq hlen]
  have hstop : ∀ r ∈ byteRangesFromBlockRanges blockRanges blocksize fileLength,
      r.2 + 1 < 2 ^ 64 := by
    simp only [byteRangesFromBlockRanges, List.forall_mem_map]
    omega
  rw [checkedRequests, hmap, Option.bind_eq_bind, Option.bind_some]
  cases hl : byteRangesFromBlockRanges blockRanges blocksize fileLength with
  | nil => rfl
  | cons r rest => exact checkedMergeFrom_eq gapThreshold (hl ▸ hstop)

/-! ### The plan -/

/-- The known block at byte `i` lies between two unknown blocks that at most the threshold
separates, with known blocks only between them. -/
def BetweenUnknown (m : BlockMatcher) (blocksize gapThreshold i : ℕ) : Prop :=
  ∃ u v, v < m.totalBlocks ∧ m.isBlockKnown u = false ∧ m.isBlockKnown v = false ∧
    (∀ id, u < id → id < v → m.isBlockKnown id) ∧ (u + 1) * blocksize ≤ i ∧ i < v * blocksize ∧
      v * blocksize ≤ (u + 1) * blocksize + gapThreshold

/-- What the requests of a download are to be. -/
structure PlanExact (m : BlockMatcher) (cf : ControlFile) (gapThreshold : ℕ)
    (requests : List (ℕ × ℕ)) : Prop where
  planned : ∀ r ∈ requests, Planned cf.blocksize cf.length r
  apart : requests.Pairwise fun r r' => r.2 + 1 + gapThreshold < r'.1
  unknown : ∀ i < cf.length, m.isBlockKnown (i / cf.blocksize) = false →
    ∃! r, r ∈ requests ∧ r.1 ≤ i ∧ i ≤ r.2
  known : ∀ r ∈ requests, ∀ i, r.1 ≤ i → i ≤ r.2 → m.isBlockKnown (i / cf.blocksize) →
    BetweenUnknown m cf.blocksize gapThreshold i

/-- The requests of a download for the blocks still unknown. -/
abbrev requestsFor (m : BlockMatcher) (cf : ControlFile) (gapThreshold : ℕ) : List (ℕ × ℕ) :=
  mergeByteRanges (byteRangesFromBlockRanges m.neededBlockRanges cf.blocksize cf.length)
    gapThreshold

section Plan

variable {cf : ControlFile} {m : BlockMatcher} (hcf : cf.Checked) (hc : m.Counted)
  (htotal : m.totalBlocks = cf.blockChecksums.length) (gapThreshold : ℕ)
include hcf hc htotal

theorem neededBlockRanges_lt : ∀ r ∈ m.neededBlockRanges,
    r.1 < r.2 ∧ r.2 ≤ m.totalBlocks ∧ ∀ id < r.2, id * cf.blocksize < cf.length := by
  intro r hr
  have hrun := (m.runs_neededBlockRanges).1 r hr
  have hle : r.2 ≤ m.totalBlocks := hrun.le.trans hc.length.le
  refine ⟨hrun.lt, hle, fun id hid => (ControlFile.lt_numBlocks hcf.blocksize_pos).1 ?_⟩
  rw [← hcf.count]
  omega

/-- Blocks between neighbouring runs are known, and the gap between them is that of their bytes. -/
theorem betweenUnknown_of_inGap {i : ℕ} (hi : InGap
    (byteRangesFromBlockRanges m.neededBlockRanges cf.blocksize cf.length) gapThreshold i) :
    BetweenUnknown m cf.blocksize gapThreshold i := by
  obtain ⟨_, _, hpair, hlt, hlt', hle⟩ := hi
  obtain ⟨l, hinfix, hl⟩ := List.infix_map_iff.1 hpair
  obtain ⟨b, b', rfl⟩ : ∃ b b', l = [b, b'] :=
    List.length_eq_two.1 (by simpa using (congrArg List.length hl).symm)
  simp only [List.map_cons, List.map_nil, List.cons.injEq, and_true] at hl
  obtain ⟨rfl, rfl⟩ := hl
  obtain ⟨hruns, hapart⟩ := m.runs_neededBlockRanges
  have hb := hinfix.mem (List.mem_cons_self : b ∈ [b, b'])
  have hb' := hinfix.mem (by simp : b' ∈ [b, b'])
  obtain ⟨hblt, -, -⟩ := neededBlockRanges_lt hcf hc htotal b hb
  obtain ⟨hblt', htotal', hlen⟩ := neededBlockRanges_lt hcf hc htotal b' hb'
  have hunknown : ∀ {r id}, r ∈ m.neededBlockRanges → r.1 ≤ id → id < r.2 →
      m.isBlockKnown id = false := fun hr h1 h2 =>
    ((hc.inRanges_iff _).1 ⟨_, hr, h1, h2⟩).2
  obtain ⟨pre, post, hsplit⟩ := hinfix
  rw [← hsplit, List.append_assoc, List.pairwise_append] at hapart
  obtain ⟨-, hmiddle, hbefore⟩ := hapart
  simp only [List.cons_append, List.nil_append, List.pairwise_cons, List.mem_cons]
    at hmiddle hbefore
  obtain ⟨hmiddle, hafter, -⟩ := hmiddle
  have hbb' : b.2 < b'.1 := hmiddle b' (Or.inl rfl)
  have hstop : b.2 * cf.blocksize ≤ cf.length :=
    (Nat.mul_le_mul_right _ hbb'.le).trans (hlen b'.1 hblt').le
  have hpos : 0 < b.2 * cf.blocksize := Nat.mul_pos (by omega) hcf.blocksize_pos
  have hlast : b.2 - 1 + 1 = b.2 := by omega
  refine ⟨b.2 - 1, b'.1, by omega, hunknown hb (by omega) (by omega),
    hunknown hb' le_rfl hblt', fun id h1 h2 => ?_, ?_, hlt', ?_⟩
  · -- an unknown block between them would be in a third run between them
    by_contra hid
    rw [Bool.not_eq_true] at hid
    obtain ⟨r, hr, h3, h4⟩ := (hc.inRanges_iff id).2 ⟨by omega, hid⟩
    rw [← hsplit, List.append_assoc, List.mem_append] at hr
    simp only [List.cons_append, List.nil_append, List.mem_cons] at hr
    rcases hr with hr | rfl | rfl | hr
    · have := hbefore r hr b (Or.inl rfl)
      omega
    · omega
    · omega
    · have := hafter r hr
      omega
  · rw [hlast]
    dsimp only at hlt
    omega
  · rw [hlast]
    dsimp only at hle
    omega

theorem requestsFor_apart :
    (requestsFor m cf gapThreshold).Pairwise fun r r' => r.2 + 1 + gapThreshold < r'.1 := by
  obtain ⟨-, hapart⟩ := m.runs_neededBlockRanges
  have hascending := ascending_byteRanges hcf.blocksize_pos
    (fun r hr => ⟨(neededBlockRanges_lt hcf hc htotal r hr).1,
      (neededBlockRanges_lt hcf hc htotal r hr).2.2⟩) (hapart.imp fun h => h.le)
  unfold requestsFor
  cases hl : byteRangesFromBlockRanges m.neededBlockRanges cf.blocksize cf.length with
  | nil => exact List.Pairwise.nil
  | cons r rest => exact mergeFrom_apart gapThreshold (hl ▸ hascending)

theorem requestsFor_unique {i : ℕ} {r r' : ℕ × ℕ} (hr : r ∈ requestsFor m cf gapThreshold)
    (hr' : r' ∈ requestsFor m cf gapThreshold) (hi : r.1 ≤ i ∧ i ≤ r.2)
    (hi' : r'.1 ≤ i ∧ i ≤ r'.2) : r' = r := by
  by_contra hne
  -- of two requests, one starts after the other has ended
  have hsymm : Std.Symm fun r r' : ℕ × ℕ =>
    r.2 + 1 + gapThreshold < r'.1 ∨ r'.2 + 1 + gapThreshold < r.1 := ⟨fun _ _ => Or.symm⟩
  have hsep := ((requestsFor_apart hcf hc htotal gapThreshold).imp Or.inl :
    (requestsFor m cf gapThreshold).Pairwise fun r r' =>
      r.2 + 1 + gapThreshold < r'.1 ∨ r'.2 + 1 + gapThreshold < r.1).forall hr' hr hne
  omega

theorem exists_request {i : ℕ} (hi : i < cf.length)
    (hunknown : m.isBlockKnown (i / cf.blocksize) = false) :
    ∃ r ∈ requestsFor m cf gapThreshold, r.1 ≤ i ∧ i ≤ r.2 := by
  have hbs := hcf.blocksize_pos
  obtain ⟨-, hapart⟩ := m.runs_neededBlockRanges
  have hid : i / cf.blocksize < m.totalBlocks := by
    rw [htotal, hcf.count, ControlFile.lt_numBlocks hbs]
    exact (Nat.div_mul_le_self i _).trans_lt hi
  obtain ⟨b, hb, hin⟩ := (hc.inRanges_iff _).2 ⟨hid, hunknown⟩
  obtain ⟨r, hr, h1, h2⟩ := exists_planned hbs
    (fun r hr => ⟨(neededBlockRanges_lt hcf hc htotal r hr).1,
      (neededBlockRanges_lt hcf hc htotal r hr).2.2⟩) (hapart.imp fun h => h.le) gapThreshold hb hin
  have hfloor := Nat.div_mul_le_self i cf.blocksize
  have hceil := Nat.lt_div_mul_add (a := i) hbs
  rw [Nat.succ_mul] at h2
  exact ⟨r, hr, by omega, by omega⟩

/-- A byte of a known block is requested only in a gap between unknown blocks. -/
theorem betweenUnknown_of_mem {r : ℕ × ℕ} (hr : r ∈ requestsFor m cf gapThreshold) {i : ℕ}
    (h1 : r.1 ≤ i) (h2 : i ≤ r.2) (hknown : m.isBlockKnown (i / cf.blocksize)) :
    BetweenUnknown m cf.blocksize gapThreshold i := by
  have hbs := hcf.blocksize_pos
  -- the byte ranges themselves have no byte of a known block
  have hrange : ∀ r ∈ byteRangesFromBlockRanges m.neededBlockRanges cf.blocksize cf.length,
      ∀ i, r.1 ≤ i → i ≤ r.2 → m.isBlockKnown (i / cf.blocksize) →
        BetweenUnknown m cf.blocksize gapThreshold i := by
    simp only [byteRangesFromBlockRanges, List.forall_mem_map]
    intro b hb i h1 h2 hknown
    have hlt := (neededBlockRanges_lt hcf hc htotal b hb).1
    have hpos : 0 < b.2 * cf.blocksize := Nat.mul_pos (by omega) hbs
    have hin : b.1 ≤ i / cf.blocksize ∧ i / cf.blocksize < b.2 :=
      ⟨(Nat.le_div_iff_mul_le hbs).2 h1, (Nat.div_lt_iff_lt_mul hbs).2 (by omega)⟩
    rw [((hc.inRanges_iff _).1 ⟨b, hb, hin⟩).2] at hknown
    cases hknown
  have hgap := fun i hi (_ : m.isBlockKnown (i / cf.blocksize)) =>
    betweenUnknown_of_inGap hcf hc htotal gapThreshold (i := i) hi
  revert hr hrange hgap
  unfold requestsFor
  cases byteRangesFromBlockRanges m.neededBlockRanges cf.blocksize cf.length with
  | nil => simp [mergeByteRanges]
  | cons first rest =>
    intro hr hrange hgap
    exact mergeFrom_gaps gapThreshold hrange hgap List.suffix_rfl rfl
      (hrange first List.mem_cons_self) r hr i h1 h2 hknown

/-- **The plan is exact** for every set of known blocks. -/
theorem planExact : PlanExact m cf gapThreshold (requestsFor m cf gapThreshold) where
  planned _ hr := planned_of_mem hcf.blocksize_pos
    (fun r hr => ⟨(neededBlockRanges_lt hcf hc htotal r hr).1,
      (neededBlockRanges_lt hcf hc htotal r hr).2.2⟩)
    (m.runs_neededBlockRanges.2.imp fun h => h.le) gapThreshold hr
  apart := requestsFor_apart hcf hc htotal gapThreshold
  unknown i hi hunknown := by
    obtain ⟨r, hr, hin⟩ := exists_request hcf hc htotal gapThreshold hi hunknown
    exact ⟨r, ⟨hr, hin⟩, fun r' ⟨hr', hin'⟩ =>
      requestsFor_unique hcf hc htotal gapThreshold hr hr' hin hin'⟩
  known _ hr _ := betweenUnknown_of_mem hcf hc htotal gapThreshold hr

end Plan

/-- **The download plan.**  For every matcher of a control file that `parse` accepts, with a target
that is not empty, the block ranges are the maximal runs of unknown blocks and add up to
`blocks_todo`; the requests are exact; and deriving them overflows nowhere. -/
theorem plan_of_parse {input : Bytes} {cf : ControlFile} (hp : ControlFile.parse input = .ok cf)
    (hlen : 0 < cf.length) {H : Hashes} {m : BlockMatcher} {ids : List ℕ}
    (hm : BlockMatcher.Reachable H cf m ids) (gapThreshold : ℕ) :
    (∀ r ∈ m.neededBlockRanges, IsRun m.knownBlocks r) ∧
      m.neededBlockRanges.Pairwise (fun r r' => r.2 < r'.1) ∧
      (∀ id, BlockMatcher.InRanges m.neededBlockRanges id ↔
        id < m.totalBlocks ∧ m.isBlockKnown id = false) ∧
      (m.neededBlockRanges.map fun r => r.2 - r.1).sum = m.blocksTodo ∧
      m.knownCount ≤ m.knownBlocks.length ∧
      PlanExact m cf gapThreshold (requestsFor m cf gapThreshold) ∧
      checkedRequests m.neededBlockRanges cf.blocksize cf.length gapThreshold =
        some (requestsFor m cf gapThreshold) := by
  have hcf := ControlFile.checked_of_parse hp
  have hc := hm.counted hcf
  obtain ⟨hruns, hapart⟩ := m.runs_neededBlockRanges
  have htotal : m.totalBlocks = cf.blockChecksums.length :=
    BlockMatcher.length_targets (hm.indexed hcf).2
  -- at most 2 ^ 26 blocks of at most 2 ^ 20 bytes
  have hbytes : ∀ n ≤ m.totalBlocks, n * cf.blocksize ≤ 2 ^ 46 := fun n hn =>
    (Nat.mul_le_mul ((hn.trans htotal.le).trans hcf.count_le) hcf.blocksize_le).trans (by decide)
  have hfile : cf.length ≤ 2 ^ 46 := by
    refine (ControlFile.numBlocks_le_mul hcf.blocksize_pos cf.length).trans ?_
    rw [← hcf.count, ← htotal]
    exact hbytes _ le_rfl
  refine ⟨hruns, hapart, hc.inRanges_iff, hc.sum_neededBlockRanges,
    hc.count ▸ List.count_le_length, planExact hcf hc htotal gapThreshold,
    checkedRequests_eq gapThreshold hlen (by omega) fun r hr => ?_⟩
  obtain ⟨hlt, hle, -⟩ := neededBlockRanges_lt hcf hc htotal r hr
  have := hbytes r.1 (by omega)
  have := hbytes r.2 hle
  omega

/-- Five blocks, the last one of one byte. -/
def fiveBlocks : ControlFile where
  version := "0.6.2"
  filename := none
  mtime := none
  blocksize := 2
  length := 9
  hashLengths := ⟨1, 4, 4⟩
  urls := ["u"]
  sha1 := none
  blockChecksums := (List.range 5).map fun i =>
    ⟨⟨0, 0⟩, ControlFile.md4OfPrefix [0, 0, 0, UInt8.ofNat i]⟩

/-- Hashes by the first byte. -/
def firstByteHashes : Hashes where
  md4 data := ControlFile.md4OfPrefix [0, 0, 0, data.headD 0]
  sha1 _ := .replicate 20 0

/-- Blocks 1 and 3 are known, and each is a gap of more than one byte. -/
theorem plan_of_parse_five :
    let m := (((BlockMatcher.new fiveBlocks).submitBlocks firstByteHashes [1, 0] 1).1.submitBlocks
      firstByteHashes [3, 0] 3).1
    requestsFor m fiveBlocks 1 = [(0, 1), (4, 5), (8, 8)] ∧
      PlanExact m fiveBlocks 1 (requestsFor m fiveBlocks 1) := by
  have hparse : ControlFile.parse (ControlFile.write fiveBlocks) = .ok fiveBlocks := by
    decide +kernel
  have hm : BlockMatcher.Reachable firstByteHashes fiveBlocks _ _ :=
    (BlockMatcher.Reachable.new.submitBlocks [1, 0] 1).submitBlocks [3, 0] 3
  exact ⟨by decide, (plan_of_parse hparse (by decide) hm 1).2.2.2.2.2.1⟩

end Zsync
