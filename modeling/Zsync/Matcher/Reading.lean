import Zsync.Matcher.Known

/-!
# Reading the data

What a scan finds, said of the target and the data: a reading of the data from left to right, block
by block, which goes on over what it has read and expects the next block there.

* `BlockMatcher.Legible` : a block that can be read at an offset where it is not expected;
* `BlockMatcher.Reads` : the offsets that a reading comes to, and the blocks it expects there;
* `BlockMatcher.reads_iff` : they are those that the plain scan tests;
* `BlockMatcher.Shows` : the blocks that are read at such an offset;
* `BlockMatcher.mem_reports_iff` : what the plain scan reports is what is read.
-/

namespace Zsync

namespace BlockMatcher

variable {H : Hashes} {m : BlockMatcher} {ids : List ℕ} {data : Bytes}

/-! ### The reading -/

/-- The block that follows block `k`. -/
def after (m : BlockMatcher) (k : ℕ) : Option ℕ :=
  if k + 1 < m.targets.length then some (k + 1) else none

/-- The expected block, if any, is not at offset `z`. -/
def Unawaited (m : BlockMatcher) (H : Hashes) (data : Bytes) (z : ℕ) (e : Option ℕ) : Prop :=
  ∀ k ∈ e, ¬ m.Sees H data 0 k z

/-- Block `k`, which is one of the blocks `ids`, can be read at offset `z` without being expected.
It is there, and where pairs are matched the next block is there behind it.  The last block, which
has no next one, stands alone when the sums of the two windows lead to it. -/
structure Legible (m : BlockMatcher) (H : Hashes) (ids : List ℕ) (data : Bytes) (z k : ℕ) :
    Prop where
  mem : k ∈ ids
  stands : m.Sees H data 0 k z
  next : m.inPair k → m.Sees H data 0 (k + 1) (z + m.blocksize)
  alone : m.inPair k ∨ ¬ 1 < m.hashLengths.seqMatches ∨
    m.looksUp (calcRsumBlock (window data z m.blocksize))
      (calcRsumBlock (window data (z + m.blocksize) m.blocksize)) k

/-- How a reading goes on from offset `z`, where the second argument is the block it expects: to
which offset, and expecting which block. -/
inductive GoesOn (m : BlockMatcher) (H : Hashes) (ids : List ℕ) (data : Bytes) (z : ℕ) :
    Option ℕ → ℕ × Option ℕ → Prop
  /-- The expected block is there. -/
  | awaited {k : ℕ} : m.Sees H data 0 k z →
      GoesOn m H ids data z (some k) (z + m.blocksize, m.after k)
  /-- The first block that is legible there begins a pair. -/
  | pair {e : Option ℕ} {k : ℕ} : m.Unawaited H data z e → m.Legible H ids data z k →
      (∀ a < k, ¬ m.Legible H ids data z a) → m.inPair k →
      GoesOn m H ids data z e (z + 2 * m.blocksize, m.after (k + 1))
  /-- The first block that is legible there stands alone. -/
  | alone {e : Option ℕ} {k : ℕ} : m.Unawaited H data z e → m.Legible H ids data z k →
      (∀ a < k, ¬ m.Legible H ids data z a) → m.inPair k = false →
      GoesOn m H ids data z e (z + m.blocksize, none)
  /-- No block is legible there. -/
  | nothing {e : Option ℕ} : m.Unawaited H data z e → (∀ k, ¬ m.Legible H ids data z k) →
      GoesOn m H ids data z e (z + 1, none)

/-- The offsets below `stop` that a reading from `start` comes to, with the blocks it expects
there. -/
inductive Reads (m : BlockMatcher) (H : Hashes) (ids : List ℕ) (data : Bytes) (start stop : ℕ) :
    ℕ → Option ℕ → Prop
  | start : start < stop → Reads m H ids data start stop start none
  | next {z : ℕ} {e : Option ℕ} {v : ℕ × Option ℕ} : Reads m H ids data start stop z e →
      m.GoesOn H ids data z e v → v.1 < stop → Reads m H ids data start stop v.1 v.2

/-- What is read from offset `z` on, where block `e` is expected: which block, and at which
offset. -/
inductive Shows (m : BlockMatcher) (H : Hashes) (ids : List ℕ) (data : Bytes) (z : ℕ)
    (e : Option ℕ) : ℕ → ℕ → Prop
  | awaited {b : ℕ} : e = some b → m.Sees H data 0 b z → Shows m H ids data z e b z
  | legible {b : ℕ} : m.Legible H ids data z b → Shows m H ids data z e b z
  /-- The second block of a pair, whose first block is not the expected one. -/
  | second {a : ℕ} : e ≠ some a → m.Legible H ids data z a → m.inPair a →
      Shows m H ids data z e (a + 1) (z + m.blocksize)

/-- A reading of the data from `start` up to `stop` comes across block `b` at offset `y`. -/
def Finds (m : BlockMatcher) (H : Hashes) (ids : List ℕ) (data : Bytes) (start stop b y : ℕ) :
    Prop :=
  ∃ z e, m.Reads H ids data start stop z e ∧ m.Shows H ids data z e b y

/-! ### One test -/

section Test

variable (hs : m.Sized) (hlt : ∀ id ∈ ids, id < m.targets.length) {z : ℕ} {e : Option ℕ}
  (hz : z + m.context ≤ data.length)
include hs hlt hz

theorem mem_plainHits_iff_legible {matched : Option ℕ} {k : ℕ} :
    k ∈ m.plainHits H ids data z matched ↔ matched ≠ some k ∧ m.Legible H ids data z k := by
  constructor
  · intro h
    obtain ⟨hsees, hnext⟩ := sees_of_mem_plainHits hs hlt hz h
    obtain ⟨hmem, hmatched, -, -, halone⟩ := mem_plainHits_iff.1 h
    exact ⟨hmatched, hmem, hsees, hnext, halone⟩
  · rintro ⟨hmatched, hmem, hsees, hnext, halone⟩
    exact mem_plainHits_iff.2 ⟨hmem, hmatched, by simpa using hsees.agrees,
      fun hpair => by simpa using (hnext hpair).agrees, halone⟩

omit hlt in
theorem plainHint_eq_some_iff (he : e.isSome → 1 < m.hashLengths.seqMatches) {k : ℕ} :
    m.plainHint H data z e = some k ↔ e = some k ∧ m.Sees H data 0 k z := by
  refine ⟨sees_of_plainHint hs hz, ?_⟩
  rintro ⟨rfl, hsees⟩
  have hagrees := hsees.agrees
  rw [Nat.sub_zero] at hagrees
  rw [plainHint, Option.filter_eq_some_iff]
  simp [he rfl, hsees.lt, hagrees]

omit hlt in
theorem plainHint_eq_none_iff (he : e.isSome → 1 < m.hashLengths.seqMatches) :
    m.plainHint H data z e = none ↔ m.Unawaited H data z e := by
  rw [Option.eq_none_iff_forall_ne_some]
  simp only [ne_eq, plainHint_eq_some_iff hs hz he, not_and, Unawaited, Option.mem_def]

theorem head?_plainHits_iff (hsorted : ids.Pairwise (· < ·)) {k : ℕ} :
    (m.plainHits H ids data z none).head? = some k ↔
      m.Legible H ids data z k ∧ ∀ a < k, ¬ m.Legible H ids data z a := by
  have hmem : ∀ a, a ∈ m.plainHits H ids data z none ↔ m.Legible H ids data z a := fun a => by
    rw [mem_plainHits_iff_legible hs hlt hz]
    simp
  have hhits : (m.plainHits H ids data z none).Pairwise (· < ·) := hsorted.filter _
  cases hlist : m.plainHits H ids data z none with
  | nil =>
    rw [hlist] at hmem
    simp only [List.head?_nil, reduceCtorEq, false_iff, not_and]
    exact fun hk => absurd ((hmem k).2 hk) List.not_mem_nil
  | cons j rest =>
    rw [hlist] at hmem hhits
    simp only [List.head?_cons, Option.some.injEq]
    have hle : ∀ a ∈ rest, j < a := (List.pairwise_cons.1 hhits).1
    constructor
    · rintro rfl
      refine ⟨(hmem j).1 List.mem_cons_self, fun a ha hlegible => ?_⟩
      rcases List.mem_cons.1 ((hmem a).2 hlegible) with rfl | hrest
      · exact absurd ha (lt_irrefl a)
      · exact absurd ha (hle a hrest).asymm
    · rintro ⟨hk, hleast⟩
      rcases List.mem_cons.1 ((hmem k).2 hk) with rfl | hrest
      · rfl
      · exact absurd ((hmem j).1 List.mem_cons_self) (hleast j (hle k hrest))

theorem plainHits_eq_nil_iff : m.plainHits H ids data z none = [] ↔
    ∀ k, ¬ m.Legible H ids data z k := by
  rw [List.eq_nil_iff_forall_not_mem]
  simp [mem_plainHits_iff_legible hs hlt hz]

/-- **One step** of the plain scan is one step of the reading. -/
theorem goesOn_iff (hsorted : ids.Pairwise (· < ·)) (he : e.isSome → 1 < m.hashLengths.seqMatches)
    (base : ℕ) {v : ℕ × Option ℕ} : m.GoesOn H ids data z e v ↔
      (m.plainScanner hs H ids data base).step (z, e) = v := by
  have hnone : m.plainHint H data z e = none ↔ m.Unawaited H data z e :=
    plainHint_eq_none_iff hs hz he
  have hhead := fun k => head?_plainHits_iff (H := H) hs hlt hz hsorted (k := k)
  have htest : (m.plainScanner hs H ids data base).test z e = m.plainTest H ids data base z e := rfl
  constructor
  · intro h
    simp only [Scanner.step, Scanner.span, htest, plainTest]
    cases h with
    | @awaited k hsees =>
      rw [(plainHint_eq_some_iff hs hz he).2 ⟨rfl, hsees⟩]
      rfl
    | @pair e k hunawaited hlegible hleast hpair =>
      obtain ⟨rest, hhits⟩ := List.head?_eq_some_iff.1 ((hhead k).2 ⟨hlegible, hleast⟩)
      rw [hnone.2 hunawaited, hhits]
      have htwo := hs.seq_eq_two (of_decide_eq_true hpair).1
      simp [coverOf, hpair, htwo, after, Nat.mul_comm, Nat.add_assoc]
    | @alone e k hunawaited hlegible hleast hlone =>
      obtain ⟨rest, hhits⟩ := List.head?_eq_some_iff.1 ((hhead k).2 ⟨hlegible, hleast⟩)
      rw [hnone.2 hunawaited, hhits]
      simp [coverOf, hlone]
    | nothing hunawaited hnothing =>
      rw [hnone.2 hunawaited, (plainHits_eq_nil_iff hs hlt hz).2 hnothing]
      rfl
  · rintro rfl
    simp only [Scanner.step, Scanner.span, htest, plainTest]
    cases hhint : m.plainHint H data z e with
    | some k =>
      obtain ⟨rfl, hsees⟩ := (plainHint_eq_some_iff hs hz he).1 hhint
      exact .awaited hsees
    | none =>
      cases hhits : m.plainHits H ids data z none with
      | nil => exact .nothing (hnone.1 hhint) ((plainHits_eq_nil_iff hs hlt hz).1 hhits)
      | cons k rest =>
        obtain ⟨hlegible, hleast⟩ := (hhead k).1 (by rw [hhits]; rfl)
        cases hpair : m.inPair k with
        | true =>
          have htwo := hs.seq_eq_two (of_decide_eq_true hpair).1
          have hgo := GoesOn.pair (hnone.1 hhint) hlegible hleast hpair
          simpa [coverOf, hpair, htwo, after, Nat.mul_comm, Nat.add_assoc] using hgo
        | false =>
          have hgo := GoesOn.alone (hnone.1 hhint) hlegible hleast hpair
          simpa [coverOf, hpair] using hgo

/-- **What one test reports** is what is read there. -/
theorem mem_found_iff_shows (he : e.isSome → 1 < m.hashLengths.seqMatches) {base : ℕ}
    {p : ℕ × ℕ} : p ∈ (m.plainScanner hs H ids data base).found (z, e) ↔
      ∃ y, p.2 = base + y ∧ m.Shows H ids data z e p.1 y := by
  rw [plainScanner_found, List.mem_append, List.mem_map, List.mem_flatMap]
  have hhint : ∀ k, m.plainHint H data z e = some k ↔ e = some k ∧ m.Sees H data 0 k z := fun k =>
    plainHint_eq_some_iff hs hz he
  have hmatched : ∀ k, m.Legible H ids data z k →
      (m.plainHint H data z e ≠ some k ↔ e ≠ some k) := fun k hk => by
    rw [Ne, hhint, not_and_or, or_iff_left_iff_imp]
    exact fun hnot => absurd hk.stands hnot
  constructor
  · rintro (⟨k, hk, rfl⟩ | ⟨k, hk, hrep⟩)
    · obtain ⟨rfl, hsees⟩ := (hhint k).1 (Option.mem_toList.1 hk)
      exact ⟨z, rfl, .awaited rfl hsees⟩
    · obtain ⟨hne, hlegible⟩ := (mem_plainHits_iff_legible hs hlt hz).1 hk
      unfold reportOf at hrep
      split_ifs at hrep with hpair
      · rcases List.mem_cons.1 hrep with rfl | hrep
        · exact ⟨z, rfl, .legible hlegible⟩
        · obtain rfl := List.mem_singleton.1 hrep
          exact ⟨z + m.blocksize, Nat.add_assoc _ _ _,
            .second ((hmatched k hlegible).1 hne) hlegible hpair⟩
      · obtain rfl := List.mem_singleton.1 hrep
        exact ⟨z, rfl, .legible hlegible⟩
  · obtain ⟨b, o⟩ := p
    rintro ⟨y, rfl, hshows⟩
    cases hshows with
    | awaited heq hsees =>
      exact Or.inl ⟨b, Option.mem_toList.2 ((hhint b).2 ⟨heq, hsees⟩), rfl⟩
    | legible hlegible =>
      by_cases heq : m.plainHint H data z e = some b
      · exact Or.inl ⟨b, Option.mem_toList.2 heq, rfl⟩
      · refine Or.inr ⟨b, (mem_plainHits_iff_legible hs hlt hz).2 ⟨heq, hlegible⟩, ?_⟩
        unfold reportOf
        split_ifs <;> exact List.mem_cons_self
    | @second a hne hlegible hpair =>
      refine Or.inr ⟨a, (mem_plainHits_iff_legible hs hlt hz).2
        ⟨(hmatched a hlegible).2 hne, hlegible⟩, ?_⟩
      simp [reportOf, hpair, Nat.add_assoc]

end Test

/-! ### The run -/

/-- Where nothing confirms pairs, nothing is ever expected. -/
theorem Reads.expects {start stop z : ℕ} {e : Option ℕ} (h : m.Reads H ids data start stop z e) :
    z < stop ∧ (e.isSome → 1 < m.hashLengths.seqMatches) := by
  induction h with
  | start hlt => exact ⟨hlt, by simp⟩
  | @next z e v _ hgo hlt ih =>
    refine ⟨hlt, fun hsome => ?_⟩
    cases hgo with
    | awaited _ => exact ih.2 rfl
    | pair _ _ _ hpair => exact (of_decide_eq_true hpair).1
    | alone => cases hsome
    | nothing => cases hsome

section Run

variable (hs : m.Sized) (hlt : ∀ id ∈ ids, id < m.targets.length) (hsorted : ids.Pairwise (· < ·))
  {start stop : ℕ} (hstop : stop ≤ data.length - m.context)
include hs hlt hsorted hstop

/-- **A reading** comes to the offsets that the plain scan tests, and expects what it expects. -/
theorem reads_iff (base : ℕ) {z : ℕ} {e : Option ℕ} : m.Reads H ids data start stop z e ↔
    (z, e) ∈ (m.plainScanner hs H ids data base).visits stop (start, none) := by
  constructor
  · intro h
    induction h with
    | start hpos => exact Scanner.mem_visits_self _ hpos
    | @next z e v hreads hgo hend ih =>
      obtain ⟨hz, he⟩ := hreads.expects
      rw [goesOn_iff hs hlt (by omega) hsorted he base] at hgo
      exact hgo ▸ Scanner.step_mem_visits _ ih (hgo ▸ hend)
  · intro h
    have hlimit := (Scanner.le_of_mem_visits _ h).2
    refine Scanner.of_mem_visits _
      (I := fun v => v.1 < stop → m.Reads H ids data start stop v.1 v.2)
      (fun v hv hreads hend => ?_) (fun hpos => .start hpos) h hlimit
    exact (hreads hv).next ((goesOn_iff hs hlt (by omega) hsorted (hreads hv).expects.2 base).2 rfl)
      hend

theorem Reads.unique {z : ℕ} {e e' : Option ℕ} (h : m.Reads H ids data start stop z e)
    (h' : m.Reads H ids data start stop z e') : e = e' :=
  congrArg Prod.snd (Scanner.eq_of_mem_visits _ ((reads_iff hs hlt hsorted hstop 0).1 h)
    ((reads_iff hs hlt hsorted hstop 0).1 h') rfl)

/-- A reading passes over all offsets up to the one that it goes on to. -/
theorem Reads.le_of_goesOn {y z : ℕ} {d e : Option ℕ} {v : ℕ × Option ℕ}
    (hy : m.Reads H ids data start stop y d) (hz : m.Reads H ids data start stop z e)
    (hgo : m.GoesOn H ids data z e v) (h : y < v.1) : y ≤ z := by
  obtain ⟨hend, he⟩ := hz.expects
  rw [goesOn_iff hs hlt (by omega) hsorted he 0] at hgo
  obtain ⟨-, -, hpassed⟩ := (Scanner.mem_visits_iff _).1
    ⟨_, (reads_iff hs hlt hsorted hstop 0).1 hy, rfl⟩
  have hnot := hpassed _ ((reads_iff hs hlt hsorted hstop 0).1 hz)
  subst hgo
  simp only [Scanner.step] at h
  omega

/-- **What the plain scan reports** is what the reading comes across. -/
theorem mem_reports_iff {base : ℕ} {p : ℕ × ℕ} :
    p ∈ (m.plainScanner hs H ids data base).reports stop (start, none) ↔
      ∃ y, p.2 = base + y ∧ m.Finds H ids data start stop p.1 y := by
  rw [Scanner.reports, List.mem_flatMap]
  constructor
  · rintro ⟨⟨z, e⟩, hvisit, hfound⟩
    have hreads := (reads_iff hs hlt hsorted hstop base).2 hvisit
    obtain ⟨hz, he⟩ := hreads.expects
    obtain ⟨y, heq, hshows⟩ := (mem_found_iff_shows hs hlt (by omega) he).1 hfound
    exact ⟨y, heq, z, e, hreads, hshows⟩
  · rintro ⟨y, heq, z, e, hreads, hshows⟩
    obtain ⟨hz, he⟩ := hreads.expects
    exact ⟨(z, e), (reads_iff hs hlt hsorted hstop base).1 hreads,
      (mem_found_iff_shows hs hlt (by omega) he).2 ⟨y, heq, hshows⟩⟩

end Run

/-- The scan of a new matcher finds what a reading for all blocks comes across. -/
theorem exists_mem_scanChunk_iff {cf : ControlFile} (hcf : cf.Checked) {offset b : ℕ} :
    (∃ o, (b, o) ∈ (new cf).scanChunk H data offset) ↔
      ∃ y, (new cf).Finds H (List.range cf.blockChecksums.length) data 0
        (data.length - (new cf).context) b y := by
  have hs := sized_new hcf
  have hind := (indexed_new hcf.count_le).1
  rw [scanChunk_eq hs hind]
  simp only [mem_reports_iff hs hind.lt List.pairwise_lt_range le_rfl]
  constructor
  · rintro ⟨-, y, -, hfinds⟩
    exact ⟨y, hfinds⟩
  · rintro ⟨y, hfinds⟩
    exact ⟨_, y, rfl, hfinds⟩

end BlockMatcher

end Zsync
