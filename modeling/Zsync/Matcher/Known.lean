import Zsync.Matcher.Plain

/-!
# Known blocks

What a scan and a downloaded block change in the record of known blocks.

* `BlockMatcher.Counted` : the counter of known blocks is right;
* `BlockMatcher.Sees` : a block is found at an offset of some data;
* `BlockMatcher.submitSourceData_spec` : a scan reports blocks that it sees, each unknown before and
  known after, and no other block changes;
* `BlockMatcher.submitBlocks_one` : a downloaded block becomes known exactly when its digest agrees;
* `BlockMatcher.Counted.inRanges_iff` : the needed ranges hold the blocks that are not known.
-/

namespace Zsync

namespace BlockMatcher

variable {H : Hashes} {cf : ControlFile} {m : BlockMatcher} {ids : List ℕ}

/-! ### The counter -/

/-- The counter of known blocks is right, and there is one entry for each block. -/
structure Counted (m : BlockMatcher) : Prop where
  length : m.knownBlocks.length = m.targets.length
  count : m.knownCount = m.knownBlocks.count true

@[simp] theorem targets_markKnown (m : BlockMatcher) (id : ℕ) :
    (m.markKnown id).targets = m.targets := targets_congr (shape_markKnown m id)

@[simp] theorem length_knownBlocks_markKnown (m : BlockMatcher) (id : ℕ) :
    (m.markKnown id).knownBlocks.length = m.knownBlocks.length := by
  unfold markKnown
  split_ifs <;> simp

theorem isBlockKnown_markKnown {id : ℕ} (hid : id < m.knownBlocks.length) (j : ℕ) :
    (m.markKnown id).isBlockKnown j = (decide (j = id) || m.isBlockKnown j) := by
  unfold markKnown isBlockKnown
  split_ifs with h
  · by_cases hj : j = id
    · simpa [hj] using h
    · simp [hj]
  · simp only [List.getD_eq_getElem?_getD, List.getElem?_set]
    by_cases hj : j = id
    · simp [hj, hid]
    · simp [hj, Ne.symm hj]

theorem isBlockKnown_mono_markKnown {j : ℕ} (h : m.isBlockKnown j) (id : ℕ) :
    (m.markKnown id).isBlockKnown j := by
  unfold markKnown isBlockKnown at *
  split_ifs with hk
  · exact h
  · simp only [List.getD_eq_getElem?_getD, List.getElem?_set] at h ⊢
    split_ifs with hj hlt
    · rfl
    · simp [← hj, List.getElem?_eq_none (Nat.le_of_not_lt hlt)] at h
    · exact h

theorem Counted.markKnown (h : m.Counted) {id : ℕ} (hid : id < m.targets.length) :
    (m.markKnown id).Counted := by
  refine ⟨by simpa using h.length, ?_⟩
  unfold BlockMatcher.markKnown
  split_ifs with hk
  · exact h.count
  · have hlt : id < m.knownBlocks.length := h.length ▸ hid
    have hfalse : m.knownBlocks[id] = false := by simpa [List.getD_eq_getElem?_getD, hlt] using hk
    simp [List.count_set, hlt, hfalse, h.count]

theorem knownCount_markKnown {id : ℕ} (h : m.isBlockKnown id = false) :
    (m.markKnown id).knownCount = m.knownCount + 1 := by
  unfold isBlockKnown at h
  rw [markKnown, if_neg (by rw [h]; decide)]

theorem Counted.isComplete_iff (h : m.Counted) :
    m.isComplete ↔ ∀ id < m.totalBlocks, m.isBlockKnown id := by
  rw [isComplete, decide_eq_true_iff, h.count, List.count_eq_length]
  constructor
  · intro hall id hid
    have hlt : id < m.knownBlocks.length := h.length ▸ hid
    simpa [isBlockKnown, List.getD_eq_getElem?_getD, hlt] using (hall _ (List.getElem_mem hlt)).symm
  · intro hall b hb
    obtain ⟨id, hlt, rfl⟩ := List.getElem_of_mem hb
    simpa [isBlockKnown, List.getD_eq_getElem?_getD, hlt] using
      (hall id (h.length ▸ hlt : id < m.targets.length))

theorem Counted.lt_of_isBlockKnown (h : m.Counted) {id : ℕ} (hid : m.isBlockKnown id) :
    id < m.totalBlocks := by
  by_contra hge
  have hlen : m.knownBlocks.length ≤ id := h.length ▸ Nat.le_of_not_lt hge
  simp [isBlockKnown, List.getElem?_eq_none hlen] at hid

/-! ### Sightings -/

/-- Block `id` is found at `offset` in data that starts at `base`. -/
structure Sees (m : BlockMatcher) (H : Hashes) (data : Bytes) (base id offset : ℕ) : Prop where
  base_le : base ≤ offset
  inside : offset - base + m.blocksize ≤ data.length
  lt : id < m.targets.length
  agrees : m.agrees H id (calcRsumBlock (window data (offset - base) m.blocksize))
    (window data (offset - base) m.blocksize)

theorem sees_of_agrees {data : Bytes} {base id x : ℕ} (hx : x + m.blocksize ≤ data.length)
    (hid : id < m.targets.length)
    (h : m.agrees H id (calcRsumBlock (window data x m.blocksize)) (window data x m.blocksize)) :
    m.Sees H data base id (base + x) :=
  ⟨Nat.le_add_right _ _, by rwa [Nat.add_sub_cancel_left], hid, by rwa [Nat.add_sub_cancel_left]⟩

theorem sees_of_mem_plainHits (hs : m.Sized) (hlt : ∀ id ∈ ids, id < m.targets.length)
    {data : Bytes} {x : ℕ} (hx : x + m.context ≤ data.length) {matched : Option ℕ} {id : ℕ}
    (h : id ∈ m.plainHits H ids data x matched) :
    m.Sees H data 0 id x ∧ (m.inPair id → m.Sees H data 0 (id + 1) (x + m.blocksize)) := by
  have hbs := hs.blocksize_le_context
  obtain ⟨hmem, -, h0, h1, -⟩ := mem_plainHits_iff.1 h
  have hsees : m.Sees H data 0 id (0 + x) := sees_of_agrees (by omega) (hlt id hmem) h0
  rw [Nat.zero_add] at hsees
  refine ⟨hsees, fun hpair => ?_⟩
  have hinPair := hpair
  simp only [inPair, decide_eq_true_eq] at hinPair
  have hctx := hs.context_eq hinPair.1
  have hnext : m.Sees H data 0 (id + 1) (0 + (x + m.blocksize)) :=
    sees_of_agrees (by omega) hinPair.2 (h1 hpair)
  rwa [Nat.zero_add] at hnext

theorem sees_of_plainHint (hs : m.Sized) {data : Bytes} {x : ℕ} (hx : x + m.context ≤ data.length)
    {hint : Option ℕ} {id : ℕ} (h : m.plainHint H data x hint = some id) :
    hint = some id ∧ m.Sees H data 0 id x := by
  have hbs := hs.blocksize_le_context
  rw [plainHint, Option.filter_eq_some_iff] at h
  simp only [Bool.and_eq_true, decide_eq_true_eq] at h
  have hsees : m.Sees H data 0 id (0 + x) := sees_of_agrees (by omega) h.2.1.2 h.2.2
  rw [Nat.zero_add] at hsees
  exact ⟨h.1, hsees⟩

theorem Sees.shift {data : Bytes} {id x : ℕ} (h : m.Sees H data 0 id x) (base : ℕ) :
    m.Sees H data base id (base + x) := by
  obtain ⟨-, hinside, hlt, hagrees⟩ := h
  refine ⟨Nat.le_add_right _ _, ?_, hlt, ?_⟩
  · rwa [Nat.add_sub_cancel_left]
  · rwa [Nat.add_sub_cancel_left]

theorem Sees.unshift {data : Bytes} {base id x : ℕ} (h : m.Sees H data base id (base + x)) :
    m.Sees H data 0 id x := by
  obtain ⟨-, hinside, hlt, hagrees⟩ := h
  rw [Nat.add_sub_cancel_left] at hinside hagrees
  exact ⟨Nat.zero_le _, hinside, hlt, hagrees⟩

theorem plainScanner_sees (hs : m.Sized) (hm : m.Indexed ids) {data : Bytes} {base : ℕ}
    {u : ℕ × Option ℕ} (hu : u.1 + m.context ≤ data.length) {p : ℕ × ℕ}
    (hp : p ∈ (m.plainScanner hs H ids data base).found u) : m.Sees H data base p.1 p.2 := by
  rw [plainScanner_found, List.mem_append, List.mem_map, List.mem_flatMap] at hp
  rcases hp with ⟨id, hid, rfl⟩ | ⟨id, hid, hrep⟩
  · exact (sees_of_plainHint hs hu (Option.mem_toList.1 hid)).2.shift base
  · obtain ⟨hsees, hnext⟩ := sees_of_mem_plainHits hs hm.lt hu hid
    unfold reportOf at hrep
    split_ifs at hrep with hpair
    · rcases List.mem_cons.1 hrep with rfl | hrep
      · exact hsees.shift base
      · obtain rfl := List.mem_singleton.1 hrep
        dsimp only
        rw [Nat.add_assoc]
        exact (hnext hpair).shift base
    · obtain rfl := List.mem_singleton.1 hrep
      exact hsees.shift base

theorem scanChunk_sees (hs : m.Sized) (hm : m.Indexed ids) {data : Bytes} {base : ℕ} {p : ℕ × ℕ}
    (hp : p ∈ m.scanChunk H data base) : m.Sees H data base p.1 p.2 := by
  rw [scanChunk_eq hs hm, Scanner.reports, List.mem_flatMap] at hp
  obtain ⟨u, hu, hfound⟩ := hp
  have := (Scanner.le_of_mem_visits _ hu).2
  exact plainScanner_sees hs hm (by omega) hfound

theorem Sees.of_window {data : Bytes} {base id offset start n : ℕ} (hpos : 0 < m.blocksize)
    (h : m.Sees H (window data start n) (base + start) id offset) :
    m.Sees H data base id offset := by
  obtain ⟨hbase, hinside, hlt, hagrees⟩ := h
  have hn := length_window_le data start n
  have hlen : (window data start n).length ≤ data.length - start := by
    simp [window]
  rw [window_window (by omega)] at hagrees
  have hoff : start + (offset - (base + start)) = offset - base := by omega
  rw [hoff] at hagrees
  exact ⟨by omega, by omega, hlt, hagrees⟩

theorem candidates_sees (hs : m.Sized) (hm : m.Indexed ids) {cores : ℕ} {data : Bytes} {base : ℕ}
    {p : ℕ × ℕ} (hp : p ∈ m.candidates H cores data base) : m.Sees H data base p.1 p.2 := by
  simp only [candidates] at hp
  split_ifs at hp
  · obtain ⟨i, -, hi⟩ := List.mem_flatMap.1 hp
    exact (scanChunk_sees hs hm hi).of_window hs.blocksize_pos
  · exact scanChunk_sees hs hm hp

/-! ### Claiming blocks -/

/-- **Claiming** keeps some of the sightings: each block once, and only blocks unknown before. -/
theorem claimBlocks_spec (found : List (ℕ × ℕ)) (hlt : ∀ p ∈ found, p.1 < m.knownBlocks.length) :
    (claimBlocks found m).2.Sublist found ∧
      ((claimBlocks found m).2.map Prod.fst).Nodup ∧
      (∀ p ∈ (claimBlocks found m).2, m.isBlockKnown p.1 = false) ∧
      (∀ id, (claimBlocks found m).1.isBlockKnown id =
        (m.isBlockKnown id || decide (id ∈ (claimBlocks found m).2.map Prod.fst))) ∧
      (∀ p ∈ found, (claimBlocks found m).1.isBlockKnown p.1) := by
  induction found generalizing m with
  | nil => simp [claimBlocks]
  | cons c found ih =>
    obtain ⟨hc, hrest⟩ := List.forall_mem_cons.1 hlt
    rw [claimBlocks]
    split_ifs with hk
    · obtain ⟨hsub, hnodup, hunknown, hknown, hall⟩ := ih hrest
      refine ⟨hsub.cons _, hnodup, hunknown, hknown, List.forall_mem_cons.2 ⟨?_, hall⟩⟩
      have hk' : m.isBlockKnown c.1 = true := hk
      rw [hknown, hk', Bool.true_or]
    · have hlen : ((m.markKnown c.1).removeBlockFromHash c.1).knownBlocks.length =
          m.knownBlocks.length := length_knownBlocks_markKnown m c.1
      have hstep : ∀ j, ((m.markKnown c.1).removeBlockFromHash c.1).isBlockKnown j =
          (decide (j = c.1) || m.isBlockKnown j) := isBlockKnown_markKnown hc
      obtain ⟨hsub, hnodup, hunknown, hknown, hall⟩ := ih (hlen ▸ hrest)
      have hfresh : ∀ p ∈ (claimBlocks found ((m.markKnown c.1).removeBlockFromHash c.1)).2,
          p.1 ≠ c.1 ∧ m.isBlockKnown p.1 = false := by
        intro p hp
        have := hunknown p hp
        rw [hstep] at this
        simpa using this
      refine ⟨hsub.cons_cons _, ?_, ?_, fun id => ?_, ?_⟩
      · rw [List.map_cons, List.nodup_cons]
        refine ⟨fun hmem => ?_, hnodup⟩
        obtain ⟨p, hp, heq⟩ := List.mem_map.1 hmem
        exact (hfresh p hp).1 heq
      · rw [List.forall_mem_cons]
        exact ⟨by simpa [isBlockKnown] using hk, fun p hp => (hfresh p hp).2⟩
      · simp only [hknown, hstep, List.map_cons, List.mem_cons]
        by_cases hid : id = c.1 <;> simp [hid]
      · rw [List.forall_mem_cons]
        refine ⟨?_, hall⟩
        rw [hknown, hstep]
        simp

theorem counted_claimBlocks (h : m.Counted) (found : List (ℕ × ℕ))
    (hlt : ∀ p ∈ found, p.1 < m.targets.length) :
    (claimBlocks found m).1.Counted ∧
      (claimBlocks found m).1.knownCount = m.knownCount + (claimBlocks found m).2.length := by
  induction found generalizing m with
  | nil => exact ⟨h, rfl⟩
  | cons c found ih =>
    obtain ⟨hc, hrest⟩ := List.forall_mem_cons.1 hlt
    rw [claimBlocks]
    split_ifs with hk
    · exact ih h hrest
    · have hmark := h.markKnown hc
      have hremove : ((m.markKnown c.1).removeBlockFromHash c.1).Counted :=
        ⟨hmark.length, hmark.count⟩
      obtain ⟨hcounted, hcount⟩ := ih hremove (by simpa [removeBlockFromHash] using hrest)
      refine ⟨hcounted, ?_⟩
      have hone : ((m.markKnown c.1).removeBlockFromHash c.1).knownCount = m.knownCount + 1 :=
        knownCount_markKnown (by simpa [isBlockKnown] using hk)
      rw [hcount, hone, List.length_cons]
      omega

/-- **A scan** reports blocks that it sees, each once, unknown before and known after, and changes
no other block. -/
theorem submitSourceData_spec (hs : m.Sized) (hm : m.Indexed ids) (hc : m.Counted) (cores : ℕ)
    (data : Bytes) (offset : ℕ) :
    let r := m.submitSourceData H cores data offset
    r.1.Counted ∧ r.1.knownCount = m.knownCount + r.2.length ∧
      (∀ p ∈ r.2, m.Sees H data offset p.1 p.2 ∧ m.isBlockKnown p.1 = false) ∧
      (r.2.map Prod.fst).Nodup ∧
      ∀ id, r.1.isBlockKnown id = (m.isBlockKnown id || decide (id ∈ r.2.map Prod.fst)) := by
  unfold submitSourceData
  split_ifs
  · simpa using hc
  · have hsees : ∀ p ∈ m.candidates H cores data offset, m.Sees H data offset p.1 p.2 :=
      fun p hp => candidates_sees hs hm hp
    obtain ⟨hsub, hnodup, hunknown, hknown, -⟩ := claimBlocks_spec (m := m) _
      fun p hp => hc.length ▸ (hsees p hp).lt
    obtain ⟨hcounted, hcount⟩ := counted_claimBlocks hc _ fun p hp => (hsees p hp).lt
    exact ⟨hcounted, hcount, fun p hp => ⟨hsees p (hsub.subset hp), hunknown p hp⟩, hnodup, hknown⟩

/-- After a scan a block is known when it was or was found. -/
theorem isBlockKnown_submit_iff (hs : m.Sized) (hm : m.Indexed ids) (hc : m.Counted) {cores : ℕ}
    {data : Bytes} {offset b : ℕ} (hlen : m.context ≤ data.length) :
    (m.submitSourceData H cores data offset).1.isBlockKnown b ↔
      m.isBlockKnown b ∨ ∃ o, (b, o) ∈ m.candidates H cores data offset := by
  obtain ⟨hsub, -, -, hknown, hall⟩ := claimBlocks_spec (m := m)
    (m.candidates H cores data offset) fun q hq => hc.length ▸ (candidates_sees hs hm hq).lt
  rw [submitSourceData, if_neg (Nat.not_lt.2 hlen)]
  constructor
  · intro h
    rw [hknown, Bool.or_eq_true, decide_eq_true_iff, List.mem_map] at h
    refine h.imp_right ?_
    rintro ⟨p, hp, rfl⟩
    exact ⟨p.2, hsub.subset hp⟩
  · rintro (h | ⟨o, ho⟩)
    · rw [hknown, h, Bool.true_or]
    · exact hall (b, o) ho

theorem Counted.isBlockKnown_of_mem_candidates (hc : m.Counted) (hs : m.Sized) (hm : m.Indexed ids)
    {cores : ℕ} {data : Bytes} {offset : ℕ} (hlen : m.context ≤ data.length) {p : ℕ × ℕ}
    (hp : p ∈ m.candidates H cores data offset) :
    (m.submitSourceData H cores data offset).1.isBlockKnown p.1 :=
  (isBlockKnown_submit_iff hs hm hc hlen).2 (Or.inr ⟨p.2, hp⟩)

theorem candidates_one (m : BlockMatcher) (H : Hashes) (data : Bytes) (offset : ℕ) :
    m.candidates H 1 data offset = m.scanChunk H data offset := by
  simp [candidates]

theorem Counted.isBlockKnown_of_mem_scanChunk (hc : m.Counted) (hs : m.Sized) (hm : m.Indexed ids)
    {data : Bytes} {offset : ℕ} (hlen : m.context ≤ data.length) {p : ℕ × ℕ}
    (hp : p ∈ m.scanChunk H data offset) :
    (m.submitSourceData H 1 data offset).1.isBlockKnown p.1 :=
  hc.isBlockKnown_of_mem_candidates hs hm hlen (candidates_one m H data offset ▸ hp)

/-! ### Downloaded blocks -/

/-- **One downloaded block** becomes known exactly when its digest agrees. -/
theorem submitBlocks_one (hs : m.Sized) {padded : Bytes} (hlen : padded.length = m.blocksize)
    {id : ℕ} (hid : id < m.targets.length) :
    m.submitBlocks H padded id =
      if m.sameChecksum (H.md4 padded) (m.target id).checksum then (m.markKnown id, true)
      else (m, false) := by
  have hpos := hs.blocksize_pos
  have hwin : window padded 0 m.blocksize = padded := hlen ▸ window_zero_length padded
  have hrange : List.range (padded.length / m.blocksize) = [0] := by
    rw [hlen, Nat.div_self hpos]
    rfl
  simp only [submitBlocks, hrange, submitBlocksFrom, Nat.zero_mul, hwin, Nat.add_zero,
    Nat.not_le.2 hid, if_false]

/-! ### Needed blocks -/

/-- Block `id` lies in one of the ranges. -/
def InRanges (ranges : List (ℕ × ℕ)) (id : ℕ) : Prop := ∃ r ∈ ranges, r.1 ≤ id ∧ id < r.2

@[simp] theorem inRanges_cons (r : ℕ × ℕ) (ranges : List (ℕ × ℕ)) (id : ℕ) :
    InRanges (r :: ranges) id ↔ (r.1 ≤ id ∧ id < r.2) ∨ InRanges ranges id := by
  simp [InRanges]

@[simp] theorem inRanges_nil (id : ℕ) : ¬ InRanges [] id := by simp [InRanges]

/-- The blocks from `i` on that are not known, after the run that is open. -/
theorem inRanges_neededFrom (l : List Bool) {i : ℕ} {start : Option ℕ} (hs : ∀ s ∈ start, s ≤ i)
    (id : ℕ) : InRanges (neededFrom i start l) id ↔
      (∃ s ∈ start, s ≤ id ∧ id < i) ∨ (i ≤ id ∧ l[id - i]? = some false) := by
  induction l generalizing i start with
  | nil => cases start <;> simp [neededFrom]
  | cons known rest ih =>
    -- the block `i` itself, or one after it
    have hcons : (i ≤ id ∧ (known :: rest)[id - i]? = some false) ↔
        (id = i ∧ known = false) ∨ (i + 1 ≤ id ∧ rest[id - (i + 1)]? = some false) := by
      rcases Nat.lt_trichotomy id i with hlt | rfl | hgt
      · omega
      · simp
      · have hsucc : id - i = (id - (i + 1)) + 1 := by omega
        have hne : id ≠ i := by omega
        rw [hsucc, List.getElem?_cons_succ]
        simp [hne, hgt, hgt.le]
    rw [hcons]
    have hopen : ∀ s ∈ some i, s ≤ i + 1 := by simp
    have hkeep : ∀ s ∈ start, s ≤ i + 1 := fun s hs' => (hs s hs').trans (Nat.le_succ i)
    cases start <;> cases known <;> simp [neededFrom, ih, hopen, hkeep] <;> grind

theorem neededFrom_ascending (l : List Bool) {i : ℕ} {start : Option ℕ} (hs : ∀ s ∈ start, s < i) :
    (∀ r ∈ neededFrom i start l, start.getD i ≤ r.1 ∧ r.1 < r.2 ∧ r.2 ≤ i + l.length) ∧
      (neededFrom i start l).Pairwise fun r r' => r.2 ≤ r'.1 := by
  induction l generalizing i start with
  | nil =>
    cases start with
    | none => simp [neededFrom]
    | some s => simpa [neededFrom] using hs
  | cons known rest ih =>
    have hopen : ∀ s ∈ some i, s < i + 1 := by simp
    have hnone : ∀ s ∈ (none : Option ℕ), s < i + 1 := nofun
    cases start with
    | none =>
      cases known with
      | false =>
        obtain ⟨hmem, hpair⟩ := ih hopen
        refine ⟨fun r hr => ?_, by simpa [neededFrom] using hpair⟩
        have := hmem r (by simpa [neededFrom] using hr)
        simp only [Option.getD_some, Option.getD_none, List.length_cons] at this ⊢
        omega
      | true =>
        obtain ⟨hmem, hpair⟩ := ih hnone
        refine ⟨fun r hr => ?_, by simpa [neededFrom] using hpair⟩
        have := hmem r (by simpa [neededFrom] using hr)
        simp only [Option.getD_none, List.length_cons] at this ⊢
        omega
    | some s =>
      have hsi : s < i := hs s rfl
      have hkeep : ∀ s' ∈ some s, s' < i + 1 := by simpa using hsi.le
      cases known with
      | false =>
        obtain ⟨hmem, hpair⟩ := ih hkeep
        refine ⟨fun r hr => ?_, by simpa [neededFrom] using hpair⟩
        have := hmem r (by simpa [neededFrom] using hr)
        simp only [Option.getD_some, List.length_cons] at this ⊢
        omega
      | true =>
        obtain ⟨hmem, hpair⟩ := ih hnone
        simp only [Option.getD_none] at hmem
        simp only [neededFrom, if_true, Option.getD_some, List.length_cons]
        refine ⟨List.forall_mem_cons.2 ⟨⟨le_rfl, hsi, by omega⟩, fun r hr => ?_⟩,
          List.pairwise_cons.2 ⟨fun r hr => ?_, hpair⟩⟩
        · have := hmem r hr
          omega
        · have := hmem r hr
          omega

/-- **A block is needed** exactly when it is a block of the target that is not known. -/
theorem Counted.inRanges_iff (h : m.Counted) (id : ℕ) :
    InRanges m.neededBlockRanges id ↔ id < m.totalBlocks ∧ m.isBlockKnown id = false := by
  rw [neededBlockRanges, inRanges_neededFrom _ (by simp), totalBlocks, ← h.length, isBlockKnown]
  simp only [Option.mem_def, reduceCtorEq, false_and, exists_false, Nat.zero_le, true_and,
    Nat.sub_zero, false_or, List.getD_eq_getElem?_getD]
  constructor
  · intro hget
    obtain ⟨hlt, hfalse⟩ := List.getElem?_eq_some_iff.1 hget
    exact ⟨hlt, by simp [hget]⟩
  · rintro ⟨hlt, hfalse⟩
    simpa [hlt] using hfalse

/-! ### Reachable matchers -/

theorem counted_new (cf : ControlFile) : (new cf).Counted := by
  have hfold : ∀ is : List ℕ, ∀ m : BlockMatcher, m.Counted → (is.foldl insertBlock m).Counted := by
    intro is
    induction is with
    | nil => exact fun m hm => hm
    | cons i is ih => exact fun m hm => ih _ ⟨hm.length, hm.count⟩
  refine hfold _ _ ⟨by simp [unindexed], ?_⟩
  simp [unindexed, List.count_replicate]

theorem isBlockKnown_new (cf : ControlFile) (id : ℕ) : (new cf).isBlockKnown id = false := by
  have hfold : ∀ (is : List ℕ) (m : BlockMatcher),
      (is.foldl insertBlock m).knownBlocks = m.knownBlocks := by
    intro is
    induction is with
    | nil => exact fun m => rfl
    | cons i is ih => exact fun m => ih _
  rw [isBlockKnown, new, hfold]
  simp only [unindexed, List.getD_eq_getElem?_getD, List.getElem?_replicate]
  split_ifs <;> rfl

theorem isBlockKnown_scan_new (hcf : cf.Checked) {data : Bytes} {offset id : ℕ} :
    ((new cf).submitSourceData H 1 data offset).1.isBlockKnown id ↔
      ∃ o, (id, o) ∈ (new cf).scanChunk H data offset := by
  rcases Nat.lt_or_ge data.length (new cf).context with hlen | hlen
  · simp [submitSourceData, scanChunk, hlen, isBlockKnown_new]
  · rw [isBlockKnown_submit_iff (sized_new hcf) (indexed_new hcf.count_le).1 (counted_new cf) hlen,
      isBlockKnown_new, candidates_one]
    simp

theorem counted_submitBlocks (h : m.Counted) (data : Bytes) (blockStart : ℕ) :
    (m.submitBlocks H data blockStart).1.Counted := by
  unfold submitBlocks
  generalize List.range _ = is
  induction is generalizing m with
  | nil => exact h
  | cons i is ih =>
    rw [submitBlocksFrom]
    split_ifs with hlt
    · exact h
    · exact ih (h.markKnown (Nat.lt_of_not_le hlt))
    · exact h

theorem isBlockKnown_mono_submitBlocks {j : ℕ} (h : m.isBlockKnown j) (data : Bytes)
    (blockStart : ℕ) : (m.submitBlocks H data blockStart).1.isBlockKnown j := by
  unfold submitBlocks
  generalize List.range _ = is
  induction is generalizing m with
  | nil => exact h
  | cons i is ih =>
    rw [submitBlocksFrom]
    split_ifs
    · exact h
    · exact ih (isBlockKnown_mono_markKnown h _)
    · exact h

theorem Reachable.counted (h : Reachable H cf m ids) (hcf : cf.Checked) : m.Counted := by
  induction h with
  | new => exact counted_new cf
  | submitSourceData cores data offset hprev ih =>
    exact (submitSourceData_spec (hprev.sized hcf) (hprev.indexed hcf).1 ih cores data offset).1
  | submitBlocks data blockStart _ ih => exact counted_submitBlocks ih data blockStart

theorem Reachable.isBlockKnown_of_notMem (h : Reachable H cf m ids) (hcf : cf.Checked) {id : ℕ}
    (hid : id < m.totalBlocks) (hmem : id ∉ ids) : m.isBlockKnown id := by
  induction h with
  | new =>
    have htotal : (BlockMatcher.new cf).totalBlocks = cf.blockChecksums.length :=
      length_targets (indexed_new hcf.count_le).2
    exact absurd (List.mem_range.2 (htotal ▸ hid)) hmem
  | @submitSourceData m ids cores data offset hprev ih =>
    have hind := (hprev.indexed hcf).1
    obtain ⟨-, -, -, -, hknown⟩ :=
      submitSourceData_spec (H := H) (hprev.sized hcf) hind (hprev.counted hcf) cores data offset
    have htotal : m.totalBlocks = (m.submitSourceData H cores data offset).1.totalBlocks :=
      congrArg List.length
        (targets_congr (submitSourceData_indexed (H := H) cores data offset hind).2).symm
    rw [hknown, Bool.or_eq_true, decide_eq_true_iff]
    by_cases hin : id ∈ ids
    · simpa [List.mem_filter, hin] using Or.inr hmem
    · exact Or.inl (ih (htotal ▸ hid) hin)
  | @submitBlocks m ids data blockStart hprev ih =>
    have htotal : m.totalBlocks = (m.submitBlocks H data blockStart).1.totalBlocks :=
      congrArg List.length (targets_congr
        (submitBlocks_indexed (H := H) data blockStart (hprev.indexed hcf).1).2).symm
    exact isBlockKnown_mono_submitBlocks (ih (htotal ▸ hid) hmem) data blockStart

end BlockMatcher

end Zsync
