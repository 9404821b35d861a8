import Zsync.Matcher.Known

/-!
# Confirmed sightings

Every block that a scan reports is there, and where pairs are matched it is confirmed by a
neighbour.

* `BlockMatcher.Confirmed` : the next block follows the block in the data, or the previous one
  precedes it, unless it is the last one of the target;
* `BlockMatcher.HintOk` : a block is only expected where the one before it was seen;
* `BlockMatcher.submitSourceData_confirmed` : over every data, cut for any number of threads.
-/

namespace Zsync

namespace BlockMatcher

variable {H : Hashes} {cf : ControlFile} {m : BlockMatcher} {ids : List ℕ} {data : Bytes}
  {base : ℕ}

/-! ### One test -/

/-- Where pairs are matched, a block that is not the target's last one is seen with the block after
it or with the block before it. -/
def Confirmed (m : BlockMatcher) (H : Hashes) (data : Bytes) (base id offset : ℕ) : Prop :=
  1 < m.hashLengths.seqMatches → id + 1 ≠ m.targets.length →
    m.Sees H data base (id + 1) (offset + m.blocksize) ∨
      ∃ j, id = j + 1 ∧ base + m.blocksize ≤ offset ∧ m.Sees H data base j (offset - m.blocksize)

/-- The block before the expected one was seen one block before the cursor. -/
def HintOk (m : BlockMatcher) (H : Hashes) (data : Bytes) (v : ℕ × Option ℕ) : Prop :=
  ∀ id ∈ v.2, ∃ j, id = j + 1 ∧ m.blocksize ≤ v.1 ∧ m.Sees H data 0 j (v.1 - m.blocksize)

/-- **What is expected next** follows a block that was seen. -/
theorem HintOk.step (hs : m.Sized) (hm : m.Indexed ids) {v : ℕ × Option ℕ}
    (hv : v.1 + m.context ≤ data.length) :
    m.HintOk H data ((m.plainScanner hs H ids data base).step v) := by
  intro id hid
  simp only [Scanner.step, Scanner.span, plainScanner, plainTest, Option.mem_def] at hid ⊢
  cases hhint : m.plainHint H data v.1 v.2 with
  | some j =>
    -- the expected block was there
    simp only [hhint, Option.bind_some, Option.map_some, Option.getD_some] at hid ⊢
    split_ifs at hid
    obtain rfl := Option.some.inj hid
    refine ⟨j, rfl, Nat.le_add_left _ _, ?_⟩
    rw [Nat.add_sub_cancel]
    exact (sees_of_plainHint hs hv hhint).2
  | none =>
    cases hhits : m.plainHits H ids data v.1 none with
    | nil => simp [hhint, hhits] at hid
    | cons j rest =>
      simp only [hhint, hhits, Option.bind_some, Option.map_some, Option.getD_some] at hid ⊢
      obtain ⟨-, hnext⟩ := sees_of_mem_plainHits hs hm.lt hv (hhits ▸ List.mem_cons_self)
      unfold coverOf at hid ⊢
      by_cases hpair : m.inPair j
      · have hinPair := hpair
        simp only [inPair, decide_eq_true_eq] at hinPair
        have hseq := hs.context_eq hinPair.1
        rw [context] at hseq
        simp only [hpair, if_true] at hid ⊢
        split_ifs at hid
        obtain rfl := Option.some.inj hid
        refine ⟨j + 1, rfl, by omega, ?_⟩
        rw [hseq, ← Nat.add_assoc, Nat.add_sub_cancel]
        exact hnext hpair
      · simp [hpair] at hid

theorem confirmed_of_mem_found (hs : m.Sized) (hm : m.Indexed ids) {u : ℕ × Option ℕ}
    (hu : u.1 + m.context ≤ data.length) (hhint : m.HintOk H data u) {p : ℕ × ℕ}
    (hp : p ∈ (m.plainScanner hs H ids data base).found u) : m.Confirmed H data base p.1 p.2 := by
  intro hseq hlast
  rw [plainScanner_found, List.mem_append, List.mem_map, List.mem_flatMap] at hp
  rcases hp with ⟨id, hid, rfl⟩ | ⟨id, hid, hrep⟩
  · obtain ⟨hexpected, -⟩ := sees_of_plainHint hs hu (Option.mem_toList.1 hid)
    obtain ⟨j, rfl, hle, hsees⟩ := hhint id hexpected
    refine Or.inr ⟨j, rfl, by dsimp only; omega, ?_⟩
    dsimp only
    rw [Nat.add_sub_assoc hle]
    exact hsees.shift base
  · obtain ⟨hsees, hnext⟩ := sees_of_mem_plainHits hs hm.lt hu hid
    unfold reportOf at hrep
    by_cases hpair : m.inPair id
    · rw [if_pos hpair] at hrep
      rcases List.mem_cons.1 hrep with rfl | hrep
      · left
        dsimp only
        rw [Nat.add_assoc]
        exact (hnext hpair).shift base
      · obtain rfl := List.mem_singleton.1 hrep
        refine Or.inr ⟨id, rfl, by dsimp only; omega, ?_⟩
        dsimp only
        rw [Nat.add_sub_cancel]
        exact hsees.shift base
    · rw [if_neg hpair] at hrep
      obtain rfl := List.mem_singleton.1 hrep
      have := hsees.lt
      simp only [inPair, hseq, true_and, decide_eq_true_eq] at hpair
      dsimp only at hlast
      omega

/-! ### Scans -/

theorem scanChunk_confirmed (hs : m.Sized) (hm : m.Indexed ids) {p : ℕ × ℕ}
    (hp : p ∈ m.scanChunk H data base) : m.Confirmed H data base p.1 p.2 := by
  rw [scanChunk_eq hs hm, Scanner.reports, List.mem_flatMap] at hp
  obtain ⟨u, hu, hfound⟩ := hp
  have hlt := (Scanner.le_of_mem_visits _ hu).2
  refine confirmed_of_mem_found hs hm (by omega) ?_ hfound
  exact Scanner.of_mem_visits _ (fun v hv _ => HintOk.step hs hm (by omega))
    (fun _ hid => by cases hid) hu

theorem Confirmed.of_window {id offset start n : ℕ} (hpos : 0 < m.blocksize)
    (h : m.Confirmed H (window data start n) (base + start) id offset) :
    m.Confirmed H data base id offset := by
  intro hseq hlast
  rcases h hseq hlast with hnext | ⟨j, hj, hle, hprev⟩
  · exact Or.inl (hnext.of_window hpos)
  · exact Or.inr ⟨j, hj, by omega, hprev.of_window hpos⟩

theorem candidates_confirmed (hs : m.Sized) (hm : m.Indexed ids) {cores : ℕ} {p : ℕ × ℕ}
    (hp : p ∈ m.candidates H cores data base) : m.Confirmed H data base p.1 p.2 := by
  simp only [candidates] at hp
  split_ifs at hp
  · obtain ⟨i, -, hi⟩ := List.mem_flatMap.1 hp
    exact (scanChunk_confirmed hs hm hi).of_window hs.blocksize_pos
  · exact scanChunk_confirmed hs hm hp

/-- **Every reported match is real and fresh.**  On every reachable matcher, for every data and
every number of threads: each block is reported once, unknown before and known after, and no other
block changes; as many blocks fewer remain; and each one is seen where it is reported, and
confirmed. -/
theorem submitSourceData_confirmed (hcf : cf.Checked) (hm : Reachable H cf m ids) (cores : ℕ)
    (data : Bytes) (offset : ℕ) :
    let r := m.submitSourceData H cores data offset
    (r.2.map Prod.fst).Nodup ∧
      (∀ p ∈ r.2, m.isBlockKnown p.1 = false ∧ r.1.isBlockKnown p.1) ∧
      (∀ id ∉ r.2.map Prod.fst, r.1.isBlockKnown id = m.isBlockKnown id) ∧
      r.1.blocksTodo + r.2.length = m.blocksTodo ∧
      ∀ p ∈ r.2, m.Sees H data offset p.1 p.2 ∧ m.Confirmed H data offset p.1 p.2 := by
  have hs := hm.sized hcf
  have hind := (hm.indexed hcf).1
  have hc := hm.counted hcf
  obtain ⟨hcounted, hcount, hsees, hnodup, hknown⟩ :=
    submitSourceData_spec (H := H) hs hind hc cores data offset
  have hsub :
      ∀ p ∈ (m.submitSourceData H cores data offset).2, p ∈ m.candidates H cores data offset := by
    unfold submitSourceData
    split_ifs
    · simp
    · exact fun p hp => (claimBlocks_spec (m := m) _ fun q hq =>
        hc.length ▸ (candidates_sees hs hind hq).lt).1.subset hp
  have hshape := (submitSourceData_indexed (H := H) cores data offset hind).2
  intro r
  refine ⟨hnodup, fun p hp => ⟨(hsees p hp).2, ?_⟩, fun id hid => ?_, ?_, fun p hp =>
    ⟨(hsees p hp).1, candidates_confirmed hs hind (hsub p hp)⟩⟩
  · rw [hknown]
    simpa using Or.inr ⟨p.2, hp⟩
  · rw [hknown, decide_eq_false hid, Bool.or_false]
  · have hlen : r.1.knownBlocks.length = m.knownBlocks.length := by
      rw [hcounted.length, hc.length, targets_congr hshape]
    have hle : r.1.knownCount ≤ r.1.knownBlocks.length := hcounted.count ▸ List.count_le_length
    have hcount' : r.1.knownCount = m.knownCount + r.2.length := hcount
    unfold blocksTodo
    omega

/-- A seed with a byte before the target, of two blocks that are matched as a pair. -/
theorem submitSourceData_confirmed_pair :
    ((new pairControl).submitSourceData pairHashes 1 [9, 1, 2, 3, 4, 0, 0, 0, 0] 10).2 =
        [(0, 11), (1, 13)] ∧
      (new pairControl).Confirmed pairHashes [9, 1, 2, 3, 4, 0, 0, 0, 0] 10 0 11 := by
  have hrun : ((new pairControl).submitSourceData pairHashes 1 [9, 1, 2, 3, 4, 0, 0, 0, 0] 10).2 =
      [(0, 11), (1, 13)] := by decide
  obtain ⟨-, -, -, -, hall⟩ := submitSourceData_confirmed (H := pairHashes) pairControl_checked
    Reachable.new 1
    [9, 1, 2, 3, 4, 0, 0, 0, 0] 10
  exact ⟨hrun, (hall (0, 11) (by rw [hrun]; exact List.mem_cons_self)).2⟩

end BlockMatcher

end Zsync
