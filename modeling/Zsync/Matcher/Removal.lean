import Zsync.Matcher.Copies

/-!
# Scans of a smaller index

What a scan still finds when earlier scans have taken blocks out of the index, compared with the
scan of the same data by a new matcher.

* `BlockMatcher.plainHits_sublist` : a lookup finds what is left of it;
* `BlockMatcher.step_removed` : a step goes on as before when the block that decides it is left;
* `BlockMatcher.isBlockKnown_scan_removed` : which blocks are known as after the scan by a new
  matcher.
-/

namespace Zsync

namespace BlockMatcher

variable {H : Hashes} {cf : ControlFile} {m m' : BlockMatcher} {ids all : List ℕ} {data : Bytes}

/-! ### What lookups read -/

/-- The fields that no operation changes after the index is built. -/
def unlinked (m : BlockMatcher) : BlockMatcher :=
  { m with knownBlocks := [], knownCount := 0, hashTable := [], hashNext := [] }

@[simp] theorem unlinked_markKnown (m : BlockMatcher) (id : ℕ) :
    (m.markKnown id).unlinked = m.unlinked := by
  unfold markKnown
  split_ifs <;> rfl

@[simp] theorem unlinked_removeBlockFromHash (m : BlockMatcher) (id : ℕ) :
    (m.removeBlockFromHash id).unlinked = m.unlinked := rfl

theorem unlinked_claimBlocks (found : List (ℕ × ℕ)) (m : BlockMatcher) :
    (claimBlocks found m).1.unlinked = m.unlinked := by
  induction found generalizing m with
  | nil => rfl
  | cons c found ih =>
    rw [claimBlocks]
    split_ifs
    · exact ih m
    · simp [ih]

theorem unlinked_submitBlocks (data : Bytes) (blockStart : ℕ) (m : BlockMatcher) :
    (m.submitBlocks H data blockStart).1.unlinked = m.unlinked := by
  unfold submitBlocks
  generalize List.range _ = is
  induction is generalizing m with
  | nil => rfl
  | cons i is ih =>
    rw [submitBlocksFrom]
    split_ifs
    · rfl
    · simp [ih]
    · rfl

theorem Reachable.unlinked_eq (h : Reachable H cf m ids) :
    m.unlinked = (BlockMatcher.new cf).unlinked := by
  induction h with
  | new => rfl
  | submitSourceData cores data offset _ ih =>
    rw [← ih, BlockMatcher.submitSourceData]
    split_ifs
    · rfl
    · exact unlinked_claimBlocks _ _
  | submitBlocks data blockStart _ ih => rw [← ih, unlinked_submitBlocks]

theorem Reachable.sublist (h : Reachable H cf m ids) :
    ids.Sublist (List.range cf.blockChecksums.length) := by
  induction h with
  | new => exact List.Sublist.refl _
  | submitSourceData _ _ _ _ ih => exact List.filter_sublist.trans ih
  | submitBlocks _ _ _ ih => exact ih

theorem plainTest_congr (h : m.unlinked = m'.unlinked) : m.plainTest H = m'.plainTest H := by
  change m.unlinked.plainTest H = m'.unlinked.plainTest H
  rw [h]

/-- A reachable matcher scans as a new one, for the blocks that it still has in its index. -/
theorem Reachable.reports_eq (hm : Reachable H cf m ids) (hcf : cf.Checked) (data : Bytes)
    (base stop : ℕ) (v : ℕ × Option ℕ) :
    (m.plainScanner (hm.sized hcf) H ids data base).reports stop v =
      ((BlockMatcher.new cf).plainScanner (sized_new hcf) H ids data base).reports stop v :=
  Scanner.reports_congr _ fun x h _ _ => by
    simp only [plainScanner, plainTest_congr hm.unlinked_eq]

/-! ### One step -/

theorem plainHits_sublist (h : ids.Sublist all) (x : ℕ) (matched : Option ℕ) :
    (m.plainHits H ids data x matched).Sublist (m.plainHits H all data x matched) :=
  h.filter _

theorem mem_plainHits_of_mem {x id : ℕ} {matched : Option ℕ} (hid : id ∈ ids)
    (h : id ∈ m.plainHits H all data x matched) : id ∈ m.plainHits H ids data x matched :=
  mem_plainHits_iff.2 ⟨hid, (mem_plainHits_iff.1 h).2⟩

theorem head?_of_sublist {l l' : List ℕ} {k : ℕ} (h : l.Sublist (k :: l'))
    (hnodup : (k :: l').Nodup) (hk : k ∈ l) : l.head? = some k := by
  cases h with
  | cons _ h => exact absurd (h.subset hk) (List.nodup_cons.1 hnodup).1
  | cons_cons _ h => rfl

/-- **A step** goes on as with the larger index when nothing was found there, or the expected block,
or when the first block that the lookup has found is left. -/
theorem step_removed (hs : m.Sized) (hsub : ids.Sublist all) (hall : all.Nodup) {base : ℕ}
    {u : ℕ × Option ℕ}
    (hfirst : m.plainHint H data u.1 u.2 = none →
      ∀ k ∈ (m.plainHits H all data u.1 none).head?, k ∈ ids) :
    (m.plainScanner hs H ids data base).step u = (m.plainScanner hs H all data base).step u := by
  simp only [Scanner.step, Scanner.span, plainScanner, plainTest]
  cases hhint : m.plainHint H data u.1 u.2 with
  | some id => rfl
  | none =>
    have hsubhits : (m.plainHits H ids data u.1 none).Sublist (m.plainHits H all data u.1 none) :=
      plainHits_sublist hsub u.1 none
    cases hhits : m.plainHits H all data u.1 none with
    | nil =>
      rw [hhits, List.sublist_nil] at hsubhits
      rw [hsubhits]
    | cons k rest =>
      have hk : k ∈ ids := hfirst hhint k (by rw [hhits]; rfl)
      have hmem := mem_plainHits_of_mem hk (hhits ▸ List.mem_cons_self)
      have hnodup : (m.plainHits H all data u.1 none).Nodup := hall.filter _
      have hhead := head?_of_sublist (hhits ▸ hsubhits) (hhits ▸ hnodup) hmem
      cases hrest : m.plainHits H ids data u.1 none with
      | nil => simp [hrest] at hhead
      | cons k' rest' =>
        rw [hrest, List.head?_cons] at hhead
        obtain rfl := Option.some.inj hhead
        rfl

/-! ### Whole scans -/

/-- **Scanning with blocks removed.**  Take a test that a new matcher makes in an unsplit scan of
some data, such that at each offset tested before it, where the lookup decided how the scan goes on,
the first block of the lookup has not left the index of a reachable matcher.  Each block that the
new matcher finds in this test is known after the reachable matcher has scanned the data, unless it
is found behind the tested offset, as the second block of a pair whose first block has left the
index, and not at the tested offset as well. -/
theorem isBlockKnown_scan_removed (hcf : cf.Checked) (hm : Reachable H cf m ids) (data : Bytes)
    (offset : ℕ) :
    let f := new cf
    let all := List.range cf.blockChecksums.length
    let S := f.plainScanner (sized_new hcf) H all data offset
    let tests := S.visits (data.length - f.context) (0, none)
    f.scanChunk H data offset = tests.flatMap S.found ∧
      ∀ u ∈ tests,
        (∀ u' ∈ tests, u'.1 < u.1 → f.plainHint H data u'.1 u'.2 = none →
          ∀ k ∈ (f.plainHits H all data u'.1 none).head?, k ∈ ids) →
        ∀ p ∈ S.found u, (m.submitSourceData H 1 data offset).1.isBlockKnown p.1 ∨
          (p.1, offset + u.1) ∉ S.found u ∧
            ∃ k ∈ f.plainHits H all data u.1 (f.plainHint H data u.1 u.2),
              k ∉ ids ∧ p = (k + 1, offset + u.1 + f.blocksize) := by
  intro f all S tests
  have hs := hm.sized hcf
  obtain ⟨hind, hshape⟩ := hm.indexed hcf
  have hc := hm.counted hcf
  obtain ⟨hindf, hshapef⟩ := indexed_new hcf.count_le
  refine ⟨scanChunk_eq (sized_new hcf) hindf data offset, fun u hu hearlier p hp => ?_⟩
  -- the reachable matcher makes the tests of the new one with a smaller index
  let S' := f.plainScanner (sized_new hcf) H ids data offset
  have hcontext : m.context = f.context :=
    (context_of_shape hshape).trans (context_of_shape hshapef).symm
  have hscan : m.scanChunk H data offset = S'.reports (data.length - f.context) (0, none) := by
    rw [scanChunk_eq hs hind, hcontext]
    exact hm.reports_eq hcf data offset _ _
  have hu' : u ∈ S'.visits (data.length - f.context) (0, none) :=
    S.mem_visits_of_step_eq hu fun u' hmem hlt =>
      step_removed _ hm.sublist List.nodup_range (hearlier u' hmem hlt)
  have hlimit := (Scanner.le_of_mem_visits _ hu).2
  have hknown : ∀ {q : ℕ × ℕ}, q ∈ S'.found u →
      (m.submitSourceData H 1 data offset).1.isBlockKnown q.1 := fun hq =>
    hc.isBlockKnown_of_mem_scanChunk hs hind (by rw [hcontext]; omega)
      (hscan ▸ List.mem_flatMap.2 ⟨u, hu', hq⟩)
  have hfound : ∀ q ∈ S.found u, (m.submitSourceData H 1 data offset).1.isBlockKnown q.1 ∨
      ∃ k ∈ f.plainHits H all data u.1 (f.plainHint H data u.1 u.2),
        k ∉ ids ∧ q = (k + 1, offset + u.1 + f.blocksize) := by
    intro q hq
    rw [plainScanner_found, List.mem_append, List.mem_map, List.mem_flatMap] at hq
    rcases hq with ⟨id, hid, rfl⟩ | ⟨k, hk, hrep⟩
    · exact Or.inl (hknown (mem_found_of_hint _ (Option.mem_toList.1 hid)))
    by_cases hkids : k ∈ ids
    · -- all that a block still indexed reports
      left
      refine hknown ?_
      rw [plainScanner_found]
      exact List.mem_append_right _ (List.mem_flatMap.2 ⟨k, mem_plainHits_of_mem hkids hk, hrep⟩)
    · have hlt : k < m.totalBlocks := by
        rw [totalBlocks, targets_congr (hshape.trans hshapef.symm)]
        exact hindf.lt k (mem_plainHits_iff.1 hk).1
      have hkept : (m.submitSourceData H 1 data offset).1.isBlockKnown k := by
        rw [(submitSourceData_spec (H := H) hs hind hc 1 data offset).2.2.2.2,
          hm.isBlockKnown_of_notMem hcf hlt hkids, Bool.true_or]
      rcases eq_or_eq_of_mem_reportOf hrep with rfl | rfl
      · exact Or.inl hkept
      · exact Or.inr ⟨k, hk, hkids, rfl⟩
  rcases hfound p hp with hp' | hsecond
  · exact Or.inl hp'
  by_cases hat : (p.1, offset + u.1) ∈ S.found u
  · -- what is found at the tested offset is not found behind it
    rcases hfound _ hat with hp' | ⟨k, -, -, heq⟩
    · exact Or.inl hp'
    · have hpos : 0 < f.blocksize := (sized_new hcf).blocksize_pos
      have hoffset := congrArg Prod.snd heq
      dsimp only at hoffset
      omega
  · exact Or.inr ⟨hat, hsecond⟩

/-- A scan has found blocks 0 and 1, and the pair of blocks 2 and 3 is still found after it. -/
theorem isBlockKnown_scan_removed_bytes :
    let m := ((new (byteBlocks [1, 2, 3, 4, 5])).submitSourceData byteHashes 1 [1, 2, 9, 9] 0).1
    (m.submitSourceData byteHashes 1 [3, 4, 9, 9] 0).1.isBlockKnown 3 := by
  have hnew : Reachable byteHashes (byteBlocks [1, 2, 3, 4, 5]) _ _ := Reachable.new
  obtain ⟨-, htests⟩ := isBlockKnown_scan_removed (byteBlocks_checked (by decide))
    (hnew.submitSourceData 1 [1, 2, 9, 9] 0) [3, 4, 9, 9] 0
  rcases htests (0, none) (Scanner.mem_visits_self _ (by decide))
    (fun _ _ hlt => absurd hlt (Nat.not_lt_zero _)) (3, 1)
    (by decide) with hknown | ⟨-, k, -, hk, heq⟩
  · exact hknown
  · obtain rfl : k = 2 := (Nat.succ.inj (congrArg Prod.fst heq)).symm
    exact absurd (by decide) hk

/-- Once a scan has found the pair of blocks 1 and 2, data that a new matcher finds the pair of
blocks 2 and 3 in no longer makes block 3 known. -/
theorem block_lost_after_removal :
    let cf := byteBlocks [1, 2, 3, 4, 5]
    let m := ((new cf).submitSourceData byteHashes 1 [2, 3, 9, 9] 0).1
    ControlFile.parse (ControlFile.write cf) = .ok cf ∧
      cf.DescribesTarget byteHashes [1, 2, 3, 4, 5] ∧
      ((new cf).submitSourceData byteHashes 1 [3, 4, 9, 9] 0).1.isBlockKnown 3 ∧
      (m.submitSourceData byteHashes 1 [3, 4, 9, 9] 0).1.isBlockKnown 3 = false := by
  exact ⟨by decide +kernel, ⟨rfl, rfl⟩, by decide +kernel, by decide +kernel⟩

end BlockMatcher

end Zsync
