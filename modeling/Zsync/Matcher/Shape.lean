import Zsync.Matcher.Known

/-!
# The shape of the index

What the buckets of a matcher hold after any calls on it.

* `BlockMatcher.Submission`, `BlockMatcher.submitAll` : calls one after another, with the blocks
  that the scans among them report;
* `BlockMatcher.Reachable.submitAll` : the index then holds the blocks that no scan has reported;
* `BlockMatcher.index_shape` : every bucket is a finite list of such blocks in ascending order.
-/

namespace Zsync

namespace BlockMatcher

variable {H : Hashes} {cf : ControlFile} {m : BlockMatcher} {ids : List ℕ}

/-! ### Sequences of calls -/

/-- A call that makes blocks known. -/
inductive Submission
  /-- `submit_source_data`, on a machine with `cores` cores. -/
  | sourceData (cores : ℕ) (data : Bytes) (offset : ℕ)
  /-- `submit_blocks`. -/
  | blocks (data : Bytes) (blockStart : ℕ)

/-- The matcher after a call, and the blocks that a scan reports. -/
def submit (m : BlockMatcher) (H : Hashes) : Submission → BlockMatcher × List ℕ
  | .sourceData cores data offset =>
    let r := m.submitSourceData H cores data offset
    (r.1, r.2.map Prod.fst)
  | .blocks data blockStart => ((m.submitBlocks H data blockStart).1, [])

/-- The matcher after calls one after another, and the blocks that their scans report. -/
def submitAll (H : Hashes) : List Submission → BlockMatcher → BlockMatcher × List ℕ
  | [], m => (m, [])
  | call :: calls, m =>
    let r := submitAll H calls (m.submit H call).1
    (r.1, (m.submit H call).2 ++ r.2)

/-! ### One call -/

theorem Reachable.submit (h : Reachable H cf m ids) (call : Submission) :
    Reachable H cf (m.submit H call).1 (ids.filter (· ∉ (m.submit H call).2)) := by
  cases call with
  | sourceData cores data offset => exact h.submitSourceData cores data offset
  | blocks data blockStart =>
    have hself : ids.filter (· ∉ ([] : List ℕ)) = ids := by simp
    change Reachable H cf (m.submitBlocks H data blockStart).1 (ids.filter (· ∉ ([] : List ℕ)))
    rw [hself]
    exact h.submitBlocks data blockStart

theorem Reachable.lt_of_mem_submit (h : Reachable H cf m ids) (hcf : cf.Checked) {call : Submission}
    {id : ℕ} (hid : id ∈ (m.submit H call).2) : id < cf.blockChecksums.length := by
  obtain ⟨hind, hshape⟩ := h.indexed hcf
  cases call with
  | sourceData cores data offset =>
    obtain ⟨-, -, hsees, -⟩ :=
      submitSourceData_spec (H := H) (h.sized hcf) hind (h.counted hcf) cores data offset
    obtain ⟨p, hp, rfl⟩ := List.mem_map.1 hid
    exact length_targets hshape ▸ (hsees p hp).1.lt
  | blocks data blockStart => cases hid

/-! ### Runs -/

/-- **A run** leaves in the index the blocks that no scan has reported. -/
theorem Reachable.submitAll (h : Reachable H cf m ids) (calls : List Submission) :
    Reachable H cf (submitAll H calls m).1 (ids.filter (· ∉ (submitAll H calls m).2)) := by
  induction calls generalizing m ids with
  | nil => simpa [BlockMatcher.submitAll] using h
  | cons call calls ih =>
    have hleft : (ids.filter (· ∉ (m.submit H call).2)).filter
        (· ∉ (BlockMatcher.submitAll H calls (m.submit H call).1).2) =
        ids.filter (· ∉ (BlockMatcher.submitAll H (call :: calls) m).2) := by
      rw [List.filter_filter]
      congr 1
      funext id
      simp [BlockMatcher.submitAll, Bool.and_comm]
    exact hleft ▸ ih (h.submit call)

theorem Reachable.lt_of_mem_submitAll (h : Reachable H cf m ids) (hcf : cf.Checked)
    {calls : List Submission} {id : ℕ} (hid : id ∈ (BlockMatcher.submitAll H calls m).2) :
    id < cf.blockChecksums.length := by
  induction calls generalizing m ids with
  | nil => cases hid
  | cons call calls ih =>
    rcases List.mem_append.1 hid with hid | hid
    · exact h.lt_of_mem_submit hcf hid
    · exact ih (h.submit call) hid

/-- **The shape of the index** after any calls.  Each bucket is a finite list in ascending order:
it has the blocks of its hash that no scan has reported, each with its bit in the filter.  The
reported blocks are known, and the counter of known blocks is right. -/
theorem index_shape (hcf : cf.Checked) (calls : List Submission) :
    let r := submitAll H calls (new cf)
    r.1.hashNext.length = cf.blockChecksums.length ∧
      (∀ id, r.1.bucket (r.1.calcHash id) < r.1.hashTable.length) ∧
      (∀ k < r.1.hashTable.length, ∃ entries : List ℕ,
        Chain.IsPath hashEmpty r.1.hashNext (r.1.hashTable.getD k hashEmpty) entries ∧
          entries.Pairwise (· < ·) ∧
          (∀ id, id ∈ entries ↔ id < cf.blockChecksums.length ∧
            r.1.bucket (r.1.calcHash id) = k ∧ id ∉ r.2) ∧
          ∀ id ∈ entries, r.1.inFilter (r.1.calcHash id)) ∧
      (∀ id ∈ r.2, r.1.isBlockKnown id) ∧
      r.1.knownCount = r.1.knownBlocks.count true := by
  intro r
  have hnew : Reachable H cf (new cf) _ := Reachable.new
  have hr : Reachable H cf r.1 ((List.range cf.blockChecksums.length).filter (· ∉ r.2)) :=
    hnew.submitAll calls
  obtain ⟨hind, hshape⟩ := hr.indexed hcf
  have htotal : r.1.targets.length = cf.blockChecksums.length := length_targets hshape
  refine ⟨hind.next_length.trans htotal, fun id => hind.bucket_lt _, fun k hk => ?_,
    fun id hid => ?_, (hr.counted hcf).count⟩
  · -- the bucket has the indexed blocks with its hash
    refine ⟨_, hind.table.path k hk, hind.sorted.filter _, fun id => ?_, fun id hid => ?_⟩
    · simp only [List.mem_filter, List.mem_range, decide_eq_true_eq]
      tauto
    · exact hind.filter id (List.mem_of_mem_filter hid)
  · -- a reported block has left the index
    have hlt : id < r.1.totalBlocks := (hnew.lt_of_mem_submitAll hcf hid).trans_eq htotal.symm
    exact hr.isBlockKnown_of_notMem hcf hlt (by simp [hid])

/-- Block 0 is downloaded, and a scan then reports only block 1. -/
theorem index_shape_pair :
    let r := submitAll pairHashes [.blocks [1, 2] 0, .sourceData 1 [1, 2, 3, 4, 0, 0, 0, 0] 0]
      (new pairControl)
    r.2 = [1] ∧ r.1.isBlockKnown 1 ∧ r.1.knownCount = r.1.knownBlocks.count true := by
  intro r
  have hreported : r.2 = [1] := by decide
  obtain ⟨-, -, -, hknown, hcount⟩ := index_shape (H := pairHashes) pairControl_checked
    [.blocks [1, 2] 0, .sourceData 1 [1, 2, 3, 4, 0, 0, 0, 0] 0]
  exact ⟨hreported, hknown 1 (by decide), hcount⟩

end BlockMatcher

end Zsync
