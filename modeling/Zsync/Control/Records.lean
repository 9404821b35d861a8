import Zsync.Control.Basic

/-!
# The binary records

What is left of a block's checksums when they are written at the lengths of the `Hash-Lengths`
header and read back.

* `BlockChecksum.stored` : the checksums cut to their stored bytes;
* `ControlFile.decodeEntry_writeEntry` : a record read back is the stored part;
* `ControlFile.readBlockChecksums_eq_ok` : what reading `n` records accepts, and that record `i`
  is decoded from the `i`-th slice.
-/

namespace Zsync

/-- The hash lengths that `parse` accepts. -/
structure HashLengths.Valid (hl : HashLengths) : Prop where
  one_le_seq : 1 ≤ hl.seqMatches
  seq_le_two : hl.seqMatches ≤ 2
  one_le_rsum : 1 ≤ hl.rsumBytes
  rsum_le_four : hl.rsumBytes ≤ 4
  three_le_checksum : 3 ≤ hl.checksumBytes
  checksum_le_sixteen : hl.checksumBytes ≤ 16

theorem HashLengths.Valid.rsum_cases {hl : HashLengths} (h : hl.Valid) :
    hl.rsumBytes = 1 ∨ hl.rsumBytes = 2 ∨ hl.rsumBytes = 3 ∨ hl.rsumBytes = 4 := by
  have := h.one_le_rsum
  have := h.rsum_le_four
  omega

/-- The low-order bytes of a rolling checksum that a record stores. -/
def Rsum.stored (rsumBytes : ℕ) (r : Rsum) : Rsum :=
  match rsumBytes with
  | 1 => ⟨0, r.b &&& 0xff⟩
  | 2 => ⟨0, r.b⟩
  | 3 => ⟨r.a &&& 0xff, r.b⟩
  | 4 => r
  | _ => ⟨0, 0⟩

/-- The checksums of a block cut to their stored bytes, the rest zero. -/
def BlockChecksum.stored (hl : HashLengths) (bc : BlockChecksum) : BlockChecksum :=
  ⟨bc.rsum.stored hl.rsumBytes, ControlFile.md4OfPrefix (bc.checksum.toList.take hl.checksumBytes)⟩

namespace ControlFile

/-! ### Bytes of 16-bit numbers -/

theorem toNat_ofBeBytes (hi lo : UInt8) : (ofBeBytes hi lo).toNat = hi.toNat * 256 + lo.toNat := by
  have h1 := hi.toNat_lt
  have h2 := lo.toNat_lt
  have hs : hi.toNat <<< 8 = hi.toNat * 256 := by simp [Nat.shiftLeft_eq]
  have hor : hi.toNat <<< 8 ||| lo.toNat = hi.toNat <<< 8 + lo.toNat :=
    (Nat.shiftLeft_add_eq_or_of_lt (by omega) _).symm
  simp only [ofBeBytes, UInt16.toNat_or, UInt16.toNat_shiftLeft, UInt8.toNat_toUInt16,
    UInt16.reduceToNat, Nat.reduceMod]
  rw [Nat.mod_eq_of_lt (by omega), hor, hs]

theorem ofBeBytes_toBeBytes (x : UInt16) : ofBeBytes (x >>> 8).toUInt8 x.toUInt8 = x := by
  apply UInt16.toNat_inj.1
  have := x.toNat_lt
  simp only [toNat_ofBeBytes, UInt16.toNat_toUInt8, UInt16.toNat_shiftRight, UInt16.reduceToNat,
    Nat.reduceMod, Nat.shiftRight_eq_div_pow]
  omega

theorem toNat_and_ff (x : UInt16) : (x &&& 0xff).toNat = x.toNat % 256 :=
  (UInt16.toNat_and _ _).trans (Nat.and_two_pow_sub_one_eq_mod x.toNat 8)

theorem and_ff_eq_mod (x : UInt16) : x &&& 0xff = x % 256 := by
  apply UInt16.toNat_inj.1
  rw [toNat_and_ff, UInt16.toNat_mod]
  rfl

theorem and_255 (y : UInt8) : y &&& 255 = y := by
  apply UInt8.toNat_inj.1
  have := y.toNat_lt
  refine (UInt8.toNat_and _ _).trans ((Nat.and_two_pow_sub_one_eq_mod y.toNat 8).trans ?_)
  omega

theorem and_ff_toUInt16 (b : UInt8) : b.toUInt16 &&& 0xff = b.toUInt16 := by
  apply UInt16.toNat_inj.1
  have := b.toNat_lt
  rw [toNat_and_ff, UInt8.toNat_toUInt16]
  omega

/-! ### One record -/

theorem length_rsumToBytes (r : Rsum) (n : ℕ) : (rsumToBytes r n).length = n := by
  unfold rsumToBytes
  split <;> simp [toBeBytes]

theorem length_writeEntry {hl : HashLengths} (h : hl.Valid) (bc : BlockChecksum) :
    (writeEntry hl bc).length = hl.entrySize := by
  have := h.checksum_le_sixteen
  simp only [writeEntry, List.length_append, length_rsumToBytes, List.length_take,
    List.Vector.toList_length, HashLengths.entrySize]
  omega

theorem rsumOfBytes_rsumToBytes {n : ℕ} (hn : n = 1 ∨ n = 2 ∨ n = 3 ∨ n = 4) (r : Rsum)
    (tail : Bytes) : rsumOfBytes n (rsumToBytes r n ++ tail) = r.stored n := by
  rcases hn with rfl | rfl | rfl | rfl <;>
    simp [rsumOfBytes, rsumToBytes, Rsum.stored, toBeBytes, ofBeBytes_toBeBytes, and_ff_eq_mod]

/-- **A record read back** is the stored part of the checksums it was written from. -/
theorem decodeEntry_writeEntry {hl : HashLengths} (h : hl.Valid) (bc : BlockChecksum) :
    decodeEntry hl (writeEntry hl bc) = bc.stored hl := by
  have h16 := h.checksum_le_sixteen
  have hw : window (writeEntry hl bc) hl.rsumBytes hl.checksumBytes =
      bc.checksum.toList.take hl.checksumBytes := by
    rw [window, writeEntry, List.drop_left' (length_rsumToBytes _ _), List.take_take, Nat.min_self]
  simp only [decodeEntry, BlockChecksum.stored, hw]
  rw [writeEntry, rsumOfBytes_rsumToBytes h.rsum_cases]

theorem rsumToBytes_stored {n : ℕ} (hn : n = 1 ∨ n = 2 ∨ n = 3 ∨ n = 4) (r : Rsum) :
    rsumToBytes (r.stored n) n = rsumToBytes r n := by
  rcases hn with rfl | rfl | rfl | rfl <;>
    simp [rsumToBytes, Rsum.stored, and_255]

theorem take_md4OfPrefix {bs : Bytes} {n : ℕ} (hb : bs.length = n) (hn : n ≤ 16) :
    (md4OfPrefix bs).toList.take n = bs := by
  change (padTo 16 bs).take n = bs
  rw [padTo, List.take_of_length_le (i := 16) (by omega), List.take_left' hb]

theorem writeEntry_stored {hl : HashLengths} (h : hl.Valid) (bc : BlockChecksum) :
    writeEntry hl (bc.stored hl) = writeEntry hl bc := by
  have h16 := h.checksum_le_sixteen
  simp only [writeEntry, BlockChecksum.stored, rsumToBytes_stored h.rsum_cases]
  rw [take_md4OfPrefix _ h16]
  simp only [List.length_take, List.Vector.toList_length]
  omega

theorem stored_rsumOfBytes {n : ℕ} (hn : n = 1 ∨ n = 2 ∨ n = 3 ∨ n = 4) (buf : Bytes) :
    (rsumOfBytes n buf).stored n = rsumOfBytes n buf := by
  rcases hn with rfl | rfl | rfl | rfl <;> simp [rsumOfBytes, Rsum.stored, and_ff_toUInt16]

/-- What a record decodes to is its own stored part. -/
theorem stored_decodeEntry {hl : HashLengths} (h : hl.Valid) {buf : Bytes}
    (hb : buf.length = hl.entrySize) : (decodeEntry hl buf).stored hl = decodeEntry hl buf := by
  have hw : (window buf hl.rsumBytes hl.checksumBytes).length = hl.checksumBytes :=
    length_window (by rw [hb, HashLengths.entrySize])
  simp only [decodeEntry, BlockChecksum.stored, stored_rsumOfBytes h.rsum_cases,
    take_md4OfPrefix hw h.checksum_le_sixteen]

/-! ### All records -/

/-- **Reading records**: `n` records are read exactly when their bytes are there, and record `i`
is decoded from the `i`-th slice. -/
theorem readBlockChecksums_eq_ok {hl : HashLengths} {n : ℕ} {rest : Bytes}
    {bcs : List BlockChecksum} :
    readBlockChecksums hl n rest = .ok bcs ↔ n * hl.entrySize ≤ rest.length ∧
      bcs = (List.range n).map fun i =>
        decodeEntry hl (window rest (i * hl.entrySize) hl.entrySize) := by
  induction n generalizing rest bcs with
  | zero => simp [readBlockChecksums, eq_comm]
  | succ n ih =>
    rw [readBlockChecksums]
    split_ifs with hlt
    · refine iff_of_false (by simp) fun h => ?_
      have := h.1
      rw [Nat.succ_mul] at this
      omega
    · have htail : (fun i => decodeEntry hl (window rest ((i + 1) * hl.entrySize) hl.entrySize)) =
          fun i =>
            decodeEntry hl (window (rest.drop hl.entrySize) (i * hl.entrySize) hl.entrySize) := by
        funext i
        rw [window, window, List.drop_drop, Nat.succ_mul, Nat.add_comm]
      have hlen : (n + 1) * hl.entrySize ≤ rest.length ↔
          n * hl.entrySize ≤ (rest.drop hl.entrySize).length := by
        rw [List.length_drop, Nat.succ_mul]
        omega
      rw [List.range_succ_eq_map, List.map_cons, List.map_map, hlen]
      simp only [Function.comp_def, Nat.succ_eq_add_one, htail, Nat.zero_mul]
      cases hr : readBlockChecksums hl n (rest.drop hl.entrySize) with
      | error e =>
        refine iff_of_false (by simp) fun h => ?_
        rw [ih.2 ⟨h.1, rfl⟩] at hr
        cases hr
      | ok tl =>
        obtain ⟨h1, h2⟩ := ih.1 hr
        simp only [Except.ok.injEq, h1, true_and, ← h2]
        exact eq_comm

theorem readBlockChecksums_writeEntry {hl : HashLengths} (h : hl.Valid) (bcs : List BlockChecksum)
    (tail : Bytes) :
    readBlockChecksums hl bcs.length (bcs.flatMap (writeEntry hl) ++ tail) =
      .ok (bcs.map (·.stored hl)) := by
  induction bcs with
  | nil => rfl
  | cons bc bcs ih =>
    have hlen := length_writeEntry h bc
    rw [List.flatMap_cons, List.append_assoc, List.length_cons, readBlockChecksums,
      if_neg (by rw [List.length_append]; omega), List.drop_left' hlen, ih, List.take_left' hlen,
      decodeEntry_writeEntry h, List.map_cons]

end ControlFile

end Zsync
