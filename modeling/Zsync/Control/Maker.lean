import Zsync.Control.RoundTrip

/-!
# Generated control files

What `generate` promises about the control file it makes, and when the client takes it.

* `ControlFile.generate_eq_ok` : when `generate` succeeds, and with what;
* `ControlFile.wellFormed_of_generate` : a generated control file is well formed;
* `ControlFile.describesTarget_of_generate` : it describes the input;
* `ControlFile.parse_write_generate` : the client parses it exactly when the block size leaves no
  more blocks than `parse` takes, a limit that `generate` does not check.
-/

namespace Zsync

open Text

namespace ControlFile

/-! ### What is generated -/

/-- The block size `generate` uses for an input of `fileLength` bytes. -/
def chosenBlocksize (blocksize : Option ℕ) (fileLength : ℕ) : ℕ :=
  blocksize.getD (autoBlocksize fileLength)

variable {H : Hashes} {F : FloatFormulas} {input : Bytes} {filename url : String}
  {blocksize : Option ℕ} {cf : ControlFile}

/-- The blocks that `generate` hashes are the zero-padded blocks of the input. -/
theorem generate_eq_ok :
    generate H F input filename url blocksize = .ok cf ↔ input ≠ [] ∧
      (chosenBlocksize blocksize input.length).isPowerOfTwo ∧
      chosenBlocksize blocksize input.length ≤ maxBlocksize ∧
      cf = ⟨"0.6.2", some filename, none, chosenBlocksize blocksize input.length, input.length,
        calculateHashLengths F input.length (chosenBlocksize blocksize input.length), [url],
        some (hexEncode (H.sha1 input).toList),
        (List.range (numBlocks input.length (chosenBlocksize blocksize input.length))).map fun i =>
          ⟨calcRsumBlock (targetBlock input (chosenBlocksize blocksize input.length) i),
            H.md4 (targetBlock input (chosenBlocksize blocksize input.length) i)⟩⟩ := by
  simp only [generate, chosenBlocksize, List.length_eq_zero_iff]
  generalize blocksize.getD (autoBlocksize input.length) = bs
  by_cases hne : input = []
  · simp [hne]
  by_cases hbs : bs.isPowerOfTwo ∧ bs ≤ maxBlocksize
  · have hpos : 0 < bs := Nat.pos_of_isPowerOfTwo hbs.1
    have hblocks : ∀ i ∈ List.range (numBlocks input.length bs),
        padTo bs (window input (i * bs) (blockLen input.length bs (numBlocks input.length bs) i)) =
          targetBlock input bs i := fun i hi => by
      rw [targetBlock, window_blockLen hpos (List.mem_range.1 hi)]
    rw [if_neg hne, if_neg (not_not.2 hbs), Except.ok.injEq, eq_comm,
      List.map_congr_left fun i hi => by rw [hblocks i hi]]
    simp only [hne, hbs, ne_eq, not_false_eq_true, true_and]
  · rw [if_neg hne, if_pos hbs]
    simp only [reduceCtorEq, false_iff]
    exact fun h => hbs ⟨h.2.1, h.2.2.1⟩

theorem calculateHashLengths_valid (F : FloatFormulas) (fileLength blocksize : ℕ) :
    (calculateHashLengths F fileLength blocksize).Valid := by
  unfold calculateHashLengths clamp
  constructor <;> dsimp only <;> first | omega | split_ifs <;> omega

/-- The characters of a hex digest. -/
def hexDigits : List Char := "0123456789abcdef".toList

theorem digitChar_mem_hexDigits {n : ℕ} (h : n < 16) : Nat.digitChar n ∈ hexDigits := by
  have hall : ∀ m : Fin 16, Nat.digitChar m ∈ hexDigits := by decide
  exact hall ⟨n, h⟩

theorem mem_hexEncode {bs : Bytes} {c : Char} (h : c ∈ (hexEncode bs).toList) : c ∈ hexDigits := by
  rw [hexEncode, String.toList_ofList, List.mem_flatMap] at h
  obtain ⟨b, -, hc⟩ := h
  have := b.toNat_lt
  simp only [hexByte, List.mem_cons, List.not_mem_nil, or_false] at hc
  rcases hc with rfl | rfl <;> exact digitChar_mem_hexDigits (by omega)

theorem plain_hexEncode (bs : Bytes) : Plain (hexEncode bs).toList := by
  have hall : hexDigits.all fun c => c != '\n' && c != ' ' && c != '\r' := by decide
  have hno : ∀ c ∈ (hexEncode bs).toList, c ≠ '\n' ∧ c ≠ ' ' ∧ c ≠ '\r' := fun c hc => by
    simpa [and_assoc] using List.all_eq_true.1 hall c (mem_hexEncode hc)
  exact ⟨fun h => (hno _ h).1 rfl, fun h => (hno _ (List.mem_of_head? h)).2.1 rfl,
    fun c h => (hno c (List.mem_of_getLast? h)).2⟩

theorem length_encode_hexEncode (bs : Bytes) :
    (encode (hexEncode bs).toList).length = 2 * bs.length := by
  have hall : hexDigits.all fun c => c.toNat < 128 := by decide
  have hascii : ∀ c ∈ hexDigits, c.toNat < 128 := fun c hc => by
    simpa using List.all_eq_true.1 hall c hc
  rw [length_encode_ascii fun c h => hascii c (mem_hexEncode h), hexEncode, String.toList_ofList]
  induction bs with
  | nil => rfl
  | cons b bs ih =>
    simp only [List.flatMap_cons, List.length_append, ih, hexByte, List.length_cons,
      List.length_nil]
    omega

theorem wellFormed_of_generate (hg : generate H F input filename url blocksize = .ok cf)
    (hfilename : Plain filename.toList) (hurl : Plain url.toList) (hlen : input.length ≤ maxU64) :
    cf.WellFormed := by
  obtain ⟨-, hpow, hle, rfl⟩ := generate_eq_ok.1 hg
  refine ⟨hpow, hle, hlen, calculateHashLengths_valid _ _ _, by simp, ?_, ?_, by simp, ?_, ?_⟩
  · change Plain "0.6.2".toList
    decide
  · simpa using hfilename
  · simpa using hurl
  · intro v hv
    obtain rfl := Option.some.inj hv
    exact ⟨plain_hexEncode _, by rw [length_encode_hexEncode, List.Vector.toList_length]⟩

theorem describesTarget_of_generate (hg : generate H F input filename url blocksize = .ok cf) :
    DescribesTarget H cf.stored input := by
  obtain ⟨-, -, -, rfl⟩ := generate_eq_ok.1 hg
  exact ⟨rfl, by simp [stored]⟩

/-! ### When the client takes it -/

/-- **The maker and the client** agree exactly up to the number of blocks that `parse` takes:
`generate` makes control files of any number of blocks. -/
theorem parse_write_generate (hg : generate H F input filename url blocksize = .ok cf)
    (hfilename : Plain filename.toList) (hurl : Plain url.toList) (hlen : input.length ≤ maxU64)
    (hcap : (writeHeader cf).length ≤ maxHeaderBytes) :
    (∃ cf', parse (write cf) = .ok cf') ↔
      numBlocks input.length (chosenBlocksize blocksize input.length) ≤ maxBlocks := by
  have hcount : cf.blockChecksums.length =
      numBlocks input.length (chosenBlocksize blocksize input.length) := by
    obtain ⟨-, -, -, rfl⟩ := generate_eq_ok.1 hg
    simp
  simp only [parse_write_iff (wellFormed_of_generate hg hfilename hurl hlen) hcap, hcount,
    exists_and_left, exists_eq, and_true]

theorem length_le_maxU64 (hg : generate H F input filename url blocksize = .ok cf)
    (hblocks : numBlocks input.length (chosenBlocksize blocksize input.length) ≤ maxBlocks) :
    input.length ≤ maxU64 := by
  obtain ⟨-, hpow, hle, -⟩ := generate_eq_ok.1 hg
  calc input.length
      ≤ numBlocks input.length (chosenBlocksize blocksize input.length) *
          chosenBlocksize blocksize input.length :=
        numBlocks_le_mul (Nat.pos_of_isPowerOfTwo hpow) _
    _ ≤ maxBlocks * maxBlocksize := Nat.mul_le_mul hblocks hle
    _ ≤ maxU64 := by decide

theorem parse_write_of_generate (hg : generate H F input filename url blocksize = .ok cf)
    (hfilename : Plain filename.toList) (hurl : Plain url.toList)
    (hblocks : numBlocks input.length (chosenBlocksize blocksize input.length) ≤ maxBlocks)
    (hcap : (writeHeader cf).length ≤ maxHeaderBytes) : parse (write cf) = .ok cf.stored := by
  have hlen := length_le_maxU64 hg hblocks
  obtain ⟨-, -, -, rfl⟩ := generate_eq_ok.1 hg
  exact (parse_write_iff (wellFormed_of_generate hg hfilename hurl hlen) hcap).2
    ⟨by simpa using hblocks, rfl⟩

/-- The SHA-1 digest of one zero byte, and of `2 ^ 26 + 1` zero bytes. -/
def zeroDigest (n : ℕ) : Sha1 :=
  if n = 1 then
    ⟨[0x5b, 0xa9, 0x3c, 0x9d, 0xb0, 0xcf, 0xf9, 0x3f, 0x52, 0xb5,
      0x21, 0xd7, 0x42, 0x0e, 0x43, 0xf6, 0xed, 0xa2, 0x78, 0x4f], rfl⟩
  else
    ⟨[0xe8, 0x6b, 0x0f, 0x68, 0x94, 0x95, 0x7e, 0x64, 0x91, 0x65,
      0x19, 0x21, 0xc6, 0x0f, 0xe7, 0x83, 0x06, 0x98, 0x85, 0xc2], rfl⟩

/-- The hashes of these inputs and of their blocks of one byte. -/
def zeroHashes : Hashes where
  md4 _ := ⟨[0x47, 0xc6, 0x1a, 0x0f, 0xa8, 0x73, 0x8b, 0xa7,
    0x73, 0x08, 0xa8, 0xa6, 0x00, 0xf8, 0x8e, 0x4b], rfl⟩
  sha1 input := zeroDigest input.length

/-- The float formulas for these inputs in blocks of one byte. -/
def zeroFormulas : FloatFormulas :=
  ⟨fun n _ => if n = 1 then -1 else 2, fun n _ => if n = 1 then 3 else 6⟩

/-- The header of a file of `n` zero bytes in blocks of one byte; it does not depend on the
records. -/
theorem length_writeHeader_zero {n : ℕ} (hn : n = 1 ∨ n = maxBlocks + 1)
    (bcs : List BlockChecksum) :
    (writeHeader ⟨"0.6.2", some "f", none, 1, n, calculateHashLengths zeroFormulas n 1, ["u"],
      some (hexEncode (zeroDigest n).toList), bcs⟩).length ≤ maxHeaderBytes := by
  change (writeHeader ⟨"0.6.2", some "f", none, 1, n, calculateHashLengths zeroFormulas n 1, ["u"],
      some (hexEncode (zeroDigest n).toList), []⟩).length ≤ maxHeaderBytes
  rcases hn with rfl | rfl <;> decide +kernel

/-- One block more than `parse` takes: `2 ^ 26 + 1` zero bytes in blocks of one byte. -/
theorem parse_rejects_generated :
    ∃ cf, generate zeroHashes zeroFormulas (List.replicate (maxBlocks + 1) 0) "f" "u" (some 1) =
        .ok cf ∧
      (writeHeader cf).length ≤ maxHeaderBytes ∧ ∀ cf', parse (write cf) ≠ .ok cf' := by
  have hlen : (List.replicate (maxBlocks + 1) (0 : UInt8)).length = maxBlocks + 1 :=
    List.length_replicate
  generalize List.replicate (maxBlocks + 1) (0 : UInt8) = input at hlen
  have hne : input ≠ [] := List.ne_nil_of_length_eq_add_one hlen
  have hbs : chosenBlocksize (some 1) input.length = 1 := rfl
  have hg : generate zeroHashes zeroFormulas input "f" "u" (some 1) = .ok _ :=
    generate_eq_ok.2 ⟨hne, by rw [hbs]; decide, by rw [hbs]; decide, rfl⟩
  have hsha : zeroHashes.sha1 input = zeroDigest (maxBlocks + 1) := congrArg zeroDigest hlen
  rw [hbs, hlen, hsha] at hg
  have hcap := length_writeHeader_zero (Or.inr rfl) ((List.range (numBlocks (maxBlocks + 1) 1)).map
    fun i => ⟨calcRsumBlock (targetBlock input 1 i), zeroHashes.md4 (targetBlock input 1 i)⟩)
  refine ⟨_, hg, hcap, fun cf' hp => ?_⟩
  have hwf := wellFormed_of_generate hg (by decide) (by decide)
    (by rw [hlen]; decide)
  have hcount := hwf.count ▸ ((parse_write_iff hwf hcap).1 hp).1
  simp only [numBlocks, Nat.div_one] at hcount
  omega

/-- The digests of the bytes 5 to 13, and of their blocks of two bytes. -/
def countHashes : Hashes where
  md4 w :=
    match w with
    | [5, 6] => ⟨[0x5e, 0x73, 0x2a, 0x99, 0x62, 0xcb, 0x8e, 0xab,
        0xaa, 0xec, 0x3a, 0x75, 0xa7, 0x74, 0x96, 0x9c], rfl⟩
    | [7, 8] => ⟨[0x59, 0x18, 0x6f, 0xe8, 0xfc, 0x5d, 0x71, 0x39,
        0x38, 0xe1, 0x78, 0xde, 0xe4, 0xe7, 0x1b, 0xb7], rfl⟩
    | [9, 10] => ⟨[0x54, 0x05, 0x9e, 0x45, 0xf4, 0x3a, 0xd3, 0xa1,
        0x5f, 0x17, 0x58, 0xb7, 0x6f, 0x3c, 0xd3, 0x48], rfl⟩
    | [11, 12] => ⟨[0x4c, 0x39, 0x68, 0x15, 0x4d, 0x29, 0x80, 0x10,
        0x36, 0x06, 0xbc, 0xc4, 0x8b, 0x8c, 0x8d, 0xbc], rfl⟩
    | _ => ⟨[0x7d, 0xdf, 0xd1, 0x48, 0xfa, 0x44, 0xc8, 0x8e,
        0xfd, 0x7c, 0xc7, 0x16, 0x97, 0x67, 0x68, 0x52], rfl⟩
  sha1 _ := ⟨[0x83, 0x2e, 0x5c, 0x21, 0xe3, 0x80, 0x2e, 0x33, 0xb9, 0x7f,
    0x94, 0x4e, 0xcc, 0x6b, 0x5a, 0xa1, 0xba, 0x4c, 0x26, 0xdb], rfl⟩

/-- The float formulas for this input. -/
def countFormulas : FloatFormulas := ⟨fun _ _ => 0, fun _ _ => 3⟩

/-- Five blocks, the last one of a single byte. -/
theorem parse_write_generate_count :
    ∃ cf, generate countHashes countFormulas [5, 6, 7, 8, 9, 10, 11, 12, 13] "f" "u" (some 2) =
        .ok cf ∧ ∃ cf', parse (write cf) = .ok cf' := by
  have hg : generate countHashes countFormulas [5, 6, 7, 8, 9, 10, 11, 12, 13] "f" "u" (some 2) =
      .ok _ := generate_eq_ok.2 ⟨by decide, by decide, by decide, rfl⟩
  exact ⟨_, hg, (parse_write_generate hg (by decide) (by decide) (by decide)
    (by decide +kernel)).2 (by decide)⟩

end ControlFile

end Zsync
