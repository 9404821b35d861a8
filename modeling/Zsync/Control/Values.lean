import Zsync.Control.Maker

/-!
# Values in a written header

Which file names and URLs a generated control file carries to the client.

* `ControlFile.joinLines_prefix` : lines that start with a printed character are read as they were
  written, or not to their end;
* `ControlFile.length_writeHeader_of_generate` : the size of the written header;
* `ControlFile.values_survive_iff` : exactly when the client reads what was generated.
-/

namespace Zsync

open Text

namespace ControlFile

/-! ### Lines that are read as written -/

/-- A line that starts with a character that is no blank. -/
def Printed (l : Bytes) : Prop := 0x0a ∉ l ∧ ∃ b, l.head? = some b ∧ b ≠ 0x20 ∧ b ≠ 0x0d ∧ b ≠ 0x0a

/-- What starts with printed lines is cut into lines at least at their ends, or goes on in a printed
line. -/
theorem joinLines_prefix {ls ls' : List Bytes} (hls : ∀ l ∈ ls, Printed l)
    (hls' : ∀ l ∈ ls', 0x0a ∉ l) {r r' : Bytes} (h : joinLines ls ++ r = joinLines ls' ++ r') :
    ls <+: ls' ∨ ∃ b, r'.head? = some b ∧ b ≠ 0x20 ∧ b ≠ 0x0d ∧ b ≠ 0x0a := by
  induction ls' generalizing ls with
  | nil =>
    cases ls with
    | nil => exact Or.inl List.prefix_rfl
    | cons l ls =>
      obtain ⟨-, b, hb, hne⟩ := hls l List.mem_cons_self
      refine Or.inr ⟨b, ?_, hne⟩
      have hr' : r' = l ++ 0x0a :: (joinLines ls ++ r) := by simpa [joinLines] using h.symm
      rw [hr', List.head?_append, hb, Option.some_or]
  | cons l' ls' ih =>
    cases ls with
    | nil => exact Or.inl List.nil_prefix
    | cons l ls =>
      rw [joinLines_cons, joinLines_cons, List.append_assoc, List.append_assoc, List.cons_append,
        List.cons_append] at h
      obtain ⟨rfl, htail⟩ := append_lf_inj (hls l List.mem_cons_self).1
        (hls' l' List.mem_cons_self) h
      refine (ih (fun m hm => hls m (List.mem_cons_of_mem _ hm))
        (fun m hm => hls' m (List.mem_cons_of_mem _ hm)) htail).imp_left fun hp => ?_
      exact (List.prefix_cons_inj l).2 hp

theorem length_joinLines_le {ls ls' : List Bytes} (h : ls <+: ls') :
    (joinLines ls).length ≤ (joinLines ls').length := by
  obtain ⟨k, rfl⟩ := h
  simp [joinLines]

theorem IsBlank.head_append_lf {blank : Bytes} (h : IsBlank blank) (r : Bytes) {b : UInt8}
    (hb : (blank ++ 0x0a :: r).head? = some b) : b = 0x20 ∨ b = 0x0d ∨ b = 0x0a := by
  cases blank with
  | nil => exact Or.inr (Or.inr (Option.some.inj hb).symm)
  | cons c blank =>
    obtain rfl := Option.some.inj hb
    exact (h _ List.mem_cons_self).imp_right Or.inl

theorem length_lt_of_section {cap : ℕ} {ls ls' : List Bytes} {r rest : Bytes}
    (hls : ∀ l ∈ ls, Printed l)
    (hsec : Terminated cap (joinLines ls ++ r) ls' rest ∨ Cut cap (joinLines ls ++ r) ls' rest) :
    (joinLines ls).length < cap := by
  rcases hsec with ⟨hls', blank, hblank, hcap, heq⟩ | ⟨hls', blank, hblank, hne, htake, -⟩
  · rcases joinLines_prefix hls (fun l hl => (hls' l hl).1) heq with hp | ⟨b, hb, h1, h2, h3⟩
    · have := length_joinLines_le hp
      omega
    · rcases hblank.head_append_lf _ hb with h | h | h
      · exact absurd h h1
      · exact absurd h h2
      · exact absurd h h3
  · have heq : joinLines ls ++ r = joinLines ls' ++ (blank ++ (joinLines ls ++ r).drop cap) := by
      rw [← List.append_assoc, ← htake, List.take_append_drop]
    rcases joinLines_prefix hls (fun l hl => (hls' l hl).1) heq with hp | ⟨b, hb, h1, h2, -⟩
    · have := length_joinLines_le hp
      have hpos := List.length_pos_of_ne_nil hne
      have hlen := congrArg List.length htake
      have := List.length_take_le cap (joinLines ls ++ r)
      rw [hlen, List.length_append] at this
      omega
    · obtain ⟨c, blank, rfl⟩ := List.exists_cons_of_ne_nil hne
      obtain rfl := Option.some.inj hb
      rcases hblank _ List.mem_cons_self with h | h
      · exact absurd h h1
      · exact absurd h h2

/-! ### The written header -/

theorem printed_headerKeys {key : String} (h : key ∈ headerKeys) :
    (∀ c ∈ key.toList, c.toNat < 128) ∧ ∃ c cs, key.toList = c :: cs ∧
      UInt8.ofNat c.toNat ∉ [0x20, 0x0d, 0x0a] := by
  have hall : headerKeys.all fun key => (key.toList.all fun c => c.toNat < 128) &&
      key.toList.head?.any fun c => UInt8.ofNat c.toNat ∉ [0x20, 0x0d, 0x0a] := by decide
  have hkey := List.all_eq_true.1 hall key h
  rw [Bool.and_eq_true, List.all_eq_true, Option.any_eq_true] at hkey
  obtain ⟨hascii, c, hc, hne⟩ := hkey
  obtain ⟨cs, hcs⟩ := List.head?_eq_some_iff.1 hc
  exact ⟨fun d hd => of_decide_eq_true (hascii d hd), c, cs, hcs, of_decide_eq_true hne⟩

theorem printed_fieldLine {key : String} {v : List Char} (hkey : key ∈ headerKeys)
    (hlf : 0x0a ∉ fieldLine (key, v)) : Printed (fieldLine (key, v)) := by
  obtain ⟨hascii, c, cs, hcs, hc⟩ := printed_headerKeys hkey
  have hhead : (fieldLine (key, v)).head? = some (UInt8.ofNat c.toNat) := by
    rw [fieldLine, hcs, List.cons_append, encode_cons,
      utf8EncodeChar_ascii (hascii c (hcs ▸ List.mem_cons_self))]
    rfl
  simp only [List.mem_cons, List.not_mem_nil, or_false, not_or] at hc
  exact ⟨hlf, _, hhead, hc⟩

theorem length_fieldLine {key : String} (hkey : key ∈ headerKeys) (v : List Char) :
    (fieldLine (key, v)).length = key.toList.length + 2 + (encode v).length := by
  have hkeyLen := length_encode_ascii (printed_headerKeys hkey).1
  have hsep : (encode [':', ' ']).length = 2 := length_encode_ascii (by simp)
  have hcut : key.toList ++ ':' :: ' ' :: v = key.toList ++ ([':', ' '] ++ v) := rfl
  rw [fieldLine, hcut, encode_append, encode_append, List.length_append, List.length_append,
    hkeyLen, hsep, Nat.add_assoc]

theorem length_encode_toDigits (n : ℕ) :
    (encode (Nat.toDigits 10 n)).length = (Nat.toDigits 10 n).length := by
  refine length_encode_ascii fun c hc => ?_
  have hdigit := (Char.isDigit_iff_toNat.1 (isDigit_of_mem_toDigits hc)).2
  exact lt_of_le_of_lt hdigit (by decide)

theorem key_mem_headerKeys {cf : ControlFile} {f : String × List Char} (hf : f ∈ headerFields cf) :
    f.1 ∈ headerKeys := by
  simp only [headerFields, List.mem_cons, List.mem_append, List.mem_map] at hf
  rcases hf with rfl | ⟨v, -, rfl⟩ | ⟨v, -, rfl⟩ | rfl | rfl | rfl | ⟨v, -, rfl⟩ | ⟨v, -, rfl⟩ <;>
    simp [headerKeys]

/-- Each field takes its key, its value, a colon, a space and a line feed. -/
theorem length_writeHeader (cf : ControlFile) : (writeHeader cf).length =
    ((headerFields cf).map fun f => f.1.toList.length + 3 + (encode f.2).length).sum + 1 := by
  rw [writeHeader_eq, List.length_append, List.length_singleton, joinLines, List.length_flatMap,
    List.map_map]
  congr 2
  refine List.map_congr_left fun f hf => ?_
  simp only [Function.comp_apply, List.length_append, List.length_singleton,
    length_fieldLine (key_mem_headerKeys hf)]
  omega

/-! ### Generated control files -/

/-- How many digits a number is written with. -/
def digits (n : ℕ) : ℕ := (Nat.toDigits 10 n).length

/-- The size of the header that is written for an input: the file name, the URL, three numbers, and
119 bytes of labels, version, hash lengths, digest and line feeds. -/
def writtenLength (F : FloatFormulas) (input : Bytes) (filename url : String)
    (blocksize : Option ℕ) : ℕ :=
  let bs := chosenBlocksize blocksize input.length
  (encode filename.toList).length + (encode url.toList).length + digits bs +
    digits input.length + digits (calculateHashLengths F input.length bs).checksumBytes + 119

variable {H : Hashes} {F : FloatFormulas} {input : Bytes} {filename url : String}
  {blocksize : Option ℕ} {made : ControlFile}

theorem length_hashLengthsText (F : FloatFormulas) (fileLength bs : ℕ) :
    (encode (hashLengthsText (calculateHashLengths F fileLength bs))).length =
      digits (calculateHashLengths F fileLength bs).checksumBytes + 4 := by
  have hvalid := calculateHashLengths_valid F fileLength bs
  have hdigit : ∀ n < 10, (Nat.toDigits 10 n).length = 1 := by decide
  have hseq := hdigit (calculateHashLengths F fileLength bs).seqMatches
    (by have := hvalid.seq_le_two; omega)
  have hrsum := hdigit (calculateHashLengths F fileLength bs).rsumBytes
    (by have := hvalid.rsum_le_four; omega)
  have hcomma : (encode [',']).length = 1 := length_encode_ascii (by simp)
  have hcut : ∀ cs : List Char, ',' :: cs = [','] ++ cs := fun cs => rfl
  rw [hashLengthsText, hcut, hcut (Nat.toDigits 10 _)]
  simp only [encode_append, List.length_append, length_encode_toDigits, hseq, hrsum, hcomma, digits]
  omega

/-- **The size of the written header** of a generated control file. -/
theorem length_writeHeader_of_generate
    (hg : generate H F input filename url blocksize = .ok made) :
    (writeHeader made).length = writtenLength F input filename url blocksize := by
  obtain ⟨-, -, -, rfl⟩ := generate_eq_ok.1 hg
  have hversion : (encode "0.6.2".toList).length = 5 := length_encode_ascii (by simp)
  have hkeys : headerKeys.map (·.toList.length) = [5, 8, 5, 9, 6, 12, 3, 5] := by decide
  simp only [headerKeys, List.map_cons, List.map_nil, List.cons.injEq, and_true] at hkeys
  obtain ⟨h1, h2, -, h3, h4, h5, h6, h7⟩ := hkeys
  rw [length_writeHeader]
  simp only [headerFields, Option.toList_some, Option.toList_none, List.map_cons, List.map_nil,
    List.nil_append, List.cons_append, List.sum_cons, List.sum_nil, h1, h2, h3, h4, h5, h6, h7,
    hversion, length_hashLengthsText, length_encode_toDigits, length_encode_hexEncode,
    List.Vector.toList_length, writtenLength, digits]
  omega

theorem length_le_of_parse_write {cf : ControlFile} (h : made.WellFormed)
    (hp : parse (write made) = .ok cf) : (writeHeader made).length ≤ maxHeaderBytes := by
  obtain ⟨ls, rest, hsec, -⟩ := parse_eq_ok.1 hp
  have hprinted : ∀ l ∈ (headerFields made).map fieldLine, Printed l := by
    intro l hl
    obtain ⟨f, hf, rfl⟩ := List.mem_map.1 hl
    exact printed_fieldLine (key_mem_headerKeys hf) ((fields_headerFields h).2 _ hl).1
  rw [write, writeHeader_eq, List.append_assoc] at hsec
  have hlt : (joinLines ((headerFields made).map fieldLine)).length < maxHeaderBytes :=
    length_lt_of_section hprinted hsec
  rw [writeHeader_eq, List.length_append, List.length_singleton]
  exact hlt

/-- **Which names and URLs survive.**  The client reads what was generated, with the file name and
the URL as they were given, exactly when both are one line without blanks at its ends and the
header stays under the cap. -/
theorem values_survive_iff (hg : generate H F input filename url blocksize = .ok made)
    (hblocks : numBlocks input.length (chosenBlocksize blocksize input.length) ≤ maxBlocks) :
    (∃ cf, parse (write made) = .ok cf ∧ cf.filename = some filename ∧ cf.urls = [url] ∧
      cf.blocksize = made.blocksize ∧ cf.length = made.length ∧
      cf.hashLengths = made.hashLengths ∧ cf.sha1 = made.sha1 ∧
      cf.blockChecksums = made.stored.blockChecksums) ↔
      Plain filename.toList ∧ Plain url.toList ∧
        writtenLength F input filename url blocksize ≤ maxHeaderBytes := by
  have hsize := length_writeHeader_of_generate hg
  constructor
  · rintro ⟨cf, hp, hfilename, hurls, -⟩
    obtain ⟨hcf, -⟩ := wellFormed_of_parse hp
    have hplainName := hcf.filename filename hfilename
    have hplainUrl := hcf.urls url (by rw [hurls]; exact List.mem_singleton_self url)
    have hmade := wellFormed_of_generate hg hplainName hplainUrl (length_le_maxU64 hg hblocks)
    exact ⟨hplainName, hplainUrl, hsize ▸ length_le_of_parse_write hmade hp⟩
  · rintro ⟨hplainName, hplainUrl, hcap⟩
    refine ⟨_, parse_write_of_generate hg hplainName hplainUrl hblocks (hsize ▸ hcap), ?_⟩
    obtain ⟨-, -, -, rfl⟩ := generate_eq_ok.1 hg
    exact ⟨rfl, rfl, rfl, rfl, rfl, rfl, rfl⟩

/-- A single zero byte, under a name and a URL with a blank inside. -/
theorem values_survive_zero :
    ∃ made, generate zeroHashes zeroFormulas [0] "f g" "u v" (some 1) = .ok made ∧
      ∃ cf, parse (write made) = .ok cf ∧ cf.filename = some "f g" ∧ cf.urls = ["u v"] := by
  have hg : generate zeroHashes zeroFormulas [0] "f g" "u v" (some 1) = .ok _ :=
    generate_eq_ok.2 ⟨by decide, by decide, by decide, rfl⟩
  obtain ⟨cf, hp, hname, hurls, -⟩ := (values_survive_iff hg (by decide)).2
    ⟨by decide, by decide, by decide⟩
  exact ⟨_, hg, cf, hp, hname, hurls⟩

/-- A name with a line feed ends the header before the block size. -/
theorem name_ends_header :
    ∃ made, generate zeroHashes zeroFormulas [0] "f\n" "u" (some 1) = .ok made ∧
      parse (write made) = .error (.missingField "Blocksize") := by
  have hg : generate zeroHashes zeroFormulas [0] "f\n" "u" (some 1) = .ok _ :=
    generate_eq_ok.2 ⟨by decide, by decide, by decide, rfl⟩
  exact ⟨_, hg, by decide +kernel⟩

end ControlFile

end Zsync
