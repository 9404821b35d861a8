import Zsync.Control.Format
import Zsync.Control.Target

/-!
# Parsing what was written

* `ControlFile.headerFields` : the header that `write` emits, as fields;
* `ControlFile.WellFormed` : the control files a written form can carry;
* `ControlFile.parse_write_iff` : a written control file is read back, with the checksums cut to
  their stored bytes, when it has no more blocks than `parse` takes;
* `ControlFile.wellFormed_of_parse` : what `parse` returns is well formed and already cut;
* `ControlFile.parse_write` : the round trip in both senses.
-/

namespace Zsync

open Text

namespace ControlFile

/-! ### Well-formed control files -/

/-- A value that a header line can carry: one line, without blanks at its ends. -/
def Plain (v : List Char) : Prop :=
  '\n' ∉ v ∧ v.head? ≠ some ' ' ∧ ∀ c ∈ v.getLast?, c ≠ ' ' ∧ c ≠ '\r'

instance : DecidablePred Plain := fun v =>
  @instDecidableAnd _ _ inferInstance
    (@instDecidableAnd _ _ inferInstance (@Option.decidableForallMem _ _ _ v.getLast?))

/-- The control files that a written form can carry. -/
structure WellFormed (cf : ControlFile) : Prop where
  blocksize : cf.blocksize.isPowerOfTwo
  blocksize_le : cf.blocksize ≤ maxBlocksize
  length_le : cf.length ≤ maxU64
  hashLengths : cf.hashLengths.Valid
  count : cf.blockChecksums.length = numBlocks cf.length cf.blocksize
  version : Plain cf.version.toList
  filename : ∀ v ∈ cf.filename, Plain v.toList
  mtime : ∀ v ∈ cf.mtime, Plain v.toList
  urls : ∀ v ∈ cf.urls, Plain v.toList
  sha1 : ∀ v ∈ cf.sha1, Plain v.toList ∧ (encode v.toList).length = 40

/-- The control file with the checksums of its blocks cut to their stored bytes. -/
def stored (cf : ControlFile) : ControlFile :=
  { cf with blockChecksums := cf.blockChecksums.map (·.stored cf.hashLengths) }

/-! ### The written header -/

/-- The text of a `Hash-Lengths` value. -/
def hashLengthsText (hl : HashLengths) : List Char :=
  Nat.toDigits 10 hl.seqMatches ++ ',' :: (Nat.toDigits 10 hl.rsumBytes ++
    ',' :: Nat.toDigits 10 hl.checksumBytes)

/-- The fields that `write` emits. -/
def headerFields (cf : ControlFile) : List (String × List Char) :=
  ("zsync", cf.version.toList) ::
  (cf.filename.toList.map (fun v => ("Filename", v.toList)) ++
  (cf.mtime.toList.map (fun v => ("MTime", v.toList)) ++
  (("Blocksize", Nat.toDigits 10 cf.blocksize) ::
  ("Length", Nat.toDigits 10 cf.length) ::
  ("Hash-Lengths", hashLengthsText cf.hashLengths) ::
  (cf.urls.map (fun v => ("URL", v.toList)) ++
  cf.sha1.toList.map (fun v => ("SHA-1", v.toList))))))

/-- The line that carries a field. -/
def fieldLine (f : String × List Char) : Bytes := encode (f.1.toList ++ ':' :: ' ' :: f.2)

theorem writeln_eq {line : String} (key : String) (v : List Char)
    (h : line.toList = key.toList ++ ':' :: ' ' :: v) :
    writeln line = joinLines [fieldLine (key, v)] := by
  simp [writeln, h, fieldLine, joinLines]

theorem writelnSome_eq {label : String} (key : String) (h : label.toList = key.toList ++ [':', ' '])
    (o : Option String) :
    writelnSome label o = joinLines (o.toList.map fun v => fieldLine (key, v.toList)) := by
  cases o with
  | none => rfl
  | some v => exact writeln_eq key v.toList (by simp [h])

theorem writeHeader_eq (cf : ControlFile) :
    writeHeader cf = joinLines ((headerFields cf).map fieldLine) ++ [0x0a] := by
  have hversion : writeln ("zsync: " ++ cf.version) =
      joinLines [fieldLine ("zsync", cf.version.toList)] := writeln_eq _ _ (by simp)
  have hbs : writeln ("Blocksize: " ++ toString cf.blocksize) =
      joinLines [fieldLine ("Blocksize", Nat.toDigits 10 cf.blocksize)] :=
    writeln_eq _ _ (by simp)
  have hlen : writeln ("Length: " ++ toString cf.length) =
      joinLines [fieldLine ("Length", Nat.toDigits 10 cf.length)] :=
    writeln_eq _ _ (by simp)
  have hhl : writeln ("Hash-Lengths: " ++ toString cf.hashLengths.seqMatches ++ "," ++
      toString cf.hashLengths.rsumBytes ++ "," ++ toString cf.hashLengths.checksumBytes) =
      joinLines [fieldLine ("Hash-Lengths", hashLengthsText cf.hashLengths)] :=
    writeln_eq _ _ (by simp [hashLengthsText])
  have hurls : cf.urls.flatMap (fun url => writeln ("URL: " ++ url)) =
      joinLines (cf.urls.map fun v => fieldLine ("URL", v.toList)) := by
    rw [joinLines, List.flatMap_map]
    refine List.flatMap_congr fun v _ => ?_
    rw [writeln_eq "URL" v.toList (by simp)]
    simp [joinLines]
  have hend : writeln "" = [0x0a] := rfl
  rw [writeHeader, hversion, writelnSome_eq "Filename" (by simp),
    writelnSome_eq "MTime" (by simp), hbs, hlen, hhl, hurls,
    writelnSome_eq "SHA-1" (by simp), hend]
  simp [headerFields, joinLines, Function.comp_def]

/-! ### The fields of the written header -/

theorem Plain.isField {v : List Char} (hv : Plain v) {key : String} (hkey : ':' ∉ key.toList) :
    IsField (fieldLine (key, v)) key.toList v := by
  refine ⟨[' '], [], by simp [fieldLine], hkey, by simp, by simp, hv.2.1, fun c hc => ?_⟩
  have hlf : c ≠ '\n' := fun h => hv.1 (h ▸ List.mem_of_getLast? hc)
  have := hv.2.2 c hc
  simp [lineBlanks, hlf, this]

theorem Plain.lf_notMem {v : List Char} (hv : Plain v) {key : String} (hkey : '\n' ∉ key.toList) :
    0x0a ∉ fieldLine (key, v) := by
  intro h
  have := (mem_encode_of_ascii (c := '\n') (by decide)).1 h
  simp [hkey, hv.1] at this

theorem plain_of_digits {v : List Char} (h : ∀ c ∈ v, c.isDigit ∨ c = ',') : Plain v := by
  have hno : ∀ c ∈ v, c ≠ '\n' ∧ c ≠ ' ' ∧ c ≠ '\r' := by
    intro c hc
    have := h c hc
    refine ⟨?_, ?_, ?_⟩ <;> rintro rfl <;> revert this <;> decide
  exact ⟨fun hc => (hno _ hc).1 rfl, fun hc => (hno _ (List.mem_of_head? hc)).2.1 rfl,
    fun c hc => (hno c (List.mem_of_getLast? hc)).2⟩

/-- The keys that `write` uses. -/
def headerKeys : List String :=
  ["zsync", "Filename", "MTime", "Blocksize", "Length", "Hash-Lengths", "URL", "SHA-1"]

theorem mem_headerFields {cf : ControlFile} (h : cf.WellFormed) {f : String × List Char}
    (hf : f ∈ headerFields cf) : f.1 ∈ headerKeys ∧ Plain f.2 := by
  have hdigits : ∀ n, Plain (Nat.toDigits 10 n) := fun n =>
    plain_of_digits fun c hc => Or.inl (isDigit_of_mem_toDigits hc)
  have hhl : Plain (hashLengthsText cf.hashLengths) := by
    refine plain_of_digits fun c hc => ?_
    simp only [hashLengthsText, List.mem_append, List.mem_cons] at hc
    rcases hc with hc | rfl | hc | rfl | hc
    · exact Or.inl (isDigit_of_mem_toDigits hc)
    · exact Or.inr rfl
    · exact Or.inl (isDigit_of_mem_toDigits hc)
    · exact Or.inr rfl
    · exact Or.inl (isDigit_of_mem_toDigits hc)
  simp only [headerFields, List.mem_cons, List.mem_append, List.mem_map] at hf
  rcases hf with rfl | ⟨v, hv, rfl⟩ | ⟨v, hv, rfl⟩ | rfl | rfl | rfl | ⟨v, hv, rfl⟩ | ⟨v, hv, rfl⟩
  · exact ⟨by simp [headerKeys], h.version⟩
  · exact ⟨by simp [headerKeys], h.filename v (by simpa using hv)⟩
  · exact ⟨by simp [headerKeys], h.mtime v (by simpa using hv)⟩
  · exact ⟨by simp [headerKeys], hdigits _⟩
  · exact ⟨by simp [headerKeys], hdigits _⟩
  · exact ⟨by simp [headerKeys], hhl⟩
  · exact ⟨by simp [headerKeys], h.urls v hv⟩
  · exact ⟨by simp [headerKeys], (h.sha1 v (by simpa using hv)).1⟩

theorem fields_headerFields {cf : ControlFile} (h : cf.WellFormed) :
    Fields ((headerFields cf).map fieldLine) (headerFields cf) ∧
      HeaderLines ((headerFields cf).map fieldLine) := by
  have hkeys : ∀ key ∈ headerKeys, ':' ∉ key.toList ∧ '\n' ∉ key.toList := by decide
  have hfield : ∀ f ∈ headerFields cf, IsField (fieldLine f) f.1.toList f.2 ∧
      0x0a ∉ fieldLine f := by
    intro f hf
    obtain ⟨hkey, hv⟩ := mem_headerFields h hf
    exact ⟨hv.isField (hkeys _ hkey).1, hv.lf_notMem (hkeys _ hkey).2⟩
  constructor
  · rw [Fields, List.forall₂_map_left_iff, List.forall₂_same]
    exact fun f hf => (hfield f hf).1
  · intro l hl
    obtain ⟨f, hf, rfl⟩ := List.mem_map.1 hl
    exact ⟨(hfield f hf).2, (hfield f hf).1.not_isBlank⟩

theorem isNumeral_toDigits (n : ℕ) : IsNumeral (Nat.toDigits 10 n) n :=
  (parseUnsigned_eq_some.1 (parseUnsigned_toDigits (le_refl n))).1

theorem isHashLengths_text {hl : HashLengths} (h : hl.Valid) :
    IsHashLengths (hashLengthsText hl) hl :=
  ⟨_, _, _, rfl, isNumeral_toDigits _, isNumeral_toDigits _, isNumeral_toDigits _, h⟩

theorem values_headerFields (cf : ControlFile) :
    values "zsync" (headerFields cf) = [cf.version.toList] ∧
    values "Filename" (headerFields cf) = cf.filename.toList.map String.toList ∧
    values "MTime" (headerFields cf) = cf.mtime.toList.map String.toList ∧
    values "Blocksize" (headerFields cf) = [Nat.toDigits 10 cf.blocksize] ∧
    values "Length" (headerFields cf) = [Nat.toDigits 10 cf.length] ∧
    values "Hash-Lengths" (headerFields cf) = [hashLengthsText cf.hashLengths] ∧
    values "URL" (headerFields cf) = cf.urls.map String.toList ∧
    values "SHA-1" (headerFields cf) = cf.sha1.toList.map String.toList := by
  simp [values, headerFields, List.filterMap_append, List.filterMap_map]

theorem admissible_headerFields {cf : ControlFile} (h : cf.WellFormed) :
    Admissible (headerFields cf) := by
  obtain ⟨-, -, -, hbs, hlen, hhl, -, hsha1⟩ := values_headerFields cf
  constructor
  · rw [hbs]
    simpa using ⟨cf.blocksize, isNumeral_toDigits _, h.blocksize, h.blocksize_le⟩
  · rw [hlen]
    simpa using ⟨cf.length, isNumeral_toDigits _, h.length_le⟩
  · rw [hhl]
    simpa using ⟨cf.hashLengths, isHashLengths_text h.hashLengths⟩
  · rw [hsha1]
    intro v hv
    obtain ⟨d, hd, rfl⟩ := List.mem_map.1 hv
    exact (h.sha1 d (by simpa using hd)).2

/-! ### The round trip -/

/-- The written fields and records describe the control file cut to its stored bytes. -/
theorem describes_headerFields {cf : ControlFile} (h : cf.WellFormed)
    (hcount : cf.blockChecksums.length ≤ maxBlocks) :
    Describes (headerFields cf) (cf.blockChecksums.flatMap (writeEntry cf.hashLengths))
      cf.stored := by
  obtain ⟨hversion, hfilename, hmtime, hbs, hlen, hhl, hurls, hsha1⟩ := values_headerFields cf
  have hread := readBlockChecksums_writeEntry h.hashLengths cf.blockChecksums []
  rw [List.append_nil, readBlockChecksums_eq_ok, h.count] at hread
  constructor
  · simp [lastText, hversion, stored]
  · cases hf : cf.filename <;> simp [lastText, hfilename, stored, hf]
  · cases hf : cf.mtime <;> simp [lastText, hmtime, stored, hf]
  · exact ⟨_, by rw [hbs]; rfl, isNumeral_toDigits _⟩
  · exact ⟨_, by rw [hlen]; rfl, isNumeral_toDigits _⟩
  · exact Or.inl ⟨_, by rw [hhl]; rfl, isHashLengths_text h.hashLengths⟩
  · simp [hurls, stored]
  · cases hf : cf.sha1 <;> simp [lastText, hsha1, stored, hf]
  · exact h.count ▸ hcount
  · exact hread.1
  · exact hread.2

theorem terminated_write {cf : ControlFile} (h : cf.WellFormed)
    (hcap : (writeHeader cf).length ≤ maxHeaderBytes) :
    Terminated maxHeaderBytes (write cf) ((headerFields cf).map fieldLine)
      (cf.blockChecksums.flatMap (writeEntry cf.hashLengths)) := by
  refine ⟨(fields_headerFields h).2, [], by simp [IsBlank], ?_, by simp [write, writeHeader_eq]⟩
  rw [writeHeader_eq, List.length_append, List.length_singleton] at hcap
  simp only [List.length_nil]
  omega

/-- A written control file is read back, cut to its stored bytes, unless it has too many blocks. -/
theorem parse_write_iff {cf cf' : ControlFile} (h : cf.WellFormed)
    (hcap : (writeHeader cf).length ≤ maxHeaderBytes) :
    parse (write cf) = .ok cf' ↔ cf.blockChecksums.length ≤ maxBlocks ∧ cf' = cf.stored := by
  have hterm := terminated_write h hcap
  have hfields := (fields_headerFields h).1
  have hok : cf.blockChecksums.length ≤ maxBlocks → parse (write cf) = .ok cf.stored :=
    fun hcount =>
    parse_eq_ok.2 ⟨_, _, Or.inl hterm, _, hfields, admissible_headerFields h,
      describes_headerFields h hcount⟩
  constructor
  · intro hp
    -- the loop reads the written header, so the count that is checked is that of `cf`
    have hloop := headerLoop_of_terminated hterm hfields
      (fields_start_eq_ok.2 ⟨admissible_headerFields h, rfl⟩)
    obtain ⟨hbs, hlen, hcount, -⟩ := (parse_eq_ok_of_headerLoop hloop).1 hp
    obtain ⟨-, -, -, hvbs, hvlen, -⟩ := values_headerFields cf
    rw [Header.ofFields, hvbs] at hbs
    rw [Header.ofFields, hvlen] at hlen
    have hbs' : cf'.blocksize = cf.blocksize :=
      (parseBlocksize_eq_some.1 hbs).1.unique (isNumeral_toDigits _)
    have hlen' : cf'.length = cf.length :=
      (parseUnsigned_eq_some.1 hlen).1.unique (isNumeral_toDigits _)
    rw [hbs', hlen', ← h.count] at hcount
    rw [hok hcount, Except.ok.injEq] at hp
    exact ⟨hcount, hp.symm⟩
  · rintro ⟨hcount, rfl⟩
    exact hok hcount

theorem write_stored {cf : ControlFile} (h : cf.hashLengths.Valid) :
    write cf.stored = write cf := by
  simp only [write, stored, List.flatMap_map, writeEntry_stored h]
  rfl

theorem IsField.plain {l : Bytes} {key v : List Char} (h : IsField l key v) (hlf : 0x0a ∉ l) :
    Plain v := by
  obtain ⟨before, after, rfl, -, -, -, hhead, hlast⟩ := h
  refine ⟨fun hv => hlf ?_, hhead, fun c hc => ?_⟩
  · exact (mem_encode_of_ascii (c := '\n') (by decide)).2 (by simp [hv])
  · have := hlast c hc
    simp only [lineBlanks, List.mem_cons, List.not_mem_nil, or_false, not_or] at this
    exact ⟨this.2.2, this.2.1⟩

theorem plain_of_mem_values {ls : List Bytes} {fs : List (String × List Char)}
    (hls : HeaderLines ls)
    (hfs : Fields ls fs) {key : String} {v : List Char} (hv : v ∈ values key fs) : Plain v := by
  obtain ⟨l, hl, hf⟩ : ∃ l ∈ ls, IsField l key.toList v := by
    obtain ⟨i, hi, hget⟩ := List.getElem_of_mem (mem_values.1 hv)
    obtain ⟨hlen, hrel⟩ := List.forall₂_iff_get.1 hfs
    have := hrel i (hlen ▸ hi) hi
    rw [List.get_eq_getElem, List.get_eq_getElem, hget] at this
    exact ⟨_, List.getElem_mem _, this⟩
  exact hf.plain (hls l hl).1

theorem mem_values_of_lastText {fs : List (String × List Char)} {key v : String}
    (h : lastText key fs = some v) : v.toList ∈ values key fs := by
  obtain ⟨w, hw, rfl⟩ := Option.map_eq_some_iff.1 h
  rw [String.toList_ofList]
  exact List.mem_of_getLast? hw

/-- What `parse` returns is well formed, and its checksums are cut to their stored bytes. -/
theorem wellFormed_of_parse {b : Bytes} {cf : ControlFile} (hp : parse b = .ok cf) :
    cf.WellFormed ∧ cf.blockChecksums.length ≤ maxBlocks ∧ cf.stored = cf := by
  obtain ⟨ls, rest, hsec, fs, hfs, hadm, hdesc⟩ := parse_eq_ok.1 hp
  have hls : HeaderLines ls := hsec.elim And.left And.left
  have hplain : ∀ key v, lastText key fs = some v → Plain v.toList := fun key v h =>
    plain_of_mem_values hls hfs (mem_values_of_lastText h)
  have hvalid : cf.hashLengths.Valid := by
    rcases hdesc.hashLengths with ⟨v, -, hv⟩ | ⟨-, hv⟩
    · obtain ⟨_, _, _, -, -, -, -, h⟩ := hv
      exact h
    · exact hv ▸ ⟨by decide, by decide, by decide, by decide, by decide, by decide⟩
  have hlen : cf.blockChecksums.length = numBlocks cf.length cf.blocksize := by
    rw [hdesc.records, List.length_map, List.length_range]
  refine ⟨⟨?_, ?_, ?_, hvalid, hlen, ?_, ?_, ?_, ?_, ?_⟩, hlen ▸ hdesc.blocks, ?_⟩
  · obtain ⟨v, hv, hn⟩ := hdesc.blocksize
    obtain ⟨n, hn', hpow, -⟩ := hadm.blocksizes v (List.mem_of_getLast? hv)
    exact hn.unique hn' ▸ hpow
  · obtain ⟨v, hv, hn⟩ := hdesc.blocksize
    obtain ⟨n, hn', -, hle⟩ := hadm.blocksizes v (List.mem_of_getLast? hv)
    exact hn.unique hn' ▸ hle
  · obtain ⟨v, hv, hn⟩ := hdesc.length
    obtain ⟨n, hn', hle⟩ := hadm.lengths v (List.mem_of_getLast? hv)
    exact hn.unique hn' ▸ hle
  · rw [hdesc.version]
    cases hv : lastText "zsync" fs with
    | none => exact ⟨by simp, by simp, by simp⟩
    | some v => exact hplain _ _ hv
  · exact fun v hv => hplain _ _ (hdesc.filename ▸ hv)
  · exact fun v hv => hplain _ _ (hdesc.mtime ▸ hv)
  · intro v hv
    rw [hdesc.urls] at hv
    obtain ⟨w, hw, rfl⟩ := List.mem_map.1 hv
    rw [String.toList_ofList]
    exact plain_of_mem_values hls hfs hw
  · intro v hv
    have hlast : lastText "SHA-1" fs = some v := hdesc.sha1 ▸ hv
    exact ⟨hplain _ _ hlast, hadm.digests _ (mem_values_of_lastText hlast)⟩
  · have hrec : cf.blockChecksums.map (·.stored cf.hashLengths) = cf.blockChecksums := by
      conv_rhs => rw [hdesc.records]
      rw [hdesc.records, List.map_map]
      refine List.map_congr_left fun i hi => stored_decodeEntry hvalid (length_window ?_)
      have := Nat.mul_le_mul_right cf.hashLengths.entrySize (List.mem_range.1 hi)
      have := hdesc.room
      rw [Nat.succ_mul] at *
      omega
    rw [stored, hrec]

theorem checked_of_parse {b : Bytes} {cf : ControlFile} (hp : parse b = .ok cf) : cf.Checked := by
  obtain ⟨h, hcount, -⟩ := wellFormed_of_parse hp
  exact ⟨h.blocksize, h.blocksize_le, h.hashLengths, h.count, hcount⟩

/-- **The round trip.**  A well-formed control file whose header and number of blocks stay under
the caps is read back with its checksums cut to their stored bytes, and written again it gives the
same bytes.  What `parse` itself returned is read back unchanged. -/
theorem parse_write (cf : ControlFile) (hcap : (writeHeader cf).length ≤ maxHeaderBytes) :
    (cf.WellFormed → cf.blockChecksums.length ≤ maxBlocks →
      parse (write cf) = .ok cf.stored ∧ write cf.stored = write cf) ∧
    ∀ b, parse b = .ok cf → parse (write cf) = .ok cf := by
  refine ⟨fun h hcount => ⟨(parse_write_iff h hcap).2 ⟨hcount, rfl⟩, write_stored h.hashLengths⟩,
    fun b hp => ?_⟩
  obtain ⟨h, hcount, hstored⟩ := wellFormed_of_parse hp
  exact (parse_write_iff h hcap).2 ⟨hcount, hstored.symm⟩

/-- A control file of two blocks, the last one short, with checksums that are cut when stored. -/
def sample : ControlFile where
  version := "0.6.2"
  filename := some "a: b\tc"
  mtime := none
  blocksize := 2
  length := 3
  hashLengths := ⟨2, 3, 4⟩
  urls := ["", "http://host/a"]
  sha1 := some "a9993e364706816aba3e25717850c26c9cd0d89d"
  blockChecksums := [⟨⟨0x1234, 0x5678⟩, ControlFile.md4OfPrefix [1, 2, 3, 4, 5]⟩,
    ⟨⟨0xff, 0xff⟩, ControlFile.md4OfPrefix [6, 7]⟩]

theorem parse_write_sample :
    sample.stored ≠ sample ∧ parse (write sample) = .ok sample.stored ∧
      write sample.stored = write sample ∧ parse (write sample.stored) = .ok sample.stored := by
  have hcap : (writeHeader sample).length ≤ maxHeaderBytes := by decide +kernel
  have hwf : sample.WellFormed :=
    ⟨by decide, by decide, by decide, ⟨by decide, by decide, by decide, by decide, by decide,
      by decide⟩, by decide, by decide, by decide, by decide, by decide,
      by decide⟩
  obtain ⟨h1, h2⟩ := (parse_write sample hcap).1 hwf (by decide)
  exact ⟨by decide, h1, h2, (parse_write sample.stored hcap).2 _ h1⟩

end ControlFile

end Zsync
