import Zsync.Control.Values

/-!
# Truncated control files

What the client makes of a control file that was not written to its end.

* `ControlFile.no_section_of_prefix` : a beginning of the written header lines has no header
  section;
* `ControlFile.accepts_prefix_iff` : no beginning of a written control file but all of it is
  accepted.
-/

namespace Zsync

open Text

namespace ControlFile

variable {cf cf' : ControlFile}

theorem printed_headerFields (h : cf.WellFormed) :
    ∀ l ∈ (headerFields cf).map fieldLine, Printed l := by
  intro l hl
  obtain ⟨f, hf, rfl⟩ := List.mem_map.1 hl
  exact printed_fieldLine (key_mem_headerKeys hf) ((fields_headerFields h).2 _ hl).1

/-- Printed lines have no header section that goes on in them. -/
theorem no_section_of_prefix {cap : ℕ} {ls ls' : List Bytes} {p q rest : Bytes}
    (hls : ∀ l ∈ ls, Printed l) (hp : p ++ q = joinLines ls) :
    ¬ (Terminated cap p ls' rest ∨ Cut cap p ls' rest) := by
  -- the blank piece that ends the section would start a printed line, or follow them all
  have hno (hls' : HeaderLines ls') (blank r : Bytes) (hne : blank ++ r ≠ [])
      (hblank : ∀ b, (blank ++ r).head? = some b → b = 0x20 ∨ b = 0x0d ∨ b = 0x0a) :
      joinLines ls ≠ joinLines ls' ++ (blank ++ r) := by
    intro heq
    rcases joinLines_prefix (r := []) hls (fun l hl => (hls' l hl).1)
      ((List.append_nil _).trans heq) with hprefix | ⟨b, hb, h1, h2, h3⟩
    · have hle := length_joinLines_le hprefix
      have hlen := congrArg List.length heq
      have hpos := List.length_pos_of_ne_nil hne
      rw [List.length_append] at hlen
      omega
    · rcases hblank b hb with h | h | h
      · exact h1 h
      · exact h2 h
      · exact h3 h
  rintro (⟨hls', blank, hblank, -, rfl⟩ | ⟨hls', blank, hblank, hne, htake, -⟩)
  · refine hno hls' blank (0x0a :: (rest ++ q)) (by simp)
      (fun b => hblank.head_append_lf _) ?_
    rw [← hp]
    simp
  · obtain ⟨c, blank, rfl⟩ := List.exists_cons_of_ne_nil hne
    refine hno hls' (c :: blank) (p.drop cap ++ q) (List.cons_ne_nil _ _)
      (fun b hb => ?_) ?_
    · obtain rfl := Option.some.inj hb
      exact (hblank _ List.mem_cons_self).imp_right Or.inl
    · rw [← hp, ← List.append_assoc, ← htake, ← List.append_assoc, List.take_append_drop]

theorem ofFields_headerFields (h : cf.WellFormed) :
    (Header.ofFields (headerFields cf)).blocksize = some cf.blocksize ∧
      (Header.ofFields (headerFields cf)).length = some cf.length ∧
      (Header.ofFields (headerFields cf)).hashLengths = cf.hashLengths := by
  obtain ⟨-, -, -, hbs, hlen, hhl, -⟩ := values_headerFields cf
  rw [Header.ofFields, hbs, hlen, hhl]
  refine ⟨?_, ?_, ?_⟩
  · exact parseBlocksize_eq_some.2 ⟨isNumeral_toDigits _, h.blocksize, h.blocksize_le⟩
  · exact parseUnsigned_eq_some.2 ⟨isNumeral_toDigits _, h.length_le⟩
  · exact congrArg (·.getD HashLengths.default)
      (parseHashLengths_eq_some.2 (isHashLengths_text h.hashLengths))

theorem length_records (h : cf.WellFormed) :
    (cf.blockChecksums.flatMap (writeEntry cf.hashLengths)).length =
      numBlocks cf.length cf.blocksize * cf.hashLengths.entrySize := by
  rw [List.length_flatMap, List.map_congr_left fun bc _ => length_writeEntry h.hashLengths bc,
    List.map_const', List.sum_replicate, h.count, smul_eq_mul]

/-- **A truncated control file is refused**, wherever it is cut, in its header or in its records. -/
theorem parse_truncated (h : cf.WellFormed) {p rest : Bytes} (hp : p ++ rest = write cf)
    (hne : rest ≠ []) : ∀ cf', parse p ≠ .ok cf' := by
  intro cf' hparse
  obtain ⟨ls', rest', hsec, -⟩ := parse_eq_ok.1 hparse
  have hprinted := printed_headerFields h
  rw [write, writeHeader_eq, List.append_assoc] at hp
  obtain ⟨q, hls, -⟩ | ⟨q, rfl, hq⟩ := List.append_eq_append_iff.1 hp
  · exact no_section_of_prefix hprinted hls.symm hsec
  obtain - | ⟨c, records⟩ := q
  · rw [List.append_nil] at hsec
    exact no_section_of_prefix hprinted (List.append_nil _) hsec
  rw [List.singleton_append, List.cons_append, List.cons.injEq] at hq
  obtain ⟨rfl, hrecords⟩ := hq
  -- the header is whole, so the records are too short
  have hterm : Terminated maxHeaderBytes (joinLines ((headerFields cf).map fieldLine) ++
      0x0a :: records) ((headerFields cf).map fieldLine) records :=
    ⟨(fields_headerFields h).2, [], by simp [IsBlank], length_lt_of_section hprinted hsec, rfl⟩
  have hloop := headerLoop_of_terminated hterm (fields_headerFields h).1
    (fields_start_eq_ok.2 ⟨admissible_headerFields h, rfl⟩)
  obtain ⟨hbs, hlen, -, hread, -⟩ := (parse_eq_ok_of_headerLoop hloop).1 hparse
  obtain ⟨hbs', hlen', hhl⟩ := ofFields_headerFields h
  rw [hbs', Option.some.injEq] at hbs
  rw [hlen', Option.some.injEq] at hlen
  rw [hhl, ← hbs, ← hlen, readBlockChecksums_eq_ok, ← length_records h, hrecords,
    List.length_append] at hread
  have hpos := List.length_pos_of_ne_nil hne
  omega

/-- **Which beginnings of a written control file are accepted**: only all of it, and this when its
header and its blocks stay under the caps. -/
theorem accepts_prefix_iff (h : cf.WellFormed) {p : Bytes} (hp : p <+: write cf) :
    (∃ cf', parse p = .ok cf') ↔ p = write cf ∧ (writeHeader cf).length ≤ maxHeaderBytes ∧
      cf.blockChecksums.length ≤ maxBlocks := by
  constructor
  · rintro ⟨cf', hparse⟩
    obtain ⟨rest, hrest⟩ := hp
    have hnil : rest = [] := by
      by_contra hne
      exact parse_truncated h hrest hne cf' hparse
    rw [hnil, List.append_nil] at hrest
    rw [hrest] at hparse
    have hcap := length_le_of_parse_write h hparse
    exact ⟨hrest, hcap, ((parse_write_iff h hcap).1 hparse).1⟩
  · rintro ⟨heq, hcap, hcount⟩
    rw [heq]
    exact ⟨cf.stored, (parse_write_iff h hcap).2 ⟨hcount, rfl⟩⟩

/-- A control file with and without its last byte. -/
theorem accepts_prefix_sample :
    (∃ cf', parse (write sample) = .ok cf') ∧ ¬ ∃ cf', parse (write sample).dropLast = .ok cf' := by
  have hwf : sample.WellFormed :=
    ⟨by decide, by decide, by decide, ⟨by decide, by decide, by decide, by decide, by decide,
      by decide⟩, by decide, by decide, by decide, by decide, by decide, by decide⟩
  have hcap : (writeHeader sample).length ≤ maxHeaderBytes := by decide +kernel
  have hne : write sample ≠ [] := by simp [write, writeHeader_eq]
  have hiff (p : Bytes) (hp : p <+: write sample) := accepts_prefix_iff hwf hp
  generalize write sample = w at hiff hne ⊢
  refine ⟨(hiff w List.prefix_rfl).2 ⟨rfl, hcap, by decide⟩, fun h => ?_⟩
  obtain ⟨heq, -⟩ := (hiff _ (List.dropLast_prefix w)).1 h
  have hlen := congrArg List.length heq
  have hpos := List.length_pos_of_ne_nil hne
  rw [List.length_dropLast] at hlen
  omega

end ControlFile

end Zsync
