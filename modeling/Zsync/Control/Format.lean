import Zsync.Control.Header
import Zsync.Control.Records

/-!
# The format that `parse` accepts

What a control file says, stated over its lines and not over the loop that reads them.

* `ControlFile.IsNumeral`, `ControlFile.IsHashLengths` : the accepted values;
* `ControlFile.Admissible` : every value of every checked key is accepted;
* `ControlFile.Meaning` : the control file that header lines and the bytes after them describe;
* `ControlFile.parse_eq_ok` : `parse` accepts exactly the inputs with a meaning;
* `ControlFile.parse_accepts_iff` : it accepts nothing but its format exactly when the blank piece
  that ends the header was ended by a line feed.
-/

namespace Zsync

open Text

namespace ControlFile

/-! ### Values -/

/-- An unsigned decimal integer, with an optional plus sign. -/
def IsNumeral (v : List Char) (n : ℕ) : Prop :=
  ∃ ds, (v = ds ∨ v = '+' :: ds) ∧ ds ≠ [] ∧ (∀ c ∈ ds, c.isDigit) ∧ n = Nat.ofDigitChars 10 ds 0

/-- Three comma-separated integers in the accepted ranges. -/
def IsHashLengths (v : List Char) (hl : HashLengths) : Prop :=
  ∃ s r c, v = s ++ ',' :: (r ++ ',' :: c) ∧ IsNumeral s hl.seqMatches ∧
    IsNumeral r hl.rsumBytes ∧ IsNumeral c hl.checksumBytes ∧ hl.Valid

/-- The values of the lines with key `key`, in order. -/
def values (key : String) (fs : List (String × List Char)) : List (List Char) :=
  fs.filterMap fun f => if f.1 = key then some f.2 else none

theorem mem_values {key : String} {fs : List (String × List Char)} {v : List Char} :
    v ∈ values key fs ↔ (key, v) ∈ fs := by
  simp only [values, List.mem_filterMap, Option.ite_none_right_eq_some, Option.some.injEq]
  constructor
  · rintro ⟨f, hf, rfl, rfl⟩
    exact hf
  · intro hf
    exact ⟨_, hf, rfl, rfl⟩

theorem values_concat (key : String) (fs : List (String × List Char)) (f : String × List Char) :
    values key (fs ++ [f]) = values key fs ++ if f.1 = key then [f.2] else [] := by
  rw [values, List.filterMap_append]
  split_ifs with h <;> simp [values, h]

theorem IsNumeral.notMem {v : List Char} {n : ℕ} (h : IsNumeral v n) {c : Char}
    (hc : c.isDigit = false) (hplus : c ≠ '+') : c ∉ v := by
  obtain ⟨ds, hv, -, hds, -⟩ := h
  have hcds : c ∉ ds := fun hm => by simp [hds c hm] at hc
  rcases hv with rfl | rfl
  · exact hcds
  · simp [hcds, hplus]

theorem parseUnsigned_eq_some {max n : ℕ} {v : List Char} :
    parseUnsigned max v = some n ↔ IsNumeral v n ∧ n ≤ max := by
  constructor
  · intro h
    refine ⟨⟨if v.head? = some '+' then v.tail else v, ?_, ?_⟩, parseUnsigned_le h⟩
    · split_ifs with hv
      · exact Or.inr (List.cons_head?_tail hv).symm
      · exact Or.inl rfl
    · dsimp only [parseUnsigned] at h
      generalize (if v.head? = some '+' then v.tail else v) = ds at h ⊢
      split_ifs at h with hc
      obtain rfl := by simpa using h
      exact ⟨hc.1, by simpa using hc.2.1, rfl⟩
  · rintro ⟨⟨ds, hv, hne, hds, rfl⟩, hn⟩
    have hcut : (if v.head? = some '+' then v.tail else v) = ds := by
      rcases hv with rfl | rfl
      · rw [if_neg]
        intro hplus
        have := hds _ (List.mem_of_head? hplus)
        revert this
        decide
      · rfl
    simp only [parseUnsigned, hcut]
    rw [if_pos ⟨hne, by simpa using hds, hn⟩]

theorem IsNumeral.unique {v : List Char} {n m : ℕ} (hn : IsNumeral v n) (hm : IsNumeral v m) :
    n = m := by
  have h1 := parseUnsigned_eq_some.2 ⟨hn, Nat.le_max_left n m⟩
  have h2 := parseUnsigned_eq_some.2 ⟨hm, Nat.le_max_right n m⟩
  rw [h1] at h2
  exact Option.some.inj h2

theorem parseHashLengths_eq_some {v : List Char} {hl : HashLengths} :
    parseHashLengths v = some hl ↔ IsHashLengths v hl := by
  constructor
  · intro h
    unfold parseHashLengths at h
    split at h
    · rename_i s r c hsplit
      have hv : [','].intercalate (v.splitOn ',') = v := List.intercalate_splitOn ','
      rw [hsplit] at hv
      split at h
      · rename_i ns nr nc hs hr hc
        split_ifs at h with hrange
        obtain rfl := by simpa using h
        obtain ⟨h1, h2, h3, h4, h5, h6⟩ := hrange
        refine ⟨s, r, c, by simpa [List.intercalate] using hv.symm, (parseUnsigned_eq_some.1 hs).1,
          (parseUnsigned_eq_some.1 hr).1, (parseUnsigned_eq_some.1 hc).1, ⟨h1, h2, h3, h4, h5, h6⟩⟩
      · cases h
    · cases h
  · rintro ⟨s, r, c, rfl, hs, hr, hc, hl'⟩
    obtain ⟨h1, h2, h3, h4, h5, h6⟩ := hl'
    have hsplit : (s ++ ',' :: (r ++ ',' :: c)).splitOn ',' = [s, r, c] := by
      rw [List.splitOn_append_cons_self_of_not_mem (hs.notMem (by decide) (by decide)),
        List.splitOn_append_cons_self_of_not_mem (hr.notMem (by decide) (by decide)),
        List.splitOn_eq_singleton (hc.notMem (by decide) (by decide))]
    have hu8 : 16 ≤ maxU8 := by decide
    simp only [parseHashLengths, hsplit, parseUnsigned_eq_some.2 ⟨hs, show _ ≤ maxU8 by omega⟩,
      parseUnsigned_eq_some.2 ⟨hr, show _ ≤ maxU8 by omega⟩,
      parseUnsigned_eq_some.2 ⟨hc, show _ ≤ maxU8 by omega⟩]
    rw [if_pos ⟨h1, h2, h3, h4, h5, h6⟩]

theorem parseBlocksize_eq_some {v : List Char} {n : ℕ} :
    parseBlocksize v = some n ↔ IsNumeral v n ∧ n.isPowerOfTwo ∧ n ≤ maxBlocksize := by
  have hmax : maxBlocksize ≤ maxU64 := by decide
  constructor
  · intro h
    unfold parseBlocksize at h
    split at h
    · rename_i bs hbs
      split_ifs at h with hc
      obtain rfl := by simpa using h
      exact ⟨(parseUnsigned_eq_some.1 hbs).1, hc⟩
    · cases h
  · rintro ⟨hn, hpow, hle⟩
    simp only [parseBlocksize, parseUnsigned_eq_some.2 ⟨hn, hle.trans hmax⟩]
    rw [if_pos ⟨hpow, hle⟩]

/-! ### Fields -/

/-- Every value of every key with a check passes it. -/
structure Admissible (fs : List (String × List Char)) : Prop where
  blocksizes : ∀ v ∈ values "Blocksize" fs, ∃ n, IsNumeral v n ∧ n.isPowerOfTwo ∧ n ≤ maxBlocksize
  lengths : ∀ v ∈ values "Length" fs, ∃ n, IsNumeral v n ∧ n ≤ maxU64
  hashLengths : ∀ v ∈ values "Hash-Lengths" fs, ∃ hl, IsHashLengths v hl
  digests : ∀ v ∈ values "SHA-1" fs, (encode v).length = 40

/-- The text of the last line with key `key`. -/
def lastText (key : String) (fs : List (String × List Char)) : Option String :=
  (values key fs).getLast?.map String.ofList

/-- The local variables of `parse` after the lines with fields `fs`. -/
def Header.ofFields (fs : List (String × List Char)) : Header where
  version := (lastText "zsync" fs).getD ""
  filename := lastText "Filename" fs
  mtime := lastText "MTime" fs
  blocksize := (values "Blocksize" fs).getLast?.bind parseBlocksize
  length := (values "Length" fs).getLast?.bind (parseUnsigned maxU64)
  hashLengths :=
    ((values "Hash-Lengths" fs).getLast?.bind parseHashLengths).getD HashLengths.default
  urls := (values "URL" fs).map String.ofList
  sha1 := lastText "SHA-1" fs

/-- The value of one field passes the check of its key. -/
def Accepted (key : String) (v : List Char) : Prop :=
  (key = "Blocksize" → ∃ n, IsNumeral v n ∧ n.isPowerOfTwo ∧ n ≤ maxBlocksize) ∧
  (key = "Length" → ∃ n, IsNumeral v n ∧ n ≤ maxU64) ∧
  (key = "Hash-Lengths" → ∃ hl, IsHashLengths v hl) ∧
  (key = "SHA-1" → (encode v).length = 40)

theorem admissible_iff {fs : List (String × List Char)} :
    Admissible fs ↔ ∀ f ∈ fs, Accepted f.1 f.2 := by
  constructor
  · rintro ⟨hb, hl, hh, hd⟩ ⟨key, v⟩ hf
    exact ⟨fun h => hb v (mem_values.2 (h ▸ hf)), fun h => hl v (mem_values.2 (h ▸ hf)),
      fun h => hh v (mem_values.2 (h ▸ hf)), fun h => hd v (mem_values.2 (h ▸ hf))⟩
  · intro h
    exact ⟨fun v hv => (h _ (mem_values.1 hv)).1 rfl, fun v hv => (h _ (mem_values.1 hv)).2.1 rfl,
      fun v hv => (h _ (mem_values.1 hv)).2.2.1 rfl, fun v hv => (h _ (mem_values.1 hv)).2.2.2 rfl⟩

theorem field_ofFields {fs : List (String × List Char)} {key : String} {v : List Char}
    {h : Header} : (Header.ofFields fs).field key v = .ok h ↔
      Accepted key v ∧ h = Header.ofFields (fs ++ [(key, v)]) := by
  unfold Header.field
  split_ifs with h1 h2 h3 h4 h5 h6 h7 h8 hlen
  case pos => subst key; simp [Accepted, Header.ofFields, lastText, values_concat, eq_comm]
  case pos => subst key; simp [Accepted, Header.ofFields, lastText, values_concat, eq_comm]
  case pos => subst key; simp [Accepted, Header.ofFields, lastText, values_concat, eq_comm]
  case pos =>
    subst key
    cases hp : parseBlocksize v with
    | none =>
      have hno : ¬ ∃ n, IsNumeral v n ∧ n.isPowerOfTwo ∧ n ≤ maxBlocksize := by
        rintro ⟨n, hn⟩
        simp [parseBlocksize_eq_some.2 hn] at hp
      simp only [reduceCtorEq, Accepted, forall_const, hno, false_and]
    | some n =>
      have hyes : ∃ n, IsNumeral v n ∧ n.isPowerOfTwo ∧ n ≤ maxBlocksize :=
        ⟨n, parseBlocksize_eq_some.1 hp⟩
      simp [Accepted, hyes, Header.ofFields, lastText, values_concat, hp, eq_comm]
  case pos =>
    subst key
    cases hp : parseUnsigned maxU64 v with
    | none =>
      have hno : ¬ ∃ n, IsNumeral v n ∧ n ≤ maxU64 := by
        rintro ⟨n, hn⟩
        simp [parseUnsigned_eq_some.2 hn] at hp
      simp [Accepted, hno]
    | some n =>
      have hyes : ∃ n, IsNumeral v n ∧ n ≤ maxU64 := ⟨n, parseUnsigned_eq_some.1 hp⟩
      simp [Accepted, hyes, Header.ofFields, lastText, values_concat, hp, eq_comm]
  case pos => subst key; simp [Accepted, Header.ofFields, lastText, values_concat, eq_comm]
  case pos =>
    subst key
    cases hp : parseHashLengths v with
    | none =>
      have hno : ¬ ∃ hl, IsHashLengths v hl := by
        rintro ⟨hl, hhl⟩
        simp [parseHashLengths_eq_some.2 hhl] at hp
      simp [Accepted, hno]
    | some hl =>
      have hyes : ∃ hl, IsHashLengths v hl := ⟨hl, parseHashLengths_eq_some.1 hp⟩
      simp [Accepted, hyes, Header.ofFields, lastText, values_concat, hp, eq_comm]
  case pos => subst key; simp [Accepted, hlen]
  case neg =>
    subst key
    simp [Accepted, Header.ofFields, lastText, values_concat, not_not.1 hlen, eq_comm]
  case neg =>
    simp [Accepted, Header.ofFields, lastText, values_concat, h1, h2, h3, h4, h5, h6, h7, h8,
      eq_comm]

/-- **Header fields**: a header is accepted exactly when all its values are, and each variable
comes from the last line with its key, the URLs from all of them. -/
theorem fields_start_eq_ok {fs : List (String × List Char)} {h : Header} :
    Header.start.fields fs = .ok h ↔ Admissible fs ∧ h = Header.ofFields fs := by
  rw [admissible_iff]
  induction fs using List.reverseRecOn generalizing h with
  | nil =>
    rw [Header.fields_nil_eq_ok, eq_comm]
    simp [Header.start, Header.ofFields, lastText, values]
  | append_singleton fs f ih =>
    simp only [Header.fields_concat_eq_ok, ih, List.forall_mem_append, List.forall_mem_singleton,
      and_assoc, exists_and_left, exists_eq_left, field_ofFields]

/-! ### Meaning -/

/-- The control file `cf` that the fields `fs` and the bytes `rest` after the header describe. -/
structure Describes (fs : List (String × List Char)) (rest : Bytes) (cf : ControlFile) : Prop where
  version : cf.version = (lastText "zsync" fs).getD ""
  filename : cf.filename = lastText "Filename" fs
  mtime : cf.mtime = lastText "MTime" fs
  blocksize : ∃ v, (values "Blocksize" fs).getLast? = some v ∧ IsNumeral v cf.blocksize
  length : ∃ v, (values "Length" fs).getLast? = some v ∧ IsNumeral v cf.length
  hashLengths :
    (∃ v, (values "Hash-Lengths" fs).getLast? = some v ∧ IsHashLengths v cf.hashLengths) ∨
    (values "Hash-Lengths" fs = [] ∧ cf.hashLengths = HashLengths.default)
  urls : cf.urls = (values "URL" fs).map String.ofList
  sha1 : cf.sha1 = lastText "SHA-1" fs
  blocks : numBlocks cf.length cf.blocksize ≤ maxBlocks
  room : numBlocks cf.length cf.blocksize * cf.hashLengths.entrySize ≤ rest.length
  records : cf.blockChecksums = (List.range (numBlocks cf.length cf.blocksize)).map fun i =>
    decodeEntry cf.hashLengths
      (window rest (i * cf.hashLengths.entrySize) cf.hashLengths.entrySize)

/-- The control file that the header lines `ls` and the bytes `rest` after the header mean. -/
def Meaning (ls : List Bytes) (rest : Bytes) (cf : ControlFile) : Prop :=
  ∃ fs, Fields ls fs ∧ Admissible fs ∧ Describes fs rest cf

/-- What `parse` makes of the variables that the header loop leaves behind. -/
theorem parse_eq_ok_of_headerLoop {b rest : Bytes} {h : Header} {cf : ControlFile}
    (hloop : headerLoop Header.start b maxHeaderBytes = .ok (h, rest)) :
    parse b = .ok cf ↔ h.blocksize = some cf.blocksize ∧ h.length = some cf.length ∧
      numBlocks cf.length cf.blocksize ≤ maxBlocks ∧
      readBlockChecksums h.hashLengths (numBlocks cf.length cf.blocksize) rest =
        .ok cf.blockChecksums ∧
      cf.version = h.version ∧ cf.filename = h.filename ∧ cf.mtime = h.mtime ∧
      cf.hashLengths = h.hashLengths ∧ cf.urls = h.urls ∧ cf.sha1 = h.sha1 := by
  obtain ⟨version, filename, mtime, bs, len, hl, urls, sha1, bcs⟩ := cf
  simp only [parse, hloop]
  cases hbs : h.blocksize with
  | none => simp
  | some bs' =>
    cases hlen : h.length with
    | none => simp
    | some len' =>
      by_cases hcap : maxBlocks < numBlocks len' bs'
      · simp only [hcap, if_true, reduceCtorEq, false_iff, Option.some.injEq]
        rintro ⟨rfl, rfl, hle, -⟩
        omega
      · simp only [hcap, if_false]
        cases hr : readBlockChecksums h.hashLengths (numBlocks len' bs') rest with
        | error e =>
          simp only [reduceCtorEq, false_iff, Option.some.injEq]
          rintro ⟨rfl, rfl, -, hr', -⟩
          simp [hr] at hr'
        | ok bcs' =>
          simp only [Except.ok.injEq, mk.injEq, Option.some.injEq]
          constructor
          · rintro ⟨rfl, rfl, rfl, rfl, rfl, rfl, rfl, rfl, rfl⟩
            exact ⟨rfl, rfl, Nat.le_of_not_lt hcap, hr, rfl, rfl, rfl, rfl, rfl, rfl⟩
          · rintro ⟨rfl, rfl, -, hr', rfl, rfl, rfl, rfl, rfl, rfl⟩
            rw [hr, Except.ok.injEq] at hr'
            exact ⟨rfl, rfl, rfl, rfl, rfl, rfl, rfl, rfl, hr'⟩

theorem getLast?_bind_eq_some {α : Type*} {f : List Char → Option α} {P : List Char → α → Prop}
    (hf : ∀ v a, f v = some a ↔ P v a) {vs : List (List Char)} {a : α} :
    vs.getLast?.bind f = some a ↔ ∃ v, vs.getLast? = some v ∧ P v a := by
  rw [Option.bind_eq_some_iff]
  exact exists_congr fun v => and_congr_right fun _ => hf v a

theorem describes_iff {fs : List (String × List Char)} (hfs : Admissible fs) {rest : Bytes}
    {cf : ControlFile} :
    Describes fs rest cf ↔ (Header.ofFields fs).blocksize = some cf.blocksize ∧
      (Header.ofFields fs).length = some cf.length ∧
      numBlocks cf.length cf.blocksize ≤ maxBlocks ∧
      readBlockChecksums (Header.ofFields fs).hashLengths (numBlocks cf.length cf.blocksize) rest =
        .ok cf.blockChecksums ∧
      cf.version = (Header.ofFields fs).version ∧ cf.filename = (Header.ofFields fs).filename ∧
      cf.mtime = (Header.ofFields fs).mtime ∧ cf.hashLengths = (Header.ofFields fs).hashLengths ∧
      cf.urls = (Header.ofFields fs).urls ∧ cf.sha1 = (Header.ofFields fs).sha1 := by
  have hbs : (∃ v, (values "Blocksize" fs).getLast? = some v ∧ IsNumeral v cf.blocksize) ↔
      (Header.ofFields fs).blocksize = some cf.blocksize := by
    rw [Header.ofFields, getLast?_bind_eq_some fun _ _ => parseBlocksize_eq_some]
    refine exists_congr fun v => and_congr_right fun hv => ⟨fun hn => ?_, And.left⟩
    obtain ⟨n, hn', hpow⟩ := hfs.blocksizes v (List.mem_of_getLast? hv)
    exact hn.unique hn' ▸ ⟨hn', hpow⟩
  have hlen : (∃ v, (values "Length" fs).getLast? = some v ∧ IsNumeral v cf.length) ↔
      (Header.ofFields fs).length = some cf.length := by
    rw [Header.ofFields, getLast?_bind_eq_some fun _ _ => parseUnsigned_eq_some]
    refine exists_congr fun v => and_congr_right fun hv => ⟨fun hn => ?_, And.left⟩
    obtain ⟨n, hn', hle⟩ := hfs.lengths v (List.mem_of_getLast? hv)
    exact hn.unique hn' ▸ ⟨hn', hle⟩
  have hhl : ((∃ v, (values "Hash-Lengths" fs).getLast? = some v ∧ IsHashLengths v cf.hashLengths) ∨
      (values "Hash-Lengths" fs = [] ∧ cf.hashLengths = HashLengths.default)) ↔
      cf.hashLengths = (Header.ofFields fs).hashLengths := by
    rw [Header.ofFields]
    rcases List.eq_nil_or_concat (values "Hash-Lengths" fs) with hnil | ⟨vs, v, hvs⟩
    · simp [hnil]
    · obtain ⟨hl, hv⟩ := hfs.hashLengths v (by simp [hvs])
      simp only [hvs, List.concat_eq_append, List.getLast?_concat, Option.some.injEq,
        exists_eq_left', ← parseHashLengths_eq_some, parseHashLengths_eq_some.2 hv,
        Option.bind_some, Option.getD_some, List.append_eq_nil_iff, List.cons_ne_nil, and_false,
        false_and, or_false]
      exact eq_comm
  constructor
  · rintro ⟨h1, h2, h3, h4, h5, h6, h7, h8, h9, h10, h11⟩
    refine ⟨hbs.1 h4, hlen.1 h5, h9, ?_, h1, h2, h3, hhl.1 h6, h7, h8⟩
    rw [← hhl.1 h6, readBlockChecksums_eq_ok]
    exact ⟨h10, h11⟩
  · rintro ⟨h1, h2, h3, h4, h5, h6, h7, h8, h9, h10⟩
    rw [← h8, readBlockChecksums_eq_ok] at h4
    exact ⟨h5, h6, h7, hbs.2 h1, hlen.2 h2, hhl.2 h8, h9, h10, h3, h4.1, h4.2⟩

/-- **Parsing**: the accepted inputs are those whose header lines and records have a meaning, and
the control file is what they mean. -/
theorem parse_eq_ok {b : Bytes} {cf : ControlFile} :
    parse b = .ok cf ↔ ∃ ls rest,
      (Terminated maxHeaderBytes b ls rest ∨ Cut maxHeaderBytes b ls rest) ∧
      Meaning ls rest cf := by
  constructor
  · intro hp
    cases hloop : headerLoop Header.start b maxHeaderBytes with
    | error e => simp [parse, hloop] at hp
    | ok p =>
      obtain ⟨ls, fs, hsec, hfs, hh⟩ := headerLoop_eq_ok.1 hloop
      obtain ⟨hadm, hof⟩ := fields_start_eq_ok.1 hh
      have := (parse_eq_ok_of_headerLoop hloop).1 hp
      rw [hof] at this
      exact ⟨ls, p.2, hsec, fs, hfs, hadm, (describes_iff hadm).2 this⟩
  · rintro ⟨ls, rest, hsec, fs, hfs, hadm, hdesc⟩
    have hloop := headerLoop_eq_ok.2 ⟨ls, fs, hsec, hfs, fields_start_eq_ok.2 ⟨hadm, rfl⟩⟩
    exact (parse_eq_ok_of_headerLoop hloop).2 ((describes_iff hadm).1 hdesc)

theorem joinLines_append_ne {ls ls' : List Bytes} (hls : HeaderLines ls) (hls' : HeaderLines ls')
    {blank blank' : Bytes} (hb : IsBlank blank) (hb' : 0x0a ∉ blank') (r : Bytes) :
    joinLines ls ++ (blank ++ 0x0a :: r) ≠ joinLines ls' ++ blank' := by
  induction ls' generalizing ls with
  | nil =>
    rintro h
    simp only [joinLines, List.flatMap_nil, List.nil_append] at h
    exact hb' (h ▸ by simp)
  | cons l' ls' ih =>
    obtain ⟨hlf', hl'⟩ := hls' l' List.mem_cons_self
    rw [joinLines_cons, List.append_assoc, List.cons_append]
    cases ls with
    | nil =>
      rintro h
      obtain ⟨rfl, -⟩ := append_lf_inj hb.lf_notMem hlf' (by simpa [joinLines] using h)
      exact hl' hb
    | cons l ls =>
      rw [joinLines_cons, List.append_assoc, List.cons_append]
      rintro h
      obtain ⟨-, htail⟩ := append_lf_inj (hls l List.mem_cons_self).1 hlf' h
      exact ih (fun m hm => hls m (List.mem_cons_of_mem _ hm))
        (fun m hm => hls' m (List.mem_cons_of_mem _ hm)) htail

/-- A header section is not both ended by a blank line and cut in a blank piece. -/
theorem not_cut_of_terminated {cap : ℕ} {b rest rest' : Bytes} {ls ls' : List Bytes}
    (ht : Terminated cap b ls rest) : ¬ Cut cap b ls' rest' := by
  rintro ⟨hls', blank', hblank', -, htake, -⟩
  obtain ⟨hls, blank, hblank, hcap, rfl⟩ := ht
  obtain ⟨n, rfl⟩ := Nat.exists_eq_add_of_lt hcap
  rw [show (joinLines ls).length + blank.length + n + 1 = (joinLines ls).length +
    (blank.length + (n + 1)) by omega, List.take_length_add_append, List.take_length_add_append,
    List.take_succ_cons] at htake
  exact joinLines_append_ne hls hls' hblank hblank'.lf_notMem _ htake

/-- **The format**: `parse` accepts exactly the inputs with a blank line, ended by a line feed,
after accepted header lines, and gives what they mean, unless the header is cut in a blank piece
that no line feed ends. -/
theorem parse_accepts_iff (b : Bytes) :
    (∀ cf, parse b = .ok cf ↔
      ∃ ls rest, Terminated maxHeaderBytes b ls rest ∧ Meaning ls rest cf) ↔
    ¬ ∃ ls rest cf, Cut maxHeaderBytes b ls rest ∧ Meaning ls rest cf := by
  constructor
  · rintro h ⟨ls, rest, cf, hcut, hm⟩
    obtain ⟨ls', rest', hterm, -⟩ := (h cf).1 (parse_eq_ok.2 ⟨ls, rest, Or.inr hcut, hm⟩)
    exact not_cut_of_terminated hterm hcut
  · intro h cf
    rw [parse_eq_ok]
    constructor
    · rintro ⟨ls, rest, ht | hc, hm⟩
      · exact ⟨ls, rest, ht, hm⟩
      · exact absurd ⟨ls, rest, cf, hc, hm⟩ h
    · rintro ⟨ls, rest, ht, hm⟩
      exact ⟨ls, rest, Or.inl ht, hm⟩

/-- A header whose blank line is cut off by the end of the input. -/
def cutHeader : Bytes := encode "Blocksize: 2\nLength: 0\n ".toList

/-- Such a header is accepted, though no blank line ends it. -/
theorem parse_cutHeader :
    parse cutHeader = .ok ⟨"", none, none, 2, 0, HashLengths.default, [], none, []⟩ ∧
      ¬ ∃ ls rest, Terminated maxHeaderBytes cutHeader ls rest := by
  refine ⟨by decide +kernel, ?_⟩
  rintro ⟨ls, rest, ht⟩
  have hcut : Cut maxHeaderBytes cutHeader
      [encode "Blocksize: 2".toList, encode "Length: 0".toList] [] :=
    ⟨by decide, [0x20], by decide, by decide, by decide, by decide⟩
  exact not_cut_of_terminated ht hcut

end ControlFile

end Zsync
