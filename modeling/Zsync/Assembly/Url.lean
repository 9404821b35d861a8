import Zsync.Assembly.Download

/-!
# URLs of a control file

What the URL that a control file names means next to the URL of the control file itself.

* `ControlUrl` : the URL of a control file in its parts;
* `ControlUrl.Means` : the URL that a value of the control file means;
* `extractBaseUrl_text`, `resolveUrl_of_contains` : the base URL, and when it is not used;
* `resolveUrl_eq_iff` : exactly when the meaning is what the assembly resolves the value to.
-/

namespace Zsync

/-! ### Meaning -/

/-- A scheme: a letter, then letters, digits, `+`, `-` and `.`. -/
structure IsScheme (cs : List Char) : Prop where
  ne_nil : cs ≠ []
  letter : ∀ c ∈ cs.head?, c.isAlpha
  chars : ∀ c ∈ cs, c.isAlphanum ∨ c ∈ ['+', '-', '.']

/-- A value that starts with a scheme and `://`. -/
def HasScheme (r : List Char) : Prop := ∃ scheme, IsScheme scheme ∧ scheme ++ [':', '/', '/'] <+: r

/-- The URL of a control file. -/
structure ControlUrl where
  scheme : List Char
  authority : List Char
  /-- Empty, or a path from the root. -/
  path : List Char
  /-- The query and the fragment. -/
  suffix : List Char
  scheme_ok : IsScheme scheme
  authority_ok : ∀ c ∈ authority, c ∉ ['/', '?', '#']
  path_ok : ∀ c ∈ path, c ∉ ['?', '#']
  path_head : ∀ c ∈ path.head?, c = '/'
  suffix_head : ∀ c ∈ suffix.head?, c ∈ ['?', '#']

namespace ControlUrl

variable (u : ControlUrl)

/-- `scheme://`. -/
def root : List Char := u.scheme ++ [':', '/', '/']

/-- `scheme://authority`. -/
def origin : List Char := u.root ++ u.authority

/-- The URL as it is written. -/
def text : String := String.ofList (u.origin ++ u.path ++ u.suffix)

/-- The path up to and with its last slash. -/
def directory : List Char := if u.path = [] then ['/'] else upToSlash u.path

/-- The URL that a value of the control file means: the value itself when it has a scheme, a path
of the same origin when it starts with a single slash, and else a path next to the control file,
possibly with a query or a fragment of any content. -/
inductive Means : List Char → List Char → Prop
  | absolute {r : List Char} : HasScheme r → Means r r
  | rooted {r : List Char} : r.head? ≠ some '/' → Means ('/' :: r) (u.origin ++ '/' :: r)
  | relative {c : Char} {r : List Char} : ¬ HasScheme (c :: r) → c ∉ ['/', '?', '#'] →
      Means (c :: r) (u.origin ++ u.directory ++ c :: r)

end ControlUrl

/-! ### Cutting -/

theorem upToSlash_append {cs : List Char} (h : '/' ∈ cs) (ds : List Char) :
    upToSlash (ds ++ cs) = ds ++ upToSlash cs := by
  induction cs using List.reverseRecOn with
  | nil => cases h
  | append_singleton cs c ih =>
    by_cases hc : c = '/'
    · simp [upToSlash, hc, ← List.append_assoc]
    · have hcs : '/' ∈ cs := by simpa [Ne.symm hc] using h
      have hdrop : ∀ es, upToSlash (es ++ [c]) = upToSlash es := fun es =>
        List.rdropWhile_concat_pos _ _ _ (by simpa using hc)
      rw [← List.append_assoc, hdrop, hdrop, ih hcs]

theorem upToSlash_concat (cs : List Char) {ds : List Char} (h : '/' ∉ ds) :
    upToSlash (cs ++ '/' :: ds) = cs ++ ['/'] := by
  have hslash : upToSlash ('/' :: ds) = ['/'] := by
    induction ds using List.reverseRecOn with
    | nil => rfl
    | append_singleton ds d ih =>
      simp only [List.mem_append, List.mem_singleton, not_or] at h
      have hdrop : upToSlash ('/' :: ds ++ [d]) = upToSlash ('/' :: ds) :=
        List.rdropWhile_concat_pos _ _ _ (by simpa using Ne.symm h.2)
      rw [← List.cons_append, hdrop, ih h.1]
  rw [upToSlash_append List.mem_cons_self, hslash]

theorem splitScheme_cons (c : Char) (cs : List Char) : splitScheme (c :: cs) =
    if [':', '/', '/'] <+: c :: cs then some ([':', '/', '/'], cs.drop 2)
    else (splitScheme cs).map fun p => (c :: p.1, p.2) := by
  rw [splitScheme]
  rfl

/-- A text has a scheme cut off exactly when it has `://` somewhere. -/
theorem isSome_splitScheme (cs : List Char) :
    (splitScheme cs).isSome ↔ [':', '/', '/'] <:+: cs := by
  induction cs with
  | nil => simp [splitScheme]
  | cons c cs ih =>
    rw [splitScheme_cons, List.infix_cons_iff]
    split_ifs with h
    · exact iff_of_true rfl (Or.inl h)
    · simp only [Option.isSome_map, ih, h, false_or]

theorem splitScheme_append {cs : List Char} (h : ':' ∉ cs) (ds : List Char) :
    splitScheme (cs ++ [':', '/', '/'] ++ ds) = some (cs ++ [':', '/', '/'], ds) := by
  induction cs with
  | nil => simp [splitScheme_cons]
  | cons c cs ih =>
    simp only [List.mem_cons, not_or] at h
    have hnot : ¬ [':', '/', '/'] <+: c :: (cs ++ [':', '/', '/'] ++ ds) := by
      intro hp
      exact h.1 (List.cons_prefix_cons.1 hp).1
    rw [List.cons_append, List.cons_append, splitScheme_cons, if_neg hnot, ih h.2]
    rfl

theorem IsScheme.notMem {cs : List Char} (h : IsScheme cs) {c : Char}
    (hc : c.isAlphanum = false) (hc' : c ∉ ['+', '-', '.']) : c ∉ cs := by
  intro hmem
  rcases h.chars c hmem with ha | ha
  · simp [hc] at ha
  · exact hc' ha

theorem HasScheme.contains {r : List Char} (h : HasScheme r) : [':', '/', '/'] <:+: r := by
  obtain ⟨scheme, -, t, rfl⟩ := h
  exact ⟨scheme, t, rfl⟩

theorem not_hasScheme_slash (r : List Char) : ¬ HasScheme ('/' :: r) := by
  rintro ⟨scheme, hs, ht⟩
  cases scheme with
  | nil => exact hs.ne_nil rfl
  | cons c cs =>
    obtain rfl := (List.cons_prefix_cons.1 ht).1
    exact absurd (hs.letter _ rfl) (by decide)

/-! ### The base URL -/

namespace ControlUrl

variable (u : ControlUrl)

theorem takeWhile_text : u.text.toList.takeWhile (fun c => c ≠ '?' ∧ c ≠ '#') =
    u.origin ++ u.path := by
  have hkeep : ∀ c ∈ u.origin ++ u.path, decide (c ≠ '?' ∧ c ≠ '#') = true := by
    intro c hc
    have h1 : '?' ∉ u.scheme := u.scheme_ok.notMem (by decide) (by decide)
    have h2 : '#' ∉ u.scheme := u.scheme_ok.notMem (by decide) (by decide)
    simp only [origin, root, List.mem_append] at hc
    rcases hc with ((hc | hc) | hc) | hc
    · simpa using ⟨fun h => h1 (h ▸ hc), fun h => h2 (h ▸ hc)⟩
    · fin_cases hc <;> rfl
    · have := u.authority_ok c hc
      simp only [List.mem_cons, List.not_mem_nil, or_false, not_or] at this
      simpa using this.2
    · simpa using u.path_ok c hc
  rw [text, String.toList_ofList, List.takeWhile_append_of_pos hkeep]
  cases hsuffix : u.suffix with
  | nil => simp
  | cons c cs =>
    have hc := u.suffix_head c (by rw [hsuffix]; rfl)
    rw [List.takeWhile_cons_of_neg, List.append_nil]
    simp only [List.mem_cons, List.not_mem_nil, or_false] at hc
    simpa using fun hne => hc.resolve_left hne

/-- The base URL is the directory of the control file, but where the path is empty it is the
scheme alone. -/
theorem extractBaseUrl_text : extractBaseUrl u.text =
    String.ofList (if u.path = [] then u.root else u.origin ++ u.directory) := by
  rw [extractBaseUrl, takeWhile_text]
  congr 1
  have hauthority : '/' ∉ u.authority := fun h => by simpa using u.authority_ok _ h
  cases hpath : u.path with
  | nil =>
    rw [if_pos rfl, List.append_nil]
    have hroot : u.origin = (u.scheme ++ [':', '/']) ++ '/' :: u.authority := by
      simp [origin, root]
    rw [hroot, upToSlash_concat _ hauthority]
    simp [root]
  | cons c cs =>
    obtain rfl := u.path_head c (by rw [hpath]; rfl)
    rw [if_neg (List.cons_ne_nil _ _), upToSlash_append List.mem_cons_self, directory, hpath,
      if_neg (List.cons_ne_nil _ _)]

/-! ### Resolving -/

variable {u} {base : String} {r : List Char}

theorem splitScheme_root (cs : List Char) : splitScheme (u.root ++ cs) = some (u.root, cs) := by
  refine splitScheme_append ?_ cs
  exact u.scheme_ok.notMem (by decide) (by decide)

end ControlUrl

variable {u : ControlUrl} {base : String} {r s : List Char}

theorem resolveUrl_of_contains (h : [':', '/', '/'] <:+: r) :
    resolveUrl base (String.ofList r) = String.ofList r := by
  rw [resolveUrl, String.toList_ofList, if_pos ((isSome_splitScheme r).2 h)]

theorem resolveUrl_rooted (h : ¬ [':', '/', '/'] <:+: '/' :: r) (cs : List Char) :
    resolveUrl (String.ofList (u.root ++ cs)) (String.ofList ('/' :: r)) =
      String.ofList (u.root ++ cs.takeWhile (· ≠ '/') ++ '/' :: r) := by
  have hslash : ['/'] <+: '/' :: r := List.prefix_append ['/'] r
  simp only [resolveUrl, String.toList_ofList, isSome_splitScheme, h, if_false, hslash, if_true,
    ControlUrl.splitScheme_root, Option.getD_some]

theorem resolveUrl_relative {c : Char} (h : ¬ [':', '/', '/'] <:+: c :: r) (hc : c ≠ '/')
    (cs : List Char) : resolveUrl (String.ofList cs) (String.ofList (c :: r)) =
      String.ofList (cs ++ c :: r) := by
  have hslash : ¬ ['/'] <+: c :: r := fun hp => hc (List.cons_prefix_cons.1 hp).1.symm
  rw [resolveUrl, String.toList_ofList, if_neg (by rwa [isSome_splitScheme]), if_neg hslash,
    String.ofList_append]

theorem ControlUrl.exists_directory (u : ControlUrl) : ∃ cs, u.directory = '/' :: cs := by
  unfold directory
  cases hpath : u.path with
  | nil => exact ⟨[], rfl⟩
  | cons c cs =>
    obtain rfl := u.path_head c (by rw [hpath]; rfl)
    rw [if_neg (List.cons_ne_nil _ _)]
    by_cases hcs : '/' ∈ cs
    · exact ⟨_, upToSlash_append hcs ['/']⟩
    · exact ⟨[], upToSlash_concat [] hcs⟩

/-- A value from the root goes behind the authority, which the base URL has only with a path. -/
theorem resolveUrl_rooted_iff (h : ¬ [':', '/', '/'] <:+: '/' :: r) :
    resolveUrl (extractBaseUrl u.text) (String.ofList ('/' :: r)) =
      String.ofList (u.origin ++ '/' :: r) ↔ u.path ≠ [] ∨ u.authority = [] := by
  rw [ControlUrl.extractBaseUrl_text]
  by_cases hpath : u.path = []
  · have hbase : u.root = u.root ++ [] := (List.append_nil _).symm
    rw [if_pos hpath, hbase, resolveUrl_rooted h, String.ofList_inj, ControlUrl.origin]
    simp [hpath]
  · obtain ⟨cs, hcs⟩ := u.exists_directory
    have hauthority : (u.authority ++ '/' :: cs).takeWhile (· ≠ '/') = u.authority := by
      rw [List.takeWhile_append_of_pos, List.takeWhile_cons_of_neg (by simp), List.append_nil]
      intro c hc
      have := u.authority_ok c hc
      simp only [List.mem_cons, not_or] at this
      simpa using this.1
    rw [if_neg hpath, hcs, ControlUrl.origin, List.append_assoc, resolveUrl_rooted h, hauthority]
    simp [hpath]

/-- A relative value goes behind the base URL, which is the directory only with a path. -/
theorem resolveUrl_relative_iff {c : Char} (h : ¬ [':', '/', '/'] <:+: c :: r) (hc : c ≠ '/') :
    resolveUrl (extractBaseUrl u.text) (String.ofList (c :: r)) =
      String.ofList (u.origin ++ u.directory ++ c :: r) ↔ u.path ≠ [] := by
  rw [ControlUrl.extractBaseUrl_text, resolveUrl_relative h hc, String.ofList_inj,
    List.append_cancel_right_eq]
  by_cases hpath : u.path = []
  · obtain ⟨cs, hcs⟩ := u.exists_directory
    simp [hpath, hcs, ControlUrl.origin]
  · simp [hpath]

theorem ne_append_self {cs : List Char} (h : cs ≠ []) (r : List Char) :
    String.ofList r ≠ String.ofList (cs ++ r) := by
  rw [ne_eq, String.ofList_inj, eq_comm, List.append_left_eq_self]
  exact h

theorem ControlUrl.origin_ne_nil (u : ControlUrl) : u.origin ≠ [] := by
  simp [origin, root]

/-- **URLs resolve against the control file's location** exactly when they have a scheme, or have
no `://` anywhere and the control file's URL has a path or, for a value from the root, neither a
path nor an authority. -/
theorem resolveUrl_eq_iff (h : u.Means r s) :
    resolveUrl (extractBaseUrl u.text) (String.ofList r) = String.ofList s ↔
      HasScheme r ∨ (¬ [':', '/', '/'] <:+: r ∧
        (u.path ≠ [] ∨ (u.authority = [] ∧ ['/'] <+: r))) := by
  cases h with
  | absolute hr => exact iff_of_true (resolveUrl_of_contains hr.contains) (Or.inl hr)
  | @rooted r hr =>
    have hs := not_hasScheme_slash r
    have hslash : ['/'] <+: '/' :: r := List.prefix_append ['/'] r
    by_cases hc : [':', '/', '/'] <:+: '/' :: r
    · -- a path with `://` further on is taken for an absolute URL
      rw [resolveUrl_of_contains hc]
      simpa [hs, hc] using ne_append_self u.origin_ne_nil ('/' :: r)
    · rw [resolveUrl_rooted_iff hc]
      simp [hs, hc, hslash]
  | @relative c r hs hne =>
    have hcne : c ≠ '/' := fun h => hne (by simp [h])
    have hslash : ¬ ['/'] <+: c :: r := fun hp => hcne (List.cons_prefix_cons.1 hp).1.symm
    by_cases hc : [':', '/', '/'] <:+: c :: r
    · -- so is a query with a URL in it
      rw [resolveUrl_of_contains hc]
      have hdir : u.origin ++ u.directory ≠ [] := by simp [u.origin_ne_nil]
      simpa [hs, hc] using ne_append_self hdir (c :: r)
    · rw [resolveUrl_relative_iff hc hcne]
      simp [hs, hc, hslash]

/-- The URL `https://h`, a path and a query. -/
def ControlUrl.sample (path : List Char) (hpath : ∀ c ∈ path, c ∉ ['?', '#'])
    (hhead : ∀ c ∈ path.head?, c = '/') : ControlUrl where
  scheme := ['h', 't', 't', 'p', 's']
  authority := ['h']
  path := path
  suffix := ['?', 'f']
  scheme_ok := ⟨by simp, by simp, by simp⟩
  authority_ok := by simp
  path_ok := hpath
  path_head := hhead
  suffix_head := by simp

theorem not_hasScheme_singleton (c : Char) : ¬ HasScheme [c] := by
  rintro ⟨scheme, -, hp⟩
  have := hp.length_le
  simp at this

/-- Next to a control file in a directory. -/
theorem resolveUrl_sample :
    resolveUrl (extractBaseUrl (ControlUrl.sample ['/', 'd', '/', 'c'] (by simp)
      (by simp)).text) "f" = "https://h/d/f" := by
  have hmeans : (ControlUrl.sample ['/', 'd', '/', 'c'] (by simp) (by simp)).Means ['f'] _ :=
    .relative (not_hasScheme_singleton 'f') (by simp)
  exact (resolveUrl_eq_iff hmeans).2 (Or.inr ⟨by decide, Or.inl (List.cons_ne_nil _ _)⟩)

/-- A control file's URL without a path loses its authority. -/
theorem resolveUrl_loses_authority :
    let u := ControlUrl.sample [] (by simp) (by simp)
    u.text = "https://h?f" ∧ u.Means ['f'] "https://h/f".toList ∧
      resolveUrl (extractBaseUrl u.text) "f" = "https://f" := by
  exact ⟨by decide, .relative (not_hasScheme_singleton 'f') (by simp), by decide⟩

end Zsync
