import Zsync.Control.Basic

/-!
# Header lines

What the header loop makes of one line, and of a whole header section.

* `ControlFile.IsBlank`, `ControlFile.IsField` : the two shapes of an accepted line, stated over
  the bytes of the line;
* `ControlFile.line_of_isBlank`, `ControlFile.line_of_isField`, `ControlFile.isBlank_or_isField` :
  the loop takes exactly these lines, with or without their line feed;
* `ControlFile.headerLoop_eq_ok` : the header sections the loop accepts.  A section is ended by a
  blank line (`Terminated`), or by a blank rest of the input or of the bytes under the cap that
  no line feed ends (`Cut`).
-/

namespace Zsync

open Text

namespace ControlFile

/-! ### Blank lines and fields -/

/-- A line that holds only spaces and carriage returns. -/
def IsBlank (l : Bytes) : Prop := ∀ b ∈ l, b = 0x20 ∨ b = 0x0d

instance : DecidablePred IsBlank := fun l => List.decidableBAll _ l

/-- A line, without its line feed, that gives field `key` the value `value`: the key goes up to
the first colon, and the value is what follows without the spaces before it and the spaces and
carriage returns after it. -/
def IsField (l : Bytes) (key value : List Char) : Prop :=
  ∃ before after, l = encode (key ++ ':' :: (before ++ value ++ after)) ∧ ':' ∉ key ∧
    (∀ c ∈ before, c = ' ') ∧ (∀ c ∈ after, c ∈ lineBlanks) ∧
    value.head? ≠ some ' ' ∧ ∀ c ∈ value.getLast?, c ∉ lineBlanks

theorem isBlank_encode {cs : List Char} (h : '\n' ∉ cs) :
    IsBlank (encode cs) ↔ ∀ c ∈ cs, c ∈ lineBlanks := by
  constructor
  · intro hb c hc
    by_cases ha : c.toNat < 128
    · have hm := (mem_encode_of_ascii ha).2 hc
      have hn : c.toNat = 32 ∨ c.toNat = 13 := by
        rcases hb _ hm with h | h <;> have := congrArg UInt8.toNat h <;>
          simp only [UInt8.toNat_ofNat', UInt8.reduceToNat] at this <;> omega
      rcases hn with h | h
      · have : c = ' ' := Char.toNat_inj.1 h
        simp [this, lineBlanks]
      · have : c = '\r' := Char.toNat_inj.1 h
        simp [this, lineBlanks]
    · obtain ⟨b, hmem⟩ := List.exists_mem_of_ne_nil _ (String.utf8EncodeChar_ne_nil (c := c))
      have hle := le_of_mem_utf8EncodeChar ha hmem
      rcases hb b (List.mem_flatMap.2 ⟨c, hc, hmem⟩) with rfl | rfl <;> simp at hle
  · intro hc b hb
    obtain ⟨c, hmem, hbc⟩ := List.mem_flatMap.1 hb
    have hcb := hc c hmem
    simp only [lineBlanks, List.mem_cons, List.not_mem_nil, or_false] at hcb
    rcases hcb with rfl | rfl | rfl
    · exact absurd hmem h
    · right; simpa [utf8EncodeChar_ascii] using hbc
    · left; simpa [utf8EncodeChar_ascii] using hbc

theorem IsField.not_isBlank {l : Bytes} {key value : List Char} (h : IsField l key value) :
    ¬ IsBlank l := by
  obtain ⟨before, after, rfl, -⟩ := h
  intro hb
  have hcolon : UInt8.ofNat ':'.toNat ∈ encode (key ++ ':' :: (before ++ value ++ after)) :=
    (mem_encode_of_ascii (by decide)).2 (by simp)
  rcases hb _ hcolon with h | h <;> revert h <;> decide

theorem trimEnd_lf (cs : List Char) : trimEnd lineBlanks (cs ++ ['\n']) = trimEnd lineBlanks cs :=
  trimEnd_append_of_mem (by decide) cs

theorem trimEnd_append_blanks {ds : List Char} (h : ∀ d ∈ ds, d ∈ lineBlanks) (cs : List Char) :
    trimEnd lineBlanks (cs ++ ds) = trimEnd lineBlanks cs := by
  induction ds using List.reverseRecOn with
  | nil => simp
  | append_singleton ds d ih =>
    rw [← List.append_assoc, trimEnd_append_of_mem (h d (by simp))]
    exact ih fun e he => h e (by simp [he])

theorem trimStart_append {before cs : List Char} (h : ∀ c ∈ before, c = ' ')
    (hc : cs.head? ≠ some ' ') : trimStart ' ' (before ++ cs) = cs := by
  rw [trimStart, List.dropWhile_append_of_pos (by simpa using h)]
  cases cs with
  | nil => rfl
  | cons c cs => exact List.dropWhile_cons_of_neg (by simpa using hc)

/-- The key and the value that the loop finds in a field line are those of the line. -/
theorem keyValue_trimEnd {key value before after : List Char} (hkey : ':' ∉ key)
    (hbefore : ∀ c ∈ before, c = ' ') (hafter : ∀ c ∈ after, c ∈ lineBlanks)
    (hhead : value.head? ≠ some ' ') (hlast : ∀ c ∈ value.getLast?, c ∉ lineBlanks) :
    keyValue (trimEnd lineBlanks (key ++ ':' :: (before ++ value ++ after))) =
      some (String.ofList key, value) := by
  have hcut : ∃ tail, trimEnd lineBlanks (key ++ ':' :: (before ++ value ++ after)) =
      key ++ ':' :: tail ∧ trimStart ' ' tail = value := by
    cases value with
    | nil =>
      refine ⟨[], ?_, rfl⟩
      have happ : key ++ ':' :: (before ++ [] ++ after) = key ++ [':'] ++ (before ++ after) := by
        simp
      rw [happ, trimEnd_append_blanks, trimEnd_eq_self (by simp [lineBlanks])]
      intro d hd
      rcases List.mem_append.1 hd with hd | hd
      · exact hbefore d hd ▸ by decide
      · exact hafter d hd
    | cons c cs =>
      refine ⟨before ++ c :: cs, ?_, trimStart_append hbefore hhead⟩
      have happ : key ++ ':' :: (before ++ c :: cs ++ after) =
          key ++ ':' :: (before ++ c :: cs) ++ after := by simp
      rw [happ, trimEnd_append_blanks hafter, trimEnd_eq_self]
      simpa [List.getLast?_append, List.getLast?_cons] using hlast
  obtain ⟨tail, htrim, hstart⟩ := hcut
  simp only [keyValue, htrim, splitOnce_append hkey, Option.map_some, hstart]

/-! ### One line -/

theorem line_lf (h : Header) (l : Bytes) : h.line (l ++ [0x0a]) = h.line l := by
  have hd : decode (l ++ [0x0a]) = (decode l).map (· ++ ['\n']) :=
    decode_concat_ascii (c := '\n') (by decide) l
  unfold Header.line
  rw [hd]
  cases decode l with
  | none => rfl
  | some cs => simp only [Option.map_some, trimEnd_lf]

theorem IsBlank.exists_encode {l : Bytes} (hb : IsBlank l) :
    ∃ cs, l = encode cs ∧ ∀ c ∈ cs, c ∈ lineBlanks := by
  induction l with
  | nil => exact ⟨[], rfl, by simp⟩
  | cons b l ih =>
    obtain ⟨cs, rfl, hcs⟩ := ih fun c hc => hb c (List.mem_cons_of_mem _ hc)
    rcases hb b List.mem_cons_self with rfl | rfl
    · exact ⟨' ' :: cs, rfl, by simpa [lineBlanks] using hcs⟩
    · exact ⟨'\r' :: cs, rfl, by simpa [lineBlanks] using hcs⟩

theorem line_of_isBlank {l : Bytes} (hb : IsBlank l) (h : Header) : h.line l = .ok none := by
  obtain ⟨cs, rfl, hcs⟩ := hb.exists_encode
  simp only [Header.line, decode_encode, trimEnd_eq_nil.2 hcs, if_true]

theorem line_of_isField {l : Bytes} {key value : List Char} (hf : IsField l key value)
    (h : Header) : h.line l = (h.field (String.ofList key) value).map some := by
  obtain ⟨before, after, rfl, hkey, hbefore, hafter, hhead, hlast⟩ := hf
  have hkv := keyValue_trimEnd hkey hbefore hafter hhead hlast
  have hne : trimEnd lineBlanks (key ++ ':' :: (before ++ value ++ after)) ≠ [] := by
    intro hnil
    rw [hnil] at hkv
    simp [keyValue, splitOnce] at hkv
  simp only [Header.line, decode_encode, hne, if_false, hkv]

/-- What the loop accepts is a blank line or a field line. -/
theorem isBlank_or_isField {l : Bytes} (hlf : 0x0a ∉ l) {h : Header} {o : Option Header}
    (ho : h.line l = .ok o) : IsBlank l ∨ ∃ key value, IsField l key value := by
  unfold Header.line at ho
  split at ho
  · cases ho
  · rename_i cs hcs
    obtain rfl := decode_eq_some.1 hcs
    have hlf' : '\n' ∉ cs := fun hc => hlf ((mem_encode_of_ascii (c := '\n') (by decide)).2 hc)
    by_cases hnil : trimEnd lineBlanks cs = []
    · exact Or.inl ((isBlank_encode hlf').2 (trimEnd_eq_nil.1 hnil))
    · simp only [hnil, if_false] at ho
      cases hs : splitOnce ':' (trimEnd lineBlanks cs) with
      | none => simp [keyValue, hs] at ho
      | some p =>
        obtain ⟨after, hafter, hcs'⟩ := trimEnd_append lineBlanks cs
        obtain ⟨hkey, htrim⟩ := splitOnce_eq_some hs
        refine Or.inr ⟨p.1, trimStart ' ' p.2, p.2.takeWhile (· = ' '), after, ?_, hkey, ?_, hafter,
          ?_, ?_⟩
        · rw [trimStart, List.takeWhile_append_dropWhile, ← List.cons_append, ← List.append_assoc,
            ← htrim, ← hcs']
        · intro c hc
          simpa using List.mem_takeWhile_imp hc
        · rw [trimStart]
          have := List.head?_dropWhile_not (· = ' ') p.2
          intro hsp
          simp [hsp] at this
        · intro c hc
          have hp : p.2.getLast? = some c := by
            rw [← List.takeWhile_append_dropWhile (p := (· = ' ')) (l := p.2), List.getLast?_append]
            rw [trimStart, Option.mem_def] at hc
            rw [hc, Option.some_or]
          refine getLast?_trimEnd c (?_ : (trimEnd lineBlanks cs).getLast? = some c)
          simp [htrim, List.getLast?_append, List.getLast?_cons, hp]

/-! ### Header sections -/

/-- Lines, each ended by a line feed. -/
def joinLines (ls : List Bytes) : Bytes := ls.flatMap (· ++ [0x0a])

/-- The lines before a blank one. -/
def HeaderLines (ls : List Bytes) : Prop := ∀ l ∈ ls, 0x0a ∉ l ∧ ¬ IsBlank l

instance : DecidablePred HeaderLines := fun ls => List.decidableBAll _ ls

/-- `ls` are the lines of `b` before its first blank line, which ends within `cap` bytes and is
followed by `rest`. -/
def Terminated (cap : ℕ) (b : Bytes) (ls : List Bytes) (rest : Bytes) : Prop :=
  HeaderLines ls ∧ ∃ blank, IsBlank blank ∧ (joinLines ls).length + blank.length < cap ∧
    b = joinLines ls ++ (blank ++ 0x0a :: rest)

/-- `ls` are the lines of the first `cap` bytes of `b`, and what follows them up to the cap or to
the end of `b` is not empty, has no line feed and is blank.  `rest` is what follows the cap. -/
def Cut (cap : ℕ) (b : Bytes) (ls : List Bytes) (rest : Bytes) : Prop :=
  HeaderLines ls ∧ ∃ blank, IsBlank blank ∧ blank ≠ [] ∧ b.take cap = joinLines ls ++ blank ∧
    rest = b.drop cap

/-- Line `i` gives field `i`. -/
def Fields (ls : List Bytes) (fs : List (String × List Char)) : Prop :=
  List.Forall₂ (fun l f => IsField l f.1.toList f.2) ls fs

/-- All fields of a header section, one after another. -/
def Header.fields (h : Header) (fs : List (String × List Char)) : Except ParseError Header :=
  fs.foldlM (fun h f => h.field f.1 f.2) h

theorem joinLines_cons (l : Bytes) (ls : List Bytes) :
    joinLines (l :: ls) = l ++ 0x0a :: joinLines ls := by
  simp [joinLines]

theorem IsBlank.lf_notMem {l : Bytes} (h : IsBlank l) : 0x0a ∉ l := fun hm => by
  rcases h _ hm with h | h <;> revert h <;> decide

theorem HeaderLines.cons {l : Bytes} {ls : List Bytes} (hlf : 0x0a ∉ l) (hl : ¬ IsBlank l)
    (h : HeaderLines ls) : HeaderLines (l :: ls) := by
  intro m hm
  rcases List.mem_cons.1 hm with rfl | hm
  · exact ⟨hlf, hl⟩
  · exact h m hm

theorem Terminated.cons {cap : ℕ} {b l rest : Bytes} {ls : List Bytes} (hlf : 0x0a ∉ l)
    (hl : ¬ IsBlank l) (h : Terminated (cap - (l.length + 1)) b ls rest) :
    Terminated cap (l ++ 0x0a :: b) (l :: ls) rest := by
  obtain ⟨hls, blank, hblank, hcap, rfl⟩ := h
  refine ⟨hls.cons hlf hl, blank, hblank, ?_, by simp [joinLines_cons]⟩
  simp only [joinLines_cons, List.length_append, List.length_cons]
  omega

theorem Cut.cons {cap : ℕ} {b l rest : Bytes} {ls : List Bytes} (hlf : 0x0a ∉ l)
    (hl : ¬ IsBlank l) (hcap : l.length < cap) (h : Cut (cap - (l.length + 1)) b ls rest) :
    Cut cap (l ++ 0x0a :: b) (l :: ls) rest := by
  obtain ⟨hls, blank, hblank, hne, htake, rfl⟩ := h
  obtain ⟨n, rfl⟩ := Nat.exists_eq_add_of_lt hcap
  rw [show l.length + n + 1 - (l.length + 1) = n by omega] at htake ⊢
  refine ⟨hls.cons hlf hl, blank, hblank, hne, ?_, ?_⟩
  · rw [Nat.add_assoc, List.take_length_add_append, List.take_succ_cons, htake, joinLines_cons]
    simp
  · rw [Nat.add_assoc, List.drop_length_add_append, List.drop_succ_cons]

theorem Header.fields_nil_eq_ok {h h' : Header} : h.fields [] = .ok h' ↔ h = h' := by
  simp [Header.fields, pure, Except.pure]

theorem Header.fields_cons_eq_ok {h h' : Header} {f : String × List Char}
    {fs : List (String × List Char)} :
    h.fields (f :: fs) = .ok h' ↔ ∃ h₁, h.field f.1 f.2 = .ok h₁ ∧ h₁.fields fs = .ok h' := by
  rw [Header.fields, List.foldlM_cons]
  cases h.field f.1 f.2 <;> simp [Header.fields, bind, Except.bind]

theorem Header.fields_concat_eq_ok {h h' : Header} {f : String × List Char}
    {fs : List (String × List Char)} :
    h.fields (fs ++ [f]) = .ok h' ↔ ∃ h₁, h.fields fs = .ok h₁ ∧ h₁.field f.1 f.2 = .ok h' := by
  rw [Header.fields, List.foldlM_append]
  change (h.fields fs >>= _) = _ ↔ _
  cases h.fields fs with
  | error e => simp [bind, Except.bind]
  | ok h₁ =>
    simp only [List.foldlM_cons, List.foldlM_nil, bind_pure, Except.ok.injEq, exists_eq_left']
    rfl

/-! ### The loop -/

theorem headerLoop_of_untilLf {h : Header} {b line : Bytes} {limit : ℕ}
    (hline : untilLf (b.take limit) = line) (hne : line ≠ []) :
    headerLoop h b limit =
      match h.line line with
      | .error e => .error e
      | .ok none => .ok (h, b.drop line.length)
      | .ok (some h') => headerLoop h' (b.drop line.length) (limit - line.length) := by
  rcases hstep : h.line line with e | (_ | h') <;> rw [headerLoop] <;>
    simp only [hline, hne, dite_false, hstep]

theorem headerLoop_ne_ok {h : Header} {b : Bytes} {limit : ℕ} (hb : b.take limit = [])
    (p : Header × Bytes) : headerLoop h b limit ≠ .ok p := by
  rw [headerLoop]
  simp only [hb, untilLf, dite_true]
  split_ifs <;> simp

theorem headerLoop_line {h : Header} {l rest : Bytes} {limit : ℕ} (hlf : 0x0a ∉ l)
    (hlim : l.length < limit) :
    headerLoop h (l ++ 0x0a :: rest) limit =
      match h.line l with
      | .error e => .error e
      | .ok none => .ok (h, rest)
      | .ok (some h') => headerLoop h' rest (limit - (l.length + 1)) := by
  have htake : untilLf ((l ++ 0x0a :: rest).take limit) = l ++ [0x0a] := by
    obtain ⟨n, rfl⟩ := Nat.exists_eq_add_of_lt hlim
    rw [Nat.add_assoc, List.take_length_add_append, List.take_succ_cons, untilLf_append hlf]
  rw [headerLoop_of_untilLf htake (by simp), line_lf]
  simp

theorem headerLoop_joinLines {ls : List Bytes} {fs : List (String × List Char)}
    (hfs : Fields ls fs) (hls : HeaderLines ls) {h h' : Header} (hh : h.fields fs = .ok h')
    {limit : ℕ} (hlim : (joinLines ls).length ≤ limit) (tail : Bytes) :
    headerLoop h (joinLines ls ++ tail) limit =
      headerLoop h' tail (limit - (joinLines ls).length) := by
  induction hfs generalizing h limit with
  | nil =>
    obtain rfl := Header.fields_nil_eq_ok.1 hh
    rfl
  | @cons l f ls fs hf hfs ih =>
    obtain ⟨h₁, hstep, hh⟩ := Header.fields_cons_eq_ok.1 hh
    simp only [joinLines_cons, List.length_append, List.length_cons, List.append_assoc,
      List.cons_append] at hlim ⊢
    rw [headerLoop_line (hls l List.mem_cons_self).1 (by omega), line_of_isField hf]
    simp only [String.ofList_toList, hstep, Except.map]
    rw [ih (fun m hm => hls m (List.mem_cons_of_mem _ hm)) hh (by omega)]
    congr 1
    omega

theorem headerLoop_of_terminated {cap : ℕ} {b rest : Bytes} {ls : List Bytes}
    {fs : List (String × List Char)} (ht : Terminated cap b ls rest) (hfs : Fields ls fs)
    {h h' : Header} (hh : h.fields fs = .ok h') : headerLoop h b cap = .ok (h', rest) := by
  obtain ⟨hls, blank, hblank, hcap, rfl⟩ := ht
  rw [headerLoop_joinLines hfs hls hh (by omega), headerLoop_line hblank.lf_notMem (by omega),
    line_of_isBlank hblank]

theorem headerLoop_of_cut {cap : ℕ} {b rest : Bytes} {ls : List Bytes}
    {fs : List (String × List Char)} (hc : Cut cap b ls rest) (hfs : Fields ls fs)
    {h h' : Header} (hh : h.fields fs = .ok h') : headerLoop h b cap = .ok (h', rest) := by
  obtain ⟨hls, blank, hblank, hne, htake, rfl⟩ := hc
  have hlen : (joinLines ls).length + blank.length ≤ cap := by
    rw [← List.length_append, ← htake]
    exact List.length_take_le _ _
  have hb : b = joinLines ls ++ (blank ++ b.drop cap) := by
    rw [← List.append_assoc, ← htake, List.take_append_drop]
  have hline : (blank ++ b.drop cap).take (cap - (joinLines ls).length) = blank := by
    have := congrArg (List.take cap) hb
    rw [htake, List.take_append, List.take_of_length_le (by omega), List.append_cancel_left_eq]
      at this
    exact this.symm
  have huntil : untilLf ((blank ++ b.drop cap).take (cap - (joinLines ls).length)) = blank := by
    rw [hline, untilLf_eq_self hblank.lf_notMem]
  rw [hb, headerLoop_joinLines hfs hls hh (by omega), headerLoop_of_untilLf huntil hne,
    line_of_isBlank hblank, ← hb]
  simp

/-- A whole line that the loop accepts ends the header, or is a field after which the loop goes
on. -/
theorem of_headerLoop_line {h h' : Header} {l rest' rest : Bytes} {limit : ℕ} (hlf : 0x0a ∉ l)
    (hlim : l.length < limit) (hloop : headerLoop h (l ++ 0x0a :: rest') limit = .ok (h', rest)) :
    (IsBlank l ∧ h = h' ∧ rest' = rest) ∨
      ∃ key value h₁, IsField l key value ∧ h.field (String.ofList key) value = .ok h₁ ∧
        headerLoop h₁ rest' (limit - (l.length + 1)) = .ok (h', rest) := by
  rw [headerLoop_line hlf hlim] at hloop
  cases ho : h.line l with
  | error e => simp [ho] at hloop
  | ok o =>
    rcases isBlank_or_isField hlf ho with hb | ⟨key, value, hf⟩
    · rw [line_of_isBlank hb] at hloop
      exact Or.inl ⟨hb, by simpa using hloop⟩
    · rw [line_of_isField hf] at hloop
      cases hstep : h.field (String.ofList key) value with
      | error e => simp [hstep, Except.map] at hloop
      | ok h₁ =>
        simp only [hstep, Except.map] at hloop
        exact Or.inr ⟨key, value, h₁, hf, hstep, hloop⟩

/-- Where no line feed is left under the cap, the loop accepts only what is blank. -/
theorem of_headerLoop_last {h h' : Header} {b rest : Bytes} {limit : ℕ}
    (hlf : 0x0a ∉ b.take limit) (hloop : headerLoop h b limit = .ok (h', rest)) :
    IsBlank (b.take limit) ∧ b.take limit ≠ [] ∧ h = h' ∧ rest = b.drop limit := by
  have hne : b.take limit ≠ [] := fun hnil => headerLoop_ne_ok hnil _ hloop
  rw [headerLoop_of_untilLf (untilLf_eq_self hlf) hne] at hloop
  cases ho : h.line (b.take limit) with
  | error e => simp [ho] at hloop
  | ok o =>
    rcases isBlank_or_isField hlf ho with hb | ⟨key, value, hf⟩
    · rw [line_of_isBlank hb] at hloop
      obtain ⟨rfl, rfl⟩ : h = h' ∧ b.drop (b.take limit).length = rest := by simpa using hloop
      refine ⟨hb, hne, rfl, ?_⟩
      rw [List.length_take]
      rcases Nat.le_total limit b.length with hle | hle
      · rw [Nat.min_eq_left hle]
      · rw [Nat.min_eq_right hle, List.drop_length, List.drop_of_length_le hle]
    · rw [line_of_isField hf] at hloop
      cases hstep : h.field (String.ofList key) value with
      | error e => simp [hstep, Except.map] at hloop
      | ok h₁ =>
        -- a field that the cap cuts leaves nothing to read
        have hend : (b.drop (b.take limit).length).take (limit - (b.take limit).length) = [] := by
          rw [List.take_eq_nil_iff, List.drop_eq_nil_iff, List.length_take]
          omega
        simp only [hstep, Except.map] at hloop
        exact absurd hloop (headerLoop_ne_ok hend _)

theorem of_headerLoop_eq_ok {cap : ℕ} {b rest : Bytes} {h h' : Header}
    (hloop : headerLoop h b cap = .ok (h', rest)) :
    ∃ ls fs, (Terminated cap b ls rest ∨ Cut cap b ls rest) ∧ Fields ls fs ∧
      h.fields fs = .ok h' := by
  induction hn : b.length using Nat.strong_induction_on generalizing b cap h with
  | _ n ih =>
  subst hn
  rcases untilLf_spec (b.take cap) with ⟨l, r, hlf, htake, -⟩ | ⟨hlf, -⟩
  · -- one whole line, and the loop goes on after it
    obtain ⟨m, hcap⟩ := Nat.exists_eq_add_of_lt (show l.length < cap by
      have := congrArg List.length htake
      simp only [List.length_take, List.length_append, List.length_cons] at this
      omega)
    obtain ⟨b', rfl⟩ : ∃ b', b = l ++ 0x0a :: b' := by
      refine ⟨r ++ b.drop cap, ?_⟩
      conv_lhs => rw [← List.take_append_drop cap b, htake]
      simp
    rcases of_headerLoop_line hlf (by omega) hloop with
      ⟨hb, rfl, rfl⟩ | ⟨key, value, h₁, hf, hstep, hloop⟩
    · refine ⟨[], [], Or.inl ⟨by simp [HeaderLines], l, hb, ?_, rfl⟩, List.Forall₂.nil,
        Header.fields_nil_eq_ok.2 rfl⟩
      simp only [joinLines, List.flatMap_nil, List.length_nil]
      omega
    · obtain ⟨ls, fs, hsec, hfs, hh⟩ := ih b'.length (by simp; omega) hloop rfl
      refine ⟨l :: ls, (String.ofList key, value) :: fs, hsec.imp ?_ ?_,
        List.Forall₂.cons (by simpa using hf) hfs, Header.fields_cons_eq_ok.2 ⟨h₁, hstep, hh⟩⟩
      · exact Terminated.cons hlf hf.not_isBlank
      · exact Cut.cons hlf hf.not_isBlank (by omega)
  · obtain ⟨hb, hne, rfl, hrest⟩ := of_headerLoop_last hlf hloop
    exact ⟨[], [], Or.inr ⟨by simp [HeaderLines], _, hb, hne, rfl, hrest⟩, List.Forall₂.nil,
      Header.fields_nil_eq_ok.2 rfl⟩

/-- **The header loop** accepts exactly the header sections whose lines are fields it accepts and
that are ended by a blank line, or cut in a blank one. -/
theorem headerLoop_eq_ok {cap : ℕ} {b rest : Bytes} {h h' : Header} :
    headerLoop h b cap = .ok (h', rest) ↔
      ∃ ls fs, (Terminated cap b ls rest ∨ Cut cap b ls rest) ∧ Fields ls fs ∧
        h.fields fs = .ok h' := by
  refine ⟨of_headerLoop_eq_ok, ?_⟩
  rintro ⟨ls, fs, ht | hc, hfs, hh⟩
  · exact headerLoop_of_terminated ht hfs hh
  · exact headerLoop_of_cut hc hfs hh

end ControlFile

end Zsync
