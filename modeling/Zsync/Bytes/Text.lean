import Mathlib

/-!
# Text over bytes

Header formats are read as bytes and understood as text.  A text is a list of Unicode scalar
values; this file has what a line-based text format needs of them, over no particular format:

* `Text.encode` and `Text.decode` : UTF-8, mutually inverse (`Text.decode_eq_some`);
* `Text.mem_encode_of_ascii` : an ASCII byte occurs in an encoding exactly when its character
  occurs in the text, so that lines can be cut before they are decoded;
* `Text.splitOnce` : the parts before and after the first separator;
* `Text.untilLf` : the bytes up to and including the first line feed;
* `Text.trimEnd` : a text without its trailing blanks;
* `Text.parseUnsigned` : unsigned decimal numerals with an optional plus sign.
-/

namespace Zsync

/-- A string of bytes. -/
abbrev Bytes := List UInt8

namespace Text

/-! ### UTF-8 -/

/-- The UTF-8 encoding of a text. -/
def encode (cs : List Char) : Bytes := cs.flatMap String.utf8EncodeChar

/-- The text that `bs` encodes, if `bs` is valid UTF-8. -/
def decode (bs : Bytes) : Option (List Char) := bs.toByteArray.utf8Decode?.map Array.toList

@[simp] theorem encode_nil : encode [] = [] := rfl

@[simp] theorem encode_append (cs ds : List Char) : encode (cs ++ ds) = encode cs ++ encode ds := by
  simp [encode]

theorem encode_cons (c : Char) (cs : List Char) :
    encode (c :: cs) = String.utf8EncodeChar c ++ encode cs := by
  simp [encode]

theorem toByteArray_encode (cs : List Char) : (encode cs).toByteArray = cs.utf8Encode := rfl

@[simp] theorem decode_encode (cs : List Char) : decode (encode cs) = some cs := by
  simp [decode, toByteArray_encode]

/-- Decoding finds exactly the text whose encoding it is given. -/
theorem decode_eq_some {bs : Bytes} {cs : List Char} : decode bs = some cs ↔ encode cs = bs := by
  constructor
  · intro h
    obtain ⟨a, ha, rfl⟩ := Option.map_eq_some_iff.1 h
    have hv := ByteArray.utf8Encode_get_utf8Decode? (b := bs.toByteArray) (h := by simp [ha])
    simp only [ha, Option.get_some, ← toByteArray_encode] at hv
    simpa using congrArg (fun b => b.data.toList) hv
  · rintro rfl; exact decode_encode cs

theorem utf8EncodeChar_ascii {c : Char} (h : c.toNat < 128) :
    String.utf8EncodeChar c = [UInt8.ofNat c.toNat] := by
  have hc : c.val.toNat ≤ 0x7f := by
    have : c.val.toNat = c.toNat := rfl
    omega
  simp only [String.utf8EncodeChar, hc, ↓reduceIte]
  rfl

theorem le_of_mem_utf8EncodeChar {c : Char} (h : ¬ c.toNat < 128) {b : UInt8}
    (hb : b ∈ String.utf8EncodeChar c) : 128 ≤ b.toNat := by
  have hc : ¬ c.val.toNat ≤ 0x7f := by
    have : c.val.toNat = c.toNat := rfl
    omega
  simp only [String.utf8EncodeChar, hc, ↓reduceIte] at hb
  split_ifs at hb <;>
    simp only [List.mem_cons, List.not_mem_nil, or_false] at hb <;>
    rcases hb with rfl | hb <;>
    (try rcases hb with rfl | hb) <;> (try rcases hb with rfl | hb) <;> (try subst hb) <;>
    simp only [UInt8.toNat_ofNat'] <;> omega

/-- An ASCII byte occurs in an encoding exactly when its character occurs in the text. -/
theorem mem_encode_of_ascii {c : Char} (h : c.toNat < 128) {cs : List Char} :
    UInt8.ofNat c.toNat ∈ encode cs ↔ c ∈ cs := by
  simp only [encode, List.mem_flatMap]
  constructor
  · rintro ⟨d, hd, hb⟩
    by_cases hd' : d.toNat < 128
    · rw [utf8EncodeChar_ascii hd', List.mem_singleton] at hb
      have hn := congrArg UInt8.toNat hb
      simp only [UInt8.toNat_ofNat'] at hn
      have hcd : c = d := Char.toNat_inj.1 (by omega)
      exact hcd ▸ hd
    · have := le_of_mem_utf8EncodeChar hd' hb
      simp only [UInt8.toNat_ofNat'] at this
      omega
  · intro hc
    exact ⟨c, hc, by simp [utf8EncodeChar_ascii h]⟩

theorem encode_singleton_ascii {c : Char} (h : c.toNat < 128) :
    encode [c] = [UInt8.ofNat c.toNat] := by
  rw [encode_cons, utf8EncodeChar_ascii h, encode_nil, List.append_nil]

theorem decode_concat_ascii {c : Char} (h : c.toNat < 128) (bs : Bytes) :
    decode (bs ++ [UInt8.ofNat c.toNat]) = (decode bs).map (· ++ [c]) := by
  refine Option.ext fun ds => ?_
  rw [decode_eq_some, Option.map_eq_some_iff]
  constructor
  · intro hd
    obtain rfl | ⟨ds, d, rfl⟩ := List.eq_nil_or_concat ds
    · simp at hd
    · rw [List.concat_eq_append] at hd ⊢
      have hmem : UInt8.ofNat c.toNat ∈ String.utf8EncodeChar d := by
        have hlast := congrArg List.getLast? hd
        rw [encode_append, encode_cons, encode_nil, List.append_nil, List.getLast?_concat,
          List.getLast?_append_of_ne_nil _ String.utf8EncodeChar_ne_nil] at hlast
        exact List.mem_of_getLast? hlast
      have hmem' : UInt8.ofNat c.toNat ∈ encode [d] := by simpa [encode_cons] using hmem
      obtain rfl : c = d := by simpa using (mem_encode_of_ascii h).1 hmem'
      rw [encode_append, encode_singleton_ascii h, List.append_cancel_right_eq] at hd
      exact ⟨ds, decode_eq_some.2 hd, rfl⟩
  · rintro ⟨cs, hcs, rfl⟩
    rw [encode_append, decode_eq_some.1 hcs, encode_singleton_ascii h]

theorem length_encode_ascii {cs : List Char} (h : ∀ c ∈ cs, c.toNat < 128) :
    (encode cs).length = cs.length := by
  induction cs with
  | nil => rfl
  | cons c cs ih =>
    rw [encode_cons, utf8EncodeChar_ascii (h c List.mem_cons_self), List.length_append,
      ih fun d hd => h d (List.mem_cons_of_mem _ hd), List.length_singleton, List.length_cons]
    omega

/-! ### Lines -/

/-- The bytes of `bs` up to and including its first line feed, or all of them. -/
def untilLf : Bytes → Bytes
  | [] => []
  | b :: bs => if b = 0x0a then [b] else b :: untilLf bs

theorem untilLf_append {l : Bytes} (h : 0x0a ∉ l) (bs : Bytes) :
    untilLf (l ++ 0x0a :: bs) = l ++ [0x0a] := by
  induction l with
  | nil => simp [untilLf]
  | cons b l ih =>
    simp only [List.mem_cons, not_or] at h
    simp [untilLf, Ne.symm h.1, ih h.2]

theorem untilLf_eq_self {l : Bytes} (h : 0x0a ∉ l) : untilLf l = l := by
  induction l with
  | nil => rfl
  | cons b l ih =>
    simp only [List.mem_cons, not_or] at h
    simp [untilLf, Ne.symm h.1, ih h.2]

/-- What `untilLf` takes is a line with its line feed, or everything when there is none. -/
theorem untilLf_spec (bs : Bytes) :
    (∃ l r, 0x0a ∉ l ∧ bs = l ++ 0x0a :: r ∧ untilLf bs = l ++ [0x0a]) ∨
      (0x0a ∉ bs ∧ untilLf bs = bs) := by
  by_cases h : (0x0a : UInt8) ∈ bs
  · obtain ⟨l, r, rfl, hl⟩ := List.eq_append_cons_of_mem h
    exact Or.inl ⟨l, r, hl, rfl, untilLf_append hl r⟩
  · exact Or.inr ⟨h, untilLf_eq_self h⟩

theorem append_lf_inj {l l' r r' : Bytes} (hl : 0x0a ∉ l) (hl' : 0x0a ∉ l')
    (h : l ++ 0x0a :: r = l' ++ 0x0a :: r') : l = l' ∧ r = r' := by
  have hline := congrArg untilLf h
  rw [untilLf_append hl, untilLf_append hl', List.append_cancel_right_eq] at hline
  subst hline
  exact ⟨rfl, by simpa using h⟩

/-! ### Cutting texts -/

/-- `cs` without its trailing characters in `blanks`. -/
def trimEnd (blanks : List Char) (cs : List Char) : List Char := cs.rdropWhile (· ∈ blanks)

/-- `cs` without its leading blanks. -/
def trimStart (blank : Char) (cs : List Char) : List Char := cs.dropWhile (· = blank)

theorem trimEnd_eq_nil {blanks cs : List Char} : trimEnd blanks cs = [] ↔ ∀ c ∈ cs, c ∈ blanks := by
  simp [trimEnd, List.rdropWhile_eq_nil_iff]

theorem trimEnd_append_of_mem {blanks : List Char} {c : Char} (h : c ∈ blanks) (cs : List Char) :
    trimEnd blanks (cs ++ [c]) = trimEnd blanks cs :=
  List.rdropWhile_concat_pos _ _ _ (by simpa using h)

theorem trimEnd_eq_self {blanks cs : List Char} (h : ∀ c ∈ cs.getLast?, c ∉ blanks) :
    trimEnd blanks cs = cs := by
  rw [trimEnd, List.rdropWhile_eq_self_iff]
  intro hne
  simpa using h _ (List.getLast?_eq_some_getLast hne)

theorem trimEnd_append (blanks cs : List Char) :
    ∃ ds, (∀ d ∈ ds, d ∈ blanks) ∧ cs = trimEnd blanks cs ++ ds := by
  refine ⟨cs.rtakeWhile (· ∈ blanks), fun d hd => ?_, ?_⟩
  · simpa using List.mem_rtakeWhile_imp hd
  · exact (List.rdropWhile_append_rtakeWhile (p := (· ∈ blanks)) (l := cs)).symm

theorem getLast?_trimEnd {blanks cs : List Char} :
    ∀ c ∈ (trimEnd blanks cs).getLast?, c ∉ blanks := by
  intro c hc
  have hne : trimEnd blanks cs ≠ [] := by
    rintro h
    simp [h] at hc
  have := List.rdropWhile_last_not (· ∈ blanks) cs hne
  rw [Option.mem_def, List.getLast?_eq_some_getLast hne, Option.some.injEq] at hc
  subst hc
  simpa [trimEnd] using this

/-- The parts of a text before and after its first `sep`. -/
def splitOnce (sep : Char) : List Char → Option (List Char × List Char)
  | [] => none
  | c :: cs => if c = sep then some ([], cs) else (splitOnce sep cs).map fun p => (c :: p.1, p.2)

theorem splitOnce_append {sep : Char} {k : List Char} (h : sep ∉ k) (v : List Char) :
    splitOnce sep (k ++ sep :: v) = some (k, v) := by
  induction k with
  | nil => simp [splitOnce]
  | cons c k ih =>
    simp only [List.mem_cons, not_or] at h
    simp [splitOnce, Ne.symm h.1, ih h.2]

theorem splitOnce_eq_some {sep : Char} {cs k v : List Char} (h : splitOnce sep cs = some (k, v)) :
    sep ∉ k ∧ cs = k ++ sep :: v := by
  induction cs generalizing k with
  | nil => simp [splitOnce] at h
  | cons c cs ih =>
    rw [splitOnce] at h
    split_ifs at h with hc
    · obtain ⟨rfl, rfl⟩ := by simpa using h
      exact ⟨by simp, by simp [hc]⟩
    · obtain ⟨⟨k', v'⟩, hp, heq⟩ := Option.map_eq_some_iff.1 h
      obtain ⟨rfl, rfl⟩ := by simpa using heq
      obtain ⟨hk, rfl⟩ := ih hp
      exact ⟨by simp [hk, Ne.symm hc], rfl⟩

/-! ### Numerals -/

/-- The value of an unsigned decimal numeral that is at most `max`: an optional plus sign and at
least one digit. -/
def parseUnsigned (max : ℕ) (cs : List Char) : Option ℕ :=
  let ds := if cs.head? = some '+' then cs.tail else cs
  if ds ≠ [] ∧ ds.all Char.isDigit ∧ Nat.ofDigitChars 10 ds 0 ≤ max then
    some (Nat.ofDigitChars 10 ds 0)
  else none

theorem isDigit_of_mem_toDigits {n : ℕ} {c : Char} (h : c ∈ Nat.toDigits 10 n) : c.isDigit :=
  Nat.isDigit_of_mem_toDigits (by decide) (by decide) h

theorem not_mem_toDigits {n : ℕ} {c : Char} (h : c.isDigit = false) : c ∉ Nat.toDigits 10 n :=
  fun hc => by simp [isDigit_of_mem_toDigits hc] at h

theorem parseUnsigned_toDigits {n max : ℕ} (h : n ≤ max) :
    parseUnsigned max (Nat.toDigits 10 n) = some n := by
  have hplus : (Nat.toDigits 10 n).head? ≠ some '+' := fun hc =>
    not_mem_toDigits (by decide) (List.mem_of_head? hc)
  have hall : (Nat.toDigits 10 n).all Char.isDigit = true :=
    List.all_eq_true.2 fun _ hc => isDigit_of_mem_toDigits hc
  simp [parseUnsigned, hplus, hall, h, Nat.toDigits_ne_nil]

theorem parseUnsigned_le {n max : ℕ} {cs : List Char} (h : parseUnsigned max cs = some n) :
    n ≤ max := by
  dsimp only [parseUnsigned] at h
  generalize (if cs.head? = some '+' then cs.tail else cs) = ds at h
  split_ifs at h with hc
  obtain rfl := by simpa using h
  exact hc.2.2

end Text

end Zsync
