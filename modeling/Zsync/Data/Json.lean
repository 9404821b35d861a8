import Mathlib

/-!
# JSON texts

A reader of JSON texts as RFC 8259 has them, and what it makes of an object that is written member
by member.

* `Json.Value`, `Json.decode` : a value, and the value of a text;
* `Json.Encodes`, `Json.Reads` : a part of a text that the reader takes for a string, or a value;
* `Json.decode_object` : an object of members that are read.

A string is read to the characters it stands for; a surrogate without its partner stands for none
and is not accepted.  A number is kept as it is written.
-/

namespace Zsync

namespace Json

/-- A JSON value. -/
inductive Value where
  | null
  | bool (b : Bool)
  | number (text : List Char)
  | string (s : List Char)
  | array (values : List Value)
  | object (members : List (List Char × Value))

/-! ### Strings -/

/-- `ws`: blanks are skipped around the structural characters. -/
def skipBlanks (cs : List Char) : List Char := cs.dropWhile (· ∈ [' ', '\t', '\n', '\r'])

/-- The character that a single character after a backslash stands for. -/
def unescape (e : Char) : Option Char :=
  [('"', '"'), ('\\', '\\'), ('/', '/'), ('b', '\x08'), ('f', '\x0c'), ('n', '\n'), ('r', '\r'),
    ('t', '\t')].lookup e

/-- `HEXDIG`, in either case. -/
def hexValue (c : Char) : Option ℕ :=
  if '0' ≤ c ∧ c ≤ '9' then some (c.toNat - '0'.toNat)
  else if 'a' ≤ c ∧ c ≤ 'f' then some (c.toNat - 'a'.toNat + 10)
  else if 'A' ≤ c ∧ c ≤ 'F' then some (c.toNat - 'A'.toNat + 10)
  else none

/-- `4HEXDIG`. -/
def readHex : List Char → Option (ℕ × List Char)
  | a :: b :: c :: d :: cs => do
    let a ← hexValue a
    let b ← hexValue b
    let c ← hexValue c
    let d ← hexValue d
    some (((a * 16 + b) * 16 + c) * 16 + d, cs)
  | _ => none

/-- What follows a backslash. -/
def readEscape : List Char → Option (Char × List Char)
  | 'u' :: cs => do
    let (n, cs) ← readHex cs
    if 0xd800 ≤ n ∧ n < 0xdc00 then
      match cs with
      | '\\' :: 'u' :: cs => do
        let (k, cs) ← readHex cs
        if 0xdc00 ≤ k ∧ k < 0xe000 then
          some (Char.ofNat (0x10000 + (n - 0xd800) * 0x400 + (k - 0xdc00)), cs)
        else none
      | _ => none
    else if 0xdc00 ≤ n ∧ n < 0xe000 then none
    else some (Char.ofNat n, cs)
  | e :: cs => (unescape e).map fun c => (c, cs)
  | [] => none

/-- The characters of a string up to its closing quotation mark, at most `fuel` of them. -/
def readChars : ℕ → List Char → Option (List Char × List Char)
  | 0, _ => none
  | _ + 1, [] => none
  | fuel + 1, c :: cs =>
    if c = '"' then some ([], cs)
    else if c = '\\' then do
      let (c, cs) ← readEscape cs
      let (s, cs) ← readChars fuel cs
      some (c :: s, cs)
    else if c.toNat < 0x20 then none
    else do
      let (s, cs) ← readChars fuel cs
      some (c :: s, cs)

/-- A string after its opening quotation mark. -/
def readString (cs : List Char) : Option (List Char × List Char) := readChars cs.length cs

/-! ### Numbers -/

/-- `[ exp ]`. -/
def isExp : List Char → Bool
  | [] => true
  | e :: cs =>
    let ds := if cs.head? = some '+' ∨ cs.head? = some '-' then cs.tail else cs
    (e = 'e' ∨ e = 'E') && ds ≠ [] && ds.all Char.isDigit

/-- `[ frac ] [ exp ]`. -/
def isFracExp (cs : List Char) : Bool :=
  if cs.head? = some '.' then
    cs.tail.takeWhile Char.isDigit ≠ [] && isExp (cs.tail.dropWhile Char.isDigit)
  else isExp cs

/-- `number = [ minus ] int [ frac ] [ exp ]`, where only `0` itself starts with a zero. -/
def isNumber (cs : List Char) : Bool :=
  let cs := if cs.head? = some '-' then cs.tail else cs
  match cs with
  | [] => false
  | c :: cs => if c = '0' then isFracExp cs else c.isDigit && isFracExp (cs.dropWhile Char.isDigit)

/-- A number at the front: it goes up to the first character that no number has. -/
def readNumber (cs : List Char) : Option (List Char × List Char) :=
  let isPart := fun c : Char => c.isDigit || c ∈ ['+', '-', '.', 'e', 'E']
  if isNumber (cs.takeWhile isPart) then some (cs.takeWhile isPart, cs.dropWhile isPart) else none

/-! ### Values -/

/-- A structural character, which blanks may surround. -/
def readChar (c : Char) (cs : List Char) : Option (List Char) :=
  match skipBlanks cs with
  | d :: ds => if d = c then some ds else none
  | [] => none

/-- `false`, `null` or `true` at the front, or else a number. -/
def readLiteral (cs : List Char) : Option (Value × List Char) :=
  if ['t', 'r', 'u', 'e'] <+: cs then some (.bool true, cs.drop 4)
  else if ['f', 'a', 'l', 's', 'e'] <+: cs then some (.bool false, cs.drop 5)
  else if ['n', 'u', 'l', 'l'] <+: cs then some (.null, cs.drop 4)
  else (readNumber cs).map fun p => (.number p.1, p.2)

mutual

/-- A value at the front. -/
def readValue : ℕ → List Char → Option (Value × List Char)
  | 0, _ => none
  | _ + 1, [] => none
  | fuel + 1, c :: cs =>
    if c = '"' then (readString cs).map fun p => (.string p.1, p.2)
    else if c = '[' then
      match readChar ']' cs with
      | some cs => some (.array [], cs)
      | none => (readElements fuel cs).map fun p => (.array p.1, p.2)
    else if c = '{' then
      match readChar '}' cs with
      | some cs => some (.object [], cs)
      | none => (readMembers fuel cs).map fun p => (.object p.1, p.2)
    else readLiteral (c :: cs)

/-- The elements of an array up to its closing bracket. -/
def readElements : ℕ → List Char → Option (List Value × List Char)
  | 0, _ => none
  | fuel + 1, cs => do
    let (v, cs) ← readValue fuel (skipBlanks cs)
    match readChar ']' cs with
    | some cs => some ([v], cs)
    | none => do
      let (vs, cs) ← readElements fuel (← readChar ',' cs)
      some (v :: vs, cs)

/-- The members of an object up to its closing brace. -/
def readMembers : ℕ → List Char → Option (List (List Char × Value) × List Char)
  | 0, _ => none
  | fuel + 1, cs => do
    let (name, cs) ← readString (← readChar '"' cs)
    let (v, cs) ← readValue fuel (skipBlanks (← readChar ':' cs))
    match readChar '}' cs with
    | some cs => some ([(name, v)], cs)
    | none => do
      let (ms, cs) ← readMembers fuel (← readChar ',' cs)
      some ((name, v) :: ms, cs)

end

/-- The value of a JSON text: one value between blanks. -/
def decode (cs : List Char) : Option Value :=
  match readValue cs.length (skipBlanks cs) with
  | some (v, rest) => if skipBlanks rest = [] then some v else none
  | none => none

/-! ### Strings that are read -/

variable {t s : List Char}

/-- Before a quotation mark, `t` is read to `s`. -/
def Encodes (t s : List Char) : Prop :=
  ∀ fuel rest, t.length < fuel → readChars fuel (t ++ '"' :: rest) = some (s, rest)

theorem Encodes.nil : Encodes [] [] := by
  intro fuel rest hfuel
  obtain ⟨fuel, rfl⟩ := Nat.exists_eq_add_of_lt hfuel
  simp [readChars]

theorem Encodes.cons {c : Char} (hc : 0x20 ≤ c.toNat) (hq : c ≠ '"') (hb : c ≠ '\\')
    (h : Encodes t s) : Encodes (c :: t) (c :: s) := by
  intro fuel rest hfuel
  obtain ⟨fuel, rfl⟩ := Nat.exists_eq_add_of_lt hfuel
  have hrest := h (t.length + 1 + fuel) rest (by omega)
  rw [show (c :: t).length + fuel + 1 = (t.length + 1 + fuel) + 1 by simp, List.cons_append,
    readChars, if_neg hq, if_neg hb, if_neg (Nat.not_lt.2 hc), hrest]
  rfl

theorem Encodes.escape {p : List Char} {c : Char} (hp : ∀ cs, readEscape (p ++ cs) = some (c, cs))
    (h : Encodes t s) : Encodes ('\\' :: p ++ t) (c :: s) := by
  intro fuel rest hfuel
  obtain ⟨fuel, rfl⟩ := Nat.exists_eq_add_of_lt hfuel
  have hrest := h (p.length + t.length + 1 + fuel) rest (by omega)
  rw [show ('\\' :: p ++ t).length + fuel + 1 = (p.length + t.length + 1 + fuel) + 1 by simp,
    List.cons_append, List.cons_append, List.append_assoc, readChars, if_neg (by decide),
    if_pos rfl, hp]
  simp only [Option.bind_eq_bind, Option.bind_some, hrest]

theorem encodes_self (h : ∀ c ∈ s, 0x20 ≤ c.toNat ∧ c ≠ '"' ∧ c ≠ '\\') : Encodes s s := by
  induction s with
  | nil => exact Encodes.nil
  | cons c s ih =>
    obtain ⟨⟨hc, hq, hb⟩, hs⟩ := List.forall_mem_cons.1 h
    exact (ih hs).cons hc hq hb

theorem Encodes.readString (h : Encodes t s) (rest : List Char) :
    readString (t ++ '"' :: rest) = some (s, rest) := by
  refine h _ rest ?_
  rw [List.length_append, List.length_cons]
  omega

/-! ### Values that are read -/

theorem skipBlanks_cons {c : Char} (h : c ∉ [' ', '\t', '\n', '\r']) (cs : List Char) :
    skipBlanks (c :: cs) = c :: cs :=
  List.dropWhile_cons_of_neg (by simpa using h)

theorem readChar_cons {c d : Char} (h : d ∉ [' ', '\t', '\n', '\r']) (cs : List Char) :
    readChar c (d :: cs) = if d = c then some cs else none := by
  rw [readChar, skipBlanks_cons h]

/-- Before the end of a member, `t` is read to the value `v`. -/
structure Reads (t : List Char) (v : Value) : Prop where
  skip : ∀ rest, skipBlanks (t ++ rest) = t ++ rest
  read : ∀ fuel rest, (∀ c ∈ rest.head?, c = ',' ∨ c = '}') →
    readValue (fuel + 1) (t ++ rest) = some (v, rest)

theorem Encodes.reads (h : Encodes t s) : Reads ('"' :: t ++ ['"']) (.string s) where
  skip rest := skipBlanks_cons (by decide) _
  read fuel rest _ := by
    have happ : '"' :: t ++ ['"'] ++ rest = '"' :: (t ++ '"' :: rest) := by simp
    rw [happ, readValue, if_pos rfl, h.readString, Option.map_some]

theorem reads_true : Reads ['t', 'r', 'u', 'e'] (.bool true) where
  skip rest := skipBlanks_cons (by decide) _
  read fuel rest _ := by
    have hstart : ['t', 'r', 'u', 'e'] <+: 't' :: 'r' :: 'u' :: 'e' :: rest :=
      List.prefix_append _ rest
    simp only [List.cons_append, List.nil_append, readValue, readLiteral, hstart, if_true]
    rfl

/-- A decimal numeral does not start with a zero, unless it is zero. -/
theorem head_toDigits (n : ℕ) : n = 0 ∨ (Nat.toDigits 10 n).head? ≠ some '0' := by
  induction n using Nat.strong_induction_on with
  | _ n ih =>
    rcases Nat.lt_or_ge n 10 with hlt | hge
    · have hall : ∀ k < 10, k = 0 ∨ [Nat.digitChar k].head? ≠ some '0' := by decide
      rw [Nat.toDigits_of_lt_base hlt]
      exact hall n hlt
    · refine Or.inr ?_
      rw [Nat.toDigits_of_base_le (by decide) hge,
        List.head?_append_of_ne_nil _ Nat.toDigits_ne_nil]
      exact (ih (n / 10) (by omega)).resolve_left (by omega)

theorem isNumber_toDigits (n : ℕ) : isNumber (Nat.toDigits 10 n) := by
  have hdigits : ∀ c ∈ Nat.toDigits 10 n, c.isDigit := fun c hc =>
    Nat.isDigit_of_mem_toDigits (by decide) (by decide) hc
  cases hcs : Nat.toDigits 10 n with
  | nil => exact absurd hcs Nat.toDigits_ne_nil
  | cons c cs =>
    rw [hcs] at hdigits
    obtain ⟨hc, hcs'⟩ := List.forall_mem_cons.1 hdigits
    have hminus : c ≠ '-' := by
      rintro rfl
      exact absurd hc (by decide)
    have hdrop : cs.dropWhile Char.isDigit = [] := List.dropWhile_eq_nil_iff.2 hcs'
    by_cases hzero : c = '0'
    · -- then it is zero itself
      obtain rfl : n = 0 := (head_toDigits n).resolve_right (by simp [hcs, hzero])
      obtain ⟨rfl, rfl⟩ : c = '0' ∧ cs = [] := by simpa [eq_comm] using hcs
      decide
    · simp [isNumber, hminus, hzero, hc, hdrop, isFracExp, isExp]

theorem reads_toDigits (n : ℕ) : Reads (Nat.toDigits 10 n) (.number (Nat.toDigits 10 n)) := by
  have hdigits : ∀ c ∈ Nat.toDigits 10 n, c.isDigit := fun c hc =>
    Nat.isDigit_of_mem_toDigits (by decide) (by decide) hc
  obtain ⟨c, cs, hcs⟩ := List.exists_cons_of_ne_nil (Nat.toDigits_ne_nil (n := n) (b := 10))
  have hc : c.isDigit := hdigits c (hcs ▸ List.mem_cons_self)
  have hnot : ∀ d : Char, d.isDigit = false → d ≠ c := by
    rintro d hd rfl
    simp [hc] at hd
  refine ⟨fun rest => ?_, fun fuel rest hrest => ?_⟩
  · rw [hcs]
    refine skipBlanks_cons ?_ _
    simp only [List.mem_cons, List.not_mem_nil, or_false, not_or]
    exact ⟨(hnot _ (by decide)).symm, (hnot _ (by decide)).symm, (hnot _ (by decide)).symm,
      (hnot _ (by decide)).symm⟩
  · have hread : readNumber (Nat.toDigits 10 n ++ rest) = some (Nat.toDigits 10 n, rest) := by
      have hpart : ∀ d ∈ Nat.toDigits 10 n,
          (d.isDigit || decide (d ∈ ['+', '-', '.', 'e', 'E'])) = true := fun d hd => by
        rw [hdigits d hd, Bool.true_or]
      have hstop : rest.takeWhile (fun d => d.isDigit || decide (d ∈ ['+', '-', '.', 'e', 'E'])) =
          [] ∧ rest.dropWhile (fun d => d.isDigit || decide (d ∈ ['+', '-', '.', 'e', 'E'])) =
          rest := by
        cases rest with
        | nil => exact ⟨rfl, rfl⟩
        | cons d rest =>
          rcases hrest d rfl with rfl | rfl <;> exact ⟨rfl, rfl⟩
      simp only [readNumber, List.takeWhile_append_of_pos hpart, List.dropWhile_append_of_pos hpart,
        hstop, List.append_nil, isNumber_toDigits, if_true]
    have hstart : ∀ (d : Char) (ds : List Char), d.isDigit = false →
        ¬ d :: ds <+: c :: (cs ++ rest) :=
      fun d ds hd hp => hnot d hd (List.cons_prefix_cons.1 hp).1
    rw [hcs, List.cons_append, readValue, if_neg (hnot _ (by decide)).symm,
      if_neg (hnot _ (by decide)).symm, if_neg (hnot _ (by decide)).symm, readLiteral,
      if_neg (hstart _ _ (by decide)), if_neg (hstart _ _ (by decide)),
      if_neg (hstart _ _ (by decide)), ← List.cons_append, ← hcs, hread, Option.map_some]

/-! ### Objects that are read -/

/-- A member as it is written, without blanks. -/
structure Member where
  name : List Char
  /-- The text of the value. -/
  text : List Char
  value : Value

namespace Member

/-- `"name":value`. -/
def write (f : Member) : List Char := '"' :: f.name ++ '"' :: ':' :: f.text

/-- The name has nothing to escape, and the text is read to the value. -/
structure Ok (f : Member) : Prop where
  name : Encodes f.name f.name
  value : Reads f.text f.value

end Member

/-- Members with commas between them. -/
def writeMembers : List Member → List Char
  | [] => []
  | [f] => f.write
  | f :: g :: fs => f.write ++ ',' :: writeMembers (g :: fs)

theorem readMembers_write {f : Member} (hf : f.Ok) {fuel : ℕ} {rest : List Char}
    (hrest : ∀ c ∈ rest.head?, c = ',' ∨ c = '}') :
    readMembers (fuel + 2) (f.write ++ rest) =
      match readChar '}' rest with
      | some cs => some ([(f.name, f.value)], cs)
      | none => (readChar ',' rest).bind fun cs => (readMembers (fuel + 1) cs).bind fun p =>
        some ((f.name, f.value) :: p.1, p.2) := by
  have happ : f.write ++ rest = '"' :: (f.name ++ '"' :: (':' :: (f.text ++ rest))) := by
    simp [Member.write]
  rw [happ, readMembers, readChar_cons (by decide), if_pos rfl]
  simp only [Option.bind_eq_bind, Option.bind_some, hf.name.readString,
    readChar_cons (c := ':') (d := ':') (by decide), if_true, hf.value.skip,
    hf.value.read fuel rest hrest]

/-- **Members** that are read one by one are read together. -/
theorem readMembers_writeMembers {fs : List Member} (hne : fs ≠ []) (hfs : ∀ f ∈ fs, f.Ok)
    {fuel : ℕ} (hfuel : fs.length < fuel) (rest : List Char) :
    readMembers fuel (writeMembers fs ++ '}' :: rest) =
      some (fs.map fun f => (f.name, f.value), rest) := by
  induction fs generalizing fuel with
  | nil => exact absurd rfl hne
  | cons f fs ih =>
    obtain ⟨hf, hfs⟩ := List.forall_mem_cons.1 hfs
    rw [List.length_cons] at hfuel
    obtain ⟨fuel, rfl⟩ := Nat.exists_eq_add_of_le' (show 2 ≤ fuel by omega)
    cases fs with
    | nil =>
      rw [writeMembers, readMembers_write hf (by simp), readChar_cons (by decide), if_pos rfl]
      rfl
    | cons g fs =>
      have hrest := ih (List.cons_ne_nil _ _) hfs (show (g :: fs).length < fuel + 1 by omega)
      rw [writeMembers, List.append_assoc, List.cons_append, readMembers_write hf (by simp),
        readChar_cons (by decide), if_neg (by decide), readChar_cons (by decide), if_pos rfl]
      simp only [Option.bind_some, hrest, List.map_cons]

theorem length_le_writeMembers (fs : List Member) : fs.length ≤ (writeMembers fs).length := by
  induction fs with
  | nil => exact le_rfl
  | cons f fs ih =>
    cases fs with
    | nil => simp [writeMembers, Member.write]
    | cons g fs =>
      simp only [writeMembers, List.length_append, List.length_cons] at ih ⊢
      omega

theorem mem_writeMembers {fs : List Member} {c : Char} (h : c ∈ writeMembers fs) :
    c = ',' ∨ ∃ f ∈ fs, c ∈ f.write := by
  induction fs with
  | nil => exact absurd h List.not_mem_nil
  | cons f fs ih =>
    cases fs with
    | nil => exact Or.inr ⟨f, List.mem_cons_self, h⟩
    | cons g fs =>
      rcases List.mem_append.1 h with hf | hrest
      · exact Or.inr ⟨f, List.mem_cons_self, hf⟩
      rcases List.mem_cons.1 hrest with hcomma | hrest
      · exact Or.inl hcomma
      · exact (ih hrest).imp_right fun ⟨k, hk, hc⟩ => ⟨k, List.mem_cons_of_mem _ hk, hc⟩

/-- **An object** of members that are read. -/
theorem decode_object {fs : List Member} (hne : fs ≠ []) (hfs : ∀ f ∈ fs, f.Ok) :
    decode ('{' :: writeMembers fs ++ ['}']) =
      some (.object (fs.map fun f => (f.name, f.value))) := by
  have hlen := length_le_writeMembers fs
  obtain ⟨c, cs, hcs, hc⟩ : ∃ c cs, writeMembers fs = c :: cs ∧ c = '"' := by
    cases fs with
    | nil => exact absurd rfl hne
    | cons f fs => cases fs <;> exact ⟨_, _, rfl, rfl⟩
  have hopen : readChar '}' (writeMembers fs ++ ['}']) = none := by
    rw [hcs, List.cons_append, readChar_cons (by rw [hc]; decide), if_neg (by rw [hc]; decide)]
  have hfuel : ('{' :: writeMembers fs ++ ['}']).length = (writeMembers fs).length + 1 + 1 := by
    simp
  rw [decode, hfuel, List.cons_append, skipBlanks_cons (by decide), readValue, if_neg (by decide),
    if_neg (by decide), if_pos rfl, hopen]
  simp only [readMembers_writeMembers hne hfs (Nat.lt_succ_of_le hlen) [], Option.map_some]
  rfl

end Json

end Zsync
