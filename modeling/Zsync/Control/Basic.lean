import Zsync.Rsum

/-!
# Control files

The `.zsync` control file: a text header of `Key: value` lines ended by a blank line, then one
binary record for each block of the target.

* `ControlFile`, `HashLengths`, `BlockChecksum` : the parsed form;
* `ControlFile.parse` : the reader, with its header cap and every error it reports;
* `ControlFile.write` : the writer;
* `ControlFile.generate` : the maker.  The two float formulas that choose the hash lengths are a
  parameter (`FloatFormulas`), clamped as the source clamps them.

Strings are Lean strings, which are sequences of Unicode scalar values as Rust's are; the machine
integers `u8`, `u64` and `usize` are natural numbers, with the bounds where the source checks them.
-/

namespace Zsync

open Text

/-- The largest block size a control file may use, 1 MiB. -/
def maxBlocksize : ℕ := 2 ^ 20

/-- `MAX_HEADER_BYTES`: the cap on the header section. -/
def maxHeaderBytes : ℕ := 2 ^ 20

/-- `MAX_BLOCKS`: the cap on the number of blocks. -/
def maxBlocks : ℕ := 2 ^ 26

/-- The largest value of a `u64` or a 64-bit `usize`. -/
def maxU64 : ℕ := 2 ^ 64 - 1

/-- The largest value of a `u8`. -/
def maxU8 : ℕ := 2 ^ 8 - 1

/-- The kinds of IO error that matter here. -/
inductive IoErrorKind where
  /-- The bytes of a line are not UTF-8. -/
  | invalidData
  /-- `read_exact` reached the end of the input. -/
  | unexpectedEof
  /-- An argument was refused. -/
  | invalidInput
  /-- An operation of the operating system failed. -/
  | other
  deriving DecidableEq, Repr

/-- Why `ControlFile.parse` rejected its input. -/
inductive ParseError where
  | io (kind : IoErrorKind)
  | invalidHeader (line : String)
  | missingField (name : String)
  | invalidBlocksize (value : String)
  | invalidHashLengths (value : String)
  | invalidLength (value : String)
  | unexpectedEof
  | headerTooLarge (cap : ℕ)
  deriving DecidableEq, Repr

/-- Why `ControlFile.generate` could not describe a file. -/
inductive GenerateError where
  | io (kind : IoErrorKind) (message : String)
  | emptyFile
  deriving DecidableEq, Repr

/-- The checksums of one target block. -/
structure BlockChecksum where
  /-- The rolling checksum, with the bytes that are not stored left as zero. -/
  rsum : Rsum
  /-- The MD4 digest, with the bytes that are not stored left as zero. -/
  checksum : Md4
  deriving DecidableEq

/-- The `Hash-Lengths` header. -/
structure HashLengths where
  /-- How many consecutive blocks must match together, 1 or 2. -/
  seqMatches : ℕ
  /-- Bytes of rolling checksum stored per block, 1 to 4. -/
  rsumBytes : ℕ
  /-- Bytes of MD4 digest stored per block, 3 to 16. -/
  checksumBytes : ℕ
  deriving DecidableEq, Repr

/-- What a control file without a `Hash-Lengths` header means. -/
def HashLengths.default : HashLengths := ⟨1, 4, 16⟩

/-- The size of one record: `entry_size`. -/
def HashLengths.entrySize (hl : HashLengths) : ℕ := hl.rsumBytes + hl.checksumBytes

/-- A control file: what the target is, where to fetch it, and the checksums of every block. -/
structure ControlFile where
  version : String
  filename : Option String
  mtime : Option String
  blocksize : ℕ
  length : ℕ
  hashLengths : HashLengths
  urls : List String
  sha1 : Option String
  blockChecksums : List BlockChecksum
  deriving DecidableEq

namespace ControlFile

/-! ### Reading -/

/-- What the header loop has gathered so far: the local variables of `parse`. -/
structure Header where
  version : String
  filename : Option String
  mtime : Option String
  blocksize : Option ℕ
  length : Option ℕ
  hashLengths : HashLengths
  urls : List String
  sha1 : Option String
  deriving DecidableEq, Repr

/-- The state before the first line. -/
def Header.start : Header := ⟨"", none, none, none, none, HashLengths.default, [], none⟩

/-- The `Hash-Lengths` value: three comma-separated numbers within their ranges. -/
def parseHashLengths (value : List Char) : Option HashLengths :=
  match value.splitOn ',' with
  | [s, r, c] =>
    match parseUnsigned maxU8 s, parseUnsigned maxU8 r, parseUnsigned maxU8 c with
    | some s, some r, some c =>
      if 1 ≤ s ∧ s ≤ 2 ∧ 1 ≤ r ∧ r ≤ 4 ∧ 3 ≤ c ∧ c ≤ 16 then some ⟨s, r, c⟩ else none
    | _, _, _ => none
  | _ => none

/-- The `Blocksize` value: a power of two no larger than `maxBlocksize`. -/
def parseBlocksize (value : List Char) : Option ℕ :=
  match parseUnsigned maxU64 value with
  | some bs => if bs.isPowerOfTwo ∧ bs ≤ maxBlocksize then some bs else none
  | none => none

/-- One header line with key `key` and value `value`. -/
def Header.field (h : Header) (key : String) (value : List Char) : Except ParseError Header :=
  if key = "zsync" then .ok { h with version := String.ofList value }
  else if key = "Filename" then .ok { h with filename := some (String.ofList value) }
  else if key = "MTime" then .ok { h with mtime := some (String.ofList value) }
  else if key = "Blocksize" then
    match parseBlocksize value with
    | some bs => .ok { h with blocksize := some bs }
    | none => .error (.invalidBlocksize (String.ofList value))
  else if key = "Length" then
    match parseUnsigned maxU64 value with
    | some n => .ok { h with length := some n }
    | none => .error (.invalidLength (String.ofList value))
  else if key = "URL" then .ok { h with urls := h.urls ++ [String.ofList value] }
  else if key = "Hash-Lengths" then
    match parseHashLengths value with
    | some hl => .ok { h with hashLengths := hl }
    | none => .error (.invalidHashLengths (String.ofList value))
  else if key = "SHA-1" then
    if (encode value).length ≠ 40 then .error (.invalidHeader "SHA-1 digest wrong length")
    else .ok { h with sha1 := some (String.ofList value) }
  else .ok h

/-- The characters cut from the end of a header line. -/
def lineBlanks : List Char := ['\n', '\r', ' ']

/-- The key and the value of a header line whose trailing blanks are cut. -/
def keyValue (trimmed : List Char) : Option (String × List Char) :=
  (splitOnce ':' trimmed).map fun p => (String.ofList p.1, trimStart ' ' p.2)

/-- What the header loop makes of one line, read with its line feed: nothing when the line is
blank, which ends the header, and otherwise one more field. -/
def Header.line (h : Header) (line : Bytes) : Except ParseError (Option Header) :=
  match decode line with
  | none => .error (.io .invalidData)
  | some cs =>
    let trimmed := trimEnd lineBlanks cs
    if trimmed = [] then .ok none
    else
      match keyValue trimmed with
      | none => .error (.invalidHeader (String.ofList trimmed))
      | some (key, value) => (h.field key value).map some

/-- The header loop, with `limit` bytes left under the cap: `read_line` takes one line from the
first `limit` bytes of `rest`.  Returns the fields and the bytes after the header. -/
def headerLoop (h : Header) (rest : Bytes) (limit : ℕ) : Except ParseError (Header × Bytes) :=
  let line := untilLf (rest.take limit)
  if _hline : line = [] then
    if limit = 0 then .error (.headerTooLarge maxHeaderBytes) else .error .unexpectedEof
  else
    match h.line line with
    | .error e => .error e
    | .ok none => .ok (h, rest.drop line.length)
    | .ok (some h') => headerLoop h' (rest.drop line.length) (limit - line.length)
termination_by rest.length
decreasing_by
  have hrest : rest ≠ [] := by
    rintro rfl
    exact _hline (by simp [line, untilLf])
  have := List.length_pos_of_ne_nil hrest
  have : 0 < (untilLf (rest.take limit)).length := List.length_pos_of_ne_nil _hline
  simp only [List.length_drop]
  omega

/-- `u16::from_be_bytes`. -/
def ofBeBytes (hi lo : UInt8) : UInt16 := hi.toUInt16 <<< 8 ||| lo.toUInt16

/-- The rolling checksum stored in the first `rsumBytes` bytes of a record. -/
def rsumOfBytes (rsumBytes : ℕ) (buf : Bytes) : Rsum :=
  match rsumBytes with
  | 1 => ⟨0, (buf.getD 0 0).toUInt16⟩
  | 2 => ⟨0, ofBeBytes (buf.getD 0 0) (buf.getD 1 0)⟩
  | 3 => ⟨(buf.getD 0 0).toUInt16, ofBeBytes (buf.getD 1 0) (buf.getD 2 0)⟩
  | 4 => ⟨ofBeBytes (buf.getD 0 0) (buf.getD 1 0), ofBeBytes (buf.getD 2 0) (buf.getD 3 0)⟩
  | _ => ⟨0, 0⟩

/-- A digest from its first bytes, the rest zero. -/
def md4OfPrefix (bs : Bytes) : Md4 := ⟨padTo 16 bs, length_padTo 16 bs⟩

/-- One record, decoded from its `entrySize` bytes. -/
def decodeEntry (hl : HashLengths) (buf : Bytes) : BlockChecksum :=
  ⟨rsumOfBytes hl.rsumBytes buf, md4OfPrefix (window buf hl.rsumBytes hl.checksumBytes)⟩

/-- Reads `n` records. -/
def readBlockChecksums (hl : HashLengths) : ℕ → Bytes → Except ParseError (List BlockChecksum)
  | 0, _ => .ok []
  | n + 1, rest =>
    if rest.length < hl.entrySize then .error (.io .unexpectedEof)
    else
      match readBlockChecksums hl n (rest.drop hl.entrySize) with
      | .error e => .error e
      | .ok bcs => .ok (decodeEntry hl (rest.take hl.entrySize) :: bcs)

/-- The number of blocks of a target: `length.div_ceil(blocksize)`. -/
def numBlocks (length blocksize : ℕ) : ℕ := (length + blocksize - 1) / blocksize

/-- Parses a control file. -/
def parse (bytes : Bytes) : Except ParseError ControlFile :=
  match headerLoop Header.start bytes maxHeaderBytes with
  | .error e => .error e
  | .ok (h, rest) =>
    match h.blocksize with
    | none => .error (.missingField "Blocksize")
    | some blocksize =>
      match h.length with
      | none => .error (.missingField "Length")
      | some length =>
        if maxBlocks < numBlocks length blocksize then
          .error (.invalidLength ("too many blocks: " ++ toString (numBlocks length blocksize)))
        else
          match readBlockChecksums h.hashLengths (numBlocks length blocksize) rest with
          | .error e => .error e
          | .ok bcs =>
            .ok ⟨h.version, h.filename, h.mtime, blocksize, length, h.hashLengths, h.urls,
              h.sha1, bcs⟩

/-! ### Writing -/

/-- `u16::to_be_bytes`. -/
def toBeBytes (x : UInt16) : Bytes := [(x >>> 8).toUInt8, x.toUInt8]

/-- The stored bytes of a rolling checksum. -/
def rsumToBytes (rsum : Rsum) (rsumBytes : ℕ) : Bytes :=
  match rsumBytes with
  | 1 => [rsum.b.toUInt8]
  | 2 => toBeBytes rsum.b
  | 3 => rsum.a.toUInt8 :: toBeBytes rsum.b
  | 4 => toBeBytes rsum.a ++ toBeBytes rsum.b
  | n => List.replicate n 0

/-- `writeln!`: a line of text with its line feed. -/
def writeln (line : String) : Bytes := encode line.toList ++ [0x0a]

/-- `if let Some(v)`: the line with a value that may be absent. -/
def writelnSome (label : String) : Option String → Bytes
  | none => []
  | some v => writeln (label ++ v)

/-- The header section that `write` emits, its blank line included. -/
def writeHeader (cf : ControlFile) : Bytes :=
  writeln ("zsync: " ++ cf.version) ++
  writelnSome "Filename: " cf.filename ++
  writelnSome "MTime: " cf.mtime ++
  writeln ("Blocksize: " ++ toString cf.blocksize) ++
  writeln ("Length: " ++ toString cf.length) ++
  writeln ("Hash-Lengths: " ++ toString cf.hashLengths.seqMatches ++ "," ++
    toString cf.hashLengths.rsumBytes ++ "," ++ toString cf.hashLengths.checksumBytes) ++
  cf.urls.flatMap (fun url => writeln ("URL: " ++ url)) ++
  writelnSome "SHA-1: " cf.sha1 ++
  writeln ""

/-- The record that `write` emits for one block. -/
def writeEntry (hl : HashLengths) (block : BlockChecksum) : Bytes :=
  rsumToBytes block.rsum hl.rsumBytes ++ block.checksum.toList.take hl.checksumBytes

/-- Writes the control file. -/
def write (cf : ControlFile) : Bytes :=
  writeHeader cf ++ cf.blockChecksums.flatMap (writeEntry cf.hashLengths)

/-! ### Making -/

/-- The float formulas of `calculate_hash_lengths` for a file length and a block size, rounded up
and cast to `i32`, before they are clamped. -/
structure FloatFormulas where
  rsumBytes : ℕ → ℕ → ℤ
  checksumBytes : ℕ → ℕ → ℤ

/-- `i32::clamp`. -/
def clamp (x lo hi : ℤ) : ℤ := max lo (min x hi)

/-- The block size when none is asked for. -/
def autoBlocksize (fileLength : ℕ) : ℕ := if fileLength < 100000000 then 2048 else 4096

/-- How much of each checksum to store, and whether blocks match in pairs. -/
def calculateHashLengths (F : FloatFormulas) (fileLength blocksize : ℕ) : HashLengths where
  seqMatches := if blocksize < fileLength then 2 else 1
  rsumBytes := (clamp (F.rsumBytes fileLength blocksize) 2 4).toNat
  checksumBytes := (clamp (F.checksumBytes fileLength blocksize) 4 16).toNat

/-- A byte as two lowercase hex digits. -/
def hexByte (b : UInt8) : List Char := [Nat.digitChar (b.toNat / 16), Nat.digitChar (b.toNat % 16)]

/-- `hex_encode`. -/
def hexEncode (bs : Bytes) : String := String.ofList (bs.flatMap hexByte)

/-- How many bytes of the input block `i` of `n` holds. -/
def blockLen (fileLength blocksize n i : ℕ) : ℕ :=
  if i + 1 = n then
    if fileLength % blocksize = 0 then blocksize else fileLength % blocksize
  else blocksize

/-- Generates a control file by scanning an input file. -/
def generate (H : Hashes) (F : FloatFormulas) (input : Bytes) (filename url : String)
    (blocksize : Option ℕ) : Except GenerateError ControlFile :=
  let fileLength := input.length
  if fileLength = 0 then .error .emptyFile
  else
    let blocksize := blocksize.getD (autoBlocksize fileLength)
    if ¬ (blocksize.isPowerOfTwo ∧ blocksize ≤ maxBlocksize) then
      .error (.io .invalidInput ("block size " ++ toString blocksize ++
        " is not a power of two up to " ++ toString maxBlocksize))
    else
      let hashLengths := calculateHashLengths F fileLength blocksize
      let n := numBlocks fileLength blocksize
      let blockChecksums := (List.range n).map fun i =>
        -- `read_exact` goes on where the block before ended, at `i * blocksize`
        let buf := padTo blocksize
          (window input (i * blocksize) (blockLen fileLength blocksize n i))
        ⟨calcRsumBlock buf, H.md4 buf⟩
      .ok ⟨"0.6.2", some filename, none, blocksize, fileLength, hashLengths, [url],
        some (hexEncode (H.sha1 input).toList), blockChecksums⟩

end ControlFile

end Zsync
