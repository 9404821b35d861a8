import Zsync.Assembly.Basic
import Zsync.Http.Ranges

/-!
# Downloading

The download of the blocks that are still missing.

* `extractBaseUrl`, `resolveUrl` : the URL that a control file's URL means;
* `cutRound` : one block cut off the front of the buffer;
* `bodyRound` : one read of a response;
* `fetchRange` : one response, with the short block at its end;
* `downloadMissingBlocks` : every range that is needed.
-/

namespace Zsync

/-! ### URLs -/

/-- The text up to and with its first `://`, and the text after it. -/
def splitScheme : List Char → Option (List Char × List Char)
  | [] => none
  | c :: cs =>
    if "://".toList <+: c :: cs then some ("://".toList, cs.drop 2)
    else (splitScheme cs).map fun p => (c :: p.1, p.2)

/-- `cs` up to and with its last slash, or nothing when it has none. -/
def upToSlash (cs : List Char) : List Char := cs.rdropWhile (· ≠ '/')

/-- The directory of `url`, against which relative URLs resolve.  The query and fragment are
dropped first. -/
def extractBaseUrl (url : String) : String :=
  String.ofList (upToSlash (url.toList.takeWhile fun c => c ≠ '?' ∧ c ≠ '#'))

/-- Resolves a control file's URL against a base URL. -/
def resolveUrl (base relative : String) : String :=
  if (splitScheme relative.toList).isSome then relative
  else if ['/'] <+: relative.toList then
    let (scheme, rest) := (splitScheme base.toList).getD ([], base.toList)
    String.ofList (scheme ++ rest.takeWhile (· ≠ '/') ++ relative.toList)
  else base ++ relative

/-! ### One response -/

/-- How much a body is read at once. -/
def readBufSize : ℕ := 64 * 1024

/-- The local variables that go from one read to the next: the bytes not yet cut into blocks, the
block they start, and how many blocks were written. -/
structure CutVars where
  buf : Bytes
  currentBlockId : ℕ
  downloadedBlocks : ℕ

/-- The bytes of block `id` that lie inside the target. -/
def blockDataEnd (control : ControlFile) (totalBlocks id : ℕ) : ℕ :=
  if id = totalBlocks - 1 then
    if control.length % control.blocksize = 0 then control.blocksize
    else control.length % control.blocksize
  else control.blocksize

/-- The first block of the buffer, checked and written if it is still missing.  Returns how many
blocks were written. -/
def storeCut (env : Env) (s : State) (v : CutVars) : Asm ℕ :=
  if s.matcher.isBlockKnown v.currentBlockId then pure 0
  else
    let blockData := v.buf.take (blockDataEnd s.control s.matcher.totalBlocks v.currentBlockId)
    storeBlock env v.currentBlockId (padTo s.control.blocksize blockData) blockData

/-- Cuts one block off the buffer, if there is one. -/
def cutRound (env : Env) (v : CutVars) : Asm (CutVars ⊕ CutVars) := do
  let s ← Prog.read
  if v.buf.length < s.control.blocksize ∨ s.matcher.totalBlocks ≤ v.currentBlockId then
    pure (.inr v)
  else do
    let stored ← storeCut env s v
    pure (.inl ⟨v.buf.drop s.control.blocksize, v.currentBlockId + 1, v.downloadedBlocks + stored⟩)

/-- One read of a response, and the blocks it completes. -/
def bodyRound (env : Env) (v : HttpRangeReader × CutVars) :
    Asm ((HttpRangeReader × CutVars) ⊕ CutVars) := do
  checkAborted env
  match v.1.read readBufSize with
  | (.error kind, _) => Prog.throw (.http (.io kind))
  | (.ok got, reader) =>
    if got = [] then pure (.inr v.2)
    else do
      let buf := v.2.buf ++ got
      let cut ← Prog.loop (cutRound env) id (buf.length + 1) { v.2 with buf := buf }
      pure (.inl (reader, cut))

/-- The bytes at the end of a response that are not a whole block. -/
def storeTail (env : Env) (v : CutVars) : Asm ℕ := do
  let s ← Prog.read
  if 0 < v.buf.length ∧ v.currentBlockId < s.matcher.totalBlocks ∧
      ¬ s.matcher.isBlockKnown v.currentBlockId then
    storeBlock env v.currentBlockId (padTo s.control.blocksize v.buf) v.buf
  else pure 0

/-- Requests one range, and checks and writes the missing blocks in its response.  Returns how many
blocks were written. -/
def fetchRange (env : Env) (url : String) (rangeStart rangeEnd : ℕ) : Asm ℕ := do
  checkAborted env
  let s ← Prog.read
  let blocksize := s.control.blocksize
  let r := HttpClient.fetchRangeReader env.agent s.http url rangeStart rangeEnd
  Prog.modify fun s => { s with http := r.2 }
  match r.1 with
  | .error e => Prog.throw (.http e)
  | .ok reader => do
    let v ← Prog.loop (bodyRound env) Prod.snd (reader.remaining + 2)
      (reader, ⟨List.replicate (rangeStart % blocksize) 0, rangeStart / blocksize, 0⟩)
    let n ← storeTail env v
    pure (v.downloadedBlocks + n)

/-- Requests each range in turn. -/
def fetchRanges (env : Env) (url : String) : List (ℕ × ℕ) → Asm ℕ
  | [] => pure 0
  | (start, stop) :: rest => do
    let n ← fetchRange env url start stop
    let m ← fetchRanges env url rest
    pure (n + m)

/-- Downloads the blocks still missing and writes those that verify.  Returns how many blocks were
written. -/
def downloadMissingBlocks (env : Env) : Asm ℕ := do
  let s ← Prog.read
  match s.control.urls with
  | [] => Prog.throw .noUrls
  | relativeUrl :: _ =>
    let url := match s.baseUrl with
      | some base => resolveUrl base relativeUrl
      | none => relativeUrl
    let blockRanges := s.matcher.neededBlockRanges
    if blockRanges = [] then pure 0
    else
      fetchRanges env url (mergeByteRanges
        (byteRangesFromBlockRanges blockRanges s.control.blocksize s.control.length)
        s.rangeGapThreshold)

end Zsync
