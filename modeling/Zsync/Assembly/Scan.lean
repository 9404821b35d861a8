import Zsync.Assembly.Basic

/-!
# Scanning files

The scans of a seed file and of the temporary file, which read a file in overlapping chunks.

* `Seed` : a seed file, whose reads may be short, may fail and may change from one to the next;
* `scanRound` : one chunk;
* `submitSourceFile`, `submitSelfReferential` : the two scans.
-/

namespace Zsync

/-- `STREAM_CHUNK_SIZE`: how much of a file a scan reads at once. -/
def streamChunkSize : ℕ := 32 * 1024 * 1024

/-- A seed file. -/
structure Seed where
  /-- The size that the opened file reports. -/
  size : Except IoErrorKind ℕ
  /-- What a read returns, by the instant, the offset and the length of the buffer. -/
  read : ℕ → ℕ → ℕ → Except IoErrorKind Bytes
  /-- An offset past its last byte. -/
  limit : ℕ

/-- Reads up to `len` bytes of a seed. -/
def Seed.readAtOffset (seed : Seed) (offset len : ℕ) : Asm Bytes := fun s =>
  let s' := { s with clock := s.clock + 1 }
  match seed.read s.clock offset len with
  | .error kind => (.error (.io kind), s')
  | .ok bs => (.ok (if seed.limit ≤ offset then [] else bs.take len), s')

/-- The local variables of a scan that go from one chunk to the next. -/
structure ScanVars where
  buf : Bytes
  fileOffset : ℕ
  totalMatched : ℕ

/-- Reads the `overlapLen` bytes before a chunk into the front of the buffer. -/
def readOverlap (readAt : ℕ → ℕ → Asm Bytes) (buf : Bytes) (overlapStart overlapLen : ℕ) :
    Asm Bytes :=
  if 0 < overlapLen then do
    let got ← readAt overlapStart overlapLen
    pure (writeAt buf 0 got)
  else pure buf

/-- Fills the buffer behind the `dataLen` bytes of a chunk that ends at `stop` with the bytes that
follow it in the file, and with zeros past the end of the file. -/
def readContext (readAt : ℕ → ℕ → Asm Bytes) (fileSize context : ℕ) (buf : Bytes)
    (dataLen stop : ℕ) : Asm Bytes :=
  if stop < fileSize then do
    let available := min (fileSize - stop) context
    let got ← readAt stop available
    let buf := writeAt buf dataLen got
    pure (if available < context then
      writeAt buf (dataLen + available) (List.replicate (context - available) 0) else buf)
  else pure (writeAt buf dataLen (List.replicate context 0))

/-- One chunk of a scan: the bytes before it that overlap the chunk before, up to `chunkSize` bytes
of it, and the bytes after it. -/
def scanRound (env : Env) (readAt : ℕ → ℕ → Asm Bytes) (create : Bool)
    (fileSize chunkSize context : ℕ) (v : ScanVars) : Asm (ScanVars ⊕ ℕ) := do
  checkAborted env
  let overlapStart := v.fileOffset - context
  let overlapLen := v.fileOffset - overlapStart
  let buf ← readOverlap readAt v.buf overlapStart overlapLen
  let got ← readAt v.fileOffset chunkSize
  if got = [] then pure (.inr v.totalMatched)
  else do
    let stop := v.fileOffset + got.length
    let dataLen := overlapLen + got.length
    let buf ← readContext readAt fileSize context (writeAt buf overlapLen got) dataLen stop
    let matchedBlocks ← submitChunk env (slice buf 0 (dataLen + context)) overlapStart
    storeMatches env create buf overlapStart matchedBlocks
    Prog.modify fun s => s.note (.scanProgress stop fileSize)
    let totalMatched := v.totalMatched + matchedBlocks.length
    if got.length < chunkSize then pure (.inr totalMatched)
    else pure (.inl ⟨buf, stop, totalMatched⟩)

/-- The scan of a file of `fileSize` bytes, in at most `rounds` chunks. -/
def scanFile (env : Env) (readAt : ℕ → ℕ → Asm Bytes) (create : Bool)
    (fileSize rounds : ℕ) : Asm ℕ := do
  let s ← Prog.read
  let context := s.control.blocksize * s.control.hashLengths.seqMatches
  if fileSize < context then pure 0
  else
    Prog.loop (scanRound env readAt create fileSize (max streamChunkSize (context * 2)) context)
      ScanVars.totalMatched rounds ⟨[], 0, 0⟩

/-- Scans a seed for blocks of the target and copies each one found into the temporary file.
Every chunk has bytes of the seed, so there are at most `limit` of them. -/
def submitSourceFile (env : Env) (seed : Seed) : Asm ℕ := do
  let fileSize ← Prog.ofExcept (seed.size.mapError .io)
  scanFile env seed.readAtOffset true fileSize (seed.limit + 1)

/-- Scans the temporary file itself for further blocks of the target.  The file may grow while it
is read, up to the end of the target's last block. -/
def submitSelfReferential (env : Env) : Asm ℕ := do
  let s ← Prog.read
  if ¬ s.file then pure 0
  else do
    let _ ← io env .syncTemp
    let _ ← io env .statTemp
    scanFile env (readAtOffset env) false s.temp.length
      (max s.temp.length (s.matcher.totalBlocks * s.control.blocksize) + 1)

end Zsync
