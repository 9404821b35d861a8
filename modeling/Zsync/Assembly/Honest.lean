import Zsync.Assembly.Progress

/-!
# An honest server

A download from a server that sends what it is asked for, with nothing failing.

* `Serves`, `Honest` : the server, its reads of any positive size, and everything else;
* `Reassembly` : the buffer of a response holds the next bytes of the target;
* `download_honest` : every block that was missing is downloaded, and counted once.
-/

namespace Zsync

/-- The body of a response gives `data`, cut into reads of any positive size. -/
def Serves (body : Body) (data : Bytes) : Prop :=
  ∀ reads consumed len, consumed < data.length → 0 < len →
    ∃ n, 0 < n ∧ body.read reads consumed len = .ok (window data consumed n)

/-- Every operation succeeds, the abort flag stays down, and every range of `T` that is requested is
answered with its bytes. -/
structure Honest (env : Env) (T : Bytes) : Prop where
  disk : ∀ n op, (env.disk n op).error = none
  abort : ∀ n, env.abort n = false
  server : ∀ n url start stop, start ≤ stop → stop < T.length →
    ∃ r, env.agent.get n url start stop = .ok r ∧ (r.status = 206 ∨ r.status = 200 ∧ start = 0) ∧
      Serves r.body (window T start (stop - start + 1))

variable {env : Env} {cf : ControlFile} {T : Bytes}

/-! ### Nothing fails -/

section Succeeds

variable (hh : Honest env T)
include hh

theorem succeeds_io (op : DiskOp) : Prog.Succeeds (io env op) := by
  intro s
  rw [io_run, hh.disk]
  exact ⟨_, rfl⟩

theorem succeeds_ensureFile : Prog.Succeeds (ensureFile env) :=
  Prog.Succeeds.bind Prog.Succeeds.read fun _ => Prog.Succeeds.ite (Prog.Succeeds.pure _)
    (Prog.Succeeds.bind (succeeds_io hh _) fun _ => Prog.Succeeds.modify _)

theorem succeeds_writeAtOffset (data : Bytes) (offset : ℕ) :
    Prog.Succeeds (writeAtOffset env data offset) := by
  refine Prog.Succeeds.bind (succeeds_io hh _) fun _ s => ?_
  rw [Prog.bind_run]
  simp only [attempt, Prog.next, hh.disk]
  exact ⟨(), rfl⟩

theorem succeeds_checkAborted : Prog.Succeeds (checkAborted env) := by
  refine Prog.Succeeds.bind Prog.Succeeds.read fun s =>
    Prog.Succeeds.bind (Prog.Succeeds.modify _) fun _ => ?_
  rw [hh.abort, if_neg Bool.false_ne_true]
  exact Prog.Succeeds.pure _

theorem succeeds_readAtOffset (offset len : ℕ) : Prog.Succeeds (readAtOffset env offset len) :=
  (succeeds_io hh _).bind fun _ => (succeeds_io hh _).bind fun _ => Prog.Succeeds.read.bind
    fun _ => Prog.Succeeds.pure _

theorem succeeds_scanRound {readAt : ℕ → ℕ → Asm Bytes}
    (hread : ∀ offset len, Prog.Succeeds (readAt offset len)) (create : Bool)
    (fileSize chunkSize context : ℕ) (v : ScanVars) :
    Prog.Succeeds (scanRound env readAt create fileSize chunkSize context v) := by
  have hopen : Prog.Succeeds (openTemp env create) :=
    Prog.Succeeds.ite (succeeds_ensureFile hh) (Prog.Succeeds.pure _)
  have hsubmit : ∀ data offset, Prog.Succeeds (submitChunk env data offset) :=
    fun _ _ _ => ⟨_, rfl⟩
  refine (succeeds_checkAborted hh).bind fun _ => ?_
  refine (Prog.Succeeds.ite ((hread _ _).bind fun _ => Prog.Succeeds.pure _)
    (Prog.Succeeds.pure _)).bind fun _ => ?_
  refine (hread _ _).bind fun _ => Prog.Succeeds.ite (Prog.Succeeds.pure _) ?_
  refine (Prog.Succeeds.ite ((hread _ _).bind fun _ => Prog.Succeeds.pure _)
    (Prog.Succeeds.pure _)).bind fun _ => ?_
  refine (hsubmit _ _).bind fun matched => ?_
  refine (Prog.Succeeds.read.bind fun _ => Prog.Succeeds.forM (fun _ => hopen.bind fun _ =>
    succeeds_writeAtOffset hh _ _) matched).bind fun _ => ?_
  exact (Prog.Succeeds.modify _).bind fun _ =>
    Prog.Succeeds.ite (Prog.Succeeds.pure _) (Prog.Succeeds.pure _)

theorem succeeds_submitSelfReferential : Prog.Succeeds (submitSelfReferential env) := by
  refine Prog.Succeeds.read.bind fun _ => Prog.Succeeds.ite (Prog.Succeeds.pure _) ?_
  refine (succeeds_io hh _).bind fun _ => (succeeds_io hh _).bind fun _ => ?_
  exact Prog.Succeeds.read.bind fun _ => Prog.Succeeds.ite (Prog.Succeeds.pure _)
    (Prog.Succeeds.loop (succeeds_scanRound hh (succeeds_readAtOffset hh) _ _ _ _) _ _)

end Succeeds

/-! ### The server -/

/-- **One read** of a body that gives `data` returns its next bytes until there are none. -/
theorem read_of_serves {r : HttpRangeReader} {data : Bytes} (hs : Serves r.reader data)
    (hlen : r.consumed + r.remaining = data.length) {len : ℕ} (hpos : 0 < len)
    (hrem : 0 < r.remaining) :
    ∃ n, 0 < n ∧ n ≤ r.remaining ∧ r.read len = (.ok (window data r.consumed n),
      ⟨r.reader, r.reads + 1, r.consumed + n, r.remaining - n⟩) := by
  obtain ⟨n, hn, hread⟩ := hs r.reads r.consumed (min len r.remaining) (by omega) (by omega)
  have hn' : 0 < min n (min len r.remaining) := by omega
  have htake : (window data r.consumed n).take (min len r.remaining) =
      window data r.consumed (min n (min len r.remaining)) := by
    rw [window, window, List.take_take, Nat.min_comm]
  have hlength : (window data r.consumed (min n (min len r.remaining))).length =
      min n (min len r.remaining) := length_window (by omega)
  refine ⟨min n (min len r.remaining), hn', by omega, ?_⟩
  simp only [HttpRangeReader.read, if_neg hrem.ne', hread, htake, hlength]

/-- **A request** to an honest server succeeds, whatever redirect is remembered. -/
theorem fetchRangeReader_honest (hh : Honest env T) (client : HttpClient) (url : String)
    {start stop : ℕ} (hle : start ≤ stop) (hlt : stop < T.length) :
    ∃ body client', HttpClient.fetchRangeReader env.agent client url start stop =
      (.ok ⟨body, 0, 0, stop - start + 1⟩, client') ∧
        Serves body (window T start (stop - start + 1)) := by
  have hopen : ∀ n url, ∃ body uri, HttpClient.openRange env.agent n url start stop =
      .ok (⟨body, 0, 0, stop - start + 1⟩, uri) ∧
        Serves body (window T start (stop - start + 1)) := by
    intro n url
    obtain ⟨r, hget, hstatus, hserves⟩ := hh.server n url start stop hle hlt
    refine ⟨r.body, r.uri, ?_, hserves⟩
    rw [HttpClient.openRange, hget]
    rcases hstatus with h | ⟨h, h0⟩
    · simp [h]
    · simp [h, h0]
  unfold HttpClient.fetchRangeReader
  cases client.redirect.filter fun r => r.1 = url with
  | none =>
    obtain ⟨body, uri, hrun, hserves⟩ := hopen client.requests url
    simp only [HttpClient.fetchDirect, hrun]
    exact ⟨_, _, rfl, hserves⟩
  | some r =>
    obtain ⟨body, uri, hrun, hserves⟩ := hopen client.requests r.2
    simp only [hrun]
    exact ⟨_, _, rfl, hserves⟩

/-! ### Blocks that become known -/

/-- What a written block holds of the target is not less than its part of it. -/
def Covers (cf : ControlFile) (q : ℕ × Bytes) : Prop :=
  min cf.blocksize (cf.length - q.1 * cf.blocksize) ≤ q.2.length

section Download

variable {I : List (ℕ × Bytes) → State → Prop} {s₀ s₁ s s' : State} {n : ℕ}

variable (hI : Keeps env cf (Covers cf) I) (hcf : cf.Checked)
  (hT : cf.DescribesTarget env.hashes T) (hh : Honest env T)
include hI

include hcf hT hh

/-- **A downloaded block** that is right is written and counted. -/
theorem storeBlock_honest (s₀ : State) (n : ℕ) {id : ℕ} {data : Bytes}
    (hcovers : Covers cf (id, data)) (hdata : data ≠ [] ∧ data.length ≤ cf.blocksize)
    (hblock : padTo cf.blocksize data = targetBlock T cf.blocksize id)
    (hid : id < cf.blockChecksums.length) :
    Prog.Triple (fun s => Since env cf I s₀ n s ∧ s.matcher.isBlockKnown id = false)
      (storeBlock env id (padTo cf.blocksize data) data)
      (fun k s => k = 1 ∧ Since env cf I s₀ (n + 1) s ∧ s.matcher.isBlockKnown id)
      (fun _ _ => False) := by
  intro s ⟨hs, hunknown⟩
  obtain ⟨hidle, hbase⟩ := hs.idle
  have hlt : id < s.matcher.totalBlocks := hbase.totalBlocks hcf ▸ hid
  have hsame : s.matcher.sameChecksum (env.hashes.md4 (padTo cf.blocksize data))
      (s.matcher.target id).checksum :=
    (BlockMatcher.sameChecksum_target hcf hT (hbase.shape hcf) hlt _).2 (by rw [hblock])
  obtain ⟨s', hrun, hbase', hfile, hclaimed⟩ := submitBlock_run hcf hbase hdata hlt hunknown
  rw [if_pos hsame] at hclaimed
  rw [storeBlock_run hrun, if_pos hsame]
  have hsucceeds : Prog.Succeeds (writeClaimed env id data) :=
    (succeeds_ensureFile hh).bind fun _ => Prog.Succeeds.read.bind fun _ =>
      (succeeds_writeAtOffset hh _ _).bind fun _ => (Prog.Succeeds.modify _).bind fun _ =>
        Prog.Succeeds.pure _
  refine ((hI.writeClaimed id data s'.matcher).of_succeeds hsucceeds).conseq (fun _ h => h) ?_
    (fun _ _ h => h) s' ⟨⟨hI.claimed hbase hclaimed (by simpa using hcovers) hidle, hbase',
      Or.inl rfl⟩, rfl⟩
  rintro _ t ⟨rfl, ⟨hi, hb, -⟩, hm⟩
  refine ⟨rfl, ⟨⟨hi, hb⟩, fun j hj => ?_, ?_⟩, ?_⟩ <;> rw [hm]
  · rw [hclaimed.known, hs.known j hj, Bool.true_or]
  · rw [hclaimed.count, hs.count, Nat.add_assoc, List.length_singleton]
  · simp [hclaimed.known]

/-- The bytes of `T` before `stop` have arrived: the buffer holds those from the current block on,
and the blocks before it are known, from `first` on. -/
structure Reassembly (env : Env) (cf : ControlFile) (T : Bytes)
    (I : List (ℕ × Bytes) → State → Prop)
    (s₀ : State) (first stop : ℕ) (v : CutVars) (s : State) : Prop where
  since : Since env cf I s₀ v.downloadedBlocks s
  first_le : first ≤ v.currentBlockId
  le : v.currentBlockId * cf.blocksize ≤ stop
  buf : v.buf = window T (v.currentBlockId * cf.blocksize) (stop - v.currentBlockId * cf.blocksize)
  known : ∀ id, first ≤ id → id < v.currentBlockId → s.matcher.isBlockKnown id

omit hI hcf hT hh in
theorem blockDataEnd_of_le {id : ℕ} (hbs : 0 < cf.blocksize)
    (h : (id + 1) * cf.blocksize ≤ cf.length)
    (hcount : cf.blockChecksums.length = ControlFile.numBlocks cf.length cf.blocksize) :
    blockDataEnd cf cf.blockChecksums.length id = cf.blocksize := by
  rw [blockDataEnd]
  split_ifs with hlast hmod
  · rfl
  · have hle := ControlFile.numBlocks_le_mul hbs cf.length
    rw [← hcount] at hle
    have hid : id + 1 = cf.blockChecksums.length := by
      have := (ControlFile.lt_numBlocks (i := id) hbs).2
        (by rw [Nat.succ_mul] at h; omega : id * cf.blocksize < cf.length)
      omega
    have heq : cf.length = (id + 1) * cf.blocksize := le_antisymm (hid ▸ hle) h
    exact absurd (heq ▸ Nat.mul_mod_left _ _) hmod
  · rfl

omit hI hcf hT hh in
theorem Reassembly.length_buf {first stop : ℕ} {v : CutVars}
    (h : Reassembly env cf T I s₀ first stop v s) (hstop : stop ≤ T.length) :
    v.buf.length = stop - v.currentBlockId * cf.blocksize := by
  have := h.le
  rw [h.buf, length_window (by omega)]

omit hI hcf hT hh in
theorem Reassembly.next {first stop k : ℕ} {v : CutVars}
    (h : Reassembly env cf T I s₀ first stop v s₁)
    (hle : (v.currentBlockId + 1) * cf.blocksize ≤ stop)
    (hsince : Since env cf I s₀ (v.downloadedBlocks + k) s)
    (hknown : s.matcher.isBlockKnown v.currentBlockId)
    (hmono : ∀ id, s₁.matcher.isBlockKnown id → s.matcher.isBlockKnown id) :
    Reassembly env cf T I s₀ first stop
      ⟨v.buf.drop cf.blocksize, v.currentBlockId + 1, v.downloadedBlocks + k⟩ s := by
  refine ⟨hsince, h.first_le.trans (Nat.le_succ _), hle, ?_, fun id h1 h2 => ?_⟩
  · dsimp only
    rw [h.buf, Nat.succ_mul, window, window, List.drop_take, List.drop_drop]
    congr 1
    omega
  · rcases Nat.lt_succ_iff_lt_or_eq.1 h2 with h2 | rfl
    · exact hmono id (h.known id h1 h2)
    · exact hknown

omit hI hcf hT hh in
theorem Reassembly.append {first stop : ℕ} {v : CutVars}
    (h : Reassembly env cf T I s₀ first stop v s) (n : ℕ) :
    Reassembly env cf T I s₀ first (stop + n) { v with buf := v.buf ++ window T stop n } s := by
  have hle := h.le
  refine ⟨h.since, h.first_le, by dsimp only; omega, ?_, h.known⟩
  have hstop : v.currentBlockId * cf.blocksize + (stop - v.currentBlockId * cf.blocksize) = stop :=
    Nat.add_sub_of_le hle
  have hsum : stop + n - v.currentBlockId * cf.blocksize =
      stop - v.currentBlockId * cf.blocksize + n := by omega
  dsimp only
  rw [h.buf, hsum, ← window_append_window, hstop]

omit hI hh in
/-- A block that starts before the end of a range and is not cut off yet is the current one, and the
end of the target. -/
theorem Reassembly.last_block {first stop : ℕ} {v : CutVars}
    (h : Reassembly env cf T I s₀ first stop v s) (hended : Ended cf v) (hstop : stop ≤ T.length)
    (haligned : cf.blocksize ∣ stop ∨ stop = T.length) {id : ℕ} (hle : v.currentBlockId ≤ id)
    (hlt : id * cf.blocksize < stop) :
    id = v.currentBlockId ∧ v.currentBlockId < cf.blockChecksums.length ∧ stop = T.length ∧
      0 < v.buf.length ∧ v.buf.length < cf.blocksize := by
  have hbs := hcf.blocksize_pos
  have hlength := h.length_buf hstop
  have hnext :
      (v.currentBlockId + 1) * cf.blocksize = v.currentBlockId * cf.blocksize + cf.blocksize :=
    Nat.succ_mul _ _
  have hcur : v.currentBlockId * cf.blocksize < stop := (Nat.mul_le_mul_right _ hle).trans_lt hlt
  have hid : v.currentBlockId < cf.blockChecksums.length := by
    rw [hcf.count, ControlFile.lt_numBlocks hbs, hT.length]
    omega
  have hshort := hended.resolve_right (Nat.not_le.2 hid)
  have heq : id = v.currentBlockId := by
    by_contra hne
    have := Nat.mul_le_mul_right cf.blocksize (show v.currentBlockId + 1 ≤ id by omega)
    omega
  -- no multiple of the block size is above the start of the current block and not above its end
  refine ⟨heq, hid, haligned.resolve_left fun ⟨m, hm⟩ => ?_, by omega, hshort⟩
  have hm1 : v.currentBlockId < m := by
    by_contra hge
    have := Nat.mul_le_mul_left cf.blocksize (Nat.le_of_not_lt hge)
    rw [Nat.mul_comm cf.blocksize v.currentBlockId] at this
    omega
  have := Nat.mul_le_mul_left cf.blocksize (Nat.succ_le_of_lt hm1)
  rw [Nat.mul_comm cf.blocksize (v.currentBlockId + 1)] at this
  omega

/-- **One block** cut off the buffer is known after that. -/
theorem cutRound_honest {first stop : ℕ} (hstop : stop ≤ T.length) (v : CutVars) :
    Prog.Triple (Reassembly env cf T I s₀ first stop v) (cutRound env v)
      (fun r s => Sum.elim
        (fun v' => Reassembly env cf T I s₀ first stop v' s ∧ v'.buf.length < v.buf.length)
        (fun v' => Reassembly env cf T I s₀ first stop v' s ∧ Ended cf v') r)
      (fun _ _ => False) := by
  refine Prog.Triple.read fun s₁ hs₁ => Prog.Triple.ite (fun hend => Prog.Triple.pure ?_)
    fun hcut => ?_
  · rintro s rfl
    rw [hs₁.since.idle.2.control, hs₁.since.idle.2.totalBlocks hcf] at hend
    exact ⟨hs₁, hend⟩
  have hbase := hs₁.since.idle.2
  have hbs := (hbase.sized hcf).blocksize_pos
  rw [hbase.blocksize hcf] at hbs
  rw [hbase.control] at hcut ⊢
  rw [hbase.totalBlocks hcf] at hcut
  simp only [not_or, Nat.not_lt, Nat.not_le] at hcut
  obtain ⟨hlen, hid⟩ := hcut
  have hlength := hs₁.length_buf hstop
  have hle := hs₁.le
  have hnext :
      (v.currentBlockId + 1) * cf.blocksize = v.currentBlockId * cf.blocksize + cf.blocksize :=
    Nat.succ_mul _ _
  have hstop' : (v.currentBlockId + 1) * cf.blocksize ≤ stop := by omega
  refine Prog.Triple.bind (Q := fun k s => Reassembly env cf T I s₀ first stop
    ⟨v.buf.drop cf.blocksize, v.currentBlockId + 1, v.downloadedBlocks + k⟩ s) ?_ fun k =>
      Prog.Triple.pure fun s hs => ⟨hs, by dsimp only; rw [List.length_drop]; omega⟩
  refine Prog.Triple.ite (fun hknown => Prog.Triple.pure ?_) fun hunknown => ?_
  · rintro s rfl
    exact hs₁.next (k := 0) hstop' hs₁.since hknown fun _ h => h
  · have hend := blockDataEnd_of_le hbs (hT.length ▸ hstop'.trans hstop) hcf.count
    have htake :
        v.buf.take cf.blocksize = window T (v.currentBlockId * cf.blocksize) cf.blocksize := by
      rw [hs₁.buf, window, window, List.take_take, min_eq_left (by omega)]
    have hblock : (window T (v.currentBlockId * cf.blocksize) cf.blocksize).length = cf.blocksize :=
      length_window (by omega)
    rw [hbase.control, hbase.totalBlocks hcf, hend, htake]
    refine (storeBlock_honest hI hcf hT hh s₁ 0 ?_ ⟨?_, hblock.le⟩ rfl hid).conseq ?_
      ?_ fun _ _ h => h
    · exact (min_le_left _ _).trans hblock.ge
    · exact List.ne_nil_of_length_pos (by rw [hblock]; exact hbs)
    · rintro s rfl
      exact ⟨Since.refl hs₁.since.idle, by simpa using hunknown⟩
    · rintro _ s ⟨rfl, hsince, hknown⟩
      exact hs₁.next hstop' (hs₁.since.trans hsince) hknown hsince.known

/-- The response gives the bytes of `T` from `start` on, of which those read have arrived. -/
structure Streaming (env : Env) (cf : ControlFile) (T : Bytes) (I : List (ℕ × Bytes) → State → Prop)
    (s₀ : State) (first start len : ℕ) (v : HttpRangeReader × CutVars) (s : State) : Prop where
  serves : Serves v.1.reader (window T start len)
  length : v.1.consumed + v.1.remaining = len
  ended : Ended cf v.2
  arrived : Reassembly env cf T I s₀ first (start + v.1.consumed) v.2 s

/-- **One read** of a response; the last one finds that all has arrived. -/
theorem bodyRound_honest {first start len : ℕ} (hstop : start + len ≤ T.length)
    (v : HttpRangeReader × CutVars) :
    Prog.Triple (Streaming env cf T I s₀ first start len v) (bodyRound env v)
      (fun r s => Sum.elim
        (fun v' => Streaming env cf T I s₀ first start len v' s ∧ v'.1.remaining < v.1.remaining)
        (fun c => Reassembly env cf T I s₀ first (start + len) c s ∧ Ended cf c) r)
      (fun _ _ => False) := by
  have hwindow : (window T start len).length = len := length_window hstop
  have hquiet : ∀ s s', Quiet s s' → Streaming env cf T I s₀ first start len v s →
      Streaming env cf T I s₀ first start len v s' := by
    rintro s s' hq ⟨h1, h2, h3, h4⟩
    exact ⟨h1, h2, h3, h4.since.quiet hI s s' hq, h4.first_le, h4.le, h4.buf, hq.matcher ▸ h4.known⟩
  refine Prog.Triple.bind ((triple_checkAborted hquiet).of_succeeds (succeeds_checkAborted hh))
    fun _ => ?_
  rintro s ⟨hserves, hlen, hended, hs⟩
  rcases Nat.eq_zero_or_pos v.1.remaining with hzero | hpos
  · have hread : v.1.read readBufSize =
        (.ok [], { v.1 with reader := Body.empty, reads := 0, consumed := 0 }) := by
      rw [HttpRangeReader.read, if_pos hzero]
    rw [hread]
    have hall : v.1.consumed = len := by omega
    exact ⟨hall ▸ hs, hended⟩
  · obtain ⟨n, hn, hle, hread⟩ := read_of_serves hserves (hlen.trans hwindow.symm)
      (by decide : 0 < readBufSize) hpos
    rw [hread]
    have hgot : window (window T start len) v.1.consumed n = window T (start + v.1.consumed) n :=
      window_window (by omega)
    have hlength := hs.length_buf (by omega)
    have hpre := hs.le
    have hne : window T (start + v.1.consumed) n ≠ [] :=
      List.ne_nil_of_length_pos (by rw [length_window (by omega)]; exact hn)
    simp only [hgot, if_neg hne]
    have hstart := hs.append n
    rw [Nat.add_assoc] at hstart
    have hloop : Prog.Triple (Reassembly env cf T I s₀ first (start + (v.1.consumed + n))
        { v.2 with buf := v.2.buf ++ window T (start + v.1.consumed) n })
        (Prog.loop (cutRound env) (fun c => c)
          ((v.2.buf ++ window T (start + v.1.consumed) n).length + 1)
          { v.2 with buf := v.2.buf ++ window T (start + v.1.consumed) n })
        (fun c t => Reassembly env cf T I s₀ first (start + (v.1.consumed + n)) c t ∧ Ended cf c)
        (fun _ _ => False) :=
      Prog.Triple.loop_variant (fun c => c.buf.length) (fun c => (cutRound_honest hI hcf hT hh
        (by omega) c).conseq (fun _ h => h) (fun r _ h => by cases r <;> exact h) fun _ _ h => h)
        (Nat.lt_succ_self _)
    refine Prog.Triple.bind hloop (fun c => Prog.Triple.pure fun t ht => ?_) s hstart
    exact ⟨⟨hserves, by dsimp only; omega, ht.2, ht.1⟩, by dsimp only; omega⟩

/-- **The end of a response**: the short block there is the end of the target. -/
theorem storeTail_honest {first stop : ℕ} (hstop : stop ≤ T.length)
    (haligned : cf.blocksize ∣ stop ∨ stop = T.length) (v : CutVars) :
    Prog.Triple (fun s => Reassembly env cf T I s₀ first stop v s ∧ Ended cf v) (storeTail env v)
      (fun k s => Since env cf I s₀ (v.downloadedBlocks + k) s ∧
        ∀ id, first ≤ id → id * cf.blocksize < stop → s.matcher.isBlockKnown id)
      (fun _ _ => False) := by
  refine Prog.Triple.read fun s₁ ⟨hs₁, hended⟩ => ?_
  have hbase := hs₁.since.idle.2
  have hlength := hs₁.length_buf hstop
  refine Prog.Triple.ite (fun htail => ?_) fun hnotail => Prog.Triple.pure ?_
  · obtain ⟨hpos, hid, hunknown⟩ := htail
    rw [hbase.totalBlocks hcf] at hid
    obtain ⟨-, -, hend, -, hshort⟩ := hs₁.last_block hcf hT hended hstop haligned
      le_rfl (by omega)
    have hcovers : Covers cf (v.currentBlockId, v.buf) := by
      simp only [Covers, hT.length]
      omega
    have hblock : padTo cf.blocksize v.buf = targetBlock T cf.blocksize v.currentBlockId := by
      rw [hs₁.buf, targetBlock, hend, window, window, List.take_of_length_le (by simp)]
      rw [padTo, padTo, List.take_take, min_self, List.length_take, List.length_drop]
      simp only [List.append_cancel_left_eq, List.replicate_inj, or_true, and_true]
      omega
    rw [hbase.control]
    refine (storeBlock_honest hI hcf hT hh s₁ 0 hcovers
      ⟨List.ne_nil_of_length_pos hpos, hshort.le⟩ hblock hid).conseq ?_ ?_ fun _ _ h => h
    · rintro s rfl
      exact ⟨Since.refl hs₁.since.idle, by simpa using hunknown⟩
    · rintro _ s ⟨rfl, hsince, hknown⟩
      refine ⟨hs₁.since.trans hsince, fun id h1 h2 => ?_⟩
      rcases Nat.lt_or_ge id v.currentBlockId with hlt | hge
      · exact hsince.known id (hs₁.known id h1 hlt)
      · exact (hs₁.last_block hcf hT hended hstop haligned hge h2).1 ▸ hknown
  · rintro s rfl
    refine ⟨hs₁.since, fun id h1 h2 => ?_⟩
    rcases Nat.lt_or_ge id v.currentBlockId with hlt | hge
    · exact hs₁.known id h1 hlt
    · obtain ⟨rfl, hid, -, hpos, -⟩ := hs₁.last_block hcf hT hended hstop haligned hge h2
      rw [hbase.totalBlocks hcf] at hnotail
      by_contra hunknown
      exact hnotail ⟨hpos, hid, hunknown⟩

/-- **One range** that is requested makes its blocks known. -/
theorem fetchRange_honest (url : String) {r : ℕ × ℕ} (hr : Planned cf.blocksize T.length r) :
    Prog.Triple (Since env cf I s₀ n) (fetchRange env url r.1 r.2)
      (fun k s => Since env cf I s₀ (n + k) s ∧
        ∀ id, r.1 ≤ id * cf.blocksize → id * cf.blocksize < r.2 + 1 → s.matcher.isBlockKnown id)
      (fun _ _ => False) := by
  have hbs := hcf.blocksize_pos
  obtain ⟨first, hfirst⟩ := hr.start
  have hle := hr.le
  have hlt := hr.lt
  have hlen : r.1 + (r.2 - r.1 + 1) = r.2 + 1 := by omega
  refine Prog.Triple.bind ((triple_checkAborted fun s s' => Since.quiet hI s s').of_succeeds
    (succeeds_checkAborted hh)) fun _ => ?_
  refine Prog.Triple.read fun s₁ hs₁ => ?_
  rw [hs₁.idle.2.control]
  obtain ⟨body, client', hrun, hserves⟩ := fetchRangeReader_honest hh s₁.http url hle hlt
  rw [hrun]
  have hdiv : r.1 / cf.blocksize = first := by rw [hfirst, Nat.mul_div_cancel_left _ hbs]
  have hmod : r.1 % cf.blocksize = 0 := by rw [hfirst, Nat.mul_mod_right]
  refine Prog.Triple.bind (Q := fun _ s => Since env cf I s₀ n s) (Prog.Triple.modify ?_)
    fun _ => ?_
  · rintro s rfl
    exact Since.quiet hI s _ (Quiet.of_eq rfl rfl rfl rfl rfl rfl ⟨[], rfl, by simp⟩) hs₁
  intro s hs
  -- nothing has arrived yet
  have hstart : Streaming env cf T I s first r.1 (r.2 - r.1 + 1)
      (⟨body, 0, 0, r.2 - r.1 + 1⟩,
        ⟨List.replicate (r.1 % cf.blocksize) 0, r.1 / cf.blocksize, 0⟩) s := by
    refine ⟨hserves, Nat.zero_add _, Or.inl ?_, ⟨Since.refl hs.idle, hdiv.ge, ?_, ?_, ?_⟩⟩
    · rw [hmod]
      exact hbs
    · exact Nat.div_mul_le_self _ _
    · rw [hmod, hdiv, hfirst, Nat.mul_comm]
      simp [window]
    · intro id h1 h2
      dsimp only at h2
      omega
  have hloop : Prog.Triple (Streaming env cf T I s first r.1 (r.2 - r.1 + 1)
      (⟨body, 0, 0, r.2 - r.1 + 1⟩,
        ⟨List.replicate (r.1 % cf.blocksize) 0, r.1 / cf.blocksize, 0⟩))
      (Prog.loop (bodyRound env) Prod.snd (r.2 - r.1 + 1 + 2) (⟨body, 0, 0, r.2 - r.1 + 1⟩,
        ⟨List.replicate (r.1 % cf.blocksize) 0, r.1 / cf.blocksize, 0⟩))
      (fun c t => Reassembly env cf T I s first (r.1 + (r.2 - r.1 + 1)) c t ∧ Ended cf c)
      (fun _ _ => False) :=
    Prog.Triple.loop_variant (fun v => v.1.remaining)
      (fun v => bodyRound_honest hI hcf hT hh (by omega) v) (by dsimp only; omega)
  rw [hlen] at hloop
  refine Prog.Triple.bind hloop (fun v => ?_) s hstart
  refine Prog.Triple.bind (storeTail_honest hI hcf hT hh (by omega) ?_ v) fun m =>
    Prog.Triple.pure fun t ht => ?_
  · exact hr.stop
  · refine ⟨hs.trans ht.1, fun id h1 h2 => ht.2 id ?_ h2⟩
    rw [← hdiv]
    exact (Nat.div_le_iff_le_mul_add_pred hbs).2 (by rw [Nat.mul_comm]; omega)

theorem fetchRanges_honest (url : String) {ranges : List (ℕ × ℕ)}
    (hranges : ∀ r ∈ ranges, Planned cf.blocksize T.length r) :
    Prog.Triple (Since env cf I s₀ n) (fetchRanges env url ranges)
      (fun k s => Since env cf I s₀ (n + k) s ∧ ∀ r ∈ ranges, ∀ id, r.1 ≤ id * cf.blocksize →
        id * cf.blocksize < r.2 + 1 → s.matcher.isBlockKnown id)
      (fun _ _ => False) := by
  induction ranges generalizing s₀ n with
  | nil => exact Prog.Triple.pure fun s hs => ⟨hs, by simp⟩
  | cons r rest ih =>
    obtain ⟨hr, hrest⟩ := List.forall_mem_cons.1 hranges
    refine Prog.Triple.bind (fetchRange_honest hI hcf hT hh url hr) fun k => ?_
    rintro s₁ ⟨hs₁, hknown⟩
    refine Prog.Triple.bind (ih hrest) (fun m => Prog.Triple.pure fun s hs => ?_)
      s₁ (Since.refl hs₁.idle)
    obtain ⟨hs, hall⟩ := hs
    rw [Nat.zero_add] at hs
    refine ⟨Nat.add_assoc n k m ▸ hs₁.trans hs, List.forall_mem_cons.2 ⟨fun id h1 h2 => ?_, hall⟩⟩
    exact hs.known id (hknown id h1 h2)

/-- **A download** from an honest server does not fail, and leaves every block known. -/
theorem downloadMissingBlocks_honest (hs : Keeps.Idle env cf I s) (hurls : cf.urls ≠ []) :
    Prog.Triple (· = s) (downloadMissingBlocks env)
      (fun n s' => Since env cf I s n s' ∧ ∀ id < s.matcher.totalBlocks, s'.matcher.isBlockKnown id)
      (fun _ _ => False) := by
  have hbs := hcf.blocksize_pos
  have hcounted := hs.2.counted hcf
  have hinranges := hcounted.inRanges_iff
  have hstart : ∀ id < s.matcher.totalBlocks, id * cf.blocksize < cf.length := fun id hid => by
    rwa [← ControlFile.lt_numBlocks hbs, ← hcf.count, ← hs.2.totalBlocks hcf]
  refine Prog.Triple.read fun s₁ hs₁ => ?_
  rw [hs₁, hs.2.control]
  cases hcons : cf.urls with
  | nil => exact absurd hcons hurls
  | cons url rest =>
    refine Prog.Triple.ite (fun hnone => Prog.Triple.pure ?_) fun _ => ?_
    · rintro _ rfl
      refine ⟨Since.refl hs, fun id hid => ?_⟩
      have hnot := (hinranges id).not.1 (hnone ▸ BlockMatcher.inRanges_nil id)
      simpa using fun hunknown => hnot ⟨hid, hunknown⟩
    · have hnone : ∀ i ∈ (none : Option ℕ), i < 0 := nofun
      obtain ⟨hmem, hpair⟩ := BlockMatcher.neededFrom_ascending s.matcher.knownBlocks hnone
      have hblocks : ∀ r ∈ s.matcher.neededBlockRanges,
          r.1 < r.2 ∧ ∀ id < r.2, id * cf.blocksize < cf.length := by
        intro r hr
        obtain ⟨-, hlt, hle⟩ := hmem r hr
        rw [hcounted.length, Nat.zero_add] at hle
        exact ⟨hlt, fun id hid => hstart id (hid.trans_le hle)⟩
      refine Prog.Triple.conseq (P := Since env cf I s 0) (fetchRanges_honest hI hcf hT hh _
        fun r hr => hT.length ▸ planned_of_mem hbs hblocks hpair _ hr) ?_ ?_ fun _ _ h => h
      · rintro t rfl
        exact Since.refl hs
      rintro n s' ⟨hsince, hall⟩
      rw [Nat.zero_add] at hsince
      refine ⟨hsince, fun id hid => ?_⟩
      cases hknown : s.matcher.isBlockKnown id with
      | true => exact hsince.known id hknown
      | false =>
        -- the range that the block is in was requested as part of a planned one
        obtain ⟨r, hr, hle, hlt⟩ := (hinranges id).2 ⟨hid, hknown⟩
        obtain ⟨m, hm, h1, h2⟩ := exists_planned hbs hblocks hpair s.rangeGapThreshold hr ⟨hle, hlt⟩
        refine hall m hm id h1 ?_
        have := hstart id hid
        rw [Nat.succ_mul] at h2
        omega

omit hI hT hh in
theorem Since.count_of_complete (hs : Keeps.Idle env cf I s) (h : Since env cf I s n s')
    (hcomplete : s'.matcher.isComplete) : n = s.matcher.knownBlocks.count false := by
  have hcounted := hs.2.counted hcf
  have hcounted' := h.idle.2.counted hcf
  have htotal : s'.matcher.totalBlocks = s.matcher.totalBlocks :=
    (h.idle.2.totalBlocks hcf).trans (hs.2.totalBlocks hcf).symm
  have hall : s'.matcher.knownCount = s'.matcher.knownBlocks.length := by
    simpa [BlockMatcher.isComplete] using hcomplete
  have hsplit := List.count_true_add_count_false s.matcher.knownBlocks
  have hlen := hcounted.length
  have hlen' := hcounted'.length
  have hcount := hcounted.count
  have hadd := h.count
  rw [BlockMatcher.totalBlocks, BlockMatcher.totalBlocks] at htotal
  omega

/-- **A download** from an honest server makes every missing block known, and counts them. -/
theorem download_honest (hs : Keeps.Idle env cf I s) (hurls : cf.urls ≠ []) :
    ∃ s', downloadMissingBlocks env s = (.ok (s.matcher.knownBlocks.count false), s') ∧
      Keeps.Idle env cf I s' ∧ s'.matcher.isComplete := by
  have hpost := downloadMissingBlocks_honest hI hcf hT hh hs hurls s rfl
  revert hpost
  match downloadMissingBlocks env s with
  | (.error e, s') => exact False.elim
  | (.ok n, s') =>
    rintro ⟨hsince, hall⟩
    have htotal : s'.matcher.totalBlocks = s.matcher.totalBlocks :=
      (hsince.idle.2.totalBlocks hcf).trans (hs.2.totalBlocks hcf).symm
    have hcomplete : s'.matcher.isComplete :=
      (hsince.idle.2.counted hcf).isComplete_iff.2 fun id hid => hall id (htotal ▸ hid)
    exact ⟨s', by rw [hsince.count_of_complete hcf hs hcomplete], hsince.idle, hcomplete⟩

end Download

end Zsync
