import Zsync.Assembly.Rules
import Zsync.Control.RoundTrip

/-!
# Progress of downloads

What a download counts, whatever the server sends and whatever fails.

* `Since` : how many blocks became known since a state, none of them forgotten;
* `Since.fetchRanges`, `download_since` : a download that returns has counted the blocks that became
  known in it, and one that fails has forgotten none;
* `cut_ends`, `body_ends` : the loops over a response end before the bounds the model gives them;
* `download_ends` : all of this over every run, and the loop that downloads until nothing is added.
-/

namespace Zsync

variable {env : Env} {cf : ControlFile} {C : ℕ × Bytes → Prop}
  {I : List (ℕ × Bytes) → State → Prop} {s₀ s₁ s s' : State} {n : ℕ}

/-! ### Blocks that become known -/

/-- `n` blocks became known since `s₀`, and none was forgotten. -/
structure Since (env : Env) (cf : ControlFile) (I : List (ℕ × Bytes) → State → Prop) (s₀ : State)
    (n : ℕ) (s : State) : Prop where
  idle : Keeps.Idle env cf I s
  known : ∀ id, s₀.matcher.isBlockKnown id → s.matcher.isBlockKnown id
  count : s.matcher.knownCount = s₀.matcher.knownCount + n

theorem Since.refl (h : Keeps.Idle env cf I s) : Since env cf I s 0 s := ⟨h, fun _ hk => hk, rfl⟩

theorem Since.trans {k : ℕ} (h : Since env cf I s₀ n s₁) (h' : Since env cf I s₁ k s) :
    Since env cf I s₀ (n + k) s :=
  ⟨h'.idle, fun id hk => h'.known id (h.known id hk), by rw [h'.count, h.count, Nat.add_assoc]⟩

/-- Some blocks became known since `s₀`, and none was forgotten. -/
def SinceSome (env : Env) (cf : ControlFile) (I : List (ℕ × Bytes) → State → Prop) (s₀ : State)
    (_ : AssemblyError) (s : State) : Prop := ∃ n, Since env cf I s₀ n s

/-- The local variables before the first read of a response. -/
abbrev bodyStart (cf : ControlFile) (reader : HttpRangeReader) (rangeStart : ℕ) :
    HttpRangeReader × CutVars :=
  (reader, ⟨List.replicate (rangeStart % cf.blocksize) 0, rangeStart / cf.blocksize, 0⟩)

section Download

variable (hI : Keeps env cf C I) (hcf : cf.Checked) (hC : ∀ q, C q)
include hI

theorem Since.quiet (s s' : State) (hq : Quiet s s') (h : Since env cf I s₀ n s) :
    Since env cf I s₀ n s' :=
  ⟨hI.idle_quiet s s' hq h.idle, hq.matcher ▸ h.known, hq.matcher ▸ h.count⟩

theorem Since.checkAborted :
    Prog.Triple (Since env cf I s₀ n) (checkAborted env) (fun _ => Since env cf I s₀ n)
      (SinceSome env cf I s₀) :=
  (triple_checkAborted (Since.quiet hI)).conseq (fun _ h => h) (fun _ _ h => h) fun _ _ h => ⟨n, h⟩

include hcf hC

/-- **A downloaded block** is counted when it is stored, and only then. -/
theorem Since.storeBlock (s₀ : State) (n : ℕ) {id : ℕ} {data : Bytes}
    (hdata : data ≠ [] ∧ data.length ≤ cf.blocksize) :
    Prog.Triple (fun s => Since env cf I s₀ n s ∧ id < s.matcher.totalBlocks ∧
        s.matcher.isBlockKnown id = false)
      (storeBlock env id (padTo cf.blocksize data) data) (fun k => Since env cf I s₀ (n + k))
      (SinceSome env cf I s₀) := by
  rintro s ⟨hs, hid, hunknown⟩
  obtain ⟨hidle, hbase⟩ := hs.idle
  obtain ⟨s', hrun, hbase', hfile, hclaimed⟩ := submitBlock_run hcf hbase hdata hid hunknown
  rw [storeBlock_run hrun]
  split_ifs at hclaimed ⊢
  · have hsince :
        ∀ t, Keeps.Idle env cf I t → t.matcher = s'.matcher → Since env cf I s₀ (n + 1) t := by
      refine fun t hi hm => ⟨hi, fun j hj => ?_, ?_⟩ <;> rw [hm]
      · rw [hclaimed.known, hs.known j hj, Bool.true_or]
      · rw [hclaimed.count, hs.count, Nat.add_assoc, List.length_singleton]
    refine (hI.writeClaimed id data s'.matcher).conseq (fun _ h => h) ?_
      (fun _ t h => ⟨n + 1, hsince t h.1 h.2⟩) s'
      ⟨⟨hI.claimed hbase hclaimed (fun q _ => hC q) hidle, hbase', Or.inl rfl⟩, rfl⟩
    rintro _ t ⟨rfl, hat, hm⟩
    exact hsince t ⟨hat.1, hat.2.1⟩ hm
  · exact hclaimed ▸ hs

theorem Since.cutRound (s₀ : State) (v : CutVars) :
    Prog.Triple (Since env cf I s₀ v.downloadedBlocks) (cutRound env v)
      (fun r s => Sum.elim
        (fun v' => Since env cf I s₀ v'.downloadedBlocks s ∧ v'.buf.length < v.buf.length)
        (fun v' => Since env cf I s₀ v'.downloadedBlocks s ∧ Ended cf v') r)
      (SinceSome env cf I s₀) := by
  refine Prog.Triple.read fun s₁ hs₁ => Prog.Triple.ite (fun hend => Prog.Triple.pure ?_)
    fun hcut => ?_
  · rintro s rfl
    rw [hs₁.idle.2.control, hs₁.idle.2.totalBlocks hcf] at hend
    exact ⟨hs₁, hend⟩
  have hbase := hs₁.idle.2
  have hbs := hcf.blocksize_pos
  rw [hbase.control] at hcut ⊢
  simp only [not_or, Nat.not_lt, Nat.not_le] at hcut
  refine Prog.Triple.bind (Q := fun k s => Since env cf I s₀ (v.downloadedBlocks + k) s) ?_ fun k =>
    Prog.Triple.pure fun s hs => ⟨hs, by dsimp only; rw [List.length_drop]; omega⟩
  refine Prog.Triple.ite (fun _ => Prog.Triple.pure ?_) fun hunknown => ?_
  · rintro s rfl
    exact hs₁
  · rw [hbase.control]
    obtain ⟨hpos, hle⟩ := blockDataEnd_pos_le hcf s₁.matcher.totalBlocks v.currentBlockId
    refine (Since.storeBlock hI hcf hC s₀ v.downloadedBlocks ⟨?_, ?_⟩).conseq ?_ (fun _ _ h => h)
      fun _ _ h => h
    · rw [ne_eq, List.take_eq_nil_iff, not_or]
      exact ⟨by omega, List.ne_nil_of_length_pos (by omega)⟩
    · exact (List.length_take_le _ _).trans hle
    · rintro s rfl
      exact ⟨hs₁, hcut.2, by simpa using hunknown⟩

theorem Since.bodyRound (s₀ : State) {v : HttpRangeReader × CutVars} (hv : Ended cf v.2) :
    Prog.Triple (Since env cf I s₀ v.2.downloadedBlocks) (bodyRound env v)
      (fun r s => Sum.elim
        (fun v' => (Since env cf I s₀ v'.2.downloadedBlocks s ∧ Ended cf v'.2) ∧
          v'.1.remaining < v.1.remaining)
        (fun c => Since env cf I s₀ c.downloadedBlocks s ∧ Ended cf c) r)
      (SinceSome env cf I s₀) := by
  refine Prog.Triple.bind (Since.checkAborted hI) fun _ => ?_
  match hread : v.1.read readBufSize with
  | (.error kind, reader) => exact Prog.Triple.throw fun _ h => ⟨_, h⟩
  | (.ok got, reader) =>
    refine Prog.Triple.ite (fun _ => Prog.Triple.pure fun _ h => ⟨h, hv⟩) fun hgot => ?_
    have hsum := HttpRangeReader.read_eq_ok hread
    have hpos := List.length_pos_of_ne_nil hgot
    have hcut : Prog.Triple (Since env cf I s₀ v.2.downloadedBlocks)
        (Prog.loop (Zsync.cutRound env) id ((v.2.buf ++ got).length + 1)
          { v.2 with buf := v.2.buf ++ got })
        (fun c s => Since env cf I s₀ c.downloadedBlocks s ∧ Ended cf c) (SinceSome env cf I s₀) :=
      Prog.Triple.loop_variant (I := fun c : CutVars => Since env cf I s₀ c.downloadedBlocks)
        (fun c => c.buf.length) (fun c => (Since.cutRound hI hcf hC s₀ c).conseq (fun _ h => h)
          (fun r _ h => by cases r <;> exact h) fun _ _ h => h)
        (b := { v.2 with buf := v.2.buf ++ got }) (Nat.lt_succ_self _)
    exact Prog.Triple.bind hcut fun _ => Prog.Triple.pure fun _ h => ⟨h, by dsimp only; omega⟩

theorem Since.storeTail (s₀ : State) {v : CutVars} (hv : Ended cf v) :
    Prog.Triple (Since env cf I s₀ v.downloadedBlocks) (storeTail env v)
      (fun k => Since env cf I s₀ (v.downloadedBlocks + k)) (SinceSome env cf I s₀) := by
  refine Prog.Triple.read fun s₁ hs₁ => Prog.Triple.ite (fun htail => ?_)
    fun _ => Prog.Triple.pure ?_
  · obtain ⟨hpos, hlt, hunknown⟩ := htail
    have hbase := hs₁.idle.2
    rw [hbase.control]
    have hlen := hv.resolve_right (by rw [← hbase.totalBlocks hcf]; omega)
    refine (Since.storeBlock hI hcf hC s₀ v.downloadedBlocks
      ⟨List.ne_nil_of_length_pos hpos, hlen.le⟩).conseq ?_ (fun _ _ h => h) fun _ _ h => h
    rintro s rfl
    exact ⟨hs₁, hlt, by simpa using hunknown⟩
  · rintro s rfl
    exact hs₁

/-- **One response** is counted. -/
theorem Since.fetchRange (url : String) (rangeStart rangeEnd : ℕ) :
    Prog.Triple (Since env cf I s₀ n) (fetchRange env url rangeStart rangeEnd)
      (fun k => Since env cf I s₀ (n + k)) (SinceSome env cf I s₀) := by
  refine Prog.Triple.bind (Since.checkAborted hI) fun _ => ?_
  refine Prog.Triple.read fun s₁ hs₁ => ?_
  rw [hs₁.idle.2.control]
  refine Prog.Triple.bind (Prog.Triple.modify (Q := fun _ => Since env cf I s₀ n) ?_) fun _ => ?_
  · rintro s rfl
    exact Since.quiet hI s _ (Quiet.of_eq rfl rfl rfl rfl rfl rfl ⟨[], rfl, by simp⟩) hs₁
  cases (HttpClient.fetchRangeReader env.agent s₁.http url rangeStart rangeEnd).1 with
  | error e => exact Prog.Triple.throw fun _ h => ⟨n, h⟩
  | ok reader =>
    intro s hs
    have hsome : ∀ e t, SinceSome env cf I s e t → SinceSome env cf I s₀ e t :=
      fun _ t ⟨k, h⟩ => ⟨n + k, hs.trans h⟩
    have hloop : Prog.Triple
        (fun t => Since env cf I s 0 t ∧ Ended cf (bodyStart cf reader rangeStart).2)
        (Prog.loop (Zsync.bodyRound env) Prod.snd (reader.remaining + 2)
          (bodyStart cf reader rangeStart))
        (fun c t => Since env cf I s c.downloadedBlocks t ∧ Ended cf c) (SinceSome env cf I s) :=
      Prog.Triple.loop_variant
        (I := fun v : HttpRangeReader × CutVars => fun t =>
          Since env cf I s v.2.downloadedBlocks t ∧ Ended cf v.2)
        (fun v => v.1.remaining) (fun v t ht => Since.bodyRound hI hcf hC s ht.2 t ht.1)
        (b := bodyStart cf reader rangeStart) (n := reader.remaining + 2) (by dsimp only; omega)
    have hended : Ended cf (bodyStart cf reader rangeStart).2 := by
      refine Or.inl ?_
      rw [List.length_replicate]
      exact Nat.mod_lt _ hcf.blocksize_pos
    refine Prog.Triple.bind (hloop.conseq (fun _ h => h) (fun _ _ h => h) hsome) (fun c => ?_) s
      ⟨Since.refl hs.idle, hended⟩
    rintro t ⟨ht, hc⟩
    have htail : Prog.Triple (Since env cf I s c.downloadedBlocks) (do
        let k ← Zsync.storeTail env c
        pure (c.downloadedBlocks + k)) (fun k => Since env cf I s₀ (n + k))
          (SinceSome env cf I s₀) :=
      Prog.Triple.bind ((Since.storeTail hI hcf hC s hc).conseq (fun _ h => h)
        (fun _ _ h => h) hsome)
        fun _ => Prog.Triple.pure fun _ h => hs.trans h
    exact htail t ht

theorem Since.fetchRanges (url : String) (ranges : List (ℕ × ℕ)) :
    Prog.Triple (Since env cf I s₀ n) (fetchRanges env url ranges)
      (fun k => Since env cf I s₀ (n + k)) (SinceSome env cf I s₀) := by
  induction ranges generalizing n with
  | nil => exact Prog.Triple.pure fun _ h => h
  | cons r rest ih =>
    refine Prog.Triple.bind (Since.fetchRange hI hcf hC url r.1 r.2) fun k =>
      Prog.Triple.bind ih fun m => Prog.Triple.pure fun s hs => ?_
    rwa [← Nat.add_assoc]

/-- **A download** that returns has counted what became known in it, and one that fails has
forgotten nothing. -/
theorem download_since (hs : Keeps.Idle env cf I s) :
    Prog.Triple (· = s) (downloadMissingBlocks env) (Since env cf I s) (SinceSome env cf I s) := by
  refine Prog.Triple.read fun s₁ hs₁ => ?_
  have hread : ∀ t, t = s₁ → Since env cf I s 0 t := fun t ht => by
    rw [ht, hs₁]
    exact Since.refl hs
  cases s₁.control.urls with
  | nil => exact Prog.Triple.throw fun t ht => ⟨0, hread t ht⟩
  | cons url rest =>
    refine Prog.Triple.ite (fun _ => Prog.Triple.pure hread) fun _ => ?_
    refine (Since.fetchRanges hI hcf hC _ _).conseq hread (fun k t ht => ?_) fun _ _ h => h
    rwa [Nat.zero_add] at ht

end Download

/-! ### Every loop ends -/

theorem keeps_true (env : Env) (cf : ControlFile) :
    Keeps env cf (fun _ => True) (fun _ _ => True) :=
  ⟨fun _ _ => trivial, fun _ _ _ _ => trivial, fun _ _ _ => trivial, fun _ _ _ => trivial⟩

theorem cut_ends (hcf : cf.Checked) (hs : Base env cf s) (v : CutVars) :
    ∃ k ≤ v.buf.length + 1, Prog.Ends (cutRound env) k v s
      (Prog.loop (cutRound env) id (v.buf.length + 1) v s) := by
  refine Prog.ends_loop (I := fun _ => Keeps.Idle env cf fun _ _ => True)
    (fun (v : CutVars) _ => v.buf.length)
    (fun b t b' t' ht hrun => ?_) id ⟨trivial, hs⟩ (Nat.lt_succ_self _)
  have hpost := (keeps_true env cf).cutRound hcf (fun _ => trivial) b t ht
  rwa [hrun] at hpost

/-- Reading a response ends, whatever the body returns. -/
theorem body_ends (hcf : cf.Checked) (hs : Base env cf s) (reader : HttpRangeReader)
    (rangeStart : ℕ) :
    ∃ k ≤ reader.remaining + 1, Prog.Ends (bodyRound env) k (bodyStart cf reader rangeStart) s
      (Prog.loop (bodyRound env) Prod.snd (reader.remaining + 2)
        (bodyStart cf reader rangeStart) s) := by
  refine Prog.ends_loop (I := fun v t => Since env cf (fun _ _ => True) s v.2.downloadedBlocks t ∧
    Ended cf v.2) (fun (v : HttpRangeReader × CutVars) _ => v.1.remaining)
    (fun v t v' t' ht hrun => ?_) Prod.snd (b := bodyStart cf reader rangeStart)
    ⟨Since.refl ⟨trivial, hs⟩, Or.inl ?_⟩ (by dsimp only; omega)
  · have hpost := Since.bodyRound (keeps_true env cf) hcf (fun _ => trivial) s ht.2 t ht.1
    rwa [hrun] at hpost
  · rw [List.length_replicate]
    exact Nat.mod_lt _ hcf.blocksize_pos

/-- One round of `while assembly.download_missing_blocks()? > 0 {}`. -/
def downloadPass (env : Env) (_ : Unit) : Asm (Unit ⊕ Unit) := do
  let n ← downloadMissingBlocks env
  pure (if 0 < n then .inl () else .inr ())

/-- **Downloading until nothing is added** takes one call more than there are blocks to add. -/
theorem passes_end (hcf : cf.Checked) (hs : Base env cf s) :
    ∃ k ≤ cf.blockChecksums.length + 1, ∃ r, Prog.Ends (downloadPass env) k () s r := by
  have hround : ∀ b t b' t', Base env cf t → downloadPass env b t = (.ok (.inl b'), t') →
      Base env cf t' ∧ cf.blockChecksums.length - t'.matcher.knownCount <
        cf.blockChecksums.length - t.matcher.knownCount := by
    intro b t b' t' ht hrun
    have hpost := download_since (keeps_true env cf) hcf (fun _ => trivial) ⟨trivial, ht⟩ t rfl
    rw [downloadPass, Prog.bind_run] at hrun
    revert hpost hrun
    match downloadMissingBlocks env t with
    | (.error e, t₁) => exact fun hrun => nomatch hrun
    | (.ok n, t₁) =>
      intro hrun hsince
      simp only [Prog.next, Prog.pure_run] at hrun
      split_ifs at hrun with hn
      · cases hrun
        have hle : t'.matcher.knownCount ≤ cf.blockChecksums.length := by
          have hcounted := hsince.idle.2.counted hcf
          rw [hcounted.count, ← hsince.idle.2.totalBlocks hcf]
          exact List.count_le_length.trans hcounted.length.le
        have hcount := hsince.count
        exact ⟨hsince.idle.2, by omega⟩
      · cases hrun
  obtain ⟨k, hk, hends⟩ := Prog.ends_loop (I := fun _ => Base env cf)
    (fun _ t => cf.blockChecksums.length - t.matcher.knownCount) hround id hs (Nat.lt_succ_self _)
  exact ⟨k, by omega, _, hends⟩

/-! ### Blocks that were verified -/

/-- Every block that was taken is known. -/
def TookKnown (_ : List (ℕ × Bytes)) (s : State) : Prop :=
  ∀ id data, Event.took id data ∈ s.trace → s.matcher.isBlockKnown id

theorem keeps_tookKnown (env : Env) (cf : ControlFile) :
    Keeps env cf (fun _ => True) TookKnown where
  quiet {p s s'} hq h id data hmem := by
    obtain ⟨es, htrace, hes⟩ := hq.trace
    rw [htrace, List.mem_append] at hmem
    rw [hq.matcher]
    exact hmem.elim (fun he => nomatch hes _ he) (h id data)
  claimed {s s' p} _ hc _ h id data hmem := by
    rw [hc.trace, List.mem_append, List.mem_reverse, List.mem_map] at hmem
    rw [hc.known, Bool.or_eq_true, decide_eq_true_iff]
    rcases hmem with ⟨q, hq, heq⟩ | hmem
    · cases heq
      exact Or.inr (List.mem_map_of_mem hq)
    · exact Or.inl (h id data hmem)
  wrote {id data p s} _ _ h id' data' hmem := by
    rcases List.mem_cons.1 hmem with heq | hmem
    · cases heq
    · exact h id' data' hmem
  failed {id data p s s'} _ hf h id' data' hmem := by
    obtain ⟨op, kind, es, htrace, -, hes⟩ := hf.trace
    rw [htrace, List.cons_append, List.mem_cons, List.mem_append] at hmem
    rw [hf.matcher]
    rcases hmem with heq | he | hmem
    · cases heq
    · exact nomatch hes _ he
    · exact h id' data' hmem

/-! ### Every run -/

/-- Entries that are only ever set are the same when as many are set. -/
theorem eq_of_count_eq {l l' : List Bool} (hlen : l.length = l'.length)
    (h : ∀ i, l.getD i false → l'.getD i false) (hcount : l'.count true = l.count true) :
    l' = l := by
  have hle : ∀ {l l' : List Bool}, l.length = l'.length → (∀ i, l.getD i false → l'.getD i false) →
      l.count true ≤ l'.count true ∧ (l'.count true = l.count true → l' = l) := by
    intro l
    induction l with
    | nil =>
      intro l' hlen _
      rw [List.length_eq_zero_iff.1 hlen.symm]
      exact ⟨le_rfl, fun _ => rfl⟩
    | cons b l ih =>
      intro l' hlen h
      cases l' with
      | nil => cases hlen
      | cons b' l' =>
        obtain ⟨hle, heq⟩ := ih (Nat.succ.inj hlen) fun i hi => h (i + 1) hi
        have hhead : b → b' := h 0
        cases b with
        | true =>
          obtain rfl : b' = true := hhead rfl
          simp only [List.count_cons_self]
          exact ⟨by omega, fun hc => by rw [heq (by omega)]⟩
        | false =>
          cases b' with
          | true =>
            rw [List.count_cons_self, List.count_cons_of_ne (by decide)]
            exact ⟨by omega, fun hc => by omega⟩
          | false =>
            rw [List.count_cons_of_ne (by decide), List.count_cons_of_ne (by decide)]
            exact ⟨hle, fun hc => by rw [heq hc]⟩
  exact (hle hlen h).2 hcount

theorem Since.isBlockKnown_eq (hcf : cf.Checked) (hidle : Keeps.Idle env cf I s)
    (h : Since env cf I s 0 s') (id : ℕ) :
    s'.matcher.isBlockKnown id = s.matcher.isBlockKnown id := by
  have hcounted := hidle.2.counted hcf
  have hcounted' := h.idle.2.counted hcf
  have hcount := h.count
  rw [Nat.add_zero, hcounted'.count, hcounted.count] at hcount
  have hlen : s.matcher.knownBlocks.length = s'.matcher.knownBlocks.length := by
    rw [hcounted.length, hcounted'.length]
    exact (hidle.2.totalBlocks hcf).trans (h.idle.2.totalBlocks hcf).symm
  rw [BlockMatcher.isBlockKnown, BlockMatcher.isBlockKnown, eq_of_count_eq hlen h.known hcount]

/-- **Downloads end.**  In every run of calls on a control file that `parse` accepts, with any
server and any failures: the loops over a response end; a response is used up to the length
requested and read for at most one byte more; a call forgets no block, not even one it verified
before it failed; and a call that returns has counted the blocks that became known.  So downloading
until nothing is added takes at most one call more than there are blocks. -/
theorem download_ends {input : Bytes} (hp : ControlFile.parse input = .ok cf) (env : Env)
    (outputPath : String) (baseUrl : Option String) (http : HttpClient) (fs : String → Option File)
    (calls : List Call) :
    let s := runCalls env calls
      (State.start (ZsyncAssembly.withClient cf outputPath baseUrl http) fs)
    let r := downloadMissingBlocks env s
    (∀ t, Base env cf t → ∀ v, ∃ k, Prog.Ends (cutRound env) k v t
        (Prog.loop (cutRound env) id (v.buf.length + 1) v t)) ∧
      (∀ t, Base env cf t → ∀ reader rangeStart, ∃ k,
        Prog.Ends (bodyRound env) k (bodyStart cf reader rangeStart) t
          (Prog.loop (bodyRound env) Prod.snd (reader.remaining + 2)
            (bodyStart cf reader rangeStart) t)) ∧
      Base env cf s ∧
      (∀ client client' url start stop reader,
        HttpClient.fetchRangeReader env.agent client url start stop = (.ok reader, client') →
        ∀ lens, (reader.readAll lens).1 ≤ stop - start + 1 ∧
          (reader.readAll lens).2 ≤ stop - start + 1 + 1) ∧
      (∀ id, s.matcher.isBlockKnown id → r.2.matcher.isBlockKnown id) ∧
      (∀ id data, Event.took id data ∈ r.2.trace → r.2.matcher.isBlockKnown id) ∧
      (∀ n, r.1 = .ok n →
        r.2.matcher.knownBlocks.count true = s.matcher.knownBlocks.count true + n ∧
          (n = 0 → ∀ id, r.2.matcher.isBlockKnown id = s.matcher.isBlockKnown id)) ∧
      ∃ k ≤ cf.blockChecksums.length + 1, ∃ out, Prog.Ends (downloadPass env) k () s out := by
  have hcf := ControlFile.checked_of_parse hp
  intro s r
  have hidle : Keeps.Idle env cf TookKnown s :=
    (keeps_tookKnown env cf).runCalls hcf (fun _ => trivial) calls
      ⟨nofun, base_start cf outputPath baseUrl http fs⟩
  have hpost := download_since (keeps_tookKnown env cf) hcf (fun _ => trivial) hidle s rfl
  have hok : ∀ n, r.1 = .ok n → Since env cf TookKnown s n r.2 := fun n hrun => by
    rwa [show downloadMissingBlocks env s = (.ok n, r.2) from Prod.ext hrun rfl] at hpost
  have hsome : ∃ n, Since env cf TookKnown s n r.2 := by
    cases hrun : r.1 with
    | ok n => exact ⟨n, hok n hrun⟩
    | error e =>
      rwa [show downloadMissingBlocks env s = (.error e, r.2) from Prod.ext hrun rfl] at hpost
  refine ⟨fun t ht v => ?_, fun t ht reader start => ?_, hidle.2, ?_, ?_, ?_, ?_,
    passes_end hcf hidle.2⟩
  · obtain ⟨k, -, hends⟩ := cut_ends hcf ht v
    exact ⟨k, hends⟩
  · obtain ⟨k, -, hends⟩ := body_ends hcf ht reader start
    exact ⟨k, hends⟩
  · intro client client' url start stop reader hrun lens
    rw [← HttpClient.remaining_of_fetchRangeReader hrun]
    exact reader.readAll_le lens
  · obtain ⟨n, hn⟩ := hsome
    exact hn.known
  · obtain ⟨n, hn⟩ := hsome
    exact hn.idle.1
  · intro n hrun
    have hn := hok n hrun
    refine ⟨?_, fun h0 id => ?_⟩
    · rw [← (hn.idle.2.counted hcf).count, ← (hidle.2.counted hcf).count]
      exact hn.count
    · subst h0
      exact hn.isBlockKnown_eq hcf hidle id

/-- A server with the wrong bytes, for a target of one block. -/
theorem download_ends_tiny :
    ∃ k ≤ 1 + 1, ∃ out, Prog.Ends (downloadPass (tinyEnv [9, 9] none)) k ()
      (runCalls (tinyEnv [9, 9] none) [.downloadMissingBlocks] (tinyStart none none)) out := by
  have hparse :
      ControlFile.parse (ControlFile.write (tinyControl none)) = .ok (tinyControl none) := by
    decide +kernel
  unfold tinyStart
  exact (download_ends hparse (tinyEnv [9, 9] none) "o" none ⟨none, 0⟩ (tinyFs none)
    [.downloadMissingBlocks]).2.2.2.2.2.2.2

end Zsync
