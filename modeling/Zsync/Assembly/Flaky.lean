import Zsync.Assembly.Delivery
import Zsync.Assembly.Steps

/-!
# A flaky server

A download from a server that has the target, over connections that break now and then.

* `Sends`, `Flaky` : a body that may break off, and a server that leaves bad requests unanswered;
* `fetchRangeReader_flaky` : a request fails only when all that was asked was bad;
* `fetchRange_flaky` : a range arrives, or its last request was bad;
* `download_flaky` : a call leaves every block known, or its last request was bad, and all of them
  when it made no block known.
-/

namespace Zsync

/-- The body of a response gives `data`, cut into reads of any positive size, until a read fails. -/
def Sends (body : Body) (data : Bytes) : Prop :=
  ∀ reads consumed len, consumed < data.length → 0 < len →
    (∃ n, 0 < n ∧ body.read reads consumed len = .ok (window data consumed n)) ∨
      ∃ kind, body.read reads consumed len = .error kind

/-- Every range of `T` that is requested is answered with its bytes, unless the request is bad.  A
bad request may be answered with some of them, or fail in a way that may pass. -/
def Flaky (agent : Agent) (T : Bytes) (bad : ℕ → Prop) : Prop :=
  ∀ n url start stop, start ≤ stop → stop < T.length →
    (∃ r, agent.get n url start stop = .ok r ∧ (r.status = 206 ∨ r.status = 200 ∧ start = 0) ∧
      Sends r.body (window T start (stop - start + 1)) ∧
      (Serves r.body (window T start (stop - start + 1)) ∨ bad n)) ∨
    bad n ∧ ∃ e, agent.get n url start stop = .error e ∧ e.toHttp.isTransient

/-- The same surroundings with another server. -/
def Env.via (env : Env) (agent : Agent) : Env := { env with agent := agent }

/-- A server that sends every range of `T` that it is asked for. -/
def Agent.serving (T : Bytes) : Agent := ⟨fun _ url start stop =>
  .ok ⟨206, url, ⟨fun _ consumed len =>
    .ok (window (window T start (stop - start + 1)) consumed len)⟩⟩⟩

/-- A client has made requests since it had made `q`, and all of them were bad. -/
def AllBad (bad : ℕ → Prop) (q : ℕ) (client : HttpClient) : Prop :=
  q < client.requests ∧ ∀ n, q ≤ n → n < client.requests → bad n

variable {env : Env} {agent : Agent} {cf : ControlFile} {T : Bytes} {bad : ℕ → Prop}

theorem honest_serving (hdisk : ∀ n op, (env.disk n op).error = none)
    (habort : ∀ n, env.abort n = false) : Honest (env.via (Agent.serving T)) T :=
  ⟨hdisk, habort, fun _ _ _ _ _ _ =>
    ⟨_, rfl, Or.inl rfl, fun _ _ len _ hlen => ⟨len, hlen, rfl⟩⟩⟩

/-- What an assembly keeps does not depend on its server. -/
theorem Delivering.via (agent : Agent) {s : State}
    (h : Keeps.Idle env cf (Delivering env cf T) s) :
    Keeps.Idle (env.via agent) cf (Delivering (env.via agent) cf T) s :=
  ⟨⟨h.1.accounted, h.1.healthy, h.1.pending, h.1.covers, h.1.agrees⟩,
    h.2.control, h.2.matcher, h.2.tempPath, h.2.file⟩

/-! ### Requests -/

section Requests

variable (hf : Flaky agent T bad)
include hf

theorem openRange_flaky (n : ℕ) (url : String) {start stop : ℕ} (hle : start ≤ stop)
    (hlt : stop < T.length) :
    (∃ body uri, HttpClient.openRange agent n url start stop =
        .ok (⟨body, 0, 0, stop - start + 1⟩, uri) ∧
        Sends body (window T start (stop - start + 1)) ∧
        (Serves body (window T start (stop - start + 1)) ∨ bad n)) ∨
      bad n ∧ ∃ e, HttpClient.openRange agent n url start stop = .error e ∧ e.isTransient := by
  rcases hf n url start stop hle hlt with ⟨r, hget, hstatus, hsends, hserves⟩ | ⟨hbad, e, hget, he⟩
  · refine Or.inl ⟨r.body, r.uri, ?_, hsends, hserves⟩
    rw [HttpClient.openRange, hget]
    rcases hstatus with h | ⟨h, h0⟩
    · simp [h]
    · simp [h, h0]
  · refine Or.inr ⟨hbad, e.toHttp, ?_, he⟩
    rw [HttpClient.openRange, hget]
    cases e <;> rfl

/-- **A request**, with one more to the URL itself when the redirect that is remembered is answered
with an error status. -/
theorem fetchRangeReader_flaky (client : HttpClient) (url : String) {start stop : ℕ}
    (hle : start ≤ stop) (hlt : stop < T.length) :
    let r := HttpClient.fetchRangeReader agent client url start stop
    (∃ body, r.1 = .ok ⟨body, 0, 0, stop - start + 1⟩ ∧ client.requests < r.2.requests ∧
        Sends body (window T start (stop - start + 1)) ∧
        (Serves body (window T start (stop - start + 1)) ∨ AllBad bad client.requests r.2)) ∨
      ∃ e, r.1 = .error e ∧ e.isTransient ∧ AllBad bad client.requests r.2 := by
  have hfirst (c : HttpClient) (hc : c.requests = client.requests + 1)
      (hbad : bad client.requests) : AllBad bad client.requests c :=
    ⟨hc.ge, fun n h1 h2 => (show n = client.requests by omega) ▸ hbad⟩
  have hdirect (c : HttpClient) : let r := HttpClient.fetchDirect agent c url start stop
      r.2.requests = c.requests + 1 ∧
        ((∃ body, r.1 = .ok ⟨body, 0, 0, stop - start + 1⟩ ∧
          Sends body (window T start (stop - start + 1)) ∧
          (Serves body (window T start (stop - start + 1)) ∨ bad c.requests)) ∨
        bad c.requests ∧ ∃ e, r.1 = .error e ∧ e.isTransient) := by
    intro r
    rcases openRange_flaky hf c.requests url hle hlt with
      ⟨body, uri, hrun, hsends⟩ | ⟨hbad, e, hrun, he⟩
    · simp only [r, HttpClient.fetchDirect, hrun]
      exact ⟨trivial, Or.inl ⟨body, rfl, hsends⟩⟩
    · simp only [r, HttpClient.fetchDirect, hrun]
      exact ⟨trivial, Or.inr ⟨hbad, e, rfl, he⟩⟩
  intro r
  simp only [r, HttpClient.fetchRangeReader]
  cases client.redirect.filter fun r => r.1 = url with
  | none =>
    obtain ⟨hcount, ⟨body, hok, hsends, hserves⟩ | ⟨hbad, e, herr, he⟩⟩ := hdirect client
    · exact Or.inl ⟨body, hok, hcount.ge, hsends, hserves.imp_right (hfirst _ hcount)⟩
    · exact Or.inr ⟨e, herr, he, hfirst _ hcount hbad⟩
  | some target =>
    rcases openRange_flaky hf client.requests target.2 hle hlt with
      ⟨body, uri, hrun, hsends, hserves⟩ | ⟨hbad, e, hrun, he⟩
    · simp only [hrun]
      exact Or.inl ⟨body, rfl, Nat.lt_succ_self _, hsends, hserves.imp_right (hfirst _ rfl)⟩
    · simp only [hrun]
      cases e with
      | status code =>
        -- the redirect is not followed again
        have hboth : ∀ c : HttpClient, c.requests = client.requests + 1 + 1 →
            bad (client.requests + 1) → AllBad bad client.requests c := by
          refine fun c hc hbad' => ⟨by omega, fun n h1 h2 => ?_⟩
          rcases Nat.eq_or_lt_of_le h1 with rfl | h1
          · exact hbad
          · exact (show n = client.requests + 1 by omega) ▸ hbad'
        obtain ⟨hcount, ⟨body, hok, hsends, hserves⟩ | ⟨hbad', e, herr, he⟩⟩ :=
          hdirect { client with requests := client.requests + 1 }
        · exact Or.inl ⟨body, hok, (Nat.lt_succ_self _).trans hcount.ge, hsends,
            hserves.imp_right (hboth _ hcount)⟩
        · exact Or.inr ⟨e, herr, he, hboth _ hcount hbad'⟩
      | _ => exact Or.inr ⟨_, rfl, he, hfirst _ rfl hbad⟩

end Requests

/-! ### What makes no request -/

/-- A program that makes no request. -/
abbrev Offline {α : Type} (x : Asm α) : Prop := Prog.Frames (fun s : State => s.http) x

theorem allows_http : Allows (Prog.Unchanged fun s : State => s.http) :=
  ⟨fun _ _ => rfl, fun _ _ => rfl, fun _ _ => rfl, fun _ _ _ => rfl, fun _ _ _ => rfl⟩

theorem offline_storeBlock (id : ℕ) (padded blockData : Bytes) :
    Offline (storeBlock env id padded blockData) := by
  refine Prog.Steps.bind (fun _ => rfl) fun ok =>
    .ite (allows_http.ensureFile.bind fun _ => ?_) (.pure _)
  exact .read fun _ => (allows_http.writeAtOffset _ _).bind fun _ =>
    Prog.Steps.bind (fun _ => rfl) fun _ => .pure _

theorem offline_readBody (env : Env) (blocksize rangeStart : ℕ) (reader : HttpRangeReader) :
    Offline (readBody env blocksize rangeStart reader) :=
  allows_http.readBody (fun s id data _ _ => offline_storeBlock id _ data s) _ _ _

/-! ### Responses -/

section Download

variable {I : List (ℕ × Bytes) → State → Prop} {s₀ s : State} {n : ℕ}

variable (hI : Keeps env cf (Covers cf) I) (hcf : cf.Checked)
  (hT : cf.DescribesTarget env.hashes T) (hh : Honest env T)

/-- The response gives the bytes of `T` from `start` on, of which those read have arrived, unless it
breaks off. -/
structure Flowing (env : Env) (cf : ControlFile) (T : Bytes) (I : List (ℕ × Bytes) → State → Prop)
    (s₀ : State) (first start len : ℕ) (body : Body) (v : HttpRangeReader × CutVars) (s : State) :
    Prop where
  reader : v.1.reader = body
  sends : Sends body (window T start len)
  length : v.1.consumed + v.1.remaining = len
  ended : Ended cf v.2
  arrived : Reassembly env cf T I s₀ first (start + v.1.consumed) v.2 s

/-- How a response breaks off: what has arrived stays, and a read has failed. -/
def BrokenOff (env : Env) (cf : ControlFile) (I : List (ℕ × Bytes) → State → Prop) (s₀ : State)
    (body : Body) (data : Bytes) (e : AssemblyError) (s : State) : Prop :=
  e.isTransient ∧ ¬ Serves body data ∧ SinceSome env cf I s₀ e s

theorem read_of_sends {r : HttpRangeReader} {data : Bytes} (hs : Sends r.reader data)
    (hlen : r.consumed + r.remaining = data.length) {len : ℕ} (hpos : 0 < len)
    (hrem : 0 < r.remaining) :
    (∃ n, 0 < n ∧ n ≤ r.remaining ∧ r.read len = (.ok (window data r.consumed n),
      ⟨r.reader, r.reads + 1, r.consumed + n, r.remaining - n⟩)) ∨
      ¬ Serves r.reader data ∧ ∃ kind reader', r.read len = (.error kind, reader') := by
  rcases hs r.reads r.consumed (min len r.remaining) (by omega) (by omega) with
    ⟨n, hn, hread⟩ | ⟨kind, hread⟩
  · have htake : (window data r.consumed n).take (min len r.remaining) =
        window data r.consumed (min n (min len r.remaining)) := by
      rw [window, window, List.take_take, Nat.min_comm]
    have hlength : (window data r.consumed (min n (min len r.remaining))).length =
        min n (min len r.remaining) := length_window (by omega)
    refine Or.inl ⟨min n (min len r.remaining), by omega, by omega, ?_⟩
    simp only [HttpRangeReader.read, if_neg hrem.ne', hread, htake, hlength]
  · refine Or.inr ⟨fun hserves => ?_, kind, { r with reads := r.reads + 1 }, ?_⟩
    · obtain ⟨n, -, hok⟩ :=
        hserves r.reads r.consumed (min len r.remaining) (by omega) (by omega)
      cases hok.symm.trans hread
    · simp only [HttpRangeReader.read, if_neg hrem.ne', hread]

include hI hcf hT hh

/-- **One read** of a response that may break off. -/
theorem bodyRound_flaky {first start len : ℕ} (hstop : start + len ≤ T.length) {body : Body}
    (v : HttpRangeReader × CutVars) :
    Prog.Triple (Flowing env cf T I s₀ first start len body v) (bodyRound (env.via agent) v)
      (fun r s => Sum.elim
        (fun v' => Flowing env cf T I s₀ first start len body v' s ∧
          v'.1.remaining < v.1.remaining)
        (fun c => Reassembly env cf T I s₀ first (start + len) c s ∧ Ended cf c) r)
      (BrokenOff env cf I s₀ body (window T start len)) := by
  have hwindow : (window T start len).length = len := length_window hstop
  have hquiet : ∀ s s', Quiet s s' → Flowing env cf T I s₀ first start len body v s →
      Flowing env cf T I s₀ first start len body v s' := by
    rintro s s' hq ⟨h1, h2, h3, h4, h5⟩
    exact ⟨h1, h2, h3, h4, h5.since.quiet hI s s' hq, h5.first_le, h5.le, h5.buf,
      hq.matcher ▸ h5.known⟩
  refine Prog.Triple.bind (((triple_checkAborted hquiet).of_succeeds
    (succeeds_checkAborted hh)).conseq (fun _ h => h) (fun _ _ h => h) fun _ _ h => h.elim)
    fun _ => ?_
  rintro s ⟨rfl, hsends, hlen, hended, hs⟩
  rcases Nat.eq_zero_or_pos v.1.remaining with hzero | hpos
  · have hread : v.1.read readBufSize =
        (.ok [], { v.1 with reader := Body.empty, reads := 0, consumed := 0 }) := by
      rw [HttpRangeReader.read, if_pos hzero]
    rw [hread]
    have hall : v.1.consumed = len := by omega
    exact ⟨hall ▸ hs, hended⟩
  · obtain ⟨n, hn, hle, hread⟩ | ⟨hnot, kind, reader', hread⟩ := read_of_sends hsends
      (hlen.trans hwindow.symm) (by decide : 0 < readBufSize) hpos
    · rw [hread]
      have hgot : window (window T start len) v.1.consumed n = window T (start + v.1.consumed) n :=
        window_window (by omega)
      have hne : window T (start + v.1.consumed) n ≠ [] :=
        List.ne_nil_of_length_pos (by rw [length_window (by omega)]; exact hn)
      simp only [hgot, if_neg hne]
      have hstart := hs.append n
      rw [Nat.add_assoc] at hstart
      have hloop : Prog.Triple (Reassembly env cf T I s₀ first (start + (v.1.consumed + n))
          { v.2 with buf := v.2.buf ++ window T (start + v.1.consumed) n })
          (Prog.loop (cutRound env) (fun c => c)
            ((v.2.buf ++ window T (start + v.1.consumed) n).length + 1)
            { v.2 with buf := v.2.buf ++ window T (start + v.1.consumed) n })
          (fun c t => Reassembly env cf T I s₀ first (start + (v.1.consumed + n)) c t ∧ Ended cf c)
          (BrokenOff env cf I s₀ v.1.reader (window T start len)) :=
        (Prog.Triple.loop_variant (fun c => c.buf.length) (fun c => (cutRound_honest hI hcf hT hh
          (by omega) c).conseq (fun _ h => h) (fun r _ h => by cases r <;> exact h)
          fun _ _ h => h) (Nat.lt_succ_self _)).conseq (fun _ h => h) (fun _ _ h => h)
          fun _ _ h => h.elim
      refine Prog.Triple.bind hloop (fun c => Prog.Triple.pure fun t ht => ?_) s hstart
      exact ⟨⟨rfl, hsends, by dsimp only; omega, ht.2, ht.1⟩, by dsimp only; omega⟩
    · rw [hread]
      exact ⟨rfl, hnot, _, hs.since⟩

/-- **A response** makes the blocks of its range known, or breaks off. -/
theorem readBody_flaky (agent : Agent) {r : ℕ × ℕ} (hr : Planned cf.blocksize T.length r)
    {body : Body} (hsends : Sends body (window T r.1 (r.2 - r.1 + 1)))
    (hs : Keeps.Idle env cf I s) :
    Prog.Post (fun k t => Since env cf I s k t ∧ ∀ id, r.1 ≤ id * cf.blocksize →
        id * cf.blocksize < r.2 + 1 → t.matcher.isBlockKnown id)
      (BrokenOff env cf I s body (window T r.1 (r.2 - r.1 + 1)))
      (readBody (env.via agent) cf.blocksize r.1 ⟨body, 0, 0, r.2 - r.1 + 1⟩ s) := by
  have hbs := hcf.blocksize_pos
  obtain ⟨first, hfirst⟩ := hr.start
  have hle := hr.le
  have hlt := hr.lt
  have hlen : r.1 + (r.2 - r.1 + 1) = r.2 + 1 := by omega
  have hdiv : r.1 / cf.blocksize = first := by rw [hfirst, Nat.mul_div_cancel_left _ hbs]
  have hmod : r.1 % cf.blocksize = 0 := by rw [hfirst, Nat.mul_mod_right]
  -- nothing has arrived yet
  have hstart : Flowing env cf T I s first r.1 (r.2 - r.1 + 1) body
      (⟨body, 0, 0, r.2 - r.1 + 1⟩,
        ⟨List.replicate (r.1 % cf.blocksize) 0, r.1 / cf.blocksize, 0⟩) s := by
    refine ⟨rfl, hsends, Nat.zero_add _, Or.inl ?_, ⟨Since.refl hs, hdiv.ge, ?_, ?_, ?_⟩⟩
    · rw [hmod]
      exact hbs
    · exact Nat.div_mul_le_self _ _
    · rw [hmod, hdiv, hfirst, Nat.mul_comm]
      simp [window]
    · intro id h1 h2
      dsimp only at h2
      omega
  have hloop : Prog.Triple (Flowing env cf T I s first r.1 (r.2 - r.1 + 1) body
      (⟨body, 0, 0, r.2 - r.1 + 1⟩,
        ⟨List.replicate (r.1 % cf.blocksize) 0, r.1 / cf.blocksize, 0⟩))
      (Prog.loop (bodyRound (env.via agent)) Prod.snd (r.2 - r.1 + 1 + 2)
        (⟨body, 0, 0, r.2 - r.1 + 1⟩,
          ⟨List.replicate (r.1 % cf.blocksize) 0, r.1 / cf.blocksize, 0⟩))
      (fun c t => Reassembly env cf T I s first (r.1 + (r.2 - r.1 + 1)) c t ∧ Ended cf c)
      (BrokenOff env cf I s body (window T r.1 (r.2 - r.1 + 1))) :=
    Prog.Triple.loop_variant (fun v => v.1.remaining)
      (fun v => bodyRound_flaky hI hcf hT hh (by omega) v) (by dsimp only; omega)
  rw [hlen] at hloop
  refine Prog.Triple.bind hloop (fun v => ?_) s hstart
  refine Prog.Triple.bind ((storeTail_honest hI hcf hT hh (by omega) hr.stop v).conseq
    (fun _ h => h) (fun _ _ h => h) fun _ _ h => h.elim) fun m => Prog.Triple.pure fun t ht => ?_
  refine ⟨ht.1, fun id h1 h2 => ht.2 id ?_ h2⟩
  rw [← hdiv]
  exact (Nat.div_le_iff_le_mul_add_pred hbs).2 (by rw [Nat.mul_comm]; omega)

/-- **One range** arrives, or all requests that were made for it were bad. -/
theorem fetchRange_flaky (hf : Flaky agent T bad) (url : String) {r : ℕ × ℕ}
    (hr : Planned cf.blocksize T.length r) (client : HttpClient) :
    Prog.Triple (fun s => Since env cf I s₀ n s ∧ s.http = client)
      (fetchRange (env.via agent) url r.1 r.2)
      (fun k s => (Since env cf I s₀ (n + k) s ∧ ∀ id, r.1 ≤ id * cf.blocksize →
        id * cf.blocksize < r.2 + 1 → s.matcher.isBlockKnown id) ∧
          client.requests < s.http.requests)
      (fun e s => e.isTransient ∧ SinceSome env cf I s₀ e s ∧
        AllBad bad client.requests s.http) := by
  refine Prog.Triple.bind ((((triple_checkAborted fun s s' => Since.quiet hI s s').of_succeeds
    (succeeds_checkAborted hh)).and (Prog.Frames.triple allows_http.checkAborted client)).conseq
    (fun _ h => h) (fun _ _ h => h) fun _ _ h => h.1.elim) fun _ => ?_
  refine Prog.Triple.read fun s₁ hs₁ => ?_
  rw [hs₁.1.idle.2.control, hs₁.2]
  let client' := (HttpClient.fetchRangeReader agent client url r.1 r.2).2
  have hs : Since env cf I s₀ n { s₁ with http := client' } :=
    Since.quiet hI s₁ _ (Quiet.of_eq rfl rfl rfl rfl rfl rfl ⟨[], rfl, by simp⟩) hs₁.1
  refine Prog.Triple.bind (Q := fun _ s => s = { s₁ with http := client' })
    (Prog.Triple.modify (by rintro _ rfl; rfl)) fun _ => ?_
  rintro s rfl
  rcases fetchRangeReader_flaky hf client url hr.le hr.lt with
    ⟨body, hok, hlt, hsends, hserves⟩ | ⟨e, herr, he, hall⟩
  · rw [show (env.via agent).agent = agent from rfl, hok]
    change Prog.Post _ _ (readBody (env.via agent) cf.blocksize r.1 ⟨body, 0, 0, r.2 - r.1 + 1⟩
      { s₁ with http := client' })
    have hoffline := offline_readBody (env.via agent) cf.blocksize r.1
      ⟨body, 0, 0, r.2 - r.1 + 1⟩ { s₁ with http := client' }
    have hbody := readBody_flaky hI hcf hT hh agent hr hsends hs.idle
    revert hoffline hbody
    match readBody (env.via agent) cf.blocksize r.1 ⟨body, 0, 0, r.2 - r.1 + 1⟩
      { s₁ with http := client' } with
    | (.ok k, t) =>
      rintro hhttp ⟨ht, hknown⟩
      exact ⟨⟨hs.trans ht, hknown⟩, hlt.trans_eq (congrArg HttpClient.requests hhttp).symm⟩
    | (.error e, t) =>
      rintro hhttp ⟨htransient, hnot, k, ht⟩
      have hhttp : t.http = client' := hhttp
      exact ⟨htransient, ⟨n + k, hs.trans ht⟩, hhttp ▸ hserves.resolve_left hnot⟩
  · rw [show (env.via agent).agent = agent from rfl, herr]
    exact ⟨he, ⟨n, hs⟩, hall⟩

/-- How a download of ranges fails: its last requests were bad, and all of them unless one of the
ranges has arrived. -/
structure DownloadFailed (env : Env) (cf : ControlFile) (I : List (ℕ × Bytes) → State → Prop)
    (bad : ℕ → Prop) (s₀ : State) (q : ℕ) (ranges : List (ℕ × ℕ)) (e : AssemblyError) (s : State) :
    Prop where
  transient : e.isTransient
  since : SinceSome env cf I s₀ e s
  last : ∃ p, q ≤ p ∧ AllBad bad p s.http
  bad_or_known : AllBad bad q s.http ∨ ∃ r ∈ ranges, ∀ id, r.1 ≤ id * cf.blocksize →
    id * cf.blocksize < r.2 + 1 → s.matcher.isBlockKnown id

theorem fetchRanges_flaky (hf : Flaky agent T bad) (url : String) {ranges : List (ℕ × ℕ)}
    (hranges : ∀ r ∈ ranges, Planned cf.blocksize T.length r) (client : HttpClient) :
    Prog.Triple (fun s => Since env cf I s₀ n s ∧ s.http = client)
      (fetchRanges (env.via agent) url ranges)
      (fun k s => Since env cf I s₀ (n + k) s ∧ ∀ r ∈ ranges, ∀ id, r.1 ≤ id * cf.blocksize →
        id * cf.blocksize < r.2 + 1 → s.matcher.isBlockKnown id)
      (DownloadFailed env cf I bad s₀ client.requests ranges) := by
  induction ranges generalizing s₀ n client with
  | nil => exact Prog.Triple.pure fun s hs => ⟨hs.1, by simp⟩
  | cons r rest ih =>
    obtain ⟨hr, hrest⟩ := List.forall_mem_cons.1 hranges
    refine Prog.Triple.bind ((fetchRange_flaky hI hcf hT hh hf url hr client).conseq
      (fun _ h => h) (fun _ _ h => h) fun e s h =>
        ⟨h.1, h.2.1, ⟨_, le_rfl, h.2.2⟩, Or.inl h.2.2⟩) fun k => ?_
    rintro s₁ ⟨⟨hs₁, hknown⟩, hmore⟩
    refine Prog.Triple.bind ((ih hrest s₁.http).conseq (fun _ h => h) (fun _ _ h => h)
      fun e s h => ?_) (fun m => Prog.Triple.pure fun s hs => ?_) s₁ ⟨Since.refl hs₁.idle, rfl⟩
    · obtain ⟨htransient, ⟨m, hs⟩, ⟨p, hp, hlast⟩, -⟩ := h
      refine ⟨htransient, ⟨n + k + m, ?_⟩, ⟨p, hmore.le.trans hp, hlast⟩, Or.inr ⟨r, ?_, ?_⟩⟩
      · exact hs₁.trans (Nat.zero_add m ▸ hs)
      · exact List.mem_cons_self
      · exact fun id h1 h2 => hs.known id (hknown id h1 h2)
    · obtain ⟨hs, hall⟩ := hs
      rw [Nat.zero_add] at hs
      refine ⟨Nat.add_assoc n k m ▸ hs₁.trans hs, List.forall_mem_cons.2 ⟨fun id h1 h2 => ?_, hall⟩⟩
      exact hs.known id (hknown id h1 h2)

/-- **A download** leaves every block known, or fails in a way that may pass.  Then its last
requests were bad, and all of them were when no block became known. -/
theorem download_flaky (hf : Flaky agent T bad) (hs : Keeps.Idle env cf I s)
    (hurls : cf.urls ≠ []) :
    Prog.Post
      (fun n s' => Since env cf I s n s' ∧ ∀ id < s.matcher.totalBlocks, s'.matcher.isBlockKnown id)
      (fun e s' => e.isTransient ∧ ∃ k, Since env cf I s k s' ∧
        (∃ p, s.http.requests ≤ p ∧ AllBad bad p s'.http) ∧
        (k = 0 → AllBad bad s.http.requests s'.http))
      (downloadMissingBlocks (env.via agent) s) := by
  have hbs := hcf.blocksize_pos
  have hcounted := hs.2.counted hcf
  have hinranges := hcounted.inRanges_iff
  have hstart : ∀ id < s.matcher.totalBlocks, id * cf.blocksize < cf.length := fun id hid => by
    rwa [← ControlFile.lt_numBlocks hbs, ← hcf.count, ← hs.2.totalBlocks hcf]
  suffices h : Prog.Triple (· = s) (downloadMissingBlocks (env.via agent)) _ _ from h s rfl
  refine Prog.Triple.read fun s₁ hs₁ => ?_
  rw [hs₁, hs.2.control]
  cases hcons : cf.urls with
  | nil => exact absurd hcons hurls
  | cons url rest =>
    refine Prog.Triple.ite (fun hnone => Prog.Triple.pure ?_) fun _ => ?_
    · rintro _ rfl
      refine ⟨Since.refl hs, fun id hid => ?_⟩
      have hnot := (hinranges id).not.1 (hnone ▸ BlockMatcher.inRanges_nil id)
      simpa using fun hunknown => hnot ⟨hid, hunknown⟩
    · have hnone : ∀ i ∈ (none : Option ℕ), i < 0 := by simp
      obtain ⟨hmem, hpair⟩ := BlockMatcher.neededFrom_ascending s.matcher.knownBlocks hnone
      have hblocks : ∀ r ∈ s.matcher.neededBlockRanges,
          r.1 < r.2 ∧ ∀ id < r.2, id * cf.blocksize < cf.length := by
        intro r hr
        obtain ⟨-, hlt, hle⟩ := hmem r hr
        rw [hcounted.length, Nat.zero_add] at hle
        exact ⟨hlt, fun id hid => hstart id (hid.trans_le hle)⟩
      refine Prog.Triple.conseq (P := fun t => Since env cf I s 0 t ∧ t.http = s.http)
        (fetchRanges_flaky hI hcf hT hh hf _ (fun r hr => hT.length ▸
          planned_of_mem hbs hblocks hpair _ hr) s.http) ?_ (fun n s' h => ?_) fun e s' h => ?_
      · rintro t rfl
        exact ⟨Since.refl hs, rfl⟩
      · obtain ⟨hsince, hall⟩ := h
        rw [Nat.zero_add] at hsince
        refine ⟨hsince, fun id hid => ?_⟩
        cases hknown : s.matcher.isBlockKnown id with
        | true => exact hsince.known id hknown
        | false =>
          -- the range that the block is in was requested as part of a planned one
          obtain ⟨r, hr, hle, hlt⟩ := (hinranges id).2 ⟨hid, hknown⟩
          obtain ⟨m, hm, h1, h2⟩ :=
            exists_planned hbs hblocks hpair s.rangeGapThreshold hr ⟨hle, hlt⟩
          refine hall m hm id h1 ?_
          have := hstart id hid
          rw [Nat.succ_mul] at h2
          omega
      · obtain ⟨htransient, ⟨k, hsince⟩, hlast, hbad⟩ := h
        refine ⟨htransient, k, hsince, hlast, fun hk => hbad.resolve_right ?_⟩
        rintro ⟨m, hm, hknown⟩
        -- a range that arrived starts with a block that was needed
        subst hk
        obtain ⟨r, hr, hfirst⟩ := start_of_mem hbs hblocks hpair _ hm
        have hplanned := planned_of_mem hbs hblocks hpair _ hm
        have hle := hplanned.le
        obtain ⟨-, hunknown⟩ := (hinranges r.1).1 ⟨r, hr, le_rfl, (hblocks r hr).1⟩
        have hnow := hknown r.1 hfirst.ge (by omega)
        rw [hsince.isBlockKnown_eq hcf hs, hunknown] at hnow
        exact Bool.false_ne_true hnow

end Download

end Zsync
