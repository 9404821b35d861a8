import Zsync.Http.Client

/-!
# Calls on a shared client

Several calls of `fetchRangeReader` on one client at once.  The remembered redirect is read and
written under a lock of its own each time, so the steps of one call may come between those of
another.

* `Shared`, `Shared.advance` : a client with the calls on it, and the next step of one call;
* `returnedAs_fetchRangeReader` : a call alone is `HttpClient.fetchRangeReader`;
* `Faithful` : redirect targets that answer for the URLs that led to them, or with an error status;
* `redirect_invisible` : each call returns what a client without a memory returns.

The answer to the `n`-th request of the client stands for what the server would answer at that
moment, to any URL.
-/

namespace Zsync

/-! ### The calls of a client -/

/-- Where a call is. -/
inductive Stage
  | lookup
  | target (dest : String)
  | direct
  | update (reader : HttpRangeReader) (finalUrl : String)
  | returned (result : Except HttpError HttpRangeReader)

/-- A call of `fetchRangeReader`. -/
structure Fetch where
  url : String
  start : ℕ
  stop : ℕ

/-- A request, with the call that made it. -/
structure Sent where
  call : ℕ
  dest : String

/-- A client and the calls that were made on it. -/
structure Shared where
  redirect : Option (String × String)
  calls : List Fetch
  stage : ℕ → Stage
  /-- The requests so far. -/
  log : List Sent

namespace Stage

/-- After `remembered_redirect`. -/
def afterLookup (redirect : Option (String × String)) (url : String) : Stage :=
  match redirect.filter fun r => r.1 = url with
  | some (_, dest) => target dest
  | none => direct

/-- After the request to the remembered target. -/
def afterTarget : Except HttpError (HttpRangeReader × String) → Stage
  | .error (.status _) => direct
  | .error e => returned (.error e)
  | .ok (reader, _) => returned (.ok reader)

/-- After the request to the URL itself. -/
def afterDirect : Except HttpError (HttpRangeReader × String) → Stage
  | .error e => returned (.error e)
  | .ok (reader, finalUrl) => update reader finalUrl

end Stage

namespace Shared

open HttpClient

/-- Call `i` is now at `stage`. -/
def setStage (s : Shared) (i : ℕ) (stage : Stage) : Shared :=
  { s with stage := Function.update s.stage i stage }

/-- Call `i` sends a request to `dest`. -/
def send (s : Shared) (i : ℕ) (dest : String) : Shared := { s with log := s.log ++ [⟨i, dest⟩] }

/-- The next step of call `i`. -/
def advance (agent : Agent) (i : ℕ) (s : Shared) : Shared :=
  match s.calls[i]? with
  | none => s
  | some f =>
    match s.stage i with
    | .lookup => s.setStage i (.afterLookup s.redirect f.url)
    | .target dest =>
      let r := openRange agent s.log.length dest f.start f.stop
      (s.send i dest).setStage i (.afterTarget r)
    | .direct =>
      let r := openRange agent s.log.length f.url f.start f.stop
      (s.send i f.url).setStage i (.afterDirect r)
    | .update reader finalUrl =>
      { s with redirect := if finalUrl ≠ f.url then some (f.url, finalUrl) else none }.setStage i
        (.returned (.ok reader))
    | .returned _ => s

/-- A call that begins, or a step of one that has begun. -/
inductive Action
  | fetch (url : String) (start stop : ℕ)
  | advance (i : ℕ)
  deriving DecidableEq

/-- What an action does to the client and its calls. -/
def act (agent : Agent) (s : Shared) : Action → Shared
  | .fetch url start stop => { s with calls := s.calls ++ [⟨url, start, stop⟩] }
  | .advance i => s.advance agent i

/-- A new client. -/
def new : Shared := ⟨none, [], fun _ => .lookup, []⟩

/-- The steps of calls on a new client, in any order. -/
def run (agent : Agent) (actions : List Action) : Shared := actions.foldl (act agent) new

section Advance

variable {agent : Agent} {s : Shared} {i : ℕ} {f : Fetch}

@[simp] theorem stage_setStage (s : Shared) (i : ℕ) (stage : Stage) :
    (s.setStage i stage).stage i = stage := Function.update_self ..

theorem stage_setStage_of_ne {j : ℕ} (h : j ≠ i) (stage : Stage) :
    (s.setStage i stage).stage j = s.stage j := Function.update_of_ne h ..

@[simp] theorem calls_setStage (s : Shared) (i : ℕ) (stage : Stage) :
    (s.setStage i stage).calls = s.calls := rfl

@[simp] theorem redirect_setStage (s : Shared) (i : ℕ) (stage : Stage) :
    (s.setStage i stage).redirect = s.redirect := rfl

@[simp] theorem log_setStage (s : Shared) (i : ℕ) (stage : Stage) :
    (s.setStage i stage).log = s.log := rfl

@[simp] theorem calls_send (s : Shared) (i : ℕ) (dest : String) :
    (s.send i dest).calls = s.calls := rfl

@[simp] theorem redirect_send (s : Shared) (i : ℕ) (dest : String) :
    (s.send i dest).redirect = s.redirect := rfl

@[simp] theorem length_log_send (s : Shared) (i : ℕ) (dest : String) :
    (s.send i dest).log.length = s.log.length + 1 := List.length_append

theorem advance_lookup (hf : s.calls[i]? = some f) (h : s.stage i = .lookup) :
    s.advance agent i = s.setStage i (.afterLookup s.redirect f.url) := by
  simp only [advance, hf, h]

theorem advance_target {dest : String} (hf : s.calls[i]? = some f) (h : s.stage i = .target dest) :
    s.advance agent i = (s.send i dest).setStage i
      (.afterTarget (openRange agent s.log.length dest f.start f.stop)) := by
  simp only [advance, hf, h]

theorem advance_direct (hf : s.calls[i]? = some f) (h : s.stage i = .direct) :
    s.advance agent i = (s.send i f.url).setStage i
      (.afterDirect (openRange agent s.log.length f.url f.start f.stop)) := by
  simp only [advance, hf, h]

theorem advance_update {reader : HttpRangeReader} {finalUrl : String} (hf : s.calls[i]? = some f)
    (h : s.stage i = .update reader finalUrl) :
    s.advance agent i =
      { s with redirect := if finalUrl ≠ f.url then some (f.url, finalUrl) else none }.setStage i
        (.returned (.ok reader)) := by
  simp only [advance, hf, h]

theorem advance_returned {result : Except HttpError HttpRangeReader}
    (h : s.stage i = .returned result) : s.advance agent i = s := by
  cases hf : s.calls[i]? <;> simp only [advance, hf, h]

end Advance

/-! ### One call alone -/

section Alone

variable {agent : Agent} {s : Shared} {i : ℕ} {f : Fetch} {client : HttpClient}

/-- Call `i` has returned, and left the client, as the sequential client did. -/
def ReturnedAs (s : Shared) (i : ℕ) (r : Except HttpError HttpRangeReader × HttpClient) : Prop :=
  s.stage i = .returned r.1 ∧ s.redirect = r.2.redirect ∧ s.log.length = r.2.requests

theorem returnedAs_fetchDirect (hf : s.calls[i]? = some f) (hstage : s.stage i = .direct)
    (hredirect : s.redirect = client.redirect) (hlog : s.log.length = client.requests) :
    (advance agent i (advance agent i s)).ReturnedAs i
      (fetchDirect agent client f.url f.start f.stop) := by
  rw [advance_direct hf hstage, fetchDirect, ← hlog]
  cases openRange agent s.log.length f.url f.start f.stop with
  | error e =>
    simp only [Stage.afterDirect]
    rw [advance_returned (stage_setStage ..)]
    simpa [ReturnedAs] using hredirect
  | ok p =>
    simp only [Stage.afterDirect]
    rw [advance_update (f := f) (by simpa using hf) (stage_setStage ..)]
    simp [ReturnedAs]

/-- **A call alone** is the sequential client. -/
theorem returnedAs_fetchRangeReader (hf : s.calls[i]? = some f) (hstage : s.stage i = .lookup)
    (hredirect : s.redirect = client.redirect) (hlog : s.log.length = client.requests) :
    ((advance agent i)^[4] s).ReturnedAs i
      (fetchRangeReader agent client f.url f.start f.stop) := by
  change (advance agent i (advance agent i (advance agent i (advance agent i s)))).ReturnedAs i _
  rw [advance_lookup hf hstage, Stage.afterLookup, hredirect, fetchRangeReader]
  cases client.redirect.filter fun r => r.1 = f.url with
  | none =>
    -- the last step changes nothing
    have hdirect : (advance agent i (advance agent i (s.setStage i .direct))).ReturnedAs i
        (fetchDirect agent client f.url f.start f.stop) :=
      returnedAs_fetchDirect hf (stage_setStage ..) hredirect hlog
    rwa [advance_returned hdirect.1]
  | some p =>
    obtain ⟨url, dest⟩ := p
    dsimp only
    rw [advance_target (s := s.setStage i (.target dest)) hf (stage_setStage ..)]
    have hreturned (result : Except HttpError HttpRangeReader) :
        (advance agent i (advance agent i (((s.setStage i (.target dest)).send i dest).setStage i
          (.returned result)))).ReturnedAs i
          (result, { client with requests := client.requests + 1 }) := by
      rw [advance_returned (stage_setStage ..), advance_returned (stage_setStage ..)]
      simp [ReturnedAs, hredirect, hlog]
    simp only [log_setStage, hlog]
    match openRange agent client.requests dest f.start f.stop with
    | .error (.status code) =>
      exact returnedAs_fetchDirect hf (stage_setStage ..) hredirect (by simpa using hlog)
    | .error (.request e) => exact hreturned _
    | .error .rangeIgnored => exact hreturned _
    | .error (.io kind) => exact hreturned _
    | .ok (reader, finalUrl) => exact hreturned _

end Alone

/-! ### What is remembered -/

section History

variable {agent : Agent} {calls calls' : List Fetch} {log log' : List Sent} {url dest : String}
  {i j m : ℕ} {f : Fetch}

/-- A request to `url` itself was finally answered from `dest`. -/
def LedTo (agent : Agent) (calls : List Fetch) (log : List Sent) (url dest : String) : Prop :=
  ∃ m i f reader, log[m]? = some ⟨i, url⟩ ∧ calls[i]? = some f ∧ f.url = url ∧
    openRange agent m url f.start f.stop = .ok (reader, dest)

/-- Request `m` is the last one of call `i`. -/
def LastOf (log : List Sent) (i m : ℕ) : Prop :=
  (∃ dest, log[m]? = some ⟨i, dest⟩) ∧ ∀ k dest, log[k]? = some ⟨i, dest⟩ → k ≤ m

theorem getElem?_mono {α : Type} {l l' : List α} {a : α} (hl : l <+: l')
    (h : l[m]? = some a) : l'[m]? = some a := by
  obtain ⟨t, rfl⟩ := hl
  rwa [List.getElem?_append_left (List.getElem?_eq_some_iff.1 h).1]

theorem LedTo.mono (hcalls : calls <+: calls') (hlog : log <+: log')
    (h : LedTo agent calls log url dest) : LedTo agent calls' log' url dest := by
  obtain ⟨m, i, f, reader, hm, hf, hrest⟩ := h
  exact ⟨m, i, f, reader, getElem?_mono hlog hm, getElem?_mono hcalls hf, hrest⟩

theorem lastOf_append (log : List Sent) (i : ℕ) (dest : String) :
    LastOf (log ++ [⟨i, dest⟩]) i log.length := by
  refine ⟨⟨dest, List.getElem?_concat_length⟩, fun k dest' hk => ?_⟩
  have hlt := (List.getElem?_eq_some_iff.1 hk).1
  rw [List.length_append, List.length_singleton] at hlt
  omega

theorem LastOf.append (h : LastOf log i m) (hij : i ≠ j) (dest : String) :
    LastOf (log ++ [⟨j, dest⟩]) i m := by
  obtain ⟨⟨dest', hm⟩, hlast⟩ := h
  refine ⟨⟨dest', getElem?_mono (List.prefix_append ..) hm⟩, fun k dest'' hk => ?_⟩
  rcases Nat.lt_trichotomy k log.length with hlt | rfl | hgt
  · rw [List.getElem?_append_left hlt] at hk
    exact hlast k dest'' hk
  · rw [List.getElem?_concat_length] at hk
    exact absurd (congrArg Sent.call (Option.some.inj hk)).symm hij
  · rw [List.getElem?_eq_none (by rw [List.length_append, List.length_singleton]; omega)] at hk
    cases hk

/-- A range of a client that remembers nothing, by request `n`. -/
def fetchForgetful (agent : Agent) (n : ℕ) (f : Fetch) : Except HttpError HttpRangeReader :=
  (openRange agent n f.url f.start f.stop).map Prod.fst

/-- What the stage of a call says of the requests so far. -/
def StageOk (agent : Agent) (calls : List Fetch) (log : List Sent) (i : ℕ) (f : Fetch) :
    Stage → Prop
  | .lookup => True
  | .target dest => LedTo agent calls log f.url dest
  | .direct => True
  | .update reader finalUrl => ∃ m, LastOf log i m ∧ log[m]? = some ⟨i, f.url⟩ ∧
      openRange agent m f.url f.start f.stop = .ok (reader, finalUrl)
  | .returned result => ∃ m, LastOf log i m ∧ result = fetchForgetful agent m f

theorem StageOk.mono {stage : Stage} (hcalls : calls <+: calls')
    (h : StageOk agent calls log i f stage) : StageOk agent calls' log i f stage := by
  cases stage with
  | target dest => exact LedTo.mono hcalls (List.prefix_refl _) h
  | _ => exact h

theorem StageOk.append {stage : Stage} (h : StageOk agent calls log i f stage) (hij : i ≠ j)
    (dest : String) : StageOk agent calls (log ++ [⟨j, dest⟩]) i f stage := by
  cases stage with
  | target dest' => exact LedTo.mono (List.prefix_refl _) (List.prefix_append ..) h
  | update reader finalUrl =>
    obtain ⟨m, hm, hlog, hopen⟩ := h
    exact ⟨m, hm.append hij dest, getElem?_mono (List.prefix_append ..) hlog, hopen⟩
  | returned result =>
    obtain ⟨m, hm, hresult⟩ := h
    exact ⟨m, hm.append hij dest, hresult⟩
  | _ => exact h

end History

/-- What holds of a client after any steps of its calls. -/
structure Inv (agent : Agent) (s : Shared) : Prop where
  redirect : ∀ url dest, s.redirect = some (url, dest) → LedTo agent s.calls s.log url dest
  log : ∀ m i dest, s.log[m]? = some ⟨i, dest⟩ → ∃ f, s.calls[i]? = some f ∧
    (dest = f.url ∨ LedTo agent s.calls (s.log.take m) f.url dest)
  stage : ∀ i f, s.calls[i]? = some f → StageOk agent s.calls s.log i f (s.stage i)
  fresh : ∀ i, s.calls.length ≤ i → s.stage i = .lookup

section Inv

variable {agent : Agent} {s : Shared} {i : ℕ} {f : Fetch} {stage : Stage} {dest : String}

theorem inv_new (agent : Agent) : Inv agent new :=
  ⟨nofun, nofun, nofun, fun _ _ => rfl⟩

theorem Inv.setStage (h : Inv agent s) (hf : s.calls[i]? = some f)
    (hok : StageOk agent s.calls s.log i f stage) : Inv agent (s.setStage i stage) := by
  refine ⟨h.redirect, h.log, fun j g hg => ?_, fun j hj => ?_⟩
  · rcases eq_or_ne j i with rfl | hji
    · obtain rfl := Option.some.inj (hf.symm.trans hg)
      rwa [stage_setStage]
    · rw [stage_setStage_of_ne hji]
      exact h.stage j g hg
  · have hlt := (List.getElem?_eq_some_iff.1 hf).1
    rw [stage_setStage_of_ne (hlt.trans_le hj).ne']
    exact h.fresh j hj

theorem Inv.send (h : Inv agent s) (hf : s.calls[i]? = some f)
    (hdest : dest = f.url ∨ LedTo agent s.calls s.log f.url dest)
    (hok : StageOk agent s.calls (s.log ++ [⟨i, dest⟩]) i f stage) :
    Inv agent ((s.send i dest).setStage i stage) := by
  have hstart : s.log <+: s.log ++ [⟨i, dest⟩] := List.prefix_append ..
  refine ⟨fun url dest' hr => (h.redirect url dest' hr).mono (List.prefix_refl _) hstart,
    fun m j dest' hm => ?_, fun j g hg => ?_, fun j hj => ?_⟩
  · rcases Nat.lt_trichotomy m s.log.length with hlt | rfl | hgt
    · have hm' := (List.getElem?_append_left hlt).symm.trans hm
      obtain ⟨g, hg, hgdest⟩ := h.log m j dest' hm'
      have htake : (s.log ++ [(⟨i, dest⟩ : Sent)]).take m = s.log.take m :=
        List.take_append_of_le_length hlt.le
      exact ⟨g, hg, hgdest.imp_right fun hled => htake ▸ hled⟩
    · cases (List.getElem?_concat_length (l := s.log)).symm.trans hm
      have htake : (s.log ++ [(⟨i, dest⟩ : Sent)]).take s.log.length = s.log := List.take_left
      exact ⟨f, hf, hdest.imp_right fun hled => htake.symm ▸ hled⟩
    · have hnone : (s.log ++ [(⟨i, dest⟩ : Sent)])[m]? = none :=
        List.getElem?_eq_none (by rw [List.length_append, List.length_singleton]; omega)
      exact nomatch hnone.symm.trans hm
  · rcases eq_or_ne j i with rfl | hji
    · obtain rfl := Option.some.inj (hf.symm.trans hg)
      rwa [stage_setStage]
    · rw [stage_setStage_of_ne hji]
      exact (h.stage j g hg).append hji dest
  · have hlt := (List.getElem?_eq_some_iff.1 hf).1
    rw [stage_setStage_of_ne (hlt.trans_le hj).ne']
    exact h.fresh j hj

end Inv

/-! ### Servers whose redirects can be remembered -/

/-- What an answer carries, apart from the URL that gave it. -/
def content : Except AgentError Response → Except AgentError (ℕ × Body) :=
  Except.map fun r => (r.status, r.body)

/-- An answer with a status that carries no data. -/
def IsErrorStatus : Except AgentError Response → Prop
  | .error (.statusCode _) => True
  | .error (.transport _) => False
  | .ok r => r.status ≠ 200 ∧ r.status ≠ 206

/-- At request `m`, `dest` answers as the URL of the call would at that moment, or with an error
status. -/
def AnswersFor (agent : Agent) (m : ℕ) (f : Fetch) (dest : String) : Prop :=
  content (agent.get m dest f.start f.stop) = content (agent.get m f.url f.start f.stop) ∨
    IsErrorStatus (agent.get m dest f.start f.stop)

/-- Whenever a request went to a remembered target, that answered for the URL of the call. -/
def Faithful (agent : Agent) (s : Shared) : Prop :=
  ∀ m i dest f, s.log[m]? = some ⟨i, dest⟩ → s.calls[i]? = some f → dest ≠ f.url →
    AnswersFor agent m f dest

section Server

variable {agent : Agent} {s : Shared} {i n start stop : ℕ} {f : Fetch} {url dest : String}

theorem openRange_congr
    (h : content (agent.get n dest start stop) = content (agent.get n url start stop)) :
    (openRange agent n dest start stop).map Prod.fst =
      (openRange agent n url start stop).map Prod.fst := by
  unfold openRange
  revert h
  match agent.get n dest start stop, agent.get n url start stop with
  | .error e, .error e' =>
    intro h
    cases h
    cases e <;> rfl
  | .error e, .ok r => exact nofun
  | .ok r, .error e => exact nofun
  | .ok r, .ok r' =>
    intro h
    obtain ⟨hstatus, hbody⟩ := Prod.mk.inj (Except.ok.inj h)
    simp only [hstatus, hbody]
    split_ifs <;> rfl

theorem openRange_of_isErrorStatus (h : IsErrorStatus (agent.get n dest start stop)) :
    ∃ code, openRange agent n dest start stop = .error (.status code) := by
  unfold openRange
  revert h
  match agent.get n dest start stop with
  | .error (.statusCode code) => exact fun _ => ⟨code, rfl⟩
  | .error (.transport e) => exact False.elim
  | .ok r =>
    rintro ⟨h200, h206⟩
    exact ⟨r.status, by simp [h200, h206]⟩

/-- After a request to a remembered target the call has what a client without a memory has, or turns
to the URL itself. -/
theorem stageOk_afterTarget (calls : List Fetch) (log : List Sent) (i : ℕ)
    (h : AnswersFor agent log.length f dest) :
    StageOk agent calls (log ++ [⟨i, dest⟩]) i f
      (.afterTarget (openRange agent log.length dest f.start f.stop)) := by
  have hlast := lastOf_append log i dest
  rcases h with hcontent | hstatus
  · have hsame := openRange_congr hcontent
    have hreturned (result) (hresult : result = fetchForgetful agent log.length f) :
        StageOk agent calls (log ++ [⟨i, dest⟩]) i f (.returned result) := ⟨_, hlast, hresult⟩
    rw [← fetchForgetful] at hsame
    revert hsame
    match openRange agent log.length dest f.start f.stop with
    | .error (.status code) => exact fun _ => trivial
    | .error (.request e) => exact hreturned _
    | .error .rangeIgnored => exact hreturned _
    | .error (.io kind) => exact hreturned _
    | .ok (reader, finalUrl) => exact hreturned _
  · obtain ⟨code, hcode⟩ := openRange_of_isErrorStatus hstatus
    rw [hcode]
    exact trivial

theorem stageOk_afterDirect (agent : Agent) (calls : List Fetch) (log : List Sent) (i : ℕ)
    (f : Fetch) :
    StageOk agent calls (log ++ [⟨i, f.url⟩]) i f
      (.afterDirect (openRange agent log.length f.url f.start f.stop)) := by
  have hlast := lastOf_append log i f.url
  cases hopen : openRange agent log.length f.url f.start f.stop with
  | error e => exact ⟨_, hlast, by rw [fetchForgetful, hopen]; rfl⟩
  | ok p => exact ⟨_, hlast, List.getElem?_concat_length, hopen⟩

theorem stageOk_afterLookup (h : Inv agent s) (i : ℕ) (f : Fetch) :
    StageOk agent s.calls s.log i f (.afterLookup s.redirect f.url) := by
  unfold Stage.afterLookup
  split
  · rename_i url dest hfilter
    obtain ⟨hredirect, hurl⟩ := Option.filter_eq_some_iff.1 hfilter
    obtain rfl : url = f.url := decide_eq_true_iff.1 hurl
    exact h.redirect _ dest hredirect
  · exact trivial

/-- **A step of a call.** -/
theorem Inv.advance (h : Inv agent s) (i : ℕ) (hs : Faithful agent (s.advance agent i)) :
    Inv agent (s.advance agent i) := by
  cases hf : s.calls[i]? with
  | none => simpa only [Shared.advance, hf] using h
  | some f =>
    have hstage := h.stage i f hf
    cases hi : s.stage i with
    | lookup =>
      rw [advance_lookup hf hi]
      exact h.setStage hf (stageOk_afterLookup h i f)
    | target dest =>
      rw [hi] at hstage
      rw [advance_target hf hi] at hs ⊢
      refine h.send hf (Or.inr hstage) (stageOk_afterTarget _ _ _ ?_)
      by_cases hdest : dest = f.url
      · exact Or.inl (by rw [hdest])
      · exact hs s.log.length i dest f List.getElem?_concat_length hf hdest
    | direct =>
      rw [advance_direct hf hi]
      exact h.send hf (Or.inl rfl) (stageOk_afterDirect ..)
    | update reader finalUrl =>
      rw [hi] at hstage
      obtain ⟨m, hlast, hlog, hopen⟩ := hstage
      rw [advance_update hf hi]
      refine Inv.setStage ⟨fun url dest hr => ?_, h.log, h.stage, h.fresh⟩ hf
        ⟨m, hlast, by rw [fetchForgetful, hopen]; rfl⟩
      dsimp only at hr
      split_ifs at hr
      cases hr
      exact ⟨m, i, f, reader, hlog, hf, rfl, hopen⟩
    | returned result => rwa [advance_returned hi]

theorem prefix_act (agent : Agent) (s : Shared) (a : Action) :
    s.calls <+: (s.act agent a).calls ∧ s.log <+: (s.act agent a).log := by
  cases a with
  | fetch url start stop => exact ⟨List.prefix_append .., List.prefix_refl _⟩
  | advance i =>
    simp only [Shared.act, Shared.advance]
    split
    · exact ⟨List.prefix_refl _, List.prefix_refl _⟩
    · split
      · exact ⟨List.prefix_refl _, List.prefix_refl _⟩
      · exact ⟨List.prefix_refl _, List.prefix_append ..⟩
      · exact ⟨List.prefix_refl _, List.prefix_append ..⟩
      · exact ⟨List.prefix_refl _, List.prefix_refl _⟩
      · exact ⟨List.prefix_refl _, List.prefix_refl _⟩

theorem Faithful.of_act {a : Action} (hs : Faithful agent (s.act agent a)) : Faithful agent s :=
  fun m i dest f hm hf => hs m i dest f (getElem?_mono (prefix_act agent s a).2 hm)
    (getElem?_mono (prefix_act agent s a).1 hf)

theorem Inv.act (h : Inv agent s) (a : Action) (hs : Faithful agent (s.act agent a)) :
    Inv agent (s.act agent a) := by
  cases a with
  | advance i => exact h.advance i hs
  | fetch url start stop =>
    have hcalls : s.calls <+: s.calls ++ [⟨url, start, stop⟩] := List.prefix_append ..
    have hlog (l : List Sent) : l <+: l := List.prefix_refl l
    refine ⟨fun url' dest hr => (h.redirect url' dest hr).mono hcalls (hlog _),
      fun m i dest hm => ?_, fun i f hf => ?_, fun i hi => h.fresh i ?_⟩
    · obtain ⟨f, hf, hdest⟩ := h.log m i dest hm
      exact ⟨f, getElem?_mono hcalls hf, hdest.imp_right (LedTo.mono hcalls (hlog _))⟩
    · rcases Nat.lt_or_ge i s.calls.length with hlt | hge
      · exact (h.stage i f ((List.getElem?_append_left hlt).symm.trans hf)).mono hcalls
      · -- the new call
        change StageOk agent _ _ i f (s.stage i)
        rw [h.fresh i hge]
        exact trivial
    · have hle : (s.calls ++ [(⟨url, start, stop⟩ : Fetch)]).length ≤ i := hi
      rw [List.length_append] at hle
      omega

/-- **Every history** of calls on a client. -/
theorem inv_run {actions : List Action} (hs : Faithful agent (run agent actions)) :
    Inv agent (run agent actions) := by
  induction actions using List.reverseRecOn with
  | nil => exact inv_new agent
  | append_singleton actions a ih =>
    have hrun : run agent (actions ++ [a]) = (run agent actions).act agent a := List.foldl_concat ..
    rw [hrun] at hs ⊢
    exact (ih hs.of_act).act a hs

end Server

/-! ### Calls return -/

section Returns

variable {agent : Agent} {s : Shared} {i : ℕ} {f : Fetch}

/-- The steps that a call has before it at most. -/
def rank : Stage → ℕ
  | .lookup => 4
  | .target _ => 3
  | .direct => 2
  | .update _ _ => 1
  | .returned _ => 0

theorem exists_eq_returned {stage : Stage} (h : rank stage = 0) :
    ∃ result, stage = .returned result := by
  cases stage with
  | returned result => exact ⟨result, rfl⟩
  | _ => simp [rank] at h

theorem rank_advance (hf : s.calls[i]? = some f) :
    rank ((s.advance agent i).stage i) ≤ rank (s.stage i) - 1 := by
  cases hi : s.stage i with
  | lookup =>
    rw [advance_lookup hf hi, stage_setStage, Stage.afterLookup]
    split <;> simp [rank]
  | target dest =>
    rw [advance_target hf hi, stage_setStage]
    unfold Stage.afterTarget
    split <;> simp [rank]
  | direct =>
    rw [advance_direct hf hi, stage_setStage]
    unfold Stage.afterDirect
    split <;> simp [rank]
  | update reader finalUrl =>
    rw [advance_update hf hi, stage_setStage]
    exact le_rfl
  | returned result =>
    rw [advance_returned hi, hi]
    exact le_rfl

theorem stage_act_of_ne {a : Action} (h : a ≠ .advance i) :
    (s.act agent a).stage i = s.stage i := by
  cases a with
  | fetch url start stop => rfl
  | advance j =>
    have hij : i ≠ j := fun hij => h (by rw [hij])
    simp only [act, advance]
    split
    · rfl
    · split
      · exact stage_setStage_of_ne hij _
      · exact stage_setStage_of_ne hij _
      · exact stage_setStage_of_ne hij _
      · exact stage_setStage_of_ne hij _
      · rfl

theorem rank_foldl (hf : s.calls[i]? = some f) (more : List Action) :
    rank ((more.foldl (act agent) s).stage i) ≤ rank (s.stage i) - more.count (.advance i) := by
  induction more generalizing s with
  | nil => exact le_rfl
  | cons a more ih =>
    have hrest := ih (getElem?_mono (prefix_act agent s a).1 hf)
    rw [List.foldl_cons]
    by_cases ha : a = .advance i
    · subst ha
      have hstep : rank ((s.act agent (.advance i)).stage i) ≤ rank (s.stage i) - 1 :=
        rank_advance hf
      rw [List.count_cons_self]
      omega
    · rw [List.count_cons_of_ne ha]
      rwa [stage_act_of_ne ha] at hrest

/-- **A call returns** after four steps of its own, whatever other calls do between them. -/
theorem exists_returned (hf : s.calls[i]? = some f) {more : List Action}
    (hmore : 4 ≤ more.count (.advance i)) :
    ∃ result, (more.foldl (act agent) s).stage i = .returned result := by
  have hrank : rank ((more.foldl (act agent) s).stage i) ≤ rank (s.stage i) - _ :=
    rank_foldl hf more
  have hle : rank (s.stage i) ≤ 4 := by cases s.stage i <;> simp [rank]
  exact exists_eq_returned (by omega)

end Returns

/-! ### The remembered redirect -/

/-- **A remembered redirect is invisible.**  However the steps of the calls on a client are
interleaved, if every redirect target that was remembered and asked answered for the URL of the call
at that moment or with an error status, each call returns what a client without a memory has from a
request at the moment of the call's last one, and each call returns.  A request goes to the URL of
its call, or to where an earlier request to that very URL was led. -/
theorem redirect_invisible {agent : Agent} {actions : List Action}
    (h : Faithful agent (run agent actions)) :
    let s := run agent actions
    (∀ i f, s.calls[i]? = some f →
      (∀ result, s.stage i = .returned result →
        ∃ m, LastOf s.log i m ∧ result = fetchForgetful agent m f) ∧
      ∀ more : List Action, 4 ≤ more.count (.advance i) →
        ∃ result, (more.foldl (act agent) s).stage i = .returned result) ∧
      ∀ m i dest, s.log[m]? = some ⟨i, dest⟩ → ∃ f, s.calls[i]? = some f ∧
        (dest = f.url ∨ LedTo agent s.calls (s.log.take m) f.url dest) := by
  intro s
  have hinv : Inv agent s := inv_run h
  refine ⟨fun i f hf => ⟨fun result hresult => ?_, fun more hmore => exists_returned hf hmore⟩,
    hinv.log⟩
  have hstage := hinv.stage i f hf
  rwa [hresult] at hstage

/-- A server that redirects to a signed URL, which expires before request 2. -/
def signedAgent : Agent where
  get n dest _ _ :=
    if dest = "signed" ∧ 2 ≤ n then .error (.statusCode 403) else .ok ⟨206, "signed", Body.empty⟩

/-- One call, and then two at once, the second of which finds the signed URL expired. -/
def signedCalls : List Action :=
  [.fetch "u" 0 9, .advance 0, .advance 0, .advance 0, .fetch "u" 10 19, .fetch "u" 20 29,
    .advance 1, .advance 2, .advance 1, .advance 2, .advance 2, .advance 2]

theorem faithful_signed : Faithful signedAgent (run signedAgent signedCalls) := by
  have hlog : (run signedAgent signedCalls).log =
      [⟨0, "u"⟩, ⟨1, "signed"⟩, ⟨2, "signed"⟩, ⟨2, "u"⟩] := rfl
  have hcalls : (run signedAgent signedCalls).calls =
      [⟨"u", 0, 9⟩, ⟨"u", 10, 19⟩, ⟨"u", 20, 29⟩] := rfl
  intro m i dest f hm hf hdest
  rw [hlog] at hm
  rw [hcalls] at hf
  match m with
  | 0 | 3 =>
    cases hm
    cases hf
    exact absurd rfl hdest
  | 1 =>
    cases hm
    cases hf
    exact Or.inl rfl
  | 2 =>
    cases hm
    cases hf
    exact Or.inr trivial
  | m + 4 => cases hm

theorem redirect_invisible_signed :
    ∃ m, LastOf (run signedAgent signedCalls).log 2 m ∧
      .ok ⟨Body.empty, 0, 0, 10⟩ = fetchForgetful signedAgent m ⟨"u", 20, 29⟩ :=
  ((redirect_invisible faithful_signed).1 2 ⟨"u", 20, 29⟩ rfl).1 _ rfl

end Shared

end Zsync
