import Zsync.Control.Basic

/-!
# Range requests

The HTTP client: how a range of a URL is asked for and how its body is read.

* `Agent` : the transport, a parameter.  Each request may be answered in any way;
* `Body` : a response body, which may be cut into any reads and may fail at any of them;
* `HttpRangeReader.read` : the body of one range, capped at the length requested;
* `HttpClient.fetchRangeReader` : a request, with the redirect that is remembered.
-/

namespace Zsync

/-- The errors of the transport that are told apart. -/
inductive RequestError where
  | io
  | timeout
  | hostNotFound
  | connectionFailed
  | other
  deriving DecidableEq, Repr

/-- Why a fetch failed. -/
inductive HttpError where
  | request (e : RequestError)
  | status (code : ℕ)
  | rangeIgnored
  | io (kind : IoErrorKind)
  deriving DecidableEq, Repr

/-- Whether the same request might succeed if made again later. -/
def HttpError.isTransient : HttpError → Bool
  | .request e => e ∈ [.io, .timeout, .hostNotFound, .connectionFailed]
  | .status code => code ∈ [408, 429, 500, 502, 503, 504]
  | .io _ => true
  | .rangeIgnored => false

/-- A response body: what the next read returns, by the number of reads and of bytes so far and the
length of the buffer.  Bytes past the buffer are not returned. -/
structure Body where
  read : ℕ → ℕ → ℕ → Except IoErrorKind Bytes

/-- `std::io::empty`. -/
def Body.empty : Body := ⟨fun _ _ _ => .ok []⟩

/-- A response: its status, the URL that finally answered and its body. -/
structure Response where
  status : ℕ
  uri : String
  body : Body

/-- Why a request got no response: an error status, or an error of the transport. -/
inductive AgentError where
  | statusCode (code : ℕ)
  | transport (e : RequestError)
  deriving DecidableEq, Repr

/-- `From<ureq::Error>`. -/
def AgentError.toHttp : AgentError → HttpError
  | .statusCode code => .status code
  | .transport e => .request e

/-- The transport: the answer to the `n`-th request, for the bytes `start..=stop` of a URL. -/
structure Agent where
  get : ℕ → String → ℕ → ℕ → Except AgentError Response

/-- The body of one range response, capped at the length requested. -/
structure HttpRangeReader where
  reader : Body
  /-- How often `reader` was read, and how many bytes it returned. -/
  reads : ℕ
  consumed : ℕ
  remaining : ℕ

/-- One read with a buffer of `len` bytes. -/
def HttpRangeReader.read (r : HttpRangeReader) (len : ℕ) :
    Except IoErrorKind Bytes × HttpRangeReader :=
  if r.remaining = 0 then
    -- one more read lets the connection be reused, and what it returns is dropped
    (.ok [], { r with reader := Body.empty, reads := 0, consumed := 0 })
  else
    let len := min len r.remaining
    match r.reader.read r.reads r.consumed len with
    | .error e => (.error e, { r with reads := r.reads + 1 })
    | .ok bs =>
      let got := bs.take len
      (.ok got, { r with
        reads := r.reads + 1
        consumed := r.consumed + got.length
        remaining := r.remaining - got.length })

namespace HttpRangeReader

/-- The bytes that one read takes from the body.  After the last byte requested that is at most one
byte, which is dropped. -/
def drawn (r : HttpRangeReader) (len : ℕ) : ℕ :=
  let len := if r.remaining = 0 then 1 else min len r.remaining
  match r.reader.read r.reads r.consumed len with
  | .error _ => 0
  | .ok bs => (bs.take len).length

/-- Reads with buffers of these lengths: the bytes returned, and those taken from the body. -/
def readAll : List ℕ → HttpRangeReader → ℕ × ℕ
  | [], _ => (0, 0)
  | len :: lens, r =>
    let rest := readAll lens (r.read len).2
    (((r.read len).1.toOption.getD []).length + rest.1, r.drawn len + rest.2)

theorem read_eq_ok {r r' : HttpRangeReader} {len : ℕ} {got : Bytes}
    (h : r.read len = (.ok got, r')) :
    got.length + r'.remaining = r.remaining := by
  unfold read at h
  split_ifs at h with h0
  · cases h
    simp [h0]
  · dsimp only at h
    split at h
    · cases h
    · cases h
      have := List.length_take_le (min len r.remaining) ‹Bytes›
      dsimp only
      omega

theorem readAll_end (lens : List ℕ) {r : HttpRangeReader} (h0 : r.remaining = 0)
    (hempty : r.reader = Body.empty) : readAll lens r = (0, 0) := by
  induction lens generalizing r with
  | nil => rfl
  | cons len lens ih =>
    have hread :
        r.read len = (.ok [], { r with reader := Body.empty, reads := 0, consumed := 0 }) :=
      if_pos h0
    rw [readAll, hread, ih (r := { r with reader := Body.empty, reads := 0, consumed := 0 }) h0 rfl]
    simp [drawn, hempty, Body.empty, Except.toOption]

/-- **The cap of a response**: no more than what was requested is returned, and at most one byte
more is taken from the body, however it is read. -/
theorem readAll_le (lens : List ℕ) (r : HttpRangeReader) :
    (readAll lens r).1 ≤ r.remaining ∧ (readAll lens r).2 ≤ r.remaining + 1 := by
  induction lens generalizing r with
  | nil => simp [readAll]
  | cons len lens ih =>
    rw [readAll]
    by_cases h0 : r.remaining = 0
    · have hread :
          r.read len = (.ok [], { r with reader := Body.empty, reads := 0, consumed := 0 }) :=
        if_pos h0
      have hend := readAll_end lens
        (r := { r with reader := Body.empty, reads := 0, consumed := 0 }) h0 rfl
      have hone : r.drawn len ≤ 1 := by
        simp only [drawn, h0, if_true]
        split
        · omega
        · exact List.length_take_le _ _
      simp only [hread, hend, Except.toOption, Option.getD_some, List.length_nil]
      omega
    · cases hbody : r.reader.read r.reads r.consumed (min len r.remaining) with
      | error e =>
        have hread : r.read len = (.error e, { r with reads := r.reads + 1 }) := by
          simp only [read, if_neg h0, hbody]
        have hdrawn : r.drawn len = 0 := by simp only [drawn, if_neg h0, hbody]
        obtain ⟨h1, h2⟩ := ih { r with reads := r.reads + 1 }
        simp only [hread, hdrawn, Except.toOption, Option.getD_none, List.length_nil] at h1 h2 ⊢
        omega
      | ok bs =>
        have hread : r.read len = (.ok (bs.take (min len r.remaining)), (r.read len).2) := by
          simp only [read, if_neg h0, hbody]
        have hdrawn : r.drawn len = (bs.take (min len r.remaining)).length := by
          simp only [drawn, if_neg h0, hbody]
        have hsum := read_eq_ok hread
        have hgot : (r.read len).1 = .ok (bs.take (min len r.remaining)) := congrArg Prod.fst hread
        obtain ⟨h1, h2⟩ := ih (r.read len).2
        simp only [hgot, hdrawn, Except.toOption, Option.getD_some]
        omega

end HttpRangeReader

/-- The HTTP transport, with the URL whose redirect it remembers and where that led. -/
structure HttpClient where
  redirect : Option (String × String)
  /-- How many requests the client has made. -/
  requests : ℕ
  deriving DecidableEq

namespace HttpClient

/-- Requests a range of `url`, returning its body and the URL that finally answered. -/
def openRange (agent : Agent) (n : ℕ) (url : String) (start stop : ℕ) :
    Except HttpError (HttpRangeReader × String) :=
  match agent.get n url start stop with
  | .error (.statusCode code) => .error (.status code)
  | .error (.transport e) => .error (.request e)
  | .ok response =>
    if response.status = 200 ∧ 0 < start then .error .rangeIgnored
    else if response.status ≠ 206 ∧ response.status ≠ 200 then .error (.status response.status)
    else .ok (⟨response.body, 0, 0, stop - start + 1⟩, response.uri)

/-- The request to `url` itself, which sets the remembered redirect. -/
def fetchDirect (agent : Agent) (client : HttpClient) (url : String) (start stop : ℕ) :
    Except HttpError HttpRangeReader × HttpClient :=
  let client' := { client with requests := client.requests + 1 }
  match openRange agent client.requests url start stop with
  | .error e => (.error e, client')
  | .ok (reader, finalUrl) =>
    (.ok reader, { client' with redirect := if finalUrl ≠ url then some (url, finalUrl) else none })

/-- A reader over `start..=stop` of `url`. -/
def fetchRangeReader (agent : Agent) (client : HttpClient) (url : String) (start stop : ℕ) :
    Except HttpError HttpRangeReader × HttpClient :=
  match client.redirect.filter fun r => r.1 = url with
  | some (_, target) =>
    let client' := { client with requests := client.requests + 1 }
    match openRange agent client.requests target start stop with
    -- a target that answers with an error status, as a signed URL does once it expires
    | .error (.status _) => fetchDirect agent client' url start stop
    | .error e => (.error e, client')
    | .ok (reader, _) => (.ok reader, client')
  | none => fetchDirect agent client url start stop

theorem remaining_of_fetchRangeReader {agent : Agent} {client client' : HttpClient} {url : String}
    {start stop : ℕ} {reader : HttpRangeReader}
    (h : fetchRangeReader agent client url start stop = (.ok reader, client')) :
    reader.remaining = stop - start + 1 := by
  have hopen : ∀ {n target r uri}, openRange agent n target start stop = .ok (r, uri) →
      r.remaining = stop - start + 1 := by
    intro n target r uri hrun
    unfold openRange at hrun
    split at hrun
    · cases hrun
    · cases hrun
    · split_ifs at hrun
      cases hrun
      rfl
  have hdirect : ∀ {client}, fetchDirect agent client url start stop = (.ok reader, client') →
      reader.remaining = stop - start + 1 := by
    intro client hrun
    unfold fetchDirect at hrun
    dsimp only at hrun
    split at hrun
    · cases hrun
    · cases hrun
      exact hopen ‹_›
  unfold fetchRangeReader at h
  split at h
  · dsimp only at h
    split at h
    · exact hdirect h
    · cases h
    · cases h
      exact hopen ‹_›
  · exact hdirect h

end HttpClient

end Zsync
