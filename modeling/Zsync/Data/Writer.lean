import Zsync.Data.Prog

/-!
# Buffered writing

A sink takes some of what it is given at each write, and a buffer in front of it gathers small
writes.

* `Sink` : one write, and what the sink holds; a write that fails adds nothing;
* `Sink.writeAll` : writes until all is taken;
* `Buffered.writeAll`, `Buffered.flush` : the same through a buffer of bounded size;
* `Buffered.triple_write` : what is written piece by piece and then flushed is in the sink; if that
  fails, the sink holds less, a beginning of it.
-/

namespace Zsync

variable {τ ε α : Type}

/-- What elements can be written to.  One write returns how many of them it took. -/
structure Sink (τ ε α : Type) where
  put : List α → Prog τ ε ℕ
  /-- The error of a write that takes nothing. -/
  writeZero : ε
  content : τ → List α
  put_content : ∀ t data, Prog.Post
    (fun n t' => n ≤ data.length ∧ content t' = content t ++ data.take n)
    (fun _ t' => content t' = content t) (put data t)

namespace Sink

variable (S : Sink τ ε α)

/-- One write, which has to take something. -/
def take (data : List α) : Prog τ ε ℕ := do
  let n ← S.put data
  if n = 0 then Prog.throw S.writeZero else pure n

/-- One round of `writeAll`, on what is not written yet. -/
def writeRound (rest : List α) : Prog τ ε (List α ⊕ Unit) :=
  if rest = [] then pure (.inr ())
  else do
    let n ← S.take rest
    pure (.inl (rest.drop n))

/-- Writes until everything is taken. -/
def writeAll (data : List α) : Prog τ ε Unit :=
  Prog.loop S.writeRound (fun _ => ()) (data.length + 1) data

/-- A write of something fails or takes nothing only if `B`. -/
def FailsOnly (B : Prop) : Prop :=
  ∀ t data, data ≠ [] → Prog.Post (fun n _ => n = 0 → B) (fun _ _ => B) (S.put data t)

/-- The sink holds less than `c`, a beginning of it. -/
def Short (c : List α) (t : τ) : Prop := ∃ rest ≠ [], S.content t ++ rest = c

variable {S} {B : Prop} {c : List α}

theorem Short.append {t : τ} (h : S.Short c t) (more : List α) : S.Short (c ++ more) t := by
  obtain ⟨rest, hne, rfl⟩ := h
  exact ⟨rest ++ more, List.append_ne_nil_of_left_ne_nil hne _, (List.append_assoc _ _ _).symm⟩

theorem triple_take (hS : S.FailsOnly B) {data : List α} (hne : data ≠ []) :
    Prog.Triple (S.content · = c) (S.take data)
      (fun n t => (0 < n ∧ n ≤ data.length) ∧ S.content t = c ++ data.take n)
      (fun _ t => S.content t = c ∧ B) := by
  refine Prog.Triple.bind (Q := fun n t => (n = 0 → B) ∧ n ≤ data.length ∧
    S.content t = c ++ data.take n) (fun t ht => ?_) fun n => ?_
  · have hput := S.put_content t data
    have honly := hS t data hne
    revert hput honly
    match S.put data t with
    | (.ok n, t') => exact fun hput honly => ⟨honly, hput.1, ht ▸ hput.2⟩
    | (.error e, t') => exact fun hput honly => ⟨hput.trans ht, honly⟩
  refine Prog.Triple.ite (fun hn => Prog.Triple.throw fun t h => ⟨?_, h.1 hn⟩) fun hn =>
    Prog.Triple.pure fun t h => ⟨⟨Nat.pos_of_ne_zero hn, h.2.1⟩, h.2.2⟩
  rw [h.2.2, hn, List.take_zero, List.append_nil]

/-- **Writing** adds everything, or fails before the end of it. -/
theorem triple_writeAll (hS : S.FailsOnly B) (data : List α) :
    Prog.Triple (S.content · = c) (S.writeAll data)
      (fun _ t => S.content t = c ++ data) (fun _ t => S.Short (c ++ data) t ∧ B) := by
  have hloop : Prog.Triple (fun t => S.content t ++ data = c ++ data) (S.writeAll data)
      (fun _ t => S.content t = c ++ data) (fun _ t => S.Short (c ++ data) t ∧ B) := by
    refine Prog.Triple.loop_variant (I := fun rest t => S.content t ++ rest = c ++ data)
      (Q := fun _ t => S.content t = c ++ data) List.length (fun rest => ?_) (Nat.lt_succ_self _)
    refine Prog.Triple.ite (fun hnil => Prog.Triple.pure fun t ht => ?_) fun hne t ht => ?_
    · rwa [hnil, List.append_nil] at ht
    refine Prog.Triple.bind (triple_take hS hne) (fun n => Prog.Triple.pure ?_) t rfl |>.mono
      (fun _ _ h => h) fun _ t' h => ⟨⟨rest, hne, h.1 ▸ ht⟩, h.2⟩
    rintro t' ⟨⟨hpos, hle⟩, ht'⟩
    refine ⟨?_, ?_⟩
    · rw [ht', List.append_assoc, List.take_append_drop, ht]
    · rw [List.length_drop]
      omega
  exact hloop.conseq (fun t ht => ht ▸ rfl) (fun _ _ h => h) fun _ _ h => h

end Sink

/-- A sink with a buffer in front of it. -/
structure Buffered (τ α : Type) where
  buf : List α
  sink : τ

namespace Buffered

/-- A program on the sink. -/
def onSink {β : Type} (x : Prog τ ε β) : Prog (Buffered τ α) ε β := fun w =>
  ((x w.sink).1, { w with sink := (x w.sink).2 })

/-- Appends to the buffer. -/
def push (data : List α) (w : Buffered τ α) : Buffered τ α := { w with buf := w.buf ++ data }

variable (S : Sink τ ε α) (capacity : ℕ)

/-- One round of `flush`, which cuts what was taken off the buffer. -/
def flushRound (rest : List α) : Prog (Buffered τ α) ε (List α ⊕ Unit) :=
  if rest = [] then pure (.inr ())
  else do
    let n ← onSink (S.take rest)
    Prog.modify fun w => { w with buf := rest.drop n }
    pure (.inl (rest.drop n))

/-- Writes what is in the buffer.  After a failure the buffer holds what was not taken. -/
def flush : Prog (Buffered τ α) ε Unit := do
  let w ← Prog.read
  Prog.loop (flushRound S) (fun _ => ()) (w.buf.length + 1) w.buf

/-- Writes what is in the buffer unless `n` more fit behind it. -/
def makeRoom (n : ℕ) : Prog (Buffered τ α) ε Unit := do
  let w ← Prog.read
  if capacity - w.buf.length < n then flush S else pure ()

/-- Puts `data` behind what is in the buffer, which is written first if both do not fit.  What is no
smaller than the buffer bypasses it. -/
def writeAll (data : List α) : Prog (Buffered τ α) ε Unit := do
  let w ← Prog.read
  if data.length < capacity - w.buf.length then Prog.modify (push data)
  else do
    makeRoom S capacity data.length
    if capacity ≤ data.length then onSink (S.writeAll data) else Prog.modify (push data)

variable {S} {capacity} {B : Prop} {c : List α}

/-- What was given to the writer and is not lost. -/
def all (S : Sink τ ε α) (w : Buffered τ α) : List α := S.content w.sink ++ w.buf

theorem triple_onSink {β : Type} {P : τ → Prop} {Q : β → τ → Prop} {E : ε → τ → Prop}
    {x : Prog τ ε β} (h : Prog.Triple P x Q E) (buf : List α) :
    Prog.Triple (fun w : Buffered τ α => P w.sink ∧ w.buf = buf) (onSink x)
      (fun a w => Q a w.sink ∧ w.buf = buf) (fun e w => E e w.sink ∧ w.buf = buf) := by
  intro w hw
  have hpost := h w.sink hw.1
  rw [onSink]
  revert hpost
  match x w.sink with
  | (.ok a, t) => exact fun hpost => ⟨hpost, hw.2⟩
  | (.error e, t) => exact fun hpost => ⟨hpost, hw.2⟩

theorem triple_flushRound (hS : S.FailsOnly B) (rest : List α) :
    Prog.Triple (fun w : Buffered τ α => S.content w.sink ++ rest = c ∧ w.buf = rest)
      (flushRound S rest)
      (fun r w => Sum.elim
        (fun rest' => (S.content w.sink ++ rest' = c ∧ w.buf = rest') ∧ rest'.length < rest.length)
        (fun _ => S.content w.sink = c ∧ w.buf = []) r)
      (fun _ w => S.Short c w.sink ∧ B) := by
  refine Prog.Triple.ite (fun hnil => Prog.Triple.pure fun w hw => ?_) fun hne => ?_
  · rw [hnil, List.append_nil] at hw
    exact hw
  refine Prog.Triple.bind (Q := fun n w => (0 < n ∧ n ≤ rest.length) ∧
    S.content w.sink ++ rest.drop n = c) ?_ fun n => ?_
  · rintro w ⟨hw, -⟩
    refine (triple_onSink (Sink.triple_take hS hne) w.buf w ⟨rfl, rfl⟩).mono (fun n w' h => ?_)
      fun _ w' h => ?_
    · obtain ⟨⟨hn, hput⟩, -⟩ := h
      exact ⟨hn, by rw [hput, List.append_assoc, List.take_append_drop, hw]⟩
    · exact ⟨⟨rest, hne, h.1.1 ▸ hw⟩, h.1.2⟩
  · refine Prog.Triple.bind (Q := fun _ w => (0 < n ∧ n ≤ rest.length) ∧
      S.content w.sink ++ rest.drop n = c ∧ w.buf = rest.drop n)
      (Prog.Triple.modify fun w h => ⟨h.1, h.2, rfl⟩) fun _ => Prog.Triple.pure fun w h => ?_
    refine ⟨h.2, ?_⟩
    rw [List.length_drop]
    omega

/-- **Flushing** leaves nothing in the buffer, or fails before the end of it. -/
theorem triple_flush (hS : S.FailsOnly B) :
    Prog.Triple (fun w => all S w = c) (flush S)
      (fun _ w => S.content w.sink = c ∧ w.buf = []) (fun _ w => S.Short c w.sink ∧ B) := by
  refine Prog.Triple.read fun w₀ hw₀ => ?_
  rintro w rfl
  exact Prog.Triple.loop_variant (Q := fun _ w => S.content w.sink = c ∧ w.buf = []) List.length
    (triple_flushRound hS) (Nat.lt_succ_self _) w ⟨hw₀, rfl⟩

/-- All of `c` was given to the writer and nothing of it is lost; the buffer has not outgrown its
capacity. -/
def Holds (S : Sink τ ε α) (capacity : ℕ) (c : List α) (w : Buffered τ α) : Prop :=
  all S w = c ∧ w.buf.length ≤ capacity

theorem Holds.push {w : Buffered τ α} {data : List α} (h : Holds S capacity c w)
    (hfit : w.buf.length + data.length ≤ capacity) :
    Holds S capacity (c ++ data) (push data w) := by
  refine ⟨?_, ?_⟩
  · rw [← h.1, all, all, Buffered.push, List.append_assoc]
  · rwa [Buffered.push, List.length_append]

theorem triple_makeRoom (hS : S.FailsOnly B) (n : ℕ) :
    Prog.Triple (Holds S capacity c) (makeRoom S capacity n)
      (fun _ w => Holds S capacity c w ∧ (w.buf = [] ∨ w.buf.length + n ≤ capacity))
      (fun _ w => S.Short c w.sink ∧ B) := by
  refine Prog.Triple.read fun w₀ hw₀ => Prog.Triple.ite (fun _ => ?_) fun hroom =>
    Prog.Triple.pure ?_
  · refine (triple_flush hS).conseq ?_ (fun _ w h => ?_) fun _ _ h => h
    · rintro w rfl
      exact hw₀.1
    · refine ⟨⟨?_, ?_⟩, Or.inl h.2⟩
      · rw [all, h.2, List.append_nil, h.1]
      · rw [h.2]
        exact Nat.zero_le _
  · rintro w rfl
    have hcap := hw₀.2
    exact ⟨hw₀, Or.inr (by omega)⟩

/-- **A write** loses nothing unless it fails. -/
theorem triple_writeAll (hS : S.FailsOnly B) (data : List α) :
    Prog.Triple (Holds S capacity c) (writeAll S capacity data)
      (fun _ => Holds S capacity (c ++ data)) (fun _ w => S.Short (c ++ data) w.sink ∧ B) := by
  refine Prog.Triple.read fun w₀ hw₀ => Prog.Triple.ite (fun hspare => ?_) fun hspare => ?_
  · refine Prog.Triple.modify ?_
    rintro w rfl
    exact hw₀.push (by omega)
  refine Prog.Triple.bind ((triple_makeRoom hS data.length).conseq ?_ (fun _ _ h => h)
    fun _ _ h => ⟨h.1.append data, h.2⟩) fun _ => ?_
  · rintro w rfl
    exact hw₀
  refine Prog.Triple.ite (fun hlarge => ?_) fun hsmall => ?_
  · rintro w ⟨hw, hempty⟩
    have hnil : w.buf = [] := by
      rcases hempty with hnil | hfit
      · exact hnil
      · exact List.length_eq_zero_iff.1 (by omega)
    have hcontent : S.content w.sink = c := by
      rw [← hw.1, all, hnil, List.append_nil]
    refine (triple_onSink (Sink.triple_writeAll hS data) w.buf w ⟨hcontent, rfl⟩).mono
      (fun _ w' h => ⟨?_, ?_⟩) fun _ w' h => h.1
    · rw [all, h.2, hnil, List.append_nil, h.1]
    · rw [h.2, hnil]
      exact Nat.zero_le _
  · refine Prog.Triple.modify fun w hw => hw.1.push ?_
    rcases hw.2 with hnil | hfit
    · rw [hnil]
      simp only [List.length_nil]
      omega
    · exact hfit

/-- **Pieces and a flush.**  Everything that is written piece by piece and then flushed is in the
sink.  If that fails the sink holds less, a beginning of it. -/
theorem triple_write (hS : S.FailsOnly B) (pieces : List (List α)) :
    Prog.Triple (Holds S capacity c) (do pieces.forM (writeAll S capacity); flush S)
      (fun _ w => S.content w.sink = c ++ pieces.flatten)
      (fun _ w => S.Short (c ++ pieces.flatten) w.sink ∧ B) := by
  have hpieces : Prog.Triple
      (fun w => ∃ c', Holds S capacity c' w ∧ c' ++ pieces.flatten = c ++ pieces.flatten)
      (pieces.forM (writeAll S capacity))
      (fun _ w => ∃ c', Holds S capacity c' w ∧ c' ++ [].flatten = c ++ pieces.flatten)
      (fun _ w => S.Short (c ++ pieces.flatten) w.sink ∧ B) := by
    refine Prog.Triple.forM (I := fun left w => ∃ c', Holds S capacity c' w ∧
      c' ++ left.flatten = c ++ pieces.flatten) (fun data left => ?_) pieces
    rintro w ⟨c', hw, hc'⟩
    rw [List.flatten_cons, ← List.append_assoc] at hc'
    exact (triple_writeAll hS data w hw).mono (fun _ _ h => ⟨_, h, hc'⟩)
      fun _ _ h => ⟨hc' ▸ h.1.append left.flatten, h.2⟩
  refine Prog.Triple.bind (hpieces.conseq (fun w hw => ⟨c, hw, rfl⟩) (fun _ _ h => h)
    fun _ _ h => h) fun _ => ?_
  rintro w ⟨c', hw, hc'⟩
  rw [List.flatten_nil, List.append_nil] at hc'
  exact (triple_flush hS w (hc' ▸ hw.1)).mono (fun _ _ h => h.1) fun _ _ h => h

end Buffered

end Zsync
