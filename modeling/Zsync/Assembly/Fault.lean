import Zsync.Assembly.Rules

/-!
# Failed writes

Which blocks are known without being in the temporary file.

* `Stored` : the write of a block was completed, and its verified bytes are in the file;
* `Healthy` : no operation to store a block has failed;
* `OverZeros` : no part of a block was written over old bytes that show behind it;
* `stored_iff_healthy` : every block that is not stored is still needed exactly when both hold.
-/

namespace Zsync

variable {env : Env} {cf : ControlFile} {s s' : State}

/-- No operation to store a block has failed. -/
def Healthy (trace : List Event) : Prop :=
  ∀ op kind, .disk op (some kind) ∈ trace → op.stores = false

/-- A write of block `id` was completed. -/
def Written (cf : ControlFile) (trace : List Event) (id : ℕ) : Prop :=
  ∃ data, .wrote (id * cf.blocksize) data ∈ trace

/-- The write of block `id` was completed, and below the length of the target the file has the bytes
that were verified, the zeros that filled them up included. -/
def Stored (cf : ControlFile) (s : State) (id : ℕ) : Prop :=
  ∃ data, .took id (padTo cf.blocksize data) ∈ s.trace ∧
    .wrote (id * cf.blocksize) data ∈ s.trace ∧
    ∀ i < cf.blocksize, id * cf.blocksize + i < cf.length →
      byteAt s.temp (id * cf.blocksize + i) = byteAt (padTo cf.blocksize data) i

/-- Where only a part of a block was written, the bytes that the file had before behind this part
are zeros. -/
def OverZeros (cf : ControlFile) (old : Bytes) (trace : List Event) : Prop :=
  ∀ id data, .wrote (id * cf.blocksize) data ∈ trace →
    ∀ i < cf.blocksize, data.length ≤ i → id * cf.blocksize + i < cf.length →
      byteAt old (id * cf.blocksize + i) = 0

/-- What the known blocks, the claimed ones and the completed writes have to do with each other. -/
structure Accounted (cf : ControlFile) (p : List (ℕ × Bytes)) (s : State) : Prop where
  pending : ∀ q ∈ p, s.matcher.isBlockKnown q.1 ∧ ¬ Written cf s.trace q.1 ∧
    .took q.1 (padTo cf.blocksize q.2) ∈ s.trace ∧ q.2 ≠ [] ∧ q.2.length ≤ cf.blocksize
  nodup : (p.map Prod.fst).Nodup
  written : ∀ id, Written cf s.trace id → s.matcher.isBlockKnown id
  intact : ∀ id data, .wrote (id * cf.blocksize) data ∈ s.trace →
    .took id (padTo cf.blocksize data) ∈ s.trace ∧ data ≠ [] ∧ data.length ≤ cf.blocksize ∧
      slice s.temp (id * cf.blocksize) data.length = data
  known : Healthy s.trace →
    ∀ id, s.matcher.isBlockKnown id → id ∉ p.map Prod.fst → Written cf s.trace id
  faulty : ¬ Healthy s.trace →
    ∃ id, s.matcher.isBlockKnown id ∧ ¬ Written cf s.trace id ∧ id ∉ p.map Prod.fst

/-! ### Events -/

theorem healthy_append {es trace : List Event} (h : ∀ e ∈ es, e.neutral) :
    Healthy (es ++ trace) ↔ Healthy trace := by
  constructor
  · exact fun hall op kind hmem => hall op kind (List.mem_append_right _ hmem)
  · intro hall op kind hmem
    rcases List.mem_append.1 hmem with hmem | hmem
    · simpa [Event.neutral] using h _ hmem
    · exact hall op kind hmem

theorem healthy_cons {e : Event} {trace : List Event} (h : ∀ op error, e ≠ .disk op error) :
    Healthy (e :: trace) ↔ Healthy trace := by
  refine ⟨fun hall op kind hmem => hall op kind (List.mem_cons_of_mem _ hmem),
    fun hall op kind hmem => ?_⟩
  rcases List.mem_cons.1 hmem with rfl | hmem
  · exact absurd rfl (h op (some kind))
  · exact hall op kind hmem

theorem wrote_mem_append {es trace : List Event}
    (h : ∀ e ∈ es, ∀ offset data, e ≠ .wrote offset data) (offset : ℕ) (data : Bytes) :
    .wrote offset data ∈ es ++ trace ↔ .wrote offset data ∈ trace := by
  refine ⟨fun hmem => ?_, List.mem_append_right _⟩
  rcases List.mem_append.1 hmem with hmem | hmem
  · exact absurd rfl (h _ hmem _ _)
  · exact hmem

theorem written_append {es trace : List Event} (h : ∀ e ∈ es, ∀ offset data, e ≠ .wrote offset data)
    (id : ℕ) : Written cf (es ++ trace) id ↔ Written cf trace id :=
  exists_congr fun data => wrote_mem_append h _ data

theorem ne_wrote_of_neutral {e : Event} (h : e.neutral) (offset : ℕ) (data : Bytes) :
    e ≠ .wrote offset data := by
  rintro rfl
  simp [Event.neutral] at h

/-! ### One step -/

theorem Accounted.quiet {p : List (ℕ × Bytes)} (hq : Quiet s s') (h : Accounted cf p s) :
    Accounted cf p s' := by
  obtain ⟨es, htrace, hes⟩ := hq.trace
  have hhealthy : Healthy s'.trace ↔ Healthy s.trace := htrace ▸ healthy_append hes
  have hne : ∀ e ∈ es, ∀ offset data, e ≠ .wrote offset data := fun e he =>
    ne_wrote_of_neutral (hes e he)
  have hwritten : ∀ id, Written cf s'.trace id ↔ Written cf s.trace id := fun id =>
    htrace ▸ written_append hne id
  have hmem : ∀ e ∈ s.trace, e ∈ s'.trace := fun e he => htrace ▸ List.mem_append_right _ he
  refine ⟨fun q hmemq => ?_, h.nodup, fun id hw => ?_, fun id data hw => ?_,
    fun hh id hk hid => ?_, fun hh => ?_⟩
  · obtain ⟨hk, hw, htook, hlen⟩ := h.pending q hmemq
    exact ⟨hq.matcher ▸ hk, (hwritten _).not.2 hw, hmem _ htook, hlen⟩
  · exact hq.matcher ▸ h.written id ((hwritten id).1 hw)
  · rw [htrace, wrote_mem_append hne] at hw
    obtain ⟨htook, hdata⟩ := h.intact id data hw
    exact ⟨hmem _ htook, hq.temp.symm ▸ hdata⟩
  · exact (hwritten id).2 (h.known (hhealthy.1 hh) id (hq.matcher ▸ hk) hid)
  · obtain ⟨id, hk, hw, hid⟩ := h.faulty (hhealthy.not.1 hh)
    exact ⟨id, hq.matcher ▸ hk, (hwritten id).not.2 hw, hid⟩

theorem Accounted.claimed {p : List (ℕ × Bytes)} (hs : Base env cf s) (hc : Claimed env s s' p)
    (h : Accounted cf [] s) : Accounted cf p s' := by
  have htemp : s'.temp = s.temp := by simp only [State.temp, hc.fs, hc.tempPath]
  have htook : ∀ e ∈ (p.map fun q => Event.took q.1 (padTo s.control.blocksize q.2)).reverse,
      ∃ id w, e = .took id w := by
    intro e he
    obtain ⟨q, -, rfl⟩ := List.mem_map.1 (List.mem_reverse.1 he)
    exact ⟨_, _, rfl⟩
  have hne : ∀ e ∈ (p.map fun q => Event.took q.1 (padTo s.control.blocksize q.2)).reverse,
      ∀ offset data, e ≠ .wrote offset data := by
    intro e he offset data
    obtain ⟨id, w, rfl⟩ := htook e he
    exact Event.noConfusion
  have hhealthy : Healthy s'.trace → Healthy s.trace := fun hh op kind hmem =>
    hh op kind (hc.trace ▸ List.mem_append_right _ hmem)
  have hhealthy' : Healthy s.trace → Healthy s'.trace := by
    intro hh op kind hmem
    rw [hc.trace, List.mem_append] at hmem
    rcases hmem with hmem | hmem
    · obtain ⟨id, w, heq⟩ := htook _ hmem
      exact Event.noConfusion heq
    · exact hh op kind hmem
  have hwritten : ∀ id, Written cf s'.trace id ↔ Written cf s.trace id := fun id =>
    hc.trace ▸ written_append hne id
  have hmem : ∀ e ∈ s.trace, e ∈ s'.trace := fun e he => hc.trace ▸ List.mem_append_right _ he
  refine ⟨fun q hq => ?_, hc.nodup, fun id hw => ?_, fun id data hw => ?_, fun hh id hk hid => ?_,
    fun hh => ?_⟩
  · have hunknown := (hc.unknown q hq).2
    refine ⟨?_, fun hw => ?_, ?_, hc.length q hq |>.1, hs.control ▸ (hc.length q hq).2⟩
    · rw [hc.known, decide_eq_true (List.mem_map_of_mem hq), Bool.or_true]
    · have := h.written q.1 ((hwritten _).1 hw)
      rw [hunknown] at this
      exact Bool.false_ne_true this
    · rw [hc.trace, hs.control]
      exact List.mem_append_left _ (List.mem_reverse.2 (List.mem_map.2 ⟨q, hq, rfl⟩))
  · rw [hc.known, h.written id ((hwritten id).1 hw), Bool.true_or]
  · rw [hc.trace, wrote_mem_append hne] at hw
    obtain ⟨htook, hdata⟩ := h.intact id data hw
    exact ⟨hmem _ htook, htemp.symm ▸ hdata⟩
  · rw [hc.known, decide_eq_false hid, Bool.or_false] at hk
    exact (hwritten id).2 (h.known (hhealthy hh) id hk (by simp))
  · obtain ⟨id, hk, hw, -⟩ := h.faulty (mt hhealthy' hh)
    refine ⟨id, by rw [hc.known, hk, Bool.true_or], (hwritten id).not.2 hw, fun hid => ?_⟩
    -- a block that is claimed was not known before
    obtain ⟨q, hq, rfl⟩ := List.mem_map.1 hid
    rw [(hc.unknown q hq).2] at hk
    exact Bool.false_ne_true hk

theorem block_disjoint {bs i j n k : ℕ} (hij : i ≠ j) (hn : n ≤ bs) (hk : k ≤ bs) :
    i * bs + n ≤ j * bs ∨ j * bs + k ≤ i * bs := by
  rcases Nat.lt_or_gt_of_ne hij with hlt | hlt
  · left
    have := Nat.mul_le_mul_right bs hlt
    rw [Nat.succ_mul] at this
    omega
  · right
    have := Nat.mul_le_mul_right bs hlt
    rw [Nat.succ_mul] at this
    omega

theorem Accounted.wrote (hcf : cf.Checked) {id : ℕ} {data : Bytes} {p : List (ℕ × Bytes)}
    (hsome : (s.fs s.tempPath).isSome) (h : Accounted cf ((id, data) :: p) s) :
    Accounted cf p (s.wrote (id * cf.blocksize) data) := by
  have hbs := hcf.blocksize_pos
  obtain ⟨⟨hknown, hunwritten, htook, hne, hlen⟩, hrest⟩ := List.forall_mem_cons.1 h.pending
  obtain ⟨hid, hnodup⟩ := List.nodup_cons.1 (List.map_cons ▸ h.nodup)
  have hhealthy : Healthy (s.wrote (id * cf.blocksize) data).trace ↔ Healthy s.trace :=
    healthy_cons (by simp)
  have hmemwrote : ∀ j ≠ id, ∀ d, .wrote (j * cf.blocksize) d ∈
      (s.wrote (id * cf.blocksize) data).trace ↔ .wrote (j * cf.blocksize) d ∈ s.trace := by
    intro j hj d
    refine ⟨fun hmem => ?_, List.mem_cons_of_mem _⟩
    rcases List.mem_cons.1 hmem with heq | hmem
    · simp only [Event.wrote.injEq, Nat.mul_left_inj hbs.ne'] at heq
      exact absurd heq.1 hj
    · exact hmem
  have hwritten : ∀ j ≠ id, Written cf (s.wrote (id * cf.blocksize) data).trace j ↔
      Written cf s.trace j := fun j hj => exists_congr (hmemwrote j hj)
  have hpending : ∀ q ∈ p, q.1 ≠ id := fun q hq heq => hid (List.mem_map.2 ⟨q, hq, heq⟩)
  refine ⟨fun q hq => ?_, hnodup, fun j hw => ?_, fun j d hw => ?_, fun hh j hk hj => ?_,
    fun hh => ?_⟩
  · obtain ⟨hk, hw, ht, hl⟩ := hrest q hq
    exact ⟨hk, (hwritten _ (hpending q hq)).not.2 hw, List.mem_cons_of_mem _ ht, hl⟩
  · by_cases hji : j = id
    · exact hji ▸ hknown
    · exact h.written j ((hwritten j hji).1 hw)
  · rw [temp_wrote hsome]
    by_cases hji : j = id
    · subst hji
      -- the block was not written before, so this is its only write
      have hd : d = data := by
        rcases List.mem_cons.1 hw with heq | hmem
        · exact (Event.wrote.inj heq).2
        · exact absurd ⟨d, hmem⟩ hunwritten
      subst hd
      refine ⟨List.mem_cons_of_mem _ htook, hne, hlen, ?_⟩
      rw [slice_writeAt _ _ le_rfl, Nat.sub_self]
      simp [slice, padTo, window]
    · obtain ⟨ht, hd, hl, hslice⟩ := h.intact j d ((hmemwrote j hji d).1 hw)
      refine ⟨List.mem_cons_of_mem _ ht, hd, hl, ?_⟩
      rw [slice_writeAt_of_disjoint, hslice]
      exact block_disjoint (Ne.symm hji) hlen hl
  · by_cases hji : j = id
    · exact ⟨data, hji ▸ List.mem_cons_self⟩
    · exact (hwritten j hji).2 (h.known (hhealthy.1 hh) j hk (by simpa [hji] using hj))
  · obtain ⟨j, hk, hw, hj⟩ := h.faulty (hhealthy.not.1 hh)
    simp only [List.map_cons, List.mem_cons, not_or] at hj
    exact ⟨j, hk, (hwritten j hj.1).not.2 hw, hj.2⟩

theorem Accounted.failed {id : ℕ} {data : Bytes} {p : List (ℕ × Bytes)}
    (hf : StoreFailed env s s' (id * cf.blocksize) data) (h : Accounted cf ((id, data) :: p) s) :
    Accounted cf [] s' := by
  obtain ⟨op, kind, es, htrace, hop, hes⟩ := hf.trace
  obtain ⟨n, htemp⟩ := hf.temp
  have hne : ∀ e ∈ Event.disk op (some kind) :: es, ∀ offset data, e ≠ .wrote offset data := by
    intro e he offset data
    rcases List.mem_cons.1 he with rfl | he
    · exact Event.noConfusion
    · exact ne_wrote_of_neutral (hes e he) offset data
  have hwritten : ∀ j, Written cf s'.trace j ↔ Written cf s.trace j := fun j =>
    htrace ▸ written_append hne j
  have hunhealthy : ¬ Healthy s'.trace := by
    intro hh
    have := hh op kind (htrace ▸ List.mem_cons_self)
    rw [hop] at this
    exact Bool.false_ne_true this.symm
  obtain ⟨hknown, hunwritten, -, -, hlen⟩ := h.pending (id, data) List.mem_cons_self
  refine ⟨by simp, List.nodup_nil, fun j hw => ?_, fun j d hw => ?_,
    fun hh => absurd hh hunhealthy, fun _ => ?_⟩
  · exact hf.matcher ▸ h.written j ((hwritten j).1 hw)
  · have hw' : .wrote (j * cf.blocksize) d ∈ s.trace :=
      (wrote_mem_append hne _ _).1 (htrace ▸ hw)
    obtain ⟨htook, hd, hl, hslice⟩ := h.intact j d hw'
    have hj : j ≠ id := fun hj => hunwritten ⟨d, hj ▸ hw'⟩
    refine ⟨htrace ▸ List.mem_append_right _ htook, hd, hl, ?_⟩
    rw [htemp, slice_writeAt_of_disjoint, hslice]
    exact block_disjoint (Ne.symm hj) ((List.length_take_le' n data).trans hlen) hl
  · exact ⟨id, hf.matcher ▸ hknown, (hwritten id).not.2 hunwritten, by simp⟩

theorem keeps_accounted (hcf : cf.Checked) : Keeps env cf (fun _ => True) (Accounted cf) where
  quiet := Accounted.quiet
  claimed := fun hs hc _ h => h.claimed hs hc
  wrote := fun _ hsome h => h.wrote hcf hsome
  failed := fun _ hf h => h.failed hf

/-! ### Old bytes -/

/-- Each block is written once, and while nothing fails the file keeps its old bytes `old` where
nothing was written. -/
structure Preserved (cf : ControlFile) (old : Bytes) (p : List (ℕ × Bytes)) (s : State) : Prop where
  accounted : Accounted cf p s
  once : ∀ id data data', .wrote (id * cf.blocksize) data ∈ s.trace →
    .wrote (id * cf.blocksize) data' ∈ s.trace → data = data'
  kept : Healthy s.trace → ∀ i, (∀ id data, .wrote (id * cf.blocksize) data ∈ s.trace →
    i < id * cf.blocksize ∨ id * cf.blocksize + data.length ≤ i) → byteAt s.temp i = byteAt old i

variable {old : Bytes}

theorem Preserved.quiet {p : List (ℕ × Bytes)} (hq : Quiet s s') (h : Preserved cf old p s) :
    Preserved cf old p s' := by
  obtain ⟨es, htrace, hes⟩ := hq.trace
  have hwrote : ∀ offset data, .wrote offset data ∈ s'.trace ↔ .wrote offset data ∈ s.trace :=
    fun offset data => htrace ▸ wrote_mem_append (fun e he => ne_wrote_of_neutral (hes e he)) _ _
  refine ⟨h.accounted.quiet hq, fun id d d' => ?_, fun hh i hi => ?_⟩
  · rw [hwrote, hwrote]
    exact h.once id d d'
  · rw [hq.temp]
    exact h.kept ((healthy_append hes).1 (htrace ▸ hh)) i fun id d hd => hi id d ((hwrote _ _).2 hd)

theorem Preserved.claimed {p : List (ℕ × Bytes)} (hs : Base env cf s) (hc : Claimed env s s' p)
    (h : Preserved cf old [] s) : Preserved cf old p s' := by
  have htemp : s'.temp = s.temp := by simp only [State.temp, hc.fs, hc.tempPath]
  have hwrote : ∀ offset data, .wrote offset data ∈ s'.trace ↔ .wrote offset data ∈ s.trace := by
    intro offset data
    rw [hc.trace]
    refine wrote_mem_append (fun e he => ?_) offset data
    obtain ⟨q, -, rfl⟩ := List.mem_map.1 (List.mem_reverse.1 he)
    exact fun _ _ => Event.noConfusion
  refine ⟨h.accounted.claimed hs hc, fun id d d' => ?_, fun hh i hi => ?_⟩
  · rw [hwrote, hwrote]
    exact h.once id d d'
  · rw [htemp]
    refine h.kept (fun op kind hmem => hh op kind ?_) i fun id d hd => hi id d ((hwrote _ _).2 hd)
    exact hc.trace ▸ List.mem_append_right _ hmem

theorem Preserved.wrote (hcf : cf.Checked) {id : ℕ} {data : Bytes} {p : List (ℕ × Bytes)}
    (hsome : (s.fs s.tempPath).isSome) (h : Preserved cf old ((id, data) :: p) s) :
    Preserved cf old p (s.wrote (id * cf.blocksize) data) := by
  have hbs := hcf.blocksize_pos
  have hunwritten := (h.accounted.pending (id, data) List.mem_cons_self).2.1
  have hcases : ∀ j d, .wrote (j * cf.blocksize) d ∈ (s.wrote (id * cf.blocksize) data).trace →
      j = id ∧ d = data ∨ j ≠ id ∧ .wrote (j * cf.blocksize) d ∈ s.trace := by
    intro j d hmem
    rcases List.mem_cons.1 hmem with heq | hmem
    · simp only [Event.wrote.injEq, Nat.mul_left_inj hbs.ne'] at heq
      exact Or.inl heq
    · refine Or.inr ⟨?_, hmem⟩
      rintro rfl
      exact hunwritten ⟨d, hmem⟩
  refine ⟨h.accounted.wrote hcf hsome, fun j d d' hd hd' => ?_, fun hh i hi => ?_⟩
  · rcases hcases j d hd with ⟨rfl, rfl⟩ | ⟨hj, hd⟩ <;>
      rcases hcases j d' hd' with ⟨hj', rfl⟩ | ⟨hj', hd'⟩
    · rfl
    · exact absurd rfl hj'
    · exact absurd hj' hj
    · exact h.once j d d' hd hd'
  · have hout := hi id data List.mem_cons_self
    rw [temp_wrote hsome, byteAt_writeAt, if_neg (by omega)]
    exact h.kept ((healthy_cons (by simp)).1 hh) i fun j d hd => hi j d (List.mem_cons_of_mem _ hd)

theorem Preserved.failed {id : ℕ} {data : Bytes} {p : List (ℕ × Bytes)}
    (hf : StoreFailed env s s' (id * cf.blocksize) data)
    (h : Preserved cf old ((id, data) :: p) s) : Preserved cf old [] s' := by
  obtain ⟨op, kind, es, htrace, hop, hes⟩ := hf.trace
  have hne : ∀ e ∈ Event.disk op (some kind) :: es, ∀ offset data, e ≠ .wrote offset data := by
    intro e he offset data
    rcases List.mem_cons.1 he with rfl | he
    · exact Event.noConfusion
    · exact ne_wrote_of_neutral (hes e he) offset data
  refine ⟨h.accounted.failed hf, fun j d d' => ?_, fun hh => ?_⟩
  · rw [htrace, wrote_mem_append hne, wrote_mem_append hne]
    exact h.once j d d'
  · have hnot := hh op kind (htrace ▸ List.mem_cons_self)
    rw [hop] at hnot
    exact Bool.noConfusion hnot

theorem keeps_preserved (hcf : cf.Checked) (old : Bytes) :
    Keeps env cf (fun _ => True) (Preserved cf old) where
  quiet := Preserved.quiet
  claimed := fun hs hc _ h => h.claimed hs hc
  wrote := fun _ hsome h => h.wrote hcf hsome
  failed := fun _ hf h => h.failed hf

theorem Preserved.tail (h : Preserved cf old [] s) (hh : Healthy s.trace) {id : ℕ} {data : Bytes}
    (hwrote : .wrote (id * cf.blocksize) data ∈ s.trace) {i : ℕ} (hi : i < cf.blocksize)
    (hlen : data.length ≤ i) :
    byteAt s.temp (id * cf.blocksize + i) = byteAt old (id * cf.blocksize + i) := by
  refine h.kept hh _ fun j d hd => ?_
  by_cases hj : j = id
  · subst hj
    have hsame := h.once j d data hd hwrote
    subst hsame
    omega
  · have hlen' := (h.accounted.intact j d hd).2.2.1
    have hdisjoint := block_disjoint hj hlen' (Nat.succ_le_of_lt hi)
    omega

/-- While nothing fails, a known block is stored exactly when no old bytes show behind what was
written of it. -/
theorem Preserved.stored_iff (h : Preserved cf old [] s) (hh : Healthy s.trace) {id : ℕ}
    (hk : s.matcher.isBlockKnown id) : Stored cf s id ↔
      ∀ data, .wrote (id * cf.blocksize) data ∈ s.trace →
        ∀ i < cf.blocksize, data.length ≤ i → id * cf.blocksize + i < cf.length →
          byteAt old (id * cf.blocksize + i) = 0 := by
  obtain ⟨data, hwrote⟩ := h.accounted.known hh id hk (by simp)
  obtain ⟨htook, -, hle, hdata⟩ := h.accounted.intact id data hwrote
  constructor
  · rintro ⟨data', -, hwrote', hbytes⟩ d hd i hi hlen hin
    obtain rfl := h.once id _ _ hwrote' hd
    rw [← h.tail hh hd hi hlen, hbytes i hi hin, byteAt_padTo, if_pos hi, byteAt_of_le hlen]
  · refine fun hzeros => ⟨data, htook, hwrote, fun i hi hin => ?_⟩
    rw [byteAt_padTo, if_pos hi]
    rcases Nat.lt_or_ge i data.length with hlt | hge
    · exact (slice_eq_iff rfl).1 hdata i hlt
    · rw [h.tail hh hwrote hi hge, hzeros data hwrote i hi hge hin, byteAt_of_le hge]

/-! ### Runs -/

theorem accounted_start (cf : ControlFile) (outputPath : String) (baseUrl : Option String)
    (http : HttpClient) (fs : String → Option File) :
    Accounted cf [] (State.start (ZsyncAssembly.withClient cf outputPath baseUrl http) fs) := by
  refine ⟨by simp, List.nodup_nil, ?_, fun _ _ hmem => absurd hmem List.not_mem_nil,
    fun _ id hk => ?_, fun hh => absurd ?_ hh⟩
  · rintro id ⟨data, hmem⟩
    exact absurd hmem List.not_mem_nil
  · exact absurd (hk.symm.trans (BlockMatcher.isBlockKnown_new cf id)) Bool.noConfusion
  · exact fun op kind hmem => absurd hmem List.not_mem_nil

theorem preserved_start (cf : ControlFile) (outputPath : String) (baseUrl : Option String)
    (http : HttpClient) (fs : String → Option File) :
    let s := State.start (ZsyncAssembly.withClient cf outputPath baseUrl http) fs
    Preserved cf s.temp [] s :=
  ⟨accounted_start cf outputPath baseUrl http fs,
    fun _ _ _ hmem => absurd hmem List.not_mem_nil, fun _ _ _ => rfl⟩

/-- **Every run of calls**: each block that is not stored is still needed exactly when no operation
to store a block has failed, and no part of a block was written over old bytes of the temporary
file.  A failure leaves the block it was to store known, and no later call writes it. -/
theorem stored_iff_healthy (env : Env) (hcf : cf.Checked) (outputPath : String)
    (baseUrl : Option String) (http : HttpClient) (fs : String → Option File) (calls : List Call) :
    let s₀ := State.start (ZsyncAssembly.withClient cf outputPath baseUrl http) fs
    let s := runCalls env calls s₀
    (∀ id < s.matcher.totalBlocks, ¬ Stored cf s id →
        BlockMatcher.InRanges s.matcher.neededBlockRanges id) ↔
      Healthy s.trace ∧ OverZeros cf s₀.temp s.trace := by
  intro s₀ s
  have hkeeps : Keeps env cf (fun _ => True) (Preserved cf s₀.temp) :=
    keeps_preserved hcf s₀.temp
  obtain ⟨hold, hbase⟩ := hkeeps.runCalls hcf (fun _ => trivial) calls
    ⟨preserved_start cf outputPath baseUrl http fs, base_start cf outputPath baseUrl http fs⟩
  have hcounted := hbase.counted hcf
  constructor
  · intro hall
    have hstored : ∀ id, s.matcher.isBlockKnown id → Stored cf s id := by
      intro id hk
      by_contra hnot
      have hneeded := hall id (hcounted.lt_of_isBlockKnown hk) hnot
      rw [hcounted.inRanges_iff, hk] at hneeded
      exact Bool.false_ne_true hneeded.2.symm
    have hh : Healthy s.trace := by
      by_contra hh
      obtain ⟨id, hk, hw, -⟩ := hold.accounted.faulty hh
      obtain ⟨data, -, hwrote, -⟩ := hstored id hk
      exact hw ⟨data, hwrote⟩
    refine ⟨hh, fun id data hwrote => ?_⟩
    have hk := hold.accounted.written id ⟨data, hwrote⟩
    exact (hold.stored_iff hh hk).1 (hstored id hk) data hwrote
  · rintro ⟨hh, hzeros⟩ id hid hnot
    rw [hcounted.inRanges_iff]
    refine ⟨hid, Bool.eq_false_iff.2 fun hk => hnot ?_⟩
    exact (hold.stored_iff hh hk).2 (hzeros id)

/-! ### A run that fails -/

theorem healthy_of_all {trace : List Event}
    (h : (trace.all fun
      | .disk op (some _) => !op.stores
      | _ => true) = true) : Healthy trace := by
  intro op kind hmem
  simpa using List.all_eq_true.1 h _ hmem

/-- A download whose write fails: the block is neither stored nor needed, and `complete` installs a
file with a hole. -/
theorem failed_write_stays_known :
    let env := tinyEnv [1, 0] (some .writeTemp)
    let r := downloadMissingBlocks env (tinyStart none none)
    r.1 = .error (.io .other) ∧ 0 < r.2.matcher.totalBlocks ∧ ¬ Stored (tinyControl none) r.2 0 ∧
      ¬ BlockMatcher.InRanges r.2.matcher.neededBlockRanges 0 ∧
      (finish env r.2).1 = .ok () ∧
      ((finish env r.2).2.fs "o").map File.data = some [0, 0] := by
  refine ⟨by decide +kernel, by decide +kernel, ?_, ?_, by decide +kernel, by decide +kernel⟩
  · rintro ⟨data, -, hwrote, -⟩
    have htrace : (downloadMissingBlocks (tinyEnv [1, 0] (some .writeTemp))
        (tinyStart none none)).2.trace = [.disk .writeTemp (some .other), .disk .seekToWrite none,
          .disk .openTemp none, .took 0 [1, 0]] := by decide +kernel
    rw [htrace] at hwrote
    simp at hwrote
  · have hneeded : (downloadMissingBlocks (tinyEnv [1, 0] (some .writeTemp))
        (tinyStart none none)).2.matcher.neededBlockRanges = [] := by decide +kernel
    rw [hneeded]
    exact BlockMatcher.inRanges_nil 0

/-- A download without failures stores the block. -/
theorem stored_of_download_tiny :
    Stored (tinyControl none) (runCalls (tinyEnv [1, 0] none) [.downloadMissingBlocks]
      (tinyStart none none)) 0 := by
  by_contra hnot
  have hhealthy : Healthy (runCalls (tinyEnv [1, 0] none) [.downloadMissingBlocks]
      (tinyStart none none)).trace := healthy_of_all (by decide +kernel)
  have hcount : 0 < (runCalls (tinyEnv [1, 0] none) [.downloadMissingBlocks]
      (tinyStart none none)).matcher.totalBlocks := by decide +kernel
  have hnone : (runCalls (tinyEnv [1, 0] none) [.downloadMissingBlocks]
      (tinyStart none none)).matcher.neededBlockRanges = [] := by decide +kernel
  unfold tinyStart at *
  have hneeded := (stored_iff_healthy (tinyEnv [1, 0] none) (checked_tinyControl none) "o" none
    ⟨none, 0⟩ (tinyFs none) [.downloadMissingBlocks]).2 ⟨hhealthy, fun _ _ _ _ _ _ _ => rfl⟩ 0
    hcount hnot
  rw [hnone] at hneeded
  exact BlockMatcher.inRanges_nil 0 hneeded

end Zsync
