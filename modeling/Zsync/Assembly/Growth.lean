import Zsync.Assembly.Steps
import Zsync.Assembly.Windows

/-!
# A file that grows while it is scanned

The scan of the temporary file, which its own writes may extend past the size that it has recorded.

* `State.scans` : what the scan progress callback received;
* `Within` : how far the writes of a scan extend the file;
* `scanRound_reports` : what one chunk of the scan reports;
* `Documented`, `EndsInside` : what is promised of the reports, and when it holds;
* `self_scan_documented_iff` : the scan ends, and reports as promised exactly when every chunk ends
  inside the recorded size or is read while the file still has it.
-/

namespace Zsync

variable {env : Env} {cf : ControlFile} {s s' : State}

/-! ### Reports -/

/-- What the scan progress callback received with an event. -/
def Event.scan? : Event → Option (ℕ × ℕ)
  | .scanProgress done total => some (done, total)
  | _ => none

/-- What the scan progress callback received in a run, oldest first. -/
def State.scans (s : State) : List (ℕ × ℕ) := (s.trace.filterMap Event.scan?).reverse

theorem scans_note (s : State) (done total : ℕ) :
    (s.note (.scanProgress done total)).scans = s.scans ++ [(done, total)] := by
  simp [State.scans, State.note, Event.scan?]

theorem scans_of_trace (es : List Event) (h : s'.trace = es ++ s.trace)
    (hes : ∀ e ∈ es, e.scan? = none) : s'.scans = s.scans := by
  rw [State.scans, h, List.filterMap_append, List.filterMap_eq_nil_iff.2 hes, List.nil_append,
    State.scans]

/-- A program that does not call the scan progress callback. -/
abbrev Unreported {α : Type} (x : Asm α) : Prop := Prog.Frames State.scans x

theorem allows_scans : Allows (Prog.Unchanged State.scans) where
  clock _ _ := rfl
  file _ _ := rfl
  fs _ _ := rfl
  disk _ op error := scans_of_trace [.disk op error] rfl (by simp [Event.scan?])
  wrote _ offset data := scans_of_trace [.wrote offset data] rfl (by simp [Event.scan?])

theorem unreported_submitChunk (data : Bytes) (offset : ℕ) :
    Unreported (submitChunk env data offset) := by
  refine fun s => scans_of_trace _ rfl fun e he => ?_
  obtain ⟨p, -, rfl⟩ := List.mem_map.1 (List.mem_reverse.1 he)
  rfl

/-! ### Lengths -/

/-- The temporary file has at least `lo` bytes, and what was written of it and is still to be
written does not go past `hi`. -/
structure Within (cf : ControlFile) (lo hi : ℕ) (p : List (ℕ × Bytes)) (s : State) : Prop where
  lo_le : lo ≤ s.temp.length
  le_hi : s.temp.length ≤ hi
  pending : ∀ q ∈ p, q.1 * cf.blocksize + q.2.length ≤ hi

/-- **Writes** do not extend the file past the end of the last block. -/
theorem keeps_within (env : Env) (hcf : cf.Checked) (lo : ℕ) {hi : ℕ}
    (hhi : cf.blockChecksums.length * cf.blocksize ≤ hi) :
    Keeps env cf (fun _ => True) (Within cf lo hi) where
  quiet hq h := ⟨hq.temp ▸ h.lo_le, hq.temp ▸ h.le_hi, h.pending⟩
  claimed {s s' p} hs hc _ h := by
    have htemp : s'.temp = s.temp := by rw [State.temp, State.temp, hc.fs, hc.tempPath]
    refine ⟨htemp ▸ h.lo_le, htemp ▸ h.le_hi, fun q hq => le_trans ?_ hhi⟩
    have hlt := (hc.unknown q hq).1
    have hlen := (hc.length q hq).2
    rw [hs.totalBlocks hcf] at hlt
    rw [hs.control] at hlen
    calc q.1 * cf.blocksize + q.2.length ≤ (q.1 + 1) * cf.blocksize := by
          rw [Nat.succ_mul]
          omega
      _ ≤ cf.blockChecksums.length * cf.blocksize := Nat.mul_le_mul_right _ hlt
  wrote {id data p s} _ hsome h := by
    obtain ⟨hhead, hrest⟩ := List.forall_mem_cons.1 h.pending
    have htemp := temp_wrote hsome (id * cf.blocksize) data
    exact ⟨h.lo_le.trans (htemp ▸ length_le_writeAt _ _ _),
      htemp ▸ length_writeAt_le h.le_hi hhead, hrest⟩
  failed {id data p s s'} _ hf h := by
    obtain ⟨n, htemp⟩ := hf.temp
    have hhead := (List.forall_mem_cons.1 h.pending).1
    refine ⟨h.lo_le.trans (htemp ▸ length_le_writeAt _ _ _),
      htemp ▸ length_writeAt_le h.le_hi (le_trans ?_ hhead), List.forall_mem_nil _⟩
    exact Nat.add_le_add_left (List.length_take_le' _ _) _

/-- Every read of the temporary file returns the `len` bytes it may ask for, up to the end of the
file. -/
def ReadsFully (env : Env) (len : ℕ) : Prop := ∀ n, len ≤ (env.disk n .readTemp).count + 1

variable {P : State → Prop} {T : Bytes} {len : ℕ}

theorem triple_readAtOffset_full (hread : ReadsFully env len) (hP : ∀ s s', Quiet s s' → P s → P s')
    (htemp : ∀ s, P s → s.temp = T) (offset : ℕ) :
    Prog.Triple P (readAtOffset env offset len) (fun got s => got = window T offset len ∧ P s)
      (fun _ => P) := by
  refine Prog.Triple.bind (triple_io hP rfl) fun _ => ?_
  refine Prog.Triple.bind (Q := fun count s => len ≤ count + 1 ∧ P s) ?_ fun count => ?_
  · intro s hs
    have hq : P (attempt env .readTemp s).2 := hP s _ (quiet_attempt (Or.inr rfl)) hs
    rw [io_run]
    cases (env.disk s.clock .readTemp).error with
    | none => exact ⟨hread _, hq⟩
    | some kind => exact hq
  · refine Prog.Triple.assuming fun hcount => Prog.Triple.read fun s₀ hs₀ => Prog.Triple.pure ?_
    rintro s rfl
    exact ⟨by rw [min_eq_left hcount, htemp s hs₀], hs₀⟩

/-! ### One chunk -/

/-- A scan of the temporary file of `size` bytes may be in this state. -/
structure Rereading (env : Env) (cf : ControlFile) (size hi : ℕ) (s : State) : Prop where
  base : Base env cf s
  file : s.file = true
  size_le : size ≤ s.temp.length
  le_hi : s.temp.length ≤ hi

/-- **One chunk** of the scan.  A full one is reported with the recorded size, whatever the file has
grown to; the last one ends at the end of the file. -/
theorem scanRound_reports (hcf : cf.Checked) {size hi chunkSize : ℕ} (hpos : 0 < chunkSize)
    (hhi : cf.blockChecksums.length * cf.blocksize ≤ hi) (hread : ReadsFully env chunkSize)
    (context : ℕ) (v : ScanVars) (hs : Rereading env cf size hi s) :
    Prog.Post (fun r s' => Rereading env cf size hi s' ∧ s.temp.length ≤ s'.temp.length ∧
        Sum.elim
          (fun v' => v'.fileOffset = v.fileOffset + chunkSize ∧ v'.fileOffset ≤ s.temp.length ∧
            s'.scans = s.scans ++ [(v'.fileOffset, size)])
          (fun _ => s.temp.length < v.fileOffset + chunkSize ∧ s'.scans = s.scans ++
            if v.fileOffset < s.temp.length then [(s.temp.length, size)] else []) r)
      (fun _ s' => s'.scans = s.scans)
      (scanRound env (readAtOffset env) false size chunkSize context v s) := by
  have hI := keeps_within env hcf s.temp.length hhi
  -- what holds from the start of the round until it writes
  let A : State → Prop := fun s' =>
    Keeps.At env cf (Within cf s.temp.length hi) false [] s' ∧ s'.temp = s.temp
  have hquiet : ∀ t t', Quiet t t' → A t → A t' := fun t t' hq h =>
    ⟨hI.at_quiet t t' hq h.1, hq.temp.trans h.2⟩
  have hsilent {α : Type} {x : Asm α} {Q : α → State → Prop} {P : State → Prop}
      (hx : Prog.Triple P x Q fun _ _ => True) (hu : Unreported x) :
      Prog.Triple (fun t => P t ∧ t.scans = s.scans) x (fun a t => Q a t ∧ t.scans = s.scans)
        (fun _ t => t.scans = s.scans) :=
    (hx.and (hu.triple s.scans)).conseq (fun _ h => h) (fun _ _ h => h) fun _ _ h => h.2
  have hstart : A s := ⟨⟨⟨le_rfl, hs.le_hi, List.forall_mem_nil _⟩, hs.base, Or.inr hs.file⟩, rfl⟩
  have hdone : ∀ t, Keeps.At env cf (Within cf s.temp.length hi) false [] t →
      Rereading env cf size hi t ∧ s.temp.length ≤ t.temp.length := fun t ht =>
    ⟨⟨ht.2.1, ht.2.2.resolve_left Bool.false_ne_true, hs.size_le.trans ht.1.lo_le, ht.1.le_hi⟩,
      ht.1.lo_le⟩
  suffices h : Prog.Triple (fun t => A t ∧ t.scans = s.scans)
      (scanRound env (readAtOffset env) false size chunkSize context v) _ _ from h s ⟨hstart, rfl⟩
  refine Prog.Triple.bind (hsilent ((triple_checkAborted hquiet).conseq (fun _ h => h)
    (fun _ _ h => h) fun _ _ _ => trivial) allows_scans.checkAborted) fun _ => ?_
  refine Prog.Triple.bind (hsilent ((triple_readOverlap (fun P hP => triple_readAtOffset hP) hquiet
    _ _ _).conseq (fun _ h => h) (fun _ _ h => h) fun _ _ _ => trivial)
    (Allows.readOverlap allows_scans.readAtOffset _ _ _)) fun buf => ?_
  refine Prog.Triple.bind (hsilent ((triple_readAtOffset_full hread hquiet (fun _ h => h.2)
    v.fileOffset).conseq (fun _ h => h) (fun _ _ h => h) fun _ _ _ => trivial)
    (allows_scans.readAtOffset _ _)) fun got => ?_
  refine (Prog.Triple.assuming (p := got = window s.temp v.fileOffset chunkSize)
    (P := fun t => A t ∧ t.scans = s.scans) fun hgot => ?_).conseq
    (fun t h => ⟨h.1.1, h.1.2, h.2⟩) (fun _ _ h => h) fun _ _ h => h
  have hlen : got.length = min chunkSize (s.temp.length - v.fileOffset) := by simp [hgot, window]
  refine Prog.Triple.ite (fun hnil => Prog.Triple.pure fun t ht => ?_) fun hne => ?_
  · rw [hnil, List.length_nil] at hlen
    refine ⟨(hdone t ht.1.1).1, (hdone t ht.1.1).2, by omega, ?_⟩
    rw [if_neg (by omega), List.append_nil]
    exact ht.2
  have hgotPos := List.length_pos_of_ne_nil hne
  refine Prog.Triple.bind (hsilent ((triple_readContext (fun P hP => triple_readAtOffset hP) hquiet
    size context _ _ _).conseq (fun _ h => h) (fun _ _ h => h) fun _ _ _ => trivial)
    (Allows.readContext allows_scans.readAtOffset _ _ _ _ _)) fun buf' => ?_
  refine Prog.Triple.bind (hsilent ((hI.submitChunk hcf (fun _ _ => trivial) false buf' _ _).conseq
    (fun _ h => h.1) (fun _ _ h => h) fun _ _ _ => trivial) (unreported_submitChunk _ _))
    fun matched => ?_
  refine Prog.Triple.bind (hsilent ((hI.storeMatches false buf' _ matched).conseq (fun _ h => h)
    (fun _ _ h => h) fun _ _ _ => trivial) (allows_scans.storeMatches _ _ _ _)) fun _ => ?_
  refine Prog.Triple.bind (Q := fun _ t =>
    Keeps.At env cf (Within cf s.temp.length hi) false [] t ∧
      t.scans = s.scans ++ [(v.fileOffset + got.length, size)])
    (Prog.Triple.modify fun t ht => ⟨?_, ?_⟩) fun _ => ?_
  · exact hI.at_quiet t _ (Quiet.of_eq rfl rfl rfl rfl rfl rfl
      ⟨[.scanProgress (v.fileOffset + got.length) size], rfl, by simp [Event.neutral]⟩) ht.1
  · rw [scans_note, ht.2]
  refine Prog.Triple.ite (fun hshort => Prog.Triple.pure fun t ht => ?_) fun hfull =>
    Prog.Triple.pure fun t ht => ?_
  · refine ⟨(hdone t ht.1).1, (hdone t ht.1).2, by omega, ?_⟩
    rw [if_pos (by omega), ht.2, show v.fileOffset + got.length = s.temp.length by omega]
  · refine ⟨(hdone t ht.1).1, (hdone t ht.1).2, ?_, ?_, ht.2⟩ <;> dsimp only <;> omega

/-! ### The reports of a scan -/

/-- The reports of `k` full chunks of a file with the recorded size `size`, and of a last one that
ends at `len`. -/
def chunkReports (chunkSize size k len : ℕ) : List (ℕ × ℕ) :=
  (List.range k).map (fun i => ((i + 1) * chunkSize, size)) ++
    if k * chunkSize < len then [(len, size)] else []

/-- What is promised of the reports of a scan of `size` bytes that returns. -/
structure Documented (size : ℕ) (reports : List (ℕ × ℕ)) : Prop where
  increasing : (reports.map Prod.fst).Pairwise (· < ·)
  total : ∀ r ∈ reports, r.2 = size
  le : ∀ r ∈ reports, r.1 ≤ r.2
  last : reports.getLast? = some (size, size)

section Reports

variable {chunkSize size k len : ℕ}

theorem mem_chunkReports {r : ℕ × ℕ} : r ∈ chunkReports chunkSize size k len ↔
    (∃ i < k, ((i + 1) * chunkSize, size) = r) ∨ k * chunkSize < len ∧ r = (len, size) := by
  rw [chunkReports, List.mem_append, List.mem_map]
  split_ifs with h <;> simp [h]

theorem total_chunkReports {r : ℕ × ℕ} (h : r ∈ chunkReports chunkSize size k len) :
    r.2 = size := by
  rcases mem_chunkReports.1 h with ⟨i, -, rfl⟩ | ⟨-, rfl⟩ <;> rfl

theorem le_chunkReports (hk : k * chunkSize ≤ size) (hlen : len ≤ size) {r : ℕ × ℕ}
    (h : r ∈ chunkReports chunkSize size k len) : r.1 ≤ r.2 := by
  rcases mem_chunkReports.1 h with ⟨i, hi, rfl⟩ | ⟨-, rfl⟩
  · exact (Nat.mul_le_mul_right chunkSize hi).trans hk
  · exact hlen

theorem increasing_chunkReports (hpos : 0 < chunkSize) :
    ((chunkReports chunkSize size k len).map Prod.fst).Pairwise (· < ·) := by
  rw [chunkReports, List.map_append, List.pairwise_append, List.map_map]
  refine ⟨?_, by split_ifs <;> simp, fun x hx y hy => ?_⟩
  · rw [List.pairwise_map]
    exact List.pairwise_lt_range.imp fun hij =>
      Nat.mul_lt_mul_of_pos_right (Nat.succ_lt_succ hij) hpos
  · obtain ⟨i, hi, rfl⟩ := List.mem_map.1 hx
    split_ifs at hy with hlen
    · obtain rfl := List.mem_singleton.1 hy
      exact (Nat.mul_le_mul_right chunkSize (List.mem_range.1 hi)).trans_lt hlen
    · cases hy

theorem chunkReports_eq : chunkReports chunkSize size k len =
    chunkReports chunkSize size k 0 ++ if k * chunkSize < len then [(len, size)] else [] := by
  simp [chunkReports]

theorem chunkReports_succ : chunkReports chunkSize size (k + 1) 0 =
    chunkReports chunkSize size k 0 ++ [((k + 1) * chunkSize, size)] := by
  simp [chunkReports, List.range_succ]

/-- **The reports are as promised** exactly when the last chunk ends at the recorded size. -/
theorem documented_chunkReports_iff (hpos : 0 < chunkSize) (hsize : 0 < size)
    (hk : k * chunkSize ≤ len) (hle : size ≤ len) :
    Documented size (chunkReports chunkSize size k len) ↔ len = size := by
  constructor
  · intro h
    refine le_antisymm ?_ hle
    rcases Nat.lt_or_eq_of_le hk with hlt | rfl
    · exact h.le (len, size) (mem_chunkReports.2 (Or.inr ⟨hlt, rfl⟩))
    · obtain ⟨j, rfl⟩ : ∃ j, k = j + 1 := Nat.exists_eq_succ_of_ne_zero fun h0 => by
        rw [h0, Nat.zero_mul] at hle
        omega
      exact h.le _ (mem_chunkReports.2 (Or.inl ⟨j, j.lt_succ_self, rfl⟩))
  · rintro rfl
    refine ⟨increasing_chunkReports hpos, fun r hr => total_chunkReports hr,
      fun r hr => le_chunkReports hk le_rfl hr, ?_⟩
    rcases Nat.lt_or_eq_of_le hk with hlt | rfl
    · rw [chunkReports, if_pos hlt, List.getLast?_concat]
    · obtain ⟨j, rfl⟩ : ∃ j, k = j + 1 := Nat.exists_eq_succ_of_ne_zero fun h0 => by
        rw [h0, Nat.zero_mul] at hsize
        omega
      rw [chunkReports, if_neg (lt_irrefl _), List.append_nil, List.range_succ, List.map_append,
        List.map_singleton, List.getLast?_concat]

end Reports

/-! ### The rounds -/

section Rounds

variable {size hi chunkSize context : ℕ}

/-- Every chunk that the scan comes to ends inside the recorded size, or is read while the file
still has that size. -/
def EndsInside (env : Env) (size chunkSize context : ℕ) (s : State) : Prop :=
  ∀ k v t, Prog.Reaches (scanRound env (readAtOffset env) false size chunkSize context) k
    ⟨[], 0, 0⟩ s v t → v.fileOffset + chunkSize ≤ size ∨ t.temp.length = size

variable (hcf : cf.Checked) (hpos : 0 < chunkSize)
  (hhi : cf.blockChecksums.length * cf.blocksize ≤ hi) (hread : ReadsFully env chunkSize)
  (hs : Rereading env cf size hi s)
include hcf hpos hhi hread hs

/-- **The rounds of the scan** so far are full chunks. -/
theorem reaches_reports {k : ℕ} {b v : ScanVars} {t : State} (hb : b.fileOffset = 0)
    (h : Prog.Reaches (scanRound env (readAtOffset env) false size chunkSize context) k b s v t) :
    Rereading env cf size hi t ∧ v.fileOffset = k * chunkSize ∧ k * chunkSize ≤ t.temp.length ∧
      t.scans = s.scans ++ chunkReports chunkSize size k 0 := by
  induction h with
  | refl => exact ⟨hs, by simpa using hb, by simp, by simp [chunkReports]⟩
  | @next k b v v' s t t' _ hrun ih =>
    obtain ⟨hreading, hoffset, -, hscans⟩ := ih hs hb
    have hpost := scanRound_reports hcf hpos hhi hread context v hreading
    rw [hrun] at hpost
    obtain ⟨hreading', hgrown, hoffset', hle, hscans'⟩ := hpost
    rw [hoffset, ← Nat.add_one_mul] at hoffset'
    refine ⟨hreading', hoffset', by omega, ?_⟩
    rw [hscans', hscans, hoffset', chunkReports_succ, List.append_assoc]

theorem reaches_le {k : ℕ} {v : ScanVars} {t : State}
    (hinside : EndsInside env size chunkSize context s)
    (h : Prog.Reaches (scanRound env (readAtOffset env) false size chunkSize context) k
      ⟨[], 0, 0⟩ s v t) : k * chunkSize ≤ size := by
  have hoffset := (reaches_reports hcf hpos hhi hread hs rfl h).2.1
  cases h with
  | refl => simp
  | @next k _ v' _ _ t' _ h hrun =>
    have hreading := (reaches_reports hcf hpos hhi hread hs rfl h).1
    have hpost := scanRound_reports hcf hpos hhi hread context v' hreading
    rw [hrun] at hpost
    obtain ⟨-, -, hoffset', hle, -⟩ := hpost
    rcases hinside _ _ _ h with hin | hlen <;> omega

theorem endsInside_of_lt (hsize : s.temp.length = size) (hlt : size < chunkSize) :
    EndsInside env size chunkSize context s := by
  have hnone : ∀ k (v : ScanVars) t,
      Prog.Reaches (scanRound env (readAtOffset env) false size chunkSize context) k
        ⟨[], 0, 0⟩ s v t → k = 0 ∧ t = s := by
    intro k v t h
    induction k generalizing v t with
    | zero =>
      cases h
      exact ⟨rfl, rfl⟩
    | succ k ih =>
      cases h with
      | @next _ _ v' _ _ t' _ h hrun =>
        obtain ⟨rfl, rfl⟩ := ih _ _ h
        have hpost := scanRound_reports hcf hpos hhi hread context v' hs
        rw [hrun] at hpost
        obtain ⟨-, -, hoffset, hle, -⟩ := hpost
        omega
  intro k v t h
  obtain ⟨-, rfl⟩ := hnone k v t h
  exact Or.inr hsize

/-- **The scan ends**: every full chunk lies in the file, which stays below `hi`. -/
theorem rereading_ends (context : ℕ) : ∃ k, Prog.Ends
    (scanRound env (readAtOffset env) false size chunkSize context) k ⟨[], 0, 0⟩ s
      (Prog.loop (scanRound env (readAtOffset env) false size chunkSize context)
        ScanVars.totalMatched (hi + 1) ⟨[], 0, 0⟩ s) := by
  have hround : ∀ v t v' t', Rereading env cf size hi t →
      scanRound env (readAtOffset env) false size chunkSize context v t = (.ok (.inl v'), t') →
      Rereading env cf size hi t' ∧ hi - v'.fileOffset < hi - v.fileOffset := by
    intro v t v' t' ht hrun
    have hpost := scanRound_reports hcf hpos hhi hread context v ht
    rw [hrun] at hpost
    obtain ⟨ht', -, hoffset, hle, -⟩ := hpost
    have := ht.le_hi
    exact ⟨ht', by omega⟩
  obtain ⟨k, -, hends⟩ := Prog.ends_loop (I := fun _ => Rereading env cf size hi)
    (fun (v : ScanVars) _ => hi - v.fileOffset) hround ScanVars.totalMatched hs
    (Nat.lt_succ_of_le (Nat.sub_le _ _))
  exact ⟨k, hends⟩

/-- **The reports of the scan.**  They are of full chunks and, when the scan returns, of a last one
that ends where the file does by then, which is the recorded size exactly when every chunk ends
inside it or is read while the file still has it. -/
theorem rereading_reports {n : ℕ} {r : Except AssemblyError ℕ × State}
    (hends : Prog.Ends (scanRound env (readAtOffset env) false size chunkSize context) n
      ⟨[], 0, 0⟩ s r) :
    ∃ k len, k * chunkSize ≤ len ∧ r.2.scans = s.scans ++ chunkReports chunkSize size k len ∧
      (EndsInside env size chunkSize context s → len ≤ size) ∧
      ∀ total, r.1 = .ok total → size ≤ len ∧ len < k * chunkSize + chunkSize ∧
        (len = size → EndsInside env size chunkSize context s) ∧
        ∃ v t, Prog.Reaches (scanRound env (readAtOffset env) false size chunkSize context) k
          ⟨[], 0, 0⟩ s v t ∧ t.temp.length = len := by
  obtain ⟨k, v, t, rfl, hreach, hlast⟩ := hends.exists_last
  obtain ⟨hreading, hoffset, hle, hscans⟩ := reaches_reports hcf hpos hhi hread hs rfl hreach
  have hpost := scanRound_reports hcf hpos hhi hread context v hreading
  cases hlast with
  | fail hrun =>
    rw [hrun] at hpost
    refine ⟨k, k * chunkSize, le_rfl, ?_, fun hinside => reaches_le hcf hpos hhi hread hs hinside
      hreach, nofun⟩
    rw [chunkReports_eq, if_neg (lt_irrefl _), List.append_nil]
    exact hpost.trans hscans
  | stop hrun =>
    rw [hrun] at hpost
    obtain ⟨-, -, hlt, hscans'⟩ := hpost
    rw [hoffset] at hlt hscans'
    refine ⟨k, t.temp.length, hle, ?_, fun hinside => ?_, fun _ _ => ⟨hreading.size_le, hlt,
      fun hlen j v' t' hj => ?_, v, t, hreach, rfl⟩⟩
    · exact hscans'.trans (by rw [hscans, List.append_assoc, ← chunkReports_eq])
    · have := hreading.size_le
      rcases hinside k v t hreach with hin | hlen <;> omega
    · -- the scan does not come to a round after its last one
      obtain ⟨m, hm, hends'⟩ := hends.of_reaches hj
      obtain ⟨m', -, -, rfl, -, -⟩ := hends'.exists_last
      rcases Nat.lt_or_eq_of_le (show j ≤ k by omega) with hjk | rfl
      · left
        rw [(reaches_reports hcf hpos hhi hread hs rfl hj).2.1, ← Nat.succ_mul, ← hlen]
        exact (Nat.mul_le_mul_right chunkSize hjk).trans hle
      · obtain ⟨-, rfl⟩ := hj.unique hreach
        exact Or.inr hlen

end Rounds

/-! ### The scan of the temporary file -/

/-- The state from which the temporary file is read, once it is flushed and its size is taken. -/
def rereadStart (env : Env) (s : State) : State :=
  (attempt env .statTemp (attempt env .syncTemp s).2).2

theorem quiet_rereadStart (env : Env) (s : State) : Quiet s (rereadStart env s) :=
  (quiet_attempt (Or.inr rfl)).trans (quiet_attempt (Or.inr rfl))

theorem scans_rereadStart (env : Env) (s : State) : (rereadStart env s).scans = s.scans :=
  scans_of_trace [.disk .statTemp _, .disk .syncTemp _] rfl (by simp [Event.scan?])

theorem submitSelfReferential_run (hfile : s.file = true) :
    (∃ e, (submitSelfReferential env s).1 = .error e ∧
        (submitSelfReferential env s).2.scans = s.scans) ∨
      submitSelfReferential env s = scanFile env (readAtOffset env) false s.temp.length
        (max s.temp.length (s.matcher.totalBlocks * s.control.blocksize) + 1)
        (rereadStart env s) := by
  have hsync : (attempt env .syncTemp s).2.scans = s.scans :=
    scans_of_trace [.disk .syncTemp _] rfl (by simp [Event.scan?])
  rw [submitSelfReferential, Prog.bind_run]
  simp only [Prog.read, Prog.next, hfile, not_true_eq_false, if_false]
  rw [Prog.bind_run, io_run]
  cases (env.disk s.clock .syncTemp).error with
  | some kind => exact Or.inl ⟨_, rfl, hsync⟩
  | none =>
    simp only [Prog.next]
    rw [Prog.bind_run, io_run]
    cases (env.disk (attempt env .syncTemp s).2.clock .statTemp).error with
    | some kind => exact Or.inl ⟨_, rfl, scans_rereadStart env s⟩
    | none => exact Or.inr rfl

theorem submitSelfReferential_skip (hcontrol : s.control = cf) (h : s.file = false ∨
      s.temp.length < cf.blocksize * cf.hashLengths.seqMatches) :
    (submitSelfReferential env s).2.scans = s.scans := by
  cases hfile : s.file with
  | false =>
    rw [submitSelfReferential, Prog.bind_run]
    simp only [Prog.read, Prog.next, hfile, Bool.false_eq_true, not_false_eq_true, if_true]
    rfl
  | true =>
    rcases submitSelfReferential_run hfile with ⟨e, -, hscans⟩ | hrun
    · exact hscans
    · have hcontrol' : (rereadStart env s).control = cf :=
        (quiet_rereadStart env s).control.trans hcontrol
      have hshort := h.resolve_left (by simp [hfile])
      rw [hrun, scanFile, Prog.bind_run]
      simp only [Prog.read, Prog.next, hcontrol', hshort, if_true]
      exact scans_rereadStart env s

/-- The scan of a temporary file that is open and long enough reads it in chunks, unless it cannot
be flushed or measured. -/
theorem submitSelfReferential_eq (env : Env) (hs : Base env cf s) (hcf : cf.Checked)
    (hfile : s.file = true) (hlen : cf.blocksize * cf.hashLengths.seqMatches ≤ s.temp.length) :
    (∃ e, (submitSelfReferential env s).1 = .error e ∧
        (submitSelfReferential env s).2.scans = s.scans) ∨
      submitSelfReferential env s = Prog.loop (scanRound env (readAtOffset env) false s.temp.length
          (max streamChunkSize (cf.blocksize * cf.hashLengths.seqMatches * 2))
          (cf.blocksize * cf.hashLengths.seqMatches)) ScanVars.totalMatched
        (max s.temp.length (cf.blockChecksums.length * cf.blocksize) + 1) ⟨[], 0, 0⟩
        (rereadStart env s) := by
  have hcontrol : (rereadStart env s).control = cf :=
    (quiet_rereadStart env s).control.trans hs.control
  refine (submitSelfReferential_run hfile).imp id fun hrun => ?_
  rw [hrun, scanFile, Prog.bind_run]
  simp only [Prog.read, Prog.next, hcontrol, hs.control, hs.totalBlocks hcf]
  rw [if_neg (Nat.not_lt.2 hlen)]

theorem rereading_start (hs : Base env cf s) (hfile : s.file = true) :
    Rereading env cf s.temp.length
      (max s.temp.length (cf.blockChecksums.length * cf.blocksize)) (rereadStart env s) := by
  have hq := quiet_rereadStart env s
  exact ⟨hq.base hs, hq.file hfile, hq.temp ▸ le_rfl, hq.temp ▸ le_max_left _ _⟩

/-- **The scan of the temporary file** ends, whether it fails or not, and it reports chunks. -/
theorem submitSelfReferential_reports (hcf : cf.Checked) (hs : Base env cf s)
    (hread : ReadsFully env
      (max streamChunkSize (cf.blocksize * cf.hashLengths.seqMatches * 2))) :
    let size := s.temp.length
    let context := cf.blocksize * cf.hashLengths.seqMatches
    let chunkSize := max streamChunkSize (context * 2)
    let r := submitSelfReferential env s
    ∃ k len, k * chunkSize ≤ len ∧ r.2.scans = s.scans ++ chunkReports chunkSize size k len ∧
      (s.file = false ∨ size < context → k = 0 ∧ len = 0) ∧
      (s.file = true → context ≤ size →
        (((∃ e, r.1 = .error e) ∧ k = 0 ∧ len = 0) ∨
          ∃ n, Prog.Ends (scanRound env (readAtOffset env) false size chunkSize context) n
            ⟨[], 0, 0⟩ (rereadStart env s) r) ∧
        (EndsInside env size chunkSize context (rereadStart env s) → len ≤ size) ∧
        ∀ total, r.1 = .ok total → size ≤ len ∧ len < k * chunkSize + chunkSize ∧
          (len = size → EndsInside env size chunkSize context (rereadStart env s)) ∧
          ∃ v t, Prog.Reaches (scanRound env (readAtOffset env) false size chunkSize context) k
            ⟨[], 0, 0⟩ (rereadStart env s) v t ∧ t.temp.length = len) := by
  intro size context chunkSize r
  have hpos : 0 < chunkSize := lt_max_of_lt_left (by decide)
  have hnil : chunkReports chunkSize size 0 0 = [] := by simp [chunkReports]
  by_cases hscanned : s.file = true ∧ context ≤ size
  · obtain ⟨hfile, hlen⟩ := hscanned
    have hskip : ¬ (s.file = false ∨ size < context) := by
      simp [hfile, hlen]
    rcases submitSelfReferential_eq env hs hcf hfile hlen with ⟨e, herror, hscans⟩ | hrun
    · refine ⟨0, 0, by simp, by simpa [hnil] using hscans, fun h => absurd h hskip, fun _ _ =>
        ⟨Or.inl ⟨⟨e, herror⟩, rfl, rfl⟩, fun _ => Nat.zero_le _, fun n hok => ?_⟩⟩
      exact nomatch herror.symm.trans hok
    · have hstart := rereading_start hs hfile
      obtain ⟨n, hends⟩ := rereading_ends hcf hpos (le_max_right _ _) hread hstart context
      rw [← hrun] at hends
      obtain ⟨k, len, hk, hscans, hle, hok⟩ :=
        rereading_reports hcf hpos (le_max_right _ _) hread hstart hends
      rw [scans_rereadStart] at hscans
      exact ⟨k, len, hk, hscans, fun h => absurd h hskip, fun _ _ => ⟨Or.inr ⟨n, hends⟩, hle, hok⟩⟩
  · have hskip : s.file = false ∨ size < context := by
      rw [not_and_or, Bool.not_eq_true, Nat.not_le] at hscanned
      exact hscanned
    exact ⟨0, 0, by simp, by simpa [hnil] using submitSelfReferential_skip hs.control hskip,
      fun _ => ⟨rfl, rfl⟩, fun hfile hlen => absurd ⟨hfile, hlen⟩ hscanned⟩

/-- **Progress of the scan of the temporary file.**  For every control file that `parse` accepts,
after any calls, when reads of the temporary file are not short: the scan ends, although it may
extend the file that it reads; what it reports increases strictly, with the recorded size
throughout; and when it returns, what it reported stays below this size and ends with it exactly
when every chunk ended inside the recorded size or was read while the file still had it. -/
theorem self_scan_documented_iff {input : Bytes} (hp : ControlFile.parse input = .ok cf)
    (hread : ReadsFully env
      (max streamChunkSize (cf.blocksize * cf.hashLengths.seqMatches * 2)))
    (outputPath : String) (baseUrl : Option String) (http : HttpClient) (fs : String → Option File)
    (calls : List Call) :
    let s := runCalls env calls
      (State.start (ZsyncAssembly.withClient cf outputPath baseUrl http) fs)
    let size := s.temp.length
    let context := cf.blocksize * cf.hashLengths.seqMatches
    let chunkSize := max streamChunkSize (context * 2)
    let r := submitSelfReferential env s
    ∃ reports, r.2.scans = s.scans ++ reports ∧
      (s.file = false ∨ size < context → reports = []) ∧
      (reports.map Prod.fst).Pairwise (· < ·) ∧ (∀ p ∈ reports, p.2 = size) ∧
      (s.file = true → context ≤ size →
        ((∃ e, r.1 = .error e ∧ reports = []) ∨
          ∃ k, Prog.Ends (scanRound env (readAtOffset env) false size chunkSize context) k
            ⟨[], 0, 0⟩ (rereadStart env s) r) ∧
        (EndsInside env size chunkSize context (rereadStart env s) → ∀ p ∈ reports, p.1 ≤ p.2) ∧
        ∀ n, r.1 = .ok n →
          (Documented size reports ↔
            EndsInside env size chunkSize context (rereadStart env s))) := by
  have hcf := ControlFile.checked_of_parse hp
  intro s size context chunkSize r
  have hbase : Base env cf s := ((keeps_true env cf).runCalls hcf (fun _ => trivial) calls
    ⟨trivial, base_start cf outputPath baseUrl http fs⟩).2
  have hpos : 0 < chunkSize := lt_max_of_lt_left (by decide)
  have hnil : chunkReports chunkSize size 0 0 = [] := by simp [chunkReports]
  obtain ⟨k, len, hk, hscans, hskip, hrest⟩ := submitSelfReferential_reports hcf hbase hread
  refine ⟨_, hscans, ?_, increasing_chunkReports hpos, fun p hp => total_chunkReports hp,
    fun hfile hlen => ?_⟩
  · intro h
    obtain ⟨rfl, rfl⟩ := hskip h
    exact hnil
  · obtain ⟨hends, hle, hok⟩ := hrest hfile hlen
    have hsize : 0 < size := lt_of_lt_of_le
      (Nat.mul_pos hcf.blocksize_pos hcf.hashLengths.one_le_seq) hlen
    refine ⟨hends.imp_left ?_, fun hinside p hp => le_chunkReports (hk.trans (hle hinside))
      (hle hinside) hp, fun total htotal => ?_⟩
    · rintro ⟨⟨e, herror⟩, rfl, rfl⟩
      exact ⟨e, herror, hnil⟩
    · obtain ⟨hsizele, -, hinside, -⟩ := hok total htotal
      rw [documented_chunkReports_iff hpos hsize hk hsizele]
      exact ⟨hinside, fun h => le_antisymm (hle h) hsizele⟩

/-- A disk whose reads are not short. -/
def fullEnv : Env := { tinyEnv [1, 0] none with disk := fun _ _ => ⟨none, streamChunkSize⟩ }

/-- A temporary file of one block is reported once, in full. -/
theorem self_scan_documented_iff_tiny :
    let s := runCalls fullEnv [.submitSourceFile tinySeed] (tinyStart none none)
    ∃ reports, (submitSelfReferential fullEnv s).2.scans = s.scans ++ reports ∧
      Documented 2 reports := by
  have hparse :
      ControlFile.parse (ControlFile.write (tinyControl none)) = .ok (tinyControl none) := by
    decide +kernel
  have hread : ReadsFully fullEnv (max streamChunkSize
      ((tinyControl none).blocksize * (tinyControl none).hashLengths.seqMatches * 2)) :=
    fun _ => (show max streamChunkSize 4 ≤ streamChunkSize + 1 by decide)
  have hok : (submitSelfReferential fullEnv
      (runCalls fullEnv [.submitSourceFile tinySeed] (tinyStart none none))).1 = .ok 0 := by
    decide
  have hsize : (runCalls fullEnv [.submitSourceFile tinySeed] (tinyStart none none)).temp.length =
      2 := by decide
  have hfile :
      (runCalls fullEnv [.submitSourceFile tinySeed] (tinyStart none none)).file = true := by decide
  have hcf := ControlFile.checked_of_parse hparse
  unfold tinyStart at *
  intro s
  obtain ⟨reports, hscans, -, -, -, hrest⟩ := self_scan_documented_iff hparse hread "o" none
    ⟨none, 0⟩ (tinyFs none) [.submitSourceFile tinySeed]
  obtain ⟨-, -, hiff⟩ := hrest hfile (by rw [hsize]; decide)
  rw [hsize] at hiff
  refine ⟨reports, hscans, (hiff 0 hok).2 ?_⟩
  have hbase : Base fullEnv (tinyControl none) s := ((keeps_true fullEnv _).runCalls hcf
    (fun _ => trivial) _ ⟨trivial, base_start ..⟩).2
  have hq := quiet_rereadStart fullEnv s
  have hlen : (rereadStart fullEnv s).temp.length = 2 := hq.temp ▸ hsize
  exact endsInside_of_lt hcf (lt_max_of_lt_left (by decide)) le_rfl hread
    ⟨hq.base hbase, hq.file hfile, hlen.ge, hlen.le⟩ hlen (lt_max_of_lt_left (by decide))

end Zsync
