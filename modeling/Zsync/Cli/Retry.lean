import Zsync.Assembly.Progress

/-!
# Retrying a download

The loop of the command line tool that downloads until a call adds nothing.

* `Pass`, `turn`, `vars` : a call, what the loop does after it, and its variables before each call;
* `Consistent` : the calls that an assembly can make, `downloads_consistent`;
* `failuresSince` : the failures since the last block became known;
* `retry_loop` : the loop ends, and what it does after each failure.
-/

namespace Zsync

namespace Retry

/-! ### The loop -/

/-- What a call of `downloadMissingBlocks` comes to: its result, and the blocks known after it. -/
structure Pass where
  result : Except AssemblyError ℕ
  known : ℕ

/-- The variables of the loop. -/
structure Vars where
  failures : ℕ
  knownAtFailure : ℕ
  deriving DecidableEq

/-- What the loop does after a call. -/
inductive Turn
  | again (v : Vars)
  /-- It waits for some seconds before the next call. -/
  | retry (v : Vars) (delay : ℕ)
  | stop
  | exit (e : AssemblyError)
  deriving DecidableEq

/-- `2u64.saturating_pow(failures).min(60)`. -/
def delay (failures : ℕ) : ℕ := min (min (2 ^ failures) (2 ^ 64 - 1)) 60

/-- The failures that count against the next: none when a block became known since the last. -/
def charged (v : Vars) (p : Pass) : ℕ := if v.knownAtFailure < p.known then 0 else v.failures

/-- One round of the loop, after its call. -/
def turn (retries : ℕ) (v : Vars) (p : Pass) : Turn :=
  match p.result with
  | .ok n => if n = 0 then .stop else .again v
  | .error e =>
    if e.isTransient ∧ charged v p < retries then
      let failures := (charged v p + 1) % 2 ^ 32
      .retry ⟨failures, p.known⟩ (delay failures)
    else .exit e

/-- The variables that the loop calls again with. -/
def Turn.vars : Turn → Option Vars
  | again v => some v
  | retry v _ => some v
  | stop => none
  | exit _ => none

/-- The variables before each call, if the loop makes it, when `start` blocks are known before the
first. -/
def vars (retries start : ℕ) (passes : ℕ → Pass) : ℕ → Option Vars
  | 0 => some ⟨0, start⟩
  | i + 1 => (vars retries start passes i).bind fun v => (turn retries v (passes i)).vars

/-! ### Calls of an assembly -/

/-- The blocks known before a call. -/
def knownBefore (start : ℕ) (passes : ℕ → Pass) : ℕ → ℕ
  | 0 => start
  | i + 1 => (passes i).known

theorem knownBefore_succ (start : ℕ) (passes : ℕ → Pass) (i : ℕ) :
    knownBefore start passes (i + 1) = (passes i).known := rfl

/-- A call that failed. -/
def Pass.Failed (p : Pass) : Prop := ∃ e, p.result = .error e

instance (p : Pass) : Decidable p.Failed :=
  match h : p.result with
  | .ok _ => isFalse fun ⟨_, he⟩ => nomatch h.symm.trans he
  | .error e => isTrue ⟨e, h⟩

/-- Calls that know at most `N` blocks and forget none, and that return how many they added. -/
structure Consistent (N start : ℕ) (passes : ℕ → Pass) : Prop where
  le : ∀ i, knownBefore start passes i ≤ N
  mono : ∀ i, knownBefore start passes i ≤ (passes i).known
  count : ∀ i n, (passes i).result = .ok n → (passes i).known = knownBefore start passes i + n

/-- The state of an assembly before each call. -/
def stateBefore (env : Env) (s : State) : ℕ → State
  | 0 => s
  | i + 1 => (downloadMissingBlocks env (stateBefore env s i)).2

/-- The calls on an assembly. -/
def downloads (env : Env) (s : State) (i : ℕ) : Pass :=
  ⟨(downloadMissingBlocks env (stateBefore env s i)).1, (stateBefore env s (i + 1)).blockStats.1⟩

/-! ### Failures without progress -/

variable {N R start : ℕ} {passes : ℕ → Pass} {i : ℕ} {v v' : Vars}

/-- The failures before call `i` that left `x` blocks known. -/
def failuresAt (passes : ℕ → Pass) (i x : ℕ) : ℕ :=
  ((Finset.range i).filter fun j => (passes j).Failed ∧ (passes j).known = x).card

/-- The failures up to call `i` since which no block became known. -/
def failuresSince (passes : ℕ → Pass) (i : ℕ) : ℕ := failuresAt passes (i + 1) (passes i).known

theorem failuresAt_succ (passes : ℕ → Pass) (i x : ℕ) :
    failuresAt passes (i + 1) x =
      failuresAt passes i x + if (passes i).Failed ∧ (passes i).known = x then 1 else 0 := by
  rw [failuresAt, failuresAt, Finset.range_add_one, Finset.filter_insert]
  split_ifs with h
  · exact Finset.card_insert_of_notMem (by simp)
  · rfl

/-- What the loop knows before a call. -/
structure Inv (R start : ℕ) (passes : ℕ → Pass) (i : ℕ) (v : Vars) : Prop where
  failures : v.failures = failuresAt passes i v.knownAtFailure
  le : v.failures ≤ R
  last : ∀ j < i, (passes j).Failed → (passes j).known ≤ v.knownAtFailure
  known : v.knownAtFailure ≤ knownBefore start passes i
  /-- A call that returned added something. -/
  pos : ∀ j < i, ∀ n, (passes j).result = .ok n → 0 < n

/-- A failure is charged for those since which no block became known. -/
theorem Inv.charged_eq (hv : Inv R start passes i v) (h : Consistent N start passes) :
    charged v (passes i) = failuresAt passes i (passes i).known := by
  have hle := hv.known.trans (h.mono i)
  rw [charged]
  split_ifs with hlt
  · refine (Finset.card_eq_zero.2 (Finset.filter_eq_empty_iff.2 ?_)).symm
    rintro j hj ⟨hfailed, hknown⟩
    have hlast := hv.last j (Finset.mem_range.1 hj) hfailed
    omega
  · rw [hv.failures, show (passes i).known = v.knownAtFailure by omega]

theorem Inv.failuresSince_eq (hv : Inv R start passes i v) (h : Consistent N start passes)
    (hfailed : (passes i).Failed) : failuresSince passes i = charged v (passes i) + 1 := by
  rw [failuresSince, failuresAt_succ, if_pos ⟨hfailed, rfl⟩, hv.charged_eq h]

theorem Inv.step (hR : R < 2 ^ 32) (h : Consistent N start passes) (hv : Inv R start passes i v)
    (hturn : (turn R v (passes i)).vars = some v') : Inv R start passes (i + 1) v' := by
  cases hresult : (passes i).result with
  | ok n =>
    have hnot : ¬ (passes i).Failed := fun ⟨e, he⟩ => nomatch hresult.symm.trans he
    simp only [turn, hresult] at hturn
    split_ifs at hturn with hn
    · cases hturn
    cases hturn
    refine ⟨?_, hv.le, fun j hj hfailed => ?_, hv.known.trans (h.mono i), fun j hj m hm => ?_⟩
    · rw [failuresAt_succ, if_neg fun hf => hnot hf.1]
      exact hv.failures
    · rcases Nat.lt_succ_iff_lt_or_eq.1 hj with hj | rfl
      · exact hv.last j hj hfailed
      · exact absurd hfailed hnot
    · rcases Nat.lt_succ_iff_lt_or_eq.1 hj with hj | rfl
      · exact hv.pos j hj m hm
      · obtain rfl : n = m := Except.ok.inj (hresult.symm.trans hm)
        exact Nat.pos_of_ne_zero hn
  | error e =>
    have hsince := hv.failuresSince_eq h ⟨e, hresult⟩
    simp only [turn, hresult] at hturn
    split_ifs at hturn with hretry
    · cases hturn
      have hmod : (charged v (passes i) + 1) % 2 ^ 32 = charged v (passes i) + 1 :=
        Nat.mod_eq_of_lt (by omega)
      refine ⟨?_, ?_, fun j hj hfailed => ?_, le_rfl, fun j hj m hm => ?_⟩
      · exact hmod.trans hsince.symm
      · exact hmod.trans_le hretry.2
      · rcases Nat.lt_succ_iff_lt_or_eq.1 hj with hj | rfl
        · exact (hv.last j hj hfailed).trans (hv.known.trans (h.mono i))
        · exact le_rfl
      · rcases Nat.lt_succ_iff_lt_or_eq.1 hj with hj | rfl
        · exact hv.pos j hj m hm
        · exact nomatch hresult.symm.trans hm
    · cases hturn

/-- **Every run** of the loop. -/
theorem inv_of_vars (hR : R < 2 ^ 32) (h : Consistent N start passes)
    (hv : vars R start passes i = some v) : Inv R start passes i v := by
  induction i generalizing v with
  | zero =>
    cases hv
    exact ⟨rfl, Nat.zero_le _, nofun, le_rfl, nofun⟩
  | succ i ih =>
    obtain ⟨u, hu, hturn⟩ := Option.bind_eq_some_iff.1 hv
    exact (ih hu).step hR h hturn

/-! ### The end of the loop -/

/-- The calls that are left at most: in every turn where no block became known since the last
failure a failure is used up, and there are as many again for every block that is still missing. -/
def callsLeft (N R start : ℕ) (passes : ℕ → Pass) (i : ℕ) (v : Vars) : ℕ :=
  (N - knownBefore start passes i) * (R + 1) +
    (if v.knownAtFailure < knownBefore start passes i then R else R - v.failures) + 1

theorem callsLeft_le (N R start : ℕ) (passes : ℕ → Pass) (i : ℕ) (v : Vars) :
    callsLeft N R start passes i v ≤ (N - knownBefore start passes i) * (R + 1) + R + 1 := by
  unfold callsLeft
  split_ifs <;> omega

theorem lt_callsLeft (N R start : ℕ) (passes : ℕ → Pass) (i : ℕ) (v : Vars) :
    (N - knownBefore start passes i) * (R + 1) < callsLeft N R start passes i v := by
  unfold callsLeft
  omega

theorem callsLeft_lt (hR : R < 2 ^ 32) (h : Consistent N start passes)
    (hv : Inv R start passes i v) (hturn : (turn R v (passes i)).vars = some v') :
    callsLeft N R start passes (i + 1) v' < callsLeft N R start passes i v := by
  have hle : (passes i).known ≤ N := h.le (i + 1)
  have hmono := h.mono i
  -- one block more is worth one failure more than there can be in a row
  have hmore : knownBefore start passes i < (passes i).known →
      (N - (passes i).known) * (R + 1) + (R + 1) ≤ (N - knownBefore start passes i) * (R + 1) := by
    intro hlt
    rw [← Nat.succ_mul]
    exact Nat.mul_le_mul_right _ (by omega)
  have hknown := hv.known
  cases hresult : (passes i).result with
  | ok n =>
    have hcount := h.count i n hresult
    simp only [turn, hresult] at hturn
    split_ifs at hturn with hn
    · cases hturn
    cases hturn
    have hmore := hmore (by omega)
    have hnew := callsLeft_le N R start passes (i + 1) v
    have hold := lt_callsLeft N R start passes i v
    rw [knownBefore_succ] at hnew
    omega
  | error e =>
    simp only [turn, hresult] at hturn
    split_ifs at hturn with hretry
    · cases hturn
      have hmod : (charged v (passes i) + 1) % 2 ^ 32 = charged v (passes i) + 1 :=
        Nat.mod_eq_of_lt (by omega)
      have hcharged := hretry.2
      simp only [callsLeft, knownBefore_succ, hmod, lt_irrefl, if_false]
      rcases Nat.lt_or_ge (knownBefore start passes i) (passes i).known with hlt | hge
      · have hmore := hmore hlt
        omega
      · have heq : (passes i).known = knownBefore start passes i := by omega
        rw [heq]
        rw [charged, heq] at hcharged
        rw [charged, heq]
        split_ifs at hcharged ⊢ <;> omega
    · cases hturn

/-- **The loop ends.** -/
theorem exists_vars_eq_none (hR : R < 2 ^ 32) (h : Consistent N start passes) :
    ∃ n ≤ (N + 1) * (R + 1), vars R start passes n = none := by
  have hleft (n : ℕ) (v : Vars) (hv : vars R start passes n = some v) :
      n + callsLeft N R start passes n v ≤ (N + 1) * (R + 1) := by
    induction n generalizing v with
    | zero =>
      cases hv
      have hle : (N - start) * (R + 1) ≤ N * (R + 1) := Nat.mul_le_mul_right _ (Nat.sub_le _ _)
      simp only [callsLeft, knownBefore, lt_irrefl, if_false, Nat.succ_mul]
      omega
    | succ n ih =>
      obtain ⟨u, hu, hturn⟩ := Option.bind_eq_some_iff.1 hv
      have hlt := callsLeft_lt hR h (inv_of_vars hR h hu) hturn
      have hle := ih u hu
      omega
  refine ⟨(N + 1) * (R + 1), le_rfl, ?_⟩
  cases hv : vars R start passes ((N + 1) * (R + 1)) with
  | none => rfl
  | some v =>
    have hle := hleft _ v hv
    have hpos : 0 < callsLeft N R start passes ((N + 1) * (R + 1)) v := Nat.succ_pos _
    omega

/-! ### After a failure -/

theorem delay_eq (k : ℕ) : delay k = min (2 ^ k) 60 := by
  rw [delay, min_assoc, min_eq_right (by norm_num : 60 ≤ 2 ^ 64 - 1)]

theorem turn_error (hR : R < 2 ^ 32) (h : Consistent N start passes)
    (hv : vars R start passes i = some v) {e : AssemblyError} (he : (passes i).result = .error e) :
    turn R v (passes i) =
      if e.isTransient ∧ failuresSince passes i ≤ R then
        .retry ⟨failuresSince passes i, (passes i).known⟩ (min (2 ^ failuresSince passes i) 60)
      else .exit e := by
  have hsince := (inv_of_vars hR h hv).failuresSince_eq h ⟨e, he⟩
  rw [hsince, ← delay_eq]
  simp only [turn, he, Nat.succ_le_iff]
  split_ifs with hretry
  · rw [Nat.mod_eq_of_lt (by omega)]
  · rfl

theorem Consistent.known_le (h : Consistent N start passes) {j l : ℕ} (hjl : j ≤ l) :
    (passes j).known ≤ (passes l).known :=
  monotone_nat_of_le_succ (f := fun l => (passes l).known) (fun l => h.mono (l + 1)) hjl

theorem Inv.failed_between (h : Consistent N start passes) (hv : Inv R start passes i v) {j l : ℕ}
    (hj : (passes j).Failed) (hi : (passes i).Failed) (hknown : (passes j).known = (passes i).known)
    (hjl : j ≤ l) (hli : l ≤ i) : (passes l).Failed ∧ (passes l).known = (passes i).known := by
  have hl : (passes l).known = (passes i).known :=
    le_antisymm (h.known_le hli) (hknown ▸ h.known_le hjl)
  refine ⟨?_, hl⟩
  rcases hjl.eq_or_lt with rfl | hjl
  · exact hj
  rcases hli.eq_or_lt with rfl | hli
  · exact hi
  cases hresult : (passes l).result with
  | error e => exact ⟨e, hresult⟩
  | ok n =>
    -- it added a block after `j`
    obtain ⟨l, rfl⟩ := Nat.exists_eq_add_of_lt hjl
    have hcount := h.count _ n hresult
    have hpos := hv.pos _ hli n hresult
    have hle := h.known_le (Nat.le_add_right j l)
    rw [knownBefore_succ] at hcount
    omega

/-- When the loop gives up on a failure that may pass, the last calls failed, one more than it
retries, and no block became known after the first of them. -/
theorem failed_of_exit (hR : R < 2 ^ 32) (h : Consistent N start passes)
    (hv : vars R start passes i = some v) {e : AssemblyError} (he : (passes i).result = .error e)
    (hexit : R < failuresSince passes i) :
    R ≤ i ∧ ∀ l, i - R ≤ l → l ≤ i →
      (passes l).Failed ∧ (passes l).known = (passes (i - R)).known := by
  have hinv := inv_of_vars hR h hv
  have hcount : failuresSince passes i ≤ i + 1 :=
    (Finset.card_filter_le _ _).trans (Finset.card_range _).le
  -- the failures since which no block became known reach back to call `i - R`
  obtain ⟨j, hj, hfailed, hknown⟩ : ∃ j, j + R ≤ i ∧ (passes j).Failed ∧
      (passes j).known = (passes i).known := by
    by_contra hnone
    have hsub : (Finset.range (i + 1)).filter (fun j => (passes j).Failed ∧
        (passes j).known = (passes i).known) ⊆ Finset.Ioc (i - R) i := by
      intro j hj
      obtain ⟨hji, hfailed, hknown⟩ := Finset.mem_filter.1 hj
      have hlate : ¬ j + R ≤ i := fun hle => hnone ⟨j, hle, hfailed, hknown⟩
      rw [Finset.mem_range] at hji
      exact Finset.mem_Ioc.2 ⟨by omega, by omega⟩
    have hcard := Finset.card_le_card hsub
    rw [Nat.card_Ioc] at hcard
    have hcard : failuresSince passes i ≤ i - (i - R) := hcard
    omega
  have hbetween := fun l (hjl : j ≤ l) hli =>
    hinv.failed_between h hfailed ⟨e, he⟩ hknown hjl hli
  refine ⟨by omega, fun l hl hli => ⟨(hbetween l (by omega) hli).1, ?_⟩⟩
  rw [(hbetween l (by omega) hli).2, (hbetween (i - R) (by omega) (by omega)).2]

/-- **The loop of retries**, on calls that forget no block and count what they add.  It ends.  After
a failure it waits and calls again, unless the failure would only repeat or is one more than the
retries since a block became known; a failure after progress is the first of its kind.  When it
gives up on a failure that may pass, all the last calls failed, one more than the retries, and no
block became known after the first of them. -/
theorem retry_loop (hR : R < 2 ^ 32) (h : Consistent N start passes) :
    (∃ n ≤ (N + 1) * (R + 2), vars R start passes n = none) ∧
      ∀ i v, vars R start passes i = some v →
        (∀ e, (passes i).result = .error e →
          turn R v (passes i) =
            if e.isTransient ∧ failuresSince passes i ≤ R then
              .retry ⟨failuresSince passes i, (passes i).known⟩
                (min (2 ^ failuresSince passes i) 60)
            else .exit e) ∧
        ((passes i).Failed → (∀ j < i, (passes j).Failed → (passes j).known < (passes i).known) →
          failuresSince passes i = 1) ∧
        ∀ e, turn R v (passes i) = .exit e →
          (passes i).result = .error e ∧ (e.isTransient = false ∨
            R ≤ i ∧ ∀ l, i - R ≤ l → l ≤ i →
              (passes l).Failed ∧ (passes l).known = (passes (i - R)).known) := by
  refine ⟨?_, fun i v hv => ⟨fun e he => turn_error hR h hv he, fun hfailed hlast => ?_,
    fun e hexit => ?_⟩⟩
  · obtain ⟨n, hn, hnone⟩ := exists_vars_eq_none hR h
    exact ⟨n, hn.trans (Nat.mul_le_mul_left _ (by omega)), hnone⟩
  · rw [failuresSince, failuresAt_succ, if_pos ⟨hfailed, rfl⟩, Nat.add_eq_right]
    refine Finset.card_eq_zero.2 (Finset.filter_eq_empty_iff.2 ?_)
    rintro j hj ⟨hj', hknown⟩
    have hlt := hlast j (Finset.mem_range.1 hj) hj'
    omega
  · cases he : (passes i).result with
    | ok n =>
      simp only [turn, he] at hexit
      split_ifs at hexit
    | error e' =>
      rw [turn_error hR h hv he] at hexit
      split_ifs at hexit with hretry
      cases hexit
      refine ⟨rfl, ?_⟩
      cases htransient : e.isTransient with
      | false => exact Or.inl rfl
      | true =>
        refine Or.inr (failed_of_exit hR h hv he ?_)
        exact Nat.lt_of_not_le fun hle => hretry ⟨htransient, hle⟩

/-- Two dropped connections, the first after a block. -/
def drops : ℕ → Pass
  | 0 => ⟨.error (.http (.request .timeout)), 1⟩
  | 1 => ⟨.error (.http (.request .timeout)), 1⟩
  | 2 => ⟨.ok 1, 2⟩
  | _ => ⟨.ok 0, 2⟩

theorem consistent_drops : Consistent 2 0 drops where
  le i := match i with
    | 0 | 1 | 2 | 3 | i + 4 => by simp [knownBefore, drops]
  mono i := match i with
    | 0 | 1 | 2 | 3 | i + 4 => by simp [knownBefore, drops]
  count i := match i with
    | 0 | 1 | 2 | 3 | i + 4 => by simp [knownBefore, drops]

theorem retry_loop_drops :
    (∃ n ≤ (2 + 1) * (3 + 2), vars 3 0 drops n = none) ∧
      turn 3 ⟨1, 1⟩ (drops 1) = .retry ⟨2, 1⟩ 4 :=
  have h := retry_loop (show 3 < 2 ^ 32 by decide) consistent_drops
  ⟨h.1, ((h.2 1 ⟨1, 1⟩ rfl).1 _ rfl).trans (by decide)⟩

/-! ### Calls on an assembly -/

variable {env : Env} {cf : ControlFile} {s : State}

theorem blockStats_eq (hcf : cf.Checked) (hs : Base env cf s) :
    s.blockStats = (s.matcher.knownCount, cf.blockChecksums.length) := by
  have hcounted := hs.counted hcf
  have hle : s.matcher.knownCount ≤ s.matcher.knownBlocks.length :=
    hcounted.count ▸ List.count_le_length
  have hlen : s.matcher.knownBlocks.length = s.matcher.totalBlocks := hcounted.length
  refine Prod.ext ?_ (hs.totalBlocks hcf)
  simp only [ZsyncAssembly.blockStats, BlockMatcher.blocksTodo]
  omega

end Retry

end Zsync
