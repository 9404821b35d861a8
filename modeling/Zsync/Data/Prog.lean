import Mathlib

/-!
# Programs with a state that may fail

A program reads and changes a state and either returns a value or fails; a failed program keeps the
changes it made.

* `Prog` : programs, with `read`, `modify`, `throw` and the bounded loop `Prog.loop`;
* `Prog.Triple` : total correctness, with one postcondition for a value and one for a failure;
* `Prog.Triple.bind`, `Prog.Triple.forM`, `Prog.Triple.loop` : the rules for sequences and loops;
* `Prog.Ends`, `Prog.ends_loop` : loops without a bound, and bounds that are not reached;
* `Prog.Reaches`, `Prog.Reaches.loop_eq`, `Prog.Ends.exists_last` : the rounds of a loop;
* `Prog.Succeeds` : programs that do not fail;
* `Prog.Steps`, `Prog.Frames` : what a program does to the state, and what it leaves as it is;
* `Prog.Lockstep` : two runs of one program that give the same outcome, with its rules.
-/

namespace Zsync

/-- A program with states `σ`, failures `ε` and values `α`. -/
def Prog (σ ε α : Type) : Type := σ → Except ε α × σ

namespace Prog

variable {σ ε α β γ : Type}

/-! ### Programs -/

/-- What follows the outcome of a program. -/
def next (f : α → Prog σ ε β) : Except ε α × σ → Except ε β × σ
  | (.ok a, s) => f a s
  | (.error e, s) => (.error e, s)

instance : Monad (Prog σ ε) where
  pure a := fun s => (.ok a, s)
  bind x f := fun s => next f (x s)

/-- The state. -/
def read : Prog σ ε σ := fun s => (.ok s, s)

/-- Changes the state. -/
def modify (f : σ → σ) : Prog σ ε Unit := fun s => (.ok (), f s)

/-- Fails. -/
def throw (e : ε) : Prog σ ε α := fun s => (.error e, s)

/-- Fails with the error of an outcome, or returns its value. -/
def ofExcept : Except ε α → Prog σ ε α
  | .ok a => pure a
  | .error e => throw e

/-- Repeats `body` until it returns a result, at most `n` times. -/
def loop (body : β → Prog σ ε (β ⊕ γ)) (stop : β → γ) : ℕ → β → Prog σ ε γ
  | 0, b => pure (stop b)
  | n + 1, b => body b >>= fun r =>
    match r with
    | .inl b' => loop body stop n b'
    | .inr c => pure c

theorem pure_run (a : α) (s : σ) : (pure a : Prog σ ε α) s = (.ok a, s) := rfl

theorem bind_run (x : Prog σ ε α) (f : α → Prog σ ε β) (s : σ) : (x >>= f) s = next f (x s) := rfl

theorem forM_congr {f g : α → Prog σ ε PUnit} {l : List α} (h : ∀ a ∈ l, f a = g a) :
    l.forM f = l.forM g := by
  induction l with
  | nil => rfl
  | cons a l ih =>
    obtain ⟨ha, hl⟩ := List.forall_mem_cons.1 h
    change (f a >>= fun _ => l.forM f) = (g a >>= fun _ => l.forM g)
    rw [ha, ih hl]

/-! ### Total correctness -/

/-- What a postcondition for values and one for failures say of an outcome. -/
def Post (Q : α → σ → Prop) (E : ε → σ → Prop) : Except ε α × σ → Prop
  | (.ok a, s) => Q a s
  | (.error e, s) => E e s

/-- From every state with `P` the program returns a value with `Q` or fails with `E`. -/
def Triple (P : σ → Prop) (x : Prog σ ε α) (Q : α → σ → Prop) (E : ε → σ → Prop) : Prop :=
  ∀ s, P s → Post Q E (x s)

variable {P P' : σ → Prop} {Q Q' : α → σ → Prop} {R : β → σ → Prop} {E E' : ε → σ → Prop}
  {x : Prog σ ε α}

theorem Post.mono {r : Except ε α × σ} (h : Post Q E r) (hQ : ∀ a s, Q a s → Q' a s)
    (hE : ∀ e s, E e s → E' e s) : Post Q' E' r := by
  revert h
  match r with
  | (.ok a, s) => exact hQ a s
  | (.error e, s) => exact hE e s

theorem Post.of_forall {r : Except ε α × σ} (hQ : ∀ a s, Q a s) (hE : ∀ e s, E e s) :
    Post Q E r := by
  match r with
  | (.ok a, s) => exact hQ a s
  | (.error e, s) => exact hE e s

theorem Triple.conseq (h : Triple P x Q E) (hP : ∀ s, P' s → P s) (hQ : ∀ a s, Q a s → Q' a s)
    (hE : ∀ e s, E e s → E' e s) : Triple P' x Q' E' :=
  fun s hs => (h s (hP s hs)).mono hQ hE

theorem Triple.trivial (x : Prog σ ε α) : Triple P x (fun _ _ => True) (fun _ _ => True) :=
  fun _ _ => Post.of_forall (fun _ _ => True.intro) fun _ _ => True.intro

theorem Triple.state {R : σ → Prop} (h : Triple P x (fun _ => R) (fun _ => R)) {s : σ} (hs : P s) :
    R (x s).2 := by
  have hpost := h s hs
  revert hpost
  match x s with
  | (.ok _, _) => exact id
  | (.error _, _) => exact id

theorem Triple.and {P₁ P₂ : σ → Prop} {Q₁ Q₂ : α → σ → Prop} {E₁ E₂ : ε → σ → Prop}
    (h₁ : Triple P₁ x Q₁ E₁) (h₂ : Triple P₂ x Q₂ E₂) :
    Triple (fun s => P₁ s ∧ P₂ s) x (fun a s => Q₁ a s ∧ Q₂ a s) (fun e s => E₁ e s ∧ E₂ e s) := by
  intro s hs
  have hpost₁ := h₁ s hs.1
  have hpost₂ := h₂ s hs.2
  revert hpost₁ hpost₂
  match x s with
  | (.ok a, s') => exact And.intro
  | (.error e, s') => exact And.intro

/-- A part of the precondition that does not speak of the state. -/
theorem Triple.assuming {p : Prop} (h : p → Triple P x Q E) : Triple (fun s => p ∧ P s) x Q E :=
  fun s hs => h hs.1 s hs.2

theorem Triple.pure {a : α} (h : ∀ s, P s → Q a s) : Triple P (pure a) Q E := h

theorem Triple.throw {e : ε} (h : ∀ s, P s → E e s) : Triple P (throw e : Prog σ ε α) Q E := h

theorem Triple.modify {Q : Unit → σ → Prop} {f : σ → σ} (h : ∀ s, P s → Q () (f s)) :
    Triple P (modify f) Q E := h

theorem Triple.bind {f : α → Prog σ ε β} (hx : Triple P x Q E) (hf : ∀ a, Triple (Q a) (f a) R E) :
    Triple P (x >>= f) R E := by
  intro s hs
  have hpost := hx s hs
  rw [bind_run]
  revert hpost
  match x s with
  | (.ok a, s') => exact hf a s'
  | (.error e, s') => exact id

theorem Triple.read {f : σ → Prog σ ε β} (h : ∀ s₀, P s₀ → Triple (· = s₀) (f s₀) R E) :
    Triple P (read >>= f) R E :=
  fun s hs => h s hs s rfl

theorem Triple.peek {f : σ → Prog σ ε β} (h : ∀ s₀, P s₀ → Triple P (f s₀) R E) :
    Triple P (Prog.read >>= f) R E :=
  fun s hs => h s hs s hs

theorem Triple.ofExcept {r : Except ε α} (hok : ∀ a, r = .ok a → ∀ s, P s → Q a s)
    (herror : ∀ e, r = .error e → ∀ s, P s → E e s) : Triple P (ofExcept r) Q E := by
  cases r with
  | ok a => exact Triple.pure (hok a rfl)
  | error e => exact Triple.throw (herror e rfl)

theorem Triple.ite {c : Prop} [Decidable c] {y : Prog σ ε α}
    (hx : c → Triple P x Q E) (hy : ¬ c → Triple P y Q E) : Triple P (if c then x else y) Q E := by
  split_ifs with hc
  · exact hx hc
  · exact hy hc

theorem Triple.forM {f : α → Prog σ ε PUnit} {I : List α → σ → Prop}
    (h : ∀ a l, Triple (I (a :: l)) (f a) (fun _ => I l) E) (l : List α) :
    Triple (I l) (l.forM f) (fun _ => I []) E := by
  induction l with
  | nil => exact Triple.pure fun _ hs => hs
  | cons a l ih => exact Triple.bind (h a l) fun _ => ih

/-- A loop with an invariant; the invariant must do when the rounds run out. -/
theorem Triple.loop {body : β → Prog σ ε (β ⊕ γ)} {stop : β → γ} {I : β → σ → Prop}
    {Q : γ → σ → Prop}
    (hbody : ∀ b, Triple (I b) (body b) (fun r => Sum.elim I Q r) E)
    (hstop : ∀ b s, I b s → Q (stop b) s) (n : ℕ) (b : β) :
    Triple (I b) (Prog.loop body stop n b) Q E := by
  induction n generalizing b with
  | zero => exact Triple.pure (hstop b)
  | succ n ih =>
    refine Triple.bind (hbody b) fun r => ?_
    cases r with
    | inl b' => exact ih b'
    | inr c => exact Triple.pure fun _ hs => hs

/-- A loop with an invariant and a variant that bounds the rounds. -/
theorem Triple.loop_variant {body : β → Prog σ ε (β ⊕ γ)} {stop : β → γ} {I : β → σ → Prop}
    {Q : γ → σ → Prop} (v : β → ℕ)
    (hbody : ∀ b, Triple (I b) (body b)
      (fun r s => Sum.elim (fun b' => I b' s ∧ v b' < v b) (fun c => Q c s) r) E)
    {n : ℕ} {b : β} (hn : v b < n) : Triple (I b) (Prog.loop body stop n b) Q E := by
  induction n generalizing b with
  | zero => omega
  | succ n ih =>
    refine Triple.bind (hbody b) fun r => ?_
    cases r with
    | inl b' =>
      intro s hs
      exact ih (by have := hs.2; omega) s hs.1
    | inr c => exact Triple.pure fun _ hs => hs

/-! ### Loops without a bound -/

/-- `body` repeated without a bound: from `b` and `s` it ends in `n` rounds with the outcome `r`. -/
inductive Ends (body : β → Prog σ ε (β ⊕ γ)) : ℕ → β → σ → Except ε γ × σ → Prop
  | stop {b : β} {s s' : σ} {c : γ} :
      body b s = (.ok (.inr c), s') → Ends body 1 b s (.ok c, s')
  | fail {b : β} {s s' : σ} {e : ε} :
      body b s = (.error e, s') → Ends body 1 b s (.error e, s')
  | next {n : ℕ} {b b' : β} {s s' : σ} {r : Except ε γ × σ} :
      body b s = (.ok (.inl b'), s') → Ends body n b' s' r → Ends body (n + 1) b s r

/-- **A loop ends before its bound** when a variant below the bound decreases in every round. -/
theorem ends_loop {body : β → Prog σ ε (β ⊕ γ)} {I : β → σ → Prop} (v : β → σ → ℕ)
    (hbody : ∀ b s b' s', I b s → body b s = (.ok (.inl b'), s') → I b' s' ∧ v b' s' < v b s)
    (stop : β → γ) {n : ℕ} {b : β} {s : σ} (hs : I b s) (hn : v b s < n) :
    ∃ k ≤ v b s + 1, Ends body k b s (loop body stop n b s) := by
  induction n generalizing b s with
  | zero => omega
  | succ n ih =>
    rw [loop, bind_run]
    match hrun : body b s with
    | (.error e, s') => exact ⟨1, by omega, .fail hrun⟩
    | (.ok (.inr c), s') => exact ⟨1, by omega, .stop hrun⟩
    | (.ok (.inl b'), s') =>
      obtain ⟨hs', hlt⟩ := hbody b s b' s' hs hrun
      obtain ⟨k, hk, hends⟩ := ih hs' (by omega)
      exact ⟨k + 1, by omega, .next hrun hends⟩

/-- `n` rounds of `body` lead from `b` and `s` to the next round at `b'` and `s'`. -/
inductive Reaches (body : β → Prog σ ε (β ⊕ γ)) : ℕ → β → σ → β → σ → Prop
  | refl {b : β} {s : σ} : Reaches body 0 b s b s
  | next {n : ℕ} {b b' b'' : β} {s s' s'' : σ} :
      Reaches body n b s b' s' → body b' s' = (.ok (.inl b''), s'') →
        Reaches body (n + 1) b s b'' s''

theorem Reaches.loop_eq {body : β → Prog σ ε (β ⊕ γ)} {k : ℕ} {b b' : β} {s s' : σ}
    (h : Reaches body k b s b' s') (stop : β → γ) (n : ℕ) :
    loop body stop (k + n) b s = loop body stop n b' s' := by
  induction h generalizing n with
  | refl => rw [Nat.zero_add]
  | next _ hrun ih =>
    rw [Nat.add_assoc, Nat.add_comm 1, ih, loop, bind_run, hrun]
    rfl

theorem Ends.of_reaches {body : β → Prog σ ε (β ⊕ γ)} {n k : ℕ} {b b' : β} {s s' : σ}
    {r : Except ε γ × σ} (h : Reaches body k b s b' s') (hr : Ends body n b s r) :
    ∃ m, n = k + m ∧ Ends body m b' s' r := by
  induction h with
  | refl => exact ⟨n, (Nat.zero_add n).symm, hr⟩
  | next _ hrun ih =>
    obtain ⟨m, rfl, hm⟩ := ih hr
    cases hm with
    | stop h => exact nomatch h.symm.trans hrun
    | fail h => exact nomatch h.symm.trans hrun
    | @next m _ b'' _ s'' _ h hm =>
      cases h.symm.trans hrun
      exact ⟨m, by omega, hm⟩

/-- The last round of a loop that ends. -/
inductive Last (body : β → Prog σ ε (β ⊕ γ)) (b : β) (s : σ) : Except ε γ × σ → Prop
  | stop {s' : σ} {c : γ} : body b s = (.ok (.inr c), s') → Last body b s (.ok c, s')
  | fail {s' : σ} {e : ε} : body b s = (.error e, s') → Last body b s (.error e, s')

theorem Reaches.head {body : β → Prog σ ε (β ⊕ γ)} {n : ℕ} {b b' b'' : β} {s s' s'' : σ}
    (hrun : body b s = (.ok (.inl b'), s')) (h : Reaches body n b' s' b'' s'') :
    Reaches body (n + 1) b s b'' s'' := by
  induction h with
  | refl => exact .next .refl hrun
  | next _ hrun' ih => exact .next (ih hrun) hrun'

theorem Ends.exists_last {body : β → Prog σ ε (β ⊕ γ)} {n : ℕ} {b : β} {s : σ}
    {r : Except ε γ × σ} (h : Ends body n b s r) :
    ∃ k b' s', n = k + 1 ∧ Reaches body k b s b' s' ∧ Last body b' s' r := by
  induction h with
  | stop h => exact ⟨0, _, _, rfl, .refl, .stop h⟩
  | fail h => exact ⟨0, _, _, rfl, .refl, .fail h⟩
  | next hrun _ ih =>
    obtain ⟨k, b', s', hk, hreach, hlast⟩ := ih
    exact ⟨k + 1, b', s', by omega, hreach.head hrun, hlast⟩

theorem Reaches.unique {body : β → Prog σ ε (β ⊕ γ)} {n : ℕ} {b b₁ b₂ : β} {s s₁ s₂ : σ}
    (h₁ : Reaches body n b s b₁ s₁) (h₂ : Reaches body n b s b₂ s₂) : b₁ = b₂ ∧ s₁ = s₂ := by
  induction h₁ generalizing b₂ s₂ with
  | refl =>
    cases h₂
    exact ⟨rfl, rfl⟩
  | next _ hrun ih =>
    obtain - | ⟨h₂, hrun₂⟩ := h₂
    obtain ⟨rfl, rfl⟩ := ih h₂
    cases hrun.symm.trans hrun₂
    exact ⟨rfl, rfl⟩

/-- From every state the program returns a value. -/
def Succeeds (x : Prog σ ε α) : Prop := ∀ s, ∃ a, (x s).1 = .ok a

theorem Triple.of_succeeds (h : Triple P x Q E) (hx : Succeeds x) :
    Triple P x Q fun _ _ => False := by
  intro s hs
  obtain ⟨a, ha⟩ := hx s
  have hpost := h s hs
  revert ha hpost
  match x s with
  | (.ok b, s') => exact fun _ => id
  | (.error e, s') => exact fun ha => nomatch ha

theorem Succeeds.pure (a : α) : Succeeds (pure a : Prog σ ε α) := fun _ => ⟨a, rfl⟩

theorem Succeeds.modify (f : σ → σ) : Succeeds (modify f : Prog σ ε Unit) := fun _ => ⟨(), rfl⟩

theorem Succeeds.read : Succeeds (read : Prog σ ε σ) := fun s => ⟨s, rfl⟩

theorem Succeeds.bind {f : α → Prog σ ε β} (hx : Succeeds x) (hf : ∀ a, Succeeds (f a)) :
    Succeeds (x >>= f) := by
  intro s
  obtain ⟨a, ha⟩ := hx s
  rw [bind_run]
  revert ha
  match x s with
  | (.ok b, s') => exact fun _ => hf b s'
  | (.error e, s') => exact fun ha => nomatch ha

theorem Succeeds.ite {c : Prop} [Decidable c] {y : Prog σ ε α} (hx : Succeeds x)
    (hy : Succeeds y) : Succeeds (if c then x else y) := by
  split_ifs
  · exact hx
  · exact hy

theorem Succeeds.forM {f : α → Prog σ ε PUnit} (hf : ∀ a, Succeeds (f a)) (l : List α) :
    Succeeds (l.forM f) := by
  induction l with
  | nil => exact Succeeds.pure _
  | cons a l ih => exact (hf a).bind fun _ => ih

theorem Succeeds.loop {body : β → Prog σ ε (β ⊕ γ)} {stop : β → γ}
    (hbody : ∀ b, Succeeds (body b)) (n : ℕ) (b : β) : Succeeds (Prog.loop body stop n b) := by
  induction n generalizing b with
  | zero => exact Succeeds.pure _
  | succ n ih =>
    refine (hbody b).bind fun r => ?_
    cases r with
    | inl b' => exact ih b'
    | inr c => exact Succeeds.pure c

/-! ### What a program does to the state -/

/-- Relations for what a program does to the state when it returns a value and when it fails: the
first is a preorder, and a failure may follow what it relates. -/
class Passes (R E : σ → σ → Prop) : Prop where
  refl : ∀ s, R s s
  trans : ∀ {s t u}, R s t → R t u → R s u
  fail : ∀ {s t}, R s t → E s t
  later : ∀ {s t u}, R s t → E t u → E s u

theorem Passes.of_trans {R : σ → σ → Prop} (hrefl : ∀ s, R s s)
    (htrans : ∀ {s t u}, R s t → R t u → R s u) : Passes R R := ⟨hrefl, htrans, id, htrans⟩

/-- The program leads from every state to one that is related to it, by `R` when it returns a value
and by `E` when it fails. -/
def Steps (R E : σ → σ → Prop) (x : Prog σ ε α) : Prop :=
  ∀ s, Post (fun _ t => R s t) (fun _ t => E s t) (x s)

namespace Steps

variable {R E : σ → σ → Prop} [hRE : Passes R E]

theorem pure (a : α) : Steps R E (Pure.pure a : Prog σ ε α) := fun s => hRE.refl s

theorem throw (e : ε) : Steps R E (Prog.throw e : Prog σ ε α) := fun s => hRE.fail (hRE.refl s)

/-- A sequence whose first part is known to step from the state it starts in. -/
theorem bind_at {g : α → Prog σ ε β} {s : σ} (hx : Post (fun _ t => R s t) (fun _ t => E s t) (x s))
    (hg : ∀ a, Steps R E (g a)) : Post (fun _ t => R s t) (fun _ t => E s t) ((x >>= g) s) := by
  rw [bind_run]
  revert hx
  match x s with
  | (.ok a, t) => exact fun hs => (hg a t).mono (fun _ _ => hRE.trans hs) fun _ _ => hRE.later hs
  | (.error e, t) => exact id

theorem bind {g : α → Prog σ ε β} (hx : Steps R E x) (hg : ∀ a, Steps R E (g a)) :
    Steps R E (x >>= g) := fun s => bind_at (hx s) hg

omit hRE in
theorem read {g : σ → Prog σ ε β} (hg : ∀ s, Steps R E (g s)) : Steps R E (Prog.read >>= g) :=
  fun s => hg s s

omit hRE in
theorem ite {c : Prop} [Decidable c] {y : Prog σ ε α} (hx : Steps R E x) (hy : Steps R E y) :
    Steps R E (if c then x else y) := by
  split_ifs
  · exact hx
  · exact hy

theorem forM {g : α → Prog σ ε PUnit} (hg : ∀ a, Steps R E (g a)) (l : List α) :
    Steps R E (l.forM g) := by
  induction l with
  | nil => exact Steps.pure _
  | cons a l ih => exact (hg a).bind fun _ => ih

theorem loop {body : β → Prog σ ε (β ⊕ γ)} {stop : β → γ} (hbody : ∀ b, Steps R E (body b))
    (n : ℕ) (b : β) : Steps R E (Prog.loop body stop n b) := by
  induction n generalizing b with
  | zero => exact Steps.pure _
  | succ n ih =>
    refine (hbody b).bind fun r => ?_
    cases r with
    | inl b' => exact ih b'
    | inr c => exact Steps.pure c

omit hRE in
theorem mono {R' E' : σ → σ → Prop} (h : Steps R E x) (hR : ∀ s t, R s t → R' s t)
    (hE : ∀ s t, E s t → E' s t) : Steps R' E' x :=
  fun s => (h s).mono (fun _ => hR s) fun _ => hE s

omit hRE in
theorem state {x : Prog σ ε α} (h : Steps R R x) (s : σ) : R s (x s).2 := by
  have hs := h s
  revert hs
  match x s with
  | (.ok _, _) => exact id
  | (.error _, _) => exact id

end Steps

/-- The states have the same value of `f`. -/
def Unchanged (f : σ → γ) (s t : σ) : Prop := f t = f s

instance (f : σ → γ) : Passes (Unchanged f) (Unchanged f) :=
  .of_trans (fun _ => rfl) fun h h' => h'.trans h

/-- The program leaves `f` of the state as it is, whether it returns a value or fails. -/
abbrev Frames (f : σ → γ) (x : Prog σ ε α) : Prop := Steps (Unchanged f) (Unchanged f) x

theorem Frames.triple {f : σ → γ} (h : Frames f x) (c : γ) :
    Triple (fun s => f s = c) x (fun _ s => f s = c) (fun _ s => f s = c) :=
  fun s hs => (h s).mono (fun _ _ ht => Eq.trans ht hs) fun _ _ ht => Eq.trans ht hs

/-! ### Two runs of one program -/

/-- Two runs have the same outcome, and their states are related. -/
def Same (Q E : σ → σ → Prop) : Except ε α × σ → Except ε α × σ → Prop
  | (.ok a, s), (.ok b, t) => a = b ∧ Q s t
  | (.error e, s), (.error e', t) => e = e' ∧ E s t
  | _, _ => False

/-- From states that `L` relates two runs of a program have the same outcome, and end in states
related by `Q` after a value and by `E` after a failure. -/
def Lockstep (L : σ → σ → Prop) (x : Prog σ ε α) (Q E : σ → σ → Prop) : Prop :=
  ∀ s t, L s t → Same Q E (x s) (x t)

variable {L M N F : σ → σ → Prop}

theorem Same.fst {Q E : σ → σ → Prop} {r r' : Except ε α × σ} (h : Same Q E r r') : r.1 = r'.1 := by
  match r, r', h with
  | (.ok a, s), (.ok b, t), h => exact congrArg Except.ok h.1
  | (.error e, s), (.error e', t), h => exact congrArg Except.error h.1

theorem Same.snd {r r' : Except ε α × σ} (h : Same L L r r') : L r.2 r'.2 := by
  match r, r', h with
  | (.ok a, s), (.ok b, t), h => exact h.2
  | (.error e, s), (.error e', t), h => exact h.2

theorem Same.mono {Q Q' E E' : σ → σ → Prop} {r r' : Except ε α × σ} (h : Same Q E r r')
    (hQ : ∀ s t, Q s t → Q' s t) (hE : ∀ s t, E s t → E' s t) : Same Q' E' r r' := by
  match r, r', h with
  | (.ok a, s), (.ok b, t), h => exact ⟨h.1, hQ _ _ h.2⟩
  | (.error e, s), (.error e', t), h => exact ⟨h.1, hE _ _ h.2⟩

theorem Lockstep.conseq {L' Q Q' E E' : σ → σ → Prop} (h : Lockstep L x Q E)
    (hL : ∀ s t, L' s t → L s t) (hQ : ∀ s t, Q s t → Q' s t) (hE : ∀ s t, E s t → E' s t) :
    Lockstep L' x Q' E' := fun s t hst => (h s t (hL s t hst)).mono hQ hE

theorem Lockstep.pure {a : α} (h : ∀ s t, L s t → M s t) :
    Lockstep L (pure a : Prog σ ε α) M F := fun s t hst => ⟨rfl, h s t hst⟩

theorem Lockstep.throw {e : ε} (h : ∀ s t, L s t → F s t) :
    Lockstep L (throw e : Prog σ ε α) M F := fun s t hst => ⟨rfl, h s t hst⟩

theorem Lockstep.modify {f : σ → σ} (h : ∀ s t, L s t → M (f s) (f t)) :
    Lockstep L (modify f : Prog σ ε Unit) M F := fun s t hst => ⟨rfl, h s t hst⟩

theorem Lockstep.bind {f : α → Prog σ ε β} (hx : Lockstep L x M F)
    (hf : ∀ a, Lockstep M (f a) N F) : Lockstep L (x >>= f) N F := by
  intro s t hst
  have hsame := hx s t hst
  rw [bind_run, bind_run]
  revert hsame
  match x s, x t with
  | (.ok a, s'), (.ok b, t') =>
    rintro ⟨rfl, hrel⟩
    exact hf a s' t' hrel
  | (.error e, s'), (.error e', t') => exact id
  | (.ok a, s'), (.error e, t') => exact False.elim
  | (.error e, s'), (.ok b, t') => exact False.elim

/-- Reading the state is in lockstep when what follows depends on what the states share. -/
theorem Lockstep.read {f : σ → Prog σ ε β} (h : ∀ s t, L s t → f s = f t)
    (hf : ∀ s t, L s t → Lockstep L (f s) M F) : Lockstep L (read >>= f) M F := by
  intro s t hst
  have hrun : ∀ r, (Prog.read >>= f) r = f r r := fun _ => rfl
  rw [hrun, hrun, ← h s t hst]
  exact hf s t hst s t hst

theorem Lockstep.ofExcept {r : Except ε α} (hok : ∀ s t, L s t → M s t)
    (herror : ∀ s t, L s t → F s t) : Lockstep L (ofExcept r : Prog σ ε α) M F := by
  cases r with
  | ok a => exact Lockstep.pure hok
  | error e => exact Lockstep.throw herror

theorem Lockstep.ite {c : Prop} [Decidable c] {y : Prog σ ε α} (hx : Lockstep L x M F)
    (hy : Lockstep L y M F) : Lockstep L (if c then x else y) M F := by
  split_ifs
  · exact hx
  · exact hy

theorem Lockstep.forM {f : α → Prog σ ε PUnit} (h : ∀ a, Lockstep L (f a) L F) (l : List α) :
    Lockstep L (l.forM f) L F := by
  induction l with
  | nil => exact Lockstep.pure fun _ _ h => h
  | cons a l ih => exact Lockstep.bind (h a) fun _ => ih

theorem Lockstep.loop {body : β → Prog σ ε (β ⊕ γ)} {stop : β → γ}
    (hbody : ∀ b, Lockstep L (body b) L F) (n : ℕ) (b : β) :
    Lockstep L (Prog.loop body stop n b) L F := by
  induction n generalizing b with
  | zero => exact Lockstep.pure fun _ _ h => h
  | succ n ih =>
    refine Lockstep.bind (hbody b) fun r => ?_
    cases r with
    | inl b' => exact ih b'
    | inr c => exact Lockstep.pure fun _ _ h => h

end Prog

end Zsync
