import Mathlib

/-!
# Hash tables chained through arrays

A hash table whose buckets are linked lists kept in two arrays of numbers: `heads` has the first
entry of each bucket, `next` the entry after each entry, and a marker `nil`, which is no entry,
ends a list.

* `Chain.walk` : the entries of a list, from its first;
* `Chain.IsPath` : the entries of a list, as a relation, with `Chain.walk_eq` connecting the two;
* `Chain.Holds` : the table holds a list of entries, each in the bucket of its key and the entries
  of a bucket in the order of the list;
* `Chain.Holds.insert`, `Chain.Holds.unlink` : inserting an entry in front and unlinking one.
-/

namespace Zsync

namespace Chain

variable {nil : ℕ} {heads next : List ℕ} {key : ℕ → ℕ}

/-! ### Paths -/

/-- The entries from `i` on, at most `fuel` of them. -/
def walk (nil : ℕ) (next : List ℕ) : ℕ → ℕ → List ℕ
  | 0, _ => []
  | fuel + 1, i => if i = nil then [] else i :: walk nil next fuel (next.getD i nil)

/-- The entries from `i` on are those of the list. -/
def IsPath (nil : ℕ) (next : List ℕ) : ℕ → List ℕ → Prop
  | i, [] => i = nil
  | i, j :: l => i = j ∧ j ≠ nil ∧ IsPath nil next (next.getD j nil) l

theorem walk_eq {fuel i : ℕ} {l : List ℕ} (h : IsPath nil next i l) (hl : l.length ≤ fuel) :
    walk nil next fuel i = l := by
  induction l generalizing fuel i with
  | nil =>
    obtain rfl : i = nil := h
    cases fuel <;> simp [walk]
  | cons j l ih =>
    obtain ⟨rfl, hi, htail⟩ := h
    obtain ⟨fuel, rfl⟩ := Nat.exists_eq_add_of_le' hl
    rw [List.length_cons, ← Nat.add_assoc, walk, if_neg hi, ih htail (by omega)]

theorem getD_set_of_ne {i j v : ℕ} (h : i ≠ j) : (next.set i v).getD j nil = next.getD j nil := by
  simp [List.getD_eq_getElem?_getD, List.getElem?_set_ne h]

theorem getD_set_self {i v : ℕ} (h : i < next.length) : (next.set i v).getD i nil = v := by
  simp [List.getD_eq_getElem?_getD, h]

theorem IsPath.set_of_notMem {i j v : ℕ} {l : List ℕ} (h : IsPath nil next i l) (hj : j ∉ l) :
    IsPath nil (next.set j v) i l := by
  induction l generalizing i with
  | nil => exact h
  | cons k l ih =>
    obtain ⟨rfl, hi, htail⟩ := h
    simp only [List.mem_cons, not_or] at hj
    refine ⟨rfl, hi, ?_⟩
    rw [getD_set_of_ne hj.1]
    exact ih htail hj.2

theorem IsPath.drop {i j : ℕ} {l m : List ℕ} (h : IsPath nil next i (l ++ j :: m)) :
    IsPath nil next j (j :: m) := by
  induction l generalizing i with
  | nil => exact ⟨rfl, h.2⟩
  | cons k l ih => exact ih h.2.2

theorem IsPath.redirect {i p v : ℕ} {l m m' : List ℕ} (h : IsPath nil next i (l ++ p :: m))
    (hp : p ∉ l) (hlt : p < next.length) (hv : IsPath nil next v m') (hp' : p ∉ m') :
    IsPath nil (next.set p v) i (l ++ p :: m') := by
  induction l generalizing i with
  | nil =>
    obtain ⟨rfl, hi, -⟩ := h
    refine ⟨rfl, hi, ?_⟩
    rw [getD_set_self hlt]
    exact hv.set_of_notMem hp'
  | cons k l ih =>
    obtain ⟨rfl, hi, htail⟩ := h
    simp only [List.mem_cons, not_or] at hp
    refine ⟨rfl, hi, ?_⟩
    rw [getD_set_of_ne hp.1]
    exact ih htail hp.2

/-! ### Unlinking -/

/-- Unlinks entry `id` from bucket `k`, looking for it from `curr` on, the entry after `prev`. -/
def unlinkFrom (nil : ℕ) (heads next : List ℕ) (k id : ℕ) : ℕ → ℕ → ℕ → List ℕ × List ℕ
  | 0, _, _ => (heads, next)
  | fuel + 1, prev, curr =>
    if curr = nil then (heads, next)
    else if curr = id then
      if prev = nil then (heads.set k (next.getD id nil), next)
      else (heads, next.set prev (next.getD id nil))
    else unlinkFrom nil heads next k id fuel curr (next.getD curr nil)

theorem unlinkFrom_of_notMem {k id fuel prev curr : ℕ} {m : List ℕ} (hm : IsPath nil next curr m)
    (hid : id ∉ m) : unlinkFrom nil heads next k id fuel prev curr = (heads, next) := by
  induction m generalizing fuel prev curr with
  | nil =>
    obtain rfl : curr = nil := hm
    cases fuel <;> simp [unlinkFrom]
  | cons j m ih =>
    obtain ⟨rfl, hj, htail⟩ := hm
    simp only [List.mem_cons, not_or] at hid
    cases fuel with
    | zero => rfl
    | succ fuel => rw [unlinkFrom, if_neg hj, if_neg (Ne.symm hid.1), ih htail hid.2]

/-- The entry `id` is found after the entries `l ++ m`, of which `l` have been passed. -/
theorem unlinkFrom_of_mem {k id fuel prev curr : ℕ} {l m m' : List ℕ}
    (hprev : prev = l.getLast?.getD nil) (hl : ∀ i ∈ l, i ≠ nil)
    (hm : IsPath nil next curr (m ++ id :: m')) (hid : id ∉ m) (hfuel : m.length < fuel) :
    unlinkFrom nil heads next k id fuel prev curr =
      match (l ++ m).getLast? with
      | none => (heads.set k (next.getD id nil), next)
      | some p => (heads, next.set p (next.getD id nil)) := by
  obtain ⟨fuel, rfl⟩ := Nat.exists_eq_add_of_lt hfuel
  induction m generalizing prev curr l with
  | nil =>
    obtain ⟨rfl, hcurr, -⟩ := hm
    rw [List.length_nil, Nat.zero_add, unlinkFrom, if_neg hcurr, if_pos rfl, List.append_nil]
    cases hlast : l.getLast? with
    | none => rw [if_pos (by simp [hprev, hlast])]
    | some p =>
      have hp := hl p (List.mem_of_getLast? hlast)
      rw [if_neg (by simpa [hprev, hlast] using hp), hprev, hlast, Option.getD_some]
  | cons j m ih =>
    obtain ⟨rfl, hj, htail⟩ := hm
    simp only [List.mem_cons, not_or] at hid
    have hl' : ∀ i ∈ l ++ [curr], i ≠ nil := by
      intro i hi
      rcases List.mem_append.1 hi with hi | hi
      · exact hl i hi
      · exact List.mem_singleton.1 hi ▸ hj
    rw [show (curr :: m).length + fuel + 1 = (m.length + fuel + 1) + 1 by simp; omega, unlinkFrom,
      if_neg hj, if_neg (Ne.symm hid.1), ih (by simp) hl' htail hid.2 (by omega)]
    simp

/-! ### Tables -/

/-- The table holds the entries `ids`: the bucket of each key has the entries with this key, in
the order of `ids`. -/
structure Holds (nil : ℕ) (heads next : List ℕ) (key : ℕ → ℕ) (ids : List ℕ) : Prop where
  nodup : ids.Nodup
  entry : ∀ id ∈ ids, id ≠ nil ∧ id < next.length ∧ key id < heads.length
  path : ∀ k < heads.length, IsPath nil next (heads.getD k nil) (ids.filter (key · = k))

theorem Holds.walk_eq {ids : List ℕ} (h : Holds nil heads next key ids) {k fuel : ℕ}
    (hk : k < heads.length) (hfuel : ids.length ≤ fuel) :
    walk nil next fuel (heads.getD k nil) = ids.filter (key · = k) :=
  Chain.walk_eq (h.path k hk) ((List.length_filter_le _ _).trans hfuel)

theorem holds_nil (nil n m : ℕ) (key : ℕ → ℕ) :
    Holds nil (List.replicate n nil) (List.replicate m nil) key [] where
  nodup := List.nodup_nil
  entry := by simp
  path k hk := by
    simp only [List.length_replicate] at hk
    simp [IsPath, List.getD_eq_getElem?_getD, hk]

/-- **Inserting** an entry in front of its bucket. -/
theorem Holds.insert {ids : List ℕ} (h : Holds nil heads next key ids) {id : ℕ} (hid : id ∉ ids)
    (hnil : id ≠ nil) (hlt : id < next.length) (hkey : key id < heads.length) :
    Holds nil (heads.set (key id) id) (next.set id (heads.getD (key id) nil)) key (id :: ids) where
  nodup := List.nodup_cons.2 ⟨hid, h.nodup⟩
  entry := by
    simp only [List.length_set, List.forall_mem_cons]
    exact ⟨⟨hnil, hlt, hkey⟩, h.entry⟩
  path k hk := by
    rw [List.length_set] at hk
    have hid' : id ∉ ids.filter (key · = k) := fun hm => hid (List.mem_of_mem_filter hm)
    have hold := (h.path k hk).set_of_notMem (v := heads.getD (key id) nil) hid'
    by_cases hkid : key id = k
    · subst hkid
      rw [getD_set_self hkey, List.filter_cons_of_pos (by simp)]
      refine ⟨rfl, hnil, ?_⟩
      rw [getD_set_self hlt]
      exact hold
    · rw [getD_set_of_ne hkid, List.filter_cons_of_neg (by simpa using hkid)]
      exact hold

theorem filter_ne_eq {ids m m' : List ℕ} {id k : ℕ} (hnd : ids.Nodup)
    (h : ids.filter (key · = k) = m ++ id :: m') :
    (ids.filter (· ≠ id)).filter (key · = k) = m ++ m' ∧ id ∉ m ∧ id ∉ m' := by
  have hnd' := h ▸ hnd.filter (key · = k)
  have hnot : id ∉ m ++ m' := (List.nodup_middle.1 hnd').notMem
  simp only [List.mem_append, not_or] at hnot
  refine ⟨?_, hnot⟩
  have hself : ∀ l : List ℕ, id ∉ l → l.filter (· ≠ id) = l := fun l hl =>
    List.filter_eq_self.2 fun i hi => by
      have : i ≠ id := fun hii => hl (hii ▸ hi)
      simpa using this
  rw [List.filter_comm, h, List.filter_append, List.filter_cons_of_neg (by simp), hself m hnot.1,
    hself m' hnot.2]

theorem filter_ne_eq_of_ne {ids : List ℕ} {id k : ℕ} (hk : key id ≠ k) :
    (ids.filter (· ≠ id)).filter (key · = k) = ids.filter (key · = k) := by
  rw [List.filter_comm]
  refine List.filter_eq_self.2 fun i hi => ?_
  have hik : key i = k := by simpa using List.of_mem_filter hi
  have : i ≠ id := fun h => hk (h ▸ hik)
  simpa using this

theorem Holds.unlink_head {ids m' : List ℕ} (h : Holds nil heads next key ids) {id : ℕ}
    (hkey : key id < heads.length) (hbucket : ids.filter (key · = key id) = id :: m') :
    Holds nil (heads.set (key id) (next.getD id nil)) next key (ids.filter (· ≠ id)) where
  nodup := h.nodup.filter _
  entry i hi := by simpa using h.entry i (List.mem_of_mem_filter hi)
  path k hk := by
    rw [List.length_set] at hk
    by_cases hkid : key id = k
    · subst hkid
      have hrest := (filter_ne_eq (m := []) h.nodup hbucket).1
      rw [getD_set_self hkey, hrest]
      exact (hbucket ▸ h.path (key id) hkey).2.2
    · rw [getD_set_of_ne hkid, filter_ne_eq_of_ne hkid]
      exact h.path k hk

theorem Holds.unlink_after {ids m m' : List ℕ} (h : Holds nil heads next key ids) {id p : ℕ}
    (hkey : key id < heads.length)
    (hbucket : ids.filter (key · = key id) = m ++ p :: id :: m') :
    Holds nil heads (next.set p (next.getD id nil)) key (ids.filter (· ≠ id)) where
  nodup := h.nodup.filter _
  entry i hi := by simpa using h.entry i (List.mem_of_mem_filter hi)
  path k hk := by
    have hp : p ∈ ids ∧ key p = key id := by
      simpa using (hbucket ▸ (by simp) : p ∈ ids.filter (key · = key id))
    by_cases hkid : key id = k
    · subst hkid
      have hpath := hbucket ▸ h.path (key id) hkey
      have hnot : p ∉ m ++ id :: m' :=
        (List.nodup_middle.1 (hbucket ▸ h.nodup.filter (key · = key id))).notMem
      simp only [List.mem_append, List.mem_cons, not_or] at hnot
      have hrest := (filter_ne_eq (m := m ++ [p]) h.nodup (by simpa using hbucket)).1
      have htail : IsPath nil next (next.getD id nil) m' := hpath.drop.2.2.2.2
      rw [hrest, List.append_assoc, List.singleton_append]
      exact hpath.redirect hnot.1 (h.entry p hp.1).2.1 htail hnot.2.2
    · rw [filter_ne_eq_of_ne hkid]
      refine (h.path k hk).set_of_notMem fun hpk => hkid ?_
      rw [← hp.2]
      simpa using List.of_mem_filter hpk

/-- **Unlinking** an entry from its bucket. -/
theorem Holds.unlink {ids : List ℕ} (h : Holds nil heads next key ids) (id : ℕ) {fuel : ℕ}
    (hfuel : ids.length ≤ fuel) (hkey : key id < heads.length) {heads' next' : List ℕ}
    (heq : unlinkFrom nil heads next (key id) id fuel nil (heads.getD (key id) nil) =
      (heads', next')) :
    Holds nil heads' next' key (ids.filter (· ≠ id)) ∧ heads'.length = heads.length ∧
      next'.length = next.length := by
  have hpath := h.path (key id) hkey
  by_cases hid : id ∈ ids
  · obtain ⟨m, m', hbucket, hm⟩ := List.eq_append_cons_of_mem
      (List.mem_filter.2 ⟨hid, by simp⟩ : id ∈ ids.filter (key · = key id))
    have hlen : m.length < fuel := by
      have := List.length_filter_le (key · = key id) ids
      rw [hbucket, List.length_append, List.length_cons] at this
      omega
    rw [unlinkFrom_of_mem (l := []) (by simp) (by simp) (hbucket ▸ hpath) hm hlen,
      List.nil_append] at heq
    cases hlast : m.getLast? with
    | none =>
      obtain rfl := List.getLast?_eq_none_iff.1 hlast
      obtain ⟨rfl, rfl⟩ := by simpa [hlast] using heq
      exact ⟨h.unlink_head hkey hbucket, by simp, rfl⟩
    | some p =>
      obtain ⟨m₁, rfl⟩ := List.getLast?_eq_some_iff.1 hlast
      obtain ⟨rfl, rfl⟩ := by simpa [hlast] using heq
      exact ⟨h.unlink_after hkey (by simpa using hbucket), rfl, by simp⟩
  · have hself : ids.filter (· ≠ id) = ids := List.filter_eq_self.2 fun i hi => by
      have : i ≠ id := fun hii => hid (hii ▸ hi)
      simpa using this
    rw [unlinkFrom_of_notMem hpath fun hm => hid (List.mem_of_mem_filter hm)] at heq
    obtain ⟨rfl, rfl⟩ := Prod.mk.inj heq
    exact ⟨hself.symm ▸ h, rfl, rfl⟩

end Chain

end Zsync
