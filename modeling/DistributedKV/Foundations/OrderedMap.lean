import Mathlib.Data.List.Basic
import Mathlib.Data.List.Perm.Basic
import Mathlib.Data.List.Nodup
import Mathlib.Tactic.SplitIfs
import Mathlib.Data.Nat.Notation

/-!
# Ordered maps with natural keys

A map is the list of its entries by increasing key, which is the order in which it is iterated.
`emplace` inserts only where the key is absent.
-/

namespace OrderedMap

variable {α : Type*}

/-- Insert an entry in key order unless the key is present. -/
def emplace (k : ℕ) (v : α) : List (ℕ × α) → List (ℕ × α)
  | [] => [(k, v)]
  | (k', v') :: m =>
    if k < k' then (k, v) :: (k', v') :: m
    else if k = k' then (k', v') :: m
    else (k', v') :: emplace k v m

/-- Change the value of a key in place. -/
def modify (k : ℕ) (f : α → α) (m : List (ℕ × α)) : List (ℕ × α) :=
  m.map fun p => if p.1 = k then (p.1, f p.2) else p

/-- The value stored under a key. -/
def find (k : ℕ) (m : List (ℕ × α)) : Option α := m.lookup k

/-- Remove the entry of a key. -/
def erase (k : ℕ) (m : List (ℕ × α)) : List (ℕ × α) := m.filter fun p => p.1 ≠ k

/-- The keys of a map. -/
def keys (m : List (ℕ × α)) : List ℕ := m.map Prod.fst

@[simp] theorem keys_nil : keys ([] : List (ℕ × α)) = [] := rfl

@[simp] theorem keys_cons (p : ℕ × α) (m : List (ℕ × α)) : keys (p :: m) = p.1 :: keys m := rfl

theorem mem_keys_iff {k : ℕ} {m : List (ℕ × α)} : k ∈ keys m ↔ ∃ v, (k, v) ∈ m := by
  simp [keys]

theorem mem_emplace {k : ℕ} {v : α} {m : List (ℕ × α)} {p : ℕ × α} (h : p ∈ emplace k v m) :
    p = (k, v) ∨ p ∈ m := by
  induction m with
  | nil => simpa [emplace] using h
  | cons q m ih =>
    obtain ⟨k', v'⟩ := q
    simp only [emplace] at h
    split_ifs at h with h1 h2
    · simpa using h
    · exact Or.inr h
    · rcases List.mem_cons.1 h with rfl | h
      · exact Or.inr (by simp)
      · exact (ih h).imp_right (List.mem_cons_of_mem _)

theorem mem_keys_emplace {k k' : ℕ} {v : α} {m : List (ℕ × α)} :
    k' ∈ keys (emplace k v m) ↔ k' = k ∨ k' ∈ keys m := by
  induction m with
  | nil => simp [emplace, keys]
  | cons q m ih =>
    obtain ⟨k'', v''⟩ := q
    rw [emplace]
    split_ifs with h1 h2
    · simp
    · subst h2
      simp
    · rw [keys_cons, keys_cons, List.mem_cons, List.mem_cons, ih]
      exact or_left_comm

theorem mem_of_find {k : ℕ} {v : α} {m : List (ℕ × α)} (h : find k m = some v) : (k, v) ∈ m := by
  induction m with
  | nil => simp [find] at h
  | cons q m ih =>
    obtain ⟨k', v'⟩ := q
    simp only [find, List.lookup_cons] at h
    by_cases hk : k = k'
    · subst hk
      simp only [beq_self_eq_true, Option.some.injEq] at h
      simp [h]
    · rw [beq_false_of_ne hk] at h
      exact List.mem_cons_of_mem _ (ih h)

theorem find_eq_none_iff {k : ℕ} {m : List (ℕ × α)} : find k m = none ↔ k ∉ keys m := by
  rw [find, List.lookup_eq_none_iff, mem_keys_iff]
  constructor
  · rintro h ⟨v, hv⟩
    simpa using h _ hv
  · rintro h ⟨k', v⟩ hp
    rw [bne_iff_ne]
    rintro rfl
    exact h ⟨v, hp⟩

theorem mem_erase {k : ℕ} {m : List (ℕ × α)} {p : ℕ × α} :
    p ∈ erase k m ↔ p ∈ m ∧ p.1 ≠ k := by
  simp [erase]

/-! ## Maps in key order -/

/-- The entries stand in key order, each key once. -/
def Sorted (m : List (ℕ × α)) : Prop := (keys m).Pairwise (· < ·)

theorem Sorted.nil : Sorted ([] : List (ℕ × α)) := List.Pairwise.nil

theorem Sorted.filter {m : List (ℕ × α)} (h : Sorted m) (p : ℕ × α → Bool) :
    Sorted (m.filter p) := h.sublist (List.filter_sublist.map _)

theorem Sorted.erase {m : List (ℕ × α)} (h : Sorted m) (k : ℕ) : Sorted (erase k m) := h.filter _

theorem keys_modify (k : ℕ) (f : α → α) (m : List (ℕ × α)) : keys (modify k f m) = keys m := by
  rw [keys, keys, modify, List.map_map]
  refine List.map_congr_left fun p _ => ?_
  dsimp only [Function.comp_apply]
  split_ifs <;> rfl

theorem Sorted.modify {m : List (ℕ × α)} (h : Sorted m) (k : ℕ) (f : α → α) :
    Sorted (modify k f m) := by
  rwa [Sorted, keys_modify]

theorem Sorted.emplace {m : List (ℕ × α)} (h : Sorted m) (k : ℕ) (v : α) :
    Sorted (emplace k v m) := by
  induction m with
  | nil => exact List.pairwise_singleton _ _
  | cons q m ih =>
    obtain ⟨k', v'⟩ := q
    obtain ⟨hlt, hm⟩ := List.pairwise_cons.1 h
    rw [OrderedMap.emplace]
    split_ifs with h1 h2
    · refine List.pairwise_cons.2 ⟨fun k'' hk'' => ?_, h⟩
      rcases List.mem_cons.1 hk'' with rfl | hk''
      · exact h1
      · exact Nat.lt_trans h1 (hlt k'' hk'')
    · exact h
    · refine List.pairwise_cons.2 ⟨fun k'' hk'' => ?_, ih hm⟩
      obtain ⟨v'', hv⟩ := mem_keys_iff.1 hk''
      rcases mem_emplace hv with heq | hmem
      · obtain ⟨rfl, -⟩ := Prod.mk.inj heq
        dsimp only
        omega
      · exact hlt k'' (mem_keys_iff.2 ⟨v'', hmem⟩)

/-- A map has one value for a key. -/
theorem Sorted.unique {m : List (ℕ × α)} (h : Sorted m) {k : ℕ} {v v' : α} (hv : (k, v) ∈ m)
    (hv' : (k, v') ∈ m) : v = v' := by
  induction m with
  | nil => cases hv
  | cons q m ih =>
    obtain ⟨hlt, hm⟩ := List.pairwise_cons.1 h
    have hfirst : ∀ {x : α}, (k, x) ∈ m → q.1 ≠ k := fun hx hk =>
      Nat.ne_of_lt (hlt k (mem_keys_iff.2 ⟨_, hx⟩)) hk
    rcases List.mem_cons.1 hv with hq | hmem
    · rcases List.mem_cons.1 hv' with hq' | hmem'
      · exact (Prod.mk.inj (hq.trans hq'.symm)).2
      · exact absurd (congrArg Prod.fst hq.symm) (hfirst hmem')
    · rcases List.mem_cons.1 hv' with hq' | hmem'
      · exact absurd (congrArg Prod.fst hq'.symm) (hfirst hmem)
      · exact ih hm hmem hmem'

/-- A new key adds its entry. -/
theorem perm_emplace {k : ℕ} {m : List (ℕ × α)} (h : k ∉ keys m) (v : α) :
    (emplace k v m).Perm ((k, v) :: m) := by
  induction m with
  | nil => exact List.Perm.refl _
  | cons q m ih =>
    obtain ⟨k', v'⟩ := q
    simp only [keys_cons, List.mem_cons, not_or] at h
    rw [emplace]
    split_ifs with h1 h2
    · exact List.Perm.refl _
    · exact absurd h2 h.1
    · exact ((ih h.2).cons _).trans (List.Perm.swap _ _ _)

/-- A key that is present gives up its entry. -/
theorem Sorted.perm_erase {m : List (ℕ × α)} (h : Sorted m) {k : ℕ} {v : α}
    (hf : find k m = some v) : m.Perm ((k, v) :: OrderedMap.erase k m) := by
  have hmem := mem_of_find hf
  have hsplit := (List.filter_append_perm (fun p : ℕ × α => decide (p.1 = k)) m).symm
  have hone : m.filter (fun p : ℕ × α => decide (p.1 = k)) = [(k, v)] := by
    refine List.Perm.eq_singleton ((List.perm_ext_iff_of_nodup ?_ (List.nodup_singleton _)).2 ?_)
    · have hnodup : (keys m).Nodup := h.imp fun hlt => Nat.ne_of_lt hlt
      exact (List.Nodup.of_map _ hnodup).filter _
    · rintro ⟨k', v'⟩
      simp only [List.mem_filter, decide_eq_true_eq, List.mem_singleton, Prod.mk.injEq]
      constructor
      · rintro ⟨hm, rfl⟩
        exact ⟨rfl, h.unique hm hmem⟩
      · rintro ⟨rfl, rfl⟩
        exact ⟨hmem, rfl⟩
  rw [hone] at hsplit
  simpa [OrderedMap.erase] using hsplit

theorem Sorted.find_eq_some_iff {m : List (ℕ × α)} (h : Sorted m) {k : ℕ} {v : α} :
    find k m = some v ↔ (k, v) ∈ m := by
  refine ⟨mem_of_find, fun hv => ?_⟩
  cases hf : find k m with
  | none => exact absurd (mem_keys_iff.2 ⟨v, hv⟩) (find_eq_none_iff.1 hf)
  | some v' => rw [h.unique hv (mem_of_find hf)]

theorem mem_modify {k k' : ℕ} {f : α → α} {m : List (ℕ × α)} {v : α}
    (h : (k', v) ∈ modify k f m) : ∃ v', (k', v') ∈ m ∧ (v = v' ∨ k' = k ∧ v = f v') := by
  obtain ⟨⟨k'', v'⟩, hm, heq⟩ := List.mem_map.1 h
  dsimp only at heq
  split_ifs at heq with hk
  · obtain ⟨rfl, rfl⟩ := Prod.mk.inj heq
    exact ⟨v', hm, Or.inr ⟨hk, rfl⟩⟩
  · obtain ⟨rfl, rfl⟩ := Prod.mk.inj heq
    exact ⟨v', hm, Or.inl rfl⟩

/-- Changing a value in place changes one entry. -/
theorem Sorted.perm_modify {m : List (ℕ × α)} (h : Sorted m) {k : ℕ} {v : α} (hv : (k, v) ∈ m)
    (f : α → α) : (OrderedMap.modify k f m).Perm ((k, f v) :: OrderedMap.erase k m) := by
  have hperm := (h.perm_erase (h.find_eq_some_iff.2 hv)).map
    fun p => if p.1 = k then (p.1, f p.2) else p
  have hrest : (OrderedMap.erase k m).map (fun p => if p.1 = k then (p.1, f p.2) else p) =
      OrderedMap.erase k m := by
    refine (List.map_congr_left fun p hp => ?_).trans (List.map_id _)
    exact if_neg (mem_erase.1 hp).2
  rw [List.map_cons, if_pos rfl, hrest] at hperm
  exact hperm

end OrderedMap
