import Mathlib.Order.Defs.LinearOrder
import Mathlib.Data.List.Basic
import Mathlib.Data.List.Induction
import Mathlib.Data.List.Nodup
import Mathlib.Order.Lattice

/-!
# Stores of records in key order

An object store keeps records under a key that is computed from the record, at most
one record a key, and hands them out in key order.  The records are a list sorted
strictly by their keys, so two stores with the same records are equal.

## Main definitions

* `KeyedStore` — the records, with the proof that they are sorted.
* `KeyedStore.put`, `KeyedStore.delete`, `KeyedStore.get?`, `KeyedStore.between`.

## Main results

* `KeyedStore.mem_put`, `KeyedStore.mem_delete`, `KeyedStore.mem_between`,
  `KeyedStore.get?_eq_some` — **what the operations do to the records.**
* `KeyedStore.ext_mem` — a store is determined by its records.
-/

universe u v

/-- Records in strictly increasing order of their keys. -/
structure KeyedStore {ν : Type u} {κ : Type v} [LinearOrder κ] (key : ν → κ) where
  records : List ν
  sorted : records.Pairwise fun a b => key a < key b

namespace KeyedStore

variable {ν : Type u} {κ : Type v} [LinearOrder κ] {key : ν → κ}

instance : Membership ν (KeyedStore key) := ⟨fun s x => x ∈ s.records⟩

theorem mem_def {s : KeyedStore key} {x : ν} : x ∈ s ↔ x ∈ s.records := Iff.rfl

/-- The store without records. -/
def empty : KeyedStore key := ⟨[], .nil⟩

@[simp] theorem not_mem_empty (x : ν) : x ∉ (empty : KeyedStore key) := List.not_mem_nil

theorem keys_nodup (s : KeyedStore key) : (s.records.map key).Nodup :=
  List.pairwise_map.mpr (s.sorted.imp fun hlt => ne_of_lt hlt)

/-- A record is determined by its key. -/
theorem key_inj {s : KeyedStore key} {x y : ν} (hx : x ∈ s) (hy : y ∈ s) (h : key x = key y) :
    x = y := List.inj_on_of_nodup_map s.keys_nodup hx hy h

/-- A store is determined by its records. -/
theorem ext_mem {s t : KeyedStore key} (h : ∀ x, x ∈ s ↔ x ∈ t) : s = t := by
  have hperm : s.records.Perm t.records :=
    (List.perm_ext_iff_of_nodup (.of_map _ s.keys_nodup) (.of_map _ t.keys_nodup)).mpr h
  have hrec : s.records = t.records :=
    hperm.eq_of_pairwise (fun a b _ _ hab hba => (lt_asymm hab hba).elim) s.sorted t.sorted
  cases s
  cases t
  cases hrec
  rfl

/-! ### Writing -/

/-- Insert a record where its key belongs, in place of one with the same key. -/
def insert (key : ν → κ) (v : ν) : List ν → List ν
  | [] => [v]
  | x :: xs =>
      if key v < key x then v :: x :: xs
      else if key v = key x then v :: xs
      else x :: insert key v xs

theorem mem_insert {v x : ν} : ∀ {xs : List ν}, xs.Pairwise (fun a b => key a < key b) →
    (x ∈ insert key v xs ↔ x = v ∨ x ∈ xs ∧ key x ≠ key v)
  | [], _ => by simp [insert]
  | y :: ys, h => by
    obtain ⟨hy, hys⟩ := List.pairwise_cons.mp h
    rw [insert]
    split
    · next hlt =>
      -- every record comes after the new one
      have hne : ∀ z ∈ y :: ys, key z ≠ key v := by
        intro z hz
        rcases List.mem_cons.mp hz with rfl | hz
        · exact hlt.ne'
        · exact (hlt.trans (hy z hz)).ne'
      rw [List.mem_cons]
      exact or_congr_right ⟨fun hx => ⟨hx, hne x hx⟩, fun hx => hx.1⟩
    · next hnlt =>
      split
      · next heq =>
        rw [List.mem_cons, List.mem_cons]
        refine or_congr_right ⟨fun hx => ⟨.inr hx, ?_⟩, ?_⟩
        · rw [heq]; exact (hy x hx).ne'
        · rintro ⟨rfl | hx, hne⟩
          · exact absurd heq.symm hne
          · exact hx
      · next hne =>
        rw [List.mem_cons, List.mem_cons, mem_insert hys]
        constructor
        · rintro (rfl | rfl | ⟨hx, hxv⟩)
          · exact .inr ⟨.inl rfl, Ne.symm hne⟩
          · exact .inl rfl
          · exact .inr ⟨.inr hx, hxv⟩
        · rintro (rfl | ⟨rfl | hx, hxv⟩)
          · exact .inr (.inl rfl)
          · exact .inl rfl
          · exact .inr (.inr ⟨hx, hxv⟩)

theorem sorted_insert {v : ν} : ∀ {xs : List ν}, xs.Pairwise (fun a b => key a < key b) →
    (insert key v xs).Pairwise fun a b => key a < key b
  | [], _ => by simp [insert]
  | y :: ys, h => by
    obtain ⟨hy, hys⟩ := List.pairwise_cons.mp h
    rw [insert]
    split
    · next hlt =>
      refine List.pairwise_cons.mpr ⟨fun z hz => ?_, h⟩
      rcases List.mem_cons.mp hz with rfl | hz
      · exact hlt
      · exact hlt.trans (hy z hz)
    · next hnlt =>
      split
      · next heq => exact List.pairwise_cons.mpr ⟨fun z hz => heq ▸ hy z hz, hys⟩
      · next hne =>
        refine List.pairwise_cons.mpr ⟨fun z hz => ?_, sorted_insert hys⟩
        rcases (mem_insert hys).mp hz with rfl | ⟨hz, -⟩
        · exact lt_of_le_of_ne (not_lt.mp hnlt) (Ne.symm hne)
        · exact hy z hz

/-- Store a record, in place of the one with its key. -/
def put (s : KeyedStore key) (v : ν) : KeyedStore key :=
  ⟨insert key v s.records, sorted_insert s.sorted⟩

/-- Remove the record with a key. -/
def delete (s : KeyedStore key) (k : κ) : KeyedStore key :=
  ⟨s.records.filter fun x => key x ≠ k, s.sorted.filter _⟩

@[simp] theorem mem_put {s : KeyedStore key} {v x : ν} :
    x ∈ s.put v ↔ x = v ∨ x ∈ s ∧ key x ≠ key v := mem_insert s.sorted

@[simp] theorem mem_delete {s : KeyedStore key} {k : κ} {x : ν} :
    x ∈ s.delete k ↔ x ∈ s ∧ key x ≠ k := by
  simp [mem_def, delete]

/-- Store records one after the other. -/
def putAll (s : KeyedStore key) (vs : List ν) : KeyedStore key := vs.foldl put s

/-- Remove the records with the given keys. -/
def deleteAll (s : KeyedStore key) (ks : List κ) : KeyedStore key := ks.foldl delete s

@[simp] theorem mem_deleteAll {ks : List κ} {x : ν} :
    ∀ {s : KeyedStore key}, x ∈ s.deleteAll ks ↔ x ∈ s ∧ key x ∉ ks := by
  induction ks with
  | nil => simp [deleteAll]
  | cons k ks ih =>
    intro s
    rw [deleteAll, List.foldl_cons, ← deleteAll, ih, mem_delete, List.mem_cons, not_or, and_assoc]

/-- A record whose key is not written stays. -/
theorem mem_putAll_of_notMem {vs : List ν} {x : ν} (h : ∀ v ∈ vs, key v ≠ key x) :
    ∀ {s : KeyedStore key}, x ∈ s.putAll vs ↔ x ∈ s := by
  induction vs with
  | nil => exact Iff.rfl
  | cons v vs ih =>
    intro s
    obtain ⟨hv, hvs⟩ := List.forall_mem_cons.mp h
    rw [putAll, List.foldl_cons, ← putAll, ih hvs, mem_put]
    constructor
    · rintro (rfl | ⟨hx, -⟩)
      · exact absurd rfl hv
      · exact hx
    · exact fun hx => .inr ⟨hx, Ne.symm hv⟩

/-- What is stored afterwards was there, under a key not written, or was written. -/
theorem mem_putAll {vs : List ν} {x : ν} : ∀ {s : KeyedStore key}, x ∈ s.putAll vs →
    x ∈ vs ∨ x ∈ s ∧ ∀ v ∈ vs, key v ≠ key x := by
  induction vs with
  | nil => exact fun h => .inr ⟨h, by simp⟩
  | cons v vs ih =>
    intro s h
    rw [putAll, List.foldl_cons, ← putAll] at h
    rcases ih h with h | ⟨h, hvs⟩
    · exact .inl (List.mem_cons_of_mem _ h)
    · rcases mem_put.mp h with rfl | ⟨h, hne⟩
      · exact .inl List.mem_cons_self
      · exact .inr ⟨h, List.forall_mem_cons.mpr ⟨Ne.symm hne, hvs⟩⟩

/-- Every key written is there afterwards. -/
theorem exists_mem_putAll {vs : List ν} {v : ν} (h : v ∈ vs) :
    ∀ {s : KeyedStore key}, ∃ x ∈ vs, key x = key v ∧ x ∈ s.putAll vs := by
  induction vs using List.reverseRecOn with
  | nil => cases h
  | append_singleton vs last ih =>
    intro s
    have happ : s.putAll (vs ++ [last]) = (s.putAll vs).put last := List.foldl_concat ..
    by_cases hk : key last = key v
    · exact ⟨last, by simp, hk, by rw [happ, mem_put]; exact .inl rfl⟩
    · have hv : v ∈ vs := by
        rcases List.mem_append.mp h with h | h
        · exact h
        · rw [List.mem_singleton.mp h] at hk; exact absurd rfl hk
      obtain ⟨x, hx, hxv, hmem⟩ := ih hv (s := s)
      exact ⟨x, List.mem_append_left _ hx, hxv, by
        rw [happ, mem_put]; exact .inr ⟨hmem, fun h => hk (h.symm.trans hxv)⟩⟩

theorem putAll_concat (s : KeyedStore key) (vs : List ν) (v : ν) :
    s.putAll (vs ++ [v]) = (s.putAll vs).put v := List.foldl_concat ..

theorem putAll_append (s : KeyedStore key) (vs ws : List ν) :
    s.putAll (vs ++ ws) = (s.putAll vs).putAll ws := List.foldl_append ..

/-- What storing a list leaves depends on the store for the other keys only. -/
theorem mem_putAll_iff {s : KeyedStore key} {vs : List ν} {x : ν} :
    x ∈ s.putAll vs ↔ x ∈ (empty : KeyedStore key).putAll vs ∨ x ∈ s ∧ ∀ v ∈ vs, key v ≠ key x := by
  induction vs using List.reverseRecOn with
  | nil => simp [putAll]
  | append_singleton vs v ih =>
    simp only [putAll_concat, mem_put, ih, List.forall_mem_append, List.forall_mem_singleton]
    constructor
    · rintro (rfl | ⟨h | ⟨h, hvs⟩, hne⟩)
      · exact .inl (.inl rfl)
      · exact .inl (.inr ⟨h, hne⟩)
      · exact .inr ⟨h, hvs, hne.symm⟩
    · rintro ((rfl | ⟨h, hne⟩) | ⟨h, hvs, hne⟩)
      · exact .inl rfl
      · exact .inr ⟨.inl h, hne⟩
      · exact .inr ⟨.inr ⟨h, hvs⟩, hne.symm⟩

/-- **Storing a list makes up for what was stored before** under keys of its own. -/
theorem putAll_absorb {s : KeyedStore key} {vs ws : List ν}
    (h : ∀ w ∈ ws, ∃ v ∈ vs, key v = key w) : (s.putAll ws).putAll vs = s.putAll vs := by
  apply ext_mem
  intro x
  have hold : (∀ v ∈ vs, key v ≠ key x) → (x ∈ s.putAll ws ↔ x ∈ s) := by
    intro hx
    apply mem_putAll_of_notMem
    intro w hw hwx
    obtain ⟨v, hv, hvw⟩ := h w hw
    exact hx v hv (hvw.trans hwx)
  calc x ∈ (s.putAll ws).putAll vs
      ↔ x ∈ (empty : KeyedStore key).putAll vs ∨ x ∈ s.putAll ws ∧ ∀ v ∈ vs, key v ≠ key x :=
        mem_putAll_iff
    _ ↔ x ∈ (empty : KeyedStore key).putAll vs ∨ x ∈ s ∧ ∀ v ∈ vs, key v ≠ key x :=
        or_congr_right (and_congr_left hold)
    _ ↔ x ∈ s.putAll vs := mem_putAll_iff.symm

/-- **What has been stored one after the other**: the last record of each key, and the old
records of the other keys. -/
theorem mem_putAll_last {s : KeyedStore key} {vs : List ν} {x : ν} :
    x ∈ s.putAll vs ↔
      (∃ before after, vs = before ++ x :: after ∧ ∀ v ∈ after, key v ≠ key x) ∨
        x ∈ s ∧ ∀ v ∈ vs, key v ≠ key x := by
  induction vs using List.reverseRecOn with
  | nil => simp [putAll]
  | append_singleton vs v ih =>
    rw [putAll_concat, mem_put, ih, List.forall_mem_append, List.forall_mem_singleton]
    constructor
    · rintro (rfl | ⟨⟨before, after, rfl, hlast⟩ | ⟨hx, hvs⟩, hne⟩)
      · exact .inl ⟨vs, [], rfl, List.forall_mem_nil _⟩
      · refine .inl ⟨before, after ++ [v], by simp, ?_⟩
        rw [List.forall_mem_append, List.forall_mem_singleton]
        exact ⟨hlast, hne.symm⟩
      · exact .inr ⟨hx, hvs, hne.symm⟩
    · rintro (⟨before, after, hsplit, hlast⟩ | ⟨hx, hvs, hne⟩)
      · -- the record is the new one, or comes before it
        rcases List.eq_nil_or_concat after with rfl | ⟨init, last, rfl⟩
        · exact .inl (List.append_inj_right' hsplit rfl |> List.singleton_inj.mp).symm
        · have hsplit' : vs ++ [v] = (before ++ x :: init) ++ [last] := by simpa using hsplit
          obtain ⟨rfl, hv⟩ := List.append_inj' hsplit' rfl
          rw [List.singleton_inj.mp hv]
          rw [List.concat_eq_append, List.forall_mem_append, List.forall_mem_singleton] at hlast
          exact .inr ⟨.inl ⟨before, init, rfl, hlast.1⟩, hlast.2.symm⟩
      · exact .inr ⟨.inr ⟨hx, hvs⟩, hne.symm⟩

/-! ### Reading -/

/-- The record with a key. -/
def get? (s : KeyedStore key) (k : κ) : Option ν := s.records.find? fun x => key x = k

/-- The records with keys from `lo` to `hi`, in key order. -/
def between (s : KeyedStore key) (lo hi : κ) : List ν :=
  s.records.filter fun x => lo ≤ key x ∧ key x ≤ hi

theorem get?_eq_some {s : KeyedStore key} {k : κ} {x : ν} :
    s.get? k = some x ↔ x ∈ s ∧ key x = k := by
  constructor
  · intro h
    exact ⟨List.mem_of_find?_eq_some h, by simpa using List.find?_some h⟩
  · rintro ⟨hx, rfl⟩
    rcases h : s.get? (key x) with _ | y
    · exact absurd hx fun hx => by simpa using List.find?_eq_none.mp h x hx
    · have hy : y ∈ s := List.mem_of_find?_eq_some h
      rw [key_inj hy hx (by simpa using List.find?_some h)]

theorem get?_eq_none {s : KeyedStore key} {k : κ} : s.get? k = none ↔ ∀ x ∈ s, key x ≠ k := by
  rw [get?, List.find?_eq_none]
  exact forall₂_congr fun x _ => by simp

@[simp] theorem mem_between {s : KeyedStore key} {lo hi : κ} {x : ν} :
    x ∈ s.between lo hi ↔ x ∈ s ∧ lo ≤ key x ∧ key x ≤ hi := by
  simp [between, mem_def]

theorem between_sorted (s : KeyedStore key) (lo hi : κ) :
    (s.between lo hi).Pairwise fun a b => key a < key b := s.sorted.filter _

end KeyedStore
