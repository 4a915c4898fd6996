import Mathlib.Order.Defs.LinearOrder
import Mathlib.Order.Compare
import Mathlib.Order.Lattice

/-!
# Keys made of arrays

A key is an atom or an array of keys.  Atoms come before arrays, and arrays compare element by
element, a prefix first.  A range of keys has two ends, each of them open or closed.

Where keys are pairs, a range whose ends agree in the first component contains only pairs with
that component.

## Main definitions

* `NestedKey`, with its linear order.
* `KeyRange`, `KeyRange.Contains`, `KeyRange.only`.

## Main results

* `NestedKey.pair_lt_iff`, `NestedKey.pair_le_iff` — pairs compare by their components.
* `KeyRange.contains_pair_iff` — **a range of pairs with one first component.**
-/

universe u v

/-- An atom, or an array of keys. -/
inductive NestedKey (α : Type u) where
  | atom (a : α)
  | array (ks : List (NestedKey α))

namespace NestedKey

variable {α : Type u} [LinearOrder α]

mutual

/-- Compare two keys. -/
def cmp : NestedKey α → NestedKey α → Ordering
  | .atom a, .atom b => compare a b
  | .atom _, .array _ => .lt
  | .array _, .atom _ => .gt
  | .array xs, .array ys => cmpList xs ys

/-- Compare two arrays, element by element. -/
def cmpList : List (NestedKey α) → List (NestedKey α) → Ordering
  | [], [] => .eq
  | [], _ :: _ => .lt
  | _ :: _, [] => .gt
  | x :: xs, y :: ys => (cmp x y).then (cmpList xs ys)

end

mutual

theorem cmp_eq_iff : ∀ a b : NestedKey α, cmp a b = .eq ↔ a = b
  | .atom a, .atom b => by rw [cmp, compare_eq_iff_eq, atom.injEq]
  | .atom _, .array _ => by simp [cmp]
  | .array _, .atom _ => by simp [cmp]
  | .array xs, .array ys => by rw [cmp, cmpList_eq_iff xs ys, array.injEq]

theorem cmpList_eq_iff : ∀ xs ys : List (NestedKey α), cmpList xs ys = .eq ↔ xs = ys
  | [], [] => by simp [cmpList]
  | [], _ :: _ => by simp [cmpList]
  | _ :: _, [] => by simp [cmpList]
  | x :: xs, y :: ys => by
    rw [cmpList, Ordering.then_eq_eq, cmp_eq_iff x y, cmpList_eq_iff xs ys, List.cons.injEq]

end

mutual

theorem cmp_swap : ∀ a b : NestedKey α, (cmp a b).swap = cmp b a
  | .atom a, .atom b => by rw [cmp, cmp, Std.OrientedOrd.eq_swap, Ordering.swap_swap]
  | .atom _, .array _ => rfl
  | .array _, .atom _ => rfl
  | .array xs, .array ys => by rw [cmp, cmp, cmpList_swap xs ys]

theorem cmpList_swap : ∀ xs ys : List (NestedKey α), (cmpList xs ys).swap = cmpList ys xs
  | [], [] => rfl
  | [], _ :: _ => rfl
  | _ :: _, [] => rfl
  | x :: xs, y :: ys => by
    rw [cmpList, cmpList, Ordering.swap_then, cmp_swap x y, cmpList_swap xs ys]

end

mutual

theorem cmp_lt_trans : ∀ a b c : NestedKey α, cmp a b = .lt → cmp b c = .lt → cmp a c = .lt
  | .atom a, .atom b, .atom c => by
    simp only [cmp, compare_lt_iff_lt]
    exact lt_trans
  | .atom _, .atom _, .array _ => fun _ _ => rfl
  | .atom _, .array _, .atom _ => fun _ h => nomatch h
  | .atom _, .array _, .array _ => fun _ _ => rfl
  | .array _, .atom _, _ => fun h => nomatch h
  | .array _, .array _, .atom _ => fun _ h => nomatch h
  | .array xs, .array ys, .array zs => by
    simp only [cmp]
    exact cmpList_lt_trans xs ys zs

theorem cmpList_lt_trans : ∀ xs ys zs : List (NestedKey α), cmpList xs ys = .lt →
    cmpList ys zs = .lt → cmpList xs zs = .lt
  | [], [], _ => fun h => nomatch h
  | [], _ :: _, [] => fun _ h => nomatch h
  | [], _ :: _, _ :: _ => fun _ _ => rfl
  | _ :: _, [], _ => fun h => nomatch h
  | _ :: _, _ :: _, [] => fun _ h => nomatch h
  | x :: xs, y :: ys, z :: zs => by
    simp only [cmpList, Ordering.then_eq_lt, cmp_eq_iff]
    rintro (hxy | ⟨rfl, hxs⟩) (hyz | ⟨rfl, hys⟩)
    · exact .inl (cmp_lt_trans x y z hxy hyz)
    · exact .inl hxy
    · exact .inl hyz
    · exact .inr ⟨rfl, cmpList_lt_trans xs ys zs hxs hys⟩

end

instance : DecidableEq (NestedKey α) := fun a b => decidable_of_iff _ (cmp_eq_iff a b)

instance : LinearOrder (NestedKey α) where
  le a b := cmp a b ≠ .gt
  lt a b := cmp a b = .lt
  le_refl a := by
    rw [(cmp_eq_iff a a).mpr rfl]
    decide
  le_trans a b c hab hbc := by
    rcases hcmp : cmp a b with _ | _ | _
    · rcases hcmp' : cmp b c with _ | _ | _
      · rw [cmp_lt_trans a b c hcmp hcmp']
        decide
      · rwa [← (cmp_eq_iff b c).mp hcmp']
      · exact absurd hcmp' hbc
    · rwa [(cmp_eq_iff a b).mp hcmp]
    · exact absurd hcmp hab
  lt_iff_le_not_ge a b := by
    rw [← cmp_swap a b]
    cases cmp a b <;> decide
  le_antisymm a b hab hba := by
    rw [← cmp_swap a b] at hba
    rw [← cmp_eq_iff]
    cases hcmp : cmp a b with
    | lt => exact absurd (hcmp ▸ rfl) hba
    | eq => rfl
    | gt => exact absurd hcmp hab
  le_total a b := by
    rw [← cmp_swap a b]
    cases cmp a b <;> decide
  toDecidableLE a b := inferInstanceAs (Decidable (cmp a b ≠ .gt))
  toDecidableLT a b := inferInstanceAs (Decidable (cmp a b = .lt))
  toDecidableEq := inferInstance

theorem lt_def {a b : NestedKey α} : a < b ↔ cmp a b = .lt := Iff.rfl

@[simp] theorem atom_lt_atom {a b : α} : (atom a : NestedKey α) < atom b ↔ a < b := by
  rw [lt_def, cmp, compare_lt_iff_lt]

/-- The array of two keys. -/
abbrev pair (t x : NestedKey α) : NestedKey α := array [t, x]

variable {t u x y : NestedKey α}

theorem pair_lt_iff : pair t x < pair u y ↔ t < u ∨ t = u ∧ x < y := by
  simp only [pair, lt_def, cmp, cmpList, Ordering.then_eq_lt, cmp_eq_iff]
  simp

theorem pair_le_iff : pair t x ≤ pair u y ↔ t < u ∨ t = u ∧ x ≤ y := by
  rw [le_iff_lt_or_eq, pair_lt_iff, le_iff_lt_or_eq, pair, pair, array.injEq, List.cons.injEq,
    List.cons.injEq, or_assoc, eq_self, and_true, ← and_or_left]

end NestedKey

/-! ### Ranges -/

/-- A range of keys, each end open or closed. -/
structure KeyRange (κ : Type v) where
  lower : κ
  upper : κ
  lowerOpen : Bool
  upperOpen : Bool

namespace KeyRange

variable {κ : Type v} [LinearOrder κ]

/-- A key lies in a range. -/
def Contains (range : KeyRange κ) (k : κ) : Prop :=
  (if range.lowerOpen then range.lower < k else range.lower ≤ k) ∧
    if range.upperOpen then k < range.upper else k ≤ range.upper

instance (range : KeyRange κ) (k : κ) : Decidable (range.Contains k) :=
  inferInstanceAs (Decidable (_ ∧ _))

/-- The range of one key. -/
def only (k : κ) : KeyRange κ := ⟨k, k, false, false⟩

theorem contains_only_iff {k x : κ} : (only k).Contains x ↔ x = k := by
  simp only [Contains, only, Bool.false_eq_true, if_false]
  rw [and_comm, ← le_antisymm_iff]

variable {α : Type u} [LinearOrder α]

/-- The pairs with one first component, and the second in a range. -/
def pairs (t : NestedKey α) (range : KeyRange (NestedKey α)) : KeyRange (NestedKey α) :=
  ⟨.pair t range.lower, .pair t range.upper, range.lowerOpen, range.upperOpen⟩

/-- **A range of pairs with one first component** contains only pairs with that component, and of
these the ones whose second component lies in the range of the second components. -/
theorem contains_pair_iff {t u x : NestedKey α} {range : KeyRange (NestedKey α)} :
    (pairs t range).Contains (.pair u x) ↔ u = t ∧ range.Contains x := by
  have hends : (if range.lowerOpen then NestedKey.pair t range.lower < .pair u x
        else NestedKey.pair t range.lower ≤ .pair u x) ↔
      t < u ∨ t = u ∧ if range.lowerOpen then range.lower < x else range.lower ≤ x := by
    split
    · exact NestedKey.pair_lt_iff
    · exact NestedKey.pair_le_iff
  have hends' : (if range.upperOpen then NestedKey.pair u x < .pair t range.upper
        else NestedKey.pair u x ≤ .pair t range.upper) ↔
      u < t ∨ u = t ∧ if range.upperOpen then x < range.upper else x ≤ range.upper := by
    split
    · exact NestedKey.pair_lt_iff
    · exact NestedKey.pair_le_iff
  unfold Contains pairs
  rw [hends, hends']
  constructor
  · rintro ⟨hlt | ⟨rfl, hlower⟩, hlt' | ⟨heq, hupper⟩⟩
    · exact absurd hlt' (lt_asymm hlt)
    · exact absurd hlt (heq ▸ lt_irrefl u)
    · exact absurd hlt' (lt_irrefl t)
    · exact ⟨rfl, hlower, hupper⟩
  · rintro ⟨rfl, hlower, hupper⟩
    exact ⟨.inr ⟨rfl, hlower⟩, .inr ⟨rfl, hupper⟩⟩

end KeyRange
