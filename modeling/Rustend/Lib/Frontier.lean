import Mathlib.Data.Fintype.Card
import Mathlib.Data.Set.Finite.Basic
import Mathlib.Logic.Relation
import Mathlib.Order.RelClasses

/-!
# The frontier of a version graph

A version graph is a relation `parent x y`, read "`y` declares `x` as a parent".
The frontier of a set of versions consists of those that no version of the set
declares as a parent.  It is determined by the set, so a store that maintains it
incrementally cannot depend on the order in which versions arrive.

## Main definitions

* `frontier parent S` — the members of `S` without a child in `S`.
* `ParentClosed parent K` — `K` contains the parents of its
  members.

## Main results

* `frontier_union` — adding versions that are nobody's parent yet retires exactly
  the parents they declare.
* `exists_frontier_above` — in a finite acyclic graph every version has a
  frontier version above it.
* `ParentClosed.of_reflTransGen` — what lies below a member of a parent-closed part is
  in it.
-/

namespace Dag

open Relation

variable {α : Type*} {parent q : α → α → Prop} {S B K : Set α}

/-- The members of `S` that no member of `S` declares as a parent. -/
def frontier (parent : α → α → Prop) (S : Set α) : Set α := {x | x ∈ S ∧ ∀ y ∈ S, ¬ parent x y}

/-- Only the relation within the set matters. -/
theorem frontier_congr (h : ∀ x ∈ S, ∀ y ∈ S, parent x y ↔ q x y) :
    frontier parent S = frontier q S := by
  ext x
  constructor
  · rintro ⟨hx, hn⟩
    exact ⟨hx, fun y hy hp => hn y hy ((h x hx y hy).mpr hp)⟩
  · rintro ⟨hx, hn⟩
    exact ⟨hx, fun y hy hp => hn y hy ((h x hx y hy).mp hp)⟩

/-- **Adding versions to a graph.**  When no version of `S` declares one of `B` as
a parent, adding `B` retires exactly what the members of `B` declare. -/
theorem frontier_union (h : ∀ b ∈ B, ∀ s ∈ S, ¬ parent b s) :
    frontier parent (S ∪ B) =
      {x | x ∈ frontier parent S ∪ B ∧ ∀ b ∈ B, ¬ parent x b} := by
  ext x
  constructor
  · rintro ⟨hx | hx, hn⟩
    · exact ⟨.inl ⟨hx, fun y hy => hn y (.inl hy)⟩, fun b hb => hn b (.inr hb)⟩
    · exact ⟨.inr hx, fun b hb => hn b (.inr hb)⟩
  · rintro ⟨⟨hx, hn⟩ | hx, hb⟩
    · refine ⟨.inl hx, ?_⟩
      rintro y (hy | hy)
      · exact hn y hy
      · exact hb y hy
    · refine ⟨.inr hx, ?_⟩
      rintro y (hy | hy)
      · exact h x hx y hy
      · exact hb y hy

/-- A relation all of whose elements are accessible has no cycle. -/
theorem not_transGen_self (h : ∀ x, Acc parent x) (x : α) : ¬ TransGen parent x x :=
  fun hx => (WellFounded.transGen ⟨h⟩).asymmetric x x hx hx

/-- **Every version of a finite acyclic graph has a frontier version above it.** -/
theorem exists_frontier_above (hS : S.Finite) (hacyc : ∀ x, ¬ TransGen parent x x) {x : α}
    (hx : x ∈ S) : ∃ h ∈ frontier parent S, ReflTransGen parent x h := by
  -- the finite set is well founded upwards, and the induction climbs it
  have hwf : WellFounded fun a b : S => TransGen parent b.1 a.1 := by
    have := hS.to_subtype
    have : IsTrans S fun a b : S => TransGen parent b.1 a.1 := ⟨fun a b c hab hbc => hbc.trans hab⟩
    have : Std.Irrefl fun a b : S => TransGen parent b.1 a.1 := ⟨fun a => hacyc a.1⟩
    exact Finite.wellFounded_of_trans_of_irrefl _
  have key : ∀ a : S, ∃ h ∈ frontier parent S, ReflTransGen parent a.1 h := by
    intro a
    induction a using hwf.induction with
    | _ a ih =>
      by_cases ha : ∀ y ∈ S, ¬ parent a.1 y
      · exact ⟨a.1, ⟨a.2, ha⟩, .refl⟩
      · push Not at ha
        obtain ⟨y, hy, hay⟩ := ha
        obtain ⟨h, hh, hyh⟩ := ih ⟨y, hy⟩ (.single hay)
        exact ⟨h, hh, .head hay hyh⟩
  exact key ⟨x, hx⟩

/-- `K` contains the parents of its members. -/
def ParentClosed (parent : α → α → Prop) (K : Set α) : Prop :=
  ∀ x y, y ∈ K → parent x y → x ∈ K

/-- What lies below a member of a parent-closed part is in it. -/
theorem ParentClosed.of_reflTransGen (hK : ParentClosed parent K) {x y : α}
    (h : ReflTransGen parent x y) (hy : y ∈ K) : x ∈ K := by
  induction h using ReflTransGen.head_induction_on with
  | refl => exact hy
  | head hab _ ih => exact hK _ _ ih hab

end Dag
