import Rustend.Server.Pull

/-!
# The comparison operators of a filter

`Eq` and `Ne` compare values by their structure, the ordering operators compare two numbers by
the doubles that they are converted to.  Two integers may have one double; they are then neither
equal, nor is one of them the lesser.

## Main definitions

* `OneOrder` — the operators at a path agree with one order.
* `Distinguished` — two values that the conversion to doubles keeps apart.

## Main results

* `oneOrder_iff` — **when the operators agree**, for two numbers or two strings.
* `Distinguished.of_small` — integers up to 2^53 are kept apart.
-/

namespace Rustend

/-- The operator holds of the value at the path. -/
abbrev HoldsAt (data : Json) (path : String) (op : FilterOperator) : Prop :=
  evaluateCondition data ⟨path, op⟩ = true

/-- The operators at a path make one order: exactly one of `Lt`, `Eq` and `Gt` holds, and `Gte`
and `Lte` are what their names say. -/
structure OneOrder (data : Json) (path : String) (v : Json) : Prop where
  one : HoldsAt data path (.lt v) ∨ HoldsAt data path (.eq v) ∨ HoldsAt data path (.gt v)
  lt_eq : ¬ (HoldsAt data path (.lt v) ∧ HoldsAt data path (.eq v))
  lt_gt : ¬ (HoldsAt data path (.lt v) ∧ HoldsAt data path (.gt v))
  eq_gt : ¬ (HoldsAt data path (.eq v) ∧ HoldsAt data path (.gt v))
  gte : HoldsAt data path (.gte v) ↔ HoldsAt data path (.gt v) ∨ HoldsAt data path (.eq v)
  lte : HoldsAt data path (.lte v) ↔ HoldsAt data path (.lt v) ∨ HoldsAt data path (.eq v)

/-- Two numbers, or two strings. -/
def Comparable : Json → Json → Prop
  | .number _, .number _ => True
  | .string _, .string _ => True
  | _, _ => False

/-- Values that are the same, or that comparing them tells apart. -/
def Distinguished : Json → Json → Prop
  | .number m, .number n => m = n ∨ m.asF64 ≠ n.asF64
  | _, _ => True

section Operators

variable {data d v : Json} {path : String}

/-- **The operators, by what the path leads to.** -/
theorem holds_iff (hd : resolvePath data path = some d) {o : ℤ} (ho : compare d v = some o) :
    (HoldsAt data path (.lt v) ↔ o < 0) ∧ (HoldsAt data path (.eq v) ↔ d = v) ∧
      (HoldsAt data path (.gt v) ↔ 0 < o) ∧ (HoldsAt data path (.gte v) ↔ 0 ≤ o) ∧
      (HoldsAt data path (.lte v) ↔ o ≤ 0) := by
  simp [HoldsAt, evaluateCondition, hd, ho]

/-- The outcome of comparing two elements of an order. -/
theorem sign_cases {α : Type} [LE α] [LT α] [DecidableEq α] [DecidableLT α] [Std.IsLinearOrder α]
    [Std.LawfulOrderLT α] (x y : α) :
    ∃ o : ℤ, (if x < y then (-1 : ℤ) else if x = y then 0 else 1) = o ∧ (o < 0 ↔ x < y) ∧
      (o = 0 ↔ x = y) ∧ (0 < o ↔ y < x) := by
  refine ⟨_, rfl, ?_⟩
  rcases Std.lt_trichotomy x y with hlt | rfl | hgt
  · have hne : x ≠ y := Std.ne_of_lt hlt
    have hnot : ¬ y < x := fun h => Std.lt_irrefl (Std.lt_trans hlt h)
    simp [hlt, hne, hnot]
  · have hnot : ¬ x < x := Std.lt_irrefl
    simp [hnot]
  · have hne : x ≠ y := (Std.ne_of_lt hgt).symm
    have hnot : ¬ x < y := fun h => Std.lt_irrefl (Std.lt_trans hgt h)
    simp [hgt, hne, hnot]

/-- Comparing tells the values apart just when they are the same or it does not find them
equal. -/
theorem oneOrder_of_compare (hd : resolvePath data path = some d) {o : ℤ}
    (ho : compare d v = some o) (hsame : d = v → o = 0) :
    OneOrder data path v ↔ (o = 0 → d = v) := by
  obtain ⟨hlt, heq, hgt, hgte, hlte⟩ := holds_iff hd ho
  constructor
  · intro h hzero
    rcases h.one with hcase | hcase | hcase
    · rw [hlt] at hcase
      omega
    · exact heq.mp hcase
    · rw [hgt] at hcase
      omega
  · intro h
    have hiff : d = v ↔ o = 0 := ⟨hsame, h⟩
    refine ⟨?_, ?_, ?_, ?_, ?_, ?_⟩
    · rw [hlt, heq, hgt, hiff]
      omega
    · rw [hlt, heq, hiff]
      omega
    · rw [hlt, hgt]
      omega
    · rw [heq, hgt, hiff]
      omega
    · rw [hgte, hgt, heq, hiff]
      omega
    · rw [hlte, hlt, heq, hiff]
      omega

/-- **When the operators agree with one order**: at every path that leads to a value, for two
numbers or two strings, just when the values are the same or are told apart. -/
theorem oneOrder_iff (hd : resolvePath data path = some d) (hkind : Comparable d v) :
    OneOrder data path v ↔ Distinguished d v := by
  cases d with
  | number m =>
    cases v with
    | number n =>
      obtain ⟨o, ho, -, hzero, -⟩ := sign_cases m.asF64 n.asF64
      have hcompare : compare (.number m) (.number n) = some o := congrArg some ho
      rw [oneOrder_of_compare hd hcompare fun heq => hzero.mpr (by rw [Json.number.inj heq]),
        hzero, Json.number.injEq, Distinguished, or_comm, ne_eq, ← imp_iff_not_or]
    | _ => exact hkind.elim
  | string x =>
    cases v with
    | string y =>
      obtain ⟨o, ho, -, hzero, -⟩ := sign_cases x y
      have hcompare : compare (.string x) (.string y) = some o := congrArg some ho
      rw [oneOrder_of_compare hd hcompare fun heq => hzero.mpr (Json.string.inj heq),
        hzero, Json.string.injEq]
      exact iff_of_true id trivial
    | _ => exact hkind.elim
  | _ => exact hkind.elim

end Operators

/-! ### Integers that are kept apart -/

theorem roundNat_of_le {n : ℕ} (h : n ≤ 2 ^ 53) : roundNat n = n := by
  rcases h.lt_or_eq with hlt | rfl
  · rw [roundNat, if_pos hlt]
  · decide

/-- The integer that a number stands for; serde_json keeps the negative ones apart. -/
def Number.IsInt : Number → ℤ → Prop
  | .posInt n, k => k = n.toNat
  | .negInt n, k => n.toInt < 0 ∧ k = n.toInt
  | .float _, _ => False

theorem Number.IsInt.inj {m n : Number} {k : ℤ} (hm : m.IsInt k) (hn : n.IsInt k) : m = n := by
  cases m with
  | float x => exact hm.elim
  | posInt a =>
    cases n with
    | float x => exact hn.elim
    | posInt b =>
      have hab : (a.toNat : ℤ) = b.toNat := hm.symm.trans hn
      exact congrArg _ (UInt64.toNat_inj.mp (by omega))
    | negInt b =>
      have hlt := hn.1
      have hab : (a.toNat : ℤ) = b.toInt := hm.symm.trans hn.2
      omega
  | negInt a =>
    cases n with
    | float x => exact hn.elim
    | posInt b =>
      have hlt := hm.1
      have hab : (a.toInt : ℤ) = b.toNat := hm.2.symm.trans hn
      omega
    | negInt b => exact congrArg _ (Int64.toInt_inj.mp (hm.2.symm.trans hn.2))

/-- An integer up to 2^53 is its own double. -/
theorem Number.IsInt.asF64 {m : Number} {k : ℤ} (hm : m.IsInt k) (hk : k.natAbs ≤ 2 ^ 53) :
    m.asF64 = k := by
  cases m with
  | float x => exact hm.elim
  | posInt a =>
    obtain rfl : k = a.toNat := hm
    rw [Int.natAbs_natCast] at hk
    rw [Number.asF64, roundNat_of_le hk, Rat.intCast_natCast]
  | negInt a =>
    obtain ⟨hneg, rfl⟩ := hm
    rw [Number.asF64, if_pos hneg, roundNat_of_le hk, ← Rat.intCast_natCast, ← Rat.intCast_neg]
    congr 1
    omega

/-- **Integers up to 2^53 are kept apart**, whichever of the two kinds they are. -/
theorem Distinguished.of_small {m n : Number} {j k : ℤ} (hm : m.IsInt j) (hn : n.IsInt k)
    (hj : j.natAbs ≤ 2 ^ 53) (hk : k.natAbs ≤ 2 ^ 53) :
    Distinguished (.number m) (.number n) := by
  by_cases hjk : j = k
  · exact .inl (hm.inj (hjk ▸ hn))
  · right
    rw [hm.asF64 hj, hn.asF64 hk]
    exact fun heq => hjk (Rat.intCast_inj.mp heq)

/-- The operators on the year 2025, at the path `$.n`. -/
theorem oneOrder_small : OneOrder (.object [("n", .number (.posInt 2025))]) "$.n"
    (.number (.negInt (-1))) := by
  have hd : resolvePath (.object [("n", .number (.posInt 2025))]) "$.n" =
      some (.number (.posInt 2025)) := by decide +kernel
  have hkind : Comparable (.number (.posInt 2025)) (.number (.negInt (-1))) := trivial
  have happart : (Number.posInt 2025).asF64 ≠ (Number.negInt (-1)).asF64 := by decide +kernel
  exact (oneOrder_iff hd hkind).mpr (.inr happart)

/-- A payload with the integer 2^53 under the key `n`. -/
def widePayload : Json := .object [("n", .number (.posInt 9007199254740992))]

/-- **Two integers that are neither equal nor ordered**: 2^53 and 2^53 + 1 have one double. -/
theorem not_oneOrder_wide :
    resolvePath widePayload "$.n" = some (.number (.posInt 9007199254740992)) ∧
      ¬ OneOrder widePayload "$.n" (.number (.posInt 9007199254740993)) := by
  refine ⟨by decide +kernel, fun h => ?_⟩
  have hnone : ¬ (HoldsAt widePayload "$.n" (.lt (.number (.posInt 9007199254740993))) ∨
      HoldsAt widePayload "$.n" (.eq (.number (.posInt 9007199254740993))) ∨
      HoldsAt widePayload "$.n" (.gt (.number (.posInt 9007199254740993)))) := by decide +kernel
  exact hnone h.one

end Rustend
