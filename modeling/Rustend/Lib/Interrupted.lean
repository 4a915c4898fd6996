import Rustend.Lib.Program
import Mathlib.Data.Nat.Notation

/-!
# Programs that do not get to their end

A program that runs alone can be cut short: its process dies after some number of
requests, or a request fails and the program stops with the error.  For a program
that gives up at the first error the two leave the same state behind, so what holds
of every state on the way holds wherever it is cut.

## Main definitions

* `Program.stateAfter` — the state after a number of requests.
* `Program.runFailing` — a run in which one request fails.
* `Program.Throughout` — what holds in every state on the way.
* `Program.StopsOnError` — no request is issued after one that failed.

## Main results

* `Program.Throughout.settle`, `Program.Throughout.bind` — **the rules for sequences.**
* `Program.StopsOnError.runFailing_state` — **failing is stopping.**
-/

namespace Interleave

namespace Program

variable {S : Signature} {ε α β δ σ : Type}

section Answer

variable (answer : (op : S.Op) → σ → Except ε (S.Res op) × σ)

/-- The state after `n` requests, or after the last one if there are fewer. -/
def stateAfter : ℕ → Program S ε α → σ → σ
  | _, .done _, s => s
  | 0, .call _ _, s => s
  | n + 1, .call op next, s => (next (answer op s).1).stateAfter n (answer op s).2

/-- A run in which the request number `n` fails with the error `e`, and does nothing. -/
def runFailing (e : ε) : ℕ → Program S ε α → σ → Except ε α × σ
  | _, .done r, s => (r, s)
  | 0, .call _ next, s => (next (.error e)).run answer s
  | n + 1, .call op next, s => (next (answer op s).1).runFailing e n (answer op s).2

/-- The request number `n` of a run. -/
def requestAt : ℕ → Program S ε α → σ → Option S.Op
  | _, .done _, _ => none
  | 0, .call op _, _ => some op
  | n + 1, .call op next, s => (next (answer op s).1).requestAt n (answer op s).2

/-- Every state that the run goes through is in `I`. -/
def Throughout (I : σ → Prop) (p : Program S ε α) (s : σ) : Prop := ∀ n, I (p.stateAfter answer n s)

end Answer

section Rules

variable {answer : (op : S.Op) → σ → Except ε (S.Res op) × σ} {I J : σ → Prop}

@[simp] theorem stateAfter_done (n : ℕ) (r : Except ε α) (s : σ) :
    (done r : Program S ε α).stateAfter answer n s = s := by
  cases n <;> rfl

@[simp] theorem stateAfter_zero (p : Program S ε α) (s : σ) : p.stateAfter answer 0 s = s := by
  cases p <;> rfl

@[simp] theorem stateAfter_call (n : ℕ) (op : S.Op) (next : Except ε (S.Res op) → Program S ε α)
    (s : σ) : (call op next).stateAfter answer (n + 1) s =
      (next (answer op s).1).stateAfter answer n (answer op s).2 := rfl

@[simp] theorem runFailing_done (e : ε) (n : ℕ) (r : Except ε α) (s : σ) :
    (done r : Program S ε α).runFailing answer e n s = (r, s) := by
  cases n <;> rfl

theorem Throughout.start {p : Program S ε α} {s : σ} (h : Throughout answer I p s) : I s := by
  have h0 := h 0
  rwa [stateAfter_zero] at h0

theorem Throughout.done {r : Except ε α} {s : σ} (h : I s) :
    Throughout answer I (.done r : Program S ε α) s := by
  intro n
  rw [stateAfter_done]
  exact h

theorem Throughout.call {op : S.Op} {next : Except ε (S.Res op) → Program S ε α} {s : σ} (h : I s)
    (hnext : Throughout answer I (next (answer op s).1) (answer op s).2) :
    Throughout answer I (.call op next) s := by
  intro n
  cases n with
  | zero => exact h
  | succ n => exact hnext n

/-- **The rule for going on** with however the first part ends. -/
theorem Throughout.settle {f : Except ε α → Program S ε β} {p : Program S ε α} {s : σ}
    (h : Throughout answer I p s)
    (hf : Throughout answer I (f (p.run answer s).1) (p.run answer s).2) :
    Throughout answer I (p.settle f) s := by
  induction p generalizing s with
  | done r => exact hf
  | call op next ih =>
    apply Throughout.call h.start
    apply ih
    · exact fun n => h (n + 1)
    · exact hf

/-- **The rule for sequences** whose first part succeeds. -/
theorem Throughout.bind {f : α → Program S ε β} {p : Program S ε α} {s s' : σ} {a : α}
    (h : Throughout answer I p s) (hrun : p.run answer s = (.ok a, s'))
    (hf : Throughout answer I (f a) s') : Throughout answer I (p >>= f) s := by
  rw [bind_eq]
  apply h.settle
  rw [hrun]
  exact hf

end Rules

/-! ### Stopping at the first error -/

/-- Once a request has failed, the program ends with an error. -/
def StopsOnError : Program S ε α → Prop
  | .done _ => True
  | .call _ next => (∀ e, ∃ e', next (.error e) = fail e') ∧ ∀ a, (next (.ok a)).StopsOnError

namespace StopsOnError

theorem pure (a : α) : (Pure.pure a : Program S ε α).StopsOnError := trivial

theorem fail (e : ε) : (Program.fail e : Program S ε α).StopsOnError := trivial

theorem perform (op : S.Op) : (Program.perform op : Program S ε (S.Res op)).StopsOnError :=
  ⟨fun e => ⟨e, rfl⟩, fun _ => trivial⟩

theorem bind {p : Program S ε α} {f : α → Program S ε β} (hp : p.StopsOnError)
    (hf : ∀ a, (f a).StopsOnError) : (p >>= f).StopsOnError := by
  rw [bind_eq]
  induction p with
  | done r =>
    cases r with
    | ok a => exact hf a
    | error e => trivial
  | call op next ih =>
    obtain ⟨herr, hok⟩ := hp
    refine ⟨fun e => ?_, fun a => ih _ (hok a)⟩
    obtain ⟨e', he⟩ := herr e
    refine ⟨e', ?_⟩
    dsimp only
    rw [he]
    rfl

theorem forEach {body : δ → Program S ε Unit} (h : ∀ x, (body x).StopsOnError) :
    ∀ xs : List δ, (Program.forEach body xs).StopsOnError
  | [] => trivial
  | x :: xs => (h x).bind fun _ => forEach h xs

variable {answer : (op : S.Op) → σ → Except ε (S.Res op) × σ}

/-- **Failing is stopping**: the request that fails is as good as never issued. -/
theorem runFailing_state {p : Program S ε α} (h : p.StopsOnError) (e : ε) (n : ℕ) (s : σ) :
    (p.runFailing answer e n s).2 = p.stateAfter answer n s := by
  induction p generalizing n s with
  | done r => rw [runFailing_done, stateAfter_done]
  | call op next ih =>
    cases n with
    | zero =>
      obtain ⟨e', he⟩ := h.1 e
      rw [runFailing, he]
      rfl
    | succ n =>
      rw [runFailing, stateAfter_call]
      cases ha : (answer op s).1 with
      | ok a => exact ih _ (h.2 a) n _
      | error e₁ =>
        -- the request has failed anyway
        obtain ⟨e', he⟩ := h.1 e₁
        rw [he, Program.fail, runFailing_done, stateAfter_done]

end StopsOnError

end Program

end Interleave
