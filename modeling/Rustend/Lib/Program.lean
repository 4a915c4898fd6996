import Mathlib.Logic.Function.Basic

/-!
# Programs that issue requests

A program is a tree: it has finished, with a result or with an error, or it
issues one request and continues with the answer.  Nothing is said about what a
request does; that is the business of whoever runs the program, so one program
text can be run alone against a store, or interleaved with others.

Every request may fail.  A failed request hands the program an error, and the
program decides: `Program.perform` stops with that error, which is what an early
return does, and `Program.orElse` runs a clean-up first.

## Main definitions

* `Signature`, `Program` — the requests with their answer types, and the trees.
* `Program.settle` — continue with however a program ends; sequencing and clean-up
  are instances of it.
* `Program.run` — running a program alone, by a total answering function.

## Main results

* `Program.run_settle`, `Program.run_bind` — running a sequence is running the
  parts in order.
-/

namespace Interleave

/-- The requests a program can make, and the type of the answer to each. -/
structure Signature where
  /-- The requests. -/
  Op : Type
  /-- What a request answers. -/
  Res : Op → Type

/-- A program over the requests `S`, failing with errors from `ε` and returning
values from `α`. -/
inductive Program (S : Signature) (ε α : Type) : Type where
  /-- The program has finished. -/
  | done (r : Except ε α)
  /-- The program waits for the answer to a request. -/
  | call (op : S.Op) (next : Except ε (S.Res op) → Program S ε α)

namespace Program

variable {S : Signature} {ε α β σ : Type}

/-- Continue with however `p` ends, result or error. -/
def settle : Program S ε α → (Except ε α → Program S ε β) → Program S ε β
  | .done r, f => f r
  | .call op next, f => .call op fun r => (next r).settle f

@[simp] theorem settle_done (r : Except ε α) (f : Except ε α → Program S ε β) :
    (done r).settle f = f r := rfl

@[simp] theorem settle_call (op : S.Op) (next : Except ε (S.Res op) → Program S ε α)
    (f : Except ε α → Program S ε β) :
    (call op next).settle f = call op fun r => (next r).settle f := rfl

/-- Stop with an error. -/
def fail (e : ε) : Program S ε α := .done (.error e)

/-- What a sequence does after its first part has ended: an error stops it. -/
def onOk (f : α → Program S ε β) : Except ε α → Program S ε β
  | .ok a => f a
  | .error e => fail e

@[simp] theorem onOk_ok (f : α → Program S ε β) (a : α) : onOk f (.ok a) = f a := rfl

@[simp] theorem onOk_error (f : α → Program S ε β) (e : ε) : onOk f (.error e) = fail e := rfl

instance : Monad (Program S ε) where
  pure a := .done (.ok a)
  bind p f := p.settle (onOk f)

theorem bind_eq (p : Program S ε α) (f : α → Program S ε β) : p >>= f = p.settle (onOk f) := rfl

/-- Issue one request; a failed request ends the program with its error. -/
def perform (op : S.Op) : Program S ε (S.Res op) := .call op .done

/-- Run `p`; if it ends with an error, run `cleanup` and then stop with that
error, however the clean-up ends. -/
def orElse (p : Program S ε α) (cleanup : Program S ε Unit) : Program S ε α :=
  p.settle fun
    | .ok a => .done (.ok a)
    | .error e => cleanup.settle fun _ => fail e

/-- Run `body` on each element in order, stopping at the first error. -/
def forEach {δ : Type} (body : δ → Program S ε Unit) : List δ → Program S ε Unit
  | [] => pure ()
  | x :: xs => body x >>= fun _ => forEach body xs

theorem settle_settle {γ : Type} (p : Program S ε α) (f : Except ε α → Program S ε β)
    (g : Except ε β → Program S ε γ) :
    (p.settle f).settle g = p.settle fun r => (f r).settle g := by
  induction p with
  | done r => rfl
  | call op next ih => simp only [settle_call, ih]

theorem bind_assoc {γ : Type} (p : Program S ε α) (f : α → Program S ε β) (g : β → Program S ε γ) :
    p >>= f >>= g = p >>= fun a => f a >>= g := by
  rw [bind_eq, bind_eq, bind_eq, settle_settle]
  congr 1
  funext r
  cases r <;> rfl

theorem bind_pure (p : Program S ε α) : (p >>= fun a => pure a) = p := by
  rw [bind_eq]
  induction p with
  | done r => cases r <;> rfl
  | call op next ih => simp only [settle_call, ih]

/-! ### Running a program alone -/

/-- Run a program against a state, `answer` deciding what each request does. -/
def run (answer : (op : S.Op) → σ → Except ε (S.Res op) × σ) :
    Program S ε α → σ → Except ε α × σ
  | .done r, s => (r, s)
  | .call op next, s => (next (answer op s).1).run answer (answer op s).2

section Run

variable (answer : (op : S.Op) → σ → Except ε (S.Res op) × σ)

@[simp] theorem run_done (r : Except ε α) (s : σ) : (done r).run answer s = (r, s) := rfl

@[simp] theorem run_call (op : S.Op) (next : Except ε (S.Res op) → Program S ε α) (s : σ) :
    (call op next).run answer s = (next (answer op s).1).run answer (answer op s).2 := rfl

@[simp] theorem run_pure (a : α) (s : σ) :
    (pure a : Program S ε α).run answer s = (.ok a, s) := rfl

@[simp] theorem run_fail (e : ε) (s : σ) :
    (fail e : Program S ε α).run answer s = (.error e, s) := rfl

@[simp] theorem run_perform (op : S.Op) (s : σ) : (perform op).run answer s = answer op s := rfl

theorem run_settle (p : Program S ε α) (f : Except ε α → Program S ε β) (s : σ) :
    (p.settle f).run answer s = (f (p.run answer s).1).run answer (p.run answer s).2 := by
  induction p generalizing s with
  | done r => rfl
  | call op next ih => simp only [settle_call, run_call, ih]

/-- **Running a sequence** is running its first part and then, unless that
failed, the rest. -/
theorem run_bind (p : Program S ε α) (f : α → Program S ε β) (s : σ) :
    (p >>= f).run answer s =
      match p.run answer s with
      | (.ok a, s') => (f a).run answer s'
      | (.error e, s') => (.error e, s') := by
  rw [bind_eq, run_settle]
  rcases p.run answer s with ⟨_ | a, s'⟩ <;> rfl

theorem run_bind_ok {p : Program S ε α} {s s' : σ} {a : α} (f : α → Program S ε β)
    (h : p.run answer s = (.ok a, s')) :
    (p >>= f).run answer s = (f a).run answer s' := by rw [run_bind, h]

theorem run_bind_error {p : Program S ε α} {s s' : σ} {e : ε} (f : α → Program S ε β)
    (h : p.run answer s = (.error e, s')) :
    (p >>= f).run answer s = (.error e, s') := by rw [run_bind, h]

/-- A sequence that succeeds is made of parts that do. -/
theorem bind_run_ok {p : Program S ε α} {f : α → Program S ε β} {s s' : σ} {b : β}
    (h : (p >>= f).run answer s = (.ok b, s')) :
    ∃ a s₁, p.run answer s = (.ok a, s₁) ∧ (f a).run answer s₁ = (.ok b, s') := by
  rw [run_bind] at h
  rcases hp : p.run answer s with ⟨_ | a, s₁⟩
  · rw [hp] at h; simp at h
  · rw [hp] at h; exact ⟨a, s₁, rfl, h⟩

theorem run_orElse_ok {p : Program S ε α} {cleanup : Program S ε Unit} {s s' : σ} {a : α}
    (h : p.run answer s = (.ok a, s')) : (p.orElse cleanup).run answer s = (.ok a, s') := by
  rw [orElse, run_settle, h]; rfl

theorem run_orElse_error {p : Program S ε α} {cleanup : Program S ε Unit} {s s' : σ} {e : ε}
    (h : p.run answer s = (.error e, s')) :
    (p.orElse cleanup).run answer s = (.error e, (cleanup.run answer s').2) := by
  rw [orElse, run_settle, h]
  simp only [run_settle, run_fail]

end Run

end Program

end Interleave
