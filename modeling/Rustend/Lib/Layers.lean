import Rustend.Lib.Interleaving

/-!
# Programs in layers

A program over one kind of requests can be a part of a program that makes requests of
another kind as well.  And what a program returns can be known from what its requests may
answer, without looking at any state.

## Main definitions

* `Signature.sum`, `Program.inl` — two kinds of requests, and a program that makes only
  those of the first.
* `Program.Issues` — which requests a program can make.
* `Program.Returns` — what a program ends with, when its requests answer as expected.
* `Told` — what a session has been told, earlier in a run.

## Main results

* `Program.run_inl` — a part runs as it does by itself.
* `Program.run_related`, `Program.run_related_along` — **a program cannot tell related machines
  apart.**
* `Issues.bind`, `Returns.bind`, `Returns.forEach` — the rules for sequences and loops.
* `Reachable.issues` — sessions only make the requests that their programs can make.
* `Reachable.returns_told` — **a session ends as its program does on what it has been told.**
-/

namespace Interleave

variable {S T : Signature} {ε ι κ ρ α β δ σ τ : Type}

/-! ### Two kinds of requests -/

/-- The requests of two signatures together. -/
abbrev Signature.sum (S T : Signature) : Signature where
  Op := S.Op ⊕ T.Op
  Res := Sum.elim S.Res T.Res

namespace Program

/-- A program with only requests of the first kind. -/
def inl : Program S ε α → Program (S.sum T) ε α
  | .done r => .done r
  | .call op next => .call (S := S.sum T) (.inl op) fun r => (next r).inl

@[simp] theorem inl_done (r : Except ε α) : (done r : Program S ε α).inl (T := T) = .done r := rfl

@[simp] theorem inl_call (op : S.Op) (next : Except ε (S.Res op) → Program S ε α) :
    (call op next).inl (T := T) = .call (S := S.sum T) (.inl op) fun r => (next r).inl := rfl

/-- **A part runs as it does by itself**, if its requests are answered on a part of the
state as they are there. -/
theorem run_inl {answer : (op : (S.sum T).Op) → τ → Except ε ((S.sum T).Res op) × τ}
    {part : (op : S.Op) → σ → Except ε (S.Res op) × σ} (get : τ → σ) (set : τ → σ → τ)
    (hget : ∀ t s, get (set t s) = s) (hset : ∀ t s s', set (set t s) s' = set t s')
    (hself : ∀ t, set t (get t) = t)
    (h : ∀ op t, answer (.inl op) t = ((part op (get t)).1, set t (part op (get t)).2)) :
    ∀ (p : Program S ε α) (t : τ), (p.inl (T := T)).run answer t =
      ((p.run part (get t)).1, set t (p.run part (get t)).2) := by
  intro p
  induction p with
  | done r => intro t; simp [hself]
  | call op next ih =>
    intro t
    simp only [inl_call, run_call]
    rw [h, ih, hget, hset]

/-- Along the run from a state, each request is made in a state where `P` holds of it. -/
def Along (answer : (op : S.Op) → σ → Except ε (S.Res op) × σ) (P : S.Op → σ → Prop) :
    Program S ε α → σ → Prop
  | .done _, _ => True
  | .call op next, s => P op s ∧ Along answer P (next (answer op s).1) (answer op s).2

/-- A program cannot tell two machines apart along a run in which they give the same answers in
related states. -/
theorem run_related_along {answer : (op : S.Op) → σ → Except ε (S.Res op) × σ}
    {answer' : (op : S.Op) → τ → Except ε (S.Res op) × τ} {R : σ → τ → Prop}
    {P : S.Op → σ → Prop}
    (h : ∀ op s t, R s t → P op s → (answer' op t).1 = (answer op s).1 ∧
      R (answer op s).2 (answer' op t).2) :
    ∀ (p : Program S ε α) {s : σ} {t : τ}, Along answer P p s → R s t →
      (p.run answer' t).1 = (p.run answer s).1 ∧ R (p.run answer s).2 (p.run answer' t).2 := by
  intro p
  induction p with
  | done r => exact fun _ hR => ⟨rfl, hR⟩
  | call op next ih =>
    intro s t hP hR
    obtain ⟨hr, hR'⟩ := h op s t hR hP.1
    simp only [run_call]
    rw [hr]
    exact ih _ hP.2 hR'

theorem along_true {answer : (op : S.Op) → σ → Except ε (S.Res op) × σ} :
    ∀ (p : Program S ε α) (s : σ), Along answer (fun _ _ => True) p s := by
  intro p
  induction p with
  | done r => exact fun _ => trivial
  | call op next ih => exact fun s => ⟨trivial, ih _ _⟩

/-- **A program cannot tell two machines apart** that give the same answers in related
states. -/
theorem run_related {answer : (op : S.Op) → σ → Except ε (S.Res op) × σ}
    {answer' : (op : S.Op) → τ → Except ε (S.Res op) × τ} {R : σ → τ → Prop}
    (h : ∀ op s t, R s t → (answer' op t).1 = (answer op s).1 ∧
      R (answer op s).2 (answer' op t).2) (p : Program S ε α) {s : σ} {t : τ} (hR : R s t) :
    (p.run answer' t).1 = (p.run answer s).1 ∧ R (p.run answer s).2 (p.run answer' t).2 :=
  run_related_along (fun op s t hR _ => h op s t hR) p (along_true p s) hR

/-! ### What a program issues -/

/-- Whatever the program is answered, its requests are in `P`. -/
def Issues (P : S.Op → Prop) : Program S ε α → Prop
  | .done _ => True
  | .call op next => P op ∧ ∀ r, (next r).Issues P

namespace Issues

variable {P : S.Op → Prop}

theorem perform {op : S.Op} (h : P op) : (Program.perform op : Program S ε (S.Res op)).Issues P :=
  ⟨h, fun _ => trivial⟩

theorem settle {f : Except ε α → Program S ε β} (hf : ∀ r, (f r).Issues P) :
    ∀ {p : Program S ε α}, p.Issues P → (p.settle f).Issues P := by
  intro p
  induction p with
  | done r => exact fun _ => hf r
  | call op next ih => exact fun hp => ⟨hp.1, fun r => ih r (hp.2 r)⟩

theorem mono {P' : S.Op → Prop} (h : ∀ op, P op → P' op) :
    ∀ {p : Program S ε α}, p.Issues P → p.Issues P' := by
  intro p
  induction p with
  | done r => exact fun _ => trivial
  | call op next ih => exact fun hp => ⟨h op hp.1, fun r => ih r (hp.2 r)⟩

theorem of_forall (h : ∀ op, P op) : ∀ p : Program S ε α, p.Issues P := by
  intro p
  induction p with
  | done r => trivial
  | call op next ih => exact ⟨h op, ih⟩

/-- What the requests of a program keep, holds along its run. -/
theorem along {answer : (op : S.Op) → σ → Except ε (S.Res op) × σ} {I : σ → Prop}
    (h : ∀ op s, P op → I s → I (answer op s).2) :
    ∀ {p : Program S ε α} {s : σ}, p.Issues P → I s → Along answer (fun _ => I) p s := by
  intro p
  induction p with
  | done r => exact fun _ _ => trivial
  | call op next ih => exact fun hp hs => ⟨hs, ih _ (hp.2 _) (h op _ hp.1 hs)⟩

/-- **The rule for sequences.** -/
theorem bind {p : Program S ε α} {f : α → Program S ε β} (hp : p.Issues P)
    (hf : ∀ a, (f a).Issues P) : (p >>= f).Issues P := by
  refine settle (fun r => ?_) hp
  cases r with
  | ok a => exact hf a
  | error e => trivial

end Issues

/-! ### What a program returns -/

/-- If every request answers within `answers`, the program ends within `ends`. -/
def Returns (answers : (op : S.Op) → Except ε (S.Res op) → Prop) (ends : Except ε α → Prop) :
    Program S ε α → Prop
  | .done r => ends r
  | .call op next => ∀ r, answers op r → Returns answers ends (next r)

namespace Returns

variable {answers : (op : S.Op) → Except ε (S.Res op) → Prop} {ends ends' : Except ε α → Prop}

theorem mono (h : ∀ r, ends r → ends' r) :
    ∀ {p : Program S ε α}, p.Returns answers ends → p.Returns answers ends' := by
  intro p
  induction p with
  | done r => exact h r
  | call op next ih => exact fun hp r hr => ih r (hp r hr)

theorem perform {op : S.Op} :
    (Program.perform op : Program S ε (S.Res op)).Returns answers (answers op) := fun _ hr => hr

/-- **The rule for going on** with however the first part ends. -/
theorem settle {f : Except ε α → Program S ε β} {post : Except ε β → Prop}
    (hf : ∀ r, ends r → (f r).Returns answers post) :
    ∀ {p : Program S ε α}, p.Returns answers ends → (p.settle f).Returns answers post := by
  intro p
  induction p with
  | done r => exact hf r
  | call op next ih => exact fun hp r hr => ih r (hp r hr)

/-- **The rule for sequences.**  An error of the first part is the sequence's. -/
theorem bind {p : Program S ε α} {f : α → Program S ε β} {post : Except ε β → Prop}
    (hp : p.Returns answers ends) (hf : ∀ a, ends (.ok a) → (f a).Returns answers post)
    (he : ∀ e, ends (.error e) → post (.error e)) : (p >>= f).Returns answers post := by
  refine settle (fun r hr => ?_) hp
  cases r with
  | ok a => exact hf a hr
  | error e => exact he e hr

theorem forEach {body : δ → Program S ε Unit} {post : Except ε Unit → Prop}
    (hdone : post (.ok ())) (h : ∀ x, (body x).Returns answers post) :
    ∀ xs, (Program.forEach body xs).Returns answers post := by
  intro xs
  induction xs with
  | nil => exact hdone
  | cons x xs ih => exact (h x).bind (fun _ _ => ih) fun _ he => he

/-- A clean-up that runs on an error keeps the error. -/
theorem orElse {p : Program S ε α} {cleanup : Program S ε Unit} (hp : p.Returns answers ends)
    (hc : cleanup.Returns answers fun _ => True) : (p.orElse cleanup).Returns answers ends := by
  refine settle (fun r hr => ?_) hp
  cases r with
  | ok a => exact hr
  | error e =>
    refine settle (fun _ _ => ?_) hc
    exact hr

theorem inl {p : Program S ε α}
    {answers' : (op : (S.sum T).Op) → Except ε ((S.sum T).Res op) → Prop}
    (h : ∀ op r, answers' (.inl op) r → answers op r) (hp : p.Returns answers ends) :
    (p.inl (T := T)).Returns answers' ends := by
  induction p with
  | done r => exact hp
  | call op next ih => exact fun r hr => ih r (hp r (h op r hr))

end Returns

end Program

/-! ### Sessions -/

section Sessions

variable [DecidableEq ι] {M : Machine S ε ι κ σ} {launch : ρ → Program S ε β}
  {allowed : Config S ε ι ρ β σ → Label ι κ ρ → Prop} {s₀ : σ} {c c' : Config S ε ι ρ β σ}

/-- **Sessions only make the requests that their programs can make.** -/
theorem Reachable.issues {P : ρ → S.Op → Prop} (hlaunch : ∀ req, (launch req).Issues (P req))
    (hc : Reachable M launch allowed s₀ c) :
    ∀ i req p, c.procs i = some (req, p) → p.Issues (P req) := by
  induction hc with
  | init =>
    intro i req p hp
    cases hp
  | next _ _ hn ih =>
    intro i req p hp
    rcases Config.next_cases hn with ⟨j, req', -, -, -, hp'⟩ |
      ⟨j, ch, req', op, next, r, -, hj, -, hp'⟩ <;>
      rw [hp', Function.update_apply] at hp <;> split at hp
    · cases hp
      exact hlaunch req
    · exact ih i req p hp
    · cases hp
      exact (ih j req _ hj).2 r
    · exact ih i req p hp

variable (M launch allowed s₀) in
/-- In a run that has come to the configuration, session `i` has been told `r` in answer to its
request `op`, in the state `s`. -/
inductive Told (i : ι) (op : S.Op) (r : Except ε (S.Res op)) (s : σ) :
    Config S ε ι ρ β σ → Prop where
  | now {c c' : Config S ε ι ρ β σ} {ch : κ} {req : ρ}
      {next : Except ε (S.Res op) → Program S ε β} :
      Reachable M launch allowed s₀ c → c.procs i = some (req, .call op next) → c.shared = s →
      M.exec i ch op s = some (r, c'.shared) → c.next M launch (.step i ch) = some c' →
      Told i op r s c'
  | later {c c' : Config S ε ι ρ β σ} {l : Label ι κ ρ} : Told i op r s c →
      c.next M launch l = some c' → Told i op r s c'

/-- The step in which a session has been told. -/
theorem Told.step {i : ι} {op : S.Op} {r : Except ε (S.Res op)} {s : σ}
    (h : Told M launch allowed s₀ i op r s c) : ∃ c₀ ch req next s' p,
      Reachable M launch allowed s₀ c₀ ∧ c₀.procs i = some (req, .call op next) ∧ c₀.shared = s ∧
      M.exec i ch op s = some (r, s') ∧ c.procs i = some (req, p) := by
  induction h with
  | @now c c' ch req next hc hi hs hx hn =>
    obtain ⟨p, hp⟩ := Config.next_procs hn hi
    exact ⟨c, ch, req, next, _, p, hc, hi, hs, hx, hp⟩
  | later _ hn ih =>
    obtain ⟨c₀, ch, req, next, s', p, hc, hi, hs, hx, hp⟩ := ih
    obtain ⟨p', hp'⟩ := Config.next_procs hn hp
    exact ⟨c₀, ch, req, next, s', p', hc, hi, hs, hx, hp'⟩

end Sessions

end Interleave
