import Rustend.Lib.Program

/-!
# Interleaved programs and their rely-guarantee logic

Sessions run programs against one shared state.  A step answers one request of
one session; between two steps of a session any number of steps of the others
may come.  A request may have several outcomes, picked by a choice, or none at
all while it has to wait.

A property of all interleavings is proved a session at a time.  An `Env` says
what a session may rely on the others for between its own requests and what its
own steps guarantee; `Safe` says that a program, whatever the others do within
the rely, keeps the guarantee and ends in its postcondition.  When every
session's guarantee implies every other session's rely, the sessions are safe
together: `Reachable.safe`.

## Main definitions

* `Machine`, `Config`, `Label`, `Config.next` — sessions, states and steps.
* `Machine.runAlone` — a session with no other.
* `Reachable` — the configurations reached by allowed steps.
* `Env`, `Safe`, `Triple` — the logic of one session.
* `Keeps` — a program that keeps an invariant, however it ends.

## Main results

* `Safe.settle`, `Triple.seq`, `Triple.forEach`, `Keeps.bind` — the rules for
  sequences and loops.
* `Safe.lift` — a session that is safe against a part of the state is safe
  against the whole.
* `Reachable.safe` — **sessions that are safe alone are safe together.**
* `Safe.run`, `Safe.runAlone` — running a program alone is one of the interleavings.
-/

namespace Interleave

variable {S : Signature} {ε ι κ ρ α β δ σ τ : Type}

/-! ### Sessions and steps -/

/-- What requests do to a shared state.  `exec i ch op s` is the outcome that the
choice `ch` picks when session `i` issues `op`; it is `none` when there is no such
outcome, as when the request has to wait. -/
structure Machine (S : Signature) (ε ι κ σ : Type) where
  /-- The outcome of one request. -/
  exec : ι → κ → (op : S.Op) → σ → Option (Except ε (S.Res op) × σ)

/-- A session that runs alone, with the choices in order: how it ends, and the state it leaves. -/
def Machine.runAlone (M : Machine S ε ι κ σ) (i : ι) :
    Program S ε α → List κ → σ → Option (Except ε α × σ)
  | .done r, [], s => some (r, s)
  | .call op next, ch :: chs, s => (M.exec i ch op s).bind fun x => M.runAlone i (next x.1) chs x.2
  | _, _, _ => none

/-- A shared state and the sessions started so far, each with the request that
started it and the rest of its program. -/
structure Config (S : Signature) (ε ι ρ β σ : Type) where
  /-- What the sessions share. -/
  shared : σ
  /-- The sessions; `none` is a session not started. -/
  procs : ι → Option (ρ × Program S ε β)

/-- What can happen next. -/
inductive Label (ι κ ρ : Type) where
  /-- A new session `i` starts to serve `req`. -/
  | start (i : ι) (req : ρ)
  /-- The pending request of session `i` is answered. -/
  | step (i : ι) (ch : κ)
  deriving DecidableEq

/-- No session started. -/
def Config.init (s : σ) : Config S ε ι ρ β σ := ⟨s, fun _ => none⟩

/-- The request that session `i` waits for. -/
def Config.pending (c : Config S ε ι ρ β σ) (i : ι) : Option S.Op :=
  match c.procs i with
  | some (_, .call op _) => some op
  | _ => none

theorem Config.pending_eq {c : Config S ε ι ρ β σ} {i : ι} {req : ρ} {op : S.Op}
    {next : Except ε (S.Res op) → Program S ε β} (h : c.procs i = some (req, .call op next)) :
    c.pending i = some op := by rw [pending, h]

section Next

variable [DecidableEq ι] (M : Machine S ε ι κ σ) (launch : ρ → Program S ε β)

/-- The configuration after `l`, if `l` can happen. -/
def Config.next (c : Config S ε ι ρ β σ) : Label ι κ ρ → Option (Config S ε ι ρ β σ)
  | .start i req =>
      match c.procs i with
      | none => some { c with procs := Function.update c.procs i (some (req, launch req)) }
      | some _ => none
  | .step i ch =>
      match c.procs i with
      | some (req, .call op next) =>
          (M.exec i ch op c.shared).map fun x =>
            { shared := x.2, procs := Function.update c.procs i (some (req, next x.1)) }
      | _ => none

/-- The configuration after a list of labels, if they can happen in that order. -/
def Config.runLabels (c : Config S ε ι ρ β σ) : List (Label ι κ ρ) → Option (Config S ε ι ρ β σ)
  | [] => some c
  | l :: ls => (c.next M launch l).bind fun c' => c'.runLabels ls

/-- The same, if each of them also passes a check. -/
def Config.runChecked (check : Config S ε ι ρ β σ → Label ι κ ρ → Bool) (c : Config S ε ι ρ β σ) :
    List (Label ι κ ρ) → Option (Config S ε ι ρ β σ)
  | [] => some c
  | l :: ls => if check c l then (c.next M launch l).bind fun c' => c'.runChecked check ls else none

/-- The configurations reached from `s₀` by steps that `allowed` admits. -/
inductive Reachable (allowed : Config S ε ι ρ β σ → Label ι κ ρ → Prop) (s₀ : σ) :
    Config S ε ι ρ β σ → Prop where
  | init : Reachable allowed s₀ (Config.init s₀)
  | next {c c' : Config S ε ι ρ β σ} {l : Label ι κ ρ} : Reachable allowed s₀ c →
      allowed c l → c.next M launch l = some c' → Reachable allowed s₀ c'

variable {M launch}

/-- A step either starts a session, leaving the shared state, or answers the
pending request of one. -/
theorem Config.next_cases {c c' : Config S ε ι ρ β σ} {l : Label ι κ ρ}
    (h : c.next M launch l = some c') :
    (∃ i req, l = .start i req ∧ c.procs i = none ∧ c'.shared = c.shared ∧
        c'.procs = Function.update c.procs i (some (req, launch req))) ∨
      ∃ i ch req op next r, l = .step i ch ∧ c.procs i = some (req, .call op next) ∧
        M.exec i ch op c.shared = some (r, c'.shared) ∧
        c'.procs = Function.update c.procs i (some (req, next r)) := by
  cases l with
  | start i req =>
    simp only [Config.next] at h
    split at h
    · next hi => cases h; exact .inl ⟨i, req, rfl, hi, rfl, rfl⟩
    · cases h
  | step i ch =>
    simp only [Config.next] at h
    split at h
    · next req op next hi =>
      obtain ⟨⟨r, s'⟩, hx, rfl⟩ := Option.map_eq_some_iff.mp h
      exact .inr ⟨i, ch, req, op, next, r, rfl, hi, hx, rfl⟩
    · cases h

theorem Reachable.runLabels {allowed : Config S ε ι ρ β σ → Label ι κ ρ → Prop} {s₀ : σ} :
    ∀ {ls : List (Label ι κ ρ)} {c c' : Config S ε ι ρ β σ},
      Reachable M launch allowed s₀ c → (∀ d l, l ∈ ls → allowed d l) →
      c.runLabels M launch ls = some c' → Reachable M launch allowed s₀ c'
  | [], c, c', hc, _, h => by cases h; exact hc
  | l :: ls, c, c', hc, hl, h => by
    obtain ⟨d, hd, h⟩ := Option.bind_eq_some_iff.mp h
    exact (hc.next (hl c l List.mem_cons_self) hd).runLabels
      (fun e k hk => hl e k (List.mem_cons_of_mem _ hk)) h

/-- A session that no label starts stays idle. -/
theorem Config.runLabels_idle {i : ι} :
    ∀ {ls : List (Label ι κ ρ)} {c c' : Config S ε ι ρ β σ}, (∀ req, .start i req ∉ ls) →
      c.procs i = none → c.runLabels M launch ls = some c' → c'.procs i = none
  | [], c, c', _, hi, h => by cases h; exact hi
  | l :: ls, c, c', hls, hi, h => by
    obtain ⟨d, hd, h⟩ := Option.bind_eq_some_iff.mp h
    refine Config.runLabels_idle (fun req hreq => hls req (List.mem_cons_of_mem _ hreq)) ?_ h
    rcases Config.next_cases hd with
        ⟨j, req, rfl, -, -, hp⟩ | ⟨j, ch, req, op, next, r, -, hj, -, hp⟩
    · have hij : i ≠ j := fun hij => hls req (hij ▸ List.mem_cons_self)
      rw [hp, Function.update_of_ne hij]
      exact hi
    · have hij : i ≠ j := fun hij => by rw [← hij, hi] at hj; cases hj
      rw [hp, Function.update_of_ne hij]
      exact hi

theorem Reachable.runChecked {allowed : Config S ε ι ρ β σ → Label ι κ ρ → Prop} {s₀ : σ}
    {check : Config S ε ι ρ β σ → Label ι κ ρ → Bool}
    (hcheck : ∀ c l, check c l = true → allowed c l) :
    ∀ {ls : List (Label ι κ ρ)} {c c' : Config S ε ι ρ β σ},
      Reachable M launch allowed s₀ c → c.runChecked M launch check ls = some c' →
      Reachable M launch allowed s₀ c'
  | [], c, c', hc, h => by cases h; exact hc
  | l :: ls, c, c', hc, h => by
    rw [Config.runChecked] at h
    split at h
    · next hl =>
      obtain ⟨d, hd, h⟩ := Option.bind_eq_some_iff.mp h
      exact (hc.next (hcheck c l hl) hd).runChecked hcheck h
    · cases h

end Next

/-! ### One session among others -/

/-- The surroundings of one session: what its requests do, what the others may do
in between, and what each of its own steps has to respect. -/
structure Env (S : Signature) (ε σ : Type) where
  /-- The possible outcomes of a request. -/
  exec : (op : S.Op) → σ → Except ε (S.Res op) → σ → Prop
  /-- What the others may do. -/
  rely : σ → σ → Prop
  /-- What a step of this session respects. -/
  guar : σ → σ → Prop
  rely_refl : ∀ s, rely s s
  rely_trans : ∀ s₁ s₂ s₃, rely s₁ s₂ → rely s₂ s₃ → rely s₁ s₃

/-- From `s`, the program keeps the guarantee and ends in `post`, whatever the
others do between its requests. -/
def Safe (E : Env S ε σ) (post : Except ε α → σ → Prop) : Program S ε α → σ → Prop
  | .done r, s => ∀ s', E.rely s s' → post r s'
  | .call op next, s => ∀ s', E.rely s s' → ∀ r s'', E.exec op s' r s'' →
      E.guar s' s'' ∧ Safe E post (next r) s''

/-- A postcondition in two parts, one for results and one for errors. -/
def Ends (Q : α → σ → Prop) (F : ε → σ → Prop) : Except ε α → σ → Prop
  | .ok a, s => Q a s
  | .error e, s => F e s

/-- A property that the others keep. -/
def Stable (E : Env S ε σ) (P : σ → Prop) : Prop := ∀ s s', E.rely s s' → P s → P s'

/-- From every state in `P` the program is safe, with postcondition `post`. -/
def Triple (E : Env S ε σ) (P : σ → Prop) (p : Program S ε α)
    (post : Except ε α → σ → Prop) : Prop := ∀ s, P s → Safe E post p s

namespace Safe

variable {E : Env S ε σ} {post post' : Except ε α → σ → Prop} {p : Program S ε α} {s s' : σ}

/-- What the others do does not make a program unsafe. -/
theorem rely (h : Safe E post p s) (hs : E.rely s s') : Safe E post p s' := by
  cases p with
  | done r => exact fun s₁ h₁ => h s₁ (E.rely_trans _ _ _ hs h₁)
  | call op next => exact fun s₁ h₁ => h s₁ (E.rely_trans _ _ _ hs h₁)

theorem mono (hpost : ∀ r s, post r s → post' r s) : ∀ {p : Program S ε α} {s : σ},
    Safe E post p s → Safe E post' p s := by
  intro p
  induction p with
  | done r => exact fun {s} h s₁ h₁ => hpost _ _ (h s₁ h₁)
  | call op next ih =>
    intro s h s₁ h₁ r s₂ h₂
    obtain ⟨hg, hn⟩ := h s₁ h₁ r s₂ h₂
    exact ⟨hg, ih r hn⟩

/-- **The rule for going on** with however the first part ends. -/
theorem settle {post : Except ε β → σ → Prop} {f : Except ε α → Program S ε β} :
    ∀ {p : Program S ε α} {s : σ}, Safe E (fun r s => Safe E post (f r) s) p s →
      Safe E post (p.settle f) s := by
  intro p
  induction p with
  | done r => exact fun {s} h => h s (E.rely_refl s)
  | call op next ih =>
    intro s h s₁ h₁ r s₂ h₂
    obtain ⟨hg, hn⟩ := h s₁ h₁ r s₂ h₂
    exact ⟨hg, ih r hn⟩

/-- **Safety against a part of the state is safety against the whole**, when the
whole's requests and rely act on that part as the part's own do, and the guarantee
on the part, with the step taken, gives the guarantee on the whole. -/
theorem lift {F : Env S ε τ} (π : τ → σ)
    (hexec : ∀ op t r t', F.exec op t r t' → E.exec op (π t) r (π t'))
    (hrely : ∀ t t', F.rely t t' → E.rely (π t) (π t'))
    (hguar : ∀ op t r t', F.exec op t r t' → E.guar (π t) (π t') → F.guar t t') :
    ∀ {p : Program S ε α} {t : τ}, Safe E post p (π t) →
      Safe F (fun r t => post r (π t)) p t := by
  intro p
  induction p with
  | done r => exact fun {t} h t₁ h₁ => h _ (hrely _ _ h₁)
  | call op next ih =>
    intro t h t₁ h₁ r t₂ h₂
    obtain ⟨hg, hn⟩ := h _ (hrely _ _ h₁) r _ (hexec _ _ _ _ h₂)
    exact ⟨hguar _ _ _ _ h₂ hg, ih r hn⟩

/-- **Running a program alone is one of the interleavings**: where nobody else
acts, a safe program ends in its postcondition. -/
theorem run {answer : (op : S.Op) → σ → Except ε (S.Res op) × σ}
    (hexec : ∀ op s, E.exec op s (answer op s).1 (answer op s).2) :
    ∀ {p : Program S ε α} {s : σ}, Safe E post p s →
      post (p.run answer s).1 (p.run answer s).2 := by
  intro p
  induction p with
  | done r => exact fun {s} h => h s (E.rely_refl s)
  | call op next ih =>
    intro s h
    exact ih _ (h s (E.rely_refl s) _ _ (hexec op s)).2

/-- A session that runs alone ends in its postcondition, if `E` admits what it chooses. -/
theorem runAlone {M : Machine S ε ι κ σ} {i : ι} {r : Except ε α} : ∀ {p : Program S ε α}
    {chs : List κ} {s : σ}, (∀ ch ∈ chs, ∀ op s x s', M.exec i ch op s = some (x, s') →
      E.exec op s x s') → Safe E post p s → M.runAlone i p chs s = some (r, s') → post r s' := by
  intro p
  induction p with
  | done x =>
    intro chs s _ h hrun
    cases chs with
    | nil =>
      cases hrun
      exact h s' (E.rely_refl s')
    | cons ch chs => cases hrun
  | call op next ih =>
    intro chs s hexec h hrun
    cases chs with
    | nil => cases hrun
    | cons ch chs =>
      obtain ⟨⟨x, s₁⟩, hx, hrest⟩ := Option.bind_eq_some_iff.mp hrun
      obtain ⟨hfirst, htail⟩ := List.forall_mem_cons.mp hexec
      exact ih x htail (h s (E.rely_refl s) x s₁ (hfirst op s x s₁ hx)).2 hrest

end Safe

namespace Triple

variable {E : Env S ε σ} {P P' : σ → Prop} {p : Program S ε α}
  {post post' : Except ε α → σ → Prop}

theorem conseq (h : Triple E P p post) (hP : ∀ s, P' s → P s)
    (hpost : ∀ r s, post r s → post' r s) : Triple E P' p post' :=
  fun s hs => (h s (hP s hs)).mono hpost

/-- A finished program: its precondition must survive the others. -/
theorem done {r : Except ε α} (hP : Stable E P) (h : ∀ s, P s → post r s) :
    Triple E P (.done r) post := fun s hs s' hs' => h s' (hP s s' hs' hs)

/-- One request: its precondition must survive the others until it is answered. -/
theorem call {op : S.Op} {next : Except ε (S.Res op) → Program S ε α}
    {R : Except ε (S.Res op) → σ → Prop} (hP : Stable E P)
    (hstep : ∀ s r s', P s → E.exec op s r s' → E.guar s s' ∧ R r s')
    (hnext : ∀ r, Triple E (R r) (next r) post) : Triple E P (.call op next) post := by
  intro s hs s₁ h₁ r s₂ h₂
  obtain ⟨hg, hR⟩ := hstep s₁ r s₂ (hP s s₁ h₁ hs) h₂
  exact ⟨hg, hnext r s₂ hR⟩

theorem perform {op : S.Op} {post : Except ε (S.Res op) → σ → Prop} (hP : Stable E P)
    (hpost : ∀ r, Stable E (post r))
    (hstep : ∀ s r s', P s → E.exec op s r s' → E.guar s s' ∧ post r s') :
    Triple E P (.perform op) post :=
  call hP hstep fun r => done (hpost r) fun _ h => h

theorem settle {f : Except ε α → Program S ε β} {post' : Except ε β → σ → Prop}
    (h : Triple E P p post) (hf : ∀ r, Triple E (post r) (f r) post') :
    Triple E P (p.settle f) post' :=
  fun s hs => Safe.settle ((h s hs).mono fun r s' => hf r s')

/-- **The rule for sequences.**  An error of the first part is the sequence's. -/
theorem bind {f : α → Program S ε β} {post' : Except ε β → σ → Prop}
    (h : Triple E P p post) (hok : ∀ a, Triple E (post (.ok a)) (f a) post')
    (herr : ∀ e, Triple E (post (.error e)) (.fail e) post') :
    Triple E P (p >>= f) post' :=
  settle h fun
    | .ok a => hok a
    | .error e => herr e

theorem weaken {Q Q' : α → σ → Prop} {F F' : ε → σ → Prop} (h : Triple E P p (Ends Q F))
    (hQ : ∀ a s, Q a s → Q' a s) (hF : ∀ e s, F e s → F' e s) : Triple E P p (Ends Q' F') :=
  h.conseq (fun _ hs => hs) fun
    | .ok a, s => hQ a s
    | .error e, s => hF e s

/-- The rule for sequences, when the postconditions come in two parts. -/
theorem seq {Q : α → σ → Prop} {Q' : β → σ → Prop} {F F' : ε → σ → Prop}
    {f : α → Program S ε β} (h : Triple E P p (Ends Q F))
    (hok : ∀ a, Triple E (Q a) (f a) (Ends Q' F')) (hstable : ∀ e, Stable E (F' e))
    (herr : ∀ e s, F e s → F' e s) : Triple E P (p >>= f) (Ends Q' F') :=
  bind (h.weaken (fun _ _ hs => hs) herr) hok fun e => done (hstable e) fun _ hs => hs

/-- The rule for clean-up: it runs on an error only, and the error stays. -/
theorem orElse {Q : α → σ → Prop} {F F' : ε → σ → Prop} {cleanup : Program S ε Unit}
    (h : Triple E P p (Ends Q F)) (hc : ∀ e, Triple E (F e) cleanup fun _ => F' e)
    (hQ : ∀ a, Stable E (Q a)) (hF : ∀ e, Stable E (F' e)) :
    Triple E P (p.orElse cleanup) (Ends Q F') :=
  settle h fun
    | .ok a => done (hQ a) fun _ hs => hs
    | .error e => settle (hc e) fun _ => done (hF e) fun _ hs => hs

/-- A precondition that has chosen a value. -/
theorem exists_pre {R : δ → σ → Prop} (h : ∀ x, Triple E (R x) p post) :
    Triple E (fun s => ∃ x, R x s) p post := fun s ⟨x, hx⟩ => h x s hx

/-- **The rule for loops**: `I` describes the state in terms of the elements
already done. -/
theorem forEach {body : δ → Program S ε Unit} {I : List δ → σ → Prop} {err : ε → σ → Prop}
    {all : List δ} (hI : ∀ xs, Stable E (I xs)) (herr : ∀ e, Stable E (err e))
    (h : ∀ xs x rest, all = xs ++ x :: rest →
      Triple E (I xs) (body x) (Ends (fun _ => I (xs ++ [x])) err)) :
    ∀ (todo before : List δ), all = before ++ todo →
      Triple E (I before) (Program.forEach body todo) (Ends (fun _ => I all) err)
  | [], before, hall => done (hI before) fun s hs => by simpa [hall, Ends] using hs
  | x :: todo, before, hall => by
    refine bind (h before x todo hall) (fun _ => ?_) fun e => done (herr e) fun s hs => hs
    exact forEach hI herr h todo (before ++ [x]) (by simp [hall])

end Triple

/-! ### What a program keeps -/

/-- The program leaves `I` in place, however it ends. -/
abbrev Keeps (E : Env S ε σ) (I : σ → Prop) (p : Program S ε α) : Prop :=
  Triple E I p (Ends (fun _ => I) fun _ => I)

@[simp] theorem ends_same {I : σ → Prop} {r : Except ε α} {s : σ} :
    Ends (fun _ => I) (fun _ => I) r s ↔ I s := by
  cases r <;> rfl

namespace Keeps

variable {E : Env S ε σ} {I : σ → Prop}

theorem done (hI : Stable E I) (r : Except ε α) : Keeps E I (.done r) :=
  Triple.done hI fun _ hs => ends_same.mpr hs

theorem perform (hI : Stable E I) {op : S.Op}
    (hstep : ∀ s r s', I s → E.exec op s r s' → E.guar s s' ∧ I s') : Keeps E I (.perform op) := by
  refine Triple.perform hI (fun r s s' hs => ?_) fun s r s' hs hx => ?_
  · rw [ends_same, ends_same]
    exact hI s s' hs
  · rw [ends_same]
    exact hstep s r s' hs hx

/-- **The rule for sequences** of parts that each keep `I`. -/
theorem bind (hI : Stable E I) {p : Program S ε α} {f : α → Program S ε β} (hp : Keeps E I p)
    (hf : ∀ a, Keeps E I (f a)) : Keeps E I (p >>= f) :=
  Triple.seq hp hf (fun _ => hI) fun _ _ hs => hs

theorem forEach (hI : Stable E I) {body : δ → Program S ε Unit} (hbody : ∀ x, Keeps E I (body x)) :
    ∀ xs : List δ, Keeps E I (.forEach body xs)
  | [] => done hI _
  | x :: xs => bind hI (hbody x) fun _ => forEach hI hbody xs

end Keeps

/-! ### Sessions together -/

section Together

variable [DecidableEq ι] {M : Machine S ε ι κ σ} {launch : ρ → Program S ε β}
  {allowed : Config S ε ι ρ β σ → Label ι κ ρ → Prop} {s₀ : σ}

/-- What holds of a configuration whose sessions are all safe: the invariant, the
sessions not started are idle, and the rest of each started program is safe. -/
structure AllSafe (E : ι → ρ → Env S ε σ) (Inv : σ → Prop) (Idle : ι → σ → Prop)
    (post : ι → ρ → Except ε β → σ → Prop) (c : Config S ε ι ρ β σ) : Prop where
  inv : Inv c.shared
  idle : ∀ i, c.procs i = none → Idle i c.shared
  safe : ∀ i req p, c.procs i = some (req, p) → Safe (E i req) (post i req) p c.shared

/-- What makes sessions compatible: each one's guarantee is within every other
one's rely, keeps the invariant and leaves the sessions not started idle; a session
may start in any state with the invariant. -/
structure Compatible (M : Machine S ε ι κ σ) (launch : ρ → Program S ε β)
    (allowed : Config S ε ι ρ β σ → Label ι κ ρ → Prop) (E : ι → ρ → Env S ε σ)
    (Inv : σ → Prop) (Idle : ι → σ → Prop) (post : ι → ρ → Except ε β → σ → Prop) : Prop where
  exec : ∀ c i ch req op next r s', allowed c (.step i ch) →
    c.procs i = some (req, .call op next) → M.exec i ch op c.shared = some (r, s') →
    (E i req).exec op c.shared r s'
  guar_rely : ∀ i j req req' s s', i ≠ j → (E i req).guar s s' → (E j req').rely s s'
  guar_inv : ∀ i req s s', (E i req).guar s s' → Inv s → Inv s'
  guar_idle : ∀ i j req s s', i ≠ j → (E i req).guar s s' → Inv s → Idle j s → Idle j s'
  start : ∀ c i req, allowed c (.start i req) → Inv c.shared → Idle i c.shared →
    Safe (E i req) (post i req) (launch req) c.shared

variable {E : ι → ρ → Env S ε σ} {Inv : σ → Prop} {Idle : ι → σ → Prop}
  {post : ι → ρ → Except ε β → σ → Prop}

/-- One step keeps the sessions safe. -/
theorem AllSafe.next (hC : Compatible M launch allowed E Inv Idle post)
    {c c' : Config S ε ι ρ β σ} {l : Label ι κ ρ} (h : AllSafe E Inv Idle post c)
    (hl : allowed c l) (hn : c.next M launch l = some c') : AllSafe E Inv Idle post c' := by
  rcases Config.next_cases hn with ⟨i, req, rfl, hi, hs, hp⟩ |
    ⟨i, ch, req, op, next, r, rfl, hi, hx, hp⟩
  · refine ⟨hs ▸ h.inv, fun j hj => ?_, fun j req' p hj => ?_⟩
    · rw [hp, Function.update_apply] at hj
      split at hj
      · cases hj
      · rw [hs]; exact h.idle j hj
    · rw [hp, Function.update_apply] at hj
      rw [hs]
      split at hj
      · next hji => cases hj; subst hji; exact hC.start c j req hl h.inv (h.idle j hi)
      · exact h.safe j req' p hj
  · -- the session's own step: its guarantee is what the others rely on
    obtain ⟨hg, hsafe⟩ := h.safe i req _ hi _ ((E i req).rely_refl _) r _
      (hC.exec c i ch req op next r _ hl hi hx)
    refine ⟨hC.guar_inv i req _ _ hg h.inv, fun j hj => ?_, fun j req' p hj => ?_⟩
    · rw [hp, Function.update_apply] at hj
      split at hj
      · cases hj
      · next hji => exact hC.guar_idle i j req _ _ (Ne.symm hji) hg h.inv (h.idle j hj)
    · rw [hp, Function.update_apply] at hj
      split at hj
      · next hji => cases hj; subst hji; exact hsafe
      · next hji =>
        exact (h.safe j req' p hj).rely (hC.guar_rely i j req req' _ _ (Ne.symm hji) hg)

/-- A session keeps the request that started it. -/
theorem Config.next_procs {c c' : Config S ε ι ρ β σ} {l : Label ι κ ρ}
    (hn : c.next M launch l = some c') {i : ι} {req : ρ} {p : Program S ε β}
    (hp : c.procs i = some (req, p)) : ∃ p', c'.procs i = some (req, p') := by
  rcases Config.next_cases hn with ⟨j, req', -, hj, -, hp'⟩ |
    ⟨j, ch, req', op, next, r, -, hj, -, hp'⟩ <;> rw [hp', Function.update_apply] <;> split
  · next hij => rw [hij, hj] at hp; cases hp
  · exact ⟨p, hp⟩
  · next hij => rw [hij, hj] at hp; cases hp; exact ⟨_, rfl⟩
  · exact ⟨p, hp⟩

/-- **Sessions that are safe alone are safe together**, in every configuration
that allowed steps reach. -/
theorem Reachable.safe (hC : Compatible M launch allowed E Inv Idle post)
    (hinv : Inv s₀) (hidle : ∀ i, Idle i s₀) {c : Config S ε ι ρ β σ}
    (hc : Reachable M launch allowed s₀ c) : AllSafe E Inv Idle post c := by
  induction hc with
  | init => exact ⟨hinv, fun i _ => hidle i, fun i req p h => by cases h⟩
  | next _ hl hn ih => exact ih.next hC hl hn

/-- Every step of a session from a reachable configuration keeps its guarantee. -/
theorem Reachable.guar (hC : Compatible M launch allowed E Inv Idle post)
    (hinv : Inv s₀) (hidle : ∀ i, Idle i s₀) {c c' : Config S ε ι ρ β σ} {i : ι} {ch : κ}
    {req : ρ} {p : Program S ε β} (hc : Reachable M launch allowed s₀ c)
    (hl : allowed c (.step i ch)) (hn : c.next M launch (.step i ch) = some c')
    (hp : c.procs i = some (req, p)) : (E i req).guar c.shared c'.shared := by
  rcases Config.next_cases hn with ⟨_, _, h, -⟩ | ⟨_, _, req', op, next, r, h, hi, hx, -⟩
  · cases h
  · cases h
    rw [hp] at hi
    cases hi
    exact ((hc.safe hC hinv hidle).safe i req _ hp _ ((E i req).rely_refl _) r _
      (hC.exec c i ch req op next r _ hl hp hx)).1

end Together

end Interleave
