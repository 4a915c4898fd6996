import Rustend.Lib.Interleaving

/-!
# Sessions with one commit point

A session may read what it likes, and prepare its writes where nobody sees them; what
the others see changes at one request only, after which the session has ended.  Other
sessions change nothing at all.  Then a run is told completely by the list of these
changes: each session appears in it at most once, and the list only grows.

What the others see of the state is given by a function `view`, and the requests that
may change it by a test `writes`.

## Main definitions

* `Program.Quiet`, `Program.CommitsLast` — no request of the program writes; only its
  last one does.
* `CommitsLast` — sessions that commit last or are silent, on a machine where no other
  request changes the view.
* `Change`, `Chained`, `CommitLog` — the list of the changes of a run.

## Main results

* `CommitLog.next` — a step adds at most one change to the list.
* `Reachable.commitLog` — **every run has its list.**
* `CommitLog.runLabels` — **later changes come at its end.**
-/

namespace Interleave

variable {S : Signature} {ε ι κ ρ α β δ σ τ : Type}

/-! ### Programs -/

namespace Program

variable {writes : S.Op → Bool}

/-- No request of the program writes. -/
def Quiet (writes : S.Op → Bool) : Program S ε α → Prop
  | .done _ => True
  | .call op next => writes op = false ∧ ∀ r, (next r).Quiet writes

/-- A request that writes is the last one of the program, and its error is the program's. -/
def CommitsLast (writes : S.Op → Bool) : Program S ε α → Prop
  | .done _ => True
  | .call op next =>
      (writes op = false ∧ ∀ r, (next r).CommitsLast writes) ∨
        ∀ r, ∃ x, next r = .done x ∧ ∀ e, x = .error e → r = .error e

theorem quiet_fail (e : ε) : (fail e : Program S ε α).Quiet writes := trivial

theorem Quiet.perform {op : S.Op} (h : writes op = false) :
    (perform op : Program S ε (S.Res op)).Quiet writes := ⟨h, fun _ => trivial⟩

theorem Quiet.settle {f : Except ε α → Program S ε β} (hf : ∀ r, (f r).Quiet writes) :
    ∀ {p : Program S ε α}, p.Quiet writes → (p.settle f).Quiet writes := by
  intro p
  induction p with
  | done r => exact fun _ => hf r
  | call op next ih => exact fun h => ⟨h.1, fun r => ih r (h.2 r)⟩

theorem Quiet.bind {p : Program S ε α} {f : α → Program S ε β} (h : p.Quiet writes)
    (hf : ∀ a, (f a).Quiet writes) : (p >>= f).Quiet writes := by
  refine Quiet.settle (fun r => ?_) h
  cases r with
  | ok a => exact hf a
  | error e => exact trivial

theorem Quiet.forEach {body : δ → Program S ε Unit} (h : ∀ x, (body x).Quiet writes) :
    ∀ xs, (Program.forEach body xs).Quiet writes := by
  intro xs
  induction xs with
  | nil => exact trivial
  | cons x xs ih => exact (h x).bind fun _ => ih

theorem Quiet.orElse {p : Program S ε α} {cleanup : Program S ε Unit} (h : p.Quiet writes)
    (hc : cleanup.Quiet writes) : (p.orElse cleanup).Quiet writes := by
  refine Quiet.settle (fun r => ?_) h
  cases r with
  | ok a => exact trivial
  | error e => exact Quiet.settle (fun _ => quiet_fail e) hc

theorem CommitsLast.perform (op : S.Op) :
    (perform op : Program S ε (S.Res op)).CommitsLast writes :=
  .inr fun r => ⟨r, rfl, fun _ h => h⟩

/-- **A quiet beginning** leaves the commit last. -/
theorem CommitsLast.bind {p : Program S ε α} {f : α → Program S ε β} (h : p.Quiet writes)
    (hf : ∀ a, (f a).CommitsLast writes) : (p >>= f).CommitsLast writes := by
  rw [bind_eq]
  induction p with
  | done r =>
    cases r with
    | ok a => exact hf a
    | error e => exact trivial
  | call op next ih => exact .inl ⟨h.1, fun r => ih r (h.2 r)⟩

/-- So does a result made from what the program returns. -/
theorem CommitsLast.map {p : Program S ε α} (g : α → β) (h : p.CommitsLast writes) :
    (p >>= fun a => pure (g a)).CommitsLast writes := by
  rw [bind_eq]
  induction p with
  | done r =>
    cases r with
    | ok a => exact trivial
    | error e => exact trivial
  | call op next ih =>
    rcases h with ⟨hq, h⟩ | h
    · exact .inl ⟨hq, fun r => ih r (h r)⟩
    · -- the request that writes: what follows it only returns
      refine .inr fun r => ?_
      obtain ⟨x, hx, hxe⟩ := h r
      cases x with
      | ok a =>
        refine ⟨.ok (g a), ?_, fun e he => by cases he⟩
        simp only [hx, settle_done, onOk_ok]
        rfl
      | error e =>
        refine ⟨.error e, ?_, fun e' he => ?_⟩
        · simp only [hx, settle_done, onOk_error]
          rfl
        · cases he
          exact hxe e rfl

end Program

/-! ### The changes of a run -/

/-- One change of the view: the session that made it, the request it serves, and the
view before and after. -/
structure Change (ι ρ τ : Type) where
  session : ι
  request : ρ
  before : τ
  after : τ

/-- The changes lead from one view to another, each from where the one before it ended. -/
def Chained : τ → List (Change ι ρ τ) → τ → Prop
  | a, [], b => b = a
  | a, x :: xs, b => x.before = a ∧ Chained x.after xs b

theorem Chained.single (i : ι) (req : ρ) (a b : τ) : Chained a [⟨i, req, a, b⟩] b := ⟨rfl, rfl⟩

theorem Chained.append {b c : τ} {ys : List (Change ι ρ τ)} (h' : Chained b ys c) :
    ∀ {xs : List (Change ι ρ τ)} {a : τ}, Chained a xs b → Chained a (xs ++ ys) c := by
  intro xs
  induction xs with
  | nil =>
    intro a h
    cases h
    exact h'
  | cons x xs ih => exact fun h => ⟨h.1, ih h.2⟩

/-- What follows the changes that lead to `b` starts from there. -/
theorem Chained.drop {b c : τ} {ys : List (Change ι ρ τ)} :
    ∀ {xs : List (Change ι ρ τ)} {a : τ}, Chained a xs b → Chained a (xs ++ ys) c →
      Chained b ys c := by
  intro xs
  induction xs with
  | nil =>
    intro a h h'
    cases h
    exact h'
  | cons x xs ih => exact fun h h' => ih h.2 h'.2

section Log

variable [DecidableEq ι] (M : Machine S ε ι κ σ) (launch : ρ → Program S ε β) (view : σ → τ)
  (allowed : Config S ε ι ρ β σ → Label ι κ ρ → Prop) (s₀ : σ)

/-- Every session commits last, or it serves a silent request and never changes the view;
and on this machine only a request that `writes` marks changes it. -/
structure CommitsLast (writes : S.Op → Bool) (Silent : ρ → Prop) : Prop where
  starts : ∀ req, Silent req ∨ (launch req).CommitsLast writes
  quiet : ∀ i ch op s r s', M.exec i ch op s = some (r, s') → writes op = false →
    view s' = view s
  silent : ∀ {c c' : Config S ε ι ρ β σ} {i ch req p}, Reachable M launch allowed s₀ c →
    allowed c (.step i ch) → c.next M launch (.step i ch) = some c' →
    c.procs i = some (req, p) → Silent req → view c'.shared = view c.shared

/-- A request has changed the view although its session was told the error `e`. -/
def Misreported (e : ε) : Prop :=
  ∃ i ch op s s', M.exec i ch op s = some (.error e, s') ∧ view s' ≠ view s

/-- The list of the changes that have led from `s₀` to a configuration: no session is in
it twice, and those that are have ended. -/
structure CommitLog (c : Config S ε ι ρ β σ) (log : List (Change ι ρ τ)) : Prop where
  chained : Chained (view s₀) log (view c.shared)
  once : (log.map (·.session)).Nodup
  ended : ∀ x ∈ log, ∃ r, c.procs x.session = some (x.request, .done r) ∧
    ∀ e, r = .error e → Misreported M view e

variable {M launch view allowed s₀} {writes : S.Op → Bool} {Silent : ρ → Prop}
  {c c' : Config S ε ι ρ β σ}

/-- Every session commits last from wherever it stands, if its request is not silent. -/
theorem Reachable.commitsLast (hM : CommitsLast M launch view allowed s₀ writes Silent)
    (hc : Reachable M launch allowed s₀ c) :
    ∀ i req p, c.procs i = some (req, p) → Silent req ∨ p.CommitsLast writes := by
  induction hc with
  | init =>
    intro i req p hp
    cases hp
  | next _ _ hn ih =>
    intro i req p hp
    rcases Config.next_cases hn with ⟨j, req', -, -, -, hp'⟩ |
      ⟨j, ch, req', op, next, r, -, hj, -, hp'⟩ <;>
      rw [hp', Function.update_apply] at hp <;> split at hp
    · cases hp
      exact hM.starts req
    · exact ih i req p hp
    · cases hp
      refine (ih j req _ hj).imp_right fun h => ?_
      rcases h with ⟨-, h⟩ | h
      · exact h r
      · obtain ⟨x, hx, -⟩ := h r
        rw [hx]
        exact trivial
    · exact ih i req p hp

/-- An ended session stays as it is. -/
theorem Config.next_done {l : Label ι κ ρ} (hn : c.next M launch l = some c') {i : ι} {req : ρ}
    {r : Except ε β} (h : c.procs i = some (req, .done r)) :
    c'.procs i = some (req, .done r) := by
  rcases Config.next_cases hn with ⟨j, req', -, hj, -, hp'⟩ |
    ⟨j, ch, req', op, next, x, -, hj, -, hp'⟩ <;> rw [hp', Function.update_apply] <;> split
  · next hij => rw [hij, hj] at h; cases h
  · exact h
  · next hij => rw [hij, hj] at h; cases h
  · exact h

/-- **A step adds at most one change**, made by the session that takes it. -/
theorem CommitLog.next (hM : CommitsLast M launch view allowed s₀ writes Silent)
    (hc : Reachable M launch allowed s₀ c) {log : List (Change ι ρ τ)}
    (h : CommitLog M view s₀ c log) {l : Label ι κ ρ} (hal : allowed c l)
    (hn : c.next M launch l = some c') :
    CommitLog M view s₀ c' log ∨ ∃ i ch req p, l = .step i ch ∧ c.procs i = some (req, p) ∧
      view c'.shared ≠ view c.shared ∧
      CommitLog M view s₀ c' (log ++ [⟨i, req, view c.shared, view c'.shared⟩]) := by
  have hended : ∀ x ∈ log, ∃ r, c'.procs x.session = some (x.request, .done r) ∧
      ∀ e, r = .error e → Misreported M view e := by
    intro x hx
    obtain ⟨r, hr, he⟩ := h.ended x hx
    exact ⟨r, Config.next_done hn hr, he⟩
  by_cases hv : view c'.shared = view c.shared
  · exact .inl ⟨hv ▸ h.chained, h.once, hended⟩
  rcases Config.next_cases hn with ⟨-, -, -, -, hs, -⟩ |
    ⟨i, ch, req, op, next, r, hl, hi, hx, hp⟩
  · exact absurd (congrArg view hs) hv
  -- the view has changed, so the request that was answered is the session's last
  obtain ⟨x, hnext, hxe⟩ : ∃ x, next r = .done x ∧ ∀ e, x = .error e → r = .error e := by
    rcases hc.commitsLast hM i req _ hi with hs | ⟨hq, -⟩ | hlast
    · exact absurd (hM.silent hc (hl ▸ hal) (hl ▸ hn) hi hs) hv
    · exact absurd (hM.quiet i ch op _ r _ hx hq) hv
    · exact hlast r
  refine .inr ⟨i, ch, req, _, hl, hi, hv, (Chained.single ..).append h.chained, ?_, ?_⟩
  · rw [List.map_append, List.nodup_append]
    refine ⟨h.once, by simp, ?_⟩
    intro a ha b hb hab
    obtain ⟨y, hy, rfl⟩ := List.mem_map.mp ha
    simp only [List.map_cons, List.map_nil, List.mem_singleton] at hb
    obtain ⟨r', hr', -⟩ := h.ended y hy
    rw [hab, hb, hi] at hr'
    cases hr'
  · intro y hy
    rcases List.mem_append.mp hy with hy | hy
    · exact hended y hy
    · rw [List.mem_singleton.mp hy, hp]
      refine ⟨x, by rw [Function.update_self, hnext], fun e he => ?_⟩
      obtain rfl := hxe e he
      exact ⟨i, ch, op, _, _, hx, hv⟩

omit [DecidableEq ι] in
theorem CommitLog.init : CommitLog M view s₀ (Config.init s₀ : Config S ε ι ρ β σ) [] :=
  ⟨rfl, List.nodup_nil, by simp⟩

section Good

variable {Good : Change ι ρ τ → Prop} (hM : CommitsLast M launch view allowed s₀ writes Silent)
  (hgood : ∀ {d d' : Config S ε ι ρ β σ} {i : ι} {ch : κ} {req : ρ} {p : Program S ε β},
    Reachable M launch allowed s₀ d → allowed d (.step i ch) →
    d.next M launch (.step i ch) = some d' → d.procs i = some (req, p) →
    view d'.shared ≠ view d.shared → Good ⟨i, req, view d.shared, view d'.shared⟩)

include hM hgood

theorem CommitLog.step (hc : Reachable M launch allowed s₀ c) {log : List (Change ι ρ τ)}
    (h : CommitLog M view s₀ c log) {l : Label ι κ ρ} (hl : allowed c l)
    (hn : c.next M launch l = some c') :
    ∃ more, CommitLog M view s₀ c' (log ++ more) ∧ ∀ x ∈ more, Good x := by
  rcases h.next hM hc hl hn with h' | ⟨i, ch, req, p, rfl, hp, hv, h'⟩
  · exact ⟨[], by simpa using h', by simp⟩
  · refine ⟨_, h', fun x hx => ?_⟩
    rw [List.mem_singleton.mp hx]
    exact hgood hc hl hn hp hv

/-- **Later changes come at the end of the list.** -/
theorem CommitLog.runLabels :
    ∀ {ls : List (Label ι κ ρ)} {c : Config S ε ι ρ β σ} {log : List (Change ι ρ τ)},
      Reachable M launch allowed s₀ c → CommitLog M view s₀ c log → (∀ d l, l ∈ ls → allowed d l) →
      c.runLabels M launch ls = some c' →
      ∃ more, CommitLog M view s₀ c' (log ++ more) ∧ ∀ x ∈ more, Good x := by
  intro ls
  induction ls with
  | nil =>
    intro c log _ h _ hrun
    cases hrun
    exact ⟨[], by simpa using h, by simp⟩
  | cons l ls ih =>
    intro c log hc h hls hrun
    obtain ⟨d, hd, hrun⟩ := Option.bind_eq_some_iff.mp hrun
    have hl : allowed c l := hls c l List.mem_cons_self
    obtain ⟨more, h', hmore⟩ := CommitLog.step hM hgood hc h hl hd
    obtain ⟨rest, h'', hrest⟩ := ih (hc.next hl hd) h'
      (fun e k hk => hls e k (List.mem_cons_of_mem _ hk)) hrun
    refine ⟨more ++ rest, by rwa [← List.append_assoc], fun x hx => ?_⟩
    rcases List.mem_append.mp hx with hx | hx
    · exact hmore x hx
    · exact hrest x hx

/-- **Every run has its list.** -/
theorem Reachable.commitLog (hc : Reachable M launch allowed s₀ c) :
    ∃ log, CommitLog M view s₀ c log ∧ ∀ x ∈ log, Good x := by
  induction hc with
  | init => exact ⟨[], .init, by simp⟩
  | next hc hl hn ih =>
    obtain ⟨log, h, hlog⟩ := ih
    obtain ⟨more, h', hmore⟩ := CommitLog.step hM hgood hc h hl hn
    refine ⟨log ++ more, h', fun x hx => ?_⟩
    rcases List.mem_append.mp hx with hx | hx
    · exact hlog x hx
    · exact hmore x hx

end Good

end Log

end Interleave
