import Mathlib.Init

/-!
# Programs that ask their host

A program returns or asks its host a question and goes on with the answer. It has
no access to the state of the host. A host may stop the run for good instead of
answering. Two hosts that keep a relation between their states and give the same
answers run a program to the same result. What is noted of a run at its questions
is a list.
-/

namespace HostPrograms

universe u

variable {Q A R P S S' M α β : Type u}

inductive Program (Q A R : Type u)
  | done (r : R)
  | ask (q : Q) (next : A → Program Q A R)

/-- What a mapped result was before. -/
theorem of_map_ok {x : Except P α} {f : α → β} {b : β} (h : x.map f = .ok b) :
    ∃ a, x = .ok a ∧ f a = b := by
  cases x with
  | error p => cases h
  | ok a => exact ⟨a, rfl, Except.ok.inj h⟩

/-- Two runs that were stopped for the same reason, or came to related ends. -/
inductive Outcomes (J : α → β → Prop) : Except P α → Except P β → Prop
  | stopped (p : P) : Outcomes J (.error p) (.error p)
  | ended {a : α} {b : β} (h : J a b) : Outcomes J (.ok a) (.ok b)

/-- Related ends stay related when both runs go on. -/
theorem Outcomes.bind {γ δ : Type u} {J : α → β → Prop} {K : γ → δ → Prop} {x : Except P α}
    {y : Except P β} {f : α → Except P γ} {g : β → Except P δ} (h : Outcomes J x y)
    (hnext : ∀ a b, J a b → Outcomes K (f a) (g b)) : Outcomes K (x >>= f) (y >>= g) := by
  cases h with
  | stopped p => exact .stopped p
  | ended h => exact hnext _ _ h

theorem Outcomes.imp {J K : α → β → Prop} {x : Except P α} {y : Except P β}
    (h : Outcomes J x y) (weaken : ∀ a b, J a b → K a b) : Outcomes K x y := by
  cases h with
  | stopped p => exact .stopped p
  | ended h => exact .ended (weaken _ _ h)

namespace Program

/-- The program on a host that answers from a state. -/
def run (host : Q → S → Except P (S × A)) : Program Q A R → S → Except P (S × R)
  | .done r, s => .ok (s, r)
  | .ask q next, s =>
    match host q s with
    | .error p => .error p
    | .ok (s, a) => (next a).run host s

/-- What is noted at the questions of a run, in order. -/
def trace (host : Q → S → Except P (S × A)) (note : Q → S → List M) :
    Program Q A R → S → List M
  | .done _, _ => []
  | .ask q next, s => note q s ++
    match host q s with
    | .error _ => []
    | .ok (s, a) => (next a).trace host note s

section Runs

variable {host : Q → S → Except P (S × A)} {note : Q → S → List M}

theorem run_ask_of_ok {q : Q} {next : A → Program Q A R} {s s' : S} {a : A}
    (h : host q s = .ok (s', a)) : (ask q next).run host s = (next a).run host s' := by
  simp only [run, h]

theorem trace_ask_of_ok {q : Q} {next : A → Program Q A R} {s s' : S} {a : A}
    (h : host q s = .ok (s', a)) :
    (ask q next).trace host note s = note q s ++ (next a).trace host note s' := by
  simp only [trace, h]

/-- A run that goes on was answered. -/
theorem answered_of_run {q : Q} {next : A → Program Q A R} {s : S} {out : S × R}
    (h : (ask q next).run host s = .ok out) :
    ∃ s' a, host q s = .ok (s', a) ∧ (next a).run host s' = .ok out := by
  cases hanswer : host q s with
  | error p =>
    simp only [run, hanswer] at h
    cases h
  | ok answered =>
    obtain ⟨s', a⟩ := answered
    rw [run_ask_of_ok hanswer] at h
    exact ⟨s', a, rfl, h⟩

/-- What every answer keeps, with the notes it adds, a run keeps with all its notes. -/
theorem run_noted {J : S → List M → Prop}
    (step : ∀ q s earlier s' a, J s earlier → host q s = .ok (s', a) →
      J s' (earlier ++ note q s))
    {p : Program Q A R} {s s' : S} {r : R} {earlier : List M} (hs : J s earlier)
    (hrun : p.run host s = .ok (s', r)) : J s' (earlier ++ p.trace host note s) := by
  induction p generalizing s earlier with
  | done r =>
    cases hrun
    rw [trace, List.append_nil]
    exact hs
  | ask q next ih =>
    obtain ⟨t, a, hanswer, hrun⟩ := answered_of_run hrun
    rw [trace_ask_of_ok hanswer, ← List.append_assoc]
    exact ih a (step q s earlier t a hs hanswer) hrun

end Runs

/-- Two hosts that answer alike in related states, where what is noted of the first may
be relied on. The relation may speak of everything noted so far. -/
theorem run_lockstep {J : List M → S → S' → Prop} {good : List M → Prop}
    {host : Q → S → Except P (S × A)} {host' : Q → S' → Except P (S' × A)}
    {note : Q → S → List M} (earlier_good : ∀ xs ys, good (xs ++ ys) → good xs)
    (alike : ∀ earlier q s s', J earlier s s' → good (earlier ++ note q s) →
      Outcomes (fun x y => x.2 = y.2 ∧ J (earlier ++ note q s) x.1 y.1) (host q s) (host' q s'))
    {p : Program Q A R} {earlier : List M} {s : S} {s' : S'} (hs : J earlier s s')
    (hgood : good (earlier ++ p.trace host note s)) :
    Outcomes (fun x y => x.2 = y.2 ∧ J (earlier ++ p.trace host note s) x.1 y.1) (p.run host s)
      (p.run host' s') := by
  induction p generalizing earlier s s' with
  | done r =>
    refine .ended ⟨rfl, ?_⟩
    rw [trace, List.append_nil]
    exact hs
  | ask q next ih =>
    rw [trace, ← List.append_assoc] at hgood ⊢
    have answers := alike earlier q s s' hs (earlier_good _ _ hgood)
    rw [run, run]
    generalize host q s = x at answers hgood ⊢
    generalize host' q s' = y at answers ⊢
    cases answers with
    | stopped p => exact .stopped p
    | ended both =>
      obtain ⟨hanswer, hstates⟩ := both
      dsimp only at hanswer hgood ⊢
      rw [← hanswer]
      exact ih _ hstates hgood

end Program

end HostPrograms
