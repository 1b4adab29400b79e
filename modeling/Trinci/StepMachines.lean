import Mathlib.Data.List.Basic
import Mathlib.Data.List.Nodup
import Mathlib.Logic.Function.Basic
import Mathlib.Tactic.Tauto

/-!
# Step machines and their recorded runs

A machine is a relation between a state, an input, the outputs it produces and
the next state. A run keeps the whole history, so a property may speak of what
was received earlier. Conditions on a run are conditions on each event and the
events before it; no fairness and no bound on the length is assumed.
-/

namespace StepMachines

universe u v w

/-- One handled input together with the states around it. -/
structure Event (S : Type u) (M : Type v) (O : Type w) where
  before : S
  input : M
  out : List O
  after : S

variable {S : Type u} {M : Type v} {O : Type w}

inductive Run (step : S → M → List O → S → Prop) (start : S) :
    List (Event S M O) → S → Prop
  | nil : Run step start [] start
  | snoc {trace : List (Event S M O)} {s s' : S} {m : M} {out : List O} :
      Run step start trace s → step s m out s' →
      Run step start (trace ++ [⟨s, m, out, s'⟩]) s'

/-- Every event of the trace satisfies `P` against the events before it. -/
def Along (P : List (Event S M O) → Event S M O → Prop)
    (trace : List (Event S M O)) : Prop :=
  ∀ earlier e later, trace = earlier ++ e :: later → P earlier e

theorem along_nil (P : List (Event S M O) → Event S M O → Prop) : Along P [] := by
  intro earlier e later h
  simp at h

theorem along_snoc {P : List (Event S M O) → Event S M O → Prop}
    {trace : List (Event S M O)} {e : Event S M O} :
    Along P (trace ++ [e]) ↔ Along P trace ∧ P trace e := by
  constructor
  · intro h
    refine ⟨fun earlier x later hx => ?_, h trace e [] rfl⟩
    exact h earlier x (later ++ [e]) (by simp [hx])
  · rintro ⟨hall, hlast⟩ earlier x later hx
    rcases List.eq_nil_or_concat later with rfl | ⟨init, last, rfl⟩
    · obtain ⟨rfl, hxe⟩ := List.append_inj' hx rfl
      obtain rfl : e = x := by simpa using hxe
      exact hlast
    · apply hall earlier x init
      have hcut : trace ++ [e] = (earlier ++ x :: init) ++ [last] := by simpa using hx
      exact (List.append_inj' hcut rfl).1

theorem Along.imp {P Q : List (Event S M O) → Event S M O → Prop}
    {trace : List (Event S M O)} (h : Along P trace)
    (weaken : ∀ earlier e, P earlier e → Q earlier e) : Along Q trace :=
  fun earlier e later htrace => weaken earlier e (h earlier e later htrace)

theorem Along.and {P Q : List (Event S M O) → Event S M O → Prop}
    {trace : List (Event S M O)} (hp : Along P trace) (hq : Along Q trace) :
    Along (fun earlier e => P earlier e ∧ Q earlier e) trace :=
  fun earlier e later htrace => ⟨hp earlier e later htrace, hq earlier e later htrace⟩

/-- A condition on single events. -/
theorem along_iff_forall {P : Event S M O → Prop} {trace : List (Event S M O)} :
    Along (fun _ e => P e) trace ↔ ∀ e ∈ trace, P e := by
  constructor
  · intro h e he
    obtain ⟨earlier, later, htrace⟩ := List.append_of_mem he
    exact h earlier e later htrace
  · rintro h earlier e later rfl
    exact h e (by simp)

/-- Checks a condition on events and the events before them. -/
def checkAlong (P : List (Event S M O) → Event S M O → Bool) (earlier : List (Event S M O)) :
    List (Event S M O) → Bool
  | [] => true
  | e :: rest => P earlier e && checkAlong P (earlier ++ [e]) rest

theorem checkAlong_append (P : List (Event S M O) → Event S M O → Bool)
    (earlier : List (Event S M O)) (xs : List (Event S M O)) (e : Event S M O)
    (ys : List (Event S M O)) (h : checkAlong P earlier (xs ++ e :: ys) = true) :
    P (earlier ++ xs) e = true := by
  induction xs generalizing earlier with
  | nil =>
    rw [List.nil_append, checkAlong, Bool.and_eq_true] at h
    simpa using h.1
  | cons x xs ih =>
    rw [List.cons_append, checkAlong, Bool.and_eq_true] at h
    simpa using ih (earlier ++ [x]) h.2

theorem along_of_check {P : List (Event S M O) → Event S M O → Bool}
    {trace : List (Event S M O)} (h : checkAlong P [] trace = true) :
    Along (fun earlier e => P earlier e = true) trace := by
  intro earlier e later htrace
  rw [htrace] at h
  simpa using checkAlong_append P [] earlier e later h

theorem along_of_all {P : Event S M O → Bool} {trace : List (Event S M O)}
    (h : trace.all P = true) : Along (fun _ e => P e = true) trace := by
  intro earlier e later htrace
  subst htrace
  exact List.all_eq_true.mp h e (by simp)

/-- At an event there was `P`, and at none after it `Q`. -/
def Since (P Q : Event S M O → Prop) : List (Event S M O) → Prop
  | [] => False
  | e :: later => (P e ∧ ∀ x ∈ later, ¬ Q x) ∨ Since P Q later

instance decidableSince (P Q : Event S M O → Prop) [DecidablePred P] [DecidablePred Q] :
    DecidablePred (Since P Q)
  | [] => .isFalse id
  | e :: later =>
    have := decidableSince P Q later
    inferInstanceAs (Decidable ((P e ∧ ∀ x ∈ later, ¬ Q x) ∨ Since P Q later))

theorem since_snoc {P Q : Event S M O → Prop} {trace : List (Event S M O)} {e : Event S M O} :
    Since P Q (trace ++ [e]) ↔ P e ∨ (¬ Q e ∧ Since P Q trace) := by
  induction trace with
  | nil => simp [Since]
  | cons x trace ih =>
    have none_later : (∀ y ∈ trace ++ [e], ¬ Q y) ↔ (∀ y ∈ trace, ¬ Q y) ∧ ¬ Q e := by
      simp [or_imp, forall_and]
    rw [List.cons_append, Since, Since, ih, none_later]
    tauto

variable {step : S → M → List O → S → Prop} {start : S}

/-- A history invariant that each permitted step keeps holds after every run
whose steps are all permitted. -/
theorem Run.invariant (Inv : List (Event S M O) → S → Prop)
    {ok : List (Event S M O) → Event S M O → Prop} (init : Inv [] start)
    (keep : ∀ trace s m out s', Inv trace s → step s m out s' →
      ok trace ⟨s, m, out, s'⟩ → Inv (trace ++ [⟨s, m, out, s'⟩]) s')
    {trace : List (Event S M O)} {s : S} (run : Run step start trace s)
    (permitted : Along ok trace) : Inv trace s := by
  induction run with
  | nil => exact init
  | snoc run hstep ih =>
    obtain ⟨hall, hlast⟩ := along_snoc.mp permitted
    exact keep _ _ _ _ _ (ih hall) hstep hlast

/-- An invariant that every step keeps holds after every run. -/
theorem Run.preserves (Inv : S → Prop) (init : Inv start)
    (keep : ∀ s m out s', Inv s → step s m out s' → Inv s')
    {trace : List (Event S M O)} {s : S} (run : Run step start trace s) : Inv s := by
  induction run with
  | nil => exact init
  | snoc _ hstep ih => exact keep _ _ _ _ ih hstep

/-- What an invariant that every step keeps shows of each event. -/
theorem Run.shows {P : Event S M O → Prop} (Inv : S → Prop) (init : Inv start)
    (keep : ∀ s m out s', Inv s → step s m out s' → Inv s')
    (shows : ∀ s m out s', Inv s → step s m out s' → P ⟨s, m, out, s'⟩)
    {trace : List (Event S M O)} {s : S} (run : Run step start trace s) :
    Along (fun _ e => P e) trace := by
  induction run with
  | nil => exact along_nil _
  | snoc run hstep ih =>
    exact along_snoc.mpr ⟨ih, shows _ _ _ _ (run.preserves Inv init keep) hstep⟩

/-- The same invariant read off at every event of the run. -/
theorem Run.along (Inv : List (Event S M O) → S → Prop)
    {ok P : List (Event S M O) → Event S M O → Prop} (init : Inv [] start)
    (keep : ∀ trace s m out s', Inv trace s → step s m out s' →
      ok trace ⟨s, m, out, s'⟩ → Inv (trace ++ [⟨s, m, out, s'⟩]) s')
    (shows : ∀ trace s m out s', Inv trace s → step s m out s' →
      ok trace ⟨s, m, out, s'⟩ → P trace ⟨s, m, out, s'⟩)
    {trace : List (Event S M O)} {s : S} (run : Run step start trace s)
    (permitted : Along ok trace) : Along P trace := by
  induction run with
  | nil => exact along_nil P
  | snoc run hstep ih =>
    obtain ⟨hall, hlast⟩ := along_snoc.mp permitted
    refine along_snoc.mpr ⟨ih hall, shows _ _ _ _ _ ?_ hstep hlast⟩
    exact run.invariant Inv init keep hall

/-- A run up to one of its events, and the step that it records. -/
theorem Run.split {trace : List (Event S M O)} {s : S} (run : Run step start trace s)
    {earlier later : List (Event S M O)} {e : Event S M O} (h : trace = earlier ++ e :: later) :
    Run step start earlier e.before ∧ step e.before e.input e.out e.after := by
  induction run generalizing later with
  | nil => simp at h
  | snoc run hstep ih =>
    obtain rfl | ⟨later, last, rfl⟩ := List.eq_nil_or_concat' later
    · obtain ⟨rfl, same⟩ := List.append_inj' h rfl
      obtain rfl := List.singleton_inj.mp same
      exact ⟨run, hstep⟩
    · rw [← List.cons_append, ← List.append_assoc] at h
      exact ih (List.append_inj' h rfl).1

/-- Everything the machine emitted along a trace, in order. -/
def outputs (trace : List (Event S M O)) : List O :=
  trace.flatMap Event.out

@[simp]
theorem outputs_nil : outputs ([] : List (Event S M O)) = [] := rfl

@[simp]
theorem outputs_snoc (trace : List (Event S M O)) (e : Event S M O) :
    outputs (trace ++ [e]) = outputs trace ++ e.out := by
  simp [outputs]

/-- Several smaller steps taken while one input is handled. -/
inductive Chain (micro : S → List O → S → Prop) : S → List O → S → Prop
  | refl (s : S) : Chain micro s [] s
  | tail {s s' s'' : S} {out out' : List O} :
      Chain micro s out s' → micro s' out' s'' → Chain micro s (out ++ out') s''

theorem Chain.single {micro : S → List O → S → Prop} {s s' : S} {out : List O}
    (h : micro s out s') : Chain micro s out s' := by
  simpa using Chain.tail (Chain.refl s) h

theorem Chain.trans {micro : S → List O → S → Prop} {s s' s'' : S}
    {out out' : List O} (first : Chain micro s out s')
    (second : Chain micro s' out' s'') : Chain micro s (out ++ out') s'' := by
  induction second with
  | refl => simpa using first
  | tail _ h ih =>
    rw [← List.append_assoc]
    exact ih.tail h

/-- The invariant may count the outputs produced so far within the chain. -/
theorem Chain.invariant {micro : S → List O → S → Prop} (Inv : List O → S → Prop)
    (keep : ∀ done s out s', Inv done s → micro s out s' → Inv (done ++ out) s')
    {s s' : S} {out : List O} (chain : Chain micro s out s') :
    Inv [] s → Inv out s' := by
  intro init
  induction chain with
  | refl => exact init
  | tail _ h ih => exact keep _ _ _ _ ih h

section Functional

variable {E : Type*}

theorem bind_eq_ok {α β : Type v} {x : Except E α} {f : α → Except E β} {b : β} :
    (x >>= f) = .ok b ↔ ∃ a, x = .ok a ∧ f a = .ok b := by
  cases x with
  | error e => simp [bind, Except.bind]
  | ok a => simp [bind, Except.bind]

theorem bind_eq_error {α β : Type v} {x : Except E α} {f : α → Except E β} {e : E} :
    (x >>= f) = .error e ↔ x = .error e ∨ ∃ a, x = .ok a ∧ f a = .error e := by
  cases x with
  | error e' => simp [bind, Except.bind]
  | ok a => simp [bind, Except.bind]

/-- The relation computed by a step function that may fail. -/
def Computes (f : S → M → Except E (S × List O)) (s : S) (m : M) (out : List O)
    (s' : S) : Prop :=
  f s m = .ok (s', out)

/-- Runs a step function over a list of inputs and records the events. -/
def exec (f : S → M → Except E (S × List O)) :
    S → List M → Except E (List (Event S M O) × S)
  | s, [] => .ok ([], s)
  | s, m :: ms =>
    match f s m with
    | .error e => .error e
    | .ok (s', out) =>
      match exec f s' ms with
      | .error e => .error e
      | .ok (trace, last) => .ok (⟨s, m, out, s'⟩ :: trace, last)

theorem Run.cons {s s' : S} {m : M} {out : List O} (h : step s m out s')
    {trace : List (Event S M O)} {last : S} (run : Run step s' trace last) :
    Run step s (⟨s, m, out, s'⟩ :: trace) last := by
  induction run with
  | nil => simpa using Run.snoc (Run.nil : Run step s [] s) h
  | snoc _ hstep ih => simpa using Run.snoc ih hstep

/-- The first input is handled, and the rest of them from where it leads. -/
theorem exec_cons_eq_ok {f : S → M → Except E (S × List O)} {s last : S} {m : M} {ms : List M}
    {trace : List (Event S M O)} :
    exec f s (m :: ms) = .ok (trace, last) ↔ ∃ s' out later, f s m = .ok (s', out) ∧
      exec f s' ms = .ok (later, last) ∧ trace = ⟨s, m, out, s'⟩ :: later := by
  constructor
  · intro h
    rw [exec] at h
    cases hf : f s m with
    | error e => simp [hf] at h
    | ok pair =>
      obtain ⟨s', out⟩ := pair
      cases hrest : exec f s' ms with
      | error e => simp [hf, hrest] at h
      | ok rest =>
        obtain ⟨later, final⟩ := rest
        simp only [hf, hrest, Except.ok.injEq, Prod.mk.injEq] at h
        obtain ⟨rfl, rfl⟩ := h
        exact ⟨s', out, later, rfl, hrest, rfl⟩
  · rintro ⟨s', out, later, hf, hrest, rfl⟩
    simp only [exec, hf, hrest]

theorem exec_run {f : S → M → Except E (S × List O)} {s last : S} {ms : List M}
    {trace : List (Event S M O)} (h : exec f s ms = .ok (trace, last)) :
    Run (Computes f) s trace last := by
  induction ms generalizing s trace with
  | nil =>
    simp only [exec, Except.ok.injEq, Prod.mk.injEq] at h
    obtain ⟨rfl, rfl⟩ := h
    exact Run.nil
  | cons m ms ih =>
    obtain ⟨s', out, later, hf, hrest, rfl⟩ := exec_cons_eq_ok.mp h
    exact Run.cons hf (ih hrest)

/-- The events of a run are those of its inputs. -/
theorem exec_inputs {f : S → M → Except E (S × List O)} {s last : S} {ms : List M}
    {trace : List (Event S M O)} (h : exec f s ms = .ok (trace, last)) :
    trace.map Event.input = ms := by
  induction ms generalizing s trace with
  | nil =>
    cases h
    rfl
  | cons m ms ih =>
    obtain ⟨s', out, later, hf, hrest, rfl⟩ := exec_cons_eq_ok.mp h
    rw [List.map_cons, ih hrest]

/-- What every input that is given preserves holds where they lead. -/
theorem exec_preserves {f : S → M → Except E (S × List O)} {Inv : S → Prop} {Given : M → Prop}
    (keeps : ∀ s m s' out, Inv s → Given m → f s m = .ok (s', out) → Inv s') {s last : S}
    {ms : List M} {trace : List (Event S M O)} (inv : Inv s) (given : ∀ m ∈ ms, Given m)
    (h : exec f s ms = .ok (trace, last)) : Inv last := by
  induction ms generalizing s trace with
  | nil =>
    cases h
    exact inv
  | cons m ms ih =>
    obtain ⟨s', out, later, hf, hrest, -⟩ := exec_cons_eq_ok.mp h
    have next := keeps s m s' out inv (given m List.mem_cons_self) hf
    exact ih next (fun m' hm' => given m' (List.mem_cons_of_mem _ hm')) hrest

/-- The inputs are handled to their end exactly if each of them is safe, where under the
invariant the safe ones are those that are handled. -/
theorem exec_isOk_iff_forall {f : S → M → Except E (S × List O)} {Inv : S → Prop}
    {Given Safe : M → Prop}
    (handled : ∀ s m, Inv s → Given m → ((∃ s' out, f s m = .ok (s', out)) ↔ Safe m))
    (keeps : ∀ s m s' out, Inv s → Given m → f s m = .ok (s', out) → Inv s') {s : S}
    {ms : List M} (inv : Inv s) (given : ∀ m ∈ ms, Given m) :
    (∃ trace last, exec f s ms = .ok (trace, last)) ↔ ∀ m ∈ ms, Safe m := by
  induction ms generalizing s with
  | nil =>
    refine iff_of_true ⟨[], s, rfl⟩ ?_
    intro m hm
    cases hm
  | cons m ms ih =>
    have first : Given m := given m List.mem_cons_self
    have later : ∀ m' ∈ ms, Given m' := fun m' hm' => given m' (List.mem_cons_of_mem _ hm')
    rw [List.forall_mem_cons, ← handled s m inv first]
    constructor
    · rintro ⟨trace, last, h⟩
      obtain ⟨s', out, rest, hf, hrest, -⟩ := exec_cons_eq_ok.mp h
      have next := keeps s m s' out inv first hf
      exact ⟨⟨s', out, hf⟩, (ih next later).mp ⟨rest, last, hrest⟩⟩
    · rintro ⟨⟨s', out, hf⟩, safe⟩
      obtain ⟨rest, last, hrest⟩ := (ih (keeps s m s' out inv first hf) later).mpr safe
      exact ⟨_, last, exec_cons_eq_ok.mpr ⟨s', out, rest, hf, hrest, rfl⟩⟩

/-- The events of the run over `ms`, where it does not fail. -/
def traceOf (f : S → M → Except E (S × List O)) (s : S) (ms : List M) :
    List (Event S M O) :=
  match exec f s ms with
  | .ok (trace, _) => trace
  | .error _ => []

/-- The last state of the run over `ms`, where it does not fail. -/
def finalOf (f : S → M → Except E (S × List O)) (s : S) (ms : List M) : S :=
  match exec f s ms with
  | .ok (_, last) => last
  | .error _ => s

theorem traceOf_run {f : S → M → Except E (S × List O)} {s : S} {l : List M}
    (h : (exec f s l).isOk = true) :
    Run (Computes f) s (traceOf f s l) (finalOf f s l) := by
  cases hexec : exec f s l with
  | error e => simp [hexec, Except.isOk, Except.toBool] at h
  | ok result =>
    obtain ⟨trace, last⟩ := result
    simp only [traceOf, finalOf, hexec]
    exact exec_run hexec

end Functional

section Interleaving

variable {I : Type*} [DecidableEq I] {E : Type*}

/-- Several machines of one kind side by side: one of them takes a step, and its
outputs are marked with its name. -/
def Interleaved (f : S → M → Except E (S × List O)) (s : I → S) (m : I × M) :
    Except E ((I → S) × List (I × O)) :=
  match f (s m.1) m.2 with
  | .ok (s', out) => .ok (Function.update s m.1 s', out.map (m.1, ·))
  | .error e => .error e

/-- An event as the machine that took the step sees it. -/
def Event.own (e : Event (I → S) (I × M) (I × O)) : Event S M O where
  before := e.before e.input.1
  input := e.input.2
  out := e.out.map Prod.snd
  after := e.after e.input.1

/-- The events of one machine in an interleaved trace. -/
def component (i : I) (trace : List (Event (I → S) (I × M) (I × O))) : List (Event S M O) :=
  trace.filterMap fun e => if e.input.1 = i then some e.own else none

/-- What all the machines emitted, without the marks. -/
def sent (trace : List (Event (I → S) (I × M) (I × O))) : List O :=
  trace.flatMap fun e => e.own.out

theorem mem_component {i : I} {trace : List (Event (I → S) (I × M) (I × O))} {e : Event S M O} :
    e ∈ component i trace ↔ ∃ x ∈ trace, x.input.1 = i ∧ x.own = e := by
  simp [component]

theorem mem_sent {trace : List (Event (I → S) (I × M) (I × O))} {o : O} :
    o ∈ sent trace ↔ ∃ i, o ∈ outputs (component i trace) := by
  constructor
  · intro h
    obtain ⟨x, hx, ho⟩ := List.mem_flatMap.mp h
    exact ⟨x.input.1, List.mem_flatMap.mpr ⟨x.own, mem_component.mpr ⟨x, hx, rfl, rfl⟩, ho⟩⟩
  · rintro ⟨i, h⟩
    obtain ⟨e, he, ho⟩ := List.mem_flatMap.mp h
    obtain ⟨x, hx, -, rfl⟩ := mem_component.mp he
    exact List.mem_flatMap.mpr ⟨x, hx, ho⟩

theorem component_snoc {i : I} {trace : List (Event (I → S) (I × M) (I × O))}
    {e : Event (I → S) (I × M) (I × O)} :
    component i (trace ++ [e]) =
      if e.input.1 = i then component i trace ++ [e.own] else component i trace := by
  rw [component, List.filterMap_append]
  by_cases same : e.input.1 = i
  · simp [same, component]
  · simp [same, component]

omit [DecidableEq I] in
@[simp]
theorem sent_snoc {trace : List (Event (I → S) (I × M) (I × O))}
    {e : Event (I → S) (I × M) (I × O)} : sent (trace ++ [e]) = sent trace ++ e.own.out := by
  simp [sent]

/-- A condition on single events passes to the events of each machine. -/
theorem Along.component {P : Event S M O → Prop} {trace : List (Event (I → S) (I × M) (I × O))}
    (h : Along (fun _ e => P e.own) trace) (i : I) :
    Along (fun _ e => P e) (component i trace) := by
  intro earlier e later htrace
  have he : e ∈ StepMachines.component i trace := by simp [htrace]
  obtain ⟨x, hx, -, rfl⟩ := mem_component.mp he
  obtain ⟨before, after, hsplit⟩ := List.append_of_mem hx
  exact h before x after hsplit

variable {f : S → M → Except E (S × List O)} {s s' : I → S}

theorem interleaved_ok {m : I × M} {out : List (I × O)}
    (h : Interleaved f s m = .ok (s', out)) :
    ∃ t own, f (s m.1) m.2 = .ok (t, own) ∧ s' = Function.update s m.1 t ∧
      out = own.map (m.1, ·) := by
  unfold Interleaved at h
  cases hf : f (s m.1) m.2 with
  | error e => simp [hf] at h
  | ok pair =>
    simp only [hf, Except.ok.injEq, Prod.mk.injEq] at h
    exact ⟨pair.1, pair.2, rfl, h.1.symm, h.2.symm⟩

/-- Each machine of an interleaved run has a run of its own. -/
theorem Run.component {trace : List (Event (I → S) (I × M) (I × O))}
    (run : Run (Computes (Interleaved f)) s trace s') (i : I) :
    Run (Computes f) (s i) (component i trace) (s' i) := by
  induction run with
  | nil => exact Run.nil
  | @snoc trace t t' m out _ hstep ih =>
    obtain ⟨u, own, hf, rfl, rfl⟩ := interleaved_ok hstep
    rw [StepMachines.component, List.filterMap_append]
    by_cases hi : m.1 = i
    · subst hi
      have hown : (own.map (m.1, ·)).map Prod.snd = own := by simp [Function.comp_def]
      have hlast := ih.snoc hf
      simpa [hown, Event.own, StepMachines.component] using hlast
    · have hother : Function.update t m.1 u i = t i := Function.update_of_ne (Ne.symm hi) u t
      simpa [hi, hother, StepMachines.component] using ih

end Interleaving

end StepMachines
