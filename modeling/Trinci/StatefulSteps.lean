import Mathlib.Init

/-!
# Computations over a state that survives failure

A computation changes a state and returns a result or an error; the changes made
before an error stay. What a computation does to the state is a relation between
the states around it. The relations used here compose along a computation, so a
property of a long program follows from one rule for each way to build it.
-/

namespace StatefulSteps

universe u v

abbrev Stateful (S : Type u) (E : Type u) := ExceptT E (StateM S)

variable {S E : Type u} {α β : Type u}

/-- The state after a computation, also when it fails. -/
def after (x : Stateful S E α) (s : S) : S := (x.run.run s).2

/-- The result of a computation. -/
def result (x : Stateful S E α) (s : S) : Except E α := (x.run.run s).1

@[simp]
theorem after_pure (a : α) (s : S) : after (pure a : Stateful S E α) s = s := rfl

@[simp]
theorem result_pure (a : α) (s : S) : result (pure a : Stateful S E α) s = .ok a := rfl

@[simp]
theorem after_throw (e : E) (s : S) : after (throw e : Stateful S E α) s = s := rfl

@[simp]
theorem result_throw (e : E) (s : S) : result (throw e : Stateful S E α) s = .error e := rfl

@[simp]
theorem after_get (s : S) : after (get : Stateful S E S) s = s := rfl

@[simp]
theorem result_get (s : S) : result (get : Stateful S E S) s = .ok s := rfl

@[simp]
theorem after_modify (f : S → S) (s : S) :
    after (modify f : Stateful S E PUnit) s = f s := rfl

@[simp]
theorem result_modify (f : S → S) (s : S) :
    result (modify f : Stateful S E PUnit) s = .ok ⟨⟩ := rfl

@[simp]
theorem after_get_bind (f : S → Stateful S E β) (s : S) :
    after (get >>= f) s = after (f s) s := rfl

@[simp]
theorem after_modify_bind (g : S → S) (f : PUnit → Stateful S E β) (s : S) :
    after (modify g >>= f) s = after (f ⟨⟩) (g s) := rfl

theorem run_bind (x : Stateful S E α) (f : α → Stateful S E β) (s : S) :
    (x >>= f).run.run s = match x.run.run s with
      | (.ok a, t) => (f a).run.run t
      | (.error e, t) => (.error e, t) := by
  change (match x.run.run s with
    | (r, t) => (ExceptT.bindCont f r).run t) = _
  cases x.run.run s with
  | mk r t => cases r <;> rfl

/-- A sequence whose first part succeeds goes on with its result. -/
theorem bind_ok {x : Stateful S E α} {f : α → Stateful S E β} {s : S} {a : α}
    (h : result x s = .ok a) :
    after (x >>= f) s = after (f a) (after x s) ∧
      result (x >>= f) s = result (f a) (after x s) := by
  have hrun : x.run.run s = (.ok a, after x s) := Prod.ext h rfl
  have hboth := run_bind x f s
  rw [hrun] at hboth
  exact ⟨congrArg Prod.snd hboth, congrArg Prod.fst hboth⟩

/-- A sequence whose first part fails ends there. -/
theorem bind_error {x : Stateful S E α} {f : α → Stateful S E β} {s : S} {e : E}
    (h : result x s = .error e) :
    after (x >>= f) s = after x s ∧ result (x >>= f) s = .error e := by
  have hrun : x.run.run s = (.error e, after x s) := Prod.ext h rfl
  have hboth := run_bind x f s
  rw [hrun] at hboth
  exact ⟨congrArg Prod.snd hboth, congrArg Prod.fst hboth⟩

theorem run_tryCatch (x : Stateful S E α) (f : E → Stateful S E α) (s : S) :
    (tryCatch x f).run.run s = match x.run.run s with
      | (.ok a, t) => (.ok a, t)
      | (.error e, t) => (f e).run.run t := by
  change (match x.run.run s with
    | (r, t) => (match r with
      | .ok a => pure (.ok a)
      | .error e => (f e).run : StateM S (Except E α)).run t) = _
  cases x.run.run s with
  | mk r t => cases r <;> rfl

theorem tryCatch_ok {x : Stateful S E α} {f : E → Stateful S E α} {s : S} {a : α}
    (h : result x s = .ok a) : after (tryCatch x f) s = after x s := by
  have hrun : x.run.run s = (.ok a, after x s) := Prod.ext h rfl
  rw [after, run_tryCatch, hrun]

theorem tryCatch_error {x : Stateful S E α} {f : E → Stateful S E α} {s : S} {e : E}
    (h : result x s = .error e) :
    after (tryCatch x f) s = after (f e) (after x s) := by
  have hrun : x.run.run s = (.error e, after x s) := Prod.ext h rfl
  rw [after, run_tryCatch, hrun]
  rfl

/-- A sequence whose last part only returns. -/
theorem after_bind_pure (x : Stateful S E α) (f : α → β) (s : S) :
    after (x >>= fun a => pure (f a)) s = after x s := by
  cases h : result x s with
  | error e => exact (bind_error h).1
  | ok a => exact (bind_ok h).1

/-- A sequence whose last part leaves the state. -/
theorem after_bind_quiet {x : Stateful S E α} {f : α → Stateful S E β} {s : S}
    (quiet : ∀ a t, after (f a) t = t) : after (x >>= f) s = after x s := by
  cases h : result x s with
  | error e => exact (bind_error h).1
  | ok a => exact (bind_ok h).1.trans (quiet a _)

/-- A sequence of parts that leave the state. -/
theorem after_quiet_bind {x : Stateful S E α} {f : α → Stateful S E β} {s : S}
    (quiet : after x s = s) (later : ∀ a, after (f a) s = s) : after (x >>= f) s = s := by
  cases h : result x s with
  | error e => exact (bind_error h).1.trans quiet
  | ok a =>
    rw [(bind_ok h).1, quiet]
    exact later a

/-- What a sequence that succeeds went through. -/
theorem of_bind_ok {x : Stateful S E α} {f : α → Stateful S E β} {s : S} {b : β}
    (h : result (x >>= f) s = .ok b) :
    ∃ a, result x s = .ok a ∧ result (f a) (after x s) = .ok b ∧
      after (x >>= f) s = after (f a) (after x s) := by
  cases hx : result x s with
  | error e =>
    rw [(bind_error hx).2] at h
    cases h
  | ok a =>
    rw [(bind_ok hx).2] at h
    exact ⟨a, rfl, h, (bind_ok hx).1⟩

/-- The same with a first part that leaves the state as it was. -/
theorem of_quiet_bind_ok {x : Stateful S E α} {f : α → Stateful S E β} {s : S} {b : β}
    (quiet : after x s = s) (h : result (x >>= f) s = .ok b) :
    ∃ a, result x s = .ok a ∧ result (f a) s = .ok b ∧ after (x >>= f) s = after (f a) s := by
  obtain ⟨a, hx, hf, hafter⟩ := of_bind_ok h
  rw [quiet] at hf hafter
  exact ⟨a, hx, hf, hafter⟩

/-- What follows a check that stops follows what comes after the check. -/
theorem guard_bind {γ : Type u} {c : Prop} [Decidable c] {e : E} {f : α → Stateful S E β}
    {g : α → Stateful S E γ} {x : Stateful S E β} {y : Stateful S E γ} {k : β → Stateful S E γ}
    (h : x >>= k = y) :
    (if c then throw e >>= f else x) >>= k = if c then throw e >>= g else y := by
  by_cases hc : c
  · rw [if_pos hc, if_pos hc]
    rfl
  · rw [if_neg hc, if_neg hc, h]

/-- A check that stops was passed. -/
theorem guard_ok_iff {c : Prop} [Decidable c] {e : E} {f : α → Stateful S E β}
    {x : Stateful S E β} {s : S} {b : β} :
    result (if c then throw e >>= f else x) s = .ok b ↔ ¬ c ∧ result x s = .ok b := by
  by_cases hc : c
  · rw [if_pos hc]
    refine iff_of_false ?_ fun h => h.1 hc
    intro h
    cases h
  · rw [if_neg hc]
    exact (and_iff_right hc).symm

/-- Every execution relates the states around it by `R`. -/
def Moves (R : S → S → Prop) (x : Stateful S E α) : Prop := ∀ s, R s (after x s)

section Moves

variable {R R' Q : S → S → Prop}

theorem Moves.pure (refl : ∀ s, R s s) (a : α) : Moves R (pure a : Stateful S E α) :=
  fun s => refl s

theorem Moves.throw (refl : ∀ s, R s s) (e : E) : Moves R (throw e : Stateful S E α) :=
  fun s => refl s

theorem Moves.get (refl : ∀ s, R s s) : Moves R (get : Stateful S E S) :=
  fun s => refl s

theorem Moves.modify {f : S → S} (h : ∀ s, R s (f s)) : Moves R (modify f : Stateful S E PUnit) :=
  fun s => h s

theorem Moves.imp {x : Stateful S E α} (hx : Moves R x) (weaken : ∀ s t, R s t → Q s t) :
    Moves Q x :=
  fun s => weaken s _ (hx s)

/-- A sequence that stops early has made the first move only. -/
theorem Moves.bind {x : Stateful S E α} {f : α → Stateful S E β} (hx : Moves R x)
    (hf : ∀ a, Moves R' (f a)) (stop : ∀ s t, R s t → Q s t)
    (seq : ∀ s t u, R s t → R' t u → Q s u) : Moves Q (x >>= f) := by
  intro s
  cases h : result x s with
  | error e =>
    rw [(bind_error h).1]
    exact stop s _ (hx s)
  | ok a =>
    rw [(bind_ok h).1]
    exact seq s _ _ (hx s) (hf a _)

end Moves

/-- Whatever the computation returns has the property. -/
def Yields (P : α → Prop) (x : Stateful S E α) : Prop := ∀ s a, result x s = .ok a → P a

namespace Yields

variable {P : α → Prop} {Q : β → Prop}

theorem pure {a : α} (h : P a) : Yields P (pure a : Stateful S E α) := by
  intro s b hb
  cases hb
  exact h

theorem throw (e : E) : Yields P (throw e : Stateful S E α) := by
  intro s a ha
  cases ha

/-- The last part of a sequence returns. -/
theorem last {x : Stateful S E α} {f : α → Stateful S E β} (hf : ∀ a, Yields Q (f a)) :
    Yields Q (x >>= f) := by
  intro s b hb
  obtain ⟨a, -, hlast, -⟩ := of_bind_ok hb
  exact hf a _ b hlast

/-- What the first part returns may be used for what follows. -/
theorem bind {x : Stateful S E α} {f : α → Stateful S E β} (hx : Yields P x)
    (hf : ∀ a, P a → Yields Q (f a)) : Yields Q (x >>= f) := by
  intro s b hb
  obtain ⟨a, hfirst, hlast, -⟩ := of_bind_ok hb
  exact hf a (hx s a hfirst) _ b hlast

theorem ite {c : Prop} [Decidable c] {x y : Stateful S E α} (hx : c → Yields P x)
    (hy : ¬ c → Yields P y) : Yields P (if c then x else y) := by
  by_cases hc : c
  · rw [if_pos hc]
    exact hx hc
  · rw [if_neg hc]
    exact hy hc

end Yields

/-- Every error that the computation can end with is allowed. -/
def StopsWith (allowed : E → Prop) (x : Stateful S E α) : Prop :=
  ∀ s e, result x s = .error e → allowed e

namespace StopsWith

variable {allowed : E → Prop} {x y : Stateful S E α}

theorem of_ok (h : ∀ s, ∃ a, result x s = .ok a) : StopsWith allowed x := by
  intro s e he
  obtain ⟨a, ha⟩ := h s
  rw [ha] at he
  cases he

theorem pure (a : α) : StopsWith allowed (pure a : Stateful S E α) := of_ok fun _ => ⟨a, rfl⟩

theorem throw {e : E} (h : allowed e) : StopsWith allowed (throw e : Stateful S E α) := by
  intro s e' he
  cases he
  exact h

theorem get : StopsWith allowed (get : Stateful S E S) := of_ok fun s => ⟨s, rfl⟩

theorem modify (f : S → S) : StopsWith allowed (modify f : Stateful S E PUnit) :=
  of_ok fun _ => ⟨⟨⟩, rfl⟩

/-- What the first part is known to return may be used for what follows. -/
theorem bind_of {f : α → Stateful S E β} (hx : StopsWith allowed x)
    (hf : ∀ s a, result x s = .ok a → StopsWith allowed (f a)) :
    StopsWith allowed (x >>= f) := by
  intro s e he
  cases h : result x s with
  | error e' =>
    rw [(bind_error h).2] at he
    cases he
    exact hx s _ h
  | ok a =>
    rw [(bind_ok h).2] at he
    exact hf s a h _ e he

theorem bind {f : α → Stateful S E β} (hx : StopsWith allowed x)
    (hf : ∀ a, StopsWith allowed (f a)) : StopsWith allowed (x >>= f) :=
  bind_of hx fun _ a _ => hf a

theorem ite {c : Prop} [Decidable c] (hx : c → StopsWith allowed x)
    (hy : ¬ c → StopsWith allowed y) : StopsWith allowed (if c then x else y) := by
  by_cases hc : c
  · rw [if_pos hc]
    exact hx hc
  · rw [if_neg hc]
    exact hy hc

end StopsWith

/-- A computation that leaves the state as it was whenever it fails. -/
def Atomic (x : Stateful S E α) : Prop := ∀ s e, result x s = .error e → after x s = s

namespace Atomic

variable {x y : Stateful S E α}

theorem of_ok (h : ∀ s, ∃ a, result x s = .ok a) : Atomic x := by
  intro s e he
  obtain ⟨a, ha⟩ := h s
  rw [ha] at he
  cases he

theorem pure (a : α) : Atomic (pure a : Stateful S E α) := of_ok fun _ => ⟨a, rfl⟩

theorem throw (e : E) : Atomic (throw e : Stateful S E α) := fun _ _ _ => rfl

theorem modify (f : S → S) : Atomic (modify f : Stateful S E PUnit) := of_ok fun _ => ⟨⟨⟩, rfl⟩

/-- What is asked for first changes nothing. -/
theorem quiet_bind {f : α → Stateful S E β} (quiet : ∀ s, after x s = s)
    (hf : ∀ a, Atomic (f a)) : Atomic (x >>= f) := by
  intro s e he
  cases h : result x s with
  | error e' => exact (bind_error h).1.trans (quiet s)
  | ok a =>
    rw [(bind_ok h).2, quiet s] at he
    rw [(bind_ok h).1, quiet s]
    exact hf a s e he

/-- What comes after it cannot fail. -/
theorem bind_ok {f : α → Stateful S E β} (hx : Atomic x) (hf : ∀ a s, ∃ b, result (f a) s = .ok b) :
    Atomic (x >>= f) := by
  intro s e he
  cases h : result x s with
  | error e' => exact (bind_error h).1.trans (hx s e' h)
  | ok a =>
    obtain ⟨b, hb⟩ := hf a (after x s)
    rw [(StatefulSteps.bind_ok h).2, hb] at he
    cases he

theorem ite {c : Prop} [Decidable c] (hx : Atomic x) (hy : Atomic y) :
    Atomic (if c then x else y) := by
  by_cases hc : c
  · rw [if_pos hc]
    exact hx
  · rw [if_neg hc]
    exact hy

end Atomic

/-- Two computations that return the same and keep a relation between the states they
run in. -/
def Lockstep {S S' : Type u} (J : S → S' → Prop) (x : Stateful S E α) (y : Stateful S' E α) :
    Prop :=
  ∀ s s', J s s' → result x s = result y s' ∧ J (after x s) (after y s')

namespace Lockstep

variable {S' : Type u} {J : S → S' → Prop}

theorem pure (a : α) : Lockstep J (pure a : Stateful S E α) (pure a : Stateful S' E α) :=
  fun _ _ h => ⟨rfl, h⟩

theorem throw (e : E) : Lockstep J (throw e : Stateful S E α) (throw e : Stateful S' E α) :=
  fun _ _ h => ⟨rfl, h⟩

theorem modify {f : S → S} {g : S' → S'} (h : ∀ s s', J s s' → J (f s) (g s')) :
    Lockstep J (modify f : Stateful S E PUnit) (modify g : Stateful S' E PUnit) :=
  fun s s' hs => ⟨rfl, h s s' hs⟩

theorem bind {x : Stateful S E α} {y : Stateful S' E α} {f : α → Stateful S E β}
    {g : α → Stateful S' E β} (hx : Lockstep J x y) (hf : ∀ a, Lockstep J (f a) (g a)) :
    Lockstep J (x >>= f) (y >>= g) := by
  intro s s' hs
  obtain ⟨hresult, hafter⟩ := hx s s' hs
  cases h : result x s with
  | error e =>
    have h' : result y s' = .error e := hresult ▸ h
    rw [(bind_error h).1, (bind_error h).2, (bind_error h').1, (bind_error h').2]
    exact ⟨rfl, hafter⟩
  | ok a =>
    have h' : result y s' = .ok a := hresult ▸ h
    rw [(bind_ok h).1, (bind_ok h).2, (bind_ok h').1, (bind_ok h').2]
    exact hf a _ _ hafter

/-- Both go on with the states they read. -/
theorem get {f : S → Stateful S E β} {g : S' → Stateful S' E β}
    (h : ∀ s s', J s s' → Lockstep J (f s) (g s')) :
    Lockstep J (get >>= f) (get >>= g) :=
  fun s s' hs => h s s' hs s s' hs

end Lockstep

/-- What a sequence needs to succeed, and what it returns then. -/
theorem bind_ok_iff {x : Stateful S E α} {f : α → Stateful S E β} {s : S} {b : β} :
    result (x >>= f) s = .ok b ↔
      ∃ a, result x s = .ok a ∧ result (f a) (after x s) = .ok b := by
  constructor
  · intro h
    obtain ⟨a, hx, hf, -⟩ := of_bind_ok h
    exact ⟨a, hx, hf⟩
  · rintro ⟨a, hx, hf⟩
    rw [(bind_ok hx).2, hf]

/-! ## Elements one after the other -/

section Each

variable {next : α → S → S} {P Q : α → S → Prop} {R R' : α → S → β → Prop} {a : α} {as : List α}
  {s : S} {bs : List β}

/-- A property of each element, in the state that those before it leave. -/
def Each (next : α → S → S) (P : α → S → Prop) : List α → S → Prop
  | [], _ => True
  | a :: as, s => P a s ∧ Each next P as (next a s)

/-- A relation of each element to the result at its place. -/
def EachWith (next : α → S → S) (R : α → S → β → Prop) : List α → S → List β → Prop
  | [], _, bs => bs = []
  | a :: as, s, bs => ∃ b rest, bs = b :: rest ∧ R a s b ∧ EachWith next R as (next a s) rest

theorem Each.imp (h : Each next P as s) (weaken : ∀ a s, P a s → Q a s) : Each next Q as s := by
  induction as generalizing s with
  | nil => trivial
  | cons a as ih => exact ⟨weaken a s h.1, ih h.2⟩

theorem EachWith.length_eq (h : EachWith next R as s bs) : bs.length = as.length := by
  induction as generalizing s bs with
  | nil =>
    obtain rfl : bs = [] := h
    rfl
  | cons a as ih =>
    obtain ⟨b, rest, rfl, -, later⟩ := h
    rw [List.length_cons, List.length_cons, ih later]

theorem EachWith.imp (h : EachWith next R as s bs) (weaken : ∀ a s b, R a s b → R' a s b) :
    EachWith next R' as s bs := by
  induction as generalizing s bs with
  | nil => exact h
  | cons a as ih =>
    obtain ⟨b, rest, heq, now, later⟩ := h
    exact ⟨b, rest, heq, weaken a s b now, ih later⟩

theorem eachWith_and_each_iff :
    EachWith next (fun a s b => R a s b ∧ P a s) as s bs ↔
      EachWith next R as s bs ∧ Each next P as s := by
  induction as generalizing s bs with
  | nil => exact (and_iff_left trivial).symm
  | cons a as ih =>
    constructor
    · rintro ⟨b, rest, heq, ⟨hr, hp⟩, later⟩
      obtain ⟨hrs, hps⟩ := ih.mp later
      exact ⟨⟨b, rest, heq, hr, hrs⟩, hp, hps⟩
    · rintro ⟨⟨b, rest, heq, hr, hrs⟩, hp, hps⟩
      exact ⟨b, rest, heq, ⟨hr, hp⟩, ih.mpr ⟨hrs, hps⟩⟩

/-- A property of the results is one of the results at their places. -/
theorem eachWith_and_forall_iff {p : β → Prop} :
    EachWith next (fun a s b => R a s b ∧ p b) as s bs ↔
      EachWith next R as s bs ∧ ∀ b ∈ bs, p b := by
  induction as generalizing s bs with
  | nil =>
    refine ⟨fun h => ⟨h, fun b hb => ?_⟩, And.left⟩
    obtain rfl : bs = [] := h
    cases hb
  | cons a as ih =>
    constructor
    · rintro ⟨b, rest, rfl, ⟨hr, hp⟩, later⟩
      obtain ⟨hrs, hps⟩ := ih.mp later
      exact ⟨⟨b, rest, rfl, hr, hrs⟩, List.forall_mem_cons.mpr ⟨hp, hps⟩⟩
    · rintro ⟨⟨b, rest, rfl, hr, hrs⟩, hps⟩
      obtain ⟨hp, hps⟩ := List.forall_mem_cons.mp hps
      exact ⟨b, rest, rfl, ⟨hr, hp⟩, ih.mpr ⟨hrs, hps⟩⟩

theorem exists_eachWith_iff :
    (∃ bs, EachWith next R as s bs) ↔ Each next (fun a s => ∃ b, R a s b) as s := by
  induction as generalizing s with
  | nil => exact iff_of_true ⟨[], rfl⟩ trivial
  | cons a as ih =>
    constructor
    · rintro ⟨-, b, rest, rfl, now, later⟩
      exact ⟨⟨b, now⟩, ih.mp ⟨rest, later⟩⟩
    · rintro ⟨⟨b, now⟩, later⟩
      obtain ⟨rest, later⟩ := ih.mpr later
      exact ⟨b :: rest, b, rest, rfl, now, later⟩

/-- The results of one relation are those of another that has only one of them. -/
theorem EachWith.unique (h : EachWith next R as s bs) {bs' : List β}
    (h' : EachWith next R' as s bs') (same : ∀ a s b b', R a s b → R' a s b' → b' = b) :
    bs' = bs := by
  induction as generalizing s bs bs' with
  | nil =>
    obtain rfl : bs = [] := h
    exact h'
  | cons a as ih =>
    obtain ⟨b, rest, rfl, now, later⟩ := h
    obtain ⟨b', rest', rfl, now', later'⟩ := h'
    rw [same a s b b' now now', ih later later']

/-- A loop that stops at the first error returns the results in order. -/
theorem mapM_ok_iff_eachWith {f : α → Stateful S E β} :
    result (as.mapM f) s = .ok bs ↔
      EachWith (fun a s => after (f a) s) (fun a s b => result (f a) s = .ok b) as s bs := by
  induction as generalizing s bs with
  | nil =>
    rw [List.mapM_nil]
    constructor
    · intro h
      cases h
      rfl
    · intro h
      obtain rfl : bs = [] := h
      rfl
  | cons a as ih =>
    rw [List.mapM_cons, bind_ok_iff]
    constructor
    · rintro ⟨b, now, h⟩
      obtain ⟨rest, later, h⟩ := bind_ok_iff.mp h
      cases h
      exact ⟨b, rest, rfl, now, ih.mp later⟩
    · rintro ⟨b, rest, rfl, now, later⟩
      exact ⟨b, now, bind_ok_iff.mpr ⟨rest, ih.mpr later, rfl⟩⟩

end Each

end StatefulSteps
