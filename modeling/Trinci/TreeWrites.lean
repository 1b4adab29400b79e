import Trinci.ContractBinding

/-!
# What a tree of calls writes

The notes of a tree say everything it does to the accounts. Each host function writes
at most one datum or one asset of its owner, a contract that ends well refreshes the
hash of its account, and binding an account stores it as it was noted before the
question. The accounts after a tree are those before it with these writes replayed in
order, and the accounts after a block are replayed from notes of its transactions. So a
datum, an asset or a contract that no frame entitled to it writes stays as it is.
-/

namespace Trinci

open HostPrograms StatefulSteps Exec

/-! ## The writes of one moment -/

namespace HostRequest

/-- What a request writes by itself, on behalf of the owner of its frame. -/
def write (owner : String) (request : HostRequest) (s : Accounts) : Accounts :=
  match request with
  | .storeData key data => s.storeAccountData owner key data
  | .removeData key => s.removeAccountData owner key
  | .storeAsset id value =>
    if id.isEmpty then s else s.storeAccount ((s.owned id).storeAsset owner value)
  | .removeAsset id => s.storeAccount ((s.owned id).removeAsset owner)
  | _ => s

end HostRequest

namespace Accounts

variable [Merkle]

/-- The data hash of an account is brought up to date, if it exists. -/
def refresh (s : Accounts) (owner : String) : Accounts :=
  match s.loadAccount owner with
  | none => s
  | some account => s.storeAccount { account with dataHash := some (s.stateHash account.id) }

end Accounts

section Trees

variable [WasmEngine]

namespace Moment

variable [Merkle]

/-- What a moment does to the accounts. -/
def replay : Moment → Accounts → Accounts
  | .looked _ _, s => s
  | .asked _ ctx q _, s => q.request.write ctx.owner s
  | .left args f _ faulted, s =>
    if faulted = false ∧ f.dataUpdated = true then s.refresh args.owner else s
  | .bound owner contract before _, s =>
    s.storeAccount { before.owned owner with contract := contract }

end Moment

/-- The accounts with what the moments do to them, in order. -/
def replay [Merkle] (moments : List Moment) (s : Accounts) : Accounts :=
  moments.foldl (fun s m => m.replay s) s

namespace HostFunc

variable [Primitives] [Pcg32] [WmCodec] {inner : Machine} {ctx : CallArgs} {q : HostQuestion}
  {f f' : Frame} {a : HostAnswer}

/-- A host function by itself writes what its request says. -/
theorem answer_writes (alone : invocationOf ctx q f = none)
    (h : answer inner ctx q f = .ok (f', a)) :
    f'.accounts = q.request.write ctx.owner f.accounts := by
  obtain ⟨request, fuel⟩ := q
  cases request with
  | instantiated | log | emit | loadData | loadAsset | getAccountContract | verify | sha256 |
      drand | getBlockTime =>
    cases h
    rfl
  | storeData key data =>
    cases h
    rfl
  | removeData key =>
    cases h
    rfl
  | storeAsset id value =>
    cases h
    rw [storeAsset, HostRequest.write]
    split
    · rfl
    · rfl
  | removeAsset id =>
    cases h
    rfl
  | getKeys pattern =>
    cases houtput : keysOutput ctx f pattern with
    | error p =>
      simp only [answer, houtput, bind, Except.bind] at h
      cases h
    | ok output =>
      simp only [answer, houtput, bind, Except.bind, pure, Except.pure] at h
      cases h
      rfl
  | isCallable account method =>
    have unbound : getAccountContract f account = none := Option.map_eq_none_iff.mp alone
    simp only [answer, isCallable, unbound, bind, Except.bind, pure, Except.pure] at h
    cases h
    rfl
  | call account method args => cases alone
  | sCall account contract method args => cases alone

omit [Primitives] [Pcg32] [WmCodec] in
/-- A request for a nested invocation writes nothing by itself. -/
theorem invoked_writes {i : Invocation} (hi : invocationOf ctx q f = some i) (owner : String)
    (s : Accounts) : q.request.write owner s = s := by
  obtain ⟨request, fuel⟩ := q
  cases request with
  | isCallable | call | sCall => rfl
  | _ => cases hi

end HostFunc

section Replays

variable [Merkle]

theorem replay_append (ms ns : List Moment) (s : Accounts) :
    replay (ms ++ ns) s = replay ns (replay ms s) :=
  List.foldl_append

theorem replay_concat (ms : List Moment) (m : Moment) (s : Accounts) :
    replay (ms ++ [m]) s = m.replay (replay ms s) := by
  rw [replay_append]
  rfl

/-- A contract that ends well refreshes the hash of its account, if it wrote data. -/
theorem updateDataHash_replay {f : Frame} {args : CallArgs} {w' : World WmLocal} (fuel : UInt64)
    (h : WmLocal.updateDataHash f args.owner = some w') :
    w'.accounts = (Moment.left args f fuel false).replay f.accounts := by
  rw [WmLocal.updateDataHash] at h
  rw [Moment.replay]
  by_cases written : f.dataUpdated = true
  · rw [if_pos written] at h
    rw [if_pos ⟨rfl, written⟩, Accounts.refresh]
    obtain ⟨account, hload, rfl⟩ := Option.map_eq_some_iff.1 h
    rw [hload]
  · rw [if_neg written] at h
    rw [if_neg fun both => written both.2]
    cases h
    rfl

variable [Primitives] [Pcg32] [WmCodec]

/-- The accounts after a tree are replayed from its moments. -/
theorem replay_rule :
    TraceRule (fun w w' _ moments => w'.accounts = replay moments w.accounts)
      fun _ w f moments => f.accounts = replay moments w.accounts where
  refl w := rfl
  trans := by
    intro u v w xs ys ms ns first second
    rw [second, first, replay_append]
  hushed moved := moved
  looked w target := rfl
  start args w := rfl
  answered := by
    intro inner ctx w q f f' a ms stack hf alone h
    rw [replay_concat, ← hf]
    exact HostFunc.answer_writes alone h
  nested := by
    intro ctx w q i f f' xs ms ns stack hf hi moved _ _
    rw [replay_append, ← hf]
    refine moved.trans (congrArg (replay ns) ?_)
    exact (HostFunc.invoked_writes hi ctx.owner f.accounts).symm
  faulted := by
    intro args w f ms fuel hf
    have faults : ¬ (true = false ∧ f.dataUpdated = true) := fun both => absurd both.1 (by decide)
    rw [replay_concat, ← hf, Moment.replay, if_neg faults]
    rfl
  finished := by
    intro args w f w' ms fuel hf updated
    rw [replay_concat, ← hf]
    exact updateDataHash_replay fuel updated
  bound := by
    intro owner w w' ms appHash moved
    rw [replay_concat, ← moved]
    rfl

end Replays

end Trees

/-! ## Places in the accounts -/

/-- A datum of an account, what an account holds of a token, or its contract. -/
inductive Place
  | datum (account key : String)
  | asset (account token : String)
  | contract (account : String)
  deriving DecidableEq

namespace Accounts

def assetAt (s : Accounts) (id token : String) : Option Bytes :=
  (s.loadAccount id).bind fun account => account.assets.lookup token

def contractOf (s : Accounts) (id : String) : Option Hash :=
  (s.loadAccount id).bind fun account => account.contract

/-- Two databases with the same at a place. -/
def SameAt (place : Place) (a b : Accounts) : Prop :=
  match place with
  | .datum id key => b.loadAccountData id key = a.loadAccountData id key
  | .asset id token => b.assetAt id token = a.assetAt id token
  | .contract id => b.contractOf id = a.contractOf id

instance (place : Place) (a b : Accounts) : Decidable (SameAt place a b) :=
  match place with
  | .datum _ _ => inferInstanceAs (Decidable (_ = _))
  | .asset _ _ => inferInstanceAs (Decidable (_ = _))
  | .contract _ => inferInstanceAs (Decidable (_ = _))

namespace SameAt

variable {place : Place} {a b c : Accounts}

theorem refl (place : Place) (a : Accounts) : SameAt place a a := by
  cases place with
  | datum id key => exact rfl
  | asset id token => exact rfl
  | contract id => exact rfl

theorem trans (h : SameAt place a b) (h' : SameAt place b c) : SameAt place a c := by
  cases place with
  | datum id key => exact Eq.trans h' h
  | asset id token => exact Eq.trans h' h
  | contract id => exact Eq.trans h' h

end SameAt

variable {a b : Accounts}

theorem owned_assets (a : Accounts) (id token : String) :
    (a.owned id).assets.lookup token = a.assetAt id token := by
  rw [owned, assetAt]
  cases a.loadAccount id with
  | none => exact AList.lookup_empty token
  | some account => rfl

theorem owned_contract (a : Accounts) (id : String) : (a.owned id).contract = a.contractOf id := by
  rw [owned, contractOf]
  cases a.loadAccount id with
  | none => rfl
  | some account => rfl

theorem assetAt_storeAccount (a : Accounts) (account : Account) (id token : String) :
    (a.storeAccount account).assetAt id token =
      if id = account.id then account.assets.lookup token else a.assetAt id token := by
  rw [assetAt]
  by_cases heq : id = account.id
  · rw [if_pos heq, heq, loadAccount_storeAccount, Option.bind_some]
  · rw [if_neg heq, loadAccount_storeAccount_ne heq, assetAt]

theorem contractOf_storeAccount (a : Accounts) (account : Account) (id : String) :
    (a.storeAccount account).contractOf id =
      if id = account.id then account.contract else a.contractOf id := by
  rw [contractOf]
  by_cases heq : id = account.id
  · rw [if_pos heq, heq, loadAccount_storeAccount, Option.bind_some]
  · rw [if_neg heq, loadAccount_storeAccount_ne heq, contractOf]

/-- Storing an account that has at a place what the account of its name has there. -/
theorem sameAt_storeAccount {place : Place} {account : Account}
    (assets : ∀ token, place = .asset account.id token →
      account.assets.lookup token = a.assetAt account.id token)
    (contract : place = .contract account.id → account.contract = a.contractOf account.id) :
    SameAt place a (a.storeAccount account) := by
  cases place with
  | datum id key => exact rfl
  | asset id token =>
    rw [SameAt, assetAt_storeAccount]
    by_cases heq : id = account.id
    · subst heq
      rw [if_pos rfl]
      exact assets token rfl
    · rw [if_neg heq]
  | contract id =>
    rw [SameAt, contractOf_storeAccount]
    by_cases heq : id = account.id
    · subst heq
      rw [if_pos rfl]
      exact contract rfl
    · rw [if_neg heq]

end Accounts

namespace HostRequest

/-- The place that a request may change, on behalf of the owner of its frame. -/
def place? (owner : String) : HostRequest → Option Place
  | .storeData key _ | .removeData key => some (.datum owner key)
  | .storeAsset id _ | .removeAsset id => some (.asset id owner)
  | _ => none

theorem write_keyed {s : Accounts} (keyed : s.Keyed) (owner : String) (request : HostRequest) :
    (request.write owner s).Keyed := by
  cases request with
  | storeAsset id value =>
    rw [write]
    split
    · exact keyed
    · exact keyed.storeAccount _
  | removeAsset id => exact keyed.storeAccount _
  | _ => exact keyed

/-- A request leaves every other place as it is. -/
theorem write_sameAt {s : Accounts} (keyed : s.Keyed) {owner : String} {request : HostRequest}
    {place : Place} (other : request.place? owner ≠ some place) :
    s.SameAt place (request.write owner s) := by
  have assets : ∀ id (assets : AList fun _ : String => Bytes),
      (∀ token, token ≠ owner → assets.lookup token = (s.owned id).assets.lookup token) →
      some (Place.asset id owner) ≠ some place →
      s.SameAt place (s.storeAccount { s.owned id with assets := assets }) := by
    intro id assets kept other
    have hid : (s.owned id).id = id := keyed.owned_id id
    refine Accounts.sameAt_storeAccount (fun token hplace => ?_) fun _ => ?_
    · dsimp only at hplace ⊢
      rw [hid] at hplace ⊢
      rw [← s.owned_assets]
      refine kept token fun heq => other ?_
      rw [hplace, heq]
    · dsimp only
      rw [hid, s.owned_contract]
  cases request with
  | storeData key data =>
    cases place with
    | datum id k =>
      refine AList.lookup_insert_ne fun heq => other ?_
      obtain ⟨rfl, rfl⟩ := Prod.mk.inj heq
      rfl
    | asset id token => exact rfl
    | contract id => exact rfl
  | removeData key =>
    cases place with
    | datum id k =>
      refine AList.lookup_erase_ne fun heq => other ?_
      obtain ⟨rfl, rfl⟩ := Prod.mk.inj heq
      rfl
    | asset id token => exact rfl
    | contract id => exact rfl
  | storeAsset id value =>
    rw [write]
    split
    · exact .refl place s
    · exact assets id _ (fun token differs => AList.lookup_insert_ne differs) other
  | removeAsset id => exact assets id _ (fun token differs => AList.lookup_erase_ne differs) other
  | _ => exact .refl place s

end HostRequest

section Trees

variable [WasmEngine]

/-- The place that a moment may change. -/
def Moment.place? : Moment → Option Place
  | .asked _ ctx q _ => q.request.place? ctx.owner
  | .bound owner _ _ _ => some (.contract owner)
  | _ => none

/-- The accounts keep to their ids, and places that no moment may change stay. -/
def Untouched (moments : List Moment) (a b : Accounts) : Prop :=
  a.Keyed → b.Keyed ∧ ∀ place, (∀ m ∈ moments, m.place? ≠ some place) → a.SameAt place b

namespace Untouched

variable {a b c : Accounts} {ms ns : List Moment}

theorem idle (moments : List Moment) (a : Accounts) : Untouched moments a a :=
  fun keyed => ⟨keyed, fun place _ => .refl place a⟩

theorem trans (h : Untouched ms a b) (h' : Untouched ns b c) : Untouched (ms ++ ns) a c := by
  intro keyed
  obtain ⟨hkeyed, same⟩ := h keyed
  obtain ⟨hkeyed', same'⟩ := h' hkeyed
  refine ⟨hkeyed', fun place other => ?_⟩
  exact (same place fun m hm => other m (List.mem_append_left _ hm)).trans
    (same' place fun m hm => other m (List.mem_append_right _ hm))

theorem write (stack : Nat) (ctx : CallArgs) (q : HostQuestion) (f : Frame) (s : Accounts) :
    Untouched [.asked stack ctx q f] s (q.request.write ctx.owner s) := by
  intro keyed
  refine ⟨HostRequest.write_keyed keyed _ _, fun place other => ?_⟩
  exact HostRequest.write_sameAt keyed (other _ (List.mem_singleton_self _))

/-- An account is bound as it was loaded before. Where no moment may change its assets it
still has them. -/
theorem bind (moved : Untouched ms a b) (owner : String) (contract : Option Hash) :
    Untouched (ms ++ [.bound owner contract a b]) a
      (b.storeAccount { a.owned owner with contract := contract }) := by
  intro keyed
  have hid : (a.owned owner).id = owner := keyed.owned_id owner
  obtain ⟨hkeyed, same⟩ := moved keyed
  refine ⟨hkeyed.storeAccount _, fun place other => ?_⟩
  have before := same place fun m hm => other m (List.mem_append_left _ hm)
  have unbound : some (Place.contract owner) ≠ some place :=
    other _ (List.mem_append_right _ (List.mem_singleton_self _))
  refine before.trans (Accounts.sameAt_storeAccount (fun token hplace => ?_) fun hplace => ?_)
  · dsimp only at hplace ⊢
    rw [hid] at hplace ⊢
    subst hplace
    have kept : b.assetAt owner token = a.assetAt owner token := before
    rw [kept, a.owned_assets]
  · dsimp only at hplace
    rw [hid] at hplace
    exact absurd (congrArg some hplace.symm) unbound

variable [Merkle]

theorem refresh (moments : List Moment) (owner : String) (s : Accounts) :
    Untouched moments s (s.refresh owner) := by
  intro keyed
  rw [Accounts.refresh]
  cases hload : s.loadAccount owner with
  | none => exact idle moments s keyed
  | some account =>
    have hid : account.id = owner := keyed owner account hload
    refine ⟨keyed.storeAccount _, fun place _ => ?_⟩
    refine Accounts.sameAt_storeAccount (fun token _ => ?_) fun _ => ?_
    · rw [hid, Accounts.assetAt, hload, Option.bind_some]
    · rw [hid, Accounts.contractOf, hload, Option.bind_some]

end Untouched

variable [Primitives] [Merkle] [Pcg32] [WmCodec]

/-- A tree leaves the places that none of its moments may change. An account is bound as
it was noted, and where no moment may change its assets it still has them. -/
theorem untouched_rule :
    TraceRule (fun w w' _ moments => Untouched moments w.accounts w'.accounts)
      fun _ w f moments => Untouched moments w.accounts f.accounts where
  refl w := .idle _ _
  trans first second := first.trans second
  hushed moved := moved
  looked w target := .idle _ _
  start args w := .idle _ _
  answered := by
    intro inner ctx w q f f' a ms stack hf alone h
    have written := HostFunc.answer_writes alone h
    refine hf.trans ?_
    rw [written]
    exact .write stack ctx q f f.accounts
  nested := by
    intro ctx w q i f f' xs ms ns stack hf hi moved _ _
    have asked : Untouched [.asked stack ctx q f] f.accounts f.accounts := .idle _ _
    exact hf.trans (asked.trans moved)
  faulted fuel hf := hf.trans (.idle _ _)
  finished := by
    intro args w f w' ms fuel hf updated
    refine hf.trans ?_
    rw [updateDataHash_replay fuel updated, Moment.replay]
    split
    · exact .refresh _ _ _
    · exact .idle _ _
  bound appHash moved := moved.bind _ appHash

end Trees

end Trinci
