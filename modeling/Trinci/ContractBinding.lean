import Trinci.DataCommitments

/-!
# What binding a contract leaves of the account

The check of a contract loads the account, may ask the service contract whether the
account can be bound, and stores the account that it loaded with the new contract. What
the service contract did to the account meanwhile is written over. Otherwise the check
changes nothing but the contract of the account.
-/

namespace Trinci

/-- Two accounts that differ in their contracts at most. -/
structure Account.SameButContract (a b : Account) : Prop where
  id : a.id = b.id
  assets : ∀ asset, a.assets.lookup asset = b.assets.lookup asset
  dataHash : a.dataHash = b.dataHash

namespace Account.SameButContract

variable {a b c : Account}

theorem refl (a : Account) : SameButContract a a := ⟨rfl, fun _ => rfl, rfl⟩

theorem symm (h : SameButContract a b) : SameButContract b a :=
  ⟨h.id.symm, fun asset => (h.assets asset).symm, h.dataHash.symm⟩

theorem trans (h : SameButContract a b) (h' : SameButContract b c) : SameButContract a c :=
  ⟨h.id.trans h'.id, fun asset => (h.assets asset).trans (h'.assets asset),
    h.dataHash.trans h'.dataHash⟩

theorem contract (a : Account) (hash : Option Hash) :
    SameButContract { a with contract := hash } a :=
  ⟨rfl, fun _ => rfl, rfl⟩

end Account.SameButContract

namespace Accounts

/-- The account of a name, as it is loaded or made. -/
def owned (s : Accounts) (owner : String) : Account :=
  (s.loadAccount owner).getD (Account.new owner none)

/-- The accounts differ in the contract of this one at most. -/
structure DifferInContract (owner : String) (a b : Accounts) : Prop where
  others : ∀ id, id ≠ owner → b.loadAccount id = a.loadAccount id
  data : ∀ id key, b.loadAccountData id key = a.loadAccountData id key
  owner : (b.owned owner).SameButContract (a.owned owner)

theorem DifferInContract.refl (owner : String) (a : Accounts) : DifferInContract owner a a :=
  ⟨fun _ _ => rfl, fun _ _ => rfl, .refl _⟩

/-- An account of this name is stored. -/
theorem owned_storeAccount {owner : String} {account : Account} (a : Accounts)
    (h : account.id = owner) : (a.storeAccount account).owned owner = account := by
  subst h
  rw [owned, loadAccount_storeAccount, Option.getD_some]

/-- Binding an account over others differs in its contract only exactly if there it is the
same but for its contract. -/
theorem differInContract_bind_iff {owner : String} (a : Accounts) (account : Account)
    (h : account.id = owner) (hash : Option Hash) :
    DifferInContract owner a (a.storeAccount { account with contract := hash }) ↔
      account.SameButContract (a.owned owner) := by
  have bound : (a.storeAccount { account with contract := hash }).owned owner =
      { account with contract := hash } := owned_storeAccount a h
  constructor
  · intro differ
    have same := differ.owner
    rw [bound] at same
    exact (Account.SameButContract.contract account hash).symm.trans same
  · intro same
    constructor
    · intro id other
      exact loadAccount_storeAccount_ne fun hid => other (hid.trans h)
    · exact fun id key => rfl
    · rw [bound]
      exact (Account.SameButContract.contract account hash).trans same

theorem Keyed.owned_id {a : Accounts} (keyed : a.Keyed) (owner : String) :
    (a.owned owner).id = owner := keyed.getD_id owner

end Accounts

namespace WmLocal

variable [WasmEngine] [WmCodec] (inner : Machine)

/-- The contract that an account is to be bound to: without a hash it keeps its own. -/
def requestedContract (account : Account) (appHash : Option Hash) : Option Hash :=
  if account.contract.isSome && appHash.isNone then account.contract else appHash

/-- The service contract is asked, unless the account has the contract already. -/
def isAsked (account : Account) (appHash : Option Hash) : Prop :=
  account.contract ≠ appHash ∧ account.contract ≠ requestedContract account appHash

instance (account : Account) (appHash : Option Hash) : Decidable (isAsked account appHash) :=
  inferInstanceAs (Decidable (_ ∧ _))

/-- What `contract_updatable` leaves and answers in a check, where the check calls it. -/
def updatableIn (appHash : Option Hash) (ctxArgs : CtxArgs) (blockTimestamp : UInt64)
    (w : World WmLocal) : Except MachinePanic (World WmLocal × Bool) :=
  let account := w.accounts.owned ctxArgs.owner
  if isAsked account appHash then
    contractUpdatable inner ctxArgs.owner account.contract (requestedContract account appHash)
      ctxArgs blockTimestamp w
  else .ok (w, false)

/-- The check leaves what `contract_updatable` left, but for the contract of the owner. -/
def BindsOnly (appHash : Option Hash) (ctxArgs : CtxArgs) (blockTimestamp : UInt64)
    (w : World WmLocal) : Prop :=
  ∀ left outcome mid updatable,
    appHashCheck inner appHash ctxArgs blockTimestamp w = .ok (left, outcome) →
    updatableIn inner appHash ctxArgs blockTimestamp w = .ok (mid, updatable) →
    Accounts.DifferInContract ctxArgs.owner mid.accounts left.accounts

/-- A service contract that allows the change leaves the account as it was loaded, but
for its contract. -/
def LeavesOwner (appHash : Option Hash) (ctxArgs : CtxArgs) (blockTimestamp : UInt64)
    (w : World WmLocal) : Prop :=
  ∀ mid, updatableIn inner appHash ctxArgs blockTimestamp w = .ok (mid, true) →
    (mid.accounts.owned ctxArgs.owner).SameButContract (w.accounts.owned ctxArgs.owner)

section Checks

variable {inner : Machine} {appHash : Option Hash} {ctxArgs : CtxArgs} {blockTimestamp : UInt64}
  {w : World WmLocal}

/-- A check without a question stores the account as it was, or nothing. -/
theorem appHashCheck_unasked (keyed : w.accounts.Keyed)
    (unasked : ¬ isAsked (w.accounts.owned ctxArgs.owner) appHash) {left : World WmLocal}
    {outcome : Except WasmError Hash}
    (h : appHashCheck inner appHash ctxArgs blockTimestamp w = .ok (left, outcome)) :
    Accounts.DifferInContract ctxArgs.owner w.accounts left.accounts := by
  rw [isAsked, not_and_not_right] at unasked
  have hid := keyed.owned_id ctxArgs.owner
  unfold appHashCheck at h
  change (if (w.accounts.owned ctxArgs.owner).contract ≠ appHash then _ else _) = _ at h
  split at h
  · next other =>
    have kept := unasked other
    change (if (w.accounts.owned ctxArgs.owner).contract =
      requestedContract (w.accounts.owned ctxArgs.owner) appHash then _ else _) = _ at h
    rw [if_pos kept] at h
    cases h
    exact (Accounts.differInContract_bind_iff w.accounts _ hid _).mpr (.refl _)
  · split at h
    · cases h
      exact .refl _ _
    · cases h
      exact .refl _ _

/-- A check with a question stores the account that it loaded if the answer is yes. -/
theorem appHashCheck_asked (inner : Machine) (blockTimestamp : UInt64)
    (asked : isAsked (w.accounts.owned ctxArgs.owner) appHash) :
    appHashCheck inner appHash ctxArgs blockTimestamp w =
      (updatableIn inner appHash ctxArgs blockTimestamp w).map fun out =>
        if out.2 then bind (w.accounts.owned ctxArgs.owner)
          (requestedContract (w.accounts.owned ctxArgs.owner) appHash) out.1
        else (out.1, .error (.invalidContract "cannot bind the contract to the account")) := by
  rw [updatableIn, if_pos asked]
  unfold appHashCheck
  change (if (w.accounts.owned ctxArgs.owner).contract ≠ appHash then _ else _) = _
  rw [if_pos asked.1]
  change (if (w.accounts.owned ctxArgs.owner).contract =
    requestedContract (w.accounts.owned ctxArgs.owner) appHash then _ else _) = _
  rw [if_neg asked.2]
  change (contractUpdatable inner ctxArgs.owner (w.accounts.owned ctxArgs.owner).contract
    (requestedContract (w.accounts.owned ctxArgs.owner) appHash) ctxArgs blockTimestamp w >>= _) = _
  cases contractUpdatable inner ctxArgs.owner (w.accounts.owned ctxArgs.owner).contract
      (requestedContract (w.accounts.owned ctxArgs.owner) appHash) ctxArgs blockTimestamp w with
  | error p => rfl
  | ok out =>
    obtain ⟨mid, updatable⟩ := out
    cases updatable <;> rfl

end Checks

/-- For every machine, every database that keeps its accounts under their ids, every owner
and every requested contract: the check changes the contract of the owner only exactly if
a service contract that allows the change leaves the rest of the account. -/
theorem bindsOnly_iff_leavesOwner (appHash : Option Hash) (ctxArgs : CtxArgs)
    (blockTimestamp : UInt64) (w : World WmLocal) (keyed : w.accounts.Keyed) :
    BindsOnly inner appHash ctxArgs blockTimestamp w ↔
      LeavesOwner inner appHash ctxArgs blockTimestamp w := by
  have hid := keyed.owned_id ctxArgs.owner
  by_cases asked : isAsked (w.accounts.owned ctxArgs.owner) appHash
  · constructor
    · intro binds mid hmid
      have hcheck := appHashCheck_asked inner blockTimestamp asked
      rw [hmid] at hcheck
      have differ := binds _ _ _ _ hcheck hmid
      exact ((Accounts.differInContract_bind_iff mid.accounts _ hid _).mp differ).symm
    · intro leaves left outcome mid updatable hcheck hmid
      rw [appHashCheck_asked inner blockTimestamp asked, hmid] at hcheck
      cases updatable with
      | false =>
        cases hcheck
        exact .refl _ _
      | true =>
        cases hcheck
        exact (Accounts.differInContract_bind_iff mid.accounts _ hid _).mpr (leaves mid hmid).symm
  · constructor
    · intro binds mid hmid
      rw [updatableIn, if_neg asked] at hmid
      cases hmid
    · intro leaves left outcome mid updatable hcheck hmid
      rw [updatableIn, if_neg asked] at hmid
      cases hmid
      exact appHashCheck_unasked keyed asked hcheck

end WmLocal

namespace Sample

section Bindings

/-- Both contracts allow every change. The first makes a note of it. -/
local instance allowingEngine : WasmEngine := scripted fun wasmBin =>
  if wasmBin = [1] then .ok ⟨[], [.storeData "bound" [7]], .ok [1, 1]⟩
  else .ok ⟨[], [], .ok [1, 1]⟩

/-- A check of the contract of an account, on behalf of alice. -/
def checkOf (owner : String) : CtxArgs := ⟨"alice", owner, "alice"⟩

/-- The service contract notes that the service account itself is bound. The check writes
back the account without the hash of the note. -/
theorem service_note_lost :
    let w := worldOf 2 (deployed [(serviceAccountId, 1)])
    let hash := some (contractHash 3)
    (∃ mid left, WmLocal.updatableIn (WmLocal.machine 1) hash (checkOf serviceAccountId) 0 w =
        .ok (mid, true) ∧
      (WmLocal.machine 2).appHashCheck hash (checkOf serviceAccountId) 0 w =
        .ok (left, .ok (contractHash 3)) ∧
      (mid.accounts.owned serviceAccountId).dataHash.isSome = true ∧
      (left.accounts.owned serviceAccountId).dataHash = none) ∧
    ¬ WmLocal.BindsOnly (WmLocal.machine 1) hash (checkOf serviceAccountId) 0 w := by
  intro w hash
  have lost : ∃ mid left, WmLocal.updatableIn (WmLocal.machine 1) hash
        (checkOf serviceAccountId) 0 w = .ok (mid, true) ∧
      (WmLocal.machine 2).appHashCheck hash (checkOf serviceAccountId) 0 w =
        .ok (left, .ok (contractHash 3)) ∧
      (mid.accounts.owned serviceAccountId).dataHash.isSome = true ∧
      (left.accounts.owned serviceAccountId).dataHash = none :=
    ⟨_, _, rfl, rfl, by decide +kernel, by decide +kernel⟩
  refine ⟨lost, fun binds => ?_⟩
  obtain ⟨mid, left, hmid, hcheck, noted, unnoted⟩ := lost
  have same : (left.accounts.owned serviceAccountId).dataHash =
      (mid.accounts.owned serviceAccountId).dataHash :=
    (binds left _ mid true hcheck hmid).owner.dataHash
  rw [unnoted] at same
  rw [← same] at noted
  cases noted

/-- A service contract that only answers. -/
theorem answered_binds_only :
    let w := worldOf 2 (deployed [(serviceAccountId, 2), ("shop", 2)])
    WmLocal.BindsOnly (WmLocal.machine 1) (some (contractHash 3)) (checkOf "shop") 0 w := by
  intro w
  refine (WmLocal.bindsOnly_iff_leavesOwner (WmLocal.machine 1) (some (contractHash 3))
    (checkOf "shop") 0 w (deployed_keyed _)).mpr ?_
  intro mid hmid
  cases hmid
  exact .refl _

end Bindings

end Sample

end Trinci
