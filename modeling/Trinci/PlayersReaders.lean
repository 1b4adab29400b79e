import Mathlib.Data.List.Nodup
import Mathlib.Data.List.TakeWhile
import Trinci.WasmService

/-!
# The readers of the players

The players of the service account are read in three places: after a consolidation
(`loadPlayers`), at a restart (`initPlayers`) and for an answer to `GetPlayers`
(`getPlayers`). The first and the last follow the list of ids and look up the record
of each. The restart goes through the stored records by their keys and names a
player as its record does. It finds the same players only where the records are
those of the list, in the order of the list, and each names its own key.
-/

namespace Trinci

/-! ## Namings of keys -/

section Naming

variable {α : Type*} {name : α → α} {keys ids : List α}

/-- Keys whose names are distinct keys, each settled after one more step, name
themselves. -/
theorem eq_self_of_map_nodup (map : keys.map name = ids) (nodup : ids.Nodup)
    (sub : ∀ id ∈ ids, id ∈ keys) (settled : ∀ id ∈ ids, name (name id) = name id) :
    ∀ key ∈ keys, name key = key := by
  have named : ∀ key ∈ keys, name key ∈ ids := fun key hkey =>
    map ▸ List.mem_map_of_mem hkey
  have inj : ∀ a ∈ keys, ∀ b ∈ keys, name a = name b → a = b := fun a ha b hb hab =>
    List.inj_on_of_nodup_map (map.symm ▸ nodup) ha hb hab
  have fixed : ∀ id ∈ ids, name id = id := by
    intro id hid
    have hkey := sub id hid
    exact inj _ (sub _ (named id hkey)) _ hkey (settled id hid)
  intro key hkey
  have hid := named key hkey
  exact inj _ (sub _ hid) _ hkey (fixed _ hid)

theorem map_eq_self_iff : keys.map name = keys ↔ ∀ key ∈ keys, name key = key := by
  have h : keys.map name = keys.map id ↔ ∀ key ∈ keys, name key = key := List.map_inj_left
  rwa [List.map_id] at h

theorem map_eq_self_of_nodup (map : keys.map name = ids) (nodup : ids.Nodup)
    (sub : ∀ id ∈ ids, id ∈ keys) (settled : ∀ id ∈ ids, name (name id) = name id) :
    keys = ids := by
  have self := eq_self_of_map_nodup map nodup sub settled
  calc
    keys = keys.map name := (map_eq_self_iff.2 self).symm
    _ = ids := map

end Naming

/-- Mapping a function that succeeds exactly where a predicate holds. -/
theorem mapM_ok_iff {α β ε : Type} {f : α → Except ε β} {good : α → Prop} {value : α → β}
    (spec : ∀ x y, f x = .ok y ↔ good x ∧ y = value x) {xs : List α} {ys : List β} :
    xs.mapM f = .ok ys ↔ (∀ x ∈ xs, good x) ∧ ys = xs.map value := by
  induction xs generalizing ys with
  | nil =>
    rw [List.mapM_nil, List.map_nil]
    change Except.ok [] = Except.ok ys ↔ _
    simp [eq_comm]
  | cons x xs ih =>
    rw [List.mapM_cons, List.map_cons, List.forall_mem_cons]
    constructor
    · intro h
      cases hx : f x with
      | error e => simp [hx, bind, Except.bind] at h
      | ok y =>
        cases hxs : xs.mapM f with
        | error e => simp [hx, hxs, bind, Except.bind] at h
        | ok zs =>
          simp only [hx, hxs, bind, Except.bind, pure, Except.pure, Except.ok.injEq] at h
          obtain ⟨hgood, rfl⟩ := (spec x y).1 hx
          obtain ⟨hall, rfl⟩ := ih.1 hxs
          exact ⟨⟨hgood, hall⟩, h.symm⟩
    · rintro ⟨⟨hgood, hall⟩, rfl⟩
      have hx := (spec x (value x)).2 ⟨hgood, rfl⟩
      have hxs := ih.2 ⟨hall, rfl⟩
      simp only [hx, hxs, bind, Except.bind, pure, Except.pure]

/-! ## Strings -/

theorem dropPrefix_map_eq_some_iff {pat key rest : String} :
    (key.dropPrefix? pat).map (fun s => s.toString) = some rest ↔ key = pat ++ rest := by
  constructor
  · intro h
    rw [Option.map_eq_some_iff] at h
    obtain ⟨res, h, rfl⟩ := h
    exact String.eq_append_of_dropPrefix?_string_eq_some h
  · rintro rfl
    have starts : (pat ++ rest).startsWith pat = true := by
      rw [String.startsWith_string_iff, String.toList_append]
      exact List.prefix_append _ _
    cases h : (pat ++ rest).dropPrefix? pat with
    | none =>
      rw [← String.dropPrefix?_toSlice, String.Slice.dropPrefix?_eq_none_iff,
        String.startsWith_toSlice, starts] at h
      exact absurd h (by decide)
    | some res =>
      have happ := congrArg String.toList (String.eq_append_of_dropPrefix?_string_eq_some h)
      rw [String.toList_append, String.toList_append] at happ
      have hrest := List.append_cancel_left happ
      exact congrArg some (String.toList_inj.1 hrest).symm

/-- `key.split(':').last()` -/
def lastSegment (key : String) : String :=
  String.ofList (key.toList.reverse.takeWhile fun c => c != ':').reverse

theorem lastSegment_append_colon (start id : String) :
    lastSegment (start ++ ":" ++ id) = lastSegment id := by
  have h : (start ++ ":" ++ id).toList.reverse = id.toList.reverse ++ ':' :: start.toList.reverse := by
    simp [String.toList_append]
  rw [lastSegment, lastSegment, h, List.takeWhile_append]
  split
  next whole =>
    have all := (List.takeWhile_prefix fun c => c != ':').eq_of_length whole
    rw [all]
    simp
  next => rfl

theorem lastSegment_eq_self_iff {id : String} : lastSegment id = id ↔ ':' ∉ id.toList := by
  rw [lastSegment, ← String.toList_inj, String.toList_ofList, List.reverse_eq_iff,
    List.takeWhile_eq_self_iff]
  simp
  exact ⟨fun h hc => h _ hc rfl, fun h c hc he => h (he ▸ hc)⟩

theorem lastSegment_lastSegment (id : String) :
    lastSegment (lastSegment id) = lastSegment id := by
  rw [lastSegment_eq_self_iff, lastSegment, String.toList_ofList, List.mem_reverse]
  intro h
  have := List.mem_takeWhile_imp h
  simp at this

/-! ## The keys of the validators -/

namespace Accounts

/-- The ids after the validator keys, by ascending keys. -/
def validatorIds (accounts : Accounts) : List String :=
  (accounts.loadAccountKeys "TRINCI").filterMap fun key =>
    (key.dropPrefix? "blockchain:validators:").map fun id => id.toString

theorem validatorsKey_colon : validatorsKey ++ ":" = "blockchain:validators:" := by decide

variable {accounts : Accounts}

theorem mem_loadAccountKeys_iff {id key : String} :
    key ∈ accounts.loadAccountKeys id ↔ (accounts.loadAccountData id key).isSome := by
  rw [loadAccountKeys, dataOf, ((List.perm_insertionSort _ _).map Prod.fst).mem_iff,
    loadAccountData, AList.lookup_isSome, AList.mem_keys]
  simp only [List.mem_map, List.mem_filter, beq_iff_eq]
  constructor
  · rintro ⟨_, ⟨entry, ⟨hmem, rfl⟩, rfl⟩, rfl⟩
    exact List.mem_map_of_mem hmem
  · intro h
    obtain ⟨entry, hmem, hkey⟩ := List.mem_map.1 h
    exact ⟨_, ⟨entry, ⟨hmem, congrArg Prod.fst hkey⟩, rfl⟩, congrArg Prod.snd hkey⟩

theorem mem_validatorIds_iff {id : String} :
    id ∈ accounts.validatorIds ↔
      (accounts.loadAccountData serviceAccountId (validatorsKey ++ ":" ++ id)).isSome := by
  rw [validatorIds, List.mem_filterMap, validatorsKey_colon, ← mem_loadAccountKeys_iff]
  constructor
  · rintro ⟨key, hkey, hid⟩
    exact dropPrefix_map_eq_some_iff.1 hid ▸ hkey
  · intro h
    exact ⟨_, h, dropPrefix_map_eq_some_iff.2 rfl⟩

end Accounts

/-! ## The readers -/

section Readers

variable [NodeCodec]

/-- The players in `init_core_from_db`. -/
def initPlayers (accounts : Accounts) : Players :=
  let players : List (String × UInt64) :=
    (accounts.loadAccountKeys serviceAccountId).filterMap fun key =>
      if key.startsWith "blockchain:validators:" then
        ((accounts.loadAccountData serviceAccountId key).bind
          (rmpDeserialize : Bytes → Option ValidatorDbValue)).map fun player =>
            match player with
            | .player player => (player.accountId, player.unitsInStake)
            | .bool _ => (lastSegment key, 1)
      else none
  if players.isEmpty then
    let ids := (accounts.loadAccountKeys "TRINCI").filterMap fun key =>
      (key.dropPrefix? "blockchain:validators:").map fun id => id.toString
    ⟨ids, ids.map fun _ => 1⟩
  else ⟨players.map Prod.fst, players.map Prod.snd⟩

/-- The answer of `DBService` to `GetPlayers`. -/
def getPlayers (accounts : Accounts) : Except ExecutionPanic (List Player) := do
  let playersId : Option (List String) ←
    match accounts.loadAccountData serviceAccountId validatorsKey with
    | none => pure none
    | some buf =>
      match (rmpDeserialize buf : Option (Option (List String))) with
      | none => throw .missingPlayer
      | some ids => pure ids
  match playersId with
  | some ids => ids.mapM fun id =>
    match accounts.loadAccountData serviceAccountId (validatorsKey ++ ":" ++ id) with
    | none => throw .missingPlayer
    | some buf =>
      match (rmpDeserialize buf : Option ValidatorDbValue) with
      | some (.player player) => pure player
      | some (.bool true) => pure ⟨id, 1, 3⟩
      | _ => throw .missingPlayer
  | none =>
    let ids := (accounts.loadAccountKeys "TRINCI").filterMap fun key =>
      (key.dropPrefix? "blockchain:validators:").map fun id => id.toString
    return ids.map fun id => ⟨id, 1, 3⟩

/-- The three readers find the same ids with the same weights. -/
structure ReadersAgree (accounts : Accounts) (players : Players) : Prop where
  init : initPlayers accounts = players
  get : ∃ list, getPlayers accounts = .ok list ∧
    list.map Player.accountId = players.playersIds ∧
    list.map Player.unitsInStake = players.weights

namespace Accounts

/-- The list of the players' ids, where there is one. -/
def listedIds (accounts : Accounts) : Except ExecutionPanic (Option (List String)) :=
  match accounts.loadAccountData serviceAccountId validatorsKey with
  | none => pure none
  | some buf =>
    match (rmpDeserialize buf : Option (Option (List String))) with
    | none => throw .missingPlayer
    | some ids => pure ids

def validatorAt (accounts : Accounts) (id : String) : Option ValidatorDbValue :=
  (accounts.loadAccountData serviceAccountId (validatorsKey ++ ":" ++ id)).bind rmpDeserialize

/-- The name the record of a key gives its player. -/
def nameAt (accounts : Accounts) (id : String) : String :=
  match accounts.validatorAt id with
  | some (.player player) => player.accountId
  | _ => lastSegment id

def weightAt (accounts : Accounts) (id : String) : UInt64 :=
  match accounts.validatorAt id with
  | some (.player player) => player.unitsInStake
  | _ => 1

/-- The keys that hold a record of a player. -/
def recorded (accounts : Accounts) : List String :=
  accounts.validatorIds.filter fun id => (accounts.validatorAt id).isSome

/-- A record of the new chains carries the id of its key. -/
def Owned (accounts : Accounts) (id : String) : Prop :=
  ∀ player, accounts.validatorAt id = some (.player player) → player.accountId = id

/-- A record of the old chains is under a key without further segments. -/
def Unsegmented (accounts : Accounts) (id : String) : Prop :=
  ∀ value, accounts.validatorAt id = some (.bool value) → ':' ∉ id.toList

/-- The records are those of a list that names each player once: in its order, each
under its own key. -/
structure ListKept (accounts : Accounts) (ids : List String) : Prop where
  recorded : accounts.recorded = ids
  owned : ∀ id ∈ ids, accounts.Owned id
  unsegmented : ∀ id ∈ ids, accounts.Unsegmented id
  keys : ids = [] → accounts.validatorIds = []

/-- A list that repeats a player: key by key, the records name the list's players and
weigh what the list's records do. -/
structure RepeatedListKept (accounts : Accounts) (ids : List String) : Prop where
  names : accounts.recorded.map accounts.nameAt = ids
  weights : accounts.recorded.map accounts.weightAt = ids.map accounts.weightAt
  owned : ∀ id ∈ ids, accounts.Owned id

/-- Without a list: no key holds a record, or all do, each for one unit under its own
key. -/
def KeysKept (accounts : Accounts) : Prop :=
  accounts.recorded = [] ∨ accounts.recorded = accounts.validatorIds ∧
    ∀ id ∈ accounts.validatorIds,
      accounts.Owned id ∧ accounts.Unsegmented id ∧ accounts.weightAt id = 1

/-- What makes the records those of the players. -/
def RecordsKept (accounts : Accounts) : Prop :=
  match accounts.listedIds with
  | .ok (some ids) =>
    if ids.Nodup then accounts.ListKept ids else accounts.RepeatedListKept ids
  | _ => accounts.KeysKept

theorem mem_recorded_iff {accounts : Accounts} {id : String} :
    id ∈ accounts.recorded ↔ (accounts.validatorAt id).isSome := by
  rw [recorded, List.mem_filter, mem_validatorIds_iff, and_iff_right_iff_imp, validatorAt]
  intro h
  exact Option.isSome_of_isSome_bind h

end Accounts

/-- What a restart reads at a key. -/
theorem initPlayers_row (accounts : Accounts) (key : String) :
    (if key.startsWith "blockchain:validators:" then
      ((accounts.loadAccountData serviceAccountId key).bind
        (rmpDeserialize : Bytes → Option ValidatorDbValue)).map fun player =>
          match player with
          | .player player => (player.accountId, player.unitsInStake)
          | .bool _ => (lastSegment key, 1)
    else none) =
      ((key.dropPrefix? "blockchain:validators:").map fun id => id.toString).bind fun id =>
        if (accounts.validatorAt id).isSome then some (accounts.nameAt id, accounts.weightAt id)
        else none := by
  cases hid : (key.dropPrefix? "blockchain:validators:").map fun id => id.toString with
  | none =>
    rw [if_neg, Option.bind_none]
    intro starts
    rw [String.startsWith_string_iff] at starts
    obtain ⟨rest, hrest⟩ := starts
    have hkey : key = "blockchain:validators:" ++ String.ofList rest := by
      rw [← String.toList_inj, String.toList_append, ← hrest]
      exact congrArg _ String.toList_ofList.symm
    rw [dropPrefix_map_eq_some_iff.2 hkey] at hid
    exact absurd hid (by simp)
  | some id =>
    rw [dropPrefix_map_eq_some_iff] at hid
    have starts : key.startsWith "blockchain:validators:" := by
      rw [hid, String.startsWith_string_iff, String.toList_append]
      exact List.prefix_append _ _
    have segment : lastSegment key = lastSegment id := by
      rw [hid, ← Accounts.validatorsKey_colon, lastSegment_append_colon]
    have found : (accounts.loadAccountData serviceAccountId key).bind rmpDeserialize =
        accounts.validatorAt id := by
      rw [Accounts.validatorAt, Accounts.validatorsKey_colon, hid]
    rw [if_pos starts, found, segment, Option.bind_some, Accounts.nameAt, Accounts.weightAt]
    cases accounts.validatorAt id with
    | none => rfl
    | some value => cases value <;> rfl

/-- A restart reads the records by their keys, or the keys alone. -/
theorem initPlayers_eq (accounts : Accounts) :
    initPlayers accounts =
      if accounts.recorded = [] then
        ⟨accounts.validatorIds, accounts.validatorIds.map fun _ => 1⟩
      else ⟨accounts.recorded.map accounts.nameAt, accounts.recorded.map accounts.weightAt⟩ := by
  have rows : ∀ keys : List String, keys.filterMap (fun key =>
      ((key.dropPrefix? "blockchain:validators:").map fun id => id.toString).bind fun id =>
        if (accounts.validatorAt id).isSome then some (accounts.nameAt id, accounts.weightAt id)
        else none) =
      ((keys.filterMap fun key =>
        (key.dropPrefix? "blockchain:validators:").map fun id => id.toString).filter fun id =>
          (accounts.validatorAt id).isSome).map fun id =>
            (accounts.nameAt id, accounts.weightAt id) := by
    intro keys
    rw [← List.filterMap_filterMap, ← List.filterMap_eq_map, List.filterMap_filter]
    rfl
  simp only [initPlayers, initPlayers_row, rows]
  change (if ((accounts.recorded.map _).isEmpty = true) then _ else _) = _
  simp only [List.isEmpty_iff, List.map_eq_nil_iff, List.map_map]
  rfl

namespace Accounts

/-- The record of a listed player can be used. -/
def Readable (accounts : Accounts) (id : String) : Prop :=
  (∃ player, accounts.validatorAt id = some (.player player)) ∨
    accounts.validatorAt id = some (.bool true)

/-- The player that `GetPlayers` reports for an id. -/
def playerAt (accounts : Accounts) (id : String) : Player :=
  match accounts.validatorAt id with
  | some (.player player) => player
  | _ => ⟨id, 1, 3⟩

/-- One record, read for a value of its player. -/
def readRecord {α : Type} (accounts : Accounts) (ofPlayer : Player → α) (ofId : String → α)
    (id : String) : Except ExecutionPanic α :=
  match accounts.loadAccountData serviceAccountId (validatorsKey ++ ":" ++ id) with
  | none => throw .missingPlayer
  | some buf =>
    match (rmpDeserialize buf : Option ValidatorDbValue) with
    | some (.player player) => pure (ofPlayer player)
    | some (.bool true) => pure (ofId id)
    | _ => throw .missingPlayer

theorem readRecord_eq_ok_iff {α : Type} {accounts : Accounts} {ofPlayer : Player → α}
    {ofId : String → α} {id : String} {a : α} :
    accounts.readRecord ofPlayer ofId id = .ok a ↔
      accounts.Readable id ∧ a = match accounts.validatorAt id with
        | some (.player player) => ofPlayer player
        | _ => ofId id := by
  rw [readRecord, Readable, validatorAt]
  cases accounts.loadAccountData serviceAccountId (validatorsKey ++ ":" ++ id) with
  | none => simp [throw, throwThe, MonadExceptOf.throw]
  | some buf =>
    rw [Option.bind_some]
    dsimp only
    cases (rmpDeserialize buf : Option ValidatorDbValue) with
    | none => simp [throw, throwThe, MonadExceptOf.throw]
    | some value =>
      rcases value with player | _ | _
      · simp [pure, Except.pure, eq_comm]
      · simp [throw, throwThe, MonadExceptOf.throw]
      · simp [pure, Except.pure, eq_comm]

end Accounts

variable {accounts : Accounts} {ids : List String}

theorem loadPlayers_eq (accounts : Accounts) :
    loadPlayers accounts = accounts.listedIds.bind fun
      | some ids => (ids.mapM (accounts.readRecord Player.unitsInStake fun _ => 1)).bind
          fun weights => .ok ⟨ids, weights⟩
      | none => .ok ⟨accounts.validatorIds, accounts.validatorIds.map fun _ => 1⟩ := by
  rw [loadPlayers, Accounts.listedIds]
  cases accounts.loadAccountData serviceAccountId validatorsKey with
  | none => rfl
  | some buf =>
    dsimp only
    cases (rmpDeserialize buf : Option (Option (List String))) <;> rfl

theorem getPlayers_eq (accounts : Accounts) :
    getPlayers accounts = accounts.listedIds.bind fun
      | some ids => ids.mapM (accounts.readRecord id fun id => ⟨id, 1, 3⟩)
      | none => .ok (accounts.validatorIds.map fun id => ⟨id, 1, 3⟩) := by
  rw [getPlayers, Accounts.listedIds]
  cases accounts.loadAccountData serviceAccountId validatorsKey with
  | none => rfl
  | some buf =>
    dsimp only
    cases (rmpDeserialize buf : Option (Option (List String))) <;> rfl

theorem loadPlayers_listed (listed : accounts.listedIds = .ok (some ids)) {players : Players} :
    loadPlayers accounts = .ok players ↔
      (∀ id ∈ ids, accounts.Readable id) ∧ players = ⟨ids, ids.map accounts.weightAt⟩ := by
  have read : ∀ weights, ids.mapM (accounts.readRecord Player.unitsInStake fun _ => 1) =
      .ok weights ↔ (∀ id ∈ ids, accounts.Readable id) ∧ weights = ids.map accounts.weightAt :=
    fun weights => mapM_ok_iff fun _ _ => Accounts.readRecord_eq_ok_iff
  rw [loadPlayers_eq, listed]
  change (ids.mapM (accounts.readRecord Player.unitsInStake fun _ => 1)).bind
    (fun weights => Except.ok (Players.mk ids weights)) = _ ↔ _
  cases h : ids.mapM (accounts.readRecord Player.unitsInStake fun _ => 1) with
  | error e =>
    constructor
    · rintro ⟨⟩
    · rintro ⟨good, -⟩
      exact absurd ((read _).2 ⟨good, rfl⟩) (by simp [h])
  | ok weights =>
    obtain ⟨good, rfl⟩ := (read _).1 h
    constructor
    · rintro ⟨⟩
      exact ⟨good, rfl⟩
    · rintro ⟨-, rfl⟩
      rfl

theorem getPlayers_listed (listed : accounts.listedIds = .ok (some ids)) {list : List Player} :
    getPlayers accounts = .ok list ↔
      (∀ id ∈ ids, accounts.Readable id) ∧ list = ids.map accounts.playerAt := by
  rw [getPlayers_eq, listed]
  exact mapM_ok_iff fun _ _ => Accounts.readRecord_eq_ok_iff

namespace Accounts

theorem nameAt_eq_self {id : String} (some : (accounts.validatorAt id).isSome)
    (owned : accounts.Owned id) (unsegmented : accounts.Unsegmented id) :
    accounts.nameAt id = id := by
  obtain ⟨value, hvalue⟩ := Option.isSome_iff_exists.1 some
  rw [nameAt, hvalue]
  cases value with
  | player player => exact owned player hvalue
  | bool value => exact lastSegment_eq_self_iff.2 (unsegmented value hvalue)

theorem owned_of_nameAt {id : String} (h : accounts.nameAt id = id) : accounts.Owned id := by
  intro player hplayer
  rwa [nameAt, hplayer] at h

theorem unsegmented_of_nameAt {id : String} (h : accounts.nameAt id = id) :
    accounts.Unsegmented id := by
  intro value hvalue
  rw [nameAt, hvalue] at h
  exact lastSegment_eq_self_iff.1 h

/-- The name in a listed record that is not owned by a segment names itself. -/
theorem nameAt_nameAt {id : String} (readable : accounts.Readable id)
    (owned : accounts.Owned id) (named : accounts.Readable (accounts.nameAt id))
    (ownedName : accounts.Owned (accounts.nameAt id)) :
    accounts.nameAt (accounts.nameAt id) = accounts.nameAt id := by
  rcases readable with ⟨player, h⟩ | h
  · have self : accounts.nameAt id = id := by
      rw [nameAt, h]
      exact owned player h
    rw [self, self]
  · have segment : accounts.nameAt id = lastSegment id := by rw [nameAt, h]
    rcases named with ⟨player, hname⟩ | hname
    · rw [nameAt, hname]
      exact ownedName player hname
    · rw [nameAt, hname, segment, lastSegment_lastSegment]

theorem Readable.mem_recorded {id : String} (h : accounts.Readable id) :
    id ∈ accounts.recorded := by
  rw [mem_recorded_iff]
  rcases h with ⟨player, h⟩ | h <;> rw [h] <;> rfl

end Accounts

/-- The players of an answer have the ids they are listed under. -/
theorem getPlayers_agrees_iff (listed : accounts.listedIds = .ok (some ids))
    (readable : ∀ id ∈ ids, accounts.Readable id) :
    (∃ list, getPlayers accounts = .ok list ∧ list.map Player.accountId = ids ∧
      list.map Player.unitsInStake = ids.map accounts.weightAt) ↔
      ∀ id ∈ ids, accounts.Owned id := by
  have weights : (ids.map accounts.playerAt).map Player.unitsInStake =
      ids.map accounts.weightAt := by
    rw [List.map_map]
    apply List.map_congr_left
    intro id hid
    rcases readable id hid with ⟨player, h⟩ | h <;>
      simp only [Function.comp_apply, Accounts.playerAt, Accounts.weightAt, h]
  have names : (ids.map accounts.playerAt).map Player.accountId = ids ↔
      ∀ id ∈ ids, accounts.Owned id := by
    rw [List.map_map, map_eq_self_iff]
    apply forall₂_congr
    intro id hid
    rcases readable id hid with ⟨player, h⟩ | h <;>
      simp [Accounts.playerAt, Accounts.Owned, h]
  constructor
  · rintro ⟨list, hget, hnames, -⟩
    obtain ⟨-, rfl⟩ := (getPlayers_listed listed).1 hget
    exact names.1 hnames
  · intro owned
    exact ⟨_, (getPlayers_listed listed).2 ⟨readable, rfl⟩, names.2 owned, weights⟩

/-- A restart finds the listed players key by key. -/
theorem initPlayers_listed_iff (readable : ∀ id ∈ ids, accounts.Readable id) :
    initPlayers accounts = ⟨ids, ids.map accounts.weightAt⟩ ↔
      (accounts.recorded.map accounts.nameAt = ids ∧
        accounts.recorded.map accounts.weightAt = ids.map accounts.weightAt) ∧
      (ids = [] → accounts.validatorIds = []) := by
  rw [initPlayers_eq]
  split
  next none =>
    have empty : ids = [] := by
      rw [List.eq_nil_iff_forall_not_mem]
      intro id hid
      have := (readable id hid).mem_recorded
      rw [none] at this
      exact List.not_mem_nil this
    simp [empty, none]
  next found =>
    rw [Players.mk.injEq]
    constructor
    · rintro ⟨hnames, hweights⟩
      refine ⟨⟨hnames, hweights⟩, ?_⟩
      rintro rfl
      exact absurd (List.map_eq_nil_iff.1 hnames) found
    · rintro ⟨h, -⟩
      exact h

theorem readersAgree_listed_iff (listed : accounts.listedIds = .ok (some ids))
    (readable : ∀ id ∈ ids, accounts.Readable id) :
    ReadersAgree accounts ⟨ids, ids.map accounts.weightAt⟩ ↔
      if ids.Nodup then accounts.ListKept ids else accounts.RepeatedListKept ids := by
  have agree : ReadersAgree accounts ⟨ids, ids.map accounts.weightAt⟩ ↔
      (((accounts.recorded.map accounts.nameAt = ids ∧
        accounts.recorded.map accounts.weightAt = ids.map accounts.weightAt) ∧
      (ids = [] → accounts.validatorIds = [])) ∧ ∀ id ∈ ids, accounts.Owned id) := by
    rw [← initPlayers_listed_iff readable, ← getPlayers_agrees_iff listed readable]
    exact ⟨fun h => ⟨h.init, h.get⟩, fun h => ⟨h.1, h.2⟩⟩
  rw [agree]
  split
  next nodup =>
    constructor
    · rintro ⟨⟨⟨hnames, hweights⟩, hkeys⟩, owned⟩
      have sub : ∀ id ∈ ids, id ∈ accounts.recorded := fun id hid => (readable id hid).mem_recorded
      have named : ∀ key ∈ accounts.recorded, accounts.nameAt key ∈ ids := fun key hkey =>
        hnames ▸ List.mem_map_of_mem hkey
      have settled : ∀ id ∈ ids, accounts.nameAt (accounts.nameAt id) = accounts.nameAt id := by
        intro id hid
        have hname := named id (sub id hid)
        exact Accounts.nameAt_nameAt (readable id hid) (owned id hid) (readable _ hname)
          (owned _ hname)
      have self := eq_self_of_map_nodup hnames nodup sub settled
      exact
        { recorded := map_eq_self_of_nodup hnames nodup sub settled
          owned := owned
          unsegmented := fun id hid => Accounts.unsegmented_of_nameAt (self id (sub id hid))
          keys := hkeys }
    · intro h
      have self : ids.map accounts.nameAt = ids := map_eq_self_iff.2 fun id hid =>
        Accounts.nameAt_eq_self (Accounts.mem_recorded_iff.1 (readable id hid).mem_recorded)
          (h.owned id hid) (h.unsegmented id hid)
      rw [h.recorded]
      exact ⟨⟨⟨self, rfl⟩, h.keys⟩, h.owned⟩
  next repeated =>
    constructor
    · rintro ⟨⟨⟨hnames, hweights⟩, -⟩, owned⟩
      exact ⟨hnames, hweights, owned⟩
    · intro h
      refine ⟨⟨⟨h.names, h.weights⟩, ?_⟩, h.owned⟩
      rintro rfl
      exact absurd List.nodup_nil repeated

theorem getPlayers_unlisted (listed : accounts.listedIds = .ok none) :
    getPlayers accounts = .ok (accounts.validatorIds.map fun id => ⟨id, 1, 3⟩) := by
  rw [getPlayers_eq, listed]
  rfl

theorem readersAgree_unlisted_iff (listed : accounts.listedIds = .ok none) :
    ReadersAgree accounts ⟨accounts.validatorIds, accounts.validatorIds.map fun _ => 1⟩ ↔
      accounts.KeysKept := by
  have get : ∃ list, getPlayers accounts = .ok list ∧
      list.map Player.accountId = accounts.validatorIds ∧
      list.map Player.unitsInStake = accounts.validatorIds.map fun _ => 1 := by
    refine ⟨_, getPlayers_unlisted listed, ?_, ?_⟩
    · rw [List.map_map]
      exact List.map_id' _
    · rw [List.map_map]
      rfl
  have agree : ReadersAgree accounts
      ⟨accounts.validatorIds, accounts.validatorIds.map fun _ => 1⟩ ↔
      initPlayers accounts =
        ⟨accounts.validatorIds, accounts.validatorIds.map fun _ => 1⟩ :=
    ⟨fun h => h.init, fun h => ⟨h, get⟩⟩
  rw [agree, initPlayers_eq, Accounts.KeysKept]
  split
  next none => exact ⟨fun _ => .inl none, fun _ => rfl⟩
  next found =>
    rw [Players.mk.injEq, or_iff_right found]
    constructor
    · rintro ⟨hnames, hweights⟩
      have all : accounts.recorded = accounts.validatorIds := by
        have length := congrArg List.length hnames
        rw [List.length_map] at length
        exact List.filter_sublist.eq_of_length length
      rw [all] at hnames hweights
      refine ⟨all, fun id hid => ?_⟩
      have self := map_eq_self_iff.1 hnames id hid
      have one := List.map_inj_left.1 hweights id hid
      exact ⟨Accounts.owned_of_nameAt self, Accounts.unsegmented_of_nameAt self, one⟩
    · rintro ⟨all, h⟩
      rw [all]
      constructor
      · apply map_eq_self_iff.2
        intro id hid
        have some := Accounts.mem_recorded_iff.1 (all ▸ hid)
        exact Accounts.nameAt_eq_self some (h id hid).1 (h id hid).2.1
      · exact List.map_congr_left fun id hid => (h id hid).2.2

/-- The readers agree exactly where the records are those of the players. -/
theorem readersAgree_iff {players : Players} (loaded : loadPlayers accounts = .ok players) :
    ReadersAgree accounts players ↔ accounts.RecordsKept := by
  rw [Accounts.RecordsKept]
  cases listed : accounts.listedIds with
  | error e =>
    rw [loadPlayers_eq, listed] at loaded
    cases loaded
  | ok playersIds =>
    cases playersIds with
    | none =>
      rw [loadPlayers_eq, listed] at loaded
      cases loaded
      exact readersAgree_unlisted_iff listed
    | some ids =>
      obtain ⟨readable, rfl⟩ := (loadPlayers_listed listed).1 loaded
      exact readersAgree_listed_iff listed readable

section Consolidations

variable {W : Type} [Primitives] [Serialize BlockData] {s t : WasmService W} {block : Block}
  {confirmations : List Confirmation} {txsHashes : List Hash} {out : List WasmOutput}

/-- A consolidation sends the players of the database it leaves. -/
theorem consolidateBlock_players
    (h : s.consolidateBlock block confirmations txsHashes = .ok (t, out)) :
    ∃ players, loadPlayers t.db.accounts = .ok players ∧
      out = [.msg .blockService (.blockConsolidated block txsHashes players)] := by
  obtain ⟨_, players, -, sent, -, loaded⟩ := WasmService.consolidateBlock_ok h
  exact ⟨players, loaded, sent⟩

/-- After a consolidation, a restart and `GetPlayers` find the players that were sent
exactly where the records of the database are those of the players. -/
theorem consolidated_readersAgree_iff {players : Players}
    (h : s.consolidateBlock block confirmations txsHashes =
      .ok (t, [.msg .blockService (.blockConsolidated block txsHashes players)])) :
    ReadersAgree t.db.accounts players ↔ t.db.accounts.RecordsKept := by
  obtain ⟨players', loaded, hout⟩ := consolidateBlock_players h
  simp only [List.cons.injEq, Output.msg.injEq, Msg.blockConsolidated.injEq, and_true,
    true_and] at hout
  exact readersAgree_iff (hout ▸ loaded)

end Consolidations

end Readers

/-! ## A removed player -/

namespace Sample

section Roster

/-- The records of alice with one unit and of bob with two, and the lists of alice
alone and of both. -/
local instance rosterCodec : NodeCodec :=
  { nodeCodec with
    playersIds := fun bytes =>
      if bytes = [1] then some (some ["alice"])
      else if bytes = [2] then some (some ["alice", "bob"])
      else none
    validator := fun bytes =>
      if bytes = [1] then some (.player ⟨"alice", 1, 3⟩)
      else if bytes = [2] then some (.player ⟨"bob", 2, 3⟩)
      else none }

/-- The service account with this list of players and the records of both. -/
def roster (list : Bytes) : Accounts where
  accounts := ∅
  data := (((∅ : AList fun _ : String × String => Bytes).insert
    (serviceAccountId, validatorsKey) list).insert
    (serviceAccountId, "blockchain:validators:alice") [1]).insert
    (serviceAccountId, "blockchain:validators:bob") [2]

def firstBlock : Block where
  data := ⟨none, 0, 0, Hash.default, Hash.default, Hash.default, Hash.default, 0⟩
  signature := []

/-- A node that executed a block which left this list of players. -/
def enrolling (list : Bytes) : WasmService Unit where
  config := config
  db := Db.empty
  forksCollector := (∅ : AList fun _ : Hash => ExecutedFork).insert firstBlock.getHash
    ⟨⟨{ Db.empty with accounts := roster list }, Db.empty⟩, [], []⟩
  wm := ()
  drand := SeedSource.new [] [] Hash.default Hash.default Hash.default
  executed := []
  ran := []

/-- The node after the consolidation of that block. -/
def enrolled (list : Bytes) : WasmService Unit :=
  { enrolling list with
    db :=
      { Db.empty with
        accounts := roster list
        blocks := [firstBlock]
        confirmations := [[]] }
    forksCollector := ∅ }

theorem enrolling_consolidates {list : Bytes} {players : Players}
    (loaded : loadPlayers (roster list) = .ok players) :
    (enrolling list).consolidateBlock firstBlock [] [] =
      .ok (enrolled list, [.msg .blockService (.blockConsolidated firstBlock [] players)]) := by
  rw [WasmService.consolidateBlock, enrolling, AList.lookup_insert]
  change (loadPlayers (roster list) >>= _) = _
  rw [loaded]
  rfl

theorem both_kept : (roster [2]).RecordsKept := by
  have alice : (roster [2]).validatorAt "alice" = some (.player ⟨"alice", 1, 3⟩) := by rfl
  have bob : (roster [2]).validatorAt "bob" = some (.player ⟨"bob", 2, 3⟩) := by rfl
  have listed : (roster [2]).listedIds = .ok (some ["alice", "bob"]) := by rfl
  rw [Accounts.RecordsKept, listed]
  dsimp only
  rw [if_pos (by decide)]
  exact
    { recorded := by decide +kernel
      owned := by simp [Accounts.Owned, alice, bob]
      unsegmented := by simp [Accounts.Unsegmented, alice, bob]
      keys := by simp }

theorem enrolled_players_agree :
    ReadersAgree (enrolled [2]).db.accounts ⟨["alice", "bob"], [1, 2]⟩ :=
  (consolidated_readersAgree_iff (enrolling_consolidates (by rfl))).2 both_kept

/-- Bob is no longer listed, and his record is still stored: a restart finds him. -/
theorem removed_player_returns :
    (enrolling [1]).consolidateBlock firstBlock [] [] =
      .ok (enrolled [1],
        [.msg .blockService (.blockConsolidated firstBlock [] ⟨["alice"], [1]⟩)]) ∧
      initPlayers (enrolled [1]).db.accounts = ⟨["alice", "bob"], [1, 2]⟩ ∧
      ¬ ReadersAgree (enrolled [1]).db.accounts ⟨["alice"], [1]⟩ := by
  have init : initPlayers (enrolled [1]).db.accounts = ⟨["alice", "bob"], [1, 2]⟩ := by
    decide +kernel
  refine ⟨enrolling_consolidates (by rfl), init, fun agree => ?_⟩
  exact absurd (init.symm.trans agree.init) (by decide)

end Roster

end Sample

end Trinci
