import Trinci.RestApi

/-!
# The answers in a packed response

The messages of a pack are answered in order, each in the state that those before it leave.
The first error ends the loop and everything answered so far is lost, so a pack has an answer
of each message exactly if none of them ends in the error. An account is among these when a
key that is asked for holds nothing. An answer that MessagePack cannot write takes all the
others with it too: the network id is never written.
-/

namespace Trinci

open StatefulSteps

namespace RestApi

variable {S : Type}

/-! ## What the parts of a handler need -/

section Parts

variable {α : Type} {request : S → Reply α × S} {s : S} {a : α}

theorem result_sendReq_eq_ok_iff :
    result (sendReq request) s = .ok a ↔ (request s).1 = .answer a := by
  rw [sendReq, bind_ok_iff]
  constructor
  · rintro ⟨reply, asked, h⟩
    cases asked
    cases hreply : (request s).1 with
    | answer b =>
      rw [hreply] at h
      cases h
      rfl
    | wrong =>
      rw [hreply] at h
      cases h
    | failed =>
      rw [hreply] at h
      cases h
  · intro h
    refine ⟨(request s).1, rfl, ?_⟩
    rw [h]
    rfl

theorem after_sendReq : after (sendReq request) s = (request s).2 := by
  have asked : result (modifyGet request : RestHandler S (Reply α)) s = .ok (request s).1 := rfl
  rw [sendReq, (bind_ok asked).1]
  cases hreply : (request s).1 <;> rfl

theorem result_orFail_eq_ok_iff {x : Option α} :
    result (orFail x : RestHandler S α) s = .ok a ↔ x = some a := by
  cases x with
  | none =>
    refine iff_of_false ?_ nofun
    intro h
    cases h
  | some b =>
    constructor
    · intro h
      cases h
      rfl
    · intro h
      cases h
      rfl

theorem after_orFail (x : Option α) : after (orFail x : RestHandler S α) s = s := by
  cases x <;> rfl

theorem toOption_eq_some_iff {E : Type} {x : Except E α} : x.toOption = some a ↔ x = .ok a := by
  cases x with
  | error e => exact iff_of_false nofun nofun
  | ok b =>
    constructor
    · intro h
      cases h
      rfl
    · intro h
      cases h
      rfl

/-- The handler comes to an answer, and the answer can be written. -/
def Answers (x : RestHandler S RestRequest) (s : S) : Prop :=
  ∃ r, result x s = .ok r ∧ r.serializable = true

theorem answers_pure_iff {r : RestRequest} :
    Answers (pure r : RestHandler S RestRequest) s ↔ r.serializable = true := by
  constructor
  · rintro ⟨r, h, serializable⟩
    cases h
    exact serializable
  · exact fun serializable => ⟨r, rfl, serializable⟩

theorem not_answers_throw (e : MessageHandlingError) :
    ¬ Answers (throw e : RestHandler S RestRequest) s := by
  rintro ⟨r, h, -⟩
  cases h

theorem answers_bind_iff {x : RestHandler S α} {f : α → RestHandler S RestRequest} :
    Answers (x >>= f) s ↔ ∃ a, result x s = .ok a ∧ Answers (f a) (after x s) := by
  constructor
  · rintro ⟨r, h, serializable⟩
    obtain ⟨a, hx, hf⟩ := bind_ok_iff.mp h
    exact ⟨a, hx, r, hf, serializable⟩
  · rintro ⟨a, hx, r, hf, serializable⟩
    exact ⟨r, bind_ok_iff.mpr ⟨a, hx, hf⟩, serializable⟩

theorem answers_sendReq_iff {f : α → RestHandler S RestRequest} :
    Answers (sendReq request >>= f) s ↔
      ∃ a, (request s).1 = .answer a ∧ Answers (f a) (request s).2 := by
  rw [answers_bind_iff, after_sendReq]
  exact exists_congr fun a => and_congr_left fun _ => result_sendReq_eq_ok_iff

theorem answers_orFail_iff {x : Option α} {f : α → RestHandler S RestRequest} :
    Answers (orFail x >>= f) s ↔ ∃ a, x = some a ∧ Answers (f a) s := by
  rw [answers_bind_iff, after_orFail]
  exact exists_congr fun a => and_congr_left fun _ => result_orFail_eq_ok_iff

theorem answers_hashParam_iff {hash : Hash} {f : Hash → RestHandler S RestRequest} :
    Answers (hashParam hash >>= f) s ↔
      ∃ h, Hash.fromBytes hash.asBytes = .ok h ∧ Answers (f h) s := by
  rw [hashParam, answers_orFail_iff]
  exact exists_congr fun h => and_congr_left fun _ => toOption_eq_some_iff

theorem answers_guard_iff {c : Prop} [Decidable c] {e : MessageHandlingError}
    {f : α → RestHandler S RestRequest} {x : RestHandler S RestRequest} :
    Answers (if c then throw e >>= f else x) s ↔ ¬ c ∧ Answers x s := by
  by_cases hc : c
  · rw [if_pos hc]
    exact iff_of_false (not_answers_throw e) fun h => h.1 hc
  · rw [if_neg hc, and_iff_right hc]

end Parts

/-! ## What a request needs -/

section Requests

variable {services : RestServices S} {networkName : String} {s : S}

section Put

variable [Primitives] [Serialize TransactionData] [Serialize Transaction]

/-- The transaction is small enough and of the network, and the database tells if it has it. -/
def PutAnswered (services : RestServices S) (networkName : String) (tx : Transaction) (s : S) :
    Prop :=
  (rmpSerialize tx).length < blockMaxSizeBytes - blockBaseSizeBytes ∧
    tx.getNetwork = networkName ∧
    ∃ hasTx, (services.hasTx tx.getHash s).1 = .answer hasTx

theorem submitTx_answers_iff {tx : Transaction} {r : RestRequest}
    (serializable : r.serializable = true) :
    Answers (do
      let response ← submitTxInternal services networkName tx
      if response.success then return r else throw ⟨⟩) s ↔
      tx.getNetwork = networkName ∧ ∃ hasTx, (services.hasTx tx.getHash s).1 = .answer hasTx := by
  have submitted : ∀ {s : S} {body : String}, Answers (do
      let response ← (pure (.ok body) : RestHandler S (Response String))
      if response.success then return r else throw ⟨⟩) s := ⟨r, rfl, serializable⟩
  constructor
  · rintro ⟨r, h, -⟩
    obtain ⟨response, h, -⟩ := bind_ok_iff.mp h
    obtain ⟨network, h⟩ := guard_ok_iff.mp h
    obtain ⟨hasTx, asked, -⟩ := bind_ok_iff.mp h
    exact ⟨Decidable.not_not.mp network, hasTx, result_sendReq_eq_ok_iff.mp asked⟩
  · rintro ⟨network, hasTx, asked⟩
    have accepted : ¬ tx.getNetwork ≠ networkName := fun other => other network
    rw [submitTxInternal, if_neg accepted]
    simp only [bind_assoc, answers_sendReq_iff]
    refine ⟨hasTx, asked, ?_⟩
    cases hasTx with
    | true => exact submitted
    | false => exact submitted

theorem putTransaction_answers_iff {tx : Transaction} :
    Answers (putTransaction services networkName tx) s ↔
      PutAnswered services networkName tx s := by
  have small : ¬ (rmpSerialize tx).length ≥ blockMaxSizeBytes - blockBaseSizeBytes ↔
      (rmpSerialize tx).length < blockMaxSizeBytes - blockBaseSizeBytes := Nat.not_le
  rw [putTransaction, answers_guard_iff, small]
  exact and_congr_right fun _ => submitTx_answers_iff rfl

end Put

section Get

/-- A reply that is written in JSON and read from there. -/
def ReadsBack {α : Type} [Json α] (a : α) : Prop :=
  ∃ json, Json.toString? a = some json ∧ ∃ b : α, Json.fromString? json = some b

/-- Nothing is found, or the transaction is read back. -/
def TransactionAnswered [Json Transaction] (services : RestServices S) (hash : Hash) (s : S) :
    Prop :=
  ∃ h, Hash.fromBytes hash.asBytes = .ok h ∧
    ∃ txs, (services.getTxs [h] s).1 = .answer txs ∧
      ∀ tx, txs.head? = some tx → ∃ json, Json.toString? tx = some json ∧
        (json.isEmpty = true ∨ ∃ tx' : Transaction, Json.fromString? json = some tx')

theorem getTransaction_answers_iff [Json Transaction] {hash : Hash} :
    Answers (getTransaction services hash) s ↔ TransactionAnswered services hash s := by
  simp only [getTransaction, getTransactionInternal, bind_assoc, answers_hashParam_iff,
    answers_sendReq_iff]
  refine exists_congr fun h => and_congr_right fun _ => exists_congr fun txs =>
    and_congr_right fun _ => ?_
  cases txs with
  | nil => exact iff_of_true ⟨.notFound, rfl, rfl⟩ nofun
  | cons tx txs =>
    have first : (∀ tx', (tx :: txs).head? = some tx' → ∃ json, Json.toString? tx' = some json ∧
        (json.isEmpty = true ∨ ∃ tx : Transaction, Json.fromString? json = some tx)) ↔
          ∃ json, Json.toString? tx = some json ∧
            (json.isEmpty = true ∨ ∃ tx : Transaction, Json.fromString? json = some tx) := by
      refine ⟨fun all => all tx rfl, fun one tx' same => ?_⟩
      cases same
      exact one
    rw [first, bind_assoc, answers_orFail_iff]
    refine exists_congr fun json => and_congr_right fun _ => ?_
    change Answers (if json.isEmpty then pure .notFound else do
      let tx ← orFail (Json.fromString? json)
      pure (.getTransactionResponse tx none)) _ ↔ _
    by_cases empty : json.isEmpty = true
    · rw [if_pos empty]
      exact iff_of_true (answers_pure_iff.mpr rfl) (.inl empty)
    · rw [if_neg empty, answers_orFail_iff, or_iff_right empty]
      exact exists_congr fun tx => and_iff_left (answers_pure_iff.mpr rfl)

def ReceiptAnswered [Json (Option Receipt)] (services : RestServices S) (hash : Hash) (s : S) :
    Prop :=
  ∃ h, Hash.fromBytes hash.asBytes = .ok h ∧
    ∃ receipt, (services.getRx h s).1 = .answer receipt ∧ ReadsBack receipt

theorem getReceipt_answers_iff [Json (Option Receipt)] {hash : Hash} :
    Answers (getReceipt services hash) s ↔ ReceiptAnswered services hash s := by
  simp only [getReceipt, getReceiptInternal, bind_assoc, answers_hashParam_iff,
    answers_sendReq_iff, answers_orFail_iff, pure_bind]
  refine exists_congr fun h => and_congr_right fun _ => exists_congr fun receipt =>
    and_congr_right fun _ => exists_congr fun json => and_congr_right fun _ => ?_
  rw [if_pos (Response.success_ok json), answers_orFail_iff]
  refine exists_congr fun rx => and_iff_left ?_
  cases rx with
  | none => exact answers_pure_iff.mpr rfl
  | some rx => exact answers_pure_iff.mpr rfl

def BlockAnswered [Json (Option NodeFullBlock)] (services : RestServices S) (height : UInt64)
    (s : S) : Prop :=
  ∃ fullBlock, (services.getFullBlock height s).1 = .answer fullBlock ∧ ReadsBack fullBlock

theorem getBlock_answers_iff [Primitives] [Serialize TransactionData]
    [Json (Option NodeFullBlock)] {height : UInt64} {txs : Bool} :
    Answers (getBlock services height txs) s ↔ BlockAnswered services height s := by
  simp only [getBlock, getFullBlockInternal, bind_assoc, answers_sendReq_iff,
    answers_orFail_iff, pure_bind]
  refine exists_congr fun fullBlock => and_congr_right fun _ => exists_congr fun json =>
    and_congr_right fun _ => ?_
  rw [if_pos (Response.success_ok json), answers_orFail_iff]
  refine exists_congr fun block => and_iff_left ?_
  cases block with
  | none => exact answers_pure_iff.mpr rfl
  | some block =>
    cases txs with
    | true => exact answers_pure_iff.mpr rfl
    | false => exact answers_pure_iff.mpr rfl

/-- Without a body to read the statistics never come to an answer. -/
theorem not_getCoreStats_answers [Json (Option NodeFullBlock)] :
    ¬ Answers (getCoreStats services) s := by
  simp only [getCoreStats, getUnconfirmedPoolLenInternal, getFullBlockInternal, bind_assoc,
    answers_sendReq_iff, pure_bind]
  rintro ⟨length, -, h⟩
  rw [if_pos (Response.success_ok (toString length))] at h
  obtain ⟨fullBlock, -, h⟩ := answers_sendReq_iff.mp h
  obtain ⟨json, -, h⟩ := answers_orFail_iff.mp h
  rw [if_pos (Response.success_ok json)] at h
  obtain ⟨block, read, -⟩ := answers_orFail_iff.mp h
  have nothing : (Json.fromString? "" : Option (Option NodeFullBlock)) = some block := read
  rw [Json.fromString?_empty] at nothing
  cases nothing

end Get

section Accounts

variable {id key : String} {data : List String}

/-- The data under a key, with the state that the database leaves. -/
def nextKey (services : RestServices S) (id key : String) (s : S) : S :=
  (services.getAccountData id key s).2

theorem after_keyData : after (keyData services id key) s = nextKey services id key s := by
  have response : ∀ s, after (getAccountDataInternal services id key) s =
      nextKey services id key s := by
    intro s
    refine (after_bind_quiet ?_).trans after_sendReq
    intro reply t
    cases reply with
    | none => rfl
    | some data => rfl
  refine (after_bind_quiet ?_).trans (response s)
  intro response t
  cases response.success with
  | true => rfl
  | false => rfl

theorem result_keyData_eq_ok_iff {value : Option Bytes} :
    result (keyData services id key) s = .ok value ↔
      ∃ data, (services.getAccountData id key s).1 = .answer (some data) ∧ value = some data := by
  simp only [keyData, getAccountDataInternal, bind_assoc]
  rw [bind_ok_iff, after_sendReq]
  constructor
  · rintro ⟨reply, asked, h⟩
    cases reply with
    | none => cases h
    | some data =>
      cases h
      exact ⟨data, result_sendReq_eq_ok_iff.mp asked, rfl⟩
  · rintro ⟨data, asked, rfl⟩
    exact ⟨some data, result_sendReq_eq_ok_iff.mpr asked, rfl⟩

theorem mapM_keyData_iff {values : List (Option Bytes)} :
    result (data.mapM (keyData services id)) s = .ok values ↔
      EachWith (nextKey services id) (fun key s value => ∃ data,
        (services.getAccountData id key s).1 = .answer (some data) ∧ value = some data)
        data s values := by
  have next : (fun key s => after (keyData services id key) s) = nextKey services id :=
    funext fun key => funext fun s => after_keyData
  rw [mapM_ok_iff_eachWith, next]
  constructor
  · exact fun h => h.imp fun key s value => result_keyData_eq_ok_iff.mp
  · exact fun h => h.imp fun key s value => result_keyData_eq_ok_iff.mpr

/-- There is data under every key. -/
def AllStored (services : RestServices S) (id : String) (data : List String) (s : S) : Prop :=
  Each (nextKey services id)
    (fun key s => ∃ value, (services.getAccountData id key s).1 = .answer (some value)) data s

theorem allStored_iff :
    (∃ values, result (data.mapM (keyData services id)) s = .ok values) ↔
      AllStored services id data s := by
  constructor
  · rintro ⟨values, h⟩
    refine (exists_eachWith_iff.mp ⟨values, mapM_keyData_iff.mp h⟩).imp fun key s stored => ?_
    obtain ⟨-, value, asked, -⟩ := stored
    exact ⟨value, asked⟩
  · intro stored
    have found := stored.imp (Q := fun key s => ∃ value data,
      (services.getAccountData id key s).1 = .answer (some data) ∧ value = some data)
      fun key s ⟨value, asked⟩ => ⟨some value, value, asked, rfl⟩
    obtain ⟨values, h⟩ := exists_eachWith_iff.mpr found
    exact ⟨values, mapM_keyData_iff.mpr h⟩

variable [Json Account]

/-- The body of the response for an account. -/
def accountJson : Option Account → Option String
  | some account => Json.toString? account
  | none => some "\x7b\x7d"

/-- What follows the response for an account. -/
def readAccount (services : RestServices S) (id : String) (data : List String) (json : String) :
    RestHandler S RestRequest :=
  if json.isEmpty then return .notFound
  else match (Json.fromString? json : Option Account) with
    | some account => do
      let keyData ← data.mapM (keyData services id)
      return .getAccountResponse account keyData
    | none => return .notFound

theorem getAccount_eq : getAccount services id data = (do
    let account ← sendReq (services.getAccount id)
    let json ← orFail (accountJson account)
    readAccount services id data json) := by
  rw [getAccount, getAccountInternal, bind_assoc]
  refine congrArg _ (funext fun account => ?_)
  cases account with
  | none => rfl
  | some account =>
    rw [accountJson, bind_assoc]
    rfl

/-- The account is read from its text, and there is data under every key that is asked for. -/
def AccountAnswered (services : RestServices S) (id : String) (data : List String) (s : S) :
    Prop :=
  ∃ account, (services.getAccount id s).1 = .answer account ∧
    ∃ json, accountJson account = some json ∧
      (json.isEmpty = true ∨ ∀ acc : Account, Json.fromString? json = some acc →
        AllStored services id data (services.getAccount id s).2)

theorem getAccount_answers_iff :
    Answers (getAccount services id data) s ↔ AccountAnswered services id data s := by
  simp only [getAccount_eq, answers_sendReq_iff, answers_orFail_iff]
  refine exists_congr fun account => and_congr_right fun _ => exists_congr fun json =>
    and_congr_right fun _ => ?_
  rw [readAccount]
  by_cases empty : json.isEmpty = true
  · rw [if_pos empty]
    exact iff_of_true (answers_pure_iff.mpr rfl) (.inl empty)
  · rw [if_neg empty, or_iff_right empty]
    cases hacc : (Json.fromString? json : Option Account) with
    | none => exact iff_of_true (answers_pure_iff.mpr rfl) nofun
    | some acc =>
      rw [answers_bind_iff, ← allStored_iff]
      constructor
      · rintro ⟨values, h, -⟩ acc' -
        exact ⟨values, h⟩
      · intro stored
        obtain ⟨values, h⟩ := stored acc rfl
        exact ⟨values, h, answers_pure_iff.mpr rfl⟩

/-- Where the database tells what is stored under every key, the answer is the account with
that. -/
def HoldsValues (services : RestServices S) (id : String) (data : List String) (s : S) : Prop :=
  ∀ account json acc values, (services.getAccount id s).1 = .answer account →
    accountJson account = some json → json.isEmpty = false →
    (Json.fromString? json : Option Account) = some acc →
    EachWith (nextKey services id)
      (fun key s value => (services.getAccountData id key s).1 = .answer value) data
      (services.getAccount id s).2 values →
    result (getAccount services id data) s = .ok (.getAccountResponse acc values)

theorem AccountAnswered.holdsValues (h : AccountAnswered services id data s) :
    HoldsValues services id data s := by
  intro account json acc values asked text nonempty read stored
  obtain ⟨account', asked', json', text', all⟩ := h
  rw [asked] at asked'
  cases asked'
  rw [text] at text'
  cases text'
  have filled : ¬ json.isEmpty = true := by
    rw [nonempty]
    exact Bool.false_ne_true
  obtain ⟨found, hfound⟩ := allStored_iff.mpr ((or_iff_right filled).mp all acc read)
  have same : values = found := (mapM_keyData_iff.mp hfound).unique stored
    fun key s b b' ⟨value, told, hb⟩ told' => by
      rw [told] at told'
      cases told'
      exact hb.symm
  rw [getAccount_eq, bind_ok_iff, after_sendReq]
  refine ⟨account, result_sendReq_eq_ok_iff.mpr asked, ?_⟩
  rw [bind_ok_iff, after_orFail]
  refine ⟨json, result_orFail_eq_ok_iff.mpr text, ?_⟩
  rw [readAccount, if_neg filled, read, same]
  exact bind_ok_iff.mpr ⟨found, hfound, rfl⟩

end Accounts

end Requests

/-! ## Packs -/

section Packs

variable [Primitives] [Serialize TransactionData] [Serialize Transaction] [Json Transaction]
  [Json (Option Receipt)] [Json (Option NodeFullBlock)] [Json Account] [RestCodec]

/-- The state in which the message after this one is handled. -/
def nextMessage (services : RestServices S) (networkName : String) (packLevel : Nat)
    (message : RestRequest) (s : S) : S :=
  after (handleMessage services networkName packLevel message) s

/-- What the services have to reply to a request that is no pack. The statistics and the
network id are never served, nor is a message that is no request. -/
def Answered (services : RestServices S) (networkName : String) : RestRequest → S → Prop
  | .putTransactionRequest _ tx, s => PutAnswered services networkName tx s
  | .getTransactionRequest hash _, s => TransactionAnswered services hash s
  | .getReceiptRequest hash, s => ReceiptAnswered services hash s
  | .getBlockRequest height _ _, s => BlockAnswered services height s
  | .getAccountRequest id data, s => AccountAnswered services id data s
  | _, _ => False

/-- Every request in the pack is served when its turn comes, at every depth. -/
def Served (services : RestServices S) (networkName : String) (packLevel : Nat) :
    RestRequest → S → Prop
  | .packed buf, s =>
    if _ : packLevel + 1 < maxPackLevel then
      match unpacked buf with
      | none => True
      | some multi => Each (nextMessage services networkName (packLevel + 2))
          (fun message s => Served services networkName (packLevel + 2) message s)
          multi.messages s
    else False
  | message, s => Answered services networkName message s
  termination_by maxPackLevel - packLevel

/-- The answer of a request by itself, and for an error any entry that tells one. -/
def IsEntry (entry : RestRequest) : Except MessageHandlingError RestRequest → Prop
  | .ok response => entry = response
  | .error _ => ∃ kind source, entry = .exception kind source

/-- What a packed response is for: an entry for each request, in order, at every depth, and
for an account what is stored under every key. A pack that cannot be read is told so. -/
def Right (services : RestServices S) (networkName : String) (packLevel : Nat) :
    RestRequest → S → Prop
  | .packed buf, s =>
    if _ : packLevel + 1 < maxPackLevel then
      match unpacked buf with
      | none => result (handleMessage services networkName packLevel (.packed buf)) s =
          .ok .malformed
      | some multi => ∃ entries bytes,
          result (handleMessage services networkName packLevel (.packed buf)) s =
            .ok (.packed bytes) ∧
          RestCodec.rmpSerialize (multi.withMessages entries) = some bytes ∧
          EachWith (nextMessage services networkName (packLevel + 2))
            (fun message s entry =>
              IsEntry entry
                (result (handleMessage services networkName (packLevel + 2) message) s) ∧
                Right services networkName (packLevel + 2) message s)
            multi.messages s entries
    else False
  | .getAccountRequest id data, s => HoldsValues services id data s
  | _, _ => True
  termination_by maxPackLevel - packLevel

variable {services : RestServices S} {networkName : String} {packLevel : Nat} {s : S}
  {buf : Bytes} {multi : MultiMessage}

theorem handleMessage_malformed (allowed : packLevel + 1 < maxPackLevel)
    (unread : unpacked buf = none) :
    result (handleMessage services networkName packLevel (.packed buf)) s = .ok .malformed := by
  rw [handleMessage, handlePackedMessage, dif_neg (Nat.not_le.mpr allowed), unread]
  rfl

/-- A pack has an answer if every message in it has one. -/
theorem handleMessage_packed_ok_iff {r : RestRequest} (allowed : packLevel + 1 < maxPackLevel)
    (read : unpacked buf = some multi) :
    result (handleMessage services networkName packLevel (.packed buf)) s = .ok r ↔
      ∃ entries, EachWith (nextMessage services networkName (packLevel + 2))
        (fun message s entry =>
          result (handleMessage services networkName (packLevel + 2) message) s = .ok entry)
        multi.messages s entries ∧ r = repacked (multi.withMessages entries) := by
  rw [handleMessage, handlePackedMessage, dif_neg (Nat.not_le.mpr allowed), read]
  cases multi with
  | simple message =>
    rw [bind_ok_iff]
    constructor
    · rintro ⟨response, h, packs⟩
      cases packs
      exact ⟨[response], ⟨response, [], rfl, h, rfl⟩, rfl⟩
    · rintro ⟨entries, ⟨response, rest, rfl, h, rfl⟩, rfl⟩
      exact ⟨response, h, rfl⟩
  | sequence messages =>
    rw [bind_ok_iff]
    constructor
    · rintro ⟨responses, h, packs⟩
      cases packs
      exact ⟨responses, mapM_ok_iff_eachWith.mp h, rfl⟩
    · rintro ⟨responses, h, rfl⟩
      exact ⟨responses, mapM_ok_iff_eachWith.mpr h, rfl⟩

/-- The answer to a pack is a pack or an exception, and both can be written. -/
theorem Right.answers (h : Right services networkName packLevel (.packed buf) s) :
    Answers (handleMessage services networkName packLevel (.packed buf)) s := by
  rw [Right] at h
  by_cases allowed : packLevel + 1 < maxPackLevel
  · rw [dif_pos allowed] at h
    cases read : unpacked buf with
    | none => exact ⟨.malformed, handleMessage_malformed allowed read, rfl⟩
    | some multi =>
      rw [read] at h
      obtain ⟨entries, bytes, answered, -⟩ := h
      exact ⟨.packed bytes, answered, rfl⟩
  · rw [dif_neg allowed] at h
    exact h.elim

/-- One level: what is right of a pack is what is right of its messages, if all have an answer
that can be written. -/
theorem right_packed_iff (later : ∀ message s,
      Answers (handleMessage services networkName (packLevel + 2) message) s ∧
        Right services networkName (packLevel + 2) message s ↔
      Served services networkName (packLevel + 2) message s) :
    Right services networkName packLevel (.packed buf) s ↔
      Served services networkName packLevel (.packed buf) s := by
  rw [Right, Served]
  by_cases allowed : packLevel + 1 < maxPackLevel
  · rw [dif_pos allowed, dif_pos allowed]
    cases read : unpacked buf with
    | none => exact iff_of_true (handleMessage_malformed allowed read) trivial
    | some multi =>
      have packs : ∀ r, result (handleMessage services networkName packLevel (.packed buf)) s =
          .ok r ↔ _ := fun r => handleMessage_packed_ok_iff allowed read
      constructor
      · rintro ⟨entries, bytes, h, written, each⟩
        obtain ⟨responses, answered, -⟩ := (packs _).mp h
        obtain rfl : entries = responses := answered.unique each
          fun message s r entry hr ⟨hentry, _⟩ => by
            rw [hr] at hentry
            exact hentry
        have serializable := (RestCodec.writes_iff answered.length_eq).mp ⟨bytes, written⟩
        have rights := (eachWith_and_each_iff.mp each).2
        have both := eachWith_and_each_iff.mpr
          ⟨eachWith_and_forall_iff.mpr ⟨answered, serializable⟩, rights⟩
        refine (exists_eachWith_iff.mp ⟨entries, both⟩).imp fun message s h => ?_
        obtain ⟨entry, answers, right⟩ := h
        exact (later message s).mp ⟨⟨entry, answers⟩, right⟩
      · intro served
        have each := served.imp (Q := fun message s => ∃ r,
          (result (handleMessage services networkName (packLevel + 2) message) s = .ok r ∧
            r.serializable = true) ∧ Right services networkName (packLevel + 2) message s)
          fun message s h => by
            obtain ⟨⟨r, answers⟩, right⟩ := (later message s).mpr h
            exact ⟨r, answers, right⟩
        obtain ⟨entries, each⟩ := exists_eachWith_iff.mpr each
        obtain ⟨answered, serializable⟩ :=
          eachWith_and_forall_iff.mp (eachWith_and_each_iff.mp each).1
        obtain ⟨bytes, written⟩ := (RestCodec.writes_iff answered.length_eq).mpr serializable
        refine ⟨entries, bytes, (packs _).mpr ⟨entries, answered, ?_⟩, written, ?_⟩
        · rw [repacked, written]
          rfl
        · refine each.imp fun message s entry h => ⟨?_, h.2⟩
          rw [h.1.1]
          exact rfl
  · rw [dif_neg allowed, dif_neg allowed]

/-- By induction on the levels that are left. -/
theorem answers_and_right_iff_served (message : RestRequest) (s : S) :
    Answers (handleMessage services networkName packLevel message) s ∧
      Right services networkName packLevel message s ↔
    Served services networkName packLevel message s := by
  induction hn : maxPackLevel - packLevel using Nat.strongRecOn
    generalizing packLevel message s with
  | ind n ih =>
    cases message with
    | packed buf =>
      have pack : Right services networkName packLevel (.packed buf) s ↔
          Served services networkName packLevel (.packed buf) s := by
        by_cases allowed : packLevel + 1 < maxPackLevel
        · exact right_packed_iff fun message s => ih _ (by omega) message s rfl
        · rw [Right, Served, dif_neg allowed, dif_neg allowed]
      exact ⟨fun h => pack.mp h.2, fun h => ⟨(pack.mpr h).answers, pack.mpr h⟩⟩
    | getAccountRequest id data =>
      rw [handleMessage, Right, Served, Answered, getAccount_answers_iff]
      · exact ⟨And.left, fun h => ⟨h, h.holdsValues⟩⟩
      · intros
        contradiction
    | putTransactionRequest confirm tx =>
      rw [handleMessage, Right, Served, Answered, putTransaction_answers_iff, and_iff_left trivial]
      all_goals (intros; contradiction)
    | getTransactionRequest hash destination =>
      rw [handleMessage, Right, Served, Answered, getTransaction_answers_iff, and_iff_left trivial]
      all_goals (intros; contradiction)
    | getReceiptRequest hash =>
      rw [handleMessage, Right, Served, Answered, getReceipt_answers_iff, and_iff_left trivial]
      all_goals (intros; contradiction)
    | getBlockRequest height txs destination =>
      rw [handleMessage, Right, Served, Answered, getBlock_answers_iff, and_iff_left trivial]
      all_goals (intros; contradiction)
    | getCoreStatsRequest =>
      rw [handleMessage, Served, Answered]
      · exact iff_of_false (fun h => not_getCoreStats_answers h.1) id
      all_goals (intros; contradiction)
    | getNetworkIdRequest =>
      rw [handleMessage, Served, Answered]
      · exact iff_of_false (fun h => Bool.false_ne_true (answers_pure_iff.mp h.1)) id
      all_goals (intros; contradiction)
    | exception _ _ | putTransactionResponse _ | getTransactionResponse _ _
    | getReceiptResponse _ | getBlockResponse _ _ _ | getAccountResponse _ _
    | getCoreStatsResponse _ | getNetworkIdResponse _ | stop =>
      rw [handleMessage, Served, Answered]
      · exact iff_of_false (fun h => not_answers_throw _ h.1) id
      all_goals (intros; contradiction)

/-- A pack is answered with an entry for each request, at every depth, exactly if every request
in it is served when its turn comes. -/
theorem packed_right_iff_served (services : RestServices S) (networkName : String)
    (packLevel : Nat) (buf : Bytes) (s : S) :
    Right services networkName packLevel (.packed buf) s ↔
      Served services networkName packLevel (.packed buf) s := by
  have both : Answers (handleMessage services networkName packLevel (.packed buf)) s ∧ _ ↔ _ :=
    answers_and_right_iff_served (.packed buf) s
  exact ⟨fun h => both.mp ⟨h.answers, h⟩, fun h => (both.mpr h).2⟩

end Packs

end RestApi

/-! ## A key that holds nothing -/

namespace RestSample

open RestApi

attribute [local instance] Sample.primitives

def alice : Account := Account.new "alice" none

def aliceJson : String :=
  "\x7b\"id\":\"alice\",\"assets\":\x7b\x7d,\"contract\":null,\"data_hash\":null\x7d"

local instance accounts : Json Account where
  toString? _ := some aliceJson
  fromString? json := if json = aliceJson then some alice else none
  fromString?_empty := by decide

/-- No transaction, receipt or block is stored. -/
local instance transactions : Json Transaction := ⟨fun _ => none, fun _ => none, rfl⟩

local instance receipts : Json (Option Receipt) :=
  ⟨fun _ => some "null", fun json => if json = "null" then some none else none, by decide⟩

local instance blocks : Json (Option NodeFullBlock) :=
  ⟨fun _ => some "null", fun json => if json = "null" then some none else none, by decide⟩

local instance transactionData : Serialize TransactionData := ⟨fun _ => []⟩

local instance transaction : Serialize Transaction := ⟨fun _ => []⟩

local instance keys : Serialize (List String) := ⟨fun _ => [0x91, 0xa1, 0x61]⟩

/-- Two requests for the account of alice, with a key and without. -/
def requests : List RestRequest := [.getAccountRequest "alice" ["k"], .getAccountRequest "alice" []]

/-- The requests as arrays, each with its tag, its id and its keys. -/
def pack : Bytes :=
  [0x92, 0x93, 0xa2, 0x31, 0x31, 0xa5, 0x61, 0x6c, 0x69, 0x63, 0x65, 0x91, 0xa1, 0x6b,
    0x93, 0xa2, 0x31, 0x31, 0xa5, 0x61, 0x6c, 0x69, 0x63, 0x65, 0x90]

local instance codec : RestCodec where
  rmpSerialize multi := if multi.messages.all RestRequest.serializable then some [0x90] else none
  rmpDeserialize bytes := if bytes = pack then some (.sequence requests) else none
  rmpSerialize_isSome multi := by
    cases multi.messages.all RestRequest.serializable with
    | true => rfl
    | false => rfl

/-- Services over a database of accounts. -/
def services : RestServices Accounts where
  hasTx _ db := (.answer false, db)
  propagateTxToPeers _ db := db
  addTx _ _ _ db := db
  getTxs _ db := (.answer [], db)
  getRx _ db := (.answer none, db)
  getFullBlock _ db := (.answer none, db)
  getAccount id db := (.answer (DbService.getAccount db id), db)
  getAccountData id key db := (.answer (DbService.getAccountData db id key), db)
  getPoolLength db := (.answer 0, db)

/-- Alice has data under one key. -/
def database : Accounts where
  accounts := (∅ : AList _).insert "alice" alice
  data := (∅ : AList _).insert ("alice", "a") [1]

theorem k_empty : (services.getAccountData "alice" "k" database).1 = .answer none := by
  have absent : DbService.getAccountData database "alice" "k" = none := by decide +kernel
  exact congrArg Reply.answer absent

theorem unpacked_pack : unpacked pack = some (.sequence requests) := rfl

theorem alice_stored :
    (services.getAccount "alice" database).1 = .answer (some alice) := rfl

theorem aliceJson_filled : ¬ aliceJson.isEmpty = true := by decide

theorem aliceJson_read : (Json.fromString? aliceJson : Option Account) = some alice := if_pos rfl

theorem alice_answered (networkName : String) (packLevel : Nat) :
    result (handleMessage services networkName packLevel (.getAccountRequest "alice" [])) database =
      .ok (.getAccountResponse alice []) := by
  rw [handleMessage, getAccount_eq, bind_ok_iff, after_sendReq]
  refine ⟨some alice, result_sendReq_eq_ok_iff.mpr alice_stored, ?_⟩
  rw [bind_ok_iff, after_orFail]
  refine ⟨aliceJson, result_orFail_eq_ok_iff.mpr rfl, ?_⟩
  rw [readAccount, if_neg aliceJson_filled, aliceJson_read]
  rfl

theorem k_not_answered (networkName : String) (packLevel : Nat) (r : RestRequest) :
    result (handleMessage services networkName packLevel (.getAccountRequest "alice" ["k"]))
      database ≠ .ok r := by
  intro h
  rw [handleMessage, getAccount_eq, bind_ok_iff, after_sendReq] at h
  obtain ⟨account, asked, h⟩ := h
  have told := result_sendReq_eq_ok_iff.mp asked
  rw [alice_stored] at told
  cases told
  obtain ⟨json, text, h⟩ := bind_ok_iff.mp h
  cases result_orFail_eq_ok_iff.mp text
  rw [after_orFail, readAccount, if_neg aliceJson_filled, aliceJson_read] at h
  obtain ⟨values, all, -⟩ := bind_ok_iff.mp h
  obtain ⟨value, rest, -, ⟨data, found, -⟩, -⟩ := mapM_keyData_iff.mp all
  have nothing : Reply.answer none = .answer (some data) := k_empty.symm.trans found
  cases nothing

/-- The request by itself has an answer, and the pack has none. -/
theorem empty_key_ends_pack :
    (∃ r, result (handleMessage services "net" 2 (.getAccountRequest "alice" [])) database =
      .ok r) ∧
    (¬ ∃ r, result (handleMessage services "net" 0 (.packed pack)) database = .ok r) ∧
    ¬ Right services "net" 0 (.packed pack) database := by
  have allowed : 0 + 1 < maxPackLevel := by decide
  have ended : ¬ ∃ r, result (handleMessage services "net" 0 (.packed pack)) database = .ok r := by
    rintro ⟨r, h⟩
    obtain ⟨entries, answered, -⟩ := (handleMessage_packed_ok_iff allowed unpacked_pack).mp h
    obtain ⟨entry, rest, -, first, -⟩ := answered
    exact k_not_answered "net" 2 entry first
  refine ⟨⟨_, alice_answered "net" 2⟩, ended, fun right => ?_⟩
  obtain ⟨r, h, -⟩ := right.answers
  exact ended ⟨r, h⟩

end RestSample

end Trinci
