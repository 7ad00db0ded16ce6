/-
The client of the SDK (`Sg32Client` in `index.ts`) and the answers it verifies.

The server writes `tx_index` and the client reads `txIndex`, which is undefined:
its fold then takes every sibling for a left one.  Of a transaction the client
only looks at the flag that the node has set.

* `getProofAndVerify_iff`, `getVerifiedTransaction_iff` — what the client
  accepts;
* `folds_ofAnswer`, `folds_of_getProof` — an honest proof folds to the root at its own index;
* `clientVerification_iff` — when the client decides by the proof.
-/
import Sg32.Sdk.MerkleVerifier
import Sg32.ServedTransactions

namespace Sg32.Sdk

open JavaScript MerkleFold Rust

/-! ### The client -/

/-- The result of a call; an error is thrown. -/
def call (json : Value) : Option Value := do
  let error ← json.get "error"
  if error.truthy then none else json.get "result"

variable (sha256 : Bytes → Digest)

/-- `clientVerified`, unless an exception is thrown. -/
def getProofAndVerify (json : Value) : Option Bool := do
  let proof ← call json
  let root ← (← proof.get "root").asString
  let leaf ← (← proof.get "leaf").asString
  let siblings ← (← proof.get "proof").asStrings
  let index ← (← proof.get "txIndex").toNumber
  some (verifyMerkleProof sha256 root leaf siblings index)

/-- The transaction and its proof, unless an exception is thrown. -/
def getVerifiedTransaction (json : Value) : Option (Value × Value) := do
  let tx ← call json
  let verified ← tx.get "verified"
  if !verified.truthy then none
  else
    let transaction ← tx.get "transaction"
    some (transaction, tx)

/-! ### Answers of a node

The names of the fields are the server's, and the texts may be anything. -/

structure ProofResult where
  slot : Value
  tx_index : Value
  leaf : Str
  proof : List Str
  root : Str
  verified : Value

structure TransactionResult extends ProofResult where
  transaction : Value

def ProofResult.json (result : ProofResult) : Value :=
  .object [("slot", result.slot), ("tx_index", result.tx_index),
    ("leaf", .string result.leaf), ("proof", .array (result.proof.map .string)),
    ("root", .string result.root), ("verified", result.verified)]

def TransactionResult.json (result : TransactionResult) : Value :=
  .object [("slot", result.slot), ("tx_index", result.tx_index),
    ("transaction", result.transaction),
    ("leaf", .string result.leaf), ("proof", .array (result.proof.map .string)),
    ("root", .string result.root), ("verified", result.verified)]

/-- The proof leads from the leaf to the root at this index. -/
def ProofResult.Folds (result : ProofResult) (index : ℕ) : Prop :=
  walk (hashPair sha256) (hexToBytes result.leaf) (result.proof.map hexToBytes) index =
    hexToBytes result.root

instance (result : ProofResult) (index : ℕ) : Decidable (result.Folds sha256 index) :=
  inferInstanceAs (Decidable (_ = _))

/-- A node answers with a result or with an error. -/
inductive Answer (α : Type)
  | success (result : α)
  | failure (message : Str)

/-- The response as the client parses it. -/
def Answer.json {α : Type} (toJson : α → Value) (id : Number) : Answer α → Value
  | .success result => .object [("jsonrpc", .string (utf16 "2.0")), ("result", toJson result),
      ("error", .null), ("id", .number id)]
  | .failure message => .object [("jsonrpc", .string (utf16 "2.0")), ("result", .null),
      ("error", .string message), ("id", .number id)]

/-- The answer has a result of which this holds. -/
def Answer.Has {α : Type} (p : α → Prop) : Answer α → Prop
  | .success result => p result
  | .failure _ => False

variable {sha256}

theorem call_json {α : Type} {toJson : α → Value} {id : Number} (result : α) :
    call (Answer.json toJson id (.success result)) = some (toJson result) := rfl

/-- An error leaves nothing to read fields of. -/
theorem call_failure {α β : Type} (toJson : α → Value) (id : Number) (message : Str)
    (name : String) (next : Value → Value → Option β) :
    ((call (Answer.json toJson id (.failure message))).bind fun result =>
      (result.get name).bind (next result)) = none := by
  by_cases h : message = []
  · subst h
    rfl
  · have htruthy : (Value.string message).truthy = true := decide_eq_true h
    show ((if (Value.string message).truthy then none else some Value.null).bind _) = none
    rw [if_pos htruthy]
    rfl

/-- The index is undefined, so that the client folds as at the last position. -/
theorem getProofAndVerify_iff (result : ProofResult) (id : Number) :
    getProofAndVerify sha256 (Answer.json ProofResult.json id (.success result)) = some true ↔
      result.Folds sha256 (2 ^ result.proof.length - 1) := by
  have hroot : result.json.get "root" = some (.string result.root) := rfl
  have hleaf : result.json.get "leaf" = some (.string result.leaf) := rfl
  have hproof : result.json.get "proof" = some (.array (result.proof.map .string)) := rfl
  -- there is no field of this name
  have hindex : result.json.get "txIndex" = some .undefined := rfl
  have hverify : getProofAndVerify sha256 (Answer.json ProofResult.json id (.success result)) =
      some (verifyMerkleProof sha256 result.root result.leaf result.proof .nan) := by
    simp only [getProofAndVerify, call_json, Option.bind_eq_bind, Option.bind_some, hroot, hleaf,
      hproof, hindex, Value.asString, Value.asStrings_array, Value.toNumber]
  rw [hverify, Option.some.injEq, verifyMerkleProof, bytesEqual_iff, foldProof_nan]
  rfl

/-- The flag of the node decides. -/
theorem getVerifiedTransaction_iff (result : TransactionResult) (id : Number) :
    (getVerifiedTransaction (Answer.json TransactionResult.json id (.success result))).isSome =
        true ↔ result.verified.truthy = true := by
  have hverified : result.json.get "verified" = some result.verified := rfl
  have htransaction : result.json.get "transaction" = some result.transaction := rfl
  simp only [getVerifiedTransaction, call_json, Option.bind_eq_bind, Option.bind_some, hverified,
    htransaction]
  cases result.verified.truthy <;> simp

/-- An error answer is not accepted. -/
theorem getProofAndVerify_failure (toJson : ProofResult → Value) (message : Str) (id : Number) :
    getProofAndVerify sha256 (Answer.json toJson id (.failure message)) = none :=
  call_failure toJson id message "root" _

theorem getVerifiedTransaction_failure (toJson : TransactionResult → Value) (message : Str)
    (id : Number) :
    getVerifiedTransaction (Answer.json toJson id (.failure message)) = none :=
  call_failure toJson id message "verified" _

/-! ### Answers of the server -/

/-- A response value as the client parses it; large numbers and fractions, which
are not exact in this model, are left out. -/
def ofJson : Json → Option Value
  | .null => some .null
  | .bool b => some (.bool b)
  | .number (.posInt n) => if n.toNat < 2 ^ 53 then some (.number (.int n.toNat)) else none
  | .number (.negInt n) => if -2 ^ 53 < n.toInt then some (.number (.int n.toInt)) else none
  | .number (.float _) => none
  | .str s => some (.string (utf16 s))
  | .arr items => (ofItems items).map .array
  | .obj fields => (ofFields fields).map .object
where
  ofItems : List Json → Option (List Value)
    | [] => some []
    | item :: items => do
      let value ← ofJson item
      let values ← ofItems items
      some (value :: values)
  ofFields : List (String × Json) → Option (List (String × Value))
    | [] => some []
    | (name, item) :: fields => do
      let value ← ofJson item
      let values ← ofFields fields
      some ((name, value) :: values)

/-- `result` and `error` are both written, one of them as null. -/
def ofResponse (response : JsonRpcResponse) : Option Value := do
  let result ← ofJson (response.result.getD .null)
  let id ← ofJson (.u64 response.id)
  some (.object [("jsonrpc", .string (utf16 response.jsonrpc)), ("result", result),
    ("error", response.error.elim .null fun message => .string (utf16 message)), ("id", id)])

variable {Tx : Type} (rpc : RpcLibs Tx)

/-- The text of a digest. -/
def digestText (digest : Digest) : Str := utf16 (rpc.hexEncode digest.toList)

def ProofResult.ofAnswer (answer : ProofAnswer) : ProofResult where
  slot := .number (.int answer.slot.toNat)
  tx_index := .number (.int answer.tx_index)
  leaf := digestText rpc answer.leaf
  proof := answer.proof.map (digestText rpc)
  root := digestText rpc answer.root
  verified := .bool answer.verified

theorem ofJson_u64 {n : UInt64} (h : n.toNat < 2 ^ 53) :
    ofJson (.u64 n) = some (.number (.int n.toNat)) := by
  rw [Json.u64, ofJson, if_pos h]

theorem ofJson_nat {n : ℕ} (h : n < 2 ^ 53) : ofJson (.nat n) = some (.number (.int n)) := by
  have hn : (UInt64.ofNat n).toNat = n := UInt64.toNat_ofNat_of_lt' (lt_trans h (by decide))
  rw [Json.nat, ofJson, hn, if_pos h]

theorem ofItems_digests (proof : List Digest) :
    ofJson.ofItems (proof.map (hexDigest rpc)) =
      some ((proof.map (digestText rpc)).map .string) := by
  induction proof with
  | nil => rfl
  | cons digest proof ih =>
    rw [List.map_cons, ofJson.ofItems, ih]
    rfl

/-- The fields that the server writes are those of a `ProofResult`. -/
theorem ofJson_toJson {answer : ProofAnswer} (hslot : answer.slot.toNat < 2 ^ 53)
    (hindex : answer.tx_index < 2 ^ 53) :
    ofJson (answer.toJson rpc) = some (ProofResult.ofAnswer rpc answer).json := by
  have hproof : ofJson (.arr (answer.proof.map (hexDigest rpc))) =
      some (.array ((answer.proof.map (digestText rpc)).map .string)) := by
    rw [ofJson, ofItems_digests]
    rfl
  rw [ProofAnswer.toJson, ofJson]
  simp only [ofJson.ofFields, ofJson_u64 hslot, ofJson_nat hindex, hproof, Option.bind_eq_bind,
    Option.bind_some]
  rfl

/-- A proof that the server writes, as the client parses it. -/
theorem ofResponse_proof {answer : ProofAnswer} {id : UInt64} (hslot : answer.slot.toNat < 2 ^ 53)
    (hindex : answer.tx_index < 2 ^ 53) (hid : id.toNat < 2 ^ 53) :
    ofResponse (respond id (.ok (answer.toJson rpc))) = some
      (Answer.json ProofResult.json (.int id.toNat) (.success (.ofAnswer rpc answer))) := by
  rw [ofResponse]
  simp only [respond, Option.getD_some, ofJson_u64 hid, ofJson_toJson rpc hslot hindex,
    Option.bind_eq_bind, Option.bind_some]
  rfl

theorem fields_of_getProof {node : Node} {slot : UInt64} {tx_index : ℕ} {answer : ProofAnswer}
    (h : getProof rpc node slot tx_index = .ok (.ok answer)) :
    answer.slot = slot ∧ answer.tx_index = tx_index ∧ answer.verified =
      MerkleTree.verify rpc.sha256 answer.root answer.leaf answer.proof tx_index := by
  obtain ⟨block, -, hanswer⟩ := withSlot_eq_ok h
  obtain ⟨proof, -, hanswer⟩ := bind_eq_ok.mp hanswer
  cases hanswer
  exact ⟨rfl, rfl, rfl⟩

/-- The fold over an answer of the server is the check that the server makes. -/
theorem folds_ofAnswer (hhex : ∀ bytes, decodeHex (utf16 (rpc.hexEncode bytes)) = some bytes)
    (answer : ProofAnswer) (index : ℕ) :
    (ProofResult.ofAnswer rpc answer).Folds rpc.sha256 index ↔
      MerkleTree.verify rpc.sha256 answer.root answer.leaf answer.proof index = true := by
  have htext : ∀ digest : Digest, hexToBytes (digestText rpc digest) = digest.toList :=
    fun digest => hexToBytes_of_decodeHex (hhex digest.toList)
  have hproof : (answer.proof.map (digestText rpc)).map hexToBytes =
      answer.proof.map Vector.toList := by
    rw [List.map_map]
    exact List.map_congr_left fun digest _ => htext digest
  show walk _ (hexToBytes (digestText rpc answer.leaf))
    ((answer.proof.map (digestText rpc)).map hexToBytes) index =
      hexToBytes (digestText rpc answer.root) ↔ _
  rw [hproof, htext, htext, walk_toList, Vector.toList_inj, MerkleTree.verify, decide_eq_true_iff]

/-- An honest proof folds to the root exactly if the server could verify it. -/
theorem folds_of_getProof (hhex : ∀ bytes, decodeHex (utf16 (rpc.hexEncode bytes)) = some bytes)
    {node : Node} {slot : UInt64} {tx_index : ℕ} {answer : ProofAnswer}
    (h : getProof rpc node slot tx_index = .ok (.ok answer)) :
    (ProofResult.ofAnswer rpc answer).Folds rpc.sha256 tx_index ↔ answer.verified = true := by
  obtain ⟨-, -, hverified⟩ := fields_of_getProof rpc h
  rw [folds_ofAnswer rpc hhex, hverified]

/-! ### Deciding by the proof -/

/-- **When the client decides by the proof**: the proof folds to the root at the
requested index and at the last position, or at neither; and the flag of the
node says whether it folds at the requested index. -/
theorem clientVerification_iff (answer : Answer ProofResult) (txAnswer : Answer TransactionResult)
    (id : Number) (txIndex : ℕ) :
    ((getProofAndVerify sha256 (answer.json ProofResult.json id) = some true ↔
          answer.Has fun result => result.Folds sha256 txIndex) ↔
        (answer.Has (fun result => result.Folds sha256 txIndex) ↔
          answer.Has fun result => result.Folds sha256 (2 ^ result.proof.length - 1))) ∧
      (((getVerifiedTransaction (txAnswer.json TransactionResult.json id)).isSome = true ↔
          txAnswer.Has fun result => result.Folds sha256 txIndex) ↔
        (txAnswer.Has (fun result => result.verified.truthy = true) ↔
          txAnswer.Has fun result => result.Folds sha256 txIndex)) := by
  constructor
  · rcases answer with result | message
    · rw [getProofAndVerify_iff]
      exact ⟨Iff.symm, Iff.symm⟩
    · rw [getProofAndVerify_failure]
      simp [Answer.Has]
  · rcases txAnswer with result | message
    · rw [getVerifiedTransaction_iff]
      rfl
    · rw [getVerifiedTransaction_failure]
      simp [Answer.Has]

/-- A block of two transactions, in the file store. -/
def twoTxNode : Node := fileNode 7 (smallStream [smallTx 4, versionOneTx])

/-- A flag over nothing. -/
def flagOnly : TransactionResult where
  slot := .number (.int 7)
  tx_index := .number (.int 0)
  transaction := .string []
  leaf := []
  proof := []
  root := utf16 "00"
  verified := .bool true

/-- The first transaction of two, and a flag without a proof. -/
theorem clientVerification_fails :
    (¬ ∀ (answer : Answer ProofResult) (id : Number) (txIndex : ℕ),
      getProofAndVerify sampleSha256 (answer.json ProofResult.json id) = some true ↔
        answer.Has fun result => result.Folds sampleSha256 txIndex) ∧
    ¬ ∀ (answer : Answer TransactionResult) (id : Number) (txIndex : ℕ),
      (getVerifiedTransaction (answer.json TransactionResult.json id)).isSome = true ↔
        answer.Has fun result => result.Folds sampleSha256 txIndex := by
  constructor
  · intro h
    -- the honest answer for index 0 folds to the root, and is refused
    obtain ⟨answer, -, hanswer⟩ := exists_answer (b := (true, some false))
      (f := fun answer : ProofAnswer =>
        let result := ProofResult.ofAnswer (sampleRpc []) answer
        (decide (result.Folds sampleSha256 0),
          getProofAndVerify sampleSha256 (Answer.json ProofResult.json (.int 1) (.success result))))
      (c := getProof (sampleRpc []) twoTxNode 7 0) (by decide +kernel)
    obtain ⟨hfolds, hrefused⟩ := Prod.mk.inj hanswer
    have hproof : (ProofResult.ofAnswer (sampleRpc []) answer).Folds sampleSha256 0 :=
      of_decide_eq_true hfolds
    have haccepted := (h (.success (.ofAnswer (sampleRpc []) answer)) (.int 1) 0).mpr hproof
    rw [hrefused] at haccepted
    cases haccepted
  · intro h
    have haccepted := (h (.success flagOnly) (.int 1) 0).mp
      ((getVerifiedTransaction_iff _ _).mpr rfl)
    have hnot : ¬ flagOnly.toProofResult.Folds sampleSha256 0 := by decide +kernel
    exact hnot haccepted

end Sg32.Sdk
