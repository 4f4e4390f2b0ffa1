import T4.Lib.Json
import T4.Lib.Lists

/-!
# The messages of write forwarding

`internal/peer/peer.go`: a follower sends a write to the leader as a `ForwardRequest` and
gets a `ForwardResponse`. The codec of the transport writes both as JSON, so keys, which
are byte strings, travel as text, while values travel as base64.

What arrives is the message with every string coerced to UTF-8 (`coerce`); a message
survives exactly if all its strings are well-formed text.
-/

namespace T4.Peer

open Lib Bytes Text Json

/-! ## Messages -/

inductive ForwardOp
  | put
  | create
  | update
  | deleteIfRevision
  | compact
  | getRevision
  | txn
  /-- A code that no operation has. -/
  | other (code : UInt8) (beyond : 7 ≤ code)
  deriving DecidableEq

def ForwardOp.code : ForwardOp → UInt8
  | .put => 0
  | .create => 1
  | .update => 2
  | .deleteIfRevision => 3
  | .compact => 4
  | .getRevision => 5
  | .txn => 6
  | .other code _ => code

/-- The receiver's switch; other codes go to its default case. -/
def ForwardOp.ofCode (code : UInt8) : ForwardOp :=
  if beyond : 7 ≤ code then .other code beyond
  else if code = 0 then .put
  else if code = 1 then .create
  else if code = 2 then .update
  else if code = 3 then .deleteIfRevision
  else if code = 4 then .compact
  else if code = 5 then .getRevision
  else .txn

theorem ForwardOp.ofCode_code (op : ForwardOp) : ForwardOp.ofCode op.code = op := by
  cases op with
  | other code beyond => simp [ForwardOp.code, ForwardOp.ofCode, beyond]
  | _ => rfl

structure KVMsg where
  key : Bytes
  value : Bytes := []
  revision : Int := 0
  createRevision : Int := 0
  prevRevision : Int := 0
  version : Int := 0
  lease : Int := 0
  deriving DecidableEq

structure TxnCondMsg where
  key : Bytes
  target : UInt8 := 0
  result : UInt8 := 0
  modRevision : Int := 0
  createRevision : Int := 0
  version : Int := 0
  value : Bytes := []
  lease : Int := 0
  deriving DecidableEq

structure TxnOpMsg where
  type : UInt8
  key : Bytes
  value : Bytes := []
  lease : Int := 0
  deriving DecidableEq

structure TxnReqMsg where
  conditions : List TxnCondMsg := []
  success : List TxnOpMsg := []
  failure : List TxnOpMsg := []
  deriving DecidableEq

structure ForwardRequest where
  op : ForwardOp
  key : Bytes := []
  value : Bytes := []
  revision : Int := 0
  lease : Int := 0
  txnReq : Option TxnReqMsg := none
  deriving DecidableEq

structure ForwardResponse where
  revision : Int := 0
  oldKV : Option KVMsg := none
  succeeded : Bool := false
  errCode : Bytes := []
  errMsg : Bytes := []
  deletedKeys : List Bytes := []
  deriving DecidableEq

/-! ## The codec -/

def KVMsg.toJson (m : KVMsg) : Json := record [
  ("key", some (writeString m.key)),
  ("value", some (writeBytes m.value)),
  ("revision", some (writeInt m.revision)),
  ("create_revision", some (writeInt m.createRevision)),
  ("prev_revision", some (writeInt m.prevRevision)),
  ("version", omitEmpty (m.version = 0) (writeInt m.version)),
  ("lease", some (writeInt m.lease))]

def KVMsg.ofJson (j : Json) : Except Json.Error KVMsg := do
  let key ← j.field "key" [] readString
  let value ← j.field "value" [] readBytes
  let revision ← j.field "revision" 0 readInt64
  let createRevision ← j.field "create_revision" 0 readInt64
  let prevRevision ← j.field "prev_revision" 0 readInt64
  let version ← j.field "version" 0 readInt64
  let lease ← j.field "lease" 0 readInt64
  return { key, value, revision, createRevision, prevRevision, version, lease }

def TxnCondMsg.toJson (m : TxnCondMsg) : Json := record [
  ("key", some (writeString m.key)),
  ("target", some (writeUInt8 m.target)),
  ("result", some (writeUInt8 m.result)),
  ("mod_revision", omitEmpty (m.modRevision = 0) (writeInt m.modRevision)),
  ("create_revision", omitEmpty (m.createRevision = 0) (writeInt m.createRevision)),
  ("version", omitEmpty (m.version = 0) (writeInt m.version)),
  ("value", omitEmpty (m.value = []) (writeBytes m.value)),
  ("lease", omitEmpty (m.lease = 0) (writeInt m.lease))]

def TxnCondMsg.ofJson (j : Json) : Except Json.Error TxnCondMsg := do
  let key ← j.field "key" [] readString
  let target ← j.field "target" 0 readUInt8
  let result ← j.field "result" 0 readUInt8
  let modRevision ← j.field "mod_revision" 0 readInt64
  let createRevision ← j.field "create_revision" 0 readInt64
  let version ← j.field "version" 0 readInt64
  let value ← j.field "value" [] readBytes
  let lease ← j.field "lease" 0 readInt64
  return { key, target, result, modRevision, createRevision, version, value, lease }

def TxnOpMsg.toJson (m : TxnOpMsg) : Json := record [
  ("type", some (writeUInt8 m.type)),
  ("key", some (writeString m.key)),
  ("value", omitEmpty (m.value = []) (writeBytes m.value)),
  ("lease", omitEmpty (m.lease = 0) (writeInt m.lease))]

def TxnOpMsg.ofJson (j : Json) : Except Json.Error TxnOpMsg := do
  let type ← j.field "type" 0 readUInt8
  let key ← j.field "key" [] readString
  let value ← j.field "value" [] readBytes
  let lease ← j.field "lease" 0 readInt64
  return { type, key, value, lease }

def TxnReqMsg.toJson (m : TxnReqMsg) : Json := record [
  ("conditions", omitEmpty (m.conditions = []) (.arr (m.conditions.map TxnCondMsg.toJson))),
  ("success", omitEmpty (m.success = []) (.arr (m.success.map TxnOpMsg.toJson))),
  ("failure", omitEmpty (m.failure = []) (.arr (m.failure.map TxnOpMsg.toJson)))]

def TxnReqMsg.ofJson (j : Json) : Except Json.Error TxnReqMsg := do
  let conditions ← j.field "conditions" [] (readList TxnCondMsg.ofJson)
  let success ← j.field "success" [] (readList TxnOpMsg.ofJson)
  let failure ← j.field "failure" [] (readList TxnOpMsg.ofJson)
  return { conditions, success, failure }

/-- `Codec.Marshal` of a request. -/
def ForwardRequest.marshal (m : ForwardRequest) : Json := record [
  ("op", some (writeUInt8 m.op.code)),
  ("key", some (writeString m.key)),
  ("value", omitEmpty (m.value = []) (writeBytes m.value)),
  ("revision", omitEmpty (m.revision = 0) (writeInt m.revision)),
  ("lease", omitEmpty (m.lease = 0) (writeInt m.lease)),
  ("txn", m.txnReq.map TxnReqMsg.toJson)]

/-- `Codec.Unmarshal` of a request. -/
def ForwardRequest.unmarshal (j : Json) : Except Json.Error ForwardRequest := do
  let code ← j.field "op" 0 readUInt8
  let key ← j.field "key" [] readString
  let value ← j.field "value" [] readBytes
  let revision ← j.field "revision" 0 readInt64
  let lease ← j.field "lease" 0 readInt64
  let txnReq ← j.field "txn" none (readPointer TxnReqMsg.ofJson)
  return { op := ForwardOp.ofCode code, key, value, revision, lease, txnReq }

/-- `Codec.Marshal` of a response. -/
def ForwardResponse.marshal (m : ForwardResponse) : Json := record [
  ("revision", some (writeInt m.revision)),
  ("old_kv", m.oldKV.map KVMsg.toJson),
  ("succeeded", some (.bool m.succeeded)),
  ("err_code", omitEmpty (m.errCode = []) (writeString m.errCode)),
  ("err_msg", omitEmpty (m.errMsg = []) (writeString m.errMsg)),
  ("deleted_keys", omitEmpty (m.deletedKeys = []) (.arr (m.deletedKeys.map writeString)))]

/-- `Codec.Unmarshal` of a response. -/
def ForwardResponse.unmarshal (j : Json) : Except Json.Error ForwardResponse := do
  let revision ← j.field "revision" 0 readInt64
  let oldKV ← j.field "old_kv" none (readPointer KVMsg.ofJson)
  let succeeded ← j.field "succeeded" false readBool
  let errCode ← j.field "err_code" [] readString
  let errMsg ← j.field "err_msg" [] readString
  let deletedKeys ← j.field "deleted_keys" [] (readList readString)
  return { revision, oldKV, succeeded, errCode, errMsg, deletedKeys }

/-! ## What arrives -/

def KVMsg.coerce (m : KVMsg) : KVMsg := { m with key := coerceUTF8 m.key }

structure KVMsg.WellTyped (m : KVMsg) : Prop where
  revision : IsInt64 m.revision
  createRevision : IsInt64 m.createRevision
  prevRevision : IsInt64 m.prevRevision
  version : IsInt64 m.version
  lease : IsInt64 m.lease

theorem KVMsg.ofJson_toJson {m : KVMsg} (typed : m.WellTyped) :
    KVMsg.ofJson m.toJson = .ok m.coerce := by
  have distinct : ["key", "value", "revision", "create_revision", "prev_revision", "version",
    "lease"].Nodup := by decide
  unfold KVMsg.ofJson
  refine field_bind distinct rfl (readOptional_some (readString_writeString m.key)) ?_
  refine field_bind distinct rfl (readOptional_some (readBytes_writeBytes m.value)) ?_
  refine field_bind distinct rfl (readOptional_some (readInt64_writeInt typed.revision)) ?_
  refine field_bind distinct rfl (readOptional_some (readInt64_writeInt typed.createRevision)) ?_
  refine field_bind distinct rfl (readOptional_some (readInt64_writeInt typed.prevRevision)) ?_
  refine field_bind distinct rfl (readOptional_omitInt typed.version) ?_
  refine field_bind distinct rfl (readOptional_some (readInt64_writeInt typed.lease)) ?_
  rfl

def TxnCondMsg.coerce (m : TxnCondMsg) : TxnCondMsg := { m with key := coerceUTF8 m.key }

structure TxnCondMsg.WellTyped (m : TxnCondMsg) : Prop where
  modRevision : IsInt64 m.modRevision
  createRevision : IsInt64 m.createRevision
  version : IsInt64 m.version
  lease : IsInt64 m.lease

theorem TxnCondMsg.ofJson_toJson {m : TxnCondMsg} (typed : m.WellTyped) :
    TxnCondMsg.ofJson m.toJson = .ok m.coerce := by
  have distinct : ["key", "target", "result", "mod_revision", "create_revision", "version", "value",
    "lease"].Nodup := by decide
  unfold TxnCondMsg.ofJson
  refine field_bind distinct rfl (readOptional_some (readString_writeString m.key)) ?_
  refine field_bind distinct rfl (readOptional_some (readUInt8_writeUInt8 m.target)) ?_
  refine field_bind distinct rfl (readOptional_some (readUInt8_writeUInt8 m.result)) ?_
  refine field_bind distinct rfl (readOptional_omitInt typed.modRevision) ?_
  refine field_bind distinct rfl (readOptional_omitInt typed.createRevision) ?_
  refine field_bind distinct rfl (readOptional_omitInt typed.version) ?_
  refine field_bind distinct rfl (readOptional_omitBytes m.value) ?_
  refine field_bind distinct rfl (readOptional_omitInt typed.lease) ?_
  rfl

def TxnOpMsg.coerce (m : TxnOpMsg) : TxnOpMsg := { m with key := coerceUTF8 m.key }

theorem TxnOpMsg.ofJson_toJson {m : TxnOpMsg} (lease : IsInt64 m.lease) :
    TxnOpMsg.ofJson m.toJson = .ok m.coerce := by
  have distinct : ["type", "key", "value", "lease"].Nodup := by decide
  unfold TxnOpMsg.ofJson
  refine field_bind distinct rfl (readOptional_some (readUInt8_writeUInt8 m.type)) ?_
  refine field_bind distinct rfl (readOptional_some (readString_writeString m.key)) ?_
  refine field_bind distinct rfl (readOptional_omitBytes m.value) ?_
  refine field_bind distinct rfl (readOptional_omitInt lease) ?_
  rfl

def TxnReqMsg.coerce (m : TxnReqMsg) : TxnReqMsg where
  conditions := m.conditions.map TxnCondMsg.coerce
  success := m.success.map TxnOpMsg.coerce
  failure := m.failure.map TxnOpMsg.coerce

structure TxnReqMsg.WellTyped (m : TxnReqMsg) : Prop where
  conditions : ∀ c ∈ m.conditions, c.WellTyped
  success : ∀ o ∈ m.success, IsInt64 o.lease
  failure : ∀ o ∈ m.failure, IsInt64 o.lease

theorem TxnReqMsg.ofJson_toJson {m : TxnReqMsg} (typed : m.WellTyped) :
    TxnReqMsg.ofJson m.toJson = .ok m.coerce := by
  have distinct : ["conditions", "success", "failure"].Nodup := by decide
  unfold TxnReqMsg.ofJson
  refine field_bind distinct rfl
    (readOptional_omitList (fun c mem => TxnCondMsg.ofJson_toJson (typed.conditions c mem))) ?_
  refine field_bind distinct rfl
    (readOptional_omitList (fun o mem => TxnOpMsg.ofJson_toJson (typed.success o mem))) ?_
  refine field_bind distinct rfl
    (readOptional_omitList (fun o mem => TxnOpMsg.ofJson_toJson (typed.failure o mem))) ?_
  rfl

def ForwardRequest.coerce (m : ForwardRequest) : ForwardRequest :=
  { m with key := coerceUTF8 m.key, txnReq := m.txnReq.map TxnReqMsg.coerce }

structure ForwardRequest.WellTyped (m : ForwardRequest) : Prop where
  revision : IsInt64 m.revision
  lease : IsInt64 m.lease
  txnReq : ∀ t ∈ m.txnReq, t.WellTyped

/-- A request arrives with its keys made UTF-8, and otherwise as sent. -/
theorem ForwardRequest.unmarshal_marshal {m : ForwardRequest} (typed : m.WellTyped) :
    ForwardRequest.unmarshal m.marshal = .ok m.coerce := by
  have distinct : ["op", "key", "value", "revision", "lease", "txn"].Nodup := by decide
  unfold ForwardRequest.unmarshal
  refine field_bind distinct rfl (readOptional_some (readUInt8_writeUInt8 m.op.code)) ?_
  refine field_bind distinct rfl (readOptional_some (readString_writeString m.key)) ?_
  refine field_bind distinct rfl (readOptional_omitBytes m.value) ?_
  refine field_bind distinct rfl (readOptional_omitInt typed.revision) ?_
  refine field_bind distinct rfl (readOptional_omitInt typed.lease) ?_
  refine field_bind distinct rfl
    (readOptional_pointer (fun t => ⟨_, rfl⟩)
      (fun t mem => TxnReqMsg.ofJson_toJson (typed.txnReq t mem))) ?_
  rw [ForwardOp.ofCode_code]
  rfl

def ForwardResponse.coerce (m : ForwardResponse) : ForwardResponse :=
  { m with
    oldKV := m.oldKV.map KVMsg.coerce
    errCode := coerceUTF8 m.errCode
    errMsg := coerceUTF8 m.errMsg
    deletedKeys := m.deletedKeys.map coerceUTF8 }

structure ForwardResponse.WellTyped (m : ForwardResponse) : Prop where
  revision : IsInt64 m.revision
  oldKV : ∀ kv ∈ m.oldKV, kv.WellTyped

/-- A response arrives with its texts made UTF-8. -/
theorem ForwardResponse.unmarshal_marshal {m : ForwardResponse} (typed : m.WellTyped) :
    ForwardResponse.unmarshal m.marshal = .ok m.coerce := by
  have distinct : ["revision", "old_kv", "succeeded", "err_code", "err_msg",
    "deleted_keys"].Nodup := by decide
  unfold ForwardResponse.unmarshal
  refine field_bind distinct rfl (readOptional_some (readInt64_writeInt typed.revision)) ?_
  refine field_bind distinct rfl
    (readOptional_pointer (fun kv => ⟨_, rfl⟩)
      (fun kv mem => KVMsg.ofJson_toJson (typed.oldKV kv mem))) ?_
  refine field_bind distinct rfl rfl ?_
  refine field_bind distinct rfl (readOptional_omitString m.errCode) ?_
  refine field_bind distinct rfl (readOptional_omitString m.errMsg) ?_
  refine field_bind distinct rfl
    (readOptional_omitList (fun key _ => readString_writeString key)) ?_
  rfl

/-! ## What survives -/

def TxnReqMsg.IsText (m : TxnReqMsg) : Prop :=
  (∀ c ∈ m.conditions, IsUTF8 c.key) ∧ (∀ o ∈ m.success, IsUTF8 o.key) ∧
    ∀ o ∈ m.failure, IsUTF8 o.key

def ForwardRequest.IsText (m : ForwardRequest) : Prop :=
  IsUTF8 m.key ∧ ∀ t ∈ m.txnReq, t.IsText

def ForwardResponse.IsText (m : ForwardResponse) : Prop :=
  (∀ kv ∈ m.oldKV, IsUTF8 kv.key) ∧ IsUTF8 m.errCode ∧ IsUTF8 m.errMsg ∧
    ∀ key ∈ m.deletedKeys, IsUTF8 key

theorem KVMsg.coerce_eq_self (m : KVMsg) : m.coerce = m ↔ IsUTF8 m.key := by
  rw [← validUTF8_iff]
  cases m
  simp [KVMsg.coerce, ValidUTF8]

theorem TxnCondMsg.coerce_eq_self (m : TxnCondMsg) : m.coerce = m ↔ IsUTF8 m.key := by
  rw [← validUTF8_iff]
  cases m
  simp [TxnCondMsg.coerce, ValidUTF8]

theorem TxnOpMsg.coerce_eq_self (m : TxnOpMsg) : m.coerce = m ↔ IsUTF8 m.key := by
  rw [← validUTF8_iff]
  cases m
  simp [TxnOpMsg.coerce, ValidUTF8]

theorem TxnReqMsg.coerce_eq_self (m : TxnReqMsg) : m.coerce = m ↔ m.IsText := by
  cases m
  simp only [TxnReqMsg.coerce, TxnReqMsg.IsText, TxnReqMsg.mk.injEq, map_eq_self_iff,
    TxnCondMsg.coerce_eq_self, TxnOpMsg.coerce_eq_self]

theorem ForwardRequest.coerce_eq_self (m : ForwardRequest) : m.coerce = m ↔ m.IsText := by
  cases m
  simp only [ForwardRequest.coerce, ForwardRequest.IsText, ForwardRequest.mk.injEq, true_and,
    option_map_eq_self_iff, TxnReqMsg.coerce_eq_self, ← validUTF8_iff, ValidUTF8]

theorem ForwardResponse.coerce_eq_self (m : ForwardResponse) : m.coerce = m ↔ m.IsText := by
  cases m
  simp only [ForwardResponse.coerce, ForwardResponse.IsText, ForwardResponse.mk.injEq, true_and,
    option_map_eq_self_iff, map_eq_self_iff, KVMsg.coerce_eq_self, ← validUTF8_iff, ValidUTF8]

/-- A message comes back as it was sent exactly if all its strings are well-formed text. -/
theorem unmarshal_marshal_iff {req : ForwardRequest} {resp : ForwardResponse}
    (reqTyped : req.WellTyped) (respTyped : resp.WellTyped) :
    (ForwardRequest.unmarshal req.marshal = .ok req ↔ req.IsText) ∧
      (ForwardResponse.unmarshal resp.marshal = .ok resp ↔ resp.IsText) := by
  constructor
  · rw [ForwardRequest.unmarshal_marshal reqTyped, Except.ok.injEq, ForwardRequest.coerce_eq_self]
  · rw [ForwardResponse.unmarshal_marshal respTyped, Except.ok.injEq,
      ForwardResponse.coerce_eq_self]

/-- A follower's update of the key `é`. -/
def accentedUpdate : ForwardRequest :=
  { op := .update, key := [0xc3, 0xa9], value := [0xff], revision := 3, lease := 1 }

def accentedAnswer : ForwardResponse :=
  { revision := 4, oldKV := some { key := [0xc3, 0xa9], value := [0xfe], revision := 3 },
    succeeded := true }

theorem accentedUpdate_wellTyped : accentedUpdate.WellTyped where
  revision := by decide
  lease := by decide
  txnReq := by simp [accentedUpdate]

theorem accentedAnswer_wellTyped : accentedAnswer.WellTyped where
  revision := by decide
  oldKV := by
    intro kv found
    cases found
    constructor <;> decide

theorem unmarshal_marshal_accented :
    ForwardRequest.unmarshal accentedUpdate.marshal = .ok accentedUpdate ∧
      ForwardResponse.unmarshal accentedAnswer.marshal = .ok accentedAnswer := by
  have isText : IsUTF8 [0xc3, 0xa9] := validUTF8_iff.mp (by decide +kernel)
  have exact_ := unmarshal_marshal_iff accentedUpdate_wellTyped accentedAnswer_wellTyped
  constructor
  · exact exact_.1.mpr ⟨isText, by simp [accentedUpdate]⟩
  · refine exact_.2.mpr ⟨?_, IsUTF8.nil, IsUTF8.nil, by simp [accentedAnswer]⟩
    intro kv found
    cases found
    exact isText

def binaryPut : ForwardRequest := { op := .put, key := [0xff], value := [0x76] }

/-- A key that is not UTF-8 arrives as another key. -/
theorem binaryPut_replaced :
    binaryPut.WellTyped ∧
      ForwardRequest.unmarshal binaryPut.marshal = .ok { binaryPut with key := replacement } ∧
      ForwardRequest.unmarshal binaryPut.marshal ≠ .ok binaryPut := by
  have typed : binaryPut.WellTyped := ⟨by decide, by decide, by simp [binaryPut]⟩
  have arrives : ForwardRequest.unmarshal binaryPut.marshal =
      .ok { binaryPut with key := replacement } :=
    ForwardRequest.unmarshal_marshal typed
  refine ⟨typed, arrives, ?_⟩
  rw [arrives, ne_eq, Except.ok.injEq]
  decide +kernel

end T4.Peer
