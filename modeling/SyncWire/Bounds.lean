import SyncWire.Authentication
import SyncWire.Lib.Checked
import SyncWire.SyncCodec

/-!
# No decoder leaves its payload

The decoders index their spans without a check of their own (`bytes[offset]`), and
`authentication.cpp` copies payloads into arrays of a fixed size.  Here are the same functions once
more, line by line, over accesses that are checked: a byte at an index that is not below the size,
a difference of sizes below zero, a running offset past the end and an array that is not filled
exactly are faults.  None of them is ever met (`decoders_in_bounds`):

    Checked.decodeManifest payload maxEntries = .ok (decodeManifest payload maxEntries)

and so on for every decoder, every span and every limit, and for both sides of the authentication.
-/

namespace SyncWire

open Wire Effect Posix

namespace Checked

/-! ## `codec.cpp` and `transfer_codec.cpp` -/

def decodeHeader (bytes : Span) (maxPayload : UInt32) : Checked (Except CodecError FrameHeader) := do
  if bytes.size < kWireHeaderSize then return .error .headerTooShort
  let magic ← bytes.loadU32 0
  if magic ≠ kMagic then return .error .invalidMagic
  let version ← bytes.loadU8 4
  if version ≠ kVersion then return .error .unsupportedVersion
  let rawMessageType ← bytes.loadU8 5
  if isKnownMessageType rawMessageType = false then return .error .unknownMessageType
  let headerSize ← bytes.loadU16 6
  if headerSize ≠ 32 then return .error .invalidHeaderSize
  let payloadLength ← bytes.loadU32 8
  if payloadLength > maxPayload then return .error .payloadTooLarge
  let flags ← bytes.loadU32 12
  if flags ≠ 0 then return .error .unsupportedFlags
  let requestId ← bytes.loadU64 16
  let transferId ← bytes.loadU64 24
  return .ok
    { magic, version, messageType := .ofRaw rawMessageType, headerSize, payloadLength, flags, requestId,
      transferId }

def decodeUploadMetadata (payload : Span) : Checked (Except TransferCodecError UploadMetadata) := do
  if payload.size < kUploadMetadataPrefixSize then return .error .payloadTooShort
  let filenameLength := (← payload.loadU16 0).toNat
  if filenameLength = 0 then return .error .emptyFilename
  if filenameLength > kMaxRemotePathLength then return .error .filenameTooLong
  if payload.size ≠ kUploadMetadataPrefixSize + filenameLength then return .error .payloadSizeMismatch
  let filename ← payload.copy kUploadMetadataPrefixSize filenameLength
  if isSafeRemotePath filename = false then return .error .unsafeFilename
  let fileSize ← payload.loadU64 2
  let checksum ← payload.loadU32 10
  return .ok { filename, fileSize, checksum }

def decodeFileChunk (payload : Span) : Checked (Except TransferCodecError FileChunk) := do
  if payload.size < kChunkOffsetSize then return .error .payloadTooShort
  if payload.size = kChunkOffsetSize then return .error .chunkHasNoData
  let offset ← payload.loadU64 0
  -- the range from `begin() + kChunkOffsetSize` to `end()`
  let data ← payload.copy kChunkOffsetSize (← Checked.sub payload.size kChunkOffsetSize)
  return .ok { offset, data }

def decodeOffset (payload : Span) : Checked (Except TransferCodecError UInt64) := do
  if payload.size ≠ kAcknowledgmentPayloadSize then return .error .payloadSizeMismatch
  return .ok (← payload.loadU64 0)

def decodeTransferReady (payload : Span) : Checked (Except TransferCodecError TransferReady) := do
  if payload.size ≠ kTransferReadyPayloadSize then return .error .payloadSizeMismatch
  let offset ← payload.loadU64 0
  let prefixChecksum ← payload.loadU32 8
  return .ok { offset, prefixChecksum }

def decodeTransferResult (payload : Span) : Checked (Except TransferCodecError TransferResultCode) := do
  if payload.size ≠ kTransferResultPayloadSize then return .error .payloadSizeMismatch
  match TransferResultCode.ofRaw (← payload.loadU8 0) with
  | none => return .error .unknownResultCode
  | some code => return .ok code

/-! ## `sync_codec.cpp` -/

/-- The path at `offset`; every new value of `offset` is checked. -/
def decodePath (payload : Span) (offset : Nat) : Checked (Except SyncCodecError (List UInt8 × Nat)) := do
  if offset > payload.size then return .error .payloadTooShort
  if (← Checked.sub payload.size offset) < 2 then return .error .payloadTooShort
  let pathSize := (← payload.loadU16 offset).toNat
  let offset ← payload.advance offset 2
  if pathSize = 0 ∨ pathSize > kMaxRemotePathLength then return .error .pathTooLong
  if offset > payload.size then return .error .payloadTooShort
  if pathSize > (← Checked.sub payload.size offset) then return .error .payloadTooShort
  let path ← payload.copy offset pathSize
  let offset ← payload.advance offset pathSize
  if isSafeRemotePath path = false then return .error .unsafePath
  return .ok (path, offset)

/-- The loop of the list decoders; `head` reads what stands in front of an entry's path. -/
def decodeEntries {η α : Type} (payload : Span) (head : Nat → Checked (Except SyncCodecError (η × Nat)))
    (make : η → (path : List UInt8) → α) :
    (count offset : Nat) → (previous : List UInt8) → Checked (Except SyncCodecError (List α × Nat))
  | 0, offset, _ => return .ok ([], offset)
  | count + 1, offset, previous => do
    match ← head offset with
    | .error e => return .error e
    | .ok (front, offset) =>
      match ← decodePath payload offset with
      | .error e => return .error e
      | .ok (path, offset) =>
        if strictlyAfter previous path then
          match ← decodeEntries payload head make count offset path with
          | .error e => return .error e
          | .ok (xs, last) => return .ok (make front path :: xs, last)
        else return .error .pathsNotStrictlySorted

/-- Size and checksum of a record. -/
def recordHead (payload : Span) (offset : Nat) : Checked (Except SyncCodecError ((UInt64 × UInt32) × Nat)) := do
  if offset > payload.size then return .error .payloadTooShort
  if (← Checked.sub payload.size offset) < 8 + 4 then return .error .payloadTooShort
  let size ← payload.loadU64 offset
  let checksum ← payload.loadU32 (offset + 8)
  let offset ← payload.advance offset (8 + 4)
  return .ok ((size, checksum), offset)

def decodeManifest (payload : Span) (maxEntries : Nat) : Checked (Except SyncCodecError FileManifest) := do
  if payload.size < kManifestCountSize then return .error .payloadTooShort
  let count := (← payload.loadU32 0).toNat
  if count > maxEntries then return .error .tooManyEntries
  let offset ← payload.advance 0 kManifestCountSize
  match ← decodeEntries payload (recordHead payload) (fun front path => (⟨path, front.1, front.2⟩ : FileRecord))
      count offset [] with
  | .error e => return .error e
  | .ok (files, offset) => return if offset ≠ payload.size then .error .payloadSizeMismatch else .ok files

def decodeSyncPlan (payload : Span) (maxEntries : Nat) : Checked (Except SyncCodecError SyncPlan) := do
  if payload.size < kSyncPlanPrefixSize then return .error .payloadTooShort
  let count := (← payload.loadU32 0).toNat
  if count > maxEntries then return .error .tooManyEntries
  let unchangedCount ← payload.loadU32 4
  let serverOnlyCount ← payload.loadU32 8
  let offset ← payload.advance 0 kSyncPlanPrefixSize
  match ← decodeEntries payload (fun offset => return .ok ((), offset)) (fun _ path => path) count offset [] with
  | .error e => return .error e
  | .ok (uploadPaths, offset) =>
    return if offset ≠ payload.size then .error .payloadSizeMismatch
      else .ok { uploadPaths, unchangedCount, serverOnlyCount }

def decodeSyncResult (payload : Span) : Checked (Except SyncCodecError SyncResultCode) := do
  if payload.size ≠ 1 then return .error .payloadSizeMismatch
  let raw ← payload.loadU8 0
  if raw > SyncResultCode.destinationChanged.raw then return .error .unknownResultCode
  return .ok (if raw = 0 then .success else .destinationChanged)

/-! ## `authentication.cpp` -/

/-- An array of `size` bytes, filled by `std::copy`. -/
def copyPayload (size : Nat) (payload : List UInt8) : Checked (List UInt8) :=
  if payload.length = size then .ok payload else .error .wrongSize

/-- `CRYPTO_memcmp` of an array with the bytes of a payload from `off` on. -/
def sameBytes (array payload : List UInt8) (off : Nat) : Checked Bool := do
  return decide (array = (← (Span.of payload).copy off array.length))

open Authentication

def checkResult (secret serverNonce clientNonce clientProof : List UInt8) (result : Frame) :
    Sys (Checked AuthenticationResult) :=
  if result.header.messageType ≠ .authResult ∨ result.header.requestId ≠ 0 ∨ result.header.transferId ≠ 0 ∨
      result.payload = [] then pure (.ok { status := .invalidResult })
  else
    match (Span.of result.payload).loadU8 0 with
    | .error fault => pure (.error fault)
    | .ok front =>
      if front = kAuthenticationRejected then
        if result.payload.length ≠ 1 then pure (.ok { status := .invalidResult })
        else pure (.ok { status := .rejected })
      else if front ≠ kAuthenticationAccepted ∨ result.payload.length ≠ 1 + kAuthenticationProofSize then
        pure (.ok { status := .invalidResult })
      else do
        match ← calculateProof secret kServerProofDomain serverNonce clientNonce clientProof with
        | none => pure (.ok { status := .cryptoError })
        | some expectedServerProof =>
          pure do
            let serverAccepted ← sameBytes expectedServerProof result.payload 1
            return if serverAccepted then {} else { status := .invalidServerProof }

def answerChallenge (secret serverNonce : List UInt8) : Sys (Checked AuthenticationResult) := do
  match ← sys (.randBytes kAuthenticationNonceSize) with
  | .error _ => pure (.ok { status := .randomGenerationError })
  | .ok clientNonce =>
    match ← calculateProof secret kClientProofDomain serverNonce clientNonce [] with
    | none => pure (.ok { status := .cryptoError })
    | some clientProof =>
      let proofSent ← sendFrame (makeAuthFrame .authProof (clientNonce ++ clientProof))
      if proofSent.ok then
        match ← receiveFrame with
        | .error error => pure (.ok (frameError error))
        | .ok result => checkResult secret serverNonce clientNonce clientProof result
      else pure (.ok (frameError proofSent))

def authenticateClient (secret : List UInt8) : Sys (Checked AuthenticationResult) :=
  if isValidAuthenticationSecret secret = false then pure (.ok { status := .invalidSecret })
  else do
    match ← receiveFrame with
    | .error error => pure (.ok (frameError error))
    | .ok challenge =>
      if isAuthFrame challenge .authChallenge kAuthenticationNonceSize = false then
        pure (.ok { status := .invalidChallenge })
      else
        match copyPayload kAuthenticationNonceSize challenge.payload with
        | .error fault => pure (.error fault)
        | .ok serverNonce => answerChallenge secret serverNonce

/-- The nonce and the proof in a payload: `first(kAuthenticationNonceSize)`, copied into an array, and
`subspan(kAuthenticationNonceSize)`. -/
def splitProof (payload : List UInt8) : Checked (List UInt8 × List UInt8) := do
  let nonceBytes ← (Span.of payload).copy 0 kAuthenticationNonceSize
  let clientNonce ← copyPayload kAuthenticationNonceSize nonceBytes
  let proofSize ← Checked.sub payload.length kAuthenticationNonceSize
  let receivedClientProof ← (Span.of payload).copy kAuthenticationNonceSize proofSize
  return (clientNonce, receivedClientProof)

def checkProof (secret serverNonce : List UInt8) (proofFrame : Frame) : Sys (Checked AuthenticationResult) :=
  if isAuthFrame proofFrame .authProof (kAuthenticationNonceSize + kAuthenticationProofSize) = false then do
    let rejected ← sendAuthResult false []
    if rejected.ok then pure (.ok { status := .invalidProof }) else pure (.ok (frameError rejected))
  else
    match splitProof proofFrame.payload with
    | .error fault => pure (.error fault)
    | .ok (clientNonce, receivedClientProof) => do
      match ← calculateProof secret kClientProofDomain serverNonce clientNonce [] with
      | none => pure (.ok { status := .cryptoError })
      | some expected =>
        match sameBytes expected receivedClientProof 0 with
        | .error fault => pure (.error fault)
        | .ok false => Except.ok <$> announce false []
        | .ok true =>
          match ← calculateProof secret kServerProofDomain serverNonce clientNonce receivedClientProof with
          | none => pure (.ok { status := .cryptoError })
          | some serverProof => Except.ok <$> announce true serverProof

def authenticateServer (secret : List UInt8) : Sys (Checked AuthenticationResult) :=
  if isValidAuthenticationSecret secret = false then pure (.ok { status := .invalidSecret })
  else do
    match ← sys (.randBytes kAuthenticationNonceSize) with
    | .error _ => pure (.ok { status := .randomGenerationError })
    | .ok serverNonce =>
      let challengeSent ← sendFrame (makeAuthFrame .authChallenge serverNonce)
      if challengeSent.ok then
        match ← receiveFrame with
        | .error error => pure (.ok (frameError error))
        | .ok proofFrame => checkProof secret serverNonce proofFrame
      else pure (.ok (frameError challengeSent))

/-! ## The decoders do not fault -/

section
variable (payload : Span)

theorem decodeHeader_eq (maxPayload : UInt32) :
    decodeHeader payload maxPayload = .ok (SyncWire.decodeHeader payload maxPayload) := by
  unfold decodeHeader SyncWire.decodeHeader
  split
  · rfl
  · next hsize =>
    unfold kWireHeaderSize at hsize
    simp (disch := omega) only [Span.loadU8_eq, Span.loadU16_eq, Span.loadU32_eq, Span.loadU64_eq, Checked.ok_bind]
    split_ifs <;> rfl

theorem decodeUploadMetadata_eq :
    decodeUploadMetadata payload = .ok (SyncWire.decodeUploadMetadata payload) := by
  unfold decodeUploadMetadata SyncWire.decodeUploadMetadata
  split
  · rfl
  · next hsize =>
    unfold kUploadMetadataPrefixSize at hsize ⊢
    simp (disch := omega) only [Span.loadU16_eq, Span.loadU32_eq, Span.loadU64_eq, Checked.ok_bind]
    split
    · rfl
    split
    · rfl
    split
    · rfl
    · next hlength =>
      rw [Span.copy_eq (by omega)]
      cases h : isSafeRemotePath (payload.slice 14 (payload.getU16 0).toNat) <;> simp [h] <;> rfl

theorem decodeFileChunk_eq : decodeFileChunk payload = .ok (SyncWire.decodeFileChunk payload) := by
  unfold decodeFileChunk SyncWire.decodeFileChunk kChunkOffsetSize
  split
  · rfl
  split
  · rfl
  · rw [Span.loadU64_eq (by omega), Checked.sub_eq (by omega)]
    simp only [Checked.ok_bind]
    rw [Span.copy_eq (by omega)]
    rfl

theorem decodeOffset_eq : decodeOffset payload = .ok (SyncWire.decodeOffset payload) := by
  unfold decodeOffset SyncWire.decodeOffset kAcknowledgmentPayloadSize
  split
  · rfl
  · rw [Span.loadU64_eq (by omega)]
    rfl

theorem decodeTransferReady_eq :
    decodeTransferReady payload = .ok (SyncWire.decodeTransferReady payload) := by
  unfold decodeTransferReady SyncWire.decodeTransferReady kTransferReadyPayloadSize
  split
  · rfl
  · rw [Span.loadU64_eq (by omega), Span.loadU32_eq (by omega)]
    rfl

theorem decodeTransferResult_eq :
    decodeTransferResult payload = .ok (SyncWire.decodeTransferResult payload) := by
  unfold decodeTransferResult SyncWire.decodeTransferResult kTransferResultPayloadSize
  split
  · rfl
  · rw [Span.loadU8_eq (by omega), Checked.ok_bind]
    cases TransferResultCode.ofRaw (payload.getU8 0) <;> rfl

theorem decodeSyncResult_eq : decodeSyncResult payload = .ok (SyncWire.decodeSyncResult payload) := by
  unfold decodeSyncResult SyncWire.decodeSyncResult
  split
  · rfl
  · rw [Span.loadU8_eq (by omega)]
    simp only [Checked.ok_bind]
    split <;> rfl

/-- Whatever the offset: it is compared with the size first. -/
theorem decodePath_eq (offset : Nat) :
    decodePath payload offset = .ok (SyncWire.decodePath payload offset) := by
  unfold decodePath SyncWire.decodePath
  by_cases hoff : offset > payload.size
  · simp only [hoff, true_or, if_true]
    rfl
  by_cases hleft : payload.size - offset < 2
  · simp only [hoff, hleft, if_false, or_true, if_true, Checked.sub_eq (Nat.not_lt.mp hoff), Checked.ok_bind]
    rfl
  have hlength : offset + 2 ≤ payload.size := by omega
  simp only [hoff, hleft, if_false, or_self, Checked.sub_eq (Nat.not_lt.mp hoff), Span.loadU16_eq hlength,
    Span.advance_eq hlength, Checked.sub_eq hlength, Checked.ok_bind]
  split
  · rfl
  rw [if_neg (by omega)]
  by_cases hpath : (payload.getU16 offset).toNat > payload.size - (offset + 2)
  · simp only [hpath, or_true, if_true]
    rfl
  rw [if_neg hpath, if_neg (by omega), Span.copy_eq (by omega), Span.advance_eq (by omega)]
  simp only [Checked.ok_bind]
  cases h : isSafeRemotePath (payload.slice (offset + 2) (payload.getU16 offset).toNat) <;> rfl

theorem recordHead_eq (offset : Nat) :
    recordHead payload offset = .ok (if offset > payload.size ∨ payload.size - offset < 8 + 4 then
      .error .payloadTooShort
      else .ok ((payload.getU64 offset, payload.getU32 (offset + 8)), offset + (8 + 4))) := by
  unfold recordHead
  by_cases hoff : offset > payload.size
  · simp only [hoff, true_or, if_true]
    rfl
  by_cases hleft : payload.size - offset < 8 + 4
  · simp only [hoff, hleft, if_false, or_true, if_true, Checked.sub_eq (Nat.not_lt.mp hoff), Checked.ok_bind]
    rfl
  rw [if_neg hoff, Checked.sub_eq (Nat.not_lt.mp hoff), Checked.ok_bind, if_neg hleft, if_neg (by omega),
    Span.loadU64_eq (by omega), Span.loadU32_eq (by omega), Span.advance_eq (by omega)]
  rfl

variable {payload}

theorem decodePath_le {offset next : Nat} {path : List UInt8}
    (h : SyncWire.decodePath payload offset = .ok (path, next)) : next ≤ payload.size := by
  unfold SyncWire.decodePath at h
  simp only at h
  split_ifs at h
  cases h
  omega

/-- The offset stays inside the payload from one entry to the next. -/
theorem decodeEntries_eq {η α : Type} {headSize : Nat} {front : Nat → η}
    {head : Nat → Checked (Except SyncCodecError (η × Nat))} {make : η → List UInt8 → α}
    (hhead : ∀ offset, offset ≤ payload.size →
      head offset = .ok (if offset > payload.size ∨ payload.size - offset < headSize then .error .payloadTooShort
        else .ok (front offset, offset + headSize)))
    (count : Nat) {offset : Nat} (hoff : offset ≤ payload.size) (previous : List UInt8) :
    decodeEntries payload head make count offset previous =
      .ok (SyncWire.decodeEntries payload headSize (fun offset path => make (front offset) path) count offset
        previous) := by
  induction count generalizing offset previous with
  | zero => rfl
  | succ count ih =>
    rw [decodeEntries, SyncWire.decodeEntries, hhead offset hoff, Checked.ok_bind]
    by_cases hshort : offset > payload.size ∨ payload.size - offset < headSize
    · rw [if_pos hshort, if_pos hshort]
      rfl
    rw [if_neg hshort, if_neg hshort]
    simp only [decodePath_eq, Checked.ok_bind]
    cases hpath : SyncWire.decodePath payload (offset + headSize) with
    | error e => rfl
    | ok r =>
      simp only
      split
      · rw [ih (decodePath_le hpath), Checked.ok_bind]
        cases SyncWire.decodeEntries payload headSize
          (fun offset path => make (front offset) path) count r.2 r.1 <;>
          rfl
      · rfl

theorem decodeManifest_eq (maxEntries : Nat) :
    decodeManifest payload maxEntries = .ok (SyncWire.decodeManifest payload maxEntries) := by
  unfold decodeManifest SyncWire.decodeManifest kManifestCountSize
  split
  · rfl
  · next hsize =>
    simp only [Span.loadU32_eq (show 0 + 4 ≤ payload.size by omega), Checked.ok_bind]
    by_cases hcount : (payload.getU32 0).toNat > maxEntries
    · rw [if_pos hcount, if_pos hcount]
      rfl
    rw [if_neg hcount, if_neg hcount, Span.advance_eq (by omega), Checked.ok_bind,
      decodeEntries_eq (fun offset _ => recordHead_eq payload offset) _ (by omega), Checked.ok_bind]
    cases SyncWire.decodeEntries payload (8 + 4) _ (payload.getU32 0).toNat 4 [] <;> rfl

theorem decodeSyncPlan_eq (maxEntries : Nat) :
    decodeSyncPlan payload maxEntries = .ok (SyncWire.decodeSyncPlan payload maxEntries) := by
  have hhead : ∀ offset, offset ≤ payload.size →
    (pure (.ok ((), offset)) : Checked (Except SyncCodecError (Unit × Nat))) =
      .ok (if offset > payload.size ∨ payload.size - offset < 0 then .error .payloadTooShort
        else .ok ((), offset + 0)) := by
    intro offset hoff
    rw [if_neg (by omega)]
    rfl
  unfold decodeSyncPlan SyncWire.decodeSyncPlan kSyncPlanPrefixSize
  split
  · rfl
  · next hsize =>
    simp only [Span.loadU32_eq (show 0 + 4 ≤ payload.size by omega), Checked.ok_bind]
    by_cases hcount : (payload.getU32 0).toNat > maxEntries
    · rw [if_pos hcount, if_pos hcount]
      rfl
    rw [if_neg hcount, if_neg hcount, Span.loadU32_eq (by omega), Span.loadU32_eq (by omega),
      Span.advance_eq (by omega)]
    simp only [Checked.ok_bind]
    rw [decodeEntries_eq hhead _ (by omega), Checked.ok_bind]
    cases SyncWire.decodeEntries payload 0 _ (payload.getU32 0).toNat 12 [] <;> rfl

end

/-! ## Nor do the copies of the authentication -/

theorem copyPayload_eq {size : Nat} {payload : List UInt8} (h : payload.length = size) :
    copyPayload size payload = .ok payload := if_pos h

theorem sameBytes_eq {array payload : List UInt8} {off : Nat} (h : payload.length = off + array.length) :
    sameBytes array payload off = .ok (decide (array = payload.drop off)) := by
  unfold sameBytes
  rw [Span.copy_eq (by rw [Span.size_of, h]), Span.slice_of (by rw [h]), List.take_of_length_le (by simp [h])]
  rfl

/-- A proof that was calculated fills its array. -/
theorem calculateProof_bind {α : Type} {f g : Option (List UInt8) → Sys α}
    (secret domain serverNonce clientNonce binding : List UInt8) (hnone : f none = g none)
    (hsome : ∀ proof, proof.length = kAuthenticationProofSize → f (some proof) = g (some proof)) :
    calculateProof secret domain serverNonce clientNonce binding >>= f =
      calculateProof secret domain serverNonce clientNonce binding >>= g := by
  unfold calculateProof
  simp only [bind_assoc]
  refine bind_congr fun r => ?_
  cases r with
  | error e => exact hnone
  | ok proof =>
    simp only
    split
    · next h => exact hsome proof h
    · exact hnone

theorem checkResult_eq (secret serverNonce clientNonce clientProof : List UInt8) (result : Frame) :
    checkResult secret serverNonce clientNonce clientProof result =
      Except.ok <$> Authentication.checkResult secret serverNonce clientNonce clientProof result := by
  unfold checkResult Authentication.checkResult
  split
  · rfl
  · next hform =>
    obtain ⟨front, rest, hpayload⟩ : ∃ front rest, result.payload = front :: rest :=
      List.exists_cons_of_ne_nil fun h => hform (Or.inr (Or.inr (Or.inr h)))
    have hfront : (Span.of (front :: rest)).loadU8 0 = .ok front := Span.loadU8_eq (by simp)
    simp only [hpayload, hfront, List.head?_cons, Option.some.injEq, ne_eq]
    split
    · split <;> rfl
    split
    · rfl
    · next haccepted =>
      rw [map_bind]
      refine calculateProof_bind _ _ _ _ _ rfl fun proof hproof => ?_
      have hlength : (front :: rest).length = 1 + proof.length := by rw [hproof]; tauto
      simp only [sameBytes_eq hlength, Checked.ok_bind, decide_eq_true_eq]
      split <;> rfl

theorem answerChallenge_eq (secret serverNonce : List UInt8) :
    answerChallenge secret serverNonce = Except.ok <$> Authentication.answerChallenge secret serverNonce := by
  unfold answerChallenge Authentication.answerChallenge
  rw [map_bind]
  refine bind_congr fun r => ?_
  cases r with
  | error e => rfl
  | ok clientNonce =>
    simp only [map_bind]
    refine calculateProof_bind _ _ _ _ _ rfl fun clientProof _ => ?_
    simp only [map_bind]
    refine bind_congr fun proofSent => ?_
    split
    · rw [map_bind]
      refine bind_congr fun received => ?_
      cases received with
      | error e => rfl
      | ok result => exact checkResult_eq _ _ _ _ _
    · rfl

theorem authenticateClient_eq (secret : List UInt8) :
    authenticateClient secret = Except.ok <$> Authentication.authenticateClient secret := by
  unfold authenticateClient Authentication.authenticateClient
  split
  · rfl
  · rw [map_bind]
    refine bind_congr fun received => ?_
    cases received with
    | error e => rfl
    | ok challenge =>
      simp only
      split
      · rfl
      · next h =>
        rw [copyPayload_eq (length_of_isAuthFrame h)]
        exact answerChallenge_eq secret _

theorem splitProof_eq {payload : List UInt8}
    (h : payload.length = kAuthenticationNonceSize + kAuthenticationProofSize) :
    splitProof payload = .ok (payload.take kAuthenticationNonceSize, payload.drop kAuthenticationNonceSize) := by
  have htake : (payload.take kAuthenticationNonceSize).length = kAuthenticationNonceSize := by
    rw [List.length_take]
    omega
  unfold splitProof
  rw [Span.copy_eq (by rw [Span.size_of]; omega), Span.slice_of (by omega), List.drop_zero, Checked.ok_bind,
    copyPayload_eq htake, Checked.sub_eq (by omega)]
  simp only [Checked.ok_bind]
  rw [Span.copy_eq (by rw [Span.size_of]; omega), Span.slice_of (by omega), List.take_of_length_le (by simp)]
  rfl

theorem checkProof_eq (secret serverNonce : List UInt8) (proofFrame : Frame) :
    checkProof secret serverNonce proofFrame =
      Except.ok <$> Authentication.checkProof secret serverNonce proofFrame := by
  unfold checkProof Authentication.checkProof
  split
  · rw [map_bind]
    refine bind_congr fun rejected => ?_
    split <;> rfl
  · next h =>
    have hlength := length_of_isAuthFrame h
    simp only [splitProof_eq hlength, map_bind]
    refine calculateProof_bind _ _ _ _ _ rfl fun expected hexpected => ?_
    have hproof : (proofFrame.payload.drop kAuthenticationNonceSize).length = 0 + expected.length := by
      rw [List.length_drop, hlength, hexpected]
      omega
    simp only [sameBytes_eq hproof, List.drop_zero]
    by_cases hsame : expected = proofFrame.payload.drop kAuthenticationNonceSize
    · simp only [hsame, decide_true, if_true, map_bind]
      exact calculateProof_bind _ _ _ _ _ rfl fun serverProof _ => rfl
    · simp only [hsame, decide_false, if_false]

theorem authenticateServer_eq (secret : List UInt8) :
    authenticateServer secret = Except.ok <$> Authentication.authenticateServer secret := by
  unfold authenticateServer Authentication.authenticateServer
  split
  · rfl
  · rw [map_bind]
    refine bind_congr fun r => ?_
    cases r with
    | error e => rfl
    | ok serverNonce =>
      simp only [map_bind]
      refine bind_congr fun challengeSent => ?_
      split
      · rw [map_bind]
        refine bind_congr fun received => ?_
        cases received with
        | error e => rfl
        | ok proofFrame => exact checkProof_eq secret serverNonce proofFrame
      · rfl

end Checked

/-- **No decoder leaves its payload.** -/
theorem decoders_in_bounds :
    (∀ bytes maxPayload, Checked.decodeHeader bytes maxPayload = .ok (decodeHeader bytes maxPayload)) ∧
    (∀ payload, Checked.decodeUploadMetadata payload = .ok (decodeUploadMetadata payload)) ∧
    (∀ payload, Checked.decodeFileChunk payload = .ok (decodeFileChunk payload)) ∧
    (∀ payload, Checked.decodeOffset payload = .ok (decodeOffset payload)) ∧
    (∀ payload, Checked.decodeTransferReady payload = .ok (decodeTransferReady payload)) ∧
    (∀ payload, Checked.decodeTransferResult payload = .ok (decodeTransferResult payload)) ∧
    (∀ payload offset, Checked.decodePath payload offset = .ok (decodePath payload offset)) ∧
    (∀ payload maxEntries, Checked.decodeManifest payload maxEntries = .ok (decodeManifest payload maxEntries)) ∧
    (∀ payload maxEntries, Checked.decodeSyncPlan payload maxEntries = .ok (decodeSyncPlan payload maxEntries)) ∧
    (∀ payload, Checked.decodeSyncResult payload = .ok (decodeSyncResult payload)) ∧
    (∀ secret, Checked.authenticateClient secret = Except.ok <$> Authentication.authenticateClient secret) ∧
    (∀ secret, Checked.authenticateServer secret = Except.ok <$> Authentication.authenticateServer secret) :=
  ⟨Checked.decodeHeader_eq, Checked.decodeUploadMetadata_eq, Checked.decodeFileChunk_eq, Checked.decodeOffset_eq,
    Checked.decodeTransferReady_eq, Checked.decodeTransferResult_eq, Checked.decodePath_eq,
    fun _ => Checked.decodeManifest_eq, fun _ => Checked.decodeSyncPlan_eq, Checked.decodeSyncResult_eq,
    Checked.authenticateClient_eq, Checked.authenticateServer_eq⟩

end SyncWire
