import SyncWire.Lib.Bytes

/-!
# The wire header (`protocol.hpp`, `codec.cpp`)

The 32-byte frame header with its hard-coded offsets, and the decoder's checks in
their order.  `MessageType` is a C++ `enum class` over `uint8_t`, so a value that
none of the enumerators names exists as well (`unnamed`); `raw` and `ofRaw` are the
two casts.

* `decodeHeader_encodeHeader`: decoding what was encoded performs the checks on the
  header itself.
* `decodeHeader_encodeHeader_ok`: it gives the header back when they all pass.
* `encodeHeader_decodeHeader`: bytes that are accepted are the encoding of the header they give.
* `headerCodec_exact`: both directions, with the error of the first check that fails.
-/

namespace SyncWire

open Wire

def kMagic : UInt32 := 0x53574952
def kVersion : UInt8 := 2
def kWireHeaderSize : Nat := 32
def kDefaultMaxPayload : UInt32 := 1024 * 1024

def isKnownMessageType (value : UInt8) : Bool :=
  ([0x01, 0x02, 0x10, 0x11, 0x12, 0x20, 0x21, 0x22, 0x23, 0x24, 0x25, 0x26, 0x30, 0x31, 0x32, 0x33,
    0x7F] : List UInt8).contains value

inductive MessageType
  | ping | pong
  | authChallenge | authProof | authResult
  | uploadRequest | downloadRequest | transferReady | fileChunk | acknowledgment | transferComplete
  | transferResult
  | syncManifest | syncPlan | syncComplete | syncResult
  | error
  /-- a value of the underlying type that is not an enumerator -/
  | unnamed (value : UInt8) (h : isKnownMessageType value = false)
deriving DecidableEq

namespace MessageType

/-- `static_cast<uint8_t>(type)` -/
def raw : MessageType → UInt8
  | ping => 0x01
  | pong => 0x02
  | authChallenge => 0x10
  | authProof => 0x11
  | authResult => 0x12
  | uploadRequest => 0x20
  | downloadRequest => 0x21
  | transferReady => 0x22
  | fileChunk => 0x23
  | acknowledgment => 0x24
  | transferComplete => 0x25
  | transferResult => 0x26
  | syncManifest => 0x30
  | syncPlan => 0x31
  | syncComplete => 0x32
  | syncResult => 0x33
  | error => 0x7F
  | unnamed value _ => value

/-- The enumerators. -/
def named : List MessageType :=
  [ping, pong, authChallenge, authProof, authResult, uploadRequest, downloadRequest, transferReady,
    fileChunk, acknowledgment, transferComplete, transferResult, syncManifest, syncPlan, syncComplete,
    syncResult, error]

/-- `static_cast<MessageType>(value)` -/
def ofRaw (value : UInt8) : MessageType :=
  if h : isKnownMessageType value = false then unnamed value h
  else (named.find? fun t => t.raw == value).getD error

theorem ofRaw_raw (t : MessageType) : ofRaw t.raw = t := by
  cases t with
  | unnamed value h => simp [raw, ofRaw, h]
  | _ => rfl

theorem raw_ofRaw (value : UInt8) : (ofRaw value).raw = value := by
  unfold ofRaw
  split
  · rfl
  · next h =>
    rw [Bool.not_eq_false, isKnownMessageType, List.contains_iff_mem] at h
    simp only [List.mem_cons, List.not_mem_nil, or_false] at h
    rcases h with rfl | rfl | rfl | rfl | rfl | rfl | rfl | rfl | rfl | rfl | rfl | rfl | rfl | rfl | rfl |
      rfl | rfl <;> rfl

end MessageType

structure FrameHeader where
  magic : UInt32 := kMagic
  version : UInt8 := kVersion
  messageType : MessageType := .ping
  headerSize : UInt16 := 32
  payloadLength : UInt32 := 0
  flags : UInt32 := 0
  requestId : UInt64 := 0
  transferId : UInt64 := 0
deriving DecidableEq

structure Frame where
  header : FrameHeader
  payload : List UInt8
deriving DecidableEq

inductive CodecError
  | headerTooShort | invalidMagic | unsupportedVersion | invalidHeaderSize | unknownMessageType
  | unsupportedFlags | payloadTooLarge | inputBufferLimitExceeded
deriving DecidableEq

/-! ## `codec.cpp` -/

/-- Write `bytes` into `out` at `offset`. -/
def put (out : List UInt8) (offset : Nat) (bytes : List UInt8) : List UInt8 :=
  out.take offset ++ bytes ++ out.drop (offset + bytes.length)

def encodeHeader (header : FrameHeader) : List UInt8 :=
  let bytes := List.replicate kWireHeaderSize 0
  let bytes := put bytes 0 (appendU32 header.magic)
  let bytes := put bytes 4 [header.version]
  let bytes := put bytes 5 [header.messageType.raw]
  let bytes := put bytes 6 (appendU16 header.headerSize)
  let bytes := put bytes 8 (appendU32 header.payloadLength)
  let bytes := put bytes 12 (appendU32 header.flags)
  let bytes := put bytes 16 (appendU64 header.requestId)
  put bytes 24 (appendU64 header.transferId)

def decodeHeader (bytes : Span) (maxPayload : UInt32) : Except CodecError FrameHeader :=
  if bytes.size < kWireHeaderSize then .error .headerTooShort
  else
    let magic := bytes.getU32 0
    if magic ≠ kMagic then .error .invalidMagic
    else
      let version := bytes.getU8 4
      if version ≠ kVersion then .error .unsupportedVersion
      else
        let rawMessageType := bytes.getU8 5
        if isKnownMessageType rawMessageType = false then .error .unknownMessageType
        else
          let headerSize := bytes.getU16 6
          if headerSize ≠ 32 then .error .invalidHeaderSize
          else
            let payloadLength := bytes.getU32 8
            if payloadLength > maxPayload then .error .payloadTooLarge
            else
              let flags := bytes.getU32 12
              if flags ≠ 0 then .error .unsupportedFlags
              else
                .ok
                  { magic, version, messageType := .ofRaw rawMessageType, headerSize, payloadLength, flags,
                    requestId := bytes.getU64 16, transferId := bytes.getU64 24 }

/-! ## Round trip -/

/-- Writing right behind what has been written. -/
theorem put_append (a b : List UInt8) {offset n : Nat} (ho : offset = a.length) :
    put (a ++ List.replicate n 0) offset b = (a ++ b) ++ List.replicate (n - b.length) 0 := by
  subst ho
  rw [put, List.take_left, List.drop_append, List.drop_eq_nil_of_le (Nat.le_add_right _ _),
    List.nil_append, Nat.add_sub_cancel_left, List.drop_replicate]

/-- The fields of an encoded header, in order. -/
theorem encodeHeader_eq (h : FrameHeader) :
    encodeHeader h = appendU32 h.magic ++ ([h.version] ++ ([h.messageType.raw] ++
      (appendU16 h.headerSize ++ (appendU32 h.payloadLength ++ (appendU32 h.flags ++
        (appendU64 h.requestId ++ appendU64 h.transferId)))))) := by
  simp only [encodeHeader]
  rw [← List.nil_append (List.replicate kWireHeaderSize (0 : UInt8)), put_append, put_append, put_append,
    put_append, put_append, put_append, put_append, put_append] <;>
    simp [kWireHeaderSize]

@[simp] theorem length_encodeHeader (h : FrameHeader) : (encodeHeader h).length = kWireHeaderSize := by
  rw [encodeHeader_eq]
  simp [kWireHeaderSize]

theorem decodeHeader_encodeHeader (h : FrameHeader) (maxPayload : UInt32) :
    decodeHeader (.of (encodeHeader h)) maxPayload =
      if h.magic ≠ kMagic then .error .invalidMagic
      else if h.version ≠ kVersion then .error .unsupportedVersion
      else if isKnownMessageType h.messageType.raw = false then .error .unknownMessageType
      else if h.headerSize ≠ 32 then .error .invalidHeaderSize
      else if h.payloadLength > maxPayload then .error .payloadTooLarge
      else if h.flags ≠ 0 then .error .unsupportedFlags
      else .ok h := by
  have hlen := length_encodeHeader h
  rw [encodeHeader_eq] at hlen ⊢
  unfold decodeHeader
  simp only [Span.size_of, hlen, Nat.lt_irrefl, if_false]
  simp only [getU8_append_right, getU16_append_right, getU32_append_right, getU64_append_right,
    length_appendU16, length_appendU32, length_appendU64, List.length_singleton, Nat.reduceLeDiff,
    Nat.reduceSub, Nat.le_refl, getU8_singleton, getU16_appendU16, getU32_appendU32, getU64_appendU64,
    getU64_appendU64_self, MessageType.ofRaw_raw]

/-- What `decodeHeader` asks of a header. -/
def FrameHeader.Accepted (h : FrameHeader) (maxPayload : UInt32) : Prop :=
  h.magic = kMagic ∧ h.version = kVersion ∧ isKnownMessageType h.messageType.raw = true ∧
    h.headerSize = 32 ∧ h.payloadLength ≤ maxPayload ∧ h.flags = 0

instance (h : FrameHeader) (maxPayload : UInt32) : Decidable (h.Accepted maxPayload) := by
  unfold FrameHeader.Accepted
  infer_instance

theorem decodeHeader_encodeHeader_ok {h : FrameHeader} {maxPayload : UInt32}
    (ha : h.Accepted maxPayload) : decodeHeader (.of (encodeHeader h)) maxPayload = .ok h := by
  obtain ⟨h1, h2, h3, h4, h5, h6⟩ := ha
  rw [decodeHeader_encodeHeader]
  simp [h1, h2, h3, h4, h6, UInt32.not_lt.mpr h5]

/-- What `decodeHeader` returns is accepted, and read field by field. -/
theorem decodeHeader_ok {bytes : Span} {maxPayload : UInt32} {h : FrameHeader}
    (hd : decodeHeader bytes maxPayload = .ok h) :
    h.Accepted maxPayload ∧ h =
      { magic := bytes.getU32 0, version := bytes.getU8 4, messageType := .ofRaw (bytes.getU8 5),
        headerSize := bytes.getU16 6, payloadLength := bytes.getU32 8, flags := bytes.getU32 12,
        requestId := bytes.getU64 16, transferId := bytes.getU64 24 } := by
  unfold decodeHeader at hd
  split at hd
  · cases hd
  · simp only at hd
    split_ifs at hd with h1 h2 h3 h4 h5 h6
    cases hd
    refine ⟨⟨not_not.mp h1, not_not.mp h2, ?_, not_not.mp h4, UInt32.not_lt.mp h5, not_not.mp h6⟩, rfl⟩
    rw [MessageType.raw_ofRaw]
    simpa using h3

/-- The limit of an input buffer is not the header's. -/
theorem decodeHeader_ne_limit {bytes : Span} {maxPayload : UInt32} :
    decodeHeader bytes maxPayload ≠ .error .inputBufferLimitExceeded := by
  unfold decodeHeader
  simp only
  split_ifs <;> simp

/-- What is accepted starts with the encoding of the header it gives. -/
theorem encodeHeader_take {bytes : List UInt8} {maxPayload : UInt32} {h : FrameHeader}
    (hl : kWireHeaderSize ≤ bytes.length) (hd : decodeHeader (.of bytes) maxPayload = .ok h) :
    encodeHeader h = bytes.take kWireHeaderSize := by
  have hbyte : ∀ off, [(Span.of bytes).getU8 off] = (Span.of bytes).slice off 1 := fun off => rfl
  have hfront : (Span.of bytes).slice 0 32 = bytes.take 32 := Span.slice_of (by rw [Nat.zero_add]; exact hl)
  rw [encodeHeader_eq, (decodeHeader_ok hd).2]
  simp only [MessageType.raw_ofRaw, hbyte, appendU16_getU16, appendU32_getU32, appendU64_getU64]
  rw [slice_append_slice _ 16 8, slice_append_slice _ 12 4, slice_append_slice _ 8 4,
    slice_append_slice _ 6 2, slice_append_slice _ 5 1, slice_append_slice _ 4 1, slice_append_slice _ 0 4]
  exact hfront

theorem encodeHeader_decodeHeader {bytes : List UInt8} {maxPayload : UInt32} {h : FrameHeader}
    (hl : bytes.length = kWireHeaderSize) (hd : decodeHeader (.of bytes) maxPayload = .ok h) :
    encodeHeader h = bytes := by
  rw [encodeHeader_take (Nat.le_of_eq hl.symm) hd, List.take_of_length_le (Nat.le_of_eq hl)]

/-! ## Which error -/

/-- What `decode_header` checks, in its order, each with the error it reports. -/
def FrameHeader.checks (h : FrameHeader) (maxPayload : UInt32) : List (Bool × CodecError) :=
  [(h.magic == kMagic, .invalidMagic),
   (h.version == kVersion, .unsupportedVersion),
   (isKnownMessageType h.messageType.raw, .unknownMessageType),
   (h.headerSize == 32, .invalidHeaderSize),
   (decide (h.payloadLength ≤ maxPayload), .payloadTooLarge),
   (h.flags == 0, .unsupportedFlags)]

/-- The header comes back, or the error of the first check that fails. -/
theorem decodeHeader_checks (h : FrameHeader) (maxPayload : UInt32) :
    decodeHeader (.of (encodeHeader h)) maxPayload =
      match (h.checks maxPayload).find? fun c => !c.1 with
      | none => .ok h
      | some c => .error c.2 := by
  rw [decodeHeader_encodeHeader, FrameHeader.checks]
  -- one check after the other: a failing one ends both sides, a passing one is skipped by both
  by_cases h1 : h.magic = kMagic
  · by_cases h2 : h.version = kVersion
    · by_cases h3 : isKnownMessageType h.messageType.raw = true
      · by_cases h4 : h.headerSize = 32
        · by_cases h5 : h.payloadLength ≤ maxPayload
          · by_cases h6 : h.flags = 0
            · simp [h1, h2, h3, h4, h6, h5, UInt32.not_lt.mpr h5]
            · simp [h1, h2, h3, h4, h6, h5, UInt32.not_lt.mpr h5]
          · simp [h1, h2, h3, h4, h5, UInt32.not_le.mp h5]
        · simp [h1, h2, h3, h4]
      · simp [h1, h2, h3]
    · simp [h1, h2]
  · simp [h1]

theorem FrameHeader.accepted_iff (h : FrameHeader) (maxPayload : UInt32) :
    h.Accepted maxPayload ↔ (h.checks maxPayload).find? (fun c => !c.1) = none := by
  simp [FrameHeader.Accepted, FrameHeader.checks]

/-- **The header codec.**  A header that is accepted comes back from its encoding, any other gives
the error of the first check it fails; and bytes are only accepted that start with the encoding of the
header they give. -/
theorem headerCodec_exact (maxPayload : UInt32) :
    (∀ h : FrameHeader,
      (decodeHeader (.of (encodeHeader h)) maxPayload = .ok h ↔ h.Accepted maxPayload) ∧
      (¬ h.Accepted maxPayload → ∃ c, (h.checks maxPayload).find? (fun c => !c.1) = some c ∧
        decodeHeader (.of (encodeHeader h)) maxPayload = .error c.2)) ∧
    (∀ (bytes : List UInt8) (h : FrameHeader), kWireHeaderSize ≤ bytes.length →
      decodeHeader (.of bytes) maxPayload = .ok h → encodeHeader h = bytes.take kWireHeaderSize) := by
  refine ⟨fun h => ⟨⟨fun hd => (decodeHeader_ok hd).1, decodeHeader_encodeHeader_ok⟩, fun hn => ?_⟩,
    fun bytes h hl hd => encodeHeader_take hl hd⟩
  rw [FrameHeader.accepted_iff] at hn
  obtain ⟨c, hc⟩ := Option.ne_none_iff_exists'.mp hn
  exact ⟨c, hc, by rw [decodeHeader_checks, hc]⟩

/-- A wrong version and a wrong header size: the version is reported. -/
theorem headerCodec_exact_sample :
    let h : FrameHeader := { version := 1, headerSize := 31 }
    decodeHeader (.of (encodeHeader h)) 16 = .error .unsupportedVersion ∧
      encodeHeader {} = (encodeHeader {} ++ [7]).take kWireHeaderSize := by
  obtain ⟨c, hc, hd⟩ := ((headerCodec_exact 16).1 { version := 1, headerSize := 31 }).2 (by decide)
  refine ⟨?_, (headerCodec_exact 16).2 (encodeHeader {} ++ [7]) {} (by decide) (by decide)⟩
  obtain rfl : ((false, .unsupportedVersion) : Bool × CodecError) = c := Option.some.inj hc
  exact hd

end SyncWire
