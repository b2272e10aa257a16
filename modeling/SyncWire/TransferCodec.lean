import SyncWire.Protocol

/-!
# Payloads of a file transfer (`transfer_codec.cpp`)

Remote paths, and the payloads of an upload: metadata, chunks, offsets, the ready
message and the result code.  Encoders give lists; decoders read a `Span`.

* `isSafeRemotePath_iff`: the index loop accepts exactly the paths whose components
  are all acceptable; `remotePath_grammar` is the whole of it.
* `decodeUploadMetadata_encode`, `decodeFileChunk_encode`, `decodeOffset_encode`,
  `decodeTransferReady_encode`, `decodeTransferResult_encode`: round trips.
* `encodeUploadMetadata_decode`, `encodeFileChunk_decode`, `encodeOffset_decode`,
  `encodeTransferReady_decode`: a payload that is accepted is the only one that decodes
  to what it decodes to.
-/

namespace SyncWire

open Wire

/-- The bytes of a string literal. -/
def bytesOf (s : String) : List UInt8 := s.toList.map fun c => UInt8.ofNat c.toNat

def slash : UInt8 := 47
def backslash : UInt8 := 92

def kUploadMetadataPrefixSize : Nat := 14
def kChunkOffsetSize : Nat := 8
def kAcknowledgmentPayloadSize : Nat := 8
def kTransferReadyPayloadSize : Nat := 12
def kPartialDirectory : List UInt8 := bytesOf ".syncwire-partials"
def kTransferResultPayloadSize : Nat := 1
def kMaxRemoteFilenameLength : Nat := 255
def kMaxRemotePathLength : Nat := 1024
def kDefaultChunkSize : Nat := 64 * 1024
def kDefaultMaxFileSize : UInt64 := 1024 * 1024 * 1024

inductive TransferResultCode
  | success | invalidRequest | invalidPath | fileTooLarge | fileIoError | unexpectedFrame
  | unexpectedOffset | sizeMismatch | checksumMismatch
deriving DecidableEq

inductive TransferCodecError
  | payloadTooShort | payloadSizeMismatch | emptyFilename | filenameTooLong | unsafeFilename
  | chunkHasNoData | unknownResultCode
deriving DecidableEq

structure UploadMetadata where
  filename : List UInt8
  fileSize : UInt64 := 0
  checksum : UInt32 := 0
deriving DecidableEq

structure FileChunk where
  offset : UInt64
  data : List UInt8
deriving DecidableEq

structure TransferReady where
  offset : UInt64
  prefixChecksum : UInt32
deriving DecidableEq

/-! ## Remote paths -/

/-- `path.find(c, start)` -/
def findFrom (path : List UInt8) (c : UInt8) (start : Nat) : Option Nat :=
  ((path.drop start).findIdx? (· == c)).map (start + ·)

def unsafeComponent (component : List UInt8) : Bool :=
  component.isEmpty || component == bytesOf "." || component == bytesOf ".." ||
    component == kPartialDirectory || decide (component.length > kMaxRemoteFilenameLength)

/-- The loop of `is_safe_remote_path`; each turn moves `start` on, so `path.length` turns are
enough (`scanComponents_iff`). -/
def scanComponents (path : List UInt8) : (turns start : Nat) → Bool
  | 0, _ => true
  | turns + 1, start =>
    if start < path.length then
      let separator := findFrom path slash start
      let length :=
        match separator with
        | none => path.length - start
        | some i => i - start
      let component := (path.drop start).take length
      if unsafeComponent component then false
      else
        match separator with
        | none => true
        | some i => scanComponents path turns (i + 1)
    else true

def isSafeRemotePath (path : List UInt8) : Bool :=
  if path.isEmpty || decide (path.length > kMaxRemotePathLength) || path.head? == some slash ||
      path.getLast? == some slash then false
  else if path.any fun character => character == backslash || character == 0 then false
  else scanComponents path path.length 0

def isSafeRemoteFilename (filename : List UInt8) : Bool :=
  decide (filename.length ≤ kMaxRemoteFilenameLength) && isSafeRemotePath filename &&
    findFrom filename slash 0 == none

/-- The components of a path. -/
def components (path : List UInt8) : List (List UInt8) := path.splitOn slash

theorem scanComponents_iff (path : List UInt8) (hlast : path.getLast? ≠ some slash) (turns start : Nat)
    (hs : start < path.length) (ht : path.length ≤ start + turns) :
    scanComponents path turns start = true ↔
      ∀ c ∈ components (path.drop start), unsafeComponent c = false := by
  induction turns generalizing start with
  | zero => omega
  | succ turns ih =>
    rw [scanComponents, if_pos hs]
    unfold findFrom
    cases hf : (path.drop start).findIdx? (· == slash) with
    | none =>
      have hno : components (path.drop start) = [path.drop start] := by
        refine List.splitOnP_eq_singleton ?_
        simpa [List.findIdx?_eq_none_iff] using hf
      simp [hno, List.take_of_length_le]
    | some k =>
      obtain ⟨hk, he, hbefore⟩ := List.findIdx?_eq_some_iff_getElem.mp hf
      -- the text up to the separator, the separator, and the rest
      have hsplit : path.drop start = (path.drop start).take k ++ slash :: path.drop (start + k + 1) := by
        have h1 := (List.take_append_drop k (path.drop start)).symm
        rw [List.drop_eq_getElem_cons hk, beq_iff_eq.mp he, List.drop_drop] at h1
        simpa [Nat.add_assoc] using h1
      have hcomp : components (path.drop start) =
          (path.drop start).take k :: components (path.drop (start + k + 1)) := by
        conv_lhs => rw [hsplit]
        refine List.splitOnP_append_cons_of_forall_mem ?_ _ (by simp) _
        intro x hx
        obtain ⟨i, hi, rfl⟩ := List.getElem_of_mem hx
        rw [List.getElem_take]
        simp only [List.length_take] at hi
        simpa using hbefore i (by omega)
      have hnext : start + k + 1 < path.length := by
        by_contra hge
        apply hlast
        rw [List.length_drop] at hk
        have : path.drop (start + k + 1) = [] := List.drop_eq_nil_of_le (by omega)
        rw [← List.take_append_drop start path, hsplit, this]
        simp
      simp only [Option.map_some, Nat.add_sub_cancel_left, hcomp, List.forall_mem_cons]
      cases hu : unsafeComponent ((path.drop start).take k) with
      | true => simp
      | false => simpa using ih (start + k + 1) hnext (by omega)

theorem isSafeRemotePath_iff (path : List UInt8) :
    isSafeRemotePath path = true ↔
      path.length ≤ kMaxRemotePathLength ∧ (∀ c ∈ path, c ≠ backslash ∧ c ≠ 0) ∧
        ∀ c ∈ components path, unsafeComponent c = false := by
  -- an empty path, a leading and a trailing slash each leave an empty component
  have hempty : (path.isEmpty = true ∨ path.head? = some slash ∨ path.getLast? = some slash) →
      [] ∈ components path := by
    rintro (h | h | h)
    · rw [List.isEmpty_iff.mp h]; simp [components]
    · obtain ⟨t, rfl⟩ := List.head?_eq_some_iff.mp h
      rw [components, List.splitOn_cons_eq_if_modifyHead]
      simp
    · obtain ⟨t, rfl⟩ := List.getLast?_eq_some_iff.mp h
      rw [components, List.splitOn_append_cons_self]
      simp
  unfold isSafeRemotePath
  split
  · next h =>
    simp only [Bool.or_eq_true, beq_iff_eq, decide_eq_true_eq] at h
    refine iff_of_false (by simp) ?_
    rintro ⟨hlen, -, hc⟩
    have hmem : [] ∈ components path := by
      rcases h with ((h | h) | h) | h
      · exact hempty (.inl h)
      · omega
      · exact hempty (.inr (.inl h))
      · exact hempty (.inr (.inr h))
    exact absurd (hc [] hmem) (by decide)
  · next h =>
    simp only [Bool.or_eq_true, beq_iff_eq, decide_eq_true_eq, not_or, Nat.not_lt] at h
    obtain ⟨⟨⟨hne, hlen⟩, -⟩, hlast⟩ := h
    have hpos : 0 < path.length := List.length_pos_iff.mpr (by simpa using hne)
    split
    · next hany =>
      refine iff_of_false (by simp) ?_
      rintro ⟨-, hc, -⟩
      obtain ⟨c, hm, hb⟩ := List.any_eq_true.mp hany
      simp only [Bool.or_eq_true, beq_iff_eq] at hb
      exact hb.elim (hc c hm).1 (hc c hm).2
    · next hany =>
      have hc : ∀ c ∈ path, c ≠ backslash ∧ c ≠ 0 := by simpa using hany
      rw [scanComponents_iff path hlast path.length 0 hpos (by omega), List.drop_zero]
      exact ⟨fun h => ⟨hlen, hc, h⟩, fun h => h.2.2⟩

/-- One turn of the loop of `is_safe_remote_path`: where the next one starts, or the result. -/
def scanTurn (path : List UInt8) (start : Nat) : Nat ⊕ Bool :=
  if start < path.length then
    let separator := findFrom path slash start
    let length :=
      match separator with
      | none => path.length - start
      | some i => i - start
    if unsafeComponent ((path.drop start).take length) then .inr false
    else
      match separator with
      | none => .inr true
      | some i => .inl (i + 1)
  else .inr true

/-- The loop, given up after so many turns. -/
def scanLoop (path : List UInt8) : (turns start : Nat) → Option Bool
  | 0, _ => none
  | turns + 1, start => (scanTurn path start).elim (scanLoop path turns) some

theorem scanComponents_succ (path : List UInt8) (turns start : Nat) :
    scanComponents path (turns + 1) start = (scanTurn path start).elim (scanComponents path turns) id := by
  rw [scanComponents, scanTurn]
  by_cases hs : start < path.length
  · rw [if_pos hs, if_pos hs]
    cases findFrom path slash start with
    | none =>
      dsimp only
      split <;> rfl
    | some i =>
      dsimp only
      split <;> rfl
  · rw [if_neg hs, if_neg hs]
    rfl

theorem lt_of_scanTurn {path : List UInt8} {start next : Nat} (h : scanTurn path start = .inl next) :
    start < next := by
  unfold scanTurn at h
  split at h
  · cases hf : findFrom path slash start with
    | none =>
      simp only [hf] at h
      split at h <;> cases h
    | some i =>
      obtain ⟨k, -, rfl⟩ := Option.map_eq_some_iff.mp hf
      simp only [hf] at h
      split at h
      · cases h
      · cases h
        omega
  · cases h

/-- The loop comes to its end, with the result of `scanComponents`. -/
theorem scanLoop_eq (path : List UInt8) (turns start : Nat) (h : path.length ≤ start + turns) :
    scanLoop path (turns + 1) start = some (scanComponents path turns start) := by
  induction turns generalizing start with
  | zero =>
    have hs : ¬ start < path.length := by omega
    rw [scanLoop, scanTurn, if_neg hs]
    rfl
  | succ turns ih =>
    rw [scanLoop, scanComponents_succ]
    cases ht : scanTurn path start with
    | inr result => rfl
    | inl next =>
      have hlt := lt_of_scanTurn ht
      exact ih next (by omega)

/-- **The grammar of remote paths.**  The loop ends; a path is accepted if and only if it has 1 to 1024
bytes, no backslash and no NUL, and its components have 1 to 255 bytes and are not `.`, `..` or the name
of the state directory; a file name is a path without a slash. -/
theorem remotePath_grammar (p : List UInt8) :
    scanLoop p (p.length + 1) 0 = some (scanComponents p p.length 0) ∧
    (isSafeRemotePath p = true ↔ 1 ≤ p.length ∧ p.length ≤ 1024 ∧ backslash ∉ p ∧ 0 ∉ p ∧
      ∀ c ∈ components p, 1 ≤ c.length ∧ c.length ≤ 255 ∧ c ≠ bytesOf "." ∧ c ≠ bytesOf ".." ∧
        c ≠ bytesOf ".syncwire-partials") ∧
    (isSafeRemoteFilename p = true ↔ isSafeRemotePath p = true ∧ slash ∉ p) := by
  have hcomponent : ∀ c, unsafeComponent c = false ↔ 1 ≤ c.length ∧ c.length ≤ 255 ∧ c ≠ bytesOf "." ∧
      c ≠ bytesOf ".." ∧ c ≠ bytesOf ".syncwire-partials" := by
    intro c
    simp only [unsafeComponent, kPartialDirectory, kMaxRemoteFilenameLength, Bool.or_eq_false_iff,
      beq_eq_false_iff_ne,
      decide_eq_false_iff_not, List.isEmpty_eq_false_iff, Nat.not_lt, gt_iff_lt, Nat.one_le_iff_ne_zero,
      ne_eq, List.length_eq_zero_iff]
    tauto
  refine ⟨scanLoop_eq p _ 0 (by omega), ?_, ?_⟩
  · rw [isSafeRemotePath_iff]
    simp only [hcomponent, kMaxRemotePathLength]
    constructor
    · rintro ⟨hlen, hbytes, hc⟩
      refine ⟨?_, hlen, fun h => (hbytes _ h).1 rfl, fun h => (hbytes _ h).2 rfl, hc⟩
      by_contra hnil
      obtain rfl : p = [] := List.length_eq_zero_iff.mp (by omega)
      exact absurd (hc [] (by simp [components])).1 (by decide)
    · rintro ⟨-, hlen, hb, h0, hc⟩
      exact ⟨hlen, fun c hm => ⟨fun h => hb (h ▸ hm), fun h => h0 (h ▸ hm)⟩, hc⟩
  · have hfind : findFrom p slash 0 = none ↔ slash ∉ p := by
      simp only [findFrom, List.drop_zero, Option.map_eq_none_iff, List.findIdx?_eq_none_iff, beq_eq_false_iff_ne]
      exact ⟨fun h hm => h _ hm rfl, fun h x hx he => h (he ▸ hx)⟩
    simp only [isSafeRemoteFilename, Bool.and_eq_true, decide_eq_true_eq, beq_iff_eq, hfind]
    constructor
    · rintro ⟨⟨-, hsafe⟩, hslash⟩
      exact ⟨hsafe, hslash⟩
    · rintro ⟨hsafe, hslash⟩
      -- a path without a slash is its only component
      have hone : components p = [p] := List.splitOnP_eq_singleton fun x hx => by
        simpa using fun he : x = slash => hslash (he ▸ hx)
      have hc := ((isSafeRemotePath_iff p).mp hsafe).2.2 p (by rw [hone]; exact List.mem_singleton_self p)
      exact ⟨⟨((hcomponent p).mp hc).2.1, hsafe⟩, hslash⟩

theorem ne_nil_of_isSafeRemotePath {path : List UInt8} (h : isSafeRemotePath path = true) : path ≠ [] := by
  rintro rfl
  exact absurd h (by decide)

theorem length_of_isSafeRemotePath {path : List UInt8} (h : isSafeRemotePath path = true) :
    path.length ≤ kMaxRemotePathLength := ((isSafeRemotePath_iff path).mp h).1

theorem components_ne_nil (path : List UInt8) : components path ≠ [] := List.splitOn_ne_nil _ _

theorem slash_notMem_component (path : List UInt8) : ∀ c ∈ components path, slash ∉ c := by
  induction path with
  | nil => simp [components]
  | cons x path ih =>
    rw [components, List.splitOn_cons_eq_if_modifyHead]
    unfold components at ih
    split
    · intro c hc
      rcases List.mem_cons.mp hc with rfl | hc
      · exact List.not_mem_nil
      · exact ih c hc
    · next hx =>
      cases hs : path.splitOn slash with
      | nil => exact absurd hs (List.splitOn_ne_nil _ _)
      | cons y ys =>
        rw [hs] at ih
        intro c hc
        rcases List.mem_cons.mp hc with rfl | hc
        · rintro (_ | ⟨_, hm⟩)
          · exact hx (by simp)
          · exact ih y (List.mem_cons_self ..) hm
        · exact ih c (List.mem_cons_of_mem _ hc)

/-! ## Payloads -/

def encodeUploadMetadata (metadata : UploadMetadata) : List UInt8 :=
  if isSafeRemotePath metadata.filename then
    appendU16 (UInt16.ofNat metadata.filename.length) ++ appendU64 metadata.fileSize ++
      appendU32 metadata.checksum ++ metadata.filename
  else []

def decodeUploadMetadata (payload : Span) : Except TransferCodecError UploadMetadata :=
  if payload.size < kUploadMetadataPrefixSize then .error .payloadTooShort
  else
    let filenameLength := (payload.getU16 0).toNat
    if filenameLength = 0 then .error .emptyFilename
    else if filenameLength > kMaxRemotePathLength then .error .filenameTooLong
    else if payload.size ≠ kUploadMetadataPrefixSize + filenameLength then .error .payloadSizeMismatch
    else
      let filename := payload.slice kUploadMetadataPrefixSize filenameLength
      if isSafeRemotePath filename then
        .ok { filename, fileSize := payload.getU64 2, checksum := payload.getU32 10 }
      else .error .unsafeFilename

def encodeFileChunk (offset : UInt64) (data : List UInt8) : List UInt8 := appendU64 offset ++ data

def decodeFileChunk (payload : Span) : Except TransferCodecError FileChunk :=
  if payload.size < kChunkOffsetSize then .error .payloadTooShort
  else if payload.size = kChunkOffsetSize then .error .chunkHasNoData
  else
    .ok
      { offset := payload.getU64 0,
        data := payload.slice kChunkOffsetSize (payload.size - kChunkOffsetSize) }

def encodeOffset (offset : UInt64) : List UInt8 := appendU64 offset

def decodeOffset (payload : Span) : Except TransferCodecError UInt64 :=
  if payload.size ≠ kAcknowledgmentPayloadSize then .error .payloadSizeMismatch
  else .ok (payload.getU64 0)

def encodeTransferReady (ready : TransferReady) : List UInt8 :=
  encodeOffset ready.offset ++ appendU32 ready.prefixChecksum

def decodeTransferReady (payload : Span) : Except TransferCodecError TransferReady :=
  if payload.size ≠ kTransferReadyPayloadSize then .error .payloadSizeMismatch
  else .ok { offset := payload.getU64 0, prefixChecksum := payload.getU32 8 }

namespace TransferResultCode

def raw : TransferResultCode → UInt8
  | success => 0
  | invalidRequest => 1
  | invalidPath => 2
  | fileTooLarge => 3
  | fileIoError => 4
  | unexpectedFrame => 5
  | unexpectedOffset => 6
  | sizeMismatch => 7
  | checksumMismatch => 8

/-- The enumerator with a value, if `known_result_code` holds of it. -/
def ofRaw (value : UInt8) : Option TransferResultCode :=
  [success, invalidRequest, invalidPath, fileTooLarge, fileIoError, unexpectedFrame, unexpectedOffset,
    sizeMismatch, checksumMismatch].find? fun code => code.raw == value

theorem ofRaw_raw (code : TransferResultCode) : ofRaw code.raw = some code := by
  cases code <;> rfl

end TransferResultCode

def encodeTransferResult (code : TransferResultCode) : List UInt8 := [code.raw]

def decodeTransferResult (payload : Span) : Except TransferCodecError TransferResultCode :=
  if payload.size ≠ kTransferResultPayloadSize then .error .payloadSizeMismatch
  else
    match TransferResultCode.ofRaw (payload.getU8 0) with
    | none => .error .unknownResultCode
    | some code => .ok code

/-! ## Round trips -/

theorem length_encodeUploadMetadata {m : UploadMetadata} (h : isSafeRemotePath m.filename = true) :
    (encodeUploadMetadata m).length = kUploadMetadataPrefixSize + m.filename.length := by
  simp [encodeUploadMetadata, h, kUploadMetadataPrefixSize]
  omega

theorem toNat_ofNat_length {path : List UInt8} (h : isSafeRemotePath path = true) :
    (UInt16.ofNat path.length).toNat = path.length := by
  have hl := length_of_isSafeRemotePath h
  unfold kMaxRemotePathLength at hl
  rw [UInt16.toNat_ofNat']
  omega

theorem decodeUploadMetadata_encode {m : UploadMetadata} (h : isSafeRemotePath m.filename = true) :
    decodeUploadMetadata (.of (encodeUploadMetadata m)) = .ok m := by
  have hl := length_of_isSafeRemotePath h
  have hpos : m.filename.length ≠ 0 := fun e =>
    ne_nil_of_isSafeRemotePath h (List.eq_nil_of_length_eq_zero e)
  have hlen := length_encodeUploadMetadata h
  have he : encodeUploadMetadata m = appendU16 (UInt16.ofNat m.filename.length) ++
      (appendU64 m.fileSize ++ (appendU32 m.checksum ++ m.filename)) := by
    simp [encodeUploadMetadata, h]
  have hn := toNat_ofNat_length h
  rw [he] at hlen ⊢
  simp only [decodeUploadMetadata, Span.size_of, hlen, getU16_appendU16, hn, getU64_append_right,
    getU32_append_right, slice_append_right, length_appendU16, length_appendU64, length_appendU32,
    getU64_appendU64, getU32_appendU32, kUploadMetadataPrefixSize, Nat.reduceLeDiff, Nat.reduceSub,
    Nat.le_refl, slice_self, h, if_true]
  rw [if_neg (by omega), if_neg hpos, if_neg (by omega), if_neg (by omega)]

theorem decodeFileChunk_encode (offset : UInt64) {data : List UInt8} (h : data ≠ []) :
    decodeFileChunk (.of (encodeFileChunk offset data)) = .ok ⟨offset, data⟩ := by
  have hpos : 0 < data.length := List.length_pos_iff.mpr h
  simp only [decodeFileChunk, encodeFileChunk, Span.size_of, List.length_append, length_appendU64,
    kChunkOffsetSize, getU64_appendU64, slice_append_right, Nat.le_refl, Nat.sub_self,
    Nat.add_sub_cancel_left, slice_self]
  rw [if_neg (by omega), if_neg (by omega)]

theorem decodeOffset_encode (offset : UInt64) : decodeOffset (.of (encodeOffset offset)) = .ok offset := by
  simp [decodeOffset, encodeOffset, kAcknowledgmentPayloadSize]

theorem decodeTransferReady_encode (ready : TransferReady) :
    decodeTransferReady (.of (encodeTransferReady ready)) = .ok ready := by
  simp [decodeTransferReady, encodeTransferReady, encodeOffset, kTransferReadyPayloadSize,
    getU32_append_right]

theorem decodeTransferResult_encode (code : TransferResultCode) :
    decodeTransferResult (.of (encodeTransferResult code)) = .ok code := by
  have h : (Span.of (encodeTransferResult code)).getU8 0 = code.raw := rfl
  simp only [decodeTransferResult, h, TransferResultCode.ofRaw_raw]
  rfl

theorem encodeTransferResult_decode {payload : List UInt8} {code : TransferResultCode}
    (h : decodeTransferResult (.of payload) = .ok code) : encodeTransferResult code = payload := by
  unfold decodeTransferResult at h
  split at h
  · cases h
  · next hsize =>
    obtain ⟨b, rfl⟩ := List.length_eq_one_iff.mp (not_not.mp hsize)
    split at h
    · cases h
    · next code' hcode =>
      cases h
      have hraw := List.find?_some hcode
      rw [beq_iff_eq] at hraw
      rw [encodeTransferResult, hraw]
      rfl

/-! ## Canonical payloads -/

theorem encodeUploadMetadata_ne_nil_iff (m : UploadMetadata) :
    encodeUploadMetadata m ≠ [] ↔ isSafeRemotePath m.filename = true := by
  constructor
  · intro h
    by_contra hn
    exact h (by rw [encodeUploadMetadata, if_neg hn])
  · intro h he
    have := length_encodeUploadMetadata h
    rw [he] at this
    simp [kUploadMetadataPrefixSize] at this
    omega

theorem encodeUploadMetadata_decode {payload : List UInt8} {m : UploadMetadata}
    (h : decodeUploadMetadata (.of payload) = .ok m) : encodeUploadMetadata m = payload := by
  unfold decodeUploadMetadata at h
  split at h
  · cases h
  · simp only at h
    split at h
    · cases h
    · split at h
      · cases h
      · split at h
        · cases h
        · next hsize =>
          split at h
          · next hs =>
            cases h
            rw [not_not, Span.size_of, kUploadMetadataPrefixSize] at hsize
            rw [encodeUploadMetadata, if_pos hs]
            simp only [Span.length_slice, UInt16.ofNat_toNat, appendU16_getU16, appendU32_getU32,
              appendU64_getU64, kUploadMetadataPrefixSize]
            rw [slice_append_slice _ 0 2 8, slice_append_slice _ 0 10 4, slice_append_slice _ 0 14,
              slice_self _ hsize.symm]
          · cases h

/-- Distinct uploads have distinct encodings. -/
theorem encodeUploadMetadata_inj {m m' : UploadMetadata} (hs : isSafeRemotePath m.filename = true)
    (h : encodeUploadMetadata m = encodeUploadMetadata m') : m = m' := by
  have hs' : isSafeRemotePath m'.filename = true := by
    rw [← encodeUploadMetadata_ne_nil_iff, ← h, encodeUploadMetadata_ne_nil_iff]
    exact hs
  have he := decodeUploadMetadata_encode hs
  rw [h, decodeUploadMetadata_encode hs'] at he
  exact (Except.ok.inj he).symm

theorem encodeFileChunk_decode {payload : List UInt8} {chunk : FileChunk}
    (h : decodeFileChunk (.of payload) = .ok chunk) : encodeFileChunk chunk.offset chunk.data = payload := by
  unfold decodeFileChunk at h
  split at h
  · cases h
  · next hge =>
    split at h
    · cases h
    · cases h
      simp only [Span.size_of, kChunkOffsetSize] at hge ⊢
      rw [encodeFileChunk, appendU64_getU64, slice_append_slice _ 0 8, slice_self _ (by omega)]

theorem encodeOffset_decode {payload : List UInt8} {offset : UInt64}
    (h : decodeOffset (.of payload) = .ok offset) : encodeOffset offset = payload := by
  unfold decodeOffset at h
  split at h
  · cases h
  · next hsize =>
    cases h
    rw [not_not, Span.size_of, kAcknowledgmentPayloadSize] at hsize
    rw [encodeOffset, appendU64_getU64, slice_self _ hsize.symm]

theorem encodeTransferReady_decode {payload : List UInt8} {ready : TransferReady}
    (h : decodeTransferReady (.of payload) = .ok ready) : encodeTransferReady ready = payload := by
  unfold decodeTransferReady at h
  split at h
  · cases h
  · next hsize =>
    cases h
    rw [not_not, Span.size_of, kTransferReadyPayloadSize] at hsize
    rw [encodeTransferReady, encodeOffset, appendU64_getU64, appendU32_getU32,
      slice_append_slice _ 0 8 4, slice_self _ hsize.symm]

/-! ## What is decoded -/

theorem safe_of_decodeUploadMetadata {payload : Span} {m : UploadMetadata}
    (h : decodeUploadMetadata payload = .ok m) : isSafeRemotePath m.filename = true := by
  unfold decodeUploadMetadata at h
  split at h
  · cases h
  · simp only at h
    split at h
    · cases h
    · split at h
      · cases h
      · split at h
        · cases h
        · split at h
          · next hs => cases h; exact hs
          · cases h

end SyncWire
