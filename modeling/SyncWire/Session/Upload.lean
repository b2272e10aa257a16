import SyncWire.Session.Turns

/-!
# An upload as a session

`sendFile_heeds`: the client sends a frame when it is its turn, then waits for the reply;
a refusal or the end of the connection makes it return at once.  `receiveFile_polite`:
the server answers every frame by one frame, and returns failed only after a refusal or when
the connection is broken.
-/

namespace SyncWire

open Wire Effect Posix FileTransfer

/-! ## The client -/

namespace FileTransfer

/-- What `receive_expected_frame` makes of what arrives. -/
def expect (type : MessageType) (requestId transferId : UInt64) :
    Except FrameIoResult Frame → Except FileTransferResult Frame
  | .error error => .error (frameError error)
  | .ok output =>
    if output.header.requestId ≠ requestId then
      .error { status := .mismatchedRequestId, expectedId := requestId, actualId := output.header.requestId }
    else if output.header.transferId ≠ transferId then
      .error { status := .invalidTransferId, expectedId := transferId, actualId := output.header.transferId }
    else if output.header.messageType ≠ type then .error { status := .unexpectedMessageType }
    else .ok output

theorem receiveExpectedFrame_bind {α : Type} (type : MessageType) (requestId transferId : UInt64)
    (g : Except FileTransferResult Frame → Sys α) :
    receiveExpectedFrame type requestId transferId >>= g =
      receiveFrame >>= fun r => g (expect type requestId transferId r) := by
  unfold receiveExpectedFrame
  rw [bind_assoc]
  refine congrArg (receiveFrame >>= ·) (funext fun r => ?_)
  cases r with
  | error e => rfl
  | ok f =>
    simp only [expect]
    split
    · rfl
    · split
      · rfl
      · split <;> rfl

theorem expect_ok (type : MessageType) (requestId transferId : UInt64) (f : Frame) :
    (∃ r, expect type requestId transferId (.ok f) = .error r ∧ Objection r) ∨
      expect type requestId transferId (.ok f) = .ok f ∧ f.header.messageType = type := by
  simp only [expect]
  split
  · exact .inl ⟨_, rfl, rfl, by simp, by simp⟩
  · split
    · exact .inl ⟨_, rfl, rfl, by simp, by simp⟩
    · split
      · exact .inl ⟨_, rfl, rfl, by simp, by simp⟩
      · next ht => exact .inr ⟨rfl, not_not.mp ht⟩

theorem expect_same {type : MessageType} {f : Frame} (ht : f.header.messageType = type) :
    expect type f.header.requestId f.header.transferId (.ok f) = .ok f := by
  simp [expect, ht]

theorem refuses_type {m : WireFrame} (h : Refuses m) : m.1.header.messageType = .transferResult ∨
    m.1.header.messageType = .syncResult ∨ m.1.header.messageType = .authResult := by
  unfold Refuses at h
  split at h
  · next he => exact .inl he
  · next he => exact .inr (.inl he)
  · next he => exact .inr (.inr he)
  · exact absurd h id

theorem decodeRemoteResult_code {f : Frame} {code : TransferResultCode}
    (hp : f.payload = encodeTransferResult code) (hc : code ≠ .success) :
    decodeRemoteResult f = { status := .remoteRejected, remoteCode := some code } := by
  simp only [decodeRemoteResult, hp, decodeTransferResult_encode, if_neg hc]

theorem decodeRemoteResult_refused {f : Frame} (h : decodeTransferResult (.of f.payload) ≠ .ok .success) :
    (decodeRemoteResult f).ok = false ∧ (decodeRemoteResult f).status ≠ .frameIoError := by
  unfold decodeRemoteResult
  split
  · exact ⟨rfl, by simp⟩
  · next code hd =>
    rw [hd] at h
    rw [if_neg fun he => h (by rw [he])]
    exact ⟨rfl, by simp⟩

end FileTransfer

namespace Session

/-- The type of the last frame sent. -/
def lastType (l : List net.Event) : Option MessageType := (sent l).getLast?.map (·.1.header.messageType)

/-- The transfer id of the first reply; 0 before there is one. -/
def assignedId (l : List net.Event) : UInt64 := ((received l).head?.map (·.1.header.transferId)).getD 0

theorem lastType_concat (l : List net.Event) (m : WireFrame) (r : net.Res (.send m)) :
    lastType (l ++ [⟨.send m, r⟩]) = some m.1.header.messageType := by
  rw [lastType, sent_append, sent_send, List.getLast?_append_of_ne_nil _ (List.cons_ne_nil _ _)]
  rfl

/-- What the client's frames have in common, and that the first reply let it go on. -/
structure Asking (requestId : UInt64) (l : List net.Event) : Prop where
  ids : ∀ f ∈ sent l, f.1.header.requestId = requestId
  ready : ∀ f ∈ (received l).head?, f.1.header.messageType = .transferReady

theorem Asking.send {requestId : UInt64} {l : List net.Event} (h : Asking requestId l) {m : WireFrame}
    {r : net.Res (.send m)} (hm : m.1.header.requestId = requestId) : Asking requestId (l ++ [⟨.send m, r⟩]) := by
  refine ⟨fun f hf => ?_, by rw [received_append, received_send, List.append_nil]; exact h.ready⟩
  rw [sent_append, sent_send, List.mem_append, List.mem_singleton] at hf
  rcases hf with hf | rfl
  · exact h.ids f hf
  · exact hm

/-- What the client makes of a refusal: it fails, and tells the reason unless it waited for the
acknowledgment of a chunk. -/
structure Answered (requestId : UInt64) (h₀ h : List net.Event) (m : WireFrame)
    (a : FileTransferResult) : Prop where
  failed : a.ok = false
  notIo : a.status ≠ .frameIoError
  reason : ∃ l, h = h₀ ++ l ∧ Asking requestId l ∧
    ∀ code, code ≠ .success → m.1.header.messageType = .transferResult → m.1.payload = encodeTransferResult code →
      m.1.header.requestId = requestId → m.1.header.transferId = assignedId l →
      ((a.status = .remoteRejected ∧ a.remoteCode = some code) ↔ lastType l ≠ some .fileChunk)

/-- The connection is broken. -/
def Cut (a : FileTransferResult) : Prop := ∃ failure : IoFailure, a = frameError failure.result

theorem cut_of_closed {e : ReceiveFailure} (he : closed e) : Cut (frameError e.result) := by
  obtain ⟨failure, rfl⟩ := he
  exact ⟨failure, rfl⟩

/-- How `send_file` leaves the connection. -/
structure Sent (first : Bool) (a : FileTransferResult) (h : List net.Event) : Prop where
  turn : a.ok = true → waits first h = false
  intact : broken h = false → a.status = .frameIoError → a.frameIo.status = .invalidFrame

theorem sent_failed {first : Bool} {a : FileTransferResult} {h : List net.Event} (hf : a.ok = false)
    (hi : a.status ≠ .frameIoError) : Sent first a h :=
  ⟨fun ho => (by rw [hf] at ho; cases ho), fun _ he => absurd he hi⟩

theorem sent_broken {first : Bool} {io : FrameIoResult} {h : List net.Event} (hb : broken h = true) :
    Sent first (frameError io) h :=
  ⟨fun ho => (by cases ho), fun hn => by rw [hb] at hn; cases hn⟩

theorem sent_invalid {first : Bool} {io : FrameIoResult} {h : List net.Event} (hi : io.status = .invalidFrame) :
    Sent first (frameError io) h := ⟨fun ho => (by cases ho), fun _ _ => hi⟩

/-- A stage that raised an error of this kind. -/
def Raised {γ : Type} (P : FileTransferResult → Prop) (x : Except FileTransferResult γ) : Prop :=
  ∃ r, x = .error r ∧ P r

/-- Between two chunks. -/
structure Uploading (first : Bool) (requestId transferId : UInt64) (h₀ h : List net.Event) : Prop where
  turn : waits first h = false
  since : ∃ l, h = h₀ ++ l ∧ Asking requestId l ∧
    ∃ ready rest, received l = ready :: rest ∧ ready.1.header.transferId = transferId

theorem Uploading.assigned {first : Bool} {requestId transferId : UInt64} {h₀ h : List net.Event}
    (H : Uploading first requestId transferId h₀ h) {m : WireFrame} {r : net.Res (.send m)}
    (hm : m.1.header.requestId = requestId) :
    ∃ l, h ++ [⟨.send m, r⟩] = h₀ ++ l ∧ Asking requestId l ∧ assignedId l = transferId ∧
      lastType l = some m.1.header.messageType := by
  obtain ⟨l, rfl, hask, ready, rest, hr, hid⟩ := H.since
  refine ⟨l ++ [⟨.send m, r⟩], by simp, hask.send hm, ?_, lastType_concat l m r⟩
  simp [assignedId, hr, hid]

/-- The next reply after a frame of the transfer. -/
theorem Uploading.replied {first : Bool} {requestId transferId : UInt64} {h₀ h : List net.Event}
    (H : Uploading first requestId transferId h₀ h) {m f : WireFrame} {r : net.Res (.send m)}
    (hm : m.1.header.requestId = requestId) :
    Uploading first requestId transferId h₀ (h ++ [⟨.send m, r⟩] ++ [⟨.recv, .ok f⟩]) := by
  obtain ⟨l, rfl, hask, ready, rest, hr, hid⟩ := H.since
  have hask' := hask.send (r := r) hm
  refine ⟨waits_concat_ok, l ++ [⟨.send m, r⟩] ++ [⟨.recv, .ok f⟩], by simp, ⟨?_, ?_⟩, ready, rest ++ [f], ?_, hid⟩
  · intro g hg
    rw [sent_append, sent_recv, List.append_nil] at hg
    exact hask'.ids g hg
  · intro g hg
    have hready := hask.ready
    rw [hr] at hready
    rw [received_append, received_append, received_send, hr] at hg
    exact hready g hg
  · rw [received_append, received_append, received_send, hr, List.append_nil, received_ok]
    rfl

section Client
variable {first : Bool} {requestId transferId : UInt64} {h₀ h : List net.Event}

/-- The stages of the client inside `sendFile`. -/
abbrev HeedsRaised (first : Bool) (requestId : UInt64) (h₀ : List net.Event) {γ : Type} :
    Watch net.sig (List net.Event) (Except FileTransferResult γ) :=
  Heeds first (fun h m => Raised (Answered requestId h₀ h m)) (Raised Cut)

/-- How such a stage leaves the connection. -/
def Left (first : Bool) (requestId transferId : UInt64) (h₀ : List net.Event) {γ : Type} :
    Except FileTransferResult γ → List net.Event → Prop
  | .error r, h => r.ok = false ∧ Sent first r h
  | .ok _, h => Uploading first requestId transferId h₀ h

theorem sendChunk_heeds (H : Uploading first requestId transferId h₀ h) (offset : UInt64) (data : List UInt8) :
    Converses (HeedsRaised first requestId h₀) (sendChunk requestId transferId offset data) h fun x h =>
      Left first requestId transferId h₀ x h ∧
        ∀ offset', x = .ok offset' → offset' = offset + UInt64.ofNat data.length := by
  have hno : ∀ r offset', (.error r : Except FileTransferResult UInt64) = .ok offset' →
      offset' = offset + UInt64.ofNat data.length := fun _ _ he => nomatch he
  unfold sendChunk
  refine heeds_ask H.turn (fun res hres => ?_) (fun n => receiveExpectedFrame_bind _ _ _ _) (fun failure => ?_)
    (fun e => ⟨_, rfl, fun he => ⟨_, rfl, cut_of_closed he⟩, fun l hl => ⟨⟨rfl, sent_broken hl⟩, hno _⟩⟩)
    (fun hf m hm => ?_) fun hf m => ?_
  · rw [if_neg (by rw [FrameIoResult.ok, hres]; decide)]
    exact converses_pure ⟨⟨rfl, sent_invalid hres⟩, hno _⟩
  · refine ⟨.error (frameError failure.result), ?_, ⟨_, rfl, failure, rfl⟩, fun l hl =>
      ⟨⟨rfl, sent_broken hl⟩, hno _⟩⟩
    cases failure <;> rfl
  · -- every refusal is of another type
    obtain ⟨l, hl, hask, hid, hlast⟩ := H.assigned (m := ⟨_, hf⟩) (r := .ok ()) rfl
    rcases expect_ok .acknowledgment requestId transferId m.1 with ⟨r, he, hr⟩ | ⟨-, ht⟩
    · simp only [he]
      refine ⟨_, rfl, r, rfl, hr.failed, hr.notIo, l, hl, hask, fun code _ _ _ _ _ => ?_⟩
      rw [hlast]
      exact iff_of_false (fun hn => hr.notRemote hn.1) fun hn => hn rfl
    · rcases refuses_type hm with h | h | h <;> (rw [h] at ht; cases ht)
  · rcases expect_ok .acknowledgment requestId transferId m.1 with ⟨r, he, hr⟩ | ⟨he, -⟩
    · simp only [he]
      exact converses_pure ⟨⟨hr.failed, sent_failed hr.failed hr.notIo⟩, hno _⟩
    · simp only [he]
      split
      · exact converses_pure ⟨⟨rfl, sent_failed rfl (by simp)⟩, hno _⟩
      · split
        · exact converses_pure ⟨⟨rfl, sent_failed rfl (by simp)⟩, hno _⟩
        · exact converses_pure ⟨H.replied rfl, fun _ he => (Except.ok.inj he).symm⟩

/-- A chunk that was read as asked for and is not empty leaves less to send. -/
theorem left_of_chunk {offset fileSize : UInt64} {size bufferSize : Nat} (hlt : offset < fileSize)
    (hdata : ¬ (size = 0 ∨ size ≠ min (fileSize - offset).toNat bufferSize)) :
    fileSize.toNat - (offset + UInt64.ofNat size).toNat < fileSize.toNat - offset.toNat := by
  have hlt' := UInt64.lt_iff_toNat_lt.mp hlt
  have hsub : (fileSize - offset).toNat = fileSize.toNat - offset.toNat :=
    UInt64.toNat_sub_of_le _ _ (UInt64.le_of_lt hlt)
  obtain ⟨hne, hlen⟩ := not_or.mp hdata
  have hfit : offset.toNat + size ≤ fileSize.toNat := by
    rw [not_not.mp hlen]
    omega
  rw [toNat_advance hfit]
  omega

theorem sendChunks_heeds (H : Uploading first requestId transferId h₀ h) (fileSize : UInt64) (input : Fd)
    (bufferSize : Nat) (offset : UInt64) :
    Converses (HeedsRaised first requestId h₀)
      (sendChunks requestId transferId fileSize input bufferSize offset) h
      (Left first requestId transferId h₀) := by
  refine heeds_iter (fun _ => Uploading first requestId transferId h₀)
    (fun offset => fileSize.toNat - offset.toNat)
    (fun offset h H => ?_) H
  split
  · next hlt =>
    refine heeds_sys rfl fun r => ?_
    cases r with
    | error e => exact converses_pure ⟨rfl, sent_failed rfl (by simp)⟩
    | ok data =>
      simp only
      split
      · exact converses_pure ⟨rfl, sent_failed rfl (by simp)⟩
      · next hdata =>
        refine heeds_bind (sendChunk_heeds H _ _) ?_ ?_ fun x h' hx => ?_
        · rintro h m x ⟨r, rfl, hr⟩
          exact ⟨_, rfl, _, rfl, r, rfl, hr⟩
        · rintro x ⟨r, rfl, hr⟩
          exact ⟨_, rfl, _, rfl, r, rfl, hr⟩
        · cases x with
          | error r => exact converses_pure hx.1
          | ok offset' =>
            refine converses_pure ⟨hx.1, ?_⟩
            rw [hx.2 offset' rfl]
            exact left_of_chunk hlt hdata
  · exact converses_pure H

/-- The client as a whole. -/
abbrev HeedsUpload (first : Bool) (requestId : UInt64) (h₀ : List net.Event) :
    Watch net.sig (List net.Event) FileTransferResult := Heeds first (Answered requestId h₀) Cut

theorem sendFrom_heeds (H : Uploading first requestId transferId h₀ h) (metadata : UploadMetadata)
    (limits : TransferLimits) (input : Fd) (resumedFrom : UInt64) :
    Converses (HeedsUpload first requestId h₀)
      (sendFrom requestId transferId metadata limits input resumedFrom) h (Sent first) := by
  refine heeds_bind (sendChunks_heeds H _ _ _ _) ?_ ?_ fun x h' hx => ?_
  · rintro h m x ⟨r, rfl, hr⟩
    exact ⟨r, rfl, hr⟩
  · rintro x ⟨r, rfl, hr⟩
    exact ⟨r, rfl, hr⟩
  · cases x with
    | error r => exact converses_pure hx.2
    | ok offset =>
      replace hx : Uploading first requestId transferId h₀ h' := hx
      refine heeds_ask hx.turn (fun res hres => ?_) (fun n => receiveExpectedFrame_bind _ _ _ _)
        (fun failure => ?_)
        (fun e => ⟨_, rfl, cut_of_closed, fun l hl => sent_broken hl⟩) (fun hf m hm => ?_) fun hf m => ?_
      · rw [if_neg (by rw [FrameIoResult.ok, hres]; decide)]
        exact converses_pure (sent_invalid hres)
      · refine ⟨frameError failure.result, ?_, ⟨failure, rfl⟩, fun l hl => sent_broken hl⟩
        cases failure <;> rfl
      · obtain ⟨l, hl, hask, hid, hlast⟩ := hx.assigned (m := ⟨_, hf⟩) (r := .ok ()) rfl
        have hother : lastType l ≠ some .fileChunk := by rw [hlast]; rintro ⟨⟩
        rcases expect_ok .transferResult requestId transferId m.1 with ⟨r, he, hr⟩ | ⟨he, ht⟩
        · simp only [he]
          refine ⟨_, rfl, hr.failed, hr.notIo, l, hl, hask, fun code _ ht _ hm1 hm2 => ?_⟩
          have hsame := expect_same ht
          rw [hm1, hm2, hid, he] at hsame
          cases hsame
        · simp only [he]
          have hcode : decodeTransferResult (.of m.1.payload) ≠ .ok .success := by
            unfold Refuses at hm
            rwa [ht] at hm
          obtain ⟨hfail, hio⟩ := decodeRemoteResult_refused hcode
          refine ⟨_, rfl, hfail, hio, l, hl, hask, fun code hc _ hp _ _ => iff_of_true ?_ hother⟩
          rw [decodeRemoteResult_code hp hc]
          exact ⟨rfl, rfl⟩
      · rcases expect_ok .transferResult requestId transferId m.1 with ⟨r, he, hr⟩ | ⟨he, -⟩
        · simp only [he]
          exact converses_pure (sent_failed hr.failed hr.notIo)
        · simp only [he]
          exact converses_pure ⟨fun _ => waits_concat_ok, fun _ hio => absurd hio (decodeRemoteResult_notIo m.1)⟩

theorem resumeTransfer_heeds (H : Uploading first requestId transferId h₀ h) (path : Path)
    (metadata : UploadMetadata) {limits : TransferLimits} (hb : 0 < limits.chunkSize)
    (checkpoint : TransferReady) :
    Converses (HeedsUpload first requestId h₀)
      (resumeTransfer path requestId transferId metadata limits checkpoint) h (Sent first) := by
  refine heeds_sys rfl fun r => ?_
  cases r with
  | error e => exact converses_pure (sent_failed rfl (by simp))
  | ok input =>
    refine heeds_does ⟨gives_readSourcePrefix _ _ _, readSourcePrefix_returns _ _ hb⟩ fun r hr => ?_
    cases r with
    | error r => exact converses_pure (sent_failed (hr r rfl).failed (hr r rfl).notIo)
    | ok checksum =>
      dsimp only
      generalize (if checksum.value = checkpoint.prefixChecksum then checkpoint.offset else 0) = resumedFrom
      split
      · refine heeds_sys rfl fun r => ?_
        cases r with
        | error e => exact converses_pure (sent_failed rfl (by simp))
        | ok _ => exact sendFrom_heeds H _ _ _ _
      · exact sendFrom_heeds H _ _ _ _

/-- A refusal of the upload itself. -/
theorem onReady_refused (path : Path) (requestId : UInt64) (metadata : UploadMetadata) (limits : TransferLimits)
    {m : WireFrame} (hm : Refuses m) :
    ∃ a, onReady path requestId metadata limits m.1 = .pure a ∧ a.ok = false ∧ a.status ≠ .frameIoError ∧
      ∀ code, code ≠ .success → m.1.header.messageType = .transferResult →
        m.1.payload = encodeTransferResult code →
        m.1.header.requestId = requestId → m.1.header.transferId = 0 →
        a.status = .remoteRejected ∧ a.remoteCode = some code := by
  unfold onReady
  split
  · next hid => exact ⟨_, rfl, rfl, by simp, fun _ _ _ _ h _ => absurd h hid⟩
  · split
    · next ht =>
      split
      · next hid => exact ⟨_, rfl, rfl, by simp, fun _ _ _ _ _ h => absurd h hid⟩
      · have hcode : decodeTransferResult (.of m.1.payload) ≠ .ok .success := by
          unfold Refuses at hm
          rwa [ht] at hm
        obtain ⟨hfail, hio⟩ := decodeRemoteResult_refused hcode
        dsimp only
        rw [if_neg (by rw [hfail]; simp)]
        refine ⟨_, rfl, hfail, hio, fun code hc _ hp _ _ => ?_⟩
        rw [decodeRemoteResult_code hp hc]
        exact ⟨rfl, rfl⟩
    · next ht =>
      have hready : m.1.header.messageType ≠ .transferReady := by
        rcases refuses_type hm with h | h | h <;> (rw [h]; rintro ⟨⟩)
      rw [if_pos hready]
      exact ⟨_, rfl, rfl, by simp, fun _ _ h => absurd h ht⟩

theorem onReady_heeds (request m : WireFrame) (requestId : UInt64) (hr : request.1.header.requestId = requestId)
    (path : Path) (metadata : UploadMetadata) {limits : TransferLimits} (hb : 0 < limits.chunkSize) :
    Converses (HeedsUpload first requestId h₀) (onReady path requestId metadata limits m.1)
      (h₀ ++ [⟨.send request, .ok ()⟩] ++ [⟨.recv, .ok m⟩]) (Sent first) := by
  rcases onReady_cases path requestId metadata limits m.1 with ⟨r, hdeclined, he⟩ | ⟨checkpoint, hoffered, he⟩
  · rw [he]
    exact converses_pure (sent_failed hdeclined.failed hdeclined.notIo)
  · rw [he]
    refine resumeTransfer_heeds ⟨waits_concat_ok, [⟨.send request, .ok ()⟩, ⟨.recv, .ok m⟩], ?_, ⟨?_, ?_⟩,
      m, [], rfl, rfl⟩ _ _ hb _
    · rw [List.append_assoc]; rfl
    · intro f hf
      obtain rfl : f = request := List.mem_singleton.mp hf
      exact hr
    · intro f hf
      obtain rfl : m = f := Option.some.inj hf
      exact hoffered.type

theorem sendFile_heeds (hturn : waits first h₀ = false) (path : Path) (name : List UInt8) (requestId : UInt64)
    (limits : TransferLimits) :
    Converses (HeedsUpload first requestId h₀) (sendFile path name requestId limits) h₀
      (Sent first) := by
  rcases sendFile_cases path name requestId limits with ⟨r, hdeclined, he⟩ | ⟨⟨-, -, hlimits⟩, he⟩
  · rw [he]
    exact converses_pure (sent_failed hdeclined.failed hdeclined.notIo)
  · rw [he]
    simp only [validLimits, Bool.and_eq_true, decide_eq_true_eq] at hlimits
    refine heeds_does (readSourceMetadata_does _ _) fun r hr => ?_
    cases r with
    | error r => exact converses_pure (sent_failed (hr r rfl).failed (hr r rfl).notIo)
    | ok found =>
      refine heeds_ask hturn (fun res hres => ?_) (fun n => rfl) (fun failure => ?_)
        (fun e => ⟨_, rfl, cut_of_closed, fun l hl => sent_broken hl⟩) (fun hf m hm => ?_)
        fun hf m => onReady_heeds ⟨_, hf⟩ m requestId rfl _ _ hlimits.1
      · rw [if_neg (by rw [FrameIoResult.ok, hres]; decide)]
        exact converses_pure (sent_invalid hres)
      · refine ⟨frameError failure.result, ?_, ⟨failure, rfl⟩, fun l hl => sent_broken hl⟩
        cases failure <;> rfl
      · obtain ⟨a, ha, hfail, hio, hcode⟩ := onReady_refused path requestId
          { filename := name, fileSize := found.1, checksum := found.2 } limits hm
        refine ⟨a, ha, hfail, hio, [⟨.send ⟨_, hf⟩, .ok ()⟩], rfl, ⟨fun f hf' => ?_, (by rintro f ⟨⟩)⟩,
          fun code hc ht hp h1 h2 => iff_of_true (hcode code hc ht hp h1 h2) (by rintro ⟨⟩)⟩
        obtain rfl : f = _ := List.mem_singleton.mp hf'
        rfl

/-- The client's own files stay as they are. -/
theorem sendFile_reads (path : Path) (name : List UInt8) (requestId : UInt64) (limits : TransferLimits) :
    Uses Reading (sendFile path name requestId limits) :=
  heeds_reads (@sendFile_heeds true [] rfl path name requestId limits)

end Client

/-! ## The server -/

/-- The ids of a reply, after `inbound` was received in the transfer. -/
def ReplyTo (requestId : UInt64) (inbound : List WireFrame) (m : WireFrame) : Prop :=
  m.1.header.requestId = requestId ∧
    m.1.header.transferId = if m.1.header.messageType = .transferResult ∧ inbound = [] then 0 else requestId

/-- How `receive_file` leaves the connection: it has answered, or the connection is broken; after a success the
client is next, and a failure is behind a refusal if it is behind a reply. -/
structure Served (first : Bool) (requestId : UInt64) (h₀ : List net.Event) (a : FileTransferResult)
    (h : List net.Event) : Prop where
  turn : waits first h = true
  intact : a.ok = true → broken h = false
  refused : a.ok = false → ∀ m, h.getLast? = some ⟨.send m, .ok ()⟩ → Refuses m
  replies : ∃ l, h = h₀ ++ l ∧ (∀ m ∈ sent l, ReplyTo requestId (received l) m) ∧ Completes a.ok (received l)

/-- No final answer was given, and none asked for. -/
def Open (requestId : UInt64) (h₀ h : List net.Event) : Prop :=
  ∃ l, h = h₀ ++ l ∧ (∀ m ∈ sent l, m.1.header.messageType ≠ .transferResult ∧ m.1.header.requestId = requestId ∧
    m.1.header.transferId = requestId) ∧ .transferComplete ∉ types (received l)

/-- A frame was received and not answered. -/
def Heard (requestId : UInt64) (h₀ : List net.Event) (m : WireFrame) (h : List net.Event) : Prop :=
  ∃ h', Open requestId h₀ h' ∧ h = h' ++ [⟨.recv, .ok m⟩]

/-- A frame was answered and the next one is awaited. -/
structure Listening (first : Bool) (requestId : UInt64) (h₀ h : List net.Event) : Prop where
  isOpen : Open requestId h₀ h
  turn : waits first h = true
  intact : broken h = false

section Server
variable {first : Bool} {requestId : UInt64} {h₀ h : List net.Event} {m : WireFrame}

theorem open_start : Open requestId h₀ h₀ := ⟨[], by simp, (by rintro m ⟨⟩), (by rintro ⟨⟩)⟩

theorem Open.lost (H : Open requestId h₀ h) (e : ReceiveFailure) :
    Open requestId h₀ (h ++ [⟨.recv, .error e⟩]) := by
  obtain ⟨l, rfl, hl, hin⟩ := H
  refine ⟨l ++ [⟨.recv, .error e⟩], by simp, ?_, ?_⟩
  · rwa [sent_append, sent_recv, List.append_nil]
  · rwa [received_append, received_error, List.append_nil]

theorem Open.send (H : Open requestId h₀ h) {m : WireFrame} (r : net.Res (.send m))
    (hm : m.1.header.messageType ≠ .transferResult) (h1 : m.1.header.requestId = requestId)
    (h2 : m.1.header.transferId = requestId) : Open requestId h₀ (h ++ [⟨.send m, r⟩]) := by
  obtain ⟨l, rfl, hl, hin⟩ := H
  refine ⟨l ++ [⟨.send m, r⟩], by simp, fun f hf => ?_, by rwa [received_append, received_send, List.append_nil]⟩
  rw [sent_append, sent_send, List.mem_append, List.mem_singleton] at hf
  rcases hf with hf | rfl
  · exact hl f hf
  · exact ⟨hm, h1, h2⟩

theorem Heard.isOpen (H : Heard requestId h₀ m h) (hm : m.1.header.messageType ≠ .transferComplete) :
    Open requestId h₀ h := by
  obtain ⟨h', ⟨l, rfl, hl, hin⟩, rfl⟩ := H
  refine ⟨l ++ [⟨.recv, .ok m⟩], by simp, by rwa [sent_append, sent_recv, List.append_nil], ?_⟩
  rw [received_append, received_ok, types, List.map_append, List.mem_append, not_or]
  exact ⟨hin, fun hf => hm (List.mem_singleton.mp hf).symm⟩

theorem Heard.turn (H : Heard requestId h₀ m h) : waits first h = false := by
  obtain ⟨h', -, rfl⟩ := H
  exact waits_concat_ok

theorem Open.served (H : Open requestId h₀ h) {a : FileTransferResult} (ha : a.ok = false)
    (hturn : waits first h = true) (hlast : ∀ m, h.getLast? ≠ some ⟨.send m, .ok ()⟩) :
    Served first requestId h₀ a h := by
  obtain ⟨l, rfl, hl, hin⟩ := H
  refine ⟨hturn, fun ho => (by rw [ha] at ho; cases ho), fun _ m hm => absurd hm (hlast m), l, rfl,
    fun m hm => ⟨(hl m hm).2.1, ?_⟩, fun hm => hin (List.mem_of_mem_dropLast hm),
    fun ho => (by rw [ha] at ho; cases ho)⟩
  rw [if_neg fun hn => (hl m hm).1 hn.1]
  exact (hl m hm).2.2

theorem refuses_result {requestId transferId : UInt64} {code : TransferResultCode} (hc : code ≠ .success)
    (hv : (makeFrame .transferResult requestId transferId (encodeTransferResult code)).Valid) :
    Refuses ⟨_, hv⟩ := by
  change decodeTransferResult (.of (encodeTransferResult code)) ≠ _
  rw [decodeTransferResult_encode]
  exact fun h => hc (Except.ok.inj h)

theorem last_unsent {m m' : WireFrame} {e : IoFailure} :
    (h ++ [(⟨.send m', .error e⟩ : net.Event)]).getLast? ≠ some ⟨.send m, .ok ()⟩ := by
  rw [List.getLast?_concat]
  intro he
  cases he

theorem last_recv {m : WireFrame} {r : net.Res .recv} :
    (h ++ [(⟨.recv, r⟩ : net.Event)]).getLast? ≠ some ⟨.send m, .ok ()⟩ := by
  rw [List.getLast?_concat]
  intro he
  cases he

theorem result_valid (requestId transferId : UInt64) (code : TransferResultCode) :
    (makeFrame .transferResult requestId transferId (encodeTransferResult code)).Valid :=
  makeFrame_valid rfl (by simp [encodeTransferResult])

/-- The final answer: a failure if it is not `Success`. -/
theorem sendResult_polite {transferId : UInt64} {code : TransferResultCode} {result : FileTransferResult}
    (hturn : waits first h = false) (hcode : result.ok = false → code ≠ .success)
    (hrep : ∀ (hv) (r : net.Res (.send ⟨_, hv⟩)), ∃ l,
      h ++ [⟨.send ⟨makeFrame .transferResult requestId transferId (encodeTransferResult code), hv⟩,
        r⟩] = h₀ ++ l ∧ (∀ m ∈ sent l, ReplyTo requestId (received l) m) ∧ Completes result.ok (received l)) :
    Converses (Polite first) (sendResult requestId transferId code >>= fun sent =>
      if sent.ok = true then pure result else pure (frameError sent)) h (Served first requestId h₀) := by
  refine converses_sendValid (result_valid _ _ _) hturn fun r => ?_
  cases r with
  | error e =>
    rw [sendOutcome_error_ok, if_neg (by simp)]
    obtain ⟨l, hl, hreply, hin, -⟩ := hrep (result_valid _ _ _) (.error e)
    exact converses_pure ⟨waits_concat_send, fun ho => (by cases ho), fun _ m hm => absurd hm last_unsent,
      l, hl, hreply,
      hin, fun ho => (by cases ho)⟩
  | ok _ =>
    refine converses_pure ⟨waits_concat_send, fun _ => broken_concat_sent, fun hf m hm => ?_, hrep _ _⟩
    rw [List.getLast?_concat] at hm
    cases hm
    exact refuses_result (hcode hf) _

/-- A transfer result is a reply to the frame before it. -/
theorem Heard.replies (H : Heard requestId h₀ m h) {ok : Bool}
    (hm : ok = true → m.1.header.messageType = .transferComplete) {f : WireFrame} (r : net.Res (.send f))
    (h1 : f.1.header.requestId = requestId) (h2 : f.1.header.transferId = requestId) :
    ∃ l, h ++ [⟨.send f, r⟩] = h₀ ++ l ∧ (∀ f ∈ sent l, ReplyTo requestId (received l) f) ∧
      Completes ok (received l) := by
  obtain ⟨h', ⟨l, rfl, hl, hin⟩, rfl⟩ := H
  have hreceived : received (l ++ [⟨.recv, .ok m⟩] ++ [⟨.send f, r⟩]) = received l ++ [m] := by
    rw [received_append, received_append, received_ok, received_send, List.append_nil]
  refine ⟨l ++ [⟨.recv, .ok m⟩] ++ [⟨.send f, r⟩], by simp, fun g hg => ?_, ?_⟩
  · rw [sent_append, sent_append, sent_recv, sent_send, List.append_nil, List.mem_append, List.mem_singleton] at hg
    unfold ReplyTo
    rw [hreceived, if_neg fun hn => (by simp at hn)]
    rcases hg with hg | rfl
    · exact (hl g hg).2
    · exact ⟨h1, h2⟩
  · rw [hreceived]
    refine ⟨?_, fun ho => ?_⟩ <;> rw [types, List.map_append, List.map_singleton]
    · rwa [List.dropLast_concat]
    · rw [List.getLast?_concat, hm ho]

theorem isCall_cleanup (t : Transfer) (committed : Bool) : Issues IsCall (cleanup t committed) :=
  (local_cleanup t committed).widen isCall_of_local

theorem rejectTransfer_polite {t : Transfer} (H : Heard t.requestId h₀ m h) (committed : Bool)
    {result : FileTransferResult} (hres : result.ok = false) :
    Converses (Polite first) (rejectTransfer t committed result) h (Served first t.requestId h₀) := by
  refine polite_does (isCall_cleanup t committed) fun _ _ => ?_
  refine sendResult_polite H.turn (fun _ => resultCodeForStatus_ne_success _) fun hv r => ?_
  exact H.replies (fun ho => by rw [hres] at ho; cases ho) r rfl rfl

theorem rejectBeforeReady_polite (hturn : waits first h₀ = false) {result : FileTransferResult}
    (hres : result.ok = false) :
    Converses (Polite first) (rejectBeforeReady requestId result) h₀ (Served first requestId h₀) := by
  refine sendResult_polite hturn (fun _ => resultCodeForStatus_ne_success _) fun hv r => ?_
  refine ⟨[⟨.send ⟨_, hv⟩, r⟩], rfl, fun f hf => ?_, (by rintro ⟨⟩), fun ho => by rw [hres] at ho; cases ho⟩
  obtain rfl : f = _ := List.mem_singleton.mp hf
  exact ⟨rfl, by rw [if_pos ⟨rfl, rfl⟩]; rfl⟩

theorem interrupted_polite {t : Transfer} (H : Open t.requestId h₀ h) (hturn : waits first h = true)
    (hlast : ∀ m, h.getLast? ≠ some ⟨.send m, .ok ()⟩) (offset resumedFrom : UInt64) (io : FrameIoResult) :
    Converses (Polite first) (interrupted t offset resumedFrom io) h (Served first t.requestId h₀) := by
  unfold interrupted
  dsimp only
  split
  · refine polite_sys fun r => ?_
    cases r with
    | ok _ => exact converses_pure (H.served rfl hturn hlast)
    | error e =>
      refine polite_does (isCall_cleanup t false) fun _ _ => ?_
      exact converses_pure (H.served rfl hturn hlast)
  · refine polite_does (isCall_cleanup t false) fun _ _ => ?_
    exact converses_pure (H.served rfl hturn hlast)

/-- How the receiving loop is left. -/
def Exits (first : Bool) (requestId : UInt64) (h₀ : List net.Event) :
    Except FileTransferResult Progress → List net.Event → Prop
  | .error a, h => Served first requestId h₀ a h
  | .ok _, h => ∃ m : WireFrame, Heard requestId h₀ m h ∧ m.1.header.messageType = .transferComplete

/-- What the loop can still store, and once more if it may go back to offset 0. -/
def leftToStore (t : Transfer) (p : Progress) : Nat :=
  (if p.firstChunk then 2 ^ 64 else 0) + (t.metadata.fileSize.toNat - p.offset.toNat)

/-- A chunk that fits and is not empty leaves less to store. -/
theorem leftToStore_store {t : Transfer} {p p' : Progress} {chunk : FileChunk} (hpos : 0 < chunk.data.length)
    (hfirst : p'.firstChunk = false) (hoffset : p.firstChunk = false → p'.offset = p.offset)
    (hfits : t.Fits p' chunk) (checksum : Crc32) :
    leftToStore t { p' with offset := p'.offset + UInt64.ofNat chunk.data.length, checksum } <
      leftToStore t p := by
  have hsub := UInt64.toNat_sub_of_le _ _ hfits.inside
  have hle := UInt64.le_iff_toNat_le.mp hfits.inside
  have hroom := hfits.room
  have hsize := t.metadata.fileSize.toNat_lt
  have hadvance : p'.offset.toNat + chunk.data.length ≤ t.metadata.fileSize.toNat := by omega
  simp only [leftToStore, hfirst, toNat_advance hadvance]
  cases hp : p.firstChunk with
  | true =>
    simp only [Bool.false_eq_true, if_false, if_true]
    omega
  | false =>
    rw [← hoffset hp]
    simp only [Bool.false_eq_true, if_false]
    omega

/-- After one turn of it, which leaves less to store if it goes on. -/
def Turned (first : Bool) (t : Transfer) (p : Progress) (h₀ : List net.Event)
    (x : Progress ⊕ Except FileTransferResult Progress) (h : List net.Event) : Prop :=
  x.elim (fun p' => Listening first t.requestId h₀ h ∧ leftToStore t p' < leftToStore t p)
    fun b => Exits first t.requestId h₀ b h

/-- A turn that fails. -/
theorem turned_error {t : Transfer} {p : Progress} {q : Sys FileTransferResult}
    (hq : Converses (Polite first) q h (Served first t.requestId h₀)) :
    Converses (Polite first) (q >>= fun a => pure (.inr (.error a))) h (Turned first t p h₀) :=
  polite_bind hq fun _ _ ha => converses_pure ha

theorem storeChunk_polite {t : Transfer} (H : Heard t.requestId h₀ m h)
    (hm : m.1.header.messageType ≠ .transferComplete) {p p' : Progress} {chunk : FileChunk}
    (hless : ∀ checksum,
      leftToStore t { p' with offset := p'.offset + UInt64.ofNat chunk.data.length, checksum } < leftToStore t p) :
    Converses (Polite first) (storeChunk t p' chunk) h (Turned first t p h₀) := by
  refine polite_does (isCall_writeAll _ _) fun r hr => ?_
  cases r with
  | error r => exact turned_error (rejectTransfer_polite H _ (hr r rfl))
  | ok _ =>
    refine polite_sys fun r => ?_
    cases r with
    | error e => exact turned_error (rejectTransfer_polite H _ rfl)
    | ok _ =>
      refine polite_sys fun r => ?_
      cases r with
      | error e => exact turned_error (rejectTransfer_polite H _ rfl)
      | ok _ =>
        have hv : (makeFrame .acknowledgment t.requestId t.transferId
            (encodeOffset (p'.offset + UInt64.ofNat chunk.data.length))).Valid :=
          makeFrame_valid rfl (by simp [encodeOffset])
        refine converses_sendValid hv H.turn fun r => ?_
        have hopen := (H.isOpen hm).send (m := ⟨_, hv⟩) r (by rintro ⟨⟩) rfl rfl
        cases r with
        | ok _ => exact converses_pure ⟨⟨hopen, waits_concat_send, broken_concat_sent⟩, hless _⟩
        | error e =>
          rw [if_neg (by rw [sendOutcome_error_ok]; simp)]
          exact turned_error (interrupted_polite hopen waits_concat_send (fun _ => last_unsent) _ _ _)

theorem onChunk_polite {t : Transfer} (H : Heard t.requestId h₀ m h)
    (hm : m.1.header.messageType ≠ .transferComplete) (p : Progress) {chunk : FileChunk}
    (hpos : 0 < chunk.data.length) :
    Converses (Polite first) (onChunk t p chunk) h (Turned first t p h₀) := by
  refine polite_does ((local_restart t p chunk).widen isCall_of_local) fun r hr => ?_
  cases r with
  | error r => exact turned_error (rejectTransfer_polite H _ (hr.fails r rfl))
  | ok p' =>
    obtain ⟨hfirst, hoffset⟩ := hr.goesOn p' rfl
    dsimp only
    rcases placeChunk_cases t p' chunk with ⟨r, hr, he⟩ | ⟨hfits, he⟩
    · rw [he]
      exact turned_error (rejectTransfer_polite H _ hr)
    · rw [he]
      exact storeChunk_polite H hm (leftToStore_store hpos hfirst hoffset hfits)

theorem length_data_pos {payload : Span} {chunk : FileChunk} (h : decodeFileChunk payload = .ok chunk) :
    0 < chunk.data.length := by
  unfold decodeFileChunk at h
  split at h
  · cases h
  · split at h
    · cases h
    · obtain rfl := Except.ok.inj h
      rw [Span.length_slice]
      omega

theorem onFrame_polite {t : Transfer} (H : Heard t.requestId h₀ m h) (p : Progress) :
    Converses (Polite first) (onFrame t p m.1) h (Turned first t p h₀) := by
  rcases onFrame_cases t p m.1 with ⟨r, hr, he⟩ | ⟨hm, he⟩ | ⟨chunk, ⟨-, -, ht, hchunk⟩, he⟩
  · rw [he]
    exact turned_error (rejectTransfer_polite H _ hr)
  · rw [he]
    exact converses_pure ⟨m, H, hm⟩
  · rw [he]
    exact onChunk_polite H (by rw [ht]; simp) p (length_data_pos hchunk)

theorem receiveChunks_polite {t : Transfer} (H : Listening first t.requestId h₀ h) (p : Progress) :
    Converses (Polite first) (receiveChunks t p) h (Exits first t.requestId h₀) := by
  refine concludes_iter unrestricted_chat (fun _ => Listening first t.requestId h₀) (leftToStore t)
    (fun p h H => ?_) H
  refine converses_receive ⟨H.turn, H.intact⟩ (fun failure => ?_) fun m => onFrame_polite ⟨h, H.isOpen, rfl⟩ p
  exact turned_error (interrupted_polite (H.isOpen.lost _) waits_concat_error (fun _ => last_recv) _ _ _)

theorem finish_polite {t : Transfer} (H : Heard t.requestId h₀ m h)
    (hm : m.1.header.messageType = .transferComplete) (p : Progress) :
    Converses (Polite first) (finish t p) h (Served first t.requestId h₀) := by
  refine polite_does ((local_syncDirectories t).widen isCall_of_local) fun r _ => ?_
  cases r with
  | error e => exact rejectTransfer_polite H _ rfl
  | ok _ => exact sendResult_polite H.turn (fun hf => nomatch hf) fun hv r => H.replies (fun _ => hm) r rfl rfl

theorem commit_polite {t : Transfer} (H : Heard t.requestId h₀ m h)
    (hm : m.1.header.messageType = .transferComplete) (p : Progress) :
    Converses (Polite first) (commit t p) h (Served first t.requestId h₀) := by
  rcases commit_cases t p with ⟨r, hr, he⟩ | ⟨-, he⟩
  · rw [he]
    exact rejectTransfer_polite H _ hr
  · rw [he]
    refine polite_sys fun r => ?_
    cases r with
    | error e => exact rejectTransfer_polite H _ rfl
    | ok _ =>
      refine polite_sys fun r => ?_
      cases r with
      | error e => exact rejectTransfer_polite H _ rfl
      | ok _ => exact finish_polite H hm p

theorem receiveBody_polite {t : Transfer} (hturn : waits first h₀ = false) (checksum : Crc32) (offset : UInt64) :
    Converses (Polite first) (receiveBody t checksum offset) h₀ (Served first t.requestId h₀) := by
  have hv : (makeFrame .transferReady t.requestId t.transferId
      (encodeTransferReady ⟨offset, checksum.value⟩)).Valid :=
    makeFrame_valid rfl (by simp [encodeTransferReady, encodeOffset])
  refine converses_sendValid hv hturn fun r => ?_
  have hopen : Open t.requestId h₀ (h₀ ++ [⟨.send ⟨_, hv⟩, r⟩]) := open_start.send r (by rintro ⟨⟩) rfl rfl
  cases r with
  | error e =>
    rw [if_neg (by rw [sendOutcome_error_ok]; simp)]
    exact interrupted_polite hopen waits_concat_send (fun _ => last_unsent) _ _ _
  | ok _ =>
    refine polite_bind (receiveChunks_polite ⟨hopen, waits_concat_send, broken_concat_sent⟩ _) fun x h hx => ?_
    cases x with
    | error a => exact converses_pure hx
    | ok p =>
      obtain ⟨m, H, hm⟩ := hx
      exact commit_polite H hm p

theorem receivePart_polite {t : Transfer} (hturn : waits first h₀ = false) :
    Converses (Polite first) (receivePart t) h₀ (Served first t.requestId h₀) := by
  refine polite_does ((checkPart_issues _).widen isCall_of_read) fun r _ => ?_
  cases r with
  | error _ => exact rejectBeforeReady_polite hturn rfl
  | ok size =>
    refine polite_does ((local_trimPart _ _ _).widen isCall_of_local) fun r _ => ?_
    cases r with
    | error e => exact rejectBeforeReady_polite hturn rfl
    | ok offset =>
      refine polite_does ((local_readPartialPrefix _ _).widen isCall_of_local) fun r _ => ?_
      cases r with
      | none => exact rejectBeforeReady_polite hturn rfl
      | some checksum => exact receiveBody_polite hturn checksum offset

theorem receiveUpload_polite (hturn : waits first h₀ = false) (metadata : UploadMetadata) (root : Path)
    (limits : TransferLimits) :
    Converses (Polite first) (receiveUpload requestId metadata root limits) h₀
      (Served first requestId h₀) := by
  refine polite_does ((prepareDestination_issues root metadata).widen fun o ho =>
    isCall_of_local o (local_of_prepares o ho)) fun r _ => ?_
  cases r with
  | error failure =>
    refine rejectBeforeReady_polite hturn ?_
    cases failure.invalidPath <;> rfl
  | ok prepared =>
    refine polite_does ((withinPartialBudget_issues _ _ _).widen isCall_of_read)
      fun within _ => ?_
    split
    · refine polite_sys fun r => ?_
      cases r with
      | error e => exact rejectBeforeReady_polite hturn rfl
      | ok partFile => exact receivePart_polite hturn
    · exact rejectBeforeReady_polite hturn rfl

theorem receiveFile_polite (hturn : waits first h₀ = false) (request : Frame) (root : Path)
    (limits : TransferLimits) :
    Converses (Polite first) (receiveFile request root limits) h₀
      (Served first request.header.requestId h₀) := by
  rcases receiveFile_cases request root limits with ⟨r, hr, he⟩ | ⟨metadata, -, he⟩
  · rw [he]
    exact rejectBeforeReady_polite hturn hr
  · rw [he]
    exact receiveUpload_polite hturn _ _ _

end Server

end Session

end SyncWire
