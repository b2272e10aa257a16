import SyncWire.Receive.Runs
import SyncWire.Send.Source

/-!
# What `send_file` says, to any server

The source stays as it is, with the content `S`; the server may answer anything, and any call may
fail.  Whatever happens, the frames that went to and fro are a `Conversation`:

    request, offer, chunk, acknowledgment, …, chunk, acknowledgment, complete, result

cut off at some point.  The chunks are consecutive pieces of `S` from the place on that the offer
leads to (`Offers`, `Pieces`), each is sent when the one before has been acknowledged (`exchange`), and
`complete` when all of `S` has been.  `sendFile_disciplined` is the main result.
-/

namespace SyncWire

open Wire Effect Posix Posix.Fs FileTransfer

/-! ## Conversations -/

/-- What a process says to its peer and hears from it. -/
inductive Said
  | sends (f : Frame) (r : Except IoFailure Unit)
  | hears (r : Except ReceiveFailure Frame)

/-- The frames of a log, without the system calls. -/
def talk (log : List net.Event) : List Said :=
  log.filterMap fun
    | ⟨.send f, r⟩ => some (.sends f.1 r)
    | ⟨.recv, r⟩ => some (.hears (r.map (·.1)))
    | ⟨.call _, _⟩ => none

@[simp] theorem talk_send (log : List net.Event) (f : WireFrame) (r : Except IoFailure Unit) :
    talk (log ++ [⟨.send f, r⟩]) = talk log ++ [.sends f.1 r] := List.filterMap_append

@[simp] theorem talk_recv (log : List net.Event) (r : Except ReceiveFailure WireFrame) :
    talk (log ++ [⟨.recv, r⟩]) = talk log ++ [.hears (r.map (·.1))] := List.filterMap_append

@[simp] theorem talk_call (log : List net.Event) (c : Posix.Call) (r : Except Nat (Posix.Val c)) :
    talk (log ++ [⟨.call c, r⟩]) = talk log :=
  List.filterMap_append.trans (List.append_nil _)

/-- A client that has a file to send. -/
structure Client where
  content : Bytes
  filename : List UInt8
  requestId : UInt64
  chunkSize : Nat

namespace Client

variable (c : Client)

def request : Frame :=
  makeFrame .uploadRequest c.requestId 0
    (encodeUploadMetadata ⟨c.filename, UInt64.ofNat c.content.length, crc32 c.content⟩)

def chunk (transferId : UInt64) (offset : Nat) (data : Bytes) : Frame :=
  makeFrame .fileChunk c.requestId transferId (encodeFileChunk (UInt64.ofNat offset) data)

def acknowledgment (transferId : UInt64) (offset : Nat) : Frame :=
  makeFrame .acknowledgment c.requestId transferId (encodeOffset (UInt64.ofNat offset))

def complete (transferId : UInt64) : Frame := makeFrame .transferComplete c.requestId transferId []

def accepted (transferId : UInt64) : Frame :=
  makeFrame .transferResult c.requestId transferId (encodeTransferResult .success)

/-- An answer to the request that lets the client send from `start` on: behind the prefix the server has,
if its checksum is right, and else from the beginning. -/
def Offers (ready : Frame) (start : Nat) : Prop :=
  ready.header.requestId = c.requestId ∧ ready.header.messageType = .transferReady ∧
    ready.header.transferId ≠ 0 ∧ ∃ offer, decodeTransferReady (.of ready.payload) = .ok offer ∧
      offer.offset.toNat ≤ c.content.length ∧ (offer.offset = 0 → offer.prefixChecksum = 0) ∧
      start = if crc32 (c.content.take offer.offset.toNat) = offer.prefixChecksum then offer.offset.toNat else 0

/-- Something of at most `chunkSize` bytes that the content has at `offset`. -/
def Piece (offset : Nat) (data : Bytes) : Prop :=
  data ≠ [] ∧ data.length ≤ c.chunkSize ∧ data <+: c.content.drop offset

/-- Consecutive pieces from `start` on. -/
def Pieces (start : Nat) (pieces : List Bytes) : Prop :=
  (∀ data ∈ pieces, data ≠ [] ∧ data.length ≤ c.chunkSize) ∧ pieces.flatten <+: c.content.drop start

/-- Chunks, each with its own offset and followed by the acknowledgment of its end. -/
def exchange (transferId : UInt64) : (offset : Nat) → List Bytes → List Said
  | _, [] => []
  | offset, data :: pieces =>
    .sends (c.chunk transferId offset data) (.ok ()) ::
      .hears (.ok (c.acknowledgment transferId (offset + data.length))) ::
      exchange transferId (offset + data.length) pieces

/-- What may follow when everything before `offset` has been acknowledged. -/
inductive Next (transferId : UInt64) (offset : Nat) : List Said → Prop
  | nothing : Next transferId offset []
  | chunk (data : Bytes) (r : Except IoFailure Unit) (h : c.Piece offset data) :
      Next transferId offset [.sends (c.chunk transferId offset data) r]
  | answer (data : Bytes) (x : Except ReceiveFailure Frame) (h : c.Piece offset data) :
      Next transferId offset [.sends (c.chunk transferId offset data) (.ok ()), .hears x]
  | complete (r : Except IoFailure Unit) (h : offset = c.content.length) :
      Next transferId offset [.sends (c.complete transferId) r]
  | result (x : Except ReceiveFailure Frame) (h : offset = c.content.length) :
      Next transferId offset [.sends (c.complete transferId) (.ok ()), .hears x]

/-- The request and the answer to it. -/
def opening (x : Except ReceiveFailure Frame) : List Said := [.sends c.request (.ok ()), .hears x]

/-- What `send_file` says and hears, up to any point. -/
inductive Conversation : List Said → Prop
  | silent : Conversation []
  | asked (r : Except IoFailure Unit) : Conversation [.sends c.request r]
  | answered (x : Except ReceiveFailure Frame) : Conversation (c.opening x)
  | sending (ready : Frame) (start : Nat) (pieces : List Bytes) (next : List Said) (ho : c.Offers ready start)
      (hp : c.Pieces start pieces) (hn : c.Next ready.header.transferId (start + pieces.flatten.length) next) :
      Conversation (c.opening (.ok ready) ++ c.exchange ready.header.transferId start pieces ++ next)

/-- The whole of the content was sent and acknowledged, and the server said yes. -/
def Completed (es : List Said) : Prop :=
  ∃ ready start pieces, c.Offers ready start ∧ c.Pieces start pieces ∧
    start + pieces.flatten.length = c.content.length ∧
    es = c.opening (.ok ready) ++ c.exchange ready.header.transferId start pieces ++
      [.sends (c.complete ready.header.transferId) (.ok ()), .hears (.ok (c.accepted ready.header.transferId))]

variable {c}

theorem exchange_concat {transferId : UInt64} (pieces : List Bytes) (data : Bytes) (start : Nat) :
    c.exchange transferId start (pieces ++ [data]) = c.exchange transferId start pieces ++
      [.sends (c.chunk transferId (start + pieces.flatten.length) data) (.ok ()),
        .hears (.ok (c.acknowledgment transferId (start + pieces.flatten.length + data.length)))] := by
  induction pieces generalizing start with
  | nil => simp [exchange]
  | cons d pieces ih => simp [exchange, ih, Nat.add_assoc]

theorem Pieces.concat {start : Nat} {pieces : List Bytes} {data : Bytes} (h : c.Pieces start pieces)
    (hd : c.Piece (start + pieces.flatten.length) data) : c.Pieces start (pieces ++ [data]) := by
  refine ⟨fun d hm => ?_, ?_⟩
  · rcases List.mem_append.mp hm with hm | hm
    · exact h.1 d hm
    · rw [List.mem_singleton.mp hm]
      exact ⟨hd.1, hd.2.1⟩
  · obtain ⟨rest, hrest⟩ := h.2
    have hdrop : c.content.drop (start + pieces.flatten.length) = rest := by
      rw [← List.drop_drop, ← hrest, List.drop_left]
    obtain ⟨rest', hrest'⟩ := hdrop ▸ hd.2.2
    exact ⟨rest', by rw [← hrest, ← hrest']; simp⟩

end Client

/-! ## Sending -/

theorem failed_send (e : IoFailure) : Failed (frameError e.result) := by
  cases e <;> exact ⟨rfl, nofun⟩

theorem failed_receive (e : ReceiveFailure) : Failed (frameError e.result) := by
  cases e with
  | io e => exact failed_send e
  | invalidHeader e => exact ⟨rfl, nofun⟩

theorem receiveExpectedFrame_safe {cr : Crypto} {G : World → World → Prop} {w : World} {type : MessageType}
    {requestId transferId : UInt64} {Q : Except FileTransferResult Frame → World → Prop}
    (hG : ∀ r, G w (w.push ⟨.recv, r⟩)) (herror : ∀ result r, Failed result →
      Q (.error result) (w.push ⟨.recv, r⟩))
    (hok : ∀ f : WireFrame, f.1 = makeFrame type requestId transferId f.1.payload →
      Q (.ok f.1) (w.push ⟨.recv, .ok f⟩)) :
    Safe (solo (exec cr) anyAnswer) G (receiveExpectedFrame type requestId transferId) w Q := by
  refine safe_receiveFrame fun r _ => ⟨hG r, ?_, ?_⟩
  · rintro error rfl
    exact safe_pure (herror _ _ (failed_receive error))
  · rintro f rfl
    simp only
    split
    · exact safe_pure (herror _ _ (failed_own rfl rfl))
    split
    · exact safe_pure (herror _ _ (failed_own rfl rfl))
    split
    · exact safe_pure (herror _ _ (failed_own rfl rfl))
    · next h1 h2 h3 =>
      have hf := eq_makeFrame f.2
      rw [not_not.mp h1, not_not.mp h2, not_not.mp h3] at hf
      exact safe_pure (hok f hf)

theorem payload_of_decodeRemoteResult {f : Frame} (h : (decodeRemoteResult f).ok = true) :
    f.payload = encodeTransferResult .success := by
  unfold decodeRemoteResult at h
  split at h
  · cases h
  · next code hcode =>
    split at h
    · next hsuccess => rw [← encodeTransferResult_decode hcode, hsuccess]
    · cases h

namespace Client

/-- What was said and heard since `base` is a conversation. -/
def Within (c : Client) (base : List Said) (w : World) : Prop :=
  ∃ es, talk w.log = base ++ es ∧ c.Conversation es

/-- Every step of `p` leaves it one, whatever the server answers and whatever fails. -/
abbrev Keeps (c : Client) (base : List Said) (cr : Crypto) {α : Type} (p : Sys α) (w : World)
    (Q : α → World → Prop) : Prop := Safe (solo (exec cr) anyAnswer) (fun _ w' => c.Within base w') p w Q

/-- Every piece so far has been acknowledged. -/
structure Sent (c : Client) (base : List Said) (ready : Frame) (start : Nat) (pieces : List Bytes) (w : World) :
    Prop where
  talk : talk w.log = base ++ (c.opening (.ok ready) ++ c.exchange ready.header.transferId start pieces)
  offers : c.Offers ready start
  pieces : c.Pieces start pieces

variable {c : Client} {base : List Said} {cr : Crypto} {w : World} {ready : Frame} {start : Nat}
  {pieces : List Bytes}

theorem Conversation.admits {es : List Said} (h : c.Conversation es) :
    Admits (fun log => SyncWire.talk log = base ++ es) (fun _ w' => c.Within base w') :=
  ⟨fun _ hl => by rw [talk_call, hl], fun _ hl _ => ⟨es, by rw [talk_call, hl], h⟩⟩

theorem Sent.conversation (H : c.Sent base ready start pieces w) {next : List Said}
    (hn : c.Next ready.header.transferId (start + pieces.flatten.length) next) :
    c.Conversation (c.opening (.ok ready) ++ c.exchange ready.header.transferId start pieces ++ next) :=
  .sending ready start pieces next H.offers H.pieces hn

theorem Sent.within (H : c.Sent base ready start pieces w) {w' : World} {next : List Said}
    (ht : SyncWire.talk w'.log = SyncWire.talk w.log ++ next)
    (hn : c.Next ready.header.transferId (start + pieces.flatten.length) next) : c.Within base w' :=
  ⟨_, by rw [ht, H.talk, List.append_assoc], H.conversation hn⟩

theorem chunk_valid (hsize : c.chunkSize ≤ kDefaultMaxPayload.toNat - kChunkOffsetSize) (transferId : UInt64)
    {offset : Nat} {data : Bytes} (h : c.Piece offset data) : (c.chunk transferId offset data).Valid := by
  refine makeFrame_valid rfl ?_
  have h1 := h.2.1
  have h2 : kDefaultMaxPayload.toNat - kChunkOffsetSize = 1024 * 1024 - 8 := rfl
  simp only [encodeFileChunk, List.length_append, length_appendU64]
  omega

/-- One chunk: acknowledged, or the end. -/
theorem sendChunk_keeps (hsize : c.chunkSize ≤ kDefaultMaxPayload.toNat - kChunkOffsetSize)
    (H : c.Sent base ready start pieces w) {data : Bytes}
    (hdata : c.Piece (start + pieces.flatten.length) data) {Q : Except FileTransferResult UInt64 → World → Prop}
    (herror : ∀ r w', Failed r → Q (.error r) w')
    (hok : ∀ w', w'.host = w.host → c.Sent base ready start (pieces ++ [data]) w' →
      Q (.ok (UInt64.ofNat (start + pieces.flatten.length + data.length))) w') :
    c.Keeps base cr (sendChunk c.requestId ready.header.transferId
      (UInt64.ofNat (start + pieces.flatten.length)) data)
      w Q := by
  have hv := chunk_valid hsize ready.header.transferId hdata
  refine safe_sendValid hv fun r => ⟨H.within (talk_send _ _ r) (.chunk data r hdata), ?_⟩
  cases r with
  | error e =>
    rw [sendOutcome_error_ok]
    exact safe_pure (herror _ _ (failed_send e))
  | ok _ =>
    refine safe_bind (receiveExpectedFrame_safe (fun r => ?_) (fun result r hf => safe_pure (herror _ _ hf))
      fun f hf => ?_)
    · exact H.within ((talk_recv _ r).trans (by rw [NetSig.Local.push_log, talk_send, List.append_assoc]; rfl))
        (.answer data _ hdata)
    · dsimp only
      cases hdecode : decodeOffset (.of f.1.payload) with
      | error e => exact safe_pure (herror _ _ (failed_own rfl rfl))
      | ok acknowledged =>
        dsimp only
        rw [← UInt64.ofNat_add]
        split
        · exact safe_pure (herror _ _ (failed_own rfl rfl))
        · next hack =>
          have hpayload := encodeOffset_decode hdecode
          rw [not_not.mp hack] at hpayload
          rw [← hpayload] at hf
          refine safe_pure (hok _ rfl ⟨?_, H.offers, H.pieces.concat hdata⟩)
          rw [NetSig.Local.push_log, talk_recv, NetSig.Local.push_log, talk_send, H.talk, exchange_concat]
          simp only [List.append_assoc, List.cons_append, List.nil_append, Except.map, hf]
          rfl

/-- The loop: all of the content is acknowledged, or the end. -/
theorem sendChunks_keeps (hsize : c.chunkSize ≤ kDefaultMaxPayload.toNat - kChunkOffsetSize)
    (hcontent : c.content.length < 2 ^ 64) {input : Fd} (H : c.Sent base ready start [] w)
    (hstart : start ≤ c.content.length) (hs : StreamAt w.host input c.content start)
    {Q : Except FileTransferResult UInt64 → World → Prop} (herror : ∀ r w', Failed r → Q (.error r) w')
    (hok : ∀ r w' pieces, c.Sent base ready start pieces w' → start + pieces.flatten.length = c.content.length →
      Q (.ok r) w') :
    c.Keeps base cr (sendChunks c.requestId ready.header.transferId
      (UInt64.ofNat c.content.length) input c.chunkSize (UInt64.ofNat start)) w Q := by
  let J : UInt64 → World → Prop := fun offset w' => ∃ pieces, c.Sent base ready start pieces w' ∧
    offset = UInt64.ofNat (start + pieces.flatten.length) ∧ start + pieces.flatten.length ≤ c.content.length ∧
    StreamAt w'.host input c.content (start + pieces.flatten.length)
  refine safe_iter J ?_ (s := UInt64.ofNat start) ⟨[], H, by simp, by simpa using hstart, by simpa using hs⟩
  rintro offset w' ⟨pieces, H', rfl, hle, hs'⟩
  have hoffset : (UInt64.ofNat (start + pieces.flatten.length)).toNat = start + pieces.flatten.length := by
    rw [UInt64.toNat_ofNat']
    omega
  have hlength : (UInt64.ofNat c.content.length).toNat = c.content.length := by
    rw [UInt64.toNat_ofNat']
    omega
  have hlt := @UInt64.lt_iff_toNat_lt (UInt64.ofNat (start + pieces.flatten.length))
    (UInt64.ofNat c.content.length)
  rw [hoffset, hlength] at hlt
  split
  · next hmore =>
    rw [hlt] at hmore
    have hsub : (UInt64.ofNat c.content.length - UInt64.ofNat (start + pieces.flatten.length)).toNat =
        c.content.length - (start + pieces.flatten.length) := by
      rw [UInt64.toNat_sub_of_le _ _ (UInt64.le_iff_toNat_le.mpr (by omega)), hoffset, hlength]
    have hconv : c.Conversation (c.opening (.ok ready) ++ c.exchange ready.header.transferId start pieces) := by
      simpa using H'.conversation .nothing
    refine safe_read hconv.admits rfl H'.talk fun r h' he hfs htalk => ?_
    cases r with
    | error e => exact safe_pure (herror _ _ (failed_own rfl rfl))
    | ok data =>
      obtain ⟨hdata, hs''⟩ := hs'.read he
      simp only
      split
      · exact safe_pure (herror _ _ (failed_own rfl rfl))
      · next hfull =>
        rw [not_or, not_not] at hfull
        have hpiece : c.Piece (start + pieces.flatten.length) data := by
          refine ⟨fun h => hfull.1 (by rw [h]; rfl), by rw [hfull.2]; exact Nat.min_le_right _ _, ?_⟩
          rw [hdata]
          exact List.take_prefix _ _
        have hnext := hpiece.2.2.length_le
        rw [List.length_drop] at hnext
        refine safe_bind (sendChunk_keeps hsize ⟨htalk, H'.offers, H'.pieces⟩ hpiece
          (fun r w'' hf => safe_pure (herror _ _ hf)) fun w'' hh H'' => ?_)
        refine safe_pure ⟨pieces ++ [data], H'', by simp [Nat.add_assoc], ?_, ?_⟩
        · simp only [List.flatten_append, List.flatten_singleton, List.length_append]
          omega
        · rw [hh]
          simpa [Nat.add_assoc] using hs''
  · next hdone =>
    rw [hlt] at hdone
    exact safe_pure (hok _ _ pieces H' (by omega))

/-- How `send_file` returns: not because it made a bad frame, and with success only when all is done. -/
def Returns (c : Client) (base : List Said) (r : FileTransferResult) (w : World) : Prop :=
  r.frameIo.status ≠ .invalidFrame ∧
    (r.ok = true → ∃ es, SyncWire.talk w.log = base ++ es ∧ c.Completed es)

theorem returns_of_failed {r : FileTransferResult} (h : Failed r) : c.Returns base r w :=
  ⟨h.2, fun hok => by rw [h.1] at hok; cases hok⟩

theorem sendFrom_keeps {metadata : UploadMetadata} {limits : TransferLimits} {resumedFrom : UInt64}
    (hsize : c.chunkSize ≤ kDefaultMaxPayload.toNat - kChunkOffsetSize) (hcontent : c.content.length < 2 ^ 64)
    (hmeta : metadata.fileSize = UInt64.ofNat c.content.length) (hlimits : limits.chunkSize = c.chunkSize)
    (hfrom : resumedFrom = UInt64.ofNat start) {input : Fd} (H : c.Sent base ready start [] w)
    (hstart : start ≤ c.content.length) (hs : StreamAt w.host input c.content start) :
    c.Keeps base cr (sendFrom c.requestId ready.header.transferId metadata limits input resumedFrom) w
      (c.Returns base) := by
  unfold sendFrom
  rw [hmeta, hlimits, hfrom]
  refine safe_bind (sendChunks_keeps hsize hcontent H hstart hs (fun r w' hf => safe_pure (returns_of_failed hf))
    fun offset w' pieces H' hall => ?_)
  have hv : (c.complete ready.header.transferId).Valid := makeFrame_valid rfl (Nat.zero_le _)
  refine safe_sendValid hv fun r => ⟨H'.within (talk_send _ _ r) (.complete r hall), ?_⟩
  cases r with
  | error e =>
    rw [sendOutcome_error_ok]
    exact safe_pure (returns_of_failed (failed_send e))
  | ok _ =>
    refine safe_bind (receiveExpectedFrame_safe (fun r => ?_) (fun result r hf => safe_pure (returns_of_failed hf))
      fun f hf => ?_)
    · exact H'.within ((talk_recv _ r).trans (by rw [NetSig.Local.push_log, talk_send, List.append_assoc]; rfl))
        (.result _ hall)
    · dsimp only
      refine safe_pure ⟨?_, fun hok => ⟨_, ?_, ready, start, pieces, H'.offers, H'.pieces, hall, rfl⟩⟩
      · simp only [decodeRemoteResult_frameIo]
        decide
      · rw [payload_of_decodeRemoteResult hok] at hf
        rw [NetSig.Local.push_log, talk_recv, NetSig.Local.push_log, talk_send, H'.talk]
        simp only [List.append_assoc, List.cons_append, List.nil_append, Except.map, hf]
        rfl

/-- From an admissible offer on. -/
theorem resumeTransfer_keeps {path : Path} {metadata : UploadMetadata} {limits : TransferLimits}
    {offer : TransferReady} (hb : 0 < c.chunkSize)
    (hsize : c.chunkSize ≤ kDefaultMaxPayload.toNat - kChunkOffsetSize) (hcontent : c.content.length < 2 ^ 64)
    (hmeta : metadata.fileSize = UInt64.ofNat c.content.length) (hlimits : limits.chunkSize = c.chunkSize)
    (hs : Source w.host path c.content) (htalk : SyncWire.talk w.log = base ++ c.opening (.ok ready))
    (hle : offer.offset.toNat ≤ c.content.length)
    (hoffer : c.Offers ready (if crc32 (c.content.take offer.offset.toNat) = offer.prefixChecksum then
      offer.offset.toNat else 0)) :
    c.Keeps base cr (resumeTransfer path c.requestId ready.header.transferId metadata limits offer) w
      (c.Returns base) := by
  have hA : Admits (fun log => SyncWire.talk log = base ++ c.opening (.ok ready)) fun _ w' => c.Within base w' :=
    (Conversation.answered _).admits
  refine openStream_safe hA htalk hs (fun e w' _ _ => safe_pure (returns_of_failed (failed_own rfl rfl)))
    fun fd w' hfs htalk' hstream => ?_
  refine safe_bind (readSourcePrefix_safe hA htalk' hstream (hlimits.symm ▸ hb)
    (fun r w'' hf _ => safe_pure (returns_of_failed hf)) fun w'' hfs' htalk'' hstream' => ?_)
  dsimp only
  rw [show (({} : Crc32).update (c.content.take offer.offset.toNat)).value =
    crc32 (c.content.take offer.offset.toNat) from rfl]
  -- behind the prefix, or from the beginning again
  by_cases hprefix : crc32 (c.content.take offer.offset.toNat) = offer.prefixChecksum ∧ offer.offset ≠ 0
  · rw [if_pos hprefix.1] at hoffer ⊢
    rw [if_neg hprefix.2]
    refine sendFrom_keeps hsize hcontent hmeta hlimits (by rw [UInt64.ofNat_toNat])
      ⟨?_, hoffer, by simp [Pieces]⟩ hle
      hstream'
    simpa [exchange] using htalk''
  · have hzero :
        (if crc32 (c.content.take offer.offset.toNat) = offer.prefixChecksum then offer.offset else 0) = 0 := by
      split
      · next h => exact not_not.mp fun hne => hprefix ⟨h, hne⟩
      · rfl
    have hstart : (if crc32 (c.content.take offer.offset.toNat) = offer.prefixChecksum then
        offer.offset.toNat else 0) = 0 := by
      have := congrArg UInt64.toNat hzero
      split at this <;> split <;> simp_all
    rw [hstart] at hoffer
    rw [hzero, if_pos rfl]
    refine safe_read hA rfl htalk'' fun r h' he hfs'' htalk3 => ?_
    cases r with
    | error e => exact safe_pure (returns_of_failed (failed_own rfl rfl))
    | ok _ =>
      obtain ⟨i, hf, hd⟩ := hstream'
      have hseek : h' = w''.host.setFile fd (.regular i 0) := by
        simpa [exec, succeed, hf] using he.symm
      refine sendFrom_keeps hsize hcontent hmeta hlimits rfl ⟨?_, hoffer, by simp [Pieces]⟩ (Nat.zero_le _)
        ⟨i, by rw [hseek]; simp, by rw [hseek]; exact hd⟩
      simpa [exchange] using htalk3

/-- A bad answer ends it before any chunk. -/
theorem onReady_keeps {path : Path} {metadata : UploadMetadata} {limits : TransferLimits} (hb : 0 < c.chunkSize)
    (hsize : c.chunkSize ≤ kDefaultMaxPayload.toNat - kChunkOffsetSize)
    (hcontent : c.content.length < 2 ^ 64) (hmeta : metadata.fileSize = UInt64.ofNat c.content.length)
    (hlimits : limits.chunkSize = c.chunkSize) (hs : Source w.host path c.content)
    (htalk : SyncWire.talk w.log = base ++ c.opening (.ok ready)) :
    c.Keeps base cr (onReady path c.requestId metadata limits ready) w (c.Returns base) := by
  rcases onReady_cases path c.requestId metadata limits ready with ⟨r, hdeclined, he⟩ | ⟨offer, hoffered, he⟩
  · rw [he]
    exact safe_pure (returns_of_failed (failed_of_declined hdeclined))
  · rw [he]
    have hle : offer.offset.toNat ≤ c.content.length := by
      have h1 := UInt64.le_iff_toNat_le.mp hoffered.offset
      rw [hmeta, UInt64.toNat_ofNat'] at h1
      omega
    exact resumeTransfer_keeps hb hsize hcontent hmeta hlimits hs htalk hle
      ⟨hoffered.request, hoffered.type, hoffered.transfer, offer, hoffered.payload, hle, hoffered.start, rfl⟩

theorem request_valid (hsafe : isSafeRemotePath c.filename = true) : c.request.Valid := by
  refine makeFrame_valid rfl ?_
  have h1 := length_of_isSafeRemotePath hsafe
  rw [length_encodeUploadMetadata hsafe]
  unfold kMaxRemotePathLength at h1
  change 14 + c.filename.length ≤ _
  omega

theorem sendFile_keeps (cr : Crypto) {path : Path} {limits : TransferLimits}
    (hlimits : limits.chunkSize = c.chunkSize) (hs : Source w.host path c.content) :
    c.Keeps (SyncWire.talk w.log) cr (sendFile path c.filename c.requestId limits) w
      (c.Returns (SyncWire.talk w.log)) := by
  rcases sendFile_cases path c.filename c.requestId limits with ⟨r, hdeclined, he⟩ | ⟨⟨-, hsafe, hvalid⟩, he⟩
  · rw [he]
    exact safe_pure (returns_of_failed (failed_of_declined hdeclined))
  · rw [he]
    simp only [validLimits, Bool.and_eq_true, decide_eq_true_eq, hlimits] at hvalid
    have hA : Admits (fun log => SyncWire.talk log = SyncWire.talk w.log ++ [])
        fun _ w' => c.Within (SyncWire.talk w.log) w' := Conversation.silent.admits
    refine safe_bind (readSourceMetadata_safe hA (List.append_nil _).symm hs
      (fun r w' hf _ => safe_pure (returns_of_failed hf)) fun w1 hfs htalk hmax => ?_)
    have hcontent : c.content.length < 2 ^ 64 := Nat.lt_of_le_of_lt hmax limits.maxFileSize.toNat_lt
    refine safe_sendValid (request_valid hsafe) fun r => ⟨⟨_, ?_, .asked r⟩, ?_⟩
    · rw [NetSig.Local.push_log, talk_send, htalk, List.append_nil]
      rfl
    cases r with
    | error e =>
      rw [sendOutcome_error_ok]
      exact safe_pure (returns_of_failed (failed_send e))
    | ok _ =>
      have heard : ∀ r, SyncWire.talk ((w1.push ⟨.send ⟨c.request, request_valid hsafe⟩, .ok ()⟩).push
        ⟨.recv, r⟩).log =
          SyncWire.talk w.log ++ c.opening (r.map (·.1)) := fun r => by
        rw [NetSig.Local.push_log, talk_recv, NetSig.Local.push_log, talk_send, htalk, List.append_nil,
          List.append_assoc]
        rfl
      refine safe_receiveFrame fun r _ => ⟨⟨_, heard r, .answered _⟩, ?_, ?_⟩
      · rintro error rfl
        exact safe_pure (returns_of_failed (failed_receive error))
      · rintro f rfl
        exact onReady_keeps hvalid.1 hvalid.2 hcontent rfl hlimits (hs.congr hfs) (heard _)

end Client

/-- **The client's discipline.**  For a source with the content `S`, any server and any failures: what was said
and heard is a conversation, no frame was refused, and success is returned only when the whole of `S` was
acknowledged and the server then said so. -/
theorem sendFile_disciplined (cr : Crypto) {path : Path} {filename : List UInt8} {requestId : UInt64}
    {limits : TransferLimits} {S : Bytes} {w : World} {c : Side net Host FileTransferResult}
    (hs : Source w.host path S)
    (hr : Reach (solo (exec cr) anyAnswer) (sendFile path filename requestId limits, w) c) :
    let client : Client := ⟨S, filename, requestId, limits.chunkSize⟩
    ∃ es, talk c.2.log = talk w.log ++ es ∧ client.Conversation es ∧
      ∀ r, c.1 = pure r → r.frameIo.status ≠ .invalidFrame ∧ (r.ok = true → client.Completed es) := by
  intro client
  have hsafe : client.Keeps (talk w.log) cr (sendFile path filename requestId limits) w
      (client.Returns (talk w.log)) := client.sendFile_keeps cr rfl hs
  obtain ⟨es, htalk, hconv⟩ := hsafe.reach (client.Within (talk w.log)) ⟨[], by simp, .silent⟩
    (fun _ _ _ h => h) hr
  refine ⟨es, htalk, hconv, fun r hc => ?_⟩
  obtain ⟨p, w'⟩ := c
  obtain rfl : p = pure r := hc
  obtain ⟨h1, h2⟩ := hsafe.result hr
  refine ⟨h1, fun hok => ?_⟩
  obtain ⟨es', htalk', hdone⟩ := h2 hok
  obtain rfl : es = es' := List.append_cancel_left (htalk.symm.trans htalk')
  exact hdone

/-! Three bytes, of which the server has two. -/

def sampleSourceHost : Host :=
  { sampleHost with
    fs := (Fs.empty.create [bytesOf "s"] 1000 (by decide)).setData 0 (bytesOf "abc") }

theorem source_sampleSourceHost : Source sampleSourceHost [bytesOf "s"] (bytesOf "abc") :=
  ⟨[bytesOf "s"], 0, by decide +kernel, by decide +kernel⟩

def sampleAnswers : List WireFrame :=
  [⟨makeFrame .transferReady 7 7 (encodeTransferReady ⟨2, 2659403885⟩), makeFrame_valid (by decide) (by decide)⟩,
    ⟨makeFrame .acknowledgment 7 7 (encodeOffset 3), makeFrame_valid (by decide) (by decide)⟩,
    ⟨makeFrame .transferResult 7 7 (encodeTransferResult .success), makeFrame_valid (by decide) (by decide)⟩]

theorem sendFile_disciplined_sample :
    ∃ w', Reach (solo (exec sampleCrypto) anyAnswer)
        (sendFile [bytesOf "s"] (bytesOf "a") 7 {}, ⟨sampleSourceHost, []⟩)
        (.pure { transferred := 3, expectedChecksum := 891568578, resumedFrom := 2 }, w') ∧
      Client.Completed ⟨bytesOf "abc", bytesOf "a", 7, kDefaultChunkSize⟩ (talk w'.log) := by
  have hr := @reach_of_result? sampleCrypto sampleAnswers _ 30 (sendFile [bytesOf "s"] (bytesOf "a") 7 {})
    ⟨sampleSourceHost, []⟩ { transferred := 3, expectedChecksum := 891568578, resumedFrom := 2 }
    (by decide +kernel)
  obtain ⟨es, htalk, -, h⟩ :=
    sendFile_disciplined sampleCrypto (w := ⟨sampleSourceHost, []⟩) source_sampleSourceHost hr
  refine ⟨_, hr, ?_⟩
  rw [htalk]
  exact (h _ rfl).2 rfl

end SyncWire
