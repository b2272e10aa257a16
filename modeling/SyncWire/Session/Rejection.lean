import SyncWire.Send.Discipline
import SyncWire.Session.Upload
import SyncWire.Receive.Runs

/-!
# Does the reason of a rejection reach the client?

`rejection_reaches_client`: it does when the server rejects the upload request or the end of the
transfer, and it does not when it rejects a chunk: the client then waits for an
acknowledgment and takes the result for a frame out of place.
-/

namespace SyncWire

open Wire Effect Posix Posix.Fs FileTransfer Session

/-- The server of one upload: `receive_file` on the first frame that arrives. -/
def serveUpload (root : Path) (limits : TransferLimits) : Sys (Except FrameIoResult FileTransferResult) := do
  match ← receiveFrame with
  | .error error => pure (.error error)
  | .ok request => return .ok (← receiveFile request root limits)

namespace Session

/-- The replies of such a session. -/
def Replied (r : Except FrameIoResult FileTransferResult) (h : List net.Event) : Prop :=
  ∀ a, r = .ok a → ∃ request l, h = [⟨.recv, .ok request⟩] ++ l ∧
    ∀ m ∈ sent l, ReplyTo request.1.header.requestId (received l) m

theorem serveUpload_polite (root : Path) (limits : TransferLimits) :
    Converses (Polite false) (serveUpload root limits) [] Replied := by
  refine converses_receive ⟨rfl, rfl⟩ (fun e => converses_pure fun a ha => nomatch ha) fun request => ?_
  refine polite_bind (@receiveFile_polite false [⟨.recv, .ok request⟩] rfl request.1 root limits)
    fun a h ha => converses_pure ?_
  rintro a' -
  obtain ⟨l, hl, hrep, -⟩ := ha.replies
  exact ⟨request, l, hl, hrep⟩

/-- The ids the client expects in the last reply are those it has. -/
theorem ids_match {requestId : UInt64} {request m : WireFrame} {l l' : List net.Event} (hask : Asking requestId l)
    (hreply : ∀ f ∈ sent l', ReplyTo request.1.header.requestId (received l') f)
    (hin : sent l = request :: received l') (hout : received l ++ [m] = sent l')
    (hlen : (received l').length + 1 = (sent l').length) (ht : m.1.header.messageType = .transferResult) :
    m.1.header.requestId = requestId ∧ m.1.header.transferId = assignedId l := by
  have hreq : request.1.header.requestId = requestId := hask.ids request (by rw [hin]; exact List.mem_cons_self)
  rw [hreq] at hreply
  obtain ⟨h1, h2⟩ := hreply m (by rw [← hout]; simp)
  refine ⟨h1, ?_⟩
  rw [h2, assignedId]
  cases hl : received l with
  | nil =>
    have hnil : received l' = [] := by
      rw [← hout, hl] at hlen
      exact List.eq_nil_of_length_eq_zero (by simpa using hlen)
    rw [if_pos ⟨ht, hnil⟩]
    rfl
  | cons ready rest =>
    have hne : received l' ≠ [] := by
      intro hnil
      rw [← hout, hl, hnil] at hlen
      simp at hlen
    have hready : ready.1.header.messageType = .transferReady := hask.ready ready (by rw [hl]; rfl)
    obtain ⟨-, hid⟩ := hreply ready (by rw [← hout, hl]; simp)
    rw [if_neg fun hn => (by rw [hready] at hn; cases hn.1)] at hid
    rw [if_neg fun hn => hne hn.2]
    exact hid.symm

end Session

/-- **Rejections.**  Whatever `send_file` and `receive_file` are asked to do, whichever calls fail on either
side: once the server has returned with a result code other than success as its last reply, the client
returns, and it says that it was rejected and why if and only if the last frame the server received is not
a chunk. -/
theorem rejection_reaches_client (cr : Crypto) (path : Path) (name : List UInt8) (requestId : UInt64)
    (clientLimits : TransferLimits) (root : Path) (serverLimits : TransferLimits) (client server : Host)
    {x : Side net Host FileTransferResult} {y : Side net Host (Except FrameIoResult FileTransferResult)}
    (hr : SReach (exec cr) closed
      ((sendFile path name requestId clientLimits, ⟨client, []⟩), (serveUpload root serverLimits, ⟨server, []⟩))
      (x, y))
    {a : FileTransferResult} (hy : y.1 = .pure (.ok a)) {m : WireFrame} {code : TransferResultCode}
    (hlast : (history y.2.log).getLast? = some ⟨.send m, .ok ()⟩) (ht : m.1.header.messageType = .transferResult)
    (hp : m.1.payload = encodeTransferResult code) (hcode : code ≠ .success) :
    Ends (SStep (exec cr) closed)
      (fun c => ∃ result : FileTransferResult, c.1.1 = .pure result ∧
        ((result.status = .remoteRejected ∧ result.remoteCode = some code) ↔
          (received y.2.log).getLast?.map (·.1.header.messageType) ≠ some .fileChunk)) (x, y) := by
  have hclient := heeds_listens (@sendFile_heeds true [] rfl path name requestId clientLimits)
  have hserver := (serveUpload_polite root serverLimits).along
  have hrefuses : Refuses m := by
    unfold Refuses
    rw [ht, hp]
    change decodeTransferResult _ ≠ _
    rw [decodeTransferResult_encode]
    exact fun he => hcode (Except.ok.inj he)
  have hend := session_told hclient (.inl rfl) hserver (fun _ _ _ hv => hv) hr ⟨_, hy⟩ hlast hrefuses
  refine hend.mono fun c hc => ?_
  obtain ⟨-, result, l, hres, hans, hin, hout⟩ := hc
  obtain ⟨l0, hl0, hask, hreason⟩ := hans.reason
  obtain rfl : l = l0 := hl0
  refine ⟨result, hres, ?_⟩
  -- what the server did
  have hreplied := hserver _ _ (reach_chat (SReach.right hr))
  rw [show y.1 = _ from hy] at hreplied
  obtain ⟨request, l', hl', hreply⟩ := hreplied a rfl
  have hsent : sent y.2.log = sent l' := by
    rw [← sent_history, hl', sent_append, sent_recv, List.nil_append]
  have hrecv : received y.2.log = request :: received l' := by
    rw [← received_history, hl', received_append, received_ok]
    rfl
  have hbal := (between_reach hclient hserver (fun _ _ _ hv => hv) hr).inStepRight
  have hwaits : waits false (history y.2.log) = true := by
    obtain ⟨h', hh⟩ := List.getLast?_eq_some_iff.mp hlast
    rw [hh]
    exact waits_concat_send
  have hlen : (received l').length + 1 = (sent l').length := by
    simp only [InStep, Bool.not_true, hwaits, received_history, sent_history, hrecv, hsent, Bool.toNat_true,
      Bool.not_false, List.length_cons] at hbal
    omega
  obtain ⟨h1, h2⟩ := ids_match hask hreply (hin.trans hrecv) (hout.trans hsent) hlen ht
  rw [hreason code hcode ht hp h1 h2, lastType, hin]

/-! An upload of three bytes from `s`, with a server whose `fsync` may fail. -/

/-- Calls succeed where they can, except those in `fails`. -/
def answerBut (cr : Crypto) (fails : Posix.Call → Bool) (errno : Nat) (c : Posix.Call) (h : Host) :
    Except Nat (Posix.Val c) := if fails c then .error errno else answer cr c h

def isFsync : Posix.Call → Bool
  | .fsync _ => true
  | _ => false

/-- The two sides after `n` steps. -/
def sampleUpload (fails : Posix.Call → Bool) (n : Nat) :
    Side net Host FileTransferResult × Side net Host (Except FrameIoResult FileTransferResult) :=
  schedule (exec sampleCrypto) (.io (.peerClosed 0)) (answer sampleCrypto) (answerBut sampleCrypto fails EIO) n
    ((sendFile [bytesOf "s"] (bytesOf "a") 7 {}, ⟨sampleSourceHost, []⟩),
      (serveUpload sampleRoot {}, ⟨sampleHost, []⟩))

theorem sreach_sampleUpload (fails : Posix.Call → Bool) (n : Nat) :
    SReach (exec sampleCrypto) closed
      ((sendFile [bytesOf "s"] (bytesOf "a") 7 {}, ⟨sampleSourceHost, []⟩),
        (serveUpload sampleRoot {}, ⟨sampleHost, []⟩)) (sampleUpload fails n) :=
  sreach_schedule ⟨_, rfl⟩ _ _ (List.prefix_refl _) (List.prefix_refl _) n

/-- The frame the last event sent. -/
def lastReply (h : List net.Event) : Option WireFrame :=
  match h.getLast? with
  | some ⟨.send m, .ok ()⟩ => some m
  | _ => none

theorem last_of_lastReply {h : List net.Event} {m : WireFrame} (hm : lastReply h = some m) :
    h.getLast? = some ⟨.send m, .ok ()⟩ := by
  unfold lastReply at hm
  split at hm
  · next m' he => rw [he, Option.some.inj hm]
  · cases hm

/-- A last reply by its type and payload. -/
theorem exists_lastReply {h : List net.Event} {type : MessageType} {payload : List UInt8}
    (hm : (lastReply h).map (fun m => (m.1.header.messageType, m.1.payload)) = some (type, payload)) :
    ∃ m, h.getLast? = some ⟨.send m, .ok ()⟩ ∧ m.1.header.messageType = type ∧ m.1.payload = payload := by
  obtain ⟨m, hl, he⟩ := Option.map_eq_some_iff.mp hm
  exact ⟨m, last_of_lastReply hl, congrArg Prod.fst he, congrArg Prod.snd he⟩

/-- The server fails to make the first chunk durable and says so; the client is told that a frame is out of
place. -/
theorem rejected_chunk_unreported : ∃ x y m,
    SReach (exec sampleCrypto) closed
      ((sendFile [bytesOf "s"] (bytesOf "a") 7 {}, ⟨sampleSourceHost, []⟩),
        (serveUpload sampleRoot {}, ⟨sampleHost, []⟩)) (x, y) ∧
    y.1 = .pure (.ok { status := .fileWriteError, systemError := EIO }) ∧
    (history y.2.log).getLast? = some ⟨.send m, .ok ()⟩ ∧ m.1.header.messageType = .transferResult ∧
    m.1.payload = encodeTransferResult .fileIoError ∧ x.1 = .pure { status := .unexpectedMessageType } := by
  obtain ⟨m, hm, ht, hp⟩ := @exists_lastReply (history (sampleUpload isFsync 35).2.2.log) .transferResult
    (encodeTransferResult .fileIoError) (by decide +kernel)
  have hy : (sampleUpload isFsync 35).2.1.result? = some
    (.ok { status := .fileWriteError, systemError := EIO }) := by
    decide +kernel
  have hx : (sampleUpload isFsync 35).1.1.result? = some { status := .unexpectedMessageType } := by
    decide +kernel
  exact ⟨_, _, m, sreach_sampleUpload isFsync 35, Prog.eq_pure_of_result? hy, hm, ht, hp,
    Prog.eq_pure_of_result? hx⟩

def isMkdir : Posix.Call → Bool
  | .mkdir _ => true
  | _ => false

theorem rejection_reaches_client_sample :
    ∃ (y : Side net Host (Except FrameIoResult FileTransferResult)) (m : WireFrame),
    (history y.2.log).getLast? = some ⟨.send m, .ok ()⟩ ∧ m.1.payload = encodeTransferResult .fileIoError ∧
    Ends (SStep (exec sampleCrypto) closed)
      (fun c => ∃ result : FileTransferResult, c.1.1 = .pure result ∧
        ((result.status = .remoteRejected ∧ result.remoteCode = some .fileIoError) ↔
          (received y.2.log).getLast?.map (·.1.header.messageType) ≠ some .fileChunk))
      ((sampleUpload isMkdir 11).1, y) := by
  obtain ⟨m, hm, ht, hp⟩ := @exists_lastReply (history (sampleUpload isMkdir 11).2.2.log) .transferResult
    (encodeTransferResult .fileIoError) (by decide +kernel)
  have hy : (sampleUpload isMkdir 11).2.1.result? = some
    (.ok { status := .fileOpenError, systemError := EIO }) := by
    decide +kernel
  exact ⟨_, m, hm, hp, rejection_reaches_client sampleCrypto [bytesOf "s"] (bytesOf "a") 7 {} sampleRoot {}
    sampleSourceHost sampleHost (sreach_sampleUpload isMkdir 11) (Prog.eq_pure_of_result? hy) hm ht hp (by decide)⟩

end SyncWire
