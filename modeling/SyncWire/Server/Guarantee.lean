import SyncWire.Receive.Runs
import SyncWire.Sync.Scan

/-!
# What one step of a session can do to the destination

A session receives one file or synchronizes a directory.  Either way a step that changes
the file system makes a directory on the way to the root, or is a step of an upload whose
request this session has received; and a frame that reports success is the answer to a
request, and sent when the files it asks for are in the tree (`Served`).  Here that is shown
of every step of `receive_file`, against any client and any failures; a step of
`receive_directory_sync` is one of those, or says so itself (`Sync.Guarantee.served`).
-/

namespace SyncWire

open Wire Effect Posix Posix.Fs FileTransfer DirectorySync

/-- An upload below `root` that was asked for by a frame in the log. -/
structure Requested (cr : Crypto) (root : Path) (limits : TransferLimits) (log : List net.Event) (u : Upload) :
    Prop where
  cr : u.cr = cr
  root : u.root = root
  limits : u.limits = limits
  request : ∃ f ∈ received log, f.1.header.messageType = .uploadRequest ∧ f.1.header.requestId = u.requestId ∧
    decodeUploadMetadata (.of f.1.payload) = .ok u.metadata

/-- What a step of a session may do to the file system. -/
inductive Mutation (cr : Crypto) (root : Path) (limits : TransferLimits) (log : List net.Event)
    (fs fs' : Fs) : Prop
  | same (h : fs' = fs)
  | makeRoot (p : Path) (hp : p <+: root) (h : MadeDir p fs fs')
  | upload (u : Upload) (hu : Requested cr root limits log u) (h : u.Change log fs fs')
  | commit (u : Upload) (hu : Requested cr root limits log u) (h : u.Committed fs fs')

/-- The frame asks for these files. -/
def Asks (f : Frame) (records : List FileRecord) : Prop :=
  (f.header.messageType = .uploadRequest ∧ ∃ metadata, decodeUploadMetadata (.of f.payload) = .ok metadata ∧
    records = [⟨metadata.filename, metadata.fileSize, metadata.checksum⟩]) ∨
  (f.header.messageType = .syncManifest ∧ ∃ maxEntries, decodeManifest (.of f.payload) maxEntries = .ok records)

/-- The frame tells a client that asked with a frame of this type that all went well. -/
inductive Reports (f : Frame) : MessageType → Prop
  | upload (ht : f.header.messageType = .transferResult) (hp : f.payload = encodeTransferResult .success) :
      Reports f .uploadRequest
  | sync (ht : f.header.messageType = .syncResult) (hp : f.payload = encodeSyncResult .success) :
      Reports f .syncManifest

/-- What is asked for in the log under this type and id is in the tree. -/
def Fulfilled (root : Path) (log : List net.Event) (fs : Fs) (type : MessageType) (requestId : UInt64) : Prop :=
  ∃ request ∈ received log, request.1.header.messageType = type ∧ request.1.header.requestId = requestId ∧
    ∃ records, Asks request.1 records ∧ ∀ record ∈ records, Present fs root record

/-- If the event reports success, then rightly so. -/
def Vouches (root : Path) (w : World) (e : net.Event) : Prop :=
  ∀ f r type, e = ⟨.send f, r⟩ → Reports f.1 type → Fulfilled root w.log w.host.fs type f.1.header.requestId

/-- What every step of a session satisfies. -/
def Served (cr : Crypto) (root : Path) (limits : TransferLimits) (w w' : World) : Prop :=
  ∃ e, w'.log = w.log ++ [e] ∧ Mutation cr root limits w.log w.host.fs w'.host.fs ∧ Vouches root w e

section
variable {cr : Crypto} {root : Path} {limits : TransferLimits} {log : List net.Event} {fs fs' : Fs} {u : Upload}
  {w w' : World}

theorem Requested.safe (h : Requested cr root limits log u) : isSafeRemotePath u.metadata.filename = true := by
  obtain ⟨f, -, -, -, hd⟩ := h.request
  exact safe_of_decodeUploadMetadata hd

theorem Requested.push (h : Requested cr root limits log u) (e : net.Event) :
    Requested cr root limits (log ++ [e]) u := by
  obtain ⟨f, hf, hreq⟩ := h.request
  exact ⟨h.cr, h.root, h.limits, f, by rw [received_append]; exact List.mem_append_left _ hf, hreq⟩

theorem Mutation.grows (h : Mutation cr root limits log fs fs') : Grows fs fs' := by
  cases h with
  | same h => rw [h]; exact .refl _
  | makeRoot p hp h => exact h.grows
  | upload u hu h => exact h.grows
  | commit u hu h => exact h.grows

theorem served_recv (r : Except ReceiveFailure WireFrame) : Served cr root limits w (w.push ⟨.recv, r⟩) :=
  ⟨_, rfl, .same rfl, fun f r' type he => by cases he⟩

/-- A step of an upload that was asked for. -/
theorem served_upload {w₀ : World} (hu : Requested cr root limits w.log u) (hv : u.Visible w₀ w)
    (h : u.Guarantee w₀.log w w') : Served cr root limits w w' := by
  obtain ⟨e, hl, hren, hcom, hchg, hframe, hres⟩ := h
  refine ⟨e, hl, ?_, ?_⟩
  · by_cases hr : u.Renamed w₀.log w.log
    · exact .same (hren hr).1
    · by_cases he : e = u.renameDone
      · exact .commit u hu (hcom hr he)
      · exact .upload u hu (hchg hr he)
  · rintro f r type rfl hf
    obtain ⟨hid, htype⟩ := hframe f r rfl
    cases hf with
    | upload ht hp =>
      have hr := (hres .success ⟨f, r, rfl, ht, hp⟩).1 rfl
      obtain ⟨request, hmem, ht', hid', hd⟩ := hu.request
      refine ⟨request, hmem, ht', hid'.trans hid.symm, _, .inl ⟨ht', _, hd, rfl⟩, fun record hrec => ?_⟩
      obtain rfl := List.mem_singleton.mp hrec
      rw [← hu.root]
      exact (hv.after hr).2
    | sync ht hp =>
      rw [ht] at htype
      rcases htype with h | h | h <;> cases h

/-- The log says that the server was asked to synchronize these records. -/
def Promised (requestId : UInt64) (source : FileManifest) (log : List net.Event) : Prop :=
  ∃ manifest ∈ received log, manifest.1.header.messageType = .syncManifest ∧
    manifest.1.header.requestId = requestId ∧
    ∃ maxEntries, decodeManifest (.of manifest.1.payload) maxEntries = .ok source

section
variable {requestId : UInt64} {source : FileManifest}

theorem Promised.push (h : Promised requestId source log) (e : net.Event) :
    Promised requestId source (log ++ [e]) := by
  obtain ⟨manifest, hm, hmanifest⟩ := h
  exact ⟨manifest, by rw [received_append]; exact List.mem_append_left _ hm, hmanifest⟩

theorem Promised.fulfilled (h : Promised requestId source log) (hp : ∀ record ∈ source, Present fs root record) :
    Fulfilled root log fs .syncManifest requestId := by
  obtain ⟨manifest, hm, ht, hid, hd⟩ := h
  exact ⟨manifest, hm, ht, hid, source, .inr ⟨ht, hd⟩, hp⟩

end

variable (cr limits) in
/-- `receive_file`, with the request received: every step is one of the upload that was asked for. -/
theorem receiveFile_requested {request : WireFrame} {metadata : UploadMetadata} (hroot : w.host.fs.Plain root)
    (hreq : request ∈ received w.log) (ht : request.1.header.messageType = .uploadRequest)
    (hd : decodeUploadMetadata (.of request.1.payload) = .ok metadata) :
    let u := uploadOf cr request.1 root limits metadata
    Safe (solo (exec cr) anyAnswer)
      (fun a b => Requested cr root limits a.log u ∧ u.Visible w a ∧ u.Guarantee w.log a b)
      (receiveFile request.1 root limits) w fun _ w' => w'.host.fs.Plain root := by
  have hkeep := (receiveFile_safely cr root limits hroot hd).keeps
    (fun v => v.host.fs.Plain root ∧ Requested cr root limits v.log (uploadOf cr request.1 root limits metadata) ∧
      (uploadOf cr request.1 root limits metadata).Visible w v)
    ⟨hroot, ⟨rfl, rfl, rfl, request, hreq, ht, rfl, hd⟩, Upload.visible_start _ w⟩ ?_
  · exact safe_mono (safe_weaken hkeep fun _ _ h => ⟨h.1.2.1, h.1.2.2, h.2⟩) fun r w' h => h.2.1
  · intro a b ha hg
    refine ⟨hg.grows.plain ha.1, ?_, ha.2.2.step (safe_of_decodeUploadMetadata hd) hg⟩
    obtain ⟨e, hl, -⟩ := hg
    rw [hl]
    exact ha.2.1.push e

theorem receiveFile_served {request : WireFrame} (hroot : w.host.fs.Plain root) (hreq : request ∈ received w.log)
    (ht : request.1.header.messageType = .uploadRequest) :
    Safe (solo (exec cr) anyAnswer) (Served cr root limits) (receiveFile request.1 root limits) w
      fun _ w' => w'.host.fs.Plain root := by
  cases hd : decodeUploadMetadata (.of request.1.payload) with
  | error error =>
    have hkeep := (receiveFile_refusing cr root limits (w := w) hd).keeps (fun w => w.host.fs.Plain root) hroot ?_
    · refine safe_mono (safe_weaken hkeep ?_) fun r w' h => h.2
      rintro a b ⟨-, e, hl, hfs, hno, htype⟩
      refine ⟨e, hl, .same hfs, ?_⟩
      rintro f r type rfl hf
      cases hf with
      | upload ht hp => exact absurd ⟨f, r, rfl, ht, hp⟩ hno
      | sync ht hp => cases ht.symm.trans (htype f r rfl)
    · rintro a b ha ⟨e, -, hfs, -⟩
      rwa [hfs]
  | ok metadata =>
    exact safe_weaken (receiveFile_requested cr limits hroot hreq ht hd) fun _ _ h => served_upload h.1 h.2.1 h.2.2

end

end SyncWire
