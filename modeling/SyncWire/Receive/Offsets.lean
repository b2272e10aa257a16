import SyncWire.Receive.Runs

/-!
# The offsets `receive_file` reports

What `Exact` asks of every report and every `write`, said of the runs of `receive_file`.

* `offsets_exact`: for every old part file, every client and every failure.
-/

namespace SyncWire

open Wire Effect Posix Posix.Fs FileTransfer

open Upload

section
variable (cr : Crypto) {request : Frame} (root : Path) (limits : TransferLimits) {w : World}

theorem receiveFile_idle {error : TransferCodecError}
    (hd : decodeUploadMetadata (.of request.payload) = .error error) :
    Uses Idle (receiveFile request root limits) := by
  rcases receiveFile_cases request root limits with ⟨r, -, he⟩ | ⟨metadata, hd', -⟩
  · rw [he]
    exact idle_rejectBeforeReady _ _
  · cases hd.symm.trans hd'

/-- **Offsets.**  Whatever the old part file `P`, the client and the failures: when a ready message or an
acknowledgment is about to be sent, the part file holds exactly as many bytes as it reports, the
write position is behind them, the checksum reported (and the one kept for the rest of the transfer)
is theirs, and they are what was retained of `P` followed by the data of every chunk received.  And
every `write` continues the last chunk received at the end of the file, where that chunk belongs; it is
within the chunk size and ends within the declared size.  The root is spelled without symbolic links above it
(`Plain`). -/
theorem offsets_exact {c : Side net Host FileTransferResult} (hroot : w.host.fs.Plain root)
    (hr : Reach (solo (exec cr) anyAnswer) (receiveFile request root limits, w) c) :
    (∀ m k, c.1 = .op (.send m) k → Reports m →
      ∃ metadata, decodeUploadMetadata (.of request.payload) = .ok metadata ∧
        let u := uploadOf cr request root limits metadata
        let P := (w.host.fs.fileAt u.partPath).getD []
        ∃ d f p chunks, k (.ok ()) = continueTransfer (u.transfer d f) p ∧
          u.Accepted w.log c.2.log chunks ∧ u.Held f p (u.content P chunks) c.2.host ∧
          u.Report P chunks p.offset m) ∧
    ∀ fd x k, c.1 = .op (.call (.write fd x)) k →
      ∃ metadata, decodeUploadMetadata (.of request.payload) = .ok metadata ∧
        let u := uploadOf cr request root limits metadata
        u.Writes w.log ((w.host.fs.fileAt u.partPath).getD []) fd x c.2 := by
  obtain ⟨q, w'⟩ := c
  cases hd : decodeUploadMetadata (.of request.payload) with
  | error error =>
    have hidle := (receiveFile_idle root limits hd).along w q w' hr
    constructor
    · rintro m k rfl hm
      exact absurd hm hidle
    · rintro fd x k rfl
      exact absurd hidle id
  | ok metadata =>
    have hex := (receiveFile_abides cr root limits hroot hd).exact q w' hr
    constructor
    · rintro m k rfl hm
      obtain ⟨f, p, chunks, ⟨d, hk⟩, hrest⟩ := hex hm
      exact ⟨metadata, rfl, d, f, p, chunks, hk, hrest⟩
    · rintro fd x k rfl
      exact ⟨metadata, rfl, hex⟩

end

/-- The type of the frame about to be sent. -/
def pendingType {α : Type} : Sys α → Option MessageType
  | .op (.send m) _ => some m.1.header.messageType
  | _ => none

theorem send_of_pendingType {α : Type} {q : Sys α} {type : MessageType} (h : pendingType q = some type) :
    ∃ m k, q = .op (.send m) k ∧ m.1.header.messageType = type := by
  unfold pendingType at h
  split at h
  · next m k => exact ⟨m, k, rfl, Option.some.inj h⟩
  · cases h

theorem sampleRun_offsets :
    let u := uploadOf sampleCrypto sampleRequest sampleRoot {} sampleMetadata
    ∃ m k d f p chunks, (sampleRun 19).1 = .op (.send m) k ∧ m.1.header.messageType = .acknowledgment ∧
      k (.ok ()) = continueTransfer (u.transfer d f) p ∧
      u.Held f p (u.content ((sampleHost.fs.fileAt u.partPath).getD []) chunks) (sampleRun 19).2.host := by
  obtain ⟨m, k, hq, hm⟩ := send_of_pendingType
    (show pendingType (sampleRun 19).1 = some .acknowledgment by decide +kernel)
  obtain ⟨metadata, hd, d, f, p, chunks, hk, -, H, -⟩ := (offsets_exact sampleCrypto sampleRoot {} sampleRoot_plain
    (reach_runAgainst sampleCrypto sampleFrames 19 (receiveFile sampleRequest sampleRoot {}) ⟨sampleHost, []⟩)).1
    m k hq (.inr hm)
  rw [decode_sampleRequest] at hd
  cases hd
  exact ⟨m, k, d, f, p, chunks, hq, hm, hk, H⟩

end SyncWire
