import SyncWire.Receive.Offsets

/-!
# What becomes of the part file

Once the ready message is on its way there are three ways out: the transfer is rejected, it
is interrupted, or it is committed.  Rejecting and committing leave no part file.  Being
interrupted leaves it only if the connection was lost and the sync after that succeeded,
and then it is what the chunks received so far make it.

* `part_file_fate`: for every client and every failure but that of `unlinkat`.
-/

namespace SyncWire

open Wire Effect Posix Posix.Fs FileTransfer

/-- `unlinkat` does not fail; nothing else is assumed. -/
def unlinks : net.Rely := fun _ o r => unlinked ⟨o, r⟩ = true

open Upload

/-- Where `unlinkat` does not fail, no event says that it did. -/
theorem clean_of_reach {cr : Crypto} {α : Type} {c c' : Side net Host α}
    (hr : Reach (solo (exec cr) unlinks) c c') : Clean c.2.log c'.2.log := by
  induction hr with
  | refl => exact ⟨[], by simp, by simp⟩
  | tail _ hs ih =>
    cases hs with
    | op hs =>
      obtain ⟨l, hl, hun⟩ := ih
      refine ⟨l ++ [⟨_, _⟩], by rw [perform_log hs.2, hl, List.append_assoc], fun e he => ?_⟩
      rcases List.mem_append.mp he with he | he
      · exact hun e he
      · obtain rfl := List.mem_singleton.mp he
        exact hs.1
    | loop => exact ih

section
variable (cr : Crypto) {request : Frame} (root : Path) (limits : TransferLimits) {w : World}

/-- **Fate of the part file.**  A run of `receive_file` has sent the ready message and returned, whatever
the client sent and whichever calls failed, `unlinkat` excepted.  Then the part file is there if and only if
the connection was lost while a frame was received, or while the ready message or an acknowledgment was
sent, and the sync after that succeeded; in that case it holds as many bytes as the result reports: what
was retained of the old part file `P`, followed by the data of every frame received.  The root is spelled without
symbolic links above it (`Plain`). -/
theorem part_file_fate {result : FileTransferResult} {w' : World} (hroot : w.host.fs.Plain root)
    (hr : Reach (solo (exec cr) unlinks) (receiveFile request root limits, w) (.pure result, w'))
    (hready : Readied w.log w'.log) :
    ∃ metadata, decodeUploadMetadata (.of request.payload) = .ok metadata ∧
      let u := uploadOf cr request root limits metadata
      let P := (w.host.fs.fileAt u.partPath).getD []
      (w'.host.fs.node u.partPath ≠ none ↔ Interrupted w'.log) ∧
      (Interrupted w'.log → ∃ chunks, u.Accepted w.log w'.log chunks ∧
        w'.host.fs.fileAt u.partPath = some (u.content P chunks) ∧
        result.transferred.toNat = (u.content P chunks).length) := by
  cases hd : decodeUploadMetadata (.of request.payload) with
  | error error =>
    have hlast : Unready w.log w'.log := along_unready (receiveFile_idle root limits hd) (unready_start _) _ _ hr
    exact absurd hready hlast.not_readied
  | ok metadata =>
    refine ⟨metadata, rfl, ?_⟩
    intro u P
    have hreach : Reach (solo (exec cr) anyAnswer) (receiveFile request root limits, w) (.pure result, w') :=
      reach_mono (fun _ _ _ _ => trivial) hr
    have hout : u.Fate w.log P result w' :=
      ((receiveFile_abides cr root limits hroot hd).safely.result hreach).fate (clean_of_reach hr) hready
    rcases hout with ⟨hnone, hnot⟩ | ⟨hint, chunks, hacc, hfile, hlen⟩
    · exact ⟨iff_of_false (by simpa using hnone) hnot, fun h => absurd h hnot⟩
    · refine ⟨iff_of_true (fun hnone => ?_) hint, fun _ => ⟨chunks, hacc, hfile, hlen⟩⟩
      rw [fileAt, hnone] at hfile
      cases hfile

end

/-- The server, left by its client after the chunk. -/
def sampleLost : Sys FileTransferResult × World :=
  runAgainst sampleCrypto (sampleFrames.take 1) 80 (receiveFile sampleRequest sampleRoot {}) ⟨sampleHost, []⟩

/-- The chunk is on the disk when the client is gone. -/
theorem part_file_fate_sample :
    let u := uploadOf sampleCrypto sampleRequest sampleRoot {} sampleMetadata
    Interrupted sampleLost.2.log ∧ sampleLost.2.host.fs.node u.partPath ≠ none ∧
      ∃ chunks, u.Accepted [] sampleLost.2.log chunks ∧
        sampleLost.2.host.fs.fileAt u.partPath = some (u.content [] chunks) ∧
          (u.content [] chunks).length = 3 := by
  have hr : Reach (solo (exec sampleCrypto) anyAnswer) (receiveFile sampleRequest sampleRoot {}, ⟨sampleHost, []⟩)
      (.pure { frameError (ReceiveFailure.io (.peerClosed 0)).result with transferred := 3 }, sampleLost.2) :=
    reach_of_result? (by decide +kernel)
  have hun : ∀ e ∈ sampleLost.2.log, unlinked e = true := by decide +kernel
  have hready : ∃ m ∈ sent sampleLost.2.log, m.1.header.messageType = .transferReady := by decide +kernel
  have hnode : sampleLost.2.host.fs.node
      (uploadOf sampleCrypto sampleRequest sampleRoot {} sampleMetadata).partPath ≠ none := by decide +kernel
  obtain ⟨metadata, hd, hiff, hsaved⟩ := part_file_fate sampleCrypto sampleRoot {} sampleRoot_plain
    (reach_of_events hr fun e he _ => hun e he) ⟨_, rfl, hready⟩
  rw [decode_sampleRequest] at hd
  cases hd
  have hint := hiff.mp hnode
  obtain ⟨chunks, hacc, hfile, hlen⟩ := hsaved hint
  exact ⟨hint, hnode, chunks, hacc, hfile, hlen.symm⟩

end SyncWire
