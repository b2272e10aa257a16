import SyncWire.Session.Sync
import SyncWire.Sync.Verify

/-!
# A sync with nothing to do

Where nothing fails and the destination has every file of the source, all interleavings of
`sync_directory` and `receive_directory_sync` end with `Success`: the plan is empty, so the
two sides exchange the manifest, the plan, the end and the result, and no file is touched
(`sync_nothing`).
-/

namespace SyncWire

open Wire Effect Posix Posix.Fs FileTransfer Session

namespace DirectorySync

/-- The server's end: the first frame is the manifest. -/
def serveSync (root : Path) (limits : DirectorySyncLimits) : Sys (Except FrameIoResult DirectorySyncResult) := do
  match ← receiveFrame with
  | .error error => pure (.error error)
  | .ok manifest => return .ok (← receiveDirectorySync manifest root limits)

theorem expectControl_makeFrame (type : MessageType) (requestId : UInt64) (payload : List UInt8) :
    expectControl type requestId (.ok (makeFrame type requestId payload)) = .ok
      (makeFrame type requestId payload) := by
  simp [expectControl, makeFrame, SyncWire.makeFrame]

/-- What a sync without uploads asks of the two trees. -/
structure Settled (limits limits' : DirectorySyncLimits) (fs fs' : Fs) (root root' : Path) : Prop where
  source : Scannable limits.scan fs root
  encoded : encodeManifest (listing fs root) ≠ []
  fits : (encodeManifest (listing fs root)).length ≤ kDefaultMaxPayload.toNat
  count : (listing fs root).length ≤ limits'.scan.maxEntries
  sizes : ((listing fs root).any fun file => decide (file.size > limits'.scan.maxFileSize)) = false
  destination : Scannable limits'.scan fs' root'
  present : ∀ r ∈ listing fs root, r ∈ listing fs' root'

section
variable {cr : Crypto} {root root' : Path} {limits limits' : DirectorySyncLimits} {requestId : UInt64}
  {w v : World} {α β : Type} {Q : α → World → β → World → Prop}

/-- The client sends a control frame, the server expects it. -/
theorem together_toServer {type : MessageType} {payload : List UInt8} (ht : isKnownMessageType type.raw = true)
    (hlen : payload.length ≤ kDefaultMaxPayload.toNat) {k : FrameIoResult → Sys α}
    {k' : Except DirectorySyncResult Frame → Sys β} (hl : Linked w v)
    (h : ∀ res w' v', res.ok = true → w'.host = w.host → v'.host = v.host → Linked w' v' →
      Together cr (k res, w') (k' (.ok (makeFrame type requestId payload)), v') Q) :
    Together cr (sendFrame (makeFrame type requestId payload) >>= k, w)
      (receiveControlFrame type requestId >>= k', v) Q := by
  rw [receiveControlFrame_bind]
  refine jends_toServer (makeFrame_valid ht hlen) hl fun res w' v' hres hw hv hl' => ?_
  have := h res w' v' hres hw hv hl'
  rwa [← expectControl_makeFrame] at this

/-- The server sends a control frame, the client expects it. -/
theorem together_toClient {type : MessageType} {payload : List UInt8} (ht : isKnownMessageType type.raw = true)
    (hlen : payload.length ≤ kDefaultMaxPayload.toNat) {k : FrameIoResult → Sys β}
    {k' : Except DirectorySyncResult Frame → Sys α} (hl : Linked w v)
    (h : ∀ res w' v', res.ok = true → w'.host = w.host → v'.host = v.host → Linked w' v' →
      Together cr (k' (.ok (makeFrame type requestId payload)), w') (k res, v') Q) :
    Together cr (receiveControlFrame type requestId >>= k', w)
      (sendFrame (makeFrame type requestId payload) >>= k, v) Q := by
  rw [receiveControlFrame_bind]
  refine jends_toClient (makeFrame_valid ht hlen) hl fun res w' v' hres hw hv hl' => ?_
  have := h res w' v' hres hw hv hl'
  rwa [← expectControl_makeFrame] at this

/-- The server's last scan finds every file of the source, and it says so. -/
theorem together_verify {source : FileManifest} {result : DirectorySyncResult}
    {k : Except DirectorySyncResult Frame → Sys α} {k' : DirectorySyncResult → Sys β}
    (hscan : Scannable limits'.scan v.host.fs root') (hs : SortedRecords source)
    (hin : ∀ r ∈ source, r ∈ listing v.host.fs root') (hl : Linked w v)
    (h : ∀ w' v', w'.host = w.host → v'.host.fs = v.host.fs → Linked w' v' →
      Together cr (k (.ok (makeFrame .syncResult requestId (encodeSyncResult .success))), w') (k' result, v') Q) :
    Together cr (receiveControlFrame .syncResult requestId >>= k, w)
      (verify root' requestId limits' source result >>= k', v) Q := by
  unfold verify
  rw [bind_assoc]
  refine jends_right_still calm_patient hl (scanDirectory_calmly hscan.isDir) ?_
  rintro scan v1 ⟨hfs, ⟨⟨found, rfl, hfound⟩, -⟩ | ⟨-, hno⟩⟩ hl1
  · have hempty : (buildSyncPlan source found.files).uploadPaths.isEmpty = true := by
      rw [List.isEmpty_iff, hfound, buildSyncPlan_nil_iff hs (listing_sorted hscan.isDir)]
      exact hin
    simp only [hempty, if_true, bind_assoc]
    refine together_toClient rfl (by decide) hl1 fun res w2 v2 hres hw2 hv2 hl2 => ?_
    rw [if_pos hres]
    exact h w2 v2 hw2 (by rw [hv2, hfs]) hl2
  · exact absurd hscan hno

/-- A manifest that is accepted. -/
theorem receiveDirectorySync_accepts {files : FileManifest} (hid : requestId ≠ 0) (hne : encodeManifest files ≠ [])
    (hcount : files.length ≤ limits.scan.maxEntries)
    (hsizes : (files.any fun file => decide (file.size > limits.scan.maxFileSize)) = false) :
    receiveDirectorySync (makeFrame .syncManifest requestId (encodeManifest files)) root limits =
      receiveManifest root requestId limits files := by
  unfold receiveDirectorySync
  rw [if_neg (by simp [makeFrame, SyncWire.makeFrame, hid])]
  rw [show decodeManifest (.of (makeFrame .syncManifest requestId (encodeManifest files)).payload)
    limits.scan.maxEntries = .ok files from decodeManifest_encode hne hcount]
  simp only [hsizes]
  rfl

/-- An empty plan: the client is told, and says that it is done. -/
theorem together_executePlan {source : FileManifest} {plan : SyncPlan}
    {Q : DirectorySyncResult → World → β → World → Prop} {k' : DirectorySyncResult → Sys β}
    (hempty : plan.uploadPaths = []) (hpayload : encodeSyncPlan plan ≠ [] ∧
      (encodeSyncPlan plan).length ≤ kDefaultMaxPayload.toNat)
    (hdecode : decodeSyncPlan (.of (encodeSyncPlan plan)) limits.scan.maxEntries = .ok plan)
    (hsum : plan.uploadPaths.length + plan.unchangedCount.toNat = source.length)
    (hscan : Scannable limits'.scan v.host.fs root') (hs : SortedRecords source)
    (hin : ∀ r ∈ source, r ∈ listing v.host.fs root') (hl : Linked w v)
    (h : ∀ w' v', w'.host = w.host → v'.host.fs = v.host.fs → Linked w' v' →
      Together cr (pure (planResult plan), w') (k' (planResult plan), v') Q) :
    Together cr
      (receiveControlFrame .syncPlan requestId >>= fun x =>
        match x with
        | .error result => pure result
        | .ok planFrame => followPlan root requestId limits source planFrame, w)
      (executePlan root' requestId limits' source plan >>= k', v) Q := by
  have hzero : ¬ plan.uploadPaths.length > (0xFFFFFFFFFFFFFFFF - requestId).toNat := by
    rw [hempty]
    exact Nat.not_lt_zero _
  unfold executePlan
  rw [if_neg hzero]
  simp only [hpayload.1, Nat.not_lt.mpr hpayload.2, or_self, if_false, bind_assoc]
  refine together_toClient rfl hpayload.2 hl fun res w1 v1 hres hw1 hv1 hl1 => ?_
  have hdecode' : decodeSyncPlan (.of (makeFrame .syncPlan requestId (encodeSyncPlan plan)).payload)
      limits.scan.maxEntries = .ok plan := hdecode
  rw [if_pos hres]
  simp only [followPlan, hdecode', hempty, uploadFiles, receiveFiles, pure_bind]
  rw [hempty] at hsum hzero
  rw [if_neg (not_not.mpr hsum), if_neg hzero]
  unfold completeSync
  simp only [bind_assoc]
  refine together_toServer rfl (by decide) hl1 fun res w2 v2 hres hw2 hv2 hl2 => ?_
  have hnil : (makeFrame .syncComplete requestId []).payload = [] := rfl
  rw [if_pos hres]
  simp only [hnil, ne_eq, not_true_eq_false, if_false]
  have hv : v2.host = v.host := hv2.trans hv1
  refine together_verify (hv ▸ hscan) hs (hv ▸ hin) hl2 fun w3 v3 hw3 hv3 hl3 => ?_
  have hsuccess : decodeSyncResult (.of (makeFrame .syncResult requestId (encodeSyncResult .success)).payload) =
      .ok .success := decodeSyncResult_encode _
  simp only [hsuccess, not_true_eq_false, if_false]
  exact h w3 v3 (hw3.trans (hw2.trans hw1)) (hv3.trans (by rw [hv])) hl3

/-- **Nothing to do.**  The two sides agree that there is nothing to upload, and succeed. -/
theorem sync_nothing (hs : Settled limits limits' w.host.fs v.host.fs root root') (hid : requestId ≠ 0)
    (hl : Linked w v) :
    Together cr (syncDirectory root requestId limits, w) (serveSync root' limits', v) fun r w' x v' =>
      r = planResult (buildSyncPlan (listing w.host.fs root) (listing v.host.fs root')) ∧ x = .ok r ∧
        w'.host.fs = w.host.fs ∧ v'.host.fs = v.host.fs := by
  have hsd := listing_sorted hs.destination.isDir
  have hss := listing_sorted hs.source.isDir
  obtain ⟨hpayload, hdecode, hsum, -⟩ := plan_transported hs.encoded hs.fits hsd
  have hempty := (buildSyncPlan_nil_iff hss hsd).mpr hs.present
  unfold syncDirectory
  rw [if_neg hid]
  -- the client scans and sends its manifest
  refine jends_left_still calm_patient hl (scanDirectory_calmly hs.source.isDir) ?_
  rintro scan w1 ⟨hfs1, ⟨⟨found, rfl, hfound⟩, hscan⟩ | ⟨-, hno⟩⟩ hl1
  swap
  · exact absurd hs.source hno
  simp only [hfound, hs.encoded, Nat.not_lt.mpr hs.fits, or_self, if_false]
  unfold serveSync
  refine jends_toServer (makeFrame_valid rfl hs.fits) hl1 fun res w2 v2 hres hw2 hv2 hl2 => ?_
  rw [if_pos hres]
  simp only
  rw [show SyncWire.makeFrame .syncManifest requestId 0 (encodeManifest (listing w.host.fs root)) =
    makeFrame .syncManifest requestId (encodeManifest (listing w.host.fs root)) from rfl,
    receiveDirectorySync_accepts hid hs.encoded hs.count hs.sizes, receiveManifest]
  -- the server finds its root and scans it
  have hroot2 : v2.host.fs.node root' = some .dir := hv2 ▸ hs.destination.isDir
  rw [bind_assoc]
  refine jends_right_still calm_patient hl2 (createDirectories_existing hroot2) ?_
  rintro made v3 ⟨rfl, hfs3⟩ hl3
  have hfs : v3.host.fs = v.host.fs := hfs3.trans (by rw [hv2])
  simp only [bind_assoc]
  refine jends_right_still calm_patient hl3 (scanDirectory_calmly (hfs ▸ hs.destination.isDir)) ?_
  rintro scan v4 ⟨hfs4, ⟨⟨found', rfl, hfound'⟩, -⟩ | ⟨-, hno⟩⟩ hl4
  swap
  · exact absurd (hfs ▸ hs.destination) hno
  rw [hfs] at hfound' hfs4
  simp only [hfound']
  have hcount : (listing w.host.fs root).length ≤ limits.scan.maxEntries := by
    rw [length_listing]
    exact hs.source.count
  refine together_executePlan hempty hpayload (hdecode _ hcount) hsum (hfs4.symm ▸ hs.destination) hss
    (hfs4.symm ▸ hs.present) hl4 fun w5 v5 hw5 hv5 hl5 => ?_
  exact jends_done ⟨rfl, rfl, by rw [hw5, hw2, hfs1], hv5.trans hfs4⟩

end

end DirectorySync

end SyncWire
