import SyncWire.Session.Upload
import SyncWire.ClientSession
import SyncWire.Sync.Walk

/-!
# A directory sync as a session

As for an upload: `syncDirectory_heeds` is about the client and
`receiveDirectorySync_polite` about the server.  Of the client's results only whether
`main` takes them for a broken connection (`retryable`) is kept, and of the server's whether it
told the client (`silent`).
-/

namespace SyncWire

open Wire Effect Posix FileTransfer DirectorySync

/-- The failures of `receive_directory_sync` that nobody is told of. -/
def DirectorySyncResult.silent (r : DirectorySyncResult) : Bool :=
  match r.status with
  | .success | .frameIoError | .fileTransferError | .planMismatch | .verificationFailed => false
  | _ => true

namespace Session

theorem transportFailure_result (failure : IoFailure) : transportFailure failure.result = true := by
  cases failure <;> rfl

theorem transportFailure_closed {e : ReceiveFailure} (he : closed e) : transportFailure e.result = true := by
  obtain ⟨failure, rfl⟩ := he
  exact transportFailure_result failure

theorem transportFailure_invalid {io : FrameIoResult} (h : io.status = .invalidFrame) :
    transportFailure io = false := by
  simp [transportFailure, h]

theorem Answered.notRetryable {requestId : UInt64} {h₀ h : List net.Event} {m : WireFrame} {a : FileTransferResult}
    (H : Answered requestId h₀ h m a) : a.retryable = false := by
  simp [FileTransferResult.retryable, H.notIo]

theorem Cut.retryable {a : FileTransferResult} (H : Cut a) : a.retryable = true := by
  obtain ⟨failure, rfl⟩ := H
  exact transportFailure_result failure

theorem Sent.notRetryable {first : Bool} {a : FileTransferResult} {h : List net.Event} (H : Sent first a h)
    (hb : broken h = false) : a.retryable = false := by
  unfold FileTransferResult.retryable
  by_cases hio : a.status = .frameIoError
  · rw [transportFailure_invalid (H.intact hb hio), Bool.and_false]
  · simp [hio]

/-! ## The client -/

/-- What `receive_control_frame` makes of what arrives. -/
def expectControl (expectedType : MessageType) (requestId : UInt64) :
    Except FrameIoResult Frame → Except DirectorySyncResult Frame
  | .error error => .error (DirectorySync.frameError error)
  | .ok output =>
    if output.header.requestId ≠ requestId then
      .error { status := .mismatchedRequestId, expectedId := requestId, actualId := output.header.requestId }
    else if output.header.transferId ≠ 0 then
      .error { status := .unexpectedTransferId, actualId := output.header.transferId }
    else if output.header.messageType ≠ expectedType then .error { status := .unexpectedMessageType }
    else .ok output

theorem receiveControlFrame_bind {α : Type} (expectedType : MessageType) (requestId : UInt64)
    (g : Except DirectorySyncResult Frame → Sys α) :
    receiveControlFrame expectedType requestId >>= g =
      receiveFrame >>= fun r => g (expectControl expectedType requestId r) := by
  unfold receiveControlFrame
  rw [bind_assoc]
  refine congrArg (receiveFrame >>= ·) (funext fun r => ?_)
  cases r with
  | error e => rfl
  | ok f =>
    simp only [expectControl]
    split
    · rfl
    · split
      · rfl
      · split <;> rfl

theorem expectControl_ok (expectedType : MessageType) (requestId : UInt64) (f : Frame) :
    (∃ r, expectControl expectedType requestId (.ok f) = .error r ∧ r.retryable = false) ∨
      expectControl expectedType requestId (.ok f) = .ok f ∧ f.header.messageType = expectedType := by
  simp only [expectControl]
  split
  · exact .inl ⟨_, rfl, rfl⟩
  · split
    · exact .inl ⟨_, rfl, rfl⟩
    · split
      · exact .inl ⟨_, rfl, rfl⟩
      · next ht => exact .inr ⟨rfl, not_not.mp ht⟩

/-- The client of a sync; `read` is what its caller sees. -/
abbrev HeedsSync (first : Bool) {α : Type} (read : α → Bool → Prop) : Watch net.sig (List net.Event) α :=
  Heeds first (fun _ _ a => read a false) fun a => read a true

/-- The result is retryable, or not. -/
def Judged (r : DirectorySyncResult) (b : Bool) : Prop := r.retryable = b

/-- The stage raised such a result. -/
def RaisesSync {γ : Type} (x : Except DirectorySyncResult γ) (b : Bool) : Prop := ∃ r, x = .error r ∧ Judged r b

/-- A failure of the connection is retryable. -/
theorem judged_frameError {io : FrameIoResult} (h : transportFailure io = true) :
    Judged (DirectorySync.frameError io) true := by
  unfold Judged DirectorySyncResult.retryable
  rw [show (DirectorySync.frameError io).frameIo = io from rfl, h]
  rfl

/-- On an intact connection a result is not retryable. -/
def Calmed (r : DirectorySyncResult) (h : List net.Event) : Prop := broken h = false → Judged r false

section Client
variable {first : Bool} {h : List net.Event}

theorem calmed_invalid {res : FrameIoResult} (hres : res.status = .invalidFrame) :
    Calmed (DirectorySync.frameError res) h := fun _ => by
  unfold Judged DirectorySyncResult.retryable
  rw [show (DirectorySync.frameError res).frameIo = res from rfl, transportFailure_invalid hres]
  rfl

theorem calmed_broken {r : DirectorySyncResult} (hb : broken h = true) : Calmed r h := fun hn => by
  rw [hb] at hn
  cases hn

theorem completeSync_heeds (hturn : waits first h = false) (requestId : UInt64) {result : DirectorySyncResult}
    (hr : result.ok = true) :
    Converses (HeedsSync first Judged) (completeSync requestId result) h Calmed := by
  have hstatus : result.status = .success := by simpa [DirectorySyncResult.ok] using hr
  refine heeds_ask_last hturn (fun res hres => ?_) (fun n => receiveControlFrame_bind _ _ _) (fun failure => ?_)
    (fun e => ⟨_, rfl, fun he => judged_frameError (transportFailure_closed he), fun l hl => calmed_broken hl⟩)
    fun m => ?_
  · rw [if_neg (by rw [FrameIoResult.ok, hres]; decide)]
    exact converses_pure (calmed_invalid hres)
  · refine ⟨DirectorySync.frameError failure.result, ?_, judged_frameError (transportFailure_result failure),
      fun l hl => calmed_broken hl⟩
    cases failure <;> rfl
  · have hfinal : ∀ a : DirectorySyncResult, a.retryable = false →
        (∀ _ : List net.Event, Judged a false) ∧ ∀ l, Calmed a (l ++ [⟨.recv, .ok m⟩]) :=
      fun a ha => ⟨fun _ => ha, fun _ _ => ha⟩
    rcases expectControl_ok .syncResult requestId m.1 with ⟨r, he, hr⟩ | ⟨he, -⟩
    · simp only [he]
      exact ⟨r, rfl, hfinal r hr⟩
    · simp only [he]
      split
      · exact ⟨_, rfl, hfinal _ rfl⟩
      · split
        · exact ⟨_, rfl, hfinal _ rfl⟩
        · exact ⟨_, rfl, hfinal _ (by simp [DirectorySyncResult.retryable, hstatus])⟩

theorem retryable_fileTransfer (result : DirectorySyncResult) (a : FileTransferResult) :
    ({ result with status := .fileTransferError, fileTransfer := a } : DirectorySyncResult).retryable =
      a.retryable := by
  simp [DirectorySyncResult.retryable, FileTransferResult.retryable]

/-- How the loop over the planned files leaves the connection. -/
def Uploaded (first : Bool) : Except DirectorySyncResult DirectorySyncResult → List net.Event → Prop
  | .error r, h => Calmed r h
  | .ok r, h => r.ok = true ∧ waits first h = false

theorem uploadFiles_heeds (root : Path) (requestId : UInt64) (limits : DirectorySyncLimits) (source : FileManifest)
    (index : Nat) (paths : List (List UInt8)) {result : DirectorySyncResult} (hr : result.ok = true)
    (hturn : waits first h = false) :
    Converses (HeedsSync first RaisesSync)
      (uploadFiles root requestId limits source index paths result) h (Uploaded first) := by
  induction paths generalizing index result h with
  | nil => exact converses_pure ⟨hr, hturn⟩
  | cons path paths ih =>
    unfold uploadFiles
    split
    · exact converses_pure fun _ => rfl
    · refine heeds_bind (sendFile_heeds hturn _ _ _ _) ?_ ?_ fun a h' ha => ?_
      · intro h m a hans
        refine ⟨_, by rw [if_neg (by rw [hans.failed]; simp)]; rfl, _, rfl, ?_⟩
        exact (retryable_fileTransfer result a).trans hans.notRetryable
      · rintro a hcut
        have hret := hcut.retryable
        obtain ⟨failure, rfl⟩ := hcut
        exact ⟨_, rfl, _, rfl, (retryable_fileTransfer result _).trans hret⟩
      · split
        · next hok => exact ih _ hr (ha.turn hok)
        · exact converses_pure fun hb => (retryable_fileTransfer result a).trans (ha.notRetryable hb)

theorem followPlan_heeds (hturn : waits first h = false) (root : Path) (requestId : UInt64)
    (limits : DirectorySyncLimits) (source : FileManifest) (planFrame : Frame) :
    Converses (HeedsSync first Judged) (followPlan root requestId limits source planFrame) h Calmed := by
  unfold followPlan
  split
  · exact converses_pure fun _ => rfl
  · split
    · exact converses_pure fun _ => rfl
    · split
      · exact converses_pure fun _ => rfl
      · refine heeds_bind (uploadFiles_heeds root requestId limits source 0 _ rfl hturn) ?_ ?_
          fun x h' hx => ?_
        · rintro h m x ⟨r, rfl, hr⟩
          exact ⟨r, rfl, hr⟩
        · rintro x ⟨r, rfl, hr⟩
          exact ⟨r, rfl, hr⟩
        · cases x with
          | error r => exact converses_pure hx
          | ok r => exact completeSync_heeds hx.2 requestId hx.1

theorem syncDirectory_heeds (hturn : waits first h = false) (root : Path) (requestId : UInt64)
    (limits : DirectorySyncLimits) :
    Converses (HeedsSync first Judged) (syncDirectory root requestId limits) h Calmed := by
  unfold syncDirectory
  split
  · exact converses_pure fun _ => rfl
  · refine heeds_does (scanDirectory_issues root limits.scan) fun r _ => ?_
    cases r with
    | error failure => exact converses_pure fun _ => rfl
    | ok source =>
      dsimp only
      split
      · exact converses_pure fun _ => rfl
      · refine heeds_ask hturn (fun res hres => ?_) (fun n => receiveControlFrame_bind _ _ _) (fun failure => ?_)
          (fun e => ⟨_, rfl, fun he => judged_frameError (transportFailure_closed he), fun l hl =>
            calmed_broken hl⟩) (fun hf m hm => ?_)
          fun hf m => ?_
        · rw [if_neg (by rw [FrameIoResult.ok, hres]; decide)]
          exact converses_pure (calmed_invalid hres)
        · refine ⟨DirectorySync.frameError failure.result, ?_, judged_frameError (transportFailure_result failure),
            fun l hl => calmed_broken hl⟩
          cases failure <;> rfl
        · -- every refusal is of another type
          rcases expectControl_ok .syncPlan requestId m.1 with ⟨r, he, hr⟩ | ⟨-, ht⟩
          · simp only [he]
            exact ⟨r, rfl, hr⟩
          · rcases refuses_type hm with h | h | h <;> (rw [h] at ht; cases ht)
        · rcases expectControl_ok .syncPlan requestId m.1 with ⟨r, he, hr⟩ | ⟨he, -⟩
          · simp only [he]
            exact converses_pure fun _ => hr
          · simp only [he]
            exact followPlan_heeds waits_concat_ok _ _ _ _ _

end Client

/-! ## The server -/

/-- How a server parts with the connection.  A failure is behind a refusal, if it is behind a reply at all; the
last frame, or the client's connecting, is left unanswered by the failures that are `silent`. -/
structure Parted (first ok silent : Bool) (h : List net.Event) : Prop where
  refused : ok = false → ∀ m, h.getLast? = some ⟨.send m, .ok ()⟩ → Refuses m
  unanswered : ok = false → waits first h = !silent

/-- How the loop over the planned files leaves the connection. -/
def Fetched (first : Bool) : Except DirectorySyncResult DirectorySyncResult → List net.Event → Prop
  | .error r, h => Parted first r.ok r.silent h
  | .ok r, h => r.ok = true ∧ waits first h = true ∧ broken h = false

section Server
variable {first ok silent : Bool} {h : List net.Event} {m : WireFrame}

theorem last_of_turn (hturn : waits true h = false) : h.getLast? ≠ some ⟨.send m, .ok ()⟩ := by
  intro hlast
  simp [waits, hlast] at hturn

theorem parted_ok : Parted first true silent h := ⟨fun ho => (nomatch ho), fun ho => nomatch ho⟩

/-- No reply. -/
theorem parted_silent (hturn : waits true h = false) : Parted true ok true h :=
  ⟨fun _ _ hm => absurd hm (last_of_turn hturn), fun _ => hturn⟩

theorem parted_lost {e : ReceiveFailure} : Parted first ok false (h ++ [⟨.recv, .error e⟩]) :=
  ⟨fun _ _ hm => absurd hm last_recv, fun _ => waits_concat_error⟩

theorem parted_unsent {e : IoFailure} : Parted first ok false (h ++ [⟨.send m, .error e⟩]) :=
  ⟨fun _ _ hm => absurd hm last_unsent, fun _ => waits_concat_send⟩

theorem parted_refusal (hm : Refuses m) : Parted first ok false (h ++ [⟨.send m, .ok ()⟩]) := by
  refine ⟨fun _ m' hl => ?_, fun _ => waits_concat_send⟩
  rw [List.getLast?_concat] at hl
  cases hl
  exact hm

theorem Served.parted {requestId : UInt64} {h₀ : List net.Event} {a : FileTransferResult}
    (H : Served first requestId h₀ a h) (hok : a.ok = false) : Parted first ok false h :=
  ⟨fun _ => H.refused hok, fun _ => H.turn⟩

/-- A reply of the server. -/
theorem polite_reply {α : Type} {f : Frame} {k : FrameIoResult → Sys α} {Q : α → List net.Event → Prop}
    (hv : f.Valid) (hturn : waits first h = false)
    (hfail : ∀ res e, res.ok = false →
      Converses (Polite first) (k res) (h ++ [⟨.send ⟨f, hv⟩, .error e⟩]) Q)
    (hsent : ∀ res, res.ok = true →
      Converses (Polite first) (k res) (h ++ [⟨.send ⟨f, hv⟩, .ok ()⟩]) Q) :
    Converses (Polite first) (sendFrame f >>= k) h Q := by
  refine converses_sendValid hv hturn fun r => ?_
  cases r with
  | ok _ => exact hsent _ rfl
  | error e => exact hfail _ e (sendOutcome_error_ok _ e)

theorem expectControl_silent {type : MessageType} {requestId : UInt64} {f : Frame} {r : DirectorySyncResult}
    (h : expectControl type requestId (.ok f) = .error r) : r.silent = true := by
  unfold expectControl at h
  dsimp only at h
  split at h
  · cases h
    rfl
  · split at h
    · cases h
      rfl
    · split at h
      · cases h
        rfl
      · cases h

theorem receiveFiles_polite (root : Path) (requestId : UInt64) (limits : DirectorySyncLimits) (index : Nat)
    (paths : List (List UInt8)) {result : DirectorySyncResult} (hr : result.ok = true)
    (hturn : waits first h = true) (hb : broken h = false) :
    Converses (Polite first) (receiveFiles root requestId limits index paths result) h
      (Fetched first) := by
  induction paths generalizing index result h with
  | nil => exact converses_pure ⟨hr, hturn, hb⟩
  | cons path paths ih =>
    unfold receiveFiles
    refine converses_receive ⟨hturn, hb⟩ (fun e => converses_pure parted_lost) fun request => ?_
    dsimp only
    split
    · refine polite_bind (receiveFile_polite waits_concat_ok request.1 root _) fun a h' ha => ?_
      split
      · next hok => exact ih _ hr ha.turn (ha.intact hok)
      · next hok => exact converses_pure (ha.parted (by simpa using hok))
    · refine polite_reply (result_valid _ _ _) waits_concat_ok (fun res e hres => ?_) fun res hres => ?_
      · rw [if_neg (by rw [hres]; simp)]
        exact converses_pure parted_unsent
      · rw [if_pos hres]
        exact converses_pure (parted_refusal (refuses_result (by decide) _))

theorem isCall_scanDirectory (root : Path) (limits : DirectoryScanLimits) :
    Issues IsCall (scanDirectory root limits) :=
  (scanDirectory_issues root limits).widen isCall_of_read

theorem verify_polite (hturn : waits true h = false) (root : Path) (requestId : UInt64)
    (limits : DirectorySyncLimits) (source : FileManifest) {result : DirectorySyncResult} (hr : result.ok = true) :
    Converses (Polite true) (verify root requestId limits source result) h
      fun r => Parted true r.ok r.silent := by
  refine polite_does (isCall_scanDirectory _ _) fun r _ => ?_
  cases r with
  | error failure => exact converses_pure (parted_silent hturn)
  | ok found =>
    dsimp only
    generalize (if (buildSyncPlan source found.files).uploadPaths.isEmpty = true then SyncResultCode.success
      else SyncResultCode.destinationChanged) = resultCode
    have hv : (DirectorySync.makeFrame .syncResult requestId (encodeSyncResult resultCode)).Valid :=
      makeFrame_valid rfl (by simp [encodeSyncResult])
    refine polite_reply hv hturn (fun res e hres => ?_) fun res hres => ?_
    · rw [if_neg (by rw [hres]; simp)]
      exact converses_pure parted_unsent
    · rw [if_pos hres]
      split
      · next hcode =>
        refine converses_pure (parted_refusal ?_)
        change decodeSyncResult (.of (encodeSyncResult _)) ≠ _
        rw [decodeSyncResult_encode]
        exact fun he => hcode (Except.ok.inj he)
      · refine converses_pure ?_
        rw [hr]
        exact parted_ok

theorem executePlan_polite (hturn : waits true h = false) (root : Path) (requestId : UInt64)
    (limits : DirectorySyncLimits) (source : FileManifest) (plan : SyncPlan) :
    Converses (Polite true) (executePlan root requestId limits source plan) h
      fun r => Parted true r.ok r.silent := by
  unfold executePlan
  split
  · exact converses_pure (parted_silent hturn)
  · dsimp only
    split
    · exact converses_pure (parted_silent hturn)
    · next hpayload =>
      have hv : (DirectorySync.makeFrame .syncPlan requestId (encodeSyncPlan plan)).Valid :=
        makeFrame_valid rfl (Nat.not_lt.mp (not_or.mp hpayload).2)
      refine polite_reply hv hturn (fun res e hres => ?_) fun res hres => ?_
      · rw [if_neg (by rw [hres]; simp)]
        exact converses_pure parted_unsent
      · rw [if_pos hres]
        refine polite_bind (receiveFiles_polite root requestId limits 0 _ rfl waits_concat_send broken_concat_sent)
          fun x h' hx => ?_
        cases x with
        | error r => exact converses_pure hx
        | ok result =>
          obtain ⟨hok, hw, hb⟩ := hx
          dsimp only
          rw [receiveControlFrame_bind]
          refine converses_receive ⟨hw, hb⟩ (fun e => converses_pure parted_lost) fun m => ?_
          split
          · next he =>
            refine converses_pure ?_
            rw [expectControl_silent he]
            exact parted_silent waits_concat_ok
          · split
            · exact converses_pure (parted_silent waits_concat_ok)
            · exact verify_polite waits_concat_ok _ _ _ _ hok

theorem receiveDirectorySync_polite (hturn : waits true h = false) (manifestFrame : Frame) (root : Path)
    (limits : DirectorySyncLimits) :
    Converses (Polite true) (receiveDirectorySync manifestFrame root limits) h
      fun r => Parted true r.ok r.silent := by
  unfold receiveDirectorySync
  dsimp only
  split
  · exact converses_pure (parted_silent hturn)
  · split
    · exact converses_pure (parted_silent hturn)
    · split
      · exact converses_pure (parted_silent hturn)
      · refine polite_does ((@createDirectories_issues [] root []).widen fun o ho =>
          isCall_of_local o (local_of_prepares o ho)) fun r _ => ?_
        cases r with
        | error e => exact converses_pure (parted_silent hturn)
        | ok _ =>
          refine polite_does (isCall_scanDirectory _ _) fun r _ => ?_
          cases r with
          | error failure => exact converses_pure (parted_silent hturn)
          | ok found => exact executePlan_polite hturn _ _ _ _ _

end Server

end Session

end SyncWire
