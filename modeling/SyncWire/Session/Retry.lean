import SyncWire.Session.Sync

/-!
# What a client makes of a failure

The server's handlers for uploads and pings answer whatever happens; the one for directory syncs answers nothing
when the request is not acceptable or a scan fails, and neither does the authentication when the library fails
(`silent`).

* `retryable_of_failure`: when a session of the server fails, the client's attempt counts as retryable exactly when
  the server closed the connection without an answer.
-/

namespace SyncWire

open Wire Effect Posix Posix.Fs FileTransfer DirectorySync Authentication PingPong

/-! The failures that nobody is told of. -/

def AuthenticationResult.silent (r : AuthenticationResult) : Bool :=
  match r.status with
  | .invalidSecret | .randomGenerationError | .cryptoError => true
  | .frameIoError => decide (r.frameIo.status = .invalidFrame)
  | _ => false

def PingPongResult.silent (r : PingPongResult) : Bool :=
  match r.status with
  | .success | .frameIoError => false
  | _ => true

def ClientSessionResult.silent (r : ClientSessionResult) : Bool :=
  match r.status with
  | .success | .frameIoError | .fileTransferError => false
  | .authenticationError => r.authentication.silent
  | .pingError => r.ping.silent
  | .directorySyncError => r.sync.silent
  | .unsupportedMessage => true

namespace Session

/-! ## Authentication -/

section Client
variable {first : Bool} {h : List net.Event}

/-- The client of an authentication. -/
abbrev HeedsAuthentication (first : Bool) : Watch net.sig (List net.Event) AuthenticationResult :=
  Heeds first (fun _ _ a => a.ok = false ∧ a.retryable = false) fun a => a.ok = false ∧ a.retryable = true

/-- How it leaves the connection. -/
structure Authenticated (first : Bool) (a : AuthenticationResult) (h : List net.Event) : Prop where
  turn : a.ok = true → waits first h = false
  intact : broken h = false → a.retryable = false

theorem authenticated_failed {a : AuthenticationResult} (hf : a.ok = false) (hr : a.retryable = false) :
    Authenticated first a h := ⟨fun ho => (by rw [hf] at ho; cases ho), fun _ => hr⟩

theorem authenticated_broken {io : FrameIoResult} (hb : broken h = true) :
    Authenticated first (Authentication.frameError io) h :=
  ⟨fun ho => (by cases ho), fun hn => by rw [hb] at hn; cases hn⟩

/-- A refusal ends the authentication. -/
theorem checkResult_refused (secret serverNonce clientNonce clientProof : List UInt8) {m : WireFrame}
    (hm : Refuses m) : ∃ a, checkResult secret serverNonce clientNonce clientProof m.1 = .pure a ∧ a.ok = false ∧
      a.retryable = false := by
  unfold checkResult
  split
  · exact ⟨_, rfl, rfl, rfl⟩
  · next hhead =>
    split
    · split <;> exact ⟨_, rfl, rfl, rfl⟩
    · have htype : m.1.header.messageType = .authResult := by
        by_contra hn
        exact hhead (.inl hn)
      have hne : m.1.payload.head? ≠ some kAuthenticationAccepted := by
        unfold Refuses at hm
        rwa [htype] at hm
      rw [if_pos (.inl hne)]
      exact ⟨_, rfl, rfl, rfl⟩

theorem checkResult_heeds (hturn : waits first h = false) (secret serverNonce clientNonce clientProof : List UInt8)
    (result : Frame) :
    Converses (HeedsAuthentication first)
      (checkResult secret serverNonce clientNonce clientProof result) h (Authenticated first) := by
  unfold checkResult
  split
  · exact converses_pure (authenticated_failed rfl rfl)
  · split
    · split <;> exact converses_pure (authenticated_failed rfl rfl)
    · split
      · exact converses_pure (authenticated_failed rfl rfl)
      · refine heeds_does (calculateProof_issues _ _ _ _ _) fun r _ => ?_
        cases r with
        | none => exact converses_pure (authenticated_failed rfl rfl)
        | some expected =>
          dsimp only
          split
          · exact converses_pure ⟨fun _ => hturn, fun _ => rfl⟩
          · exact converses_pure (authenticated_failed rfl rfl)

theorem answerChallenge_heeds (hturn : waits first h = false) (secret serverNonce : List UInt8) :
    Converses (HeedsAuthentication first) (answerChallenge secret serverNonce) h
      (Authenticated first) := by
  refine heeds_sys rfl fun r => ?_
  cases r with
  | error e => exact converses_pure (authenticated_failed rfl rfl)
  | ok clientNonce =>
    refine heeds_does (calculateProof_issues _ _ _ _ _) fun r _ => ?_
    cases r with
    | none => exact converses_pure (authenticated_failed rfl rfl)
    | some clientProof =>
      refine heeds_ask hturn (fun res hres => ?_) (fun n => rfl) (fun failure => ?_)
        (fun e => ⟨_, rfl, fun he => ⟨rfl, transportFailure_closed he⟩, fun l hl => authenticated_broken hl⟩)
        (fun hf m hm => checkResult_refused _ _ _ _ hm) fun hf m => checkResult_heeds waits_concat_ok _ _ _ _ _
      · rw [if_neg (by rw [FrameIoResult.ok, hres]; decide)]
        exact converses_pure (authenticated_failed rfl (transportFailure_invalid hres))
      · refine ⟨Authentication.frameError failure.result, ?_, ⟨rfl, transportFailure_result failure⟩,
          fun l hl => authenticated_broken hl⟩
        cases failure <;> rfl

theorem authenticateClient_heeds (secret : List UInt8) :
    Converses (HeedsAuthentication false) (authenticateClient secret) [] (Authenticated false) := by
  unfold authenticateClient
  split
  · exact converses_pure (authenticated_failed rfl rfl)
  · refine heeds_await rfl rfl
      (fun e => ⟨_, rfl, fun he => ⟨rfl, transportFailure_closed he⟩, fun l hl => authenticated_broken hl⟩)
      (fun m hm => ?_) fun m => ?_
    · have hno : isAuthFrame m.1 .authChallenge kAuthenticationNonceSize = false := by
        have ht : m.1.header.messageType ≠ .authChallenge := by
          rcases refuses_type hm with h | h | h <;> (rw [h]; exact fun he => nomatch he)
        simp [isAuthFrame, ht]
      dsimp only
      rw [if_pos hno]
      exact ⟨_, rfl, rfl, rfl⟩
    · dsimp only
      split
      · exact converses_pure (authenticated_failed rfl rfl)
      · exact answerChallenge_heeds waits_concat_ok _ _

/-! ## One attempt of the client -/

/-- The client of a session. -/
abbrev HeedsAttempt (first : Bool) : Watch net.sig (List net.Event) Attempt :=
  Heeds first (fun _ _ a => a.retryable = false) fun a => a.retryable = true

/-- On an intact connection the attempt is not retryable. -/
def Final (a : Attempt) (h : List net.Event) : Prop := broken h = false → a.retryable = false

theorem performPing_heeds (hturn : waits first h = false) (requestId : UInt64) :
    Converses (Heeds first (fun _ _ a => a.retryable = false) fun a => a.ok = false ∧ a.retryable = true)
      (performPing requestId) h fun a h => broken h = false → a.retryable = false := by
  unfold performPing
  split
  · exact converses_pure fun _ => rfl
  · refine heeds_ask_last hturn (fun res hres => ?_) (fun n => rfl) (fun failure => ?_)
      (fun e => ⟨_, rfl, fun he => ⟨rfl, transportFailure_closed he⟩,
        fun l hl hn => by rw [hl] at hn; cases hn⟩) fun m => ?_
    · rw [if_neg (by rw [FrameIoResult.ok, hres]; decide)]
      exact converses_pure fun _ => transportFailure_invalid hres
    · refine ⟨PingPong.frameError failure.result, ?_, ⟨rfl, transportFailure_result failure⟩,
        fun l hl hn => by rw [hl] at hn; cases hn⟩
      cases failure <;> rfl
    · have hval : (validateCommon m.1 .pong).retryable = false := by
        unfold validateCommon
        split
        · rfl
        · split
          · rfl
          · split
            · rfl
            · split <;> rfl
      dsimp only
      split
      · split
        · exact ⟨_, rfl, fun _ => rfl, fun _ _ => rfl⟩
        · exact ⟨_, rfl, fun _ => rfl, fun _ _ => rfl⟩
      · exact ⟨_, rfl, fun _ => hval, fun _ _ => hval⟩

theorem runOnce_heeds (command : Command) (secret : List UInt8) (requestId : UInt64) :
    Converses (HeedsAttempt false) (runOnce command secret requestId) [] Final := by
  refine heeds_bind (authenticateClient_heeds secret) ?_ ?_ fun a h ha => ?_
  · rintro h m a ⟨hf, hr⟩
    rw [hf]
    exact ⟨_, rfl, hr⟩
  · rintro a ⟨hf, hr⟩
    rw [hf]
    exact ⟨_, rfl, hr⟩
  · split
    · next hok =>
      have hturn := ha.turn hok
      cases command with
      | ping =>
        refine heeds_bind (performPing_heeds hturn requestId) ?_ ?_ fun a h ha => ?_
        · intro h m a hr
          split
          · exact ⟨_, rfl, rfl⟩
          · exact ⟨_, rfl, hr⟩
        · rintro a ⟨hf, hr⟩
          rw [hf]
          exact ⟨_, rfl, hr⟩
        · split
          · exact converses_pure fun _ => rfl
          · exact converses_pure ha
      | upload path name =>
        refine heeds_bind (sendFile_heeds hturn path name requestId {}) ?_ ?_ fun a h ha => ?_
        · intro h m a hans
          rw [hans.failed]
          exact ⟨_, rfl, hans.notRetryable⟩
        · intro a hcut
          have hret := hcut.retryable
          obtain ⟨failure, rfl⟩ := hcut
          exact ⟨_, rfl, hret⟩
        · split
          · exact converses_pure fun _ => rfl
          · exact converses_pure ha.notRetryable
      | sync root =>
        refine heeds_bind (syncDirectory_heeds hturn root requestId {}) ?_ ?_ fun a h ha => ?_
        · intro h m a hr
          split
          · exact ⟨_, rfl, rfl⟩
          · exact ⟨_, rfl, hr⟩
        · intro a hr
          have hf : a.ok = false := by
            by_contra hok
            have hst : a.status = .success := by simpa [DirectorySyncResult.ok] using hok
            simp [Judged, DirectorySyncResult.retryable, hst] at hr
          rw [hf]
          exact ⟨_, rfl, hr⟩
        · split
          · exact converses_pure fun _ => rfl
          · exact converses_pure ha
    · exact converses_pure ha.intact

/-- An attempt only reads the client's files. -/
theorem runOnce_reads (command : Command) (secret : List UInt8) (requestId : UInt64) :
    Uses Reading (runOnce command secret requestId) := heeds_reads (runOnce_heeds command secret requestId)

/-- However it goes, an attempt returns. -/
theorem runOnce_returns (command : Command) (secret : List UInt8) (requestId : UInt64) :
    Returns onHost (runOnce command secret requestId) := (runOnce_heeds command secret requestId).returns

theorem runOnce_polite (command : Command) (secret : List UInt8) (requestId : UInt64) :
    Converses (Polite false) (runOnce command secret requestId) [] Final :=
  (runOnce_heeds command secret requestId).mono (fun _ _ _ hl => hl.1.takesTurns) fun _ _ hq => hq

end Client

/-! ## The server -/

section Server
variable {h : List net.Event}

/-- How the server's authentication leaves the connection. -/
structure Admitted (a : AuthenticationResult) (h : List net.Event) : Prop where
  next : a.ok = true → waits true h = true ∧ broken h = false
  parted : Parted true a.ok a.silent h

theorem admitted_failed {a : AuthenticationResult} (hf : a.ok = false) (hs : Parted true a.ok a.silent h) :
    Admitted a h := ⟨fun ho => (by rw [hf] at ho; cases ho), hs⟩

theorem refuses_rejected {proof : List UInt8}
    (hv : (makeAuthFrame .authResult (kAuthenticationRejected :: proof)).Valid) : Refuses ⟨_, hv⟩ := by
  change some kAuthenticationRejected ≠ some kAuthenticationAccepted
  decide

/-- A frame of the authentication; the size of what is sent depends on the library. -/
theorem polite_authFrame {f : Frame} {k : FrameIoResult → Sys AuthenticationResult} (hturn : waits true h = false)
    (hfail : ∀ res, res.ok = false → k res = pure (Authentication.frameError res))
    (hsent : ∀ res hv, res.ok = true → Converses (Polite true) (k res)
      (h ++ [⟨.send ⟨f, hv⟩, .ok ()⟩]) Admitted) :
    Converses (Polite true) (sendFrame f >>= k) h Admitted := by
  refine converses_send (fun res hres => ?_) (fun hf => hturn) fun hf r => ?_
  · rw [hfail res (by rw [FrameIoResult.ok, hres]; rfl)]
    refine converses_pure (admitted_failed rfl ?_)
    simpa [AuthenticationResult.silent, Authentication.frameError, hres] using parted_silent hturn
  · cases r with
    | ok _ => exact hsent _ hf rfl
    | error e =>
      rw [hfail _ (sendOutcome_error_ok _ e)]
      refine converses_pure (admitted_failed rfl ?_)
      cases e <;> exact parted_unsent

theorem announce_polite (hturn : waits true h = false) (accepted : Bool) (proof : List UInt8) :
    Converses (Polite true) (announce accepted proof) h Admitted := by
  refine polite_authFrame hturn (fun res hres => by rw [if_neg (by rw [hres]; simp)]) fun res hv hres => ?_
  rw [if_pos hres]
  cases accepted with
  | true => exact converses_pure ⟨fun _ => ⟨waits_concat_send, broken_concat_sent⟩, parted_ok⟩
  | false => exact converses_pure (admitted_failed rfl (parted_refusal (refuses_rejected hv)))

theorem isCall_calculateProof (secret domain serverNonce clientNonce binding : List UInt8) :
    Issues IsCall (calculateProof secret domain serverNonce clientNonce binding) :=
  (calculateProof_issues _ _ _ _ _).widen isCall_of_read

theorem checkProof_polite (hturn : waits true h = false) (secret serverNonce : List UInt8) (proofFrame : Frame) :
    Converses (Polite true) (checkProof secret serverNonce proofFrame) h Admitted := by
  unfold checkProof
  split
  · refine polite_authFrame hturn (fun res hres => by rw [if_neg (by rw [hres]; simp)]) fun res hv hres => ?_
    rw [if_pos hres]
    exact converses_pure (admitted_failed rfl (parted_refusal (refuses_rejected hv)))
  · refine polite_does (isCall_calculateProof _ _ _ _ _) fun r _ => ?_
    cases r with
    | none => exact converses_pure (admitted_failed rfl (parted_silent hturn))
    | some expected =>
      dsimp only
      split
      · refine polite_does (isCall_calculateProof _ _ _ _ _) fun r _ => ?_
        cases r with
        | none => exact converses_pure (admitted_failed rfl (parted_silent hturn))
        | some serverProof => exact announce_polite hturn true serverProof
      · exact announce_polite hturn false []

theorem authenticateServer_polite (secret : List UInt8) :
    Converses (Polite true) (authenticateServer secret) [] Admitted := by
  unfold authenticateServer
  split
  · exact converses_pure (admitted_failed rfl (parted_silent rfl))
  · refine polite_sys fun r => ?_
    cases r with
    | error e => exact converses_pure (admitted_failed rfl (parted_silent rfl))
    | ok serverNonce =>
      refine polite_authFrame rfl (fun res hres => by rw [if_neg (by rw [hres]; simp)]) fun res hv hres => ?_
      rw [if_pos hres]
      refine converses_receive ⟨waits_concat_send, broken_concat_sent⟩ (fun e => ?_) fun m => ?_
      · refine converses_pure (admitted_failed rfl ?_)
        cases e with
        | io failure => cases failure <;> exact parted_lost
        | invalidHeader error => exact parted_lost
      · exact checkProof_polite waits_concat_ok _ _ _

theorem servePingFrame_polite (hturn : waits true h = false) (ping : Frame) :
    Converses (Polite true) (servePingFrame ping) h fun a => Parted true a.ok a.silent := by
  unfold servePingFrame
  dsimp only
  split
  · refine polite_reply (makeFrame_valid rfl (by simp)) hturn (fun res e hres => ?_) fun res hres => ?_
    · rw [if_neg (by rw [hres]; simp)]
      exact converses_pure parted_unsent
    · rw [if_pos hres]
      exact converses_pure parted_ok
  · have hsilent : (validateCommon ping .ping).silent = true ∨ (validateCommon ping .ping).ok = true := by
      unfold validateCommon
      split
      · exact .inl rfl
      · split
        · exact .inl rfl
        · split
          · exact .inl rfl
          · split
            · exact .inl rfl
            · exact .inr rfl
    rcases hsilent with hs | hs
    · refine converses_pure ?_
      rw [hs]
      exact parted_silent hturn
    · exact absurd hs ‹_›

theorem serveRequest_polite (hturn : waits true h = false) (root : Path) (firstFrame : Frame) :
    Converses (Polite true) (serveRequest root firstFrame) h fun r => Parted true r.ok r.silent := by
  unfold serveRequest
  dsimp only
  split
  · refine polite_bind (servePingFrame_polite hturn firstFrame) fun a l ha => ?_
    refine converses_pure ?_
    cases hok : a.ok with
    | true => exact parted_ok
    | false =>
      rw [hok] at ha
      exact ha
  · refine polite_bind (receiveFile_polite hturn firstFrame root {})
      fun a l ha => ?_
    refine converses_pure ?_
    cases hok : a.ok with
    | true => exact parted_ok
    | false => exact ha.parted hok
  · refine polite_bind (receiveDirectorySync_polite hturn firstFrame root {})
      fun a l ha => ?_
    refine converses_pure ?_
    cases hok : a.ok with
    | true => exact parted_ok
    | false =>
      rw [hok] at ha
      exact ha
  · exact converses_pure (parted_silent hturn)

theorem serveClientSession_polite (root : Path) (secret : List UInt8) :
    Converses (Polite true) (serveClientSession root secret) [] fun r => Parted true r.ok r.silent := by
  refine polite_bind (authenticateServer_polite secret) fun a l ha => ?_
  split
  · next hok =>
    refine converses_receive (ha.next hok) (fun e => converses_pure parted_lost) fun m => ?_
    exact serveRequest_polite waits_concat_ok root m.1
  · next hok =>
    have hparted := ha.parted
    rw [Bool.not_eq_true] at hok
    rw [hok] at hparted
    exact converses_pure hparted

/-- However it goes, a session returns. -/
theorem serveClientSession_returns (root : Path) (secret : List UInt8) :
    Returns onHost (serveClientSession root secret) := (serveClientSession_polite root secret).returns

end Server

end Session

open Session

/-- Once the server's session has failed, the client's attempt ends, and it is retryable if and only if the client
was not told. -/
theorem retryable_of_failure (cr : Crypto) (command : Command) (clientSecret : List UInt8) (requestId : UInt64)
    (root : Path) (serverSecret : List UInt8) (client server : Host)
    (hs : isValidAuthenticationSecret clientSecret = true)
    {x : Side net Host Attempt} {y : Side net Host ClientSessionResult}
    (hr : SReach (exec cr) closed
      ((runOnce command clientSecret requestId, ⟨client, []⟩),
        (serveClientSession root serverSecret, ⟨server, []⟩))
      (x, y))
    {r : ClientSessionResult} (hy : y.1 = .pure r) (hfail : r.ok = false) :
    Ends (SStep (exec cr) closed) (fun c => ∃ attempt : Attempt, c.1.1 = .pure attempt ∧
      attempt.retryable = r.silent) (x, y) := by
  have hclient := heeds_listens (runOnce_heeds command clientSecret requestId)
  have hserver := (serveClientSession_polite root serverSecret).along
  have hstart : ∃ k, runOnce command clientSecret requestId = .op .recv k := by
    unfold runOnce authenticateClient
    rw [if_neg (by rw [hs]; simp), bind_assoc, receiveFrame_bind]
    exact ⟨_, rfl⟩
  have hparted := hserver _ _ (reach_chat (SReach.right hr))
  rw [show y.1 = _ from hy] at hparted
  have hunanswered := hparted.unanswered hfail
  cases hw : waits true (history y.2.log) with
  | false =>
    refine (session_lost hclient (.inr hstart) hserver (fun _ _ _ hv => hv) ⟨.peerClosed 0, rfl⟩ hr
      ⟨r, hy⟩ hw).mono ?_
    rintro c ⟨-, a, ha, hl⟩
    exact ⟨a, ha, by simpa [hw, hl] using hunanswered⟩
  | true =>
    cases hb : broken (history y.2.log) with
    | true =>
      refine (session_left hclient hserver (fun _ _ _ hv => hv) hr ⟨r, hy⟩ hb).mono ?_
      rintro c ⟨-, a, l, ha, hq, hl⟩
      exact ⟨a, ha, by simpa [hw, hq hl] using hunanswered⟩
    | false =>
      obtain ⟨m, hm⟩ := last_sent_of_waits hw hb
      refine (session_told hclient (.inr hstart) hserver (fun _ _ _ hv => hv) hr ⟨r, hy⟩ hm
        (hparted.refused hfail m hm)).mono ?_
      rintro c ⟨-, a, l, ha, ht, -⟩
      exact ⟨a, ha, by simpa [hw, ht] using hunanswered⟩

end SyncWire
