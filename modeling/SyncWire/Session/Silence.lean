import SyncWire.Session.Mute
import SyncWire.Session.Retry

/-!
# Which failures the client retries

When a session of the server fails, the client's attempt counts as retryable exactly when the server said nothing
about it.  That is so if its secret is not valid, if the library failed in the authentication, and for the reasons
of `Mute` in a sync (`Silent`): an upload or a ping is always answered.

* `retried_iff_silent`: in every interleaving, whichever calls fail on either side.
-/

namespace SyncWire

open Wire Effect Posix Posix.Fs FileTransfer DirectorySync Authentication PingPong Session

/-- Before the request has arrived. -/
def Early (us : List WireFrame) : Prop := us.length < 2

/-- Why a session of the server ends without an answer. -/
inductive Silent (command : Command) (requestId : UInt64) (client server : Fs) (root : Path) (secret : List UInt8)
    (log : List net.Event) : Prop
  | secret (h : isValidAuthenticationSecret secret = false)
  | library (h : FailedWhile Early log)
  | sync (source : Path) (hcommand : command = .sync source) (hmanifest : .syncManifest ∈ types (received log))
      (h : Mute {} requestId (listing client source) server root log)

/-! ## Authentication -/

section
variable {cr : Crypto} {rely : net.Rely} {fs : Fs} {secret : List UInt8} {s r : Nat} {w : World}

/-- The authentication goes on, and no call has failed. -/
structure Undisturbed (fs : Fs) (secret : List UInt8) (s r : Nat) (w : World) : Prop where
  secret : isValidAuthenticationSecret secret = true
  fs : w.host.fs = fs
  counts : Counts s r w.log
  few : r < 2
  calm : ¬ FailedWhile Early w.log

/-- How it ends. -/
structure Vetted (fs : Fs) (secret : List UInt8) (a : AuthenticationResult) (w : World) : Prop where
  fs : w.host.fs = fs
  few : (received w.log).length < 2
  next : a.ok = true → Counts 2 1 w.log
  silent : a.silent = true ↔ isValidAuthenticationSecret secret = false ∨ FailedWhile Early w.log

namespace Undisturbed

theorem send (h : Undisturbed fs secret s r w) {m : WireFrame} {x : Except IoFailure Unit} :
    Undisturbed fs secret (s + 1) r (w.push ⟨.send m, x⟩) :=
  ⟨h.secret, h.fs, h.counts.send, h.few, (failedWhile_quiet rfl).not.mpr h.calm⟩

theorem receive (h : Undisturbed fs secret s r w) (hfew : r + 1 < 2) {m : WireFrame} :
    Undisturbed fs secret s (r + 1) (w.push ⟨.recv, .ok m⟩) :=
  ⟨h.secret, h.fs, h.counts.receive, hfew, (failedWhile_quiet rfl).not.mpr h.calm⟩

theorem fail (h : Undisturbed fs secret s r w) {error : ReceiveFailure} :
    Undisturbed fs secret s r (w.push ⟨.recv, .error error⟩) :=
  ⟨h.secret, h.fs, h.counts.fail, h.few, (failedWhile_quiet rfl).not.mpr h.calm⟩

/-- A call of the library that succeeds. -/
theorem call (h : Undisturbed fs secret s r w) {c : Posix.Call} {x : Posix.Val c} {h' : Host}
    (hfs : h'.fs = w.host.fs) : Undisturbed fs secret s r ⟨h', w.log ++ [⟨.call c, .ok x⟩]⟩ :=
  ⟨h.secret, hfs.trans h.fs, h.counts.call, h.few, (failedWhile_quiet rfl).not.mpr h.calm⟩

/-- One that does not. -/
theorem failed (h : Undisturbed fs secret s r w) {c : Posix.Call} {errno : Nat} {h' : Host}
    (hfs : h'.fs = w.host.fs) {a : AuthenticationResult} (ha : a.ok = false) (hsilent : a.silent = true) :
    Vetted fs secret a ⟨h', w.log ++ [⟨.call c, .error errno⟩]⟩ := by
  refine ⟨hfs.trans h.fs, ?_, fun hok => (by rw [ha] at hok; cases hok), iff_of_true hsilent (.inr ?_)⟩
  · rw [h.counts.call.2]
    exact h.few
  · refine failedWhile_concat.mpr (.inr ⟨rfl, ?_⟩)
    rw [Early, h.counts.2]
    exact h.few

/-- An end that the client is told of, or is to blame for. -/
theorem told (h : Undisturbed fs secret s r w) {a : AuthenticationResult} (hsilent : a.silent = false)
    (hnext : a.ok = true → s = 2 ∧ r = 1) : Vetted fs secret a w := by
  refine ⟨h.fs, ?_, fun hok => ?_, iff_of_false (by rw [hsilent]; simp) (not_or.mpr ⟨?_, h.calm⟩)⟩
  · rw [h.counts.2]
    exact h.few
  · obtain ⟨rfl, rfl⟩ := hnext hok
    exact h.counts
  · rw [h.secret]
    simp

end Undisturbed

theorem safe_vetted_send {f : Frame} (hv : f.Valid) {k : FrameIoResult → Sys AuthenticationResult}
    (hw : Undisturbed fs secret s r w) (hfail : ∀ res, res.ok = false →
      k res = pure (Authentication.frameError res))
    (hsent : ∀ res, res.ok = true → Safe (solo (exec cr) rely) (fun _ _ => True) (k res)
      (w.push ⟨.send ⟨f, hv⟩, .ok ()⟩) (Vetted fs secret)) :
    Safe (solo (exec cr) rely) (fun _ _ => True) (sendFrame f >>= k) w (Vetted fs secret) := by
  refine safe_sendValid hv fun x => ⟨trivial, ?_⟩
  cases x with
  | ok _ => exact hsent _ rfl
  | error e =>
    rw [hfail _ (sendOutcome_error_ok _ e)]
    exact safe_pure (hw.send.told (by cases e <;> rfl) (by rintro ⟨⟩))

/-- A proof of this host is as long as it should be, unless the library fails. -/
theorem safe_vetted_proof {domain serverNonce clientNonce binding : List UInt8}
    {k : Option (List UInt8) → Sys AuthenticationResult} (hw : Undisturbed fs secret s r w)
    (hfail : k none = pure { status := .cryptoError })
    (hok : ∀ proof w', proof.length = kAuthenticationProofSize → Undisturbed fs secret s r w' →
      Safe (solo (exec cr) rely) (fun _ _ => True) (k (some proof)) w' (Vetted fs secret)) :
    Safe (solo (exec cr) rely) (fun _ _ => True)
      (calculateProof secret domain serverNonce clientNonce binding >>= k) w (Vetted fs secret) := by
  refine safe_bind (safe_sys fun x h' he => ⟨trivial, ?_⟩)
  have hfs := exec_reads rfl he
  cases x with
  | error e =>
    refine safe_pure ?_
    rw [hfail]
    exact safe_pure (hw.failed hfs rfl rfl)
  | ok proof =>
    have hlen : proof.length = kAuthenticationProofSize := by
      rw [exec_mac he]
      exact cr.hmac_length _ _
    simp only
    rw [if_pos hlen]
    exact safe_pure (hok proof _ hlen (hw.call hfs))

theorem announce_vetted (hw : Undisturbed fs secret 1 1 w) (accepted : Bool) {proof : List UInt8}
    (hlen : proof.length ≤ kAuthenticationProofSize) :
    Safe (solo (exec cr) rely) (fun _ _ => True) (announce accepted proof) w (Vetted fs secret) := by
  refine safe_vetted_send (makeFrame_valid rfl ?_) hw (fun res hres => by rw [if_neg (by rw [hres]; simp)])
    fun res hres => ?_
  · rw [List.length_cons]
    exact (Nat.succ_le_succ hlen).trans (by decide)
  · rw [if_pos hres]
    cases accepted with
    | true => exact safe_pure (hw.send.told rfl fun _ => ⟨rfl, rfl⟩)
    | false => exact safe_pure (hw.send.told rfl (by rintro ⟨⟩))

theorem checkProof_vetted (hw : Undisturbed fs secret 1 1 w) (serverNonce : List UInt8) (proofFrame : Frame) :
    Safe (solo (exec cr) rely) (fun _ _ => True) (checkProof secret serverNonce proofFrame) w
      (Vetted fs secret) := by
  unfold checkProof
  split
  · refine safe_vetted_send (makeFrame_valid rfl (by simp)) hw
      (fun res hres => by rw [if_neg (by rw [hres]; simp)])
      fun res hres => ?_
    rw [if_pos hres]
    exact safe_pure (hw.send.told rfl (by rintro ⟨⟩))
  · refine safe_vetted_proof hw rfl fun expected w1 _ hw1 => ?_
    simp only
    split
    · exact safe_vetted_proof hw1 rfl fun proof w2 hlen hw2 => announce_vetted hw2 true hlen.le
    · exact announce_vetted hw1 false (Nat.zero_le _)

theorem authenticateServer_vetted (secret : List UInt8) (host : Host) :
    Safe (solo (exec cr) rely) (fun _ _ => True) (authenticateServer secret) ⟨host, []⟩
      (Vetted host.fs secret) := by
  unfold authenticateServer
  split
  · next hinvalid =>
    exact safe_pure ⟨rfl, Nat.two_pos, by rintro ⟨⟩, iff_of_true rfl (.inl hinvalid)⟩
  · next hvalid =>
    have hstart : Undisturbed host.fs secret 0 0 (⟨host, []⟩ : World) :=
      ⟨by simpa using hvalid, rfl, ⟨rfl, rfl⟩, Nat.two_pos, failedWhile_nil⟩
    refine safe_sys fun x h' he => ⟨trivial, ?_⟩
    have hfs := exec_reads rfl he
    cases x with
    | error e => exact safe_pure (hstart.failed hfs rfl rfl)
    | ok nonce =>
      have hw := hstart.call (x := nonce) hfs
      refine safe_vetted_send (makeFrame_valid rfl ?_) hw (fun res hres => by rw [if_neg (by rw [hres]; simp)])
        fun res hres => ?_
      · rw [exec_randBytes he]
        decide
      · rw [if_pos hres]
        refine safe_receiveFrame fun x _ => ⟨trivial, ?_, ?_⟩
        · rintro error rfl
          refine safe_pure (hw.send.fail.told ?_ (by rintro ⟨⟩))
          cases error with
          | io failure => cases failure <;> rfl
          | invalidHeader error => rfl
        · rintro m rfl
          exact checkProof_vetted (hw.send.receive Nat.one_lt_two) _ _

end

/-! ## The session -/

section
variable {cr : Crypto} {rely : net.Rely} {L : List net.Event} {command : Command} {requestId : UInt64}
  {client : Fs} {root : Path} {w : World}

/-- A ping or an upload is answered, whatever happens to it. -/
theorem serveRequest_answers {f : Frame}
    (hf : (∃ id, id ≠ 0 ∧ f = SyncWire.makeFrame .ping id 0 []) ∨ f.header.messageType = .uploadRequest) :
    Safe (solo (exec cr) rely) (fun _ _ => True) (serveRequest root f) w fun r _ => r.silent = false := by
  unfold serveRequest
  rcases hf with ⟨id, hid, rfl⟩ | htype
  · refine safe_bind (safe_mono (Q := fun ping _ => ping.silent = false) ?_ fun ping w' hping => safe_pure ?_)
    · unfold servePingFrame
      rw [if_pos (by simp [validateCommon, SyncWire.makeFrame, hid, PingPongResult.ok])]
      refine safe_bind (safe_mono (safe_trivial _ w) fun res w' _ => ?_)
      split <;> exact safe_pure rfl
    · cases hok : ping.ok with
      | true => rfl
      | false => exact hping
  · simp only [htype]
    refine safe_bind (safe_mono (safe_trivial _ w) fun transfer w' _ => safe_pure ?_)
    cases transfer.ok <;> rfl

theorem serveRequest_mute {c : Errand} {p m : WireFrame} (hv : Visit c p m L) (hlimits : c.limits = {})
    (hp : w.host.fs.Plain root) (hlog : w.log <+: L) (hcalm : ¬ FailedWhile Judging w.log)
    (hreceived : received w.log = [p, m]) (hsent : (sent w.log).length = 2) :
    Within cr L (serveRequest root m.1) w
      fun r w' => r.silent = true ↔ Mute {} c.requestId c.files w.host.fs root w'.log := by
  have htype : m.1.header.messageType = .syncManifest := by rw [hv.manifest]; rfl
  have hmute : Within cr L (receiveDirectorySync m.1 root c.limits) w _ :=
    receiveDirectorySync_mute hv hp hlog hcalm hreceived hsent
  rw [hlimits] at hmute
  unfold serveRequest
  simp only [htype]
  refine safe_bind (safe_mono hmute fun sync w' hsync => safe_pure ?_)
  rw [← hsync]
  cases hok : sync.ok with
  | true =>
    have hstatus : sync.status = .success := by simpa [DirectorySyncResult.ok] using hok
    simp [ClientSessionResult.silent, DirectorySyncResult.silent, hstatus]
  | false => rfl

/-- A frame of the authentication is not looked at for the destination. -/
theorem not_judging_proof {us : List WireFrame} (hlen : us.length < 2)
    (hproof : ∀ m, us[0]? = some m → m.1.header.messageType = .authProof) :
    ¬ Judging us ∧ .syncManifest ∉ types us := by
  match us, hlen with
  | [], _ => simp [Judging, types]
  | [m], _ => simp [Judging, types, hproof m rfl]

/-- **The session.** -/
theorem serveClientSession_silent {server : Host} (hL : command.Comes client requestId (received L) (sent L))
    (hp : server.fs.Plain root) (secret : List UInt8) :
    Within cr L (serveClientSession root secret) ⟨server, []⟩ fun r w =>
      r.silent = true ↔ Silent command requestId client server.fs root secret w.log := by
  refine safe_bind (safe_mono (within_self _ List.nil_prefix) fun a w hrun => ?_)
  have hvetted := (authenticateServer_vetted secret server).result hrun.1
  have hproof := (hL.mono (received_mono hrun.2) (List.prefix_refl _)).proof
  have hmanifest := (not_judging_proof hvetted.few hproof).2
  split
  · next hok =>
    have hcounts := hvetted.next hok
    obtain ⟨p, hp'⟩ := List.length_eq_one_iff.mp hcounts.2
    have hsilent : ¬ a.silent = true := by
      have hstatus : a.status = .success := by simpa [AuthenticationResult.ok] using hok
      simp [AuthenticationResult.silent, hstatus]
    obtain ⟨hvalid, hearly⟩ := not_or.mp (hvetted.silent.not.mp hsilent)
    refine safe_receiveFrame fun x hx => ⟨trivial, ?_, ?_⟩
    · rintro error rfl
      refine safe_pure (iff_of_false (by rintro ⟨⟩) ?_)
      rintro (h | h | ⟨source, -, h, -⟩)
      · exact hvalid h
      · exact hearly ((failedWhile_quiet rfl).mp h)
      · rw [NetSig.Local.push_log, received_append, received_error, List.append_nil] at h
        exact hmanifest h
    · rintro m rfl
      have hreceived : received (w.push ⟨.recv, .ok m⟩).log = [p, m] := by
        rw [NetSig.Local.push_log, received_append, hp', received_ok]
        rfl
      have hlate : ∀ {log}, (w.push ⟨.recv, .ok m⟩).log <+: log → ¬ FailedWhile Early log := by
        rintro _ ⟨l, rfl⟩
        rw [failedWhile_append, NetSig.Local.push_log, failedWhile_quiet rfl]
        · exact hearly
        · intro vs _
          rw [hreceived, Early]
          simp
      have hsecond : (received L)[1]? = some m :=
        getElem?_of_isPrefix (received_mono hx.2) (by rw [← NetSig.Local.push_log, hreceived]; rfl)
      refine safe_mono (safe_self _ _ _) fun r w' hr => ?_
      cases command with
      | ping =>
        refine iff_of_false (by rw [(serveRequest_answers (.inl ⟨_, hL.asks m hsecond⟩)).result hr]; simp) ?_
        rintro (h | h | ⟨source, ⟨⟩, -, -⟩)
        exacts [hvalid h, hlate (reach_log hr) h]
      | upload path name =>
        refine iff_of_false (by rw [(serveRequest_answers (.inr (hL.asks m hsecond))).result hr]; simp) ?_
        rintro (h | h | ⟨source, ⟨⟩, -, -⟩)
        exacts [hvalid h, hlate (reach_log hr) h]
      | sync source =>
        obtain ⟨vs, hvs⟩ : [p, m] <+: received L := hreceived ▸ received_mono hx.2
        obtain ⟨plan, hbrings⟩ := hL.asks p m vs hvs.symm
        have hv : Visit ⟨client, source, requestId, {}, plan⟩ p m L :=
          ⟨hproof p (by rw [hp']; rfl), vs, hvs.symm, hbrings⟩
        have hcalm : ¬ FailedWhile Judging (w.push ⟨.recv, .ok m⟩).log := by
          rw [NetSig.Local.push_log, failedWhile_quiet rfl, ← List.nil_append w.log, failedWhile_append]
          · exact failedWhile_nil
          · exact fun us hus => (not_judging_proof (hus.length_le.trans_lt hvetted.few) fun m hm =>
              hproof m (getElem?_of_isPrefix hus hm)).1
        have hmute := (serveRequest_mute (w := w.push ⟨.recv, .ok m⟩) hv rfl
          (by rw [NetSig.Local.push_host, hvetted.fs]; exact hp)
          hx.2 hcalm hreceived (by rw [NetSig.Local.push_log, sent_concat_recv, hcounts.1])).result hr
        rw [NetSig.Local.push_host, hvetted.fs] at hmute
        rw [hmute]
        constructor
        · refine .sync source rfl ?_
          have hm : m ∈ received w'.log := (received_mono (reach_log hr)).subset (by rw [hreceived]; simp)
          exact List.mem_map.mpr ⟨m, hm, by rw [hv.manifest]; rfl⟩
        · rintro (h | h | ⟨source', ⟨⟩, -, h⟩)
          exacts [absurd h hvalid, absurd h (hlate (reach_log hr)), h]
  · refine safe_pure ?_
    change a.silent = true ↔ _
    rw [hvetted.silent]
    constructor
    · rintro (h | h)
      exacts [.secret h, .library h]
    · rintro (h | h | ⟨source, -, h, -⟩)
      exacts [.inl h, .inr h, absurd h hmanifest]

end

/-- **Retries.**  Whatever the client asks for, whichever calls fail on either side: once the server's session has
failed, the client's attempt ends, and it is not retryable if and only if there was no reason for the server to be
silent.  The reasons are in the request, the two trees, the server's secret and the calls of the server that
failed; `Plain` says that the path of the destination, or of the client's directory, is not spelled through
symbolic links. -/
theorem retried_iff_silent (cr : Crypto) (command : Command) (clientSecret : List UInt8) (requestId : UInt64)
    (root : Path) (serverSecret : List UInt8) (client server : Host)
    (hs : isValidAuthenticationSecret clientSecret = true) (hroot : server.fs.Plain root)
    (hsource : ∀ source, command = .sync source → client.fs.Plain source)
    {x : Side net Host Attempt} {y : Side net Host ClientSessionResult}
    (hr : SReach (exec cr) closed
      ((runOnce command clientSecret requestId, ⟨client, []⟩),
        (serveClientSession root serverSecret, ⟨server, []⟩))
      (x, y))
    {r : ClientSessionResult} (hy : y.1 = .pure r) (hfail : r.ok = false) :
    Ends (SStep (exec cr) closed)
      (fun c => ∃ attempt : Attempt, c.1.1 = .pure attempt ∧ (attempt.retryable = false ↔
        ¬ Silent command requestId client.fs server.fs root serverSecret y.2.log)) (x, y) := by
  have hbetween := between_reach (heeds_listens (runOnce_heeds command clientSecret requestId))
    (serveClientSession_polite root serverSecret).along (fun _ _ _ hv => hv) hr
  have hasks := runOnce_asks hsource clientSecret (reach_mono (fun _ _ _ _ => trivial) (SReach.left hr))
  have hcomes := hasks.mono hbetween.right hbetween.left
  have hrun : Reach (solo (exec cr) (upto (ending closed) y.2.log))
    (serveClientSession root serverSecret, ⟨server, []⟩)
      (.pure r, y.2) := hy ▸ reach_upto (SReach.right hr)
  have hsilent := (serveClientSession_silent hcomes hroot serverSecret).result hrun
  refine (retryable_of_failure cr command clientSecret requestId root serverSecret client server hs hr hy
    hfail).mono ?_
  rintro c ⟨attempt, ha, hretry⟩
  exact ⟨attempt, ha, by rw [← hsilent, hretry, Bool.not_eq_true]⟩

/-! A sync with a server that cannot list its destination. -/

def sampleSecret : List UInt8 := bytesOf "0123456789abcdef"

def isListDir : Posix.Call → Bool
  | .listDir _ => true
  | _ => false

/-- The client's tree is the one of `sampleServer`; so is the server's, and only its `listDir` fails. -/
def sampleAttempt (n : Nat) : Side net Host Attempt × Side net Host ClientSessionResult :=
  schedule (exec sampleCrypto) (.io (.peerClosed 0)) (answer sampleCrypto)
    (answerBut sampleCrypto isListDir EACCES) n
    ((runOnce (.sync sampleRoot) sampleSecret 1, sampleServer),
      (serveClientSession sampleRoot sampleSecret, sampleServer))

theorem sreach_sampleAttempt (n : Nat) :
    SReach (exec sampleCrypto) closed
      ((runOnce (.sync sampleRoot) sampleSecret 1, sampleServer),
        (serveClientSession sampleRoot sampleSecret, sampleServer))
      (sampleAttempt n) :=
  sreach_schedule ⟨_, rfl⟩ _ _ (List.prefix_refl _) (List.prefix_refl _) n

/-- The server's result there. -/
def sampleFailure : ClientSessionResult where
  status := .directorySyncError
  operation := .directorySync
  requestId := 1
  sync := { status := .scanError, scanError := some .fileIoError, systemError := EACCES }

/-- The scan of the destination fails, the server closes the connection, and the client takes it for an
interrupted one. -/
theorem scan_failure_retried : ∃ x y,
    SReach (exec sampleCrypto) closed
      ((runOnce (.sync sampleRoot) sampleSecret 1, sampleServer),
        (serveClientSession sampleRoot sampleSecret, sampleServer)) (x, y) ∧
    y.1 = .pure sampleFailure ∧ x.1 = .pure { code := 1, retryable := true } := by
  have hy : (sampleAttempt 29).2.1.result? = some sampleFailure := by decide +kernel
  have hx : (sampleAttempt 29).1.1.result? = some { code := 1, retryable := true } := by decide +kernel
  exact ⟨_, _, sreach_sampleAttempt 29, Prog.eq_pure_of_result? hy, Prog.eq_pure_of_result? hx⟩

/-- The call that fails there is the last one of the server. -/
theorem sampleAttempt_silent : Silent (.sync sampleRoot) 1 sampleServer.host.fs sampleServer.host.fs sampleRoot
    sampleSecret (sampleAttempt 28).2.2.log := by
  have hlast : (sampleAttempt 28).2.2.log.getLast?.map failedCall = some true := by decide +kernel
  have hmanifest : .syncManifest ∈ types (received (sampleAttempt 28).2.2.log) := by decide +kernel
  have hjudging : (types (received (sampleAttempt 28).2.2.log.dropLast)).getLast? = some .syncManifest := by
    decide +kernel
  refine .sync sampleRoot rfl hmanifest (.call ?_)
  obtain ⟨e, he, hfailed⟩ := Option.map_eq_some_iff.mp hlast
  refine ⟨_, e, ?_, hfailed, .inl hjudging⟩
  rw [List.dropLast_append_getLast? e he]

theorem retried_iff_silent_sample :
    Ends (SStep (exec sampleCrypto) closed)
      (fun c => ∃ attempt : Attempt, c.1.1 = .pure attempt ∧ attempt.retryable = true) (sampleAttempt 28) := by
  have hy : (sampleAttempt 28).2.1.result? = some sampleFailure := by decide +kernel
  refine (retried_iff_silent sampleCrypto
    (.sync sampleRoot) sampleSecret 1 sampleRoot sampleSecret sampleServer.host
    sampleServer.host (by decide) sampleServer_plain (fun source h => by cases h; exact sampleServer_plain)
    (sreach_sampleAttempt 28) (Prog.eq_pure_of_result? hy) rfl).mono ?_
  rintro c ⟨attempt, ha, hiff⟩
  refine ⟨attempt, ha, ?_⟩
  rw [← Bool.not_eq_false, hiff, not_not]
  exact sampleAttempt_silent

end SyncWire
