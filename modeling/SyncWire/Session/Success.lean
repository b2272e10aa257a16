import SyncWire.ClientSession
import SyncWire.Resume
import SyncWire.Sync.Runs
import SyncWire.Agreement

/-!
# Sessions in which nothing fails

A client's attempt against a session of the server, from the challenge on, over a channel
that delivers what is sent and with calls that succeed.

* `challenge_together`: the server's nonce and the client's proof, whatever their secrets.
* `attempt_succeeds`: with the same secret a ping and an upload end with exit code 0.
* `attempt_refused`: with another secret every command ends with exit code 1 and no
  retry, and nothing happens on either disk.
-/

namespace SyncWire

open Wire Effect Posix Posix.Fs FileTransfer Authentication PingPong

section
variable {cr : Crypto} {α β : Type} {w v : World} {Q : α → World → β → World → Prop} {secret secret' : List UInt8}

/-! ## Authentication -/

theorem randBytes_calmly (n : Nat) :
    Calmly cr (sys (.randBytes n)) w fun r w' => ∃ nonce, r = .ok nonce ∧ nonce.length = n ∧ w'.host = w.host := by
  have hcan : exec cr (.randBytes n) w.host (.ok (List.replicate n 0)) = some w.host := by
    simp [exec, succeed]
  rw [← Prog.bind_pure (sys _)]
  exact calmly_look rfl hcan fun nonce he => total_pure ⟨nonce, rfl, exec_randBytes he, rfl⟩

theorem calculateProof_calmly (domain serverNonce clientNonce binding : List UInt8) :
    Calmly cr (calculateProof secret domain serverNonce clientNonce binding) w fun r w' =>
      r = some (cr.hmac secret (domain ++ serverNonce ++ clientNonce ++ binding)) ∧ w'.host = w.host := by
  have hcan : exec cr (.mac secret (domain ++ serverNonce ++ clientNonce ++ binding)) w.host
      (.ok (cr.hmac secret (domain ++ serverNonce ++ clientNonce ++ binding))) = some w.host := by
    simp [exec, succeed]
  refine calmly_look rfl hcan fun proof he => ?_
  obtain rfl := exec_mac he
  simp only [cr.hmac_length, kAuthenticationProofSize, if_true]
  exact total_pure ⟨rfl, rfl⟩

/-- The client's proof. -/
def clientProof (cr : Crypto) (secret serverNonce clientNonce : List UInt8) : List UInt8 :=
  cr.hmac secret (kClientProofDomain ++ serverNonce ++ clientNonce ++ [])

/-- What the client does once its proof is sent. -/
def awaitVerdict (cr : Crypto) (secret serverNonce clientNonce : List UInt8) : Sys AuthenticationResult := do
  match ← receiveFrame with
  | .error error => pure (Authentication.frameError error)
  | .ok result => checkResult secret serverNonce clientNonce (clientProof cr secret serverNonce clientNonce) result

/-- What the server does once it has compared the proof. -/
def giveVerdict (cr : Crypto) (secret serverNonce clientNonce proof : List UInt8) : Sys AuthenticationResult :=
  if clientProof cr secret serverNonce clientNonce = proof then do
    match ← calculateProof secret kServerProofDomain serverNonce clientNonce proof with
    | none => pure { status := .cryptoError }
    | some serverProof => announce true serverProof
  else announce false []

/-- The server checks a proof. -/
theorem checkProof_together {x : Sys α × World} {k' : AuthenticationResult → Sys β}
    {serverNonce clientNonce proof : List UInt8} (hn : clientNonce.length = kAuthenticationNonceSize)
    (hp : proof.length = kAuthenticationProofSize) (hl : Linked x.2 v)
    (h : ∀ v', v'.host = v.host → Linked x.2 v' →
      Together cr x (giveVerdict cr secret' serverNonce clientNonce proof >>= k', v') Q) :
    Together cr x
      (checkProof secret' serverNonce (makeAuthFrame .authProof (clientNonce ++ proof)) >>= k', v) Q := by
  have hframe : isAuthFrame (makeAuthFrame .authProof (clientNonce ++ proof)) .authProof
      (kAuthenticationNonceSize + kAuthenticationProofSize) = true := by
    simp [isAuthFrame, makeAuthFrame, makeFrame, hn, hp]
  have htake : (makeAuthFrame .authProof (clientNonce ++ proof)).payload.take kAuthenticationNonceSize =
      clientNonce := List.take_left' hn
  have hdrop : (makeAuthFrame .authProof (clientNonce ++ proof)).payload.drop kAuthenticationNonceSize = proof :=
    List.drop_left' hn
  unfold checkProof
  rw [if_neg (by rw [hframe]; decide)]
  dsimp only
  rw [htake, hdrop]
  refine server_calls hl (calculateProof_calmly _ _ _ _) ?_
  rintro r v1 ⟨rfl, hv1⟩ hl1
  exact h v1 hv1 hl1

/-- The server's nonce and the client's proof arrive. -/
theorem challenge_together (hs : isValidAuthenticationSecret secret = true)
    (hs' : isValidAuthenticationSecret secret' = true) {k : AuthenticationResult → Sys α}
    {k' : AuthenticationResult → Sys β} (hl : Linked w v)
    (h : ∀ serverNonce clientNonce w' v', serverNonce.length = kAuthenticationNonceSize →
      clientNonce.length = kAuthenticationNonceSize → w'.host = w.host → v'.host = v.host → Linked w' v' →
      Together cr (awaitVerdict cr secret serverNonce clientNonce >>= k, w')
        (giveVerdict cr secret' serverNonce clientNonce
          (clientProof cr secret serverNonce clientNonce) >>= k', v') Q) :
    Together cr (authenticateClient secret >>= k, w) (authenticateServer secret' >>= k', v) Q := by
  unfold authenticateClient authenticateServer
  rw [if_neg (by rw [hs]; decide), if_neg (by rw [hs']; decide)]
  refine server_calls hl (randBytes_calmly _) ?_
  rintro r v1 ⟨serverNonce, rfl, hn, hv1⟩ hl1
  have hchallenge : (makeAuthFrame .authChallenge serverNonce).Valid :=
    makeFrame_valid (by decide) (by rw [hn]; decide)
  dsimp only
  rw [bind_assoc, bind_assoc]
  refine jends_toClient hchallenge hl1 fun res w2 v2 hres hw2 hv2 hl2 => ?_
  have hframe : isAuthFrame (makeAuthFrame .authChallenge serverNonce) .authChallenge
      kAuthenticationNonceSize = true := by
    simp [isAuthFrame, makeAuthFrame, makeFrame, hn]
  rw [if_pos hres]
  dsimp only
  rw [if_neg (by rw [hframe]; decide)]
  refine client_calls hl2 (randBytes_calmly _) ?_
  rintro r w3 ⟨clientNonce, rfl, hn', hw3⟩ hl3
  refine client_calls hl3 (calculateProof_calmly _ _ _ _) ?_
  rintro r w4 ⟨rfl, hw4⟩ hl4
  have hlen : (clientProof cr secret serverNonce clientNonce).length = kAuthenticationProofSize :=
    cr.hmac_length _ _
  have hproof : (makeAuthFrame .authProof (clientNonce ++ clientProof cr secret serverNonce clientNonce)).Valid :=
    makeFrame_valid (by decide) (by rw [List.length_append, hn', hlen]; decide)
  dsimp only
  rw [bind_assoc, bind_assoc]
  refine jends_toServer hproof hl4 fun res w5 v5 hres hw5 hv5 hl5 => ?_
  rw [if_pos hres]
  refine checkProof_together hn' hlen hl5 fun v6 hv6 hl6 => ?_
  exact h serverNonce clientNonce w5 v6 hn hn' (by rw [hw5, hw4, hw3, hw2]) (by rw [hv6, hv5, hv2, hv1]) hl6

/-- With the same secret both are sure of each other. -/
theorem authenticate_together (hs : isValidAuthenticationSecret secret = true) {k : AuthenticationResult → Sys α}
    {k' : AuthenticationResult → Sys β} (hl : Linked w v)
    (h : ∀ w' v', w'.host = w.host → v'.host = v.host → Linked w' v' → Together cr (k {}, w') (k' {}, v') Q) :
    Together cr (authenticateClient secret >>= k, w) (authenticateServer secret >>= k', v) Q := by
  refine challenge_together hs hs hl fun serverNonce clientNonce w1 v1 _ _ hw1 hv1 hl1 => ?_
  unfold giveVerdict
  rw [if_pos rfl]
  refine server_calls hl1 (calculateProof_calmly _ _ _ _) ?_
  rintro r v2 ⟨rfl, hv2⟩ hl2
  generalize hserver : cr.hmac secret (kServerProofDomain ++ serverNonce ++ clientNonce ++ _) = serverProof
  have hlen : serverProof.length = kAuthenticationProofSize := by
    rw [← hserver]
    exact cr.hmac_length _ _
  have hresult : (makeAuthFrame .authResult (kAuthenticationAccepted :: serverProof)).Valid :=
    makeFrame_valid (by decide) (by rw [List.length_cons, hlen]; decide)
  unfold awaitVerdict
  dsimp only
  unfold announce
  rw [bind_assoc, bind_assoc]
  refine jends_toClient hresult hl2 fun res w3 v3 hres hw3 hv3 hl3 => ?_
  rw [if_pos hres]
  dsimp only
  unfold checkResult
  rw [if_neg (by simp [makeAuthFrame, makeFrame]),
    if_neg (by simp [makeAuthFrame, makeFrame, kAuthenticationAccepted, kAuthenticationRejected]),
    if_neg (by simp [makeAuthFrame, makeFrame, hlen, Nat.add_comm])]
  refine client_calls hl3 (calculateProof_calmly _ _ _ _) ?_
  rintro r w4 ⟨rfl, hw4⟩ hl4
  dsimp only
  have hsame : serverProof =
      (makeAuthFrame .authResult (kAuthenticationAccepted :: serverProof)).payload.drop 1 := rfl
  rw [hserver, if_pos hsame]
  exact h w4 v3 (by rw [hw4, hw3, hw1]) (by rw [hv3, hv2, hv1]) hl4

/-- The two secrets make different client proofs, whatever the two nonces. -/
def ProofsDiffer (cr : Crypto) (secret secret' : List UInt8) : Prop :=
  ∀ serverNonce clientNonce : List UInt8, serverNonce.length = kAuthenticationNonceSize →
    clientNonce.length = kAuthenticationNonceSize →
    clientProof cr secret serverNonce clientNonce ≠ clientProof cr secret' serverNonce clientNonce

/-- A proof with another secret is refused. -/
theorem refuse_together (hs : isValidAuthenticationSecret secret = true)
    (hs' : isValidAuthenticationSecret secret' = true) (hdiffer : ProofsDiffer cr secret secret')
    {k : AuthenticationResult → Sys α} {k' : AuthenticationResult → Sys β} (hl : Linked w v)
    (h : ∀ w' v', w'.host = w.host → v'.host = v.host →
      Together cr (k { status := .rejected }, w') (k' { status := .rejected }, v') Q) :
    Together cr (authenticateClient secret >>= k, w) (authenticateServer secret' >>= k', v) Q := by
  refine challenge_together hs hs' hl fun serverNonce clientNonce w1 v1 hn hn' hw1 hv1 hl1 => ?_
  unfold giveVerdict
  rw [if_neg (hdiffer serverNonce clientNonce hn hn').symm]
  have hresult : (makeAuthFrame .authResult [kAuthenticationRejected]).Valid :=
    makeFrame_valid (by decide) (by decide)
  unfold awaitVerdict announce
  rw [bind_assoc, bind_assoc]
  refine jends_toClient hresult hl1 fun res w2 v2 hres hw2 hv2 hl2 => ?_
  rw [if_pos hres]
  exact h w2 v2 (hw2.trans hw1) (hv2.trans hv1)

/-! ## Attempts -/

/-- The session of a client that has authenticated itself. -/
def serveFirst (root : Path) : Sys ClientSessionResult := do
  match ← receiveFrame with
  | .error error => pure { status := .frameIoError, frameIo := error }
  | .ok firstFrame => serveRequest root firstFrame

/-- What `run_once` makes of a result. -/
theorem attempt_of_together {γ : Type} (ok retryable : γ → Bool) {p : Sys γ} {y : Sys β × World}
    {R : World → β → World → Prop}
    (h : Together cr (p, w) y fun a w' b v' => ok a = true ∧ R w' b v') :
    Together cr (p >>= fun a => if ok a then pure {} else pure { code := 1, retryable := retryable a }, w) y
      fun (a : Attempt) w' b v' => a = {} ∧ R w' b v' := by
  have hmap : (fun a => if ok a then pure {} else pure { code := 1, retryable := retryable a } : γ → Sys Attempt) =
      fun a => pure (if ok a then {} else { code := 1, retryable := retryable a }) := by
    funext a
    split <;> rfl
  rw [hmap]
  refine jends_left_map (h.mono ?_)
  rintro c ⟨a, b, ha, hb, hok, hR⟩
  exact ⟨a, b, ha, hb, by rw [if_pos hok], hR⟩

theorem serveRequest_ping {root : Path} {requestId : UInt64} (hid : requestId ≠ 0) :
    serveRequest root (makeFrame .ping requestId 0 []) =
      sendFrame (makeFrame .pong requestId 0 []) >>= fun sent =>
        (if sent.ok then pure {} else pure (PingPong.frameError sent)) >>= fun ping =>
          pure { operation := .ping, requestId, ping, status := if ping.ok then .success else .pingError } := by
  have hvalid : validateCommon (makeFrame .ping requestId 0 []) .ping = {} := by
    simp [validateCommon, makeFrame, hid]
  change servePingFrame _ >>= _ = _
  unfold servePingFrame
  rw [hvalid, ← bind_assoc]
  rfl

theorem ping_together {requestId : UInt64} (hid : requestId ≠ 0) {root : Path} (hl : Linked w v) :
    Together cr (performPing requestId, w) (serveFirst root, v) fun a w' r v' =>
      a.ok = true ∧ r.ok = true ∧ w'.host = w.host ∧ v'.host = v.host := by
  have hping : (makeFrame .ping requestId 0 []).Valid := makeFrame_valid (by decide) (by decide)
  have hpong : (makeFrame .pong requestId 0 []).Valid := makeFrame_valid (by decide) (by decide)
  have hvalid : validateCommon (makeFrame .pong requestId 0 []) .pong = {} := by
    simp [validateCommon, makeFrame, hid]
  unfold performPing
  rw [if_neg hid]
  refine jends_toServer hping hl fun res w1 v1 hres hw1 hv1 hl1 => ?_
  rw [if_pos hres]
  dsimp only
  rw [serveRequest_ping hid]
  refine jends_toClient hpong hl1 fun res w2 v2 hres hw2 hv2 hl2 => ?_
  rw [if_pos hres]
  dsimp only
  rw [hvalid, if_pos (show ({} : PingPongResult).ok = true from rfl),
    if_neg (show ¬ (makeFrame .pong requestId 0 []).header.requestId ≠ requestId from fun h => h rfl)]
  exact jends_done (b := ({ operation := .ping, requestId } : ClientSessionResult))
    ⟨rfl, rfl, hw2.trans hw1, hv2.trans hv1⟩

theorem serveRequest_upload (root : Path) (requestId : UInt64) (payload : List UInt8) :
    serveRequest root (makeFrame .uploadRequest requestId 0 payload) =
      receiveFile (makeFrame .uploadRequest requestId 0 payload) root {} >>= fun transfer =>
        pure { operation := .upload, requestId, transfer,
               status := if transfer.ok then .success else .fileTransferError } := rfl

theorem uploadRequest_valid {metadata : UploadMetadata} (hsafe : isSafeRemotePath metadata.filename = true)
    (requestId : UInt64) : (makeFrame .uploadRequest requestId 0 (encodeUploadMetadata metadata)).Valid := by
  have hlen := length_of_isSafeRemotePath hsafe
  refine makeFrame_valid (by decide) ?_
  rw [length_encodeUploadMetadata hsafe]
  simp only [kMaxRemotePathLength, kUploadMetadataPrefixSize] at hlen ⊢
  omega

theorem toNat_size {S : Bytes} (hmax : S.length ≤ ({} : TransferLimits).maxFileSize.toNat) :
    (UInt64.ofNat S.length).toNat = S.length := by
  have := ({} : TransferLimits).maxFileSize.toNat_lt
  rw [UInt64.toNat_ofNat']
  omega

/-- Both sides of an upload, whatever the part file holds. -/
theorem upload_session_together {source root : Path} {remote : List UInt8} {requestId : UInt64} {S P : Bytes}
    (hid : requestId ≠ 0) (hsafe : isSafeRemotePath remote = true)
    (hmax : S.length ≤ ({} : TransferLimits).maxFileSize.toNat) (hsource : Source w.host source S)
    (hl : Linked w v) (hfit : (Upload.ofSource cr root remote requestId {} S).Fit v.host P) :
    Together cr (sendFile source remote requestId {}, w) (serveFirst root, v) fun a _ r v' =>
      a.ok = true ∧ r.ok = true ∧
        (Upload.ofSource cr root remote requestId {} S).Stored
          (Upload.continued S ((Upload.ofSource cr root remote requestId {} S).kept P)) v'.host := by
  have hS := toNat_size hmax
  have hlimits : validLimits {} = true := by decide
  have hreceive := @Upload.receiveFile_request (Upload.ofSource cr root remote requestId {} S) root {} hid hsafe
    hlimits (UInt64.le_iff_toNat_le.mpr (by rw [hS]; exact hmax))
  unfold sendFile
  rw [if_neg hid, if_neg (by rw [hsafe]; decide), if_neg (by decide)]
  unfold sendUpload
  refine jends_left_still calm_patient hl (readSourceMetadata_calmly hsource hmax) ?_
  rintro r w1 ⟨rfl, hfs1⟩ hl1
  refine jends_toServer (uploadRequest_valid hsafe requestId) hl1 fun res w2 v2 hres hw2 hv2 hl2 => ?_
  rw [if_pos hres]
  dsimp only
  rw [serveRequest_upload, hreceive]
  refine @Upload.receiveUpload_together (Upload.ofSource cr root remote requestId {} S) _ _ _ S _ _ P _ _ hid hsafe
    hlimits (by decide) (le_refl _) hS rfl (hsource.congr ?_) hl2 (hv2 ▸ hfit)
    fun w' v' _ hstored => jends_done ⟨rfl, rfl, hstored⟩
  rw [hw2, hfs1]

end

/-- **A client with the right secret gets through.**  No call fails and the channel delivers what is sent: then in
every interleaving a ping ends with exit code 0 and leaves both hosts alone.  An upload ends with exit code 0 too,
whatever its part file holds: the part file is gone, and the final path holds the source, or the part file
continued by it if that has the checksum of a prefix of the source. -/
theorem attempt_succeeds (cr : Crypto) {secret : List UInt8} (hs : isValidAuthenticationSecret secret = true)
    {requestId : UInt64} (hid : requestId ≠ 0) (root : Path) (client server : Host) :
    (Together cr (runOnce .ping secret requestId, ⟨client, []⟩) (serveClientSession root secret, ⟨server, []⟩)
      fun a w r v => a = {} ∧ r.ok = true ∧ w.host = client ∧ v.host = server) ∧
    ∀ (source : Path) (remote : List UInt8) (S P : Bytes), isSafeRemotePath remote = true →
      S.length ≤ ({} : TransferLimits).maxFileSize.toNat → Source client source S →
      (Upload.ofSource cr root remote requestId {} S).Fit server P →
      let u := Upload.ofSource cr root remote requestId {} S
      Together cr (runOnce (.upload source remote) secret requestId, ⟨client, []⟩)
        (serveClientSession root secret, ⟨server, []⟩) fun a _ r v =>
          a = {} ∧ r.ok = true ∧ v.host.fs.node u.partPath = none ∧ v.host.fs.fileAt u.finalPath =
            some (if P.length ≤ S.length ∧ crc32 P = crc32 (S.take P.length) then
              P ++ S.drop P.length else S) := by
  refine ⟨?_, fun source remote S P hsafe hmax hsource hfit => ?_⟩
  · refine authenticate_together hs ⟨rfl, rfl⟩ fun w v hw hv hl => ?_
    refine attempt_of_together PingPongResult.ok PingPongResult.retryable
      ((ping_together hid hl).mono ?_)
    rintro c ⟨a, r, ha, hr, hok, hrok, hw', hv'⟩
    exact ⟨a, r, ha, hr, hok, hrok, hw'.trans hw, hv'.trans hv⟩
  · refine authenticate_together hs ⟨rfl, rfl⟩ fun w v hw hv hl => ?_
    refine attempt_of_together FileTransferResult.ok FileTransferResult.retryable
      ((upload_session_together hid hsafe hmax (by rw [hw]; exact hsource) hl (by rw [hv]; exact hfit)).mono ?_)
    rintro c ⟨a, r, ha, hr, hok, hrok, hstored⟩
    rw [(@Upload.continued_kept (Upload.ofSource cr root remote requestId {} S) S P
      (toNat_size hmax)).1] at hstored
    exact ⟨a, r, ha, hr, hok, hrok, hstored.part, hstored.final⟩

/-- Three bytes, of which the server has two. -/
theorem attempt_succeeds_sample :
    (Together sampleCrypto (runOnce .ping sampleAuthKey 7, ⟨sampleSourceHost, []⟩)
      (serveClientSession sampleRoot sampleAuthKey, ⟨samplePartHost, []⟩) fun a w r v =>
        a = {} ∧ r.ok = true ∧ w.host = sampleSourceHost ∧ v.host = samplePartHost) ∧
    samplePartHost.fs.fileAt sampleResumed.partPath = some (bytesOf "ab") ∧
    Together sampleCrypto (runOnce (.upload [bytesOf "s"] (bytesOf "a")) sampleAuthKey 7, ⟨sampleSourceHost, []⟩)
      (serveClientSession sampleRoot sampleAuthKey, ⟨samplePartHost, []⟩) fun a _ r v =>
        a = {} ∧ r.ok = true ∧ v.host.fs.node sampleResumed.partPath = none ∧
          v.host.fs.fileAt (sampleRoot ++ [bytesOf "a"]) = some (bytesOf "abc") := by
  have hsecret : isValidAuthenticationSecret sampleAuthKey = true := by decide
  have hid : (7 : UInt64) ≠ 0 := by decide
  obtain ⟨hping, hupload⟩ := attempt_succeeds sampleCrypto hsecret hid sampleRoot sampleSourceHost samplePartHost
  refine ⟨hping, by decide +kernel, (hupload [bytesOf "s"] (bytesOf "a") (bytesOf "abc") (bytesOf "ab") (by decide)
    (by decide) source_sampleSourceHost fit_samplePartHost).mono ?_⟩
  rintro c ⟨a, r, ha, hr, hok, hrok, hpart, hfinal⟩
  rw [if_pos (by decide)] at hfinal
  exact ⟨a, r, ha, hr, hok, hrok, hpart, hfinal⟩

/-- **A client with another secret is refused.**  No call fails, the channel delivers what is sent and the two
secrets never make the same client proof: then in every interleaving, whatever the client was asked for, it ends
with exit code 1 and does not try again; nothing happens on either host. -/
theorem attempt_refused (cr : Crypto) (command : Command) {secret secret' : List UInt8}
    (hs : isValidAuthenticationSecret secret = true) (hs' : isValidAuthenticationSecret secret' = true)
    (hdiffer : ProofsDiffer cr secret secret') (requestId : UInt64) (root : Path) (client server : Host) :
    Together cr (runOnce command secret requestId, ⟨client, []⟩) (serveClientSession root secret', ⟨server, []⟩)
      fun a w r v => a = { code := 1 } ∧ r.status = .authenticationError ∧ w.host = client ∧ v.host = server := by
  refine refuse_together hs hs' hdiffer ⟨rfl, rfl⟩ fun w v hw hv => ?_
  exact jends_done ⟨rfl, rfl, hw, hv⟩

theorem length_sampleKeyed (k _ : Bytes) : (List.replicate 32 (k.headD 0)).length = 32 := List.length_replicate ..

/-- MACs that tell secrets by their first byte. -/
def sampleKeyed : Crypto where
  sha256 := sampleCrypto.sha256
  hmac k _ := List.replicate 32 (k.headD 0)
  sha256_length := sampleCrypto.sha256_length
  hmac_length := length_sampleKeyed

theorem attempt_refused_sample :
    Together sampleKeyed
      (runOnce (.upload [bytesOf "s"] (bytesOf "a")) (List.replicate 16 0) 7, ⟨sampleSourceHost, []⟩)
      (serveClientSession sampleRoot sampleAuthKey, ⟨sampleHost, []⟩) fun a w r v =>
        a = { code := 1 } ∧ r.status = .authenticationError ∧ w.host = sampleSourceHost ∧ v.host = sampleHost := by
  refine attempt_refused sampleKeyed _ (by decide) (by decide) (fun _ _ _ _ => ?_) 7 sampleRoot sampleSourceHost
    sampleHost
  change List.replicate 32 ((List.replicate 16 (0 : UInt8)).headD 0) ≠ List.replicate 32 (sampleAuthKey.headD 0)
  decide

end SyncWire
