import SyncWire.Mirror
import SyncWire.Server.Guarantee
import SyncWire.Session.Retry

/-!
# What an attempt of the client does

When an attempt ends with exit code 0 it has been told so: it received a frame that reports success,
and the only request it sent that this frame can answer asks for exactly the files it was started for
(`runOnce_confirms`).
-/

namespace SyncWire

open Wire Effect Posix Posix.Fs Authentication PingPong FileTransfer DirectorySync

/-- The files the command is to bring to the server, for a client on this host. -/
def Command.Wants (host : Host) : Command → List FileRecord → Prop
  | .ping, records => records = []
  | .upload sourcePath remoteName, records => ∃ content, Source host sourcePath content ∧
      records = [⟨remoteName, UInt64.ofNat content.length, crc32 content⟩]
  | .sync sourceDirectory, records => host.fs.Plain sourceDirectory ∧ records = listing host.fs sourceDirectory

/-- The client was told that its request was met, and this is all that it can have asked for. -/
def Confirmed (records : List FileRecord) (log : List net.Event) : Prop :=
  ∃ f ∈ received log, ∃ type, Reports f.1 type ∧
    ∀ request ∈ sent log, request.1.header.messageType = type → ∀ asked, Asks request.1 asked → asked = records

/-! ## Authentication -/

/-- What `authenticate_client` does. -/
def Proves : net.sig.Op → Prop
  | .send f => f.1.header.messageType = .authProof
  | .call c => c.reads = true
  | .recv => True

section
variable {cr : Crypto} {secret : List UInt8} {w : World}

theorem proves_of_read (o : net.sig.Op) (h : ReadCall o) : Proves o := by
  cases o with
  | send f => exact absurd h id
  | recv => trivial
  | call c => exact h

theorem checkResult_proves (serverNonce clientNonce clientProof : List UInt8) (result : Frame) :
    Uses Proves (checkResult secret serverNonce clientNonce clientProof result) := by
  unfold checkResult
  split
  · exact uses_pure _
  split
  · split <;> exact uses_pure _
  split
  · exact uses_pure _
  refine uses_bind ((calculateProof_issues _ _ _ _ _).uses.mono proves_of_read) fun r => ?_
  cases r with
  | none => exact uses_pure _
  | some proof => simp only; split <;> exact uses_pure _

theorem answerChallenge_proves (serverNonce : List UInt8) : Uses Proves (answerChallenge secret serverNonce) := by
  refine uses_sys rfl fun r => ?_
  cases r with
  | error errno => exact uses_pure _
  | ok clientNonce =>
    refine uses_bind ((calculateProof_issues _ _ _ _ _).uses.mono proves_of_read) fun r => ?_
    cases r with
    | none => exact uses_pure _
    | some clientProof =>
      refine uses_sendFrame (fun _ => rfl) fun proofSent => ?_
      split
      · refine uses_receiveFrame trivial fun r => ?_
        cases r with
        | error error => exact uses_pure _
        | ok result => exact checkResult_proves _ _ _ _
      · exact uses_pure _

theorem authenticateClient_proves (secret : List UInt8) : Uses Proves (authenticateClient secret) := by
  unfold authenticateClient
  split
  · exact uses_pure _
  · refine uses_receiveFrame trivial fun r => ?_
    cases r with
    | error error => exact uses_pure _
    | ok challenge =>
      simp only
      split
      · exact uses_pure _
      · exact answerChallenge_proves _

theorem reading_of_proves (o : net.sig.Op) (h : Proves o) : Reading o := by
  cases o with
  | send f => trivial
  | recv => trivial
  | call c => exact h

/-- A client that is being authenticated asks for nothing, and looks at nothing. -/
theorem authenticateClient_asks_nothing {c : Side net Host AuthenticationResult}
    (hr : Reach (solo (exec cr) anyAnswer) (authenticateClient secret, w) c) :
    c.2.host.fs = w.host.fs ∧ ∀ m ∈ sent c.2.log, m ∈ sent w.log ∨ m.1.header.messageType = .authProof :=
  ⟨reach_reading ((authenticateClient_proves secret).mono reading_of_proves) hr,
    reach_sends (authenticateClient_proves secret) hr⟩

end

/-! ## An upload -/

theorem mem_received_of_talk {log : List net.Event} {f : Frame} (h : .hears (.ok f) ∈ talk log) :
    ∃ m ∈ received log, m.1 = f := by
  obtain ⟨⟨o, r⟩, he, hm⟩ := List.mem_filterMap.mp h
  cases o with
  | send m => cases hm
  | call c => cases hm
  | recv =>
    cases r with
    | error e => cases hm
    | ok m =>
      cases hm
      exact ⟨m, List.mem_filterMap.mpr ⟨_, he, rfl⟩, rfl⟩

section
variable {cr : Crypto} {requestId : UInt64} {w w' : World}

/-- The client of an upload asks for its file only. -/
theorem asked_of_utters {c : Client} {f : Frame} (h : c.Utters f) (ht : f.header.messageType = .uploadRequest)
    {asked : List FileRecord} (ha : Asks f asked) :
    asked = [⟨c.filename, UInt64.ofNat c.content.length, crc32 c.content⟩] := by
  rcases h with rfl | ⟨ht' | ht', -⟩
  · rcases ha with ⟨-, metadata, hd, rfl⟩ | ⟨hs, -⟩
    · have henc := encodeUploadMetadata_decode hd
      rw [encodeUploadMetadata_inj (safe_of_decodeUploadMetadata hd) henc]
    · cases hs
  · cases ht.symm.trans ht'
  · cases ht.symm.trans ht'

theorem sendFile_confirmed {source : Path} {remote : List UInt8} {limits : TransferLimits} {S : Bytes}
    (hs : Source w.host source S) (hw : ∀ m ∈ sent w.log, m.1.header.messageType ≠ .uploadRequest)
    {r : FileTransferResult} (hok : r.ok = true)
    (hr : Reach (solo (exec cr) anyAnswer) (sendFile source remote requestId limits, w) (.pure r, w')) :
    Confirmed [⟨remote, UInt64.ofNat S.length, crc32 S⟩] w'.log := by
  have hkeeps := @Client.sendFile_keeps ⟨S, remote, requestId, limits.chunkSize⟩ w cr source limits rfl hs
  obtain ⟨es, htalk, ready, start, pieces, -, -, -, rfl⟩ := (hkeeps.result hr).2 hok
  have hlast : .hears (.ok (Client.accepted ⟨S, remote, requestId, limits.chunkSize⟩ ready.header.transferId)) ∈
      talk w'.log := by
    rw [htalk]
    simp
  obtain ⟨f, hf, he⟩ := mem_received_of_talk hlast
  refine ⟨f, hf, .uploadRequest, .upload (by rw [he]; rfl) (by rw [he]; rfl), ?_⟩
  intro request hrequest ht asked hasked
  rcases sendFile_utters hs hr request hrequest with hbefore | ⟨-, hutters⟩
  · exact absurd ht (hw request hbefore)
  · exact asked_of_utters hutters ht hasked

end

/-! ## A sync -/

section
variable {cr : Crypto} {root : Path} {requestId : UInt64} {limits : DirectorySyncLimits} {w w' : World}

/-- A frame that says so has arrived. -/
def Told (type : MessageType) (w : World) : Prop := ∃ f ∈ received w.log, Reports f.1 type

/-- Success, and not without having been told. -/
def ToldIfOk (r : DirectorySyncResult) (w : World) : Prop := r.ok = true → Told .syncManifest w

theorem payload_of_decodeSyncResult {payload : List UInt8} (h : decodeSyncResult (.of payload) = .ok .success) :
    payload = encodeSyncResult .success := by
  unfold decodeSyncResult at h
  split at h
  · cases h
  · next hsize =>
    obtain ⟨b, rfl⟩ := List.length_eq_one_iff.mp (not_not.mp hsize)
    have hraw : (Span.of [b]).getU8 0 = b := rfl
    simp only [hraw] at h
    split at h
    · cases h
    · have hcode := Except.ok.inj h
      split at hcode
      · next hb => rw [hb]; rfl
      · cases hcode

theorem completeSync_told (result : DirectorySyncResult) :
    Safe (solo (exec cr) anyAnswer) (fun _ _ => True) (completeSync requestId result) w ToldIfOk := by
  refine safe_sendFrame (fun res hres => ?_) fun hv sent => ⟨trivial, fun res => ?_⟩
  · rw [if_neg (ne_true_of_eq_false hres)]
    exact safe_pure (stopped rfl)
  · split
    · refine safe_receiveControlFrame (fun _ => trivial) (fun r v h _ => safe_pure (stopped h)) fun f _ ht => ?_
      simp only
      split
      · exact safe_pure (stopped rfl)
      · next code hcode =>
        split
        · exact safe_pure (stopped rfl)
        · next hsuccess =>
          rw [not_not.mp hsuccess] at hcode
          exact safe_pure fun _ => ⟨f, mem_received_concat _ _, .sync ht (payload_of_decodeSyncResult hcode)⟩
    · exact safe_pure (stopped rfl)

theorem uploadFiles_fails (source : FileManifest) (paths : List (List UInt8)) :
    ∀ (index : Nat) (result : DirectorySyncResult) (w : World),
      Safe (solo (exec cr) anyAnswer) (fun _ _ => True)
        (uploadFiles root requestId limits source index paths result) w
        fun x _ => ∀ r, x = .error r → r.ok = false := by
  induction paths with
  | nil => exact fun index result w => safe_pure fun r hr => by cases hr
  | cons path paths ih =>
    intro index result w
    unfold uploadFiles
    split
    · exact safe_pure fun r hr => by cases hr; rfl
    · refine safe_bind (safe_mono (safe_trivial _ w) fun transfer v _ => ?_)
      split
      · exact ih _ _ v
      · exact safe_pure fun r hr => by cases hr; rfl

theorem followPlan_told (source : FileManifest) (planFrame : Frame) :
    Safe (solo (exec cr) anyAnswer) (fun _ _ => True) (followPlan root requestId limits source planFrame) w
      ToldIfOk := by
  unfold followPlan
  split
  · exact safe_pure (stopped rfl)
  · split
    · exact safe_pure (stopped rfl)
    split
    · exact safe_pure (stopped rfl)
    · refine safe_bind (safe_mono (uploadFiles_fails _ _ _ _ w) fun x v hx => ?_)
      cases x with
      | error r => exact safe_pure (stopped (hx r rfl))
      | ok r => exact completeSync_told _

theorem syncDirectory_told :
    Safe (solo (exec cr) anyAnswer) (fun _ _ => True) (syncDirectory root requestId limits) w ToldIfOk := by
  unfold syncDirectory
  split
  · exact safe_pure (stopped rfl)
  · refine safe_bind (safe_mono (safe_trivial _ w) fun scan v _ => ?_)
    cases scan with
    | error failure => exact safe_pure (stopped rfl)
    | ok source =>
      simp only
      split
      · exact safe_pure (stopped rfl)
      · refine safe_sendFrame (fun res hres => ?_) fun hv r => ⟨trivial, fun res => ?_⟩
        · rw [if_neg (ne_true_of_eq_false hres)]
          exact safe_pure (stopped rfl)
        · split
          · exact safe_receiveControlFrame (fun _ => trivial) (fun r v h _ => safe_pure (stopped h))
              fun f _ _ => followPlan_told _ _
          · exact safe_pure (stopped rfl)

/-- The client of a sync asks for its tree only. -/
theorem syncDirectory_confirmed (hp : w.host.fs.Plain root)
    (hw : ∀ m ∈ sent w.log, m.1.header.messageType ≠ .syncManifest) {r : DirectorySyncResult} (hok : r.ok = true)
    (hr : Reach (solo (exec cr) anyAnswer) (syncDirectory root requestId limits, w) (.pure r, w')) :
    Confirmed (listing w.host.fs root) w'.log := by
  obtain ⟨f, hf, hreport⟩ := syncDirectory_told.result hr hok
  refine ⟨f, hf, .syncManifest, hreport, ?_⟩
  intro request hrequest ht asked hasked
  obtain ⟨plan, hfollowed⟩ := (syncDirectory_follows hp).result hr hok
  obtain ⟨us, hsent, hus⟩ := hfollowed.said
  rw [hsent, List.mem_append] at hrequest
  rcases hrequest with hbefore | hnow
  · exact absurd ht (hw request hbefore)
  · have hmanifest := (hus request hnow).manifest_eq ht
    rw [hmanifest] at hasked
    rcases hasked with ⟨hu, -⟩ | ⟨-, maxEntries, hd⟩
    · cases hu
    · exact files_of_decode hfollowed.encoded hd

end

/-! ## An attempt -/

section
variable {cr : Crypto} {host : Host} {command : Command} {secret : List UInt8} {requestId : UInt64}
  {records : List FileRecord}

/-- **What exit code 0 means to the client.** -/
theorem runOnce_confirms (hwants : command.Wants host records) :
    Safe (solo (exec cr) anyAnswer) (fun _ _ => True) (runOnce command secret requestId) ⟨host, []⟩ fun a w' =>
      a.code = 0 → records = [] ∨ Confirmed records w'.log := by
  refine safe_bind (safe_mono (safe_self _ _ _) fun authentication w hauth => ?_)
  obtain ⟨hfs, hsent⟩ := authenticateClient_asks_nothing hauth
  have hproofs : ∀ m ∈ sent w.log, m.1.header.messageType = .authProof := fun m hm =>
    (hsent m hm).resolve_left List.not_mem_nil
  split
  · cases command with
    | ping => exact safe_mono (safe_trivial _ w) fun _ _ _ _ => .inl hwants
    | upload sourcePath remoteName =>
      obtain ⟨content, hsource, rfl⟩ := hwants
      refine safe_bind (safe_mono (safe_self _ _ w) fun transfer w' hr => ?_)
      split
      · next hok =>
        refine safe_pure fun _ => .inr (sendFile_confirmed (hsource.congr hfs) (fun m hm => ?_) hok hr)
        rw [hproofs m hm]
        decide
      · exact safe_pure fun h => by cases h
    | sync sourceDirectory =>
      obtain ⟨hplain, rfl⟩ := hwants
      refine safe_bind (safe_mono (safe_self _ _ w) fun sync w' hr => ?_)
      split
      · next hok =>
        have hconfirmed := syncDirectory_confirmed (by rw [hfs]; exact hplain) (fun m hm => ?_) hok hr
        · rw [hfs] at hconfirmed
          exact safe_pure fun _ => .inr hconfirmed
        · rw [hproofs m hm]
          decide
      · exact safe_pure fun h => by cases h
  · exact safe_pure fun h => by cases h

end

end SyncWire
