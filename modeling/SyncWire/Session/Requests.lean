import SyncWire.Client.Attempt

/-!
# What a client has asked for

An attempt of the client sends the proof of its secret and then its request; of a sync, the frames that the plan
asks for follow, and the plan is the third frame that the client receives.

* `runOnce_asks`: so it is at any time, against any server and any failures.
-/

namespace SyncWire

open Wire Effect Posix Posix.Fs Authentication PingPong FileTransfer DirectorySync

/-- The sync of a client that has sent the frame `m` and then `vs`, and has received `replies`. -/
structure DirectorySync.Errand.Brings (c : Errand) (m : WireFrame) (vs replies : List WireFrame) : Prop where
  listed : c.Listed
  manifest : m.1 = c.manifest
  order : c.Orderly 0 vs
  told : vs ≠ [] → ∃ f, replies[2]? = some f ∧ f.1.header.messageType = .syncPlan ∧
    decodeSyncPlan (.of f.1.payload) c.limits.scan.maxEntries = .ok c.plan

/-- A client with this command has sent `us` and received `replies`. -/
def Command.Asks (fs : Fs) (requestId : UInt64) (us replies : List WireFrame) : Command → Prop
  | .ping => ∀ m, us[1]? = some m → requestId ≠ 0 ∧ m.1 = SyncWire.makeFrame .ping requestId 0 []
  | .upload _ _ => ∀ m, us[1]? = some m → m.1.header.messageType = .uploadRequest
  | .sync source => ∀ p m vs, us = p :: m :: vs →
      ∃ plan, Errand.Brings ⟨fs, source, requestId, {}, plan⟩ m vs replies

/-- The whole of it: the first frame is the proof. -/
structure Command.Comes (command : Command) (fs : Fs) (requestId : UInt64)
    (us replies : List WireFrame) : Prop where
  proof : ∀ m, us[0]? = some m → m.1.header.messageType = .authProof
  asks : command.Asks fs requestId us replies

section
variable {command : Command} {fs : Fs} {requestId : UInt64} {us us' replies replies' : List WireFrame}

theorem asks_proof (h : us.length ≤ 1) : command.Asks fs requestId us replies := by
  have hnone : us[1]? = none := List.getElem?_eq_none h
  cases command with
  | ping => exact fun m hm => by rw [hnone] at hm; cases hm
  | upload sourcePath remoteName => exact fun m hm => by rw [hnone] at hm; cases hm
  | sync source =>
    rintro p m vs rfl
    simp at h

/-- The part of it that a server has received, and what it has sent in turn. -/
theorem Command.Asks.mono (h : command.Asks fs requestId us replies) (hus : us' <+: us)
    (hr : replies <+: replies') :
    command.Asks fs requestId us' replies' := by
  cases command with
  | ping => exact fun m hm => h m (getElem?_of_isPrefix hus hm)
  | upload sourcePath remoteName => exact fun m hm => h m (getElem?_of_isPrefix hus hm)
  | sync source =>
    rintro p m vs rfl
    obtain ⟨ws, rfl⟩ := hus
    obtain ⟨plan, hlisted, hm, horder, htold⟩ := h p m (vs ++ ws) rfl
    refine ⟨plan, hlisted, hm, (Errand.orderly_append.mp horder).1, fun hne => ?_⟩
    obtain ⟨f, hf, hplan⟩ := htold (by simp [hne])
    exact ⟨f, getElem?_of_isPrefix hr hf, hplan⟩

theorem Command.Comes.mono (h : command.Comes fs requestId us replies) (hus : us' <+: us)
    (hr : replies <+: replies') :
    command.Comes fs requestId us' replies' :=
  ⟨fun m hm => h.proof m (getElem?_of_isPrefix hus hm), h.asks.mono hus hr⟩

end

section
variable {cr : Crypto} {fs : Fs} {requestId : UInt64} {w : World}

/-- What is asked for at any time. -/
abbrev Command.Asking (command : Command) (fs : Fs) (requestId : UInt64) (_ w : World) : Prop :=
  command.Asks fs requestId (sent w.log) (received w.log)

/-- What is known of a frame that was sent stays known of it. -/
theorem safe_asked {α : Type} {i : Nat} {P : Frame → Prop} (p : Sys α) (hlen : i < (sent w.log).length)
    (h : ∀ m, (sent w.log)[i]? = some m → P m.1) :
    Safe (solo (exec cr) anyAnswer) (fun _ w' => ∀ m, (sent w'.log)[i]? = some m → P m.1) p w fun _ _ => True := by
  refine safe_mono (safe_of_reach (I := fun v : World => ∀ m, (sent v.log)[i]? = some m → P m.1) fun c hr m hm =>
    h m ?_) fun _ _ _ => trivial
  obtain ⟨l, hl⟩ := reach_log hr
  rwa [← hl, sent_append, List.getElem?_append_left hlen] at hm

/-- The request is sent. -/
theorem safe_request {α : Type} {s : Nat} {P : Frame → Prop} {f : Frame} (hf : P f) {k : FrameIoResult → Sys α}
    (hw : Counts 1 s w.log) (hk : ∀ res, res.ok = false → ∃ a, k res = .pure a) :
    Safe (solo (exec cr) anyAnswer) (fun _ w' => ∀ m, (sent w'.log)[1]? = some m → P m.1) (sendFrame f >>= k) w
      fun _ _ => True := by
  refine safe_sendFrame (fun res hres => ?_) fun hv r => ?_
  · obtain ⟨a, ha⟩ := hk res hres
    rw [ha]
    exact safe_pure trivial
  · have hsecond : ∀ m, (sent (w.push ⟨.send ⟨f, hv⟩, r⟩).log)[1]? = some m → P m.1 := by
      intro m hm
      rw [NetSig.Local.push_log, sent_append, sent_send, ← hw.1, List.getElem?_concat_length] at hm
      cases hm
      exact hf
    exact ⟨hsecond, fun res => safe_asked _ (by rw [NetSig.Local.push_log, hw.send.1]; decide) hsecond⟩

theorem performPing_asks {s : Nat} (hw : Counts 1 s w.log) :
    Safe (solo (exec cr) anyAnswer) (Command.ping.Asking fs requestId) (performPing requestId) w
      fun _ _ => True := by
  unfold performPing
  split
  · exact safe_pure trivial
  · next hid =>
    refine safe_request (P := fun f => requestId ≠ 0 ∧ f = SyncWire.makeFrame .ping requestId 0 []) ⟨hid, rfl⟩ hw
      fun res hres => ?_
    rw [if_neg (ne_true_of_eq_false hres)]
    exact ⟨_, rfl⟩

theorem sendFile_asks {s : Nat} (hw : Counts 1 s w.log) (path : Path) (name : List UInt8)
    (limits : TransferLimits) :
    Safe (solo (exec cr) anyAnswer) ((Command.upload path name).Asking fs requestId)
      (sendFile path name requestId limits) w fun _ _ => True := by
  have hA : Admits (Counts 1 s) ((Command.upload path name).Asking fs requestId) :=
    ⟨fun _ h => h.call, fun _ h _ => asks_proof h.call.1.le⟩
  rcases sendFile_cases path name requestId limits with ⟨r, -, he⟩ | ⟨-, he⟩
  · rw [he]
    exact safe_pure trivial
  rw [he]
  refine safe_bind (safe_reading (readSourceMetadata_does path limits).uses hA hw fun r v _ _ hv => ?_)
  cases r with
  | error result => exact safe_pure trivial
  | ok x =>
    refine safe_request (P := fun f => f.header.messageType = .uploadRequest) rfl hv fun res hres => ?_
    rw [if_neg (ne_true_of_eq_false hres)]
    exact ⟨_, rfl⟩

theorem syncDirectory_asks (hw : Counts 1 2 w.log) {root : Path} (hp : w.host.fs.Plain root) :
    Safe (solo (exec cr) anyAnswer) ((Command.sync root).Asking w.host.fs requestId)
      (syncDirectory root requestId {}) w fun _ _ => True := by
  refine safe_mono (safe_weaken (syncDirectory_follows hp) fun _ w' hasked => ?_) fun _ _ _ => trivial
  cases hasked with
  | nothing h => exact asks_proof (by rw [h, hw.1])
  | manifest plan m us hlisted hlog hm htold horder =>
    obtain ⟨p, hp⟩ := List.length_eq_one_iff.mp hw.1
    intro p' m' vs hus
    rw [hlog, hp] at hus
    cases hus
    refine ⟨plan, hlisted, hm, horder, fun hne => ?_⟩
    obtain ⟨f, hf, hplan⟩ := htold hne
    rw [hw.2] at hf
    exact ⟨f, hf, hplan⟩

/-- A client that is admitted has sent one frame and received two. -/
theorem authenticateClient_counts (cr : Crypto) (secret : List UInt8) (host : Host) :
    Safe (solo (exec cr) anyAnswer) (fun _ w' => (sent w'.log).length ≤ 1) (authenticateClient secret) ⟨host, []⟩
      fun a w' => a.ok = true → Counts 1 2 w'.log := by
  have hA : ∀ s r, s ≤ 1 → Admits (Counts s r) fun _ w' => (sent w'.log).length ≤ 1 := fun s r hs =>
    ⟨fun _ h => h.call, fun _ h _ => h.call.1.le.trans hs⟩
  have hstart : Counts 0 0 ([] : List net.Event) := ⟨rfl, rfl⟩
  unfold authenticateClient
  split
  · exact safe_pure (by rintro ⟨⟩)
  refine safe_receiveFrame fun r _ => ⟨?_, ?_, ?_⟩
  · rw [NetSig.Local.push_log, sent_concat_recv]
    exact Nat.zero_le _
  · rintro error rfl
    exact safe_pure (by rintro ⟨⟩)
  rintro challenge rfl
  simp only
  split
  · exact safe_pure (by rintro ⟨⟩)
  refine safe_read (hA 0 1 (by decide)) rfl hstart.receive fun r h' _ _ hc1 => ?_
  cases r with
  | error e => exact safe_pure (by rintro ⟨⟩)
  | ok nonce =>
    refine safe_bind (safe_reading (calculateProof_issues _ _ _ _ _).uses (hA 0 1 (by decide)) hc1
      fun r v _ _ hc2 => ?_)
    cases r with
    | none => exact safe_pure (by rintro ⟨⟩)
    | some proof =>
      refine safe_sendFrame (fun res hres => ?_) fun hv r => ⟨hc2.send.1.le, fun res => ?_⟩
      · rw [if_neg (ne_true_of_eq_false hres)]
        exact safe_pure (by rintro ⟨⟩)
      split
      · refine safe_receiveFrame fun r' _ => ⟨?_, ?_, ?_⟩
        · rw [NetSig.Local.push_log, sent_concat_recv]
          exact hc2.send.1.le
        · rintro error rfl
          exact safe_pure (by rintro ⟨⟩)
        rintro result rfl
        unfold checkResult
        simp only
        split
        · exact safe_pure (by rintro ⟨⟩)
        split
        · split <;> exact safe_pure (by rintro ⟨⟩)
        split
        · exact safe_pure (by rintro ⟨⟩)
        refine safe_bind (safe_reading (calculateProof_issues _ _ _ _ _).uses (hA 1 2 (by decide)) hc2.send.receive
          fun r v' _ _ hc3 => ?_)
        cases r with
        | none => exact safe_pure (by rintro ⟨⟩)
        | some expected =>
          simp only
          split
          · exact safe_pure fun _ => hc3
          · exact safe_pure (by rintro ⟨⟩)
      · exact safe_pure (by rintro ⟨⟩)

/-- The first frame is the proof. -/
theorem runOnce_proves {host : Host} (command : Command) (secret : List UInt8) :
    Safe (solo (exec cr) anyAnswer)
      (fun _ w' => ∀ m, (sent w'.log)[0]? = some m → m.1.header.messageType = .authProof)
      (runOnce command secret requestId) ⟨host, []⟩ fun _ _ => True := by
  have hproofs : ∀ {c}, Reach (solo (exec cr) anyAnswer) (authenticateClient secret, ⟨host, []⟩) c →
      ∀ m, (sent c.2.log)[0]? = some m → m.1.header.messageType = .authProof := fun hr m hm =>
    ((authenticateClient_asks_nothing hr).2 m (List.mem_of_getElem? hm)).resolve_left List.not_mem_nil
  refine safe_bind (safe_mono (safe_of_reach (I := fun v : World => ∀ m, (sent v.log)[0]? = some m →
    m.1.header.messageType = .authProof) fun c hr => hproofs hr) fun a w hr => ?_)
  split
  · next hok =>
    have hw := (authenticateClient_counts cr secret host).result hr hok
    exact safe_asked (P := fun f => f.header.messageType = .authProof) _ (by rw [hw.1]; exact Nat.one_pos)
      (hproofs hr)
  · exact safe_pure trivial

/-- **What a client has asked for.** -/
theorem runOnce_asks {host : Host} {command : Command}
    (hplain : ∀ source, command = .sync source → host.fs.Plain source) (secret : List UInt8)
    {x : Side net Host Attempt} (hr : Reach (solo (exec cr) anyAnswer)
      (runOnce command secret requestId, ⟨host, []⟩) x) :
    command.Comes host.fs requestId (sent x.2.log) (received x.2.log) := by
  have hsafe : Safe (solo (exec cr) anyAnswer) (command.Asking host.fs requestId)
      (runOnce command secret requestId) ⟨host, []⟩ fun _ _ => True := by
    have hauth := authenticateClient_counts cr secret host
    refine safe_bind (safe_mono (safe_of_reach (I := fun v : World => command.Asks host.fs requestId (sent v.log)
      (received v.log)) fun c hr => asks_proof ?_) fun a w hr => ?_)
    · exact hauth.reach (fun v => (sent v.log).length ≤ 1) (Nat.zero_le _) (fun _ _ _ h => h) hr
    have hfs := (authenticateClient_asks_nothing hr).1
    split
    · next hok =>
      have hw := hauth.result hr hok
      cases command with
      | ping =>
        refine safe_bind (safe_mono (performPing_asks hw) fun exchange v _ => ?_)
        split <;> exact safe_pure trivial
      | upload path name =>
        refine safe_bind (safe_mono (sendFile_asks hw path name {}) fun transfer v _ => ?_)
        split <;> exact safe_pure trivial
      | sync source =>
        have hasks : Safe (solo (exec cr) anyAnswer) ((Command.sync source).Asking w.host.fs requestId)
            (syncDirectory source requestId {}) w fun _ _ => True :=
          syncDirectory_asks hw (by rw [hfs]; exact hplain source rfl)
        rw [hfs] at hasks
        refine safe_bind (safe_mono hasks fun sync v _ => ?_)
        split <;> exact safe_pure trivial
    · exact safe_pure trivial
  refine ⟨?_, ?_⟩
  · exact (runOnce_proves command secret).reach (fun w => ∀ m, (sent w.log)[0]? = some m →
      m.1.header.messageType = .authProof) (fun m hm => by cases hm) (fun _ _ _ h => h) hr
  · exact hsafe.reach (fun w => command.Asks host.fs requestId (sent w.log) (received w.log))
      (asks_proof (Nat.zero_le _)) (fun _ _ _ h => h) hr

end

end SyncWire
