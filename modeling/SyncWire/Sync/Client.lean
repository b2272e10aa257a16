import SyncWire.Send.Honest
import SyncWire.Session.Upload
import SyncWire.Sync.Plan
import SyncWire.Sync.Scan

/-!
# The client of a sync

What `sync_directory` sends: the manifest of its tree, then the frames of the planned uploads one after the other,
and the end of the sync behind the last of them (`Orderly`).  What it has done when it returns `Success`: it
followed one plan, uploaded the planned files of its tree under consecutive request ids, and its own tree is as it
was.

* `syncDirectory_follows`: against any server and any failures.
-/

namespace SyncWire

open Wire Effect Posix Posix.Fs FileTransfer

namespace DirectorySync

/-- What a tree holds at a path; nothing if there is no file. -/
def contentAt (fs : Fs) (root : Path) (path : List UInt8) : Bytes := (fs.fileAt (root ++ components path)).getD []

theorem fileAt_of_listing {fs : Fs} {root : Path} (hroot : fs.node root = some .dir) {f : FileRecord}
    (hf : f ∈ listing fs root) : fs.fileAt (root ++ components f.path) = some (contentAt fs root f.path) := by
  obtain ⟨k, hk, rfl⟩ := mem_listing.mp hf
  rw [contentAt, components_recordOf hroot hk]
  obtain ⟨rel, rfl, -, i, hi⟩ := mem_treeFiles.mp hk
  rw [fileAt, hi, Option.getD_some]

/-- A listed file is a source of an upload. -/
theorem source_of_listing {h : Host} {root : Path} (hroot : h.fs.node root = some .dir) {f : FileRecord}
    (hf : f ∈ listing h.fs root) : Source h (root ++ components f.path) (contentAt h.fs root f.path) := by
  obtain ⟨i, hi, hdata⟩ := fileAt_eq_some.mp (fileAt_of_listing hroot hf)
  exact ⟨_, i, target_file (resolve_of_node hi) hi, hdata⟩

theorem mem_of_findFile {source : List FileRecord} {path : List UInt8} {f : FileRecord}
    (h : findFile source path = some f) : f ∈ source ∧ f.path = path := by
  unfold findFile at h
  split at h
  · cases h
  · next found hfound =>
    split at h
    · cases h
    · next hpath =>
      cases h
      exact ⟨List.mem_of_getElem? hfound, not_not.mp hpath⟩

/-- A sync as its client sees it: the tree it was started with, and the plan it got. -/
structure Errand where
  fs : Fs
  root : Path
  requestId : UInt64
  limits : DirectorySyncLimits
  plan : SyncPlan

namespace Errand

variable (c : Errand)

def files : FileManifest := listing c.fs c.root

def manifest : Frame := makeFrame .syncManifest c.requestId (encodeManifest c.files)

/-- The upload of a planned file. -/
def upload (k : Nat) (path : List UInt8) : Client :=
  ⟨contentAt c.fs c.root path, path, fileRequestId c.requestId k, c.limits.transfer.chunkSize⟩

/-- A frame of the upload of a planned file. -/
def Uploads (f : Frame) : Prop :=
  ∃ k path, c.plan.uploadPaths[k]? = some path ∧ (contentAt c.fs c.root path).length < 2 ^ 64 ∧
    (c.upload k path).Utters f

/-- The manifest, the end of the sync, or something of the upload of a planned file. -/
def Speaks (f : Frame) : Prop := f = c.manifest ∨ f.header.messageType = .syncComplete ∨ c.Uploads f

/-- What may follow the manifest when `k` uploads have been ended: something of a planned upload, or the end of the
sync if there are no more. -/
def Next (k : Nat) (f : Frame) : Prop :=
  k < c.plan.uploadPaths.length ∧ c.Uploads f ∨
    k = c.plan.uploadPaths.length ∧ f = makeFrame .syncComplete c.requestId []

/-- Frames that follow each other like that, when `k` uploads have been ended before. -/
def Orderly : Nat → List WireFrame → Prop
  | _, [] => True
  | k, m :: us => c.Next k m.1 ∧ Orderly (k + endings [m]) us

/-- The plan is the first frame received after `start`. -/
def Told (start log : List net.Event) : Prop :=
  ∃ f, (received log)[(received start).length]? = some f ∧ f.1.header.messageType = .syncPlan ∧
    decodeSyncPlan (.of f.1.payload) c.limits.scan.maxEntries = .ok c.plan

/-- The tree has a manifest that can be sent. -/
structure Listed : Prop where
  id : c.requestId ≠ 0
  scannable : Scannable c.limits.scan c.fs c.root
  encoded : encodeManifest c.files ≠ []
  fits : (encodeManifest c.files).length ≤ kDefaultMaxPayload.toNat

/-- What the client has sent since `start`, while its tree stays as it was; `k` uploads have been ended. -/
structure Keeps (start : List net.Event) (k : Nat) (w : World) : Prop extends c.Listed where
  fs : w.host.fs = c.fs
  told : c.Told start w.log
  said : ∃ m us, sent w.log = sent start ++ m :: us ∧ m.1 = c.manifest ∧ c.Orderly 0 us ∧ endings us = k

/-- What a successful sync has established. -/
structure Followed (start : List net.Event) (r : DirectorySyncResult) (w : World) : Prop extends c.Listed where
  fs : w.host.fs = c.fs
  told : c.Told start w.log
  said : ∃ us, sent w.log = sent start ++ us ∧ ∀ m ∈ us, c.Speaks m.1
  ids : c.plan.uploadPaths.length ≤ (0xFFFFFFFFFFFFFFFF - c.requestId).toNat
  result : r = { planResult c.plan with completedUploads := c.plan.uploadPaths.length }

variable {c} {cr : Crypto} {start log log' : List net.Event} {k : Nat} {us vs : List WireFrame} {w w' : World}

theorem orderly_append : c.Orderly k (us ++ vs) ↔ c.Orderly k us ∧ c.Orderly (k + endings us) vs := by
  induction us generalizing k with
  | nil => simp [Orderly, endings]
  | cons m us ih => rw [List.cons_append, Orderly, Orderly, ih, and_assoc, Nat.add_assoc, ← endings_append]; rfl

/-- Any of them, and how many uploads have been ended before it. -/
theorem Orderly.next {m : WireFrame} (h : c.Orderly k (us ++ m :: vs)) : c.Next (k + endings us) m.1 :=
  (orderly_append.mp h).2.1

theorem Orderly.speaks (h : c.Orderly k us) : ∀ m ∈ us, c.Speaks m.1 := by
  intro m hm
  obtain ⟨l, r, rfl⟩ := List.append_of_mem hm
  rcases h.next with ⟨-, hup⟩ | ⟨-, hend⟩
  · exact .inr (.inr hup)
  · exact .inr (.inl (by rw [hend]; rfl))

/-- One more upload, or a part of it. -/
theorem orderly_upload (hk : k < c.plan.uploadPaths.length) (hus : ∀ m ∈ us, c.Uploads m.1) {ok : Bool}
    (h : Completes ok us) : c.Orderly k us := by
  have hinside := h.inside
  clear h
  induction us with
  | nil => trivial
  | cons m us ih =>
    refine ⟨.inl ⟨hk, hus m List.mem_cons_self⟩, ?_⟩
    cases us with
    | nil => trivial
    | cons m' us =>
      obtain ⟨hm, hrest⟩ := not_or.mp (mt List.mem_cons.mpr hinside)
      have hnot : endings [m] = 0 := List.count_eq_zero.mpr fun h => hm (List.mem_singleton.mp h)
      rw [hnot]
      exact ih (fun m hm => hus m (List.mem_cons_of_mem _ hm)) hrest

/-- What has been received stays. -/
theorem Told.mono (h : c.Told start log) (hlog : log <+: log') : c.Told start log' := by
  obtain ⟨f, hf, hplan⟩ := h
  exact ⟨f, getElem?_of_isPrefix (received_mono hlog) hf, hplan⟩

theorem Told.mem (h : c.Told start log) : ∃ f ∈ received log, f.1.header.messageType = .syncPlan ∧
    decodeSyncPlan (.of f.1.payload) c.limits.scan.maxEntries = .ok c.plan := by
  obtain ⟨f, hf, hplan⟩ := h
  exact ⟨f, List.mem_of_getElem? hf, hplan⟩

/-- The next upload, up to any point. -/
theorem Keeps.sendFile (h : c.Keeps start k w) {path : List UInt8} (hk : c.plan.uploadPaths[k]? = some path)
    {f : FileRecord} (hf : f ∈ c.files) (hpath : f.path = path) {x : Side net Host FileTransferResult}
    (hr : Reach (solo (exec cr) anyAnswer) (FileTransfer.sendFile (c.root ++ components path) path
      (fileRequestId c.requestId k) c.limits.transfer, w) x) :
    (∃ k', c.Keeps start k' x.2) ∧ ∀ r, x.1 = .pure r → r.ok = true → c.Keeps start (k + 1) x.2 := by
  have hsource : Source w.host (c.root ++ components path) (contentAt c.fs c.root path) := by
    have hroot := h.scannable.isDir
    rw [← h.fs] at hroot ⊢
    exact hpath ▸ source_of_listing hroot (by rw [h.fs]; exact hf)
  have hfs := (reach_reading (Session.sendFile_reads _ _ _ _) hr).trans h.fs
  have htold := h.told.mono (reach_log hr)
  obtain ⟨m, us, hsent, hm, hus, hcount⟩ := h.said
  obtain ⟨vs, hvs, hall, hpart, hdone⟩ := sendFile_frames hsource hr
  have hboth : c.Orderly 0 (us ++ vs) := by
    refine orderly_append.mpr ⟨hus, ?_⟩
    rw [hcount, Nat.zero_add]
    exact orderly_upload (List.getElem?_eq_some_iff.mp hk).1 (fun m hm => ⟨k, path, hk, hall m hm⟩) hpart
  have hsaid : sent x.2.log = sent start ++ m :: (us ++ vs) := by rw [hvs, hsent, List.append_assoc]; rfl
  refine ⟨⟨_, h.toListed, hfs, htold, m, us ++ vs, hsaid, hm, hboth, rfl⟩, fun r hx hok => ?_⟩
  refine ⟨h.toListed, hfs, htold, m, us ++ vs, hsaid, hm, hboth, ?_⟩
  rw [endings_append, hcount, (hdone r hx).endings hok]

/-- The loop over the plan. -/
theorem uploadFiles_keeps (paths : List (List UInt8)) :
    ∀ (index : Nat) (result : DirectorySyncResult) (w : World), index + paths.length = c.plan.uploadPaths.length →
      c.plan.uploadPaths.drop index = paths → c.Keeps start index w →
      Safe (solo (exec cr) anyAnswer) (fun _ w' => ∃ k, c.Keeps start k w')
        (uploadFiles c.root c.requestId c.limits c.files index paths result) w fun x w' =>
          match x with
          | .error r => r.ok = false
          | .ok r => c.Keeps start c.plan.uploadPaths.length w' ∧
              r = { result with completedUploads := result.completedUploads + paths.length } := by
  induction paths with
  | nil => exact fun index result w hlen _ hw => safe_pure ⟨hlen ▸ hw, rfl⟩
  | cons path paths ih =>
    intro index result w hlen hdrop hw
    have hpath : c.plan.uploadPaths[index]? = some path := by
      rw [← List.head?_drop, hdrop]
      rfl
    unfold uploadFiles
    split
    · exact safe_pure rfl
    · next f hf =>
      obtain ⟨hf, hfpath⟩ := mem_of_findFile hf
      refine safe_bind (safe_mono (safe_of_reach fun x hr => (hw.sendFile hpath hf hfpath hr).1)
        fun transfer w' hr => ?_)
      split
      · next hok =>
        have hw' := (hw.sendFile hpath hf hfpath hr).2 transfer rfl hok
        refine safe_mono (ih (index + 1) _ w' (by rw [← hlen, List.length_cons]; omega)
          (by rw [← List.tail_drop, hdrop]; rfl) hw') fun x w'' hx => ?_
        cases x with
        | error r => exact hx
        | ok r =>
          obtain ⟨hw'', rfl⟩ := hx
          refine ⟨hw'', ?_⟩
          simp only [List.length_cons, Nat.add_comm paths.length, Nat.add_assoc]
      · exact safe_pure rfl

/-- The end of the sync, and what comes back. -/
theorem completeSync_keeps (hw : c.Keeps start c.plan.uploadPaths.length w) (result : DirectorySyncResult) :
    Safe (solo (exec cr) anyAnswer) (fun _ w' => ∃ k, c.Keeps start k w') (completeSync c.requestId result) w
      fun r w' => r.ok = true → (∃ k, c.Keeps start k w') ∧ r = result := by
  have hpush : ∀ hv r, ∃ k, c.Keeps start k (w.push ⟨.send ⟨makeFrame .syncComplete c.requestId [], hv⟩, r⟩) := by
    intro hv r
    obtain ⟨m, us, hsent, hm, hus, hcount⟩ := hw.said
    refine ⟨_, hw.toListed, hw.fs, hw.told.mono (List.prefix_append _ _), m, us ++ [⟨_, hv⟩], ?_, hm,
      orderly_append.mpr ⟨hus, .inr ⟨?_, rfl⟩, trivial⟩, rfl⟩
    · rw [NetSig.Local.push_log, sent_append, hsent, List.append_assoc]
      rfl
    · rw [hcount, Nat.zero_add]
  refine safe_sendFrame (fun res hres => ?_) fun hv r => ⟨hpush hv r, fun res => ?_⟩
  · rw [if_neg (ne_true_of_eq_false hres)]
    exact safe_pure (stopped rfl)
  · split
    · obtain ⟨k, hw1⟩ := hpush hv r
      have hw2 : ∀ r', c.Keeps start k ((w.push ⟨.send ⟨_, hv⟩, r⟩).push ⟨.recv, r'⟩) := fun r' =>
        ⟨hw1.toListed, hw1.fs, hw1.told.mono (List.prefix_append _ _), by
          rw [NetSig.Local.push_log, sent_append, sent_recv, List.append_nil]; exact hw1.said⟩
      refine safe_receiveControlFrame (fun r' => ⟨k, hw2 r'⟩) (fun r w' h _ => safe_pure (stopped h))
        fun f _ _ => ?_
      simp only
      split
      · exact safe_pure (stopped rfl)
      · split
        · exact safe_pure (stopped rfl)
        · exact safe_pure fun _ => ⟨⟨k, hw2 _⟩, rfl⟩
    · exact safe_pure (stopped rfl)

end Errand

/-- What a client has sent since `start`, at any time: nothing, or its manifest and what the plan asks for. -/
inductive Asked (fs : Fs) (root : Path) (requestId : UInt64) (limits : DirectorySyncLimits)
    (start log : List net.Event) : Prop
  | nothing (h : sent log = sent start)
  | manifest (plan : SyncPlan) (m : WireFrame) (us : List WireFrame)
      (hlisted : Errand.Listed ⟨fs, root, requestId, limits, plan⟩)
      (hsent : sent log = sent start ++ m :: us) (hm : m.1 = Errand.manifest ⟨fs, root, requestId, limits, plan⟩)
      (htold : us ≠ [] → Errand.Told ⟨fs, root, requestId, limits, plan⟩ start log)
      (horder : Errand.Orderly ⟨fs, root, requestId, limits, plan⟩ 0 us)

section
variable {cr : Crypto} {root : Path} {requestId : UInt64} {limits : DirectorySyncLimits} {start : List net.Event}
  {w w' : World}

theorem Errand.Keeps.asked {fs : Fs} {plan : SyncPlan} {k : Nat}
    (h : Errand.Keeps ⟨fs, root, requestId, limits, plan⟩ start k w) :
    Asked fs root requestId limits start w.log := by
  obtain ⟨m, us, hsent, hm, hus, -⟩ := h.said
  exact .manifest plan m us h.toListed hsent hm (fun _ => h.told) hus

/-- From the plan on. -/
theorem followPlan_follows {fs : Fs} {plan₀ : SyncPlan}
    (hlisted : Errand.Listed ⟨fs, root, requestId, limits, plan₀⟩) {f m : WireFrame} (hfs : w.host.fs = fs)
    (hf : (received w.log)[(received start).length]? = some f) (htype : f.1.header.messageType = .syncPlan)
    (hsent : sent w.log = sent start ++ [m]) (hm : m.1 = Errand.manifest ⟨fs, root, requestId, limits, plan₀⟩) :
    Safe (solo (exec cr) anyAnswer) (fun _ w' => Asked fs root requestId limits start w'.log)
      (followPlan root requestId limits (listing fs root) f.1) w fun r w' =>
        r.ok = true → ∃ plan, Errand.Followed ⟨fs, root, requestId, limits, plan⟩ start r w' := by
  unfold followPlan
  split
  · exact safe_pure (stopped rfl)
  · next plan hplan =>
    split
    · exact safe_pure (stopped rfl)
    split
    · exact safe_pure (stopped rfl)
    · next hids =>
      let c : Errand := ⟨fs, root, requestId, limits, plan⟩
      have hw : c.Keeps start 0 w := ⟨⟨hlisted.id, hlisted.scannable, hlisted.encoded, hlisted.fits⟩, hfs,
        ⟨f, hf, htype, hplan⟩, m, [], hsent, hm, trivial, rfl⟩
      refine safe_bind (safe_mono (safe_weaken
        (c.uploadFiles_keeps _ 0 _ w (Nat.zero_add _) (List.drop_zero ..) hw)
        fun _ _ ⟨_, hk⟩ => hk.asked) fun x w1 hx => ?_)
      cases x with
      | error r => exact safe_pure (stopped hx)
      | ok r =>
        obtain ⟨hw1, rfl⟩ := hx
        refine safe_mono (safe_weaken (Errand.completeSync_keeps hw1 _) fun _ _ ⟨_, hk⟩ => hk.asked)
          fun r' w2 hr' hok => ?_
        obtain ⟨⟨k, hw2⟩, rfl⟩ := hr' hok
        obtain ⟨m, us, hsent, hm, hus, -⟩ := hw2.said
        refine ⟨plan, hw2.toListed, hw2.fs, hw2.told, ⟨m :: us, hsent, ?_⟩, Nat.not_lt.mp hids, ?_⟩
        · intro m' hm'
          rcases List.mem_cons.mp hm' with rfl | hm'
          · exact .inl hm
          · exact hus.speaks m' hm'
        · simp [planResult]

/-- **What a client does**, and what it has done if it succeeds. -/
theorem syncDirectory_follows (hp : w.host.fs.Plain root) :
    Safe (solo (exec cr) anyAnswer) (fun _ w' => Asked w.host.fs root requestId limits w.log w'.log)
      (syncDirectory root requestId limits) w fun r w' =>
        r.ok = true → ∃ plan, Errand.Followed ⟨w.host.fs, root, requestId, limits, plan⟩ w.log r w' := by
  have hA : Admits (fun log => sent log = sent w.log ∧ received log = received w.log)
      fun _ w' => Asked w.host.fs root requestId limits w.log w'.log := by
    refine ⟨fun _ h => ?_, fun _ h _ => .nothing ?_⟩
    · rw [sent_append, sent_call, List.append_nil, received_append, received_call, List.append_nil]
      exact h
    · rw [sent_append, sent_call, List.append_nil]
      exact h.1
  unfold syncDirectory
  split
  · exact safe_pure (stopped rfl)
  · next hid =>
    refine safe_bind (scanDirectory_safe hA ⟨rfl, rfl⟩ hp fun scan v hfs ⟨hsent, hreceived⟩ hscan => ?_)
    cases scan with
    | error failure => exact safe_pure (stopped rfl)
    | ok source =>
      obtain ⟨hfiles, hscannable⟩ := hscan source rfl
      simp only [hfiles]
      split
      · exact safe_pure (stopped rfl)
      · next hpayload =>
        obtain ⟨hne, hle⟩ := not_or.mp hpayload
        have hlisted : Errand.Listed ⟨w.host.fs, root, requestId, limits, {}⟩ :=
          ⟨hid, hscannable, hne, Nat.not_lt.mp hle⟩
        have hsaid : ∀ (m : WireFrame) r, sent (v.push ⟨.send m, r⟩).log = sent w.log ++ [m] := fun m r => by
          rw [NetSig.Local.push_log, sent_append, hsent, sent_send]
        refine safe_sendFrame (fun res hres => ?_) fun hv r =>
          ⟨.manifest _ _ [] hlisted (hsaid _ r) rfl (fun h => absurd rfl h) trivial, fun res => ?_⟩
        · rw [if_neg (ne_true_of_eq_false hres)]
          exact safe_pure (stopped rfl)
        · split
          · have hgot : ∀ r', sent ((v.push ⟨.send ⟨_, hv⟩, r⟩).push ⟨.recv, r'⟩).log =
                sent w.log ++ [⟨_, hv⟩] := by
              intro r'
              rw [NetSig.Local.push_log, sent_append, hsaid, sent_recv, List.append_nil]
            refine safe_receiveControlFrame
              (fun r' => .manifest _ _ [] hlisted (hgot r') rfl (fun h => absurd rfl h) trivial)
              (fun r w' h _ => safe_pure (stopped h)) fun f _ ht => ?_
            refine followPlan_follows (m := ⟨_, hv⟩) hlisted hfs ?_ ht (hgot _) rfl
            rw [NetSig.Local.push_log, NetSig.Local.push_log, received_append, received_append, hreceived,
              received_send,
              List.append_nil, received_ok, List.getElem?_concat_length]
          · exact safe_pure (stopped rfl)

end

end DirectorySync

end SyncWire
