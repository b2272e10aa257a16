import SyncWire.Session.Requests
import SyncWire.Session.Sync

/-!
# Why a sync is not answered

`receive_directory_sync` says nothing to its client when a call fails while the destination is made or scanned,
when the destination cannot be scanned, when the request ids do not suffice, and when the union of the two trees
does not fit (`Mute`).  With the clients of `Session.Requests` these are all its silent failures.

* `receiveDirectorySync_mute`: whichever calls fail, wherever the session stops.
-/

namespace SyncWire

open Wire Effect Posix Posix.Fs FileTransfer DirectorySync

/-! ## Calls that fail -/

def failedCall : net.Event → Bool
  | ⟨.call _, .error _⟩ => true
  | _ => false

/-- A call failed when the frames received by then were in `P`. -/
def FailedWhile (P : List WireFrame → Prop) (log : List net.Event) : Prop :=
  ∃ l e, l ++ [e] <+: log ∧ failedCall e = true ∧ P (received l)

section
variable {P : List WireFrame → Prop} {log l : List net.Event} {e : net.Event}

theorem failedWhile_nil : ¬ FailedWhile P [] := by
  rintro ⟨l, e, hl, -⟩
  simpa using hl.length_le

theorem failedWhile_concat :
    FailedWhile P (log ++ [e]) ↔ FailedWhile P log ∨ failedCall e = true ∧ P (received log) := by
  constructor
  · rintro ⟨l, e', hl, he, hP⟩
    rcases List.prefix_concat_iff.mp hl with heq | hl
    · obtain ⟨rfl, h⟩ := List.append_inj' heq rfl
      cases h
      exact .inr ⟨he, hP⟩
    · exact .inl ⟨l, e', hl, he, hP⟩
  · rintro (⟨l, e', hl, he, hP⟩ | ⟨he, hP⟩)
    · exact ⟨l, e', hl.trans (List.prefix_append _ _), he, hP⟩
    · exact ⟨log, e, List.prefix_refl _, he, hP⟩

theorem failedWhile_quiet (he : failedCall e = false) : FailedWhile P (log ++ [e]) ↔ FailedWhile P log := by
  rw [failedWhile_concat, he]
  simp

/-- A part of a run in which failures do not matter. -/
theorem failedWhile_append (h : ∀ vs, vs <+: received l → ¬ P (received log ++ vs)) :
    FailedWhile P (log ++ l) ↔ FailedWhile P log := by
  induction l using List.reverseRecOn with
  | nil => rw [List.append_nil]
  | append_singleton l e ih =>
    have hl : received l <+: received (l ++ [e]) := received_mono (List.prefix_append _ _)
    rw [← List.append_assoc, failedWhile_concat, ih fun vs hvs => h vs (hvs.trans hl), received_append]
    exact or_iff_left fun hP => h _ hl hP.2

end

/-- The last frame makes the server look at its destination. -/
def Judging (us : List WireFrame) : Prop :=
  (types us).getLast? = some .syncManifest ∨ (types us).getLast? = some .syncComplete

/-- Why the server of a sync does not answer. -/
inductive Mute (limits : DirectoryScanLimits) (requestId : UInt64) (source : FileManifest) (server : Fs)
    (root : Path) (log : List net.Event) : Prop
  | call (h : FailedWhile Judging log)
  | tree (hroot : server.node root ≠ none) (h : ¬ Scannable limits server root)
  | ids (h : (0xFFFFFFFFFFFFFFFF - requestId).toNat <
      (buildSyncPlan source (listing server root)).uploadPaths.length)
  | union (hcomplete : .syncComplete ∈ types (received log)) (h : ¬ Fits limits source (listing server root))

/-- What happens on the way to the log `L`, whichever calls fail. -/
abbrev Within (cr : Crypto) (L : List net.Event) {α : Type} (p : Sys α) (w : World)
    (Q : α → World → Prop) : Prop :=
  Safe (solo (exec cr) (upto (ending closed) L)) (fun _ _ => True) p w Q

section
variable {cr : Crypto} {L : List net.Event} {α : Type} {w : World}

theorem upto_ending {log : List net.Event} {o : NetOp net.Call net.Msg} {r : net.Res o}
    (h : upto (ending closed) L log o r) : ending closed log o r := h.1

theorem within_self (p : Sys α) (hw : w.log <+: L) : Within cr L p w fun a w' =>
    Reach (solo (exec cr) (ending closed)) (p, w) (.pure a, w') ∧ w'.log <+: L :=
  safe_mono (safe_self _ p w) fun _ _ hr => ⟨reach_mono (fun _ _ _ => upto_ending) hr, reach_within hr hw⟩

end

namespace DirectorySync

/-! ## The destination -/

section
variable {cr : Crypto} {rely : net.Rely} {P : List WireFrame → Prop} {root : Path} {w w' : World}

/-- Each call that fails is reported. -/
theorem createDirectories_fails (hP : P (received w.log)) (rest done : Path) :
    Safe (solo (exec cr) rely) (fun _ _ => True) (createDirectories done rest) w fun r w' =>
      sent w'.log = sent w.log ∧ received w'.log = received w.log ∧
        (FailedWhile P w'.log ↔ FailedWhile P w.log ∨ ∃ errno, r = .error errno) := by
  induction rest generalizing done w with
  | nil => exact safe_pure ⟨rfl, rfl, by simp⟩
  | cons n rest ih =>
    refine safe_sys fun r h' _ => ⟨trivial, ?_⟩
    have hs := sent_concat_call w.log (.createDirectory (done ++ [n])) r
    have hr := received_concat_call w.log (.createDirectory (done ++ [n])) r
    cases r with
    | error e =>
      refine safe_pure ⟨hs, hr, ?_⟩
      rw [failedWhile_concat]
      exact or_congr_right ⟨fun _ => ⟨e, rfl⟩, fun _ => ⟨rfl, hP⟩⟩
    | ok b =>
      refine safe_mono (ih (w := ⟨h', _⟩) (by rw [hr]; exact hP) (done ++ [n])) fun x w' hx => ?_
      rwa [hs, hr, failedWhile_quiet rfl] at hx

/-- A tree without files. -/
theorem scannable_of_made {fs fs' : Fs} (hmade : Added fs fs') (hroot : fs.node root = none)
    (hdir : fs'.node root = some .dir) (limits : DirectoryScanLimits) : Scannable limits fs' root := by
  have hnone : treeFiles fs' root = [] := by
    refine List.eq_nil_iff_forall_not_mem.mpr fun k hk => ?_
    obtain ⟨rel, rfl, -, hi⟩ := mem_treeFiles.mp hk
    rw [← fileAt_isSome, hmade.fileAt_eq, fileAt_isSome] at hi
    obtain ⟨i, hi⟩ := hi
    cases rel with
    | nil =>
      rw [List.append_nil, hroot] at hi
      cases hi
    | cons n rel => cases hroot.symm.trans (node_of_append _ root (n :: rel) (by simp) hi)
  refine ⟨hdir, ?_, ?_, ?_, ?_⟩ <;> simp [hnone]

/-- A destination that is there is not touched; one that was made is empty. -/
theorem createDirectories_base (hp : w.host.fs.Plain root)
    (hr : Reach (solo (exec cr) anyAnswer) (createDirectories [] root, w) (.pure (.ok ()), w'))
    (limits : DirectoryScanLimits) :
    w'.host.fs.Plain root ∧ Added w.host.fs w'.host.fs ∧
      (Scannable limits w'.host.fs root ↔ (w.host.fs.node root ≠ none → Scannable limits w.host.fs root)) := by
  have hmay : MayMake root (· <+: root) (fun v => v.host.fs.Plain root ∧
      (w.host.fs.node root ≠ none → v.host.fs = w.host.fs)) fun _ _ => True := by
    refine ⟨fun c r hI _ hfs => ⟨trivial, ?_⟩, fun c r hI _ hA hat hm => ⟨trivial, ?_, fun hne => ?_⟩⟩
    · rw [hfs]
      exact hI
    · exact hm.grows.plain hI.1
    · -- no directory on the way to something is missing
      obtain rfl := hat.eq_of_plain hI.1
      obtain ⟨t, rfl⟩ := hA
      obtain ⟨x, hx⟩ := Option.ne_none_iff_exists'.mp hne
      have hmissing := hm.1
      rw [hI.2 hne] at hmissing
      cases t with
      | nil => rw [List.append_nil, hmissing] at hx; cases hx
      | cons n t => cases hmissing.symm.trans (node_of_append _ _ (n :: t) (by simp) hx)
  have hsafe : Safe (solo (exec cr) anyAnswer) (fun _ _ => True) (createDirectories [] root) w fun r v =>
      r = .ok () → v.host.fs.Plain root ∧ Added w.host.fs v.host.fs ∧
        (Scannable limits v.host.fs root ↔ (w.host.fs.node root ≠ none → Scannable limits w.host.fs root)) := by
    refine createDirectories_safe hmay (fun _ h => h) root [] rfl
      ⟨[], target_of_resolve (resolve_of_node (node_nil _)) (node_nil _)⟩ ⟨hp, fun _ => rfl⟩ ?_
    rintro r v ⟨hplain, hsame⟩ hadded hok hr
    refine ⟨hplain, hadded, ?_⟩
    by_cases hroot : w.host.fs.node root = none
    · obtain ⟨q, hq⟩ := hok hr
      have hdir := node_of_target hplain (fun t ht => by cases hroot.symm.trans (hadded.not_symlink ht)) hq
      exact iff_of_true (scannable_of_made hadded hroot hdir limits) fun hne => absurd hroot hne
    · rw [hsame hroot]
      exact ⟨fun h _ => h, fun h => h hroot⟩
  exact hsafe.result hr rfl

/-- **A scan** that fails does so because of a call or of the tree. -/
theorem scanDirectory_fails {limits : DirectoryScanLimits} (hp : w.host.fs.Plain root) (hP : P (received w.log))
    (hcalm : ¬ FailedWhile P w.log) {r : Except ScanFailure DirectoryScan}
    (hr : Reach (solo (exec cr) anyAnswer) (scanDirectory root limits, w) (.pure r, w')) :
    w'.host.fs = w.host.fs ∧ sent w'.log = sent w.log ∧ received w'.log = received w.log ∧
      match r with
      | .error _ => FailedWhile P w'.log ∨ ¬ Scannable limits w.host.fs root
      | .ok scan => ¬ FailedWhile P w'.log ∧ Scannable limits w.host.fs root ∧
        scan.files = listing w.host.fs root := by
  let S := fun log : List net.Event => sent log = sent w.log ∧ received log = received w.log
  have hkeep : ∀ {log : List net.Event} {c : Posix.Call} {x : Except Nat (Posix.Val c)}, S log →
      S (log ++ [⟨.call c, x⟩]) := fun h => by
    refine ⟨?_, ?_⟩
    · rw [sent_concat_call, h.1]
    · rw [received_concat_call, h.2]
  have hpermits : Permits anyAnswer (fun log => S log ∧ ¬ FailedWhile P log) fun log => S log ∧
    FailedWhile P log := by
    refine ⟨fun _ => trivial, fun _ h => ⟨hkeep h.1, ?_⟩, fun _ _ h => ⟨hkeep h.1, ?_⟩⟩
    · rw [failedWhile_quiet rfl]
      exact h.2
    · rw [failedWhile_concat]
      exact .inr ⟨rfl, by rw [h.1.2]; exact hP⟩
  obtain ⟨hfs, hpost⟩ := (scanDirectory_spec hpermits ⟨⟨rfl, rfl⟩, hcalm⟩ hp ⟨.error 0, _, trivial, rfl⟩).result hr
  refine ⟨hfs, ?_⟩
  cases r with
  | error failure =>
    rcases hpost with ⟨⟨hs, hg⟩, hF⟩ | ⟨⟨⟨hs, hg⟩, -⟩, hn⟩
    · exact ⟨hs, hg, .inl hF⟩
    · exact ⟨hs, hg, .inr hn⟩
  | ok scan =>
    obtain ⟨⟨⟨hs, hg⟩, hcalm'⟩, hscannable, rfl⟩ := hpost
    exact ⟨hs, hg, hcalm', hscannable, rfl⟩

end

/-! ## The uploads -/

section
variable {cr : Crypto} {root : Path} {w w' : World}

/-- A file that an upload does not touch. -/
theorem Present.kept {fs fs' : Fs} {r : FileRecord} {path : List UInt8} (h : Present fs root r)
    (hkept : Kept root [path] fs fs') (hsafe : isSafeRemotePath r.path = true) (hne : r.path ≠ path) :
    Present fs' root r := by
  obtain ⟨d, hd, hsize⟩ := h
  have hstate : ¬ root ++ [kPartialDirectory] <+: root ++ components r.path := by
    rw [List.prefix_append_right_inj]
    rintro ⟨t, ht⟩
    have hmem : kPartialDirectory ∈ components r.path := by
      rw [← ht]
      exact List.mem_cons_self
    exact absurd (((isSafeRemotePath_iff _).mp hsafe).2.2 _ hmem) (by decide)
  have hother : ∀ p ∈ [path], root ++ components r.path ≠ root ++ components p := by
    intro p hp he
    exact hne ((components_injective (List.append_cancel_left he)).trans (List.mem_singleton.mp hp))
  refine ⟨d, ?_, hsize⟩
  rcases hkept.unplanned _ hstate hother with ⟨-, hfile⟩ | ⟨hnone, -⟩
  · rw [hfile, hd]
  · rw [fileAt, hnone] at hd
    cases hd

/-- What `receive_file` stores, and what it leaves alone. -/
theorem receiveFile_stores {request : Frame} {metadata : UploadMetadata} {limits : TransferLimits}
    (hp : w.host.fs.Plain root) (hd : decodeUploadMetadata (.of request.payload) = .ok metadata)
    {r : FileTransferResult}
    (hr : Reach (solo (exec cr) anyAnswer) (receiveFile request root limits, w) (.pure r, w')) :
    w'.host.fs.Plain root ∧ Kept root [metadata.filename] w.host.fs w'.host.fs ∧
      (r.ok = true → Present w'.host.fs root ⟨metadata.filename, metadata.fileSize, metadata.checksum⟩) := by
  have hs := receiveFile_safely cr root limits hp hd
  refine ⟨?_, ?_, fun hok => ?_⟩
  · exact hs.reach (fun v => v.host.fs.Plain root) hp (fun _ _ hv hg => hg.grows.plain hv) hr
  · exact hs.reach (fun v => Kept root [metadata.filename] w.host.fs v.host.fs) (.refl _ _ _)
      (fun _ _ hv hg => hv.trans hg.kept) hr
  · have hv := hs.reach _ (Upload.visible_start _ w)
      (fun _ _ => Upload.Visible.step (safe_of_decodeUploadMetadata hd)) hr
    exact (hv.after (hs.result hr hok)).2

/-- The frames `receive_file` receives. -/
theorem receiveFile_frames {request : WireFrame} {limits : TransferLimits} {r : FileTransferResult}
    (hr : Reach (solo (exec cr) (ending closed))
      (receiveFile request.1 root limits, w.push ⟨.recv, .ok request⟩) (.pure r, w')) :
    ∃ l, w'.log = (w.push ⟨.recv, .ok request⟩).log ++ l ∧ Completes r.ok (received l) := by
  have hturn : waits true (history (w.push ⟨.recv, .ok request⟩).log) = false := by
    rw [NetSig.Local.push_log, history_append]
    exact waits_concat_ok
  obtain ⟨l, hl⟩ := reach_log hr
  obtain ⟨l', hl', -, hcompletes⟩ := ((Session.receiveFile_polite hturn request.1 root limits).along _ _
    (reach_chat hr)).replies
  refine ⟨l, hl.symm, ?_⟩
  rw [← hl, history_append] at hl'
  rwa [← List.append_cancel_left hl', received_history] at hcompletes

end

theorem Errand.Uploads.not_judged {c : Errand} {f : Frame} (h : c.Uploads f) :
    f.header.messageType ≠ .syncManifest ∧ f.header.messageType ≠ .syncComplete := by
  obtain ⟨k, path, -, -, rfl | ⟨h | h, -⟩⟩ := h
  · exact ⟨by rintro ⟨⟩, by rintro ⟨⟩⟩
  · rw [h]
    decide
  · rw [h]
    decide

theorem not_judging {c : Errand} {us vs : List WireFrame} (hne : vs ≠ []) (hvs : ∀ v ∈ vs, c.Uploads v.1) :
    ¬ Judging (us ++ vs) := by
  obtain ⟨vs, v, rfl⟩ := vs.eq_nil_or_concat.resolve_left hne
  have hv := (hvs v (by simp)).not_judged
  simp [Judging, types, hv.1, hv.2]

theorem endings_before {us vs : List WireFrame} {v : WireFrame}
    (h : .transferComplete ∉ (types (us ++ v :: vs)).dropLast) : endings us = 0 := by
  rw [types, List.map_append, List.dropLast_append_of_ne_nil (by simp)] at h
  exact List.count_eq_zero.mpr fun hm => h (List.mem_append_left _ hm)

/-- A session with a client of this errand: the first frames that the server receives are `p` and `m`. -/
structure Visit (c : Errand) (p m : WireFrame) (L : List net.Event) : Prop where
  proof : p.1.header.messageType = .authProof
  brings : ∃ vs, received L = p :: m :: vs ∧ c.Brings m vs (sent L)

section
variable {cr : Crypto} {c : Errand} {p m : WireFrame} {L log : List net.Event} {us vs : List WireFrame}
  {root : Path}

/-- A frame arrives when its time has come. -/
theorem Visit.next (h : Visit c p m L) (hlog : log <+: L) {v : WireFrame}
    (hus : received log = p :: m :: (us ++ v :: vs)) : c.Next (endings us) v.1 := by
  obtain ⟨vs', hvs, hbrings⟩ := h.brings
  obtain ⟨t, rfl⟩ := hlog
  rw [received_append, hus] at hvs
  obtain rfl : us ++ v :: (vs ++ received t) = vs' := by simpa using hvs
  have hnext := hbrings.order.next
  rwa [Nat.zero_add] at hnext

theorem Visit.uploads (h : Visit c p m L) (hlog : log <+: L) (hus : received log = p :: m :: (us ++ vs))
    (hk : endings us < c.plan.uploadPaths.length) (hvs : .transferComplete ∉ (types vs).dropLast) :
    ∀ v ∈ vs, c.Uploads v.1 := by
  intro v hv
  obtain ⟨a, b, rfl⟩ := List.append_of_mem hv
  rw [← List.append_assoc] at hus
  rcases h.next hlog hus with ⟨-, hup⟩ | ⟨he, -⟩
  · exact hup
  · rw [endings_append, endings_before hvs] at he
    omega

theorem Visit.manifest (h : Visit c p m L) : m.1 = c.manifest := by
  obtain ⟨vs, -, hbrings⟩ := h.brings
  exact hbrings.manifest

theorem Visit.listed (h : Visit c p m L) : c.Listed := by
  obtain ⟨vs, -, hbrings⟩ := h.brings
  exact hbrings.listed

/-- No frame but the manifest and those of uploads has arrived. -/
theorem Visit.not_complete (h : Visit c p m L) (hus : ∀ u ∈ us, c.Uploads u.1) :
    .syncComplete ∉ types (p :: m :: us) := by
  have hm : m.1.header.messageType = .syncManifest := by rw [h.manifest]; rfl
  intro hmem
  simp only [types, List.map_cons, List.mem_cons, List.mem_map, h.proof, hm] at hmem
  rcases hmem with h | h | ⟨u, hu, hut⟩
  · cases h
  · cases h
  · exact (hus u hu).not_judged.2 hut

/-- The uploads of a sync: `k` of them are done, and no call failed that mattered. -/
structure Visiting (c : Errand) (root : Path) (p m : WireFrame) (L : List net.Event) (base : Fs) (k : Nat)
    (w : World) : Prop where
  log : w.log <+: L
  plain : w.host.fs.Plain root
  calm : ¬ FailedWhile Judging w.log
  heard : ∃ us, received w.log = p :: m :: us ∧ endings us = k ∧ ∀ u ∈ us, c.Uploads u.1
  kept : Kept root c.plan.uploadPaths base w.host.fs
  stored : ∀ r ∈ c.files, ∀ j < k, c.plan.uploadPaths[j]? = some r.path → Present w.host.fs root r

/-- Nothing has happened yet that is not answered. -/
structure Unmoved (log : List net.Event) : Prop where
  calm : ¬ FailedWhile Judging log
  unfinished : .syncComplete ∉ types (received log)

theorem Unmoved.push {log : List net.Event} (h : Unmoved log) {e : net.Event} (he : failedCall e = false)
    (hr : received [e] = []) : Unmoved (log ++ [e]) := by
  refine ⟨(failedWhile_quiet he).not.mpr h.calm, ?_⟩
  rw [received_append, hr, List.append_nil]
  exact h.unfinished

namespace Visiting

variable {base : Fs} {k : Nat} {w w' : World}

theorem unmoved (h : Visiting c root p m L base k w) (hv : Visit c p m L) : Unmoved w.log := by
  obtain ⟨us, hus, -, hall⟩ := h.heard
  exact ⟨h.calm, hus ▸ hv.not_complete hall⟩

/-- A frame of an upload, and the rest of it. -/
theorem hear (h : Visiting c root p m L base k w) (hv : Visit c p m L) (hk : k < c.plan.uploadPaths.length)
    {f : WireFrame} {l : List net.Event} (hlog : w.log ++ [⟨.recv, .ok f⟩] ++ l <+: L)
    (hinside : .transferComplete ∉ (types (f :: received l)).dropLast) :
    Unmoved (w.log ++ [⟨.recv, .ok f⟩] ++ l) ∧ (∀ u ∈ f :: received l, c.Uploads u.1) ∧
      ∃ us, received (w.log ++ [⟨.recv, .ok f⟩] ++ l) = p :: m :: us ∧ endings us = k + endings (f :: received l) ∧
        ∀ u ∈ us, c.Uploads u.1 := by
  obtain ⟨us, hus, hcount, hall⟩ := h.heard
  have hreceived : received (w.log ++ [⟨.recv, .ok f⟩] ++ l) = p :: m :: (us ++ f :: received l) := by
    rw [received_append, received_append, hus, received_ok]
    simp
  have hnew := hv.uploads hlog hreceived (by rw [hcount]; exact hk) hinside
  have hboth : ∀ u ∈ us ++ f :: received l, c.Uploads u.1 := fun u hu =>
    (List.mem_append.mp hu).elim (hall u) (hnew u)
  refine ⟨⟨?_, hreceived ▸ hv.not_complete hboth⟩, hnew, _, hreceived, ?_, hboth⟩
  · rw [failedWhile_append, failedWhile_quiet rfl]
    · exact h.calm
    · intro vs hvs
      rw [received_append, received_ok, List.append_assoc]
      refine not_judging (by simp) fun v hv' => hnew v ?_
      rcases List.mem_cons.mp hv' with rfl | hv'
      · exact List.mem_cons_self
      · exact List.mem_cons_of_mem _ (hvs.subset hv')
  · rw [endings_append, hcount]

end Visiting

/-- The record of a file that the client has. -/
theorem Errand.Listed.record (h : c.Listed) {r : FileRecord} (hr : r ∈ c.files) :
    (⟨r.path, UInt64.ofNat (contentAt c.fs c.root r.path).length, crc32 (contentAt c.fs c.root r.path)⟩ :
      FileRecord) =
      r := by
  obtain ⟨k, hk, rfl⟩ := mem_listing.mp hr
  obtain ⟨rel, hrel, -, i, hi⟩ := mem_treeFiles.mp hk
  have hd : c.fs.fileAt k = some (c.fs.inode i).data := fileAt_eq_some.mpr ⟨i, hi, rfl⟩
  have hcontent : contentAt c.fs c.root (recordOf c.fs c.root k).path = (c.fs.inode i).data := by
    rw [contentAt, components_recordOf h.scannable.isDir hk, hd, Option.getD_some]
  rw [hcontent]
  simp only [recordOf, sizeAt, hd, Option.map_some, Option.getD_some]

/-- The next upload. -/
theorem Visiting.upload {base : Fs} {k : Nat} {w w' : World} (h : Visiting c root p m L base k w)
    (hv : Visit c p m L) (hnodup : c.plan.uploadPaths.Nodup)
    (hsafe : ∀ r ∈ c.files, isSafeRemotePath r.path = true) {path : List UInt8}
    (hpath : c.plan.uploadPaths[k]? = some path) {f : WireFrame}
    (he : expectedUpload c.requestId k path f.1 = true) {r : FileTransferResult} (hlog : w'.log <+: L)
    (hr : Reach (solo (exec cr) (ending closed))
      (receiveFile f.1 root c.limits.transfer, w.push ⟨.recv, .ok f⟩) (.pure r, w')) :
    Unmoved w'.log ∧ (r.ok = true → Visiting c root p m L base (k + 1) w') := by
  unfold expectedUpload at he
  split at he
  · cases he
  · next metadata hd =>
    simp only [Bool.and_eq_true, decide_eq_true_eq] at he
    obtain ⟨⟨⟨htype, -⟩, -⟩, rfl⟩ := he
    have hk := (List.getElem?_eq_some_iff.mp hpath).1
    obtain ⟨l, hl, hcompletes⟩ := receiveFile_frames hr
    rw [NetSig.Local.push_log] at hl
    have hinside : .transferComplete ∉ (types (f :: received l)).dropLast := by
      cases hrl : received l with
      | nil => exact List.not_mem_nil
      | cons u us =>
        rw [hrl] at hcompletes
        intro hmem
        rcases List.mem_cons.mp hmem with hmem | hmem
        · cases hmem.trans htype
        · exact hcompletes.inside hmem
    obtain ⟨hunmoved, hnew, us, hus, hcount, hall⟩ := h.hear hv hk (hl ▸ hlog) hinside
    rw [← hl] at hunmoved hus
    refine ⟨hunmoved, fun hok => ?_⟩
    obtain ⟨hplain, hkept, hpresent⟩ := receiveFile_stores (w := w.push ⟨.recv, .ok f⟩) h.plain hd
      (reach_mono (fun _ _ _ _ => trivial) hr)
    refine ⟨hlog, hplain, hunmoved.calm, ⟨us, hus, ?_, hall⟩, h.kept.trans (hkept.mono fun q hq => ?_), ?_⟩
    · rw [hcount, ← List.singleton_append, endings_append, hcompletes.endings hok]
      have hzero : endings [f] = 0 := List.count_eq_zero.mpr fun hm => by
        cases (List.mem_singleton.mp hm).trans htype
      rw [hzero]
    · rw [List.mem_singleton.mp hq]
      exact List.mem_of_getElem? hpath
    · intro rec hrec j hj hjpath
      by_cases hjk : j = k
      · subst hjk
        -- the request declares what the manifest does
        obtain ⟨k', p', hk', -, hreq⟩ := Errand.Speaks.request_eq (.inr (.inr (hnew f List.mem_cons_self))) htype
        have hmetadata : metadata = ⟨p', UInt64.ofNat (contentAt c.fs c.root p').length,
            crc32 (contentAt c.fs c.root p')⟩ := by
          rw [hreq] at hd
          exact encodeUploadMetadata_inj (safe_of_decodeUploadMetadata hd) (encodeUploadMetadata_decode hd)
        have hsame : metadata.filename = rec.path := Option.some.inj (hpath.symm.trans hjpath)
        subst hmetadata
        obtain rfl : p' = rec.path := hsame
        rw [← hv.listed.record hrec]
        exact hpresent hok
      · refine Present.kept (h.stored rec hrec j (by omega) hjpath) hkept (hsafe rec hrec) fun hsame => hjk ?_
        rw [hsame] at hjpath
        exact (List.getElem?_inj (List.getElem?_eq_some_iff.mp hjpath).1 hnodup).mp (hjpath.trans hpath.symm)

/-- The loop over the plan: nothing happens in it that is not answered. -/
theorem receiveFiles_visits (hv : Visit c p m L) (hnodup : c.plan.uploadPaths.Nodup)
    (hsafe : ∀ r ∈ c.files, isSafeRemotePath r.path = true) {base : Fs} (paths : List (List UInt8)) :
    ∀ (index : Nat) (result : DirectorySyncResult) (w : World), index + paths.length = c.plan.uploadPaths.length →
      c.plan.uploadPaths.drop index = paths → result.status = .success → Visiting c root p m L base index w →
      Within cr L (receiveFiles root c.requestId c.limits index paths result) w fun x w' =>
        match x with
        | .error r => r.silent = false ∧ Unmoved w'.log
        | .ok r => r.status = .success ∧ Visiting c root p m L base c.plan.uploadPaths.length w' := by
  induction paths with
  | nil => exact fun index result w hlen _ hresult hw => safe_pure ⟨hresult, hlen ▸ hw⟩
  | cons path paths ih =>
    intro index result w hlen hdrop hresult hw
    have hpath : c.plan.uploadPaths[index]? = some path := by
      rw [← List.head?_drop, hdrop]
      rfl
    refine safe_receiveFrame fun r hr => ⟨trivial, ?_, ?_⟩
    · rintro error rfl
      exact safe_pure ⟨rfl, (hw.unmoved hv).push rfl rfl⟩
    · rintro f rfl
      have hlog := hr.2
      simp only
      split
      · next he =>
        refine safe_bind (safe_mono (within_self _ hlog) fun transfer w' hrun => ?_)
        obtain ⟨hunmoved, hnext⟩ := hw.upload hv hnodup hsafe hpath he hrun.2 hrun.1
        split
        · next hok =>
          exact ih (index + 1) _ w' (by rw [← hlen, List.length_cons]; omega)
            (by rw [← List.tail_drop, hdrop]; rfl)
            hresult (hnext hok)
        · exact safe_pure ⟨rfl, hunmoved⟩
      · have hunmoved := (hw.hear hv (List.getElem?_eq_some_iff.mp hpath).1 (f := f) (l := [])
          (by rw [List.append_nil]; exact hlog) List.not_mem_nil).1
        rw [List.append_nil] at hunmoved
        refine safe_sendFrame (fun res hres => ?_) fun hval r => ⟨trivial, fun res => ?_⟩
        · rw [if_neg (ne_true_of_eq_false hres)]
          exact safe_pure ⟨rfl, hunmoved⟩
        · split <;> exact safe_pure ⟨rfl, hunmoved.push rfl rfl⟩

end

/-! ## The whole handler -/

section
variable {cr : Crypto} {L : List net.Event} {limits : DirectorySyncLimits} {requestId : UInt64}
  {source : FileManifest} {server : Fs} {root : Path} {w : World}

/-- Why it is mute once the plan is made. -/
theorem mute_iff {log : List net.Event} (htree : server.node root ≠ none → Scannable limits.scan server root)
    (hids : (buildSyncPlan source (listing server root)).uploadPaths.length ≤
      (0xFFFFFFFFFFFFFFFF - requestId).toNat) :
    Mute limits.scan requestId source server root log ↔ FailedWhile Judging log ∨
      .syncComplete ∈ types (received log) ∧ ¬ Fits limits.scan source (listing server root) := by
  constructor
  · rintro (h | ⟨hroot, h⟩ | h | ⟨hcomplete, h⟩)
    · exact .inl h
    · exact absurd (htree hroot) h
    · exact absurd hids (Nat.not_le.mpr h)
    · exact .inr ⟨hcomplete, h⟩
  · rintro (h | ⟨hcomplete, h⟩)
    · exact .call h
    · exact .union hcomplete h

/-- The final scan. -/
theorem verify_mute (htree : server.node root ≠ none → Scannable limits.scan server root)
    (hids : (buildSyncPlan source (listing server root)).uploadPaths.length ≤
      (0xFFFFFFFFFFFFFFFF - requestId).toNat)
    (hp : w.host.fs.Plain root) (hlog : w.log <+: L) (hcalm : ¬ FailedWhile Judging w.log)
    (hlast : (types (received w.log)).getLast? = some .syncComplete)
    (hfits : Scannable limits.scan w.host.fs root ↔ Fits limits.scan source (listing server root))
    {result : DirectorySyncResult} (hresult : result.status = .success) :
    Within cr L (verify root requestId limits source result) w fun r w' =>
      r.silent = true ↔ Mute limits.scan requestId source server root w'.log := by
  refine safe_bind (safe_mono (within_self _ hlog) fun scan w' hrun => ?_)
  obtain ⟨-, -, hreceived, hscan⟩ := scanDirectory_fails hp (P := Judging) (.inr hlast) hcalm
    (reach_mono (fun _ _ _ _ => trivial) hrun.1)
  cases scan with
  | error failure =>
    refine safe_pure (iff_of_true rfl ((mute_iff htree hids).mpr
      (hscan.imp_right fun hn => ⟨?_, hfits.not.mp hn⟩)))
    rw [hreceived]
    exact List.mem_of_getLast? hlast
  | ok found =>
    obtain ⟨hcalm', hscannable, -⟩ := hscan
    have hspoken : ∀ {log}, ¬ FailedWhile Judging log → ¬ Mute limits.scan requestId source server root log :=
      fun h => (mute_iff htree hids).not.mpr (not_or.mpr ⟨h, fun hn => hn.2 (hfits.mp hscannable)⟩)
    simp only
    refine safe_sendFrame (fun res hres => ?_) fun hval r => ⟨trivial, fun res => ?_⟩
    · rw [if_neg (ne_true_of_eq_false hres)]
      exact safe_pure (iff_of_false (by rintro ⟨⟩) (hspoken hcalm'))
    · have hsilent := hspoken ((failedWhile_quiet (e := ⟨.send ⟨_, hval⟩, r⟩) rfl).not.mpr hcalm')
      split
      · split <;> exact safe_pure (iff_of_false (by simp [DirectorySyncResult.silent, hresult]) hsilent)
      · exact safe_pure (iff_of_false (by rintro ⟨⟩) hsilent)

end

section
variable {cr : Crypto} {c : Errand} {p m : WireFrame} {L : List net.Event} {server : Fs} {root : Path} {w : World}

/-- The client follows the plan that the server has sent it. -/
theorem Visit.replan (h : Visit c p m L) (plan : SyncPlan)
    (hplan : ∀ f, (sent L)[2]? = some f → decodeSyncPlan (.of f.1.payload) c.limits.scan.maxEntries = .ok plan) :
    Visit { c with plan } p m L := by
  obtain ⟨vs, hvs, hbrings⟩ := h.brings
  refine ⟨h.proof, vs, hvs, ?_⟩
  cases vs with
  | nil =>
    exact ⟨⟨h.listed.id, h.listed.scannable, h.listed.encoded, h.listed.fits⟩, hbrings.manifest, trivial,
      fun hne => absurd rfl hne⟩
  | cons v vs =>
    obtain ⟨f, hf, -, hdecode⟩ := hbrings.told (by simp)
    obtain rfl : c.plan = plan := Except.ok.inj (hdecode.symm.trans (hplan f hf))
    exact hbrings

/-- What a manifest is decoded to. -/
theorem Errand.Listed.decoded (h : c.Listed) :
    decodeManifest (.of c.manifest.payload) c.limits.scan.maxEntries = .ok c.files := by
  refine decodeManifest_encode h.encoded ?_
  rw [Errand.files, length_listing]
  exact h.scannable.count

theorem Errand.Listed.sizes (h : c.Listed) : ∀ r ∈ c.files, r.size ≤ c.limits.scan.maxFileSize := by
  intro r hr
  obtain ⟨k, hk, rfl⟩ := mem_listing.mp hr
  have hsmall := h.scannable.small k hk
  have hlt := c.limits.scan.maxFileSize.toNat_lt
  rw [UInt64.le_iff_toNat_le]
  simp only [recordOf, UInt64.toNat_ofNat']
  omega

/-- After the last upload the union decides. -/
theorem Visiting.scannable_iff {base : Fs} (h : Visiting c root p m L base c.plan.uploadPaths.length w)
    (hlisted : c.Listed) (hbase : Scannable c.limits.scan base root)
    (hplan : c.plan = buildSyncPlan c.files (listing base root)) :
    Scannable c.limits.scan w.host.fs root ↔ Fits c.limits.scan c.files (listing base root) := by
  obtain ⟨-, hsafe, hsorted⟩ := decodeManifest_sorted hlisted.decoded
  have hdir : w.host.fs.node root = some .dir := by
    rcases h.kept.unplanned root (fun hpre => by simpa using hpre.length_le)
      (fun path _ he => components_ne_nil _ (List.append_right_eq_self.mp he.symm)) with ⟨hsame, -⟩ | ⟨-, hdir, -⟩
    · rw [hsame, hbase.isDir]
    · exact hdir
  have happlied : Applied base w.host.fs root c.files c.plan := by
    refine h.kept.applied hdir fun r hr hmem => ?_
    obtain ⟨j, hj⟩ := List.mem_iff_getElem?.mp hmem
    exact h.stored r hr j (List.getElem?_eq_some_iff.mp hj).1 hj
  rw [hplan] at happlied
  exact happlied.scannable_iff hsorted hbase.isDir hsafe hbase hlisted.sizes

/-- From the plan on. -/
theorem executePlan_mute (hv : Visit c p m L)
    (htree : server.node root ≠ none → Scannable c.limits.scan server root) (hp : w.host.fs.Plain root)
    (hbase : Scannable c.limits.scan w.host.fs root) (hlisting : listing w.host.fs root = listing server root)
    (hcalm : ¬ FailedWhile Judging w.log) (hreceived : received w.log = [p, m]) (hsent : (sent w.log).length = 2) :
    Within cr L (executePlan root c.requestId c.limits c.files (buildSyncPlan c.files (listing server root))) w
      fun r w' => r.silent = true ↔ Mute c.limits.scan c.requestId c.files server root w'.log := by
  obtain ⟨-, hsafe, hsorted⟩ := decodeManifest_sorted hv.listed.decoded
  have hd : SortedRecords (listing server root) := hlisting ▸ listing_sorted hbase.isDir
  obtain ⟨⟨hne, hle⟩, hdecode, -, -⟩ := plan_transported hv.listed.encoded hv.listed.fits hd
  unfold executePlan
  split
  · next hids => exact safe_pure (iff_of_true rfl (.ids hids))
  next hids =>
  have hids := Nat.not_lt.mp hids
  simp only
  rw [if_neg (not_or.mpr ⟨hne, Nat.not_lt.mpr hle⟩)]
  have hvalid : (makeFrame .syncPlan c.requestId
      (encodeSyncPlan (buildSyncPlan c.files (listing server root)))).Valid := makeFrame_valid rfl hle
  rw [sendFrame_bind hvalid]
  refine safe_op fun r w1 hs => ⟨trivial, ?_⟩
  obtain rfl : w.push ⟨.send ⟨_, hvalid⟩, r⟩ = w1 := Option.some.inj hs.2
  have hv' := hv.replan (buildSyncPlan c.files (listing server root)) fun f hf => by
    obtain ⟨t, ht⟩ := hs.1.2
    rw [← ht, sent_append, sent_append, sent_send, List.getElem?_append_left (by simp [hsent]), ← hsent,
      List.getElem?_concat_length] at hf
    cases hf
    refine hdecode _ ?_
    rw [Errand.files, length_listing]
    exact hv.listed.scannable.count
  have hunmoved : ∀ {log r}, r = false → Unmoved log →
      (r = true ↔ Mute c.limits.scan c.requestId c.files server root log) := fun hr h =>
    iff_of_false (by rw [hr]; simp) ((mute_iff htree hids).not.mpr
      (not_or.mpr ⟨h.calm, fun hn => h.unfinished hn.1⟩))
  have hstart : Visiting { c with plan := buildSyncPlan c.files (listing server root) } root p m L w.host.fs 0
      (w.push ⟨.send ⟨_, hvalid⟩, r⟩) := by
    refine ⟨hs.1.2, hp, (failedWhile_quiet rfl).not.mpr hcalm, ⟨[], ?_, rfl, by simp⟩, .refl _ _ _, by simp⟩
    rw [NetSig.Local.push_log, received_concat_send, hreceived]
  split
  · refine safe_bind (safe_mono (receiveFiles_visits hv' ?_ hsafe _ 0 _ _ (Nat.zero_add _)
      (List.drop_zero ..) rfl hstart)
      fun x w2 hx => ?_)
    · refine List.Pairwise.imp ?_ (uploadPaths_sorted hsorted hd)
      rintro a _ hlt rfl
      exact path_irrefl _ hlt
    cases x with
    | error r => exact safe_pure (hunmoved hx.1 hx.2)
    | ok result =>
      obtain ⟨hresult, hw2⟩ := hx
      refine safe_bind (safe_receiveFrame fun r' hr' => ⟨trivial, ?_, ?_⟩)
      · rintro error rfl
        exact safe_pure (safe_pure (hunmoved rfl ((hw2.unmoved hv').push rfl rfl)))
      · rintro f rfl
        -- all uploads have been ended, so this frame ends the sync
        obtain ⟨us, hus, hcount, hall⟩ := hw2.heard
        have hreceived2 : received (w2.push ⟨.recv, .ok f⟩).log = p :: m :: (us ++ [f]) := by
          rw [NetSig.Local.push_log, received_append, hus, received_ok]
          rfl
        have hf : f.1 = makeFrame .syncComplete c.requestId [] := by
          rcases hv'.next hr'.2 hreceived2 with ⟨hlt, -⟩ | ⟨-, hf⟩
          · exact absurd hcount hlt.ne
          · exact hf
        simp only [hf, makeFrame, SyncWire.makeFrame, ne_eq, not_true_eq_false, if_false]
        refine safe_pure ?_
        simp only [not_true_eq_false, if_false]
        refine verify_mute (w := w2.push _) htree hids hw2.plain hr'.2
          ((failedWhile_quiet rfl).not.mpr hw2.calm) ?_ ?_
          hresult
        · rw [hreceived2]
          rw [types, List.map_cons, List.map_cons, List.map_append, List.map_singleton, hf, ← List.cons_append,
            ← List.cons_append, List.getLast?_concat]
          rfl
        · rw [← hlisting]
          exact hw2.scannable_iff hv'.listed hbase (by rw [hlisting]; rfl)
  · exact safe_pure (hunmoved rfl (hstart.unmoved hv'))

/-- From the decoded manifest on. -/
theorem receiveManifest_mute (hv : Visit c p m L) (hp : w.host.fs.Plain root) (hlog : w.log <+: L)
    (hcalm : ¬ FailedWhile Judging w.log) (hreceived : received w.log = [p, m]) (hsent : (sent w.log).length = 2) :
    Within cr L (receiveManifest root c.requestId c.limits c.files) w
      fun r w' => r.silent = true ↔ Mute c.limits.scan c.requestId c.files w.host.fs root w'.log := by
  have hjudging : Judging (received w.log) := by
    left
    rw [hreceived, types, List.map_cons, List.map_singleton, hv.manifest]
    rfl
  refine safe_bind (safe_mono (within_self _ hlog) fun r w1 hrun => ?_)
  obtain ⟨hsent1, hreceived1, hfailed⟩ := (createDirectories_fails hjudging root []).result hrun.1
  cases r with
  | error errno => exact safe_pure (iff_of_true rfl (.call (hfailed.mpr (.inr ⟨errno, rfl⟩))))
  | ok _ =>
    have hcalm1 : ¬ FailedWhile Judging w1.log := by
      rw [hfailed]
      exact not_or.mpr ⟨hcalm, by rintro ⟨-, ⟨⟩⟩⟩
    obtain ⟨hp1, hadded, hiff⟩ := createDirectories_base hp
      (reach_mono (fun _ _ _ _ => trivial) hrun.1) c.limits.scan
    refine safe_bind (safe_mono (within_self _ hrun.2) fun scan w2 hrun2 => ?_)
    obtain ⟨hfs, hsent2, hreceived2, hscan⟩ := scanDirectory_fails hp1 (hreceived1 ▸ hjudging) hcalm1
      (reach_mono (fun _ _ _ _ => trivial) hrun2.1)
    cases scan with
    | error failure =>
      refine safe_pure (iff_of_true rfl ?_)
      rcases hscan with hfailed2 | hnot
      · exact .call hfailed2
      · rw [hiff, Classical.not_imp] at hnot
        exact .tree hnot.1 hnot.2
    | ok found =>
      obtain ⟨hcalm2, hscannable, hfiles⟩ := hscan
      have hsame := listing_congr hscannable.isDir hadded.fileAt_eq
      simp only [hfiles, hsame]
      refine executePlan_mute hv (hiff.mp hscannable) (by rw [hfs]; exact hp1) (by rw [hfs]; exact hscannable)
        (by rw [hfs]; exact hsame) hcalm2 (by rw [hreceived2, hreceived1, hreceived])
        (by rw [hsent2, hsent1, hsent])

/-- **The handler.**  With an honest client, it does not answer in these cases and in no others. -/
theorem receiveDirectorySync_mute (hv : Visit c p m L) (hp : w.host.fs.Plain root) (hlog : w.log <+: L)
    (hcalm : ¬ FailedWhile Judging w.log) (hreceived : received w.log = [p, m]) (hsent : (sent w.log).length = 2) :
    Within cr L (receiveDirectorySync m.1 root c.limits) w
      fun r w' => r.silent = true ↔ Mute c.limits.scan c.requestId c.files w.host.fs root w'.log := by
  have hsizes : ¬ (c.files.any fun file => decide (file.size > c.limits.scan.maxFileSize)) = true := by
    simpa using hv.listed.sizes
  unfold receiveDirectorySync
  rw [hv.manifest]
  simp only [hv.listed.decoded]
  rw [if_neg (by rintro (h | h | h); exacts [h rfl, hv.listed.id h, h rfl]), if_neg hsizes]
  exact receiveManifest_mute hv hp hlog hcalm hreceived hsent

end

end DirectorySync

end SyncWire
