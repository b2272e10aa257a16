import SyncWire.Server.Guarantee
import SyncWire.Sync.Plan

/-!
# What one step of `receive_directory_sync` can do

A step makes a directory on the way to the root, or is a step of the upload of a planned
file; the frames sent are the plan, those of the uploads, and the result of the final
scan (`Sync.Guarantee`).  `receiveManifest_safe` says that every step is of this kind, and
what a successful sync has established.
-/

namespace SyncWire

open Wire Effect Posix Posix.Fs FileTransfer

namespace DirectorySync

/-- A sync whose manifest was decoded, and its plan; `start` is the log it began with. -/
structure Sync where
  cr : Crypto
  root : Path
  requestId : UInt64
  limits : DirectorySyncLimits
  source : FileManifest
  plan : SyncPlan
  start : List net.Event

/-- Since the last frame arrived, calls that read were made and nothing else. -/
def OnlyRead (log : List net.Event) : Prop :=
  ∃ l f l', log = l ++ ⟨.recv, .ok f⟩ :: l' ∧ ∀ e ∈ l', ∃ c r, e = ⟨.call c, r⟩ ∧ c.reads = true

namespace Sync

variable (s : Sync)

/-- The upload of a planned file, which the client asked for. -/
structure Planned (log : List net.Event) (u : Upload) : Prop
    extends Requested s.cr s.root s.limits.transfer log u where
  index : ∃ i, s.plan.uploadPaths[i]? = some u.metadata.filename ∧ u.requestId = fileRequestId s.requestId i

/-- The plan has been sent. -/
def PlanSent (log : List net.Event) : Prop :=
  ∃ l, log = s.start ++ l ∧ ∃ f ∈ sent l, f.1.header.messageType = .syncPlan

/-- What a step may do to the file system. -/
inductive Change (log : List net.Event) (fs fs' : Fs) : Prop
  | same (h : fs' = fs)
  | makeRoot (p : Path) (hp : p <+: s.root) (h : MadeDir p fs fs')
  | upload (u : Upload) (hsent : s.PlanSent log) (hu : s.Planned log u) (h : u.Change log fs fs')
  | commit (u : Upload) (hsent : s.PlanSent log) (hu : s.Planned log u) (h : u.Committed fs fs')

/-- What may be sent: the plan, a frame of an upload, or the result. -/
inductive Reply (w : World) (f : Frame) : Prop
  | plan (ht : f.header.messageType = .syncPlan) (hp : f.payload = encodeSyncPlan s.plan)
  | upload (ht : f.header.messageType = .transferReady ∨ f.header.messageType = .acknowledgment ∨
      f.header.messageType = .transferResult)
      (hstored : Reports f .uploadRequest → Fulfilled s.root w.log w.host.fs .uploadRequest f.header.requestId)
  | result (code : SyncResultCode) (hid : f.header.requestId = s.requestId)
      (ht : f.header.messageType = .syncResult) (hp : f.payload = encodeSyncResult code) (hread : OnlyRead w.log)
      (hcode : code = .success ↔ ∀ r ∈ s.source, Present w.host.fs s.root r)

/-- What every step satisfies. -/
def Guarantee (w w' : World) : Prop :=
  ∃ e, w'.log = w.log ++ [e] ∧ s.Change w.log w.host.fs w'.host.fs ∧
    ∀ f r, e = ⟨.send f, r⟩ → s.Reply w f.1

/-- What a successful sync has established. -/
structure Done (r : DirectorySyncResult) (w : World) : Prop where
  result : r = { planResult s.plan with completedUploads := s.plan.uploadPaths.length }
  present : ∀ rec ∈ s.source, Present w.host.fs s.root rec

variable {s} {w w' : World} {α : Type} {Q : α → World → Prop}

theorem PlanSent.push {log : List net.Event} (h : s.PlanSent log) (e : net.Event) : s.PlanSent (log ++ [e]) := by
  obtain ⟨l, rfl, f, hf, ht⟩ := h
  exact ⟨l ++ [e], by simp, f, by simp [hf], ht⟩

/-- Where uploads are received. -/
structure Ready (s : Sync) (w : World) : Prop where
  plain : w.host.fs.Plain s.root
  sent : s.PlanSent w.log

theorem Ready.push (h : s.Ready w) (e : net.Event) : s.Ready (w.push e) := ⟨h.plain, h.sent.push e⟩

theorem guarantee_call {c : Posix.Call} {r : Except Nat (Posix.Val c)} {h' : Host}
    (h : s.Change w.log w.host.fs h'.fs) : s.Guarantee w ⟨h', w.log ++ [⟨.call c, r⟩]⟩ :=
  ⟨_, rfl, h, fun f r he => by cases he⟩

theorem guarantee_recv {r : Except ReceiveFailure WireFrame} : s.Guarantee w (w.push ⟨.recv, r⟩) :=
  ⟨_, rfl, .same rfl, fun f r he => by cases he⟩

theorem guarantee_send {f : WireFrame} {r : Except IoFailure Unit} (h : s.Reply w f.1) :
    s.Guarantee w (w.push ⟨.send f, r⟩) :=
  ⟨_, rfl, .same rfl, fun f r he => by cases he; exact h⟩

/-- A step of a planned upload. -/
theorem guarantee_upload {u : Upload} {w₀ : World} (hsent : s.PlanSent w.log) (hu : s.Planned w.log u)
    (hv : u.Visible w₀ w) (h : u.Guarantee w₀.log w w') : s.Guarantee w w' := by
  obtain ⟨e', hl', -, hvouch⟩ := served_upload hu.toRequested hv h
  obtain ⟨e, hl, hren, hcom, hchg, hframe, -⟩ := h
  obtain rfl : e' = e := List.singleton_inj.mp (List.append_cancel_left (hl'.symm.trans hl))
  refine ⟨e', hl, ?_, fun f r he => .upload (hframe f r he).2 (hvouch f r _ he)⟩
  by_cases hr : u.Renamed w₀.log w.log
  · exact .same (hren hr).1
  · by_cases he : e' = u.renameDone
    · exact .commit u hsent hu (hcom hr he)
    · exact .upload u hsent hu (hchg hr he)

/-- A step of a sync is one of a session that was asked for it. -/
theorem Guarantee.served (hman : Promised s.requestId s.source w.log) (h : s.Guarantee w w') :
    Served s.cr s.root s.limits.transfer w w' := by
  obtain ⟨e, hl, hchg, hreply⟩ := h
  refine ⟨e, hl, ?_, fun f r type he hrep => ?_⟩
  · cases hchg with
    | same h => exact .same h
    | makeRoot p hp h => exact .makeRoot p hp h
    | upload u _ hu h => exact .upload u hu.toRequested h
    | commit u _ hu h => exact .commit u hu.toRequested h
  · cases hreply f r he with
    | plan ht _ => cases hrep with
      | upload ht' _ => cases ht.symm.trans ht'
      | sync ht' _ => cases ht.symm.trans ht'
    | upload ht hstored => cases hrep with
      | upload ht' hp => exact hstored (.upload ht' hp)
      | sync ht' _ => rcases ht with ht | ht | ht <;> cases ht.symm.trans ht'
    | result code hid ht hp _ hcode => cases hrep with
      | upload ht' _ => cases ht.symm.trans ht'
      | sync _ hp' =>
        cases code with
        | success => rw [hid]; exact hman.fulfilled (hcode.mp rfl)
        | destinationChanged => cases hp.symm.trans hp'

theorem admits_started : Admits (fun log => s.start <+: log) s.Guarantee :=
  ⟨fun _ h => h.trans (List.prefix_append _ _), fun _ _ hfs => guarantee_call (.same hfs)⟩

theorem admits_onlyRead : Admits OnlyRead s.Guarantee := by
  refine ⟨?_, fun _ _ hfs => guarantee_call (.same hfs)⟩
  rintro log c r hc ⟨l, f, l', rfl, hl⟩
  refine ⟨l, f, l' ++ [⟨.call c, r⟩], by simp, fun e he => ?_⟩
  rcases List.mem_append.mp he with he | he
  · exact hl e he
  · exact ⟨c, r, List.mem_singleton.mp he, hc⟩

/-! ## The stages -/

/-- All steps of `p` keep the guarantee, against any client and any failures. -/
abbrev Safely (s : Sync) {α : Type} (p : Sys α) (w : World) (Q : α → World → Prop) : Prop :=
  Safe (solo (exec s.cr) anyAnswer) s.Guarantee p w Q

theorem safely_receiveControlFrame {type : MessageType} {requestId : UInt64}
    {k : Except DirectorySyncResult Frame → Sys α}
    (herr : ∀ r w', r.ok = false → s.Safely (k (.error r)) w' Q)
    (hok : ∀ f : WireFrame, s.Safely (k (.ok f.1)) (w.push ⟨.recv, .ok f⟩) Q) :
    s.Safely (receiveControlFrame type requestId >>= k) w Q :=
  safe_receiveControlFrame (fun _ => guarantee_recv) (fun r w' h _ => herr r w' h) fun f _ _ => hok f

/-- The upload of the planned file at an index. -/
theorem receiveFile_planned {request : WireFrame} {index : Nat} {path : List UInt8}
    (hw : s.Ready w) (hreq : request ∈ received w.log) (hpath : s.plan.uploadPaths[index]? = some path)
    (he : expectedUpload s.requestId index path request.1 = true)
    {Q : FileTransferResult → World → Prop} (hQ : ∀ r w', s.Ready w' → Q r w') :
    s.Safely (receiveFile request.1 s.root s.limits.transfer) w Q := by
  unfold expectedUpload at he
  split at he
  · cases he
  · next metadata hd =>
    simp only [Bool.and_eq_true, decide_eq_true_eq] at he
    obtain ⟨⟨⟨ht, hid⟩, -⟩, rfl⟩ := he
    have hkeep := (receiveFile_requested s.cr s.limits.transfer hw.plain hreq ht hd).keeps s.Ready hw ?_
    · refine safe_mono (safe_weaken hkeep ?_) fun r w' h => hQ r w' h.2
      rintro a b ⟨hready, hu, hv, hg⟩
      exact guarantee_upload hready.sent ⟨hu, index, hpath, hid⟩ hv hg
    · rintro a b ha ⟨-, -, hg⟩
      refine ⟨hg.grows.plain ha.plain, ?_⟩
      obtain ⟨e, hl, -⟩ := hg
      rw [hl]
      exact ha.sent.push e

theorem receiveFiles_safely (paths : List (List UInt8)) : ∀ (index : Nat) (result : DirectorySyncResult)
    (w : World), s.plan.uploadPaths.drop index = paths → s.Ready w →
    ∀ {Q : Except DirectorySyncResult DirectorySyncResult → World → Prop},
      (∀ r w', r.ok = false → Q (.error r) w') →
      (∀ w', s.Ready w' →
        Q (.ok { result with completedUploads := result.completedUploads + paths.length }) w') →
      s.Safely (receiveFiles s.root s.requestId s.limits index paths result) w Q := by
  induction paths with
  | nil => exact fun index result w _ hw Q _ hok => safe_pure (hok w hw)
  | cons path paths ih =>
    intro index result w hdrop hw Q herr hok
    have hpath : s.plan.uploadPaths[index]? = some path := by
      rw [← List.head?_drop, hdrop]
      rfl
    refine safe_receiveFrame fun r _ => ⟨guarantee_recv, ?_, ?_⟩
    · rintro error rfl
      exact safe_pure (herr _ _ rfl)
    · rintro request rfl
      simp only
      split
      · next he =>
        refine safe_bind (receiveFile_planned (hw.push _) (mem_received_concat _ _) hpath he
          fun transfer w' hw' => ?_)
        split
        · refine ih (index + 1) _ w' (by rw [← List.tail_drop, hdrop]; rfl) hw' herr fun w'' hw'' => ?_
          have := hok w'' hw''
          rwa [List.length_cons, Nat.add_comm paths.length, ← Nat.add_assoc] at this
        · exact safe_pure (herr _ _ rfl)
      · refine safe_sendFrame (fun res hres => ?_) fun hv r =>
          ⟨guarantee_send (.upload (.inr (.inr rfl)) fun hrep => ?_), fun res => ?_⟩
        · rw [if_neg (ne_true_of_eq_false hres)]
          exact safe_pure (herr _ _ rfl)
        · cases hrep with
          | upload _ hp =>
            have hne : encodeTransferResult .unexpectedFrame ≠ encodeTransferResult .success := by decide
            exact absurd hp hne
        · split <;> exact safe_pure (herr _ _ rfl)

/-- **The final scan** decides the result. -/
theorem verify_safely (hs : SortedRecords s.source) (hsafe : ∀ r ∈ s.source, isSafeRemotePath r.path = true)
    (hread : OnlyRead w.log) (hp : w.host.fs.Plain s.root) {result : DirectorySyncResult}
    {Q : DirectorySyncResult → World → Prop} (herr : ∀ r w', r.ok = false → Q r w')
    (hok : ∀ w', (∀ r ∈ s.source, Present w'.host.fs s.root r) → Q result w') :
    s.Safely (verify s.root s.requestId s.limits s.source result) w Q := by
  refine safe_bind (scanDirectory_safe admits_onlyRead hread hp fun scan w' hfs hread' hscan => ?_)
  cases scan with
  | error failure => exact safe_pure (herr _ _ rfl)
  | ok destination =>
    obtain ⟨hfiles, hscannable⟩ := hscan destination rfl
    have hall : (buildSyncPlan s.source destination.files).uploadPaths.isEmpty = true ↔
        ∀ r ∈ s.source, Present w'.host.fs s.root r := by
      rw [List.isEmpty_iff, hfiles, buildSyncPlan_nil_iff hs (listing_sorted hscannable.isDir), hfs]
      exact forall₂_congr fun r hr => mem_listing_iff hscannable (hsafe r hr)
    simp only
    generalize hcode : (if (buildSyncPlan s.source destination.files).uploadPaths.isEmpty = true then
      SyncResultCode.success else .destinationChanged) = code
    have hcode' : code = .success ↔ ∀ r ∈ s.source, Present w'.host.fs s.root r := by
      rw [← hall, ← hcode]
      split <;> simp_all
    refine safe_sendFrame (fun res hres => ?_) fun hv r =>
      ⟨guarantee_send (.result code rfl rfl rfl hread' hcode'), fun res => ?_⟩
    · rw [if_neg (ne_true_of_eq_false hres)]
      exact safe_pure (herr _ _ rfl)
    · split
      · split
        · exact safe_pure (herr _ _ rfl)
        · next hsuccess => exact safe_pure (hok _ (hcode'.mp (not_not.mp hsuccess)))
      · exact safe_pure (herr _ _ rfl)

theorem executePlan_safely (hs : SortedRecords s.source)
    (hsafe : ∀ r ∈ s.source, isSafeRemotePath r.path = true) (hp : w.host.fs.Plain s.root)
    (hstart : s.start <+: w.log) :
    s.Safely (executePlan s.root s.requestId s.limits s.source s.plan) w fun r w' => r.ok = true →
      s.Done r w' := by
  unfold executePlan
  split
  · exact safe_pure (stopped rfl)
  · simp only
    split
    · exact safe_pure (stopped rfl)
    · refine safe_sendFrame (fun res hres => ?_) fun hv r => ⟨guarantee_send (.plan rfl rfl), fun res => ?_⟩
      · rw [if_neg (ne_true_of_eq_false hres)]
        exact safe_pure (stopped rfl)
      have hready : s.Ready (w.push ⟨.send ⟨_, hv⟩, r⟩) := by
        obtain ⟨l, hl⟩ := hstart
        exact ⟨hp, l ++ [⟨.send ⟨_, hv⟩, r⟩], by rw [← List.append_assoc, hl]; rfl, ⟨_, hv⟩,
          mem_sent_concat _ _ _, rfl⟩
      split
      · refine safe_bind (receiveFiles_safely _ 0 _ _ (List.drop_zero ..) hready
          (fun r w' h => safe_pure (stopped h)) fun w' hw' => ?_)
        refine safely_receiveControlFrame (fun r w'' h => safe_pure (stopped h)) fun f => ?_
        simp only
        split
        · exact safe_pure (stopped rfl)
        · refine verify_safely (w := w'.push _) hs hsafe ⟨_, f, [], rfl, by simp⟩ hw'.plain
            (fun r w'' h => stopped h) fun w'' hpres _ => ⟨?_, hpres⟩
          simp [planResult]
      · exact safe_pure (stopped rfl)

/-- Making a root that is where it says keeps the guarantee. -/
theorem mayMake_root : MayMake s.root (· <+: s.root) (fun w => s.start <+: w.log ∧ w.host.fs.Plain s.root)
    s.Guarantee where
  quiet c r hI _ hfs :=
    ⟨guarantee_call (.same hfs), hI.1.trans (List.prefix_append _ _), by rw [hfs]; exact hI.2⟩
  make c r hI _ hA hat hm := by
    obtain rfl := hat.eq_of_plain hI.2
    exact ⟨guarantee_call (.makeRoot _ hA hm), hI.1.trans (List.prefix_append _ _), hm.grows.plain hI.2⟩

/-- From the decoded manifest on: the plan is the one for the tree as it was. -/
theorem receiveManifest_safely (hs : SortedRecords s.source)
    (hsafe : ∀ r ∈ s.source, isSafeRemotePath r.path = true) (hp : w.host.fs.Plain s.root)
    (hplan : s.plan = buildSyncPlan s.source (listing w.host.fs s.root)) (hstart : s.start <+: w.log) :
    s.Safely (receiveManifest s.root s.requestId s.limits s.source) w fun r w' => r.ok = true → s.Done r w' := by
  refine safe_bind (createDirectories_safe mayMake_root (fun _ h => h) s.root [] rfl
    ⟨[], target_of_resolve (resolve_of_node (node_nil _)) (node_nil _)⟩ ⟨hstart, hp⟩
    fun r w' ⟨hstart', hp'⟩ ha _ => ?_)
  cases r with
  | error errno => exact safe_pure (stopped rfl)
  | ok _ =>
    refine safe_bind (scanDirectory_safe admits_started hstart' hp' fun scan w'' hfs hstart'' hscan => ?_)
    cases scan with
    | error failure => exact safe_pure (stopped rfl)
    | ok destination =>
      obtain ⟨hfiles, hscannable⟩ := hscan destination rfl
      have heq : buildSyncPlan s.source destination.files = s.plan := by
        rw [hplan, hfiles, listing_congr hscannable.isDir ha.fileAt_eq]
      simp only [heq]
      exact executePlan_safely hs hsafe (by rw [hfs]; exact hp') hstart''

end Sync

end DirectorySync

end SyncWire
