import SyncWire.Recovery
import SyncWire.Sync.Again
import SyncWire.Sync.Client

/-!
# An honest sync

`sync_directory` and `receive_directory_sync` run against each other, and both return `Success`.  What the server
was told is what the client of `Sync.Client` sends (`Errand.Speaks`), so each planned file arrives as it is.

* `sync_mirrors`: the destination has the source's files, all else is as it was, and the same sync again finds
  nothing to do.
-/

namespace SyncWire

open Wire Effect Posix Posix.Fs FileTransfer

/-! ## One upload -/

namespace Upload

variable {u : Upload} {S : Bytes} {w v v' : World}

/-- What an upload of `S`, begun at `w`, has done at `v`. -/
structure Uploading (u : Upload) (S : Bytes) (w v : World) : Prop where
  log : w.log <+: v.log
  plain : v.host.fs.Plain u.root
  part : Recoverable u.partPath S w.host.fs → Recoverable u.partPath S v.host.fs
  gone : u.Renamed w.log v.log → v.host.fs.node u.partPath = none
  stored : u.Renamed w.log v.log → Recoverable u.partPath S w.host.fs → v.host.fs.fileAt u.finalPath = some S
  files : ∀ q, q ≠ u.partPath → q ≠ u.finalPath → v.host.fs.fileAt q = w.host.fs.fileAt q
  nodes : ∀ q, q ≠ u.partPath → q ≠ u.finalPath → ¬ u.OnTheWay q → v.host.fs.node q = w.host.fs.node q

theorem uploading_start (S : Bytes) (hroot : w.host.fs.Plain u.root) : u.Uploading S w w :=
  ⟨List.prefix_refl _, hroot, id, fun h => absurd h (open_start u w.log).not_renamed,
    fun h => absurd h (open_start u w.log).not_renamed, fun _ _ _ => rfl, fun _ _ _ _ => rfl⟩

theorem Uploading.step (h : u.Uploading S w v) (hg : u.Guarantee w.log v v')
    (hsafe : isSafeRemotePath u.metadata.filename = true) (hS : u.metadata.fileSize.toNat = S.length)
    (hgot : u.Hears S v.log) : u.Uploading S w v' := by
  have hplain := hg.grows.plain h.plain
  obtain ⟨e, hl, hren, hcom, hchg, -, -⟩ := hg
  have hlog : w.log <+: v'.log := h.log.trans (hl ▸ List.prefix_append _ _)
  by_cases hr : u.Renamed w.log v.log
  · rw [(hren hr).1] at hplain
    refine ⟨hlog, ?_, ?_, fun _ => ?_, fun _ => ?_, ?_, ?_⟩ <;> rw [(hren hr).1]
    exacts [hplain, h.part, h.gone hr, h.stored hr, h.files, h.nodes]
  by_cases he : e = u.renameDone
  · have hc := hcom hr he
    exact ⟨hlog, hplain, fun _ => .inl (hc.part_gone hsafe), fun _ => hc.part_gone hsafe,
      fun _ hrec => hc.stores hS (h.part hrec), fun q hp hf => (hc.fileAt_eq hp hf).trans (h.files q hp hf),
      fun q hp hf hq => (hc.node_eq hp hf).trans (h.nodes q hp hf hq)⟩
  · have hc := hchg hr he
    have hnot : ¬ u.Renamed w.log v'.log := by
      rw [hl, renamed_concat h.log]
      exact not_or.mpr ⟨hr, he⟩
    exact ⟨hlog, hplain, fun hrec => hc.recoverable hsafe hgot (h.part hrec), fun h => absurd h hnot,
      fun h => absurd h hnot, fun q hp hf => (hc.fileAt_eq hp).trans (h.files q hp hf),
      fun q hp hf hq => (hc.node_eq hq hp).trans (h.nodes q hp hf hq)⟩

/-- An upload of `S` by a client that sends `S`. -/
theorem uploading_of_reach {cr : Crypto} {root : Path} {remote : List UInt8} {requestId : UInt64} {chunkSize : Nat}
    {limits : TransferLimits} {P : WireFrame → Prop} (hsafe : isSafeRemotePath remote = true)
    (hS : S.length < 2 ^ 64) (hroot : w.host.fs.Plain root)
    (hP : ∀ m, P m → m.1.header.requestId = requestId → Carries S m.1) (hgot : ∀ m ∈ received w.log, P m)
    {r : FileTransferResult}
    (hr : Reach (solo (exec cr) (assuming anyAnswer P))
      (receiveFile (Client.request ⟨S, remote, requestId, chunkSize⟩) root limits, w) (.pure r, v)) :
    let u := ofSource cr root remote requestId limits S
    u.Uploading S w v ∧ (∀ m ∈ received v.log, P m) ∧ (r.ok = true → u.Renamed w.log v.log) := by
  intro u
  have hrun : Safe (solo (exec cr) (assuming anyAnswer P)) (u.Guarantee w.log)
      (receiveFile (Client.request ⟨S, remote, requestId, chunkSize⟩) root limits) w (u.Done w.log) :=
    safe_rely (fun _ _ _ h => h.1) (receiveFile_safely cr root limits hroot (decodeUploadMetadata_encode hsafe))
  have hsize : (UInt64.ofNat S.length).toNat = S.length := by rw [UInt64.toNat_ofNat', Nat.mod_eq_of_lt hS]
  have hkept := hrun.reach_step (fun v => u.Uploading S w v ∧ ∀ m ∈ received v.log, P m)
    ⟨uploading_start S hroot, hgot⟩
    ?_ hr
  · exact ⟨hkept.1, hkept.2, hrun.result hr⟩
  · rintro o v1 res v2 hs hg ⟨hst, hgot1⟩
    exact ⟨hst.step hg hsafe hsize fun m hm hid => hP m (hgot1 m hm) hid, received_assuming hs hgot1⟩

end Upload

namespace DirectorySync

/-! ## The uploads of a plan -/

theorem ids_below {requestId : UInt64} {n : Nat} (hn : n ≤ (0xFFFFFFFFFFFFFFFF - requestId).toNat) :
    requestId.toNat + n < 2 ^ 64 := by
  have hle : requestId ≤ 0xFFFFFFFFFFFFFFFF := UInt64.le_iff_toNat_le.mpr (Nat.le_of_lt_succ requestId.toNat_lt)
  have hmax : (0xFFFFFFFFFFFFFFFF : UInt64).toNat = 2 ^ 64 - 1 := rfl
  have hlt := requestId.toNat_lt
  rw [UInt64.toNat_sub_of_le _ _ hle] at hn
  omega

theorem toNat_fileRequestId {requestId : UInt64} {n k : Nat} (hn : n ≤ (0xFFFFFFFFFFFFFFFF - requestId).toNat)
    (hk : k < n) : (fileRequestId requestId k).toNat = requestId.toNat + k + 1 := by
  have hlt := ids_below hn
  simp only [fileRequestId, UInt64.toNat_add, UInt64.toNat_ofNat', UInt64.toNat_one]
  omega

/-- The tree while the files of a plan arrive: those of `done` are there, for those of `todo` nothing has been
saved, and all else is as it was at `first`. -/
structure Mirrored (cr : Crypto) (root : Path) (content : List UInt8 → Bytes) (first : Fs)
    (done todo : List (List UInt8)) (fs : Fs) : Prop where
  plain : fs.Plain root
  stored : ∀ p ∈ done, first.node (target cr root p (content p)).partPath = none →
    fs.fileAt (root ++ components p) = some (content p)
  fresh : ∀ p ∈ todo, first.node (target cr root p (content p)).partPath = none →
    fs.node (target cr root p (content p)).partPath = none
  others : ∀ q, (∀ p ∈ done ++ todo, q ≠ root ++ components p ∧ q ≠ (target cr root p (content p)).partPath) →
    fs.fileAt q = first.fileAt q

section
variable {cr : Crypto} {root : Path} {content : List UInt8 → Bytes} {first : Fs} {done todo : List (List UInt8)}

theorem mirrored_start (hroot : first.Plain root) : Mirrored cr root content first [] todo first :=
  ⟨hroot, fun _ hp => absurd hp List.not_mem_nil, fun _ _ h => h, fun _ _ => rfl⟩

/-- The root is made if it is missing. -/
theorem Mirrored.makeRoot {fs fs' : Fs} {q : Path} (h : Mirrored cr root content first done todo fs)
    (hq : q <+: root) (hm : MadeDir q fs fs') : Mirrored cr root content first done todo fs' := by
  refine ⟨hm.grows.plain h.plain, fun p hp hn => ?_, fun p hp hn => ?_, fun k hk => ?_⟩
  · rw [hm.fileAt_eq]
    exact h.stored p hp hn
  · have hne : (target cr root p (content p)).partPath ≠ q := by
      rintro rfl
      have hlen := hq.length_le
      simp [Upload.partPath, Upload.stateRoot] at hlen
    rw [hm.2.1, Function.update_of_ne hne]
    exact h.fresh p hp hn
  · rw [hm.fileAt_eq]
    exact h.others k hk

/-- The next file arrives. -/
theorem Mirrored.upload {path : List UInt8} {w v : World} {requestId : UInt64} {limits : TransferLimits}
    (h : Mirrored cr root content first done (path :: todo) w.host.fs)
    (hsafe : ∀ p ∈ done ++ path :: todo, isSafeRemotePath p = true) (hnew : path ∉ done)
    (hu : (Upload.ofSource cr root path requestId limits (content path)).Uploading (content path) w v)
    (hren : (Upload.ofSource cr root path requestId limits (content path)).Renamed w.log v.log) :
    Mirrored cr root content first (done ++ [path]) todo v.host.fs := by
  have hpath : isSafeRemotePath path = true := hsafe path (by simp)
  have hstate : ∀ p, isSafeRemotePath p = true → ∀ n, root ++ components p ≠ root ++ [kPartialDirectory] ++ [n] :=
    fun p hp n he => Upload.not_state_prefix (u := target cr root p (content p)) hp ⟨[n], he.symm⟩
  refine ⟨hu.plain, fun p hp hn => ?_, fun p hp hn => ?_, fun q hq => ?_⟩
  · rcases List.mem_append.mp hp with hp | hp
    · have hne : p ≠ path := fun he => hnew (he ▸ hp)
      rw [hu.files _ (hstate p (hsafe p (List.mem_append_left _ hp)) _) fun he =>
        hne (components_injective (List.append_cancel_left he))]
      exact h.stored p hp hn
    · obtain rfl := List.mem_singleton.mp hp
      exact hu.stored hren (.inl (h.fresh p List.mem_cons_self hn))
  · by_cases hsame : (target cr root p (content p)).partPath = (target cr root path (content path)).partPath
    · rw [hsame]
      exact hu.gone hren
    · refine (hu.nodes _ hsame (hstate path hpath _).symm fun hway => ?_).trans
        (h.fresh p (List.mem_cons_of_mem _ hp) hn)
      exact Upload.onTheWay_ne_state hpath hway _ rfl
  · rw [List.append_assoc] at hq
    obtain ⟨hfinal, hpart⟩ := hq path (by simp)
    exact (hu.files q hpart hfinal).trans (h.others q hq)

end

namespace Errand

variable {c : Errand} {f : Frame}

theorem Speaks.manifest_eq (h : c.Speaks f) (ht : f.header.messageType = .syncManifest) : f = c.manifest := by
  rcases h with h | h | ⟨k, p, -, -, hf | ⟨h | h, -⟩⟩
  · exact h
  · cases ht.symm.trans h
  · rw [hf] at ht
    cases ht
  · cases ht.symm.trans h
  · cases ht.symm.trans h

/-- A request is one of a planned file. -/
theorem Speaks.request_eq (h : c.Speaks f) (ht : f.header.messageType = .uploadRequest) :
    ∃ k p, c.plan.uploadPaths[k]? = some p ∧ (contentAt c.fs c.root p).length < 2 ^ 64 ∧
      f = (c.upload k p).request := by
  rcases h with h | h | ⟨k, p, hk, hS, hf | ⟨h | h, -⟩⟩
  · rw [h] at ht
    cases ht
  · cases ht.symm.trans h
  · exact ⟨k, p, hk, hS, hf⟩
  · cases ht.symm.trans h
  · cases ht.symm.trans h

/-- A chunk belongs to the file whose upload has its request id. -/
theorem Speaks.carries (h : c.Speaks f)
    (hids : c.plan.uploadPaths.length ≤ (0xFFFFFFFFFFFFFFFF - c.requestId).toNat) {k : Nat} {p : List UInt8}
    (hk : c.plan.uploadPaths[k]? = some p) (hid : f.header.requestId = fileRequestId c.requestId k) :
    Carries (contentAt c.fs c.root p) f := by
  rcases h with rfl | h | ⟨k', p', hk', -, hf⟩
  · rintro ⟨⟩
  · intro ht
    cases h.symm.trans ht
  · have hlt := (List.getElem?_eq_some_iff.mp hk).1
    have hlt' := (List.getElem?_eq_some_iff.mp hk').1
    have hsame := congrArg UInt64.toNat (hf.requestId.symm.trans hid)
    rw [show ((c.upload k' p').requestId).toNat = _ from toNat_fileRequestId hids hlt',
      toNat_fileRequestId hids hlt] at hsame
    obtain rfl : k' = k := by omega
    obtain rfl : p' = p := Option.some.inj (hk'.symm.trans hk)
    exact hf.carries

/-- All that has arrived is what this client sends. -/
def Heard (c : Errand) (log : List net.Event) : Prop := ∀ m ∈ received log, c.Speaks m.1

theorem Heard.push {log : List net.Event} (h : c.Heard log) {e : net.Event}
    (he : ∀ m ∈ received [e], c.Speaks m.1) :
    c.Heard (log ++ [e]) := by
  intro m hm
  rw [received_append, List.mem_append] at hm
  exact hm.elim (h m) (he m)

end Errand

section
variable {cr : Crypto} {c : Errand} {root : Path} {limits : DirectorySyncLimits} {first : Fs}

/-- The loop over the plan. -/
theorem receiveFiles_mirrors (hids : c.plan.uploadPaths.length ≤ (0xFFFFFFFFFFFFFFFF - c.requestId).toNat)
    {plan : List (List UInt8)} (hsafe : ∀ p ∈ plan, isSafeRemotePath p = true) (hnodup : plan.Nodup)
    (paths : List (List UInt8)) : ∀ (index : Nat) (result : DirectorySyncResult) (w : World),
      plan.drop index = paths →
      Mirrored cr root (contentAt c.fs c.root) first (plan.take index) paths w.host.fs →
      c.Heard w.log →
      Safe (solo (exec cr) (assuming anyAnswer fun m => c.Speaks m.1)) (fun _ _ => True)
        (receiveFiles root c.requestId limits index paths result) w fun x w' =>
          match x with
          | .error r => r.ok = false
          | .ok _ => Mirrored cr root (contentAt c.fs c.root) first plan [] w'.host.fs ∧ c.Heard w'.log := by
  induction paths with
  | nil =>
    intro index result w hdrop hm hgot
    rw [List.take_of_length_le (List.drop_eq_nil_iff.mp hdrop)] at hm
    exact safe_pure ⟨hm, hgot⟩
  | cons path paths ih =>
    intro index result w hdrop hm hgot
    have hplan : plan.take index ++ path :: paths = plan := by rw [← hdrop, List.take_append_drop]
    have hnext : plan.take index ++ [path] = plan.take (index + 1) := by
      have hlt : index < plan.length := by
        by_contra hge
        rw [List.drop_eq_nil_of_le (Nat.not_lt.mp hge)] at hdrop
        cases hdrop
      rw [List.drop_eq_getElem_cons hlt] at hdrop
      rw [List.take_succ_eq_append_getElem hlt, (List.cons.inj hdrop).1]
    refine safe_receiveFrame fun r hr => ⟨trivial, ?_, ?_⟩
    · rintro error rfl
      exact safe_pure rfl
    · rintro request rfl
      have hgot1 : c.Heard (w.push ⟨.recv, .ok request⟩).log := hgot.push fun m hm =>
        List.mem_singleton.mp hm ▸ hr.2
      simp only
      split
      · next he =>
        unfold expectedUpload at he
        split at he
        · cases he
        · next metadata hd =>
          simp only [Bool.and_eq_true, decide_eq_true_eq] at he
          obtain ⟨⟨⟨htype, -⟩, -⟩, rfl⟩ := he
          obtain ⟨k, p, hk, hS, hreq⟩ := Errand.Speaks.request_eq hr.2 htype
          have hpath : isSafeRemotePath metadata.filename = true := safe_of_decodeUploadMetadata hd
          obtain rfl : p = metadata.filename := by
            rw [hreq] at hd
            have hsame := encodeUploadMetadata_inj hpath (encodeUploadMetadata_decode hd)
            rw [hsame]
            rfl
          refine safe_bind (safe_mono (safe_self _ _ _) fun transfer w' hrun => ?_)
          rw [hreq] at hrun
          obtain ⟨hu, hgot', hren⟩ := Upload.uploading_of_reach
            (w := w.push ⟨.recv, .ok request⟩) hpath hS hm.plain
            (fun m hm hid => Errand.Speaks.carries hm hids hk hid) hgot1 hrun
          split
          · next hok =>
            have hm' := Mirrored.upload (w := w.push ⟨.recv, .ok request⟩) hm (by rwa [hplan])
              (fun hmem => by
                rw [← hplan] at hnodup
                exact (List.nodup_append.mp hnodup).2.2 _ hmem _ List.mem_cons_self rfl) hu (hren hok)
            rw [hnext] at hm'
            exact ih (index + 1) _ w' (by rw [← List.tail_drop, hdrop]; rfl) hm' hgot'
          · exact safe_pure rfl
      · refine safe_bind (safe_mono (safe_trivial _ _) fun res w' _ => ?_)
        split <;> exact safe_pure rfl

/-- The final scan leaves the tree alone, and has seen all of it. -/
theorem verify_scans {rely : net.Rely} {w : World} (hp : w.host.fs.Plain root) (requestId : UInt64)
    (source : FileManifest) (result : DirectorySyncResult) :
    Safe (solo (exec cr) rely) (fun _ _ => True) (verify root requestId limits source result) w fun r w' =>
      r.ok = true → w'.host.fs = w.host.fs ∧ Scannable limits.scan w.host.fs root := by
  refine safe_bind (scanDirectory_safe admits_anything trivial hp fun scan w' hfs _ hscan => ?_)
  cases scan with
  | error failure => exact safe_pure (by rintro ⟨⟩)
  | ok destination =>
    obtain ⟨-, hscannable⟩ := hscan destination rfl
    refine safe_sendFrame (fun res hres => ?_) fun hv r => ⟨trivial, fun res => ?_⟩
    · rw [if_neg (ne_true_of_eq_false hres)]
      exact safe_pure (by rintro ⟨⟩)
    · split
      · split <;> exact safe_pure fun _ => ⟨hfs, hscannable⟩
      · exact safe_pure (by rintro ⟨⟩)

/-- What the server of a successful sync has done. -/
structure Arrived (cr : Crypto) (c : Errand) (root : Path) (limits : DirectorySyncLimits) (first : Fs)
    (plan : SyncPlan) (fs : Fs) : Prop where
  mirrored : Mirrored cr root (contentAt c.fs c.root) first plan.uploadPaths [] fs
  scannable : Scannable limits.scan fs root
  ids : plan.uploadPaths.length ≤ (0xFFFFFFFFFFFFFFFF - c.requestId).toNat

theorem executePlan_arrives (hids : c.plan.uploadPaths.length ≤ (0xFFFFFFFFFFFFFFFF - c.requestId).toNat)
    {source : FileManifest} {plan : SyncPlan} {w : World}
    (hsafe : ∀ p ∈ plan.uploadPaths, isSafeRemotePath p = true) (hnodup : plan.uploadPaths.Nodup)
    (hm : Mirrored cr root (contentAt c.fs c.root) first [] plan.uploadPaths w.host.fs)
    (hgot : c.Heard w.log) :
    Safe (solo (exec cr) (assuming anyAnswer fun m => c.Speaks m.1)) (fun _ _ => True)
      (executePlan root c.requestId limits source plan) w fun r w' =>
        r.ok = true → Arrived cr c root limits first plan w'.host.fs := by
  unfold executePlan
  split
  · exact safe_pure (by rintro ⟨⟩)
  · next hlen =>
    simp only
    split
    · exact safe_pure (by rintro ⟨⟩)
    · refine safe_sendFrame (fun res hres => ?_) fun hv sent => ⟨trivial, fun res => ?_⟩
      · rw [if_neg (ne_true_of_eq_false hres)]
        exact safe_pure (by rintro ⟨⟩)
      split
      · have hgot1 : c.Heard (w.push ⟨.send ⟨_, hv⟩, sent⟩).log := hgot.push fun m hm => by cases hm
        refine safe_bind (safe_mono (receiveFiles_mirrors hids hsafe hnodup _ 0 _ (w.push ⟨.send ⟨_, hv⟩, sent⟩)
          (List.drop_zero ..) hm hgot1) fun x w1 hx => ?_)
        cases x with
        | error r =>
          refine safe_pure fun h => ?_
          rw [show r.ok = false from hx] at h
          cases h
        | ok result =>
          obtain ⟨hm1, -⟩ := hx
          refine safe_receiveControlFrame (fun _ => trivial) (fun r w' h _ => safe_pure fun h' => ?_)
            fun f _ _ => ?_
          · rw [h] at h'
            cases h'
          · simp only
            split
            · exact safe_pure (by rintro ⟨⟩)
            · refine safe_mono (verify_scans (w := w1.push _) hm1.plain _ _ _) fun r w' h hok => ?_
              obtain ⟨hfs, hscan⟩ := h hok
              rw [hfs]
              exact ⟨hm1, hscan, Nat.not_lt.mp hlen⟩
      · exact safe_pure (by rintro ⟨⟩)

/-- From the decoded manifest on. -/
theorem receiveManifest_arrives (hids : c.plan.uploadPaths.length ≤ (0xFFFFFFFFFFFFFFFF - c.requestId).toNat)
    {source : FileManifest} (hs : SortedRecords source) (hsafe : ∀ r ∈ source, isSafeRemotePath r.path = true)
    {w : World} (hp : w.host.fs.Plain root) (hgot : c.Heard w.log) :
    Safe (solo (exec cr) (assuming anyAnswer fun m => c.Speaks m.1)) (fun _ _ => True)
      (receiveManifest root c.requestId limits source) w fun r w' => r.ok = true →
        Arrived cr c root limits w.host.fs (buildSyncPlan source (listing w.host.fs root)) w'.host.fs ∧
        ∃ fs : Fs, fs.node root = some .dir ∧ ∀ k, fs.fileAt k = w.host.fs.fileAt k := by
  have hmay : MayMake root (· <+: root)
      (fun v => Mirrored cr root (contentAt c.fs c.root) w.host.fs []
        (buildSyncPlan source (listing w.host.fs root)).uploadPaths v.host.fs ∧ c.Heard v.log)
      fun _ _ => True := by
    refine ⟨fun call r hI _ hfs => ⟨trivial, ?_, hI.2.push fun m hm => by cases hm⟩,
      fun call r hI _ hA hat hm => ⟨trivial, ?_, hI.2.push fun m hm => by cases hm⟩⟩
    · rw [hfs]
      exact hI.1
    · obtain rfl := hat.eq_of_plain hI.1.plain
      exact hI.1.makeRoot hA hm
  refine safe_bind (createDirectories_safe hmay (fun _ h => h) root [] rfl
    ⟨[], target_of_resolve (resolve_of_node (node_nil _)) (node_nil _)⟩ ⟨mirrored_start hp, hgot⟩
    fun r v ⟨hm, hgot1⟩ ha _ => ?_)
  cases r with
  | error errno => exact safe_pure (by rintro ⟨⟩)
  | ok _ =>
    have hA : Admits c.Heard fun _ _ => True := ⟨fun _ h => h.push (fun m hm => by cases hm), fun _ _ _ => trivial⟩
    refine safe_bind (scanDirectory_safe hA hgot1 hm.plain fun scan v' hfs hgot2 hscan => ?_)
    cases scan with
    | error failure => exact safe_pure (by rintro ⟨⟩)
    | ok destination =>
      obtain ⟨hfiles, hscannable⟩ := hscan destination rfl
      have hsame : listing v.host.fs root = listing w.host.fs root := listing_congr hscannable.isDir ha.fileAt_eq
      have hd : SortedRecords (listing w.host.fs root) := hsame ▸ listing_sorted hscannable.isDir
      simp only [hfiles, hsame]
      refine safe_mono (executePlan_arrives hids (fun p hpath => ?_) ?_ (by rw [hfs]; exact hm) hgot2)
        fun r w' h hok => ⟨h hok, v.host.fs, hscannable.isDir, ha.fileAt_eq⟩
      · obtain ⟨f, hf, -, rfl⟩ := (mem_uploadPaths hs hd).mp hpath
        exact hsafe f hf
      · refine List.Pairwise.imp ?_ (uploadPaths_sorted hs hd)
        rintro a _ hlt rfl
        exact path_irrefl _ hlt

/-- A manifest is decoded as the files it was made from. -/
theorem files_of_decode {files source : FileManifest} {n : Nat} (hne : encodeManifest files ≠ [])
    (hd : decodeManifest (.of (encodeManifest files)) n = .ok source) : source = files := by
  have henc := encodeManifest_decode hd
  have h1 := @decodeManifest_encode files (max source.length files.length) hne (Nat.le_max_right _ _)
  rw [← henc] at h1 hne
  rw [decodeManifest_encode hne (Nat.le_max_left _ _)] at h1
  exact Except.ok.inj h1

/-- What the server has agreed to and done. -/
structure Synced (cr : Crypto) (c : Errand) (root : Path) (limits : DirectorySyncLimits)
    (first fs : Fs) : Prop where
  decoded : decodeManifest (.of c.manifest.payload) limits.scan.maxEntries = .ok c.files
  sizes : (c.files.any fun file => decide (file.size > limits.scan.maxFileSize)) = false
  arrived : Arrived cr c root limits first (buildSyncPlan c.files (listing first root)) fs
  base : ∃ fs : Fs, fs.node root = some .dir ∧ ∀ k, fs.fileAt k = first.fileAt k

theorem Synced.sorted {fs : Fs} (h : Synced cr c root limits first fs) : SortedRecords (listing first root) := by
  obtain ⟨base, hdir, hsame⟩ := h.base
  rw [← listing_congr hdir hsame]
  exact listing_sorted hdir

theorem receiveDirectorySync_syncs (hids : c.plan.uploadPaths.length ≤ (0xFFFFFFFFFFFFFFFF - c.requestId).toNat)
    (hne : encodeManifest c.files ≠ []) {f : WireFrame} (hf : c.Speaks f.1) {w : World} (hp : w.host.fs.Plain root)
    (hgot : c.Heard w.log) :
    Safe (solo (exec cr) (assuming anyAnswer fun m => c.Speaks m.1)) (fun _ _ => True)
      (receiveDirectorySync f.1 root limits) w fun r w' =>
        r.ok = true → f.1 = c.manifest ∧ Synced cr c root limits w.host.fs w'.host.fs := by
  unfold receiveDirectorySync
  simp only
  split
  · exact safe_pure (by rintro ⟨⟩)
  · next hreq =>
    have hmanifest := hf.manifest_eq (not_not.mp (not_or.mp hreq).1)
    rw [hmanifest]
    split
    · exact safe_pure (by rintro ⟨⟩)
    · next source hd =>
      obtain rfl : source = c.files := files_of_decode hne hd
      obtain ⟨-, hsafe, hs⟩ := decodeManifest_sorted hd
      split
      · exact safe_pure (by rintro ⟨⟩)
      · next hsizes =>
        refine safe_mono (receiveManifest_arrives hids hs hsafe hp hgot) fun r w' h hok => ⟨rfl, ?_⟩
        exact ⟨hd, Bool.not_eq_true _ ▸ hsizes, (h hok).1, (h hok).2⟩

theorem serveSync_ran {rely : net.Rely} {v : World} :
    Safe (solo (exec cr) rely) (fun _ _ => True) (serveSync root limits) v fun x v' => ∀ r, x = .ok r →
      ∃ f : WireFrame, rely v.log .recv (.ok f) ∧ Reach (solo (exec cr) rely)
        (receiveDirectorySync f.1 root limits, v.push ⟨.recv, .ok f⟩) (.pure r, v') := by
  refine safe_receiveFrame fun x hx => ⟨trivial, ?_, ?_⟩
  · rintro error rfl
    exact safe_pure fun r h => by cases h
  · rintro f rfl
    refine safe_bind (safe_mono (safe_self _ _ _) fun r v' hr => safe_pure fun r' h => ?_)
    cases h
    exact ⟨f, hx, hr⟩

/-- The only plan that is sent is the one that is executed. -/
theorem sent_plan {manifest : Frame} {source : FileManifest} {v v' : World} (hp : v.host.fs.Plain root)
    (hd : decodeManifest (.of manifest.payload) limits.scan.maxEntries = .ok source) (hv : sent v.log = [])
    {r : DirectorySyncResult}
    (hr : Reach (solo (exec cr) anyAnswer) (receiveDirectorySync manifest root limits, v) (.pure r, v')) :
    ∀ m ∈ sent v'.log, m.1.header.messageType = .syncPlan →
      m.1.payload = encodeSyncPlan (buildSyncPlan source (listing v.host.fs root)) := by
  refine (receiveDirectorySync_safely hp hd).reach
    (fun v' => ∀ m ∈ sent v'.log, m.1.header.messageType = .syncPlan →
      m.1.payload = encodeSyncPlan (buildSyncPlan source (listing v.host.fs root))) ?_ ?_ hr
  · intro m hm
    rw [hv] at hm
    cases hm
  · rintro a b ha ⟨e, hl, -, hreply⟩ m hm ht
    rw [hl, sent_append, List.mem_append] at hm
    rcases hm with hm | hm
    · exact ha m hm ht
    · obtain ⟨x, rfl⟩ := eq_of_mem_sent hm
      cases hreply m x rfl with
      | plan _ hp => exact hp
      | upload ht' => rcases ht' with h | h | h <;> cases ht.symm.trans h
      | result code _ ht' => cases ht.symm.trans ht'

end

/-! ## The two sides -/

section
variable {cr : Crypto} {root root' : Path} {requestId : UInt64} {limits limits' : DirectorySyncLimits}
  {w v w' v' : World} {r r' : DirectorySyncResult}

/-- What a client and a server that both succeeded have done. -/
structure Agreed (cr : Crypto) (c : Errand) (root' : Path) (limits' : DirectorySyncLimits) (first : Fs)
    (r r' : DirectorySyncResult) (w' v' : World) : Prop where
  followed : c.Followed [] r w'
  synced : Synced cr c root' limits' first v'.host.fs
  plan : c.plan = buildSyncPlan c.files (listing first root')
  result : r' = r
  applied : Applied first v'.host.fs root' c.files c.plan
  present : ∀ f ∈ c.files, Present v'.host.fs root' f

theorem agreed_of_jreach (hp : w.host.fs.Plain root) (hp' : v.host.fs.Plain root') (hw : w.log = [])
    (hv : v.log = []) (hrun : JReach (exec cr) anyAnswer anyAnswer
      ((syncDirectory root requestId limits, w), (serveSync root' limits', v))
      ((.pure r, w'), (.pure (.ok r'), v'))) (hok : r.ok = true) (hok' : r'.ok = true) :
    ∃ plan, Agreed cr ⟨w.host.fs, root, requestId, limits, plan⟩ root' limits' v.host.fs r r' w' v' := by
  obtain ⟨plan, hfollowed⟩ := (syncDirectory_follows hp).result hrun.left hok
  rw [hw] at hfollowed
  refine ⟨plan, ?_⟩
  generalize hc : (⟨w.host.fs, root, requestId, limits, plan⟩ : Errand) = c at hfollowed ⊢
  have hlink := jreach_link hrun (by rw [hw]; exact List.nil_prefix) (by rw [hv]; exact List.nil_prefix)
  have hspeaks : ∀ m ∈ received v'.log, c.Speaks m.1 := by
    obtain ⟨us, hsent, hus⟩ := hfollowed.said
    exact fun m hm => hus m (hsent ▸ hlink.2.subset hm :)
  -- the server's run against this client
  obtain ⟨f, hf, hsync⟩ := serveSync_ran.result (reach_assuming hrun.right hspeaks) r' rfl
  have hgot : c.Heard (v.push ⟨.recv, .ok f⟩).log := by
    rw [NetSig.Local.push_log, hv]
    intro m hm
    exact List.mem_singleton.mp hm ▸ hf.2
  obtain ⟨hmanifest, hsynced⟩ := (receiveDirectorySync_syncs (w := v.push ⟨.recv, .ok f⟩) hfollowed.ids
    hfollowed.encoded hf.2 hp' hgot).result hsync hok'
  have hdecoded : decodeManifest (.of f.1.payload) limits'.scan.maxEntries = .ok c.files :=
    hmanifest ▸ hsynced.decoded
  have hany := reach_mono (fun _ _ _ _ => trivial) hsync
  have hdone := (receiveDirectorySync_safely (w := v.push ⟨.recv, .ok f⟩) hp' hdecoded).result hany hok'
  -- the plan the client was told
  have hplan : c.plan = buildSyncPlan c.files (listing v.host.fs root') := by
    obtain ⟨m, hm, ht, hdecode⟩ := hfollowed.told.mem
    have hpayload := sent_plan (v := v.push ⟨.recv, .ok f⟩) hp' hdecoded
      (by rw [NetSig.Local.push_log, hv]; rfl) hany
      m (hlink.1.subset hm) ht
    have hcount : c.files.length ≤ c.limits.scan.maxEntries := by
      rw [Errand.files, length_listing]
      exact hfollowed.scannable.count
    rw [hpayload] at hdecode
    exact Except.ok.inj (hdecode.symm.trans
      ((plan_transported hfollowed.encoded hfollowed.fits hsynced.sorted).2.1 _ hcount))
  have hresult : r' = r := by
    rw [hdone.result, hfollowed.result, hplan]
    rfl
  refine ⟨hfollowed, hsynced, hplan, hresult, ?_, hdone.present⟩
  rw [hplan]
  exact applied_of_reach (w := v.push ⟨.recv, .ok f⟩) hp' hdecoded hany hsynced.arrived.scannable.isDir
    fun rec hrec _ => hdone.present rec hrec

section
variable {c : Errand} {first : Fs} (h : Agreed cr c root' limits' first r r' w' v')
include h

theorem Agreed.safe : ∀ f ∈ c.files, isSafeRemotePath f.path = true := (decodeManifest_sorted h.synced.decoded).2.1

/-- Afterwards there is nothing to do. -/
theorem Agreed.settled : Settled c.limits limits' c.fs v'.host.fs c.root root' where
  source := h.followed.scannable
  encoded := h.followed.encoded
  fits := h.followed.fits
  count := (decodeManifest_sorted h.synced.decoded).1
  sizes := h.synced.sizes
  destination := h.synced.arrived.scannable
  present f hf := mem_listing_of_present (h.safe f hf) (h.present f hf)

/-- What only the destination has stays the same. -/
theorem Agreed.serverOnly :
    (buildSyncPlan c.files (listing v'.host.fs root')).serverOnlyCount = c.plan.serverOnlyCount := by
  obtain ⟨base, hdir, hsame⟩ := h.synced.base
  have hlist := listing_congr hdir hsame
  have hs := (decodeManifest_sorted h.synced.decoded).2.2
  have happlied : Applied base v'.host.fs root' c.files (buildSyncPlan c.files (listing base root')) := by
    rw [hlist, ← h.plan]
    exact ⟨h.applied.isDir, h.applied.uploaded, fun rel hrel hnot =>
      (h.applied.kept rel hrel hnot).trans (hsame _).symm⟩
  have hperm := happlied.serverOnly_perm hs hdir h.safe
  rw [hlist] at hperm
  rw [h.plan, buildSyncPlan_eq hs (listing_sorted h.applied.isDir), buildSyncPlan_eq hs h.synced.sorted]
  simp only [planOf, hperm.length_eq]

/-- The same sync again. -/
theorem Agreed.again (hid : c.requestId ≠ 0) {w₂ v₂ : World} (hw₂ : w₂.host.fs = w'.host.fs)
    (hv₂ : v₂.host.fs = v'.host.fs) (hlw : w₂.log = []) (hlv : v₂.log = []) :
    Together cr (syncDirectory c.root c.requestId c.limits, w₂) (serveSync root' limits', v₂) fun a _ x _ =>
      x = .ok a ∧ a.ok = true ∧ a.plannedUploads = 0 ∧ a.unchangedFiles = c.files.length ∧
        a.serverOnlyFiles = r.serverOnlyFiles := by
  have hsettled : Settled c.limits limits' w₂.host.fs v₂.host.fs c.root root' := by
    rw [hw₂, hv₂, h.followed.fs]
    exact h.settled
  have hlinked : Linked w₂ v₂ := by
    rw [Linked, hlw, hlv]
    exact ⟨rfl, rfl⟩
  have hd := listing_sorted h.applied.isDir
  have hempty : (buildSyncPlan c.files (listing v'.host.fs root')).uploadPaths = [] :=
    (buildSyncPlan_nil_iff (listing_sorted h.followed.scannable.isDir) hd).mpr h.settled.present
  have hsum := (plan_transported h.followed.encoded h.followed.fits hd).2.2.1
  rw [hempty, List.length_nil, Nat.zero_add] at hsum
  refine (sync_nothing hsettled hid hlinked).mono ?_
  rintro e ⟨a, x, ha, hx, rfl, rfl, -, -⟩
  rw [hw₂, hv₂, h.followed.fs] at ha hx
  refine ⟨_, _, ha, hx, rfl, rfl, congrArg List.length hempty, hsum, ?_⟩
  rw [h.followed.result]
  exact congrArg UInt32.toNat h.serverOnly

end

end

/-- **An honest sync.**  When both sides return `Success`, all planned files were uploaded, under ids that do not
wrap; every file of the source is in the destination with its size and checksum, and with its bytes if it was
planned and nothing had been saved for it; all other files are as they were.  The same sync again, where nothing
fails, finds nothing to upload and succeeds.  Both roots are spelled without symbolic links above them
(`Plain`). -/
theorem sync_mirrors (cr : Crypto) {root root' : Path} {requestId : UInt64} {limits limits' : DirectorySyncLimits}
    {w v w' v' : World} {r r' : DirectorySyncResult} (hid : requestId ≠ 0) (hp : w.host.fs.Plain root)
    (hp' : v.host.fs.Plain root') (hw : w.log = []) (hv : v.log = [])
    (hrun : JReach (exec cr) anyAnswer anyAnswer
      ((syncDirectory root requestId limits, w), (serveSync root' limits', v))
      ((.pure r, w'), (.pure (.ok r'), v'))) (hok : r.ok = true) (hok' : r'.ok = true) :
    let files := listing w.host.fs root
    let planned := (buildSyncPlan files (listing v.host.fs root')).uploadPaths
    let partPath := fun path => (target cr root' path (contentAt w.host.fs root path)).partPath
    (r.plannedUploads = planned.length ∧ r.completedUploads = r.plannedUploads ∧
      r'.completedUploads = r'.plannedUploads ∧ r' = r) ∧
    (∀ f ∈ files, Present v'.host.fs root' f) ∧
    (∀ f ∈ files, f.path ∈ planned → v.host.fs.node (partPath f.path) = none →
      v'.host.fs.fileAt (root' ++ components f.path) = w.host.fs.fileAt (root ++ components f.path)) ∧
    (∀ q, (∀ path ∈ planned, q ≠ root' ++ components path ∧ q ≠ partPath path) →
      v'.host.fs.fileAt q = v.host.fs.fileAt q) ∧
    (requestId.toNat + planned.length < 2 ^ 64 ∧
      ∀ k < planned.length, (fileRequestId requestId k).toNat = requestId.toNat + (k + 1)) ∧
    ∀ w₂ v₂ : World, w₂.host.fs = w'.host.fs → v₂.host.fs = v'.host.fs → w₂.log = [] → v₂.log = [] →
      Together cr (syncDirectory root requestId limits, w₂) (serveSync root' limits', v₂) fun a _ x _ =>
        x = .ok a ∧ a.ok = true ∧ a.plannedUploads = 0 ∧ a.unchangedFiles = files.length ∧
          a.serverOnlyFiles = r.serverOnlyFiles := by
  intro files planned partPath
  obtain ⟨plan, h⟩ := agreed_of_jreach hp hp' hw hv hrun hok hok'
  obtain rfl : plan = buildSyncPlan files (listing v.host.fs root') := h.plan
  have hm := h.synced.arrived.mirrored
  have hids := h.followed.ids
  have hresult := h.followed.result
  refine ⟨⟨?_, ?_, ?_, h.result⟩, h.present, fun f hf hplanned hnone => ?_, fun q hq => ?_, ⟨?_, fun k hk => ?_⟩,
    fun w₂ v₂ hw₂ hv₂ hlw hlv => ?_⟩
  · rw [hresult]
    rfl
  · rw [hresult]
    rfl
  · rw [h.result, hresult]
    rfl
  · rw [hm.stored f.path hplanned hnone]
    exact (fileAt_of_listing h.followed.scannable.isDir hf).symm
  · refine hm.others q fun path hpath => hq path ?_
    rwa [List.append_nil] at hpath
  · exact ids_below hids
  · rw [toNat_fileRequestId hids hk, Nat.add_assoc]
  · exact h.again hid hw₂ hv₂ hlw hlv

/-! One file of `o` goes to `d`, which has another one. -/

def sampleOrigin : World :=
  ⟨{ sampleHost with
    fs := ((Fs.empty.insert [bytesOf "o"] .dir (by decide) dir_not_file).create [bytesOf "o", bytesOf "a"] 1000
      (by decide)).setData 0 (bytesOf "abc") }, []⟩

/-- The two sides after `n` steps. -/
def sampleMirror (n : Nat) :
    Side net Host DirectorySyncResult × Side net Host (Except FrameIoResult DirectorySyncResult) :=
  schedule (exec sampleCrypto) (.io (.peerClosed 0)) (answer sampleCrypto) (answer sampleCrypto) n
    ((syncDirectory [bytesOf "o"] 6 {}, sampleOrigin), (serveSync sampleRoot {}, sampleServer))

theorem sync_mirrors_sample :
    let v' := (sampleMirror 96).2.2
    v'.host.fs.fileAt (sampleRoot ++ [bytesOf "a"]) = some (bytesOf "abc") ∧
    v'.host.fs.fileAt (sampleRoot ++ [bytesOf "k"]) = some (bytesOf "k") ∧
    Together sampleCrypto (syncDirectory [bytesOf "o"] 6 {}, ⟨(sampleMirror 96).1.2.host, []⟩)
      (serveSync sampleRoot {}, ⟨v'.host, []⟩) fun a _ _ _ =>
        a.ok = true ∧ a.plannedUploads = 0 ∧ a.unchangedFiles = 1 ∧ a.serverOnlyFiles = 1 := by
  have hreach : SReach (exec sampleCrypto) closed
      ((syncDirectory [bytesOf "o"] 6 {}, sampleOrigin), (serveSync sampleRoot {}, sampleServer))
      (sampleMirror 96) :=
    sreach_schedule ⟨_, rfl⟩ _ _ (List.prefix_refl _) (List.prefix_refl _) 96
  have hx : (sampleMirror 96).1.1.result? = some
    { plannedUploads := 1, completedUploads := 1, serverOnlyFiles := 1 } := by
    decide +kernel
  have hy : (sampleMirror 96).2.1.result? =
      some (.ok { plannedUploads := 1, completedUploads := 1, serverOnlyFiles := 1 }) := by decide +kernel
  have hjoint : JReach (exec sampleCrypto) anyAnswer anyAnswer _ _ := hreach.jreach fun _ _ _ => trivial
  have hrun := hjoint.results hx hy
  obtain ⟨-, -, hbytes, hothers, -, hagain⟩ := sync_mirrors sampleCrypto (by decide)
    (plain_of_dir (p := [bytesOf "o"]) (node_nil _)) sampleServer_plain rfl rfl hrun rfl rfl
  have hfiles : listing sampleOrigin.host.fs [bytesOf "o"] = [⟨bytesOf "a", 3, 891568578⟩] := by decide +kernel
  have hplan : (buildSyncPlan (listing sampleOrigin.host.fs [bytesOf "o"])
      (listing sampleServer.host.fs sampleRoot)).uploadPaths = [bytesOf "a"] := by decide +kernel
  rw [hplan] at hbytes hothers
  rw [hfiles] at hbytes hagain
  refine ⟨?_, ?_, ?_⟩
  · refine (hbytes ⟨bytesOf "a", 3, 891568578⟩ (List.mem_singleton_self _)
      (List.mem_singleton_self _) ?_).trans ?_ <;>
      decide +kernel
  · refine (hothers (sampleRoot ++ [bytesOf "k"]) ?_).trans (by decide +kernel)
    intro path hpath
    obtain rfl := List.mem_singleton.mp hpath
    exact ⟨by decide, by decide +kernel⟩
  · refine (hagain ⟨(sampleMirror 96).1.2.host, []⟩ ⟨(sampleMirror 96).2.2.host, []⟩ rfl rfl rfl rfl).mono ?_
    rintro e ⟨a, x, ha, hx, -, h1, h2, h3, h4⟩
    exact ⟨a, x, ha, hx, h1, h2, h3, h4⟩

end DirectorySync

end SyncWire
