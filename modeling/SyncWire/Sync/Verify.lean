import SyncWire.Lib.Session
import SyncWire.Receive.Calm
import SyncWire.Sync.Runs
import SyncWire.Sync.Walk

/-!
# When the final scan succeeds

After the planned uploads the tree lists the source and what only the destination had
(`listing_applied`).  A scan in which nothing fails succeeds exactly on a scannable tree,
so the final scan succeeds if and only if this union is within the limits of a scan
(`final_scan_iff`); no check before the uploads implies that.
-/

namespace SyncWire

open Wire Effect Posix Posix.Fs FileTransfer

/-! ## After the uploads -/

namespace DirectorySync

/-- The planned files are in the tree as the manifest declares them, and the other files are as they were. -/
structure Applied (fs fs' : Fs) (root : Path) (source : FileManifest) (plan : SyncPlan) : Prop where
  isDir : fs'.node root = some .dir
  uploaded : ∀ r ∈ source, r.path ∈ plan.uploadPaths → Present fs' root r
  kept : ∀ rel, kPartialDirectory ∉ rel → (∀ path ∈ plan.uploadPaths, rel ≠ components path) →
    fs'.fileAt (root ++ rel) = fs.fileAt (root ++ rel)

/-- The source, and what only the destination has. -/
def union (source destination : FileManifest) : FileManifest :=
  source ++ destination.filter fun r => decide (r.path ∉ source.map (·.path))

/-- The union is within the limits of a scan. -/
def Fits (limits : DirectoryScanLimits) (source destination : FileManifest) : Prop :=
  (union source destination).length ≤ limits.maxEntries ∧
    (union source destination ≠ [] → manifestSize (union source destination) ≤ limits.maxEncodedSize)

theorem mem_union {source destination : FileManifest} {r : FileRecord} :
    r ∈ union source destination ↔ r ∈ source ∨ r ∈ destination ∧ ∀ s ∈ source, s.path ≠ r.path := by
  simp [union]

theorem eq_of_path_eq {files : FileManifest} (hs : SortedRecords files) {a b : FileRecord} (ha : a ∈ files)
    (hb : b ∈ files) (h : a.path = b.path) : a = b :=
  Option.some.inj ((findFile_eq hs ha).symm.trans (h ▸ findFile_eq hs hb))

theorem nodup_of_sorted {files : FileManifest} (h : SortedRecords files) : files.Nodup := by
  refine List.Pairwise.imp ?_ h
  rintro a _ hlt rfl
  exact path_irrefl _ hlt

theorem nodup_union {source destination : FileManifest} (hs : SortedRecords source)
    (hd : SortedRecords destination) : (union source destination).Nodup := by
  refine (nodup_of_sorted hs).append ((nodup_of_sorted hd).filter _) fun r hr hr' => ?_
  simp only [List.mem_filter, List.mem_map, decide_eq_true_eq] at hr'
  exact hr'.2 ⟨r, hr, rfl⟩

section
variable {fs fs' : Fs} {root : Path} {source : FileManifest}

namespace Applied

variable (hs : SortedRecords source) (hroot : fs.node root = some .dir)
  (h : Applied fs fs' root source (buildSyncPlan source (listing fs root)))

include hs hroot h

/-- A file at a planned path is the declared one; any other is the old one. -/
theorem file_cases {k : Path} (hk : k ∈ treeFiles fs' root) :
    (∃ r ∈ source, r ∉ listing fs root ∧ k = root ++ components r.path) ∨
      (k ∈ treeFiles fs root ∧ fs'.fileAt k = fs.fileAt k ∧
        ∀ r ∈ source, r ∉ listing fs root → k ≠ root ++ components r.path) := by
  obtain ⟨rel, rfl, hrel, hi⟩ := mem_treeFiles.mp hk
  by_cases hplan : ∃ path ∈ (buildSyncPlan source (listing fs root)).uploadPaths, rel = components path
  · obtain ⟨path, hpath, rfl⟩ := hplan
    obtain ⟨r, hr, hnot, rfl⟩ := (mem_uploadPaths hs (listing_sorted hroot)).mp hpath
    exact .inl ⟨r, hr, hnot, rfl⟩
  · have hkept := h.kept rel hrel fun path hpath he => hplan ⟨path, hpath, he⟩
    refine .inr ⟨mem_treeFiles.mpr ⟨rel, rfl, hrel, ?_⟩, hkept, fun r hr hnot he => hplan ⟨r.path, ?_, ?_⟩⟩
    · rw [← fileAt_isSome] at hi ⊢
      rwa [← hkept]
    · exact (mem_uploadPaths hs (listing_sorted hroot)).mpr ⟨r, hr, hnot, rfl⟩
    · exact List.append_cancel_left he

variable (hsafe : ∀ r ∈ source, isSafeRemotePath r.path = true)
include hsafe

/-- **What is listed afterwards**: the source, and what only the destination had. -/
theorem mem_listing_applied {r : FileRecord} :
    r ∈ listing fs' root ↔ r ∈ union source (listing fs root) := by
  have hd := listing_sorted hroot
  have hold : ∀ {k}, k ∈ treeFiles fs root →
      (∀ s ∈ source, s ∉ listing fs root → s.path ≠ (recordOf fs root k).path) →
      recordOf fs root k ∈ listing fs' root := by
    intro k hk hnot
    obtain ⟨rel, rfl, hrel, hi⟩ := mem_treeFiles.mp hk
    have hcomp := components_recordOf hroot hk
    have hkept := h.kept rel hrel fun path hpath he => by
      obtain ⟨s, hs', hs'', rfl⟩ := (mem_uploadPaths hs hd).mp hpath
      refine hnot s hs' hs'' ?_
      rw [← genericString_components s.path, ← he, recordOf, List.drop_left]
    rw [← recordOf_congr hkept]
    refine mem_listing.mpr ⟨_, mem_treeFiles.mpr ⟨rel, rfl, hrel, ?_⟩, rfl⟩
    rw [← fileAt_isSome] at hi ⊢
    rwa [hkept]
  rw [mem_union]
  constructor
  · intro hr
    obtain ⟨k, hk, rfl⟩ := mem_listing.mp hr
    rcases h.file_cases hs hroot hk with ⟨s, hs', hnot, rfl⟩ | ⟨hk', hkept, hnot⟩
    · rw [recordOf_present (h.uploaded s hs' ((mem_uploadPaths hs hd).mpr ⟨s, hs', hnot, rfl⟩))]
      exact .inl hs'
    · rw [recordOf_congr hkept]
      have hmem : recordOf fs root k ∈ listing fs root := mem_listing.mpr ⟨k, hk', rfl⟩
      by_cases hsrc : ∃ s ∈ source, s.path = (recordOf fs root k).path
      · obtain ⟨s, hs', he⟩ := hsrc
        refine .inl ?_
        by_cases hs'' : s ∈ listing fs root
        · rwa [← eq_of_path_eq hd hs'' hmem he]
        · exact absurd (by rw [he, components_recordOf hroot hk']) (hnot s hs' hs'')
      · exact .inr ⟨hmem, fun s hs' he => hsrc ⟨s, hs', he⟩⟩
  · rintro (hr | ⟨hr, hnot⟩)
    · by_cases hd' : r ∈ listing fs root
      · obtain ⟨k, hk, rfl⟩ := mem_listing.mp hd'
        exact hold hk fun s hs' hs'' he => hs'' (eq_of_path_eq hs hs' hr he ▸ hd')
      · exact mem_listing_of_present (hsafe r hr)
          (h.uploaded r hr ((mem_uploadPaths hs hd).mpr ⟨r, hr, hd', rfl⟩))
    · obtain ⟨k, hk, rfl⟩ := mem_listing.mp hr
      exact hold hk fun s hs' _ => hnot s hs'

theorem listing_applied : (listing fs' root).Perm (union source (listing fs root)) := by
  refine (List.perm_ext_iff_of_nodup ?_ (nodup_union hs (listing_sorted hroot))).mpr fun r =>
    h.mem_listing_applied hs hroot hsafe
  exact nodup_of_sorted (listing_sorted h.isDir)

/-- What only the destination has is what it had. -/
theorem serverOnly_perm : ((listing fs' root).filter fun d => decide (d.path ∉ source.map (·.path))).Perm
    ((listing fs root).filter fun d => decide (d.path ∉ source.map (·.path))) := by
  refine ((h.listing_applied hs hroot hsafe).filter _).trans (List.Perm.of_eq ?_)
  have hnone : source.filter (fun d => decide (d.path ∉ source.map (·.path))) = [] := by
    rw [List.filter_eq_nil_iff]
    intro r hr
    simpa using ⟨r, hr, rfl⟩
  rw [union, List.filter_append, hnone, List.nil_append, List.filter_filter]
  simp only [Bool.and_self]

/-- **The union decides.**  All that a scan asks of the new tree and that the manifest and the first
scan have not shown is that the union fits. -/
theorem scannable_iff {limits : DirectoryScanLimits} (hold : Scannable limits fs root)
    (hsizes : ∀ r ∈ source, r.size ≤ limits.maxFileSize) :
    Scannable limits fs' root ↔ Fits limits source (listing fs root) := by
  have hd := listing_sorted hroot
  have hperm := h.listing_applied hs hroot hsafe
  have hfiles : ((treeFiles fs' root).map (recordOf fs' root)).Perm (union source (listing fs root)) :=
    (sortFiles_perm _).symm.trans hperm
  have hlen : (treeFiles fs' root).length = (union source (listing fs root)).length := by
    rw [← hfiles.length_eq, List.length_map]
  have hempty : treeFiles fs' root ≠ [] ↔ union source (listing fs root) ≠ [] := by
    rw [← List.length_pos_iff, ← List.length_pos_iff, hlen]
  rw [Fits, ← hlen, ← hempty, ← Scanning.manifestSize_perm hfiles]
  refine ⟨fun hnew => ⟨hnew.count, hnew.encoded⟩, fun ⟨hcount, henc⟩ => ⟨h.isDir, hcount, ?_, ?_, henc⟩⟩
  · intro k hk
    rcases h.file_cases hs hroot hk with ⟨r, hr, -, rfl⟩ | ⟨hk', -, -⟩
    · rw [List.drop_left, genericString_components]
      exact hsafe r hr
    · exact hold.safe k hk'
  · intro k hk
    rcases h.file_cases hs hroot hk with ⟨r, hr, hnot, rfl⟩ | ⟨hk', hkept, -⟩
    · obtain ⟨d, hfile, hsize, -⟩ := h.uploaded r hr ((mem_uploadPaths hs hd).mpr ⟨r, hr, hnot, rfl⟩)
      simp only [sizeAt, hfile, Option.map_some, Option.getD_some, hsize]
      exact UInt64.le_iff_toNat_le.mp (hsizes r hr)
    · have := hold.small k hk'
      rwa [sizeAt, ← hkept] at this

end Applied

end

/-! ## The final scan -/

section
variable {cr : Crypto} {root : Path} {limits : DirectorySyncLimits} {source : FileManifest} {w : World}

/-- The end of the server where nothing fails: it says that all is well, or says nothing at all. -/
theorem verify_total (hroot : w.host.fs.node root = some .dir) (hs : SortedRecords source)
    (hpres : Scannable limits.scan w.host.fs root → ∀ r ∈ source, r ∈ listing w.host.fs root)
    (requestId : UInt64) (result : DirectorySyncResult) :
    Total (solo (exec cr) (alone calm)) (verify root requestId limits source result) w fun r w' =>
      (Scannable limits.scan w.host.fs root → r = result ∧
        ∃ f : WireFrame, f.1 = makeFrame .syncResult requestId (encodeSyncResult .success) ∧
          sent w'.log = sent w.log ++ [f]) ∧
      (¬ Scannable limits.scan w.host.fs root → r.status = .scanError ∧ sent w'.log = sent w.log) := by
  refine total_bind (total_mono (total_still (scanDirectory_calmly hroot)) ?_)
  rintro scan w' ⟨⟨-, ⟨⟨found, rfl, hfound⟩, hscan⟩ | ⟨⟨failure, rfl⟩, hscan⟩⟩, hsent, -⟩
  · have hempty : (buildSyncPlan source found.files).uploadPaths.isEmpty = true := by
      rw [List.isEmpty_iff, hfound, buildSyncPlan_nil_iff hs (listing_sorted hroot)]
      exact hpres hscan
    have hv : (makeFrame .syncResult requestId (encodeSyncResult .success)).Valid :=
      makeFrame_valid (by decide) (by decide)
    simp only [hempty, if_true]
    rw [sendFrame_bind hv]
    refine total_op ⟨.ok (), w'.push ⟨.send ⟨_, hv⟩, .ok ()⟩, ⟨trivial, by simp⟩, rfl⟩ ?_
    intro r w'' hstep
    obtain rfl : w'.push ⟨.send ⟨_, hv⟩, r⟩ = w'' := Option.some.inj hstep.2
    cases r with
    | error failure => exact absurd hstep.1.1 id
    | ok _ =>
      refine total_pure ⟨fun _ => ⟨rfl, ⟨_, hv⟩, rfl, ?_⟩, fun hn => absurd hscan hn⟩
      rw [← hsent]
      exact sent_append _ _
  · exact total_pure ⟨fun h => absurd h hscan, fun _ => ⟨rfl, hsent⟩⟩

/-- A root that is there is left as it is. -/
theorem createDirectories_existing (hroot : w.host.fs.node root = some .dir) :
    Calmly cr (createDirectories [] root) w fun r w' => r = .ok () ∧ w'.host.fs = w.host.fs := by
  have hdir : ∀ p, p <+: root → w.host.fs.node p = some .dir := by
    rintro p ⟨t, rfl⟩
    by_cases ht : t = []
    · simpa [ht] using hroot
    · exact node_of_append _ p t ht hroot
  have hnames : ∀ n ∈ root, ValidName n := valid_of_node (by rw [hroot]; exact Option.some_ne_none _)
  refine total_mono (createDirectories_calmly (I := fun h => h.fs = w.host.fs) ?_ ?_ hnames root [] w rfl
    w.host.fs.node_nil rfl) fun r w' h => ⟨h.1, h.2.1⟩
  · intro h fs' p hfs hp hm
    rw [hfs] at hm
    exact absurd (hm.1.symm.trans (hdir p hp)) (by simp)
  · intro h p hfs hp
    exact .inl (hfs ▸ hdir p hp)

/-- What a run has kept and uploaded: the tree is as the plan wants it. -/
theorem Kept.applied {fs fs' : Fs} {plan : SyncPlan} (h : Kept root plan.uploadPaths fs fs')
    (hroot : fs'.node root = some .dir)
    (hup : ∀ r ∈ source, r.path ∈ plan.uploadPaths → Present fs' root r) : Applied fs fs' root source plan := by
  refine ⟨hroot, hup, fun rel hrel hnot => ?_⟩
  have hstate : ¬ root ++ [kPartialDirectory] <+: root ++ rel := by
    rw [List.prefix_append_right_inj]
    rintro ⟨t, rfl⟩
    exact hrel (by simp)
  rcases h.unplanned (root ++ rel) hstate fun path hpath he => hnot path hpath (List.append_cancel_left he) with
    ⟨-, hfile⟩ | ⟨hnone, hdir, -⟩
  · exact hfile
  · simp only [fileAt, hnone, hdir]

/-- In every run only the planned files have to be looked at. -/
theorem applied_of_reach {manifest : Frame} {w : World} {c : Side net Host DirectorySyncResult}
    (hplain : w.host.fs.Plain root)
    (hd : decodeManifest (.of manifest.payload) limits.scan.maxEntries = .ok source)
    (hr : Reach (solo (exec cr) anyAnswer) (receiveDirectorySync manifest root limits, w) c)
    (hroot : c.2.host.fs.node root = some .dir)
    (hup : ∀ r ∈ source, r.path ∈ (buildSyncPlan source (listing w.host.fs root)).uploadPaths →
      Present c.2.host.fs root r) :
    Applied w.host.fs c.2.host.fs root source (buildSyncPlan source (listing w.host.fs root)) := by
  refine Kept.applied ?_ hroot hup
  refine (receiveDirectorySync_safely hplain hd).reach
    (fun w' => Kept root (buildSyncPlan source (listing w.host.fs root)).uploadPaths w.host.fs w'.host.fs)
    (.refl _ _ _) ?_ hr
  rintro a b h ⟨e, -, hchg, -⟩
  exact h.trans hchg.kept

/-- **The final scan.**  Take a manifest that is decoded and whose sizes pass, a tree that the first
scan accepts, and the tree after all planned uploads.  The final scan succeeds, a `SyncResult` is
sent, and the tree is again accepted for planning, if and only if the union of the manifest and of
what only the destination had is within the limits of a scan.  The root is spelled without symbolic links above it
(`Plain`). -/
theorem final_scan_iff {payload : List UInt8} {destination : DirectoryScan} {w w₁ w' : World}
    (hdecode : decodeManifest (.of payload) limits.scan.maxEntries = .ok source)
    (hsizes : (source.any fun file => decide (file.size > limits.scan.maxFileSize)) = false)
    (hplain : w.host.fs.Plain root)
    (hscan : Reach (solo (exec cr) anyAnswer) (scanDirectory root limits.scan, w) (.pure (.ok destination), w₁))
    (happlied : Applied w.host.fs w'.host.fs root source (buildSyncPlan source destination.files))
    (requestId : UInt64) (result : DirectorySyncResult) :
    (Calmly cr (scanDirectory root limits.scan) w' fun r _ =>
      (∃ scan, r = .ok scan) ↔ Fits limits.scan source destination.files) ∧
    (Total (solo (exec cr) (alone calm)) (verify root requestId limits source result) w' fun _ w'' =>
      (∃ f : WireFrame, f.1.header.messageType = .syncResult ∧ sent w''.log = sent w'.log ++ [f]) ↔
        Fits limits.scan source destination.files) ∧
    (Calmly cr (createDirectories [] root) w' fun r w₂ => r = .ok () ∧
      Calmly cr (scanDirectory root limits.scan) w₂ fun r _ =>
        (∃ scan, r = .ok scan) ↔ Fits limits.scan source destination.files) := by
  obtain ⟨-, hsafe, hs⟩ := decodeManifest_sorted hdecode
  have hexact : Safe (solo (exec cr) anyAnswer) (fun _ _ => True) (scanDirectory root limits.scan) w
      fun r _ => ∀ s, r = .ok s → s.files = listing w.host.fs root ∧ Scannable limits.scan w.host.fs root :=
    scanDirectory_safe (I := fun _ => True) ⟨fun _ _ => trivial, fun _ _ _ => trivial⟩ trivial hplain
      fun _ _ _ _ h => h
  obtain ⟨hfiles, hold⟩ := hexact.result hscan destination rfl
  rw [hfiles] at happlied ⊢
  have hiff : Scannable limits.scan w'.host.fs root ↔ Fits limits.scan source (listing w.host.fs root) := by
    refine happlied.scannable_iff hs hold.isDir hsafe hold fun r hr => ?_
    simpa using List.any_eq_false.mp hsizes r hr
  have hagain : ∀ {v : World}, v.host.fs = w'.host.fs →
      Calmly cr (scanDirectory root limits.scan) v fun r _ =>
        (∃ scan, r = .ok scan) ↔ Fits limits.scan source (listing w.host.fs root) := by
    intro v hv
    refine total_mono (scanDirectory_calmly (hv ▸ happlied.isDir)) ?_
    rintro r v' ⟨-, h⟩
    rw [hv, hiff] at h
    rcases h with ⟨⟨s, rfl, -⟩, hfit⟩ | ⟨⟨failure, rfl⟩, hfit⟩
    · exact ⟨fun _ => hfit, fun _ => ⟨s, rfl⟩⟩
    · exact ⟨fun ⟨s, he⟩ => (by cases he), fun h => absurd h hfit⟩
  refine ⟨hagain rfl, ?_, ?_⟩
  · refine total_mono (verify_total happlied.isDir hs (fun _ r hr => ?_) requestId result) ?_
    · exact (happlied.mem_listing_applied hs hold.isDir hsafe).mpr (mem_union.mpr (.inl hr))
    · rintro r w'' ⟨hyes, hno⟩
      rw [hiff] at hyes hno
      refine ⟨fun ⟨f, _, hf⟩ => ?_, fun hfit => ?_⟩
      · by_contra hfit
        rw [(hno hfit).2] at hf
        simp at hf
      · obtain ⟨-, f, hf, hsent⟩ := hyes hfit
        exact ⟨f, by rw [hf]; rfl, hsent⟩
  · exact total_mono (createDirectories_existing happlied.isDir) fun r w₂ h => ⟨h.1, hagain h.2⟩

end

/-! The sample destination has one file already, and gets another one. -/

def sampleOne : FileManifest := [⟨bytesOf "a", 3, 891568578⟩]

/-- What the first scan finds. -/
def sampleFound : DirectoryScan := { files := [⟨bytesOf "k", 1, 140662621⟩] }

/-- Limits for `n` files. -/
abbrev limitedTo (n : Nat) : DirectorySyncLimits := { scan := { maxEntries := n } }

theorem decode_sampleOne {n : Nat} (h : 1 ≤ n) :
    decodeManifest (.of sampleManifest.payload) (limitedTo n).scan.maxEntries = .ok sampleOne := by
  have hne : encodeManifest sampleOne ≠ [] := by decide +kernel
  exact decodeManifest_encode hne h

/-- The uploaded file is there, and nothing else was touched. -/
theorem sampleSync_applied {n m : Nat} (hn : 1 ≤ n)
    (hroot : (sampleSync (limitedTo n) m).2.host.fs.node sampleRoot = some .dir)
    (ha : (sampleSync (limitedTo n) m).2.host.fs.fileAt (sampleRoot ++ [bytesOf "a"]) = some (bytesOf "abc")) :
    Applied sampleServer.host.fs (sampleSync (limitedTo n) m).2.host.fs sampleRoot sampleOne
      (buildSyncPlan sampleOne sampleFound.files) := by
  have hlist : listing sampleServer.host.fs sampleRoot = sampleFound.files := by decide +kernel
  rw [← hlist]
  refine applied_of_reach sampleServer_plain (decode_sampleOne hn) (reach_sampleSync _ _) hroot ?_
  intro r hr _
  obtain rfl := List.mem_singleton.mp hr
  exact ⟨bytesOf "abc", ha, by decide +kernel, by decide +kernel⟩

/-- Room for two: the final scan of the sample succeeds. -/
theorem final_scan_iff_sample : Calmly sampleCrypto (scanDirectory sampleRoot (limitedTo 2).scan)
    (sampleSync (limitedTo 2) 63).2 fun r _ => ∃ scan, r = .ok scan := by
  have hfit : Fits (limitedTo 2).scan sampleOne sampleFound.files := by unfold Fits; decide +kernel
  exact total_mono (final_scan_iff (w := sampleServer) (decode_sampleOne (by decide)) (by decide)
    sampleServer_plain (@reach_of_result? sampleCrypto [] _ 11 _ _ _ (by decide +kernel))
    (sampleSync_applied (by decide) (by decide +kernel) (by decide +kernel)) 6 {}).1 fun _ _ h => h.mpr hfit

/-- **Room for one.**  The manifest has one file, the destination another one, so both are accepted;
the upload is committed, and the final scan fails.  No `SyncResult` is sent. -/
theorem final_scan_too_many :
    decodeManifest (.of sampleManifest.payload) (limitedTo 1).scan.maxEntries = .ok sampleOne ∧
    (sampleOne.any fun file => decide (file.size > (limitedTo 1).scan.maxFileSize)) = false ∧
    (∃ w₁, Reach (solo (exec sampleCrypto) anyAnswer) (scanDirectory sampleRoot (limitedTo 1).scan, sampleServer)
      (.pure (.ok sampleFound), w₁)) ∧
    ∃ w', Reach (solo (exec sampleCrypto) anyAnswer)
        (receiveDirectorySync sampleManifest sampleRoot (limitedTo 1), sampleServer)
        (.pure { status := .scanError, scanError := some .tooManyEntries }, w') ∧
      Applied sampleServer.host.fs w'.host.fs sampleRoot sampleOne (buildSyncPlan sampleOne sampleFound.files) ∧
      ∀ f ∈ sent w'.log, f.1.header.messageType ≠ .syncResult := by
  refine ⟨decode_sampleOne (by decide), by decide,
    ⟨_, @reach_of_result? sampleCrypto [] _ 11 _ _ _ (by decide +kernel)⟩,
    (sampleSync (limitedTo 1) 56).2, reach_of_result? (by decide +kernel),
    sampleSync_applied (by decide) (by decide +kernel) (by decide +kernel), by decide +kernel⟩

end DirectorySync

end SyncWire
