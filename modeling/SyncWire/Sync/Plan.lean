import SyncWire.DirectorySync

/-!
# The plan, between honest parties

The plan is the exact difference of the two lists (`plan_exact`).  The server's plan for
a manifest that was sent fits a frame, decodes to itself, and names only files of the
manifest, which the client's binary search finds (`honest_plan`).  So the branches that
reject a plan are not taken.
-/

namespace SyncWire

open Wire Effect Posix FileTransfer

namespace DirectorySync

/-- What is promised of a success holds of a result that is none. -/
theorem stopped {r : DirectorySyncResult} {p : Prop} (h : r.ok = false) (h' : r.ok = true) : p := by
  rw [h] at h'
  cases h'

/-! ## The binary search -/

theorem pathAt_eq {files : List FileRecord} {i : Nat} {f : FileRecord} (h : files[i]? = some f) :
    pathAt files i = f.path := by
  simp [pathAt, h]

theorem pathAt_lt {files : List FileRecord} (hs : SortedRecords files) {i j : Nat} (hij : i < j)
    (hj : j < files.length) : pathAt files i < pathAt files j := by
  rw [pathAt_eq (List.getElem?_eq_getElem (by omega)), pathAt_eq (List.getElem?_eq_getElem hj)]
  exact List.pairwise_iff_getElem.mp hs i j (by omega) hj hij

/-- **Lower bound.**  If the records before `first` are before `path` and those from `first + len` on
are not, the search stops at the border. -/
theorem lowerBound_spec {files : List FileRecord} (path : List UInt8) (hs : SortedRecords files)
    (turns : Nat) : ∀ first len, len ≤ turns → first + len ≤ files.length →
      (∀ j, j < first → pathAt files j < path) →
      (∀ j, first + len ≤ j → j < files.length → ¬ pathAt files j < path) →
      (∀ j, j < lowerBound files path turns first len → pathAt files j < path) ∧
      ∀ j, lowerBound files path turns first len ≤ j → j < files.length → ¬ pathAt files j < path := by
  induction turns with
  | zero =>
    intro first len hlen hle hlo hhi
    obtain rfl : len = 0 := by omega
    exact ⟨hlo, hhi⟩
  | succ turns ih =>
    intro first len hlen hle hlo hhi
    rw [lowerBound]
    by_cases hpos : len > 0
    · rw [if_pos hpos]
      have hhalf : len / 2 < len := Nat.div_lt_self hpos (by decide)
      by_cases hlt : pathAt files (first + len / 2) < path
      · simp only
        rw [if_pos hlt]
        refine ih _ _ (by omega) (by omega) ?_ ?_
        · intro j hj
          by_cases he : j = first + len / 2
          · rw [he]
            exact hlt
          · exact path_trans (pathAt_lt hs (by omega) (by omega)) hlt
        · intro j hj hj'
          exact hhi j (by omega) hj'
      · simp only
        rw [if_neg hlt]
        refine ih _ _ (by omega) (by omega) hlo ?_
        intro j hj hj' hjlt
        by_cases he : j = first + len / 2
        · rw [he] at hjlt
          exact hlt hjlt
        · exact hlt (path_trans (pathAt_lt hs (by omega) hj') hjlt)
    · rw [if_neg hpos]
      obtain rfl : len = 0 := by omega
      exact ⟨hlo, hhi⟩

/-- In a sorted list, `find_file` finds every record by its path. -/
theorem findFile_eq {files : List FileRecord} (hs : SortedRecords files) {f : FileRecord} (hf : f ∈ files) :
    findFile files f.path = some f := by
  obtain ⟨k, hk⟩ := List.mem_iff_getElem?.mp hf
  obtain ⟨hklt, -⟩ := List.getElem?_eq_some_iff.mp hk
  obtain ⟨hlo, hhi⟩ := lowerBound_spec f.path hs files.length 0 files.length (Nat.le_refl _)
    (by omega) (by omega) (by omega)
  have hki : lowerBound files f.path files.length 0 files.length ≤ k := by
    by_contra hn
    have := hlo k (by omega)
    rw [pathAt_eq hk] at this
    exact path_irrefl _ this
  have hik : k ≤ lowerBound files f.path files.length 0 files.length := by
    by_contra hn
    refine hhi _ (Nat.le_refl _) (by omega) ?_
    have := pathAt_lt hs (Nat.lt_of_not_le hn) hklt
    rwa [pathAt_eq hk] at this
  unfold findFile
  rw [Nat.le_antisymm hki hik, hk]
  simp

/-! ## The plan of sorted lists -/

section
variable {source destination : List FileRecord}

theorem toNat_unchangedCount (hs : SortedRecords source) (hd : SortedRecords destination)
    (hlen : source.length ≤ 0xFFFFFFFF) :
    (buildSyncPlan source destination).unchangedCount.toNat = (source.filter fun s =>
      decide (s ∈ destination)).length := by
  have hcount : (source.filter fun s => decide (s ∈ destination)).length ≤ source.length :=
    List.length_filter_le _ _
  rw [buildSyncPlan_eq hs hd]
  simp only [planOf, UInt32.zero_add, UInt32.toNat_ofNat']
  omega

theorem toNat_serverOnlyCount (hs : SortedRecords source) (hd : SortedRecords destination)
    (hlen : destination.length ≤ 0xFFFFFFFF) :
    (buildSyncPlan source destination).serverOnlyCount.toNat =
      (destination.filter fun d => decide (d.path ∉ source.map (·.path))).length := by
  have hcount : (destination.filter fun d => decide (d.path ∉ source.map (·.path))).length ≤ destination.length :=
    List.length_filter_le _ _
  rw [buildSyncPlan_eq hs hd]
  simp only [planOf, UInt32.zero_add, UInt32.toNat_ofNat']
  omega

/-- Every record is to be uploaded or is there already. -/
theorem length_uploadPaths_add (hs : SortedRecords source) (hd : SortedRecords destination)
    (hlen : source.length ≤ 0xFFFFFFFF) :
    (buildSyncPlan source destination).uploadPaths.length +
      (buildSyncPlan source destination).unchangedCount.toNat = source.length := by
  have hsplit := List.length_eq_length_filter_add (l := source) (fun s => decide (s ∈ destination))
  rw [toNat_unchangedCount hs hd hlen, uploadPaths_buildSyncPlan hs hd, List.length_map]
  simp only [decide_not]
  omega

theorem mem_uploadPaths (hs : SortedRecords source) (hd : SortedRecords destination) {path : List UInt8} :
    path ∈ (buildSyncPlan source destination).uploadPaths ↔ ∃ s ∈ source, s ∉ destination ∧ s.path = path := by
  simp [uploadPaths_buildSyncPlan hs hd, and_assoc]

theorem uploadPaths_sorted (hs : SortedRecords source) (hd : SortedRecords destination) :
    (buildSyncPlan source destination).uploadPaths.Pairwise (· < ·) := by
  rw [uploadPaths_buildSyncPlan hs hd, List.pairwise_map]
  exact hs.filter _

/-- **The exact difference.**  For two lists with increasing paths the loop ends, and its plan uploads,
in the order of the source, the records that the destination does not have as they are; the counts are
those of the common records and of the paths that only the destination has. -/
theorem plan_exact (hs : SortedRecords source) (hd : SortedRecords destination) (hslen : source.length < 2 ^ 32)
    (hdlen : destination.length < 2 ^ 32) :
    let plan := buildSyncPlan source destination
    mergeLoop (source.length + destination.length) source destination {} = some plan ∧
    plan.uploadPaths = (source.filter fun s =>
      ¬ ∃ d ∈ destination, d.path = s.path ∧ d.size = s.size ∧ d.checksum = s.checksum).map (·.path) ∧
    plan.unchangedCount.toNat = (source.filter (· ∈ destination)).length ∧
    plan.serverOnlyCount.toNat = (destination.filter fun d => d.path ∉ source.map (·.path)).length ∧
    plan.uploadPaths.Pairwise (· < ·) ∧ plan.uploadPaths.length + plan.unchangedCount.toNat = source.length ∧
    (plan.uploadPaths = [] ↔ ∀ s ∈ source, s ∈ destination) := by
  intro plan
  refine ⟨mergeLoop_eq _ _ _ _ (Nat.le_refl _), ?_, toNat_unchangedCount hs hd (by omega),
    toNat_serverOnlyCount hs hd (by omega), uploadPaths_sorted hs hd, length_uploadPaths_add hs hd (by omega),
    buildSyncPlan_nil_iff hs hd⟩
  have hsame : ∀ s : FileRecord, (∃ d ∈ destination, d.path = s.path ∧ d.size = s.size ∧ d.checksum = s.checksum) ↔
      s ∈ destination := by
    refine fun s => ⟨?_, fun h => ⟨s, h, rfl, rfl, rfl⟩⟩
    rintro ⟨⟨path, size, checksum⟩, hd, rfl, rfl, rfl⟩
    exact hd
  simp only [plan, uploadPaths_buildSyncPlan hs hd, hsame]

theorem plan_exact_sample :
    let source : List FileRecord := [⟨bytesOf "a", 3, 7⟩, ⟨bytesOf "b", 1, 5⟩, ⟨bytesOf "c", 1, 5⟩]
    let plan := buildSyncPlan source [⟨bytesOf "a", 3, 7⟩, ⟨bytesOf "c", 1, 6⟩, ⟨bytesOf "d", 1, 5⟩]
    plan.uploadPaths = [bytesOf "b", bytesOf "c"] ∧ plan.uploadPaths.length + plan.unchangedCount.toNat = 3 :=
  ⟨by decide +kernel, (plan_exact (by decide +kernel) (by decide +kernel) (by decide) (by decide)).2.2.2.2.2.1⟩

/-- A plan is no longer than the manifest it is for, apart from its own counts. -/
theorem planSize_le (hs : SortedRecords source) (hd : SortedRecords destination) :
    planSize (buildSyncPlan source destination) ≤ max 12 (manifestSize source) := by
  have hsub : ∀ l : List FileRecord,
      ((l.filter fun s => decide (s ∉ destination)).map fun f => 2 + f.path.length).sum + 12 * l.length ≤
        (l.map fun f => 14 + f.path.length).sum := by
    intro l
    induction l with
    | nil => simp
    | cons x l ih =>
      simp only [List.map_cons, List.sum_cons, List.length_cons, List.filter_cons]
      split
      · simp only [List.map_cons, List.sum_cons]
        omega
      · omega
  have h := hsub source
  unfold planSize manifestSize
  rw [uploadPaths_buildSyncPlan hs hd, List.map_map]
  cases source with
  | nil => simp
  | cons x l =>
    simp only [List.length_cons, Function.comp_def] at h ⊢
    omega

end

/-! ## The branches that reject a plan -/

section
variable {cr : Crypto} {rely : net.Rely} {w : World}

/-- Runs of which only the result is of interest. -/
abbrev Returns (cr : Crypto) (rely : net.Rely) {α : Type} (p : Sys α) (w : World) (Q : α → Prop) : Prop :=
  Safe (solo (exec cr) rely) (fun _ _ => True) p w fun a _ => Q a

/-- Statuses that no failure of the connection or of an upload has. -/
def Rejects (r : DirectorySyncResult) : Prop := r.status = .codecError ∨ r.status = .planMismatch

/-- A control frame is the one that was expected, or the sync ends. -/
theorem safe_receiveControlFrame {α : Type} {G : World → World → Prop} {type : MessageType} {requestId : UInt64}
    {k : Except DirectorySyncResult Frame → Sys α} {Q : α → World → Prop} (hg : ∀ r, G w (w.push ⟨.recv, r⟩))
    (herr : ∀ r w', r.ok = false → ¬ Rejects r → Safe (solo (exec cr) rely) G (k (.error r)) w' Q)
    (hok : ∀ f : WireFrame, rely w.log .recv (.ok f) → f.1.header.messageType = type →
      Safe (solo (exec cr) rely) G (k (.ok f.1)) (w.push ⟨.recv, .ok f⟩) Q) :
    Safe (solo (exec cr) rely) G (receiveControlFrame type requestId >>= k) w Q := by
  refine safe_bind (safe_receiveFrame fun r hr => ⟨hg r, ?_, ?_⟩)
  · rintro error rfl
    exact safe_pure (herr _ _ rfl (by simp [Rejects, frameError]))
  · rintro f rfl
    simp only
    split
    · exact safe_pure (herr _ _ rfl (by simp [Rejects]))
    · split
      · exact safe_pure (herr _ _ rfl (by simp [Rejects]))
      · split
        · exact safe_pure (herr _ _ rfl (by simp [Rejects]))
        · next ht => exact safe_pure (hok f hr (not_not.mp ht))

theorem receiveControlFrame_returns {type : MessageType} {requestId : UInt64}
    {k : Except DirectorySyncResult Frame → Sys DirectorySyncResult} {Q : DirectorySyncResult → Prop}
    (herr : ∀ r w', ¬ Rejects r → Returns cr rely (k (.error r)) w' Q)
    (hok : ∀ f : WireFrame, rely w.log .recv (.ok f) → f.1.header.messageType = type →
      ∀ w', Returns cr rely (k (.ok f.1)) w' Q) :
    Returns cr rely (receiveControlFrame type requestId >>= k) w Q :=
  safe_receiveControlFrame (fun _ => trivial) (fun r w' _ hr => herr r w' hr) fun f hf ht => hok f hf ht _

theorem uploadFiles_returns {sourceRoot : Path} {requestId : UInt64} {limits : DirectorySyncLimits}
    {source : FileManifest} (paths : List (List UInt8)) :
    ∀ (index : Nat) (result : DirectorySyncResult) (w : World), ¬ Rejects result →
      (∀ path ∈ paths, ∃ f, findFile source path = some f) →
      Returns cr rely (uploadFiles sourceRoot requestId limits source index paths result) w
        fun x => ∀ r, x = .error r ∨ x = .ok r → ¬ Rejects r := by
  induction paths with
  | nil =>
    intro index result w hr _
    refine safe_pure ?_
    rintro r (h | h)
    · cases h
    · cases h
      exact hr
  | cons path paths ih =>
    intro index result w hr hfind
    obtain ⟨f, hf⟩ := hfind path (List.mem_cons_self ..)
    rw [uploadFiles, hf]
    refine safe_bind (safe_mono (safe_trivial _ _) fun transfer w' _ => ?_)
    split
    · exact ih (index + 1) _ w' hr fun p hp => hfind p (List.mem_cons_of_mem _ hp)
    · refine safe_pure ?_
      rintro r (h | h)
      · cases h
        simp [Rejects]
      · cases h

/-- The final answers of an honest server decode. -/
def HonestResult (f : WireFrame) : Prop :=
  f.1.header.messageType = .syncResult → ∃ code, f.1.payload = encodeSyncResult code

theorem completeSync_returns {requestId : UInt64} {result : DirectorySyncResult} (hr : ¬ Rejects result) :
    Returns cr (assuming anyAnswer HonestResult) (completeSync requestId result) w fun r => ¬ Rejects r := by
  refine safe_sendFrame (fun res hres => ?_) fun hv r => ⟨trivial, fun res => ?_⟩
  · rw [if_neg (ne_true_of_eq_false hres)]
    exact safe_pure (by simp [Rejects, frameError])
  · split
    · refine receiveControlFrame_returns (fun r w' hr => safe_pure hr) fun f hf ht w' => ?_
      obtain ⟨code, hcode⟩ := hf.2 ht
      simp only [hcode, decodeSyncResult_encode]
      split
      · exact safe_pure (by simp [Rejects])
      · exact safe_pure hr
    · exact safe_pure (by simp [Rejects, frameError])

theorem receiveFiles_returns {destinationRoot : Path} {requestId : UInt64} {limits : DirectorySyncLimits}
    (paths : List (List UInt8)) :
    ∀ (index : Nat) (result : DirectorySyncResult) (w : World), result.status ≠ .codecError →
      Returns cr rely (receiveFiles destinationRoot requestId limits index paths result) w
        fun x => ∀ r, x = .error r ∨ x = .ok r → r.status ≠ .codecError := by
  have stop : ∀ (r : DirectorySyncResult) (w : World), r.status ≠ .codecError →
      Returns cr rely (pure (.error r) : Sys (Except DirectorySyncResult DirectorySyncResult)) w
        fun x => ∀ r, x = .error r ∨ x = .ok r → r.status ≠ .codecError := by
    intro r w hr
    refine safe_pure ?_
    rintro r' (h | h)
    · cases h
      exact hr
    · cases h
  induction paths with
  | nil =>
    intro index result w hr
    refine safe_pure ?_
    rintro r (h | h)
    · cases h
    · cases h
      exact hr
  | cons path paths ih =>
    intro index result w hr
    refine safe_receiveFrame fun r _ => ⟨trivial, ?_, ?_⟩
    · rintro error rfl
      exact stop _ _ (by simp [frameError])
    · rintro f rfl
      simp only
      split
      · refine safe_bind (safe_mono (safe_trivial _ _) fun transfer w' _ => ?_)
        split
        · exact ih (index + 1) _ w' hr
        · exact stop _ _ (by simp)
      · refine safe_bind (safe_mono (safe_trivial _ _) fun rejected w' _ => ?_)
        split
        · exact stop _ _ (by simp)
        · exact stop _ _ (by simp [frameError])

theorem verify_returns {destinationRoot : Path} {requestId : UInt64} {limits : DirectorySyncLimits}
    {source : FileManifest} {result : DirectorySyncResult} (hr : result.status ≠ .codecError) :
    Returns cr rely (verify destinationRoot requestId limits source result) w
      fun r => r.status ≠ .codecError := by
  refine safe_bind (safe_mono (safe_trivial _ _) fun scan w' _ => ?_)
  cases scan with
  | error failure => exact safe_pure (by simp [scanError])
  | ok destination =>
    refine safe_bind (safe_mono (safe_trivial _ _) fun sent w'' _ => ?_)
    split
    · split
      · exact safe_pure (by simpa using hr)
      · exact safe_pure (by simp)
    · exact safe_pure (by simp [frameError])

theorem executePlan_returns {destinationRoot : Path} {requestId : UInt64} {limits : DirectorySyncLimits}
    {source : FileManifest} {plan : SyncPlan} (hne : encodeSyncPlan plan ≠ [])
    (hle : (encodeSyncPlan plan).length ≤ kDefaultMaxPayload.toNat) :
    Returns cr rely (executePlan destinationRoot requestId limits source plan) w
      fun r => r.status ≠ .codecError := by
  unfold executePlan
  split
  · exact safe_pure (by simp)
  · simp only
    rw [if_neg (by rintro (h | h) <;> [exact hne h; omega])]
    refine safe_bind (safe_mono (safe_trivial _ _) fun sent w' _ => ?_)
    split
    · refine safe_bind (safe_mono (receiveFiles_returns _ 0 _ w' (by simp [planResult])) ?_)
      intro x w'' hx
      cases x with
      | error r => exact safe_pure (hx r (.inl rfl))
      | ok r =>
        refine receiveControlFrame_returns (fun r w' hr => safe_pure fun h => hr (.inl h)) fun f _ _ w' => ?_
        simp only
        split
        · exact safe_pure (by simp)
        · exact verify_returns (hx r (.inr rfl))
    · exact safe_pure (by simp [frameError])

end

/-- The plan for a manifest that was encoded names its files, fits a frame and decodes to itself. -/
theorem plan_transported {source destination : List FileRecord} (hsource : encodeManifest source ≠ [])
    (hsize : (encodeManifest source).length ≤ kDefaultMaxPayload.toNat) (hd : SortedRecords destination) :
    let plan := buildSyncPlan source destination
    (encodeSyncPlan plan ≠ [] ∧ (encodeSyncPlan plan).length ≤ kDefaultMaxPayload.toNat) ∧
    (∀ n, source.length ≤ n → decodeSyncPlan (.of (encodeSyncPlan plan)) n = .ok plan) ∧
    plan.uploadPaths.length + plan.unchangedCount.toNat = source.length ∧
    ∀ path ∈ plan.uploadPaths, ∃ f ∈ source, f.path = path ∧ findFile source path = some f := by
  obtain ⟨he, -⟩ | ⟨-, -, -, hlen, hcount, hsafe, hs⟩ := encodeManifest_cases source
  · exact absurd he hsource
  intro plan
  have hpaths : ∀ path ∈ plan.uploadPaths, ∃ f ∈ source, f.path = path ∧ findFile source path = some f := by
    intro path hp
    obtain ⟨f, hf, -, rfl⟩ := (mem_uploadPaths hs hd).mp hp
    exact ⟨f, hf, rfl, findFile_eq hs hf⟩
  have hplan : ∀ path ∈ plan.uploadPaths, isSafeRemotePath path = true := by
    intro path hp
    obtain ⟨f, hf, rfl, -⟩ := hpaths path hp
    exact hsafe f hf
  have hsum : plan.uploadPaths.length + plan.unchangedCount.toNat = source.length :=
    length_uploadPaths_add hs hd hcount
  have hsorted := uploadPaths_sorted hs hd
  obtain ⟨r, -, -, hplen⟩ := @encodeSyncPlan_eq plan (by omega) hplan hsorted
  have hpos : 12 ≤ planSize plan := Nat.le_add_right _ _
  refine ⟨⟨fun h => ?_, ?_⟩, fun n hn => decodeSyncPlan_encode (by omega) (by omega) hplan hsorted, hsum, hpaths⟩
  · rw [h, List.length_nil] at hplen
    omega
  · have h1 : planSize plan ≤ max 12 (manifestSize source) := planSize_le hs hd
    have h2 : 12 ≤ kDefaultMaxPayload.toNat := by decide
    rw [hplen]
    omega

/-- **Plan agreement.**  For a manifest that was encoded and a sorted destination, the plan fits a
frame, decodes to itself, accounts for every source record and names only files that the client
finds.  So the server never refuses its own plan, and the client of an honest server never refuses
the plan it gets. -/
theorem honest_plan {source destination : List FileRecord} {limits : DirectorySyncLimits}
    (hsource : encodeManifest source ≠ [])
    (hsize : (encodeManifest source).length ≤ kDefaultMaxPayload.toNat)
    (hmax : source.length ≤ limits.scan.maxEntries) (hd : SortedRecords destination) :
    let plan := buildSyncPlan source destination
    (encodeSyncPlan plan ≠ [] ∧ (encodeSyncPlan plan).length ≤ kDefaultMaxPayload.toNat) ∧
    decodeSyncPlan (.of (encodeSyncPlan plan)) limits.scan.maxEntries = .ok plan ∧
    plan.uploadPaths.length + plan.unchangedCount.toNat = source.length ∧
    (∀ path ∈ plan.uploadPaths, ∃ f ∈ source, f.path = path ∧ findFile source path = some f) ∧
    (∀ cr root requestId w, Returns cr anyAnswer (executePlan root requestId limits source plan) w
      fun r => r.status ≠ .codecError) ∧
    ∀ cr root requestId w (frame : Frame), frame.payload = encodeSyncPlan plan →
      Returns cr (assuming anyAnswer HonestResult) (followPlan root requestId limits source frame) w
        fun r => r.status ≠ .codecError ∧ r.status ≠ .planMismatch := by
  intro plan
  obtain ⟨⟨hne, hle⟩, hdecode, hsum, hpaths⟩ := plan_transported hsource hsize hd
  have hdec := hdecode _ hmax
  refine ⟨⟨hne, hle⟩, hdec, hsum, hpaths, fun cr root requestId w => executePlan_returns hne hle, ?_⟩
  intro cr root requestId w frame hframe
  have hdone : ∀ r : DirectorySyncResult, ¬ Rejects r → r.status ≠ .codecError ∧ r.status ≠ .planMismatch :=
    fun r hr => not_or.mp hr
  unfold followPlan
  rw [hframe, hdec]
  simp only
  rw [if_neg (not_not.mpr hsum)]
  split
  · exact safe_pure (by simp)
  · refine safe_bind (safe_mono (uploadFiles_returns _ 0 _ w (by simp [Rejects, planResult]) ?_) ?_)
    · intro path hp
      obtain ⟨f, -, -, hf⟩ := hpaths path hp
      exact ⟨f, hf⟩
    · intro x w' hx
      cases x with
      | error r => exact safe_pure (hdone r (hx r (.inl rfl)))
      | ok r => exact safe_mono (completeSync_returns (hx r (.inr rfl))) fun r' _ => hdone r'

/-- Two source files, one of which the destination has. -/
def sampleSource : FileManifest := [⟨bytesOf "a", 3, 891568578⟩, ⟨bytesOf "b/c", 2, 7⟩]

theorem honest_plan_sample :
    let plan := buildSyncPlan sampleSource [⟨bytesOf "a", 3, 891568578⟩, ⟨bytesOf "z", 1, 1⟩]
    plan = { uploadPaths := [bytesOf "b/c"], unchangedCount := 1, serverOnlyCount := 1 } ∧
      decodeSyncPlan (.of (encodeSyncPlan plan)) 4096 = .ok plan :=
  ⟨by decide +kernel, (honest_plan (by decide +kernel) (by decide +kernel)
    (show sampleSource.length ≤ ({} : DirectorySyncLimits).scan.maxEntries by decide) (by decide +kernel)).2.1⟩

end DirectorySync

end SyncWire
