import SyncWire.TransferCodec

/-!
# Payloads of a directory sync and the plan (`sync_codec.cpp`)

A manifest is a strictly sorted list of records, a plan a strictly sorted list of
paths with two counts.  `buildSyncPlan` merges the source manifest with the
destination's.

* `buildSyncPlan_eq`: on sorted lists the merge is a filter: it uploads the source
  records that the destination does not have.
* `decodeManifest_encode`, `decodeSyncPlan_encode`: round trips.
* `decodeManifest_sorted`: what is decoded is strictly sorted and safe.
* `encodeManifest_decode`, `encodeSyncPlan_decode`: and encodes to the payload it came from.
-/

namespace SyncWire

open Wire

structure FileRecord where
  path : List UInt8
  size : UInt64
  checksum : UInt32
deriving DecidableEq

abbrev FileManifest := List FileRecord

structure SyncPlan where
  uploadPaths : List (List UInt8) := []
  unchangedCount : UInt32 := 0
  serverOnlyCount : UInt32 := 0
deriving DecidableEq

def kManifestCountSize : Nat := 4
def kSyncPlanPrefixSize : Nat := 12

inductive SyncCodecError
  | payloadTooShort | payloadSizeMismatch | tooManyEntries | pathTooLong | unsafePath
  | pathsNotStrictlySorted | unknownResultCode
deriving DecidableEq

inductive SyncResultCode
  | success | destinationChanged
deriving DecidableEq

/-! ## Paths -/

/-- `none`: the path is refused. -/
def appendPath (path : List UInt8) : Option (List UInt8) :=
  if !isSafeRemotePath path || decide (path.length > kMaxRemotePathLength) || decide (path.length > 65535) then
    none
  else some (appendU16 (UInt16.ofNat path.length) ++ path)

/-- The path at `offset`, and the offset behind it. -/
def decodePath (payload : Span) (offset : Nat) : Except SyncCodecError (List UInt8 × Nat) :=
  if offset > payload.size ∨ payload.size - offset < 2 then .error .payloadTooShort
  else
    let pathSize := (payload.getU16 offset).toNat
    let offset := offset + 2
    if pathSize = 0 ∨ pathSize > kMaxRemotePathLength then .error .pathTooLong
    else if offset > payload.size ∨ pathSize > payload.size - offset then .error .payloadTooShort
    else
      let path := payload.slice offset pathSize
      if isSafeRemotePath path then .ok (path, offset + pathSize) else .error .unsafePath

/-- `std::string` order: byte by byte, unsigned. -/
def strictlyAfter (previous current : List UInt8) : Bool := previous.isEmpty || decide (previous < current)

/-! ## Sorted lists of paths

`encode_manifest` and `encode_sync_plan` run the same loop over entries that are a `head` and a
path; so do the two decoders. -/

section
variable {α : Type}

/-- The loop of the encoders; `none` is their `return {}`. -/
def encodeEntries (key head : α → List UInt8) : (previous : List UInt8) → List α → Option (List UInt8)
  | _, [] => some []
  | previous, x :: xs =>
    if strictlyAfter previous (key x) then
      match appendPath (key x) with
      | none => none
      | some path => (encodeEntries key head (key x) xs).map fun rest => head x ++ (path ++ rest)
    else none

/-- The loop of the decoders over the entries still to come. -/
def decodeEntries (payload : Span) (headSize : Nat) (make : (offset : Nat) → (path : List UInt8) → α) :
    (count offset : Nat) → (previous : List UInt8) → Except SyncCodecError (List α × Nat)
  | 0, offset, _ => .ok ([], offset)
  | count + 1, offset, previous =>
    if offset > payload.size ∨ payload.size - offset < headSize then .error .payloadTooShort
    else
      match decodePath payload (offset + headSize) with
      | .error e => .error e
      | .ok (path, next) =>
        if strictlyAfter previous path then
          match decodeEntries payload headSize make count next path with
          | .error e => .error e
          | .ok (xs, last) => .ok (make offset path :: xs, last)
        else .error .pathsNotStrictlySorted

end

/-! ## Manifests -/

def encodeManifest (files : List FileRecord) : List UInt8 :=
  if files.length > 0xFFFFFFFF then []
  else
    match encodeEntries (·.path) (fun file => appendU64 file.size ++ appendU32 file.checksum) [] files with
    | none => []
    | some records => appendU32 (UInt32.ofNat files.length) ++ records

def decodeManifest (payload : Span) (maxEntries : Nat) : Except SyncCodecError FileManifest :=
  if payload.size < kManifestCountSize then .error .payloadTooShort
  else
    let count := (payload.getU32 0).toNat
    if count > maxEntries then .error .tooManyEntries
    else
      match decodeEntries payload (8 + 4)
          (fun offset path => (⟨path, payload.getU64 offset, payload.getU32 (offset + 8)⟩ : FileRecord))
          count kManifestCountSize [] with
      | .error e => .error e
      | .ok (files, offset) => if offset ≠ payload.size then .error .payloadSizeMismatch else .ok files

/-! ## The plan -/

/-- The loops of `build_sync_plan` over what is left of the two lists.  A turn of the first loop
moves at least one of the two indices, so `source.size() + destination.size()` turns are enough. -/
def mergeFiles : (turns : Nat) → (source destination : List FileRecord) → SyncPlan → SyncPlan
  | turns + 1, s :: source, d :: destination, plan =>
    if s.path < d.path then
      mergeFiles turns source (d :: destination) { plan with uploadPaths := plan.uploadPaths ++ [s.path] }
    else if d.path < s.path then
      mergeFiles turns (s :: source) destination { plan with serverOnlyCount := plan.serverOnlyCount + 1 }
    else if s.size = d.size ∧ s.checksum = d.checksum then
      mergeFiles turns source destination { plan with unchangedCount := plan.unchangedCount + 1 }
    else
      mergeFiles turns source destination { plan with uploadPaths := plan.uploadPaths ++ [s.path] }
  | _, source, destination, plan =>
    { plan with
      uploadPaths := plan.uploadPaths ++ source.map (·.path)
      serverOnlyCount := plan.serverOnlyCount + UInt32.ofNat destination.length }

def buildSyncPlan (source destination : List FileRecord) : SyncPlan :=
  mergeFiles (source.length + destination.length) source destination {}

def encodeSyncPlan (plan : SyncPlan) : List UInt8 :=
  if plan.uploadPaths.length > 0xFFFFFFFF then []
  else
    match encodeEntries id (fun _ => []) [] plan.uploadPaths with
    | none => []
    | some paths =>
      appendU32 (UInt32.ofNat plan.uploadPaths.length) ++
        (appendU32 plan.unchangedCount ++ (appendU32 plan.serverOnlyCount ++ paths))

/-- There is no head to check for here; `decodePath` refuses an offset past the end itself. -/
def decodeSyncPlan (payload : Span) (maxEntries : Nat) : Except SyncCodecError SyncPlan :=
  if payload.size < kSyncPlanPrefixSize then .error .payloadTooShort
  else
    let count := (payload.getU32 0).toNat
    if count > maxEntries then .error .tooManyEntries
    else
      match decodeEntries payload 0 (fun _ path => path) count kSyncPlanPrefixSize [] with
      | .error e => .error e
      | .ok (uploadPaths, offset) =>
        if offset ≠ payload.size then .error .payloadSizeMismatch
        else .ok { uploadPaths, unchangedCount := payload.getU32 4, serverOnlyCount := payload.getU32 8 }

namespace SyncResultCode

def raw : SyncResultCode → UInt8
  | success => 0
  | destinationChanged => 1

end SyncResultCode

def encodeSyncResult (code : SyncResultCode) : List UInt8 := [code.raw]

def decodeSyncResult (payload : Span) : Except SyncCodecError SyncResultCode :=
  if payload.size ≠ 1 then .error .payloadSizeMismatch
  else
    let raw := payload.getU8 0
    if raw > SyncResultCode.destinationChanged.raw then .error .unknownResultCode
    else .ok (if raw = 0 then .success else .destinationChanged)

/-! ## The merge is a filter -/

/-- Records in strictly increasing order of their paths. -/
abbrev SortedRecords (files : List FileRecord) : Prop := files.Pairwise fun a b => a.path < b.path

theorem path_trans {a b c : List UInt8} (h : a < b) (h' : b < c) : a < c := List.lt_trans h h'

theorem path_irrefl (a : List UInt8) : ¬ a < a := List.lt_irrefl a

theorem path_eq_of_not_lt {a b : List UInt8} (h : ¬ a < b) (h' : ¬ b < a) : a = b :=
  List.le_antisymm h' h

section
variable {s d : FileRecord} {ss ds : List FileRecord}

/-- A record before all of `d :: ds` is not among them. -/
theorem not_mem_of_path_lt (hd : SortedRecords (d :: ds)) (h : s.path < d.path) :
    ∀ x ∈ d :: ds, s.path < x.path := by
  intro x hx
  rcases List.mem_cons.mp hx with rfl | hx
  · exact h
  · exact path_trans h ((List.pairwise_cons.mp hd).1 x hx)

theorem filter_not_mem_cons (h : ∀ x ∈ ss, x ≠ d) :
    ss.filter (fun x => decide (x ∉ d :: ds)) = ss.filter fun x => decide (x ∉ ds) :=
  List.filter_congr fun x hx => by simp [h x hx]

theorem filter_mem_cons (h : ∀ x ∈ ss, x ≠ d) :
    ss.filter (fun x => decide (x ∈ d :: ds)) = ss.filter fun x => decide (x ∈ ds) :=
  List.filter_congr fun x hx => by simp [h x hx]

theorem filter_path_cons (h : ∀ x ∈ ds, x.path ≠ s.path) :
    ds.filter (fun x => decide (x.path ∉ (s :: ss).map (·.path))) =
      ds.filter fun x => decide (x.path ∉ ss.map (·.path)) :=
  List.filter_congr fun x hx => by simp [h x hx]

end

/-- One more, in the order the counters are incremented. -/
theorem ofNat_succ (c : UInt32) (n : Nat) : c + UInt32.ofNat (n + 1) = c + 1 + UInt32.ofNat n := by
  rw [UInt32.ofNat_add, UInt32.add_comm (UInt32.ofNat n), ← UInt32.add_assoc]
  rfl

/-- What is to be uploaded, what is there already, and what only the destination has. -/
def planOf (source destination : List FileRecord) (plan : SyncPlan) : SyncPlan where
  uploadPaths := plan.uploadPaths ++ (source.filter fun s => decide (s ∉ destination)).map (·.path)
  unchangedCount :=
    plan.unchangedCount + UInt32.ofNat (source.filter fun s => decide (s ∈ destination)).length
  serverOnlyCount :=
    plan.serverOnlyCount +
      UInt32.ofNat (destination.filter fun d => decide (d.path ∉ source.map (·.path))).length

theorem mergeFiles_eq (turns : Nat) (source destination : List FileRecord) (plan : SyncPlan)
    (hs : SortedRecords source) (hd : SortedRecords destination)
    (ht : source.length + destination.length ≤ turns) :
    mergeFiles turns source destination plan = planOf source destination plan := by
  induction turns generalizing source destination plan with
  | zero =>
    obtain rfl : source = [] := List.eq_nil_of_length_eq_zero (by omega)
    simp [mergeFiles, planOf]
  | succ turns ih =>
    match source, destination with
    | [], ds => simp [mergeFiles, planOf]
    | s :: ss, [] => simp [mergeFiles, planOf]
    | s :: ss, d :: ds =>
      have hss := List.pairwise_cons.mp hs
      have hds := List.pairwise_cons.mp hd
      simp only [List.length_cons] at ht
      rw [mergeFiles]
      split
      · next hlt =>
        -- `s` comes before every destination record: upload it
        have hne := not_mem_of_path_lt hd hlt
        have hmem : s ∉ d :: ds := fun hm => path_irrefl _ (hne s hm)
        have e1 : (s :: ss).filter (fun x => decide (x ∉ d :: ds)) =
            s :: ss.filter fun x => decide (x ∉ d :: ds) := List.filter_cons_of_pos (by simpa using hmem)
        have e2 : (s :: ss).filter (fun x => decide (x ∈ d :: ds)) =
            ss.filter fun x => decide (x ∈ d :: ds) := List.filter_cons_of_neg (by simpa using hmem)
        rw [ih ss (d :: ds) _ hss.2 hd (by simp; omega), planOf, planOf, e1, e2,
          filter_path_cons fun x hx e => path_irrefl s.path (by have := hne x hx; rwa [e] at this)]
        simp only [List.map_cons, List.append_assoc, List.singleton_append]
      · next hnlt =>
        split
        · next hlt =>
          -- `d` comes before every source record: only the server has it
          have hne := not_mem_of_path_lt hs hlt
          have hx : ∀ x ∈ s :: ss, x ≠ d := fun x hx e => path_irrefl d.path (by
            have := hne x hx; rwa [e] at this)
          have hpath : d.path ∉ (s :: ss).map (·.path) := fun hm => by
            obtain ⟨x, hx', e⟩ := List.mem_map.mp hm
            exact path_irrefl d.path (by have := hne x hx'; rwa [e] at this)
          have e3 : (d :: ds).filter (fun x => decide (x.path ∉ (s :: ss).map (·.path))) =
              d :: ds.filter fun x => decide (x.path ∉ (s :: ss).map (·.path)) :=
            List.filter_cons_of_pos (by simpa using hpath)
          rw [ih (s :: ss) ds _ hs hds.2 (by simp; omega), planOf, planOf, filter_not_mem_cons hx,
            filter_mem_cons hx, e3, List.length_cons, ofNat_succ]
        · next hnlt' =>
          have hpath : s.path = d.path := path_eq_of_not_lt hnlt hnlt'
          have hx : ∀ x ∈ ss, x ≠ d := fun x hx e =>
            path_irrefl d.path (by have := hss.1 x hx; rwa [hpath, e] at this)
          have hy : ∀ x ∈ ds, x.path ≠ s.path := fun x hx e =>
            path_irrefl d.path (by have := hds.1 x hx; rwa [e, hpath] at this)
          have e3 : (d :: ds).filter (fun x => decide (x.path ∉ (s :: ss).map (·.path))) =
              ds.filter fun x => decide (x.path ∉ ss.map (·.path)) := by
            rw [List.filter_cons_of_neg (by simp [hpath]), filter_path_cons hy]
          split
          · next hsame =>
            have he : s = d := by
              cases s; cases d; simp only at hpath hsame; simp [hpath, hsame]
            have e1 : (s :: ss).filter (fun x => decide (x ∉ d :: ds)) =
                ss.filter fun x => decide (x ∉ ds) := by
              rw [List.filter_cons_of_neg (by simp [he]), filter_not_mem_cons hx]
            have e2 : (s :: ss).filter (fun x => decide (x ∈ d :: ds)) =
                s :: ss.filter fun x => decide (x ∈ ds) := by
              rw [List.filter_cons_of_pos (by simp [he]), filter_mem_cons hx]
            rw [ih ss ds _ hss.2 hds.2 (by omega), planOf, planOf, e1, e2, e3, List.length_cons, ofNat_succ]
          · next hsame =>
            have hmem : s ∉ d :: ds := by
              intro hm
              rcases List.mem_cons.mp hm with rfl | hm
              · exact hsame ⟨rfl, rfl⟩
              · exact hy s hm rfl
            have e1 : (s :: ss).filter (fun x => decide (x ∉ d :: ds)) =
                s :: ss.filter fun x => decide (x ∉ ds) := by
              rw [List.filter_cons_of_pos (by simpa using hmem), filter_not_mem_cons hx]
            have e2 : (s :: ss).filter (fun x => decide (x ∈ d :: ds)) =
                ss.filter fun x => decide (x ∈ ds) := by
              rw [List.filter_cons_of_neg (by simpa using hmem), filter_mem_cons hx]
            rw [ih ss ds _ hss.2 hds.2 (by omega), planOf, planOf, e1, e2, e3]
            simp only [List.map_cons, List.append_assoc, List.singleton_append]

/-- The first loop of `build_sync_plan`, given up after so many turns, and what follows it. -/
def mergeLoop : (turns : Nat) → (source destination : List FileRecord) → SyncPlan → Option SyncPlan
  | 0, _ :: _, _ :: _, _ => none
  | turns + 1, s :: source, d :: destination, plan =>
    if s.path < d.path then
      mergeLoop turns source (d :: destination) { plan with uploadPaths := plan.uploadPaths ++ [s.path] }
    else if d.path < s.path then
      mergeLoop turns (s :: source) destination { plan with serverOnlyCount := plan.serverOnlyCount + 1 }
    else if s.size = d.size ∧ s.checksum = d.checksum then
      mergeLoop turns source destination { plan with unchangedCount := plan.unchangedCount + 1 }
    else
      mergeLoop turns source destination { plan with uploadPaths := plan.uploadPaths ++ [s.path] }
  | _, source, destination, plan =>
    some { plan with
      uploadPaths := plan.uploadPaths ++ source.map (·.path)
      serverOnlyCount := plan.serverOnlyCount + UInt32.ofNat destination.length }

/-- The loop comes to its end, with the plan of `mergeFiles`. -/
theorem mergeLoop_eq (turns : Nat) (source destination : List FileRecord) (plan : SyncPlan)
    (h : source.length + destination.length ≤ turns) :
    mergeLoop turns source destination plan = some (mergeFiles turns source destination plan) := by
  induction turns generalizing source destination plan with
  | zero =>
    obtain rfl : source = [] := List.eq_nil_of_length_eq_zero (by omega)
    rfl
  | succ turns ih =>
    match source, destination with
    | [], ds => rfl
    | s :: ss, [] => rfl
    | s :: ss, d :: ds =>
      simp only [List.length_cons] at h
      rw [mergeLoop, mergeFiles]
      -- each branch drops a record of one of the lists
      split
      · exact ih _ _ _ (by simp; omega)
      · split
        · exact ih _ _ _ (by simp; omega)
        · split <;> exact ih _ _ _ (by omega)

/-- **The plan.**  On sorted lists: upload what the destination does not have as it is. -/
theorem buildSyncPlan_eq {source destination : List FileRecord} (hs : SortedRecords source)
    (hd : SortedRecords destination) :
    buildSyncPlan source destination = planOf source destination {} :=
  mergeFiles_eq _ source destination {} hs hd (Nat.le_refl _)

theorem uploadPaths_buildSyncPlan {source destination : List FileRecord} (hs : SortedRecords source)
    (hd : SortedRecords destination) :
    (buildSyncPlan source destination).uploadPaths =
      (source.filter fun s => decide (s ∉ destination)).map (·.path) := by
  rw [buildSyncPlan_eq hs hd]
  exact List.nil_append _

/-- Nothing to upload exactly if every source record is matched. -/
theorem buildSyncPlan_nil_iff {source destination : List FileRecord} (hs : SortedRecords source)
    (hd : SortedRecords destination) :
    (buildSyncPlan source destination).uploadPaths = [] ↔ ∀ s ∈ source, s ∈ destination := by
  rw [uploadPaths_buildSyncPlan hs hd, List.map_eq_nil_iff, List.filter_eq_nil_iff]
  simp

/-! ## Round trips -/

theorem appendPath_eq {path : List UInt8} (h : isSafeRemotePath path = true) :
    appendPath path = some (appendU16 (UInt16.ofNat path.length) ++ path) := by
  have hl := length_of_isSafeRemotePath h
  unfold kMaxRemotePathLength at hl
  rw [appendPath, if_neg]
  simp [h, kMaxRemotePathLength]
  omega

theorem safe_of_appendPath {path p : List UInt8} (h : appendPath path = some p) :
    isSafeRemotePath path = true := by
  unfold appendPath at h
  split at h
  · cases h
  · next hc => simp at hc; exact hc.1.1

theorem length_appendPath {path p : List UInt8} (h : appendPath path = some p) :
    p.length = 2 + path.length := by
  rw [appendPath_eq (safe_of_appendPath h), Option.some.injEq] at h
  simp [← h]

theorem decodePath_append {path p : List UInt8} (h : appendPath path = some p) (pre post : List UInt8) :
    decodePath (.of (pre ++ (p ++ post))) pre.length = .ok (path, pre.length + p.length) := by
  have hsafe := safe_of_appendPath h
  have hl := length_of_isSafeRemotePath hsafe
  have hpos : path.length ≠ 0 := fun e =>
    ne_nil_of_isSafeRemotePath hsafe (List.eq_nil_of_length_eq_zero e)
  have hp := length_appendPath h
  rw [appendPath_eq hsafe, Option.some.injEq] at h
  have hsl : (Span.of (pre ++ (p ++ post))).slice (pre.length + 2) path.length = path := by
    rw [slice_append_right _ _ (by omega), ← h, List.append_assoc, slice_append_right _ _ (by simp),
      show pre.length + 2 - pre.length - (appendU16 (UInt16.ofNat path.length)).length = 0 by simp,
      slice_append_left _ _ rfl]
  have hg : (Span.of (pre ++ (p ++ post))).getU16 pre.length = UInt16.ofNat path.length := by
    rw [getU16_append_right _ _ (Nat.le_refl _), Nat.sub_self, ← h, List.append_assoc, getU16_appendU16]
  simp only [decodePath, hg, toNat_ofNat_length hsafe, hsl, hsafe, if_true, Span.size_of,
    List.length_append, hp]
  rw [if_neg (by omega), if_neg (by omega), if_neg (by omega), Nat.add_assoc]

theorem safe_of_decodePath {payload : Span} {offset next : Nat} {path : List UInt8}
    (h : decodePath payload offset = .ok (path, next)) : isSafeRemotePath path = true := by
  unfold decodePath at h
  split at h
  · cases h
  · simp only at h
    split at h
    · cases h
    · split at h
      · cases h
      · split at h
        · next hs => cases h; exact hs
        · cases h

section
variable {α : Type} {key head : α → List UInt8}

theorem encodeEntries_isSome_iff (key head : α → List UInt8) (previous : List UInt8) (xs : List α) :
    (∃ r, encodeEntries key head previous xs = some r) ↔
      (∀ x ∈ xs, isSafeRemotePath (key x) = true) ∧ xs.Pairwise (fun a b => key a < key b) ∧
        (previous = [] ∨ ∀ x ∈ xs, previous < key x) := by
  induction xs generalizing previous with
  | nil => simp [encodeEntries]
  | cons x xs ih =>
    rw [encodeEntries]
    constructor
    · rintro ⟨r, hr⟩
      split at hr
      · next hafter =>
        split at hr
        · cases hr
        · next p hp =>
          obtain ⟨r', hr', -⟩ := Option.map_eq_some_iff.mp hr
          obtain ⟨h1, h2, h3⟩ := (ih _).mp ⟨r', hr'⟩
          have hsafe := safe_of_appendPath hp
          have h3' := h3.resolve_left (ne_nil_of_isSafeRemotePath hsafe)
          refine ⟨List.forall_mem_cons.mpr ⟨hsafe, h1⟩, List.pairwise_cons.mpr ⟨h3', h2⟩, ?_⟩
          simp only [strictlyAfter, Bool.or_eq_true, List.isEmpty_iff, decide_eq_true_eq] at hafter
          refine hafter.imp id fun hlt => List.forall_mem_cons.mpr ⟨hlt, fun y hy => ?_⟩
          exact path_trans hlt (h3' y hy)
      · cases hr
    · rintro ⟨h1, h2, h3⟩
      obtain ⟨hx, h1⟩ := List.forall_mem_cons.mp h1
      obtain ⟨hlt, h2⟩ := List.pairwise_cons.mp h2
      obtain ⟨r, hr⟩ := (ih (key x)).mpr ⟨h1, h2, .inr hlt⟩
      have hafter : strictlyAfter previous (key x) = true := by
        simp only [strictlyAfter, Bool.or_eq_true, List.isEmpty_iff, decide_eq_true_eq]
        exact h3.imp id fun h => h x (List.mem_cons_self ..)
      rw [if_pos hafter, appendPath_eq hx, hr]
      exact ⟨_, rfl⟩

theorem length_encodeEntries {n : Nat} (hhead : ∀ x, (head x).length = n) {previous : List UInt8}
    {xs : List α} {r : List UInt8} (h : encodeEntries key head previous xs = some r) :
    r.length = (xs.map fun x => n + 2 + (key x).length).sum := by
  induction xs generalizing previous r with
  | nil => cases h; rfl
  | cons x xs ih =>
    rw [encodeEntries] at h
    split at h
    · split at h
      · cases h
      · next p hp =>
        obtain ⟨r', hr', rfl⟩ := Option.map_eq_some_iff.mp h
        simp only [List.length_append, hhead, length_appendPath hp, ih hr', List.map_cons, List.sum_cons]
        omega
    · cases h

/-- Decoding where the entries were encoded gives them back and stops behind them. -/
theorem decodeEntries_encode {n : Nat} (hhead : ∀ x, (head x).length = n) (payload : List UInt8)
    (make : Nat → List UInt8 → α)
    (hmake : ∀ pre x post, payload = pre ++ (head x ++ post) → make pre.length (key x) = x)
    {previous : List UInt8} {xs : List α} {r : List UInt8}
    (h : encodeEntries key head previous xs = some r) (pre post : List UInt8)
    (hp : payload = pre ++ (r ++ post)) :
    decodeEntries (.of payload) n make xs.length pre.length previous = .ok (xs, pre.length + r.length) := by
  induction xs generalizing previous r pre with
  | nil => cases h; rfl
  | cons x xs ih =>
    rw [encodeEntries] at h
    split at h
    · next hafter =>
      split at h
      · cases h
      · next p hpath =>
        obtain ⟨r', hr', rfl⟩ := Option.map_eq_some_iff.mp h
        have hp1 : payload = (pre ++ head x) ++ (p ++ (r' ++ post)) := by rw [hp]; simp
        have hp2 : payload = (pre ++ head x ++ p) ++ (r' ++ post) := by rw [hp]; simp
        have hd := decodePath_append hpath (pre ++ head x) (r' ++ post)
        rw [← hp1, List.length_append, hhead] at hd
        have hrest := ih hr' (pre ++ head x ++ p) hp2
        simp only [List.length_append, hhead] at hrest
        have hsz : ¬ (pre.length > (Span.of payload).size ∨ (Span.of payload).size - pre.length < n) := by
          simp only [Span.size_of, hp, List.length_append, hhead]; omega
        rw [List.length_cons, decodeEntries, if_neg hsz, hd]
        simp only [hafter, if_true, hrest]
        rw [hmake pre x (p ++ (r' ++ post)) (by rw [hp]; simp)]
        simp [hhead]
        omega
    · cases h

/-- What the loop of the decoders accepts is sorted and safe. -/
theorem decodeEntries_sorted (key : α → List UInt8) {payload : Span} {n : Nat} {make : Nat → List UInt8 → α}
    (hkey : ∀ offset path, key (make offset path) = path) {count offset : Nat} {previous : List UInt8}
    {xs : List α} {last : Nat} (h : decodeEntries payload n make count offset previous = .ok (xs, last)) :
    xs.length = count ∧ (∀ x ∈ xs, isSafeRemotePath (key x) = true) ∧
      xs.Pairwise (fun a b => key a < key b) ∧ (previous = [] ∨ ∀ x ∈ xs, previous < key x) := by
  induction count generalizing offset previous xs last with
  | zero => cases h; simp
  | succ count ih =>
    rw [decodeEntries] at h
    split at h
    · cases h
    · split at h
      · cases h
      · next path next hpath =>
        have hsafe := safe_of_decodePath hpath
        split at h
        · next hafter =>
          split at h
          · cases h
          · next xs' last' hrest =>
            cases h
            obtain ⟨hl, h1, h2, h3⟩ := ih hrest
            have h3' := h3.resolve_left (ne_nil_of_isSafeRemotePath hsafe)
            simp only [strictlyAfter, Bool.or_eq_true, List.isEmpty_iff, decide_eq_true_eq] at hafter
            refine ⟨by simp [hl], ?_, ?_, ?_⟩
            · simpa [hkey] using ⟨hsafe, h1⟩
            · simpa [hkey] using ⟨h3', h2⟩
            · refine hafter.imp id fun hlt => ?_
              simpa [hkey] using ⟨hlt, fun y hy => path_trans hlt (h3' y hy)⟩
        · cases h

end

/-- The size of a manifest's encoding. -/
def manifestSize (files : List FileRecord) : Nat := 4 + (files.map fun f => 14 + f.path.length).sum

/-- A manifest is encoded if it fits the count field and its paths are safe and strictly sorted. -/
theorem encodeManifest_cases (files : List FileRecord) :
    (encodeManifest files = [] ∧
      ¬ (files.length ≤ 0xFFFFFFFF ∧ (∀ f ∈ files, isSafeRemotePath f.path = true) ∧ SortedRecords files)) ∨
    ∃ r, encodeEntries (·.path) (fun f : FileRecord => appendU64 f.size ++ appendU32 f.checksum)
      [] files = some r ∧
      encodeManifest files = appendU32 (UInt32.ofNat files.length) ++ r ∧
      (encodeManifest files).length = manifestSize files ∧
      files.length ≤ 0xFFFFFFFF ∧ (∀ f ∈ files, isSafeRemotePath f.path = true) ∧ SortedRecords files := by
  have hiff := encodeEntries_isSome_iff (fun f : FileRecord => f.path)
    (fun f => appendU64 f.size ++ appendU32 f.checksum) [] files
  unfold encodeManifest
  split
  · next h => exact .inl ⟨rfl, fun hc => by omega⟩
  · next h =>
    split
    · next hn =>
      refine .inl ⟨rfl, fun hc => ?_⟩
      obtain ⟨r, hr⟩ := hiff.mpr ⟨hc.2.1, hc.2.2, .inl rfl⟩
      rw [hn] at hr
      cases hr
    · next r hr =>
      obtain ⟨h1, h2, -⟩ := hiff.mp ⟨r, hr⟩
      refine .inr ⟨r, hr, rfl, ?_, by omega, h1, h2⟩
      rw [List.length_append, length_encodeEntries (n := 12) (by simp) hr]
      simp [manifestSize]

theorem decodeManifest_encode {files : List FileRecord} {maxEntries : Nat} (h : encodeManifest files ≠ [])
    (hmax : files.length ≤ maxEntries) : decodeManifest (.of (encodeManifest files)) maxEntries = .ok files := by
  rcases encodeManifest_cases files with ⟨he, -⟩ | ⟨r, hr, he, -, hlen, -, -⟩
  · exact absurd he h
  · have hcount : (UInt32.ofNat files.length).toNat = files.length := by
      rw [UInt32.toNat_ofNat']; omega
    have hd := decodeEntries_encode (n := 12) (by simp) (encodeManifest files)
      (fun offset path => ⟨path, (Span.of (encodeManifest files)).getU64 offset,
        (Span.of (encodeManifest files)).getU32 (offset + 8)⟩)
      (by
        intro pre x post hp
        simp only [hp, getU64_append_right, getU32_append_right, Nat.le_refl, Nat.sub_self,
          Nat.le_add_right, Nat.add_sub_cancel_left, List.append_assoc, getU64_appendU64,
          length_appendU64, getU32_appendU32])
      hr (appendU32 (UInt32.ofNat files.length)) [] (by rw [he]; simp)
    rw [length_appendU32] at hd
    have hg : (Span.of (encodeManifest files)).getU32 0 = UInt32.ofNat files.length := by
      rw [he, getU32_appendU32]
    have hsz : (Span.of (encodeManifest files)).size = 4 + r.length := by rw [he]; simp
    simp only [decodeManifest, hg, hcount, kManifestCountSize, hd, hsz]
    rw [if_neg (by omega), if_neg (by omega), if_neg (by omega)]

/-- What `decode_manifest` accepts is strictly sorted and safe, and no longer than allowed. -/
theorem decodeManifest_sorted {payload : Span} {maxEntries : Nat} {files : FileManifest}
    (h : decodeManifest payload maxEntries = .ok files) :
    files.length ≤ maxEntries ∧ (∀ f ∈ files, isSafeRemotePath f.path = true) ∧ SortedRecords files := by
  unfold decodeManifest at h
  split at h
  · cases h
  · simp only at h
    split at h
    · cases h
    · next hmax =>
      split at h
      · cases h
      · next files' offset hd =>
        split at h
        · cases h
        · cases h
          obtain ⟨hl, h1, h2, -⟩ := decodeEntries_sorted (fun f : FileRecord => f.path)
            (fun _ _ => rfl) hd
          exact ⟨by omega, h1, h2⟩

/-- The size of a plan's encoding. -/
def planSize (plan : SyncPlan) : Nat := 12 + (plan.uploadPaths.map fun p => 2 + p.length).sum

theorem encodeSyncPlan_eq {plan : SyncPlan} (hlen : plan.uploadPaths.length ≤ 0xFFFFFFFF)
    (hsafe : ∀ p ∈ plan.uploadPaths, isSafeRemotePath p = true)
    (hsorted : plan.uploadPaths.Pairwise (· < ·)) :
    ∃ r, encodeEntries id (fun _ => []) [] plan.uploadPaths = some r ∧
      encodeSyncPlan plan = appendU32 (UInt32.ofNat plan.uploadPaths.length) ++
        (appendU32 plan.unchangedCount ++ (appendU32 plan.serverOnlyCount ++ r)) ∧
      (encodeSyncPlan plan).length = planSize plan := by
  obtain ⟨r, hr⟩ := (encodeEntries_isSome_iff id (fun _ => []) [] plan.uploadPaths).mpr
    ⟨hsafe, hsorted, .inl rfl⟩
  refine ⟨r, hr, ?_, ?_⟩
  · rw [encodeSyncPlan, if_neg (by omega), hr]
  · rw [encodeSyncPlan, if_neg (by omega), hr]
    simp only [List.length_append, length_appendU32, length_encodeEntries (n := 0) (by simp) hr, planSize,
      id, Nat.zero_add]
    omega

theorem decodeSyncPlan_encode {plan : SyncPlan} {maxEntries : Nat}
    (hlen : plan.uploadPaths.length ≤ 0xFFFFFFFF) (hmax : plan.uploadPaths.length ≤ maxEntries)
    (hsafe : ∀ p ∈ plan.uploadPaths, isSafeRemotePath p = true)
    (hsorted : plan.uploadPaths.Pairwise (· < ·)) :
    decodeSyncPlan (.of (encodeSyncPlan plan)) maxEntries = .ok plan := by
  obtain ⟨r, hr, he, -⟩ := encodeSyncPlan_eq hlen hsafe hsorted
  have hcount : (UInt32.ofNat plan.uploadPaths.length).toNat = plan.uploadPaths.length := by
    rw [UInt32.toNat_ofNat']; omega
  have hd := decodeEntries_encode (n := 0) (by simp) (encodeSyncPlan plan) (fun _ path => path)
    (fun _ _ _ _ => rfl) hr
    (appendU32 (UInt32.ofNat plan.uploadPaths.length) ++ appendU32 plan.unchangedCount ++
      appendU32 plan.serverOnlyCount) [] (by rw [he]; simp)
  simp only [List.length_append, length_appendU32, Nat.reduceAdd] at hd
  have hsz : (Span.of (encodeSyncPlan plan)).size = 12 + r.length := by rw [he]; simp; omega
  have h0 : (Span.of (encodeSyncPlan plan)).getU32 0 = UInt32.ofNat plan.uploadPaths.length := by
    rw [he, getU32_appendU32]
  have h4 : (Span.of (encodeSyncPlan plan)).getU32 4 = plan.unchangedCount := by
    rw [he]; simp [getU32_append_right]
  have h8 : (Span.of (encodeSyncPlan plan)).getU32 8 = plan.serverOnlyCount := by
    rw [he]; simp [getU32_append_right]
  simp only [decodeSyncPlan, h0, h4, h8, hcount, kSyncPlanPrefixSize, hd, hsz]
  rw [if_neg (by omega), if_neg (by omega), if_neg (by omega)]

theorem decodeSyncResult_encode (code : SyncResultCode) :
    decodeSyncResult (.of (encodeSyncResult code)) = .ok code := by
  cases code <;> rfl

/-! ## Canonical payloads -/

theorem appendPath_decodePath {payload : Span} {offset next : Nat} {path : List UInt8}
    (h : decodePath payload offset = .ok (path, next)) :
    next = offset + (2 + path.length) ∧ appendPath path = some (payload.slice offset (2 + path.length)) := by
  have hsafe := safe_of_decodePath h
  unfold decodePath at h
  split at h
  · cases h
  · simp only at h
    split at h
    · cases h
    · split at h
      · cases h
      · split at h
        · cases h
          rw [appendPath_eq hsafe, Span.length_slice, UInt16.ofNat_toNat, appendU16_getU16,
            slice_append_slice]
          exact ⟨by omega, rfl⟩
        · cases h

/-- Encoding the entries that were decoded gives the bytes they were decoded from. -/
theorem encodeEntries_decode {α : Type} (key head : α → List UInt8) {payload : Span} {n : Nat}
    {make : Nat → List UInt8 → α} (hkey : ∀ offset path, key (make offset path) = path)
    (hhead : ∀ offset path, head (make offset path) = payload.slice offset n) {count offset : Nat}
    {previous : List UInt8} {xs : List α} {last : Nat}
    (h : decodeEntries payload n make count offset previous = .ok (xs, last)) :
    ∃ k, last = offset + k ∧ encodeEntries key head previous xs = some (payload.slice offset k) := by
  induction count generalizing offset previous xs last with
  | zero => cases h; exact ⟨0, rfl, rfl⟩
  | succ count ih =>
    rw [decodeEntries] at h
    split at h
    · cases h
    · split at h
      · cases h
      · next path next hpath =>
        obtain ⟨rfl, happ⟩ := appendPath_decodePath hpath
        split at h
        · next hafter =>
          split at h
          · cases h
          · next xs' last' hrest =>
            cases h
            obtain ⟨k, rfl, hk⟩ := ih hrest
            refine ⟨n + (2 + path.length) + k, by omega, ?_⟩
            rw [encodeEntries, hkey, if_pos hafter, happ, hk, hhead]
            simp only [Option.map_some, Option.some.injEq]
            rw [slice_append_slice, slice_append_slice, Nat.add_assoc n]
        · cases h

theorem encodeManifest_ne_nil_iff {files : List FileRecord} (hlen : files.length < 2 ^ 32) :
    encodeManifest files ≠ [] ↔ SortedRecords files ∧ ∀ f ∈ files, isSafeRemotePath f.path = true := by
  rcases encodeManifest_cases files with ⟨he, hn⟩ | ⟨r, -, -, hl, -, hsafe, hsorted⟩
  · refine iff_of_false (not_not.mpr he) fun h => hn ⟨by omega, h.2, h.1⟩
  · refine iff_of_true (fun he => ?_) ⟨hsorted, hsafe⟩
    rw [he, manifestSize] at hl
    simp at hl
    omega

theorem decodeManifest_tooMany {files : List FileRecord} {maxEntries : Nat} (h : encodeManifest files ≠ [])
    (hmax : maxEntries < files.length) :
    decodeManifest (.of (encodeManifest files)) maxEntries = .error .tooManyEntries := by
  rcases encodeManifest_cases files with ⟨he, -⟩ | ⟨r, -, he, -, hlen, -, -⟩
  · exact absurd he h
  · have hcount : (UInt32.ofNat files.length).toNat = files.length := by
      rw [UInt32.toNat_ofNat']; omega
    rw [he]
    simp only [decodeManifest, getU32_appendU32, hcount, kManifestCountSize, Span.size_of,
      List.length_append, length_appendU32]
    rw [if_neg (by omega), if_pos hmax]

theorem encodeManifest_decode {payload : List UInt8} {maxEntries : Nat} {files : FileManifest}
    (h : decodeManifest (.of payload) maxEntries = .ok files) : encodeManifest files = payload := by
  unfold decodeManifest at h
  split at h
  · cases h
  · simp only at h
    split at h
    · cases h
    · split at h
      · cases h
      · next files' offset hd =>
        split at h
        · cases h
        · next hsize =>
          cases h
          have hlen := (decodeEntries_sorted (fun f : FileRecord => f.path) (fun _ _ => rfl) hd).1
          obtain ⟨k, rfl, hk⟩ := encodeEntries_decode (fun f : FileRecord => f.path)
            (fun f => appendU64 f.size ++ appendU32 f.checksum) (fun _ _ => rfl)
            (fun offset path => by
              simp only [appendU64_getU64, appendU32_getU32]
              exact slice_append_slice _ offset 8 4) hd
          have hlt := ((Span.of payload).getU32 0).toNat_lt
          rw [not_not, Span.size_of, kManifestCountSize] at hsize
          rw [kManifestCountSize] at hk
          rw [encodeManifest, if_neg (by omega), hk]
          simp only [hlen, UInt32.ofNat_toNat, appendU32_getU32]
          rw [slice_append_slice _ 0 4, slice_self _ hsize]

theorem encodeSyncPlan_ne_nil_iff {plan : SyncPlan} (hlen : plan.uploadPaths.length < 2 ^ 32) :
    encodeSyncPlan plan ≠ [] ↔
      plan.uploadPaths.Pairwise (· < ·) ∧ ∀ p ∈ plan.uploadPaths, isSafeRemotePath p = true := by
  constructor
  · intro h
    by_contra hn
    apply h
    rw [encodeSyncPlan, if_neg (by omega)]
    cases he : encodeEntries id (fun _ => []) [] plan.uploadPaths with
    | none => rfl
    | some r =>
      obtain ⟨h1, h2, -⟩ := (encodeEntries_isSome_iff id (fun _ => []) [] plan.uploadPaths).mp ⟨r, he⟩
      exact absurd ⟨h2, h1⟩ hn
  · rintro ⟨hsorted, hsafe⟩ he
    obtain ⟨r, -, -, hl⟩ := encodeSyncPlan_eq (by omega) hsafe hsorted
    rw [he, planSize] at hl
    simp at hl
    omega

theorem decodeSyncPlan_tooMany {plan : SyncPlan} {maxEntries : Nat} (hlen : plan.uploadPaths.length < 2 ^ 32)
    (h : encodeSyncPlan plan ≠ []) (hmax : maxEntries < plan.uploadPaths.length) :
    decodeSyncPlan (.of (encodeSyncPlan plan)) maxEntries = .error .tooManyEntries := by
  obtain ⟨hsorted, hsafe⟩ := (encodeSyncPlan_ne_nil_iff hlen).mp h
  obtain ⟨r, -, he, -⟩ := encodeSyncPlan_eq (by omega) hsafe hsorted
  have hcount : (UInt32.ofNat plan.uploadPaths.length).toNat = plan.uploadPaths.length := by
    rw [UInt32.toNat_ofNat']; omega
  rw [he]
  simp only [decodeSyncPlan, getU32_appendU32, hcount, kSyncPlanPrefixSize, Span.size_of,
    List.length_append, length_appendU32]
  rw [if_neg (by omega), if_pos hmax]

/-- What `decode_sync_plan` accepts is strictly sorted and safe, and encodes to the same payload. -/
theorem encodeSyncPlan_decode {payload : List UInt8} {maxEntries : Nat} {plan : SyncPlan}
    (h : decodeSyncPlan (.of payload) maxEntries = .ok plan) :
    plan.uploadPaths.Pairwise (· < ·) ∧ (∀ p ∈ plan.uploadPaths, isSafeRemotePath p = true) ∧
      encodeSyncPlan plan = payload := by
  unfold decodeSyncPlan at h
  split at h
  · cases h
  · simp only at h
    split at h
    · cases h
    · split at h
      · cases h
      · next paths offset hd =>
        split at h
        · cases h
        · next hsize =>
          cases h
          obtain ⟨hlen, hsafe, hsorted, -⟩ := decodeEntries_sorted id (fun _ _ => rfl) hd
          obtain ⟨k, rfl, hk⟩ := encodeEntries_decode id (fun _ => []) (fun _ _ => rfl)
            (fun offset path => rfl) hd
          have hlt := ((Span.of payload).getU32 0).toNat_lt
          refine ⟨hsorted, hsafe, ?_⟩
          rw [not_not, Span.size_of, kSyncPlanPrefixSize] at hsize
          rw [kSyncPlanPrefixSize] at hk
          rw [encodeSyncPlan]
          simp only
          rw [if_neg (by omega), hk]
          simp only [hlen, UInt32.ofNat_toNat, appendU32_getU32]
          rw [slice_append_slice _ 8 4, slice_append_slice _ 4 4, slice_append_slice _ 0 4,
            slice_self _ (by omega)]

/-- **The payloads of a sync.**  Encoders and decoders are inverse to each other: what can be encoded
is what is strictly sorted and safe, and so is what is accepted. -/
theorem syncPayloads_canonical :
    (∀ (files : List FileRecord) (maxEntries : Nat), files.length < 2 ^ 32 →
      (encodeManifest files ≠ [] ↔ SortedRecords files ∧ ∀ f ∈ files, isSafeRemotePath f.path = true) ∧
      (encodeManifest files ≠ [] → decodeManifest (.of (encodeManifest files)) maxEntries =
        if files.length ≤ maxEntries then .ok files else .error .tooManyEntries)) ∧
    (∀ payload maxEntries files, decodeManifest (.of payload) maxEntries = .ok files →
      SortedRecords files ∧ (∀ f ∈ files, isSafeRemotePath f.path = true) ∧ encodeManifest files = payload) ∧
    (∀ (plan : SyncPlan) (maxEntries : Nat), plan.uploadPaths.length < 2 ^ 32 →
      (encodeSyncPlan plan ≠ [] ↔
        plan.uploadPaths.Pairwise (· < ·) ∧ ∀ p ∈ plan.uploadPaths, isSafeRemotePath p = true) ∧
      (encodeSyncPlan plan ≠ [] → decodeSyncPlan (.of (encodeSyncPlan plan)) maxEntries =
        if plan.uploadPaths.length ≤ maxEntries then .ok plan else .error .tooManyEntries)) ∧
    (∀ payload maxEntries plan, decodeSyncPlan (.of payload) maxEntries = .ok plan →
      plan.uploadPaths.Pairwise (· < ·) ∧ (∀ p ∈ plan.uploadPaths, isSafeRemotePath p = true) ∧
        encodeSyncPlan plan = payload) := by
  refine ⟨fun files maxEntries hlen => ⟨encodeManifest_ne_nil_iff hlen, fun hne => ?_⟩, fun _ _ _ h => ?_,
    fun plan maxEntries hlen => ⟨encodeSyncPlan_ne_nil_iff hlen, fun hne => ?_⟩,
    fun _ _ _ => encodeSyncPlan_decode⟩
  · split
    · next hmax => exact decodeManifest_encode hne hmax
    · next hmax => exact decodeManifest_tooMany hne (Nat.not_le.mp hmax)
  · obtain ⟨-, hsafe, hsorted⟩ := decodeManifest_sorted h
    exact ⟨hsorted, hsafe, encodeManifest_decode h⟩
  · obtain ⟨hsorted, hsafe⟩ := (encodeSyncPlan_ne_nil_iff hlen).mp hne
    split
    · next hmax => exact decodeSyncPlan_encode (by omega) hmax hsafe hsorted
    · next hmax => exact decodeSyncPlan_tooMany hlen hne (Nat.not_le.mp hmax)

end SyncWire
