import SyncWire.Sync.Guarantee

/-!
# Whole runs of `receive_directory_sync`

What the guarantee of single steps says about a run from its first step to wherever it
stops, against any client and any failures.

* `receiveDirectorySync_sound`: a `Success` is true, and so is a `DestinationChanged`.
* `receiveDirectorySync_keeps`: files that are not planned stay as they are.
-/

namespace SyncWire

open Wire Effect Posix Posix.Fs FileTransfer

namespace DirectorySync

/-- What a sync with these planned paths leaves alone: outside the state directory everything that
is not planned stays as it is, but missing directories on the way may appear; and nothing at all
disappears. -/
structure Kept (root : Path) (planned : List (List UInt8)) (fs fs' : Fs) : Prop where
  unplanned : ∀ p, ¬ root ++ [kPartialDirectory] <+: p → (∀ path ∈ planned, p ≠ root ++ components path) →
    (fs'.node p = fs.node p ∧ fs'.fileAt p = fs.fileAt p) ∨
      (fs.node p = none ∧ fs'.node p = some .dir ∧
        (p <+: root ∨ ∃ path ∈ planned, p <+: root ++ components path))
  remains : ∀ p, ¬ root ++ [kPartialDirectory] <+: p → fs.node p ≠ none → fs'.node p ≠ none

section
variable {root : Path} {planned : List (List UInt8)} {fs fs' : Fs}

theorem Kept.refl (root : Path) (planned : List (List UInt8)) (fs : Fs) : Kept root planned fs fs :=
  ⟨fun _ _ _ => .inl ⟨rfl, rfl⟩, fun _ _ h => h⟩

theorem Kept.trans {fs'' : Fs} (h : Kept root planned fs fs') (h' : Kept root planned fs' fs'') :
    Kept root planned fs fs'' := by
  refine ⟨fun p hst hpl => ?_, fun p hst hne => h'.remains p hst (h.remains p hst hne)⟩
  rcases h.unplanned p hst hpl with ⟨h1, h2⟩ | ⟨h1, h2, h3⟩
  · rcases h'.unplanned p hst hpl with ⟨h4, h5⟩ | ⟨h4, h5, h6⟩
    · exact .inl ⟨h4.trans h1, h5.trans h2⟩
    · exact .inr ⟨h1 ▸ h4, h5, h6⟩
  · rcases h'.unplanned p hst hpl with ⟨h4, -⟩ | ⟨h4, -, -⟩
    · exact .inr ⟨h1, h4.trans h2, h3⟩
    · rw [h2] at h4
      cases h4

theorem MadeDir.kept {q : Path} (hq : q <+: root) (h : MadeDir q fs fs') : Kept root planned fs fs' := by
  refine ⟨fun p _ _ => ?_, fun p _ hne => ?_⟩
  · by_cases hp : p = q
    · subst hp
      exact .inr ⟨h.1, by rw [h.2.1, Function.update_self], .inl hq⟩
    · exact .inl ⟨by rw [h.2.1, Function.update_of_ne hp], h.fileAt_eq p⟩
  · rw [h.2.1, Function.update_apply]
    split
    · exact Option.some_ne_none _
    · exact hne

theorem Kept.mono {planned' : List (List UInt8)} (h : Kept root planned fs fs')
    (hsub : ∀ path ∈ planned, path ∈ planned') : Kept root planned' fs fs' := by
  refine ⟨fun p hst hpl => ?_, h.remains⟩
  refine (h.unplanned p hst fun path hpath => hpl path (hsub path hpath)).imp_right ?_
  rintro ⟨h1, h2, h3 | ⟨path, hpath, hp⟩⟩
  · exact ⟨h1, h2, .inl h3⟩
  · exact ⟨h1, h2, .inr ⟨path, hsub path hpath, hp⟩⟩

end

end DirectorySync

namespace Upload

open DirectorySync

variable {u : Upload} {start log : List net.Event} {fs fs' : Fs} {w w' : World}

theorem ne_part_of_outside {p : Path} (hst : ¬ u.stateRoot <+: p) : p ≠ u.partPath := by
  rintro rfl
  exact hst (List.prefix_append _ _)

theorem Change.kept (h : u.Change log fs fs') : Kept u.root [u.metadata.filename] fs fs' := by
  refine ⟨fun p (hst : ¬ u.stateRoot <+: p) hpl => ?_, fun p (hst : ¬ u.stateRoot <+: p) hne => ?_⟩
  · have hpart := ne_part_of_outside hst
    rcases h.node_cases hpart with hn | ⟨h1, h2, hway⟩
    · exact .inl ⟨hn, h.fileAt_eq hpart⟩
    · refine .inr ⟨h1, h2, .inr ⟨_, List.mem_singleton_self _, ?_⟩⟩
      rcases hway with ⟨t, -, ht⟩ | rfl
      · exact ⟨t, ht⟩
      · exact absurd (List.prefix_refl _) hst
  · rcases h.node_cases (ne_part_of_outside hst) with hn | ⟨-, h2, -⟩
    · rwa [hn]
    · rw [h2]
      exact Option.some_ne_none _

theorem Committed.kept (h : u.Committed fs fs') : Kept u.root [u.metadata.filename] fs fs' := by
  refine ⟨fun p (hst : ¬ u.stateRoot <+: p) hpl => ?_, fun p (hst : ¬ u.stateRoot <+: p) hne => ?_⟩
  · have hfinal : p ≠ u.finalPath := hpl _ (List.mem_singleton_self _)
    exact .inl ⟨h.node_eq (ne_part_of_outside hst) hfinal, h.fileAt_eq (ne_part_of_outside hst) hfinal⟩
  · by_cases hp : p = u.finalPath
    · obtain ⟨C, -, hC, -⟩ := h.final
      obtain ⟨i, hi, -⟩ := fileAt_eq_some.mp hC
      rw [hp, hi]
      exact Option.some_ne_none _
    · rwa [h.node_eq (ne_part_of_outside hst) hp]

theorem Guarantee.kept (h : u.Guarantee start w w') : Kept u.root [u.metadata.filename] w.host.fs w'.host.fs := by
  obtain ⟨e, -, hren, hcom, hchg, -⟩ := h
  by_cases hr : u.Renamed start w.log
  · rw [(hren hr).1]
    exact .refl _ _ _
  · by_cases he : e = u.renameDone
    · exact (hcom hr he).kept
    · exact (hchg hr he).kept

end Upload

namespace DirectorySync

section
variable {fs fs' : Fs}

namespace Sync

variable {s : Sync} {u : Upload} {log : List net.Event} {w w' : World}

theorem Planned.mem (hu : s.Planned log u) : u.metadata.filename ∈ s.plan.uploadPaths := by
  obtain ⟨i, hi, -⟩ := hu.index
  exact List.mem_of_getElem? hi

/-- An upload touches its own path only. -/
theorem Planned.kept (hu : s.Planned log u) (h : Kept u.root [u.metadata.filename] fs fs') :
    Kept s.root s.plan.uploadPaths fs fs' :=
  hu.root ▸ h.mono fun _ hpath => List.mem_singleton.mp hpath ▸ hu.mem

theorem Change.kept (h : s.Change log fs fs') : Kept s.root s.plan.uploadPaths fs fs' := by
  cases h with
  | same h => rw [h]; exact .refl _ _ _
  | makeRoot p hp h => exact MadeDir.kept hp h
  | upload u hsent hu h => exact hu.kept h.kept
  | commit u hsent hu h => exact hu.kept h.kept

/-- Before the plan is sent there are no uploads. -/
theorem Change.kept_unsent (h : s.Change log fs fs') (hn : ¬ s.PlanSent log) : Kept s.root [] fs fs' := by
  cases h with
  | same h => rw [h]; exact .refl _ _ _
  | makeRoot p hp h => exact MadeDir.kept hp h
  | upload u hsent hu h => exact absurd hsent hn
  | commit u hsent hu h => exact absurd hsent hn

end Sync

end

/-! ## `receive_directory_sync` -/

section
variable {cr : Crypto} {manifest : Frame} {root : Path} {limits : DirectorySyncLimits} {w : World}

/-- Nothing is done. -/
theorem receiveDirectorySync_error {error : SyncCodecError}
    (hd : decodeManifest (.of manifest.payload) limits.scan.maxEntries = .error error) :
    Safe (solo (exec cr) anyAnswer) (fun _ _ => False) (receiveDirectorySync manifest root limits) w
      fun r _ => r.ok = false := by
  unfold receiveDirectorySync
  simp only [hd]
  split <;> exact safe_pure rfl

/-- The sync that a decoded manifest asks for. -/
abbrev syncOf (cr : Crypto) (manifest : Frame) (root : Path) (limits : DirectorySyncLimits)
    (source : FileManifest) (w : World) : Sync where
  cr
  root
  requestId := manifest.header.requestId
  limits
  source
  plan := buildSyncPlan source (listing w.host.fs root)
  start := w.log

theorem receiveDirectorySync_safely {source : FileManifest} (hroot : w.host.fs.Plain root)
    (hd : decodeManifest (.of manifest.payload) limits.scan.maxEntries = .ok source) :
    (syncOf cr manifest root limits source w).Safely (receiveDirectorySync manifest root limits) w
      fun r w' => r.ok = true → (syncOf cr manifest root limits source w).Done r w' := by
  obtain ⟨-, hsafe, hs⟩ := decodeManifest_sorted hd
  unfold receiveDirectorySync
  simp only [hd]
  split
  · exact safe_pure (stopped rfl)
  · split
    · exact safe_pure (stopped rfl)
    · exact Sync.receiveManifest_safely (s := syncOf cr manifest root limits source w) hs hsafe hroot rfl
        (List.prefix_refl _)

/-- `receive_directory_sync`, with the manifest received. -/
theorem receiveDirectorySync_served {manifest : WireFrame} (hroot : w.host.fs.Plain root)
    (hmem : manifest ∈ received w.log) (ht : manifest.1.header.messageType = .syncManifest) :
    Safe (solo (exec cr) anyAnswer) (Served cr root limits.transfer)
      (receiveDirectorySync manifest.1 root limits) w fun _ _ => True := by
  cases hd : decodeManifest (.of manifest.1.payload) limits.scan.maxEntries with
  | error error =>
    exact safe_mono (safe_weaken (receiveDirectorySync_error hd) fun _ _ h => h.elim) fun _ _ _ => trivial
  | ok source =>
    have hkeep := (@receiveDirectorySync_safely cr _ _ _ _ _ hroot hd).keeps
      (fun v => Promised manifest.1.header.requestId source v.log) ⟨manifest, hmem, ht, rfl, _, hd⟩ ?_
    · exact safe_mono (safe_weaken hkeep fun _ _ h => h.2.served h.1) fun _ _ _ => trivial
    · rintro a b ha ⟨e, hl, -⟩
      rw [hl]
      exact ha.push e

/-- **Sound results.**  Whatever the tree, the manifest, the client and the failures: when a
`SyncResult` is sent the manifest was decoded, nothing but reading has happened since the last frame
arrived, and for `Success` every record is in the tree as a regular file of its size and checksum,
for `DestinationChanged` some record is not.  The root is spelled without symbolic links above it (`Plain`). -/
theorem receiveDirectorySync_sound {c c' : Side net Host DirectorySyncResult} {f : WireFrame}
    (hroot : w.host.fs.Plain root)
    (hr : Reach (solo (exec cr) anyAnswer) (receiveDirectorySync manifest root limits, w) c)
    (hs : Step (solo (exec cr) anyAnswer) c c') (hf : sent c'.2.log = sent c.2.log ++ [f])
    (ht : f.1.header.messageType = .syncResult) :
    ∃ source, decodeManifest (.of manifest.payload) limits.scan.maxEntries = .ok source ∧ OnlyRead c.2.log ∧
      (f.1.payload = encodeSyncResult .success → ∀ r ∈ source, Present c.2.host.fs root r) ∧
      (f.1.payload = encodeSyncResult .destinationChanged → ∃ r ∈ source, ¬ Present c.2.host.fs root r) := by
  have hstay : c'.2 ≠ c.2 := by
    intro h
    rw [h] at hf
    simp at hf
  cases hd : decodeManifest (.of manifest.payload) limits.scan.maxEntries with
  | error error =>
    rcases (receiveDirectorySync_error hd).step hr hs with h | h
    · exact h.elim
    · exact absurd h hstay
  | ok source =>
    refine ⟨source, rfl, ?_⟩
    rcases (receiveDirectorySync_safely hroot hd).step hr hs with ⟨e, hl, -, hreply⟩ | h
    · rw [hl, sent_append] at hf
      obtain ⟨r, rfl⟩ := eq_of_sent (List.append_cancel_left hf)
      cases hreply f r rfl with
      | plan ht' => cases ht.symm.trans ht'
      | upload ht' _ => rcases ht' with h | h | h <;> cases ht.symm.trans h
      | result code _ _ hp hread hcode =>
        refine ⟨hread, fun h => ?_, fun h => ?_⟩
        · cases code with
          | success => exact hcode.mp rfl
          | destinationChanged => cases hp.symm.trans h
        · cases code with
          | success => cases hp.symm.trans h
          | destinationChanged =>
            by_contra hn
            cases hcode.mpr fun r hr => by_contra fun hp => hn ⟨r, hr, hp⟩
    · exact absurd h hstay

/-! A sync of one file to a directory that holds another. -/

def sampleManifest : Frame := makeFrame .syncManifest 6 (encodeManifest [⟨bytesOf "a", 3, 891568578⟩])

/-- `d` with the file `d/k` in it. -/
def sampleTree : Fs :=
  (sampleMade.create (sampleRoot ++ [bytesOf "k"]) 1000 (by decide)).setData 0 (bytesOf "k")

def sampleSyncFrames : List WireFrame :=
  ⟨sampleRequest, makeFrame_valid (by decide) (by decide)⟩ ::
    sampleFrames ++ [⟨makeFrame .syncComplete 6 [], makeFrame_valid (by decide) (by decide)⟩]

def sampleServer : World := ⟨{ sampleHost with fs := sampleTree }, []⟩

/-- The server after `n` steps. -/
def sampleSync (limits : DirectorySyncLimits) (n : Nat) : Sys DirectorySyncResult × World :=
  runAgainst sampleCrypto sampleSyncFrames n (receiveDirectorySync sampleManifest sampleRoot limits) sampleServer

theorem reach_sampleSync (limits : DirectorySyncLimits) (n : Nat) :
    Reach (solo (exec sampleCrypto) anyAnswer)
      (receiveDirectorySync sampleManifest sampleRoot limits, sampleServer) (sampleSync limits n) :=
  reach_runAgainst _ _ _ _ _

theorem step_sampleSync {limits : DirectorySyncLimits} {n : Nat}
    (h : (sampleSync limits (n + 1)).2.log.length ≠ (sampleSync limits n).2.log.length) :
    Step (solo (exec sampleCrypto) anyAnswer) (sampleSync limits n) (sampleSync limits (n + 1)) :=
  step_runAgainst _ _ _ _ _ h

theorem sampleServer_plain : sampleServer.host.fs.Plain sampleRoot := plain_of_dir (p := sampleRoot) (node_nil _)

theorem decode_sampleManifest :
    decodeManifest (.of sampleManifest.payload) 4096 = .ok [⟨bytesOf "a", 3, 891568578⟩] := by decide +kernel

theorem sampleSync_sound : Present (sampleSync {} 63).2.host.fs sampleRoot ⟨bytesOf "a", 3, 891568578⟩ := by
  obtain ⟨source, hd, -, hsuccess, -⟩ := receiveDirectorySync_sound
    (f := ⟨makeFrame .syncResult 6 (encodeSyncResult .success), makeFrame_valid (by decide) (by decide)⟩)
    sampleServer_plain (reach_sampleSync {} 63) (step_sampleSync (by decide +kernel)) (by decide +kernel) rfl
  obtain rfl := Except.ok.inj (decode_sampleManifest.symm.trans hd)
  -- the run stays folded
  generalize sampleSync {} 63 = c at hsuccess ⊢
  exact hsuccess rfl _ (List.mem_singleton_self _)

/-- **Frame property.**  Whatever the tree, the manifest, the client and the failures, at every point
of a run: a manifest that is not decoded changes nothing, before the plan is sent nothing but the root
is made, and after that all that is not planned stays as it is, but for missing directories on the way
to planned paths.  Here, too, the root is `Plain`. -/
theorem receiveDirectorySync_keeps {c : Side net Host DirectorySyncResult} (hroot : w.host.fs.Plain root)
    (hr : Reach (solo (exec cr) anyAnswer) (receiveDirectorySync manifest root limits, w) c) :
    match decodeManifest (.of manifest.payload) limits.scan.maxEntries with
    | .error _ => c.2.host.fs = w.host.fs
    | .ok source =>
      let s := syncOf cr manifest root limits source w
      Kept root s.plan.uploadPaths w.host.fs c.2.host.fs ∧
        (¬ s.PlanSent c.2.log → Kept root [] w.host.fs c.2.host.fs) := by
  split
  · next error hd =>
    exact (receiveDirectorySync_error hd).reach (fun w' => w'.host.fs = w.host.fs) rfl
      (fun _ _ _ h => h.elim) hr
  · next source hd =>
    refine (receiveDirectorySync_safely hroot hd).reach
      (fun w' => Kept root (syncOf cr manifest root limits source w).plan.uploadPaths w.host.fs w'.host.fs ∧
        (¬ (syncOf cr manifest root limits source w).PlanSent w'.log → Kept root [] w.host.fs w'.host.fs))
      ⟨.refl _ _ _, fun _ => .refl _ _ _⟩ ?_ hr
    rintro a b ⟨h1, h2⟩ ⟨e, hl, hchg, -⟩
    refine ⟨h1.trans hchg.kept, fun hn => ?_⟩
    have hn' : ¬ (syncOf cr manifest root limits source w).PlanSent a.log := fun h => hn (hl ▸ h.push e)
    exact (h2 hn').trans (hchg.kept_unsent hn')

theorem sampleSync_keeps :
    (sampleSync {} 63).2.host.fs.fileAt (sampleRoot ++ [bytesOf "k"]) = some (bytesOf "k") := by
  have h := receiveDirectorySync_keeps sampleServer_plain (reach_sampleSync {} 63)
  rw [show decodeManifest (.of sampleManifest.payload) ({} : DirectorySyncLimits).scan.maxEntries = _ from
    decode_sampleManifest] at h
  have hk : sampleServer.host.fs.fileAt (sampleRoot ++ [bytesOf "k"]) = some (bytesOf "k") := by decide +kernel
  rcases h.1.unplanned (sampleRoot ++ [bytesOf "k"]) (by decide +kernel) (by decide +kernel) with
    ⟨-, hfile⟩ | ⟨hnone, -⟩
  · generalize sampleSync {} 63 = c at hfile ⊢
    exact hfile.trans hk
  · exact absurd hnone (by decide +kernel)

end

end DirectorySync

end SyncWire
