import SyncWire.Server.Sessions

/-!
# The destination under concurrent sessions

What clients and readers of the destination can rely on while any number of sessions
run side by side, at every moment and wherever the server is stopped.

* `deployments_within_limits`: partial storage stays within its limits.
* `sessions_never_tear`: outside the state directory a path holds what it held, or a complete
  file.
* `sessions_confined`: nothing outside of the root is touched, and nothing disappears.
* `sessions_truthful`: what a session has reported to its client as stored is there, or was
  replaced by another complete file.
-/

namespace SyncWire

open Wire Effect Posix Posix.Fs FileTransfer DirectorySync

/-! ## Partial storage -/

section
variable {cr : Crypto} {root : Path} {limits : TransferLimits} {log : List net.Event} {fs fs' : Fs}

theorem MadeDir.within {p : Path} (hp : p <+: root) (h : MadeDir p fs fs')
    (hw : WithinLimits (root ++ [kPartialDirectory]) limits fs) :
    WithinLimits (root ++ [kPartialDirectory]) limits fs' := by
  have hne : ∀ n, root ++ [kPartialDirectory] ++ [n] ≠ p := by
    rintro n rfl
    have := hp.length_le
    simp at this
  refine hw.mono (fun n hn => ?_) fun n => (sizeAt_congr (h.fileAt_eq _)).le
  rw [mem_names, h.2.1, Function.update_of_ne (hne n)] at hn
  exact mem_names.mpr hn

theorem Mutation.within (h : Mutation cr root limits log fs fs')
    (hw : WithinLimits (root ++ [kPartialDirectory]) limits fs) :
    WithinLimits (root ++ [kPartialDirectory]) limits fs' := by
  cases h with
  | same h => rwa [h]
  | makeRoot p hp h => exact MadeDir.within hp h hw
  | upload u hu h =>
    have hst : u.stateRoot = root ++ [kPartialDirectory] := by rw [Upload.stateRoot, hu.root]
    rw [← hst, ← hu.limits] at hw ⊢
    exact h.within hu.safe hw
  | commit u hu h =>
    have hst : u.stateRoot = root ++ [kPartialDirectory] := by rw [Upload.stateRoot, hu.root]
    rw [← hst, ← hu.limits] at hw ⊢
    exact h.within hu.safe hw

end

/-- A server that is started on a file system, and stopped or killed anywhere. -/
def Deployed (cr : Crypto) (root : Path) (secret : List UInt8) (fs fs' : Fs) : Prop :=
  ∃ (host : Host) (s : Pool Nat net Host ClientSessionResult),
    host.fs = fs ∧ ServerRuns cr root secret host s ∧ s.host.fs = fs'

/-- **Partial storage.**  Over any number of servers, started one after the other on the same destination and
killed anywhere, each with any number of concurrent uploads and synchronizations: the state directory is within
the limits at every moment.  The root is spelled without symbolic links above it (`Plain`) when the first one
starts. -/
theorem deployments_within_limits (cr : Crypto) {root : Path} {secret : List UInt8} {fs fs' : Fs}
    (hroot : fs.Plain root) (hw : WithinLimits (root ++ [kPartialDirectory]) {} fs)
    (h : Relation.ReflTransGen (Deployed cr root secret) fs fs') :
    WithinLimits (root ++ [kPartialDirectory]) {} fs' := by
  have key : fs'.Plain root ∧ WithinLimits (root ++ [kPartialDirectory]) {} fs' := by
    induction h with
    | refl => exact ⟨hroot, hw⟩
    | tail _ hd ih =>
      obtain ⟨host, s, rfl, hr, rfl⟩ := hd
      refine hr.invariant
        (I := fun h _ => h.fs.Plain root ∧ WithinLimits (root ++ [kPartialDirectory]) {} h.fs) ih.1 ?_ ?_ ih
      · rintro i log w w' - ⟨e, -, hm, -⟩ ⟨hp, hw⟩
        exact ⟨hm.grows.plain hp, hm.within hw⟩
      · exact fun _ _ _ _ h => h
  exact key.2

/-- In the middle of an upload. -/
theorem samplePool_within_limits :
    WithinLimits (sampleRoot ++ [kPartialDirectory]) {} (samplePool 25).host.fs ∧
      (samplePool 25).host.fs.names (sampleRoot ++ [kPartialDirectory]) ≠ ∅ :=
  ⟨deployments_within_limits sampleCrypto sampleRoot_plain (by unfold WithinLimits; decide +kernel)
    (.single ⟨sampleHost, samplePool 25, rfl, samplePool_runs 25, rfl⟩), by decide +kernel⟩

/-! ## Files -/

/-- The frame asks for an upload with these metadata. -/
def Requests (f : WireFrame) (metadata : UploadMetadata) : Prop :=
  f.1.header.messageType = .uploadRequest ∧ decodeUploadMetadata (.of f.1.payload) = .ok metadata

/-- A complete file: of the size and the checksum that one of the frames declared for this path. -/
def Complete (root : Path) (frames : WireFrame → Prop) (fs : Fs) (p : Path) : Prop :=
  ∃ f metadata C, frames f ∧ Requests f metadata ∧ p = root ++ components metadata.filename ∧
    fs.fileAt p = some C ∧ C.length = metadata.fileSize.toNat ∧ crc32 C = metadata.checksum

section
variable {cr : Crypto} {root : Path} {limits : TransferLimits} {log : List net.Event} {fs fs' : Fs} {p : Path}
  {frames : WireFrame → Prop} {w w' : World}

theorem Complete.mono {frames' : WireFrame → Prop} (h : Complete root frames fs p)
    (hf : ∀ f, frames f → frames' f) :
    Complete root frames' fs p := by
  obtain ⟨f, metadata, C, hframe, hC⟩ := h
  exact ⟨f, metadata, C, hf f hframe, hC⟩

theorem Complete.congr (h : Complete root frames fs p) (hfile : fs'.fileAt p = fs.fileAt p) :
    Complete root frames fs' p := by
  obtain ⟨f, metadata, C, hframe, hreq, hp, hC⟩ := h
  exact ⟨f, metadata, C, hframe, hreq, hp, by rw [hfile]; exact hC⟩

theorem Requested.ne_partPath {u : Upload} (hu : Requested cr root limits log u)
    (hp : ¬ root ++ [kPartialDirectory] <+: p) : p ≠ u.partPath := by
  rintro rfl
  exact hp ⟨[u.partName], by rw [Upload.partPath, Upload.stateRoot, hu.root]⟩

/-- **A step of a session, seen by a reader**: outside the state directory a file stays as it is, or it is now a
complete one. -/
theorem Mutation.visible (h : Mutation cr root limits log fs fs') (hp : ¬ root ++ [kPartialDirectory] <+: p) :
    fs'.fileAt p = fs.fileAt p ∨ Complete root (· ∈ received log) fs' p := by
  cases h with
  | same h => exact .inl (by rw [h])
  | makeRoot q hq h => exact .inl (h.fileAt_eq p)
  | upload u hu h => exact .inl (h.fileAt_eq (hu.ne_partPath hp))
  | commit u hu h =>
    by_cases hfinal : p = u.finalPath
    · obtain ⟨C, -, hC, hlen, hsum⟩ := h.final
      obtain ⟨f, hf, ht, -, hd⟩ := hu.request
      refine .inr ⟨f, u.metadata, C, hf, ⟨ht, hd⟩, ?_, hfinal ▸ hC, hlen, hsum⟩
      rw [hfinal, Upload.finalPath, hu.root]
    · exact .inl (h.fileAt_eq (hu.ne_partPath hp) hfinal)

theorem Served.received (h : Served cr root limits w w') {f : WireFrame} (hf : f ∈ Effect.received w.log) :
    f ∈ Effect.received w'.log := by
  obtain ⟨e, hl, -⟩ := h
  rw [hl, received_append]
  exact List.mem_append_left _ hf

end

/-- A frame some session has received. -/
def ReceivedBy {ι : Type} (log : ι → List net.Event) (f : WireFrame) : Prop := ∃ i, f ∈ received (log i)

section
variable {ι : Type} [DecidableEq ι] {log : ι → List net.Event} {i : ι} {f : WireFrame}

theorem ReceivedBy.update (h : ReceivedBy log f) {l : List net.Event}
    (hl : ∀ f ∈ received (log i), f ∈ received l) :
    ReceivedBy (Function.update log i l) f := by
  obtain ⟨j, hj⟩ := h
  refine ⟨j, ?_⟩
  by_cases hij : j = i
  · subst hij
    rw [Function.update_self]
    exact hl f hj
  · rwa [Function.update_of_ne hij]

variable {cr : Crypto} {root : Path} {secret : List UInt8} {host : Host} {s : Pool ι net Host ClientSessionResult}

end

/-! ## Everything else -/

section
variable {cr : Crypto} {root : Path} {limits : TransferLimits} {log : List net.Event} {fs fs' : Fs}

/-- Outside of the root everything stays as it is, but missing directories on the way to it may appear; outside of
the state directory there is something wherever there was something, though not always the same. -/
structure Confined (root : Path) (fs fs' : Fs) : Prop where
  outside : ∀ p, ¬ root <+: p → (fs'.node p = fs.node p ∧ fs'.fileAt p = fs.fileAt p) ∨
    (fs.node p = none ∧ fs'.node p = some .dir ∧ p <+: root)
  remains : ∀ p, ¬ root ++ [kPartialDirectory] <+: p → fs.node p ≠ none → fs'.node p ≠ none

theorem Confined.refl (root : Path) (fs : Fs) : Confined root fs fs :=
  ⟨fun _ _ => .inl ⟨rfl, rfl⟩, fun _ _ h => h⟩

theorem Confined.trans {fs'' : Fs} (h : Confined root fs fs') (h' : Confined root fs' fs'') :
    Confined root fs fs'' := by
  refine ⟨fun p hp => ?_, fun p hp hne => h'.remains p hp (h.remains p hp hne)⟩
  rcases h.outside p hp with ⟨h1, h2⟩ | ⟨h1, h2, h3⟩
  · rcases h'.outside p hp with ⟨h4, h5⟩ | ⟨h4, h5, h6⟩
    · exact .inl ⟨h4.trans h1, h5.trans h2⟩
    · exact .inr ⟨h1 ▸ h4, h5, h6⟩
  · rcases h'.outside p hp with ⟨h4, -⟩ | ⟨h4, -, -⟩
    · exact .inr ⟨h1, h4.trans h2, h3⟩
    · rw [h2] at h4
      cases h4

/-- A path that is on the way to two paths below the root and not itself below it is above the root. -/
theorem prefix_root_of_way {p s : Path} {tail : Path} (hp : ¬ root <+: p) (he : p ++ s = root ++ tail) :
    p <+: root :=
  (List.prefix_or_prefix_of_prefix ⟨s, he⟩ (List.prefix_append root tail)).resolve_right hp

theorem Mutation.confined (h : Mutation cr root limits log fs fs') : Confined root fs fs' := by
  cases h with
  | same h => rw [h]; exact .refl _ _
  | makeRoot q hq h =>
    refine ⟨fun p _ => ?_, fun p _ hne => ?_⟩
    · by_cases hpq : p = q
      · subst hpq
        exact .inr ⟨h.1, by rw [h.2.1, Function.update_self], hq⟩
      · exact .inl ⟨by rw [h.2.1, Function.update_of_ne hpq], h.fileAt_eq p⟩
    · rw [h.2.1, Function.update_apply]
      split
      · exact Option.some_ne_none _
      · exact hne
  | upload u hu h =>
    refine ⟨fun p hp => ?_, fun p hp hne => ?_⟩
    · have hpart := hu.ne_partPath (p := p) fun hst => hp ((List.prefix_append _ _).trans hst)
      rcases h.node_cases hpart with hn | ⟨h1, h2, hway⟩
      · exact .inl ⟨hn, h.fileAt_eq hpart⟩
      · refine .inr ⟨h1, h2, ?_⟩
        rcases hway with ⟨s, -, he⟩ | rfl
        · rw [Upload.finalPath, hu.root] at he
          exact prefix_root_of_way hp he
        · rw [Upload.stateRoot, hu.root] at hp
          exact absurd (List.prefix_append _ _) hp
    · rcases h.node_cases (hu.ne_partPath hp) with hn | ⟨-, h2, -⟩
      · rwa [hn]
      · rw [h2]
        exact Option.some_ne_none _
  | commit u hu h =>
    refine ⟨fun p hp => ?_, fun p hp hne => ?_⟩
    · have hpart := hu.ne_partPath (p := p) fun hst => hp ((List.prefix_append _ _).trans hst)
      have hfinal : p ≠ u.finalPath := by
        rintro rfl
        exact hp ⟨_, by rw [Upload.finalPath, hu.root]⟩
      exact .inl ⟨h.node_eq hpart hfinal, h.fileAt_eq hpart hfinal⟩
    · by_cases hfinal : p = u.finalPath
      · obtain ⟨C, -, hC, -⟩ := h.final
        obtain ⟨i, hi, -⟩ := fileAt_eq_some.mp hC
        rw [hfinal, hi]
        exact Option.some_ne_none _
      · rwa [h.node_eq (hu.ne_partPath hp) hfinal]

variable {ι : Type} [DecidableEq ι] {secret : List UInt8} {host : Host} {s : Pool ι net Host ClientSessionResult}

/-- **Confinement.**  Whatever the clients send, no interleaving of sessions creates, changes or removes anything
outside of the root, except that the root itself and missing directories above it are made.  Inside, but for the
state directory, no path that was taken is ever free: what was there may have been replaced by an uploaded file,
links and special files included.  Directories stay directories and no link appears.  The root is spelled without
symbolic links above it (`Plain`). -/
theorem sessions_confined (hroot : host.fs.Plain root) (hr : ServerRuns cr root secret host s) :
    Confined root host.fs s.host.fs ∧ Grows host.fs s.host.fs := by
  refine hr.invariant (I := fun h _ => Confined root host.fs h.fs ∧ Grows host.fs h.fs) hroot ?_
    (fun _ _ _ _ h => h) ⟨.refl _ _, .refl _⟩
  rintro i log w w' - ⟨e, -, hm, -⟩ ⟨hc, hg⟩
  exact ⟨hc.trans hm.confined, hg.trans hm.grows⟩

theorem samplePool_confined : sampleHost.fs.node sampleRoot = none ∧
    (samplePool 37).host.fs.node sampleRoot = some .dir ∧
    Confined sampleRoot sampleHost.fs (samplePool 37).host.fs ∧ Grows sampleHost.fs (samplePool 37).host.fs :=
  ⟨by decide +kernel, by decide +kernel, sessions_confined sampleRoot_plain (samplePool_runs 37)⟩

end

/-! ## What was reported -/

/-- The record is in the tree, or a complete file has taken its place. -/
def Kept (root : Path) (frames : WireFrame → Prop) (fs : Fs) (r : FileRecord) : Prop :=
  Present fs root r ∨ Complete root frames fs (root ++ components r.path)

/-- What is asked for in the log under this type and id is kept. -/
def Upheld (root : Path) (frames : WireFrame → Prop) (log : List net.Event) (fs : Fs) (type : MessageType)
    (requestId : UInt64) : Prop :=
  ∃ request ∈ received log, request.1.header.messageType = type ∧ request.1.header.requestId = requestId ∧
    ∃ records, Asks request.1 records ∧ ∀ record ∈ records, Kept root frames fs record

/-- Whatever the session has reported is upheld. -/
def Truthful (root : Path) (frames : WireFrame → Prop) (log : List net.Event) (fs : Fs) : Prop :=
  ∀ f ∈ sent log, ∀ type, Reports f.1 type → Upheld root frames log fs type f.1.header.requestId

section
variable {cr : Crypto} {root : Path} {secret : List UInt8} {frames : WireFrame → Prop} {w w' : World}

/-- No record is below the state directory. -/
theorem safe_not_state {path : List UInt8} (h : isSafeRemotePath path = true) :
    ¬ root ++ [kPartialDirectory] <+: root ++ components path := by
  rintro ⟨t, ht⟩
  rw [List.append_assoc] at ht
  have hmem : kPartialDirectory ∈ components path := by
    rw [← List.append_cancel_left ht]
    exact List.mem_append_left _ (List.mem_singleton_self _)
  exact absurd (((isSafeRemotePath_iff _).mp h).2.2 _ hmem) (by decide)

theorem Asks.safe {f : Frame} {records : List FileRecord} (h : Asks f records) :
    ∀ record ∈ records, isSafeRemotePath record.path = true := by
  intro record hm
  rcases h with ⟨-, metadata, hd, rfl⟩ | ⟨-, maxEntries, hd⟩
  · obtain rfl := List.mem_singleton.mp hm
    exact safe_of_decodeUploadMetadata hd
  · exact (decodeManifest_sorted hd).2.1 record hm

theorem Kept.step {limits : TransferLimits} {record : FileRecord} (hsafe : isSafeRemotePath record.path = true)
    (h : Kept root frames w.host.fs record) (hs : Served cr root limits w w')
    (hframes : ∀ f ∈ received w'.log, frames f) : Kept root frames w'.host.fs record := by
  have hgrow : ∀ f ∈ received w.log, frames f := fun f hf => hframes f (hs.received hf)
  obtain ⟨e, -, hm, -⟩ := hs
  rcases hm.visible (safe_not_state hsafe) with hfile | hnew
  · rcases h with hp | hc
    · refine .inl ?_
      rw [Present, hfile]
      exact hp
    · exact .inr (hc.congr hfile)
  · exact .inr (hnew.mono hgrow)

/-- What was upheld before a step is upheld after it. -/
theorem Upheld.step {limits : TransferLimits} {log : List net.Event} {type : MessageType} {requestId : UInt64}
    (h : Upheld root frames log w.host.fs type requestId) (hs : Served cr root limits w w')
    (hframes : ∀ f ∈ received w'.log, frames f) : Upheld root frames log w'.host.fs type requestId := by
  obtain ⟨request, hm, ht, hid, records, hasks, hkept⟩ := h
  exact ⟨request, hm, ht, hid, records, hasks, fun record hrec =>
    (hkept record hrec).step (hasks.safe record hrec) hs hframes⟩

/-- What a session alone reports is true from then on. -/
theorem Truthful.step {limits : TransferLimits} (h : Truthful root frames w.log w.host.fs)
    (hs : Served cr root limits w w') (hframes : ∀ f ∈ received w'.log, frames f) :
    Truthful root frames w'.log w'.host.fs := by
  intro f hf type hrep
  have hserved := hs
  obtain ⟨e, hl, -, hv⟩ := hs
  have hgrow : ∀ request ∈ received w.log, request ∈ received w'.log := by
    intro request hm
    rw [hl, received_append]
    exact List.mem_append_left _ hm
  have hbefore : Upheld root frames w.log w.host.fs type f.1.header.requestId := by
    rw [hl, sent_append, List.mem_append] at hf
    rcases hf with hf | hf
    · exact h f hf type hrep
    · obtain ⟨r, rfl⟩ := eq_of_mem_sent hf
      obtain ⟨request, hm, ht, hid, records, hasks, hp⟩ := hv f r type rfl hrep
      exact ⟨request, hm, ht, hid, records, hasks, fun record hrec => .inl (hp record hrec)⟩
  obtain ⟨request, hm, hrest⟩ := hbefore.step hserved hframes
  exact ⟨request, hgrow request hm, hrest⟩

/-- A session alone upholds what others have reported. -/
theorem Upheld.alone {log : List net.Event} {type : MessageType} {requestId : UInt64}
    (hroot : w.host.fs.Plain root) (h : Upheld root frames log w.host.fs type requestId)
    {c : Side net Host ClientSessionResult}
    (hr : Reach (solo (exec cr) anyAnswer) (serveClientSession root secret, w) c)
    (hframes : ∀ f ∈ received c.2.log, frames f) : Upheld root frames log c.2.host.fs type requestId := by
  refine (serveClientSession_served hroot).reach
    (fun v => (∀ f ∈ received v.log, frames f) → Upheld root frames log v.host.fs type requestId)
    (fun _ => h) ?_ hr
    hframes
  intro v v' hv hs hf
  exact (hv fun f hm => hf f (hs.received hm)).step hs hf

/-- A session alone reports the truth. -/
theorem truthful_alone {host : Host} (hroot : host.fs.Plain root) {c : Side net Host ClientSessionResult}
    (hr : Reach (solo (exec cr) anyAnswer) (serveClientSession root secret, ⟨host, []⟩) c)
    (hframes : ∀ f ∈ received c.2.log, frames f) : Truthful root frames c.2.log c.2.host.fs := by
  refine (serveClientSession_served (w := ⟨host, []⟩) hroot).reach
    (fun v => (∀ f ∈ received v.log, frames f) → Truthful root frames v.log v.host.fs) ?_ ?_ hr hframes
  · intro _ f hf
    cases hf
  · intro v v' hv hs hf
    exact (hv fun f hm => hf f (hs.received hm)).step hs hf

end

section
variable {cr : Crypto} {root : Path} {secret : List UInt8} {ι : Type} [DecidableEq ι] {host : Host}
  {s : Pool ι net Host ClientSessionResult}

omit [DecidableEq ι] in
/-- What the sessions that were served one after the other have reported is upheld. -/
theorem serial_truthful {frames : WireFrame → Prop}
    {l : List (ι × ClientSessionResult × List net.Event)} {h : Host} (hroot : host.fs.Plain root)
    (hl : Pool.Serial (exec cr) (fun _ : ι => anyAnswer) (fun _ => serveClientSession root secret) host l h)
    (hframes : ∀ x ∈ l, ∀ f ∈ received x.2.2, frames f) :
    h.fs.Plain root ∧ ∀ x ∈ l, Truthful root frames x.2.2 h.fs := by
  induction hl with
  | nil => exact ⟨hroot, fun x hx => by cases hx⟩
  | @snoc l h i r w hl hi hr ih =>
    obtain ⟨hplain, htrue⟩ := ih fun x hx => hframes x (List.mem_append_left _ hx)
    have hw : ∀ f ∈ received w.log, frames f :=
      hframes (i, r, w.log) (List.mem_append_right _ (List.mem_singleton_self _))
    refine ⟨?_, fun x hx => ?_⟩
    · refine (serveClientSession_served (w := ⟨h, []⟩) hplain).reach (fun v => v.host.fs.Plain root) hplain ?_ hr
      rintro v v' hv ⟨e, -, hm, -⟩
      exact hm.grows.plain hv
    · rcases List.mem_append.mp hx with hx | hx
      · exact fun f hf type hrep => (htrue x hx f hf type hrep).alone (w := ⟨h, []⟩) hplain hr hw
      · obtain rfl := List.mem_singleton.mp hx
        exact truthful_alone hplain hr hw

theorem ServerRuns.truthful (hroot : host.fs.Plain root) (hr : ServerRuns cr root secret host s) (i : ι) :
    Truthful root (ReceivedBy s.log) (s.log i) s.host.fs := by
  obtain ⟨-, l, h, hl, hs⟩ := hr.ordered
  have hframes : ∀ x ∈ l, ∀ f ∈ received x.2.2, ReceivedBy s.log f := fun x hx f hf =>
    ⟨x.1, (hs.done x hx).2 ▸ hf⟩
  obtain ⟨hplain, htrue⟩ := serial_truthful hroot hl hframes
  by_cases hmem : ∃ x ∈ l, x.1 = i
  · obtain ⟨x, hx, rfl⟩ := hmem
    rw [(hs.done x hx).2]
    -- from what they left to the present, the work of the one that holds the mutex
    cases hh : s.holder with
    | none =>
      rw [hs.free hh]
      exact htrue x hx
    | some j =>
      exact fun f hf type hrep => (htrue x hx f hf type hrep).alone (w := ⟨h, []⟩) hplain (hs.held j hh).2
        fun f hf => ⟨j, hf⟩
  · by_cases hh : s.holder = some i
    · exact truthful_alone hplain (hs.held i hh).2 fun f hf => ⟨i, hf⟩
    · -- a session that never had the mutex might have run on the disk as it is now
      have hnow : s.host.fs.Plain root := by
        refine hr.invariant (I := fun h _ => h.fs.Plain root) hroot ?_ (fun _ _ _ _ h => h) hroot
        rintro j log v v' - ⟨e, -, hm, -⟩ hv
        exact hm.grows.plain hv
      exact truthful_alone hnow (hs.waiting i hh (fun x hx he => hmem ⟨x, hx, he⟩) s.host) fun f hf => ⟨i, hf⟩

/-- **Nothing reported is lost.**  At every moment of every interleaving: whenever a session has sent its client a
frame that reports success, it has received a request of the kind this frame answers and with its id, and of
every file that request asks for, the file is in the tree as declared, or a complete file that some session
received has taken its place.  The root is `Plain` when the server is started. -/
theorem sessions_truthful (hroot : host.fs.Plain root) (hr : ServerRuns cr root secret host s) {i : ι}
    {f : WireFrame} {type : MessageType} (hf : f ∈ sent (s.log i)) (hrep : Reports f.1 type) :
    ∃ request ∈ received (s.log i), request.1.header.messageType = type ∧
      request.1.header.requestId = f.1.header.requestId ∧
      ∃ records, Asks request.1 records ∧ ∀ record ∈ records, Kept root (ReceivedBy s.log) s.host.fs record :=
  hr.truthful hroot i f hf type hrep

/-- The last frame it sent is the result. -/
theorem samplePool_truthful : ∃ f ∈ sent ((samplePool 37).log 0), Reports f.1 .uploadRequest ∧
    ∃ request ∈ received ((samplePool 37).log 0), request.1.header.messageType = .uploadRequest ∧
      request.1.header.requestId = f.1.header.requestId ∧
      ∃ records, Asks request.1 records ∧
        ∀ record ∈ records, Kept sampleRoot (ReceivedBy (samplePool 37).log) (samplePool 37).host.fs record := by
  have hsent : ((sent ((samplePool 37).log 0)).getLast?.map fun f => (f.1.header.messageType, f.1.payload)) =
      some (.transferResult, encodeTransferResult .success) := by decide +kernel
  obtain ⟨f, hf, hv⟩ := Option.map_eq_some_iff.mp hsent
  obtain ⟨ht, hp⟩ := Prod.mk.inj hv
  have hmem := List.mem_of_getLast? hf
  exact ⟨f, hmem, .upload ht hp, sessions_truthful sampleRoot_plain (samplePool_runs 37) hmem (.upload ht hp)⟩

end

end SyncWire
