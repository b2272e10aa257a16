import SyncWire.Receive.Budget
import SyncWire.Receive.Guarantee
import SyncWire.Termination

/-!
# `receive_file` before the part file is opened

`prepare_destination` makes directories only, and when it succeeds the state
directory and the final path's parent are real directories.  `within_partial_budget`
changes nothing, and when it says yes the budget holds with the upload's own size
reserved (`withinPartialBudget_safely`).  The only thing that is hashed is the encoded
metadata (`hashes_prepareDestination`), so that uploads which differ have keys that were
made from different inputs.
-/

namespace SyncWire

open Wire Effect Posix Posix.Fs FileTransfer

theorem countPartials_issues (prepared : PreparedDestination) (limits : TransferLimits) (names : List Name)
    (bytes : UInt64) (count : Nat) : Issues ReadCall (countPartials prepared limits names bytes count) := by
  induction names generalizing bytes count with
  | nil => exact issues_pure _
  | cons name names ih =>
    unfold countPartials
    split
    · refine does_sys rfl fun r => ?_
      cases r with
      | error e => exact issues_pure _
      | ok status =>
        simp only
        split
        · exact issues_pure _
        · refine does_sys rfl fun r => ?_
          cases r with
          | error e => exact issues_pure _
          | ok size =>
            simp only
            split
            · exact issues_pure _
            · split
              · exact issues_pure _
              · refine does_sys rfl fun r => ?_
                cases r with
                | error e => exact issues_pure _
                | ok _ => exact ih _ _
    · refine does_sys rfl fun r => ?_
      cases r with
      | error e => exact issues_pure _
      | ok _ => exact ih _ _

theorem withinPartialBudget_issues (prepared : PreparedDestination) (metadata : UploadMetadata)
    (limits : TransferLimits) : Issues ReadCall (withinPartialBudget prepared metadata limits) := by
  unfold withinPartialBudget
  split
  · exact issues_pure _
  · refine does_sys rfl fun r => ?_
    cases r with
    | error e => exact issues_pure _
    | ok names => exact countPartials_issues _ _ _ _ _

namespace Upload

/-- All steps of `p` keep the upload's guarantee, against any client and any failures. -/
abbrev Safely (u : Upload) (start : List net.Event) {α : Type} (p : Sys α) (w : World)
    (Q : α → World → Prop) : Prop := Safe (solo (exec u.cr) anyAnswer) (u.Guarantee start) p w Q

variable {u : Upload} {start : List net.Event} {w : World} {α : Type} {Q : α → World → Prop}

theorem safely_look {c : Posix.Call} {k : Except Nat (Posix.Val c) → Sys α} (hc : c.looks = true)
    (h : ∀ r, exec u.cr c w.host r = some w.host → u.Safely start (k r) (w.push ⟨.call c, r⟩) Q) :
    u.Safely start (sys c >>= k) w Q :=
  safe_look hc (fun _ => guarantee_quiet rfl rfl (call_ne_renameDone (by rintro rfl; cases hc))
    quiet_call) h

/-! ## `prepare_destination` -/

theorem onTheWay_aboveRoot {p : Path} (h : p <+: u.root) : u.OnTheWay p := by
  obtain ⟨t, ht⟩ := h
  refine .inl ⟨t ++ components u.metadata.filename, ?_, ?_⟩
  · simp [components_ne_nil]
  · rw [← List.append_assoc, ht, finalPath]

/-- What `prepare_destination` leaves behind when it succeeds. -/
structure Prepared (u : Upload) (h : Host) (directory : Fd) : Prop where
  state : h.fs.node u.stateRoot = some .dir
  opened : h.files directory = some (.directory u.stateRoot)
  lt : directory < h.nextFd
  parent : h.fs.node u.finalPath.dropLast = some .dir

theorem dropLast_finalPath (u : Upload) :
    u.finalPath.dropLast = u.root ++ (components u.metadata.filename).dropLast := by
  rw [finalPath, List.dropLast_append_of_ne_nil (components_ne_nil _)]

theorem finalPath_eq (u : Upload) :
    u.root ++ (components u.metadata.filename).dropLast ++ [(components u.metadata.filename).getLastD []] =
      u.finalPath := by
  have hne := components_ne_nil u.metadata.filename
  rw [List.append_assoc, List.getLastD_eq_getLast?, List.getLast?_eq_some_getLast hne, Option.getD_some,
    List.dropLast_append_getLast hne]
  rfl

/-- Under a root that is where it says, the preparation keeps the guarantee, and the part file. -/
theorem mayMake_guarantee (C : Option Bytes) : MayMake u.root u.OnTheWay
    (fun w => u.Open start w.log ∧ w.host.fs.Plain u.root ∧ w.host.fs.fileAt u.partPath = C)
    (u.Guarantee start) where
  quiet c r hI hc hfs := by
    have hne : c ≠ .rename u.partPath u.finalPath := by rintro rfl; cases hc
    exact ⟨guarantee_quiet rfl hfs (call_ne_renameDone hne) quiet_call, hI.1.call hne, by rw [hfs]; exact hI.2⟩
  make c r hI hc hA hat hm := by
    have hne : c ≠ .rename u.partPath u.finalPath := by rintro rfl; cases hc
    obtain rfl := hat.eq_of_plain hI.2.1
    exact ⟨guarantee_change hI.1 rfl hne (.makeDir _ hA hm), hI.1.call hne, hm.grows.plain hI.2.1,
      (hm.fileAt_eq _).trans hI.2.2⟩

theorem prepareDestination_safely (ho : u.Open start w.log) (hp : w.host.fs.Plain u.root)
    {Q : Except PrepareFailure PreparedDestination → World → Prop}
    (hQ : ∀ r w', u.Open start w'.log → w'.host.fs.fileAt u.partPath = w.host.fs.fileAt u.partPath →
      (∀ p, r = .ok p → ∃ fd, p = (u.transfer fd 0).prepared ∧ u.Prepared w'.host fd) → Q r w') :
    u.Safely start (prepareDestination u.root u.metadata) w Q := by
  refine prepareDestination_safe (mayMake_guarantee _) ⟨ho, hp, rfl⟩
    fun r w' ⟨ho', hp', hpart⟩ hok => hQ r w' ho' hpart fun p h => ?_
  obtain ⟨base, R⟩ := hok p h
  obtain rfl := (resolve_plain hp' R.root.1).1
  refine ⟨p.directory, ?_, R.state, R.opened, R.lt, dropLast_finalPath u ▸ R.parent⟩
  have h1 := R.finalPath
  have h2 := R.stateRoot
  have h3 := R.partName
  cases p
  simp only at h1 h2 h3
  rw [h1, h2, h3]
  rfl

/-! ## `within_partial_budget` -/

theorem admits_open : Admits (u.Open start) (u.Guarantee start) where
  keeps hc h := h.call (by rintro rfl; cases hc)
  step hc _ hfs := guarantee_quiet rfl hfs (call_ne_renameDone (by rintro rfl; cases hc)) quiet_call

/-- **Budget.**  If the check says yes, the budget holds. -/
theorem withinPartialBudget_safely {f : Fd} (ho : u.Open start w.log)
    (hst : w.host.fs.node u.stateRoot = some .dir) {Q : Bool → World → Prop}
    (hQ : ∀ r w', w'.host = w.host → u.Open start w'.log → (r = true → u.Budget w.host.fs) → Q r w') :
    u.Safely start (withinPartialBudget (u.transfer f 0).prepared u.metadata u.limits) w Q := by
  have hdir : RootAt w.host.fs (u.transfer f 0).prepared.stateRoot u.stateRoot := ⟨resolve_of_node hst, hst⟩
  refine safe_reading (withinPartialBudget_issues _ _ _).uses admits_open ho fun r w' hr _ ho' => ?_
  obtain ⟨hh, hor⟩ := (withinPartialBudget_spec permits_anyAnswer trivial hdir).result hr
  refine hQ r w' hh ho' fun hyes => ?_
  obtain ⟨-, hbytes, hfiles⟩ : WithinBudget .. :=
    (hor.resolve_left fun h => Bool.false_ne_true (h.2.symm.trans hyes)).mp hyes
  exact ⟨by rw [Nat.add_comm]; exact hfiles, hbytes⟩

end Upload

/-! ## The input of the key -/

section Key
variable {input : List UInt8}

/-- Some run of `p` hashes `input`. -/
def Hashes {α : Type} (p : Sys α) (input : List UInt8) : Prop :=
  ∃ cr w k w', Reach (solo (exec cr) anyAnswer) (p, w) (.op (.call (.digest input)) k, w')

/-- Look around, make directories, hash `input`. -/
def Prepares (input : List UInt8) : net.sig.Op → Prop
  | .call (.lstat _) | .call (.createDirectory _) | .call (.mkdir _) | .call (.openDir _) => True
  | .call (.digest x) => x = input
  | _ => False

theorem createDirectories_issues (rest done : Path) : Issues (Prepares input) (createDirectories done rest) := by
  induction rest generalizing done with
  | nil => exact issues_pure _
  | cons n rest ih =>
    refine does_sys trivial fun r => ?_
    cases r with
    | error e => exact issues_pure _
    | ok b => exact ih _

theorem makeRoot_issues (root : Path) : Issues (Prepares input) (makeRoot root) := by
  refine does_sys trivial fun r => ?_
  cases r with
  | error e => exact issues_pure _
  | ok status =>
    simp only
    split
    · split <;> exact issues_pure _
    · refine issues_bind (createDirectories_issues root []) fun r => ?_
      cases r <;> exact issues_pure _

theorem makeParents_issues (rest parent : Path) : Issues (Prepares input) (makeParents parent rest) := by
  induction rest generalizing parent with
  | nil => exact issues_pure _
  | cons n rest ih =>
    refine does_sys trivial fun r => ?_
    cases r with
    | error e => exact issues_pure _
    | ok status =>
      simp only
      split
      · split
        · exact issues_pure _
        · exact ih _
      · refine does_sys trivial fun r => ?_
        cases r with
        | error e => exact issues_pure _
        | ok b => exact ih _

theorem openStateRoot_issues (stateRoot : Path) : Issues (Prepares input) (openStateRoot stateRoot) := by
  refine does_sys trivial fun r => ?_
  cases r with
  | error e => exact issues_pure _
  | ok b =>
    refine does_sys trivial fun r => ?_
    cases r <;> exact issues_pure _

/-- `prepare_destination` hashes the encoded metadata and nothing else. -/
theorem prepareDestination_issues (root : Path) (m : UploadMetadata) :
    Issues (Prepares (encodeUploadMetadata m)) (prepareDestination root m) := by
  refine issues_bind (makeRoot_issues root) fun r => ?_
  cases r with
  | error f => exact issues_pure _
  | ok _ =>
    refine issues_bind (makeParents_issues _ _) fun r => ?_
    cases r with
    | error f => exact issues_pure _
    | ok parent =>
      refine does_sys rfl fun r => ?_
      cases r with
      | error e => exact issues_pure _
      | ok digest =>
        refine issues_bind (openStateRoot_issues _) fun r => ?_
        cases r <;> exact issues_pure _

/-- **The key's input.** -/
theorem hashes_prepareDestination {root : Path} {m : UploadMetadata}
    (h : Hashes (prepareDestination root m) input) : input = encodeUploadMetadata m := by
  obtain ⟨cr, w, k, w', hr⟩ := h
  exact (prepareDestination_issues root m).uses.along w _ _ hr

/-- **The payloads of a transfer.**  Encoders and decoders are inverse to each other on all that is
accepted; uploads that differ are hashed from inputs that differ. -/
theorem transferPayloads_canonical :
    (∀ m : UploadMetadata, (encodeUploadMetadata m ≠ [] ↔ isSafeRemotePath m.filename = true) ∧
      (isSafeRemotePath m.filename = true → decodeUploadMetadata (.of (encodeUploadMetadata m)) = .ok m)) ∧
    (∀ payload m, decodeUploadMetadata (.of payload) = .ok m → encodeUploadMetadata m = payload) ∧
    (∀ m m' : UploadMetadata, isSafeRemotePath m.filename = true → isSafeRemotePath m'.filename = true →
      m ≠ m' → encodeUploadMetadata m ≠ encodeUploadMetadata m' ∧
        ∀ root root' input, Hashes (prepareDestination root m) input →
          ¬ Hashes (prepareDestination root' m') input) ∧
    (∀ offset data, data ≠ [] → decodeFileChunk (.of (encodeFileChunk offset data)) = .ok ⟨offset, data⟩) ∧
    (∀ payload chunk, decodeFileChunk (.of payload) = .ok chunk →
      encodeFileChunk chunk.offset chunk.data = payload) ∧
    (∀ offset, decodeOffset (.of (encodeOffset offset)) = .ok offset) ∧
    (∀ payload offset, decodeOffset (.of payload) = .ok offset → encodeOffset offset = payload) ∧
    (∀ ready, decodeTransferReady (.of (encodeTransferReady ready)) = .ok ready) ∧
    (∀ payload ready, decodeTransferReady (.of payload) = .ok ready → encodeTransferReady ready = payload) := by
  refine ⟨fun m => ⟨encodeUploadMetadata_ne_nil_iff m, decodeUploadMetadata_encode⟩,
    fun _ _ => encodeUploadMetadata_decode, fun m m' hs _ hne => ?_,
    fun offset _ => decodeFileChunk_encode offset, fun _ _ => encodeFileChunk_decode,
    decodeOffset_encode, fun _ _ => encodeOffset_decode, decodeTransferReady_encode,
    fun _ _ => encodeTransferReady_decode⟩
  have hinj : encodeUploadMetadata m ≠ encodeUploadMetadata m' := fun h => hne (encodeUploadMetadata_inj hs h)
  refine ⟨hinj, fun root root' input h h' => hinj ?_⟩
  rw [← hashes_prepareDestination h, ← hashes_prepareDestination h']

end Key

end SyncWire
