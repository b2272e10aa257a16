import Mathlib.Algebra.Order.BigOperators.Group.Finset
import SyncWire.Receive.Transfer

/-!
# Whole runs of `receive_file`

What the guarantee of single steps says about a run from its first step to wherever
it stops, against any client and any failures.

* `receiveFile_all_or_nothing`: the final path holds what it held, and from the rename
  on a complete file with the declared checksum; which results are sent when.
* `sessions_within_limits`: the state directory stays within the limits over any
  number of sessions.
-/

namespace SyncWire

open Wire Effect Posix Posix.Fs FileTransfer

namespace Upload

variable {u : Upload} {start log : List net.Event} {fs fs' : Fs} {w w' : World} {p : Path}

/-! ## What a step leaves alone -/

theorem not_onTheWay_final (hsafe : isSafeRemotePath u.metadata.filename = true) :
    ¬ u.OnTheWay u.finalPath := by
  rintro (⟨s, hs, he⟩ | he)
  · exact hs (List.append_right_eq_self.mp he)
  · exact not_state_prefix hsafe (he ▸ List.prefix_refl _)

/-- Apart from the part file only directories on the way appear. -/
theorem Change.node_cases (h : u.Change log fs fs') (hne : p ≠ u.partPath) :
    fs'.node p = fs.node p ∨ fs.node p = none ∧ fs'.node p = some .dir ∧ u.OnTheWay p := by
  cases h with
  | same h => exact .inl (by rw [h])
  | makeDir q hq h =>
    by_cases hp : p = q
    · subst hp
      exact .inr ⟨h.1, by rw [h.2.1, Function.update_self], hq⟩
    · exact .inl (by rw [h.2.1, Function.update_of_ne hp])
  | createPart i uid hb h => exact .inl (by rw [h.2.2.1, Function.update_of_ne hne])
  | clearPart i hi h => exact .inl (by rw [h, node_setData])
  | extendPart i x hb hi hlen hx h => exact .inl (by rw [h, node_setData])
  | dropPart h => exact .inl (by rw [h.2.2.1, Function.update_of_ne hne])

theorem Change.node_eq (h : u.Change log fs fs') (hp : ¬ u.OnTheWay p) (hne : p ≠ u.partPath) :
    fs'.node p = fs.node p :=
  (h.node_cases hne).resolve_right fun hc => hp hc.2.2

/-- No file but the part file is written, made or removed. -/
theorem Change.fileAt_eq (h : u.Change log fs fs') (hne : p ≠ u.partPath) : fs'.fileAt p = fs.fileAt p := by
  cases h with
  | same h => rw [h]
  | makeDir q hq h => exact h.fileAt_eq p
  | createPart i uid hb h =>
    refine fileAt_congr (by rw [h.2.2.1, Function.update_of_ne hne]) fun j hj => ?_
    rw [h.2.2.2, Function.update_of_ne (by rintro rfl; exact h.2.1 p hj)]
  | clearPart i hi h => rw [h, fileAt_setData hi hne]
  | extendPart i x hb hi hlen hx h => rw [h, fileAt_setData hi hne]
  | dropPart h =>
    exact fileAt_congr (by rw [h.2.2.1, Function.update_of_ne hne]) fun _ _ => by rw [h.2.2.2]

theorem Committed.node_eq (h : u.Committed fs fs') (hp : p ≠ u.partPath) (hf : p ≠ u.finalPath) :
    fs'.node p = fs.node p := by
  obtain ⟨i, -, -, -, -, hn, -⟩ := h
  rw [hn, Function.update_of_ne hf, Function.update_of_ne hp]

theorem Committed.fileAt_eq (h : u.Committed fs fs') (hp : p ≠ u.partPath) (hf : p ≠ u.finalPath) :
    fs'.fileAt p = fs.fileAt p := by
  refine fileAt_congr (h.node_eq hp hf) fun _ _ => ?_
  obtain ⟨i, -, -, -, -, -, hi⟩ := h
  rw [hi]

/-- The content that takes the final path was the part file's. -/
theorem Committed.final (h : u.Committed fs fs') : ∃ C, fs.fileAt u.partPath = some C ∧
    fs'.fileAt u.finalPath = some C ∧ C.length = u.metadata.fileSize.toNat ∧ crc32 C = u.metadata.checksum := by
  obtain ⟨i, hi, hlen, hsum, -, hn, hin⟩ := h
  refine ⟨(fs.inode i).data, fileAt_eq_some.mpr ⟨i, (hi _).mpr rfl, rfl⟩, ?_, hlen, hsum⟩
  exact fileAt_eq_some.mpr ⟨i, by rw [hn, Function.update_self], by rw [hin]⟩

/-! ## The final path -/

theorem renamed_concat {e : net.Event} (hl : start <+: log) :
    u.Renamed start (log ++ [e]) ↔ u.Renamed start log ∨ e = u.renameDone := by
  obtain ⟨l, rfl⟩ := hl
  constructor
  · rintro ⟨l', hl', hm⟩
    rw [List.append_assoc] at hl'
    rw [← List.append_cancel_left hl', List.mem_append, List.mem_singleton] at hm
    exact hm.imp (fun h => ⟨l, rfl, h⟩) Eq.symm
  · rintro (⟨l', hl', hm⟩ | rfl)
    · exact ⟨l ++ [e], by simp, List.mem_append_left _ (List.append_cancel_left hl' ▸ hm)⟩
    · exact ⟨l ++ [u.renameDone], by simp, by simp⟩

/-- **All or nothing.**  Before the rename the final path is what it was at `w₀`; from the rename on
it is a complete file. -/
structure Visible (u : Upload) (w₀ w : World) : Prop where
  log : w₀.log <+: w.log
  before : ¬ u.Renamed w₀.log w.log → w.host.fs.node u.finalPath = w₀.host.fs.node u.finalPath ∧
    w.host.fs.fileAt u.finalPath = w₀.host.fs.fileAt u.finalPath
  after : u.Renamed w₀.log w.log → w.host.fs.node u.partPath = none ∧
    ∃ C, w.host.fs.fileAt u.finalPath = some C ∧ C.length = u.metadata.fileSize.toNat ∧
      crc32 C = u.metadata.checksum

theorem visible_start (u : Upload) (w : World) : u.Visible w w :=
  ⟨List.prefix_refl _, fun _ => ⟨rfl, rfl⟩, fun h => absurd h (open_start u w.log).not_renamed⟩

theorem Visible.step {w₀ : World} (hsafe : isSafeRemotePath u.metadata.filename = true)
    (h : u.Visible w₀ w) (hg : u.Guarantee w₀.log w w') : u.Visible w₀ w' := by
  obtain ⟨e, hl, hren, hcom, hchg, -, -⟩ := hg
  refine ⟨hl ▸ h.log.trans (List.prefix_append _ _), fun hn => ?_, fun hr => ?_⟩
  · rw [hl, renamed_concat h.log, not_or] at hn
    obtain ⟨hn, he⟩ := hn
    have hc := hchg hn he
    rw [hc.node_eq (not_onTheWay_final hsafe) (finalPath_ne_partPath hsafe),
      hc.fileAt_eq (finalPath_ne_partPath hsafe)]
    exact h.before hn
  · rw [hl, renamed_concat h.log] at hr
    by_cases hr' : u.Renamed w₀.log w.log
    · rw [(hren hr').1]
      exact h.after hr'
    · have hc := hcom hr' (hr.resolve_left hr')
      obtain ⟨C, -, hC⟩ := hc.final
      exact ⟨hc.part_gone hsafe, C, hC⟩

end Upload

/-! ## `receive_file` -/

open Upload

/-- What every step of a run may do that refuses the request at once. -/
def Refusing (w w' : World) : Prop :=
  ∃ e, w'.log = w.log ++ [e] ∧ w'.host.fs = w.host.fs ∧ ¬ IsResult e .success ∧
    ∀ f r, e = ⟨.send f, r⟩ → f.1.header.messageType = .transferResult

theorem rejectBeforeReady_refusing {cr : Crypto} {rely : net.Rely} {requestId : UInt64}
    {result : FileTransferResult} {w : World} (hres : result.ok = false) :
    Safe (solo (exec cr) rely) Refusing (rejectBeforeReady requestId result) w fun r _ => r.ok = false := by
  refine sendRejection_safe (fun _ _ => ⟨_, rfl, rfl, not_success_of_rejection, ?_⟩) hres fun _ _ _ _ h => h
  rintro f r he
  cases he
  rfl

section
variable (cr : Crypto) {request : Frame} (root : Path) (limits : TransferLimits) {w : World}

/-- The upload that a request with these metadata asks for. -/
abbrev uploadOf (cr : Crypto) (request : Frame) (root : Path) (limits : TransferLimits)
    (metadata : UploadMetadata) : Upload where
  cr
  root
  requestId := request.header.requestId
  metadata
  limits

theorem receiveFile_refusing {error : TransferCodecError}
    (hd : decodeUploadMetadata (.of request.payload) = .error error) :
    Safe (solo (exec cr) anyAnswer) Refusing (receiveFile request root limits) w fun r _ => r.ok = false := by
  rcases receiveFile_cases request root limits with ⟨r, hr, he⟩ | ⟨metadata, hd', -⟩
  · rw [he]
    exact rejectBeforeReady_refusing hr
  · cases hd.symm.trans hd'

theorem receiveFile_abides {metadata : UploadMetadata} (hroot : w.host.fs.Plain root)
    (hd : decodeUploadMetadata (.of request.payload) = .ok metadata) :
    let u := uploadOf cr request root limits metadata
    let P := (w.host.fs.fileAt u.partPath).getD []
    u.Abides w.log P u.GoesOn (receiveFile request root limits) w (u.Outcome w.log P) := by
  intro u P
  have ho := open_start u w.log
  have hu := unready_start w.log
  rcases receiveFile_cases request root limits with ⟨r, hr, he⟩ | ⟨metadata', hd', he⟩
  · rw [he]
    exact rejectBeforeReady_abides (u := u) ho hu hr
  · cases hd.symm.trans hd'
    rw [he]
    exact receiveUpload_abides (u := u) (safe_of_decodeUploadMetadata hd) ho (accepted_start u _) hu hroot rfl

theorem receiveFile_safely {metadata : UploadMetadata} (hroot : w.host.fs.Plain root)
    (hd : decodeUploadMetadata (.of request.payload) = .ok metadata) :
    (uploadOf cr request root limits metadata).Safely w.log (receiveFile request root limits) w
      ((uploadOf cr request root limits metadata).Done w.log) :=
  safe_mono (receiveFile_abides cr root limits hroot hd).safely fun _ _ h => h.done

/-- **Commit gate.**  Whatever the request, the client and the failures, at every point of a run of
`receive_file`: the final path is what it was until the rename succeeded, and from then on a complete
file of the declared size and checksum; `Success` is sent only after the rename, and another result
after the rename only if opening or syncing a directory failed since.  A request without metadata
changes nothing.  The root is spelled without symbolic links above it (`Plain`). -/
theorem receiveFile_all_or_nothing {c : Side net Host FileTransferResult} (hroot : w.host.fs.Plain root)
    (hr : Reach (solo (exec cr) anyAnswer) (receiveFile request root limits, w) c) :
    match decodeUploadMetadata (.of request.payload) with
    | .error _ => c.2.host.fs = w.host.fs ∧
        ∀ c' e, Step (solo (exec cr) anyAnswer) c c' → c'.2.log = c.2.log ++ [e] → ¬ IsResult e .success
    | .ok metadata =>
      let u := uploadOf cr request root limits metadata
      (¬ u.Renamed w.log c.2.log → c.2.host.fs.node u.finalPath = w.host.fs.node u.finalPath ∧
        c.2.host.fs.fileAt u.finalPath = w.host.fs.fileAt u.finalPath) ∧
      (u.Renamed w.log c.2.log → ∃ C, c.2.host.fs.fileAt u.finalPath = some C ∧
        C.length = metadata.fileSize.toNat ∧ crc32 C = metadata.checksum) ∧
      ∀ c' e code, Step (solo (exec cr) anyAnswer) c c' → c'.2.log = c.2.log ++ [e] → IsResult e code →
        (code = .success → u.Renamed w.log c.2.log) ∧
        (code ≠ .success → u.Renamed w.log c.2.log → u.DirectorySyncFailed w.log c.2) := by
  have hlog : ∀ {l : List net.Event} {e e' : net.Event}, l ++ [e] = l ++ [e'] → e = e' := fun h =>
    List.singleton_inj.mp (List.append_cancel_left h)
  split
  · next error hd =>
    have hs := receiveFile_refusing cr root limits (w := w) hd
    refine ⟨hs.reach (fun w' => w'.host.fs = w.host.fs) rfl ?_ hr, fun c' e hstep he => ?_⟩
    · rintro a b ha ⟨e, -, hfs, -⟩
      rw [hfs, ha]
    · rcases hs.step hr hstep with ⟨e', hl, -, hn, -⟩ | hl
      · rwa [hlog (he.symm.trans hl)]
      · rw [hl] at he
        simp at he
  · next metadata hd =>
    have hs := receiveFile_safely cr root limits hroot hd
    have hv := hs.reach _ (visible_start _ w)
      (fun _ _ => Visible.step (safe_of_decodeUploadMetadata hd)) hr
    refine ⟨hv.before, fun hr => (hv.after hr).2, fun c' e code hstep he hres => ?_⟩
    rcases hs.step hr hstep with ⟨e', hl, -, -, -, -, hcode⟩ | hl
    · exact hcode code (hlog (hl.symm.trans he) ▸ hres)
    · rw [hl] at he
      simp at he

end

/-! An upload of three bytes to an empty disk, by a client that sends one chunk. -/

def sampleMetadata : UploadMetadata := { filename := bytesOf "a", fileSize := 3, checksum := 891568578 }

/-- SHA-256 at the one input that is hashed. -/
def sampleCrypto : Crypto where
  sha256 b :=
    if b = [0, 1, 0, 0, 0, 0, 0, 0, 0, 3, 53, 36, 65, 194, 97] then
      [210, 93, 170, 112, 226, 82, 114, 39, 208, 144, 201, 163, 232, 48, 243, 20, 92, 112, 230, 54, 188, 29, 81,
        13, 234, 23, 10, 247, 145, 235, 4, 162]
    else List.replicate 32 0
  hmac _ _ := List.replicate 32 0
  sha256_length b := by split <;> rfl
  hmac_length _ _ := rfl

def sampleHost : Host where
  fs := .empty
  files _ := none
  nextFd := 3
  euid := 1000
  signals := 0

def sampleRoot : Path := [bytesOf "d"]

def sampleRequest : Frame := makeFrame .uploadRequest 7 0 (encodeUploadMetadata sampleMetadata)

def sampleFrames : List WireFrame :=
  [⟨makeFrame .fileChunk 7 7 (encodeFileChunk 0 (bytesOf "abc")), makeFrame_valid (by decide) (by decide)⟩,
    ⟨makeFrame .transferComplete 7 7 [], makeFrame_valid (by decide) (by decide)⟩]

/-- The server after `n` steps. -/
def sampleRun (n : Nat) : Sys FileTransferResult × World :=
  runAgainst sampleCrypto sampleFrames n (receiveFile sampleRequest sampleRoot {}) ⟨sampleHost, []⟩

theorem sampleRoot_plain : sampleHost.fs.Plain sampleRoot := plain_of_dir (p := sampleRoot) (node_nil _)

theorem decode_sampleRequest : decodeUploadMetadata (.of sampleRequest.payload) = .ok sampleMetadata := by
  decide +kernel

theorem sampleRun_all_or_nothing :
    let u := uploadOf sampleCrypto sampleRequest sampleRoot {} sampleMetadata
    u.Renamed [] (sampleRun 80).2.log ∧ ∃ C, (sampleRun 80).2.host.fs.fileAt u.finalPath = some C ∧
      C.length = 3 ∧ crc32 C = 891568578 := by
  have h := receiveFile_all_or_nothing sampleCrypto sampleRoot {} sampleRoot_plain
    (reach_runAgainst sampleCrypto sampleFrames 80 (receiveFile sampleRequest sampleRoot {}) ⟨sampleHost, []⟩)
  rw [decode_sampleRequest] at h
  have hren : (uploadOf sampleCrypto sampleRequest sampleRoot {} sampleMetadata).Renamed []
      (sampleRun 80).2.log := by
    by_contra hn
    have hf := (h.1 hn).2
    exact absurd hf (by decide +kernel)
  exact ⟨hren, h.2.1 hren⟩

/-! ## Uploads stay below the root -/

/-- A directory on the way was made, where its path leads. -/
def MakesDir (root : Path) (filename : Bytes) (fs fs' : Fs) : Prop :=
  ∃ p q, OnTheWay root filename p ∧ fs.resolve p = .ok q ∧ MadeDir q fs fs'

/-- **Containment.**  On any file system, with links anywhere: the preparation makes directories on the way
only, and when it succeeds the final path and the part file are below the place where the root really is. -/
theorem prepareDestination_contained (cr : Crypto) (root : Path) {payload : Span} {metadata : UploadMetadata}
    {w : World} {c : Side net Host (Except PrepareFailure PreparedDestination)}
    (hdecode : decodeUploadMetadata payload = .ok metadata)
    (hr : Reach (solo (exec cr) anyAnswer) (prepareDestination root metadata, w) c) :
    Relation.ReflTransGen (MakesDir root metadata.filename) w.host.fs c.2.host.fs ∧
    ∀ prepared, c.1 = pure (.ok prepared) →
      prepared.finalPath = root ++ components metadata.filename ∧
      (∀ p, root <+: p → p <+: prepared.finalPath → p ≠ prepared.finalPath →
        c.2.host.fs.typeAt p = .ok .directory) ∧
      (∀ n ∈ components metadata.filename, n ≠ bytesOf "." ∧ n ≠ bytesOf ".." ∧ n ≠ [] ∧ n ≠ kPartialDirectory) ∧
      (∃ n, ValidName n ∧ prepared.partPath = root ++ [kPartialDirectory] ++ [n]) ∧
      c.2.host.fs.typeAt (root ++ [kPartialDirectory]) = .ok .directory ∧
      ∃ base, c.2.host.fs.resolve root = .ok base ∧
        c.2.host.fs.resolve prepared.finalPath = .ok (base ++ components metadata.filename) ∧
        c.2.host.files prepared.directory = some (.directory (base ++ [kPartialDirectory])) := by
  have hM : MayMake root (OnTheWay root metadata.filename) (fun _ => True)
      (fun w w' => Relation.ReflTransGen (MakesDir root metadata.filename) w.host.fs w'.host.fs) :=
    ⟨fun _ _ _ _ hfs => ⟨by rw [hfs], trivial⟩,
      fun _ _ _ _ hA hat hm => ⟨.single ⟨_, _, hA, hat.1, hm⟩, trivial⟩⟩
  have hsafe : Safe (solo (exec cr) anyAnswer)
      (fun w w' => Relation.ReflTransGen (MakesDir root metadata.filename) w.host.fs w'.host.fs)
      (prepareDestination root metadata) w
      fun r w' => ∀ prepared, r = .ok prepared → ∃ base, Ready cr root metadata prepared base w'.host :=
    prepareDestination_safe hM trivial fun r w' _ hok => hok
  refine ⟨hsafe.reach (fun w' => Relation.ReflTransGen
    (MakesDir root metadata.filename) w.host.fs w'.host.fs) .refl
    (fun _ _ h h' => h.trans h') hr, fun prepared hc => ?_⟩
  obtain ⟨p, w'⟩ := c
  obtain rfl : p = pure (.ok prepared) := hc
  obtain ⟨base, R⟩ := hsafe.result hr prepared rfl
  refine ⟨R.finalPath, fun _ => R.typeAt, fun n hn => ?_, ⟨prepared.partName, ?_, ?_⟩, ?_, base, R.root.1,
    ?_, R.opened⟩
  · have hsafe := ((isSafeRemotePath_iff _).mp (safe_of_decodeUploadMetadata hdecode)).2.2 n hn
    simp only [unsafeComponent, Bool.or_eq_false_iff, beq_eq_false_iff_ne, List.isEmpty_eq_false_iff] at hsafe
    exact ⟨hsafe.1.1.1.2, hsafe.1.1.2, hsafe.1.1.1.1, hsafe.1.2⟩
  · rw [R.partName]
    exact validName_partNameOf _
  · rw [PreparedDestination.partPath, R.stateRoot]
  · rw [typeAt_of_resolve (resolve_child R.root.1 R.root.2 _), R.state]
    rfl
  · rw [R.finalPath]
    exact R.root.resolve _ R.parent

theorem dir_not_file : ∀ i, Node.dir = .file i → i < Fs.empty.next := by simp

/-- The root and nothing else. -/
def sampleMade : Fs := Fs.empty.insert sampleRoot .dir (by decide) dir_not_file

/-- A directory `e`, and a link `l` to it. -/
def sampleLinked : Fs :=
  (Fs.empty.insert [bytesOf "e"] .dir (by decide) dir_not_file).insert [bytesOf "l"]
    (.symlink [bytesOf "e"]) (by decide) (by simp)

def sampleNested : UploadMetadata := { filename := bytesOf "x/a", fileSize := 3, checksum := 891568578 }

/-- `x/a` below `l/d`: it is at `e/d/x/a`. -/
theorem prepareDestination_contained_sample :
    ∃ prepared w', Reach (solo (exec sampleCrypto) anyAnswer)
        (prepareDestination [bytesOf "l", bytesOf "d"] sampleNested, ⟨{ sampleHost with fs := sampleLinked }, []⟩)
        (.pure (.ok prepared), w') ∧
      w'.host.fs.typeAt [bytesOf "l", bytesOf "d", bytesOf "x"] = .ok .directory ∧
      prepared.finalPath = [bytesOf "l", bytesOf "d", bytesOf "x", bytesOf "a"] := by
  have hok : (runAgainst sampleCrypto [] 20 (prepareDestination [bytesOf "l", bytesOf "d"] sampleNested)
      ⟨{ sampleHost with fs := sampleLinked }, []⟩).1.result?.map Except.isOk = some true := by decide +kernel
  have hcomponents : components sampleNested.filename = [bytesOf "x", bytesOf "a"] := by decide +kernel
  obtain ⟨r, hresult, hr⟩ := Option.map_eq_some_iff.mp hok
  cases r with
  | error failure => cases hr
  | ok prepared =>
    have hr := reach_of_result? hresult
    have hdecode : decodeUploadMetadata (.of (encodeUploadMetadata sampleNested)) = .ok sampleNested := by
      decide +kernel
    have h := (prepareDestination_contained sampleCrypto [bytesOf "l", bytesOf "d"] hdecode hr).2 prepared rfl
    have hfinal : prepared.finalPath = [bytesOf "l", bytesOf "d", bytesOf "x", bytesOf "a"] := by
      rw [h.1, hcomponents]
      rfl
    refine ⟨prepared, _, hr, h.2.1 _ ⟨[bytesOf "x"], rfl⟩ ?_ ?_, hfinal⟩
    · rw [hfinal]
      exact ⟨[bytesOf "a"], rfl⟩
    · rw [hfinal]
      decide

/-! ## The state directory over many sessions -/

/-- The entries of the state directory, and their sizes, are within the limits. -/
def WithinLimits (stateRoot : Path) (limits : TransferLimits) (fs : Fs) : Prop :=
  (fs.names stateRoot).card ≤ limits.maxPartialFiles ∧
    ∑ n ∈ fs.names stateRoot, fs.sizeAt (stateRoot ++ [n]) ≤ limits.maxPartialBytes.toNat

theorem WithinLimits.mono {stateRoot : Path} {limits : TransferLimits} {fs fs' : Fs}
    (h : WithinLimits stateRoot limits fs) (hn : fs'.names stateRoot ⊆ fs.names stateRoot)
    (hs : ∀ n, fs'.sizeAt (stateRoot ++ [n]) ≤ fs.sizeAt (stateRoot ++ [n])) :
    WithinLimits stateRoot limits fs' :=
  ⟨(Finset.card_le_card hn).trans h.1,
    (Finset.sum_le_sum fun n _ => hs n).trans ((Finset.sum_le_sum_of_subset hn).trans h.2)⟩

namespace Upload

variable {u : Upload} {start log : List net.Event} {fs fs' : Fs} {w w' : World}

/-- The budget counts the part file with its declared size. -/
theorem Budget.within (hb : u.Budget fs) (hs : fs.sizeAt u.partPath ≤ u.metadata.fileSize.toNat) :
    WithinLimits u.stateRoot u.limits fs := by
  have hsub : fs.names u.stateRoot ⊆ insert u.partName (u.others fs) := fun n hn => by
    by_cases he : n = u.partName
    · simp [he]
    · exact Finset.mem_insert_of_mem (Finset.mem_erase.mpr ⟨he, hn⟩)
  have hnot : u.partName ∉ u.others fs := Finset.notMem_erase _ _
  constructor
  · calc (fs.names u.stateRoot).card ≤ (insert u.partName (u.others fs)).card := Finset.card_le_card hsub
      _ ≤ u.limits.maxPartialFiles := by rw [Finset.card_insert_of_notMem hnot]; exact hb.1
  · calc ∑ n ∈ fs.names u.stateRoot, fs.sizeAt (u.stateRoot ++ [n])
        ≤ ∑ n ∈ insert u.partName (u.others fs), fs.sizeAt (u.stateRoot ++ [n]) :=
          Finset.sum_le_sum_of_subset hsub
      _ = fs.sizeAt u.partPath + ∑ n ∈ u.others fs, fs.sizeAt (u.stateRoot ++ [n]) :=
          Finset.sum_insert hnot
      _ ≤ u.limits.maxPartialBytes.toNat := (Nat.add_le_add_right hs _).trans hb.2

theorem sizeAt_of_node {p : Path} {i : Nat} (h : fs.node p = some (.file i)) :
    fs.sizeAt p = (fs.inode i).data.length := by
  rw [sizeAt, fileAt_eq_some.mpr ⟨i, h, rfl⟩]
  rfl

/-- No directory is made inside the state directory. -/
theorem onTheWay_ne_state {p : Path} (hsafe : isSafeRemotePath u.metadata.filename = true)
    (hp : u.OnTheWay p) (n : Name) : u.stateRoot ++ [n] ≠ p := by
  rintro rfl
  rcases hp with ⟨s, -, he⟩ | he
  · exact not_state_prefix hsafe ⟨[n] ++ s, by rw [← he, List.append_assoc]⟩
  · simpa using congrArg List.length he

theorem Change.within (hsafe : isSafeRemotePath u.metadata.filename = true) (h : u.Change log fs fs')
    (hw : WithinLimits u.stateRoot u.limits fs) : WithinLimits u.stateRoot u.limits fs' := by
  have hc := h
  cases h with
  | same h => rwa [h]
  | makeDir q hq h =>
    refine hw.mono (fun n hn => ?_) fun n => ?_
    · rw [mem_names, h.2.1, Function.update_of_ne (onTheWay_ne_state hsafe hq n)] at hn
      exact mem_names.mpr hn
    · have hnode : fs'.node (u.stateRoot ++ [n]) = fs.node (u.stateRoot ++ [n]) := by
        rw [h.2.1, Function.update_of_ne (onTheWay_ne_state hsafe hq n)]
      exact (sizeAt_congr (fileAt_congr hnode fun _ _ => by rw [h.2.2])).le
  | createPart i uid hb h =>
    refine Budget.within (hb.congr (fun n hn => ?_) fun n hn => hc.fileAt_eq (ne_partPath hn)) ?_
    · rw [h.2.2.1, Function.update_of_ne (ne_partPath hn)]
    · rw [sizeAt_of_node (i := i) (by rw [h.2.2.1, Function.update_self]), h.2.2.2, Function.update_self]
      exact Nat.zero_le _
  | clearPart i hi h =>
    refine hw.mono (fun n hn => ?_) fun n => ?_
    · rw [mem_names, h, node_setData] at hn
      exact mem_names.mpr hn
    · by_cases hp : u.stateRoot ++ [n] = u.partPath
      · rw [hp, sizeAt_of_node (i := i) (by rw [h, node_setData]; exact (hi _).mpr rfl), h, data_setData_self]
        exact Nat.zero_le _
      · exact (sizeAt_congr (hc.fileAt_eq hp)).le
  | extendPart i x hb hi hlen hx h =>
    refine Budget.within (h ▸ hb.setData hi) ?_
    rw [sizeAt_of_node (i := i) (by rw [h, node_setData]; exact (hi _).mpr rfl), h, data_setData_self]
    exact hlen
  | dropPart h =>
    refine hw.mono (fun n hn => ?_) fun n => ?_
    · rw [mem_names, h.2.2.1] at hn
      refine mem_names.mpr fun h0 => hn ?_
      rw [Function.update_apply, h0, ite_self]
    · by_cases hp : u.stateRoot ++ [n] = u.partPath
      · rw [hp, sizeAt, fileAt, h.2.2.1, Function.update_self]
        exact Nat.zero_le _
      · exact (sizeAt_congr (hc.fileAt_eq hp)).le

theorem Committed.within (hsafe : isSafeRemotePath u.metadata.filename = true) (h : u.Committed fs fs')
    (hw : WithinLimits u.stateRoot u.limits fs) : WithinLimits u.stateRoot u.limits fs' := by
  have hne : ∀ n, u.stateRoot ++ [n] ≠ u.finalPath := fun n he =>
    not_state_prefix hsafe (he ▸ List.prefix_append _ _)
  have hpart := h.part_gone hsafe
  refine hw.mono (fun n hn => ?_) fun n => ?_
  · rw [mem_names] at hn ⊢
    by_cases hp : u.stateRoot ++ [n] = u.partPath
    · exact absurd (hp ▸ hpart) hn
    · rwa [← h.node_eq hp (hne n)]
  · by_cases hp : u.stateRoot ++ [n] = u.partPath
    · rw [hp, sizeAt, fileAt, hpart]
      exact Nat.zero_le _
    · exact (sizeAt_congr (h.fileAt_eq hp (hne n))).le

theorem Guarantee.within (hg : u.Guarantee start w w')
    (hsafe : isSafeRemotePath u.metadata.filename = true)
    (hw : WithinLimits u.stateRoot u.limits w.host.fs) : WithinLimits u.stateRoot u.limits w'.host.fs := by
  obtain ⟨e, -, hren, hcom, hchg, -, -⟩ := hg
  by_cases hr : u.Renamed start w.log
  · rwa [(hren hr).1]
  · by_cases he : e = u.renameDone
    · exact (hcom hr he).within hsafe hw
    · exact (hchg hr he).within hsafe hw

/-! Symbolic links do not appear, so the root stays where it says. -/

theorem Change.grows (h : u.Change log fs fs') : Grows fs fs' := by
  cases h with
  | same h => rw [h]; exact .refl _
  | makeDir q hq h => exact h.grows
  | createPart i uid hb h => exact h.grows
  | clearPart i hi h => rw [h]; exact .refl _
  | extendPart i x hb hi hlen hx h => rw [h]; exact .refl _
  | dropPart h => exact h.grows

theorem Committed.grows (h : u.Committed fs fs') : Grows fs fs' := by
  obtain ⟨i, hi, -, -, hdir, hn, -⟩ := h
  have hpart := (hi u.partPath).mpr rfl
  refine ⟨fun q hq => ?_, fun q t hq => ?_⟩
  · rw [hn, Function.update_of_ne (by rintro rfl; exact hdir hq), Function.update_of_ne]
    · exact hq
    · rintro rfl
      rw [hpart] at hq
      cases hq
  · rw [hn, Function.update_apply, Function.update_apply] at hq
    split at hq
    · cases hq
    · split at hq
      · cases hq
      · exact hq

theorem Guarantee.grows (hg : u.Guarantee start w w') : Grows w.host.fs w'.host.fs := by
  obtain ⟨e, -, hren, hcom, hchg, -, -⟩ := hg
  by_cases hr : u.Renamed start w.log
  · rw [(hren hr).1]
    exact .refl _
  · by_cases he : e = u.renameDone
    · exact (hcom hr he).grows
    · exact (hchg hr he).grows

end Upload

/-- One session of `receive_file`: any request, any client, any failures, stopped anywhere. -/
def Session (cr : Crypto) (root : Path) (limits : TransferLimits) (fs fs' : Fs) : Prop :=
  ∃ (request : Frame) (w : World) (c : Side net Host FileTransferResult), w.host.fs = fs ∧
    Reach (solo (exec cr) anyAnswer) (receiveFile request root limits, w) c ∧ c.2.host.fs = fs'

theorem session_keeps {cr : Crypto} {root : Path} {limits : TransferLimits} {fs fs' : Fs}
    (h : Session cr root limits fs fs') (hroot : fs.Plain root)
    (hw : WithinLimits (root ++ [kPartialDirectory]) limits fs) :
    fs'.Plain root ∧ WithinLimits (root ++ [kPartialDirectory]) limits fs' := by
  obtain ⟨request, w, c, rfl, hr, rfl⟩ := h
  cases hd : decodeUploadMetadata (.of request.payload) with
  | error error =>
    refine (receiveFile_refusing cr root limits hd).reach
      (fun w' => w'.host.fs.Plain root ∧ WithinLimits (root ++ [kPartialDirectory]) limits w'.host.fs)
      ⟨hroot, hw⟩ ?_ hr
    rintro a b ha ⟨e, -, hfs, -⟩
    rwa [hfs]
  | ok metadata =>
    exact (receiveFile_safely cr root limits hroot hd).reach
      (fun w' => w'.host.fs.Plain root ∧ WithinLimits (root ++ [kPartialDirectory]) limits w'.host.fs) ⟨hroot, hw⟩
      (fun a b ha hg => ⟨hg.grows.plain ha.1, hg.within (safe_of_decodeUploadMetadata hd) ha.2⟩) hr

/-- **Partial storage.**  Over any sequence of sessions, one at a time and each stopped anywhere, the
state directory stays within the limits at every step; the root is `Plain` when they begin. -/
theorem sessions_within_limits (cr : Crypto) {root : Path} {limits : TransferLimits} {fs fs' : Fs}
    (hroot : fs.Plain root) (hw : WithinLimits (root ++ [kPartialDirectory]) limits fs)
    (h : Relation.ReflTransGen (Session cr root limits) fs fs') :
    WithinLimits (root ++ [kPartialDirectory]) limits fs' := by
  have key : fs'.Plain root ∧ WithinLimits (root ++ [kPartialDirectory]) limits fs' := by
    induction h with
    | refl => exact ⟨hroot, hw⟩
    | tail _ hs ih => exact session_keeps hs ih.1 ih.2
  exact key.2

theorem sampleRun_within_limits :
    WithinLimits (sampleRoot ++ [kPartialDirectory]) {} (sampleRun 20).2.host.fs ∧
      (sampleRun 20).2.host.fs.names (sampleRoot ++ [kPartialDirectory]) ≠ ∅ := by
  refine ⟨sessions_within_limits sampleCrypto sampleRoot_plain (by unfold WithinLimits; decide +kernel)
    (.single ⟨sampleRequest, ⟨sampleHost, []⟩, sampleRun 20, rfl, ?_, rfl⟩), by decide +kernel⟩
  exact reach_runAgainst _ _ _ _ _

end SyncWire
