import SyncWire.Resume
import SyncWire.Send.Honest

/-!
# Restarting an interrupted upload

Clients that have the content `S` upload it to one remote path, again and again.  Each
attempt may be cut anywhere, on either side, and between the attempts others upload to other
paths.

`Recoverable` is what survives every cut: the part file is absent or a prefix of `S`.  An honest
client's chunks lie in `S` where they say (`Carries`), so what is written to a prefix of `S` makes a
longer one; a complete part file is `S` itself.

* `restart_recovery`: the invariant, the final path, and that an attempt which is let through succeeds.
-/

namespace SyncWire

open Wire Effect Posix Posix.Fs FileTransfer

/-! ## Keys -/

/-- The inverse of `hexDigit`. -/
def unhex (c : UInt8) : UInt8 := if c < 97 then c - 48 else c - 87

theorem unhex_hexDigit (byte : UInt8) :
    unhex (hexDigit (byte >>> 4)) <<< 4 ||| unhex (hexDigit (byte &&& 0x0F)) = byte := by
  have h : ∀ n < 256, unhex (hexDigit (UInt8.ofNat n >>> 4)) <<< 4 ||| unhex (hexDigit (UInt8.ofNat n &&& 0x0F)) =
      UInt8.ofNat n := by decide +kernel
  have hb := h byte.toNat byte.toNat_lt
  rwa [UInt8.ofNat_toNat] at hb

theorem hex_injective {digest digest' : List UInt8}
    (h : digest.flatMap (fun byte : UInt8 => [hexDigit (byte >>> 4), hexDigit (byte &&& 0x0F)]) =
      digest'.flatMap (fun byte : UInt8 => [hexDigit (byte >>> 4), hexDigit (byte &&& 0x0F)])) :
    digest = digest' := by
  induction digest generalizing digest' with
  | nil =>
    cases digest' with
    | nil => rfl
    | cons b digest' => simp at h
  | cons a digest ih =>
    cases digest' with
    | nil => simp at h
    | cons b digest' =>
      simp only [List.flatMap_cons, List.cons_append, List.nil_append, List.cons.injEq] at h
      obtain ⟨h1, h2, h3⟩ := h
      rw [ih h3, ← unhex_hexDigit a, ← unhex_hexDigit b, h1, h2]

theorem partNameOf_injective {digest digest' : List UInt8} (h : partNameOf digest = partNameOf digest') :
    digest = digest' := hex_injective (List.append_cancel_right h)

theorem components_injective {path path' : List UInt8} (h : components path = components path') :
    path = path' := by
  have hjoin := congrArg [slash].intercalate h
  rwa [components, components, List.intercalate_splitOn, List.intercalate_splitOn] at hjoin

/-! ## What a step leaves to recover from -/

/-- The part file is absent or a prefix of `S`. -/
def Recoverable (part : Path) (S : Bytes) (fs : Fs) : Prop :=
  fs.node part = none ∨ ∃ P, fs.fileAt part = some P ∧ P <+: S

theorem recoverable_congr {part : Path} {S : Bytes} {fs fs' : Fs} (hn : fs'.node part = fs.node part)
    (hf : fs'.fileAt part = fs.fileAt part) (h : Recoverable part S fs) : Recoverable part S fs' := by
  rwa [Recoverable, hn, hf]

namespace Upload

variable {u o : Upload} {S : Bytes} {start log : List net.Event} {fs fs' : Fs} {w w' : World} {i uid : Nat}

/-- If there is a part file, the server made it and it has no other name. -/
def Ours (u : Upload) (uid : Nat) (fs : Fs) : Prop :=
  fs.node u.partPath = none ∨ ∃ i, u.OnlyName fs i ∧ (fs.inode i).uid = uid

theorem fileAt_of_onlyName (hi : u.OnlyName fs i) : fs.fileAt u.partPath = some (fs.inode i).data :=
  fileAt_eq_some.mpr ⟨i, (hi _).mpr rfl, rfl⟩

theorem prefix_of_recoverable (h : Recoverable u.partPath S fs) (hi : u.OnlyName fs i) :
    (fs.inode i).data <+: S := by
  rcases h with h | ⟨P, hP, hpre⟩
  · rw [(hi _).mpr rfl] at h
    cases h
  · rw [fileAt_of_onlyName hi] at hP
    cases hP
    exact hpre

/-- The chunks that have arrived for the upload are those of `S`. -/
def Hears (u : Upload) (S : Bytes) (log : List net.Event) : Prop :=
  ∀ m ∈ received log, m.1.header.requestId = u.requestId → Carries S m.1

/-- A prefix of `S`, continued by what the client sent, is a longer prefix of `S`. -/
theorem Continues.prefix {P x : Bytes} (hx : u.Continues log P x) (hgot : u.Hears S log) (hP : P <+: S) :
    P ++ x <+: S := by
  obtain ⟨f, hf, hid, -, htype, chunk, hc, j, hj, hx⟩ := hx
  obtain ⟨t, ht⟩ := hgot f hf hid htype chunk hc
  have hrest : x <+: S.drop P.length := by
    rw [hj, ← List.drop_drop, ← ht]
    exact hx.trans (List.IsPrefix.drop ⟨t, rfl⟩ j)
  obtain ⟨s, rfl⟩ := hP
  rw [List.drop_left] at hrest
  exact (List.prefix_append_right_inj P).mpr hrest

theorem Change.recoverable (h : u.Change log fs fs') (hsafe : isSafeRemotePath u.metadata.filename = true)
    (hgot : u.Hears S log) (hr : Recoverable u.partPath S fs) :
    Recoverable u.partPath S fs' := by
  cases h with
  | same h => rwa [h]
  | makeDir p hp h =>
    have hne : u.partPath ≠ p := onTheWay_ne_state hsafe hp u.partName
    exact recoverable_congr (by rw [h.2.1, Function.update_of_ne hne]) (h.fileAt_eq _) hr
  | createPart i uid hb h =>
    refine .inr ⟨[], fileAt_eq_some.mpr ⟨i, ?_, ?_⟩, List.nil_prefix⟩
    · rw [h.2.2.1, Function.update_self]
    · rw [h.2.2.2, Function.update_self]
  | clearPart i hi h =>
    refine .inr ⟨[], fileAt_eq_some.mpr ⟨i, ?_, ?_⟩, List.nil_prefix⟩
    · rw [h, node_setData]
      exact (hi _).mpr rfl
    · rw [h, data_setData_self]
  | extendPart i x hb hi hlen hx h =>
    refine .inr ⟨_, fileAt_eq_some.mpr ⟨i, ?_, ?_⟩, hx.prefix hgot (prefix_of_recoverable hr hi)⟩
    · rw [h, node_setData]
      exact (hi _).mpr rfl
    · rw [h, data_setData_self]
  | dropPart h => exact .inl (by rw [h.2.2.1, Function.update_self])

/-- A prefix of `S` that is as long as `S`. -/
theorem Committed.stores (h : u.Committed fs fs') (hS : u.metadata.fileSize.toNat = S.length)
    (hr : Recoverable u.partPath S fs) : fs'.fileAt u.finalPath = some S := by
  obtain ⟨C, hpart, hfinal, hlen, -⟩ := h.final
  rcases hr with hr | ⟨P, hP, hpre⟩
  · rw [fileAt, hr] at hpart
    cases hpart
  · obtain rfl : P = C := Option.some.inj (hP.symm.trans hpart)
    rw [hfinal, hpre.eq_of_length (hlen.trans hS)]

/-- A step of the upload itself. -/
theorem Guarantee.recoverable {old : Option Bytes} (hg : u.Guarantee start w w')
    (hsafe : isSafeRemotePath u.metadata.filename = true) (hS : u.metadata.fileSize.toNat = S.length)
    (hgot : u.Hears S w.log) (hr : Recoverable u.partPath S w.host.fs)
    (hf : w.host.fs.fileAt u.finalPath = old ∨ w.host.fs.fileAt u.finalPath = some S) :
    Recoverable u.partPath S w'.host.fs ∧
      (w'.host.fs.fileAt u.finalPath = old ∨ w'.host.fs.fileAt u.finalPath = some S) := by
  obtain ⟨e, -, hren, hcom, hchg, -, -⟩ := hg
  by_cases hn : u.Renamed start w.log
  · rw [(hren hn).1]
    exact ⟨hr, hf⟩
  by_cases he : e = u.renameDone
  · exact ⟨.inl ((hcom hn he).part_gone hsafe), .inr ((hcom hn he).stores hS hr)⟩
  · have hc := hchg hn he
    exact ⟨hc.recoverable hsafe hgot hr, by rwa [hc.fileAt_eq (finalPath_ne_partPath hsafe)]⟩

/-- A prefix is continued to the whole. -/
theorem continued_of_prefix {P : Bytes} (hS : u.metadata.fileSize.toNat = S.length) (hP : P <+: S) :
    continued S (u.kept P) = S := by
  obtain ⟨t, rfl⟩ := hP
  rw [(continued_kept hS).1, List.drop_left, ite_self]

/-! The part file's owner. -/

theorem onlyName_update {node : Path → Option Node} {p part : Path} {n : Option Node}
    (h : ∀ q, node q = some (.file i) ↔ q = part) (hp : p ≠ part) (hn : n ≠ some (.file i)) :
    ∀ q, Function.update node p n q = some (.file i) ↔ q = part := by
  intro q
  by_cases hq : q = p
  · subst hq
    rw [Function.update_self]
    exact ⟨fun h => absurd h hn, fun h => absurd h hp⟩
  · rw [Function.update_of_ne hq]
    exact h q

theorem Ours.update {p : Path} {n : Option Node} (h : u.Ours uid fs) (hp : p ≠ u.partPath)
    (hn : ∀ i, u.OnlyName fs i → n ≠ some (.file i)) (hnode : fs'.node = Function.update fs.node p n)
    (hinode : ∀ i, u.OnlyName fs i → (fs'.inode i).uid = (fs.inode i).uid) : u.Ours uid fs' := by
  rcases h with h | ⟨i, hi, huid⟩
  · exact .inl (by rw [hnode, Function.update_of_ne hp.symm, h])
  · refine .inr ⟨i, ?_, by rw [hinode i hi, huid]⟩
    rw [OnlyName, hnode]
    exact onlyName_update hi hp (hn i hi)

theorem Ours.setData {j : Nat} {x : Bytes} (h : u.Ours uid fs) : u.Ours uid (fs.setData j x) := by
  refine h.imp id ?_
  rintro ⟨i, hi, huid⟩
  refine ⟨i, hi, ?_⟩
  by_cases hj : i = j
  · subst hj
    simpa [Fs.setData] using huid
  · rwa [inode_setData_ne hj]

theorem ours_created (hc : Created u.partPath i uid fs fs') : u.Ours uid fs' := by
  obtain ⟨-, hfresh, hnode, hinode⟩ := hc
  refine .inr ⟨i, fun q => ?_, by rw [hinode, Function.update_self]⟩
  rw [hnode, Function.update_apply]
  split
  · next hq => simp [hq]
  · next hq => exact ⟨fun h => absurd h (hfresh q), fun h => absurd h hq⟩

theorem Guarantee.ours (hg : u.Guarantee start w w') (hsafe : isSafeRemotePath u.metadata.filename = true)
    (huid : ∀ i uid', Created u.partPath i uid' w.host.fs w'.host.fs → uid' = uid) (h : u.Ours uid w.host.fs) :
    u.Ours uid w'.host.fs := by
  obtain ⟨e, -, hren, hcom, hchg, -, -⟩ := hg
  by_cases hn : u.Renamed start w.log
  · rwa [(hren hn).1]
  by_cases he : e = u.renameDone
  · exact .inl ((hcom hn he).part_gone hsafe)
  · cases hchg hn he with
    | same h' => rwa [h']
    | makeDir p hp h' =>
      exact h.update (onTheWay_ne_state hsafe hp u.partName).symm (by simp) h'.2.1 fun _ _ => by rw [h'.2.2]
    | createPart i uid' hb h' => exact huid i uid' h' ▸ ours_created h'
    | clearPart i hi h' => exact h' ▸ h.setData
    | extendPart i x hb hi hlen hx h' => exact h' ▸ h.setData
    | dropPart h' => exact .inl (by rw [h'.2.2.1, Function.update_self])

/-! ## Uploads to other paths -/

/-- Two uploads below one root that have neither their key nor their path in common. -/
structure Apart (o u : Upload) : Prop where
  root : o.root = u.root
  part : o.partPath ≠ u.partPath
  final : o.finalPath ≠ u.finalPath
  safe : isSafeRemotePath o.metadata.filename = true

namespace Apart

variable (A : o.Apart u)
include A

theorem stateRoot : o.stateRoot = u.stateRoot := by rw [Upload.stateRoot, A.root, Upload.stateRoot]

theorem onTheWay_ne {p : Path} (hp : o.OnTheWay p) : p ≠ u.partPath := by
  have h := onTheWay_ne_state A.safe hp u.partName
  rw [A.stateRoot] at h
  exact h.symm

theorem final_ne : o.finalPath ≠ u.partPath := fun h =>
  not_state_prefix A.safe (by rw [A.stateRoot, h]; exact List.prefix_append _ _)

theorem ne_final (hsafe : isSafeRemotePath u.metadata.filename = true) : o.partPath ≠ u.finalPath := fun h =>
  not_state_prefix hsafe (by rw [← A.stateRoot, ← h]; exact List.prefix_append _ _)

theorem inode_ne {j : Nat} (hj : o.OnlyName fs j) (hi : u.OnlyName fs i) : j ≠ i := by
  rintro rfl
  exact A.part ((hi _).mp ((hj _).mpr rfl))

/-- A step of another upload. -/
theorem step (uid : Nat) (hg : o.Guarantee start w w') (hsafe : isSafeRemotePath u.metadata.filename = true) :
    w'.host.fs.node u.partPath = w.host.fs.node u.partPath ∧
      w'.host.fs.fileAt u.partPath = w.host.fs.fileAt u.partPath ∧
      w'.host.fs.fileAt u.finalPath = w.host.fs.fileAt u.finalPath ∧
      (u.Ours uid w.host.fs → u.Ours uid w'.host.fs) := by
  obtain ⟨e, -, hren, hcom, hchg, -, -⟩ := hg
  by_cases hn : o.Renamed start w.log
  · rw [(hren hn).1]
    exact ⟨rfl, rfl, rfl, id⟩
  by_cases he : e = o.renameDone
  · have hc := hcom hn he
    refine ⟨hc.node_eq A.part.symm A.final_ne.symm, hc.fileAt_eq A.part.symm A.final_ne.symm,
      hc.fileAt_eq (A.ne_final hsafe).symm A.final.symm, fun h => ?_⟩
    obtain ⟨j, hj, -, -, -, hnode, hinode⟩ := hc
    refine h.imp (fun h => ?_) ?_
    · rw [hnode, Function.update_of_ne A.final_ne.symm, Function.update_of_ne A.part.symm, h]
    · rintro ⟨i, hi, huid⟩
      refine ⟨i, ?_, by rw [hinode, huid]⟩
      rw [OnlyName, hnode]
      refine onlyName_update (onlyName_update hi A.part (by simp)) A.final_ne ?_
      simpa using A.inode_ne hj hi
  · have hc := hchg hn he
    refine ⟨hc.node_eq (fun hp => A.onTheWay_ne hp rfl) A.part.symm, hc.fileAt_eq A.part.symm,
      hc.fileAt_eq (A.ne_final hsafe).symm, fun h => ?_⟩
    cases hc with
    | same h' => rwa [h']
    | makeDir p hp h' => exact h.update (A.onTheWay_ne hp) (by simp) h'.2.1 fun _ _ => by rw [h'.2.2]
    | createPart j uid' hb h' =>
      have hne : ∀ i, u.OnlyName w.host.fs i → j ≠ i := fun i hi hji => h'.2.1 _ (hji ▸ (hi _).mpr rfl)
      refine h.update A.part (fun i hi => by simpa using hne i hi) h'.2.2.1 fun i hi => ?_
      rw [h'.2.2.2, Function.update_of_ne (hne i hi).symm]
    | clearPart j hj h' => exact h' ▸ h.setData
    | extendPart j x hb hj hlen hx h' => exact h' ▸ h.setData
    | dropPart h' => exact h.update A.part (by simp) h'.2.2.1 fun _ _ => by rw [h'.2.2.2]

end Apart

end Upload

/-! ## Sessions -/

theorem receiveFile_other {cr : Crypto} {request : Frame} {root : Path} {limits : TransferLimits} {w : World}
    (ht : request.header.messageType ≠ .uploadRequest) :
    Safe (solo (exec cr) anyAnswer) Refusing (receiveFile request root limits) w fun r _ => r.ok = false := by
  unfold receiveFile
  simp only
  rw [if_pos (.inl ht)]
  exact rejectBeforeReady_refusing rfl

section
variable {cr : Crypto} {rely : net.Rely} {o : NetOp net.Call net.Msg} {r : net.Res o} {w w' : World}

theorem solo_euid (hs : solo (exec cr) rely o w r w') : w'.host.euid = w.host.euid := by
  cases o with
  | send m => cases hs.2; rfl
  | recv => cases hs.2; rfl
  | call c =>
    obtain ⟨h', he, rfl⟩ := Option.map_eq_some_iff.mp hs.2
    exact exec_euid he

theorem solo_created {p : Path} {i uid : Nat} (hs : solo (exec cr) rely o w r w')
    (hc : Created p i uid w.host.fs w'.host.fs) : uid = w.host.euid := by
  have hstill : w'.host.fs ≠ w.host.fs := fun h => by
    have hnode := congrFun hc.2.2.1 p
    rw [h, hc.1, Function.update_self] at hnode
    cases hnode
  cases o with
  | send m => cases hs.2; exact absurd rfl hstill
  | recv => cases hs.2; exact absurd rfl hstill
  | call c =>
    obtain ⟨h', he, rfl⟩ := Option.map_eq_some_iff.mp hs.2
    exact exec_created he hc

end

/-- The upload of `S` as `remote`, whoever asks for it: its paths depend on nothing else. -/
abbrev target (cr : Crypto) (root : Path) (remote : List UInt8) (S : Bytes) : Upload :=
  .ofSource cr root remote 0 {} S

/-- What holds after any number of attempts, the first of which found `first`. -/
structure Recovers (u : Upload) (S : Bytes) (uid : Nat) (first fs : Fs) : Prop where
  plain : fs.Plain u.root
  part : Recoverable u.partPath S fs
  final : fs.fileAt u.finalPath = first.fileAt u.finalPath ∨ fs.fileAt u.finalPath = some S
  ours : u.Ours uid first → u.Ours uid fs

/-- `send_file` tries to upload `S` to a server, and both are cut anywhere: any call may fail, any frame may
be lost, and either side may stop between any two steps. -/
def UploadAttempt (cr : Crypto) (root : Path) (remote : List UInt8) (S : Bytes) (uid : Nat) (fs fs' : Fs) : Prop :=
  ∃ (source : Path) (requestId : UInt64) (client server : TransferLimits) (w v : World)
    (x : Side net Host FileTransferResult) (y : Side net Host (Except FrameIoResult FileTransferResult)),
    w.log = [] ∧ v.log = [] ∧ Source w.host source S ∧ v.host.fs = fs ∧ v.host.euid = uid ∧
    JReach (exec cr) anyAnswer anyAnswer
      ((sendFile source remote requestId client, w), (serveUpload root server, v)) (x, y) ∧ y.2.host.fs = fs'

/-- Someone, honest or not, uploads to another path; the metadata that are asked for are in `M`. -/
def Elsewhere (cr : Crypto) (root : Path) (remote : List UInt8) (M : Set UploadMetadata) (uid : Nat)
    (fs fs' : Fs) : Prop :=
  ∃ (request : Frame) (limits : TransferLimits) (w : World) (c : Side net Host FileTransferResult),
    (∀ m, decodeUploadMetadata (.of request.payload) = .ok m → m ∈ M ∧ m.filename ≠ remote) ∧
    w.host.fs = fs ∧ w.host.euid = uid ∧
    Reach (solo (exec cr) anyAnswer) (receiveFile request root limits, w) c ∧ c.2.host.fs = fs'

section
variable {cr : Crypto} {root : Path} {remote : List UInt8} {S : Bytes} {uid : Nat} {first fs fs' : Fs}

/-- What a server's step can do when an honest client uploads `S`. -/
def Serving (u : Upload) (S : Bytes) (w w' : World) : Prop :=
  w'.host.fs = w.host.fs ∨ S.length < 2 ^ 64 ∧ ∃ start, u.Guarantee start w w'

theorem serveUpload_serving {requestId : UInt64} {chunkSize : Nat} {server : TransferLimits} {v : World}
    (hsafe : isSafeRemotePath remote = true) (hroot : v.host.fs.Plain root) :
    Safe (solo (exec cr) (assuming anyAnswer fun m =>
        S.length < 2 ^ 64 ∧ Client.Utters ⟨S, remote, requestId, chunkSize⟩ m.1))
      (Serving (.ofSource cr root remote requestId server S) S) (serveUpload root server) v fun _ _ => True := by
  unfold serveUpload
  refine safe_receiveFrame fun r hr => ⟨.inl rfl, fun _ _ => safe_pure trivial, ?_⟩
  rintro f rfl
  obtain ⟨-, hS, hf⟩ := hr
  have hfile : Safe (solo (exec cr) anyAnswer) (Serving (.ofSource cr root remote requestId server S) S)
      (receiveFile f.1 root server) (v.push ⟨.recv, .ok f⟩) fun _ _ => True := by
    rcases hf with hf | hf
    · rw [hf]
      exact safe_mono (safe_weaken (receiveFile_safely cr root server hroot (decodeUploadMetadata_encode hsafe))
        fun _ _ hg => .inr ⟨hS, _, hg⟩) fun _ _ _ => trivial
    · have htype : f.1.header.messageType ≠ .uploadRequest := by
        rcases hf.1 with h | h <;> rw [h] <;> decide
      exact safe_mono (safe_weaken (receiveFile_other htype) fun _ _ ⟨_, _, hfs, _⟩ => .inl hfs)
        fun _ _ _ => trivial
  exact safe_bind (safe_mono (safe_rely (fun _ _ _ h => h.1) hfile) fun _ _ _ => safe_pure trivial)

/-- An attempt leaves what the next one can recover from. -/
theorem attempt_recovers (hsafe : isSafeRemotePath remote = true) (h : UploadAttempt cr root remote S uid fs fs')
    (hr : Recovers (target cr root remote S) S uid first fs) :
    Recovers (target cr root remote S) S uid first fs' := by
  obtain ⟨source, requestId, client, server, w, v, x, y, hw, hv, hsource, rfl, rfl, hrun, rfl⟩ := h
  have hserver := (hrun.assumeRight fun x hx m hm => (sendFile_utters hsource hx m hm).resolve_left
    (by rw [hw]; rintro ⟨⟩)).right
  have hkept := (serveUpload_serving hsafe hr.plain).reach_step
    (fun v' => Recovers (target cr root remote S) S v.host.euid first v'.host.fs ∧ v'.host.euid = v.host.euid ∧
      ∀ m ∈ received v'.log, S.length < 2 ^ 64 ∧ Client.Utters ⟨S, remote, requestId, client.chunkSize⟩ m.1)
    ⟨hr, rfl, by rw [hv]; rintro m ⟨⟩⟩ ?_ hserver
  · exact hkept.1
  · rintro o v1 r v2 hs hg ⟨hr1, huid, hgot⟩
    refine ⟨?_, (solo_euid hs).trans huid, received_assuming hs hgot⟩
    rcases hg with hfs | ⟨hS, start, hg⟩
    · rwa [hfs]
    · have hsize : (UInt64.ofNat S.length).toNat = S.length := by
        rw [UInt64.toNat_ofNat', Nat.mod_eq_of_lt hS]
      obtain ⟨hpart, hfinal⟩ := hg.recoverable hsafe hsize (fun m hm _ => (hgot m hm).2.carries) hr1.part hr1.final
      exact ⟨hg.grows.plain hr1.plain, hpart, hfinal, fun h =>
        hg.ours hsafe (fun i uid' hc => (solo_created hs hc).trans huid) (hr1.ours h)⟩

/-- Uploads to different paths are apart, if SHA-256 tells their metadata apart. -/
theorem apart_of_filename_ne {request : Frame} {limits : TransferLimits} {m : UploadMetadata}
    (hd : decodeUploadMetadata (.of request.payload) = .ok m) (hne : m.filename ≠ remote)
    (hfree : cr.sha256 (encodeUploadMetadata m) = cr.sha256
      (encodeUploadMetadata (target cr root remote S).metadata) →
      encodeUploadMetadata m = encodeUploadMetadata (target cr root remote S).metadata) :
    (uploadOf cr request root limits m).Apart (target cr root remote S) := by
  have hsafe := safe_of_decodeUploadMetadata hd
  refine ⟨rfl, fun h => hne ?_, fun h => hne (components_injective (List.append_cancel_left h)), hsafe⟩
  have hname := List.singleton_inj.mp (List.append_cancel_left h)
  rw [encodeUploadMetadata_inj hsafe (hfree (partNameOf_injective hname))]

theorem elsewhere_recovers {M : Set UploadMetadata} (hsafe : isSafeRemotePath remote = true)
    (hfree : Set.InjOn cr.sha256 (encodeUploadMetadata '' M)) (hours : (target cr root remote S).metadata ∈ M)
    (h : Elsewhere cr root remote M uid fs fs') (hr : Recovers (target cr root remote S) S uid first fs) :
    Recovers (target cr root remote S) S uid first fs' := by
  obtain ⟨request, limits, w, c, hM, rfl, rfl, hrun, rfl⟩ := h
  cases hd : decodeUploadMetadata (.of request.payload) with
  | error error =>
    refine (receiveFile_refusing cr root limits hd).reach
      (fun w' => Recovers (target cr root remote S) S w.host.euid first w'.host.fs) hr ?_ hrun
    rintro a b ha ⟨e, -, hfs, -⟩
    rwa [hfs]
  | ok m =>
    obtain ⟨hm, hne⟩ := hM m hd
    have hapart : (uploadOf cr request root limits m).Apart (target cr root remote S) :=
      apart_of_filename_ne hd hne fun h => hfree ⟨m, hm, rfl⟩ ⟨_, hours, rfl⟩ h
    refine (receiveFile_safely cr root limits hr.plain hd).reach
      (fun w' => Recovers (target cr root remote S) S w.host.euid first w'.host.fs) hr (fun a b ha hg => ?_) hrun
    obtain ⟨hnode, hpart, hfinal, hkeep⟩ := hapart.step w.host.euid hg hsafe
    exact ⟨hg.grows.plain ha.plain, recoverable_congr hnode hpart ha.part, by rw [hfinal]; exact ha.final,
      fun h => hkeep (ha.ours h)⟩

end

/-- **Restart recovery.**  After any number of attempts to upload `S`, each cut anywhere, and of sessions
for other paths in between: the part file is absent or a prefix of `S`, the final path holds what it
held or `S`, a part file that was the server's own still is, and an attempt that no call, no refusal and no lost
frame stops ends with `Success` on both sides and `S` at the final path, in every interleaving.  No symbolic link
is above the root as it is spelled (`Plain`). -/
theorem restart_recovery (cr : Crypto) {root : Path} {remote : List UInt8} {S : Bytes} {M : Set UploadMetadata}
    {uid : Nat} {fs fs' : Fs} (hroot : fs.Plain root) (hsafe : isSafeRemotePath remote = true)
    (hours : (target cr root remote S).metadata ∈ M)
    (hfree : Set.InjOn cr.sha256 (encodeUploadMetadata '' M))
    (hpart : Recoverable (target cr root remote S).partPath S fs)
    (hrun : Relation.ReflTransGen (fun a b => UploadAttempt cr root remote S uid a b ∨
      Elsewhere cr root remote M uid a b)
      fs fs') :
    let u := target cr root remote S
    Recoverable u.partPath S fs' ∧
    (fs'.fileAt u.finalPath = fs.fileAt u.finalPath ∨ fs'.fileAt u.finalPath = some S) ∧
    (u.Ours uid fs → u.Ours uid fs') ∧
    ∀ (source : Path) (requestId : UInt64) (client server : TransferLimits) (w v : World) (P : Bytes),
      requestId ≠ 0 → validLimits client = true → validLimits server = true → client.chunkSize ≤ server.chunkSize →
      S.length ≤ client.maxFileSize.toNat → S.length ≤ server.maxFileSize.toNat → Source w.host source S →
      Linked w v → v.host.fs = fs' → (Upload.ofSource cr root remote requestId server S).Fit v.host P →
      Together cr (sendFile source remote requestId client, w) (serveUpload root server, v) fun r _ r' v' =>
        r.status = .success ∧ (∃ stored, r' = .ok stored ∧ stored.status = .success) ∧
          v'.host.fs.fileAt u.finalPath = some S := by
  intro u
  have hr : Recovers u S uid fs fs' := by
    induction hrun with
    | refl => exact ⟨hroot, hpart, .inl rfl, id⟩
    | tail _ hs ih =>
      rcases hs with hs | hs
      · exact attempt_recovers hsafe hs ih
      · exact elsewhere_recovers hsafe hfree hours hs ih
  refine ⟨hr.part, hr.final, hr.ours, ?_⟩
  rintro source requestId client server w v P hid hclient hserver hchunk hmaxc hmaxs hsource hlinked rfl hfit
  refine (Upload.upload_together hid hsafe hclient hserver hchunk hmaxc hmaxs hsource hlinked hfit).mono ?_
  rintro y ⟨r, r', hy, hy', rfl, rfl, hstored⟩
  refine ⟨_, _, hy, hy', rfl, ⟨_, rfl, rfl⟩, ?_⟩
  have hP : P <+: S := by
    rcases hfit.part with ⟨-, rfl⟩ | ⟨i, hi, -, rfl⟩
    · exact List.nil_prefix
    · exact Upload.prefix_of_recoverable hr.part hi
  have hsize : (UInt64.ofNat S.length).toNat = S.length := by
    have hlt := server.maxFileSize.toNat_lt
    rw [UInt64.toNat_ofNat', Nat.mod_eq_of_lt (by omega)]
  exact hstored.final.trans (congrArg some (Upload.continued_of_prefix hsize hP))

/-! The server dies after the second of three short writes, and the upload is tried again. -/

def shortWrites (cr : Crypto) (c : Posix.Call) (h : Host) : Except Nat (Posix.Val c) :=
  match c with
  | .write _ _ => .ok 1
  | c => answer cr c h

def sampleCut : Side net Host FileTransferResult × Side net Host (Except FrameIoResult FileTransferResult) :=
  schedule (exec sampleCrypto) (.io (.peerClosed 0)) (answer sampleCrypto) (shortWrites sampleCrypto) 31
    ((sendFile [bytesOf "s"] (bytesOf "a") 7 {}, ⟨sampleSourceHost, []⟩),
      (serveUpload sampleRoot {}, ⟨sampleHost, []⟩))

theorem attempt_sampleCut :
    UploadAttempt sampleCrypto sampleRoot (bytesOf "a")
      (bytesOf "abc") 1000 sampleHost.fs sampleCut.2.2.host.fs := by
  have hr : SReach (exec sampleCrypto) closed
      ((sendFile [bytesOf "s"] (bytesOf "a") 7 {}, ⟨sampleSourceHost, []⟩),
        (serveUpload sampleRoot {}, ⟨sampleHost, []⟩)) sampleCut :=
    sreach_schedule ⟨_, rfl⟩ _ _ (List.prefix_refl _) (List.prefix_refl _) 31
  exact ⟨_, _, _, _, _, _, _, _, rfl, rfl, source_sampleSourceHost, rfl, rfl, hr.jreach fun _ _ _ => trivial, rfl⟩

theorem restart_recovery_sample :
    sampleCut.2.2.host.fs.fileAt (target sampleCrypto sampleRoot (bytesOf "a") (bytesOf "abc")).partPath =
        some (bytesOf "ab") ∧
      Together sampleCrypto (sendFile [bytesOf "s"] (bytesOf "a") 8 {}, ⟨sampleSourceHost, []⟩)
        (serveUpload sampleRoot {}, ⟨{ sampleHost with fs := sampleCut.2.2.host.fs }, []⟩) fun r _ _ v' =>
          r.status = .success ∧ v'.host.fs.fileAt [bytesOf "d", bytesOf "a"] = some (bytesOf "abc") := by
  let u := target sampleCrypto sampleRoot (bytesOf "a") (bytesOf "abc")
  have hnone : sampleHost.fs.node u.partPath = none := by decide +kernel
  have hab : sampleCut.2.2.host.fs.fileAt u.partPath = some (bytesOf "ab") := by decide +kernel
  obtain ⟨-, -, hours, hnext⟩ := restart_recovery sampleCrypto (M := {u.metadata}) sampleRoot_plain (by decide) rfl
    (by rw [Set.image_singleton]; exact Set.injOn_singleton _ _) (.inl hnone) (.single (.inl attempt_sampleCut))
  refine ⟨hab, ?_⟩
  have hfit : ∃ i, u.OnlyName sampleCut.2.2.host.fs i ∧ (sampleCut.2.2.host.fs.inode i).uid = 1000 ∧
      (sampleCut.2.2.host.fs.inode i).data = bytesOf "ab" := by
    rcases hours (.inl hnone) with hgone | ⟨i, hi, huid⟩
    · rw [fileAt, show sampleCut.2.2.host.fs.node u.partPath = none from hgone] at hab
      cases hab
    · exact ⟨i, hi, huid, Option.some.inj ((Upload.fileAt_of_onlyName hi).symm.trans hab)⟩
  refine (hnext [bytesOf "s"] 8 {} {} ⟨sampleSourceHost, []⟩ ⟨{ sampleHost with fs := sampleCut.2.2.host.fs }, []⟩
    (bytesOf "ab") (by decide) (by decide) (by decide) (by decide) (by decide) (by decide) source_sampleSourceHost
    ⟨rfl, rfl⟩ rfl (fit_sample 8 (by decide +kernel) (by decide +kernel) (by decide +kernel) (by decide +kernel)
      hfit)).mono ?_
  rintro y ⟨r, r', hr, hr', hok, -, hfinal⟩
  exact ⟨r, r', hr, hr', hok, hfinal⟩

end SyncWire
