import SyncWire.Receive.Account

/-!
# The ways out of `receive_file`

`Holding` is what is known while the part file is ours: the descriptor, the inode, its
only name, the budget.  `Loaded` adds that file content, position, offset and running
checksum are in step.  From there a transfer is rejected (`Armed.reject`), interrupted
(`interrupted_safely`) or committed (`commit_safely`); the rename happens only when the
content is complete and has the declared checksum.
-/

namespace SyncWire

open Wire Effect Posix Posix.Fs FileTransfer

namespace Upload

/-- The part file is open, regular, ours alone, and the budget holds. -/
structure Holding (u : Upload) (h : Host) (d f : Fd) (i pos : Nat) : Prop where
  part : h.files f = some (.regular i pos)
  dir : h.files d = some (.directory u.stateRoot)
  ne : f ≠ d
  lt : f < h.nextFd
  dlt : d < h.nextFd
  only : u.OnlyName h.fs i
  budget : u.Budget h.fs
  parent : h.fs.node u.finalPath.dropLast = some .dir

variable {u : Upload} {start : List net.Event} {P : Bytes} {w : World} {d f : Fd} {i pos : Nat}
  {chunks : List FileChunk} {chunk : FileChunk}

/-! ## The state directory and the part file's data -/

theorem ne_of_onlyName {fs : Fs} {p : Path} {j : Nat} (ho : u.OnlyName fs i) (hp : p ≠ u.partPath)
    (hj : fs.node p = some (.file j)) : j ≠ i := by
  rintro rfl
  exact hp ((ho p).mp hj)

/-- Files other than the part file do not see what is written to it. -/
theorem fileAt_setData {fs : Fs} {p : Path} {x : Bytes} (ho : u.OnlyName fs i) (hp : p ≠ u.partPath) :
    (fs.setData i x).fileAt p = fs.fileAt p :=
  fileAt_congr node_setData fun _ hj => by rw [inode_setData_ne (ne_of_onlyName ho hp hj)]

theorem ne_partPath {n : Name} (h : n ≠ u.partName) : u.stateRoot ++ [n] ≠ u.partPath := fun he =>
  h (List.singleton_inj.mp (List.append_cancel_left he))

/-- The budget depends on the part files of other uploads. -/
theorem Budget.congr {fs fs' : Fs} (hb : u.Budget fs)
    (hn : ∀ n, n ≠ u.partName → fs'.node (u.stateRoot ++ [n]) = fs.node (u.stateRoot ++ [n]))
    (hf : ∀ n, n ≠ u.partName → fs'.fileAt (u.stateRoot ++ [n]) = fs.fileAt (u.stateRoot ++ [n])) :
    u.Budget fs' := by
  have ho : u.others fs' = u.others fs := by
    ext n
    simp only [others, Finset.mem_erase, mem_names]
    exact and_congr_right fun hne => by rw [hn n hne]
  rw [Budget, ho]
  have hs : ∑ n ∈ u.others fs, fs'.sizeAt (u.stateRoot ++ [n]) =
      ∑ n ∈ u.others fs, fs.sizeAt (u.stateRoot ++ [n]) :=
    Finset.sum_congr rfl fun n hm => by rw [sizeAt, sizeAt, hf n (Finset.mem_erase.mp hm).1]
  rw [hs]
  exact hb

theorem Budget.setData {fs : Fs} {x : Bytes} (hb : u.Budget fs) (ho : u.OnlyName fs i) :
    u.Budget (fs.setData i x) := hb.congr (fun _ _ => node_setData) fun _ hn => fileAt_setData ho (ne_partPath hn)

/-! ## `Holding` along a step -/

namespace Holding

variable {h h' : Host} (H : u.Holding h d f i pos)
include H

theorem same (hs : h.Same h') : u.Holding h' d f i pos := by
  obtain ⟨h1, h2, h3, -⟩ := hs
  exact ⟨by rw [h2]; exact H.part, by rw [h2]; exact H.dir, H.ne, by rw [h3]; exact H.lt,
    by rw [h3]; exact H.dlt, by rw [h1]; exact H.only, by rw [h1]; exact H.budget, by rw [h1]; exact H.parent⟩

theorem seek (pos' : Nat) : u.Holding (h.setFile f (.regular i pos')) d f i pos' :=
  ⟨by simp, by rw [Host.setFile_files_ne _ _ H.ne.symm]; exact H.dir, H.ne, H.lt, H.dlt, H.only, H.budget,
    H.parent⟩

theorem store (x : Bytes) : u.Holding { h with fs := h.fs.setData i x } d f i pos :=
  ⟨H.part, H.dir, H.ne, H.lt, H.dlt, H.only, H.budget.setData H.only, H.parent⟩

end Holding

/-! ## Leaving -/

/-- Enough to clean up and reject. -/
structure Armed (u : Upload) (start : List net.Event) (d f : Fd) (w : World) : Prop where
  isOpen : u.Open start w.log
  dir : w.host.files d = some (.directory u.stateRoot)
  ne : f ≠ d

theorem Holding.armed (H : u.Holding w.host d f i pos) (ho : u.Open start w.log) : u.Armed start d f w :=
  ⟨ho, H.dir, H.ne⟩

theorem Armed.look (A : u.Armed start d f w) {c : Posix.Call} {r : Except Nat (Posix.Val c)}
    (hc : c.looks = true) : u.Armed start d f (w.push ⟨.call c, r⟩) := ⟨A.isOpen.look hc, A.dir, A.ne⟩

theorem TransferResultCode.raw_injective {a b : TransferResultCode} (h : a.raw = b.raw) : a = b :=
  Option.some.inj (by rw [← TransferResultCode.ofRaw_raw a, h, TransferResultCode.ofRaw_raw])

/-- A rejection, if the guarantee admits the frame. -/
theorem sendRejection_safe {cr : Crypto} {rely : net.Rely} {G : World → World → Prop}
    {requestId transferId : UInt64} {result : FileTransferResult}
    (hg : ∀ (hv : (makeFrame .transferResult requestId transferId
        (encodeTransferResult (resultCodeForStatus result.status))).Valid) r, G w (w.push ⟨.send ⟨_, hv⟩, r⟩))
    {Q : FileTransferResult → World → Prop} (hres : result.ok = false)
    (hQ : ∀ m s r, ¬ Reports m → r.ok = false → Q r (w.push ⟨.send m, s⟩)) :
    Safe (solo (exec cr) rely) G (do
      let sent ← sendResult requestId transferId (resultCodeForStatus result.status)
      if sent.ok then pure result else pure (frameError sent)) w Q := by
  have hv : (makeFrame .transferResult requestId transferId
      (encodeTransferResult (resultCodeForStatus result.status))).Valid :=
    makeFrame_valid rfl (by simp [encodeTransferResult])
  have hno : ¬ Reports ⟨_, hv⟩ := by rintro (h | h) <;> cases h
  refine safe_sendValid hv fun s => ⟨hg hv s, ?_⟩
  split
  · exact safe_pure (hQ _ _ _ hno hres)
  · exact safe_pure (hQ _ _ _ hno rfl)

theorem serverFrame_result {transferId : UInt64} {payload : List UInt8}
    {hv : (makeFrame .transferResult u.requestId transferId payload).Valid} {r : Except IoFailure Unit} :
    u.ServerFrame (⟨.send ⟨_, hv⟩, r⟩ : net.Event) := by
  intro f r' h
  cases h
  exact ⟨rfl, .inr (.inr rfl)⟩

/-- The frame of a rejection is no success. -/
theorem not_success_of_rejection {requestId transferId : UInt64} {status : FileTransferStatus}
    {hv : (makeFrame .transferResult requestId transferId
      (encodeTransferResult (resultCodeForStatus status))).Valid} {r : Except IoFailure Unit} :
    ¬ IsResult (⟨.send ⟨_, hv⟩, r⟩ : net.Event) .success := by
  rintro ⟨f', r', he, -, hpay⟩
  cases he
  exact absurd (TransferResultCode.raw_injective (List.singleton_inj.mp hpay))
    (resultCodeForStatus_ne_success _)

/-- A rejection, before the rename. -/
theorem sendRejection_safely (ho : u.Open start w.log) (transferId : UInt64) {result : FileTransferResult}
    (hres : result.ok = false)
    (hout : ∀ m s r, ¬ Reports m → r.ok = false → u.Outcome start P r (w.push ⟨.send m, s⟩)) :
    u.Safely start (do
      let sent ← sendResult u.requestId transferId (resultCodeForStatus result.status)
      if sent.ok then pure result else pure (frameError sent)) w (u.Outcome start P) := by
  refine sendRejection_safe (fun hv r => ⟨_, rfl, fun hr => absurd hr ho.not_renamed,
    fun _ he => absurd he send_ne_renameDone, fun _ _ => .same rfl, serverFrame_result,
    fun code hc => ⟨?_, ?_⟩⟩) hres hout
  · rintro rfl
    exact absurd hc not_success_of_rejection
  · exact fun _ hr => absurd hr ho.not_renamed

theorem rejectBeforeReady_safely (ho : u.Open start w.log) (hu : Unready start w.log)
    {result : FileTransferResult} (hres : result.ok = false) :
    u.Safely start (rejectBeforeReady u.requestId result) w (u.Outcome start P) :=
  sendRejection_safely ho 0 hres fun m _ _ hm hr => outcome_unready hr (hu.push (o := .send m) hm)

theorem rejectBeforeReady_abides {R : Fd → Progress → Sys FileTransferResult → Prop} (ho : u.Open start w.log)
    (hu : Unready start w.log) {result : FileTransferResult} (hres : result.ok = false) :
    u.Abides start P R (rejectBeforeReady u.requestId result) w (u.Outcome start P) :=
  (rejectBeforeReady_safely ho hu hres).abides (idle_rejectBeforeReady _ _)

/-- `cleanup` removes the part file, unless `unlinkat` fails. -/
theorem cleanup_safely (A : u.Armed start d f w) {Q : Unit → World → Prop}
    (hQ : ∀ w', u.Open start w'.log → (Clean start w'.log → u.Gone w') → Q () w') :
    u.Safely start (cleanup (u.transfer d f) false) w Q := by
  refine safe_sys fun r h' he => ?_
  obtain ⟨hfs, -, -, hfiles⟩ := exec_close he
  have ho1 := A.isOpen.call (c := .close f) (r := r) (by simp)
  have hd := (hfiles d A.ne.symm).trans A.dir
  refine ⟨guarantee_quiet rfl hfs (call_ne_renameDone (by simp [transfer])) quiet_call, ?_⟩
  refine safe_sys fun r' h'' he' => ?_
  have ho2 := ho1.call (c := .unlinkat d u.partName) (r := r') (by simp)
  cases r' with
  | error errno =>
    refine ⟨guarantee_quiet rfl (exec_error he').1 (call_ne_renameDone (by simp)) quiet_call, ?_⟩
    exact safe_pure (hQ _ ho2 fun hc => absurd (hc.pop ho1).2 Bool.false_ne_true)
  | ok _ =>
    obtain ⟨hrem, -⟩ := exec_unlinkat_ok hd he'
    refine ⟨guarantee_change ho1 rfl (by simp) (.dropPart hrem), safe_pure (hQ _ ho2 fun _ => ⟨?_, ?_⟩)⟩
    · change h''.fs.node u.partPath = none
      rw [hrem.2.2.1]
      exact Function.update_self ..
    · exact not_interrupted fun fd he => by cases he

theorem Armed.reject (A : u.Armed start d f w) {result : FileTransferResult} (hres : result.ok = false) :
    u.Safely start (rejectTransfer (u.transfer d f) false result) w (u.Outcome start P) := by
  refine safe_bind (cleanup_safely A fun w' ho' hgone => sendRejection_safely ho' u.requestId hres ?_)
  exact fun m s r _ hr => outcome_gone (done_of_not_ok hr) fun hc => Gone.send (hgone (hc.pop ho').1).1

/-! ## Content, position, offset and running checksum -/

/-- They are in step: the part file holds `D`. -/
structure Loaded (u : Upload) (start : List net.Event) (d f : Fd) (p : Progress) (D : Bytes) (w : World) :
    Prop where
  isOpen : u.Open start w.log
  part : ∃ i, u.Holding w.host d f i D.length ∧ (w.host.fs.inode i).data = D
  offset : p.offset.toNat = D.length
  fits : D.length ≤ u.metadata.fileSize.toNat
  sum : p.checksum = ({} : Crc32).update D

namespace Loaded

variable {p : Progress} {D : Bytes}

theorem armed (L : u.Loaded start d f p D w) : u.Armed start d f w := by
  obtain ⟨i, H, -⟩ := L.part
  exact H.armed L.isOpen

theorem held (L : u.Loaded start d f p D w) : u.Held f p D w.host := by
  obtain ⟨i, H, hD⟩ := L.part
  exact ⟨⟨i, H.part, (H.only _).mpr rfl, hD⟩, L.offset, L.fits, L.sum⟩

theorem look (L : u.Loaded start d f p D w) {c : Posix.Call} {r : Except Nat (Posix.Val c)}
    (hc : c.looks = true) : u.Loaded start d f p D (w.push ⟨.call c, r⟩) :=
  ⟨L.isOpen.look hc, L.part, L.offset, L.fits, L.sum⟩

theorem send (L : u.Loaded start d f p D w) {m : WireFrame} {r : Except IoFailure Unit} :
    u.Loaded start d f p D (w.push ⟨.send m, r⟩) := ⟨L.isOpen.send, L.part, L.offset, L.fits, L.sum⟩

theorem recv (L : u.Loaded start d f p D w) {r : Except ReceiveFailure WireFrame} :
    u.Loaded start d f p D (w.push ⟨.recv, r⟩) := ⟨L.isOpen.recv, L.part, L.offset, L.fits, L.sum⟩

/-- A chunk that was checked against what is missing fits, and the offset behind it does not wrap. -/
theorem room (L : u.Loaded start d f p D w) {data : Bytes}
    (hfit : data.length ≤ (u.metadata.fileSize - p.offset).toNat) :
    D.length + data.length ≤ u.metadata.fileSize.toNat ∧
      (p.offset + UInt64.ofNat data.length).toNat = (D ++ data).length := by
  have hfits := L.fits
  have hpo : p.offset ≤ u.metadata.fileSize := UInt64.le_iff_toNat_le.mpr (by rw [L.offset]; exact hfits)
  obtain ⟨hadd, -⟩ := toNat_add_of_le hpo hfit
  rw [UInt64.toNat_sub_of_le _ _ hpo, L.offset] at hfit
  rw [hadd, L.offset, List.length_append]
  exact ⟨by omega, rfl⟩

end Loaded

/-- After a lost connection the part file is kept, if it can be synced; otherwise it is removed. -/
theorem interrupted_safely {p : Progress} (L : u.Loaded start d f p (u.content P chunks) w)
    (hacc : u.Accepted start w.log chunks) {resumedFrom : UInt64} {io : FrameIoResult}
    (hlost : io.status = .peerClosed ∨ io.status = .systemError → ∃ l e, w.log = l ++ [e] ∧ Lost e) :
    u.Safely start (interrupted (u.transfer d f) p.offset resumedFrom io) w (u.Outcome start P) := by
  have hgone : ∀ {w' : World} {result : FileTransferResult}, u.Armed start d f w' → result.ok = false →
      u.Safely start (do cleanup (u.transfer d f) false; pure result) w' (u.Outcome start P) := fun A hres =>
    safe_bind (cleanup_safely A fun _ _ hg => safe_pure (outcome_gone (done_of_not_ok hres) hg))
  unfold interrupted
  simp only
  split
  · next hio =>
    obtain ⟨l, e, hl, hlo⟩ := hlost hio
    refine safely_look rfl fun r _ => ?_
    cases r with
    | error errno => exact hgone (L.armed.look rfl) rfl
    | ok _ =>
      obtain ⟨i, -, hn, hdata⟩ := L.held.file
      refine safe_pure ⟨done_of_not_ok rfl, fun _ _ => .inr ⟨⟨l, e, f, ?_, hlo⟩, chunks, hacc.call,
        fileAt_eq_some.mpr ⟨i, hn, hdata⟩, L.offset⟩⟩
      rw [NetSig.Local.push_log, hl, List.append_assoc]
      rfl
  · exact hgone L.armed rfl

/-! ## The rename and after -/

/-- The final path is neither the state directory nor below it. -/
theorem not_state_prefix (hsafe : isSafeRemotePath u.metadata.filename = true) :
    ¬ u.stateRoot <+: u.finalPath := by
  rintro ⟨t, ht⟩
  rw [stateRoot, finalPath, List.append_assoc] at ht
  have hmem : kPartialDirectory ∈ components u.metadata.filename := by
    rw [← List.append_cancel_left ht]
    simp
  exact absurd (((isSafeRemotePath_iff _).mp hsafe).2.2 _ hmem) (by decide)

theorem finalPath_ne_partPath (hsafe : isSafeRemotePath u.metadata.filename = true) :
    u.finalPath ≠ u.partPath := fun h =>
  not_state_prefix hsafe (h ▸ List.prefix_append _ _)

/-- The rename has been done, and `tail` has happened since. -/
structure After (u : Upload) (start : List net.Event) (d f : Fd) (tail : List net.Event) (w : World) :
    Prop where
  log : ∃ l, w.log = start ++ l ++ u.renameDone :: tail
  dir : w.host.files d = some (.directory u.stateRoot)
  lt : f < w.host.nextFd
  dlt : d < w.host.nextFd
  ne : f ≠ d
  gone : w.host.fs.node u.partPath = none

namespace After

variable {tail : List net.Event}

theorem renamed (A : u.After start d f tail w) : u.Renamed start w.log := by
  obtain ⟨l, hl⟩ := A.log
  exact ⟨l ++ u.renameDone :: tail, by rw [hl, List.append_assoc], by simp⟩

theorem look (A : u.After start d f tail w) {c : Posix.Call} {r : Except Nat (Posix.Val c)} :
    u.After start d f (tail ++ [⟨.call c, r⟩]) (w.push ⟨.call c, r⟩) := by
  obtain ⟨l, hl⟩ := A.log
  exact ⟨⟨l, by rw [NetSig.Local.push_log, hl]; simp⟩, A.dir, A.lt, A.dlt, A.ne, A.gone⟩

/-- A failure to open or sync a directory is reported, and nothing is deleted. -/
theorem report (A : u.After start d f tail w)
    (hfail : ∃ e ∈ tail, ∃ errno, e = ⟨.call (.openDir u.finalPath.dropLast), .error errno⟩ ∨
      ∃ fd p, fd ≠ f ∧ w.host.files fd = some (.directory p) ∧ e = ⟨.call (.fsync fd), .error errno⟩)
    {result : FileTransferResult} (hres : result.ok = false) :
    u.Safely start (rejectTransfer (u.transfer d f) true result) w (u.Outcome start P) := by
  refine safe_bind (safe_sys fun r h' he => ?_)
  obtain ⟨hfs, -, -, hfiles⟩ := exec_close he
  refine ⟨guarantee_quiet rfl hfs (call_ne_renameDone (by simp)) quiet_call, ?_⟩
  obtain ⟨l, hl⟩ := A.log
  let w1 : World := ⟨h', w.log ++ [⟨.call (.close f), r⟩]⟩
  have hgone : w1.host.fs.node u.partPath = none := by
    change h'.fs.node u.partPath = none
    rw [hfs]
    exact A.gone
  have hsync : u.DirectorySyncFailed start w1 := by
    obtain ⟨e, hm, errno, hor⟩ := hfail
    refine ⟨l, tail ++ [⟨.call (.close f), r⟩], by simp [w1, hl], e, List.mem_append_left _ hm, errno, ?_⟩
    refine hor.imp id ?_
    rintro ⟨fd, p, hne, hp, he⟩
    exact ⟨fd, p, (hfiles fd hne).trans hp, he⟩
  have hren : u.Renamed start w1.log :=
    ⟨l ++ u.renameDone :: (tail ++ [⟨.call (.close f), r⟩]), by simp [w1, hl], by simp⟩
  refine safe_pure (sendRejection_safe (fun hv s => ?_) hres fun m s r _ hr =>
    outcome_gone (done_of_not_ok hr) fun _ => Gone.send hgone)
  refine ⟨_, rfl, fun _ => ⟨rfl, send_ne_renameDone⟩, fun h _ => absurd hren h, fun h _ => absurd hren h,
    serverFrame_result, ?_⟩
  rintro code -
  exact ⟨fun _ => hren, fun _ _ => hsync⟩

end After

theorem finish_safely {p : Progress} (A : u.After start d f [] w)
    (hpar : w.host.fs.node u.finalPath.dropLast = some .dir) :
    u.Safely start (finish (u.transfer d f) p) w (u.Outcome start P) := by
  have hplain : w.host.fs.Plain u.finalPath.dropLast := by
    intro q s hs he t ht
    rw [he] at hpar
    have := w.host.fs.node_of_append q s hs hpar
    rw [ht] at this
    cases this
  refine safe_bind (safe_sys fun r h' he => ?_)
  cases r with
  | error e =>
    have hs := exec_error he
    refine ⟨guarantee_quiet rfl hs.1 (call_ne_renameDone (by simp)) quiet_call, ?_⟩
    have A1 : u.After start d f [⟨.call (.openDir u.finalPath.dropLast), .error e⟩]
        ⟨h', w.log ++ [⟨.call (.openDir u.finalPath.dropLast), .error e⟩]⟩ := by
      obtain ⟨l, hl⟩ := A.log
      exact ⟨⟨l, by simp [hl]⟩, by rw [hs.2.1]; exact A.dir, by rw [hs.2.2.1]; exact A.lt,
        by rw [hs.2.2.1]; exact A.dlt, A.ne, by rw [hs.1]; exact A.gone⟩
    exact safe_pure (A1.report ⟨_, List.mem_singleton_self _, e, .inl rfl⟩ rfl)
  | ok fd =>
    obtain ⟨-, rfl, rfl⟩ := exec_openDir hplain he
    refine ⟨guarantee_quiet rfl rfl (call_ne_renameDone (by simp)) quiet_call, ?_⟩
    have A1 : u.After start d f [⟨.call (.openDir u.finalPath.dropLast), .ok w.host.nextFd⟩]
        ⟨w.host.opened (.directory u.finalPath.dropLast),
          w.log ++ [⟨.call (.openDir u.finalPath.dropLast), .ok w.host.nextFd⟩]⟩ := by
      obtain ⟨l, hl⟩ := A.log
      exact ⟨⟨l, by simp [hl]⟩, by rw [Host.opened_files_ne _ _ (Nat.ne_of_lt A.dlt)]; exact A.dir,
        Nat.lt_succ_of_lt A.lt, Nat.lt_succ_of_lt A.dlt, A.ne, A.gone⟩
    refine safely_look rfl fun r he => ?_
    have A2 := A1.look (c := .fsync w.host.nextFd) (r := r)
    cases r with
    | error e =>
      refine safe_pure (A2.report ⟨_, List.mem_append_right _ (List.mem_singleton_self _), e, .inr
        ⟨w.host.nextFd, u.finalPath.dropLast, (Nat.ne_of_lt A.lt).symm, ?_, rfl⟩⟩ rfl)
      simp
    | ok _ =>
      refine safely_look rfl fun r he => ?_
      have A3 := A2.look (c := .fsync d) (r := r)
      cases r with
      | error e =>
        exact safe_pure (A3.report ⟨_, List.mem_append_right _ (List.mem_singleton_self _), e, .inr
          ⟨d, u.stateRoot, A.ne.symm, A3.dir, rfl⟩⟩ rfl)
      | ok _ =>
        have hv : (makeFrame .transferResult u.requestId u.requestId (encodeTransferResult .success)).Valid :=
          makeFrame_valid rfl (by simp [encodeTransferResult])
        refine safe_pure (safe_sendValid hv fun s => ⟨?_, ?_⟩)
        · refine ⟨_, rfl, fun _ => ⟨rfl, send_ne_renameDone⟩, fun h _ => absurd A3.renamed h,
            fun h _ => absurd A3.renamed h, serverFrame_result, ?_⟩
          rintro code ⟨f', r', he, -, hpay⟩
          cases he
          refine ⟨fun _ => A3.renamed, fun hne => ?_⟩
          exact absurd (TransferResultCode.raw_injective (List.singleton_inj.mp hpay)).symm hne
        · split
          · exact safe_pure (outcome_gone (fun _ => A3.renamed.push _) fun _ => Gone.send A3.gone)
          · exact safe_pure (outcome_gone (done_of_not_ok rfl) fun _ => Gone.send A3.gone)

/-- What a successful rename of the part file does. -/
theorem committed_of_rename {fs fs' : Fs} (hsafe : isSafeRemotePath u.metadata.filename = true)
    (honly : u.OnlyName fs i) (hlen : (fs.inode i).data.length = u.metadata.fileSize.toNat)
    (hsum : crc32 (fs.inode i).data = u.metadata.checksum)
    (h : fs.rename u.partPath u.finalPath = some fs') : u.Committed fs fs' := by
  have hne := finalPath_ne_partPath hsafe
  have hpart := (honly u.partPath).mpr rfl
  obtain ⟨x, hx, -, hcase⟩ := rename_cases h
  rw [hpart] at hx
  cases hx
  rcases hcase with ⟨-, he | ⟨-, he⟩⟩ | ⟨-, hfree, h1, h2, h3, h4⟩
  · exact absurd he.symm hne
  · exact absurd ((honly _).mp he) hne
  · refine ⟨i, honly, hlen, hsum, hfree.2.2.1, ?_, h3⟩
    funext q
    by_cases hq : q = u.finalPath
    · rw [hq, Function.update_self, h2]
    · rw [Function.update_of_ne hq]
      by_cases hq' : q = u.partPath
      · rw [hq', Function.update_self, h1]
      · rw [Function.update_of_ne hq', h4 q hq' hq]

/-- The rename of a part file that is complete and has the declared checksum. -/
theorem Holding.committed {h h' : Host} (H : u.Holding h d f i pos)
    (hsafe : isSafeRemotePath u.metadata.filename = true)
    (hlen : (h.fs.inode i).data.length = u.metadata.fileSize.toNat)
    (hsum : crc32 (h.fs.inode i).data = u.metadata.checksum)
    (he : exec u.cr (.rename u.partPath u.finalPath) h (.ok ()) = some h') :
    u.Committed h.fs h'.fs ∧ h' = { h with fs := h'.fs } := by
  have hstate : h.fs.node u.stateRoot = some .dir := h.fs.node_parent ((H.only u.partPath).mpr rfl)
  obtain ⟨hren, hh⟩ := exec_rename (plain_child u.partName hstate) (plain_of_dir H.parent) he
  exact ⟨committed_of_rename hsafe H.only hlen hsum hren, hh⟩

theorem renameFailed_ne {e : Nat} :
    (⟨.call (.rename u.partPath u.finalPath), .error e⟩ : net.Event) ≠ u.renameDone := by
  intro h
  cases h

theorem Committed.part_gone {fs fs' : Fs} (h : u.Committed fs fs')
    (hsafe : isSafeRemotePath u.metadata.filename = true) : fs'.node u.partPath = none := by
  obtain ⟨i, -, -, -, -, hn, -⟩ := h
  rw [hn, Function.update_of_ne (finalPath_ne_partPath hsafe).symm, Function.update_self]

theorem commit_safely {p : Progress} {D : Bytes} (hsafe : isSafeRemotePath u.metadata.filename = true)
    (L : u.Loaded start d f p D w) :
    u.Safely start (commit (u.transfer d f) p) w (u.Outcome start P) := by
  rcases commit_cases (u.transfer d f) p with ⟨r, hr, he⟩ | ⟨⟨hoff, hsum⟩, he⟩
  · rw [he]
    exact L.armed.reject hr
  · rw [he]
    obtain ⟨i, H, hD⟩ := L.part
    refine safely_look rfl fun r he => ?_
    have A1 := L.armed.look (c := .fsync f) (r := r) rfl
    cases r with
    | error e => exact A1.reject rfl
    | ok _ =>
      refine safe_sys fun r h' he => ?_
      cases r with
      | error e =>
        have hs := exec_error he
        refine ⟨guarantee_quiet rfl hs.1 renameFailed_ne quiet_call, ?_⟩
        exact ((H.same hs).armed (A1.isOpen.push renameFailed_ne)).reject rfl
      | ok _ =>
        obtain ⟨hc, hh⟩ := H.committed hsafe (by rw [hD, ← L.offset, hoff]; rfl)
          (by rw [hD, crc32, ← L.sum, hsum]; rfl) he
        refine ⟨⟨_, rfl, fun hr => absurd hr A1.isOpen.not_renamed, fun _ _ => hc,
          fun _ hne => absurd rfl hne, quiet_call.serverFrame,
          fun _ hr => absurd hr (quiet_call (u := u)).not_isResult⟩, ?_⟩
        obtain ⟨l, hl, -⟩ := A1.isOpen
        refine finish_safely ⟨⟨l, congrArg (· ++ [u.renameDone]) hl⟩, ?_, ?_, ?_, H.ne, hc.part_gone hsafe⟩ ?_
        · rw [hh]; exact H.dir
        · rw [hh]; exact H.lt
        · rw [hh]; exact H.dlt
        · obtain ⟨i', hi', -, -, hfin, hnode, -⟩ := hc
          change h'.fs.node u.finalPath.dropLast = some .dir
          rw [hnode, Function.update_of_ne, Function.update_of_ne]
          · exact H.parent
          · intro h
            have hp := H.parent
            rw [h, (H.only u.partPath).mpr rfl] at hp
            cases hp
          · intro h
            exact hfin (h ▸ H.parent)

end Upload

end SyncWire
