import SyncWire.Receive.Leaving

/-!
# `receive_file` up to the commit

The receiving loop keeps file content, position, offset and running checksum in step with
the chunks that were accepted (`Going`).  Each function is walked once, for all that is
asked of it (`Abides`).

* `receiveUpload_abides`: every step keeps the guarantee, every report is exact, and the result
  and the part file are as `Outcome` says.
-/

namespace SyncWire

open Wire Effect Posix Posix.Fs FileTransfer

namespace Upload

variable {u : Upload} {start : List net.Event} {P : Bytes} {w : World} {d f : Fd} {i : Nat}
  {chunks : List FileChunk} {chunk : FileChunk}

/-! ## Writing a chunk -/

/-- `write_all` appends the chunk, or some of it before it fails. -/
theorem writeAll_abides {p : Progress}
    (L : u.Loaded start d f p (u.before P chunks chunk) w) (hacc : u.Accepted start w.log (chunks ++ [chunk]))
    (hoff : chunk.offset.toNat = (u.before P chunks chunk).length) (hsize : chunk.data.length ≤ u.limits.chunkSize)
    (hfit : (u.before P chunks chunk).length + chunk.data.length ≤ u.metadata.fileSize.toNat)
    {Q : Except FileTransferResult Unit → World → Prop}
    (herr : ∀ r w', r.ok = false → u.Armed start d f w' → Q (.error r) w')
    (hok : ∀ i w', u.Open start w'.log → u.Accepted start w'.log (chunks ++ [chunk]) →
      u.Holding w'.host d f i (u.content P (chunks ++ [chunk])).length →
      (w'.host.fs.inode i).data = u.content P (chunks ++ [chunk]) → Q (.ok ()) w') :
    u.Abides start P (fun _ _ _ => False) (writeAll f chunk.data) w Q := by
  obtain ⟨i, H, hD⟩ := L.part
  rw [content_concat] at hok
  generalize hbefore : u.before P chunks chunk = D at *
  -- `written` bytes of the chunk are in the file, and the position is behind them
  let J : Nat → World → Prop := fun written w' => written ≤ chunk.data.length ∧ u.Open start w'.log ∧
    u.Accepted start w'.log (chunks ++ [chunk]) ∧ u.Holding w'.host d f i (D ++ chunk.data.take written).length ∧
    (w'.host.fs.inode i).data = D ++ chunk.data.take written
  refine abides_iter (R := fun _ _ _ => False) J (fun _ _ _ hr => hr) ?_ (s := 0)
    ⟨Nat.zero_le _, L.isOpen, hacc, by simpa using H, by simpa using hD⟩
  rintro written w' ⟨hle, ho', hacc', H', hdata⟩
  split
  · have hwrites : u.Writes start P f (chunk.data.drop written) w' := by
      refine ⟨chunks, chunk, written, hacc', ?_⟩
      rw [hbefore]
      exact ⟨hoff, hsize, hfit, ⟨i, H'.part, (H'.only _).mpr rfl, hdata⟩, rfl⟩
    refine abides_sys hwrites fun r h' he => ?_
    have ho1 := ho'.call (c := .write f (chunk.data.drop written)) (r := r) (by simp)
    cases r with
    | error e =>
      have hs := exec_error he
      refine ⟨guarantee_quiet rfl hs.1 (call_ne_renameDone (by simp)) quiet_call, ?_⟩
      simp only
      split
      · exact along_pure ⟨hle, ho1, hacc'.call, H'.same hs, by rw [hs.1]; exact hdata⟩
      · exact along_pure (herr _ _ rfl ((H'.same hs).armed ho1))
    | ok k =>
      obtain ⟨hk, rfl⟩ := exec_write H'.part he
      rw [List.length_drop] at hk
      have hlen : (D ++ chunk.data.take written).length = D.length + written := by
        rw [List.length_append, List.length_take_of_le hle]
      have hnew : (w'.host.fs.inode i).data ++ (chunk.data.drop written).take k =
          D ++ chunk.data.take (written + k) := by
        rw [hdata, List.append_assoc, ← List.take_add]
      have hlen' : (D ++ chunk.data.take written).length + k = (D ++ chunk.data.take (written + k)).length := by
        rw [hlen, List.length_append, List.length_take_of_le (by omega), Nat.add_assoc]
      have hsp : splice (w'.host.fs.inode i).data (D ++ chunk.data.take written).length
          ((chunk.data.drop written).take k) = (w'.host.fs.inode i).data ++ (chunk.data.drop written).take k := by
        rw [hdata, splice_end]
      rw [hsp] at he ⊢
      refine ⟨guarantee_change ho' rfl (by simp) (.extendPart i _ H'.budget H'.only ?_ ?_ rfl), ?_⟩
      · rw [hnew, ← hlen', hlen]
        omega
      · exact hacc'.continues (j := written) (by rw [hdata, hlen, hoff]) (List.take_prefix _ _)
      · rw [hnew, hlen']
        have H1 := (H'.store (D ++ chunk.data.take (written + k))).seek (D ++ chunk.data.take (written + k)).length
        simp only
        split
        · exact along_pure ⟨by omega, ho1, hacc'.call, H1, by simp⟩
        · exact along_pure (herr _ _ rfl (H1.armed ho1))
  · next hlt =>
    obtain rfl : written = chunk.data.length := by omega
    rw [List.take_length] at hdata H'
    exact along_pure (hok i _ ho' hacc' H' hdata)

/-- Before a chunk is written, its offset is that of the file. -/
theorem restart_safely {p : Progress} (L : u.Loaded start d f p (u.content P chunks) w)
    (hfirst : p.firstChunk = true ↔ chunks = []) {Q : Except FileTransferResult Progress → World → Prop}
    (herr : ∀ r w', r.ok = false → u.Armed start d f w' → Q (.error r) w')
    (hok : ∀ p' w', u.Loaded start d f p' (u.before P chunks chunk) w' → p'.firstChunk = false → Q (.ok p') w') :
    u.Safely start (restart (u.transfer d f) p chunk) w Q := by
  unfold restart
  split
  · next hc =>
    obtain ⟨hc1, -, hc3⟩ := hc
    obtain rfl := hfirst.mp hc1
    have hbefore : u.before P [] chunk = [] := by simp [before, retained, hc3]
    obtain ⟨i, H, -⟩ := L.part
    refine safe_sys fun r h' he => ?_
    have ho1 := L.isOpen.call (c := .ftruncate f) (r := r) (by simp)
    cases r with
    | error e =>
      have hs := exec_error he
      exact ⟨guarantee_quiet rfl hs.1 (call_ne_renameDone (by simp)) quiet_call,
        safe_pure (herr _ _ rfl ((H.same hs).armed ho1))⟩
    | ok _ =>
      obtain rfl := exec_ftruncate H.part he
      have H1 := H.store []
      refine ⟨guarantee_change L.isOpen rfl (by simp) (.clearPart i H.only rfl), ?_⟩
      refine safe_sys fun r h'' he' => ?_
      have ho2 := ho1.call (c := .lseek f) (r := r) (by simp)
      cases r with
      | error e =>
        have hs := exec_error he'
        exact ⟨guarantee_quiet rfl hs.1 (call_ne_renameDone (by simp)) quiet_call,
          safe_pure (herr _ _ rfl ((H1.same hs).armed ho2))⟩
      | ok _ =>
        obtain rfl := exec_lseek H1.part he'
        refine ⟨guarantee_quiet rfl rfl (call_ne_renameDone (by simp)) quiet_call, safe_pure (hok _ _ ?_ rfl)⟩
        rw [hbefore]
        exact ⟨ho2, ⟨i, H1.seek 0, by simp⟩, rfl, Nat.zero_le _, rfl⟩
  · next hc =>
    have hb : u.before P chunks chunk = u.content P chunks := by
      refine before_eq_content fun hnil => ?_
      subst hnil
      by_cases hz : chunk.offset = 0
      · refine .inl (List.length_eq_zero_iff.mp ?_)
        have hp : p.offset = 0 := by
          by_contra hne
          exact hc ⟨hfirst.mpr rfl, hne, hz⟩
        rw [← L.offset, hp]
        rfl
      · exact .inr hz
    refine safe_pure (hok _ _ ?_ rfl)
    rw [hb]
    exact ⟨L.isOpen, L.part, L.offset, L.fits, L.sum⟩

/-! ## The receiving loop -/

/-- At the head of the loop. -/
structure Going (u : Upload) (start : List net.Event) (P : Bytes) (d f : Fd) (chunks : List FileChunk)
    (p : Progress) (w : World) : Prop where
  accepted : u.Accepted start w.log chunks
  loaded : u.Loaded start d f p (u.content P chunks) w
  first : p.firstChunk = true ↔ chunks = []

/-- What a turn of the loop leaves: the next turn's state, a result, or the `break`. -/
def TurnPost (u : Upload) (start : List net.Event) (P : Bytes) (d f : Fd) :
    Progress ⊕ Except FileTransferResult Progress → World → Prop
  | .inl p, w => ∃ chunks, u.Going start P d f chunks p w
  | .inr (.error r), w => u.Outcome start P r w
  | .inr (.ok p), w => ∃ D, u.Loaded start d f p D w

/-- After a report the loop goes round again. -/
abbrev GoesRound (f : Fd) (f' : Fd) (p : Progress)
    (q : Sys (Progress ⊕ Except FileTransferResult Progress)) : Prop :=
  f' = f ∧ q = pure (.inl p)

theorem Armed.leave (A : u.Armed start d f w) {result : FileTransferResult} (hres : result.ok = false) :
    u.Abides start P (GoesRound f) (do return .inr (.error (← rejectTransfer (u.transfer d f) false result))) w
      (u.TurnPost start P d f) :=
  abides_idle_bind (idle_rejectTransfer _ _ _) (safe_mono (A.reject hres) fun _ _ h => along_pure h)

theorem Loaded.breakOff {p : Progress} (L : u.Loaded start d f p (u.content P chunks) w)
    (hacc : u.Accepted start w.log chunks) {resumedFrom : UInt64} {io : FrameIoResult}
    (hlost : io.status = .peerClosed ∨ io.status = .systemError → ∃ l e, w.log = l ++ [e] ∧ Lost e) :
    u.Abides start P (GoesRound f)
      (do return .inr (.error (← interrupted (u.transfer d f) p.offset resumedFrom io))) w
      (u.TurnPost start P d f) :=
  abides_idle_bind (idle_interrupted _ _ _ _)
    (safe_mono (interrupted_safely L hacc hlost) fun _ _ h => along_pure h)

theorem storeChunk_abides {p : Progress} (L : u.Loaded start d f p (u.before P chunks chunk) w)
    (hacc : u.Accepted start w.log (chunks ++ [chunk])) (hfirst : p.firstChunk = false)
    (hoff : chunk.offset = p.offset) (hsize : chunk.data.length ≤ u.limits.chunkSize)
    (hfit : chunk.data.length ≤ (u.metadata.fileSize - p.offset).toNat) :
    u.Abides start P (GoesRound f) (storeChunk (u.transfer d f) p chunk) w (u.TurnPost start P d f) := by
  obtain ⟨hfits, hlen⟩ := L.room hfit
  refine abides_stage_bind (writeAll_abides L hacc (by rw [hoff, L.offset]) hsize hfits
    (fun r w' hr A => A.leave hr) fun i w1 ho1 hacc1 H1 hD1 => ?_)
  have L1 : u.Loaded start d f { p with
      checksum := p.checksum.update chunk.data, offset := p.offset + UInt64.ofNat chunk.data.length }
      (u.content P (chunks ++ [chunk])) w1 := by
    refine ⟨ho1, ⟨i, H1, hD1⟩, ?_, ?_, ?_⟩ <;> rw [content_concat]
    · exact hlen
    · rw [List.length_append]
      exact hfits
    · rw [L.sum, Crc32.update_append]
  refine abides_look rfl fun r => ?_
  have L2 := L1.look (c := .fsync f) (r := r) rfl
  cases r with
  | error e => exact L2.armed.leave rfl
  | ok _ =>
    refine abides_look rfl fun r => ?_
    have L3 := L2.look (c := .fsync d) (r := r) rfl
    cases r with
    | error e => exact L3.armed.leave rfl
    | ok _ =>
      refine abides_report (makeFrame_valid rfl (by simp [encodeOffset])) rfl (.inr rfl) (fun _ => ?_) fun r => ?_
      · exact ⟨f, _, chunks ++ [chunk], ⟨rfl, rfl⟩, hacc1.call.call, L3.held, .inr ⟨rfl, by simp, rfl⟩⟩
      · cases r with
        | error failure =>
          simp only [sendOutcome_error_ok]
          exact L3.send.breakOff hacc1.call.call.send fun _ => ⟨_, _, rfl, failure, .inr ⟨_, .inr rfl, rfl⟩⟩
        | ok _ => exact along_pure ⟨chunks ++ [chunk], hacc1.call.call.send, L3.send, by simp [hfirst]⟩

theorem onChunk_abides {p : Progress} (L : u.Loaded start d f p (u.content P chunks) w)
    (hacc : u.Accepted start w.log (chunks ++ [chunk])) (hfirst : p.firstChunk = true ↔ chunks = []) :
    u.Abides start P (GoesRound f) (onChunk (u.transfer d f) p chunk) w (u.TurnPost start P d f) := by
  refine abides_local_bind (local_restart _ _ _).uses (restart_safely L hfirst
    (fun r w' hr A _ => A.leave hr) fun p' w' L' hfirst' hcalls => ?_)
  dsimp only
  rcases placeChunk_cases (u.transfer d f) p' chunk with ⟨r, hr, he⟩ | ⟨hfits, he⟩
  · rw [he]
    exact L'.armed.leave hr
  · rw [he]
    exact storeChunk_abides L' (hacc.calls hcalls) hfirst' hfits.offset hfits.size hfits.room

theorem onFrame_abides {p : Progress} {m : WireFrame} (G : u.Going start P d f chunks p w) :
    u.Abides start P (GoesRound f) (onFrame (u.transfer d f) p m.1) (w.push ⟨.recv, .ok m⟩)
      (u.TurnPost start P d f) := by
  have L := G.loaded.recv (r := .ok m)
  rcases onFrame_cases (u.transfer d f) p m.1 with ⟨r, hr, he⟩ | ⟨-, he⟩ | ⟨chunk, hcarries, he⟩
  · rw [he]
    exact L.armed.leave hr
  · rw [he]
    exact along_pure ⟨_, L⟩
  · rw [he]
    exact onChunk_abides L (G.accepted.recv hcarries) G.first

theorem receiveStep_abides {p : Progress} (G : u.Going start P d f chunks p w) :
    u.Abides start P (GoesRound f) (receiveStep (u.transfer d f) p) w (u.TurnPost start P d f) := by
  refine abides_receiveFrame fun r => ?_
  cases r with
  | error error =>
    refine G.loaded.recv.breakOff (G.accepted.congr ?_) fun hio => ?_
    · rw [NetSig.Local.push_log, received_append, received_error, List.append_nil]
    · cases error with
      | io failure => exact ⟨w.log, _, rfl, failure, .inl rfl⟩
      | invalidHeader error => rcases hio with hio | hio <;> cases hio
  | ok m => exact onFrame_abides G

/-- The loop is left with an outcome, or for the commit. -/
theorem receiveChunks_abides {p : Progress} (G : u.Going start P d f chunks p w) :
    u.Abides start P (fun f' p q => f' = f ∧ q = receiveChunks (u.transfer d f) p)
      (receiveChunks (u.transfer d f) p) w fun r w' =>
        match r with
        | .error result => u.Outcome start P result w'
        | .ok p' => ∃ D, u.Loaded start d f p' D w' := by
  refine abides_iter (R := GoesRound f) (fun p w => ∃ chunks, u.Going start P d f chunks p w) ?_
    (fun p w ⟨chunks, G⟩ => ?_) ⟨chunks, G⟩
  · rintro f' p' q ⟨rfl, rfl⟩
    exact ⟨rfl, rfl⟩
  · refine (receiveStep_abides G).mono (fun _ _ _ hd => hd) fun x w' hx => ?_
    rcases x with p' | (result | p') <;> exact hx

/-! ## From the open part file on -/

/-- After a report the rest of `receive_file` goes on with that progress. -/
abbrev GoesOn (u : Upload) (f : Fd) (p : Progress) (q : Sys FileTransferResult) : Prop :=
  ∃ d, q = continueTransfer (u.transfer d f) p

theorem continueTransfer_abides {p : Progress} (hsafe : isSafeRemotePath u.metadata.filename = true)
    (G : u.Going start P d f chunks p w) :
    u.Abides start P u.GoesOn (continueTransfer (u.transfer d f) p) w (u.Outcome start P) := by
  refine abides_bind ?_ ((receiveChunks_abides G).mono (fun _ _ _ hd => hd) fun r w' hr => ?_)
  · rintro f' p' q ⟨rfl, rfl⟩
    exact ⟨d, rfl⟩
  · cases r with
    | error result => exact along_pure hr
    | ok p' =>
      obtain ⟨D, L⟩ := hr
      exact (commit_safely hsafe L).abides (idle_commit _ _)

theorem receiveBody_abides {checksum : Crc32} {offset : UInt64}
    (hsafe : isSafeRemotePath u.metadata.filename = true) (hacc : u.Accepted start w.log [])
    (L : u.Loaded start d f { checksum, offset, resumedFrom := offset, firstChunk := true } (u.content P []) w) :
    u.Abides start P u.GoesOn (receiveBody (u.transfer d f) checksum offset) w (u.Outcome start P) := by
  refine abides_report (makeFrame_valid rfl (by simp [encodeTransferReady, encodeOffset])) rfl (.inl rfl)
    (fun _ => ?_) fun r => ?_
  · refine ⟨f, { checksum, offset, resumedFrom := offset, firstChunk := true }, [], ⟨d, rfl⟩, hacc, L.held,
      .inl ⟨rfl, rfl, ?_⟩⟩
    have hsum : checksum.value = crc32 (u.content P []) := congrArg Crc32.value L.sum
    rw [← hsum]
    rfl
  · cases r with
    | error failure =>
      rw [sendOutcome_error_ok]
      exact (interrupted_safely L.send hacc.send fun _ =>
        ⟨w.log, _, rfl, failure, .inr ⟨_, .inl rfl, rfl⟩⟩).abides (idle_interrupted _ _ _ _)
    | ok _ => exact continueTransfer_abides hsafe ⟨hacc.send, L.send, by simp⟩

/-- A turn of the reading loop: what was read is in the checksum and no longer remains. -/
theorem readPartialPrefix_turn {D data : Bytes} {done : Nat} {remaining : UInt64} {checksum : Crc32}
    (hdone : done + remaining.toNat = D.length) (hsum : checksum = ({} : Crc32).update (D.take done))
    (hdata : data = (D.drop done).take data.length) (hle : data.length ≤ min remaining.toNat kDefaultChunkSize) :
    (remaining - UInt64.ofNat data.length).toNat = remaining.toNat - data.length ∧
      done + data.length + (remaining - UInt64.ofNat data.length).toNat = D.length ∧
      checksum.update data = ({} : Crc32).update (D.take (done + data.length)) := by
  have hlt := remaining.toNat_lt
  have hle' : data.length ≤ remaining.toNat := Nat.le_trans hle (Nat.min_le_left _ _)
  have hofNat : (UInt64.ofNat data.length).toNat = data.length := by
    rw [UInt64.toNat_ofNat']
    omega
  have hsub : (remaining - UInt64.ofNat data.length).toNat = remaining.toNat - data.length := by
    rw [UInt64.toNat_sub_of_le _ _ (UInt64.le_iff_toNat_le.mpr (by omega)), hofNat]
  refine ⟨hsub, by omega, ?_⟩
  rw [hsum, List.take_add, Crc32.update_append, ← hdata]

/-- Reading the part file gives the checksum of its content and leaves the position behind it. -/
theorem readPartialPrefix_safely {D : Bytes} {size : UInt64} (ho : u.Open start w.log)
    (H : u.Holding w.host d f i 0) (hD : (w.host.fs.inode i).data = D) (hsize : size.toNat = D.length)
    {Q : Option Crc32 → World → Prop} (hnone : ∀ w', u.Open start w'.log → Q none w')
    (hsome : ∀ w', u.Open start w'.log → u.Holding w'.host d f i D.length →
      (w'.host.fs.inode i).data = D → Q (some (({} : Crc32).update D)) w') :
    u.Safely start (readPartialPrefix f size) w Q := by
  -- `done` bytes have been read
  let J : UInt64 × Crc32 → World → Prop := fun s w' => ∃ done, done + s.1.toNat = D.length ∧
    s.2 = ({} : Crc32).update (D.take done) ∧ u.Open start w'.log ∧ u.Holding w'.host d f i done ∧
    (w'.host.fs.inode i).data = D
  refine safe_iter J ?_ (s := (size, {})) ⟨0, by simpa using hsize, rfl, ho, H, hD⟩
  rintro ⟨remaining, checksum⟩ w' ⟨done, hdone, hsum, ho', H', hD'⟩
  simp only at hdone hsum ⊢
  split
  · refine safe_sys fun r h' he => ?_
    have ho1 := ho'.call (c := .read f (min remaining.toNat kDefaultChunkSize)) (r := r) (by simp)
    cases r with
    | error e =>
      have hs := exec_error he
      refine ⟨guarantee_quiet rfl hs.1 (call_ne_renameDone (by simp)) quiet_call, ?_⟩
      simp only
      split
      · exact safe_pure ⟨done, hdone, hsum, ho1, H'.same hs, by rw [hs.1]; exact hD'⟩
      · exact safe_pure (hnone _ ho1)
    | ok data =>
      obtain ⟨hdata, hle, rfl⟩ := exec_read H'.part he
      refine ⟨guarantee_quiet rfl rfl (call_ne_renameDone (by simp)) quiet_call, ?_⟩
      simp only
      split
      · exact safe_pure (hnone _ ho1)
      · rw [hD'] at hdata
        obtain ⟨-, hdone', hsum'⟩ := readPartialPrefix_turn hdone hsum hdata hle
        exact safe_pure ⟨done + data.length, hdone', hsum', ho1, H'.seek _, hD'⟩
  · next hz =>
    have hz' : remaining.toNat = 0 := by rw [not_not.mp hz]; rfl
    obtain rfl : done = D.length := by omega
    rw [List.take_length] at hsum
    rw [hsum]
    exact safe_pure (hsome _ ho' H' hD')

/-- The part file as `openat` gave it: it holds `P`, if it is a regular file. -/
structure Opened (u : Upload) (P : Bytes) (h : Host) (d f : Fd) : Prop where
  file : (∃ i, h.files f = some (.regular i 0) ∧ h.fs.node u.partPath = some (.file i) ∧
    (h.fs.inode i).data = P) ∨ h.files f = some .special
  dir : h.files d = some (.directory u.stateRoot)
  ne : f ≠ d
  lt : f < h.nextFd
  dlt : d < h.nextFd
  budget : u.Budget h.fs
  parent : h.fs.node u.finalPath.dropLast = some .dir

/-- A new part file is ours alone. -/
theorem Prepared.create {h h' : Host} {uid : Nat} (H : u.Prepared h d) (hb : u.Budget h.fs)
    (hc : Created u.partPath i uid h.fs h'.fs) (hh : h' = { h with fs := h'.fs }.opened (.regular i 0)) :
    u.Holding h' d h.nextFd i 0 := by
  obtain ⟨hnone, hfresh, hnode, hinode⟩ := hc
  have hne : h.nextFd ≠ d := (Nat.ne_of_lt H.lt).symm
  refine ⟨?_, ?_, hne, ?_, ?_, fun q => ?_, ?_, ?_⟩
  · rw [hh]; simp [Host.opened]
  · rw [hh]
    exact (Host.opened_files_ne { h with fs := h'.fs } _ hne.symm).trans H.opened
  · rw [hh]; exact Nat.lt_succ_self _
  · rw [hh]; exact Nat.lt_succ_of_lt H.lt
  · rw [hnode, Function.update_apply]
    split
    · next hq => simp [hq]
    · next hq => exact iff_of_false (hfresh q) hq
  · refine hb.congr (fun n hn => by rw [hnode, Function.update_of_ne (ne_partPath hn)])
      (fun n hn => fileAt_congr (by rw [hnode, Function.update_of_ne (ne_partPath hn)]) fun j hj => ?_)
    rw [hinode, Function.update_of_ne]
    rintro rfl
    exact hfresh _ hj
  · rw [hnode, Function.update_of_ne]
    · exact H.parent
    · intro e
      have := H.parent
      rw [e, hnone] at this
      cases this

/-- What `openat` gives: a new file, an old one, or something else. -/
theorem Prepared.openat {h h' : Host} (H : u.Prepared h d) (hb : u.Budget h.fs)
    (he : exec u.cr (.openat d u.partName) h (.ok f) = some h') :
    u.Opened ((h.fs.fileAt u.partPath).getD []) h' d f := by
  have hne : h.nextFd ≠ d := (Nat.ne_of_lt H.lt).symm
  have hlt : d < h.nextFd + 1 := Nat.lt_succ_of_lt H.lt
  obtain ⟨rfl, ⟨i, hc, hh⟩ | ⟨i, hi, rfl⟩ | ⟨-, rfl⟩⟩ := exec_openat H.opened he
  · have H' := H.create hb hc hh
    refine ⟨.inl ⟨i, H'.part, (H'.only _).mpr rfl, ?_⟩, H'.dir, H'.ne, H'.lt, H'.dlt, H'.budget, H'.parent⟩
    rw [fileAt, show h.fs.node u.partPath = none from hc.1, hc.2.2.2, Function.update_self]
    rfl
  · have hfile : h.fs.fileAt u.partPath = some (h.fs.inode i).data := fileAt_eq_some.mpr ⟨i, hi, rfl⟩
    refine ⟨.inl ⟨i, by simp, hi, by rw [hfile]; rfl⟩, ?_, hne, Nat.lt_succ_self _, hlt, hb, H.parent⟩
    rw [Host.opened_files_ne _ _ hne.symm]
    exact H.opened
  · refine ⟨.inr (by simp), ?_, hne, Nat.lt_succ_self _, hlt, hb, H.parent⟩
    rw [Host.opened_files_ne _ _ hne.symm]
    exact H.opened

/-- The part file is accepted if it is regular, has one link and is ours, unless a call fails. -/
theorem checkPart_spec {cr : Crypto} {rely : net.Rely} {I F : List net.Event → Prop} (hP : Permits rely I F)
    (hI : I w.log) {st : Stat} (hst : w.host.statOf f = some st) :
    Total (solo (exec cr) rely) (checkPart f) w fun r w' => w'.host = w.host ∧ (F w'.log ∧ r = .error () ∨
      r = if st.regular = true ∧ st.nlink = 1 ∧ st.uid = w.host.euid then .ok st.size else .error ()) := by
  have hfail : ∀ {w' : World}, w'.host = w.host → F w'.log →
      Total (solo (exec cr) rely) (pure (.error ())) w' fun (r : Except Unit Nat) w' => w'.host = w.host ∧
        (F w'.log ∧ r = .error () ∨
          r = if st.regular = true ∧ st.nlink = 1 ∧ st.uid = w.host.euid then .ok st.size else .error ()) :=
    fun hh hF => total_pure ⟨hh, .inl ⟨hF, rfl⟩⟩
  have hcan : exec cr (.fstat f) w.host (.ok st) = some w.host := by simp [exec, succeed, hst]
  refine total_look hP rfl hI hcan (fun _ hF => hfail rfl hF) fun st' he hI1 => ?_
  obtain rfl := Option.some.inj (hst.symm.trans (exec_fstat he))
  simp only
  split
  · next hno =>
    refine total_pure ⟨rfl, .inr (if_neg fun h => ?_).symm⟩
    rcases hno with hno | hno
    · exact Bool.false_ne_true (hno.symm.trans h.1)
    · exact hno h.2.1
  · next hreg =>
    simp only [not_or, Bool.not_eq_false, not_not] at hreg
    have hcan' : exec cr .geteuid w.host (.ok w.host.euid) = some w.host := by simp [exec, succeed]
    refine total_look (w := w.push _) hP rfl hI1 hcan' (fun _ hF => hfail rfl hF) fun euid he hI2 => ?_
    obtain rfl : euid = w.host.euid := exec_geteuid he
    simp only
    split
    · next hno => exact total_pure ⟨rfl, .inr (if_neg fun h => hno h.2.2).symm⟩
    · next huid =>
      have hflock : exec cr (.flock f) w.host (.ok ()) = some w.host := rfl
      refine total_look (w := (w.push _).push _) hP rfl hI2 hflock (fun _ hF => hfail rfl hF) fun _ _ _ => ?_
      exact total_pure ⟨rfl, .inr (if_pos ⟨hreg.1, hreg.2, not_not.mp huid⟩).symm⟩

theorem checkPart_safely (ho : u.Open start w.log) (O : u.Opened P w.host d f)
    {Q : Except Unit Nat → World → Prop} (herr : ∀ w', u.Open start w'.log → Q (.error ()) w')
    (hok : ∀ i w', u.Open start w'.log → u.Holding w'.host d f i 0 → (w'.host.fs.inode i).data = P →
      Q (.ok P.length) w') :
    u.Safely start (checkPart f) w Q := by
  obtain ⟨st, hst, hown⟩ : ∃ st, w.host.statOf f = some st ∧ (st.regular = true → st.nlink = 1 →
      st.size = P.length ∧ ∃ i, u.Holding w.host d f i 0 ∧ (w.host.fs.inode i).data = P) := by
    rcases O.file with ⟨i, hf, hn, rfl⟩ | hf
    · refine ⟨_, by rw [Host.statOf, hf], fun _ hlink => ⟨rfl, i, ?_, rfl⟩⟩
      exact ⟨hf, O.dir, O.ne, O.lt, O.dlt, fun q => ⟨fun hq => eq_of_nlink hlink hq hn, fun hq => hq ▸ hn⟩,
        O.budget, O.parent⟩
    · exact ⟨_, by rw [Host.statOf, hf], fun h => absurd h Bool.false_ne_true⟩
  refine safe_reading (checkPart_issues f).uses admits_open ho fun r w' hr _ ho' => ?_
  obtain ⟨hh, ⟨-, rfl⟩ | rfl⟩ := (checkPart_spec permits_anyAnswer trivial hst).result hr
  · exact herr w' ho'
  · split
    · next hgood =>
      obtain ⟨hsize, i, H, hD⟩ := hown hgood.1 hgood.2.1
      rw [hsize]
      rw [← hh] at H hD
      exact hok i w' ho' H hD
    · exact herr w' ho'

/-- A part file longer than the upload is dropped. -/
theorem trimPart_safely (ho : u.Open start w.log) (H : u.Holding w.host d f i 0)
    (hD : (w.host.fs.inode i).data = P) {Q : Except Nat UInt64 → World → Prop}
    (herr : ∀ e w', u.Open start w'.log → Q (.error e) w')
    (hok : ∀ offset w', u.Open start w'.log → u.Holding w'.host d f i 0 →
      (w'.host.fs.inode i).data = u.content P [] → offset.toNat = (u.content P []).length →
      (u.content P []).length ≤ u.metadata.fileSize.toNat → Q (.ok offset) w') :
    u.Safely start (trimPart f P.length u.metadata.fileSize) w Q := by
  rw [content, List.flatMap_nil, List.append_nil, retained] at hok
  unfold trimPart
  split
  · next hlong =>
    rw [if_pos hlong] at hok
    refine safe_sys fun r h' he => ?_
    have ho1 := ho.call (c := .ftruncate f) (r := r) (by simp)
    cases r with
    | error e =>
      have hs := exec_error he
      exact ⟨guarantee_quiet rfl hs.1 (call_ne_renameDone (by simp)) quiet_call,
        safe_pure (herr _ _ ho1)⟩
    | ok _ =>
      obtain rfl := exec_ftruncate H.part he
      refine ⟨guarantee_change ho rfl (by simp) (.clearPart i H.only rfl), ?_⟩
      exact safe_pure (hok 0 _ ho1 (H.store []) (by simp) rfl (Nat.zero_le _))
  · next hle =>
    rw [if_neg hle] at hok
    have hlt := u.metadata.fileSize.toNat_lt
    refine safe_pure (hok _ w ho H hD ?_ (Nat.not_lt.mp hle))
    rw [UInt64.toNat_ofNat']
    omega

theorem receivePart_abides (hsafe : isSafeRemotePath u.metadata.filename = true) (ho : u.Open start w.log)
    (hacc : u.Accepted start w.log []) (hu : Unready start w.log) (O : u.Opened P w.host d f) :
    u.Abides start P u.GoesOn (receivePart (u.transfer d f)) w (u.Outcome start P) := by
  refine abides_local_bind ((checkPart_issues f).uses.mono local_of_read) (checkPart_safely ho O
    (fun _ ho1 h1 => rejectBeforeReady_abides ho1 (hu.calls h1) rfl) fun i w1 ho1 H1 hD1 h1 => ?_)
  refine abides_local_bind (local_trimPart _ _ _).uses (trimPart_safely ho1 H1 hD1
    (fun _ _ ho2 h2 => rejectBeforeReady_abides ho2 ((hu.calls h1).calls h2) rfl) fun offset w2 ho2 H2 hD2 hoff hle h2 => ?_)
  refine abides_local_bind (local_readPartialPrefix _ _).uses (readPartialPrefix_safely ho2 H2 hD2 hoff
    (fun _ ho3 h3 => rejectBeforeReady_abides ho3 (((hu.calls h1).calls h2).calls h3) rfl) fun w3 ho3 H3 hD3 h3 => ?_)
  exact receiveBody_abides hsafe (((hacc.calls h1).calls h2).calls h3) ⟨ho3, ⟨i, H3, hD3⟩, hoff, hle, rfl⟩

theorem receiveUpload_abides (hsafe : isSafeRemotePath u.metadata.filename = true) (ho : u.Open start w.log)
    (hacc : u.Accepted start w.log []) (hu : Unready start w.log) (hp : w.host.fs.Plain u.root)
    (hP : (w.host.fs.fileAt u.partPath).getD [] = P) :
    u.Abides start P u.GoesOn (receiveUpload u.requestId u.metadata u.root u.limits) w (u.Outcome start P) := by
  refine abides_local_bind ((prepareDestination_issues u.root u.metadata).uses.mono local_of_prepares)
    (prepareDestination_safely ho hp fun r w1 ho1 hfile hok h1 => ?_)
  have hu1 := hu.calls h1
  cases r with
  | error failure => exact rejectBeforeReady_abides ho1 hu1 (by cases failure.invalidPath <;> rfl)
  | ok prepared =>
    obtain ⟨fd, rfl, H⟩ := hok prepared rfl
    refine abides_local_bind ((withinPartialBudget_issues _ _ _).uses.mono local_of_read)
      (withinPartialBudget_safely ho1 H.state fun r w2 hh ho2 hbudget h2 => ?_)
    have hu2 := hu1.calls h2
    split
    · next hr =>
      have hb := hbudget hr
      rw [← hh] at hb hfile
      have H2 : u.Prepared w2.host fd := by rw [hh]; exact H
      refine abides_sys trivial fun r h' he => ?_
      have ho3 := ho2.call (c := .openat fd u.partName) (r := r) (by simp)
      have hu3 := hu2.push (o := .call (.openat fd u.partName)) (r := r) trivial
      cases r with
      | error e =>
        exact ⟨guarantee_quiet rfl (exec_error he).1 (call_ne_renameDone (by simp)) quiet_call,
          rejectBeforeReady_abides ho3 hu3 rfl⟩
      | ok f =>
        have O := H2.openat hb he
        rw [hfile, hP] at O
        refine ⟨?_, receivePart_abides hsafe ho3 ((hacc.calls h1).calls h2).call hu3 O⟩
        obtain ⟨rfl, ⟨i, hc, -⟩ | ⟨i, hi, rfl⟩ | ⟨-, rfl⟩⟩ := exec_openat H2.opened he
        · exact guarantee_change ho2 rfl (by simp) (.createPart i _ hb hc)
        · exact guarantee_quiet rfl rfl (call_ne_renameDone (by simp)) quiet_call
        · exact guarantee_quiet rfl rfl (call_ne_renameDone (by simp)) quiet_call
    · exact rejectBeforeReady_abides ho2 hu2 rfl

end Upload

end SyncWire

