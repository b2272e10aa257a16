import SyncWire.Receive.Calm

/-!
# The part file when nothing fails

What the stages of `receive_file` do with the part file in a calm environment: it is
opened and checked (`openPart_calmly`, `checkPart_calmly`), what is in it is kept or dropped
(`trimPart_calmly`, `readPartialPrefix_calmly`, `restart_calmly`), chunks are written behind it
(`writeAll_calmly`), and in the end it takes the final path (`rename_calmly`).
-/

namespace SyncWire

open Wire Effect Posix Posix.Fs FileTransfer

namespace Upload

/-- The part file is open at `pos` and holds `D`, and nothing is in the way of the rename. -/
structure Storing (u : Upload) (d f : Fd) (i pos : Nat) (D : Bytes) (h : Host) : Prop where
  holding : u.Holding h d f i pos
  data : (h.fs.inode i).data = D
  final : h.fs.node u.finalPath ≠ some .dir

variable {u : Upload} {w : World} {d f : Fd} {i pos : Nat} {P D : Bytes}

namespace Storing

variable {h h' : Host} (H : u.Storing d f i pos D h)
include H

theorem same (hs : h.Same h') : u.Storing d f i pos D h' :=
  ⟨H.holding.same hs, by rw [hs.1]; exact H.data, by rw [hs.1]; exact H.final⟩

theorem seek (pos' : Nat) : u.Storing d f i pos' D (h.setFile f (.regular i pos')) :=
  ⟨H.holding.seek pos', H.data, H.final⟩

theorem store (x : Bytes) : u.Storing d f i pos x { h with fs := h.fs.setData i x } :=
  ⟨H.holding.store x, data_setData_self, by simpa only [node_setData] using H.final⟩

end Storing

/-! ## Opening -/

theorem Prepared.free {h : Host} (hp : u.Prepared h d) (hn : h.fs.node u.partPath = none) :
    h.fs.Free u.partPath := by
  refine ⟨by simp [partPath], ?_, by rw [hn]; simp, ?_⟩
  · rw [partPath, List.dropLast_concat]
    exact hp.state
  · rw [partPath, List.getLastD_concat]
    exact validName_partNameOf _

/-- An existing part file that is ours. -/
theorem Prepared.open {h : Host} (hp : u.Prepared h d) (hb : u.Budget h.fs) (honly : u.OnlyName h.fs i) :
    u.Holding (h.opened (.regular i 0)) d h.nextFd i 0 := by
  have hne : h.nextFd ≠ d := (Nat.ne_of_lt hp.lt).symm
  exact ⟨h.opened_files_self _, (h.opened_files_ne _ hne.symm).trans hp.opened, hne, Nat.lt_succ_self _,
    Nat.lt_succ_of_lt hp.lt, honly, hb, hp.parent⟩

theorem openPart_calmly (hsafe : isSafeRemotePath u.metadata.filename = true) (hp : u.Prepared w.host d)
    (F : u.Fit w.host P) :
    Calmly u.cr (sys (.openat d u.partName)) w fun r w' => ∃ f i, r = .ok f ∧ u.Storing d f i 0 P w'.host ∧
      w'.host.statOf f = some ⟨true, 1, w'.host.euid, P.length⟩ := by
  rw [← Prog.bind_pure (sys _)]
  have hcan : ∃ h', exec u.cr (.openat d u.partName) w.host (.ok w.host.nextFd) = some h' := by
    rcases F.part with ⟨hn, -⟩ | ⟨i, honly, -⟩
    · have hn' : w.host.fs.node (u.stateRoot ++ [u.partName]) = none := hn
      have hfree : w.host.fs.Free (u.stateRoot ++ [u.partName]) := hp.free hn
      simp only [exec, succeed, hp.opened, if_true, hn', dif_pos hfree]
      exact ⟨_, rfl⟩
    · have hi : w.host.fs.node (u.stateRoot ++ [u.partName]) = some (.file i) := (honly _).mpr rfl
      simp only [exec, succeed, hp.opened, if_true, hi]
      exact ⟨_, rfl⟩
  obtain ⟨h₀, hcan⟩ := hcan
  refine calmly_ok rfl hcan fun fd h' he => ?_
  obtain ⟨rfl, hcase⟩ := exec_openat hp.opened he
  refine total_pure ⟨w.host.nextFd, ?_⟩
  rcases F.part with ⟨hn, rfl⟩ | ⟨i, honly, huid, hdata⟩
  · rcases hcase with ⟨i, hc, hh⟩ | ⟨i, hi, -⟩ | ⟨hi, -⟩
    · have H := hp.create F.budget hc hh
      obtain ⟨-, -, hnode, hinode⟩ := hc
      refine ⟨i, rfl, ⟨H, by rw [hinode, Function.update_self], ?_⟩, ?_⟩
      · rw [hnode]
        exact (Function.update_of_ne (finalPath_ne_partPath hsafe) _ _).symm ▸ F.final
      · simp only [Host.statOf, H.part, nlink_eq_one H.only, hinode, Function.update_self]
        rw [hh]
        rfl
    · cases hn.symm.trans hi
    · cases hn.symm.trans hi
  · have hi : w.host.fs.node (u.stateRoot ++ [u.partName]) = some (.file i) := (honly _).mpr rfl
    rcases hcase with ⟨j, hc, -⟩ | ⟨j, hj, rfl⟩ | ⟨hj, -⟩
    · cases hi.symm.trans hc.1
    · cases hi.symm.trans hj
      have H := hp.open F.budget honly
      refine ⟨i, rfl, ⟨H, hdata, F.final⟩, ?_⟩
      simp only [Host.statOf, H.part, Host.opened_fs, Host.opened_euid, huid, hdata, nlink_eq_one honly]
    · cases hi.symm.trans hj

theorem checkPart_calmly {size : Nat} (hst : w.host.statOf f = some ⟨true, 1, w.host.euid, size⟩) :
    Calmly u.cr (checkPart f) w fun r w' => r = .ok size ∧ w'.host = w.host := by
  refine total_mono (checkPart_spec permits_calm trivial hst) ?_
  rintro r w' ⟨hh, ⟨hno, -⟩ | rfl⟩
  · exact hno.elim
  · exact ⟨by simp, hh⟩

/-! ## What is there already -/

/-- Of a part file longer than the upload nothing is kept. -/
def kept (u : Upload) (P : Bytes) : Bytes := if P.length ≤ u.metadata.fileSize.toNat then P else []

theorem length_kept (u : Upload) (P : Bytes) : (u.kept P).length ≤ u.metadata.fileSize.toNat := by
  unfold kept
  split
  · assumption
  · exact Nat.zero_le _

theorem trimPart_calmly (H : u.Storing d f i 0 P w.host) :
    Calmly u.cr (trimPart f P.length u.metadata.fileSize) w fun r w' =>
      r = .ok (UInt64.ofNat (u.kept P).length) ∧ u.Storing d f i 0 (u.kept P) w'.host := by
  unfold trimPart kept
  split
  · next hlong =>
    have hcan : exec u.cr (.ftruncate f) w.host (.ok ()) =
        some { w.host with fs := w.host.fs.setData i [] } := by
      simp [exec, succeed, H.holding.part]
    refine calmly_ok rfl hcan fun _ h' he => ?_
    obtain rfl := exec_ftruncate H.holding.part he
    rw [if_neg (Nat.not_le.mpr hlong)]
    exact total_pure ⟨rfl, H.store []⟩
  · next hlong =>
    rw [if_pos (Nat.not_lt.mp hlong)]
    exact total_pure ⟨rfl, H⟩

/-- A read that gets something unless it is at the end. -/
theorem read_calmly {α : Type} {n : Nat} {k : Except Nat Bytes → Sys α} {Q : α → World → Prop}
    (H : u.Storing d f i pos D w.host)
    (hint : ∀ w', u.Storing d f i pos D w'.host → w'.host.signals < w.host.signals →
      Calmly u.cr (k (.error EINTR)) w' Q)
    (hok : ∀ data w', data = (D.drop pos).take data.length → data.length ≤ n →
      (data = [] → n = 0 ∨ D.length ≤ pos) → u.Storing d f i (pos + data.length) D w'.host →
      w'.host.signals = w.host.signals → Calmly u.cr (k (.ok data)) w' Q) :
    Calmly u.cr (sys (.read f n) >>= k) w Q := by
  refine calmly_sys (read_can H.holding.part) fun r h' hr he => ?_
  cases r with
  | error e =>
    obtain rfl : e = EINTR := hr
    obtain ⟨hpos, rfl⟩ := fail_interrupted (c := .read f n) rfl he
    exact hint _ (H.same ⟨rfl, rfl, rfl, rfl⟩) (Nat.sub_lt hpos Nat.one_pos)
  | ok data =>
    have hsome : data = [] → n = 0 ∨ D.length ≤ pos := by
      simp only [exec, succeed, H.holding.part, H.data] at he
      split at he
      · next h => exact h.2.2
      · cases he
    obtain ⟨hdata, hle, rfl⟩ := exec_read H.holding.part he
    rw [H.data] at hdata
    exact hok data _ hdata hle hsome (H.seek _) rfl

theorem readPartialPrefix_calmly {size : UInt64} (H : u.Storing d f i 0 D w.host) (hsize : size.toNat = D.length) :
    Calmly u.cr (readPartialPrefix f size) w fun r w' =>
      r = some (({} : Crc32).update D) ∧ u.Storing d f i D.length D w'.host := by
  -- what is read is in the checksum; a turn reads something or takes a signal
  let J : UInt64 × Crc32 → World → Prop := fun s w' => ∃ done, done + s.1.toNat = D.length ∧
    s.2 = ({} : Crc32).update (D.take done) ∧ u.Storing d f i done D w'.host
  refine total_iter J (fun s w' => s.1.toNat + w'.host.signals) ?_ (s := (size, {}))
    ⟨0, by simpa using hsize, rfl, H⟩
  rintro ⟨remaining, checksum⟩ w' ⟨done, hdone, hsum, H'⟩
  simp only at hdone hsum ⊢
  split
  · next hrem =>
    have hpos : 0 < remaining.toNat := by
      rw [Nat.pos_iff_ne_zero]
      intro hz
      exact hrem (UInt64.toNat_inj.mp hz)
    refine read_calmly H' (fun w'' H'' hsig => ?_) fun data w'' hdata hle hsome H'' hsig => ?_
    · simp only [if_true]
      exact total_pure ⟨⟨done, hdone, hsum, H''⟩, by simp only; omega⟩
    · have hne : data.length ≠ 0 := by
        intro hz
        rcases hsome (List.eq_nil_of_length_eq_zero hz) with h | h
        · have hchunk : 0 < kDefaultChunkSize := by decide
          omega
        · omega
      simp only [if_neg hne]
      obtain ⟨hsub, hdone', hsum'⟩ := readPartialPrefix_turn hdone hsum hdata hle
      have hle' : data.length ≤ remaining.toNat := Nat.le_trans hle (Nat.min_le_left _ _)
      exact total_pure ⟨⟨done + data.length, hdone', hsum', H''⟩, by simp only [hsub]; omega⟩
  · next hrem =>
    have hz : remaining.toNat = 0 := by rw [not_not.mp hrem]; rfl
    obtain rfl : done = D.length := by omega
    rw [List.take_length] at hsum
    exact total_pure ⟨by rw [hsum], H'⟩

/-! ## Chunks -/

/-- A write that gets something written. -/
theorem write_calmly {α : Type} {x : Bytes} {k : Except Nat Nat → Sys α} {Q : α → World → Prop}
    (hx : 0 < x.length) (H : u.Storing d f i D.length D w.host)
    (hint : ∀ w', u.Storing d f i D.length D w'.host → w'.host.signals < w.host.signals →
      Calmly u.cr (k (.error EINTR)) w' Q)
    (hok : ∀ (n : Nat) w', 0 < n → n ≤ x.length → u.Storing d f i (D ++ x.take n).length (D ++ x.take n) w'.host →
      w'.host.signals = w.host.signals → Calmly u.cr (k (.ok n)) w' Q) :
    Calmly u.cr (sys (.write f x) >>= k) w Q := by
  refine calmly_sys (write_can H.holding.part hx) fun r h' hr he => ?_
  cases r with
  | error e =>
    obtain rfl : e = EINTR := hr
    obtain ⟨hpos, rfl⟩ := fail_interrupted (c := .write f x) rfl he
    exact hint _ (H.same ⟨rfl, rfl, rfl, rfl⟩) (Nat.sub_lt hpos Nat.one_pos)
  | ok n =>
    obtain ⟨hle, rfl⟩ := exec_write H.holding.part he
    have hlen : (D ++ x.take n).length = D.length + n := by
      rw [List.length_append, List.length_take, Nat.min_eq_left hle]
    rw [H.data, splice_end]
    refine hok n _ hr hle ?_ rfl
    rw [hlen]
    exact (H.store _).seek _

theorem writeAll_calmly {x : Bytes} (H : u.Storing d f i D.length D w.host) :
    Calmly u.cr (writeAll f x) w fun r w' =>
      r = .ok () ∧ u.Storing d f i (D ++ x).length (D ++ x) w'.host := by
  -- what is written is in the file; a turn writes something or takes a signal
  let J : Nat → World → Prop := fun n w' => n ≤ x.length ∧
    u.Storing d f i (D ++ x.take n).length (D ++ x.take n) w'.host
  refine total_iter J (fun n w' => (x.length - n) + w'.host.signals) ?_ (s := 0)
    ⟨Nat.zero_le _, by simpa using H⟩
  rintro n w' ⟨hn, H'⟩
  split
  · next hlt =>
    have hpos : 0 < (x.drop n).length := by
      rw [List.length_drop]
      omega
    refine write_calmly hpos H' (fun w'' H'' hsig => ?_) fun m w'' hm hle H'' hsig => ?_
    · simp only [if_true]
      exact total_pure ⟨⟨hn, H''⟩, by omega⟩
    · simp only [gt_iff_lt, hm, if_true]
      rw [List.length_drop] at hle
      rw [List.append_assoc, ← List.take_add] at H''
      exact total_pure ⟨⟨by omega, H''⟩, by omega⟩
  · next hlt =>
    obtain rfl : n = x.length := by omega
    rw [List.take_length] at H'
    exact total_pure ⟨rfl, H'⟩

/-- What the receiving loop knows between two frames, `D` being in the part file. -/
structure Filled (u : Upload) (d f : Fd) (p : Progress) (D : Bytes) (h : Host) : Prop where
  part : ∃ i, u.Storing d f i D.length D h
  offset : p.offset.toNat = D.length
  sum : p.checksum = ({} : Crc32).update D

/-- A chunk that starts again at 0 behind a prefix is taken as one for an empty file. -/
theorem restart_calmly {p : Progress} {chunk : FileChunk} (F : u.Filled d f p D w.host) :
    Calmly u.cr (restart (u.transfer d f) p chunk) w fun r w' => ∃ p', r = .ok p' ∧ p'.firstChunk = false ∧
      if p.firstChunk = true ∧ p.offset ≠ 0 ∧ chunk.offset = 0 then p'.resumedFrom = 0 ∧ u.Filled d f p' [] w'.host
      else p'.resumedFrom = p.resumedFrom ∧ u.Filled d f p' D w'.host := by
  obtain ⟨⟨i, H⟩, hoff, hsum⟩ := F
  unfold restart
  split
  · have hcan : exec u.cr (.ftruncate f) w.host (.ok ()) =
        some { w.host with fs := w.host.fs.setData i [] } := by
      simp [exec, succeed, H.holding.part]
    refine calmly_ok rfl hcan fun _ h' he => ?_
    obtain rfl := exec_ftruncate H.holding.part he
    have hcan' : exec u.cr (.lseek f) { w.host with fs := w.host.fs.setData i [] } (.ok ()) =
        some (({ w.host with fs := w.host.fs.setData i [] } : Host).setFile f (.regular i 0)) := by
      simp [exec, succeed, H.holding.part]
    refine calmly_ok rfl hcan' fun _ h' he => ?_
    obtain rfl := Option.some.inj (hcan'.symm.trans he)
    exact total_pure ⟨_, rfl, rfl, rfl, ⟨i, (H.store []).seek 0⟩, rfl, rfl⟩
  · exact total_pure ⟨_, rfl, rfl, rfl, ⟨i, H⟩, hoff, hsum⟩

/-! ## The end -/

theorem Storing.free {h : Host} (hsafe : isSafeRemotePath u.metadata.filename = true)
    (H : u.Storing d f i pos D h) : h.fs.Free u.finalPath := by
  have hne : components u.metadata.filename ≠ [] := components_ne_nil _
  refine ⟨by simp [finalPath, hne], H.holding.parent, H.final, ?_⟩
  have hlast : u.finalPath.getLastD [] = (components u.metadata.filename).getLast hne := by
    rw [finalPath, List.getLastD_eq_getLast?, List.getLast?_append_of_ne_nil _ hne,
      List.getLast?_eq_some_getLast hne]
    rfl
  rw [hlast]
  exact validName_component hsafe _ (List.getLast_mem hne)

theorem rename_calmly (hsafe : isSafeRemotePath u.metadata.filename = true)
    (H : u.Storing d f i pos D w.host) (hlen : D.length = u.metadata.fileSize.toNat)
    (hsum : crc32 D = u.metadata.checksum) :
    Calmly u.cr (sys (.rename u.partPath u.finalPath)) w fun r w' => r = .ok () ∧
      u.Committed w.host.fs w'.host.fs ∧ w'.host.fs.fileAt u.finalPath = some D ∧
      w'.host.fs.node u.finalPath.dropLast = some .dir ∧ w'.host.files = w.host.files := by
  have hpart := (H.holding.only u.partPath).mpr rfl
  have hstate : w.host.fs.node u.stateRoot = some .dir := w.host.fs.node_parent hpart
  have hother : w.host.fs.node u.finalPath ≠ some (.file i) := fun he =>
    finalPath_ne_partPath hsafe ((H.holding.only _).mp he)
  obtain ⟨fs', hfs⟩ := rename_can hpart (H.free hsafe) (finalPath_ne_partPath hsafe).symm hother
  have hcan : exec u.cr (.rename u.partPath u.finalPath) w.host (.ok ()) = some { w.host with fs := fs' } := by
    simp only [exec, succeed, resolve_of_node hpart, resolve_eq H.holding.parent, hfs, Option.map_some]
  rw [← Prog.bind_pure (sys _)]
  refine calmly_ok rfl hcan fun _ h' he => ?_
  obtain rfl := Option.some.inj (hcan.symm.trans he)
  have hc : u.Committed w.host.fs fs' :=
    committed_of_rename hsafe H.holding.only (by rw [H.data, hlen]) (by rw [H.data, hsum]) hfs
  refine total_pure ⟨rfl, hc, ?_, hc.grows.1 _ H.holding.parent, rfl⟩
  obtain ⟨C, hC, hfinal, -⟩ := hc.final
  rw [fileAt_eq_some.mpr ⟨i, hpart, H.data⟩] at hC
  rwa [← Option.some.inj hC] at hfinal

theorem syncDirectories_calmly (hdir : w.host.fs.node u.finalPath.dropLast = some .dir) :
    Calmly u.cr (syncDirectories (u.transfer d f)) w fun r w' => r = .ok () ∧ w'.host.fs = w.host.fs := by
  refine calmly_ok rfl (openDir_can hdir) fun fd h' he => ?_
  obtain ⟨-, rfl, rfl⟩ := exec_openDir ( plain_of_isPrefix (plain_of_dir hdir) (List.dropLast_prefix _)) he
  have hsync : ∀ (fd : Fd) (h : Host), exec u.cr (.fsync fd) h (.ok ()) = some h := fun _ _ => rfl
  refine calmly_look rfl (hsync _ _) fun _ _ => ?_
  exact calmly_look rfl (hsync _ _) fun _ _ => total_pure ⟨rfl, rfl⟩

end Upload

end SyncWire
