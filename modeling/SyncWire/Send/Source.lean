import SyncWire.FileTransfer
import SyncWire.Termination

/-!
# The source of an upload

A source that stays as it is, with the content `S`, and the stages of `send_file` that read it.
They end, and whatever fails, what they return is about `S` (`checksumStream_spec`,
`readSourceMetadata_spec`, `readSourcePrefix_spec`).
-/

namespace SyncWire

open Wire Effect Posix Posix.Fs FileTransfer

/-- The path leads to a regular file with the content `S`. -/
def Source (h : Host) (path : Path) (S : Bytes) : Prop :=
  ∃ q i, h.fs.target path = some (q, .file i) ∧ (h.fs.inode i).data = S

/-- A stream on such a file, at `pos`. -/
def StreamAt (h : Host) (fd : Fd) (S : Bytes) (pos : Nat) : Prop :=
  ∃ i, h.files fd = some (.regular i pos) ∧ (h.fs.inode i).data = S

/-- What is left of a stream. -/
def streamLeft (fd : Fd) (h : Host) : Nat :=
  match h.files fd with
  | some (.regular i pos) => (h.fs.inode i).data.length - pos
  | _ => 0

theorem streamLeft_eq {h : Host} {fd : Fd} {S : Bytes} {pos : Nat} (hs : StreamAt h fd S pos) :
    streamLeft fd h = S.length - pos := by
  obtain ⟨i, hf, hd⟩ := hs
  simp only [streamLeft, hf, hd]

theorem Source.congr {h h' : Host} {path : Path} {S : Bytes} (hs : Source h path S) (hfs : h'.fs = h.fs) :
    Source h' path S := by
  obtain ⟨q, i, ht, hd⟩ := hs
  exact ⟨q, i, by rw [hfs, ht], by rw [hfs, hd]⟩

/-! ## The frames of an upload -/

abbrev types (us : List WireFrame) : List MessageType := us.map fun m => m.1.header.messageType

/-- Some of the frames a client sends in an upload: none but the last one ends it, and that one does if the upload
is a success. -/
structure Completes (ok : Bool) (us : List WireFrame) : Prop where
  inside : .transferComplete ∉ (types us).dropLast
  last : ok = true → (types us).getLast? = some .transferComplete

/-- How many uploads they end. -/
def endings (us : List WireFrame) : Nat := (types us).count .transferComplete

theorem endings_append (us vs : List WireFrame) : endings (us ++ vs) = endings us + endings vs := by
  rw [endings, types, List.map_append, List.count_append]
  rfl

theorem Completes.endings {ok : Bool} {us : List WireFrame} (h : Completes ok us) (hok : ok = true) :
    endings us = 1 := by
  obtain ⟨l, hl⟩ := List.getLast?_eq_some_iff.mp (h.last hok)
  have hinside := h.inside
  rw [hl, List.dropLast_concat] at hinside
  rw [SyncWire.endings, hl, List.count_append, List.count_eq_zero.mpr hinside]
  rfl

/-! ## What the stages return, whatever was answered -/

/-- An error that says neither that the connection is broken nor that the server refused. -/
structure Objection (r : FileTransferResult) : Prop where
  failed : r.ok = false
  notIo : r.status ≠ .frameIoError
  notRemote : r.status ≠ .remoteRejected

/-- A stage that fails with such errors only. -/
def Objects {γ : Type} (x : Except FileTransferResult γ) : Prop := ∀ r, x = .error r → Objection r

theorem objects_ok {γ : Type} (a : γ) : Objects (.ok a) := fun _ h => nomatch h

theorem objects_error {γ : Type} {r : FileTransferResult} (h : Objection r) :
    Objects (.error r : Except FileTransferResult γ) :=
  fun _ he => Except.error.inj he ▸ h

theorem exec_readStream_left {cr : Crypto} {h h' : Host} {fd : Fd} {n : Nat} {data : Bytes}
    (he : exec cr (.readStream fd n) h (.ok data) = some h') :
    streamLeft fd h' + data.length = streamLeft fd h := by
  simp only [exec, succeed] at he
  split at he
  · next i pos hf =>
    split at he
    · next hdata =>
      obtain rfl := Option.some.inj he
      have hlen := congrArg List.length hdata
      rw [List.length_take, List.length_drop] at hlen
      simp only [streamLeft, Host.setFile_files_self, Host.setFile_fs, hf]
      omega
    · cases he
  · cases he

theorem checksumStream_returns (fd : Fd) : Returns onHost (checksumStream fd) := by
  intro cr w
  refine total_iter (fun _ _ => True) (fun _ w => streamLeft fd w.host) ?_ trivial
  intro checksum w _
  refine total_sys fun r h' he => ?_
  cases r with
  | error errno => exact total_pure trivial
  | ok data =>
    have hleft := exec_readStream_left he
    dsimp only
    split
    · exact total_pure trivial
    · next hlong =>
      refine total_pure ⟨trivial, ?_⟩
      have hlong' : kDefaultChunkSize ≤ List.length (α := UInt8) data := Nat.not_lt.mp hlong
      have hpositive : 0 < kDefaultChunkSize := by decide
      dsimp only
      omega

theorem checksumStream_issues (fd : Fd) : Issues ReadCall (checksumStream fd) := by
  refine ⟨uses_iter (fun checksum => ?_) _, checksumStream_returns fd⟩
  refine uses_sys rfl fun r => ?_
  cases r with
  | error e => exact uses_pure _
  | ok data => simp only; split <;> exact uses_pure _

theorem readSourceMetadata_does (path : Path) (limits : TransferLimits) :
    Does ReadCall (readSourceMetadata path limits) Objects := by
  refine does_sys rfl fun r => ?_
  cases r with
  | error e => exact does_pure (objects_error ⟨rfl, by simp, by simp⟩)
  | ok size =>
    simp only
    split
    · exact does_pure (objects_error ⟨rfl, by simp, by simp⟩)
    · refine does_sys rfl fun r => ?_
      cases r with
      | error e => exact does_pure (objects_error ⟨rfl, by simp, by simp⟩)
      | ok fd =>
        refine issues_bind (checksumStream_issues fd) fun r => ?_
        cases r with
        | error e => exact does_pure (objects_error ⟨rfl, by simp, by simp⟩)
        | ok checksum => exact does_pure (objects_ok _)

theorem gives_readSourcePrefix (fd : Fd) (size : UInt64) (bufferSize : Nat) :
    Gives ReadCall (readSourcePrefix fd size bufferSize) Objects := by
  refine gives_iter (fun s => ?_) _
  simp only
  split
  · refine gives_sys rfl fun r => ?_
    cases r with
    | error e =>
      refine gives_pure fun b hb => ?_
      cases hb
      exact objects_error ⟨rfl, by simp, by simp⟩
    | ok data =>
      simp only
      split
      · refine gives_pure fun b hb => ?_
        cases hb
        exact objects_error ⟨rfl, by simp, by simp⟩
      · exact gives_pure fun b hb => nomatch hb
  · refine gives_pure fun b hb => ?_
    cases hb
    exact objects_ok _

theorem readSourcePrefix_returns (input : Fd) (size : UInt64) {bufferSize : Nat} (hb : 0 < bufferSize) :
    Returns onHost (readSourcePrefix input size bufferSize) := by
  intro cr w
  refine total_iter (fun _ _ => True) (fun s _ => size.toNat - s.1.toNat) ?_ trivial
  rintro ⟨prefixRead, checksum⟩ w _
  dsimp only
  split
  · next hlt =>
    have hlt' := UInt64.lt_iff_toNat_lt.mp hlt
    have hsub : (size - prefixRead).toNat = size.toNat - prefixRead.toNat :=
      UInt64.toNat_sub_of_le _ _ (UInt64.le_of_lt hlt)
    refine total_sys fun r h' he => ?_
    cases r with
    | error errno => exact total_pure trivial
    | ok data =>
      dsimp only
      split
      · exact total_pure trivial
      · have hfit : prefixRead.toNat + min (size - prefixRead).toNat bufferSize ≤ size.toNat := by omega
        refine total_pure ⟨trivial, ?_⟩
        dsimp only
        rw [toNat_advance hfit]
        omega
  · exact total_pure trivial

/-- A failure of the client's own: no success, and not of a frame it made. -/
def Failed (r : FileTransferResult) : Prop := r.ok = false ∧ r.frameIo.status ≠ .invalidFrame

theorem failed_own {r : FileTransferResult} (hr : r.ok = false) (hf : r.frameIo.status = .complete) : Failed r :=
  ⟨hr, by rw [hf]; decide⟩

theorem failed_of_declined {r : FileTransferResult} (h : Declined r) : Failed r :=
  failed_own h.failed (by rw [h.frameIo])

/-! ## What they return of the source -/

section Reading
variable {cr : Crypto} {rely : net.Rely} {I F : List net.Event → Prop} {w : World} {fd : Fd} {S : Bytes}

/-- A step of a stream: what was read is the next of it. -/
theorem StreamAt.read {pos n : Nat} {h h' : Host} {data : Bytes} (hs : StreamAt h fd S pos)
    (he : exec cr (.readStream fd n) h (.ok data) = some h') :
    data = (S.drop pos).take n ∧ StreamAt h' fd S (pos + data.length) := by
  obtain ⟨i, hf, hd⟩ := hs
  obtain ⟨hdata, rfl⟩ := exec_readStream hf he
  rw [hd] at hdata
  exact ⟨hdata, i, Host.setFile_files_self _ _ _, hd⟩

/-- The checksum of what has been read, with what is read next. -/
theorem update_read {crc : Crc32} {pos n : Nat} (hcrc : crc = ({} : Crc32).update (S.take pos)) :
    crc.update ((S.drop pos).take n) = ({} : Crc32).update (S.take (pos + ((S.drop pos).take n).length)) := by
  have htake : (S.drop pos).take ((S.drop pos).take n).length = (S.drop pos).take n := by
    rw [List.length_take, List.take_eq_take_iff]
    simp
  rw [hcrc, List.take_add, htake, Crc32.update_append]

section Calls
variable {α : Type} {Q : α → World → Prop} (hP : Permits rely I F) (hI : I w.log)
include hP hI

theorem total_openStream {path : Path} (hs : Source w.host path S) {k : Except Nat Fd → Sys α}
    (herror : ∀ errno w', w'.host.fs = w.host.fs → F w'.log → Total (solo (exec cr) rely) (k (.error errno)) w' Q)
    (hok : ∀ fd w', w'.host.fs = w.host.fs → I w'.log → StreamAt w'.host fd S 0 →
      Total (solo (exec cr) rely) (k (.ok fd)) w' Q) :
    Total (solo (exec cr) rely) (sys (.openStream path) >>= k) w Q := by
  obtain ⟨q, i, ht, hd⟩ := hs
  refine total_permitted hP rfl hI (openStream_can ht) (fun errno h' hfs hF => herror errno _ hfs hF)
    fun fd h' he hfs hI1 => ?_
  obtain ⟨rfl, rfl⟩ := exec_openStream_target ht he
  exact hok _ _ hfs hI1 ⟨i, Host.opened_files_self _ _, hd⟩

theorem total_readStream {pos n : Nat} (hs : StreamAt w.host fd S pos) {k : Except Nat Bytes → Sys α}
    (herror : ∀ errno w', w'.host.fs = w.host.fs → F w'.log → Total (solo (exec cr) rely) (k (.error errno)) w' Q)
    (hok : ∀ w', w'.host.fs = w.host.fs → I w'.log → StreamAt w'.host fd S (pos + ((S.drop pos).take n).length) →
      Total (solo (exec cr) rely) (k (.ok ((S.drop pos).take n))) w' Q) :
    Total (solo (exec cr) rely) (sys (.readStream fd n) >>= k) w Q := by
  obtain ⟨i, hf, -⟩ := id hs
  refine total_permitted hP rfl hI (readStream_can hf) (fun errno h' hfs hF => herror errno _ hfs hF)
    fun data h' he hfs hI1 => ?_
  obtain ⟨rfl, hs'⟩ := hs.read he
  exact hok _ hfs hI1 hs'

theorem total_seekStream {pos : Nat} (hs : StreamAt w.host fd S pos) {k : Except Nat Unit → Sys α}
    (herror : ∀ errno w', w'.host.fs = w.host.fs → F w'.log → Total (solo (exec cr) rely) (k (.error errno)) w' Q)
    (hok : ∀ w', w'.host.fs = w.host.fs → I w'.log → StreamAt w'.host fd S 0 →
      Total (solo (exec cr) rely) (k (.ok ())) w' Q) :
    Total (solo (exec cr) rely) (sys (.seekStream fd) >>= k) w Q := by
  obtain ⟨i, hf, hd⟩ := hs
  have hcan : exec cr (.seekStream fd) w.host (.ok ()) = some (w.host.setFile fd (.regular i 0)) := by
    simp [exec, succeed, hf]
  refine total_permitted hP rfl hI hcan (fun errno h' hfs hF => herror errno _ hfs hF) fun _ h' he hfs hI1 => ?_
  obtain rfl := Option.some.inj (hcan.symm.trans he)
  exact hok _ hfs hI1 ⟨i, Host.setFile_files_self _ _ _, hd⟩

end Calls

/-- A stream is read to its end. -/
theorem checksumStream_spec (hP : Permits rely I F) (hI : I w.log) (hs : StreamAt w.host fd S 0) :
    Total (solo (exec cr) rely) (checksumStream fd) w fun r w' => w'.host.fs = w.host.fs ∧
      match r with
      | .error _ => F w'.log
      | .ok crc => I w'.log ∧ crc = ({} : Crc32).update S := by
  -- the bytes before the position are in the checksum
  let J : Crc32 → World → Prop := fun crc w' => w'.host.fs = w.host.fs ∧ I w'.log ∧
    ∃ pos, StreamAt w'.host fd S pos ∧ crc = ({} : Crc32).update (S.take pos)
  refine total_iter J (fun _ w' => streamLeft fd w'.host) ?_ (s := {}) ⟨rfl, hI, 0, hs, by simp⟩
  rintro crc w' ⟨hfs, hI', pos, hpos, hcrc⟩
  refine total_readStream hP hI' hpos (fun errno w'' hfs' hF => total_pure ⟨hfs'.trans hfs, hF⟩)
    fun w'' hfs' hI'' hs' => ?_
  have hlen : ((S.drop pos).take kDefaultChunkSize).length = min kDefaultChunkSize (S.length - pos) := by
    rw [List.length_take, List.length_drop]
  dsimp only
  rw [update_read hcrc]
  split
  · next hshort =>
    rw [List.take_of_length_le (by omega)]
    exact total_pure ⟨hfs'.trans hfs, hI'', rfl⟩
  · next hlong =>
    refine total_pure ⟨⟨hfs'.trans hfs, hI'', _, hs', rfl⟩, ?_⟩
    rw [streamLeft_eq hs', streamLeft_eq hpos]
    have hpositive : 0 < kDefaultChunkSize := by decide
    omega

/-- The size and the checksum of the source. -/
theorem readSourceMetadata_spec {path : Path} {limits : TransferLimits} (hP : Permits rely I F) (hI : I w.log)
    (hs : Source w.host path S) :
    Total (solo (exec cr) rely) (readSourceMetadata path limits) w fun r w' => w'.host.fs = w.host.fs ∧
      match r with
      | .error result => Failed result ∧ (F w'.log ∨ I w'.log ∧ limits.maxFileSize.toNat < S.length)
      | .ok x => I w'.log ∧ S.length ≤ limits.maxFileSize.toNat ∧ x = (UInt64.ofNat S.length, crc32 S) := by
  obtain ⟨q, i, ht, hd⟩ := id hs
  refine total_permitted hP rfl hI (fileSize_can ht)
    (fun errno h' hfs hF => total_pure ⟨hfs, failed_own rfl rfl, .inl hF⟩) fun size h' he hfs hI1 => ?_
  obtain rfl : size = S.length := by rw [exec_fileSize_target ht he, hd]
  simp only
  split
  · next hmax => exact total_pure ⟨hfs, failed_own rfl rfl, .inr ⟨hI1, hmax⟩⟩
  · next hmax =>
    refine total_openStream hP hI1 (hs.congr hfs)
      (fun errno w' hfs' hF => total_pure ⟨hfs'.trans hfs, failed_own rfl rfl, .inl hF⟩)
      fun fd w' hfs' hI2 hs' => ?_
    refine total_bind (total_mono (checksumStream_spec hP hI2 hs') ?_)
    rintro (errno | crc) w'' ⟨hfs'', hpost⟩
    · exact total_pure ⟨hfs''.trans (hfs'.trans hfs), failed_own rfl rfl, .inl hpost⟩
    · obtain ⟨hI3, rfl⟩ := hpost
      exact total_pure ⟨hfs''.trans (hfs'.trans hfs), hI3, Nat.not_lt.mp hmax, rfl⟩

/-- The checksum of a prefix; the stream is left behind it. -/
theorem readSourcePrefix_spec {size : UInt64} {bufferSize : Nat} (hP : Permits rely I F) (hI : I w.log)
    (hs : StreamAt w.host fd S 0) (hb : 0 < bufferSize) :
    Total (solo (exec cr) rely) (readSourcePrefix fd size bufferSize) w fun r w' => w'.host.fs = w.host.fs ∧
      match r with
      | .error result => Failed result ∧ (F w'.log ∨ I w'.log ∧ S.length < size.toNat)
      | .ok crc => I w'.log ∧ StreamAt w'.host fd S size.toNat ∧
        crc = ({} : Crc32).update (S.take size.toNat) := by
  let J : UInt64 × Crc32 → World → Prop := fun s w' => w'.host.fs = w.host.fs ∧ I w'.log ∧ s.1 ≤ size ∧
    StreamAt w'.host fd S s.1.toNat ∧ s.2 = ({} : Crc32).update (S.take s.1.toNat)
  refine total_iter J (fun s _ => size.toNat - s.1.toNat) ?_ (s := (0, {}))
    ⟨rfl, hI, by simp [UInt64.le_iff_toNat_le], hs, by simp⟩
  rintro ⟨prefixRead, crc⟩ w' ⟨hfs, hI', hle, hstream, hcrc⟩
  dsimp only at hle hstream hcrc ⊢
  have hle' := UInt64.le_iff_toNat_le.mp hle
  split
  · next hlt =>
    have hlt' := UInt64.lt_iff_toNat_lt.mp hlt
    have hsub : (size - prefixRead).toNat = size.toNat - prefixRead.toNat := UInt64.toNat_sub_of_le _ _ hle
    refine total_readStream hP hI' hstream
      (fun errno w'' hfs' hF => total_pure ⟨hfs'.trans hfs, failed_own rfl rfl, .inl hF⟩)
      fun w'' hfs' hI1 hs' => ?_
    have hlen : ((S.drop prefixRead.toNat).take (min (size - prefixRead).toNat bufferSize)).length =
        min (min (size - prefixRead).toNat bufferSize) (S.length - prefixRead.toNat) := by
      rw [List.length_take, List.length_drop]
    dsimp only
    split
    · next hshort =>
      exact total_pure ⟨hfs'.trans hfs, failed_own rfl rfl, .inr ⟨hI1, by omega⟩⟩
    · next hfull =>
      have hsz := size.toNat_lt
      have hadd : (prefixRead + UInt64.ofNat (min (size - prefixRead).toNat bufferSize)).toNat =
          prefixRead.toNat +
            ((S.drop prefixRead.toNat).take (min (size - prefixRead).toNat bufferSize)).length := by
        rw [UInt64.toNat_add, UInt64.toNat_ofNat', not_not.mp hfull]
        omega
      refine total_pure ⟨⟨hfs'.trans hfs, hI1, ?_, by rw [hadd]; exact hs', ?_⟩, ?_⟩
      · rw [UInt64.le_iff_toNat_le, hadd]
        omega
      · rw [hadd, update_read hcrc]
      · rw [hadd]
        omega
  · next hlt =>
    obtain heq : prefixRead.toNat = size.toNat := by
      have hge := UInt64.le_iff_toNat_le.mp (UInt64.not_lt.mp hlt)
      omega
    rw [heq] at hstream hcrc
    exact total_pure ⟨hfs, hI', hstream, hcrc⟩

/-! ## With a guarantee -/

variable {G : World → World → Prop}

theorem openStream_safe {α : Type} {path : Path} (hA : Admits I G) (hI : I w.log) (hs : Source w.host path S)
    {k : Except Nat Fd → Sys α} {Q : α → World → Prop}
    (herror : ∀ e w', w'.host.fs = w.host.fs → I w'.log → Safe (solo (exec cr) rely) G (k (.error e)) w' Q)
    (hok : ∀ fd w', w'.host.fs = w.host.fs → I w'.log → StreamAt w'.host fd S 0 →
      Safe (solo (exec cr) rely) G (k (.ok fd)) w' Q) :
    Safe (solo (exec cr) rely) G (sys (.openStream path) >>= k) w Q := by
  obtain ⟨q, i, ht, hd⟩ := hs
  refine safe_read hA rfl hI fun r h' he hfs hI1 => ?_
  cases r with
  | error e => exact herror e _ hfs hI1
  | ok fd =>
    obtain ⟨rfl, rfl⟩ := exec_openStream_target ht he
    exact hok _ _ hfs hI1 ⟨i, Host.opened_files_self _ _, hd⟩

theorem readSourceMetadata_safe {path : Path} {limits : TransferLimits} (hA : Admits I G) (hI : I w.log)
    (hs : Source w.host path S) {Q : Except FileTransferResult (UInt64 × UInt32) → World → Prop}
    (herror : ∀ r w', Failed r → I w'.log → Q (.error r) w')
    (hok : ∀ w', w'.host.fs = w.host.fs → I w'.log → S.length ≤ limits.maxFileSize.toNat →
      Q (.ok (UInt64.ofNat S.length, crc32 S)) w') :
    Safe (solo (exec cr) rely) G (readSourceMetadata path limits) w Q := by
  refine safe_reading (readSourceMetadata_does path limits).uses hA hI fun r w' hr hfs hI' => ?_
  obtain ⟨-, hpost⟩ := (readSourceMetadata_spec permits_anyAnswer trivial hs).result hr
  cases r with
  | error result => exact herror _ _ hpost.1 hI'
  | ok x =>
    obtain ⟨-, hmax, rfl⟩ := hpost
    exact hok _ hfs hI' hmax

theorem readSourcePrefix_safe {size : UInt64} {bufferSize : Nat} (hA : Admits I G) (hI : I w.log)
    (hs : StreamAt w.host fd S 0) (hb : 0 < bufferSize) {Q : Except FileTransferResult Crc32 → World → Prop}
    (herror : ∀ r w', Failed r → I w'.log → Q (.error r) w')
    (hok : ∀ w', w'.host.fs = w.host.fs → I w'.log → StreamAt w'.host fd S size.toNat →
      Q (.ok (({} : Crc32).update (S.take size.toNat))) w') :
    Safe (solo (exec cr) rely) G (readSourcePrefix fd size bufferSize) w Q := by
  refine safe_reading (gives_readSourcePrefix fd size bufferSize).uses hA hI fun r w' hr hfs hI' => ?_
  obtain ⟨-, hpost⟩ := (readSourcePrefix_spec permits_anyAnswer trivial hs hb).result hr
  cases r with
  | error result => exact herror _ _ hpost.1 hI'
  | ok crc =>
    obtain ⟨-, hs', rfl⟩ := hpost
    exact hok _ hfs hI' hs'

end Reading

end SyncWire
