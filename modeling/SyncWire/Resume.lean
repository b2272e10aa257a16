import SyncWire.Receive.Part
import SyncWire.Send.Calm
import SyncWire.Session.Rejection

/-!
# Uploads against any saved part file

`send_file` and `receive_file` run against each other, in any interleaving, over a
channel that delivers what is sent, and no call fails.

* `chunk_together`: a chunk is sent, stored and acknowledged.
* `chunks_together`: the two loops stay in step to the end of the source.
* `upload_resumes`: whatever the part file holds, both sides return `Success`, and the
  final path holds the part file continued by the source, or the source.
-/

namespace SyncWire

open Wire Effect Posix Posix.Fs FileTransfer

section
variable {cr : Crypto} {α β γ δ : Type} {w v : World} {Q : α → World → β → World → Prop}

/-- The client makes calls, inside of something else. -/
theorem client_calls {p : Sys γ} {f : γ → Sys δ} {k : δ → Sys α} {y : Sys β × World} {R : γ → World → Prop}
    (hl : Linked w y.2) (h : Calmly cr p w R)
    (hk : ∀ a w', R a w' → Linked w' y.2 → Together cr (f a >>= k, w') y Q) :
    Together cr ((p >>= f) >>= k, w) y Q := by
  rw [bind_assoc]
  exact jends_left_still calm_patient hl h hk

/-- The server makes calls, inside of something else. -/
theorem server_calls {p : Sys γ} {f : γ → Sys δ} {k : δ → Sys β} {x : Sys α × World} {R : γ → World → Prop}
    (hl : Linked x.2 v) (h : Calmly cr p v R)
    (hk : ∀ a v', R a v' → Linked x.2 v' → Together cr x (f a >>= k, v') Q) :
    Together cr x ((p >>= f) >>= k, v) Q := by
  rw [bind_assoc]
  exact jends_right_still calm_patient hl h hk

/-- A call that only looks and can succeed, as a stretch of its own. -/
theorem look_calmly {c : Posix.Call} (hc : c.looks = true) {x : Posix.Val c} {h₀ : Host}
    (hex : exec cr c w.host (.ok x) = some h₀) :
    Calmly cr (sys c) w fun r w' => ∃ x, r = .ok x ∧ w'.host = w.host := by
  rw [← Prog.bind_pure (sys c)]
  exact calmly_look hc hex fun x _ => total_pure ⟨x, rfl, rfl⟩

theorem fsync_calmly (fd : Fd) : Calmly cr (sys (.fsync fd)) w fun r w' => r = .ok () ∧ w'.host = w.host := by
  have hcan : exec cr (.fsync fd) w.host (.ok ()) = some w.host := rfl
  exact total_mono (look_calmly rfl hcan) fun r w' ⟨_, hr, hh⟩ => ⟨hr, hh⟩

end

namespace Upload

variable {u : Upload} {α β : Type} {w v : World} {d f : Fd} {p : Progress} {D S : Bytes}
  {Q : α → World → β → World → Prop}

/-! ## A chunk -/

theorem onFrame_chunk {t : Transfer} {offset : UInt64} {data : Bytes} (hdata : data ≠ []) :
    onFrame t p (makeFrame .fileChunk t.requestId t.transferId (encodeFileChunk offset data)) =
      onChunk t p ⟨offset, data⟩ := by
  unfold onFrame
  simp [makeFrame, decodeFileChunk_encode offset hdata]

theorem onFrame_complete {t : Transfer} :
    onFrame t p (makeFrame .transferComplete t.requestId t.transferId []) = pure (.inr (.ok p)) := by
  unfold onFrame
  simp [makeFrame]

theorem expect_makeFrame (type : MessageType) (requestId transferId : UInt64) (payload : List UInt8) :
    expect type requestId transferId (.ok (makeFrame type requestId transferId payload)) =
      .ok (makeFrame type requestId transferId payload) :=
  expect_same rfl

/-- The progress after a chunk. -/
abbrev advance (p : Progress) (data : Bytes) : Progress :=
  { p with checksum := p.checksum.update data, offset := p.offset + UInt64.ofNat data.length }

theorem Filled.advance {h : Host} (hoff : p.offset.toNat = D.length) (hsum : p.checksum = ({} : Crc32).update D)
    {data : Bytes} (hpart : ∃ i, u.Storing d f i (D ++ data).length (D ++ data) h)
    (hfit : D.length + data.length < 2 ^ 64) : u.Filled d f (advance p data) (D ++ data) h := by
  refine ⟨hpart, ?_, (congrArg (·.update data) hsum).trans (Crc32.update_append _ _ _).symm⟩
  rw [UInt64.toNat_add, UInt64.toNat_ofNat', hoff, List.length_append]
  omega

/-- The server stores a chunk that fits, and answers. -/
theorem storeChunk_together {data : Bytes} {offset : UInt64} {g : Except FileTransferResult Frame → Sys α}
    {k : Progress ⊕ Except FileTransferResult Progress → Sys β} (hl : Linked w v) (F : u.Filled d f p D v.host)
    (hfit : D.length + data.length < 2 ^ 64)
    (h : ∀ w' v', w'.host = w.host → Linked w' v' → u.Filled d f (advance p data) (D ++ data) v'.host →
      Together u.cr (g (.ok (makeFrame .acknowledgment u.requestId u.requestId
        (encodeOffset (p.offset + UInt64.ofNat data.length)))), w') (k (.inl (advance p data)), v') Q) :
    Together u.cr (receiveExpectedFrame .acknowledgment u.requestId u.requestId >>= g, w)
      (storeChunk (u.transfer d f) p ⟨offset, data⟩ >>= k, v) Q := by
  obtain ⟨⟨i, H⟩, hoff, hsum⟩ := F
  unfold storeChunk
  refine server_calls hl (writeAll_calmly H) ?_
  rintro r v1 ⟨rfl, H1⟩ hl1
  refine server_calls hl1 (fsync_calmly _) ?_
  rintro r v2 ⟨rfl, hh2⟩ hl2
  refine server_calls hl2 (fsync_calmly _) ?_
  rintro r v3 ⟨rfl, hh3⟩ hl3
  have hv : (makeFrame .acknowledgment u.requestId u.requestId
      (encodeOffset (p.offset + UInt64.ofNat data.length))).Valid :=
    makeFrame_valid (by decide) (by simp [encodeOffset])
  dsimp only
  rw [receiveExpectedFrame_bind, bind_assoc]
  refine jends_toClient hv hl3 fun res w' v' hres hw hv' hl' => ?_
  rw [expect_makeFrame, if_pos hres]
  refine h w' v' hw hl' (.advance hoff hsum ⟨i, ?_⟩ hfit)
  rw [hv', hh3, hh2]
  exact H1

/-- What the chunk at `offset` is stored behind, and what was resumed: nothing, if it starts again. -/
def behind (p : Progress) (offset : UInt64) (D : Bytes) : Bytes × UInt64 :=
  if p.firstChunk = true ∧ p.offset ≠ 0 ∧ offset = 0 then ([], 0) else (D, p.resumedFrom)

theorem length_chunk {limits : TransferLimits} (hlim : validLimits limits = true) {offset : UInt64} {data : Bytes}
    (hsize : data.length ≤ limits.chunkSize) : (encodeFileChunk offset data).length ≤ 1024 * 1024 := by
  simp only [validLimits, Bool.and_eq_true, decide_eq_true_eq] at hlim
  have hmax : kDefaultMaxPayload.toNat = 1024 * 1024 := rfl
  simp only [encodeFileChunk, List.length_append, length_appendU64]
  have hchunk : kChunkOffsetSize = 8 := rfl
  omega

/-- **One chunk.**  It is sent, stored behind what is there, and acknowledged. -/
theorem chunk_together {data D' : Bytes} {offset resumed : UInt64} {g : Except FileTransferResult UInt64 → Sys α}
    {k : Progress ⊕ Except FileTransferResult Progress → Sys β} (hl : Linked w v) (F : u.Filled d f p D v.host)
    (hlim : validLimits u.limits = true) (hdata : data ≠ []) (hsize : data.length ≤ u.limits.chunkSize)
    (hbehind : behind p offset D = (D', resumed)) (hoff : offset.toNat = D'.length)
    (hfit : D'.length + data.length ≤ u.metadata.fileSize.toNat)
    (h : ∀ w' v' p', w'.host = w.host → Linked w' v' → u.Filled d f p' (D' ++ data) v'.host →
      p'.firstChunk = false → p'.resumedFrom = resumed →
      Together u.cr (g (.ok (offset + UInt64.ofNat data.length)), w') (k (.inl p'), v') Q) :
    Together u.cr (sendChunk u.requestId u.requestId offset data >>= g, w)
      (receiveStep (u.transfer d f) p >>= k, v) Q := by
  have hv : (makeFrame .fileChunk u.requestId u.requestId (encodeFileChunk offset data)).Valid :=
    makeFrame_valid (by decide) (length_chunk hlim hsize)
  have hmax := u.metadata.fileSize.toNat_lt
  unfold sendChunk receiveStep
  rw [bind_assoc, bind_assoc]
  refine jends_toServer hv hl fun res w1 v1 hres hw1 hv1 hl1 => ?_
  rw [if_pos hres]
  have hframe : onFrame (u.transfer d f) p (makeFrame .fileChunk u.requestId u.requestId
      (encodeFileChunk offset data)) = onChunk (u.transfer d f) p ⟨offset, data⟩ := onFrame_chunk hdata
  simp only [hframe]
  unfold onChunk
  refine server_calls hl1 (restart_calmly (hv1 ▸ F)) ?_
  rintro r v2 ⟨p', rfl, hfirst, hp'⟩ hl2
  have hF : p'.resumedFrom = resumed ∧ u.Filled d f p' D' v2.host := by
    unfold behind at hbehind
    split at hp'
    · next hc =>
      rw [if_pos hc] at hbehind
      cases hbehind
      exact hp'
    · next hc =>
      rw [if_neg hc] at hbehind
      cases hbehind
      exact hp'
  obtain ⟨hresumed, F'⟩ := hF
  have hoff' : offset = p'.offset := UInt64.toNat_inj.mp (hoff.trans F'.offset.symm)
  have hle : p'.offset ≤ u.metadata.fileSize := UInt64.le_iff_toNat_le.mpr (by rw [F'.offset]; omega)
  have hroom : ¬ (data.length > (u.transfer d f).limits.chunkSize ∨
      p'.offset > (u.transfer d f).metadata.fileSize ∨
      data.length > ((u.transfer d f).metadata.fileSize - p'.offset).toNat) := by
    change ¬ (_ ∨ _ ∨ data.length > (u.metadata.fileSize - p'.offset).toNat)
    rw [UInt64.toNat_sub_of_le _ _ hle, F'.offset]
    simp only [gt_iff_lt, not_or, Nat.not_lt, UInt64.not_lt]
    exact ⟨hsize, hle, by omega⟩
  dsimp only
  unfold placeChunk
  rw [if_neg (not_not.mpr hoff'), if_neg hroom, bind_assoc]
  refine storeChunk_together hl2 F' (by omega) fun w3 v3 hw3 hl3 F3 => ?_
  simp only [decodeOffset_encode, makeFrame, hoff', ne_eq, not_true_eq_false, if_false]
  have := h w3 v3 (advance p' data) (hw3.trans hw1) hl3 F3 hfirst hresumed
  rw [hoff'] at this
  exact this

/-! ## The two loops -/

theorem behind_end {T : Bytes} {offset resumed : UInt64} (F : u.Filled d f p D v.host)
    (hD : D.length ≤ offset.toNat) (hbehind : behind p offset D = (T, resumed)) :
    D = T ∧ p.resumedFrom = resumed := by
  unfold behind at hbehind
  split at hbehind
  · next hc =>
    refine absurd (UInt64.toNat_inj.mp ?_) hc.2.1
    have hz : offset.toNat = 0 := by rw [hc.2.2]; rfl
    rw [F.offset]
    exact Nat.le_zero.mp (hz ▸ hD)
  · exact Prod.mk.inj hbehind

theorem behind_same {offset : UInt64} (hp : p.offset = offset) : behind p offset D = (D, p.resumedFrom) := by
  unfold behind
  rw [if_neg]
  rintro ⟨-, hne, hz⟩
  exact hne (hp.trans hz)

/-- **The loops stay in step.**  `T` is what the part file holds in the end: from the client's offset
on it is the source, before it what the next chunk is stored behind. -/
theorem chunks_together {T : Bytes} {input : Fd} {bufferSize : Nat} {resumed : UInt64}
    {g : Except FileTransferResult UInt64 → Sys α} {k : Except FileTransferResult Progress → Sys β}
    (hlim : validLimits u.limits = true) (hbuffer : 0 < bufferSize) (hle : bufferSize ≤ u.limits.chunkSize)
    (hS : u.metadata.fileSize.toNat = S.length) (hT : T.length = S.length)
    (h : ∀ w' v' p', Linked w' v' → u.Filled d f p' T v'.host → p'.resumedFrom = resumed →
      Together u.cr (g (.ok u.metadata.fileSize), w') (receiveChunks (u.transfer d f) p' >>= k, v') Q)
    {offset : UInt64} (hoff : offset ≤ u.metadata.fileSize) (hstream : StreamAt w.host input S offset.toNat)
    (hl : Linked w v) (F : u.Filled d f p D v.host) (hD : D.length ≤ S.length)
    (hbehind : behind p offset D = (T.take offset.toNat, resumed))
    (hagree : T.drop offset.toNat = S.drop offset.toNat) :
    Together u.cr (sendChunks u.requestId u.requestId u.metadata.fileSize input bufferSize offset >>= g, w)
      (receiveChunks (u.transfer d f) p >>= k, v) Q := by
  -- on the bytes left to send
  induction hn : S.length - offset.toNat using Nat.strong_induction_on generalizing offset p D w v with
  | _ n ih =>
  have hoff' := UInt64.le_iff_toNat_le.mp hoff
  refine jends_left_iter calm_patient ?_
  by_cases hlt : offset < u.metadata.fileSize
  · have hlt' := UInt64.lt_iff_toNat_lt.mp hlt
    have hsub : (u.metadata.fileSize - offset).toNat = S.length - offset.toNat := by
      rw [UInt64.toNat_sub_of_le _ _ hoff, hS]
    rw [if_pos hlt, hsub]
    refine client_calls hl (readStream_total hstream) ?_
    rintro r w1 ⟨rfl, -, hstream1⟩ hl1
    generalize hdata : (S.drop offset.toNat).take (min (S.length - offset.toNat) bufferSize) = data at hstream1
    have hlen : data.length = min (S.length - offset.toNat) bufferSize := by
      rw [← hdata, List.length_take, List.length_drop]
      omega
    have hne : data ≠ [] := by
      rw [← List.length_pos_iff]
      omega
    dsimp only
    rw [if_neg (by rw [not_or, not_not]; exact ⟨by omega, hlen⟩), bind_assoc]
    refine jends_right_iter calm_patient (chunk_together hl1 F hlim hne (by omega) hbehind ?_ ?_ ?_)
    · rw [List.length_take]
      omega
    · rw [List.length_take]
      omega
    · intro w2 v2 p2 hw2 hl2 F2 hfirst hresumed
      have hadd : (offset + UInt64.ofNat data.length).toNat = offset.toNat + data.length := by
        have := u.metadata.fileSize.toNat_lt
        rw [UInt64.toNat_add, UInt64.toNat_ofNat']
        omega
      have htake : T.take offset.toNat ++ data = T.take (offset.toNat + data.length) := by
        rw [List.take_add, hagree, hlen, hdata]
      rw [htake] at F2
      have hlen2 : (T.take (offset.toNat + data.length)).length = offset.toNat + data.length := by
        rw [List.length_take]
        omega
      refine ih (S.length - (offset + UInt64.ofNat data.length).toNat) (by omega) ?_ ?_ hl2 F2 ?_ ?_ ?_ rfl
      · exact UInt64.le_iff_toNat_le.mpr (by omega)
      · rw [hadd, hw2]
        exact hstream1
      · omega
      · rw [behind_same (UInt64.toNat_inj.mp (by rw [F2.offset, hlen2, hadd])), hresumed, hadd]
      · rw [hadd, ← List.drop_drop, hagree, List.drop_drop]
  · have hend : offset = u.metadata.fileSize := by
      have := UInt64.le_iff_toNat_le.mp (UInt64.not_lt.mp hlt)
      exact UInt64.toNat_inj.mp (by omega)
    rw [if_neg hlt, hend]
    rw [hend, hS, List.take_of_length_le (Nat.le_of_eq hT)] at hbehind
    obtain ⟨rfl, hresumed⟩ := behind_end F (by rw [hS]; exact hD) hbehind
    exact h w v p hl F hresumed

/-! ## The end of an upload -/

/-- What the client returns. -/
def sentResult (u : Upload) (resumed : UInt64) : FileTransferResult :=
  { transferred := u.metadata.fileSize, expectedChecksum := u.metadata.checksum, resumedFrom := resumed }

/-- What the server returns. -/
def storedResult (u : Upload) (resumed : UInt64) : FileTransferResult :=
  { u.sentResult resumed with actualChecksum := u.metadata.checksum }

/-- The upload is at its place. -/
structure Stored (u : Upload) (T : Bytes) (h : Host) : Prop where
  part : h.fs.node u.partPath = none
  final : h.fs.fileAt u.finalPath = some T

theorem commit_together {T : Bytes} {resumed : UInt64} {g : Except FileTransferResult Frame → Sys α}
    {k : FileTransferResult → Sys β} (hsafe : isSafeRemotePath u.metadata.filename = true)
    (hT : T.length = u.metadata.fileSize.toNat) (hsum : crc32 T = u.metadata.checksum)
    (hl : Linked w v) (F : u.Filled d f p T v.host) (hresumed : p.resumedFrom = resumed)
    (h : ∀ w' v', Linked w' v' → u.Stored T v'.host →
      Together u.cr (g (.ok (makeFrame .transferResult u.requestId u.requestId (encodeTransferResult .success))),
        w') (k (u.storedResult resumed), v') Q) :
    Together u.cr (receiveExpectedFrame .transferResult u.requestId u.requestId >>= g, w)
      (commit (u.transfer d f) p >>= k, v) Q := by
  obtain ⟨⟨i, H⟩, hoff, hcrc⟩ := F
  have hoff' : p.offset = u.metadata.fileSize := UInt64.toNat_inj.mp (hoff.trans hT)
  have hcrc' : p.checksum.value = u.metadata.checksum := by rw [hcrc, ← hsum]; rfl
  unfold commit
  rw [if_neg (not_not.mpr (show p.offset = (u.transfer d f).metadata.fileSize from hoff')),
    if_neg (not_not.mpr (show p.checksum.value = (u.transfer d f).metadata.checksum from hcrc'))]
  unfold publish
  refine server_calls hl (fsync_calmly _) ?_
  rintro r v1 ⟨rfl, hh1⟩ hl1
  refine server_calls hl1 (rename_calmly hsafe (hh1 ▸ H) hT hsum) ?_
  rintro r v2 ⟨rfl, hc, hfinal, hdir, -⟩ hl2
  unfold finish
  refine server_calls hl2 (syncDirectories_calmly hdir) ?_
  rintro r v3 ⟨rfl, hfs3⟩ hl3
  have hv : (makeFrame .transferResult u.requestId u.requestId (encodeTransferResult .success)).Valid :=
    makeFrame_valid (by decide) (by decide)
  dsimp only
  unfold sendResult
  rw [receiveExpectedFrame_bind, bind_assoc]
  refine jends_toClient hv hl3 fun res w' v' hres hw hv' hl' => ?_
  rw [expect_makeFrame, if_pos hres, hoff', hcrc', hresumed]
  refine h w' v' hl' ⟨?_, ?_⟩
  · rw [hv', hfs3]
    exact hc.part_gone hsafe
  · rw [hv', hfs3]
    exact hfinal

/-- From the client's first chunk on. -/
theorem sendFrom_together {T : Bytes} {input : Fd} {limits : TransferLimits} {offset : UInt64}
    {k : FileTransferResult → Sys β} {Q : FileTransferResult → World → β → World → Prop}
    (hsafe : isSafeRemotePath u.metadata.filename = true)
    (hlim : validLimits u.limits = true) (hchunk : 0 < limits.chunkSize)
    (hle : limits.chunkSize ≤ u.limits.chunkSize) (hS : u.metadata.fileSize.toNat = S.length)
    (hT : T.length = S.length) (hsum : crc32 T = u.metadata.checksum) (hoff : offset ≤ u.metadata.fileSize)
    (hstream : StreamAt w.host input S offset.toNat) (hl : Linked w v) (F : u.Filled d f p D v.host)
    (hD : D.length ≤ S.length) (hbehind : behind p offset D = (T.take offset.toNat, offset))
    (hagree : T.drop offset.toNat = S.drop offset.toNat)
    (h : ∀ w' v', Linked w' v' → u.Stored T v'.host →
      Together u.cr (pure (u.sentResult offset), w') (k (u.storedResult offset), v') Q) :
    Together u.cr (sendFrom u.requestId u.requestId u.metadata limits input offset, w)
      ((do
        match ← receiveChunks (u.transfer d f) p with
        | .error result => pure result
        | .ok p => commit (u.transfer d f) p) >>= k, v) Q := by
  unfold sendFrom
  rw [bind_assoc]
  refine chunks_together hlim hchunk hle hS hT ?_ hoff hstream hl F hD hbehind hagree
  intro w1 v1 p1 hl1 F1 hresumed
  have hv : (makeFrame .transferComplete u.requestId u.requestId []).Valid :=
    makeFrame_valid (by decide) (by decide)
  refine jends_right_iter calm_patient ?_
  unfold receiveStep
  rw [bind_assoc]
  refine jends_toServer hv hl1 fun res w2 v2 hres hw2 hv2 hl2 => ?_
  have hframe : onFrame (u.transfer d f) p1 (makeFrame .transferComplete u.requestId u.requestId []) =
      pure (.inr (.ok p1)) := onFrame_complete
  simp only [hframe]
  rw [if_pos hres]
  refine commit_together hsafe (hT.trans hS.symm) hsum hl2 (hv2 ▸ F1) hresumed fun w3 v3 hl3 hstored => ?_
  have hremote : decodeRemoteResult
      (makeFrame .transferResult u.requestId u.requestId (encodeTransferResult .success)) = {} := by
    simp [decodeRemoteResult, makeFrame, decodeTransferResult_encode]
  simp only [hremote]
  exact h w3 v3 hl3 hstored

/-! ## From the ready message on -/

/-- What the part file holds in the end if it holds `D` now: `D` continued, if its checksum is that of
a prefix of the source. -/
def continued (S D : Bytes) : Bytes := if crc32 (S.take D.length) = crc32 D then D ++ S.drop D.length else S

/-- What is resumed then. -/
def resumedAt (S D : Bytes) : Nat := if crc32 (S.take D.length) = crc32 D then D.length else 0

theorem length_continued (h : D.length ≤ S.length) : (continued S D).length = S.length := by
  unfold continued
  split
  · rw [List.length_append, List.length_drop]
    omega
  · rfl

/-- The checksum of a prefix that is right stays right. -/
theorem crc32_continued : crc32 (continued S D) = crc32 S := by
  unfold continued
  split
  · next hsum =>
    rw [← crc32_append_congr hsum, List.take_append_drop]
  · rfl

/-- Where the client starts, the part file and what it will hold are in step. -/
theorem behind_continued (S : Bytes) {offset : UInt64} (hoffset : offset.toNat = D.length) :
    let start := if crc32 (S.take D.length) = crc32 D then offset else 0
    behind ⟨({} : Crc32).update D, offset, offset, true⟩ start D = ((continued S D).take start.toNat, start) ∧
      (continued S D).drop start.toNat = S.drop start.toNat ∧ start = UInt64.ofNat (resumedAt S D) := by
  intro start
  by_cases hsum : crc32 (S.take D.length) = crc32 D
  · have hstart : start = offset := if_pos hsum
    rw [hstart, continued, if_pos hsum, resumedAt, if_pos hsum, behind_same rfl, hoffset, List.take_left,
      List.drop_left, ← hoffset, UInt64.ofNat_toNat]
    exact ⟨rfl, rfl, rfl⟩
  · have hstart : start = 0 := if_neg hsum
    have hne : offset ≠ 0 := by
      rintro rfl
      have hnil : D = [] := List.eq_nil_of_length_eq_zero hoffset.symm
      exact hsum (by rw [hnil]; rfl)
    rw [hstart, continued, if_neg hsum, resumedAt, if_neg hsum, behind, if_pos ⟨rfl, hne, rfl⟩]
    exact ⟨rfl, rfl, rfl⟩

theorem onReady_eq {path : Path} {limits : TransferLimits} {checkpoint : TransferReady} (hid : u.requestId ≠ 0)
    (hoff : checkpoint.offset ≤ u.metadata.fileSize)
    (hzero : checkpoint.offset = 0 → checkpoint.prefixChecksum = 0) :
    onReady path u.requestId u.metadata limits
        (makeFrame .transferReady u.requestId u.requestId (encodeTransferReady checkpoint)) =
      resumeTransfer path u.requestId u.requestId u.metadata limits checkpoint := by
  have hnot : ¬ (checkpoint.offset > u.metadata.fileSize ∨
      checkpoint.offset = 0 ∧ checkpoint.prefixChecksum ≠ 0) := by
    rintro (h | ⟨h, hne⟩)
    · exact absurd hoff (UInt64.not_le.mpr h)
    · exact hne (hzero h)
  unfold onReady
  simp only [makeFrame, ne_eq, not_true_eq_false, if_false, reduceCtorEq, decodeTransferReady_encode]
  rw [if_neg hnot]
  exact if_neg hid

/-- The client checks what the server holds, and both go on from there. -/
theorem ready_together {path : Path} {limits : TransferLimits} {offset : UInt64}
    {k : FileTransferResult → Sys β} {Q : FileTransferResult → World → β → World → Prop} (hid : u.requestId ≠ 0)
    (hsafe : isSafeRemotePath u.metadata.filename = true) (hlim : validLimits u.limits = true)
    (hchunk : 0 < limits.chunkSize) (hle : limits.chunkSize ≤ u.limits.chunkSize)
    (hS : u.metadata.fileSize.toNat = S.length) (hsum : crc32 S = u.metadata.checksum)
    (hsource : Source w.host path S) (hl : Linked w v)
    (F : u.Filled d f ⟨({} : Crc32).update D, offset, offset, true⟩ D v.host) (hD : D.length ≤ S.length)
    (h : ∀ w' v', Linked w' v' → u.Stored (continued S D) v'.host →
      Together u.cr (pure (u.sentResult (UInt64.ofNat (resumedAt S D))), w')
        (k (u.storedResult (UInt64.ofNat (resumedAt S D))), v') Q) :
    Together u.cr ((do
        match ← receiveFrame with
        | .error error => pure (frameError error)
        | .ok ready => onReady path u.requestId u.metadata limits ready), w)
      (receiveBody (u.transfer d f) (({} : Crc32).update D) offset >>= k, v) Q := by
  have hoffset : offset.toNat = D.length := F.offset
  have hv : (makeFrame .transferReady u.requestId u.requestId
      (encodeTransferReady ⟨offset, (({} : Crc32).update D).value⟩)).Valid :=
    makeFrame_valid (by decide) (by simp [encodeTransferReady, encodeOffset])
  have hoff : offset ≤ u.metadata.fileSize := UInt64.le_iff_toNat_le.mpr (by omega)
  unfold receiveBody
  rw [bind_assoc]
  refine jends_toClient hv hl fun res w1 v1 hres hw1 hv1 hl1 => ?_
  have hready := @onReady_eq u path limits ⟨offset, (({} : Crc32).update D).value⟩ hid hoff fun hz => by
    have hnil : D = [] := List.eq_nil_of_length_eq_zero (by rw [← hoffset, show offset = 0 from hz]; rfl)
    rw [hnil]
    rfl
  simp only [hready]
  rw [if_pos hres]
  unfold resumeTransfer
  refine jends_left_still calm_patient hl1 (openStream_total (hw1 ▸ hsource)) ?_
  rintro r w2 ⟨input, rfl, -, hstream⟩ hl2
  refine jends_left_still calm_patient hl2
    (readSourcePrefix_calmly hstream (by rw [hoffset]; exact hD) hchunk) ?_
  rintro r w3 ⟨rfl, -, hstream3⟩ hl3
  rw [hoffset] at hstream3 ⊢
  obtain ⟨hbehind, hagree, hresumed⟩ := behind_continued S hoffset
  dsimp only at hbehind hagree hresumed ⊢
  generalize hfrom : (if (({} : Crc32).update (S.take D.length)).value = (({} : Crc32).update D).value then offset
    else 0) = start
  replace hfrom : (if crc32 (S.take D.length) = crc32 D then offset else 0) = start := hfrom
  rw [hfrom] at hbehind hagree hresumed
  have hstart : start = offset ∨ start = 0 := by
    rw [← hfrom]
    split
    · exact .inl rfl
    · exact .inr rfl
  have hlestart : start ≤ u.metadata.fileSize := by
    rcases hstart with rfl | rfl
    · exact hoff
    · exact UInt64.le_iff_toNat_le.mpr (Nat.zero_le _)
  have hT := length_continued hD
  have hsumT : crc32 (continued S D) = u.metadata.checksum := crc32_continued.trans hsum
  rw [← hresumed] at h
  split
  · next hz =>
    refine jends_left_still calm_patient hl3 (seekStream_total hstream3) ?_
    rintro r w4 ⟨rfl, -, hstream4⟩ hl4
    exact sendFrom_together hsafe hlim hchunk hle hS hT hsumT hlestart (by rw [hz]; exact hstream4) hl4
      (hv1 ▸ F) hD hbehind hagree h
  · next hz =>
    obtain rfl := hstart.resolve_right hz
    exact sendFrom_together hsafe hlim hchunk hle hS hT hsumT hlestart (by rw [hoffset]; exact hstream3) hl3
      (hv1 ▸ F) hD hbehind hagree h

/-! ## Whole uploads -/

theorem receiveFile_request {root : Path} {limits : TransferLimits} (hid : u.requestId ≠ 0)
    (hsafe : isSafeRemotePath u.metadata.filename = true) (hlim : validLimits limits = true)
    (hmax : u.metadata.fileSize ≤ limits.maxFileSize) :
    receiveFile (makeFrame .uploadRequest u.requestId 0 (encodeUploadMetadata u.metadata)) root limits =
      receiveUpload u.requestId u.metadata root limits := by
  unfold receiveFile
  simp only [makeFrame, ne_eq, not_true_eq_false, false_or, hlim, Bool.true_eq_false, or_false,
    decodeUploadMetadata_encode hsafe]
  rw [if_neg (UInt64.not_lt.mpr hmax)]
  exact if_neg hid

/-- From the request on: the server prepares, and both go on from what the part file holds. -/
theorem receiveUpload_together {path : Path} {limits : TransferLimits} {P : Bytes}
    {k : FileTransferResult → Sys β} {Q : FileTransferResult → World → β → World → Prop} (hid : u.requestId ≠ 0)
    (hsafe : isSafeRemotePath u.metadata.filename = true) (hlim : validLimits u.limits = true)
    (hchunk : 0 < limits.chunkSize) (hle : limits.chunkSize ≤ u.limits.chunkSize)
    (hS : u.metadata.fileSize.toNat = S.length) (hsum : crc32 S = u.metadata.checksum)
    (hsource : Source w.host path S) (hl : Linked w v) (hfit : u.Fit v.host P)
    (h : ∀ w' v', Linked w' v' → u.Stored (continued S (u.kept P)) v'.host →
      Together u.cr (pure (u.sentResult (UInt64.ofNat (resumedAt S (u.kept P)))), w')
        (k (u.storedResult (UInt64.ofNat (resumedAt S (u.kept P)))), v') Q) :
    Together u.cr ((do
        match ← receiveFrame with
        | .error error => pure (frameError error)
        | .ok ready => onReady path u.requestId u.metadata limits ready), w)
      (receiveUpload u.requestId u.metadata u.root u.limits >>= k, v) Q := by
  have hkept := u.length_kept P
  have hmax := u.metadata.fileSize.toNat_lt
  unfold receiveUpload
  refine server_calls hl (prepareDestination_calmly hsafe hfit) ?_
  rintro r v1 ⟨d, rfl, hprep, hfit1⟩ hl1
  refine server_calls hl1 (withinPartialBudget_calmly hfit1 hprep.state) ?_
  rintro r v2 ⟨rfl, hh2⟩ hl2
  refine server_calls hl2 (openPart_calmly hsafe (hh2 ▸ hprep) (hh2 ▸ hfit1)) ?_
  rintro r v3 ⟨f, i, rfl, H3, hstat⟩ hl3
  unfold receivePart
  refine server_calls hl3 (checkPart_calmly (u := u) hstat) ?_
  rintro r v4 ⟨rfl, hh4⟩ hl4
  refine server_calls hl4 (trimPart_calmly (hh4 ▸ H3)) ?_
  rintro r v5 ⟨rfl, H5⟩ hl5
  have hoffset : (UInt64.ofNat (u.kept P).length).toNat = (u.kept P).length := by
    rw [UInt64.toNat_ofNat']
    omega
  refine server_calls hl5 (readPartialPrefix_calmly H5 hoffset) ?_
  rintro r v6 ⟨rfl, H6⟩ hl6
  exact ready_together hid hsafe hlim hchunk hle hS hsum hsource hl6 ⟨⟨i, H6⟩, hoffset, rfl⟩ (by omega) h

/-- The part file that is kept, and the one that is there. -/
theorem continued_kept {P : Bytes} (hS : u.metadata.fileSize.toNat = S.length) :
    continued S (u.kept P) =
        (if P.length ≤ S.length ∧ crc32 P = crc32 (S.take P.length) then P ++ S.drop P.length else S) ∧
      resumedAt S (u.kept P) = if P.length ≤ S.length ∧ crc32 P = crc32 (S.take P.length) then
        P.length else 0 := by
  unfold kept continued resumedAt
  rw [hS]
  by_cases hle : P.length ≤ S.length
  · simp only [hle, if_true, true_and, eq_comm]
  · simp [hle]

/-- The upload of `S` as `remote`. -/
abbrev ofSource (cr : Crypto) (root : Path) (remote : List UInt8) (requestId : UInt64) (limits : TransferLimits)
    (S : Bytes) : Upload :=
  ⟨cr, root, requestId, ⟨remote, UInt64.ofNat S.length, crc32 S⟩, limits⟩

/-- Both sides run to their ends, whatever the part file holds. -/
theorem upload_together {cr : Crypto} {source root : Path} {remote : List UInt8} {requestId : UInt64}
    {client server : TransferLimits} {P : Bytes} (hid : requestId ≠ 0)
    (hsafe : isSafeRemotePath remote = true) (hclient : validLimits client = true)
    (hserver : validLimits server = true) (hchunk : client.chunkSize ≤ server.chunkSize)
    (hmaxc : S.length ≤ client.maxFileSize.toNat) (hmaxs : S.length ≤ server.maxFileSize.toNat)
    (hsource : Source w.host source S) (hlinked : Linked w v)
    (hfit : (ofSource cr root remote requestId server S).Fit v.host P) :
    let u := ofSource cr root remote requestId server S
    Together cr (sendFile source remote requestId client, w) (serveUpload root server, v) fun r _ r' v' =>
      r = u.sentResult (UInt64.ofNat (resumedAt S (u.kept P))) ∧
        r' = .ok (u.storedResult (UInt64.ofNat (resumedAt S (u.kept P)))) ∧
        u.Stored (continued S (u.kept P)) v'.host := by
  intro u
  have hlt := server.maxFileSize.toNat_lt
  have hS : u.metadata.fileSize.toNat = S.length := by
    rw [UInt64.toNat_ofNat']
    omega
  have hvalid : (makeFrame .uploadRequest requestId 0 (encodeUploadMetadata u.metadata)).Valid := by
    have hlen := length_of_isSafeRemotePath hsafe
    refine makeFrame_valid (by decide) ?_
    rw [length_encodeUploadMetadata hsafe]
    change kUploadMetadataPrefixSize + remote.length ≤ _
    simp only [kMaxRemotePathLength, kUploadMetadataPrefixSize] at hlen ⊢
    omega
  have hpositive : 0 < client.chunkSize := by
    simp only [validLimits, Bool.and_eq_true, decide_eq_true_eq] at hclient
    exact hclient.1
  unfold sendFile serveUpload
  rw [if_neg hid, if_neg (by rw [hsafe]; decide), if_neg (by rw [hclient]; decide)]
  unfold sendUpload
  refine jends_left_still calm_patient hlinked (readSourceMetadata_calmly hsource hmaxc) ?_
  rintro r w1 ⟨rfl, hfs1⟩ hl1
  refine jends_toServer hvalid hl1 fun res w2 v2 hres hw2 hv2 hl2 => ?_
  rw [if_pos hres]
  have hreceive : receiveFile (makeFrame .uploadRequest requestId 0 (encodeUploadMetadata u.metadata))
    root server =
      receiveUpload u.requestId u.metadata u.root u.limits :=
    @receiveFile_request u _ _ hid hsafe hserver (UInt64.le_iff_toNat_le.mpr (by rw [hS]; exact hmaxs))
  simp only [hreceive]
  refine @receiveUpload_together u _ _ _ S _ _ P _ _ hid hsafe hserver hpositive hchunk hS rfl
    (hsource.congr ?_) hl2
    (hv2 ▸ hfit) fun w' v' _ hstored => jends_done ⟨rfl, rfl, hstored⟩
  rw [hw2, hfs1]

end Upload

/-- **Uploads resume.**  Whatever the part file of the upload holds, if no call fails, the destination
is fit for the upload and the channel delivers what is sent: in every interleaving both sides return
`Success`, the part file is gone, and the final path holds the part file continued by the source, if
its checksum is that of a prefix of the source, and the source otherwise. -/
theorem upload_resumes (cr : Crypto) {source root : Path} {remote : List UInt8} {requestId : UInt64}
    {client server : TransferLimits} {S P : Bytes} {w v : World} (hid : requestId ≠ 0)
    (hsafe : isSafeRemotePath remote = true) (hclient : validLimits client = true)
    (hserver : validLimits server = true) (hchunk : client.chunkSize ≤ server.chunkSize)
    (hmaxc : S.length ≤ client.maxFileSize.toNat) (hmaxs : S.length ≤ server.maxFileSize.toNat)
    (hsource : Source w.host source S) (hlinked : Linked w v)
    (hfit : (Upload.ofSource cr root remote requestId server S).Fit v.host P) :
    let u := Upload.ofSource cr root remote requestId server S
    let resumes := P.length ≤ S.length ∧ crc32 P = crc32 (S.take P.length)
    let content := if resumes then P ++ S.drop P.length else S
    let resumed := if resumes then P.length else 0
    (P <+: S → content = S) ∧
    Together cr (sendFile source remote requestId client, w) (serveUpload root server, v) fun r _ r' v' =>
      ∃ stored, r' = .ok stored ∧ r.status = .success ∧ stored.status = .success ∧
        v'.host.fs.node u.partPath = none ∧ v'.host.fs.fileAt u.finalPath = some content ∧
        r.transferred.toNat = S.length ∧ stored.transferred.toNat = S.length ∧
        r.resumedFrom.toNat = resumed ∧ stored.resumedFrom.toNat = resumed := by
  intro u resumes content resumed
  have hlt := server.maxFileSize.toNat_lt
  have hS : u.metadata.fileSize.toNat = S.length := by
    rw [UInt64.toNat_ofNat']
    omega
  obtain ⟨hcontent, hresumed⟩ := @Upload.continued_kept u S P hS
  have hresumes : (UInt64.ofNat (Upload.resumedAt S (u.kept P))).toNat = resumed := by
    rw [hresumed, UInt64.toNat_ofNat']
    exact Nat.mod_eq_of_lt (by split <;> omega)
  refine ⟨?_, ?_⟩
  · rintro ⟨t, rfl⟩
    change (if _ then _ else _) = _
    rw [if_pos ⟨by simp, by simp⟩, List.drop_left]
  · refine (Upload.upload_together hid hsafe hclient hserver hchunk hmaxc hmaxs hsource hlinked hfit).mono ?_
    rintro y ⟨r, r', hr, hr', rfl, rfl, hstored⟩
    exact ⟨_, _, hr, hr', _, rfl, rfl, rfl, hstored.part, by rw [hstored.final, hcontent], hS, hS,
      hresumes, hresumes⟩

/-! The server has two of the three bytes from an earlier attempt. -/

/-- A destination that has at most our part file is fit. -/
theorem fit_sample {h : Host} {P : Bytes} (requestId : UInt64)
    (hroot : h.fs.node sampleRoot = some .dir)
    (hstate : h.fs.node (sampleRoot ++ [kPartialDirectory]) = some .dir)
    (hfinal : h.fs.node (sampleRoot ++ [bytesOf "a"]) ≠ some .dir)
    (hothers : (Upload.ofSource sampleCrypto sampleRoot (bytesOf "a") requestId {}
      (bytesOf "abc")).others h.fs = ∅)
    (hpart : ∃ i, (Upload.ofSource sampleCrypto sampleRoot (bytesOf "a") requestId {}
      (bytesOf "abc")).OnlyName h.fs i ∧ (h.fs.inode i).uid = h.euid ∧ (h.fs.inode i).data = P) :
    (Upload.ofSource sampleCrypto sampleRoot (bytesOf "a") requestId {} (bytesOf "abc")).Fit h P := by
  have hnames : ∀ n ∈ sampleRoot, ValidName n := by decide
  have hfiles : 1 ≤ ({} : TransferLimits).maxPartialFiles := by decide
  have hbytes : (3 : UInt64).toNat ≤ ({} : TransferLimits).maxPartialBytes.toNat := by decide
  refine ⟨hnames, fun p s hs he => ?_, .inl hstate, hfinal, fun n hn => ?_, ?_, .inr hpart⟩
  · change p ++ s = [bytesOf "d", bytesOf "a"] at he
    rcases p with _ | ⟨d, _ | ⟨a, p⟩⟩
    · exact .inl (node_nil _)
    · obtain rfl : d = bytesOf "d" := (List.cons.inj he).1
      exact .inl hroot
    · exact absurd (List.append_eq_nil_iff.mp (List.cons.inj (List.cons.inj he).2).2).2 hs
  · rw [hothers] at hn
    cases hn
  · rw [Upload.Budget, hothers, Finset.card_empty, Finset.sum_empty]
    exact ⟨hfiles, hbytes⟩

abbrev sampleResumed : Upload := Upload.ofSource sampleCrypto sampleRoot (bytesOf "a") 7 {} (bytesOf "abc")

def sampleState : Fs :=
  sampleMade.insert (sampleRoot ++ [kPartialDirectory]) .dir (by decide) dir_not_file

theorem free_sampleState : sampleState.Free sampleResumed.partPath := by decide +kernel

def samplePartHost : Host :=
  { sampleHost with
    fs := (sampleState.create sampleResumed.partPath 1000 free_sampleState).setData 0 (bytesOf "ab") }

theorem fit_samplePartHost : sampleResumed.Fit samplePartHost (bytesOf "ab") := by
  refine fit_sample 7 (by decide +kernel) (by decide +kernel) (by decide +kernel) (by decide +kernel)
    ⟨0, fun q => ?_, ?_⟩
  · have hnode : samplePartHost.fs.node = Function.update sampleState.node sampleResumed.partPath
      (some (.file 0)) :=
      (created_create (h := free_sampleState) (by decide +kernel)).2.2.1
    rw [hnode, Function.update_apply]
    split
    · exact ⟨fun _ => ‹_›, fun _ => rfl⟩
    · exact ⟨fun hq => absurd rfl (ne_next hq), fun hq => absurd hq ‹_›⟩
  · exact ⟨by decide +kernel, by decide +kernel⟩

theorem upload_resumes_sample :
    samplePartHost.fs.fileAt sampleResumed.partPath = some (bytesOf "ab") ∧
    Together sampleCrypto (sendFile [bytesOf "s"] (bytesOf "a") 7 {}, ⟨sampleSourceHost, []⟩)
      (serveUpload sampleRoot {}, ⟨samplePartHost, []⟩) fun r _ _ v' =>
        r.status = .success ∧ r.resumedFrom = 2 ∧
          v'.host.fs.fileAt (sampleRoot ++ [bytesOf "a"]) = some (bytesOf "abc") := by
  refine ⟨by decide +kernel, ?_⟩
  refine (upload_resumes sampleCrypto (S := bytesOf "abc") (P := bytesOf "ab") (by decide) (by decide) (by decide)
    (by decide) (by decide) (by decide) (by decide) source_sampleSourceHost
    ⟨rfl, rfl⟩ fit_samplePartHost).2.mono ?_
  rintro y ⟨r, r', hr, hr', stored, -, hok, -, -, hfinal, -, -, hresumed, -⟩
  rw [if_pos (by decide)] at hfinal hresumed
  exact ⟨r, r', hr, hr', hok, UInt64.toNat_inj.mp hresumed, hfinal⟩

end SyncWire
