import SyncWire.Send.Discipline

/-!
# What an honest client sends

Of what `send_file` says only this is of interest to those who receive it: the request has the source's
size and checksum, and every chunk lies in the source where it says (`sendFile_utters`).
-/

namespace SyncWire

open Wire Effect Posix Posix.Fs FileTransfer

/-! ## The frames -/

/-- A chunk, if it is one, lies in `S` where it says. -/
def Carries (S : Bytes) (f : Frame) : Prop :=
  f.header.messageType = .fileChunk → ∀ chunk, decodeFileChunk (.of f.payload) = .ok chunk →
    chunk.data <+: S.drop chunk.offset.toNat

namespace Client

variable {c : Client}

/-- The request, or a chunk or the end that belongs to it. -/
def Utters (c : Client) (f : Frame) : Prop :=
  f = c.request ∨ (f.header.messageType = .fileChunk ∨ f.header.messageType = .transferComplete) ∧
    f.header.requestId = c.requestId ∧ Carries c.content f

theorem Utters.carries {f : Frame} (h : c.Utters f) : Carries c.content f := by
  rcases h with rfl | h
  · rintro ⟨⟩
  · exact h.2.2

theorem Utters.requestId {f : Frame} (h : c.Utters f) : f.header.requestId = c.requestId := by
  rcases h with rfl | h
  · rfl
  · exact h.2.1

theorem utters_chunk (hS : c.content.length < 2 ^ 64) {transferId : UInt64} {offset : Nat} {data : Bytes}
    (hd : data ≠ []) (hp : data <+: c.content.drop offset) : c.Utters (c.chunk transferId offset data) := by
  refine .inr ⟨.inl rfl, rfl, fun _ chunk hc => ?_⟩
  change decodeFileChunk (.of (encodeFileChunk (UInt64.ofNat offset) data)) = _ at hc
  rw [decodeFileChunk_encode _ hd] at hc
  cases hc
  have hlt : offset < c.content.length := by
    have hlen := hp.length_le
    have hpos := List.length_pos_iff.mpr hd
    rw [List.length_drop] at hlen
    omega
  change data <+: c.content.drop (UInt64.ofNat offset).toNat
  rw [UInt64.toNat_ofNat', Nat.mod_eq_of_lt (by omega)]
  exact hp

theorem utters_complete (transferId : UInt64) : c.Utters (c.complete transferId) :=
  .inr ⟨.inr rfl, rfl, by rintro ⟨⟩⟩

theorem utters_exchange (hS : c.content.length < 2 ^ 64) {transferId : UInt64} {pieces : List Bytes} {start : Nat}
    (hp : c.Pieces start pieces) {f : Frame} {r : Except IoFailure Unit}
    (hm : .sends f r ∈ c.exchange transferId start pieces) : c.Utters f := by
  induction pieces generalizing start with
  | nil => cases hm
  | cons data pieces ih =>
    obtain ⟨hpieces, hcontent⟩ := hp
    rw [List.flatten_cons] at hcontent
    rcases List.mem_cons.mp hm with hm | hm
    · cases hm
      exact utters_chunk hS (hpieces data List.mem_cons_self).1 ((List.prefix_append _ _).trans hcontent)
    · rcases List.mem_cons.mp hm with hm | hm
      · cases hm
      · refine ih ⟨fun d hd => hpieces d (List.mem_cons_of_mem _ hd), ?_⟩ hm
        obtain ⟨rest, hrest⟩ := hcontent
        exact ⟨rest, by rw [← List.drop_drop, ← hrest, List.append_assoc, List.drop_left]⟩

theorem utters_next (hS : c.content.length < 2 ^ 64) {transferId : UInt64} {offset : Nat} {next : List Said}
    (hn : c.Next transferId offset next) {f : Frame} {r : Except IoFailure Unit} (hm : .sends f r ∈ next) :
    c.Utters f := by
  cases hn with
  | nothing => cases hm
  | chunk data r h =>
    cases List.mem_singleton.mp hm
    exact utters_chunk hS h.1 h.2.2
  | answer data x h =>
    rcases List.mem_cons.mp hm with hm | hm
    · cases hm
      exact utters_chunk hS h.1 h.2.2
    · cases List.mem_singleton.mp hm
  | complete r h =>
    cases List.mem_singleton.mp hm
    exact utters_complete _
  | result x h =>
    rcases List.mem_cons.mp hm with hm | hm
    · cases hm
      exact utters_complete _
    · cases List.mem_singleton.mp hm

/-- Everything that is said in a conversation. -/
theorem Conversation.utters (hS : c.content.length < 2 ^ 64) {es : List Said} (h : c.Conversation es) {f : Frame}
    {r : Except IoFailure Unit} (hm : .sends f r ∈ es) : c.Utters f := by
  cases h with
  | silent => cases hm
  | asked r =>
    cases List.mem_singleton.mp hm
    exact .inl rfl
  | answered x =>
    rcases List.mem_cons.mp hm with hm | hm
    · cases hm
      exact .inl rfl
    · cases List.mem_singleton.mp hm
  | sending ready start pieces next ho hp hn =>
    rcases List.mem_append.mp hm with hm | hm
    · rcases List.mem_append.mp hm with hm | hm
      · rcases List.mem_cons.mp hm with hm | hm
        · cases hm
          exact .inl rfl
        · cases List.mem_singleton.mp hm
      · exact utters_exchange hS hp hm
    · exact utters_next hS hn hm

end Client

theorem mem_talk_of_sent {log : List net.Event} {m : WireFrame} (h : m ∈ sent log) :
    ∃ r, .sends m.1 r ∈ talk log := by
  obtain ⟨⟨o, r⟩, he, hm⟩ := List.mem_filterMap.mp h
  cases o with
  | recv => cases hm
  | call c => cases hm
  | send m' =>
    cases hm
    exact ⟨r, List.mem_filterMap.mpr ⟨_, he, rfl⟩⟩

theorem talk_append (l l' : List net.Event) : talk (l ++ l') = talk l ++ talk l' := List.filterMap_append

/-- The types of what is said. -/
def saidTypes (es : List Said) : List MessageType :=
  es.filterMap fun
    | .sends f _ => some f.header.messageType
    | .hears _ => none

theorem saidTypes_append (es es' : List Said) : saidTypes (es ++ es') = saidTypes es ++ saidTypes es' :=
  List.filterMap_append

theorem types_sent (log : List net.Event) : types (sent log) = saidTypes (talk log) := by
  induction log with
  | nil => rfl
  | cons e log ih =>
    obtain ⟨o, r⟩ := e
    cases o with
    | call c => exact ih
    | send m => exact congrArg (_ :: ·) ih
    | recv => exact ih

namespace Client

variable {c : Client}

theorem saidTypes_exchange {transferId : UInt64} {pieces : List Bytes} (start : Nat) :
    ∀ t ∈ saidTypes (c.exchange transferId start pieces), t = .fileChunk := by
  induction pieces generalizing start with
  | nil => exact fun t ht => nomatch ht
  | cons data pieces ih =>
    intro t ht
    rcases List.mem_cons.mp ht with rfl | ht
    · rfl
    · exact ih _ t ht

/-- Before its end a conversation does not end. -/
theorem Conversation.completes {es : List Said} (h : c.Conversation es) :
    MessageType.transferComplete ∉ (saidTypes es).dropLast := by
  cases h with
  | silent => exact fun h => nomatch h
  | asked r => exact fun h => nomatch h
  | answered x => exact fun h => nomatch h
  | sending ready start pieces next ho hp hn =>
    have hbefore : MessageType.transferComplete ∉
        saidTypes (c.opening (.ok ready) ++ c.exchange ready.header.transferId start pieces) := by
      rw [saidTypes_append]
      intro hm
      rcases List.mem_append.mp hm with hm | hm
      · cases List.mem_singleton.mp hm
      · cases saidTypes_exchange _ _ hm
    rw [saidTypes_append]
    have hnext : saidTypes next = [] ∨ ∃ t, saidTypes next = [t] := by
      cases hn with
      | nothing => exact .inl rfl
      | chunk data r h => exact .inr ⟨_, rfl⟩
      | answer data x h => exact .inr ⟨_, rfl⟩
      | complete r h => exact .inr ⟨_, rfl⟩
      | result x h => exact .inr ⟨_, rfl⟩
    rcases hnext with hn | ⟨t, hn⟩ <;> rw [hn]
    · rw [List.append_nil]
      exact fun hm => hbefore (List.mem_of_mem_dropLast hm)
    · rwa [List.dropLast_concat]

theorem Completed.last {es : List Said} (h : c.Completed es) :
    (saidTypes es).getLast? = some .transferComplete := by
  obtain ⟨ready, start, pieces, -, -, -, rfl⟩ := h
  rw [saidTypes_append]
  exact List.getLast?_concat ..

end Client

section
variable {cr : Crypto} {source : Path} {remote : List UInt8} {requestId : UInt64} {limits : TransferLimits}
  {S : Bytes} {w : World}

/-- A source that is too long for a `uint64_t` is not even announced. -/
theorem sendFile_silent (hbig : ¬ S.length < 2 ^ 64) (hs : Source w.host source S)
    {x : Side net Host FileTransferResult}
    (hr : Reach (solo (exec cr) anyAnswer) (sendFile source remote requestId limits, w) x) :
    sent x.2.log = sent w.log := by
  have hA : Admits (fun log => sent log = sent w.log) fun _ w' => sent w'.log = sent w.log := by
    refine ⟨fun _ h => ?_, fun _ h _ => ?_⟩ <;> rw [sent_append, sent_call, List.append_nil, h]
  have hsafe : Safe (solo (exec cr) anyAnswer) (fun _ w' => sent w'.log = sent w.log)
      (sendFile source remote requestId limits) w fun _ _ => True := by
    rcases sendFile_cases source remote requestId limits with ⟨r, -, he⟩ | ⟨-, he⟩
    · rw [he]
      exact safe_pure trivial
    · rw [he]
      refine safe_bind (readSourceMetadata_safe hA rfl hs (fun _ _ _ _ => safe_pure trivial) fun _ _ _ hmax => ?_)
      exact absurd (Nat.lt_of_le_of_lt hmax limits.maxFileSize.toNat_lt) hbig
  exact hsafe.reach (fun w' => sent w'.log = sent w.log) rfl (fun _ _ _ h => h) hr

/-- Whatever happens to it, `send_file` says nothing else, and nothing after the end. -/
theorem sendFile_frames (hs : Source w.host source S) {x : Side net Host FileTransferResult}
    (hr : Reach (solo (exec cr) anyAnswer) (sendFile source remote requestId limits, w) x) :
    ∃ us, sent x.2.log = sent w.log ++ us ∧
      (∀ m ∈ us, S.length < 2 ^ 64 ∧ Client.Utters ⟨S, remote, requestId, limits.chunkSize⟩ m.1) ∧
      Completes false us ∧ ∀ r, x.1 = .pure r → Completes r.ok us := by
  obtain ⟨es, htalk, hconv, hdone⟩ := sendFile_disciplined cr hs hr
  obtain ⟨l, hl⟩ := reach_log hr
  have htypes : types (sent l) = saidTypes es := by
    rw [← hl, talk_append] at htalk
    rw [types_sent, List.append_cancel_left htalk]
  have hinside : MessageType.transferComplete ∉ (types (sent l)).dropLast := htypes ▸ hconv.completes
  refine ⟨sent l, by rw [← hl, sent_append], fun m hm => ?_, ⟨hinside, fun ho => (by cases ho)⟩, fun r hx =>
    ⟨hinside, ?_⟩⟩
  · by_cases hS : S.length < 2 ^ 64
    · obtain ⟨r, hsaid⟩ := mem_talk_of_sent hm
      rw [← hl, talk_append] at htalk
      exact ⟨hS, hconv.utters hS (List.append_cancel_left htalk ▸ hsaid)⟩
    · have hnone := sendFile_silent hS hs hr
      rw [← hl, sent_append, List.append_right_eq_self] at hnone
      rw [hnone] at hm
      cases hm
  · intro hok
    rw [htypes]
    exact ((hdone r hx).2 hok).last

theorem sendFile_utters (hs : Source w.host source S) {x : Side net Host FileTransferResult}
    (hr : Reach (solo (exec cr) anyAnswer) (sendFile source remote requestId limits, w) x) :
    ∀ m ∈ sent x.2.log, m ∈ sent w.log ∨
      S.length < 2 ^ 64 ∧ Client.Utters ⟨S, remote, requestId, limits.chunkSize⟩ m.1 := by
  obtain ⟨us, hus, hall, -⟩ := sendFile_frames hs hr
  intro m hm
  rw [hus, List.mem_append] at hm
  exact hm.imp_right (hall m)

end

end SyncWire
