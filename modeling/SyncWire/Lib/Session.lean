import SyncWire.Lib.Duplex

/-!
# Request and reply over a channel that is closed at the end

Two processes take turns on a faithful channel: one of them speaks first, and each one
receives after it has sent.  A process closes the channel when it returns; then its
peer, once it has received everything, gets an end of file, and may fail to send.

`chat` forgets the calls of a process and remembers its history on the channel; which
operations a program issues when, and how it ends, is shown there (`Listens`) and
holds of every session.

* `inFlight`: at most one message is under way.
* `session_told`: a final reply reaches the client, which returns what it makes of it.
* `session_lost`: if the server returns without a reply, the client finds the channel closed.
* `session_left`: if the server's channel failed, the client had returned.
-/

namespace Effect

section History
variable {N : NetSig} {H : Type}

/-- Something happened on the channel. -/
def NetSig.Event.isNet : N.Event → Bool
  | ⟨.call _, _⟩ => false
  | _ => true

def history (log : List N.Event) : List N.Event := log.filter (·.isNet)

/-- The last event is a failure. -/
def broken (h : List N.Event) : Bool :=
  match h.getLast? with
  | some ⟨.send _, .error _⟩ => true
  | some ⟨.recv, .error _⟩ => true
  | _ => false

/-- A side that speaks `first`, or the other one, is not to send next. -/
def waits (first : Bool) (h : List N.Event) : Bool :=
  match h.getLast? with
  | none => !first
  | some ⟨.recv, .ok _⟩ => false
  | some _ => true

@[simp] theorem history_append (l l' : List N.Event) : history (l ++ l') = history l ++ history l' :=
  List.filter_append ..

@[simp] theorem history_send (m : N.Msg) (r : N.Res (.send m)) :
    history [(⟨.send m, r⟩ : N.Event)] = [⟨.send m, r⟩] := rfl
@[simp] theorem history_recv (r : N.Res .recv) : history [(⟨.recv, r⟩ : N.Event)] = [⟨.recv, r⟩] := rfl
@[simp] theorem history_call (c : N.Call) (r : N.Res (.call c)) : history [(⟨.call c, r⟩ : N.Event)] = [] := rfl

theorem sent_history (log : List N.Event) : sent (history log) = sent log := by
  induction log with
  | nil => rfl
  | cons e log ih =>
    obtain ⟨o, r⟩ := e
    cases o with
    | call c => exact ih
    | send m => exact congrArg (m :: ·) ih
    | recv => exact ih

theorem received_history (log : List N.Event) : received (history log) = received log := by
  induction log with
  | nil => rfl
  | cons e log ih =>
    obtain ⟨o, r⟩ := e
    cases o with
    | call c => exact ih
    | send m => exact ih
    | recv =>
      cases r with
      | error e => exact ih
      | ok m => exact congrArg (m :: ·) ih

section
variable {first : Bool} {h : List N.Event} {m : N.Msg}

theorem waits_concat_send {r : N.Res (.send m)} : waits first (h ++ [⟨.send m, r⟩]) = true := by
  simp [waits]

theorem waits_concat_ok : waits first (h ++ [⟨.recv, .ok m⟩]) = false := by
  simp [waits]

theorem waits_concat_error {e : N.RecvErr} : waits first (h ++ [⟨.recv, .error e⟩]) = true := by
  simp [waits]

theorem broken_concat_sent : broken (h ++ [(⟨.send m, .ok ()⟩ : N.Event)]) = false := by
  simp [broken]

theorem broken_concat_unsent {e : N.SendErr} : broken (h ++ [(⟨.send m, .error e⟩ : N.Event)]) = true := by
  simp [broken]

theorem broken_concat_ok : broken (h ++ [(⟨.recv, .ok m⟩ : N.Event)]) = false := by
  simp [broken]

theorem broken_concat_error {e : N.RecvErr} : broken (h ++ [(⟨.recv, .error e⟩ : N.Event)]) = true := by
  simp [broken]

end

/-- Who spoke first, waits, and has not lost the channel sent last. -/
theorem last_sent_of_waits {log : List N.Event} (hw : waits true (history log) = true)
    (hb : broken (history log) = false) : ∃ m, (history log).getLast? = some ⟨.send m, .ok ()⟩ := by
  rcases List.eq_nil_or_concat (history log) with hn | ⟨h, ⟨o, r⟩, hc⟩
  · rw [hn] at hw
    cases hw
  · rw [List.concat_eq_append] at hc
    rw [hc] at hw hb ⊢
    rw [List.getLast?_concat]
    cases o with
    | send m =>
      cases r with
      | ok _ => exact ⟨m, rfl⟩
      | error e => rw [broken_concat_unsent] at hb; cases hb
    | recv =>
      cases r with
      | ok m => rw [waits_concat_ok] at hw; cases hw
      | error e => rw [broken_concat_error] at hb; cases hb
    | call c =>
      have hm : (⟨.call c, r⟩ : N.Event) ∈ history log := by rw [hc]; simp
      cases (List.mem_filter.mp hm).2

/-! ## Taking turns -/

/-- Send when it is this side's turn, receive when it waits, and do neither after a failure. -/
def TakesTurns (first : Bool) : (o : NetOp N.Call N.Msg) → List N.Event → Prop
  | .send _, h => waits first h = false
  | .recv, h => waits first h = true ∧ broken h = false
  | .call _, _ => True

/-- As many messages were sent as were received, up to the one the turn is about. -/
def InStep (first : Bool) (h : List N.Event) : Prop :=
  (received h).length + (waits first h).toNat = (sent h).length + (!first).toNat

theorem inStep_nil (first : Bool) : InStep first ([] : List N.Event) := by
  cases first <;> rfl

theorem inStep_step {first : Bool} {o : NetOp N.Call N.Msg} {r : N.Res o} {h : List N.Event}
    (hb : InStep first h) (ht : TakesTurns first o h) : InStep first (h ++ history [⟨o, r⟩]) := by
  unfold InStep at hb ⊢
  cases o with
  | call c => simpa using hb
  | send m =>
    have hw : waits first h = false := ht
    rw [hw] at hb
    simp only [history_send, received_append, received_send, sent_append, sent_send, waits_concat_send,
      List.append_nil, List.length_append, List.length_singleton, Bool.toNat_false, Bool.toNat_true] at hb ⊢
    omega
  | recv =>
    have hw : waits first h = true := ht.1
    rw [hw] at hb
    cases r with
    | ok m =>
      simp only [history_recv, received_append, received_ok, sent_append, sent_recv, waits_concat_ok,
        List.append_nil, List.length_append, List.length_singleton, Bool.toNat_false, Bool.toNat_true] at hb ⊢
      omega
    | error e =>
      simp only [history_recv, received_append, received_error, sent_append, sent_recv, waits_concat_error,
        List.append_nil] at hb ⊢
      exact hb

/-! ## A process by its history -/

/-- Receiving fails at the end of the file only. -/
def ending (eof : N.RecvErr → Prop) : N.Rely := fun _ o r =>
  match o, r with
  | .recv, .error e => eof e
  | _, _ => True

/-- A process of which only the channel is remembered. -/
def chat : Sem N.sig (List N.Event) := fun o h r h' => h' = h ++ history [⟨o, r⟩]

theorem unrestricted_chat : Unrestricted (chat : Sem N.sig (List N.Event)) := fun _ _ _ => ⟨_, rfl⟩

theorem reach_chat {rely : N.Rely} {exec : N.Exec H} {α : Type} {c d : Side N H α}
    (h : Reach (solo exec rely) c d) : Reach chat (c.1, history c.2.log) (d.1, history d.2.log) := by
  refine h.lift (fun c => (c.1, history c.2.log)) fun a b hs => ?_
  cases hs with
  | op hs => exact .op (by rw [chat, perform_log hs.2, history_append])
  | loop => exact .loop

/-- A process that takes turns. -/
abbrev Polite (first : Bool) {α : Type} : Watch N.sig (List N.Event) α := fun o _ h => TakesTurns first o h

/-- A client: it takes turns; after sending it receives; what it makes of a failure of the channel is
`Lost`, and of a final reply to its history is `Told`, both at once. -/
def Listens {α : Type} (eof : N.RecvErr → Prop) (first : Bool) (Final : N.Msg → Prop)
    (Told : List N.Event → N.Msg → α → Prop) (Lost : α → Prop) : Watch N.sig (List N.Event) α
  | .send _, k, h => waits first h = false ∧ (∃ k', k (.ok ()) = .op .recv k') ∧
      ∀ e, ∃ a, k (.error e) = .pure a ∧ Lost a
  | .recv, k, h => (waits first h = true ∧ broken h = false) ∧
      (∀ m, Final m → ∃ a, k (.ok m) = .pure a ∧ Told h m a) ∧
      ∀ e, eof e → ∃ a, k (.error e) = .pure a ∧ Lost a
  | .call _, _, _ => True

section Listens
variable {eof : N.RecvErr → Prop} {first : Bool} {Final : N.Msg → Prop} {α β : Type}
  {Told : List N.Event → N.Msg → α → Prop} {Lost : α → Prop}

theorem Listens.takesTurns {o : NetOp N.Call N.Msg} {k : N.Res o → Prog N.sig α} {h : List N.Event}
    (hl : Listens eof first Final Told Lost o k h) : TakesTurns first o h := by
  cases o with
  | send m => exact hl.1
  | recv => exact hl.1
  | call c => trivial

/-- In a longer program that returns at once when its first part was told or lost. -/
theorem Listens.bind {Told' : List N.Event → N.Msg → β → Prop} {Lost' : β → Prop} {f : α → Prog N.sig β}
    (htold : ∀ h m a, Told h m a → ∃ b, f a = .pure b ∧ Told' h m b)
    (hlost : ∀ a, Lost a → ∃ b, f a = .pure b ∧ Lost' b) {o : NetOp N.Call N.Msg} {k : N.Res o → Prog N.sig α}
    {h : List N.Event} (hl : Listens eof first Final Told Lost o k h) :
    Listens eof first Final Told' Lost' o (fun r => (k r).bind f) h := by
  have hfail : ∀ {q : Prog N.sig α}, (∃ a, q = .pure a ∧ Lost a) → ∃ b, q.bind f = .pure b ∧ Lost' b := by
    rintro _ ⟨a, rfl, ha⟩
    exact hlost a ha
  cases o with
  | call c => trivial
  | send m =>
    obtain ⟨hw, ⟨k', hk⟩, he⟩ := hl
    refine ⟨hw, ⟨fun r => (k' r).bind f, ?_⟩, fun e => hfail (he e)⟩
    simp only [hk]
    rfl
  | recv =>
    obtain ⟨hw, hm, he⟩ := hl
    refine ⟨hw, fun m hf => ?_, fun e h => hfail (he e h)⟩
    obtain ⟨a, ha, ht⟩ := hm m hf
    simp only [ha]
    exact htold h m a ht

/-- Where a client stands. -/
structure Stands (first : Bool) (Final : N.Msg → Prop) (Told : List N.Event → N.Msg → α → Prop) (Lost : α → Prop)
    (c : Prog N.sig α × List N.Event) : Prop where
  inStep : InStep first c.2
  atRecv : waits first c.2 = true → broken c.2 = false → ∃ k, c.1 = .op .recv k
  lost : broken c.2 = true → ∃ a, c.1 = .pure a ∧ Lost a
  told : ∀ m ∈ received c.2, Final m → ∃ a h, c.1 = .pure a ∧ c.2 = h ++ [⟨.recv, .ok m⟩] ∧ Told h m a

theorem stands_step {exec : N.Exec H} {p : Prog N.sig α} {h₀ : H} {x x' : Side N H α}
    {Q : α → List N.Event → Prop} (hp : Along chat (Listens eof first Final Told Lost) p [] Q)
    (hr : Reach (solo exec (ending eof)) (p, ⟨h₀, []⟩) x)
    (S : Stands first Final Told Lost (x.1, history x.2.log)) (hs : Step (solo exec (ending eof)) x x') :
    Stands first Final Told Lost (x'.1, history x'.2.log) := by
  have hl := hp _ _ (reach_chat hr)
  -- the client has not returned, so nothing has failed and no reply was final
  cases hs with
  | loop =>
    refine ⟨S.inStep, fun hw hb => ?_, fun hb => ?_, fun m hm hf => ?_⟩
    · obtain ⟨k, hk⟩ := S.atRecv hw hb
      cases hk
    · obtain ⟨a, ha, -⟩ := S.lost hb
      cases ha
    · obtain ⟨a, h, ha, -⟩ := S.told m hm hf
      cases ha
  | @op o k w w' r hs =>
    obtain ⟨heof, hperf⟩ := hs
    rw [perform_log hperf, history_append]
    generalize history w.log = h at S hl ⊢
    have hnew := inStep_step (r := r) S.inStep hl.takesTurns
    have hnone : ∀ m ∈ received h, ¬ Final m := fun m hm hf => by
      obtain ⟨a, h, ha, -⟩ := S.told m hm hf
      cases ha
    cases o with
    | call c =>
      simp only [history_call, List.append_nil] at hnew ⊢
      refine ⟨hnew, fun hw hb => ?_, fun hb => ?_, fun m hm hf => absurd hf (hnone m hm)⟩
      · obtain ⟨k, hk⟩ := S.atRecv hw hb
        cases hk
      · obtain ⟨a, ha, -⟩ := S.lost hb
        cases ha
    | send m =>
      obtain ⟨-, hk, he⟩ := hl
      have hrecv : received (h ++ history [⟨.send m, r⟩]) = received h := by
        rw [received_append, history_send, received_send, List.append_nil]
      refine ⟨hnew, fun _ hb => ?_, fun hb => ?_, fun m' hm hf => absurd hf (hnone m' (hrecv ▸ hm))⟩
      · cases r with
        | ok _ => exact hk
        | error e => rw [history_send, broken_concat_unsent] at hb; cases hb
      · cases r with
        | ok _ => rw [history_send, broken_concat_sent] at hb; cases hb
        | error e => exact he e
    | recv =>
      obtain ⟨-, hm, he⟩ := hl
      cases r with
      | ok m =>
        refine ⟨hnew, fun hw => ?_, fun hb => ?_, fun m' hm' hf => ?_⟩
        · rw [history_recv, waits_concat_ok] at hw; cases hw
        · rw [history_recv, broken_concat_ok] at hb; cases hb
        · rw [received_append, history_recv, received_ok, List.mem_append, List.mem_singleton] at hm'
          rcases hm' with hm' | rfl
          · exact absurd hf (hnone m' hm')
          · obtain ⟨a, ha, ht⟩ := hm m' hf
            exact ⟨a, h, ha, rfl, ht⟩
      | error e =>
        refine ⟨hnew, fun _ hb => ?_, fun _ => he e heof, fun m' hm' hf => absurd hf (hnone m' ?_)⟩
        · rw [history_recv, broken_concat_error] at hb; cases hb
        · rwa [received_append, history_recv, received_error, List.append_nil] at hm'

theorem stands_reach {exec : N.Exec H} {p : Prog N.sig α} {h₀ : H} {x : Side N H α}
    {Q : α → List N.Event → Prop} (hp : Along chat (Listens eof first Final Told Lost) p [] Q)
    (hstart : first = true ∨ ∃ k, p = .op .recv k) (hr : Reach (solo exec (ending eof)) (p, ⟨h₀, []⟩) x) :
    Stands first Final Told Lost (x.1, history x.2.log) := by
  induction hr with
  | refl =>
    refine ⟨inStep_nil first, fun hw _ => ?_, fun hb => (by cases hb), fun m hm => (by cases hm)⟩
    rcases hstart with rfl | hk
    · cases hw
    · exact hk
  | tail hb hs ih => exact stands_step hp hb ih hs

end Listens

end History

/-! ## The two sides of a session -/

section Sessions
variable {N : NetSig} {H : Type} {α β : Type}

/-- The process has returned, and closed its end of the channel. -/
def Returned (x : Side N H α) : Prop := ∃ a, x.1 = .pure a

/-- The answers a process gets on a channel whose other end is `peer`. -/
def faithful (eof : N.RecvErr → Prop) (peer : Side N H β) : N.Rely := fun log o r =>
  match o, r with
  | .recv, .ok m => (sent peer.2.log)[(received log).length]? = some m
  | .recv, .error e => eof e ∧ Returned peer ∧ received log = sent peer.2.log
  | .send _, .error _ => Returned peer
  | _, _ => True

/-- A step of either side. -/
inductive SStep (exec : N.Exec H) (eof : N.RecvErr → Prop) :
    Side N H α × Side N H β → Side N H α × Side N H β → Prop
  | left {x x' : Side N H α} {y : Side N H β} (h : Step (solo exec (faithful eof y)) x x') :
      SStep exec eof (x, y) (x', y)
  | right {x : Side N H α} {y y' : Side N H β} (h : Step (solo exec (faithful eof x)) y y') :
      SStep exec eof (x, y) (x, y')

abbrev SReach (exec : N.Exec H) (eof : N.RecvErr → Prop) :
    Side N H α × Side N H β → Side N H α × Side N H β → Prop := Relation.ReflTransGen (SStep exec eof)

variable {exec : N.Exec H} {eof : N.RecvErr → Prop}

theorem ending_of_faithful {peer : Side N H β} (log : List N.Event) (o : NetOp N.Call N.Msg) (r : N.Res o)
    (h : faithful eof peer log o r) : ending eof log o r := by
  cases o with
  | send m => trivial
  | call c => trivial
  | recv =>
    cases r with
    | ok m => trivial
    | error e => exact h.1

theorem SReach.left {c d : Side N H α × Side N H β} (h : SReach exec eof c d) :
    Reach (solo exec (ending eof)) c.1 d.1 := by
  induction h with
  | refl => exact .refl
  | tail _ hs ih =>
    cases hs with
    | left hs => exact ih.tail (step_mono (solo_mono ending_of_faithful) hs)
    | right _ => exact ih

theorem SReach.right {c d : Side N H α × Side N H β} (h : SReach exec eof c d) :
    Reach (solo exec (ending eof)) c.2 d.2 := by
  induction h with
  | refl => exact .refl
  | tail _ hs ih =>
    cases hs with
    | left _ => exact ih
    | right hs => exact ih.tail (step_mono (solo_mono ending_of_faithful) hs)

/-- Such a channel is one that loses nothing. -/
theorem SReach.jreach {rely : N.Rely} (hany : ∀ log o r, rely log o r) {c d : Side N H α × Side N H β}
    (h : SReach exec eof c d) : JReach exec rely rely c d := by
  have hpeer : ∀ {γ : Type} {peer : Side N H γ} (log : List N.Event) (o : NetOp N.Call N.Msg) (r : N.Res o),
      faithful eof peer log o r → fromPeer rely peer.2.log log o r := by
    intro γ peer log o r h
    refine ⟨hany log o r, ?_⟩
    cases o with
    | send m => trivial
    | call c => trivial
    | recv =>
      cases r with
      | ok m => exact h
      | error e => trivial
  induction h with
  | refl => exact .refl
  | tail _ hs ih =>
    cases hs with
    | left hs => exact ih.tail (.left (step_mono (solo_mono hpeer) hs))
    | right hs => exact ih.tail (.right (step_mono (solo_mono hpeer) hs))

/-- What a side received are the first messages its peer sent. -/
theorem faithful_link {x x' : Side N H α} {y : Side N H β} (hs : Step (solo exec (faithful eof y)) x x')
    (hx : received x.2.log <+: sent y.2.log) (hy : received y.2.log <+: sent x.2.log) :
    received x'.2.log <+: sent y.2.log ∧ received y.2.log <+: sent x'.2.log := by
  cases hs with
  | loop => exact ⟨hx, hy⟩
  | @op o k w w' r hs =>
    obtain ⟨hans, hperf⟩ := hs
    rw [perform_log hperf, received_append, sent_append]
    refine ⟨?_, hy.trans (List.prefix_append _ _)⟩
    cases o with
    | send m => simpa using hx
    | call c => simpa using hx
    | recv =>
      cases r with
      | error e => simpa using hx
      | ok m => exact prefix_concat_of_getElem? hx hans

/-- What holds between a side that speaks `first`, or not, and its peer. -/
structure Between (first : Bool) (x : Side N H α) (y : Side N H β) : Prop where
  left : received x.2.log <+: sent y.2.log
  right : received y.2.log <+: sent x.2.log
  inStepLeft : InStep first (history x.2.log)
  inStepRight : InStep (!first) (history y.2.log)
  leftBroken : broken (history x.2.log) = true →
    Returned y ∧ received x.2.log = sent y.2.log ∧ broken (history y.2.log) = false
  rightBroken : broken (history y.2.log) = true →
    Returned x ∧ received y.2.log = sent x.2.log ∧ broken (history x.2.log) = false

namespace Between

variable {first : Bool} {x x' : Side N H α} {y : Side N H β}

theorem symm (B : Between first x y) : Between (!first) y x :=
  ⟨B.right, B.left, B.inStepRight, by rw [Bool.not_not]; exact B.inStepLeft, B.rightBroken, B.leftBroken⟩

/-- **In flight.**  The messages under way, in both directions together. -/
theorem inFlight (B : Between first x y) :
    ((sent y.2.log).length - (received x.2.log).length) + ((sent x.2.log).length - (received y.2.log).length) + 1 =
      (waits first (history x.2.log)).toNat + (waits (!first) (history y.2.log)).toNat := by
  have h1 := B.inStepLeft
  have h2 := B.inStepRight
  have h3 := B.left.length_le
  have h4 := B.right.length_le
  simp only [InStep, sent_history, received_history] at h1 h2
  cases first <;> simp only [Bool.not_false, Bool.not_true, Bool.toNat_false, Bool.toNat_true] at h1 h2 ⊢ <;> omega

/-- Whoever is to send next has received everything, and so has its peer. -/
theorem all_of_turn (B : Between first x y) (hw : waits first (history x.2.log) = false) :
    received x.2.log = sent y.2.log ∧ received y.2.log = sent x.2.log ∧
      waits (!first) (history y.2.log) = true := by
  have h := B.inFlight
  rw [hw] at h
  have h3 := B.left.length_le
  have h4 := B.right.length_le
  cases hy : waits (!first) (history y.2.log) with
  | false => rw [hy] at h; simp at h
  | true =>
    rw [hy] at h
    simp only [Bool.toNat_false, Bool.toNat_true] at h
    exact ⟨B.left.eq_of_length (by omega), B.right.eq_of_length (by omega), rfl⟩

theorem step_left (B : Between first x y)
    (ht : ∀ o k, x.1 = .op o k → TakesTurns first o (history x.2.log))
    (hs : Step (solo exec (faithful eof y)) x x') : Between first x' y := by
  obtain ⟨hleft, hright⟩ := faithful_link hs B.left B.right
  cases hs with
  | loop => exact ⟨B.left, B.right, B.inStepLeft, B.inStepRight, B.leftBroken, fun hb => by
      obtain ⟨⟨a, ha⟩, -⟩ := B.rightBroken hb
      cases ha⟩
  | @op o k w w' r hs =>
    obtain ⟨hans, hperf⟩ := hs
    have hl := perform_log hperf
    have hturn := ht o k rfl
    -- this side has not returned, so the other's channel has not failed
    have hy : broken (history y.2.log) = false := by
      by_contra hb
      obtain ⟨⟨a, ha⟩, -⟩ := B.rightBroken (by simpa using hb)
      cases ha
    have hbal : InStep first (history w'.log) := by
      rw [hl, history_append]
      exact inStep_step B.inStepLeft hturn
    refine ⟨hleft, hright, hbal, B.inStepRight, fun hb => ?_, fun hb => by rw [hy] at hb; cases hb⟩
    change broken (history w'.log) = true at hb
    change Returned y ∧ received w'.log = _ ∧ _
    rw [hl, history_append] at hb
    rw [hl, received_append]
    cases o with
    | call c => simpa using B.leftBroken (by simpa using hb)
    | send m =>
      cases r with
      | ok u => rw [history_send, broken_concat_sent] at hb; cases hb
      | error e => exact ⟨hans, by simpa using (B.all_of_turn hturn).1, hy⟩
    | recv =>
      cases r with
      | ok m => rw [history_recv, broken_concat_ok] at hb; cases hb
      | error e => exact ⟨hans.2.1, by simpa using hans.2.2, hy⟩

end Between

/-! ## How a session ends -/

variable {first : Bool} {p : Prog N.sig α} {q : Prog N.sig β} {Final : N.Msg → Prop}
  {Told : List N.Event → N.Msg → α → Prop} {Lost : α → Prop} {Q : α → List N.Event → Prop}
  {V : Watch N.sig (List N.Event) β} {Q' : β → List N.Event → Prop} {h h' : H} {x : Side N H α} {y : Side N H β}

theorem between_reach (hp : Along chat (Listens eof first Final Told Lost) p [] Q)
    (hq : Along chat V q [] Q') (hV : ∀ o k l, V o k l → TakesTurns (!first) o l)
    {c : Side N H α × Side N H β} (hr : SReach exec eof ((p, ⟨h, []⟩), (q, ⟨h', []⟩)) c) :
    Between first c.1 c.2 := by
  induction hr with
  | refl =>
    exact ⟨List.prefix_refl _, List.prefix_refl _, inStep_nil _, inStep_nil _, fun hb => (by cases hb),
      fun hb => (by cases hb)⟩
  | @tail b c hb hs ih =>
    cases hs with
    | @left x x' y hs =>
      refine ih.step_left (fun o k hk => ?_) hs
      have := hp _ _ (reach_chat (SReach.left hb))
      rw [hk] at this
      exact this.takesTurns
    | @right x y y' hs =>
      have := ih.symm.step_left (fun o k hk => ?_) hs
      · simpa using this.symm
      · have hm := hq _ _ (reach_chat (SReach.right hb))
        rw [hk] at hm
        exact hV _ _ _ hm

/-- Nothing more happens when both sides have returned. -/
theorem ends_returned {x : Side N H α} {y : Side N H β} (hx : Returned x) (hy : Returned y)
    {P : Side N H α × Side N H β → Prop} (hP : P (x, y)) : Ends (SStep exec eof) P (x, y) := by
  obtain ⟨p, w⟩ := x
  obtain ⟨q, v⟩ := y
  obtain ⟨a, rfl : p = .pure a⟩ := hx
  obtain ⟨b, rfl : q = .pure b⟩ := hy
  refine .intro (fun _ => hP) fun z hz => ?_
  cases hz with
  | left hs => cases hs
  | right hs => cases hs

/-- **Told.**  If the server returned after a final reply, the client gets it and returns. -/
theorem session_told (hp : Along chat (Listens eof first Final Told Lost) p [] Q)
    (hstart : first = true ∨ ∃ k, p = .op .recv k) (hq : Along chat V q [] Q')
    (hV : ∀ o k l, V o k l → TakesTurns (!first) o l)
    (hr : SReach exec eof ((p, ⟨h, []⟩), (q, ⟨h', []⟩)) (x, y)) (hy : Returned y) {m : N.Msg}
    (hlast : (history y.2.log).getLast? = some ⟨.send m, .ok ()⟩) (hf : Final m) :
    Ends (SStep exec eof)
      (fun c => c.2 = y ∧ ∃ a l, c.1.1 = .pure a ∧ Told l m a ∧ sent l = received y.2.log ∧
        received l ++ [m] = sent y.2.log) (x, y) := by
  obtain ⟨l, hl⟩ := List.getLast?_eq_some_iff.mp hlast
  have hsent : sent y.2.log = sent l ++ [m] := by
    rw [← sent_history, hl, sent_append, sent_send]
  -- once everything is received, the reply was
  have done : ∀ x', SReach exec eof ((p, ⟨h, []⟩), (q, ⟨h', []⟩)) (x', y) → received x'.2.log = sent y.2.log →
      Ends (SStep exec eof)
        (fun c => c.2 = y ∧ ∃ a l, c.1.1 = .pure a ∧ Told l m a ∧ sent l = received y.2.log ∧
          received l ++ [m] = sent y.2.log) (x', y) := by
    intro x' hr' he
    have S := stands_reach hp hstart (SReach.left hr')
    obtain ⟨a, l', ha, hl', ht⟩ := S.told m (by rw [received_history, he, hsent]; simp) hf
    have hw : waits first (history x'.2.log) = false := by
      rw [show history x'.2.log = _ from hl', waits_concat_ok]
    have hall := (between_reach hp hq hV hr').all_of_turn hw
    refine ends_returned ⟨a, ha⟩ hy ⟨rfl, a, l', ha, ht, ?_, ?_⟩
    · rw [hall.2.1, ← sent_history x'.2.log, show history x'.2.log = _ from hl', sent_append, sent_recv,
        List.append_nil]
    · rw [← he, ← received_history x'.2.log, show history x'.2.log = _ from hl', received_append, received_ok]
  by_cases he : received x.2.log = sent y.2.log
  · exact done x hr he
  · have B := between_reach hp hq hV hr
    have S := stands_reach hp hstart (SReach.left hr)
    have hw : waits first (history x.2.log) = true := by
      by_contra hw
      exact he (B.all_of_turn (by simpa using hw)).1
    have hb : broken (history x.2.log) = false := by
      by_contra hb
      exact he (B.leftBroken (by simpa using hb)).2.1
    obtain ⟨k, hk⟩ := S.atRecv hw hb
    have hfl := B.inFlight
    have hle := B.left.length_le
    have hne : (received x.2.log).length ≠ (sent y.2.log).length := fun hn => he (B.left.eq_of_length hn)
    have hlen : (received x.2.log).length = (sent l).length := by
      have hwy := @Bool.toNat_le (waits (!first) (history y.2.log))
      rw [hw] at hfl
      simp only [Bool.toNat_true, hsent, List.length_append, List.length_singleton] at hfl hle hne
      omega
    obtain ⟨px, wx⟩ := x
    obtain rfl : px = .op .recv k := hk
    have hget : (sent y.2.log)[(received wx.log).length]? = some m := by
      rw [hsent, hlen, List.getElem?_append_right (Nat.le_refl _), Nat.sub_self]
      rfl
    refine .intro (fun hn => ?_) fun z hz => ?_
    · have hans : solo exec (faithful eof y) .recv wx (.ok m) _ := ⟨hget, rfl⟩
      exact absurd (SStep.left (.op hans)) (hn _)
    · have hr' := hr.tail hz
      cases hz with
      | right hs =>
        obtain ⟨b, hb⟩ := hy
        obtain ⟨py, wy⟩ := y
        obtain rfl : py = .pure b := hb
        cases hs
      | left hs =>
        cases hs with
        | @op _ _ _ w' r hs =>
          cases r with
          | error e => exact absurd hs.1.2.2 he
          | ok m' =>
            refine done _ hr' ?_
            rw [perform_log hs.2, received_append, received_ok]
            have hpre := prefix_concat_of_getElem? B.left hs.1
            refine hpre.eq_of_length ?_
            rw [List.length_append, hsent, List.length_append, List.length_singleton, List.length_singleton, hlen]

/-- **Lost.**  If the server returned when it was to send, the client finds the channel closed. -/
theorem session_lost (hp : Along chat (Listens eof first Final Told Lost) p [] Q)
    (hstart : first = true ∨ ∃ k, p = .op .recv k) (hq : Along chat V q [] Q')
    (hV : ∀ o k l, V o k l → TakesTurns (!first) o l) {e : N.RecvErr} (heof : eof e)
    (hr : SReach exec eof ((p, ⟨h, []⟩), (q, ⟨h', []⟩)) (x, y)) (hy : Returned y)
    (hturn : waits (!first) (history y.2.log) = false) :
    Ends (SStep exec eof) (fun c => c.2 = y ∧ ∃ a, c.1.1 = .pure a ∧ Lost a) (x, y) := by
  have B := between_reach hp hq hV hr
  have S := stands_reach hp hstart (SReach.left hr)
  obtain ⟨-, hall, hw⟩ := B.symm.all_of_turn hturn
  rw [Bool.not_not] at hw
  cases hb : broken (history x.2.log) with
  | true =>
    obtain ⟨a, ha, hl⟩ := S.lost hb
    exact ends_returned ⟨a, ha⟩ hy ⟨rfl, a, ha, hl⟩
  | false =>
    obtain ⟨k, hk⟩ := S.atRecv hw hb
    have hlisten := hp _ _ (reach_chat (SReach.left hr))
    obtain ⟨px, wx⟩ := x
    obtain rfl : px = .op .recv k := hk
    refine .intro (fun hn => ?_) fun z hz => ?_
    · have hans : solo exec (faithful eof y) .recv wx (.error e) _ := ⟨⟨heof, hy, hall⟩, rfl⟩
      exact absurd (SStep.left (.op hans)) (hn _)
    · cases hz with
      | right hs =>
        obtain ⟨b, hb⟩ := hy
        obtain ⟨py, wy⟩ := y
        obtain rfl : py = .pure b := hb
        cases hs
      | left hs =>
        cases hs with
        | @op _ _ _ w' r hs =>
          cases r with
          | ok m =>
            have hget : (sent y.2.log)[(received wx.log).length]? = some m := hs.1
            rw [show received wx.log = _ from hall, List.getElem?_eq_none (Nat.le_refl _)] at hget
            cases hget
          | error e' =>
            obtain ⟨a, ha, hl⟩ := hlisten.2.2 e' hs.1.1
            exact ends_returned ⟨a, ha⟩ hy ⟨rfl, a, ha, hl⟩

/-- **Left.**  If the server's channel failed, the client had returned, and not for such a failure. -/
theorem session_left (hp : Along chat (Listens eof first Final Told Lost) p [] Q)
    (hq : Along chat V q [] Q') (hV : ∀ o k l, V o k l → TakesTurns (!first) o l)
    (hr : SReach exec eof ((p, ⟨h, []⟩), (q, ⟨h', []⟩)) (x, y)) (hy : Returned y)
    (hb : broken (history y.2.log) = true) :
    Ends (SStep exec eof)
      (fun c => c.2 = y ∧ ∃ a l, c.1.1 = .pure a ∧ Q a l ∧ broken l = false) (x, y) := by
  obtain ⟨⟨a, ha⟩, -, hx⟩ := (between_reach hp hq hV hr).rightBroken hb
  have hm := hp _ _ (reach_chat (SReach.left hr))
  rw [show x.1 = _ from ha] at hm
  exact ends_returned ⟨a, ha⟩ hy ⟨rfl, a, _, ha, hm, hx⟩

/-! ## A schedule -/

/-- An answer on the channel to `peer`, if there is one yet; `calls` answers the calls. -/
def offer (closing : N.RecvErr) (calls : (c : N.Call) → H → N.Res (.call c)) (peer : Side N H β) :
    (o : NetOp N.Call N.Msg) → N.Local H → Option (N.Res o)
  | .call c, w => some (calls c w.host)
  | .send _, _ => some (.ok ())
  | .recv, w =>
    match (sent peer.2.log)[(received w.log).length]?, peer.1.result? with
    | some m, _ => some (.ok m)
    | none, some _ => some (.error closing)
    | none, none => none

/-- The next step of a side, if it can take one. -/
def advance (exec : N.Exec H) (closing : N.RecvErr) (calls : (c : N.Call) → H → N.Res (.call c))
    (peer : Side N H β) : Side N H α → Option (Side N H α)
  | (.pure _, _) => none
  | (.op o k, w) => (offer closing calls peer o w).bind fun r => (perform exec o w r).map fun w' => (k r, w')
  | (.loop body s k, w) => some (.unroll body s k, w)

/-- `n` steps: the left side as long as it can, then the right one. -/
def schedule (exec : N.Exec H) (closing : N.RecvErr) (callsL callsR : (c : N.Call) → H → N.Res (.call c)) :
    Nat → Side N H α × Side N H β → Side N H α × Side N H β
  | 0, c => c
  | n + 1, (x, y) =>
    match advance exec closing callsL y x with
    | some x' => schedule exec closing callsL callsR n (x', y)
    | none =>
      match advance exec closing callsR x y with
      | some y' => schedule exec closing callsL callsR n (x, y')
      | none => (x, y)

theorem step_of_advance {closing : N.RecvErr} (hc : eof closing) {calls : (c : N.Call) → H → N.Res (.call c)}
    {x x' : Side N H α} {y : Side N H β} (hp : received x.2.log <+: sent y.2.log)
    (h : advance exec closing calls y x = some x') : Step (solo exec (faithful eof y)) x x' := by
  obtain ⟨p, w⟩ := x
  cases p with
  | pure a => cases h
  | loop body s k => cases h; exact .loop
  | op o k =>
    obtain ⟨r, hr, h⟩ := Option.bind_eq_some_iff.mp h
    obtain ⟨w', hw, rfl⟩ := Option.map_eq_some_iff.mp h
    refine .op ⟨?_, hw⟩
    cases o with
    | call c => trivial
    | send m => cases hr; trivial
    | recv =>
      unfold offer at hr
      dsimp only at hr
      split at hr
      · next m hm => cases hr; exact hm
      · next b hn hb =>
        cases hr
        refine ⟨hc, ⟨b, Prog.eq_pure_of_result? hb⟩, hp.eq_of_length_le ?_⟩
        exact List.getElem?_eq_none_iff.mp hn
      · cases hr

/-- The schedule keeps to the channel. -/
theorem sreach_schedule {closing : N.RecvErr} (hc : eof closing)
    (callsL callsR : (c : N.Call) → H → N.Res (.call c)) {x : Side N H α} {y : Side N H β}
    (hx : received x.2.log <+: sent y.2.log) (hy : received y.2.log <+: sent x.2.log) (n : Nat) :
    SReach exec eof (x, y) (schedule exec closing callsL callsR n (x, y)) := by
  induction n generalizing x y with
  | zero => exact .refl
  | succ n ih =>
    unfold schedule
    split
    · next x' h =>
      have hs := step_of_advance hc hx h
      obtain ⟨h1, h2⟩ := faithful_link hs hx hy
      exact .head (.left hs) (ih h1 h2)
    · split
      · next y' h =>
        have hs := step_of_advance hc hy h
        obtain ⟨h1, h2⟩ := faithful_link hs hy hx
        exact .head (.right hs) (ih h2 h1)
      · exact .refl

end Sessions

end Effect
