import Mathlib.Data.List.Basic
import SyncWire.Lib.Prog

/-!
# Two processes joined by FIFO channels

A process issues calls to its own host, sends messages and receives them.  Its
world is its host and the log of everything it did.  Alone (`solo`) a process
gets any answer a `Rely` admits.  Two processes run side by side (`JStep`) when
each may receive only what the other has sent, in order.

* `jreach_link`: what one side received is a prefix of what the other sent.
* `JReach.left`, `JReach.right`: each side of a joint run is a run of its own.
* `JReach.assumeRight`: what the left side guarantees of its messages, the right
  side may rely on.
* `jends_left`: to show that every interleaving ends well it is enough to follow
  one side as long as it can move (`ends_of_persistent`).
-/

namespace Effect

inductive NetOp (Call Msg : Type)
  | send (m : Msg)
  | recv
  | call (c : Call)

/-- Host calls with their values, messages, and how each kind of operation may fail. -/
structure NetSig where
  Call : Type
  Val : Call → Type
  Msg : Type
  SendErr : Type
  RecvErr : Type
  Errno : Type

namespace NetSig

variable (N : NetSig)

@[reducible] def Res : NetOp N.Call N.Msg → Type
  | .send _ => Except N.SendErr Unit
  | .recv => Except N.RecvErr N.Msg
  | .call c => Except N.Errno (N.Val c)

abbrev sig : Sig := ⟨NetOp N.Call N.Msg, N.Res⟩

structure Event where
  op : NetOp N.Call N.Msg
  res : N.Res op

/-- A process's world: its host, and what it did so far. -/
structure Local (H : Type) where
  host : H
  log : List N.Event

/-- Which answers the environment may give, after which log. -/
abbrev Rely := List N.Event → (o : NetOp N.Call N.Msg) → N.Res o → Prop

abbrev Exec (H : Type) := (c : N.Call) → H → Except N.Errno (N.Val c) → Option H

end NetSig

section
variable {N : NetSig} {H : Type}

def sent (log : List N.Event) : List N.Msg :=
  log.filterMap fun
    | ⟨.send m, _⟩ => some m
    | _ => none

def received (log : List N.Event) : List N.Msg :=
  log.filterMap fun
    | ⟨.recv, .ok m⟩ => some m
    | _ => none

@[simp] theorem sent_append (l l' : List N.Event) : sent (l ++ l') = sent l ++ sent l' :=
  List.filterMap_append

@[simp] theorem received_append (l l' : List N.Event) :
    received (l ++ l') = received l ++ received l' := List.filterMap_append

@[simp] theorem sent_send (m : N.Msg) (r : N.Res (.send m)) : sent [(⟨.send m, r⟩ : N.Event)] = [m] :=
  rfl
@[simp] theorem sent_recv (r : N.Res .recv) : sent [(⟨.recv, r⟩ : N.Event)] = [] := rfl
@[simp] theorem sent_call (c : N.Call) (r : N.Res (.call c)) : sent [(⟨.call c, r⟩ : N.Event)] = [] :=
  rfl
@[simp] theorem received_send (m : N.Msg) (r : N.Res (.send m)) :
    received [(⟨.send m, r⟩ : N.Event)] = [] := rfl
@[simp] theorem received_ok (m : N.Msg) : received [(⟨.recv, .ok m⟩ : N.Event)] = [m] := rfl
@[simp] theorem received_error (e : N.RecvErr) : received [(⟨.recv, .error e⟩ : N.Event)] = [] := rfl
@[simp] theorem received_call (c : N.Call) (r : N.Res (.call c)) :
    received [(⟨.call c, r⟩ : N.Event)] = [] := rfl

theorem sent_concat_call (log : List N.Event) (c : N.Call) (r : N.Res (.call c)) :
    sent (log ++ [(⟨.call c, r⟩ : N.Event)]) = sent log := by rw [sent_append, sent_call, List.append_nil]

theorem sent_concat_recv (log : List N.Event) (r : N.Res .recv) :
    sent (log ++ [(⟨.recv, r⟩ : N.Event)]) = sent log := by
  rw [sent_append, sent_recv, List.append_nil]

theorem received_concat_call (log : List N.Event) (c : N.Call) (r : N.Res (.call c)) :
    received (log ++ [(⟨.call c, r⟩ : N.Event)]) = received log := by
  rw [received_append, received_call, List.append_nil]

theorem received_concat_send (log : List N.Event) (m : N.Msg) (r : N.Res (.send m)) :
    received (log ++ [(⟨.send m, r⟩ : N.Event)]) = received log := by
  rw [received_append, received_send, List.append_nil]

theorem received_mono {l l' : List N.Event} (h : l <+: l') : received l <+: received l' := h.filterMap _

/-- How many messages were sent and received. -/
def Counts (s r : Nat) (log : List N.Event) : Prop := (sent log).length = s ∧ (received log).length = r

namespace Counts

variable {s r : Nat} {log : List N.Event}

theorem call (h : Counts s r log) {c : N.Call} {x : N.Res (.call c)} :
    Counts s r (log ++ [(⟨.call c, x⟩ : N.Event)]) := by
  rwa [Counts, sent_concat_call, received_concat_call]

theorem send (h : Counts s r log) {m : N.Msg} {x : N.Res (.send m)} :
    Counts (s + 1) r (log ++ [(⟨.send m, x⟩ : N.Event)]) := by
  refine ⟨?_, by rw [received_concat_send, h.2]⟩
  rw [sent_append, List.length_append, h.1]
  rfl

theorem receive (h : Counts s r log) {m : N.Msg} : Counts s (r + 1) (log ++ [(⟨.recv, .ok m⟩ : N.Event)]) := by
  refine ⟨by rw [sent_concat_recv, h.1], ?_⟩
  rw [received_append, List.length_append, h.2]
  rfl

theorem fail (h : Counts s r log) {e : N.RecvErr} : Counts s r (log ++ [(⟨.recv, .error e⟩ : N.Event)]) := by
  refine ⟨by rw [sent_concat_recv, h.1], ?_⟩
  rw [received_append, received_error, List.append_nil, h.2]

end Counts

theorem eq_of_mem_sent {e : N.Event} {m : N.Msg} (h : m ∈ sent [e]) : ∃ r, e = ⟨.send m, r⟩ := by
  obtain ⟨o, r⟩ := e
  cases o with
  | send m' =>
    obtain rfl := List.mem_singleton.mp h
    exact ⟨r, rfl⟩
  | recv => cases h
  | call c => cases h

theorem eq_of_sent {e : N.Event} {m : N.Msg} (h : sent [e] = [m]) : ∃ r, e = ⟨.send m, r⟩ :=
  eq_of_mem_sent (h ▸ List.mem_singleton_self m)

theorem mem_sent_concat (log : List N.Event) (m : N.Msg) (r : N.Res (.send m)) :
    m ∈ sent (log ++ [(⟨.send m, r⟩ : N.Event)]) := by
  rw [sent_append, sent_send]
  exact List.mem_append_right _ (List.mem_singleton_self m)

theorem mem_received_concat (log : List N.Event) (m : N.Msg) :
    m ∈ received (log ++ [(⟨.recv, .ok m⟩ : N.Event)]) := by
  rw [received_append, received_ok]
  exact List.mem_append_right _ (List.mem_singleton_self m)

namespace NetSig.Local

def push (w : N.Local H) (e : N.Event) : N.Local H := { w with log := w.log ++ [e] }

@[simp] theorem push_host (w : N.Local H) (e : N.Event) : (w.push e).host = w.host := rfl
@[simp] theorem push_log (w : N.Local H) (e : N.Event) : (w.push e).log = w.log ++ [e] := rfl

end NetSig.Local

/-- Carry out an operation with a given answer. -/
def perform (exec : N.Exec H) : (o : NetOp N.Call N.Msg) → N.Local H → N.Res o → Option (N.Local H)
  | .send m, w, r => some (w.push ⟨.send m, r⟩)
  | .recv, w, r => some (w.push ⟨.recv, r⟩)
  | .call c, w, r => (exec c w.host r).map fun h => ⟨h, w.log ++ [⟨.call c, r⟩]⟩

/-- A process alone, against an environment that keeps `rely`. -/
def solo (exec : N.Exec H) (rely : N.Rely) : Sem N.sig (N.Local H) :=
  fun o w r w' => rely w.log o r ∧ perform exec o w r = some w'

theorem perform_log {exec : N.Exec H} {o : NetOp N.Call N.Msg} {w w' : N.Local H} {r : N.Res o}
    (h : perform exec o w r = some w') : w'.log = w.log ++ [⟨o, r⟩] := by
  cases o with
  | send m => cases h; rfl
  | recv => cases h; rfl
  | call c =>
    simp only [perform, Option.map_eq_some_iff] at h
    obtain ⟨h', -, rfl⟩ := h
    rfl

theorem step_mono {S : Sig} {W α : Type} {sem sem' : Sem S W}
    (h : ∀ o w r w', sem o w r w' → sem' o w r w') {c d : Prog S α × W} (hs : Step sem c d) :
    Step sem' c d := by
  cases hs with
  | op hs => exact .op (h _ _ _ _ hs)
  | loop => exact .loop

theorem solo_mono {exec : N.Exec H} {rely rely' : N.Rely}
    (h : ∀ log o r, rely log o r → rely' log o r) (o : NetOp N.Call N.Msg) (w : N.Local H)
    (r : N.Res o) (w' : N.Local H) (hs : solo exec rely o w r w') : solo exec rely' o w r w' :=
  ⟨h _ _ _ hs.1, hs.2⟩

theorem reach_mono {exec : N.Exec H} {rely rely' : N.Rely} {α : Type}
    (h : ∀ log o r, rely log o r → rely' log o r) {c d : Prog N.sig α × N.Local H}
    (hr : Reach (solo exec rely) c d) : Reach (solo exec rely') c d := by
  induction hr with
  | refl => exact .refl
  | tail _ hs ih => exact ih.tail (step_mono (solo_mono h) hs)

/-- What is safe stays so if the environment can do less. -/
theorem safe_rely {exec : N.Exec H} {rely rely' : N.Rely} {α : Type}
    (h : ∀ log o r, rely log o r → rely' log o r) {G : N.Local H → N.Local H → Prop} {p : Prog N.sig α}
    {w : N.Local H} {Q : α → N.Local H → Prop} (hs : Safe (solo exec rely') G p w Q) :
    Safe (solo exec rely) G p w Q := by
  intro p' w' hr
  have ho := hs p' w' (reach_mono h hr)
  cases p' with
  | pure a => exact ho
  | op o k => exact fun r w'' hs' => ho r w'' (solo_mono h _ _ _ _ hs')
  | loop body s k => trivial

/-- Logs grow. -/
theorem reach_log {exec : N.Exec H} {rely : N.Rely} {α : Type} {c d : Prog N.sig α × N.Local H}
    (hr : Reach (solo exec rely) c d) : c.2.log <+: d.2.log := by
  induction hr with
  | refl => exact List.prefix_refl _
  | tail _ hs ih =>
    cases hs with
    | op hs => exact ih.trans (perform_log hs.2 ▸ List.prefix_append _ _)
    | loop => exact ih

/-- A run whose events an environment may all have answered like that. -/
theorem reach_of_events {exec : N.Exec H} {rely rely' : N.Rely} {α : Type} {c d : Prog N.sig α × N.Local H}
    (hr : Reach (solo exec rely) c d) (h : ∀ e ∈ d.2.log, ∀ log, rely' log e.op e.res) :
    Reach (solo exec rely') c d := by
  induction hr with
  | refl => exact .refl
  | tail _ hs ih =>
    cases hs with
    | loop => exact (ih h).tail .loop
    | op hs =>
      have hlog := perform_log hs.2
      refine (ih fun e he => h e ?_).tail (.op ⟨h ⟨_, _⟩ ?_ _, hs.2⟩)
      · exact hlog ▸ List.mem_append_left _ he
      · exact hlog ▸ List.mem_append_right _ (List.mem_singleton_self _)

/-- An environment in which the log stays a part of `L`. -/
def upto (rely : N.Rely) (L : List N.Event) : N.Rely := fun log o r => rely log o r ∧ log ++ [⟨o, r⟩] <+: L

/-- Looking back, a run was on the way to its log all the time. -/
theorem reach_upto {exec : N.Exec H} {rely : N.Rely} {α : Type} {c d : Prog N.sig α × N.Local H}
    (hr : Reach (solo exec rely) c d) : Reach (solo exec (upto rely d.2.log)) c d := by
  suffices h : ∀ L, d.2.log <+: L → Reach (solo exec (upto rely L)) c d from h _ (List.prefix_refl _)
  induction hr with
  | refl => exact fun _ _ => .refl
  | tail _ hs ih =>
    intro L hL
    cases hs with
    | loop => exact (ih L hL).tail .loop
    | op hs =>
      rw [perform_log hs.2] at hL
      exact (ih L ((List.prefix_append _ _).trans hL)).tail (.op ⟨⟨hs.1, hL⟩, hs.2⟩)

theorem reach_within {exec : N.Exec H} {rely : N.Rely} {L : List N.Event} {α : Type}
    {c d : Prog N.sig α × N.Local H} (hr : Reach (solo exec (upto rely L)) c d) (hc : c.2.log <+: L) :
    d.2.log <+: L := by
  induction hr with
  | refl => exact hc
  | tail _ hs ih =>
    cases hs with
    | loop => exact ih
    | op hs => exact perform_log hs.2 ▸ hs.1.2

/-- A program sends only what its operations allow. -/
theorem reach_sends {exec : N.Exec H} {rely : N.Rely} {α : Type} {A : N.sig.Op → Prop} {p : Prog N.sig α}
    (hp : Uses A p) {w : N.Local H} {d : Prog N.sig α × N.Local H} (hr : Reach (solo exec rely) (p, w) d) :
    ∀ m ∈ sent d.2.log, m ∈ sent w.log ∨ A (.send m) := by
  have hsafe : Safe (solo exec rely) (fun v v' => ∀ m ∈ sent v'.log, m ∈ sent v.log ∨ A (.send m)) p w
      fun _ _ => True := by
    refine safe_iff_along.mpr ((hp.along w).mono (fun o k v ho r v' hs m hm => ?_) fun _ _ _ => trivial)
    rw [perform_log hs.2, sent_append, List.mem_append] at hm
    refine hm.imp_right fun hm => ?_
    obtain ⟨r', he⟩ := eq_of_mem_sent hm
    cases he
    exact ho
  refine hsafe.reach (fun v => ∀ m ∈ sent v.log, m ∈ sent w.log ∨ A (.send m)) (fun _ hm => .inl hm) ?_ hr
  intro v v' hv hstep m hm
  exact (hstep m hm).elim (hv m) .inr

theorem safe_log {exec : N.Exec H} {rely : N.Rely} {α : Type} (p : Prog N.sig α) (w : N.Local H) :
    Safe (solo exec rely) (fun _ _ => True) p w fun _ w' => w.log <+: w'.log :=
  safe_mono (safe_self _ p w) fun _ _ hr => reach_log hr

end

/-! ## Side by side -/

section Joint
variable {N : NetSig} {H : Type}

/-- Receive only what the peer, whose log is `peer`, has sent and we have not yet received. -/
def fromPeer (rely : N.Rely) (peer : List N.Event) : N.Rely := fun log o r =>
  rely log o r ∧
    match o, r with
    | .recv, .ok m => (sent peer)[(received log).length]? = some m
    | _, _ => True

/-- Receive only messages that satisfy `P`. -/
def assuming (rely : N.Rely) (P : N.Msg → Prop) : N.Rely := fun log o r =>
  rely log o r ∧
    match o, r with
    | .recv, .ok m => P m
    | _, _ => True

variable (exec : N.Exec H) (relyL relyR : N.Rely) {α β : Type}

/-- One side and its world. -/
abbrev Side (N : NetSig) (H : Type) (α : Type) := Prog N.sig α × N.Local H

inductive JStep : Side N H α × Side N H β → Side N H α × Side N H β → Prop
  | left {x x' : Side N H α} {y : Side N H β}
      (h : Step (solo exec (fromPeer relyL y.2.log)) x x') : JStep (x, y) (x', y)
  | right {x : Side N H α} {y y' : Side N H β}
      (h : Step (solo exec (fromPeer relyR x.2.log)) y y') : JStep (x, y) (x, y')

abbrev JReach : Side N H α × Side N H β → Side N H α × Side N H β → Prop :=
  Relation.ReflTransGen (JStep exec relyL relyR)

variable {exec relyL relyR}

theorem JReach.left {c d : Side N H α × Side N H β} (h : JReach exec relyL relyR c d) :
    Reach (solo exec relyL) c.1 d.1 := by
  induction h with
  | refl => exact .refl
  | tail _ hs ih =>
    cases hs with
    | left hs => exact ih.tail (step_mono (solo_mono fun _ _ _ hr => hr.1) hs)
    | right _ => exact ih

theorem JReach.right {c d : Side N H α × Side N H β} (h : JReach exec relyL relyR c d) :
    Reach (solo exec relyR) c.2 d.2 := by
  induction h with
  | refl => exact .refl
  | tail _ hs ih =>
    cases hs with
    | left _ => exact ih
    | right hs => exact ih.tail (step_mono (solo_mono fun _ _ _ hr => hr.1) hs)

/-- A run to two results. -/
theorem JReach.results {c d : Side N H α × Side N H β} (h : JReach exec relyL relyR c d) {a : α} {b : β}
    (ha : d.1.1.result? = some a) (hb : d.2.1.result? = some b) :
    JReach exec relyL relyR c ((.pure a, d.1.2), (.pure b, d.2.2)) := by
  rw [← Prog.eq_pure_of_result? ha, ← Prog.eq_pure_of_result? hb]
  exact h

theorem getElem?_of_isPrefix {γ : Type} {l l' : List γ} {i : Nat} {m : γ} (h : l <+: l')
    (hm : l[i]? = some m) : l'[i]? = some m := by
  obtain ⟨t, rfl⟩ := h
  obtain ⟨hi, -⟩ := List.getElem?_eq_some_iff.mp hm
  rw [List.getElem?_append_left hi, hm]

theorem prefix_concat_of_getElem? {γ : Type} {l l' : List γ} {m : γ} (h : l <+: l')
    (hm : l'[l.length]? = some m) : l ++ [m] <+: l' := by
  obtain ⟨t, rfl⟩ := h
  rw [List.getElem?_append_right (Nat.le_refl _), Nat.sub_self] at hm
  cases t with
  | nil => cases hm
  | cons a t =>
    obtain rfl : a = m := Option.some.inj hm
    exact ⟨t, by simp⟩

/-- One step of one side keeps what it received a prefix of what the peer sent. -/
theorem step_link {rely : N.Rely} {peer : List N.Event} {x x' : Side N H α}
    (h : Step (solo exec (fromPeer rely peer)) x x') (hp : received x.2.log <+: sent peer) :
    received x'.2.log <+: sent peer ∧ sent x.2.log <+: sent x'.2.log := by
  cases h with
  | @op o k w w' r hs =>
    have hl := perform_log hs.2
    simp only [hl, received_append, sent_append]
    refine ⟨?_, List.prefix_append _ _⟩
    cases o with
    | send m => simpa using hp
    | call c => simpa using hp
    | recv =>
      cases r with
      | error e => simpa using hp
      | ok m => exact prefix_concat_of_getElem? hp hs.1.2
  | loop => exact ⟨hp, List.prefix_refl _⟩

/-- **FIFO.**  What each side received is a prefix of what the other sent. -/
theorem jreach_link {c d : Side N H α × Side N H β} (h : JReach exec relyL relyR c d)
    (h1 : received c.1.2.log <+: sent c.2.2.log) (h2 : received c.2.2.log <+: sent c.1.2.log) :
    received d.1.2.log <+: sent d.2.2.log ∧ received d.2.2.log <+: sent d.1.2.log := by
  induction h with
  | refl => exact ⟨h1, h2⟩
  | tail _ hs ih =>
    cases hs with
    | left hs =>
      obtain ⟨a, b⟩ := step_link hs ih.1
      exact ⟨a, ih.2.trans b⟩
    | right hs =>
      obtain ⟨a, b⟩ := step_link hs ih.2
      exact ⟨ih.1.trans b, a⟩

theorem mem_of_fromPeer {rely : N.Rely} {peer log : List N.Event} {m : N.Msg}
    (h : fromPeer rely peer log .recv (.ok m)) : m ∈ sent peer :=
  List.mem_of_getElem? h.2

theorem fromPeer_assuming {rely : N.Rely} {peer : List N.Event} {P : N.Msg → Prop}
    (hP : ∀ m ∈ sent peer, P m) (log : List N.Event) (o : NetOp N.Call N.Msg) (r : N.Res o)
    (h : fromPeer rely peer log o r) : fromPeer (assuming rely P) peer log o r := by
  refine ⟨⟨h.1, ?_⟩, h.2⟩
  cases o with
  | send m => trivial
  | call c => trivial
  | recv =>
    cases r with
    | error e => trivial
    | ok m => exact hP m (mem_of_fromPeer h)

/-- What is received is as assumed. -/
theorem received_assuming {rely : N.Rely} {P : N.Msg → Prop} {o : NetOp N.Call N.Msg} {w w' : N.Local H}
    {r : N.Res o} (hs : solo exec (assuming rely P) o w r w') (h : ∀ m ∈ received w.log, P m) :
    ∀ m ∈ received w'.log, P m := by
  intro m hm
  rw [perform_log hs.2, received_append, List.mem_append] at hm
  rcases hm with hm | hm
  · exact h m hm
  · cases o with
    | send m' => cases hm
    | call c => cases hm
    | recv =>
      cases r with
      | error e => cases hm
      | ok m' => exact List.mem_singleton.mp hm ▸ hs.1.2

/-- A run that received only such messages. -/
theorem reach_assuming {rely : N.Rely} {P : N.Msg → Prop} {c d : Side N H α} (hr : Reach (solo exec rely) c d)
    (h : ∀ m ∈ received d.2.log, P m) : Reach (solo exec (assuming rely P)) c d := by
  induction hr with
  | refl => exact .refl
  | tail _ hs ih =>
    cases hs with
    | loop => exact (ih h).tail .loop
    | @op o k w w' r hs =>
      rw [perform_log hs.2] at h
      refine (ih fun m hm => h m ?_).tail (.op ⟨⟨hs.1, ?_⟩, hs.2⟩)
      · rw [received_append]
        exact List.mem_append_left _ hm
      · cases o with
        | send m => trivial
        | call c => trivial
        | recv =>
          cases r with
          | error e => trivial
          | ok m => exact h m (mem_received_concat _ m)

/-- **Rely on the left.**  If every message the left side ever sends satisfies `P`, the right side
receives only such messages. -/
theorem JReach.assumeRight {P : N.Msg → Prop} {c d : Side N H α × Side N H β}
    (h : JReach exec relyL relyR c d)
    (hP : ∀ x, Reach (solo exec relyL) c.1 x → ∀ m ∈ sent x.2.log, P m) :
    JReach exec relyL (assuming relyR P) c d := by
  induction h with
  | refl => exact .refl
  | @tail a b hab hs ih =>
    refine ih.tail ?_
    cases hs with
    | left hs => exact .left hs
    | right hs =>
      exact .right (step_mono (solo_mono (fromPeer_assuming (hP _ (JReach.left hab)))) hs)

end Joint

/-! ## Every interleaving ends -/

/-- If the steps `A` and `B` commute and an `A`-step is enabled, it is enough that every state after
an `A`-step ends well: the `B`-steps can wait. -/
theorem ends_of_persistent {X : Type*} {A B : X → X → Prop} {Q : X → Prop}
    (fwd : ∀ x y z, A x y → B x z → ∃ u, B y u ∧ A z u)
    (bwd : ∀ x y z u, A x y → B x z → A z u → ∃ y', A x y' ∧ B y' u) {x y : X} (hxy : A x y)
    (h : ∀ y, A x y → Ends (fun a b => A a b ∨ B a b) Q y) : Ends (fun a b => A a b ∨ B a b) Q x := by
  -- induction on the finitely many steps left after the enabled `A`-step
  induction h y hxy generalizing x with
  | @intro y _ _ ih =>
    refine .intro (fun hn => absurd (.inl hxy) (hn y)) fun z hz => ?_
    rcases hz with hz | hz
    · exact h z hz
    · obtain ⟨u, hyu, hzu⟩ := fwd x y z hxy hz
      refine ih u (.inr hyu) hzu fun u' hzu' => ?_
      obtain ⟨y', hxy', hyu'⟩ := bwd x y z u' hxy hz hzu'
      cases h y' hxy' with
      | intro _ next => exact next u' (.inr hyu')

section JEnds
variable {N : NetSig} {H : Type} (exec : N.Exec H) (relyL relyR : N.Rely) {α β γ : Type}

/-- Every interleaving of the two sides is finite and ends with both returned, in `Q`. -/
def JEnds (x : Side N H α) (y : Side N H β) (Q : α → N.Local H → β → N.Local H → Prop) : Prop :=
  Ends (JStep exec relyL relyR)
    (fun c => ∃ a b, c.1.1 = .pure a ∧ c.2.1 = .pure b ∧ Q a c.1.2 b c.2.2) (x, y)

/-- Receiving never fails (it waits). -/
def Patient (rely : N.Rely) : Prop := ∀ log e, ¬ rely log .recv (.error e)

variable {exec relyL relyR}

/-- What the peer does meanwhile does not disable or change a step that was enabled. -/
theorem step_peer {rely : N.Rely} {peer peer' : List N.Event} {x x' : Side N H α}
    (hp : sent peer <+: sent peer') (h : Step (solo exec (fromPeer rely peer)) x x') :
    Step (solo exec (fromPeer rely peer')) x x' := by
  refine step_mono (solo_mono fun log o r hr => ⟨hr.1, ?_⟩) h
  have h2 := hr.2
  cases o with
  | send m => trivial
  | call c => trivial
  | recv =>
    cases r with
    | error e => trivial
    | ok m => exact getElem?_of_isPrefix hp h2

theorem step_sent {rely : N.Rely} {x x' : Side N H α} (h : Step (solo exec rely) x x') :
    sent x.2.log <+: sent x'.2.log := by
  cases h with
  | op hs => rw [perform_log hs.2, sent_append]; exact List.prefix_append _ _
  | loop => exact List.prefix_refl _

/-- A patient side that can move now could not have moved otherwise before the peer went on. -/
theorem step_peer_back {rely : N.Rely} (hpat : Patient rely) {peer peer' : List N.Event}
    {x x' x'' : Side N H α} (hp : sent peer <+: sent peer')
    (h : Step (solo exec (fromPeer rely peer)) x x') (h' : Step (solo exec (fromPeer rely peer')) x x'') :
    Step (solo exec (fromPeer rely peer)) x x'' := by
  cases h' with
  | loop => exact .loop
  | @op o k w w' r hs =>
    refine .op ⟨⟨hs.1.1, ?_⟩, hs.2⟩
    cases o with
    | send m => trivial
    | call c => trivial
    | recv =>
      cases r with
      | error e => trivial
      | ok m =>
        cases h with
        | @op _ _ _ _ r' hs' =>
          cases r' with
          | error e => exact absurd hs'.1.1 (hpat _ e)
          | ok m' =>
            have h1 : (sent peer)[(received w.log).length]? = some m' := hs'.1.2
            have h2 : (sent peer')[(received w.log).length]? = some m := hs.1.2
            rw [getElem?_of_isPrefix hp h1] at h2
            exact h1.trans h2

theorem jstep_iff {c d : Side N H α × Side N H β} :
    JStep exec relyL relyR c d ↔
      (Step (solo exec (fromPeer relyL c.2.2.log)) c.1 d.1 ∧ d.2 = c.2) ∨
      (Step (solo exec (fromPeer relyR c.1.2.log)) c.2 d.2 ∧ d.1 = c.1) := by
  constructor
  · intro h
    cases h with
    | left h => exact .inl ⟨h, rfl⟩
    | right h => exact .inr ⟨h, rfl⟩
  · obtain ⟨c1, c2⟩ := c
    obtain ⟨d1, d2⟩ := d
    rintro (⟨h, rfl⟩ | ⟨h, rfl⟩)
    · exact .left h
    · exact .right h

/-- **Follow the left side** while it can move. -/
theorem jends_left (hpat : Patient relyL) {x x' : Side N H α} {y : Side N H β}
    {Q : α → N.Local H → β → N.Local H → Prop}
    (hx : Step (solo exec (fromPeer relyL y.2.log)) x x')
    (h : ∀ x', Step (solo exec (fromPeer relyL y.2.log)) x x' → JEnds exec relyL relyR x' y Q) :
    JEnds exec relyL relyR x y Q := by
  have he : JStep (α := α) (β := β) exec relyL relyR = fun c d =>
      (Step (solo exec (fromPeer relyL c.2.2.log)) c.1 d.1 ∧ d.2 = c.2) ∨
      (Step (solo exec (fromPeer relyR c.1.2.log)) c.2 d.2 ∧ d.1 = c.1) := by
    funext c d
    exact propext jstep_iff
  unfold JEnds at h ⊢
  rw [he] at h ⊢
  refine ends_of_persistent ?_ ?_ (y := (x', y)) ⟨hx, rfl⟩ ?_
  · rintro ⟨x, y⟩ ⟨x1, _⟩ ⟨_, y1⟩ ⟨hA, rfl⟩ ⟨hB, rfl⟩
    exact ⟨(x1, y1), ⟨step_peer (step_sent hA) hB, rfl⟩, step_peer (step_sent hB) hA, rfl⟩
  · rintro ⟨x, y⟩ ⟨x1, y0⟩ ⟨x0, y1⟩ ⟨x2, y2⟩ ⟨hA, h1⟩ ⟨hB, h2⟩ ⟨hA', h3⟩
    obtain rfl : y0 = y := h1
    obtain rfl : x0 = x := h2
    obtain rfl : y2 = y1 := h3
    have hA'' := step_peer_back hpat (step_sent hB) hA hA'
    exact ⟨(x2, y0), ⟨hA'', rfl⟩, step_peer (step_sent hA'') hB, rfl⟩
  · rintro ⟨x2, _⟩ ⟨hA, rfl⟩
    exact h x2 hA

theorem ends_map {X Y : Type*} {R : X → X → Prop} {R' : Y → Y → Prop} (f : X → Y) (g : Y → X)
    (hR : ∀ x y, R' (f x) y → R x (g y)) (hR' : ∀ x y, R x y → R' (f x) (f y))
    {Q : X → Prop} {Q' : Y → Prop} (hQ : ∀ x, Q x → Q' (f x)) (hfg : ∀ y, f (g y) = y) {x : X}
    (h : Ends R Q x) : Ends R' Q' (f x) := by
  induction h with
  | intro stop _ ih =>
    refine .intro (fun hn => hQ _ (stop fun y hy => hn _ (hR' _ _ hy))) fun y hy => ?_
    have := ih (g y) (hR _ _ hy)
    rwa [hfg] at this

theorem jends_swap {x : Side N H α} {y : Side N H β} {Q : α → N.Local H → β → N.Local H → Prop}
    (h : JEnds exec relyR relyL y x fun b v a w => Q a w b v) : JEnds exec relyL relyR x y Q := by
  refine ends_map (R := JStep exec relyR relyL) Prod.swap Prod.swap ?_ ?_ ?_
    (fun _ => rfl) h
  · rintro ⟨y, x⟩ d hs
    cases hs with
    | left hs => exact .right hs
    | right hs => exact .left hs
  · rintro _ _ hs
    cases hs with
    | left hs => exact .right hs
    | right hs => exact .left hs
  · rintro ⟨y, x⟩ ⟨b, a, hb, ha, hq⟩
    exact ⟨a, b, ha, hb, hq⟩

theorem jends_done {a : α} {b : β} {w v : N.Local H} {Q : α → N.Local H → β → N.Local H → Prop}
    (h : Q a w b v) : JEnds exec relyL relyR (Pure.pure a, w) (Pure.pure b, v) Q :=
  .intro (fun _ => ⟨a, b, rfl, rfl, h⟩) fun d hd => by
    cases hd with
    | left hs => cases hs
    | right hs => cases hs

/-- No receiving: what a side does without its peer. -/
def alone (rely : N.Rely) : N.Rely := fun log o r => rely log o r ∧ o ≠ .recv

theorem fromPeer_of_alone {rely : N.Rely} {peer log : List N.Event} {o : NetOp N.Call N.Msg}
    {r : N.Res o} (h : alone rely log o r) : fromPeer rely peer log o r := by
  refine ⟨h.1, ?_⟩
  cases o with
  | send m => trivial
  | call c => trivial
  | recv => exact absurd rfl h.2

/-- A stretch `p` that the left side runs without receiving. -/
theorem jends_left_total (hpat : Patient relyL) {p : Prog N.sig γ} {f : γ → Prog N.sig α}
    {w : N.Local H} {y : Side N H β} {Q : α → N.Local H → β → N.Local H → Prop}
    (h : Total (solo exec (alone relyL)) p w fun a w' => JEnds exec relyL relyR (f a, w') y Q) :
    JEnds exec relyL relyR (p >>= f, w) y Q := by
  have key : ∀ c : Prog N.sig γ × N.Local H,
      Ends (Step (solo exec (alone relyL)))
        (fun c => ∃ a, c.1 = .pure a ∧ JEnds exec relyL relyR (f a, c.2) y Q) c →
      JEnds exec relyL relyR (c.1.bind f, c.2) y Q := by
    intro c hc
    induction hc with
    | @intro c stop next ih =>
      obtain ⟨p, w⟩ := c
      cases p with
      | pure a =>
        obtain ⟨b, he, hb⟩ := stop fun y hy => by cases hy
        cases he
        exact hb
      | op o k =>
        have hex : ∃ r w', solo exec (alone relyL) o w r w' := by
          by_contra hn
          obtain ⟨b, he, -⟩ := stop fun y hy => by
            cases hy with
            | op hs => exact hn ⟨_, _, hs⟩
          cases he
        obtain ⟨r, w', hs⟩ := hex
        refine jends_left hpat (.op ⟨fromPeer_of_alone hs.1, hs.2⟩) fun x' hx' => ?_
        cases hx' with
        | op hs' => exact ih _ (.op ⟨⟨hs'.1.1, hs.1.2⟩, hs'.2⟩)
      | loop body s k =>
        refine jends_left hpat .loop fun x' hx' => ?_
        cases hx' with
        | loop =>
          have := ih (.unroll body s k, w) .loop
          rwa [Prog.bind_unroll] at this
  exact key (p, w) h

/-- Calls only: neither sending nor receiving. -/
def still (rely : N.Rely) : N.Rely := fun log o r => rely log o r ∧ ∃ c, o = .call c

theorem alone_of_still {rely : N.Rely} {log : List N.Event} {o : NetOp N.Call N.Msg} {r : N.Res o}
    (h : still rely log o r) : alone rely log o r := by
  obtain ⟨hr, c, rfl⟩ := h
  exact ⟨hr, fun he => by cases he⟩

/-- A stretch of calls leaves the channels as they were. -/
theorem total_still {rely : N.Rely} {p : Prog N.sig γ} {w : N.Local H} {R : γ → N.Local H → Prop}
    (h : Total (solo exec (still rely)) p w R) : Total (solo exec (alone rely)) p w fun a w' =>
      R a w' ∧ sent w'.log = sent w.log ∧ received w'.log = received w.log := by
  have key : ∀ c : Prog N.sig γ × N.Local H,
      Ends (Step (solo exec (still rely))) (fun c => ∃ a, c.1 = .pure a ∧ R a c.2) c →
      sent c.2.log = sent w.log → received c.2.log = received w.log →
      Ends (Step (solo exec (alone rely))) (fun c => ∃ a, c.1 = .pure a ∧
        R a c.2 ∧ sent c.2.log = sent w.log ∧ received c.2.log = received w.log) c := by
    intro c hc
    induction hc with
    | @intro c stop next ih =>
      intro hs hr
      refine .intro (fun hn => ?_) fun y hy => ?_
      · obtain ⟨a, ha, hR⟩ := stop fun y hy =>
          hn y (step_mono (solo_mono fun _ _ _ => alone_of_still) hy)
        exact ⟨a, ha, hR, hs, hr⟩
      · cases hy with
        | loop => exact ih _ .loop hs hr
        | @op o k w1 w2 r hstep =>
          have hl := perform_log hstep.2
          have hno : (∀ c, o ≠ .call c) → False := fun hne => by
            obtain ⟨a, ha, -⟩ := stop fun y hy => by
              cases hy with
              | op hs' => exact hne _ hs'.1.2.choose_spec
            cases ha
          cases o with
          | send m => exact (hno fun c he => by cases he).elim
          | recv => exact (hno fun c he => by cases he).elim
          | call c =>
            refine ih _ (.op ⟨⟨hstep.1.1, c, rfl⟩, hstep.2⟩) ?_ ?_
            · rw [← hs]; simp only [hl, sent_append, sent_call, List.append_nil]
            · rw [← hr]; simp only [hl, received_append, received_call, List.append_nil]
  exact key (p, w) h rfl rfl

/-- No message is on its way. -/
def Linked (w v : N.Local H) : Prop := received w.log = sent v.log ∧ received v.log = sent w.log

/-- The left side makes calls. -/
theorem jends_left_still (hpat : Patient relyL) {p : Prog N.sig γ} {f : γ → Prog N.sig α} {w : N.Local H}
    {y : Side N H β} {Q : α → N.Local H → β → N.Local H → Prop} {R : γ → N.Local H → Prop}
    (hl : Linked w y.2) (h : Total (solo exec (still relyL)) p w R)
    (hk : ∀ a w', R a w' → Linked w' y.2 → JEnds exec relyL relyR (f a, w') y Q) :
    JEnds exec relyL relyR (p >>= f, w) y Q :=
  jends_left_total hpat (total_mono (total_still h) fun a w' ⟨hR, hs, hr⟩ =>
    hk a w' hR ⟨hr.trans hl.1, hl.2.trans hs.symm⟩)

/-- The right side makes calls. -/
theorem jends_right_still (hpat : Patient relyR) {p : Prog N.sig γ} {f : γ → Prog N.sig β} {x : Side N H α}
    {v : N.Local H} {Q : α → N.Local H → β → N.Local H → Prop} {R : γ → N.Local H → Prop}
    (hl : Linked x.2 v) (h : Total (solo exec (still relyR)) p v R)
    (hk : ∀ b v', R b v' → Linked x.2 v' → JEnds exec relyL relyR x (f b, v') Q) :
    JEnds exec relyL relyR x (p >>= f, v) Q :=
  jends_swap (jends_left_still hpat hl.symm h fun b v' hR hl' => jends_swap (hk b v' hR hl'.symm))

/-- The left side receives the next message the peer sent. -/
theorem jends_left_recv (hpat : Patient relyL) {f : Except N.RecvErr N.Msg → Prog N.sig α}
    {w : N.Local H} {y : Side N H β} {Q : α → N.Local H → β → N.Local H → Prop} {m : N.Msg}
    (hm : (sent y.2.log)[(received w.log).length]? = some m) (hr : relyL w.log .recv (.ok m))
    (h : JEnds exec relyL relyR (f (.ok m), w.push ⟨.recv, .ok m⟩) y Q) :
    JEnds exec relyL relyR ((Prog.call (S := N.sig) NetOp.recv >>= f), w) y Q := by
  refine jends_left hpat (.op ⟨⟨hr, hm⟩, rfl⟩) fun x' hx' => ?_
  cases hx' with
  | @op _ _ _ w' r hs =>
    cases r with
    | error e => exact absurd hs.1.1 (hpat _ e)
    | ok m' =>
      have h2 : (sent y.2.log)[(received w.log).length]? = some m' := hs.1.2
      obtain rfl : m = m' := Option.some.inj (hm.symm.trans h2)
      cases hs.2
      exact h

theorem jends_right_recv (hpat : Patient relyR) {f : Except N.RecvErr N.Msg → Prog N.sig β}
    {x : Side N H α} {v : N.Local H} {Q : α → N.Local H → β → N.Local H → Prop} {m : N.Msg}
    (hm : (sent x.2.log)[(received v.log).length]? = some m) (hr : relyR v.log .recv (.ok m))
    (h : JEnds exec relyL relyR x (f (.ok m), v.push ⟨.recv, .ok m⟩) Q) :
    JEnds exec relyL relyR x ((Prog.call (S := N.sig) NetOp.recv >>= f), v) Q :=
  jends_swap (jends_left_recv hpat hm hr (jends_swap h))

/-- A message from the left to the right; no message is on its way before and after. -/
theorem jends_deliver (hpatL : Patient relyL) (hpatR : Patient relyR) {m : N.Msg}
    (hok : ∀ log, relyL log (.send m) (.ok ())) (hsend : ∀ log e, ¬ relyL log (.send m) (.error e))
    (hrecv : ∀ log, relyR log .recv (.ok m)) {f : Except N.SendErr Unit → Prog N.sig α}
    {g : Except N.RecvErr N.Msg → Prog N.sig β} {w v : N.Local H}
    {Q : α → N.Local H → β → N.Local H → Prop} (hl : Linked w v)
    (h : Linked (w.push ⟨.send m, .ok ()⟩) (v.push ⟨.recv, .ok m⟩) →
      JEnds exec relyL relyR (f (.ok ()), w.push ⟨.send m, .ok ()⟩) (g (.ok m), v.push ⟨.recv, .ok m⟩) Q) :
    JEnds exec relyL relyR (Prog.call (S := N.sig) (.send m) >>= f, w)
      (Prog.call (S := N.sig) NetOp.recv >>= g, v) Q := by
  refine jends_left_total hpatL (total_call ⟨.ok (), _, ⟨hok _, fun h => by cases h⟩, rfl⟩ ?_)
  rintro (e | _) w' ⟨⟨hr, -⟩, hp⟩
  · exact absurd hr (hsend _ e)
  · cases hp
    refine jends_right_recv hpatR (m := m) ?_ (hrecv _) (h ⟨?_, ?_⟩)
    · simp [hl.2]
    · simp [hl.1]
    · simp [hl.2]

/-- One turn of a loop on the left. -/
theorem jends_left_iter (hpat : Patient relyL) {σ δ : Type} {body : σ → Prog N.sig (σ ⊕ δ)} {s : σ}
    {f : δ → Prog N.sig α} {w : N.Local H} {y : Side N H β} {Q : α → N.Local H → β → N.Local H → Prop}
    (h : JEnds exec relyL relyR
      (body s >>= Sum.elim (fun s' => Prog.iter body s' >>= f) f, w) y Q) :
    JEnds exec relyL relyR (Prog.iter body s >>= f, w) y Q := by
  refine jends_left hpat .loop fun x' hx' => ?_
  cases hx' with
  | loop => exact h

/-- One turn of a loop on the right. -/
theorem jends_right_iter (hpat : Patient relyR) {σ δ : Type} {body : σ → Prog N.sig (σ ⊕ δ)} {s : σ}
    {f : δ → Prog N.sig β} {x : Side N H α} {v : N.Local H} {Q : α → N.Local H → β → N.Local H → Prop}
    (h : JEnds exec relyL relyR x
      (body s >>= Sum.elim (fun s' => Prog.iter body s' >>= f) f, v) Q) :
    JEnds exec relyL relyR x (Prog.iter body s >>= f, v) Q :=
  jends_swap (jends_left_iter hpat (jends_swap h))

/-- What the left side makes of its result. -/
theorem jends_left_map {f : γ → α} {p : Prog N.sig γ} {w : N.Local H} {y : Side N H β}
    {Q : α → N.Local H → β → N.Local H → Prop}
    (h : JEnds exec relyL relyR (p, w) y fun a w' b v => Q (f a) w' b v) :
    JEnds exec relyL relyR (p >>= fun a => Pure.pure (f a), w) y Q := by
  have hstep : ∀ {rely : N.Rely} {x x' : Side N H γ}, Step (solo exec rely) x x' →
      Step (solo exec rely) (x.1.bind fun a => .pure (f a), x.2) (x'.1.bind fun a => .pure (f a), x'.2) := by
    intro rely x x' hs
    cases hs with
    | op hs => exact .op hs
    | loop => rw [Prog.bind_unroll]; exact .loop
  have hback : ∀ {rely : N.Rely} {x : Side N H γ} {z : Side N H α},
      Step (solo exec rely) (x.1.bind fun a => .pure (f a), x.2) z →
      ∃ x', Step (solo exec rely) x x' ∧ z = (x'.1.bind fun a => .pure (f a), x'.2) := by
    rintro rely ⟨p, w⟩ z hs
    cases p with
    | pure a => cases hs
    | op o k => cases hs with | op hs => exact ⟨_, .op hs, rfl⟩
    | loop body s k => cases hs with | loop => exact ⟨_, .loop, by rw [Prog.bind_unroll]⟩
  have key : ∀ c, Ends (JStep exec relyL relyR)
      (fun c => ∃ a b, c.1.1 = .pure a ∧ c.2.1 = .pure b ∧ Q (f a) c.1.2 b c.2.2) c →
      JEnds exec relyL relyR (c.1.1.bind fun a => .pure (f a), c.1.2) c.2 Q := by
    intro c hc
    induction hc with
    | @intro c stop next ih =>
      refine .intro (fun hn => ?_) fun d hd => ?_
      · obtain ⟨a, b, ha, hb, hq⟩ := stop fun d hd => by
          cases hd with
          | left hs => exact hn _ (.left (hstep hs))
          | right hs => exact hn _ (.right hs)
        exact ⟨f a, b, by rw [ha]; rfl, hb, hq⟩
      · cases hd with
        | left hs =>
          obtain ⟨x', hx', rfl⟩ := hback hs
          exact ih (x', c.2) (.left hx')
        | right hs => exact ih (c.1, _) (.right hs)
  exact key ((p, w), y) h

end JEnds

end Effect
