import Mathlib.Algebra.BigOperators.Fin
import SyncWire.ConcurrentServer

/-!
# The condition variable, and stopping (`concurrent_server.cpp`)

`Step` lets a waiting worker take a connection as soon as there is one.  In the code it waits
on `queue_ready`: it goes to sleep when it finds the queue empty, and somebody has to wake it
up.  The thread in `run` does so after it has left the section in which it changed the queue;
until then the others go on, and a worker may also wake up for no reason.

* `wakeups_never_lost`: the finer model refines `Step`, and a queue with connections in it
  never has sleeping workers only.
* `stopping_ends`: after a stop request the threads take a bounded number of steps, and then
  `run` has returned and nothing is left.
-/

namespace SyncWire.ConcurrentServer

/-- What the thread in `run` has yet to notify. -/
inductive Signal
  | none | one | all
deriving DecidableEq

/-- The notification that follows a section of the thread in `run`. -/
def Acceptor.signal : Acceptor → Signal
  | enqueued _ => .one
  | clearing => .all
  | _ => .none

structure Threads (n : Nat) where
  server : Server n
  /-- the workers that are blocked in `queue_ready.wait` -/
  asleep : Finset (Fin n)
  signal : Signal

/-- Who acts: a thread of the server, the condition variable without a reason, somebody who calls `run`
again, or somebody else. -/
inductive Actor
  | thread | spurious | caller | other
deriving DecidableEq

/-- One step.  A step of `Step` that changes the state of a thread is a step of this thread. -/
inductive Act {n : Nat} (maxPendingConnections : Nat) : Actor → Threads n → Threads n → Prop
  /-- the thread in `run`, which notifies before it goes on -/
  | run {t : Threads n} {s : Server n} (hn : t.signal = .none) (h : Step maxPendingConnections t.server s)
      (hr : t.server.acceptor ≠ .returned) (ha : s.acceptor ≠ t.server.acceptor) :
      Act maxPendingConnections .thread t { t with server := s, signal := t.server.acceptor.signal }
  | again {t : Threads n} {s : Server n} (h : Step maxPendingConnections t.server s)
      (hr : t.server.acceptor = .returned) (ha : s.acceptor ≠ t.server.acceptor) :
      Act maxPendingConnections .caller t { t with server := s }
  /-- nobody is asleep: the notification is lost -/
  | notifyNobody {t : Threads n} (hn : t.signal = .one) (h : t.asleep = ∅) :
      Act maxPendingConnections .thread t { t with signal := .none }
  | notifyOne {t : Threads n} {i : Fin n} (hn : t.signal = .one) (hi : i ∈ t.asleep) :
      Act maxPendingConnections .thread t { t with asleep := t.asleep.erase i, signal := .none }
  | notifyAll {t : Threads n} (hn : t.signal = .all) :
      Act maxPendingConnections .thread t { t with asleep := ∅, signal := .none }
  | worker {t : Threads n} {i : Fin n} {s : Server n} (hi : i ∉ t.asleep)
      (h : Step maxPendingConnections t.server s) (hw : s.worker i ≠ t.server.worker i) :
      Act maxPendingConnections .thread t { t with server := s }
  /-- the predicate of `wait` does not hold -/
  | sleep {t : Threads n} {i : Fin n} (h : t.server.worker i = .waiting) (hi : i ∉ t.asleep)
      (hp : t.server.pending = []) (hw : t.server.workersStopping = false) :
      Act maxPendingConnections .thread t { t with asleep := insert i t.asleep }
  | wake {t : Threads n} {i : Fin n} (hi : i ∈ t.asleep) :
      Act maxPendingConnections .spurious t { t with asleep := t.asleep.erase i }
  | other {t : Threads n} {s : Server n} (h : Step maxPendingConnections t.server s)
      (ha : s.acceptor = t.server.acceptor) (hw : s.worker = t.server.worker) :
      Act maxPendingConnections .other t { t with server := s }

/-- After `start`; the workers have not looked at the queue yet. -/
def Threads.start (n : Nat) (kernel : Kernel) : Threads n := ⟨.start n kernel, ∅, .none⟩

/-- Steps, with those who take them. -/
inductive Acts {n : Nat} (maxPendingConnections : Nat) : List Actor → Threads n → Threads n → Prop
  | nil (t : Threads n) : Acts maxPendingConnections [] t t
  | snoc {actors : List Actor} {actor : Actor} {t u v : Threads n} (h : Acts maxPendingConnections actors t u)
      (ha : Act maxPendingConnections actor u v) : Acts maxPendingConnections (actors ++ [actor]) t v

/-- The threads come to `t` from a start on a kernel without connections. -/
def Threads.Reachable {n : Nat} (maxPendingConnections : Nat) (t : Threads n) : Prop :=
  ∃ kernel actors, (∀ fd o, kernel.table fd = some o → o.connection = false) ∧ kernel.shutdowns = 0 ∧
    Acts maxPendingConnections actors (.start n kernel) t

/-! ## What the steps of the threads do -/

section
variable {n maxPendingConnections : Nat} {s s' : Server n}

/-- The thread in `run` leaves the workers alone; what it does to the queue decides what it has to notify. -/
theorem Step.by_run (h : Step maxPendingConnections s s') (ha : s'.acceptor ≠ s.acceptor) :
    s'.worker = s.worker ∧
      ((s.acceptor.signal = .none ∧ s'.pending = s.pending ∧ s'.workersStopping = s.workersStopping) ∨
        (s.acceptor.signal = .none ∧ s'.acceptor.signal = .one ∧ s'.pending.length = s.pending.length + 1 ∧
          s'.workersStopping = s.workersStopping) ∨
        (s.acceptor.signal = .one ∧ s'.acceptor = .polling ∧ s'.pending = s.pending ∧
          s'.workersStopping = s.workersStopping) ∨
        (s.acceptor.signal = .all ∧ s'.acceptor = .joining ∧ s'.pending = [])) := by
  cases h with
  | enqueue hc _ _ => exact ⟨rfl, .inr (.inl ⟨by rw [hc]; rfl, rfl, List.length_append, rfl⟩)⟩
  | observePeak hc => exact ⟨rfl, .inr (.inr (.inl ⟨by rw [hc]; rfl, rfl, rfl, rfl⟩))⟩
  | clear hc => exact ⟨rfl, .inr (.inr (.inr ⟨by rw [hc]; rfl, rfl, rfl⟩))⟩
  | leave hc => rcases hc with hc | hc <;> exact ⟨rfl, .inl ⟨by rw [hc]; rfl, rfl, rfl⟩⟩
  | poll hc _ | accept _ hc _ | acceptNothing hc | refuse hc _ | reject hc | closeRejected hc | storeStop hc
  | scan hc | join hc _ | again hc => exact ⟨rfl, .inl ⟨by rw [hc]; rfl, rfl, rfl⟩⟩
  | pop | exit | cancel | register | deregister | complete | fail | close | requestStop | requestScan | openOther
  | closeOther => exact absurd rfl ha

/-- Somebody calls `run` again. -/
theorem Step.by_caller (h : Step maxPendingConnections s s') (hr : s.acceptor = .returned)
    (ha : s'.acceptor ≠ s.acceptor) : s'.acceptor = .polling ∧ s'.worker = s.worker ∧ s'.pending = s.pending ∧
      s'.workersStopping = s.workersStopping := by
  cases h with
  | again _ => exact ⟨rfl, rfl, rfl, rfl⟩
  | leave hc => rcases hc with hc | hc <;> exact absurd (hr.symm.trans hc) (by simp)
  | poll hc _ | accept _ hc _ | acceptNothing hc | enqueue hc _ _ | refuse hc _ | observePeak hc | reject hc
  | closeRejected hc | storeStop hc | scan hc | clear hc | join hc _ => exact absurd (hr.symm.trans hc) (by simp)
  | pop | exit | cancel | register | deregister | complete | fail | close | requestStop | requestScan | openOther
  | closeOther => exact absurd rfl ha

/-- The steps a worker has yet to take in its turn. -/
def Worker.left : Worker → Nat
  | popped _ => 5
  | serving _ => 4
  | finished _ _ => 3
  | closing _ => 2
  | waiting => 1
  | exited => 0

/-- A worker takes a connection from the queue, or leaves, or goes on with its turn. -/
theorem Step.by_worker (h : Step maxPendingConnections s s') {i : Fin n} (hw : s'.worker i ≠ s.worker i) :
    s'.acceptor = s.acceptor ∧ s'.workersStopping = s.workersStopping ∧ s'.stopRequested = s.stopRequested ∧
      ∃ x, s'.worker = Function.update s.worker i x ∧
        ((s.worker i = .waiting ∧ x.left = 5 ∧ s'.pending.length + 1 = s.pending.length) ∨
          (s.worker i = .waiting ∧ x = .exited ∧ s.pending = [] ∧ s'.pending = []) ∨
          (s.worker i ≠ .waiting ∧ x.left < (s.worker i).left ∧ s'.pending = s.pending)) := by
  have hsame : ∀ {j : Fin n} {x : Worker}, (s.setWorker j x).worker i ≠ s.worker i → i = j := by
    intro j x hne
    by_contra hj
    exact hne (Server.setWorker_ne s x hj)
  cases h with
  | @pop j client rest hj hp =>
    obtain rfl := hsame hw
    exact ⟨rfl, rfl, rfl, _, rfl, .inl ⟨hj, rfl, by simp [hp]⟩⟩
  | @exit j hj hp hstop =>
    obtain rfl := hsame hw
    exact ⟨rfl, rfl, rfl, _, rfl, .inr (.inl ⟨hj, rfl, hp, hp⟩)⟩
  | @cancel j client hj _ | @register j client hj _ | @deregister j client ok hj | @complete j client hj
  | @fail j client hj | @close j client hj =>
    obtain rfl := hsame hw
    refine ⟨rfl, rfl, rfl, _, rfl, .inr (.inr ⟨?_, ?_, rfl⟩)⟩
    · rw [hj]
      simp
    · rw [hj]
      simp [Worker.left]
  | poll | leave | accept | acceptNothing | enqueue | refuse | observePeak | reject | closeRejected | storeStop
  | scan | clear | join | again | requestStop | requestScan | openOther | closeOther => exact absurd rfl hw

/-- Everybody else leaves the queue alone. -/
theorem Step.by_other (h : Step maxPendingConnections s s') (ha : s'.acceptor = s.acceptor)
    (hw : s'.worker = s.worker) : s'.pending = s.pending ∧ s'.workersStopping = s.workersStopping := by
  have hmoves : ∀ (i : Fin n) (x : Worker), x ≠ s.worker i → (s.setWorker i x).worker ≠ s.worker := by
    intro i x hx he
    exact hx (by rw [← he, Server.setWorker_self])
  cases h with
  | pop hc _ | exit hc _ _ | cancel hc _ | register hc _ | deregister _ hc | complete hc | fail hc | close hc =>
    exact absurd hw (hmoves _ _ (by rw [hc]; simp))
  | leave hc => rcases hc with hc | hc <;> rw [hc] at ha <;> cases ha
  | poll hc _ | accept _ hc _ | acceptNothing hc | enqueue hc _ _ | refuse hc _ | observePeak hc | reject hc
  | closeRejected hc | storeStop hc | scan hc | clear hc | join hc _ | again hc => rw [hc] at ha; cases ha
  | requestStop | requestScan _ | openOther _ _ | closeOther _ _ => exact ⟨rfl, rfl⟩

end

namespace Threads

variable {n maxPendingConnections : Nat} {t t' : Threads n} {s : Server n} {actor : Actor}

/-! ## Refinement -/

theorem run_step {past : List (Server n)} (h : Run n maxPendingConnections past t.server)
    (ha : Act maxPendingConnections actor t t') : ∃ past', Run n maxPendingConnections past' t'.server := by
  cases ha with
  | run _ hs _ _ => exact ⟨_, h.step hs⟩
  | again hs _ _ => exact ⟨_, h.step hs⟩
  | worker _ hs _ => exact ⟨_, h.step hs⟩
  | other hs _ _ => exact ⟨_, h.step hs⟩
  | notifyNobody _ _ | notifyOne _ _ | notifyAll _ | sleep _ _ _ _ | wake _ => exact ⟨past, h⟩

theorem run_acts {actors : List Actor} (hr : Acts maxPendingConnections actors t t')
    (h : ∃ past, Run n maxPendingConnections past t.server) :
      ∃ past, Run n maxPendingConnections past t'.server := by
  induction hr with
  | nil => exact h
  | snoc _ ha ih =>
    obtain ⟨past, hrun⟩ := ih h
    exact run_step hrun ha

theorem Reachable.run (h : t.Reachable maxPendingConnections) :
    ∃ past, Run n maxPendingConnections past t.server := by
  obtain ⟨kernel, actors, hk, hs, hacts⟩ := h
  exact run_acts hacts ⟨_, .start kernel hk hs⟩

theorem Reachable.acts {actors : List Actor} (h : t.Reachable maxPendingConnections)
    (hr : Acts maxPendingConnections actors t t') : t'.Reachable maxPendingConnections := by
  induction hr with
  | nil => exact h
  | snoc _ ha ih =>
    obtain ⟨kernel, actors, hk, hs, hacts⟩ := ih h
    exact ⟨kernel, _, hk, hs, hacts.snoc ha⟩

/-! ## No wakeup is lost -/

/-- The workers that are about to look at the queue. -/
def ready (t : Threads n) : Finset (Fin n) := {i | t.server.worker i = .waiting ∧ i ∉ t.asleep}

theorem mem_ready {i : Fin n} : i ∈ t.ready ↔ t.server.worker i = .waiting ∧ i ∉ t.asleep := by
  simp [ready]

/-- 1 if the thread in `run` is about to wake up a worker. -/
def expected (t : Threads n) : Nat :=
  if t.signal = .one ∨ t.server.acceptor.signal = .one then 1 else 0

/-- While a worker sleeps, as many others are about to look at the queue as there are connections in it. -/
structure Watched (t : Threads n) : Prop where
  waiting : ∀ i ∈ t.asleep, t.server.worker i = .waiting
  enough : t.asleep.Nonempty → t.server.pending.length ≤ t.ready.card + t.expected
  told : t.asleep.Nonempty → t.server.workersStopping = true → t.signal = .all
  one : t.signal = .one → t.server.acceptor = .polling
  all : t.signal = .all → t.server.acceptor = .joining

theorem watched_start (kernel : Kernel) : (start n kernel).Watched := by
  constructor
  · intro i hi
    exact absurd hi (Finset.notMem_empty i)
  · intro h
    exact absurd h Finset.not_nonempty_empty
  · intro h
    exact absurd h Finset.not_nonempty_empty
  · intro h
    cases h
  · intro h
    cases h

theorem ready_congr (hw : t'.server.worker = t.server.worker) (ha : t'.asleep = t.asleep) :
    t'.ready = t.ready := by
  ext i
  rw [mem_ready, mem_ready, hw, ha]

/-- Only the worker `i` changes. -/
theorem card_ready_le {i : Fin n} (hw : ∀ j, j ≠ i → t'.server.worker j = t.server.worker j)
    (ha : ∀ j, j ≠ i → (j ∈ t'.asleep ↔ j ∈ t.asleep)) :
    t.ready.card ≤ t'.ready.card + 1 ∧ (i ∉ t.ready → t.ready.card ≤ t'.ready.card) ∧
      (i ∉ t.ready → i ∈ t'.ready → t.ready.card + 1 ≤ t'.ready.card) := by
  have hsub : t.ready.erase i ⊆ t'.ready := by
    intro j hj
    obtain ⟨hne, hj⟩ := Finset.mem_erase.mp hj
    rw [mem_ready] at hj ⊢
    rw [hw j hne, ha j hne]
    exact hj
  have hcard := Finset.card_le_card hsub
  refine ⟨?_, ?_, ?_⟩
  · have := Finset.pred_card_le_card_erase (s := t.ready) (a := i)
    omega
  · intro hi
    rwa [Finset.erase_eq_of_notMem hi] at hcard
  · intro hi hi'
    rw [Finset.erase_eq_of_notMem hi] at hsub
    exact Finset.card_lt_card ⟨hsub, fun h => hi (h hi')⟩

/-- The thread in `run`: after it has put a connection into the queue it owes a notification. -/
theorem Watched.run (h : t.Watched) (hn : t.signal = .none) (hs : Step maxPendingConnections t.server s)
    (ha : s.acceptor ≠ t.server.acceptor) :
    ({ t with server := s, signal := t.server.acceptor.signal } : Threads n).Watched := by
  obtain ⟨hw, hcases⟩ := hs.by_run ha
  have hready := @ready_congr n t { t with server := s, signal := t.server.acceptor.signal } hw rfl
  -- nobody who sleeps has been told to stop: that would be a notification to come
  have htold : t.asleep.Nonempty → t.server.workersStopping ≠ true := by
    intro hne hstop
    have := h.told hne hstop
    rw [hn] at this
    cases this
  have hexpected : t.expected = if t.server.acceptor.signal = .one then 1 else 0 := by
    simp [expected, hn]
  have hwaiting : ∀ i ∈ t.asleep, s.worker i = .waiting := by
    intro i hi
    rw [hw]
    exact h.waiting i hi
  rcases hcases with ⟨hsig, hp, hst⟩ | ⟨hsig, hsig', hp, hst⟩ | ⟨hsig, ha', hp, hst⟩ | ⟨hsig, ha', hp⟩
  all_goals
    refine ⟨hwaiting, fun hne => ?_, fun hne hstop => ?_, fun h1 => ?_, fun h1 => ?_⟩
  -- what it did to the queue is not to be notified
  · have := h.enough hne
    rw [hexpected, hsig] at this
    rw [hready, hp]
    simp only [reduceCtorEq, if_false] at this
    omega
  · exact absurd (hst ▸ hstop) (htold hne)
  · rw [hsig] at h1
    cases h1
  · rw [hsig] at h1
    cases h1
  -- it put a connection into the queue
  · have := h.enough hne
    rw [hexpected, hsig] at this
    rw [hready, hp, expected, if_pos (.inr hsig')]
    simp only [reduceCtorEq, if_false] at this
    omega
  · exact absurd (hst ▸ hstop) (htold hne)
  · rw [hsig] at h1
    cases h1
  · rw [hsig] at h1
    cases h1
  -- it owes a notification
  · have := h.enough hne
    rw [hexpected, if_pos hsig] at this
    rw [hready, hp, expected, if_pos (.inl hsig)]
    exact this
  · exact absurd (hst ▸ hstop) (htold hne)
  · exact ha'
  · rw [hsig] at h1
    cases h1
  -- it emptied the queue, and owes a notification to all
  · rw [hp]
    exact Nat.zero_le _
  · exact hsig
  · rw [hsig] at h1
    cases h1
  · exact ha'

/-- A worker: it takes one connection, or was not about to look at the queue. -/
theorem Watched.worker (h : t.Watched) {i : Fin n} (hi : i ∉ t.asleep) (hs : Step maxPendingConnections t.server s)
    (hw : s.worker i ≠ t.server.worker i) : ({ t with server := s } : Threads n).Watched := by
  obtain ⟨ha, hst, -, x, hx, hcases⟩ := hs.by_worker hw
  have hother : ∀ j, j ≠ i → s.worker j = t.server.worker j := by
    intro j hj
    rw [hx, Function.update_of_ne hj]
  obtain ⟨hone, hout, -⟩ := @card_ready_le n t { t with server := s } i hother (fun _ _ => Iff.rfl)
  have hexpected : ({ t with server := s } : Threads n).expected = t.expected := by
    simp [expected, ha]
  refine ⟨fun j hj => ?_, fun hne => ?_, fun hne hstop => ?_, fun h1 => ?_, fun h1 => ?_⟩
  · have hj' : j ≠ i := by
      rintro rfl
      exact hi hj
    exact (hother j hj').trans (h.waiting j hj)
  · have := h.enough hne
    rw [hexpected]
    show s.pending.length ≤ _
    rcases hcases with ⟨-, -, hp⟩ | ⟨-, -, -, hp⟩ | ⟨hne', -, hp⟩
    · omega
    · rw [hp]
      exact Nat.zero_le _
    · have := hout fun hr => hne' (mem_ready.mp hr).1
      rw [hp]
      omega
  · exact h.told hne (hst ▸ hstop)
  · exact ha.trans (h.one h1)
  · exact ha.trans (h.all h1)

/-- A worker that wakes up is about to look at the queue. -/
theorem card_ready_erase (h : t.Watched) {i : Fin n} (hi : i ∈ t.asleep) (signal : Signal) :
    t.ready.card + 1 ≤ (⟨t.server, t.asleep.erase i, signal⟩ : Threads n).ready.card := by
  obtain ⟨-, -, hin⟩ := @card_ready_le n t ⟨t.server, t.asleep.erase i, signal⟩ i (fun _ _ => rfl) fun j hj => by
    simp [hj]
  refine hin (fun hr => (mem_ready.mp hr).2 hi) ?_
  rw [mem_ready]
  exact ⟨h.waiting i hi, by simp⟩

theorem Watched.act (h : t.Watched) (ha : Act maxPendingConnections actor t t') : t'.Watched := by
  cases ha with
  | run hn hs hr ha => exact h.run hn hs ha
  | worker hi hs hw => exact h.worker hi hs hw
  | @again _ s hs hr ha =>
    obtain ⟨ha', hw, hp, hst⟩ := hs.by_caller hr ha
    have hready := @ready_congr n t { t with server := s } hw rfl
    refine ⟨fun i hi => (congrFun hw i).trans (h.waiting i hi), fun hne => ?_, fun hne hstop => ?_, fun h1 => ?_,
      fun h1 => ?_⟩
    · have := h.enough hne
      rw [hready]
      simpa [expected, hp, ha', hr, Acceptor.signal] using this
    · exact h.told hne (hst ▸ hstop)
    · exact ha'
    · exact absurd (hr.symm.trans (h.all h1)) (by simp)
  | notifyNobody hn he =>
    refine ⟨h.waiting, fun hne => ?_, fun hne => ?_, fun h1 => (by cases h1), fun h1 => (by cases h1)⟩ <;>
      exact absurd he hne.ne_empty
  | @notifyOne _ i hn hi =>
    have hcard := card_ready_erase h hi .none
    refine ⟨fun j hj => h.waiting j (Finset.mem_of_mem_erase hj), fun _ => ?_, fun hne hstop => ?_,
      fun h1 => (by cases h1), fun h1 => (by cases h1)⟩
    · have := h.enough ⟨i, hi⟩
      have hle : t.expected ≤ 1 := by
        unfold expected
        split <;> omega
      show t.server.pending.length ≤ _
      omega
    · have := h.told ⟨i, hi⟩ hstop
      rw [hn] at this
      cases this
  | notifyAll hn =>
    refine ⟨fun i hi => absurd hi (Finset.notMem_empty i), fun hne => ?_, fun hne => ?_, fun h1 => (by cases h1),
      fun h1 => (by cases h1)⟩ <;> exact absurd hne Finset.not_nonempty_empty
  | @sleep _ i hw hi hp hst =>
    refine ⟨fun j hj => ?_, fun _ => ?_, fun _ hstop => ?_, h.one, h.all⟩
    · rcases Finset.mem_insert.mp hj with rfl | hj
      · exact hw
      · exact h.waiting j hj
    · show t.server.pending.length ≤ _
      rw [hp]
      exact Nat.zero_le _
    · exact absurd (hst.symm.trans hstop) (by decide)
  | @wake _ i hi =>
    have hcard := card_ready_erase h hi t.signal
    refine ⟨fun j hj => h.waiting j (Finset.mem_of_mem_erase hj), fun _ => ?_, fun _ hstop => h.told ⟨i, hi⟩ hstop,
      h.one, h.all⟩
    have := h.enough ⟨i, hi⟩
    have he : (⟨t.server, t.asleep.erase i, t.signal⟩ : Threads n).expected = t.expected := rfl
    show t.server.pending.length ≤ _
    rw [he]
    omega
  | @other _ s hs ha hw =>
    obtain ⟨hp, hst⟩ := hs.by_other ha hw
    have hready := @ready_congr n t { t with server := s } hw rfl
    refine ⟨fun i hi => (congrFun hw i).trans (h.waiting i hi), fun hne => ?_, fun hne hstop => ?_, fun h1 => ?_,
      fun h1 => ?_⟩
    · have := h.enough hne
      rw [hready]
      simpa [expected, hp, ha] using this
    · exact h.told hne (hst ▸ hstop)
    · exact ha.trans (h.one h1)
    · exact ha.trans (h.all h1)

theorem watched_acts {actors : List Actor} (hr : Acts maxPendingConnections actors t t') (h : t.Watched) :
    t'.Watched := by
  induction hr with
  | nil => exact h
  | snoc _ ha ih => exact (ih h).act ha

theorem Reachable.watched (h : t.Reachable maxPendingConnections) : t.Watched := by
  obtain ⟨kernel, actors, -, -, hacts⟩ := h
  exact watched_acts hacts (watched_start kernel)

/-- **No wakeup is lost.**  In every state the threads can reach, with notifications after the fact, lost
notifications and wakeups without a reason: forgetting who sleeps gives a run of the server as above; while
some worker sleeps, at least as many others are awake and about to look at the queue, or about to be woken, as
there are connections in it; and none sleeps after the workers were told to stop unless all are about to be woken.
So whenever a worker that waits has something to do, one that is awake can do it, or the thread in `run` is
about to wake one up. -/
theorem wakeups_never_lost (h : t.Reachable maxPendingConnections) :
    (∃ past, Run n maxPendingConnections past t.server) ∧
      (t.asleep.Nonempty → t.server.pending.length ≤ t.ready.card + t.expected) ∧
      (t.asleep.Nonempty → t.server.workersStopping = true → t.signal = .all) ∧
      ((∃ i, t.server.worker i = .waiting) → t.server.pending ≠ [] ∨ t.server.workersStopping = true →
        t.ready.Nonempty ∨ t.signal ≠ .none ∨ t.server.acceptor.signal = .one) := by
  have hw := h.watched
  refine ⟨h.run, hw.enough, hw.told, ?_⟩
  rintro ⟨i, hi⟩ hwork
  by_cases hready : t.ready.Nonempty
  · exact .inl hready
  · have hsleep : i ∈ t.asleep := by
      by_contra hn
      exact hready ⟨i, mem_ready.mpr ⟨hi, hn⟩⟩
    rcases hwork with hp | hstop
    · have henough := hw.enough ⟨i, hsleep⟩
      rw [Finset.not_nonempty_iff_eq_empty.mp hready, Finset.card_empty, expected] at henough
      have hpos : 0 < t.server.pending.length := List.length_pos_iff.mpr hp
      split at henough
      · next hs =>
        rcases hs with hs | hs
        · exact .inr (.inl (by rw [hs]; simp))
        · exact .inr (.inr hs)
      · omega
    · exact .inr (.inl (by rw [hw.told ⟨i, hsleep⟩ hstop]; simp))

/-- A stop is requested while the only worker sleeps and a connection is in the queue. -/
theorem sampleThreads : ∃ t : Threads 1, t.Reachable 1 ∧ t.asleep = {0} ∧ t.server.pending = [5] ∧
    t.server.worker 0 = .waiting ∧ t.server.stopRequested = true ∧ t.signal = .none ∧
    t.server.acceptor = .enqueued 1 := by
  have h0 : Acts 1 [] (start 1 emptyKernel) (start 1 emptyKernel) := .nil _
  have h1 := h0.snoc (.sleep (i := 0) rfl (by decide) rfl rfl)
  have h2 := h1.snoc (.run rfl (.poll rfl rfl) (by simp [start, Server.start]) (by simp [start, Server.start]))
  have h3 := h2.snoc (.run rfl (.accept 5 rfl rfl) (by simp) (by simp))
  have h4 := h3.snoc (.run rfl (.enqueue rfl rfl Nat.one_pos) (by simp) (by simp))
  have h5 := h4.snoc (.other .requestStop rfl rfl)
  exact ⟨_, ⟨emptyKernel, _, fun _ _ h => (by cases h), rfl, h5⟩, rfl, rfl, rfl, rfl, rfl, rfl⟩

theorem sampleThreads_woken : ∃ t : Threads 1, t.asleep = {0} ∧ t.server.pending = [5] ∧
    (t.ready.Nonempty ∨ t.signal ≠ .none ∨ t.server.acceptor.signal = .one) := by
  obtain ⟨t, hr, ha, hp, hw, -⟩ := sampleThreads
  exact ⟨t, ha, hp, (wakeups_never_lost hr).2.2.2 ⟨0, hw⟩ (.inl (by rw [hp]; simp))⟩

/-! ## Stopping -/

end Threads

/-- The steps the thread in `run` has yet to take after a stop request, with those it causes: a connection
in the queue is five steps of a worker, a notification may wake up one worker or all of them. -/
def Acceptor.left (n : Nat) : Acceptor → Nat
  | accepting => n + 16
  | holding _ => n + 15
  | enqueued _ => n + 9
  | refused _ => n + 8
  | closing _ => n + 7
  | polling => n + 6
  | stopping => n + 5
  | scanning => n + 4
  | clearing => n + 3
  | joining => 1
  | returned => 0

def Signal.left (n : Nat) : Signal → Nat
  | none => 0
  | one => 2
  | all => n + 1

/-- After a stop request no section of the thread in `run` leaves more to do. -/
theorem Step.left_by_run {n maxPendingConnections : Nat} {s s' : Server n} (h : Step maxPendingConnections s s')
    (ha : s'.acceptor ≠ s.acceptor) (hr : s.acceptor ≠ .returned) (hstop : s.stopRequested = true) :
    s'.acceptor.left n + s.acceptor.signal.left n + 5 * s'.pending.length <
        s.acceptor.left n + 5 * s.pending.length ∧ s'.stopRequested = true := by
  cases h with
  | poll _ hno => rw [hstop] at hno; cases hno
  | leave hc => rcases hc with hc | hc <;> simp [hc, Acceptor.left, Acceptor.signal, Signal.left, hstop]
  | enqueue hc _ _ =>
    refine ⟨?_, hstop⟩
    simp only [hc, Acceptor.left, Acceptor.signal, Signal.left, List.length_append, List.length_singleton]
    omega
  | clear hc =>
    refine ⟨?_, hstop⟩
    simp only [hc, Acceptor.left, Acceptor.signal, Signal.left, List.length_nil]
    omega
  | accept _ hc _ | acceptNothing hc | refuse hc _ | observePeak hc | reject hc | closeRejected hc | storeStop hc
  | scan hc | join hc _ =>
    simp [hc, Acceptor.left, Acceptor.signal, Signal.left, hstop, Server.shutdownActiveConnections]
  | again hc => exact absurd hc hr
  | pop | exit | cancel | register | deregister | complete | fail | close | requestStop | requestScan | openOther
  | closeOther => exact absurd rfl ha

theorem Step.stopRequested {n maxPendingConnections : Nat} {s s' : Server n} (h : Step maxPendingConnections s s')
    (hstop : s.stopRequested = true) : s'.stopRequested = true := by
  cases h with
  | storeStop _ | requestStop => rfl
  | _ => exact hstop

/-- Two functions that differ at one index. -/
theorem sum_change {n : Nat} {f g : Fin n → Nat} (i : Fin n) (h : ∀ j, j ≠ i → f j = g j) :
    ∑ j, f j + g i = ∑ j, g j + f i := by
  have hf := Finset.add_sum_erase Finset.univ f (Finset.mem_univ i)
  have hg := Finset.add_sum_erase Finset.univ g (Finset.mem_univ i)
  have hrest : ∑ j ∈ Finset.univ.erase i, f j = ∑ j ∈ Finset.univ.erase i, g j :=
    Finset.sum_congr rfl fun j hj => h j (Finset.ne_of_mem_erase hj)
  omega

namespace Threads

variable {n maxPendingConnections : Nat} {t t' : Threads n} {s : Server n} {actor : Actor}

/-- The steps of a worker: none while it sleeps. -/
def workLeft (t : Threads n) (i : Fin n) : Nat := if i ∈ t.asleep then 0 else (t.server.worker i).left

/-- The steps the threads have yet to take after a stop request. -/
def left (t : Threads n) : Nat :=
  t.server.acceptor.left n + t.signal.left n + 5 * t.server.pending.length + ∑ i, t.workLeft i

theorem workLeft_le (t : Threads n) (i : Fin n) : t.workLeft i ≤ 5 := by
  unfold workLeft
  split
  · omega
  · cases t.server.worker i <;> simp [Worker.left]

/-- The most there can be to do. -/
theorem Reachable.left_le (h : t.Reachable maxPendingConnections) :
    t.left ≤ 6 * n + 5 * maxPendingConnections + 16 := by
  obtain ⟨past, hrun⟩ := h.run
  have hbound := hrun.counted.bounded
  have hsum : ∑ i, t.workLeft i ≤ n * 5 := by
    have := Finset.sum_le_card_nsmul Finset.univ t.workLeft 5 fun i _ => t.workLeft_le i
    simpa using this
  have hrunning : t.server.acceptor.left n + t.signal.left n ≤ n + 16 := by
    have hone := h.watched.one
    have hall := h.watched.all
    cases hs : t.signal with
    | none => cases t.server.acceptor <;> simp [Acceptor.left, Signal.left]
    | one => simp [hone hs, Acceptor.left, Signal.left]
    | all =>
      simp only [hall hs, Acceptor.left, Signal.left]
      omega
  unfold left
  omega

/-- What an actor adds to what is left to do. -/
def Actor.adds (n : Nat) : Actor → Nat
  | .spurious => 1
  | .caller => n + 6
  | .thread | .other => 0

theorem workLeft_asleep {i : Fin n} (hi : i ∈ t.asleep) : t.workLeft i = 0 := if_pos hi

theorem workLeft_awake {i : Fin n} (hi : i ∉ t.asleep) : t.workLeft i = (t.server.worker i).left := if_neg hi

/-- A worker wakes up. -/
theorem sum_workLeft_erase (h : t.Watched) {i : Fin n} (hi : i ∈ t.asleep) (signal : Signal) :
    ∑ j, (⟨t.server, t.asleep.erase i, signal⟩ : Threads n).workLeft j = ∑ j, t.workLeft j + 1 := by
  have hsum := @sum_change n (⟨t.server, t.asleep.erase i, signal⟩ : Threads n).workLeft t.workLeft i
    fun j hj => by
    simp [workLeft, hj]
  rw [workLeft_asleep hi, workLeft_awake (by simp)] at hsum
  simpa [h.waiting i hi, Worker.left] using hsum

/-- All of them do. -/
theorem sum_workLeft_empty (h : t.Watched) (signal : Signal) :
    ∑ j, (⟨t.server, ∅, signal⟩ : Threads n).workLeft j ≤ ∑ j, t.workLeft j + n := by
  have hle : ∀ j ∈ Finset.univ, (⟨t.server, ∅, signal⟩ : Threads n).workLeft j ≤ t.workLeft j + 1 := by
    intro j _
    rw [workLeft_awake (Finset.notMem_empty j)]
    by_cases hj : j ∈ t.asleep
    · rw [workLeft_asleep hj, h.waiting j hj]
      rfl
    · rw [workLeft_awake hj]
      exact Nat.le_succ _
  have hsum := Finset.sum_le_sum hle
  rw [Finset.sum_add_distrib] at hsum
  simpa using hsum

/-- A step of a thread leaves less to do. -/
theorem left_act (h : t.Watched) (hstop : t.server.stopRequested = true)
    (ha : Act maxPendingConnections actor t t') :
    t'.left + (if actor = .thread then 1 else 0) ≤ t.left + Actor.adds n actor := by
  cases ha with
  | @run _ s hn hs hr ha =>
    obtain ⟨hw, -⟩ := hs.by_run ha
    obtain ⟨hlt, -⟩ := hs.left_by_run ha hr hstop
    have hsum : ∑ i, ({ t with server := s, signal := t.server.acceptor.signal } : Threads n).workLeft i =
        ∑ i, t.workLeft i := by
      simp only [workLeft, hw]
    have hzero : Signal.left n .none = 0 := rfl
    simp only [left, hn, hsum, hzero, Actor.adds, if_true]
    omega
  | @again _ s hs hr ha =>
    obtain ⟨ha', hw, hp, -⟩ := hs.by_caller hr ha
    have hsum : ∑ i, ({ t with server := s } : Threads n).workLeft i = ∑ i, t.workLeft i := by
      simp only [workLeft, hw]
    simp only [left, hsum, hp, ha', hr, Acceptor.left, Actor.adds]
    simp
    omega
  | notifyNobody hn he =>
    simp only [left, hn, Signal.left, Actor.adds, if_true]
    have hsum : ∑ i, ({ t with signal := .none } : Threads n).workLeft i = ∑ i, t.workLeft i := rfl
    omega
  | @notifyOne _ i hn hi =>
    have hsum := sum_workLeft_erase h hi .none
    simp only [left, hn, hsum, Signal.left, Actor.adds, if_true]
    omega
  | notifyAll hn =>
    have hsum := sum_workLeft_empty h .none
    simp only [left, hn, Signal.left, Actor.adds, if_true]
    omega
  | @worker _ i s hi hs hw =>
    obtain ⟨ha, -, -, x, hx, hcases⟩ := hs.by_worker hw
    have hsum := @sum_change n ({ t with server := s } : Threads n).workLeft t.workLeft i fun j hj => by
      simp [workLeft, hx, Function.update_of_ne hj]
    rw [workLeft_awake hi, workLeft_awake (t := { t with server := s }) hi] at hsum
    have hxi : s.worker i = x := by
      rw [hx, Function.update_self]
    simp only [hxi] at hsum
    simp only [left, ha, Actor.adds, if_true]
    rcases hcases with ⟨hwait, hleft, hp⟩ | ⟨hwait, rfl, hp, hp'⟩ | ⟨-, hlt, hp⟩
    · rw [hwait, hleft] at hsum
      simp only [Worker.left] at hsum
      omega
    · rw [hwait] at hsum
      simp only [Worker.left] at hsum
      rw [hp, hp']
      omega
    · rw [hp]
      omega
  | @sleep _ i hw hi hp hst =>
    have hsum := @sum_change n ({ t with asleep := insert i t.asleep } : Threads n).workLeft t.workLeft i
      fun j hj => by
      simp [workLeft, hj]
    rw [workLeft_awake hi, workLeft_asleep (t := { t with asleep := insert i t.asleep })
      (Finset.mem_insert_self ..),
      hw] at hsum
    simp only [left, Actor.adds, if_true]
    simp only [Worker.left] at hsum
    omega
  | @wake _ i hi =>
    have hsum := sum_workLeft_erase h hi t.signal
    simp only [left, hsum, Actor.adds]
    simp
    omega
  | @other _ s hs ha hw =>
    obtain ⟨hp, -⟩ := hs.by_other ha hw
    have hsum : ∑ i, ({ t with server := s } : Threads n).workLeft i = ∑ i, t.workLeft i := by
      simp only [workLeft, hw]
    simp only [left, hsum, hp, ha, Actor.adds]
    simp

theorem stopRequested_act (hstop : t.server.stopRequested = true) (ha : Act maxPendingConnections actor t t') :
    t'.server.stopRequested = true := by
  cases ha with
  | run _ hs _ _ => exact hs.stopRequested hstop
  | again hs _ _ => exact hs.stopRequested hstop
  | worker _ hs _ => exact hs.stopRequested hstop
  | other hs _ _ => exact hs.stopRequested hstop
  | notifyNobody _ _ | notifyOne _ _ | notifyAll _ | sleep _ _ _ _ | wake _ => exact hstop

/-- The threads' steps, against what the others add. -/
theorem left_acts {actors : List Actor} (hr : Acts maxPendingConnections actors t t') (h : t.Watched)
    (hstop : t.server.stopRequested = true) :
    t'.left + actors.count .thread ≤ t.left + actors.count .spurious + (n + 6) * actors.count .caller ∧
      t'.server.stopRequested = true := by
  induction hr with
  | nil => exact ⟨Nat.le_refl _, hstop⟩
  | @snoc actors actor t u v hacts ha ih =>
    obtain ⟨hle, hstop'⟩ := ih h hstop
    have hstep := left_act (watched_acts hacts h) hstop' ha
    refine ⟨?_, stopRequested_act hstop' ha⟩
    simp only [List.count_append, List.count_singleton]
    cases actor <;> simp [Actor.adds] at hstep ⊢ <;> grind

/-- No worker can take a step: all sleep or have left. -/
theorem exited_of_stuck (hstuck : ∀ t', ¬ Act maxPendingConnections .thread t t') (hp : t.server.pending = [])
    (hst : t.server.workersStopping = true) {i : Fin n} (hi : i ∉ t.asleep) : t.server.worker i = .exited := by
  have hmove : ∀ s, Step maxPendingConnections t.server s → s.worker i = t.server.worker i := by
    intro s hs
    by_contra hw
    exact hstuck _ (.worker hi hs hw)
  have hself : ∀ x : Worker, (t.server.setWorker i x).worker i = x := fun x => Server.setWorker_self _ i x
  cases hw : t.server.worker i with
  | exited => rfl
  | waiting =>
    have := hmove _ (.exit hw hp hst)
    rw [hself, hw] at this
    cases this
  | popped client =>
    by_cases hactive : t.server.activeStopping = true
    · have := hmove _ (.cancel hw hactive)
      simp [hw] at this
    · have := hmove _ (.register hw (by simpa using hactive))
      simp [hw] at this
  | serving client =>
    have := hmove _ (.deregister true hw)
    simp [hw] at this
  | finished client ok =>
    cases ok with
    | true =>
      have := hmove _ (.complete hw)
      simp [hw] at this
    | false =>
      have := hmove _ (.fail hw)
      simp [hw] at this
  | closing client =>
    have := hmove _ (.close hw)
    simp [hw] at this

/-- If no thread can take a step, `run` has returned. -/
theorem Reachable.stopped (h : t.Reachable maxPendingConnections)
    (hstuck : ∀ t', ¬ Act maxPendingConnections .thread t t') : t.server.acceptor = .returned := by
  obtain ⟨past, hrun⟩ := h.run
  have hcounted := hrun.counted
  have hn : t.signal = .none := by
    cases hs : t.signal with
    | none => rfl
    | all => exact absurd (Act.notifyAll hs) (hstuck _)
    | one =>
      rcases t.asleep.eq_empty_or_nonempty with he | ⟨i, hi⟩
      · exact absurd (Act.notifyNobody hs he) (hstuck _)
      · exact absurd (Act.notifyOne hs hi) (hstuck _)
  by_contra hr
  have hno : ∀ s, Step maxPendingConnections t.server s → s.acceptor = t.server.acceptor := by
    intro s hs
    by_contra ha
    exact hstuck _ (.run hn hs hr ha)
  cases ha : t.server.acceptor with
  | returned => exact hr ha
  | polling =>
    have := hno _ (.leave (.inl ha))
    simp [ha] at this
  | accepting =>
    have := hno _ (.leave (.inr ha))
    simp [ha] at this
  | holding client =>
    by_cases hroom : t.server.workersStopping = false ∧ t.server.pending.length < maxPendingConnections
    · have := hno _ (.enqueue ha hroom.1 hroom.2)
      simp [ha] at this
    · have := hno _ (.refuse ha hroom)
      simp [ha] at this
  | enqueued depth =>
    have := hno _ (.observePeak ha)
    simp [ha] at this
  | refused client =>
    have := hno _ (.reject ha)
    simp [ha] at this
  | closing client =>
    have := hno _ (.closeRejected ha)
    simp [ha] at this
  | stopping =>
    have := hno _ (.storeStop ha)
    simp [ha] at this
  | scanning =>
    have := hno _ (.scan ha)
    simp [ha] at this
  | clearing =>
    have := hno _ (.clear ha)
    simp [ha] at this
  | joining =>
    -- the workers have been told to stop, and none of them sleeps
    have hst := hcounted.joining ha
    have hawake : ∀ i, i ∉ t.asleep := by
      intro i hi
      have := h.watched.told ⟨i, hi⟩ hst
      rw [hn] at this
      cases this
    have hexited : ∀ i, t.server.worker i = .exited := fun i =>
      exited_of_stuck hstuck (hcounted.cleared hst) hst (hawake i)
    have := hno _ (.join ha hexited)
    simp [ha] at this

/-- **Stopping ends.**  From any state that the threads can reach and in which a stop was requested, the threads
of the server take at most `6 n + 5 maxPendingConnections + 16` more steps, in any order and whatever else
happens, not counting one for each time a worker wakes up without a reason and `n + 6` for each further call of
`run`.  They do not stop before the end: where none can take a step `run` has returned, all workers have left
and are awake, the queue is empty, no session is registered and no descriptor stands for a connection. -/
theorem stopping_ends (h : t.Reachable maxPendingConnections) (hstop : t.server.stopRequested = true)
    {actors : List Actor} (hr : Acts maxPendingConnections actors t t') :
    actors.count .thread ≤ 6 * n + 5 * maxPendingConnections + 16 + actors.count .spurious +
        (n + 6) * actors.count .caller ∧
      ((∀ u, ¬ Act maxPendingConnections .thread t' u) →
        t'.server.acceptor = .returned ∧ (∀ i, t'.server.worker i = .exited) ∧ t'.asleep = ∅ ∧
          t'.server.pending = [] ∧ t'.server.activeConnections = ∅ ∧
          ∀ fd o, t'.server.kernel.table fd = some o → o.connection = false) := by
  have hreach := h.acts hr
  refine ⟨?_, fun hstuck => ?_⟩
  · have hle := h.left_le
    have hacts := (left_acts hr h.watched hstop).1
    omega
  · have hret := hreach.stopped hstuck
    obtain ⟨past, hrun⟩ := hreach.run
    obtain ⟨hst, hexited⟩ := hrun.counted.returned hret
    have hp := hrun.counted.cleared hst
    refine ⟨hret, hexited, ?_, hp, ?_, ?_⟩
    · by_contra hne
      obtain ⟨i, hi⟩ := Finset.nonempty_iff_ne_empty.mpr hne
      have := hreach.watched.waiting i hi
      rw [hexited i] at this
      cases this
    · apply Finset.eq_empty_of_forall_notMem
      intro fd hfd
      obtain ⟨i, hi⟩ := (hrun.sessions.active fd).mp hfd
      rw [hexited i] at hi
      cases hi
    · intro fd o hfd
      have hnone : t'.server.held = 0 := by simp [Server.held, hret, hp, hexited, Acceptor.held, Worker.held]
      rw [← Bool.not_eq_true]
      intro ho
      have := hrun.owned.owner fd o hfd ho
      rw [hnone] at this
      exact Multiset.notMem_zero fd this

/-- Two more steps of the threads, of which there may be 27. -/
theorem sampleThreads_stopping : ∃ t t' : Threads 1, t.asleep = {0} ∧ t.server.stopRequested = true ∧
    Acts 1 [.thread, .thread] t t' ∧ [Actor.thread, .thread].count .thread ≤ 27 := by
  obtain ⟨t, hr, ha, hp, hw, hstop, hn, hc⟩ := sampleThreads
  have h1 := (@Acts.nil 1 1 t).snoc (.run hn (.observePeak hc) (by rw [hc]; simp) (by rw [hc]; simp))
  have h2 := h1.snoc (.notifyOne (i := 0) (by rw [hc]; rfl) (by rw [ha]; decide))
  exact ⟨t, _, ha, hstop, h2, (stopping_ends hr hstop h2).1⟩

end Threads

end SyncWire.ConcurrentServer
