import Mathlib.Algebra.BigOperators.Group.Finset.Basic
import Mathlib.Algebra.Order.BigOperators.Group.Finset
import Mathlib.Data.Finset.Option
import Mathlib.Data.Multiset.AddSub

/-!
# The threads of the server (`concurrent_server.cpp`)

One thread is in `run`: it accepts connections into a queue and at the end stops the
workers.  `n` workers take connections from the queue and serve them.  Any other thread
may call `request_stop` at any time.  A step is one lock-protected section or one update
of a counter (`Step`); the threads take their steps in any order.

Threads own descriptors, which are numbers.  What a number stands for is the kernel's
business (`Kernel`): it gives out any number that is free, also to files and sockets
that have nothing to do with the server, and `shutdown` applied to a number reaches
whatever the number stands for.

* `connections_accounted`: every accepted connection is counted exactly once.
* `shutdown_exact`: shutting down reaches every session and nothing else.
-/

namespace SyncWire.ConcurrentServer

/-! ## Descriptors -/

abbrev Fd := Nat

/-- An open connection, or anything else a descriptor stands for. -/
structure Obj where
  id : Nat
  connection : Bool
deriving DecidableEq

structure Kernel where
  table : Fd → Option Obj
  /-- every `shutdown` so far: the number, and what it stood for -/
  shutdowns : Multiset (Fd × Option Obj)
  nextId : Nat
  table_lt : ∀ fd o, table fd = some o → o.id < nextId
  shutdowns_lt : ∀ fd o, (fd, some o) ∈ shutdowns → o.id < nextId

namespace Kernel

variable (k : Kernel)

/-- A new object under the number `fd`. -/
def allocate (fd : Fd) (connection : Bool) : Kernel where
  table := Function.update k.table fd (some ⟨k.nextId, connection⟩)
  shutdowns := k.shutdowns
  nextId := k.nextId + 1
  table_lt fd' o h := by
    by_cases he : fd' = fd
    · subst he
      rw [Function.update_self] at h
      cases h
      exact Nat.lt_succ_self _
    · rw [Function.update_of_ne he] at h
      exact Nat.lt_succ_of_lt (k.table_lt fd' o h)
  shutdowns_lt fd' o h := Nat.lt_succ_of_lt (k.shutdowns_lt fd' o h)

/-- `close` of the given numbers. -/
def close (fds : List Fd) : Kernel where
  table fd := if fd ∈ fds then none else k.table fd
  shutdowns := k.shutdowns
  nextId := k.nextId
  table_lt fd o h := by
    split at h
    · cases h
    · exact k.table_lt fd o h
  shutdowns_lt := k.shutdowns_lt

/-- `shutdown` of the given numbers. -/
def shutdown (fds : Finset Fd) : Kernel where
  table := k.table
  shutdowns := k.shutdowns + fds.val.map fun fd => (fd, k.table fd)
  nextId := k.nextId
  table_lt := k.table_lt
  shutdowns_lt fd o h := by
    rcases Multiset.mem_add.mp h with h | h
    · exact k.shutdowns_lt fd o h
    · obtain ⟨fd', -, he⟩ := Multiset.mem_map.mp h
      exact k.table_lt fd' o (Prod.mk.inj he).2

end Kernel

/-! ## Threads -/

/-- The thread in `run`. -/
inductive Acceptor
  /-- about to look at `stop_requested` -/
  | polling
  /-- saw that it was not set -/
  | accepting
  /-- `accepted` was incremented -/
  | holding (client : Fd)
  /-- the client is in the queue, which it made `depth` deep -/
  | enqueued (depth : Nat)
  /-- the queue did not take the client -/
  | refused (client : Fd)
  /-- the client was counted as rejected -/
  | closing (client : Fd)
  /-- in `stop_workers`, before each of its sections -/
  | stopping | scanning | clearing | joining
  | returned
deriving DecidableEq

inductive Worker
  | waiting
  /-- took the client from the queue -/
  | popped (client : Fd)
  /-- between registration and deregistration -/
  | serving (client : Fd)
  /-- deregistered, not yet counted -/
  | finished (client : Fd) (ok : Bool)
  /-- counted; the client is closed at the end of the turn -/
  | closing (client : Fd)
  | exited
deriving DecidableEq

/-- The members and the threads.  The counters are `std::uint64_t` in the source and `Nat` here: below 2^64
connections they are the same, and beyond that the source's are these modulo 2^64. -/
structure Server (n : Nat) where
  stopRequested : Bool
  pending : List Fd
  workersStopping : Bool
  activeStopping : Bool
  activeConnections : Finset Fd
  accepted : Nat
  completed : Nat
  failed : Nat
  rejected : Nat
  cancelled : Nat
  peakPending : Nat
  acceptor : Acceptor
  worker : Fin n → Worker
  kernel : Kernel

namespace Server

variable {n : Nat} (s : Server n)

/-- After `start`. -/
def start (n : Nat) (kernel : Kernel) : Server n where
  stopRequested := false
  pending := []
  workersStopping := false
  activeStopping := false
  activeConnections := ∅
  accepted := 0
  completed := 0
  failed := 0
  rejected := 0
  cancelled := 0
  peakPending := 0
  acceptor := .polling
  worker := fun _ => .waiting
  kernel := kernel

def setWorker (i : Fin n) (state : Worker) : Server n :=
  { s with worker := Function.update s.worker i state }

@[simp] theorem setWorker_self (i : Fin n) (state : Worker) : (s.setWorker i state).worker i = state :=
  Function.update_self ..

theorem setWorker_ne {i j : Fin n} (state : Worker) (h : j ≠ i) : (s.setWorker i state).worker j = s.worker j :=
  Function.update_of_ne h ..

/-- `shutdown_active_connections` -/
def shutdownActiveConnections : Server n :=
  { s with activeStopping := true, kernel := s.kernel.shutdown s.activeConnections }

end Server

/-- One step of one thread. -/
inductive Step {n : Nat} (maxPendingConnections : Nat) : Server n → Server n → Prop
  -- the thread in `run`
  | poll {s : Server n} (h : s.acceptor = .polling) (hr : s.stopRequested = false) :
      Step maxPendingConnections s { s with acceptor := .accepting }
  /-- out of the loops: stop requested, `external_stop`, or an error -/
  | leave {s : Server n} (h : s.acceptor = .polling ∨ s.acceptor = .accepting) :
      Step maxPendingConnections s { s with acceptor := .stopping }
  /-- any number that is free -/
  | accept {s : Server n} (fd : Fd) (h : s.acceptor = .accepting) (hfd : s.kernel.table fd = none) :
      Step maxPendingConnections s
        { s with accepted := s.accepted + 1, acceptor := .holding fd, kernel := s.kernel.allocate fd true }
  | acceptNothing {s : Server n} (h : s.acceptor = .accepting) :
      Step maxPendingConnections s { s with acceptor := .polling }
  | enqueue {s : Server n} {client : Fd} (h : s.acceptor = .holding client)
      (hw : s.workersStopping = false) (hp : s.pending.length < maxPendingConnections) :
      Step maxPendingConnections s
        { s with pending := s.pending ++ [client], acceptor := .enqueued (s.pending.length + 1) }
  | refuse {s : Server n} {client : Fd} (h : s.acceptor = .holding client)
      (hp : ¬ (s.workersStopping = false ∧ s.pending.length < maxPendingConnections)) :
      Step maxPendingConnections s { s with acceptor := .refused client }
  | observePeak {s : Server n} {depth : Nat} (h : s.acceptor = .enqueued depth) :
      Step maxPendingConnections s { s with peakPending := max s.peakPending depth, acceptor := .polling }
  | reject {s : Server n} {client : Fd} (h : s.acceptor = .refused client) :
      Step maxPendingConnections s { s with rejected := s.rejected + 1, acceptor := .closing client }
  | closeRejected {s : Server n} {client : Fd} (h : s.acceptor = .closing client) :
      Step maxPendingConnections s { s with acceptor := .polling, kernel := s.kernel.close [client] }
  -- `stop_workers`
  | storeStop {s : Server n} (h : s.acceptor = .stopping) :
      Step maxPendingConnections s { s with stopRequested := true, acceptor := .scanning }
  | scan {s : Server n} (h : s.acceptor = .scanning) :
      Step maxPendingConnections s { s.shutdownActiveConnections with acceptor := .clearing }
  | clear {s : Server n} (h : s.acceptor = .clearing) :
      Step maxPendingConnections s
        { s with
          workersStopping := true
          cancelled := s.cancelled + s.pending.length
          pending := []
          acceptor := .joining
          kernel := s.kernel.close s.pending }
  | join {s : Server n} (h : s.acceptor = .joining) (hw : ∀ i, s.worker i = .exited) :
      Step maxPendingConnections s { s with acceptor := .returned }
  /-- another call of `run`, or the destructor -/
  | again {s : Server n} (h : s.acceptor = .returned) :
      Step maxPendingConnections s { s with acceptor := .polling }
  -- a worker
  | pop {s : Server n} {i : Fin n} {client : Fd} {rest : List Fd} (h : s.worker i = .waiting)
      (hp : s.pending = client :: rest) :
      Step maxPendingConnections s { s.setWorker i (.popped client) with pending := rest }
  | exit {s : Server n} {i : Fin n} (h : s.worker i = .waiting) (hp : s.pending = [])
      (hw : s.workersStopping = true) : Step maxPendingConnections s (s.setWorker i .exited)
  | cancel {s : Server n} {i : Fin n} {client : Fd} (h : s.worker i = .popped client)
      (ha : s.activeStopping = true) :
      Step maxPendingConnections s { s.setWorker i (.closing client) with cancelled := s.cancelled + 1 }
  | register {s : Server n} {i : Fin n} {client : Fd} (h : s.worker i = .popped client)
      (ha : s.activeStopping = false) :
      Step maxPendingConnections s
        { s.setWorker i (.serving client) with activeConnections := insert client s.activeConnections }
  | deregister {s : Server n} {i : Fin n} {client : Fd} (ok : Bool) (h : s.worker i = .serving client) :
      Step maxPendingConnections s
        { s.setWorker i (.finished client ok) with activeConnections := s.activeConnections.erase client }
  | complete {s : Server n} {i : Fin n} {client : Fd} (h : s.worker i = .finished client true) :
      Step maxPendingConnections s { s.setWorker i (.closing client) with completed := s.completed + 1 }
  | fail {s : Server n} {i : Fin n} {client : Fd} (h : s.worker i = .finished client false) :
      Step maxPendingConnections s { s.setWorker i (.closing client) with failed := s.failed + 1 }
  | close {s : Server n} {i : Fin n} {client : Fd} (h : s.worker i = .closing client) :
      Step maxPendingConnections s { s.setWorker i .waiting with kernel := s.kernel.close [client] }
  -- `request_stop` in any other thread
  | requestStop {s : Server n} : Step maxPendingConnections s { s with stopRequested := true }
  | requestScan {s : Server n} (h : s.stopRequested = true) :
      Step maxPendingConnections s s.shutdownActiveConnections
  -- descriptors of other files and sockets
  | openOther {s : Server n} (fd : Fd) (h : s.kernel.table fd = none) :
      Step maxPendingConnections s { s with kernel := s.kernel.allocate fd false }
  | closeOther {s : Server n} {fd : Fd} {o : Obj} (h : s.kernel.table fd = some o) (ho : o.connection = false) :
      Step maxPendingConnections s { s with kernel := s.kernel.close [fd] }

/-- A run of the server: the states it went through, the last one first. -/
inductive Run (n maxPendingConnections : Nat) : List (Server n) → Server n → Prop
  | start (kernel : Kernel) (hk : ∀ fd o, kernel.table fd = some o → o.connection = false)
      (hs : kernel.shutdowns = 0) : Run n maxPendingConnections [.start n kernel] (.start n kernel)
  | step {past : List (Server n)} {s s' : Server n} (h : Run n maxPendingConnections past s)
      (hs : Step maxPendingConnections s s') : Run n maxPendingConnections (s' :: past) s'

/-! ## Who owns a descriptor -/

namespace Acceptor

/-- The descriptor the thread owns. -/
def held : Acceptor → Multiset Fd
  | holding client | refused client | closing client => {client}
  | _ => 0

/-- The connection it owns and has not counted as anything yet. -/
def unsettled : Acceptor → Multiset Fd
  | holding client | refused client => {client}
  | _ => 0

end Acceptor

namespace Worker

def held : Worker → Multiset Fd
  | popped client | serving client | finished client _ | closing client => {client}
  | _ => 0

def unsettled : Worker → Multiset Fd
  | popped client | serving client | finished client _ => {client}
  | _ => 0

end Worker

/-- Changing one worker. -/
theorem sum_update {M : Type*} [AddCommMonoid M] {n : Nat} (f : Worker → M) (w : Fin n → Worker) (i : Fin n)
    (x : Worker) : ∑ j, f (Function.update w i x j) + f (w i) = ∑ j, f (w j) + f x := by
  have h1 := Finset.add_sum_erase Finset.univ (fun j => f (Function.update w i x j)) (Finset.mem_univ i)
  have h2 := Finset.add_sum_erase Finset.univ (fun j => f (w j)) (Finset.mem_univ i)
  have h3 : ∑ j ∈ Finset.univ.erase i, f (Function.update w i x j) = ∑ j ∈ Finset.univ.erase i, f (w j) :=
    Finset.sum_congr rfl fun j hj => by rw [Function.update_of_ne (Finset.ne_of_mem_erase hj)]
  rw [← h1, ← h2, h3, Function.update_self]
  exact add_right_comm _ _ _ |>.trans (by rw [add_comm (f x), add_assoc, add_comm (f x), ← add_assoc])

/-- A connection goes from the queue to a worker. -/
theorem sum_pop {n : Nat} {f : Worker → Multiset Fd} {client : Fd} {rest : List Fd} (hf : f .waiting = 0)
    (hc : f (.popped client) = {client}) {w : Fin n → Worker} {i : Fin n} (hw : w i = .waiting) :
    (rest : Multiset Fd) + ∑ j, f (Function.update w i (.popped client) j) =
      ((client :: rest : List Fd) : Multiset Fd) + ∑ j, f (w j) := by
  have h := sum_update f w i (.popped client)
  rw [hw, hf, hc, add_zero] at h
  rw [h, ← Multiset.cons_coe, ← Multiset.singleton_add, add_left_comm, add_comm (rest : Multiset Fd),
    add_comm]

namespace Server

variable {n maxPendingConnections : Nat} {s s' : Server n}

/-- The descriptors that the threads and the queue own. -/
def held (s : Server n) : Multiset Fd := s.acceptor.held + s.pending + ∑ i, (s.worker i).held

/-- The accepted connections that have not been counted as anything else yet. -/
def unsettled (s : Server n) : Multiset Fd := s.acceptor.unsettled + s.pending + ∑ i, (s.worker i).unsettled

/-- No descriptor is owned twice, each one stands for a connection, and no connection is open without an owner. -/
structure Owned (s : Server n) : Prop where
  nodup : s.held.Nodup
  conn : ∀ fd ∈ s.held, ∃ o, s.kernel.table fd = some o ∧ o.connection = true
  owner : ∀ fd o, s.kernel.table fd = some o → o.connection = true → fd ∈ s.held

theorem held_setWorker (s : Server n) (i : Fin n) (x : Worker) :
    (s.setWorker i x).held + (s.worker i).held = s.held + x.held := by
  simp only [held, setWorker, add_assoc]
  rw [sum_update Worker.held]

/-- A worker goes on with the same descriptor. -/
theorem held_setWorker_eq {i : Fin n} {x : Worker} (h : x.held = (s.worker i).held) :
    (s.setWorker i x).held = s.held := by
  have := held_setWorker s i x
  rw [h] at this
  exact add_right_cancel this

/-- Closed numbers are not owned any more. -/
theorem table_close {k : Kernel} {fds : List Fd} {rest : Multiset Fd} (hd : (rest + fds).Nodup) :
    ∀ fd ∈ rest, (k.close fds).table fd = k.table fd := by
  intro fd hm
  have hnot : fd ∉ fds := fun hf => Multiset.disjoint_left.mp (Multiset.nodup_add.mp hd).2.2 hm hf
  exact if_neg hnot

theorem owned_start {kernel : Kernel} (hk : ∀ fd o, kernel.table fd = some o → o.connection = false) :
    (start n kernel).Owned := by
  have h : (start n kernel).held = 0 := by simp [held, start, Acceptor.held, Worker.held]
  refine ⟨by rw [h]; exact Multiset.nodup_zero, by rw [h]; simp, fun fd o hfd ho => ?_⟩
  rw [hk fd o hfd] at ho
  cases ho

/-- What is owned was owned before and stands for the same; a connection that is open was open, and is not let
go. -/
structure Keeps (s s' : Server n) : Prop where
  held_le : s'.held ≤ s.held
  same : ∀ fd ∈ s'.held, s'.kernel.table fd = s.kernel.table fd
  still : ∀ fd o, s'.kernel.table fd = some o → o.connection = true →
    s.kernel.table fd = some o ∧ (fd ∈ s.held → fd ∈ s'.held)

theorem keeps_same (hh : s'.held = s.held) (hk : s'.kernel.table = s.kernel.table) : s.Keeps s' :=
  ⟨le_of_eq hh, fun _ _ => by rw [hk], fun _ _ hfd _ => ⟨hk ▸ hfd, fun hm => hh ▸ hm⟩⟩

/-- A worker goes on with the same descriptor, and counts. -/
theorem keeps_setWorker {i : Fin n} {x : Worker} (hx : x.held = (s.worker i).held)
    (hw : s'.worker = (s.setWorker i x).worker) (ha : s'.acceptor = s.acceptor) (hp : s'.pending = s.pending)
    (hk : s'.kernel.table = s.kernel.table) : s.Keeps s' := by
  refine keeps_same ?_ hk
  rw [← held_setWorker_eq hx, held, hw, ha, hp]
  rfl

theorem Owned.keeps_closed (h : s.Owned) {fds : List Fd} (hh : s.held = s'.held + fds)
    (hk : s'.kernel = s.kernel.close fds) : s.Keeps s' := by
  refine ⟨by rw [hh]; exact Multiset.le_add_right _ _, by rw [hk]; exact table_close (hh ▸ h.nodup), ?_⟩
  intro fd o hfd _
  rw [hk] at hfd
  simp only [Kernel.close] at hfd
  split at hfd
  · cases hfd
  · next hnot =>
    refine ⟨hfd, fun hm => ?_⟩
    rw [hh, Multiset.mem_add] at hm
    exact hm.resolve_right hnot

/-- **Descriptors.**  A step takes none, or a free number for a new connection. -/
theorem Owned.step_cases (h : s.Owned) (hs : Step maxPendingConnections s s') :
    s.Keeps s' ∨ ∃ fd, s.kernel.table fd = none ∧ s'.held = fd ::ₘ s.held ∧
      s'.kernel = s.kernel.allocate fd true := by
  cases hs with
  | accept fd hc hfd =>
    refine .inr ⟨fd, hfd, ?_, rfl⟩
    rw [← Multiset.singleton_add]
    simp only [held, hc, Acceptor.held, zero_add, add_assoc]
  | poll hc _ | acceptNothing hc | refuse hc _ | observePeak hc | reject hc | storeStop hc | scan hc
  | join hc _ | again hc =>
    exact .inl (keeps_same (by simp [held, hc, Acceptor.held, shutdownActiveConnections]) rfl)
  | leave hc => rcases hc with hc | hc <;> exact .inl (keeps_same (by simp [held, hc, Acceptor.held]) rfl)
  | enqueue hc _ _ =>
    refine .inl (keeps_same ?_ rfl)
    simp [held, hc, Acceptor.held, ← Multiset.coe_add, add_comm]
  | closeRejected hc =>
    refine .inl (h.keeps_closed ?_ rfl)
    simp [held, hc, Acceptor.held, add_comm, add_assoc]
  | clear hc =>
    refine .inl (h.keeps_closed ?_ rfl)
    simp [held, hc, Acceptor.held, add_comm]
  | pop hw hp =>
    refine .inl (keeps_same ?_ rfl)
    simp only [held, setWorker, hp, add_assoc]
    rw [sum_pop rfl rfl hw]
  | exit hw _ _ | cancel hw _ | register hw _ | deregister _ hw | complete hw | fail hw =>
    exact .inl (keeps_setWorker (by rw [hw]; rfl) rfl rfl rfl rfl)
  | @close i client hw =>
    refine .inl (@Owned.keeps_closed _ _ _ h [client] ?_ rfl)
    have := held_setWorker s i .waiting
    rw [hw] at this
    exact (this.trans (add_zero _)).symm
  | requestStop | requestScan _ => exact .inl (keeps_same rfl rfl)
  | openOther fd hfd =>
    refine .inl ⟨le_rfl, fun fd' hm => Function.update_of_ne ?_ _ _, fun fd' o hfd' ho => ?_⟩
    · rintro rfl
      obtain ⟨o, ho, -⟩ := h.conn _ hm
      rw [hfd] at ho
      cases ho
    · by_cases he : fd' = fd
      · subst he
        cases (Function.update_self ..).symm.trans hfd'
        cases ho
      · exact ⟨(Function.update_of_ne he _ _).symm.trans hfd', id⟩
  | closeOther hfd hconn =>
    refine .inl ⟨le_rfl, fun fd' hm => if_neg ?_, fun fd' o hfd' ho => ?_⟩
    · rw [List.mem_singleton]
      rintro rfl
      obtain ⟨o, ho, hconn'⟩ := h.conn _ hm
      rw [hfd] at ho
      cases ho
      rw [hconn] at hconn'
      cases hconn'
    · simp only [Kernel.close] at hfd'
      split at hfd'
      · cases hfd'
      · exact ⟨hfd', id⟩

theorem Owned.not_held (h : s.Owned) {fd : Fd} (hfd : s.kernel.table fd = none) : fd ∉ s.held := fun hm => by
  obtain ⟨o, ho, -⟩ := h.conn fd hm
  rw [hfd] at ho
  cases ho

theorem owned_step (h : s.Owned) (hs : Step maxPendingConnections s s') : s'.Owned := by
  rcases h.step_cases hs with hkeeps | ⟨fd, hfd, hh, hk⟩
  · refine ⟨Multiset.nodup_of_le hkeeps.held_le h.nodup, fun fd hm => ?_, fun fd o hfd ho => ?_⟩
    · rw [hkeeps.same fd hm]
      exact h.conn fd (Multiset.mem_of_le hkeeps.held_le hm)
    · obtain ⟨hold, hstill⟩ := hkeeps.still fd o hfd ho
      exact hstill (h.owner fd o hold ho)
  · refine ⟨by rw [hh]; exact Multiset.nodup_cons.mpr ⟨h.not_held hfd, h.nodup⟩, fun fd' hm => ?_,
      fun fd' o hfd' ho => ?_⟩
    · rw [hk]
      rw [hh] at hm
      rcases Multiset.mem_cons.mp hm with rfl | hm
      · exact ⟨_, Function.update_self .., rfl⟩
      · have hne : fd' ≠ fd := fun he => h.not_held hfd (he ▸ hm)
        simp only [Kernel.allocate, Function.update_of_ne hne]
        exact h.conn fd' hm
    · rw [hh, Multiset.mem_cons]
      by_cases he : fd' = fd
      · exact .inl he
      · rw [hk] at hfd'
        simp only [Kernel.allocate, Function.update_of_ne he] at hfd'
        exact .inr (h.owner fd' o hfd' ho)

/-- A number that stays owned stands for the same. -/
theorem Owned.table_step (h : s.Owned) (hs : Step maxPendingConnections s s') {fd : Fd} (hm : fd ∈ s.held)
    (hm' : fd ∈ s'.held) : s'.kernel.table fd = s.kernel.table fd := by
  rcases h.step_cases hs with hkeeps | ⟨fd', hfd, -, hk⟩
  · exact hkeeps.same fd hm'
  · rw [hk]
    refine Function.update_of_ne ?_ _ _
    rintro rfl
    exact h.not_held hfd hm

/-! ## Counting -/

/-- Every accepted connection is counted as something or not settled yet; the queue is bounded; the
workers are told to stop, and do, before `run` returns. -/
structure Counted (maxPendingConnections : Nat) (s : Server n) : Prop where
  total : s.accepted = s.completed + s.failed + s.rejected + s.cancelled + s.unsettled.card
  bounded : s.pending.length ≤ maxPendingConnections
  cleared : s.workersStopping = true → s.pending = []
  joining : s.acceptor = .joining → s.workersStopping = true
  returned : s.acceptor = .returned → s.workersStopping = true ∧ ∀ i, s.worker i = .exited

theorem counted_start (kernel : Kernel) : (start n kernel).Counted maxPendingConnections :=
  ⟨by simp [start, unsettled, Acceptor.unsettled, Worker.unsettled], Nat.zero_le _, fun _ => rfl,
    fun h => (nomatch h), fun h => (nomatch h)⟩

/-- The number of connections that are not settled. -/
theorem card_unsettled (s : Server n) : s.unsettled.card =
    s.acceptor.unsettled.card + s.pending.length + ∑ i, (s.worker i).unsettled.card := by
  rw [unsettled, Multiset.card_add, Multiset.card_add, Multiset.coe_card, Multiset.card_sum]

/-- One worker moves from `x` to `y`. -/
theorem card_setWorker {i : Fin n} {x y : Worker} (h : s.worker i = x) :
    ∑ j, ((s.setWorker i y).worker j).unsettled.card + x.unsettled.card =
      ∑ j, (s.worker j).unsettled.card + y.unsettled.card := by
  subst h
  exact sum_update (fun x => x.unsettled.card) s.worker i y

/-- A worker that is not `exited` does not move after the return. -/
theorem Counted.running (h : s.Counted maxPendingConnections) {i : Fin n} (hw : s.worker i ≠ .exited) :
    s.acceptor ≠ .returned := fun hr => hw ((h.returned hr).2 i)

theorem counted_step (h : s.Counted maxPendingConnections) (hs : Step maxPendingConnections s s') :
    s'.Counted maxPendingConnections := by
  have ht := h.total
  rw [card_unsettled] at ht
  cases hs with
  | poll hc _ | acceptNothing hc | refuse hc _ | observePeak hc | storeStop hc | scan hc | again hc =>
    refine ⟨?_, h.bounded, h.cleared, fun hj => (nomatch hj), fun hj => (nomatch hj)⟩
    rw [card_unsettled]
    simpa [hc, Acceptor.unsettled, shutdownActiveConnections] using ht
  | leave hc =>
    refine ⟨?_, h.bounded, h.cleared, fun hj => (nomatch hj), fun hj => (nomatch hj)⟩
    rw [card_unsettled]
    rcases hc with hc | hc <;> simpa [hc, Acceptor.unsettled] using ht
  | accept fd hc _ =>
    refine ⟨?_, h.bounded, h.cleared, fun hj => (nomatch hj), fun hj => (nomatch hj)⟩
    rw [card_unsettled]
    simp [hc, Acceptor.unsettled] at ht ⊢
    omega
  | enqueue hc hw hp =>
    refine ⟨?_, ?_, fun hs => ?_, fun hj => (nomatch hj), fun hj => (nomatch hj)⟩
    · rw [card_unsettled]
      simp [hc, Acceptor.unsettled] at ht ⊢
      omega
    · rw [List.length_append]
      exact hp
    · exact absurd hs (by simp [hw])
  | reject hc =>
    refine ⟨?_, h.bounded, h.cleared, fun hj => (nomatch hj), fun hj => (nomatch hj)⟩
    rw [card_unsettled]
    simp [hc, Acceptor.unsettled] at ht ⊢
    omega
  | closeRejected hc =>
    refine ⟨?_, h.bounded, h.cleared, fun hj => (nomatch hj), fun hj => (nomatch hj)⟩
    rw [card_unsettled]
    simpa [hc, Acceptor.unsettled] using ht
  | clear hc =>
    refine ⟨?_, Nat.zero_le _, fun _ => rfl, fun _ => rfl, fun hj => (nomatch hj)⟩
    rw [card_unsettled]
    simp [hc, Acceptor.unsettled] at ht ⊢
    omega
  | join hc hw =>
    refine ⟨?_, h.bounded, h.cleared, fun hj => (nomatch hj), fun _ => ⟨h.joining hc, hw⟩⟩
    rw [card_unsettled]
    simpa [hc, Acceptor.unsettled] using ht
  | @pop i client rest hw hp =>
    have hsum := card_setWorker (y := .popped client) hw
    have hb := h.bounded
    rw [hp, List.length_cons] at ht hb
    refine ⟨?_, by simp only; omega, fun hs => ?_, h.joining, fun hr => ?_⟩
    · rw [card_unsettled]
      simp only [Worker.unsettled, Multiset.card_zero, Multiset.card_singleton, setWorker] at hsum ht ⊢
      omega
    · exact absurd (h.cleared hs) (by simp [hp])
    · exact absurd hr (h.running (i := i) (by simp [hw]))
  | @exit i hw _ _ =>
    have hsum := card_setWorker (y := .exited) hw
    refine ⟨?_, h.bounded, h.cleared, h.joining, fun hr => absurd hr (h.running (i := i) (by simp [hw]))⟩
    rw [card_unsettled]
    simp only [Worker.unsettled, Multiset.card_zero, setWorker] at hsum ht ⊢
    omega
  | @cancel i client hw _ | @complete i client hw | @fail i client hw =>
    have hsum := card_setWorker (y := .closing client) hw
    refine ⟨?_, h.bounded, h.cleared, h.joining, fun hr => absurd hr (h.running (i := i) (by simp [hw]))⟩
    rw [card_unsettled]
    simp only [Worker.unsettled, Multiset.card_zero, Multiset.card_singleton, setWorker] at hsum ht ⊢
    omega
  | @register i client hw _ =>
    have hsum := card_setWorker (y := .serving client) hw
    refine ⟨?_, h.bounded, h.cleared, h.joining, fun hr => absurd hr (h.running (i := i) (by simp [hw]))⟩
    rw [card_unsettled]
    simp only [Worker.unsettled, Multiset.card_singleton, setWorker] at hsum ht ⊢
    omega
  | @deregister i client ok hw =>
    have hsum := card_setWorker (y := .finished client ok) hw
    refine ⟨?_, h.bounded, h.cleared, h.joining, fun hr => absurd hr (h.running (i := i) (by simp [hw]))⟩
    rw [card_unsettled]
    simp only [Worker.unsettled, Multiset.card_singleton, setWorker] at hsum ht ⊢
    omega
  | @close i client hw =>
    have hsum := card_setWorker (y := .waiting) hw
    refine ⟨?_, h.bounded, h.cleared, h.joining, fun hr => absurd hr (h.running (i := i) (by simp [hw]))⟩
    rw [card_unsettled]
    simp only [Worker.unsettled, Multiset.card_zero, setWorker] at hsum ht ⊢
    omega
  | requestStop | requestScan _ | openOther _ _ | closeOther _ _ =>
    exact ⟨h.total, h.bounded, h.cleared, h.joining, h.returned⟩

/-! ## Sessions -/

theorem mem_held_worker {i : Fin n} {fd : Fd} (h : fd ∈ (s.worker i).held) : fd ∈ s.held := by
  rw [held, Multiset.mem_add]
  exact .inr (Multiset.mem_sum.mpr ⟨i, Finset.mem_univ i, h⟩)

theorem mem_held_of_serving {i : Fin n} {fd : Fd} (h : s.worker i = .serving fd) : fd ∈ (s.worker i).held := by
  rw [h]
  exact Multiset.mem_singleton_self fd

theorem mem_held_serving {i : Fin n} {fd : Fd} (h : s.worker i = .serving fd) : fd ∈ s.held :=
  mem_held_worker (mem_held_of_serving h)

/-- A descriptor has one owner among the workers. -/
theorem Owned.unique (h : s.Owned) {i j : Fin n} {fd : Fd} (hi : fd ∈ (s.worker i).held)
    (hj : fd ∈ (s.worker j).held) : i = j := by
  by_contra hne
  have hle := Multiset.nodup_iff_count_le_one.mp h.nodup fd
  have hsum : (s.worker i).held.count fd + (s.worker j).held.count fd ≤ ∑ k, (s.worker k).held.count fd :=
    Finset.add_le_sum (f := fun k => (s.worker k).held.count fd) (fun _ _ => Nat.zero_le _)
      (Finset.mem_univ i) (Finset.mem_univ j) hne
  have h1 := Multiset.count_pos.mpr hi
  have h2 := Multiset.count_pos.mpr hj
  rw [held, Multiset.count_add, Multiset.count_sum'] at hle
  omega

/-- The registered descriptors are those of the sessions, what was shut down is a connection, and
after stopping has begun every session was shut down. -/
structure Sessions (s : Server n) : Prop where
  active : ∀ fd, fd ∈ s.activeConnections ↔ ∃ i, s.worker i = .serving fd
  reached : ∀ fd o, (fd, o) ∈ s.kernel.shutdowns → ∃ x, o = some x ∧ x.connection = true
  stopped : s.activeStopping = true → ∀ i fd, s.worker i = .serving fd →
    ∃ o, s.kernel.table fd = some o ∧ (fd, some o) ∈ s.kernel.shutdowns

/-- A step that leaves the sessions alone. -/
theorem Sessions.same (h : s.Sessions) (ho : s.Owned) (hs : Step maxPendingConnections s s')
    (ha : s'.activeConnections = s.activeConnections)
    (hw : ∀ i fd, s'.worker i = .serving fd ↔ s.worker i = .serving fd)
    (hst : s'.activeStopping = s.activeStopping) (hk : s'.kernel.shutdowns = s.kernel.shutdowns) :
    s'.Sessions := by
  refine ⟨fun fd => ?_, fun fd o hm => ?_, fun hst' i fd hi => ?_⟩
  · rw [ha, h.active fd]
    exact exists_congr fun i => (hw i fd).symm
  · exact h.reached fd o (hk ▸ hm)
  · have hi' := (hw i fd).mp hi
    rw [ho.table_step hs (mem_held_serving hi') (mem_held_serving hi), hk]
    exact h.stopped (hst ▸ hst') i fd hi'

theorem serving_setWorker {i : Fin n} {x : Worker} (h : ∀ fd, s.worker i ≠ .serving fd)
    (hx : ∀ fd, x ≠ .serving fd) (j : Fin n) (fd : Fd) :
    (s.setWorker i x).worker j = .serving fd ↔ s.worker j = .serving fd := by
  by_cases hj : j = i
  · subst hj
    simp [setWorker, hx, h]
  · simp [setWorker, hj]

/-- `shutdown_active_connections` reaches the sessions. -/
theorem Sessions.scanned (h : s.Sessions) (ho : s.Owned) : s.shutdownActiveConnections.Sessions := by
  refine ⟨h.active, fun fd o hm => ?_, fun _ i fd hi => ?_⟩
  · rcases Multiset.mem_add.mp hm with hm | hm
    · exact h.reached fd o hm
    · obtain ⟨fd', hfd, he⟩ := Multiset.mem_map.mp hm
      obtain ⟨i, hi⟩ := (h.active fd').mp hfd
      obtain ⟨x, hx, hconn⟩ := ho.conn fd' (mem_held_serving hi)
      exact ⟨x, (Prod.mk.inj he).2.symm.trans hx, hconn⟩
  · obtain ⟨x, hx, -⟩ := ho.conn fd (mem_held_serving (s := s) hi)
    refine ⟨x, hx, Multiset.mem_add.mpr (.inr (Multiset.mem_map.mpr ⟨fd, ?_, by rw [hx]⟩))⟩
    exact (h.active fd).mpr ⟨i, hi⟩

theorem sessions_step (h : s.Sessions) (ho : s.Owned) (hs : Step maxPendingConnections s s') : s'.Sessions := by
  have hs' := hs
  cases hs with
  | poll _ _ | leave _ | accept _ _ _ | acceptNothing _ | enqueue _ _ _ | refuse _ _ | observePeak _
  | reject _ | closeRejected _ | storeStop _ | clear _ | join _ _ | again _ | requestStop
  | openOther _ _ | closeOther _ _ =>
    exact h.same ho hs' rfl (fun _ _ => .rfl) rfl rfl
  | scan _ | requestScan _ => exact ⟨(h.scanned ho).active, (h.scanned ho).reached, (h.scanned ho).stopped⟩
  | pop hw _ | exit hw _ _ | cancel hw _ | complete hw | fail hw | close hw =>
    exact h.same ho hs' rfl (serving_setWorker (by simp [hw]) (by simp)) rfl rfl
  | @register i client hw ha =>
    refine ⟨fun fd => ?_, h.reached, fun hst => absurd hst (by simp [setWorker, ha])⟩
    rw [Finset.mem_insert, h.active fd]
    constructor
    · rintro (rfl | ⟨j, hj⟩)
      · exact ⟨i, by simp [setWorker]⟩
      · have hne : j ≠ i := fun he => by rw [he, hw] at hj; cases hj
        exact ⟨j, by simpa [setWorker, hne] using hj⟩
    · rintro ⟨j, hj⟩
      by_cases hji : j = i
      · subst hji
        simp only [setWorker, Function.update_self, Worker.serving.injEq] at hj
        exact .inl hj.symm
      · exact .inr ⟨j, by simpa [setWorker, hji] using hj⟩
  | @deregister i client ok hw =>
    have hserving : ∀ j fd, (s.setWorker i (.finished client ok)).worker j = .serving fd ↔
        j ≠ i ∧ s.worker j = .serving fd := by
      intro j fd
      by_cases hji : j = i <;> simp [setWorker, hji]
    refine ⟨fun fd => ?_, h.reached, fun hst j fd hj => h.stopped hst j fd ((hserving j fd).mp hj).2⟩
    rw [Finset.mem_erase, h.active fd]
    constructor
    · rintro ⟨hne, j, hj⟩
      refine ⟨j, (hserving j fd).mpr ⟨fun he => hne ?_, hj⟩⟩
      rw [he, hw] at hj
      exact (Worker.serving.inj hj).symm
    · rintro ⟨j, hj⟩
      obtain ⟨hji, hjs⟩ := (hserving j fd).mp hj
      refine ⟨?_, j, hjs⟩
      rintro rfl
      exact hji (ho.unique (mem_held_of_serving hjs) (mem_held_of_serving hw))

theorem sessions_start {kernel : Kernel} (hs : kernel.shutdowns = 0) : (start n kernel).Sessions :=
  ⟨fun fd => by simp [start], fun fd o hm => by simp [start, hs] at hm, fun h => (nomatch h)⟩

end Server

/-! ## Whole runs -/

section Runs
variable {n maxPendingConnections : Nat} {past : List (Server n)} {s : Server n}

open Server

theorem Run.owned (h : Run n maxPendingConnections past s) : s.Owned := by
  induction h with
  | start kernel hk _ => exact owned_start hk
  | step _ hs ih => exact owned_step ih hs

theorem Run.counted (h : Run n maxPendingConnections past s) : s.Counted maxPendingConnections := by
  induction h with
  | start kernel _ _ => exact counted_start kernel
  | step _ hs ih => exact counted_step ih hs

theorem Run.sessions (h : Run n maxPendingConnections past s) : s.Sessions := by
  induction h with
  | start kernel _ hs => exact sessions_start hs
  | step h hs ih => exact sessions_step ih h.owned hs

/-- The deepest the queue has been. -/
def deepest (past : List (Server n)) : Nat := (past.map fun s => s.pending.length).foldr max 0

/-- The depth that is still to be observed. -/
def Acceptor.depth : Acceptor → Nat
  | enqueued depth => depth
  | _ => 0

/-- The peak is the deepest the queue has been, up to the depth still to be observed. -/
theorem Run.peak (h : Run n maxPendingConnections past s) :
    deepest past = max s.peakPending s.acceptor.depth ∧ s.pending.length ≤ deepest past := by
  induction h with
  | start kernel _ _ => exact ⟨rfl, Nat.le_refl _⟩
  | @step past s s' h hs ih =>
    obtain ⟨hp, hle⟩ := ih
    have hd : ∀ s' : Server n, deepest (s' :: past) = max s'.pending.length (deepest past) := fun _ => rfl
    have keep : ∀ s' : Server n, s'.pending.length ≤ s.pending.length →
        max s'.peakPending s'.acceptor.depth = max s.peakPending s.acceptor.depth →
        deepest (s' :: past) = max s'.peakPending s'.acceptor.depth ∧
          s'.pending.length ≤ deepest (s' :: past) := by
      intro s' h1 h2
      rw [hd, h2]
      omega
    cases hs with
    | poll hc _ | accept _ hc _ | acceptNothing hc | refuse hc _ | reject hc | closeRejected hc
    | storeStop hc | scan hc | join hc _ | again hc =>
      exact keep _ (Nat.le_refl _) (by simp [hc, Acceptor.depth, shutdownActiveConnections])
    | leave hc => rcases hc with hc | hc <;> exact keep _ (Nat.le_refl _) (by simp [hc, Acceptor.depth])
    | enqueue hc _ _ =>
      rw [hc] at hp
      simp only [hd, hp, Acceptor.depth, List.length_append, List.length_singleton]
      omega
    | observePeak hc =>
      rw [hc] at hp
      simp only [hd, hp, Acceptor.depth] at hle ⊢
      omega
    | clear hc => exact keep _ (Nat.zero_le _) (by simp [hc, Acceptor.depth])
    | pop _ hq => exact keep _ (by rw [hq]; exact Nat.le_succ _) rfl
    | exit _ _ _ | cancel _ _ | register _ _ | deregister _ _ | complete _ | fail _ | close _ | requestStop
    | requestScan _ | openOther _ _ | closeOther _ _ => exact keep _ (Nat.le_refl _) rfl

theorem deepest_le (h : Run n maxPendingConnections past s) : deepest past ≤ maxPendingConnections := by
  induction h with
  | start kernel _ _ => exact Nat.zero_le _
  | @step past s s' h hs ih => exact Nat.max_le.mpr ⟨(counted_step h.counted hs).bounded, ih⟩

/-- No descriptor is open. -/
def emptyKernel : Kernel :=
  ⟨fun _ => none, 0, 0, fun _ _ h => (nomatch h), fun _ _ h => absurd h (Multiset.notMem_zero _)⟩

/-- A run in which stopping begins while a session is served. -/
theorem sampleSession : ∃ past s, Run 1 1 past s ∧ s.activeStopping = true ∧ s.acceptor = .polling ∧
    s.worker 0 = .serving 5 :=
  ⟨_, _, ((((((((Run.start emptyKernel (fun _ _ h => (nomatch h)) rfl).step (.poll rfl rfl)).step
    (.accept 5 rfl rfl)).step (.enqueue rfl rfl Nat.one_pos)).step (.observePeak rfl)).step
    (.pop (i := 0) rfl rfl)).step (.register (i := 0) rfl rfl)).step .requestStop).step (.requestScan rfl),
    rfl, rfl, rfl⟩

/-- Such a run, to its end. -/
theorem sampleReturned : ∃ past s, Run 1 1 past s ∧ s.acceptor = .returned := by
  obtain ⟨past, s, h, -, ha, hw⟩ := sampleSession
  have h1 := h.step (.deregister (i := 0) false hw)
  have h2 := h1.step (@Step.fail _ _ _ 0 5 rfl)
  have h3 := h2.step (@Step.close _ _ _ 0 5 rfl)
  have h4 := (((h3.step (.leave (.inl ha))).step (.storeStop rfl)).step (.scan rfl)).step (.clear rfl)
  have h5 := h4.step (.exit (i := 0) rfl rfl rfl)
  exact ⟨_, _, h5.step (.join rfl fun i => by rw [Subsingleton.elim i 0]; rfl), rfl⟩

/-- **Accounting.**  In every state of every run, an accepted connection is counted exactly once, or
is still in the queue or with a thread; no descriptor has two owners; the queue and its peak are
bounded.  When `run` has returned nothing is left over, and the peak is the deepest the queue was. -/
theorem connections_accounted (h : Run n maxPendingConnections past s) :
    s.accepted = s.completed + s.failed + s.rejected + s.cancelled + s.unsettled.card ∧
      s.held.Nodup ∧ s.unsettled ≤ s.held ∧ s.pending.length ≤ maxPendingConnections ∧
      s.peakPending ≤ maxPendingConnections ∧
      (s.acceptor = .returned →
        s.accepted = s.completed + s.failed + s.rejected + s.cancelled ∧ s.peakPending = deepest past) := by
  have hc := h.counted
  obtain ⟨hp, -⟩ := h.peak
  have hmax := deepest_le h
  refine ⟨hc.total, h.owned.nodup, ?_, hc.bounded, by omega, fun hr => ?_⟩
  · refine add_le_add (add_le_add ?_ le_rfl) (Finset.sum_le_sum fun i _ => ?_)
    · cases s.acceptor <;> simp [Acceptor.held, Acceptor.unsettled]
    · cases s.worker i <;> simp [Worker.held, Worker.unsettled]
  · obtain ⟨hw, hex⟩ := hc.returned hr
    have hzero : s.unsettled.card = 0 := by
      rw [card_unsettled, hr, hc.cleared hw]
      simp [Acceptor.unsettled, hex, Worker.unsettled]
    have ht := hc.total
    have hdepth : s.acceptor.depth = 0 := by rw [hr]; rfl
    exact ⟨by omega, by omega⟩

theorem connections_accounted_sample : ∃ past : List (Server 1), ∃ s : Server 1,
    s.acceptor = .returned ∧
    s.accepted = s.completed + s.failed + s.rejected + s.cancelled ∧ s.peakPending = deepest past := by
  obtain ⟨past, s, h, hr⟩ := sampleReturned
  exact ⟨past, s, hr, (connections_accounted h).2.2.2.2.2 hr⟩

theorem activeStopping_step {s s' : Server n} (h : s.activeStopping = true)
    (hs : Step maxPendingConnections s s') : s'.activeStopping = true := by
  cases hs with
  | scan _ | requestScan _ => rfl
  | _ => exact h

theorem activeStopping_reach {s s' : Server n} (h : s.activeStopping = true)
    (hr : Relation.ReflTransGen (Step maxPendingConnections) s s') : s'.activeStopping = true := by
  induction hr with
  | refl => exact h
  | tail _ hs ih => exact activeStopping_step ih hs

/-- After stopping has begun a session that is being served was being served before. -/
theorem serving_step {s s' : Server n} (h : s.activeStopping = true) (hs : Step maxPendingConnections s s')
    {i : Fin n} {fd : Fd} (hi : s'.worker i = .serving fd) : s.worker i = .serving fd := by
  have key : ∀ (j : Fin n) (x : Worker), (∀ fd, x ≠ .serving fd) →
      (s.setWorker j x).worker i = .serving fd → s.worker i = .serving fd := by
    intro j x hx he
    by_cases hj : i = j
    · subst hj
      rw [setWorker_self] at he
      exact absurd he (hx fd)
    · rwa [setWorker_ne _ _ hj] at he
  cases hs with
  | register _ ha => rw [h] at ha; cases ha
  | pop _ _ | exit _ _ _ | cancel _ _ | deregister _ _ | complete _ | fail _ | close _ =>
    exact key _ _ (by simp) hi
  | _ => exact hi

/-- What a step shuts down are the registered descriptors. -/
theorem shutdowns_step {s s' : Server n} (hs : Step maxPendingConnections s s') :
    s'.kernel.shutdowns = s.kernel.shutdowns ∨ s'.kernel = s.kernel.shutdown s.activeConnections := by
  cases hs with
  | scan _ | requestScan _ => exact .inr rfl
  | _ => exact .inl rfl

/-- **Shutdown.**  In every state of every run, the registered descriptors are those of the sessions;
each is open, stands for a connection, and has one owner; `shutdown` is applied to no others.  After
stopping has begun, every session has been shut down and no session begins. -/
theorem shutdown_exact (h : Run n maxPendingConnections past s) :
    (∀ fd, fd ∈ s.activeConnections ↔ ∃ i, s.worker i = .serving fd) ∧
      (∀ fd ∈ s.activeConnections, s.held.count fd = 1 ∧ (∃! i, fd ∈ (s.worker i).held) ∧
        ∃ o, s.kernel.table fd = some o ∧ o.connection = true) ∧
      (∀ s', Step maxPendingConnections s s' → ∃ fds : Multiset Fd,
        s'.kernel.shutdowns = s.kernel.shutdowns + fds.map (fun fd => (fd, s.kernel.table fd)) ∧
        ∀ fd ∈ fds, ∃ i, s.worker i = .serving fd) ∧
      (s.activeStopping = true →
        (∀ i fd, s.worker i = .serving fd →
          ∃ o, s.kernel.table fd = some o ∧ (fd, some o) ∈ s.kernel.shutdowns) ∧
        ∀ s' s'' i fd, Relation.ReflTransGen (Step maxPendingConnections) s s' →
          Step maxPendingConnections s' s'' → s''.worker i = .serving fd → s'.worker i = .serving fd) := by
  have hses := h.sessions
  refine ⟨hses.active, fun fd hfd => ?_, fun s' hs => ?_, fun hst => ⟨hses.stopped hst, ?_⟩⟩
  · obtain ⟨i, hi⟩ := (hses.active fd).mp hfd
    have hm := mem_held_serving hi
    refine ⟨Multiset.count_eq_one_of_mem h.owned.nodup hm, ⟨i, mem_held_of_serving hi, fun j hj => ?_⟩,
      h.owned.conn fd hm⟩
    exact h.owned.unique hj (mem_held_of_serving hi)
  · rcases shutdowns_step hs with he | he
    · exact ⟨0, by simp [he], by simp⟩
    · exact ⟨s.activeConnections.val, by rw [he]; rfl, fun fd hm => (hses.active fd).mp hm⟩
  · intro s' s'' i fd hreach hs hi
    exact serving_step (activeStopping_reach hst hreach) hs hi

theorem shutdown_exact_sample : ∃ s : Server 1, s.worker 0 = .serving 5 ∧
    ∃ o, s.kernel.table 5 = some o ∧ (5, some o) ∈ s.kernel.shutdowns := by
  obtain ⟨past, s, h, hst, -, hw⟩ := sampleSession
  exact ⟨s, hw, ((shutdown_exact h).2.2.2 hst).1 0 5 hw⟩

end Runs

end SyncWire.ConcurrentServer
