import SyncWire.Authentication
import SyncWire.TcpSocket

/-!
# Starting and running the server (`concurrent_server.cpp`)

Any number of threads may call `start`, `run` and `request_stop` on one server, in any order
and at the same time.  The listener, the epoll descriptor and the vector of workers have no
mutex of their own; only the three flags of the life cycle do.  A state has the position
of every thread in `start` or `run` (`Place`) and the members of the server (`Shared`); a
step is one section under `lifecycle_mutex`, one system call or one access to a member.
The sockets of accepted connections belong to the pool of `ConcurrentServer`, not to
`start` and `run`, and are not among the descriptors counted here.

The whole argument is one table, `Place.Holds`: what a thread at a place knows of the
members.  A thread that enters `start` or `run` finds nobody else inside (`Move.keeps`), and
while it is inside nobody else changes anything it knows but `stop_requested`
(`Move.bounces`).

* `bodies_exclusive`: at most one thread is inside.
* `descriptors_balanced`: calls are made on open descriptors, and nothing is leaked.
-/

namespace SyncWire.Lifecycle

open Effect Posix Net

/-! ## The members -/

def kMaximumWorkerCount : Nat := 256
def kMaximumPendingConnections : Nat := 65536
def kMaximumEpollTimeoutMs : Int := 60000

structure ConcurrentServerConfig where
  bindAddress : List UInt8 := bytesOf "127.0.0.1"
  port : UInt16 := 4040
  destinationRoot : List UInt8 := bytesOf "received"
  authenticationSecret : List UInt8
  workerCount : Nat := 4
  maxPendingConnections : Nat := 64
  backlog : Int := 128
  epollTimeoutMs : Int := 100

def validConfig (config : ConcurrentServerConfig) : Bool :=
  decide (config.bindAddress ≠ []) && decide (config.destinationRoot ≠ []) &&
    Authentication.isValidAuthenticationSecret config.authenticationSecret &&
    decide (config.workerCount > 0) && decide (config.workerCount ≤ kMaximumWorkerCount) &&
    decide (config.maxPendingConnections > 0) &&
    decide (config.maxPendingConnections ≤ kMaximumPendingConnections) &&
    decide (config.backlog > 0) && decide (config.epollTimeoutMs > 0) &&
    decide (config.epollTimeoutMs ≤ kMaximumEpollTimeoutMs)

inductive ConcurrentServerStatus
  | success | invalidConfiguration | alreadyStarted | notStarted | alreadyRunning | listenerError
  | epollCreateError | epollControlError | epollWaitError | acceptError | workerStartError
deriving DecidableEq

structure ConcurrentServerResult where
  status : ConcurrentServerStatus := .success
  tcpError : Option TcpError := none
  systemError : Nat := 0
deriving DecidableEq

def listenerFailed (error : TcpError) : ConcurrentServerResult :=
  { status := .listenerError, tcpError := some error, systemError := error.systemError }

structure Shared where
  startAttempted : Bool := false
  started : Bool := false
  running : Bool := false
  stopRequested : Bool := false
  listener : Option Fd := none
  epoll : Option Fd := none
  boundPort : UInt16 := 0
  /-- threads in the vector -/
  workers : Nat := 0
  /-- the descriptors that `start` opens; accepted sockets are not among them -/
  fds : List Fd := []
  /-- a call of `run` has come to its end (not a member) -/
  finished : Bool := false

/-- `UniqueFd::reset` -/
def reset (member : Option Fd) (fds : List Fd) : List Fd :=
  match member with
  | some fd => fds.erase fd
  | none => fds

/-- Where a thread is: what it does next. -/
inductive Place
  /-- in neither function -/
  | outside
  -- `start`
  | validate | listen | readPort | createEpoll | register
  | spawn (index : Nat)
  /-- a thread could not be created: `stop_workers` -/
  | abandon (result : ConcurrentServerResult) | joinAbandoned (result : ConcurrentServerResult)
  | dropEpoll (result : ConcurrentServerResult) | dropListener (result : ConcurrentServerResult)
  | publish
  -- `run`
  | loop | wait
  | handle (events : List Fd) | accept (events : List Fd)
  /-- `finish` -/
  | stopWorkers (result : ConcurrentServerResult) | join (result : ConcurrentServerResult)
  | closeListener (result : ConcurrentServerResult) | closeEpoll (result : ConcurrentServerResult)
  | leave (result : ConcurrentServerResult)
  | returned (result : ConcurrentServerResult)

/-- One step of a thread that is in `start` or `run`, or calls one of them. -/
inductive Move (config : ConcurrentServerConfig) : Place → Shared → Place → Shared → Prop
  -- `start`
  | alreadyStarted {m : Shared} (h : m.startAttempted = true) :
      Move config .outside m (.returned { status := .alreadyStarted }) m
  | attempt {m : Shared} (h : m.startAttempted = false) :
      Move config .outside m .validate { m with startAttempted := true }
  | invalid {m : Shared} (h : validConfig config = false) :
      Move config .validate m (.returned { status := .invalidConfiguration }) m
  | valid {m : Shared} (h : validConfig config = true) : Move config .validate m .listen m
  | listenFails {m : Shared} {error : TcpError} {fds : List Fd}
      (h : Reach table (listenIpv4 call config.bindAddress config.port config.backlog true, m.fds)
        (.pure (.error error), fds)) :
      Move config .listen m (.returned (listenerFailed error)) { m with fds }
  | listens {m : Shared} {fd : Fd} {fds : List Fd}
      (h : Reach table (listenIpv4 call config.bindAddress config.port config.backlog true, m.fds)
        (.pure (.ok fd), fds)) :
      Move config .listen m .readPort { m with fds, listener := some fd }
  | portFails {m : Shared} {fd : Fd} {error : TcpError} {fds : List Fd} (hl : m.listener = some fd)
      (h : Reach table (localPort call fd, m.fds) (.pure (.error error), fds)) :
      Move config .readPort m (.dropListener (listenerFailed error)) { m with fds }
  | portKnown {m : Shared} {fd : Fd} {port : UInt16} {fds : List Fd} (hl : m.listener = some fd)
      (h : Reach table (localPort call fd, m.fds) (.pure (.ok port), fds)) :
      Move config .readPort m .createEpoll { m with fds, boundPort := port }
  | epollFails {m : Shared} (systemError : Nat) :
      Move config .createEpoll m (.dropListener { status := .epollCreateError, systemError }) m
  | epollOpens {m : Shared} {fd : Fd} (h : fd ∉ m.fds) :
      Move config .createEpoll m .register { m with fds := fd :: m.fds, epoll := some fd }
  | registerFails {m : Shared} (systemError : Nat) :
      Move config .register m (.dropEpoll { status := .epollControlError, systemError }) m
  | registers {m : Shared} : Move config .register m (.spawn 0) m
  | spawns {m : Shared} {index : Nat} (h : index < config.workerCount) :
      Move config (.spawn index) m (.spawn (index + 1)) { m with workers := m.workers + 1 }
  | spawnFails {m : Shared} {index : Nat} (systemError : Nat) (h : index < config.workerCount) :
      Move config (.spawn index) m (.abandon { status := .workerStartError, systemError }) m
  | allSpawned {m : Shared} {index : Nat} (h : ¬ index < config.workerCount) :
    Move config (.spawn index) m .publish m
  | abandons {m : Shared} {result : ConcurrentServerResult} :
      Move config (.abandon result) m (.joinAbandoned result) { m with stopRequested := true }
  | joinsAbandoned {m : Shared} {result : ConcurrentServerResult} :
      Move config (.joinAbandoned result) m (.dropEpoll result) { m with workers := 0 }
  | dropsEpoll {m : Shared} {result : ConcurrentServerResult} :
      Move config (.dropEpoll result) m (.dropListener result) { m with fds := reset m.epoll m.fds, epoll := none }
  | dropsListener {m : Shared} {result : ConcurrentServerResult} :
      Move config (.dropListener result) m (.returned result)
        { m with fds := reset m.listener m.fds, listener := none }
  | publishes {m : Shared} : Move config .publish m (.returned {}) { m with started := true }
  -- `run`
  | notStarted {m : Shared} (h : m.started = false) :
      Move config .outside m (.returned { status := .notStarted }) m
  | alreadyRunning {m : Shared} (h : m.started = true) (hr : m.running = true) :
      Move config .outside m (.returned { status := .alreadyRunning }) m
  | runs {m : Shared} (h : m.started = true) (hr : m.running = false) :
      Move config .outside m .loop { m with running := true }
  /-- stop was requested, or `external_stop` says so -/
  | stops {m : Shared} : Move config .loop m (.stopWorkers {}) m
  | goesOn {m : Shared} (h : m.stopRequested = false) : Move config .loop m .wait m
  | interrupted {m : Shared} : Move config .wait m .loop m
  | waitFails {m : Shared} (systemError : Nat) :
      Move config .wait m (.stopWorkers { status := .epollWaitError, systemError }) m
  | ready {m : Shared} (events : List Fd) : Move config .wait m (.handle events) m
  | allHandled {m : Shared} : Move config (.handle []) m .loop m
  | skips {m : Shared} {fd : Fd} {events : List Fd} (h : some fd ≠ m.listener) :
      Move config (.handle (fd :: events)) m (.handle events) m
  | readable {m : Shared} {fd : Fd} {events : List Fd} (h : some fd = m.listener) :
      Move config (.handle (fd :: events)) m (.accept events) m
  /-- the accepted sockets go to the pool, see `ConcurrentServer.Step` -/
  | accepts {m : Shared} {events : List Fd} : Move config (.accept events) m (.handle events) m
  | acceptFails {m : Shared} {events : List Fd} (systemError : Nat) :
      Move config (.accept events) m (.stopWorkers { status := .acceptError, systemError }) m
  | stopsWorkers {m : Shared} {result : ConcurrentServerResult} :
      Move config (.stopWorkers result) m (.join result) { m with stopRequested := true }
  | joins {m : Shared} {result : ConcurrentServerResult} :
      Move config (.join result) m (.closeListener result) { m with workers := 0 }
  | closesListener {m : Shared} {result : ConcurrentServerResult} :
      Move config (.closeListener result) m (.closeEpoll result)
        { m with fds := reset m.listener m.fds, listener := none }
  | closesEpoll {m : Shared} {result : ConcurrentServerResult} :
      Move config (.closeEpoll result) m (.leave result) { m with fds := reset m.epoll m.fds, epoll := none }
  | leaves {m : Shared} {result : ConcurrentServerResult} :
      Move config (.leave result) m (.returned result) { m with running := false, finished := true }
  /-- back in the caller -/
  | returns {m : Shared} {result : ConcurrentServerResult} : Move config (.returned result) m .outside m

structure Server (ι : Type) where
  shared : Shared
  place : ι → Place

/-- A server that was just constructed. -/
def Server.fresh (ι : Type) : Server ι := ⟨{}, fun _ => .outside⟩

inductive Step {ι : Type} [DecidableEq ι] (config : ConcurrentServerConfig) : Server ι → Server ι → Prop
  | move {s : Server ι} (i : ι) {p : Place} {m : Shared} (h : Move config (s.place i) s.shared p m) :
      Step config s ⟨m, Function.update s.place i p⟩
  /-- `request_stop`, in any thread -/
  | requestStop {s : Server ι} : Step config s { s with shared := { s.shared with stopRequested := true } }

inductive Reachable {ι : Type} [DecidableEq ι] (config : ConcurrentServerConfig) : Server ι → Prop
  | fresh : Reachable config (.fresh ι)
  | step {s s' : Server ι} (h : Reachable config s) (hs : Step config s s') : Reachable config s'

/-! ## What a thread knows -/

namespace Shared

/-- Nothing is open and no worker exists. -/
def Bare (m : Shared) : Prop := m.listener = none ∧ m.epoll = none ∧ m.workers = 0 ∧ m.fds = []

/-- Only the listener is open. -/
def Listening (m : Shared) : Prop :=
  ∃ l, m.listener = some l ∧ m.epoll = none ∧ m.workers = 0 ∧ m.fds = [l]

/-- Exactly the two descriptors are open, and there are `n` workers. -/
def Open (n : Nat) (m : Shared) : Prop :=
  ∃ l e, m.listener = some l ∧ m.epoll = some e ∧ m.workers = n ∧ m.fds = [e, l] ∧ e ≠ l

/-- Ready to serve, or through with it for good. -/
def Settled (n : Nat) (m : Shared) : Prop :=
  m.Open n ∧ m.finished = false ∨ m.Bare ∧ m.stopRequested = true

def Starting (m : Shared) : Prop :=
  m.startAttempted = true ∧ m.started = false ∧ m.running = false ∧ m.finished = false

def Running (m : Shared) : Prop := m.startAttempted = true ∧ m.started = true ∧ m.running = true

/-- Nobody is inside. -/
def Vacant (n : Nat) (m : Shared) : Prop :=
  m.running = false ∧
    (m.started = false ∧ m.finished = false ∧ m.Bare ∨ m.startAttempted = true ∧ m.started = true ∧ m.Settled n)

end Shared

namespace Place

/-- Between the two sections of `start` or of `run`, where the members are used without a mutex. -/
def inside : Place → Bool
  | outside | returned _ => false
  | _ => true

/-- The body of `run`. -/
def inRun : Place → Bool
  | loop | wait | handle _ | accept _ | stopWorkers _ | join _ | closeListener _ | closeEpoll _ | leave _ => true
  | _ => false

/-- In the loop of `run`, at a call on one of the descriptors or between two of them. -/
def serving : Place → Bool
  | wait | handle _ | accept _ => true
  | _ => false

/-- What a thread at this place knows, if nobody else is inside. -/
def Holds (n : Nat) : Place → Shared → Prop
  | outside, m | returned _, m => m.Vacant n
  | validate, m | listen, m => m.Starting ∧ m.Bare
  | readPort, m | createEpoll, m | dropListener _, m => m.Starting ∧ m.Listening
  | register, m | dropEpoll _, m => m.Starting ∧ m.Open 0
  | spawn index, m => m.Starting ∧ m.Open index ∧ index ≤ n
  | abandon _, m | joinAbandoned _, m => m.Starting ∧ ∃ k, m.Open k
  | publish, m => m.Starting ∧ m.Open n
  | loop, m | stopWorkers _, m => m.Running ∧ m.Settled n
  | wait, m | handle _, m | accept _, m => m.Running ∧ m.Open n ∧ m.finished = false
  | join _, m => m.Running ∧ m.stopRequested = true ∧ (m.Open n ∨ m.Bare)
  | closeListener _, m => m.Running ∧ m.stopRequested = true ∧ (m.Open 0 ∨ m.Bare)
  | closeEpoll _, m => m.Running ∧ m.stopRequested = true ∧ m.listener = none ∧ m.workers = 0 ∧
      (m.epoll = none ∧ m.fds = [] ∨ ∃ e, m.epoll = some e ∧ m.fds = [e])
  | leave _, m => m.Running ∧ m.stopRequested = true ∧ m.Bare

end Place

section
variable {config : ConcurrentServerConfig} {p p' : Place} {m m' : Shared}

theorem Shared.Starting.vacant {n : Nat} (h : m.Starting) (hb : m.Bare) : m.Vacant n :=
  ⟨h.2.2.1, .inl ⟨h.2.1, h.2.2.2, hb⟩⟩

theorem Shared.Settled.stop {n : Nat} (h : m.Settled n) : Shared.Settled n { m with stopRequested := true } :=
  h.imp id fun h => ⟨h.1, rfl⟩

theorem Shared.Vacant.stop {n : Nat} (h : m.Vacant n) : Shared.Vacant n { m with stopRequested := true } :=
  ⟨h.1, h.2.imp id fun h => ⟨h.1, h.2.1, h.2.2.stop⟩⟩

theorem Shared.Listening.mem_fds (h : m.Listening) {fd : Fd} (hl : m.listener = some fd) : fd ∈ m.fds := by
  obtain ⟨l, hl', -, -, hfds⟩ := h
  rw [hfds, List.mem_singleton]
  exact Option.some.inj (hl.symm.trans hl')

theorem Shared.Open.join {n : Nat} (h : m.Open n) : Shared.Open 0 { m with workers := 0 } := by
  obtain ⟨l, e, hl, he, -, hfds⟩ := h
  exact ⟨l, e, hl, he, rfl, hfds⟩

/-- **One step of the thread that is inside, or enters.** -/
theorem Move.keeps (h : Move config p m p' m') (hp : p.Holds config.workerCount m) :
    p'.Holds config.workerCount m' := by
  cases h with
  | alreadyStarted h => exact hp
  | attempt h =>
    obtain ⟨hrun, ⟨hs, hf, hb⟩ | ⟨ha, -⟩⟩ := hp
    · exact ⟨⟨rfl, hs, hrun, hf⟩, hb⟩
    · exact absurd (h.symm.trans ha) Bool.false_ne_true
  | invalid h => exact hp.1.vacant hp.2
  | valid h => exact hp
  | listenFails h =>
    obtain rfl := ((listenIpv4_opened _ _ _ _).result h).1 _ rfl
    exact hp.1.vacant hp.2
  | @listens _ fd fds h =>
    obtain ⟨-, rfl⟩ := ((listenIpv4_opened _ _ _ _).result h).2 fd rfl
    obtain ⟨hs, -, he, hw, hfds⟩ := hp
    exact ⟨hs, fd, rfl, he, hw, congrArg (fd :: ·) hfds⟩
  | portFails hl h =>
    obtain ⟨hs, hlistening⟩ := hp
    obtain rfl := (localPort_keeps (hlistening.mem_fds hl)).result h
    exact ⟨hs, hlistening⟩
  | portKnown hl h =>
    obtain ⟨hs, hlistening⟩ := hp
    obtain rfl := (localPort_keeps (hlistening.mem_fds hl)).result h
    exact ⟨hs, hlistening⟩
  | epollFails e => exact hp
  | @epollOpens _ fd h =>
    obtain ⟨hs, l, hl, -, hw, hfds⟩ := hp
    rw [hfds, List.mem_singleton] at h
    exact ⟨hs, l, fd, hl, rfl, hw, congrArg (fd :: ·) hfds, h⟩
  | registerFails e => exact hp
  | registers => exact ⟨hp.1, hp.2, Nat.zero_le _⟩
  | spawns h =>
    obtain ⟨hs, ⟨l, e, hl, he, hw, hfds⟩, -⟩ := hp
    exact ⟨hs, ⟨l, e, hl, he, congrArg (· + 1) hw, hfds⟩, h⟩
  | spawnFails e h => exact ⟨hp.1, _, hp.2.1⟩
  | allSpawned h =>
    obtain ⟨hs, hopen, hle⟩ := hp
    exact ⟨hs, Nat.le_antisymm hle (Nat.not_lt.mp h) ▸ hopen⟩
  | abandons => exact hp
  | joinsAbandoned =>
    obtain ⟨hs, k, hopen⟩ := hp
    exact ⟨hs, hopen.join⟩
  | dropsEpoll =>
    obtain ⟨hs, l, e, hl, he, hw, hfds, -⟩ := hp
    exact ⟨hs, l, hl, rfl, hw, by simp [reset, he, hfds]⟩
  | dropsListener =>
    obtain ⟨⟨-, hs, hr, hf⟩, l, hl, he, hw, hfds⟩ := hp
    exact ⟨hr, .inl ⟨hs, hf, rfl, he, hw, by simp [reset, hl, hfds]⟩⟩
  | publishes =>
    obtain ⟨⟨ha, -, hr, hf⟩, hopen⟩ := hp
    exact ⟨hr, .inr ⟨ha, rfl, .inl ⟨hopen, hf⟩⟩⟩
  | notStarted h => exact hp
  | alreadyRunning h hr => exact hp
  | runs h hr =>
    obtain ⟨-, ⟨hs, -⟩ | ⟨ha, -, hsettled⟩⟩ := hp
    · exact absurd (hs.symm.trans h) Bool.false_ne_true
    · exact ⟨⟨ha, h, rfl⟩, hsettled⟩
  | stops => exact hp
  | goesOn h =>
    obtain ⟨hr, hopen | ⟨-, hstop⟩⟩ := hp
    · exact ⟨hr, hopen⟩
    · exact absurd (h.symm.trans hstop) Bool.false_ne_true
  | interrupted => exact ⟨hp.1, .inl hp.2⟩
  | waitFails e => exact ⟨hp.1, .inl hp.2⟩
  | ready events => exact hp
  | allHandled => exact ⟨hp.1, .inl hp.2⟩
  | skips h => exact hp
  | readable h => exact hp
  | accepts => exact hp
  | acceptFails e => exact ⟨hp.1, .inl hp.2⟩
  | stopsWorkers => exact ⟨hp.1, rfl, hp.2.imp And.left And.left⟩
  | joins =>
    obtain ⟨hr, hstop, hopen | ⟨hl, he, -, hfds⟩⟩ := hp
    · exact ⟨hr, hstop, .inl hopen.join⟩
    · exact ⟨hr, hstop, .inr ⟨hl, he, rfl, hfds⟩⟩
  | closesListener =>
    obtain ⟨hr, hstop, ⟨l, e, hl, he, hw, hfds, hne⟩ | ⟨hl, he, hw, hfds⟩⟩ := hp
    · exact ⟨hr, hstop, rfl, hw, .inr ⟨e, he, by simp [reset, hl, hfds, List.erase_cons_tail, hne]⟩⟩
    · exact ⟨hr, hstop, rfl, hw, .inl ⟨he, by simp [reset, hl, hfds]⟩⟩
  | closesEpoll =>
    obtain ⟨hr, hstop, hl, hw, ⟨he, hfds⟩ | ⟨e, he, hfds⟩⟩ := hp
    · exact ⟨hr, hstop, hl, rfl, hw, by simp [reset, he, hfds]⟩
    · exact ⟨hr, hstop, hl, rfl, hw, by simp [reset, he, hfds]⟩
  | leaves =>
    obtain ⟨⟨ha, hs, -⟩, hstop, hbare⟩ := hp
    exact ⟨rfl, .inr ⟨ha, hs, .inr ⟨hbare, hstop⟩⟩⟩
  | returns => exact hp

/-- What the flags say while somebody is inside. -/
theorem Place.Holds.flags {n : Nat} (h : p.Holds n m) (hp : p.inside = true) :
    m.startAttempted = true ∧ m.started = p.inRun ∧ m.running = p.inRun := by
  cases p <;> first
    | exact absurd hp Bool.false_ne_true
    | exact ⟨h.1.1, h.1.2.1, h.1.2.2.1⟩
    | exact ⟨h.1.1, h.1.2.1, h.1.2.2⟩

/-- Any other thread is sent away. -/
theorem Move.bounces (h : Move config p m p' m') (hp : p.inside = false) {q : Place} (hq : q.inside = true)
    (hm : q.Holds config.workerCount m) : p'.inside = false ∧ m' = m := by
  obtain ⟨ha, hs, hrun⟩ := hm.flags hq
  cases h with
  | alreadyStarted h => exact ⟨rfl, rfl⟩
  | attempt h => exact absurd (h.symm.trans ha) Bool.false_ne_true
  | notStarted h => exact ⟨rfl, rfl⟩
  | alreadyRunning h hr => exact ⟨rfl, rfl⟩
  | runs h hr => exact absurd (hr.symm.trans (hrun.trans (hs.symm.trans h))) Bool.false_ne_true
  | returns => exact ⟨rfl, rfl⟩
  | _ => exact absurd hp.symm Bool.false_ne_true

theorem Place.holds_iff_vacant {n : Nat} (hp : p.inside = false) : p.Holds n m ↔ m.Vacant n := by
  cases p <;> first | exact Iff.rfl | exact absurd hp.symm Bool.false_ne_true

/-- `request_stop` takes nothing away. -/
theorem Place.Holds.stop {n : Nat} (h : p.Holds n m) : p.Holds n { m with stopRequested := true } := by
  cases p with
  | outside => exact h.stop
  | returned result => exact h.stop
  | loop => exact ⟨h.1, h.2.stop⟩
  | stopWorkers result => exact ⟨h.1, h.2.stop⟩
  | join result => exact ⟨h.1, rfl, h.2.2⟩
  | closeListener result => exact ⟨h.1, rfl, h.2.2⟩
  | closeEpoll result => exact ⟨h.1, rfl, h.2.2⟩
  | leave result => exact ⟨h.1, rfl, h.2.2⟩
  | _ => exact h

end

/-! ## All threads -/

section
variable {ι : Type} [DecidableEq ι] {config : ConcurrentServerConfig} {s s' : Server ι}

/-- What every step keeps. -/
structure Sound (config : ConcurrentServerConfig) (s : Server ι) : Prop where
  exclusive : ∀ i j, (s.place i).inside = true → (s.place j).inside = true → i = j
  holds : ∀ i, (s.place i).inside = true → (s.place i).Holds config.workerCount s.shared
  vacant : (∀ i, (s.place i).inside = false) → s.shared.Vacant config.workerCount

theorem Sound.move (h : Sound config s) (i : ι) {p : Place} {m : Shared}
    (hm : Move config (s.place i) s.shared p m) : Sound config ⟨m, Function.update s.place i p⟩ := by
  by_cases hother : ∃ j, j ≠ i ∧ (s.place j).inside = true
  · -- somebody else is inside, and `i` is sent away
    obtain ⟨j, hji, hj⟩ := hother
    have hi : (s.place i).inside = false := by
      by_contra hi
      exact hji (h.exclusive j i hj (Bool.not_eq_false _ ▸ hi))
    obtain ⟨hp, rfl⟩ := hm.bounces hi hj (h.holds j hj)
    have hsame : ∀ k, (Function.update s.place i p k).inside = (s.place k).inside := fun k => by
      by_cases hk : k = i
      · rw [hk, Function.update_self, hp, hi]
      · rw [Function.update_of_ne hk]
    refine ⟨fun k l hk hl => ?_, fun k hk => ?_, fun hall => ?_⟩
    · exact h.exclusive k l ((hsame k).symm.trans hk) ((hsame l).symm.trans hl)
    · have hki : k ≠ i := by
        rintro rfl
        rw [hsame, hi] at hk
        cases hk
      rw [hsame] at hk
      simp only [Function.update_of_ne hki]
      exact h.holds k hk
    · exact absurd ((hsame j).symm.trans (hall j)) (by rw [hj]; exact Bool.noConfusion)
  · -- nobody else is inside, so `i` knows what its place says
    have hnone : ∀ j, j ≠ i → (s.place j).inside = false := fun j hj => by
      by_contra hin
      exact hother ⟨j, hj, Bool.not_eq_false _ ▸ hin⟩
    have hi : (s.place i).Holds config.workerCount s.shared := by
      cases hin : (s.place i).inside with
      | true => exact h.holds i hin
      | false =>
        refine (Place.holds_iff_vacant hin).mpr (h.vacant fun j => ?_)
        by_cases hj : j = i
        · rw [hj, hin]
        · exact hnone j hj
    have hp := hm.keeps hi
    have honly : ∀ k, (Function.update s.place i p k).inside = true → k = i := fun k hk => by
      by_contra hki
      rw [Function.update_of_ne hki, hnone k hki] at hk
      cases hk
    refine ⟨fun k l hk hl => (honly k hk).trans (honly l hl).symm, fun k hk => ?_, fun hall => ?_⟩
    · obtain rfl := honly k hk
      simp only [Function.update_self]
      exact hp
    · have hout := hall i
      simp only [Function.update_self] at hout
      exact (Place.holds_iff_vacant hout).mp hp

theorem Reachable.sound (h : Reachable config s) : Sound config s := by
  induction h with
  | fresh => exact ⟨fun i j hi => absurd hi Bool.false_ne_true, fun i hi => absurd hi Bool.false_ne_true,
      fun _ => ⟨rfl, .inl ⟨rfl, rfl, rfl, rfl, rfl, rfl⟩⟩⟩
  | step _ hs ih =>
    cases hs with
    | move i hm => exact ih.move i hm
    | requestStop => exact ⟨ih.exclusive, fun i hi => (ih.holds i hi).stop, fun hall => (ih.vacant hall).stop⟩

/-- **One at a time.**  Whoever calls what and in whatever order: at most one thread is in the body of `start` or
`run`, so the members they use without a mutex are never used by two threads at a time.  The body of `run` is
entered only after `start` has succeeded. -/
theorem bodies_exclusive (h : Reachable config s) {i j : ι} (hi : (s.place i).inside = true) :
    ((s.place j).inside = true → i = j) ∧ s.shared.startAttempted = true ∧
      s.shared.started = (s.place i).inRun ∧ s.shared.running = (s.place i).inRun :=
  ⟨h.sound.exclusive i j hi, (h.sound.holds i hi).flags hi⟩

/-- **Nothing leaks.**  In the loop of `run` the listener and the epoll descriptor are open, and with them all
workers run.  Whenever nobody is in `start` or `run` the server has exactly these two descriptors and all its
workers, or nothing: nothing if no call of `start` has succeeded, and nothing once a call of `run` has ended.  The
sockets of accepted connections are not counted here: `ConcurrentServer` closes them, and `Threads.stopping_ends`
says when none is left. -/
theorem descriptors_balanced (h : Reachable config s) :
    (∀ i, (s.place i).serving = true → s.shared.Open config.workerCount) ∧
      ((∀ i, (s.place i).inside = false) →
        (s.shared.Bare ∨ s.shared.started = true ∧ s.shared.Open config.workerCount) ∧
          (s.shared.started = false ∨ s.shared.finished = true → s.shared.Bare)) := by
  constructor
  · intro i hi
    have hin : (s.place i).inside = true := by
      generalize s.place i = p at hi ⊢
      cases p <;> first | rfl | exact absurd hi Bool.false_ne_true
    have hholds := h.sound.holds i hin
    generalize s.place i = p at hi hholds
    cases p <;> first | exact hholds.2.1 | exact absurd hi Bool.false_ne_true
  · intro hall
    obtain ⟨-, ⟨-, -, hbare⟩ | ⟨-, hs, ⟨hopen, hf⟩ | ⟨hbare, -⟩⟩⟩ := h.sound.vacant hall
    · exact ⟨.inl hbare, fun _ => hbare⟩
    · refine ⟨.inr ⟨hs, hopen⟩, ?_⟩
      rintro (hs' | hf')
      · exact absurd (hs'.symm.trans hs) Bool.false_ne_true
      · exact absurd (hf.symm.trans hf') Bool.false_ne_true
    · exact ⟨.inl hbare, fun _ => hbare⟩

/-- A thread goes on while the others stand still. -/
theorem Reachable.alone (h : Reachable config s) (i : ι) {c : Place × Shared}
    (hr : Relation.ReflTransGen (fun c d : Place × Shared => Move config c.1 c.2 d.1 d.2)
      (s.place i, s.shared) c) :
    Reachable config ⟨c.2, Function.update s.place i c.1⟩ := by
  induction hr with
  | refl => rwa [Function.update_eq_self]
  | tail _ hm ih =>
    have hs := ih.step (.move i (by simpa only [Function.update_self] using hm))
    simpa only [Function.update_idem] using hs

end

/-! One thread starts the server and is in the loop of `run`; another one has tried to start it too. -/

def sampleConfig : ConcurrentServerConfig := { authenticationSecret := List.replicate 16 0, workerCount := 1 }

def sampleShared : Shared :=
  { startAttempted := true, started := true, running := true, listener := some 3, epoll := some 4,
    boundPort := 4040
    workers := 1, fds := [4, 3] }

/-- Every call succeeds. -/
def driveListen : (c : TcpCall) → List Fd → c.Res
  | .socket _, _ => .ok 3
  | .setReuseAddress _, _ => .ok ()
  | .inetPton _, _ => .ok true
  | .bind .., _ => .ok ()
  | .listen .., _ => .ok ()
  | .connect .., _ => .ok ()
  | .accept4 _, _ => .ok 5
  | .getsockname _, _ => .ok 4040
  | .close _, _ => ()

theorem sampleListen : Reach table (listenIpv4 call sampleConfig.bindAddress sampleConfig.port
      sampleConfig.backlog true,
    []) (.pure (.ok 3), [3]) :=
  reach_runWith (S := tcpSig) TcpCall.perform driveListen (fun _ _ _ he => he) 5 _

theorem samplePort : Reach table (localPort call 3, [3]) (.pure (.ok 4040), [3]) :=
  reach_runWith (S := tcpSig) TcpCall.perform driveListen (fun _ _ _ he => he) 1 _

theorem sampleMoves : Relation.ReflTransGen
    (fun c d : Place × Shared => Move sampleConfig c.1 c.2 d.1 d.2) (.outside, {}) (.wait, sampleShared) := by
  refine .head (Move.attempt rfl) (b := (.validate, _)) ?_
  refine .head (Move.valid (by decide)) (b := (.listen, _)) ?_
  refine .head (Move.listens sampleListen) (b := (.readPort, _)) ?_
  refine .head (Move.portKnown rfl samplePort) (b := (.createEpoll, _)) ?_
  refine .head (@Move.epollOpens sampleConfig _ 4 (by decide)) (b := (.register, _)) ?_
  refine .head Move.registers (b := (.spawn 0, _)) ?_
  refine .head (Move.spawns (by decide)) (b := (.spawn 1, _)) ?_
  refine .head (Move.allSpawned (by decide)) (b := (.publish, _)) ?_
  refine .head Move.publishes (b := (.returned {}, _)) ?_
  refine .head Move.returns (b := (.outside, _)) ?_
  refine .head (Move.runs rfl rfl) (b := (.loop, _)) ?_
  exact .single (Move.goesOn rfl)

def sampleStarted : Server Bool :=
  ⟨sampleShared, Function.update (Function.update (fun _ => .outside) true .wait) false
    (.returned { status := .alreadyStarted })⟩

theorem sampleStarted_reachable : Reachable sampleConfig sampleStarted := by
  have hrunning := Reachable.fresh.alone true sampleMoves
  exact hrunning.alone false (c := (.returned { status := .alreadyStarted }, sampleShared))
    (.single (Move.alreadyStarted rfl))

theorem sampleStarted_exclusive : (sampleStarted.place true).inside = true ∧
    ((sampleStarted.place false).inside = true → true = false) ∧ sampleStarted.shared.startAttempted = true ∧
      sampleStarted.shared.started = true ∧ sampleStarted.shared.running = true :=
  ⟨rfl, bodies_exclusive sampleStarted_reachable rfl⟩

theorem sampleStarted_balanced : (sampleStarted.place true).serving = true ∧ sampleStarted.shared.Open 1 :=
  ⟨rfl, (descriptors_balanced sampleStarted_reachable).1 true rfl⟩

end SyncWire.Lifecycle
