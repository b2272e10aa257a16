import SyncWire.Lib.Calls
import SyncWire.Lib.Prog

/-!
# TCP sockets (`tcp_socket.cpp`)

The functions are written for any program type that can make the calls (`tcp`); the client
and the server use them in their own.  What a call does to the open descriptors is
`TcpCall.perform`; a call on a descriptor that is not open, or that closes one, is not
defined there, so a program that cannot get stuck makes no such call.
-/

namespace SyncWire.Net

open Effect Posix

inductive TcpOperation
  | createSocket | setSocketOption | parseAddress | bind | listen | accept | connect | getSocketName
deriving DecidableEq

structure TcpError where
  operation : TcpOperation
  systemError : Nat
deriving DecidableEq

inductive TcpCall
  | socket (nonblocking : Bool)
  | setReuseAddress (fd : Fd)
  | inetPton (address : List UInt8)
  | bind (fd : Fd) (address : List UInt8) (port : UInt16)
  | listen (fd : Fd) (backlog : Int)
  | connect (fd : Fd) (address : List UInt8) (port : UInt16)
  | accept4 (fd : Fd)
  | getsockname (fd : Fd)
  | close (fd : Fd)

@[reducible] def TcpCall.Res : TcpCall → Type
  | socket _ | accept4 _ => Except Nat Fd
  -- 1 or 0, or a negative result
  | inetPton _ => Except Nat Bool
  | getsockname _ => Except Nat UInt16
  | close _ => Unit
  | _ => Except Nat Unit

/-- The open descriptors after a call with a given answer. -/
def TcpCall.perform : (c : TcpCall) → List Fd → c.Res → Option (List Fd)
  | socket _, fds, .ok fd => if fd ∈ fds then none else some (fd :: fds)
  | socket _, fds, .error _ => some fds
  | accept4 listener, fds, .ok fd => if listener ∈ fds ∧ fd ∉ fds then some (fd :: fds) else none
  | accept4 listener, fds, .error _ => if listener ∈ fds then some fds else none
  | inetPton _, fds, _ => some fds
  | close fd, fds, _ => if fd ∈ fds then some (fds.erase fd) else none
  | setReuseAddress fd, fds, _ | bind fd _ _, fds, _ | listen fd _, fds, _ | connect fd _ _, fds, _
  | getsockname fd, fds, _ => if fd ∈ fds then some fds else none

section
variable {S : Sig} (tcp : (c : TcpCall) → Prog S c.Res)

/-- Return an error; the destructor of the `UniqueFd` closes the socket. -/
def closing (fd : Fd) (operation : TcpOperation) (systemError : Nat) : Prog S (Except TcpError Fd) := do
  tcp (.close fd)
  pure (.error { operation, systemError })

def listenIpv4 (address : List UInt8) (port : UInt16) (backlog : Int) (nonblocking : Bool) :
    Prog S (Except TcpError Fd) := do
  match ← tcp (.socket nonblocking) with
  | .error errno => pure (.error { operation := .createSocket, systemError := errno })
  | .ok listener =>
    match ← tcp (.setReuseAddress listener) with
    | .error errno => closing tcp listener .setSocketOption errno
    | .ok () =>
      match ← tcp (.inetPton address) with
      | .error errno => closing tcp listener .parseAddress errno
      | .ok false => closing tcp listener .parseAddress 0
      | .ok true =>
        match ← tcp (.bind listener address port) with
        | .error errno => closing tcp listener .bind errno
        | .ok () =>
          match ← tcp (.listen listener backlog) with
          | .error errno => closing tcp listener .listen errno
          | .ok () => pure (.ok listener)

def connectIpv4 (address : List UInt8) (port : UInt16) : Prog S (Except TcpError Fd) := do
  match ← tcp (.socket false) with
  | .error errno => pure (.error { operation := .createSocket, systemError := errno })
  | .ok socket =>
    match ← tcp (.inetPton address) with
    | .error errno => closing tcp socket .parseAddress errno
    | .ok false => closing tcp socket .parseAddress 0
    | .ok true =>
      match ← tcp (.connect socket address port) with
      | .error errno => closing tcp socket .connect errno
      | .ok () => pure (.ok socket)

def localPort (fd : Fd) : Prog S (Except TcpError UInt16) := do
  match ← tcp (.getsockname fd) with
  | .error errno => pure (.error { operation := .getSocketName, systemError := errno })
  | .ok port => pure (.ok port)

end

/-! ## The listener -/

abbrev tcpSig : Sig := ⟨TcpCall, TcpCall.Res⟩

/-- The calls of one thread, on the descriptors that are open. -/
def table : Sem tcpSig (List Fd) := fun c fds r fds' => c.perform fds r = some fds'

def call (c : TcpCall) : Prog tcpSig c.Res := Prog.call (S := tcpSig) c

section
variable {fds : List Fd}

/-- A new descriptor, or no change. -/
def Opened (fds : List Fd) (x : Except TcpError Fd) (fds' : List Fd) : Prop :=
  (∀ error, x = .error error → fds' = fds) ∧ ∀ fd, x = .ok fd → fd ∉ fds ∧ fds' = fd :: fds

theorem total_on {α : Type} {c : TcpCall} {k : c.Res → Prog tcpSig α} {Q : α → List Fd → Prop}
    (hc : ∀ r, c.perform fds r = some fds) (hex : Nonempty c.Res) (h : ∀ r, Total table (k r) fds Q) :
    Total table (call c >>= k) fds Q := by
  obtain ⟨r⟩ := hex
  refine total_bind (total_call ⟨r, fds, hc r⟩ fun r fds' hs => ?_)
  obtain rfl := Option.some.inj ((hc r).symm.trans hs)
  exact h r

theorem total_socket {α : Type} {nonblocking : Bool} {k : Except Nat Fd → Prog tcpSig α} {Q : α → List Fd → Prop}
    (herror : ∀ errno, Total table (k (.error errno)) fds Q)
    (hok : ∀ fd, fd ∉ fds → Total table (k (.ok fd)) (fd :: fds) Q) :
    Total table (call (.socket nonblocking) >>= k) fds Q := by
  refine total_bind (total_call ⟨.error 0, fds, rfl⟩ fun r fds' hs => ?_)
  cases r with
  | error errno =>
    obtain rfl : fds = fds' := Option.some.inj hs
    exact herror errno
  | ok fd =>
    have hfresh : fd ∉ fds ∧ some (fd :: fds) = some fds' := Option.ite_none_left_eq_some.mp hs
    obtain rfl := Option.some.inj hfresh.2
    exact hok fd hfresh.1

theorem closing_opened {fd : Fd} (operation : TcpOperation) (systemError : Nat) :
    Total table (closing call fd operation systemError) (fd :: fds) (Opened fds) := by
  have hclose : TcpCall.perform (.close fd) (fd :: fds) () = some fds := by simp [TcpCall.perform]
  refine total_bind (total_call ⟨(), fds, hclose⟩ fun r fds' hs => ?_)
  obtain rfl := Option.some.inj (hclose.symm.trans hs)
  exact total_pure ⟨fun _ _ => rfl, fun fd h => by cases h⟩

/-- `local_port` only looks at an open socket. -/
theorem localPort_keeps {fd : Fd} (hopen : fd ∈ fds) : Total table (localPort call fd) fds fun _ fds' =>
    fds' = fds := by
  refine total_on (fun _ => if_pos hopen) ⟨.ok 0⟩ fun r => ?_
  cases r <;> exact total_pure rfl

/-- `listen_ipv4` makes no call on a closed descriptor and, if it fails, leaves none open. -/
theorem listenIpv4_opened (address : List UInt8) (port : UInt16) (backlog : Int) (nonblocking : Bool) :
    Total table (listenIpv4 call address port backlog nonblocking) fds (Opened fds) := by
  refine total_socket (fun errno => total_pure ⟨fun _ _ => rfl, fun fd h => by cases h⟩) fun fd hfresh => ?_
  have hopen : fd ∈ fd :: fds := List.mem_cons_self
  refine total_on (fun _ => if_pos hopen) ⟨.ok ()⟩ fun r => ?_
  cases r with
  | error errno => exact closing_opened _ _
  | ok _ =>
    refine total_on (fun _ => rfl) ⟨.ok true⟩ fun r => ?_
    cases r with
    | error errno => exact closing_opened _ _
    | ok parsed =>
      cases parsed with
      | false => exact closing_opened _ _
      | true =>
        refine total_on (fun _ => if_pos hopen) ⟨.ok ()⟩ fun r => ?_
        cases r with
        | error errno => exact closing_opened _ _
        | ok _ =>
          refine total_on (fun _ => if_pos hopen) ⟨.ok ()⟩ fun r => ?_
          cases r with
          | error errno => exact closing_opened _ _
          | ok _ =>
            refine total_pure ⟨fun error h => (by cases h), fun fd' h => ?_⟩
            cases h
            exact ⟨hfresh, rfl⟩

end

end SyncWire.Net
