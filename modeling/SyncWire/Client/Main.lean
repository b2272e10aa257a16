import SyncWire.Lib.Extend
import SyncWire.Client.Arguments
import SyncWire.Client.Attempt
import SyncWire.TcpSocket

/-!
# The client (`syncwire-client/main.cpp`)

`main` reads its arguments and then makes up to `retries + 1` attempts: each connects,
authenticates and carries out the command.  An attempt that failed on the transport is
followed by a pause and another one, each pause twice as long as the one before.

A state of the process (`Process`) is its host, its open sockets, what was exchanged on the
connection that is open and on those that were closed, and what it printed and how long it
slept.  Every operation may fail in every way the host permits, and the server may send
anything; but every call is answered, and nothing is said of a server that stays silent.

* `main_exits`: `main` returns, with what code, after which attempts, and what it leaves behind.
-/

namespace SyncWire.ClientMain

open Wire Effect Posix Posix.Fs Net

/-! ## The program -/

inductive ClientOp
  | tcp (c : TcpCall)
  | sleepFor (milliseconds : Nat)
  | print (text : String)

@[reducible] def ClientOp.Res : ClientOp → Type
  | tcp c => c.Res
  | sleepFor _ => Unit
  | print _ => Unit

abbrev clientSig : Sig := extend net.sig ⟨ClientOp, ClientOp.Res⟩

abbrev Cli := Prog clientSig

def tcp (c : TcpCall) : Cli c.Res := Prog.call (S := clientSig) (.also (.tcp c))

def sleepFor (milliseconds : Nat) : Cli Unit := Prog.call (S := clientSig) (.also (.sleepFor milliseconds))

def print (text : String) : Cli Unit := Prog.call (S := clientSig) (.also (.print text))

section
variable (pathOf : Text → Path)

/-- The command; `pathOf` is how the process resolves a path it was given. -/
def Task.command : Task → Command
  | ping => .ping
  | upload sourcePath remoteName => .upload (pathOf sourcePath) remoteName.1
  | sync sourceDirectory => .sync (pathOf sourceDirectory)

/-- `run_once` -/
def attempt (a : Arguments) : Cli Attempt := do
  match ← connectIpv4 tcp a.address a.port.1 with
  | .error _ => pure { code := 1, retryable := true }
  | .ok socket =>
    let result ← (runOnce (a.task.command pathOf) a.secret.1 a.requestId.1).lift
    -- the destructor of `socket`
    tcp (.close socket)
    pure result

def retryMessage (attempt retries : Nat) : String :=
  "Transport interrupted; reconnecting (retry " ++ toString (attempt + 1) ++ "/" ++ toString retries ++ ")\n"

/-- The loop over the attempts. -/
def attempts (a : Arguments) : Cli Nat :=
  Prog.iter (fun i : Nat =>
    if i ≤ a.retries then do
      let result ← attempt pathOf a
      if result.code = 0 ∨ result.retryable = false ∨ i = a.retries then pure (.inr result.code)
      else do
        print (retryMessage i a.retries)
        sleepFor (100 <<< i)
        pure (.inl (i + 1))
    else pure (.inr 1)) 0

def main (argv : List Text) (psk : Option Text) : Cli Nat :=
  match parseArguments argv psk with
  | .error refusal => do
    print refusal.message
    pure 2
  | .ok a => attempts pathOf a

end

/-! ## The process -/

structure Process where
  host : Host
  sockets : List Fd := []
  /-- the frames and calls since the connection was made, if there is one -/
  connection : Option (List net.Event) := none
  /-- those of the connections that were closed -/
  past : List (List net.Event) := []
  slept : List Nat := []
  printed : List String := []

namespace Process

/-- Carry out an operation with a given answer. -/
def perform (cr : Crypto) : (o : clientSig.Op) → Process → clientSig.Res o → Option Process
  | .act o, w, r =>
    match w.connection with
    | none => none
    | some log => (Effect.perform (exec cr) o ⟨w.host, log⟩ r).map fun v =>
        { w with host := v.host, connection := some v.log }
  | .also (.tcp (.connect fd address port)), w, .ok () =>
    (TcpCall.perform (.connect fd address port) w.sockets (.ok ())).map fun sockets =>
      { w with sockets, connection := some [] }
  | .also (.tcp (.close fd)), w, r =>
    (TcpCall.perform (.close fd) w.sockets r).map fun sockets =>
      { w with sockets, connection := none, past := w.past ++ w.connection.toList }
  | .also (.tcp c), w, r => (c.perform w.sockets r).map fun sockets => { w with sockets }
  | .also (.sleepFor milliseconds), w, _ => some { w with slept := w.slept ++ [milliseconds] }
  | .also (.print text), w, _ => some { w with printed := w.printed ++ [text] }

end Process

/-- Anything may be answered that the host and the kernel can answer. -/
def process (cr : Crypto) : Sem clientSig Process := fun o w r w' => w.perform cr o r = some w'

/-! ## One attempt -/

section
variable {cr : Crypto} {w : Process}

/-- The process while it talks to the server: the rest of it is as in `w`. -/
def Talks (w v : Process) (u : World) : Prop := v = { w with host := u.host, connection := some u.log }

theorem agree_talks : Agree (inner (process cr)) (solo (exec cr) anyAnswer) (Talks w) where
  fwd := by
    rintro o v ⟨h, log⟩ r v' rfl hs
    obtain ⟨u, hu, rfl⟩ := Option.map_eq_some_iff.mp hs
    exact ⟨u, ⟨trivial, hu⟩, rfl⟩
  bwd := by
    rintro o v ⟨h, log⟩ r u rfl hs
    exact ⟨_, Option.map_eq_some_iff.mpr ⟨u, hs.2, rfl⟩⟩

theorem total_tcp {α : Type} {c : TcpCall} {k : c.Res → Cli α} {Q : α → Process → Prop}
    (hex : ∃ r w', process cr (.also (.tcp c)) w r w')
    (h : ∀ r w', process cr (.also (.tcp c)) w r w' → Total (process cr) (k r) w' Q) :
    Total (process cr) (tcp c >>= k) w Q := total_bind (total_call hex h)

theorem total_print {α : Type} {text : String} {k : Unit → Cli α} {Q : α → Process → Prop}
    (h : Total (process cr) (k ()) { w with printed := w.printed ++ [text] } Q) :
    Total (process cr) (print text >>= k) w Q := by
  refine total_bind (total_call ⟨(), _, rfl⟩ fun r v hv => ?_)
  obtain rfl := Option.some.inj hv
  exact h

theorem total_sleepFor {α : Type} {milliseconds : Nat} {k : Unit → Cli α} {Q : α → Process → Prop}
    (h : Total (process cr) (k ()) { w with slept := w.slept ++ [milliseconds] } Q) :
    Total (process cr) (sleepFor milliseconds >>= k) w Q := by
  refine total_bind (total_call ⟨(), _, rfl⟩ fun r v hv => ?_)
  obtain rfl := Option.some.inj hv
  exact h

theorem perform_close {fd : Fd} {rest : List Fd} (hs : w.sockets = fd :: rest) :
    w.perform cr (.also (.tcp (.close fd))) () =
      some { w with sockets := rest, connection := none, past := w.past ++ w.connection.toList } := by
  simp [Process.perform, TcpCall.perform, hs]

/-- A socket that is not connected goes without a trace. -/
theorem closing_total {fd : Fd} {rest : List Fd} (hs : w.sockets = fd :: rest) (hc : w.connection = none)
    (operation : TcpOperation) (systemError : Nat) :
    Total (process cr) (closing tcp fd operation systemError) w fun x w' =>
      x = .error ⟨operation, systemError⟩ ∧ w' = { w with sockets := rest } := by
  refine total_tcp ⟨(), _, perform_close hs⟩ fun r v hv => ?_
  obtain rfl := Option.some.inj ((perform_close hs).symm.trans hv)
  refine total_pure ⟨rfl, ?_⟩
  simp [hc]

/-- What `connect_ipv4` leaves: a new socket with a fresh connection, or nothing. -/
def Connected (w : Process) (x : Except TcpError Fd) (w' : Process) : Prop :=
  (∀ error, x = .error error → w' = w) ∧
    ∀ fd, x = .ok fd → fd ∉ w.sockets ∧ w' = { w with sockets := fd :: w.sockets, connection := some [] }

theorem connectIpv4_total (hc : w.connection = none) (address : Text) (port : UInt16) :
    Total (process cr) (connectIpv4 tcp address port) w (Connected w) := by
  refine total_tcp ⟨.error 0, w, rfl⟩ fun r v hv => ?_
  cases r with
  | error errno =>
    obtain rfl : w = v := Option.some.inj hv
    exact total_pure ⟨fun _ _ => rfl, fun fd h => by cases h⟩
  | ok fd =>
    obtain ⟨sockets, hsockets, rfl⟩ := Option.map_eq_some_iff.mp hv
    simp only [TcpCall.perform, Option.ite_none_left_eq_some] at hsockets
    obtain ⟨hfresh, hsockets⟩ := hsockets
    obtain rfl : fd :: w.sockets = sockets := Option.some.inj hsockets
    have hfail : ∀ operation errno, Total (process cr) (closing tcp fd operation errno)
        { w with sockets := fd :: w.sockets } (Connected w) := fun operation errno => by
      refine total_mono (closing_total (w := { w with sockets := fd :: w.sockets }) rfl hc operation errno)
        fun x w' hx => ?_
      obtain ⟨rfl, rfl⟩ := hx
      exact ⟨fun _ _ => rfl, fun fd h => by cases h⟩
    refine total_tcp ⟨.ok true, _, rfl⟩ fun r v hv => ?_
    obtain rfl := Option.some.inj hv
    cases r with
    | error errno => exact hfail _ _
    | ok parsed =>
      cases parsed with
      | false => exact hfail _ _
      | true =>
        have hopen : ∀ r : Except Nat Unit, TcpCall.perform (.connect fd address port) (fd :: w.sockets) r =
            some (fd :: w.sockets) := fun r => if_pos List.mem_cons_self
        have hconnect : Process.perform cr (.also (.tcp (.connect fd address port)))
            { w with sockets := fd :: w.sockets } (.ok ()) =
              some { w with sockets := fd :: w.sockets, connection := some [] } :=
          Option.map_eq_some_iff.mpr ⟨_, hopen _, rfl⟩
        refine total_tcp ⟨.ok (), _, hconnect⟩ fun r v hv => ?_
        cases r with
        | error errno =>
          obtain ⟨sockets, hsockets, rfl⟩ := Option.map_eq_some_iff.mp hv
          obtain rfl := Option.some.inj ((hopen _).symm.trans hsockets)
          exact hfail _ _
        | ok _ =>
          obtain rfl := Option.some.inj (hconnect.symm.trans hv)
          refine total_pure ⟨fun error h => (by cases h), fun fd' h => ?_⟩
          cases h
          exact ⟨hfresh, rfl⟩

end

/-! ## The attempts -/

/-- How an attempt went: no connection, or a session. -/
inductive Outcome
  | unreachable
  | served (log : List net.Event) (result : Attempt)

namespace Outcome

def result : Outcome → Attempt
  | unreachable => { code := 1, retryable := true }
  | served _ result => result

def log? : Outcome → Option (List net.Event)
  | unreachable => none
  | served log _ => some log

/-- A session is a run of `run_once` on a fresh connection, from this file system. -/
def Genuine (cr : Crypto) (command : Command) (a : Arguments) (fs : Fs) : Outcome → Prop
  | unreachable => True
  | served log result => ∃ host host' : Host, host.fs = fs ∧
      Reach (solo (exec cr) anyAnswer) (runOnce command a.secret.1 a.requestId.1, ⟨host, []⟩)
        (.pure result, ⟨host', log⟩)

/-- It failed, and may be repeated. -/
def Again (o : Outcome) : Prop := o.result.code ≠ 0 ∧ o.result.retryable = true

end Outcome

section
variable {cr : Crypto} {a : Arguments} {pathOf : Text → Path} {w : Process}

theorem attempt_total (hs : w.sockets = []) (hc : w.connection = none) :
    Total (process cr) (attempt pathOf a) w fun result w' => ∃ o : Outcome, o.result = result ∧
      o.Genuine cr (a.task.command pathOf) a w.host.fs ∧ ∃ host : Host, host.fs = w.host.fs ∧
        w' = { w with host, past := w.past ++ o.log?.toList } := by
  refine total_bind (total_mono (connectIpv4_total hc a.address a.port.1) fun x v hx => ?_)
  cases x with
  | error error =>
    obtain rfl := hx.1 error rfl
    exact total_pure ⟨.unreachable, rfl, trivial, v.host, rfl, by simp [Outcome.log?]⟩
  | ok socket =>
    obtain ⟨-, rfl⟩ := hx.2 socket rfl
    rw [hs]
    have hsession := (Session.runOnce_returns (a.task.command pathOf) a.secret.1 a.requestId.1 cr
      ⟨w.host, []⟩).and_safe (safe_self (solo (exec cr) anyAnswer) _ _)
    have hrun := total_lift (agree_talks.total (w := { w with sockets := [socket], connection := some [] })
      hsession (R := Talks { w with sockets := [socket] }) rfl)
    refine total_bind (total_mono hrun fun result v hv => ?_)
    obtain ⟨u, rfl, -, hreach⟩ := hv
    refine total_tcp ⟨(), _, perform_close rfl⟩ fun r v hv => ?_
    obtain rfl := Option.some.inj ((perform_close rfl).symm.trans hv)
    have hfs : u.host.fs = w.host.fs := reach_reading (Session.runOnce_reads _ _ _) hreach
    refine total_pure ⟨.served u.log result, rfl, ⟨w.host, u.host, rfl, hreach⟩, u.host, hfs, ?_⟩
    simp [Outcome.log?, hc]

/-- After some attempts. -/
structure Tried (cr : Crypto) (command : Command) (a : Arguments) (fs : Fs) (outcomes : List Outcome)
    (w : Process) : Prop where
  genuine : ∀ o ∈ outcomes, o.Genuine cr command a fs
  past : w.past = outcomes.filterMap Outcome.log?
  fs : w.host.fs = fs
  closed : w.sockets = [] ∧ w.connection = none

/-- At the end: all attempts but the last were worth repeating, and each was followed by a pause. -/
structure Exited (cr : Crypto) (command : Command) (a : Arguments) (fs : Fs) (failed : List Outcome)
    (last : Outcome) (code : Nat) (w : Process) : Prop extends Tried cr command a fs (failed ++ [last]) w where
  again : ∀ o ∈ failed, o.Again
  final : last.result.code = 0 ∨ last.result.retryable = false ∨ failed.length = a.retries
  code : code = last.result.code
  bound : failed.length ≤ a.retries
  slept : w.slept = (List.range failed.length).map fun i => 100 * 2 ^ i
  printed : w.printed = (List.range failed.length).map fun i => retryMessage i a.retries

/-- Before attempt `i`. -/
structure Ready (cr : Crypto) (command : Command) (a : Arguments) (fs : Fs) (i : Nat) (w : Process) : Prop where
  bound : i ≤ a.retries
  tried : ∃ failed, Tried cr command a fs failed w ∧ failed.length = i ∧ ∀ o ∈ failed, o.Again
  slept : w.slept = (List.range i).map fun i => 100 * 2 ^ i
  printed : w.printed = (List.range i).map fun i => retryMessage i a.retries

theorem Tried.attempt {command : Command} {fs : Fs} {failed : List Outcome} {o : Outcome} {host : Host}
    (h : Tried cr command a fs failed w) (ho : o.Genuine cr command a fs) (hfs : host.fs = fs) :
    Tried cr command a fs (failed ++ [o]) { w with host, past := w.past ++ o.log?.toList } where
  genuine := by
    intro o' ho'
    rcases List.mem_append.mp ho' with ho' | ho'
    · exact h.genuine o' ho'
    · rwa [List.mem_singleton.mp ho']
  past := by
    rw [List.filterMap_append, h.past]
    cases hlog : o.log? <;> simp [hlog]
  fs := hfs
  closed := h.closed

theorem attempts_total (hs : w.sockets = []) (hc : w.connection = none) (hpast : w.past = [])
    (hslept : w.slept = []) (hprinted : w.printed = []) :
    Total (process cr) (attempts pathOf a) w fun code w' =>
      ∃ failed last, Exited cr (a.task.command pathOf) a w.host.fs failed last code w' := by
  refine total_iter (Ready cr (a.task.command pathOf) a w.host.fs) (fun i _ => a.retries + 1 - i) ?_
    ⟨Nat.zero_le _, ⟨[], ⟨fun o ho => absurd ho List.not_mem_nil, hpast, rfl, hs, hc⟩, rfl,
      fun o ho => absurd ho List.not_mem_nil⟩, hslept, hprinted⟩
  rintro i v ⟨hbound, ⟨failed, htried, hlength, hagain⟩, hslept, hprinted⟩
  rw [if_pos hbound]
  refine total_bind (total_mono (attempt_total htried.closed.1 htried.closed.2) fun result v' hv => ?_)
  obtain ⟨o, rfl, hgenuine, host, hhost, rfl⟩ := hv
  rw [htried.fs] at hgenuine hhost
  have hnext := htried.attempt hgenuine hhost
  split
  · next hdone =>
    refine total_pure ⟨failed, o, hnext, hagain, ?_, rfl, ?_, ?_, ?_⟩
    · rwa [hlength]
    · rwa [hlength]
    · rw [hlength]; exact hslept
    · rw [hlength]; exact hprinted
  · next hdone =>
    simp only [not_or, Bool.not_eq_false] at hdone
    obtain ⟨hcode, hretry, hlast⟩ := hdone
    refine total_print (total_sleepFor (total_pure ⟨⟨?_, ⟨failed ++ [o], ?_, ?_, ?_⟩, ?_, ?_⟩, ?_⟩))
    · omega
    · exact ⟨hnext.genuine, hnext.past, hnext.fs, hnext.closed⟩
    · rw [List.length_append, hlength]
      rfl
    · intro o' ho'
      rcases List.mem_append.mp ho' with ho' | ho'
      · exact hagain o' ho'
      · rw [List.mem_singleton.mp ho']
        exact ⟨hcode, hretry⟩
    · rw [List.range_succ, List.map_append, hslept, Nat.shiftLeft_eq]
      rfl
    · rw [List.range_succ, List.map_append, hprinted]
      rfl
    · omega

/-- **The client**, provided every blocking call is answered: a server that accepts the connection and stays silent
is outside of the model, as the client sets no timeout.  Whatever the arguments and the answers of the host, the
network and the server: `main` returns, and on no path does it use a socket that is not open or talk without a
connection.  Refused arguments are reported and nothing else is done.  Otherwise there were at most `retries + 1`
attempts, all but the last of them worth repeating and followed by a pause, each twice as long as the one before;
the exit code is that of the last; no socket is left open and no file was touched. -/
theorem main_exits (cr : Crypto) (pathOf : Text → Path) (argv : List Text) (psk : Option Text) (host : Host) :
    Total (process cr) (main pathOf argv psk) { host := host } fun code w =>
      match parseArguments argv psk with
      | .error refusal => code = 2 ∧ w = { host := host, printed := [refusal.message] }
      | .ok a => ∃ failed last, Exited cr (a.task.command pathOf) a host.fs failed last code w := by
  unfold main
  cases parseArguments argv psk with
  | error refusal => exact total_print (total_pure ⟨rfl, rfl⟩)
  | ok a => exact attempts_total rfl rfl rfl rfl rfl

end

end SyncWire.ClientMain
