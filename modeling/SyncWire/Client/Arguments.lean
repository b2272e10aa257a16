import SyncWire.Lib.Decimal
import SyncWire.ClientSession

/-!
# The command line of the client (`syncwire-client/main.cpp`)

`parseArguments` is the first half of `main`: it takes the arguments and `SYNCWIRE_PSK`
apart, or says which message is printed before `main` returns 2.  What it accepts is valid
by type: a port and a request id that are not zero, at most five retries, a remote name
without separators and a secret of a permitted length.

* `parseArguments_render`: every such value can be written as a command line.
-/

namespace SyncWire.ClientMain

open Wire Authentication

abbrev Text := List UInt8

def parseUnsigned (width : Nat) (text : Text) : Option Nat :=
  match Decimal.fromChars width text with
  | some (value, []) => some value
  | _ => none

/-! ## What was asked for -/

abbrev RequestId := { id : UInt64 // id ≠ 0 }
abbrev Port := { port : UInt16 // port ≠ 0 }
abbrev RemoteName := { name : Text // isSafeRemoteFilename name = true }
abbrev Secret := { secret : Text // isValidAuthenticationSecret secret = true }

/-- The command, with its paths as they were given. -/
inductive Task
  | ping
  | upload (sourcePath : Text) (remoteName : RemoteName)
  | sync (sourceDirectory : Text)
deriving DecidableEq

structure Arguments where
  retries : Fin 6
  address : Text
  port : Port
  task : Task
  requestId : RequestId
  secret : Secret
deriving DecidableEq

/-- Why `main` returns 2. -/
inductive Refusal
  | usage | retries | port | requestId | remoteName | secret
deriving DecidableEq

/-- What it prints then. -/
def Refusal.message : Refusal → String
  | usage => "Usage:\n" ++
      "  syncwire-client <IPv4 address> <port> ping [request-id]\n" ++
      "  syncwire-client <IPv4 address> <port> upload <source-path> [remote-name] [request-id]\n" ++
      "  syncwire-client <IPv4 address> <port> sync <source-directory> [request-id]\n" ++
      "Append --retries <0-5> to retry transport failures (default: 2).\n"
  | retries => "Retries must be in the range 0-5\n"
  | port => "Port must be in the range 1-65535\n"
  | requestId => "Request ID must be nonzero\n"
  | remoteName => "Remote name must be a plain filename without path separators\n"
  | secret => "SYNCWIRE_PSK must contain 16-1024 bytes\n"

/-! ## The parser -/

theorem one_ne_zero_id : (1 : UInt64) ≠ 0 := by decide

def defaultRequestId : RequestId := ⟨1, one_ne_zero_id⟩

theorem lt_six_of_le {n : Nat} (h : ¬ n > 5) : n < 6 := by omega

/-- `--retries` and a number, if these are the last two arguments. -/
def takeRetries (argv : List Text) : Except Refusal (Fin 6 × List Text) :=
  if argv.length ≥ 3 ∧ argv[argv.length - 2]? = some (bytesOf "--retries") then
    match parseUnsigned 32 (argv.getLastD []) with
    | none => .error .retries
    | some retries =>
      if h : retries > 5 then .error .retries
      else .ok (⟨retries, lt_six_of_le h⟩, argv.take (argv.length - 2))
  else .ok (2, argv)

def parsePort (text : Text) : Except Refusal Port :=
  match parseUnsigned 32 text with
  | none => .error .port
  | some value =>
    if value > 65535 then .error .port
    else if h : UInt16.ofNat value = 0 then .error .port
    else .ok ⟨UInt16.ofNat value, h⟩

def parseRequestId (refusal : Refusal) (text : Text) : Except Refusal RequestId :=
  match parseUnsigned 64 text with
  | none => .error refusal
  | some value =>
    if h : UInt64.ofNat value = 0 then .error refusal else .ok ⟨UInt64.ofNat value, h⟩

def checkRemoteName (name : Text) : Except Refusal RemoteName :=
  if h : isSafeRemoteFilename name = true then .ok ⟨name, h⟩ else .error .remoteName

def checkSecret : Option Text → Except Refusal Secret
  | none => .error .secret
  | some secret => if h : isValidAuthenticationSecret secret = true then .ok ⟨secret, h⟩ else .error .secret

/-- `path::filename`: what follows the last separator. -/
def filename (path : Text) : Text := (path.reverse.takeWhile fun b => decide (b ≠ slash)).reverse

/-- The command and its arguments. -/
def parseTask (command : Text) (arguments : List Text) : Except Refusal (Task × RequestId) :=
  if command = bytesOf "ping" then
    match arguments with
    | [] => .ok (.ping, defaultRequestId)
    | [id] => do
      let requestId ← parseRequestId .usage id
      pure (.ping, requestId)
    | _ => .error .usage
  else if command = bytesOf "upload" then
    match arguments with
    | [source] => do
      let remoteName ← checkRemoteName (filename source)
      pure (.upload source remoteName, defaultRequestId)
    | [source, name] => do
      let remoteName ← checkRemoteName name
      pure (.upload source remoteName, defaultRequestId)
    | [source, name, id] => do
      -- the id is looked at before the name
      let requestId ← parseRequestId .requestId id
      let remoteName ← checkRemoteName name
      pure (.upload source remoteName, requestId)
    | _ => .error .usage
  else if command = bytesOf "sync" then
    match arguments with
    | [source] => .ok (.sync source, defaultRequestId)
    | [source, id] => do
      let requestId ← parseRequestId .requestId id
      pure (.sync source, requestId)
    | _ => .error .usage
  else .error .usage

/-- `argv`, and the value of `SYNCWIRE_PSK` if it is set. -/
def parseArguments (argv : List Text) (psk : Option Text) : Except Refusal Arguments := do
  let (retries, argv) ← takeRetries argv
  match argv with
  | _ :: address :: port :: command :: arguments => do
    let port ← parsePort port
    let (task, requestId) ← parseTask command arguments
    let secret ← checkSecret psk
    pure { retries, address, port, task, requestId, secret }
  | _ => .error .usage

/-! ## Written out -/

def Task.render (id : Text) : Task → List Text
  | ping => [bytesOf "ping", id]
  | upload sourcePath remoteName => [bytesOf "upload", sourcePath, remoteName.1, id]
  | sync sourceDirectory => [bytesOf "sync", sourceDirectory, id]

def Task.texts : Task → List Text
  | ping => []
  | upload sourcePath remoteName => [sourcePath, remoteName.1]
  | sync sourceDirectory => [sourceDirectory]

/-- The texts of a request that stand on its command line. -/
def Arguments.texts (a : Arguments) : List Text := a.address :: a.task.texts

/-- A command line with nothing left out. -/
def Arguments.render (program : Text) (a : Arguments) : List Text :=
  program :: a.address :: Decimal.decimal a.port.1.toNat ::
    (a.task.render (Decimal.decimal a.requestId.1.toNat) ++
      [bytesOf "--retries", Decimal.decimal a.retries])

theorem parseUnsigned_decimal {width n : Nat} (h : n < 2 ^ width) :
    parseUnsigned width (Decimal.decimal n) = some n := by
  rw [parseUnsigned, Decimal.fromChars_decimal h]

theorem parsePort_decimal (port : Port) : parsePort (Decimal.decimal port.1.toNat) = .ok port := by
  have hlt := port.1.toNat_lt
  rw [parsePort, parseUnsigned_decimal (by omega)]
  simp only
  rw [if_neg (by omega), dif_neg (by rw [UInt16.ofNat_toNat]; exact port.2)]
  simp

theorem parseRequestId_decimal (refusal : Refusal) (id : RequestId) :
    parseRequestId refusal (Decimal.decimal id.1.toNat) = .ok id := by
  rw [parseRequestId, parseUnsigned_decimal id.1.toNat_lt]
  simp only
  rw [dif_neg (by rw [UInt64.ofNat_toNat]; exact id.2)]
  simp

theorem takeRetries_append {argv : List Text} (hne : argv ≠ []) (retries : Fin 6) :
    takeRetries (argv ++ [bytesOf "--retries", Decimal.decimal retries]) = .ok (retries, argv) := by
  have hpos : 0 < argv.length := List.length_pos_iff.mpr hne
  have hlength : (argv ++ [bytesOf "--retries", Decimal.decimal retries]).length - 2 = argv.length := by simp
  have hflag : (argv ++ [bytesOf "--retries", Decimal.decimal retries])[argv.length]? = some
    (bytesOf "--retries") := by
    simp
  have hlast : (argv ++ [bytesOf "--retries", Decimal.decimal retries]).getLastD [] = Decimal.decimal retries := by
    simp
  have hlt := retries.2
  rw [takeRetries, hlength, hflag, hlast, parseUnsigned_decimal (by omega), List.take_left,
    if_pos ⟨by simp; omega, rfl⟩]
  simp only
  rw [dif_neg (by omega)]

theorem parseTask_render (task : Task) (id : RequestId) {command : Text} {arguments : List Text}
    (h : task.render (Decimal.decimal id.1.toNat) = command :: arguments) :
    parseTask command arguments = .ok (task, id) := by
  cases task with
  | ping =>
    cases h
    rw [parseTask, if_pos rfl]
    simp only [parseRequestId_decimal]
    rfl
  | upload sourcePath remoteName =>
    cases h
    rw [parseTask, if_neg (by decide), if_pos rfl]
    simp only [parseRequestId_decimal, checkRemoteName, dif_pos remoteName.2]
    rfl
  | sync sourceDirectory =>
    cases h
    rw [parseTask, if_neg (by decide), if_neg (by decide), if_pos rfl]
    simp only [parseRequestId_decimal]
    rfl

theorem nul_not_mem_decimal (n : Nat) : (0 : UInt8) ∉ Decimal.decimal n := fun h =>
  absurd (Decimal.isDigit_of_mem_decimal n 0 h) (by decide)

theorem nul_not_mem_taskRender {task : Task} {id : Text} (hid : (0 : UInt8) ∉ id)
    (h : ∀ t ∈ task.texts, (0 : UInt8) ∉ t) : ∀ t ∈ task.render id, (0 : UInt8) ∉ t := by
  cases task with
  | ping => simpa [Task.render, hid] using (by decide : (0 : UInt8) ∉ bytesOf "ping")
  | upload sourcePath remoteName =>
    simp only [Task.texts, List.forall_mem_cons] at h
    simpa [Task.render, hid, h] using (by decide : (0 : UInt8) ∉ bytesOf "upload")
  | sync sourceDirectory =>
    simp only [Task.texts, List.forall_mem_cons] at h
    simpa [Task.render, hid, h] using (by decide : (0 : UInt8) ∉ bytesOf "sync")

theorem nul_not_mem_render {program : Text} {a : Arguments} (h : ∀ t ∈ program :: a.texts, (0 : UInt8) ∉ t) :
    ∀ t ∈ a.render program, (0 : UInt8) ∉ t := by
  simp only [Arguments.texts, List.forall_mem_cons] at h
  obtain ⟨hprogram, haddress, htask⟩ := h
  have htask := nul_not_mem_taskRender (nul_not_mem_decimal a.requestId.1.toNat) htask
  simp only [Arguments.render, List.forall_mem_cons, List.forall_mem_append]
  exact ⟨hprogram, haddress, nul_not_mem_decimal _, htask, by decide, nul_not_mem_decimal _, by simp⟩

theorem parseArguments_written (program : Text) (a : Arguments) :
    parseArguments (a.render program) (some a.secret.1) = .ok a := by
  have hretries : takeRetries (a.render program) = .ok (a.retries, program :: a.address ::
      Decimal.decimal a.port.1.toNat :: a.task.render (Decimal.decimal a.requestId.1.toNat)) :=
    @takeRetries_append (program :: a.address :: Decimal.decimal a.port.1.toNat ::
      a.task.render (Decimal.decimal a.requestId.1.toNat)) (List.cons_ne_nil _ _) a.retries
  obtain ⟨command, arguments, hrender⟩ : ∃ command arguments,
      a.task.render (Decimal.decimal a.requestId.1.toNat) = command :: arguments := by
    cases a.task <;> exact ⟨_, _, rfl⟩
  have hsecret : checkSecret (some a.secret.1) = .ok a.secret := dif_pos a.secret.2
  rw [parseArguments, hretries, hrender]
  simp only [bind, Except.bind, parsePort_decimal, parseTask_render _ _ hrender, hsecret]
  rfl

/-- **The command line.**  For every request there is a command line that is understood as that request, the one
with nothing left out.  A request whose texts have no NUL in them, as no argument of a program has, has such a line
whose arguments have none either.  Shorter lines are not spoken of. -/
theorem parseArguments_render (program : Text) (a : Arguments) :
    parseArguments (a.render program) (some a.secret.1) = .ok a ∧
      ((∀ t ∈ program :: a.texts, (0 : UInt8) ∉ t) → ∀ t ∈ a.render program, (0 : UInt8) ∉ t) :=
  ⟨parseArguments_written program a, nul_not_mem_render⟩

end SyncWire.ClientMain
