import SyncWire.Client.Main
import SyncWire.Server.Destination

/-!
# From the client's exit code to the server's disk

A client that exits with code 0 was told that its request was met (`runOnce_confirms`), and the
server reports only what it has stored (`ServerRuns.truthful`).  Nothing but the frames joins
the two: each side may receive what the other has sent, and no more is assumed of the
connection, of the other clients or of the order of the steps.

* `exit_zero_kept`: exit code 0 means that the files are in the destination.
-/

namespace SyncWire

open Wire Effect Posix Posix.Fs Authentication PingPong FileTransfer DirectorySync

section
variable {cr : Crypto} {host : Host} {command : Command} {secret : List UInt8} {requestId : UInt64}
  {records : List FileRecord}
variable {cr' : Crypto} {root : Path} {serverSecret : List UInt8} {ι : Type} [DecidableEq ι] {serverHost : Host}
  {s : Pool ι net Host ClientSessionResult} {i : ι}

theorem kept_of_confirmed (hroot : serverHost.fs.Plain root) (hr : ServerRuns cr root serverSecret serverHost s)
    {log : List net.Event} (hconfirmed : Confirmed records log) (hin : ∀ m ∈ received log, m ∈ sent (s.log i))
    (hout : ∀ m ∈ received (s.log i), m ∈ sent log) :
    ∀ record ∈ records, Kept root (ReceivedBy s.log) s.host.fs record := by
  obtain ⟨f, hf, type, hreport, honly⟩ := hconfirmed
  obtain ⟨request, hrequest, ht, -, asked, hasked, hkept⟩ := hr.truthful hroot i f (hin f hf) type hreport
  rw [honly request (hout request hrequest) ht asked hasked] at hkept
  exact hkept

/-- The same for an attempt of the client that ended with exit code 0. -/
theorem kept_of_success (hroot : serverHost.fs.Plain root) (hr : ServerRuns cr root serverSecret serverHost s)
    (hwants : command.Wants host records) {a : Attempt} {w : World}
    (hc : Reach (solo (exec cr') anyAnswer) (runOnce command secret requestId, ⟨host, []⟩) (.pure a, w))
    (hcode : a.code = 0) (hin : ∀ m ∈ received w.log, m ∈ sent (s.log i))
    (hout : ∀ m ∈ received (s.log i), m ∈ sent w.log) :
    ∀ record ∈ records, Kept root (ReceivedBy s.log) s.host.fs record := by
  rcases (runOnce_confirms hwants).result hc hcode with rfl | hconfirmed
  · exact fun record hrecord => absurd hrecord List.not_mem_nil
  · exact kept_of_confirmed hroot hr hconfirmed hin hout

theorem Command.Wants.congr {host host' : Host} (h : command.Wants host records) (hfs : host'.fs = host.fs) :
    command.Wants host' records := by
  cases command with
  | ping => exact h
  | upload sourcePath remoteName =>
    obtain ⟨content, hsource, hrecords⟩ := h
    exact ⟨content, hsource.congr hfs, hrecords⟩
  | sync sourceDirectory =>
    obtain ⟨hplain, hrecords⟩ := h
    exact ⟨hfs ▸ hplain, hfs ▸ hrecords⟩

open ClientMain

/-- **Exit code 0.**  The client was started to bring some files and has exited with code 0.  If its last
connection was served by a session of the server, then each of these files is in the destination with its size and
checksum, or a complete file that some session received has taken its place; and this stays so while the server
runs, whatever the other clients do and in whatever order the sessions take their steps.  The server's root is
spelled without symbolic links above it (`Plain`). -/
theorem exit_zero_kept (hroot : serverHost.fs.Plain root) (hr : ServerRuns cr root serverSecret serverHost s)
    {pathOf : Text → Path} {argv : List Text} {psk : Option Text} {a : Arguments}
    (hargs : parseArguments argv psk = .ok a) (hwants : (a.task.command pathOf).Wants host records) {w : Process}
    (hc : Reach (process cr') (main pathOf argv psk, { host := host }) (.pure 0, w)) :
    ∃ log, w.past.getLast? = some log ∧
      ∀ i, (∀ m ∈ received log, m ∈ sent (s.log i)) → (∀ m ∈ received (s.log i), m ∈ sent log) →
        ∀ record ∈ records, Kept root (ReceivedBy s.log) s.host.fs record := by
  have hmain : main pathOf argv psk = attempts pathOf a := by
    unfold main
    rw [hargs]
  rw [hmain] at hc
  obtain ⟨failed, last, hexited⟩ := (attempts_total rfl rfl rfl rfl rfl).result hc
  have hcode := hexited.code
  have hgenuine := hexited.genuine last (List.mem_append_right _ (List.mem_singleton_self _))
  cases last with
  | unreachable => cases hcode
  | served log result =>
    obtain ⟨start, stop, hfs, hrun⟩ := hgenuine
    refine ⟨log, ?_, fun i hin hout => kept_of_success hroot hr (hwants.congr hfs) hrun hcode.symm hin hout⟩
    rw [hexited.past, List.filterMap_append]
    exact List.getLast?_concat

end

/-! A client that uploads the three bytes to the server of the samples. -/

section
open ClientMain

def sampleArgv : List Text :=
  [bytesOf "syncwire-client", bytesOf "127.0.0.1", bytesOf "4040", bytesOf "upload", bytesOf "s", bytesOf "a",
    bytesOf "7"]

theorem sampleName_safe : isSafeRemoteFilename (bytesOf "a") = true := by decide

def sampleName : RemoteName := ⟨bytesOf "a", sampleName_safe⟩

/-- An environment in which every call succeeds, and these frames come in. -/
def driveClient (incoming : List WireFrame) : (o : clientSig.Op) → Process → clientSig.Res o
  | .act o, w => drive sampleCrypto incoming o ⟨w.host, w.connection.getD []⟩
  | .also (.tcp (.socket _)), _ => .ok 3
  | .also (.tcp (.setReuseAddress _)), _ => .ok ()
  | .also (.tcp (.inetPton _)), _ => .ok true
  | .also (.tcp (.bind ..)), _ => .ok ()
  | .also (.tcp (.listen ..)), _ => .ok ()
  | .also (.tcp (.connect ..)), _ => .ok ()
  | .also (.tcp (.accept4 _)), _ => .ok 4
  | .also (.tcp (.getsockname _)), _ => .ok 4040
  | .also (.tcp (.close _)), _ => ()
  | .also (.sleepFor _), _ => ()
  | .also (.print _), _ => ()

def sampleMain (n : Nat) : Cli Nat × Process :=
  runWith (Process.perform sampleCrypto) (driveClient (sent ((samplePool 37).log 0))) n
    (main (fun text => [text]) sampleArgv (some sampleAuthKey), { host := sampleSourceHost })

theorem sampleMain_runs (n : Nat) : Reach (process sampleCrypto)
    (main (fun text => [text]) sampleArgv (some sampleAuthKey), { host := sampleSourceHost }) (sampleMain n) :=
  reach_runWith _ _ (fun _ _ _ he => he) n _

theorem mem_of_map_val {l l' : List WireFrame} (h : l.map (·.1) = l'.map (·.1)) : ∀ m ∈ l, m ∈ l' := by
  rw [(List.map_injective_iff.mpr Subtype.val_injective) h]
  exact fun _ hm => hm

theorem sampleMain_kept : (sampleMain 46).1.result? = some 0 ∧
    Kept sampleRoot (ReceivedBy (samplePool 37).log) (samplePool 37).host.fs ⟨bytesOf "a", 3, 891568578⟩ := by
  have hresult : (sampleMain 46).1.result? = some 0 := by decide +kernel
  have hruns := sampleMain_runs 46
  rw [← Prod.mk.eta (p := sampleMain 46), Prog.eq_pure_of_result? hresult] at hruns
  have hparsed : ∃ a, parseArguments sampleArgv (some sampleAuthKey) = .ok a ∧
      a.task.command (fun text => [text]) = .upload [bytesOf "s"] (bytesOf "a") := by
    have htask : ((parseArguments sampleArgv (some sampleAuthKey)).toOption.map Arguments.task) =
        some (.upload (bytesOf "s") sampleName) := by decide +kernel
    obtain ⟨a, ha, ht⟩ := Option.map_eq_some_iff.mp htask
    cases hargs : parseArguments sampleArgv (some sampleAuthKey) with
    | error refusal => rw [hargs] at ha; cases ha
    | ok a' =>
      rw [hargs] at ha
      obtain rfl : a' = a := Option.some.inj ha
      exact ⟨a', rfl, by rw [ht]; rfl⟩
  obtain ⟨a, hargs, htask⟩ := hparsed
  have hwants : (Command.upload [bytesOf "s"] (bytesOf "a")).Wants sampleSourceHost
    [⟨bytesOf "a", 3, 891568578⟩] :=
    ⟨_, source_sampleSourceHost, by decide +kernel⟩
  rw [← htask] at hwants
  obtain ⟨log, hlog, hkept⟩ := exit_zero_kept sampleRoot_plain (samplePool_runs 37) hargs hwants hruns
  have hlinked : ((sampleMain 46).2.past.getLast?.map fun log =>
    ((received log).map (·.1), (sent log).map (·.1))) =
      some ((sent ((samplePool 37).log 0)).map (·.1), (received ((samplePool 37).log 0)).map (·.1)) := by
        decide +kernel
  rw [hlog] at hlinked
  obtain ⟨hin, hout⟩ := Prod.mk.inj (Option.some.inj hlinked)
  exact ⟨hresult, hkept 0 (mem_of_map_val hin) (mem_of_map_val hout.symm) _ (List.mem_singleton_self _)⟩

end

end SyncWire
