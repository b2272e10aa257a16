import SyncWire.Calm
import SyncWire.Send.Source

/-!
# The client's side of an upload when nothing fails

What the stages of `send_file` that read the source return, for a source that stays as
it is.
-/

namespace SyncWire

open Wire Effect Posix Posix.Fs FileTransfer

section
variable {cr : Crypto} {w : World} {fd : Fd} {S : Bytes} {pos : Nat}

theorem openStream_total {path : Path} (hs : Source w.host path S) :
    Calmly cr (sys (.openStream path)) w fun r w' => ∃ fd, r = .ok fd ∧ w'.host.fs = w.host.fs ∧
      StreamAt w'.host fd S 0 := by
  rw [← Prog.bind_pure (sys _)]
  exact total_openStream permits_calm trivial hs (fun _ _ _ h => h.elim)
    fun fd w' hfs _ hs' => total_pure ⟨fd, rfl, hfs, hs'⟩

theorem readStream_total {n : Nat} (hs : StreamAt w.host fd S pos) :
    Calmly cr (sys (.readStream fd n)) w fun r w' => r = .ok ((S.drop pos).take n) ∧ w'.host.fs = w.host.fs ∧
      StreamAt w'.host fd S (pos + ((S.drop pos).take n).length) := by
  rw [← Prog.bind_pure (sys _)]
  exact total_readStream permits_calm trivial hs (fun _ _ _ h => h.elim)
    fun w' hfs _ hs' => total_pure ⟨rfl, hfs, hs'⟩

theorem seekStream_total (hs : StreamAt w.host fd S pos) :
    Calmly cr (sys (.seekStream fd)) w fun r w' => r = .ok () ∧ w'.host.fs = w.host.fs ∧
      StreamAt w'.host fd S 0 := by
  rw [← Prog.bind_pure (sys _)]
  exact total_seekStream permits_calm trivial hs (fun _ _ _ h => h.elim)
    fun w' hfs _ hs' => total_pure ⟨rfl, hfs, hs'⟩

theorem readSourceMetadata_calmly {path : Path} {limits : TransferLimits} (hs : Source w.host path S)
    (hmax : S.length ≤ limits.maxFileSize.toNat) :
    Calmly cr (readSourceMetadata path limits) w fun r w' =>
      r = .ok (UInt64.ofNat S.length, crc32 S) ∧ w'.host.fs = w.host.fs := by
  refine total_mono (readSourceMetadata_spec permits_calm trivial hs) ?_
  rintro (result | x) w' ⟨hfs, hpost⟩
  · exact absurd hmax (Nat.not_le.mpr (hpost.2.resolve_left id).2)
  · exact ⟨congrArg _ hpost.2.2, hfs⟩

theorem readSourcePrefix_calmly {size : UInt64} {bufferSize : Nat} (hs : StreamAt w.host fd S 0)
    (hsize : size.toNat ≤ S.length) (hb : 0 < bufferSize) :
    Calmly cr (readSourcePrefix fd size bufferSize) w fun r w' =>
      r = .ok (({} : Crc32).update (S.take size.toNat)) ∧ w'.host.fs = w.host.fs ∧
        StreamAt w'.host fd S size.toNat := by
  refine total_mono (readSourcePrefix_spec permits_calm trivial hs hb) ?_
  rintro (result | crc) w' ⟨hfs, hpost⟩
  · exact absurd hsize (Nat.not_le.mpr (hpost.2.resolve_left id).2)
  · exact ⟨congrArg _ hpost.2.2, hfs, hpost.2.1⟩

end

end SyncWire
