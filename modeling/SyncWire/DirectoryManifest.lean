import Mathlib.Data.List.Sort
import SyncWire.FileTransfer
import SyncWire.SyncCodec

/-!
# Scanning a directory tree (`directory_manifest.cpp`)

`scanDirectory` walks a tree with a recursive iterator and records size and checksum
of every regular file.  The iterator is the list of entries it has yet to visit, the
current one first; going on from a directory puts its entries in front.  Symbolic links
are skipped, and so is whatever is called `kPartialDirectory`.
-/

namespace SyncWire

open Wire Effect Posix Posix.Fs

structure DirectoryScanLimits where
  maxEntries : Nat := 4096
  maxFileSize : UInt64 := kDefaultMaxFileSize
  maxEncodedSize : Nat := kDefaultMaxPayload.toNat

inductive DirectoryScanError
  | rootNotDirectory | fileIoError | unsafeRelativePath | tooManyEntries | fileTooLarge | manifestTooLarge
deriving DecidableEq

/-- A `DirectoryScanResult` with an error; `failure` leaves the other fields empty. -/
structure ScanFailure where
  error : DirectoryScanError
  systemError : Nat := 0
deriving DecidableEq

/-- A `DirectoryScanResult` that is `ok()`. -/
structure DirectoryScan where
  files : FileManifest := []
  skippedSymlinks : Nat := 0
deriving DecidableEq

/-- `generic_string` of a relative path. -/
def genericString (relative : Path) : List UInt8 := [slash].intercalate relative

def checksumFile (path : Path) : Sys (Except Nat UInt32) := do
  match ← sys (.openStream path) with
  | .error errno => pure (.error errno)
  | .ok input =>
    match ← FileTransfer.checksumStream input with
    | .error errno => pure (.error errno)
    | .ok running => pure (.ok running.value)

/-- The variables of the loop. -/
structure ScanState where
  /-- what the iterator has yet to visit -/
  pending : List Path
  result : DirectoryScan := {}
  encodedSize : Nat := 4

/-- `iterator.increment`: into the entry's directory or past it.  An error ends the loop. -/
def increment (entry : Path) (descend : Bool) (rest : List Path) (result : DirectoryScan) (encodedSize : Nat) :
    Sys (ScanState ⊕ Except ScanFailure DirectoryScan) :=
  if descend then do
    match ← sys (.listDir entry) with
    | .error errno => pure (.inr (.error { error := .fileIoError, systemError := errno }))
    | .ok names => pure (.inl { pending := names.map (fun n => entry ++ [n]) ++ rest, result, encodedSize })
  else do
    match ← sys (.nextEntry entry) with
    | .error errno => pure (.inr (.error { error := .fileIoError, systemError := errno }))
    | .ok () => pure (.inl { pending := rest, result, encodedSize })

/-- What the loop does with a regular file. -/
def recordFile (root : Path) (limits : DirectoryScanLimits) (entry : Path) (rest : List Path)
    (result : DirectoryScan) (encodedSize : Nat) : Sys (ScanState ⊕ Except ScanFailure DirectoryScan) :=
  if result.files.length ≥ limits.maxEntries then pure (.inr (.error { error := .tooManyEntries }))
  else do
    match ← sys (.relative entry root) with
    | .error errno => pure (.inr (.error { error := .fileIoError, systemError := errno }))
    | .ok relative =>
      let relativePath := genericString relative
      if isSafeRemotePath relativePath = false then pure (.inr (.error { error := .unsafeRelativePath }))
      else
        match ← sys (.fileSize entry) with
        | .error errno => pure (.inr (.error { error := .fileIoError, systemError := errno }))
        | .ok rawSize =>
          if rawSize > limits.maxFileSize.toNat then pure (.inr (.error { error := .fileTooLarge }))
          else
            let recordSize := 2 + 8 + 4 + relativePath.length
            if recordSize > limits.maxEncodedSize ∨ encodedSize > limits.maxEncodedSize - recordSize then
              pure (.inr (.error { error := .manifestTooLarge }))
            else
              match ← checksumFile entry with
              | .error errno => pure (.inr (.error { error := .fileIoError, systemError := errno }))
              | .ok checksum =>
                let record : FileRecord := { path := relativePath, size := UInt64.ofNat rawSize, checksum }
                increment entry false rest { result with files := result.files ++ [record] }
                  (encodedSize + recordSize)

/-- One turn of the loop. -/
def scanStep (root : Path) (limits : DirectoryScanLimits) (s : ScanState) :
    Sys (ScanState ⊕ Except ScanFailure DirectoryScan) :=
  match s.pending with
  | [] => pure (.inr (.ok s.result))
  | entry :: rest =>
    if entry.getLastD [] = kPartialDirectory then increment entry false rest s.result s.encodedSize
    else do
      match ← sys (.lstat entry) with
      | .error errno => pure (.inr (.error { error := .fileIoError, systemError := errno }))
      | .ok .notFound => pure (.inr (.error { error := .fileIoError, systemError := ENOENT }))
      | .ok .symlink =>
        increment entry false rest { s.result with skippedSymlinks := s.result.skippedSymlinks + 1 }
          s.encodedSize
      | .ok .regular => recordFile root limits entry rest s.result s.encodedSize
      | .ok .directory => increment entry true rest s.result s.encodedSize
      | .ok .other => increment entry false rest s.result s.encodedSize

/-- `std::ranges::sort` by path; the paths are distinct, so there is one way to do it. -/
def sortFiles (files : FileManifest) : FileManifest := files.insertionSort fun a b => a.path ≤ b.path

def scanDirectory (root : Path) (limits : DirectoryScanLimits) : Sys (Except ScanFailure DirectoryScan) := do
  match ← sys (.lstat root) with
  | .error errno => pure (.error { error := .fileIoError, systemError := errno })
  | .ok rootStatus =>
    if rootStatus ≠ .directory then pure (.error { error := .rootNotDirectory })
    else
      match ← sys (.listDir root) with
      | .error errno => pure (.error { error := .fileIoError, systemError := errno })
      | .ok names =>
        match ← Prog.iter (scanStep root limits) { pending := names.map fun n => root ++ [n] } with
        | .error failure => pure (.error failure)
        | .ok result => pure (.ok { result with files := sortFiles result.files })

end SyncWire
