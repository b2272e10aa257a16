import SyncWire.Lib.FileSystem

/-!
# System calls

The calls a process makes of its host, and what each may answer.  `exec c h r` is
the host after call `c` answered `r`, or `none` where `c` cannot answer `r` in `h`.
An error is possible at any call and changes nothing; the exceptions are the ones a
program acts upon: `ENOENT` of `lstat` is reported as `FileType.notFound` and is
true, `EEXIST` of `mkdir` is reported as `false` and is true, and `EINTR` comes
`signals` more times only.

Hash functions are parameters (`Crypto`).
-/

namespace Posix

open Fs

inductive FileType
  | notFound
  | regular
  | directory
  | symlink
  | other
deriving DecidableEq

structure Stat where
  regular : Bool
  nlink : Nat
  uid : Nat
  size : Nat
deriving DecidableEq

/-- File descriptors. -/
abbrev Fd := Nat

inductive OpenFile
  | regular (ino pos : Nat)
  | directory (p : Path)
  | special

structure Host where
  fs : Fs
  files : Fd → Option OpenFile
  nextFd : Fd
  euid : Nat
  /-- how many more calls a signal will interrupt -/
  signals : Nat

structure Crypto where
  sha256 : Bytes → Bytes
  hmac : Bytes → Bytes → Bytes
  sha256_length : ∀ b, (sha256 b).length = 32
  hmac_length : ∀ k m, (hmac k m).length = 32

inductive Call
  | lstat (p : Path)
  | fileSize (p : Path)
  /-- true: created; false: it was there -/
  | createDirectory (p : Path)
  | mkdir (p : Path)
  /-- `O_RDONLY | O_DIRECTORY | O_NOFOLLOW` -/
  | openDir (p : Path)
  /-- `O_RDWR | O_CREAT | O_NOFOLLOW | O_NONBLOCK` -/
  | openat (dir : Fd) (name : Name)
  | fstat (fd : Fd)
  | geteuid
  /-- `LOCK_EX | LOCK_NB` -/
  | flock (fd : Fd)
  /-- to length 0 -/
  | ftruncate (fd : Fd)
  /-- to position 0 -/
  | lseek (fd : Fd)
  | read (fd : Fd) (n : Nat)
  | write (fd : Fd) (data : Bytes)
  | fsync (fd : Fd)
  | close (fd : Fd)
  | unlinkat (dir : Fd) (name : Name)
  | rename (src dst : Path)
  /-- all names of a directory, in any order -/
  | listDir (p : Path)
  /-- advance a directory iterator -/
  | nextEntry (p : Path)
  | relative (p base : Path)
  /-- an input stream on a file -/
  | openStream (p : Path)
  /-- the next `n` bytes, fewer only at the end of the file -/
  | readStream (fd : Fd) (n : Nat)
  | seekStream (fd : Fd)
  | digest (b : Bytes)
  | randBytes (n : Nat)
  | mac (key msg : Bytes)

@[reducible] def Val : Call → Type
  | .lstat _ => FileType
  | .fileSize _ => Nat
  | .createDirectory _ => Bool
  | .mkdir _ => Bool
  | .openDir _ => Fd
  | .openat _ _ => Fd
  | .fstat _ => Stat
  | .geteuid => Nat
  | .read _ _ => Bytes
  | .write _ _ => Nat
  | .listDir _ => List Name
  | .relative _ _ => Path
  | .openStream _ => Fd
  | .readStream _ _ => Bytes
  | .digest _ => Bytes
  | .randBytes _ => Bytes
  | .mac _ _ => Bytes
  | .flock _ | .ftruncate _ | .lseek _ | .fsync _ | .close _ | .unlinkat _ _ | .rename _ _
  | .nextEntry _ | .seekStream _ => Unit

/-! ## What the calls see of the file system -/

namespace Fs

def typeOf : Option Node → FileType
  | none => .notFound
  | some .dir => .directory
  | some (.file _) => .regular
  | some (.symlink _) => .symlink
  | some .special => .other

/-- `lstat` -/
def typeAt (fs : Fs) (p : Path) : Except Nat FileType :=
  match fs.resolve p with
  | .ok q => .ok (typeOf (fs.node q))
  | .error e => if e = ENOENT then .ok .notFound else .error e

/-- `stat`: the node a path leads to, links followed. -/
def target (fs : Fs) (p : Path) : Option (Path × Node) :=
  match fs.follow 41 p with
  | .ok q => (fs.node q).map fun x => (q, x)
  | .error _ => none

def mkdir (fs : Fs) (p : Path) : Option Fs :=
  match fs.resolve p with
  | .ok q =>
    if h : fs.Free q ∧ fs.node q = none then some (fs.insert q .dir h.1 fun _ hi => by cases hi) else none
  | .error _ => none

end Fs

/-- Overwrite `old` at `pos`; a gap is filled with zeros. -/
def splice (old : Bytes) (pos : Nat) (d : Bytes) : Bytes :=
  old.take pos ++ List.replicate (pos - old.length) 0 ++ d ++ old.drop (pos + d.length)

theorem splice_end (old d : Bytes) : splice old old.length d = old ++ d := by
  simp [splice, List.drop_eq_nil_of_le]

namespace Host

variable (h : Host)

def opened (f : OpenFile) : Host :=
  { h with files := Function.update h.files h.nextFd (some f), nextFd := h.nextFd + 1 }

def setFile (fd : Fd) (f : OpenFile) : Host := { h with files := Function.update h.files fd (some f) }

def statOf (fd : Fd) : Option Stat :=
  match h.files fd with
  | some (.regular i _) => some ⟨true, h.fs.nlink i, (h.fs.inode i).uid, (h.fs.inode i).data.length⟩
  | some _ => some ⟨false, 1, h.euid, 0⟩
  | none => none

@[simp] theorem opened_fs (f : OpenFile) : (h.opened f).fs = h.fs := rfl
@[simp] theorem opened_euid (f : OpenFile) : (h.opened f).euid = h.euid := rfl
@[simp] theorem opened_files_self (f : OpenFile) : (h.opened f).files h.nextFd = some f := by
  simp [opened]
@[simp] theorem setFile_fs (fd : Fd) (f : OpenFile) : (h.setFile fd f).fs = h.fs := rfl
@[simp] theorem setFile_files_self (fd : Fd) (f : OpenFile) :
    (h.setFile fd f).files fd = some f := by
  simp [setFile]

theorem opened_files_ne {fd : Fd} (f : OpenFile) (hne : fd ≠ h.nextFd) :
    (h.opened f).files fd = h.files fd := by
  simp [opened, hne]

theorem setFile_files_ne {fd fd' : Fd} (f : OpenFile) (hne : fd' ≠ fd) :
    (h.setFile fd f).files fd' = h.files fd' := by
  simp [setFile, hne]

end Host

/-! ## The calls -/

/-- The host after the call returned `v`. -/
def succeed (cr : Crypto) : (c : Call) → Host → Val c → Option Host
  | .lstat p, h, t => if h.fs.typeAt p = .ok t then some h else none
  | .fileSize p, h, n =>
    match h.fs.target p with
    | some (_, .file i) => if (h.fs.inode i).data.length = n then some h else none
    | _ => none
  | .createDirectory p, h, true => (h.fs.mkdir p).map fun fs => { h with fs }
  | .createDirectory p, h, false =>
    match h.fs.target p with
    | some (_, .dir) => some h
    | _ => none
  | .mkdir p, h, true => (h.fs.mkdir p).map fun fs => { h with fs }
  | .mkdir p, h, false =>
    match h.fs.typeAt p with
    | .ok t => if t = .notFound then none else some h
    | .error _ => none
  | .openDir p, h, fd =>
    match h.fs.resolve p with
    | .ok q => if h.fs.node q = some .dir ∧ fd = h.nextFd then some (h.opened (.directory q)) else none
    | .error _ => none
  | .openat dir name, h, fd =>
    match h.files dir with
    | some (.directory d) =>
      if fd = h.nextFd then
        match h.fs.node (d ++ [name]) with
        | none =>
          if hf : h.fs.Free (d ++ [name]) then
            some ({ h with fs := h.fs.create (d ++ [name]) h.euid hf }.opened (.regular h.fs.next 0))
          else none
        | some (.file i) => some (h.opened (.regular i 0))
        | some .special => some (h.opened .special)
        | _ => none
      else none
    | _ => none
  | .fstat fd, h, st => if h.statOf fd = some st then some h else none
  | .geteuid, h, u => if u = h.euid then some h else none
  | .flock _, h, _ => some h
  | .ftruncate fd, h, _ =>
    match h.files fd with
    | some (.regular i _) => some { h with fs := h.fs.setData i [] }
    | _ => none
  | .lseek fd, h, _ =>
    match h.files fd with
    | some (.regular i _) => some (h.setFile fd (.regular i 0))
    | _ => none
  | .read fd n, h, data =>
    match h.files fd with
    | some (.regular i pos) =>
      if data = ((h.fs.inode i).data.drop pos).take data.length ∧ data.length ≤ n ∧
          (data = [] → n = 0 ∨ (h.fs.inode i).data.length ≤ pos) then
        some (h.setFile fd (.regular i (pos + data.length)))
      else none
    | _ => none
  | .write fd data, h, k =>
    match h.files fd with
    | some (.regular i pos) =>
      if k ≤ data.length then
        some ({ h with fs := h.fs.setData i (splice (h.fs.inode i).data pos (data.take k)) }.setFile fd
          (.regular i (pos + k)))
      else none
    | _ => none
  | .fsync _, h, _ => some h
  | .close fd, h, _ => some { h with files := Function.update h.files fd none }
  | .unlinkat dir name, h, _ =>
    match h.files dir with
    | some (.directory d) =>
      if hn : h.fs.node (d ++ [name]) ≠ none ∧ h.fs.node (d ++ [name]) ≠ some .dir then
        some { h with fs := h.fs.erase (d ++ [name]) hn.2 }
      else none
    | _ => none
  | .rename src dst, h, _ =>
    match h.fs.resolve src, h.fs.resolve dst with
    | .ok s, .ok d => (h.fs.rename s d).map fun fs => { h with fs }
    | _, _ => none
  | .listDir p, h, l =>
    match h.fs.target p with
    | some (q, .dir) => if l.Perm (h.fs.children q) then some h else none
    | _ => none
  | .nextEntry _, h, _ => some h
  | .relative p base, h, rel => if p = base ++ rel then some h else none
  | .openStream p, h, fd =>
    match h.fs.target p with
    | some (_, .file i) => if fd = h.nextFd then some (h.opened (.regular i 0)) else none
    | _ => none
  | .readStream fd n, h, data =>
    match h.files fd with
    | some (.regular i pos) =>
      if data = ((h.fs.inode i).data.drop pos).take n then
        some (h.setFile fd (.regular i (pos + data.length)))
      else none
    | _ => none
  | .seekStream fd, h, _ =>
    match h.files fd with
    | some (.regular i _) => some (h.setFile fd (.regular i 0))
    | _ => none
  | .digest b, h, d => if d = cr.sha256 b then some h else none
  | .randBytes n, h, b => if b.length = n then some h else none
  | .mac k m, h, d => if d = cr.hmac k m then some h else none

/-- The host after the call failed with errno `e`. -/
def fail : Call → Host → Nat → Option Host
  | .read _ _, h, e | .write _ _, h, e =>
    if e = EINTR then (if 0 < h.signals then some { h with signals := h.signals - 1 } else none)
    else some h
  | .lstat _, h, e => if e = ENOENT then none else some h
  | .geteuid, _, _ => none
  | _, h, _ => some h

def exec (cr : Crypto) : (c : Call) → Host → Except Nat (Val c) → Option Host
  | c, h, .ok v => succeed cr c h v
  | c, h, .error e => fail c h e

/-- A failed call changes nothing but the signals still to come. -/
theorem fail_eq {c : Call} {h h' : Host} {e : Nat} (hf : fail c h e = some h') :
    h' = h ∨ h' = { h with signals := h.signals - 1 } := by
  unfold fail at hf
  split at hf
  · split at hf
    · split at hf
      · exact .inr (Option.some.inj hf).symm
      · cases hf
    · exact .inl (Option.some.inj hf).symm
  · split at hf
    · split at hf
      · exact .inr (Option.some.inj hf).symm
      · cases hf
    · exact .inl (Option.some.inj hf).symm
  · split at hf
    · cases hf
    · exact .inl (Option.some.inj hf).symm
  · cases hf
  · exact .inl (Option.some.inj hf).symm

/-! ## What a call did -/

/-- Hosts that differ in the signals to come only. -/
def Host.Same (h h' : Host) : Prop :=
  h'.fs = h.fs ∧ h'.files = h.files ∧ h'.nextFd = h.nextFd ∧ h'.euid = h.euid

/-- Calls that only look. -/
def Call.looks : Call → Bool
  | .lstat _ | .fileSize _ | .fstat _ | .geteuid | .flock _ | .fsync _ | .listDir _ | .nextEntry _
  | .relative _ _ | .digest _ | .randBytes _ | .mac _ _ => true
  | _ => false

/-- Calls that leave the file system alone. -/
def Call.reads : Call → Bool
  | .openStream _ | .readStream _ _ | .seekStream _ => true
  | c => c.looks

theorem reads_of_looks {c : Call} (hc : c.looks = true) : c.reads = true := by
  cases c <;> first | rfl | cases hc

section
variable {cr : Crypto} {h h' : Host}

theorem exec_error {c : Call} {e : Nat} (he : exec cr c h (.error e) = some h') : h.Same h' := by
  rcases fail_eq he with rfl | rfl <;> exact ⟨rfl, rfl, rfl, rfl⟩

theorem exec_looks {c : Call} {r : Except Nat (Val c)} (hc : c.looks = true)
    (he : exec cr c h r = some h') : h' = h := by
  cases r with
  | error e =>
    cases c <;> simp only [exec, fail, Call.looks, Bool.false_eq_true] at he hc
    all_goals grind
  | ok v =>
    cases c <;> simp only [exec, succeed, Call.looks, Bool.false_eq_true] at he hc
    all_goals grind

theorem exec_reads {c : Call} {r : Except Nat (Val c)} (hc : c.reads = true)
    (he : exec cr c h r = some h') : h'.fs = h.fs := by
  cases r with
  | error e => exact (exec_error he).1
  | ok v =>
    by_cases hl : c.looks = true
    · rw [exec_looks hl he]
    · cases c <;> simp only [Call.reads, Call.looks, not_true_eq_false, Bool.false_eq_true] at hc hl
      all_goals
        simp only [exec, succeed] at he
        split at he
        · grind [Host.opened, Host.setFile]
        · cases he

theorem exec_lstat {p : Path} {t : FileType} (he : exec cr (.lstat p) h (.ok t) = some h') :
    h.fs.typeAt p = .ok t := by
  simp only [exec, succeed] at he
  split at he
  · next ht => exact ht
  · cases he

theorem typeAt_of_node {fs : Fs} {p : Path} {x : Node} (hn : fs.node p = some x) :
    fs.typeAt p = .ok (Fs.typeOf (some x)) := by
  simp only [Fs.typeAt, resolve_of_node hn, hn]

theorem typeAt_found {fs : Fs} {p : Path} {t : FileType} (hp : fs.Plain p) (ht : fs.typeAt p = .ok t)
    (hne : t ≠ .notFound) : Fs.typeOf (fs.node p) = t := by
  unfold Fs.typeAt at ht
  split at ht
  · next q hq =>
    obtain ⟨rfl, -⟩ := resolve_plain hp hq
    exact Except.ok.inj ht
  · split at ht
    · exact absurd (Except.ok.inj ht).symm hne
    · cases ht

theorem node_of_typeOf {x : Option Node} : (Fs.typeOf x = .directory → x = some .dir) ∧
    (Fs.typeOf x = .regular → ∃ i, x = some (.file i)) := by
  cases x with
  | none => exact ⟨fun h => (nomatch h), fun h => (nomatch h)⟩
  | some x =>
    cases x with
    | dir => exact ⟨fun _ => rfl, fun h => (nomatch h)⟩
    | file i => exact ⟨fun h => (nomatch h), fun _ => ⟨i, rfl⟩⟩
    | symlink t => exact ⟨fun h => (nomatch h), fun h => (nomatch h)⟩
    | special => exact ⟨fun h => (nomatch h), fun h => (nomatch h)⟩

/-- A path whose directory is there and that is not a link leads to itself. -/
theorem node_of_target {fs : Fs} {p q : Path} (hp : fs.Plain p) (hl : ∀ t, fs.node p ≠ some (.symlink t))
    (h : fs.target p = some (q, .dir)) : fs.node p = some .dir := by
  unfold Fs.target at h
  split at h
  · next q' hq =>
    obtain ⟨x, hx, he⟩ := Option.map_eq_some_iff.mp h
    cases he
    unfold follow at hq
    split at hq
    · cases hq
    · next r hr =>
      obtain ⟨rfl, -⟩ := resolve_plain hp hr
      split at hq
      · next t ht => exact absurd ht (hl t)
      · cases hq; exact hx
  · cases h

/-- `lstat` of a path that leads somewhere. -/
theorem typeAt_of_resolve {fs : Fs} {p q : Path} (hr : fs.resolve p = .ok q) :
    fs.typeAt p = .ok (Fs.typeOf (fs.node q)) := by
  simp only [Fs.typeAt, hr]

theorem resolve_of_typeAt {fs : Fs} {p : Path} {t : FileType} (ht : fs.typeAt p = .ok t) (hne : t ≠ .notFound) :
    ∃ q, fs.resolve p = .ok q ∧ Fs.typeOf (fs.node q) = t := by
  unfold Fs.typeAt at ht
  split at ht
  · next q hq => exact ⟨q, hq, Except.ok.inj ht⟩
  · split at ht
    · exact absurd (Except.ok.inj ht).symm hne
    · cases ht

/-- Where there was nothing, a directory made later is no link. -/
theorem resolve_of_target {fs fs' : Fs} {p q : Path} (ha : Added fs fs') (ht : fs.typeAt p = .ok .notFound)
    (h : fs'.target p = some (q, .dir)) : fs'.resolve p = .ok q ∧ fs'.node q = some .dir := by
  unfold Fs.target at h
  split at h
  · next q' hq =>
    obtain ⟨x, hx, he⟩ := Option.map_eq_some_iff.mp h
    cases he
    unfold follow at hq
    split at hq
    · cases hq
    · next r hr =>
      split at hq
      · next t hl =>
        have hl' := ha.not_symlink hl
        unfold Fs.typeAt at ht
        split at ht
        · next r' hr' =>
          obtain rfl : r = r' := Except.ok.inj (hr.symm.trans (ha.resolve hr'))
          rw [hl'] at ht
          cases ht
        · next e hr' =>
          split at ht
          · next he =>
            rw [ha.resolve_missing (he ▸ hr') hr] at hl'
            cases hl'
          · cases ht
      · cases hq
        exact ⟨hr, hx⟩
  · cases h

theorem target_of_resolve {fs : Fs} {p q : Path} (hr : fs.resolve p = .ok q) (hq : fs.node q = some .dir) :
    fs.target p = some (q, .dir) := by
  simp only [Fs.target, follow, hr, hq, Option.map_some]

theorem target_file {fs : Fs} {p q : Path} {i : Nat} (hr : fs.resolve p = .ok q)
    (hq : fs.node q = some (.file i)) :
    fs.target p = some (q, .file i) := by
  simp only [Fs.target, follow, hr, hq, Option.map_some]

theorem mkdir_at {fs fs' : Fs} {p : Path} (hm : fs.mkdir p = some fs') :
    ∃ q, fs.resolve p = .ok q ∧ MadeDir q fs fs' := by
  unfold Fs.mkdir at hm
  split at hm
  · next q hq =>
    split at hm
    · next hf => cases hm; exact ⟨q, hq, madeDir_insert hf.2⟩
    · cases hm
  · cases hm

theorem mkdir_made {fs fs' : Fs} {p : Path} (hp : fs.Plain p) (hm : fs.mkdir p = some fs') :
    MadeDir p fs fs' := by
  obtain ⟨q, hq, h⟩ := mkdir_at hm
  exact (resolve_plain hp hq).1 ▸ h

/-- Made where the path leads to; or it is there, or the call failed. -/
theorem exec_createDirectory_at {p : Path} {r : Except Nat Bool}
    (he : exec cr (.createDirectory p) h r = some h') :
    (r = .ok true ∧ ∃ q, h.fs.resolve p = .ok q ∧ MadeDir q h.fs h'.fs ∧ h' = { h with fs := h'.fs }) ∨
      (h' = h ∧ ((∃ e, r = .error e) ∨ ∃ q, h.fs.target p = some (q, .dir))) := by
  match r with
  | .error e => exact .inr ⟨by simpa [exec, fail] using he.symm, .inl ⟨e, rfl⟩⟩
  | .ok true =>
    simp only [exec, succeed, Option.map_eq_some_iff] at he
    obtain ⟨fs, hfs, rfl⟩ := he
    obtain ⟨q, hq, hm⟩ := mkdir_at hfs
    exact .inl ⟨rfl, q, hq, hm, rfl⟩
  | .ok false =>
    simp only [exec, succeed] at he
    split at he
    · next q hq => cases he; exact .inr ⟨rfl, .inr ⟨q, hq⟩⟩
    · cases he

theorem exec_createDirectory {p : Path} {r : Except Nat Bool} (hp : h.fs.Plain p)
    (he : exec cr (.createDirectory p) h r = some h') :
    (r = .ok true ∧ MadeDir p h.fs h'.fs ∧ h' = { h with fs := h'.fs }) ∨
      (h' = h ∧ ((∃ e, r = .error e) ∨ ∃ q, h.fs.target p = some (q, .dir))) := by
  rcases exec_createDirectory_at he with ⟨hr, q, hq, hm, hh⟩ | h
  · exact .inl ⟨hr, (resolve_plain hp hq).1 ▸ hm, hh⟩
  · exact .inr h

theorem exec_mkdir_at {p : Path} {r : Except Nat Bool} (he : exec cr (.mkdir p) h r = some h') :
    (r = .ok true ∧ ∃ q, h.fs.resolve p = .ok q ∧ MadeDir q h.fs h'.fs ∧ h' = { h with fs := h'.fs }) ∨
      h' = h := by
  match r with
  | .error e => exact .inr (by simpa [exec, fail] using he.symm)
  | .ok true =>
    simp only [exec, succeed, Option.map_eq_some_iff] at he
    obtain ⟨fs, hfs, rfl⟩ := he
    obtain ⟨q, hq, hm⟩ := mkdir_at hfs
    exact .inl ⟨rfl, q, hq, hm, rfl⟩
  | .ok false =>
    simp only [exec, succeed] at he
    split at he
    · split at he
      · cases he
      · cases he; exact .inr rfl
    · cases he

theorem exec_openDir_at {p : Path} {fd : Fd} (he : exec cr (.openDir p) h (.ok fd) = some h') :
    ∃ q, h.fs.resolve p = .ok q ∧ h.fs.node q = some .dir ∧ fd = h.nextFd ∧ h' = h.opened (.directory q) := by
  simp only [exec, succeed] at he
  split at he
  · next q hq =>
    split at he
    · next hc => cases he; exact ⟨q, hq, hc.1, hc.2, rfl⟩
    · cases he
  · cases he

theorem exec_openDir {p : Path} {fd : Fd} (hp : h.fs.Plain p)
    (he : exec cr (.openDir p) h (.ok fd) = some h') :
    h.fs.node p = some .dir ∧ fd = h.nextFd ∧ h' = h.opened (.directory p) := by
  obtain ⟨q, hq, hdir, hfd, hh⟩ := exec_openDir_at he
  obtain ⟨rfl, -⟩ := resolve_plain hp hq
  exact ⟨hdir, hfd, hh⟩

theorem exec_openat {dir fd : Fd} {d : Path} {name : Name} (hd : h.files dir = some (.directory d))
    (he : exec cr (.openat dir name) h (.ok fd) = some h') :
    fd = h.nextFd ∧
      ((∃ i, Created (d ++ [name]) i h.euid h.fs h'.fs ∧
          h' = { h with fs := h'.fs }.opened (.regular i 0)) ∨
        (∃ i, h.fs.node (d ++ [name]) = some (.file i) ∧ h' = h.opened (.regular i 0)) ∨
        (h.fs.node (d ++ [name]) = some .special ∧ h' = h.opened .special)) := by
  simp only [exec, succeed, hd] at he
  split at he
  · next hfd =>
    refine ⟨hfd, ?_⟩
    split at he
    · next hn =>
      split at he
      · next hf => cases he; exact .inl ⟨_, created_create (h := hf) hn, rfl⟩
      · cases he
    · next i hi => cases he; exact .inr (.inl ⟨i, hi, rfl⟩)
    · next hs => cases he; exact .inr (.inr ⟨hs, rfl⟩)
    · cases he
  · cases he

theorem exec_fstat {fd : Fd} {st : Stat} (he : exec cr (.fstat fd) h (.ok st) = some h') :
    h.statOf fd = some st := by
  simp only [exec, succeed] at he
  split at he
  · next hs => exact hs
  · cases he

theorem exec_geteuid {uid : Nat} (he : exec cr .geteuid h (.ok uid) = some h') : uid = h.euid := by
  by_contra hne
  simp [exec, succeed, hne] at he

theorem exec_ftruncate {fd : Fd} {i pos : Nat} (hf : h.files fd = some (.regular i pos))
    (he : exec cr (.ftruncate fd) h (.ok ()) = some h') : h' = { h with fs := h.fs.setData i [] } := by
  simpa [exec, succeed, hf] using he.symm

theorem exec_lseek {fd : Fd} {i pos : Nat} (hf : h.files fd = some (.regular i pos))
    (he : exec cr (.lseek fd) h (.ok ()) = some h') : h' = h.setFile fd (.regular i 0) := by
  simpa [exec, succeed, hf] using he.symm

theorem exec_read {fd : Fd} {n i pos : Nat} {data : Bytes} (hf : h.files fd = some (.regular i pos))
    (he : exec cr (.read fd n) h (.ok data) = some h') :
    data = ((h.fs.inode i).data.drop pos).take data.length ∧ data.length ≤ n ∧
      h' = h.setFile fd (.regular i (pos + data.length)) := by
  simp only [exec, succeed, hf] at he
  split at he
  · next hc => cases he; exact ⟨hc.1, hc.2.1, rfl⟩
  · cases he

theorem exec_write {fd : Fd} {i pos k : Nat} {data : Bytes} (hf : h.files fd = some (.regular i pos))
    (he : exec cr (.write fd data) h (.ok k) = some h') :
    k ≤ data.length ∧
      h' = { h with fs := h.fs.setData i (splice (h.fs.inode i).data pos (data.take k)) }.setFile fd
        (.regular i (pos + k)) := by
  simp only [exec, succeed, hf] at he
  split at he
  · next hk => cases he; exact ⟨hk, rfl⟩
  · cases he

theorem exec_close {fd : Fd} {r : Except Nat Unit} (he : exec cr (.close fd) h r = some h') :
    h'.fs = h.fs ∧ h'.euid = h.euid ∧ h'.nextFd = h.nextFd ∧ ∀ fd', fd' ≠ fd → h'.files fd' = h.files fd' := by
  cases r with
  | error e =>
    obtain ⟨h1, h2, h3, h4⟩ := exec_error he
    exact ⟨h1, h4, h3, fun _ _ => by rw [h2]⟩
  | ok v =>
    simp only [exec, succeed, Option.some.injEq] at he
    subst he
    exact ⟨rfl, rfl, rfl, fun fd' hne => by simp [hne]⟩

theorem exec_unlinkat_ok {dir : Fd} {d : Path} {name : Name} (hd : h.files dir = some (.directory d))
    (he : exec cr (.unlinkat dir name) h (.ok ()) = some h') :
    Removed (d ++ [name]) h.fs h'.fs ∧ h' = { h with fs := h'.fs } := by
  simp only [exec, succeed, hd] at he
  split at he
  · next hn => cases he; exact ⟨removed_erase (h := hn.2) hn.1, rfl⟩
  · cases he

theorem exec_unlinkat {dir : Fd} {d : Path} {name : Name} {r : Except Nat Unit}
    (hd : h.files dir = some (.directory d)) (he : exec cr (.unlinkat dir name) h r = some h') :
    h' = h ∨ (Removed (d ++ [name]) h.fs h'.fs ∧ h' = { h with fs := h'.fs }) := by
  cases r with
  | error e => exact .inl (by simpa [exec, fail] using he.symm)
  | ok v => exact .inr (exec_unlinkat_ok hd he)

theorem exec_randBytes {n : Nat} {b : Bytes} (he : exec cr (.randBytes n) h (.ok b) = some h') : b.length = n := by
  simp only [exec, succeed] at he
  split at he
  · next hb => exact hb
  · cases he

theorem exec_mac {key input v : Bytes} (he : exec cr (.mac key input) h (.ok v) = some h') :
    v = cr.hmac key input := by
  simp only [exec, succeed] at he
  split at he
  · next hv => exact hv
  · cases he

theorem exec_rename {src dst : Path} (hs : h.fs.Plain src) (hd : h.fs.Plain dst)
    (he : exec cr (.rename src dst) h (.ok ()) = some h') :
    h.fs.rename src dst = some h'.fs ∧ h' = { h with fs := h'.fs } := by
  simp only [exec, succeed] at he
  split at he
  · next s d hs' hd' =>
    obtain ⟨rfl, -⟩ := resolve_plain hs hs'
    obtain ⟨rfl, -⟩ := resolve_plain hd hd'
    obtain ⟨fs, hfs, rfl⟩ := Option.map_eq_some_iff.mp he
    exact ⟨hfs, rfl⟩
  · cases he

theorem target_eq {fs : Fs} {p : Path} {x : Node} (hn : fs.node p = some x)
    (hx : ∀ t, x ≠ .symlink t) : fs.target p = some (p, x) := by
  rw [Fs.target, follow_eq hn hx]
  simp [hn]

theorem exec_fileSize_target {p q : Path} {i n : Nat} (ht : h.fs.target p = some (q, .file i))
    (he : exec cr (.fileSize p) h (.ok n) = some h') : n = (h.fs.inode i).data.length := by
  simp only [exec, succeed, ht] at he
  split at he
  · next hl => exact hl.symm
  · cases he

theorem exec_fileSize {p : Path} {i n : Nat} (hn : h.fs.node p = some (.file i))
    (he : exec cr (.fileSize p) h (.ok n) = some h') : n = h.fs.sizeAt p := by
  rw [exec_fileSize_target (target_eq hn (by simp)) he]
  simp [Fs.sizeAt, Fs.fileAt, hn]

theorem exec_listDir_target {p q : Path} {l : List Name} (ht : h.fs.target p = some (q, .dir))
    (he : exec cr (.listDir p) h (.ok l) = some h') : l.Perm (h.fs.children q) := by
  simp only [exec, succeed, ht] at he
  split at he
  · next hl => exact hl
  · cases he

theorem exec_listDir {p : Path} {l : List Name} (hn : h.fs.node p = some .dir)
    (he : exec cr (.listDir p) h (.ok l) = some h') : l.Perm (h.fs.children p) :=
  exec_listDir_target (target_eq hn (by simp)) he

theorem exec_relative {p base rel : Path} (he : exec cr (.relative p base) h (.ok rel) = some h') :
    p = base ++ rel := by
  simp only [exec, succeed] at he
  split at he
  · next hp => exact hp
  · cases he

theorem exec_openStream_target {p q : Path} {fd : Fd} {i : Nat} (ht : h.fs.target p = some (q, .file i))
    (he : exec cr (.openStream p) h (.ok fd) = some h') :
    fd = h.nextFd ∧ h' = h.opened (.regular i 0) := by
  simp only [exec, succeed, ht] at he
  split at he
  · next hfd => cases he; exact ⟨hfd, rfl⟩
  · cases he

theorem exec_readStream {fd : Fd} {n i pos : Nat} {data : Bytes} (hf : h.files fd = some (.regular i pos))
    (he : exec cr (.readStream fd n) h (.ok data) = some h') :
    data = ((h.fs.inode i).data.drop pos).take n ∧ h' = h.setFile fd (.regular i (pos + data.length)) := by
  simp only [exec, succeed, hf] at he
  split at he
  · next hd => cases he; exact ⟨hd, rfl⟩
  · cases he

end

/-! ## The owner of new files -/

theorem exec_euid {c : Call} {r : Except Nat (Val c)} (he : exec cr c h r = some h') : h'.euid = h.euid := by
  cases r with
  | error e => exact (exec_error he).2.2.2
  | ok v =>
    by_cases hl : c.looks = true
    · rw [exec_looks hl he]
    · cases c <;> simp only [Call.looks, not_true_eq_false] at hl
      case createDirectory p => cases v <;> simp only [exec, succeed, Option.map_eq_some_iff] at he <;> grind
      case mkdir p => cases v <;> simp only [exec, succeed, Option.map_eq_some_iff] at he <;> grind
      all_goals
        simp only [exec, succeed] at he
        grind [Host.opened, Host.setFile, Option.map_eq_some_iff]

/-- A new directory is no file. -/
theorem mkdir_no_file {fs fs' : Fs} {p q : Path} {i : Nat} (hm : fs.mkdir q = some fs') (hn : fs.node p = none) :
    fs'.node p ≠ some (.file i) := by
  intro hi
  unfold Fs.mkdir at hm
  split at hm
  · next q' _ =>
    split at hm
    · cases hm
      by_cases hp : p = q'
      · rw [hp, node_insert_self] at hi
        cases hi
      · rw [node_insert_ne hp, hn] at hi
        cases hi
    · cases hm
  · cases hm

/-- A new file belongs to the process that made it. -/
theorem exec_created {c : Call} {r : Except Nat (Val c)} {p : Path} {i uid : Nat}
    (he : exec cr c h r = some h') (hc : Created p i uid h.fs h'.fs) : uid = h.euid := by
  obtain ⟨hn, hfresh, hnode, hinode⟩ := hc
  have hi : h'.fs.node p = some (.file i) := by rw [hnode, Function.update_self]
  have hsame : h'.fs.node p ≠ h.fs.node p := by rw [hn, hi]; simp
  cases r with
  | error e => exact absurd (by rw [(exec_error he).1]) hsame
  | ok v =>
    by_cases hr : c.reads = true
    · exact absurd (by rw [exec_reads hr he]) hsame
    · cases c <;> simp only [Call.reads, Call.looks, not_true_eq_false] at hr
      case createDirectory q =>
        cases v <;> simp only [exec, succeed, Option.map_eq_some_iff] at he
        · grind
        · obtain ⟨fs', hm, rfl⟩ := he
          exact absurd hi (mkdir_no_file hm hn)
      case mkdir q =>
        cases v <;> simp only [exec, succeed, Option.map_eq_some_iff] at he
        · grind
        · obtain ⟨fs', hm, rfl⟩ := he
          exact absurd hi (mkdir_no_file hm hn)
      case openat dir name =>
        obtain ⟨d, hd⟩ : ∃ d, h.files dir = some (.directory d) := by
          simp only [exec, succeed] at he
          grind
        obtain ⟨-, ⟨j, ⟨-, -, hnode', hinode'⟩, -⟩ | ⟨j, -, rfl⟩ | ⟨-, rfl⟩⟩ := exec_openat hd he
        · have hp : p = d ++ [name] := by
            by_contra hp
            rw [hnode', Function.update_of_ne hp, hn] at hi
            cases hi
          rw [hp, hnode', Function.update_self] at hi
          cases hi
          have := congrFun (hinode.symm.trans hinode') i
          rw [Function.update_self, Function.update_self] at this
          exact congrArg Inode.uid this
        · exact absurd rfl hsame
        · exact absurd rfl hsame
      case rename src dst =>
        simp only [exec, succeed] at he
        split at he
        · next s d _ _ =>
          obtain ⟨fs', hren, rfl⟩ := Option.map_eq_some_iff.mp he
          obtain ⟨x, hx, -, ⟨rfl, -⟩ | ⟨-, -, h1, h2, -, h4⟩⟩ := rename_cases hren
          · exact absurd rfl hsame
          · by_cases hs : p = s
            · rw [hs, h1] at hi
              cases hi
            · by_cases hd : p = d
              · rw [hd, h2] at hi
                exact absurd (hx.trans hi) (hfresh s)
              · exact absurd (h4 p hs hd) hsame
        · cases he
      case unlinkat dir name =>
        simp only [exec, succeed] at he
        split at he
        · next d _ =>
          split at he
          · next hne =>
            cases he
            obtain ⟨-, -, hnode', -⟩ := @removed_erase h.fs (d ++ [name]) hne.2 hne.1
            rw [hnode', Function.update_apply, hn] at hi
            split at hi <;> cases hi
          · cases he
        · cases he
      all_goals
        simp only [exec, succeed] at he
        grind [Host.opened, Host.setFile, node_setData]

/-! ## A host that answers every call -/

/-- The answer of a host with nothing in the way: success where it is possible. -/
def answer (cr : Crypto) : (c : Call) → Host → Except Nat (Val c)
  | .lstat p, h => h.fs.typeAt p
  | .fileSize p, h =>
    match h.fs.target p with
    | some (_, .file i) => .ok (h.fs.inode i).data.length
    | _ => .error ENOENT
  | .createDirectory p, h =>
    match h.fs.mkdir p, h.fs.target p with
    | some _, _ => .ok true
    | none, some (_, .dir) => .ok false
    | none, _ => .error ENOENT
  | .mkdir p, h =>
    match h.fs.mkdir p, h.fs.typeAt p with
    | some _, _ => .ok true
    | none, .ok t => if t = .notFound then .error ENOENT else .ok false
    | none, .error e => .error e
  | .openDir p, h =>
    match h.fs.resolve p with
    | .ok q => if h.fs.node q = some .dir then .ok h.nextFd else .error ENOTDIR
    | .error e => .error e
  | .openat dir name, h =>
    match h.files dir with
    | some (.directory d) =>
      match h.fs.node (d ++ [name]) with
      | none => if h.fs.Free (d ++ [name]) then .ok h.nextFd else .error ENOENT
      | some (.file _) | some .special => .ok h.nextFd
      | _ => .error ELOOP
    | _ => .error ENOTDIR
  | .fstat fd, h =>
    match h.statOf fd with
    | some st => .ok st
    | none => .error EBADF
  | .geteuid, h => .ok h.euid
  | .ftruncate fd, h | .lseek fd, h | .seekStream fd, h =>
    match h.files fd with
    | some (.regular _ _) => .ok ()
    | _ => .error EBADF
  | .read fd n, h | .readStream fd n, h =>
    match h.files fd with
    | some (.regular i pos) => .ok (((h.fs.inode i).data.drop pos).take n)
    | _ => .error EBADF
  | .write fd data, h =>
    match h.files fd with
    | some (.regular _ _) => .ok data.length
    | _ => .error EBADF
  | .unlinkat dir name, h =>
    match h.files dir with
    | some (.directory d) =>
      if h.fs.node (d ++ [name]) ≠ none ∧ h.fs.node (d ++ [name]) ≠ some .dir then .ok () else .error ENOENT
    | _ => .error ENOTDIR
  | .rename src dst, h =>
    match h.fs.resolve src, h.fs.resolve dst with
    | .ok s, .ok d => if (h.fs.rename s d).isSome then .ok () else .error EACCES
    | _, _ => .error ENOENT
  | .listDir p, h =>
    match h.fs.target p with
    | some (q, .dir) => .ok (h.fs.children q)
    | _ => .error ENOTDIR
  | .relative p base, _ => if base <+: p then .ok (p.drop base.length) else .error ENOENT
  | .openStream p, h =>
    match h.fs.target p with
    | some (_, .file _) => .ok h.nextFd
    | _ => .error ENOENT
  | .digest b, _ => .ok (cr.sha256 b)
  | .randBytes n, _ => .ok (List.replicate n 0)
  | .mac k m, _ => .ok (cr.hmac k m)
  | .flock _, _ | .fsync _, _ | .close _, _ | .nextEntry _, _ => .ok ()

theorem typeAt_error {fs : Fs} {p : Path} {e : Nat} (h : fs.typeAt p = .error e) : e ≠ ENOENT := by
  unfold Fs.typeAt at h
  split at h
  · cases h
  · split at h
    · cases h
    · next hne => cases h; exact hne

/-- Whatever the call, there is an answer. -/
theorem exec_answer (cr : Crypto) (c : Call) (h : Host) : (exec cr c h (answer cr c h)).isSome := by
  cases c
  case lstat p =>
    cases ht : h.fs.typeAt p with
    | error e => simp [answer, exec, fail, ht, typeAt_error ht]
    | ok t => simp [answer, exec, succeed, ht]
  case mkdir p =>
    simp only [answer]
    split
    · next hm => simp [exec, succeed, hm]
    · next ht =>
      split
      · simp [exec, fail]
      · next hne => simp [exec, succeed, ht, hne]
    · simp [exec, fail]
  case createDirectory p =>
    simp only [answer]
    split
    · next hm => simp [exec, succeed, hm]
    · next ht => simp [exec, succeed, ht]
    · simp [exec, fail]
  case openDir p =>
    simp only [answer]
    split
    · next hq =>
      split
      · next hd => simp [exec, succeed, hq, hd]
      · simp [exec, fail]
    · simp [exec, fail]
  case openat dir name =>
    simp only [answer]
    split
    · next hd =>
      split
      · next hn =>
        split
        · next hf => simp [exec, succeed, hd, hn, hf]
        · simp [exec, fail]
      · next hn => simp [exec, succeed, hd, hn]
      · next hn => simp [exec, succeed, hd, hn]
      · simp [exec, fail]
    · simp [exec, fail]
  case rename src dst =>
    simp only [answer]
    split
    · next hs hd =>
      split
      · next hr => simpa [exec, succeed, hs, hd] using hr
      · simp [exec, fail]
    · simp [exec, fail]
  case unlinkat dir name =>
    simp only [answer]
    split
    · next hd =>
      split
      · next hn => simp [exec, succeed, hd, hn.1, hn.2]
      · simp [exec, fail]
    · simp [exec, fail]
  case read fd n =>
    simp only [answer]
    split
    · next hf => simp [exec, succeed, hf]
    · simp [exec, fail, EBADF, EINTR]
  case write fd data =>
    simp only [answer]
    split
    · next hf => simp [exec, succeed, hf]
    · simp [exec, fail, EBADF, EINTR]
  case relative p base =>
    simp only [answer]
    split
    · next hp => simp [exec, succeed, List.prefix_iff_eq_append.mp hp]
    · simp [exec, fail]
  case geteuid => simp [answer, exec, succeed]
  case digest b => simp [answer, exec, succeed]
  case randBytes n => simp [answer, exec, succeed]
  case mac k m => simp [answer, exec, succeed]
  case flock fd => simp [answer, exec, succeed]
  case fsync fd => simp [answer, exec, succeed]
  case close fd => simp [answer, exec, succeed]
  case nextEntry p => simp [answer, exec, succeed]
  -- one match on what the call needs, and the same match in `succeed`
  all_goals
    simp only [answer]
    split
    · next hx => simp [exec, succeed, hx]
    · simp [exec, fail]

/-! ## Calls that do not fail -/

/-- No failure but an interruption by a signal, and a write gets something written. -/
def Calm : (c : Call) → Except Nat (Val c) → Prop
  | .read _ _, .error e | .write _ _, .error e => e = EINTR
  | .write _ _, .ok k => 0 < k
  | _, .error _ => False
  | _, .ok _ => True

/-- Calls that no signal interrupts. -/
def Call.steady : Call → Bool
  | .read _ _ | .write _ _ => false
  | _ => true

theorem calm_ok {c : Call} (hc : c.steady = true) (v : Val c) : Calm c (.ok v) := by
  cases c <;> trivial

theorem not_calm_error {c : Call} (hc : c.steady = true) (e : Nat) : ¬ Calm c (.error e) := by
  cases c <;> first | exact id | cases hc

theorem steady_of_reads {c : Call} (hc : c.reads = true) : c.steady = true := by
  cases c <;> first | rfl | cases hc

theorem steady_of_looks {c : Call} (hc : c.looks = true) : c.steady = true := steady_of_reads (reads_of_looks hc)

section
variable {cr : Crypto} {h : Host}

theorem lstat_can {p : Path} {t : FileType} (ht : h.fs.typeAt p = .ok t) :
    exec cr (.lstat p) h (.ok t) = some h := by
  simp [exec, succeed, ht]

theorem fileSize_can {p q : Path} {i : Nat} (ht : h.fs.target p = some (q, .file i)) :
    exec cr (.fileSize p) h (.ok (h.fs.inode i).data.length) = some h := by
  simp [exec, succeed, ht]

theorem openStream_can {p q : Path} {i : Nat} (ht : h.fs.target p = some (q, .file i)) :
    exec cr (.openStream p) h (.ok h.nextFd) = some (h.opened (.regular i 0)) := by
  simp [exec, succeed, ht]

theorem readStream_can {fd : Fd} {i pos n : Nat} (hf : h.files fd = some (.regular i pos)) :
    exec cr (.readStream fd n) h (.ok (((h.fs.inode i).data.drop pos).take n)) =
      some (h.setFile fd (.regular i (pos + (((h.fs.inode i).data.drop pos).take n).length))) := by
  simp [exec, succeed, hf]

theorem read_can {fd : Fd} {i pos n : Nat} (hf : h.files fd = some (.regular i pos)) :
    ∃ r h', Calm (.read fd n) r ∧ exec cr (.read fd n) h r = some h' := by
  obtain ⟨h', he⟩ := Option.isSome_iff_exists.mp (exec_answer cr (.read fd n) h)
  simp only [answer, hf] at he
  exact ⟨.ok _, h', trivial, he⟩

theorem write_can {fd : Fd} {i pos : Nat} {data : Bytes} (hf : h.files fd = some (.regular i pos))
    (hne : 0 < data.length) : ∃ r h', Calm (.write fd data) r ∧ exec cr (.write fd data) h r = some h' := by
  obtain ⟨h', he⟩ := Option.isSome_iff_exists.mp (exec_answer cr (.write fd data) h)
  simp only [answer, hf] at he
  exact ⟨.ok _, h', hne, he⟩

/-- A signal interrupts a call: nothing but that it is one less. -/
theorem fail_interrupted {c : Call} {h' : Host} (hc : c.steady = false) (he : fail c h EINTR = some h') :
    0 < h.signals ∧ h' = { h with signals := h.signals - 1 } := by
  have key : (if 0 < h.signals then some { h with signals := h.signals - 1 } else none) = some h' := by
    cases c <;> first | exact he | cases hc
  split at key
  · next hpos => exact ⟨hpos, (Option.some.inj key).symm⟩
  · cases key

theorem listDir_can_target {p q : Path} (ht : h.fs.target p = some (q, .dir)) :
    exec cr (.listDir p) h (.ok (h.fs.children q)) = some h := by
  simp [exec, succeed, ht]

theorem listDir_can {p : Path} (hn : h.fs.node p = some .dir) :
    exec cr (.listDir p) h (.ok (h.fs.children p)) = some h := listDir_can_target (target_eq hn (by simp))

theorem openDir_can {p : Path} (hn : h.fs.node p = some .dir) :
    exec cr (.openDir p) h (.ok h.nextFd) = some (h.opened (.directory p)) := by
  simp [exec, succeed, resolve_of_node hn, hn]

theorem mkdir_can {d : Path} {n : Name} (hd : h.fs.node d = some .dir) (hn : h.fs.node (d ++ [n]) = none)
    (hv : ValidName n) : ∃ fs', h.fs.mkdir (d ++ [n]) = some fs' := by
  have hr : h.fs.resolve (d ++ [n]) = .ok (d ++ [n]) := resolve_eq (by rwa [List.dropLast_concat])
  have hf : h.fs.Free (d ++ [n]) := by
    refine ⟨by simp, by rwa [List.dropLast_concat], by rw [hn]; simp, ?_⟩
    rwa [List.getLastD_concat]
  simp only [Fs.mkdir, hr]
  rw [dif_pos ⟨hf, hn⟩]
  exact ⟨_, rfl⟩

/-- A directory that is there or missing, in one that is there, can be created. -/
theorem createDirectory_can {d : Path} {n : Name} (hd : h.fs.node d = some .dir)
    (hn : h.fs.node (d ++ [n]) = some .dir ∨ h.fs.node (d ++ [n]) = none) (hv : ValidName n) :
    ∃ b h', exec cr (.createDirectory (d ++ [n])) h (.ok b) = some h' := by
  rcases hn with hn | hn
  · exact ⟨false, h, by simp [exec, succeed, target_eq hn]⟩
  · obtain ⟨fs', hfs⟩ := mkdir_can hd hn hv
    exact ⟨true, { h with fs := fs' }, by simp [exec, succeed, hfs]⟩

theorem exec_createDirectory_ok {h' : Host} {d : Path} {n : Name} {b : Bool} (hd : h.fs.node d = some .dir)
    (hl : ∀ t, h.fs.node (d ++ [n]) ≠ some (.symlink t))
    (he : exec cr (.createDirectory (d ++ [n])) h (.ok b) = some h') :
    (h' = h ∧ h.fs.node (d ++ [n]) = some .dir) ∨
      ∃ fs', MadeDir (d ++ [n]) h.fs fs' ∧ h' = { h with fs := fs' } := by
  rcases exec_createDirectory (plain_child n hd) he with ⟨-, hm, hh⟩ | ⟨rfl, ⟨e, hr⟩ | ⟨q, hq⟩⟩
  · exact .inr ⟨_, hm, hh⟩
  · cases hr
  · exact .inl ⟨rfl, node_of_target (plain_child n hd) hl hq⟩

end

end Posix
