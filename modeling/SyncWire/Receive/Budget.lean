import Mathlib.Algebra.BigOperators.Group.Finset.Basic
import Mathlib.Algebra.BigOperators.Intervals
import SyncWire.Calm
import SyncWire.Receive.Destination

/-!
# `within_partial_budget`

The check runs over the state directory in whatever order the system lists it, and
compares each size with what is left of the limit before adding it.  `WithinBudget`
says the same with exact sums over the set of entries.

* `withinPartialBudget_spec`: the check is exactly that, unless a call fails.
* `withinPartialBudgetChecked_eq`: with every operation on the running sum checked,
  nothing changes.  This is an equation between programs, so it covers runs in which
  calls fail as well.
-/

namespace SyncWire

open Wire Effect Posix Posix.Fs FileTransfer

/-- Adding a size that was checked against what is left does not overflow. -/
theorem toNat_add_of_le {limit bytes : UInt64} {size : Nat} (hb : bytes ≤ limit)
    (hs : size ≤ (limit - bytes).toNat) :
    (bytes + UInt64.ofNat size).toNat = bytes.toNat + size ∧ bytes + UInt64.ofNat size ≤ limit := by
  have hb' := UInt64.le_iff_toNat_le.mp hb
  have hl := limit.toNat_lt
  rw [UInt64.toNat_sub_of_le _ _ hb] at hs
  have hadd : (bytes + UInt64.ofNat size).toNat = bytes.toNat + size := by
    rw [UInt64.toNat_add, UInt64.toNat_ofNat']
    omega
  exact ⟨hadd, UInt64.le_iff_toNat_le.mpr (by omega)⟩

namespace FileTransfer

/-- The entries of the state directory beside the upload's own part file. -/
def otherPartials (fs : Fs) (dir : Path) (own : Name) : Finset Name := (fs.names dir).erase own

/-- **The budget.**  Only regular files beside our own, and with our size and our file they are within
the limits. -/
structure WithinBudget (fs : Fs) (dir : Path) (own : Name) (metadata : UploadMetadata) (limits : TransferLimits) :
    Prop where
  regular : ∀ n ∈ otherPartials fs dir own, ∃ i, fs.node (dir ++ [n]) = some (.file i)
  bytes : metadata.fileSize.toNat + ∑ n ∈ otherPartials fs dir own, fs.sizeAt (dir ++ [n]) ≤
    limits.maxPartialBytes.toNat
  files : 1 + (otherPartials fs dir own).card ≤ limits.maxPartialFiles

section
variable {fs : Fs} {dir : Path} (own : Name) {names : List Name}

/-- From a listing in any order. -/
theorem otherPartials_eq (hperm : names.Perm (fs.children dir)) :
    otherPartials fs dir own = (names.filter fun n => decide (n ≠ own)).toFinset := by
  ext n
  simp only [otherPartials, Finset.mem_erase, mem_names, List.mem_toFinset, List.mem_filter, hperm.mem_iff,
    mem_children, decide_eq_true_eq]
  exact and_comm

theorem nodup_others (hperm : names.Perm (fs.children dir)) : (names.filter fun n => decide (n ≠ own)).Nodup :=
  (hperm.nodup_iff.mpr (nodup_children _ _)).filter _

end

/-! ## With checked arithmetic -/

/-- `a - b`, unless it would underflow. -/
def checkedSub (a b : UInt64) : Option UInt64 := if b ≤ a then some (a - b) else none

/-- `a + size`, unless it would pass `2^64`. -/
def checkedAdd (a : UInt64) (size : Nat) : Option UInt64 :=
  if a.toNat + size < 2 ^ 64 then some (a + UInt64.ofNat size) else none

/-- `countPartials` that gives `none` where an operation on `bytes` would wrap. -/
def countPartialsChecked (prepared : PreparedDestination) (limits : TransferLimits) :
    List Name → (bytes : UInt64) → (count : Nat) → Sys (Option Bool)
  | [], _, count => pure (some (decide (count ≤ limits.maxPartialFiles)))
  | name :: names, bytes, count => do
    if name ≠ prepared.partName then
      match ← sys (.lstat (prepared.stateRoot ++ [name])) with
      | .error _ => pure (some false)
      | .ok status =>
        if status ≠ .regular then pure (some false)
        else
          match ← sys (.fileSize (prepared.stateRoot ++ [name])) with
          | .error _ => pure (some false)
          | .ok size =>
            match checkedSub limits.maxPartialBytes bytes with
            | none => pure none
            | some left =>
              if size > left.toNat then pure (some false)
              else
                match checkedAdd bytes size with
                | none => pure none
                | some bytes =>
                  if count + 1 > limits.maxPartialFiles then pure (some false)
                  else
                    match ← sys (.nextEntry prepared.stateRoot) with
                    | .error _ => pure (some false)
                    | .ok () => countPartialsChecked prepared limits names bytes (count + 1)
    else
      match ← sys (.nextEntry prepared.stateRoot) with
      | .error _ => pure (some false)
      | .ok () => countPartialsChecked prepared limits names bytes count

def withinPartialBudgetChecked (prepared : PreparedDestination) (metadata : UploadMetadata)
    (limits : TransferLimits) : Sys (Option Bool) :=
  if metadata.fileSize > limits.maxPartialBytes then pure (some false)
  else do
    match ← sys (.listDir prepared.stateRoot) with
    | .error _ => pure (some false)
    | .ok names => countPartialsChecked prepared limits names metadata.fileSize 1

section
variable {prepared : PreparedDestination} {metadata : UploadMetadata} {limits : TransferLimits}

/-- The sum never passes the limit, so neither operation wraps. -/
theorem countPartialsChecked_eq (names : List Name) (bytes : UInt64) (count : Nat)
    (hb : bytes ≤ limits.maxPartialBytes) :
    countPartialsChecked prepared limits names bytes count =
      some <$> countPartials prepared limits names bytes count := by
  induction names generalizing bytes count with
  | nil => simp [countPartialsChecked, countPartials]
  | cons name names ih =>
    rw [countPartialsChecked, countPartials]
    split
    · rw [map_bind]
      refine bind_congr fun r => ?_
      cases r with
      | error e => simp
      | ok status =>
        simp only
        split
        · simp
        · rw [map_bind]
          refine bind_congr fun r => ?_
          cases r with
          | error e => simp
          | ok size =>
            simp only [checkedSub, if_pos hb]
            split
            · simp
            · next hs =>
              obtain ⟨hadd, hle⟩ := toNat_add_of_le hb (Nat.not_lt.mp hs)
              have hlt : bytes.toNat + size < 2 ^ 64 := hadd ▸ UInt64.toNat_lt _
              simp only [checkedAdd, if_pos hlt]
              split
              · simp
              · rw [map_bind]
                refine bind_congr fun r => ?_
                cases r with
                | error e => simp
                | ok v => exact ih _ _ hle
    · rw [map_bind]
      refine bind_congr fun r => ?_
      cases r with
      | error e => simp
      | ok v => exact ih _ _ hb

theorem withinPartialBudgetChecked_eq :
    withinPartialBudgetChecked prepared metadata limits =
      some <$> withinPartialBudget prepared metadata limits := by
  rw [withinPartialBudgetChecked, withinPartialBudget]
  split
  · simp
  · next hle =>
    rw [map_bind]
    refine bind_congr fun r => ?_
    cases r with
    | error e => simp
    | ok names => exact countPartialsChecked_eq names _ 1 (UInt64.not_lt.mp hle)

/-! ## Against the exact sums -/

variable {cr : Crypto} {rely : net.Rely} {I F : List net.Event → Prop} {w : World} {dir : Path}

/-- The loop over the entries still to come, in the order in which they come: it decides whether they are regular
files and within the limits, unless a call fails. -/
theorem countPartials_spec (hP : Permits rely I F) (names : List Name) (bytes : UInt64) (count : Nat)
    (hb : bytes ≤ limits.maxPartialBytes) (hI : I w.log) (hdir : RootAt w.host.fs prepared.stateRoot dir)
    (hin : ∀ n ∈ names, w.host.fs.node (dir ++ [n]) ≠ none) :
    Total (solo (exec cr) rely) (countPartials prepared limits names bytes count) w fun r w' =>
      w'.host = w.host ∧ (F w'.log ∧ r = false ∨
        (r = true ↔
          (∀ n ∈ names.filter fun n => decide (n ≠ prepared.partName),
            ∃ i, w.host.fs.node (dir ++ [n]) = some (.file i)) ∧
          bytes.toNat + ((names.filter fun n => decide (n ≠ prepared.partName)).map fun n =>
            w.host.fs.sizeAt (dir ++ [n])).sum ≤ limits.maxPartialBytes.toNat ∧
          count + (names.filter fun n => decide (n ≠ prepared.partName)).length ≤ limits.maxPartialFiles)) := by
  induction names generalizing bytes count w with
  | nil =>
    refine total_pure ⟨rfl, .inr ?_⟩
    simpa using fun _ => UInt64.le_iff_toNat_le.mp hb
  | cons n names ih =>
    obtain ⟨hn, hin'⟩ := List.forall_mem_cons.mp hin
    have hnext : exec cr (.nextEntry prepared.stateRoot) w.host (.ok ()) = some w.host := rfl
    have hat := resolve_child hdir.1 hdir.2 n
    rw [countPartials]
    split
    · next hne =>
      rw [List.filter_cons_of_pos (by simpa using hne)]
      simp only [List.forall_mem_cons, List.length_cons, List.map_cons, List.sum_cons]
      refine total_look hP rfl hI (lstat_can (typeAt_of_resolve hat))
        (fun _ hF => total_pure ⟨rfl, .inl ⟨hF, rfl⟩⟩) fun t he hI1 => ?_
      obtain rfl := Except.ok.inj ((typeAt_of_resolve hat).symm.trans (exec_lstat he))
      simp only
      split
      · next hreg =>
        -- the entry is not a regular file
        refine total_pure ⟨rfl, .inr ⟨(by rintro ⟨⟩), ?_⟩⟩
        rintro ⟨⟨⟨i, hi⟩, -⟩, -⟩
        exact absurd (by rw [hi]; rfl) hreg
      · next hreg =>
        obtain ⟨i, hi⟩ := node_of_typeOf.2 (not_not.mp hreg)
        refine total_look hP rfl hI1 (fileSize_can (target_file hat hi))
          (fun _ hF => total_pure ⟨rfl, .inl ⟨hF, rfl⟩⟩) fun size he hI2 => ?_
        have hsize : size = w.host.fs.sizeAt (dir ++ [n]) := by
          rw [exec_fileSize_target (target_file hat hi) he]
          simp [Fs.sizeAt, Fs.fileAt, hi]
        have hb' := UInt64.le_iff_toNat_le.mp hb
        subst hsize
        simp only
        split
        · next hs =>
          -- the size is more than what is left
          refine total_pure ⟨rfl, .inr ⟨(by rintro ⟨⟩), ?_⟩⟩
          rintro ⟨-, hsum, -⟩
          have hs' : w.host.fs.sizeAt (dir ++ [n]) > (limits.maxPartialBytes - bytes).toNat := hs
          rw [UInt64.toNat_sub_of_le _ _ hb] at hs'
          omega
        · next hs =>
          obtain ⟨hadd, hle⟩ := toNat_add_of_le hb (Nat.not_lt.mp hs)
          split
          · exact total_pure ⟨rfl, .inr ⟨(by rintro ⟨⟩), by rintro ⟨-, -, hcount⟩; omega⟩⟩
          · refine total_look hP rfl hI2 hnext (fun _ hF => total_pure ⟨rfl, .inl ⟨hF, rfl⟩⟩) fun _ he hI3 => ?_
            refine total_mono (ih (w := ((w.push _).push _).push _) _ _ hle hI3 hdir hin') ?_
            rintro r w' ⟨hh, hr⟩
            refine ⟨hh, hr.imp id fun hiff => hiff.trans ?_⟩
            rw [hadd]
            simp only [NetSig.Local.push_host, Nat.add_assoc, Nat.add_comm 1]
            constructor
            · rintro ⟨h1, h2, h3⟩
              exact ⟨⟨⟨i, hi⟩, h1⟩, h2, h3⟩
            · rintro ⟨⟨-, h1⟩, h2, h3⟩
              exact ⟨h1, h2, h3⟩
    · next hne =>
      rw [List.filter_cons_of_neg (by simpa using hne)]
      refine total_look hP rfl hI hnext (fun _ hF => total_pure ⟨rfl, .inl ⟨hF, rfl⟩⟩) fun _ he hI1 => ?_
      exact ih (w := w.push _) _ _ hb hI1 hdir hin'

/-- **The check decides the budget**, whatever the order of the listing, unless a call fails. -/
theorem withinPartialBudget_spec (hP : Permits rely I F) (hI : I w.log)
    (hdir : RootAt w.host.fs prepared.stateRoot dir) :
    Total (solo (exec cr) rely) (withinPartialBudget prepared metadata limits) w fun r w' =>
      w'.host = w.host ∧ (F w'.log ∧ r = false ∨
        (r = true ↔ WithinBudget w.host.fs dir prepared.partName metadata limits)) := by
  rw [withinPartialBudget]
  split
  · next hgt =>
    refine total_pure ⟨rfl, .inr ⟨(by rintro ⟨⟩), fun hw => ?_⟩⟩
    have h1 := hw.bytes
    have h2 := UInt64.lt_iff_toNat_lt.mp hgt
    omega
  · next hle =>
    have htarget := target_of_resolve hdir.1 hdir.2
    refine total_look hP rfl hI (listDir_can_target htarget) (fun _ hF => total_pure ⟨rfl, .inl ⟨hF, rfl⟩⟩)
      fun names he hI1 => ?_
    have hperm := exec_listDir_target htarget he
    have hin : ∀ n ∈ names, w.host.fs.node (dir ++ [n]) ≠ none :=
      fun n hn => mem_children.mp (hperm.mem_iff.mp hn)
    refine total_mono (countPartials_spec (w := w.push _) hP names _ 1 (UInt64.not_lt.mp hle) hI1 hdir hin) ?_
    rintro r w' ⟨hh, hr⟩
    refine ⟨hh, hr.imp id fun hiff => hiff.trans ?_⟩
    have hset := otherPartials_eq prepared.partName hperm
    have hnd := nodup_others prepared.partName hperm
    constructor
    · rintro ⟨h1, h2, h3⟩
      refine ⟨fun n hn => h1 n ?_, ?_, ?_⟩
      · rwa [hset, List.mem_toFinset] at hn
      · rwa [hset, List.sum_toFinset _ hnd]
      · rwa [hset, List.toFinset_card_of_nodup hnd]
    · rintro ⟨h1, h2, h3⟩
      refine ⟨fun n hn => h1 n ?_, ?_, ?_⟩
      · rwa [hset, List.mem_toFinset]
      · rwa [hset, List.sum_toFinset _ hnd] at h2
      · rwa [hset, List.toFinset_card_of_nodup hnd] at h3

theorem withinPartialBudget_decides (hdir : RootAt w.host.fs prepared.stateRoot dir) :
    Calmly cr (withinPartialBudget prepared metadata limits) w fun r w' =>
      w'.host = w.host ∧ (r = true ↔ WithinBudget w.host.fs dir prepared.partName metadata limits) :=
  total_mono (withinPartialBudget_spec permits_calm trivial hdir) fun _ _ ⟨hh, hr⟩ =>
    ⟨hh, hr.resolve_left fun h => h.1⟩

end

/-- **The budget check is exact.**  Where no call fails it says yes if and only if the budget holds, for
every listing of the directory; and in no run, failing calls included, an operation on the running sum
wraps. -/
theorem withinPartialBudget_exact (prepared : PreparedDestination) (metadata : UploadMetadata)
    (limits : TransferLimits) :
    (∀ (cr : Crypto) (w : World) (dir : Path), RootAt w.host.fs prepared.stateRoot dir →
      Calmly cr (withinPartialBudget prepared metadata limits) w fun r w' => w'.host = w.host ∧
        (r = true ↔
          (∀ n ∈ otherPartials w.host.fs dir prepared.partName,
            ∃ i, w.host.fs.node (dir ++ [n]) = some (.file i)) ∧
          metadata.fileSize.toNat +
            ∑ n ∈ otherPartials w.host.fs dir prepared.partName, w.host.fs.sizeAt (dir ++ [n]) ≤
              limits.maxPartialBytes.toNat ∧
          1 + (otherPartials w.host.fs dir prepared.partName).card ≤ limits.maxPartialFiles)) ∧
    withinPartialBudgetChecked prepared metadata limits =
      some <$> withinPartialBudget prepared metadata limits := by
  refine ⟨fun cr w dir hdir => total_mono (withinPartialBudget_decides hdir) ?_, withinPartialBudgetChecked_eq⟩
  rintro r w' ⟨hh, hiff⟩
  refine ⟨hh, hiff.trans ⟨fun h => ⟨h.regular, h.bytes, h.files⟩, ?_⟩⟩
  rintro ⟨h1, h2, h3⟩
  exact ⟨h1, h2, h3⟩

/-- Our part file `p` and another one, `q`, of two bytes. -/
def samplePartials : Fs :=
  ((Fs.empty.create [bytesOf "p"] 1000 (by decide)).create [bytesOf "q"] 1000 (by decide)).setData 1 [1, 2]

def samplePartialsHost : Host :=
  { fs := samplePartials, files := fun _ => none, nextFd := 3, euid := 1000, signals := 0 }

def sampleOnes : Crypto where
  sha256 _ := List.replicate 32 1
  hmac _ _ := List.replicate 32 1
  sha256_length _ := rfl
  hmac_length _ _ := rfl

/-- Three bytes more fit a limit of five, and a second file a limit of two. -/
theorem withinPartialBudget_exact_sample :
    Calmly sampleOnes
      (withinPartialBudget ⟨[bytesOf "f"], [], bytesOf "p", 3⟩ ⟨bytesOf "f", 3, 0⟩
        { maxPartialFiles := 2, maxPartialBytes := 5 }) ⟨samplePartialsHost, []⟩ fun r _ => r = true := by
  have h := (withinPartialBudget_exact ⟨[bytesOf "f"], [], bytesOf "p", 3⟩ ⟨bytesOf "f", 3, 0⟩
    { maxPartialFiles := 2, maxPartialBytes := 5 }).1 sampleOnes ⟨samplePartialsHost, []⟩ [] ⟨rfl, node_nil _⟩
  have hothers : otherPartials samplePartialsHost.fs [] (bytesOf "p") = {bytesOf "q"} := by decide +kernel
  have hnode : samplePartialsHost.fs.node [bytesOf "q"] = some (.file 1) := by decide +kernel
  have hsize : samplePartialsHost.fs.sizeAt [bytesOf "q"] = 2 := by decide +kernel
  refine total_mono h fun r w' hr => hr.2.mpr ?_
  simp only [hothers, Finset.mem_singleton, forall_eq, Finset.sum_singleton, Finset.card_singleton,
    List.nil_append, hsize]
  exact ⟨⟨1, hnode⟩, by decide, by decide⟩

end FileTransfer

end SyncWire
