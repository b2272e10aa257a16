import Mathlib.Data.List.AList
import Mathlib.Data.List.Perm.Basic
import Mathlib.Data.List.Induction
import Mathlib.Data.List.Nodup
import Mathlib.Data.Finset.Dedup

/-!
# A file system of names and inodes

Names map to nodes, regular files to inodes, so several names may share one
inode (`nlink`).  An `Fs` carries its own well-formedness: every entry's parent
is a directory, every name is a valid one, and every inode in use has been
allocated.  The updates (`insert`,
`erase`, `setData`, `create`, `rename`) ask for what keeps that true; each has a
lemma that says what it leaves alone.

`resolve` follows the symbolic links among the proper ancestors of a path, as the
kernel does; under real directories it is the identity (`resolve_eq`).
-/

namespace Posix

abbrev Bytes := List UInt8
abbrev Name := Bytes
/-- The names from the root directory down.  A trailing slash has no counterpart: of the two spellings `d` and
`d/` only the first can be written, so a call on `d/`, which follows `d` if that is a symbolic link, is outside of
the model. -/
abbrev Path := List Name

inductive Node
  | dir
  | file (ino : Nat)
  | symlink (target : Path)
  | special
deriving DecidableEq

def Node.isFile : Node → Bool
  | .file _ => true
  | _ => false

structure Inode where
  data : Bytes
  uid : Nat

/-- A name a directory entry may have: not empty, no slash. -/
def ValidName (n : Name) : Prop := n ≠ [] ∧ 47 ∉ n

instance (n : Name) : Decidable (ValidName n) := by unfold ValidName; infer_instance

structure Fs where
  entries : AList fun _ : Path => Node
  inode : Nat → Inode
  /-- the next inode number to allocate -/
  next : Nat
  root_dir : entries.lookup [] = some .dir
  parent_dir : ∀ p n, entries.lookup (p ++ [n]) ≠ none → entries.lookup p = some .dir
  fresh : ∀ p i, entries.lookup p = some (.file i) → i < next
  valid_name : ∀ p n, entries.lookup (p ++ [n]) ≠ none → ValidName n

namespace Fs

/-- Only the root directory. -/
def empty : Fs where
  entries := (∅ : AList fun _ : Path => Node).insert [] .dir
  inode := fun _ => ⟨[], 0⟩
  next := 0
  root_dir := AList.lookup_insert _
  parent_dir := by
    intro p n h
    rw [AList.lookup_insert_ne (by simp), AList.lookup_empty] at h
    exact absurd rfl h
  fresh := by
    intro p i h
    by_cases he : p = []
    · subst he
      rw [AList.lookup_insert] at h
      cases h
    · rw [AList.lookup_insert_ne he, AList.lookup_empty] at h
      cases h
  valid_name := by
    intro p n h
    rw [AList.lookup_insert_ne (by simp), AList.lookup_empty] at h
    exact absurd rfl h

def node (fs : Fs) (p : Path) : Option Node := fs.entries.lookup p

/-- The content of the regular file at a path. -/
def fileAt (fs : Fs) (p : Path) : Option Bytes :=
  match fs.node p with
  | some (.file i) => some (fs.inode i).data
  | _ => none

theorem node_nil (fs : Fs) : fs.node [] = some .dir := fs.root_dir

theorem node_parent (fs : Fs) {p : Path} {n : Name} {x : Node} (h : fs.node (p ++ [n]) = some x) :
    fs.node p = some .dir :=
  fs.parent_dir p n (by rw [show fs.entries.lookup (p ++ [n]) = some x from h]; exact Option.some_ne_none x)

theorem fileAt_eq_some {fs : Fs} {p : Path} {d : Bytes} :
    fs.fileAt p = some d ↔ ∃ i, fs.node p = some (.file i) ∧ (fs.inode i).data = d := by
  unfold fileAt
  split
  · next i h => simp [h]
  · next h =>
    constructor
    · intro he; cases he
    · rintro ⟨i, hi, -⟩; exact absurd hi (h i)

/-- All proper ancestors of an existing entry are directories. -/
theorem node_of_append (fs : Fs) (p q : Path) {x : Node} (hq : q ≠ [])
    (h : fs.node (p ++ q) = some x) : fs.node p = some .dir := by
  induction q using List.reverseRecOn generalizing x with
  | nil => exact absurd rfl hq
  | append_singleton q n ih =>
    rw [← List.append_assoc] at h
    have hd := fs.node_parent h
    cases q with
    | nil => simpa using hd
    | cons a q => exact ih (by simp) hd

/-- All names on the way to an entry are valid. -/
theorem valid_of_node {fs : Fs} {p : Path} (h : fs.node p ≠ none) : ∀ n ∈ p, ValidName n := by
  induction p using List.reverseRecOn with
  | nil => simp
  | append_singleton p n ih =>
    obtain ⟨x, hx⟩ := Option.ne_none_iff_exists'.mp h
    intro m hm
    rcases List.mem_append.mp hm with hm | hm
    · exact ih (by rw [fs.node_parent hx]; exact Option.some_ne_none _) m hm
    · rw [List.mem_singleton.mp hm]
      exact fs.valid_name p n h

/-! ## Updates -/

/-- A name that an entry other than a directory may be put under. -/
def Free (fs : Fs) (p : Path) : Prop :=
  p ≠ [] ∧ fs.node p.dropLast = some .dir ∧ fs.node p ≠ some .dir ∧ ValidName (p.getLastD [])

instance (fs : Fs) (p : Path) : Decidable (fs.Free p) := by unfold Free; infer_instance

def insert (fs : Fs) (p : Path) (x : Node) (h : fs.Free p) (hx : ∀ i, x = .file i → i < fs.next) :
    Fs where
  entries := fs.entries.insert p x
  inode := fs.inode
  next := fs.next
  root_dir := by rw [AList.lookup_insert_ne h.1.symm]; exact fs.root_dir
  parent_dir := by
    intro q n hq
    have hqp : q ≠ p → fs.entries.lookup q = some .dir →
        (fs.entries.insert p x).lookup q = some .dir := fun hne hd => by
      rw [AList.lookup_insert_ne hne]; exact hd
    by_cases he : q ++ [n] = p
    · have hq' : q = p.dropLast := by rw [← he]; simp
      refine hqp (fun e => ?_) (hq' ▸ h.2.1)
      have := congrArg List.length (e.trans he.symm)
      simp at this
    · rw [AList.lookup_insert_ne he] at hq
      have hd := fs.parent_dir q n hq
      exact hqp (fun e => h.2.2.1 (e ▸ hd)) hd
  fresh := by
    intro q i hq
    by_cases he : q = p
    · subst he
      rw [AList.lookup_insert] at hq
      exact hx i (Option.some.inj hq)
    · rw [AList.lookup_insert_ne he] at hq
      exact fs.fresh q i hq
  valid_name := by
    intro q n hq
    by_cases he : q ++ [n] = p
    · have hv := h.2.2.2
      rwa [← he, List.getLastD_concat] at hv
    · rw [AList.lookup_insert_ne he] at hq
      exact fs.valid_name q n hq

def erase (fs : Fs) (p : Path) (h : fs.node p ≠ some .dir) : Fs where
  entries := fs.entries.erase p
  inode := fs.inode
  next := fs.next
  root_dir := by
    rw [AList.lookup_erase_ne (fun e => h (by rw [← e]; exact fs.root_dir))]
    exact fs.root_dir
  parent_dir := by
    intro q n hq
    have he : q ++ [n] ≠ p := fun e => hq (by rw [e]; exact AList.lookup_erase p fs.entries)
    rw [AList.lookup_erase_ne he] at hq
    have hd := fs.parent_dir q n hq
    rw [AList.lookup_erase_ne (fun e => h (by rw [← e]; exact hd))]
    exact hd
  fresh := by
    intro q i hq
    have he : q ≠ p := fun e => by rw [e, AList.lookup_erase] at hq; cases hq
    rw [AList.lookup_erase_ne he] at hq
    exact fs.fresh q i hq
  valid_name := by
    intro q n hq
    have he : q ++ [n] ≠ p := fun e => hq (by rw [e]; exact AList.lookup_erase p fs.entries)
    rw [AList.lookup_erase_ne he] at hq
    exact fs.valid_name q n hq

def setData (fs : Fs) (i : Nat) (d : Bytes) : Fs :=
  { fs with inode := Function.update fs.inode i { fs.inode i with data := d } }

/-- A new empty file owned by `uid`. -/
def create (fs : Fs) (p : Path) (uid : Nat) (h : fs.Free p) : Fs :=
  insert
    { fs with
      inode := Function.update fs.inode fs.next ⟨[], uid⟩
      next := fs.next + 1
      fresh := fun q i hq => Nat.lt_succ_of_lt (fs.fresh q i hq) }
    p (.file fs.next) h fun i hi => by cases hi; exact Nat.lt_succ_self _

/-- Number of names of an inode. -/
def nlink (fs : Fs) (i : Nat) : Nat := fs.entries.entries.countP fun e => decide (e.2 = .file i)

section
variable {fs : Fs} {p q : Path} {x : Node}

@[simp] theorem node_insert_self {h : fs.Free p} {hx} : (fs.insert p x h hx).node p = some x :=
  AList.lookup_insert _

theorem node_insert_ne {h : fs.Free p} {hx} (hq : q ≠ p) :
    (fs.insert p x h hx).node q = fs.node q := AList.lookup_insert_ne hq

@[simp] theorem node_erase_self {h : fs.node p ≠ some .dir} : (fs.erase p h).node p = none :=
  AList.lookup_erase _ _

theorem node_erase_ne {h : fs.node p ≠ some .dir} (hq : q ≠ p) :
    (fs.erase p h).node q = fs.node q := AList.lookup_erase_ne hq

@[simp] theorem node_setData {i : Nat} {d : Bytes} : (fs.setData i d).node q = fs.node q := rfl

@[simp] theorem data_setData_self {i : Nat} {d : Bytes} : ((fs.setData i d).inode i).data = d := by
  simp [setData]

theorem inode_setData_ne {i j : Nat} {d : Bytes} (h : j ≠ i) :
    (fs.setData i d).inode j = fs.inode j := by
  simp [setData, h]

@[simp] theorem node_create_self {u : Nat} {h : fs.Free p} :
    (fs.create p u h).node p = some (.file fs.next) := AList.lookup_insert _

theorem node_create_ne {u : Nat} {h : fs.Free p} (hq : q ≠ p) :
    (fs.create p u h).node q = fs.node q := AList.lookup_insert_ne hq

@[simp] theorem inode_create_self {u : Nat} {h : fs.Free p} :
    (fs.create p u h).inode fs.next = ⟨[], u⟩ := Function.update_self ..

theorem inode_create_ne {u i : Nat} {h : fs.Free p} (hi : i ≠ fs.next) :
    (fs.create p u h).inode i = fs.inode i := Function.update_of_ne hi ..

/-- An inode in use is not the next one. -/
theorem ne_next {i : Nat} (h : fs.node p = some (.file i)) : i ≠ fs.next :=
  Nat.ne_of_lt (fs.fresh p i h)

theorem fileAt_congr {fs' : Fs} (hn : fs'.node p = fs.node p)
    (hi : ∀ i, fs.node p = some (.file i) → (fs'.inode i).data = (fs.inode i).data) :
    fs'.fileAt p = fs.fileAt p := by
  unfold fileAt
  rw [hn]
  split
  · next i h => rw [hi i h]
  · rfl

/-- With one link, an inode has one name. -/
theorem eq_of_nlink {i : Nat} (h : fs.nlink i = 1) (hp : fs.node p = some (.file i))
    (hq : fs.node q = some (.file i)) : p = q := by
  have hm : ∀ r, fs.node r = some (.file i) →
      (⟨r, .file i⟩ : Sigma fun _ : Path => Node) ∈
        fs.entries.entries.filter fun e => decide (e.2 = .file i) := fun r hr =>
    List.mem_filter.mpr ⟨AList.mem_lookup_iff.mp hr, by simp⟩
  unfold nlink at h
  rw [List.countP_eq_length_filter, List.length_eq_one_iff] at h
  obtain ⟨a, ha⟩ := h
  have h1 := hm p hp
  have h2 := hm q hq
  rw [ha, List.mem_singleton] at h1 h2
  have h3 := h1.trans h2.symm
  cases h3
  rfl

/-- An inode with one name has one link. -/
theorem nlink_eq_one {i : Nat} (h : ∀ q, fs.node q = some (.file i) ↔ q = p) : fs.nlink i = 1 := by
  unfold nlink
  rw [List.countP_eq_length_filter, List.length_eq_one_iff]
  refine ⟨⟨p, .file i⟩, ?_⟩
  have hnd : (fs.entries.entries.filter fun e => decide (e.2 = .file i)).Nodup :=
    (List.NodupKeys.nodup fs.entries.nodupKeys).filter _
  refine List.perm_singleton.mp ((List.perm_ext_iff_of_nodup hnd (List.nodup_singleton _)).mpr ?_)
  rintro ⟨q, x⟩
  simp only [List.mem_filter, decide_eq_true_eq, List.mem_singleton]
  constructor
  · rintro ⟨hm, rfl⟩
    rw [(h q).mp (AList.mem_lookup_iff.mpr hm)]
  · intro he
    cases he
    exact ⟨AList.mem_lookup_iff.mp ((h p).mpr rfl), rfl⟩

theorem insert_ne_dir {src : Path} {h : fs.Free p} {hx} (hs : fs.node src = some x) (hd : x ≠ .dir) :
    (fs.insert p x h hx).node src ≠ some .dir := by
  intro e
  by_cases he : src = p
  · subst he
    rw [node_insert_self] at e
    exact hd (Option.some.inj e)
  · rw [node_insert_ne he, hs] at e
    exact hd (Option.some.inj e)

/-- `rename(2)` of something that is not a directory: `none` where it cannot succeed. -/
def rename (fs : Fs) (src dst : Path) : Option Fs :=
  match hs : fs.node src with
  | none => none
  | some x =>
    if hx : x = .dir then none
    else if src = dst ∨ (x.isFile ∧ fs.node dst = some x) then some fs
    else if h : fs.Free dst then
      some ((fs.insert dst x h fun i hi => fs.fresh src i (hi ▸ hs)).erase src (insert_ne_dir hs hx))
    else none

/-- A file can be renamed to a name that is free. -/
theorem rename_can {src dst : Path} {i : Nat} (hs : fs.node src = some (.file i)) (hd : fs.Free dst)
    (hne : src ≠ dst) (hi : fs.node dst ≠ some (.file i)) : ∃ fs', fs.rename src dst = some fs' := by
  unfold rename
  split
  · next h => rw [h] at hs; cases hs
  · next x h =>
    obtain rfl : x = .file i := Option.some.inj (h.symm.trans hs)
    rw [dif_neg (by simp), if_neg (by simp [hne, hi]), dif_pos hd]
    exact ⟨_, rfl⟩

/-- What a successful rename does. -/
theorem rename_cases {fs' : Fs} {src dst : Path} (h : fs.rename src dst = some fs') :
    ∃ x, fs.node src = some x ∧ x ≠ .dir ∧
      ((fs' = fs ∧ (src = dst ∨ x.isFile ∧ fs.node dst = some x)) ∨
        src ≠ dst ∧ fs.Free dst ∧ fs'.node src = none ∧ fs'.node dst = some x ∧ fs'.inode = fs.inode ∧
        ∀ q, q ≠ src → q ≠ dst → fs'.node q = fs.node q) := by
  unfold rename at h
  split at h
  · cases h
  · next x hs =>
    split at h
    · cases h
    · next hx =>
      refine ⟨x, hs, hx, ?_⟩
      split at h
      · next hc =>
        exact .inl ⟨(Option.some.inj h).symm, hc⟩
      · next hc =>
        split at h
        · next hf =>
          have hne : src ≠ dst := fun e => hc (.inl e)
          cases h
          refine .inr ⟨hne, hf, node_erase_self, ?_, rfl, fun q h1 h2 => ?_⟩
          · rw [node_erase_ne hne.symm, node_insert_self]
          · rw [node_erase_ne h1, node_insert_ne h2]
        · cases h

end

/-! ## Directories -/

/-- The names in a directory. -/
def children (fs : Fs) (d : Path) : List Name :=
  fs.entries.keys.filterMap fun p => if p ≠ [] ∧ p.dropLast = d then p.getLast? else none

theorem mem_children {fs : Fs} {d : Path} {n : Name} :
    n ∈ fs.children d ↔ fs.node (d ++ [n]) ≠ none := by
  unfold children
  rw [List.mem_filterMap]
  have hk : ∀ p, p ∈ fs.entries.keys ↔ fs.node p ≠ none := fun p => by
    rw [← AList.mem_keys, ← AList.lookup_isSome, Option.isSome_iff_ne_none]; rfl
  constructor
  · rintro ⟨p, hp, he⟩
    split at he
    · next hc =>
      have : p = d ++ [n] := by
        rw [← List.dropLast_append_getLast? n he, hc.2]
      rw [← this]
      exact (hk p).mp hp
    · cases he
  · intro h
    exact ⟨d ++ [n], (hk _).mpr h, by simp⟩

theorem nodup_children (fs : Fs) (d : Path) : (fs.children d).Nodup := by
  refine List.Nodup.filterMap ?_ fs.entries.keys_nodup
  intro p q n hp hq
  simp only [Option.mem_def] at hp hq
  split at hp
  · next h1 =>
    split at hq
    · next h2 =>
      rw [← List.dropLast_append_getLast? n hp, ← List.dropLast_append_getLast? n hq, h1.2, h2.2]
    · cases hq
  · cases hp

theorem children_eq_nil {fs : Fs} {p : Path} (h : fs.node p ≠ some .dir) : fs.children p = [] := by
  rw [List.eq_nil_iff_forall_not_mem]
  intro n hn
  obtain ⟨x, hx⟩ := Option.ne_none_iff_exists'.mp (mem_children.mp hn)
  exact h (fs.node_parent hx)

/-! ## Subtrees -/

/-- The entries at and below `q` that satisfy `P`. -/
def below (fs : Fs) (P : Path → Bool) (q : Path) : List Path :=
  fs.entries.keys.filter fun k => P k && q.isPrefixOf k

theorem mem_below {fs : Fs} {P : Path → Bool} {q k : Path} :
    k ∈ fs.below P q ↔ fs.node k ≠ none ∧ P k = true ∧ q <+: k := by
  have hk : k ∈ fs.entries.keys ↔ fs.node k ≠ none := by
    rw [← AList.mem_keys, ← AList.lookup_isSome, Option.isSome_iff_ne_none]; rfl
  rw [below, List.mem_filter, hk, Bool.and_eq_true, List.isPrefixOf_iff_prefix]

theorem nodup_below (fs : Fs) (P : Path → Bool) (q : Path) : (fs.below P q).Nodup :=
  fs.entries.keys_nodup.filter _

/-- A subtree is its root and the subtrees of the entries in it. -/
theorem below_perm {fs : Fs} {P : Path → Bool} {p : Path} (hp : fs.node p ≠ none) :
    (fs.below P p).Perm
      ((if P p then [p] else []) ++ (fs.children p).flatMap fun n => fs.below P (p ++ [n])) := by
  have hsub : ∀ n k, k ∈ fs.below P (p ++ [n]) → ∃ s, k = p ++ n :: s := by
    intro n k hk
    obtain ⟨s, rfl⟩ := (mem_below.mp hk).2.2
    exact ⟨s, by simp⟩
  have hnd : ((if P p then [p] else []) ++
      (fs.children p).flatMap fun n => fs.below P (p ++ [n])).Nodup := by
    refine List.nodup_append.mpr ⟨by split <;> simp, ?_, ?_⟩
    · refine List.nodup_flatMap.mpr ⟨fun n _ => nodup_below _ _ _, ?_⟩
      refine (nodup_children fs p).imp ?_
      intro a b hab k hka hkb
      obtain ⟨s, rfl⟩ := hsub a k hka
      obtain ⟨t, ht⟩ := hsub b _ hkb
      exact hab (List.cons.inj (List.append_cancel_left ht)).1
    · intro k hk k' hk' he
      subst he
      obtain ⟨n, -, hn⟩ := List.mem_flatMap.mp hk'
      obtain ⟨s, rfl⟩ := hsub n k hn
      split at hk
      · simpa using congrArg List.length (List.mem_singleton.mp hk)
      · cases hk
  refine (List.perm_ext_iff_of_nodup (nodup_below _ _ _) hnd).mpr fun k => ?_
  rw [List.mem_append, List.mem_flatMap]
  constructor
  · intro hk
    obtain ⟨hnode, hP, s, rfl⟩ := mem_below.mp hk
    cases s with
    | nil =>
      rw [List.append_nil] at hP ⊢
      exact .inl (by simp [hP])
    | cons n s =>
      refine .inr ⟨n, ?_, mem_below.mpr ⟨hnode, hP, s, by simp⟩⟩
      rw [mem_children]
      cases s with
      | nil => exact hnode
      | cons m s =>
        obtain ⟨x, hx⟩ := Option.ne_none_iff_exists'.mp hnode
        rw [List.append_cons] at hx
        rw [fs.node_of_append _ _ (by simp) hx]
        exact Option.some_ne_none _
  · rintro (hk | ⟨n, -, hk⟩)
    · split at hk
      · next hP =>
        rw [List.mem_singleton.mp hk]
        exact mem_below.mpr ⟨hp, hP, List.prefix_refl _⟩
      · cases hk
    · obtain ⟨h1, h2, h3⟩ := mem_below.mp hk
      exact mem_below.mpr ⟨h1, h2, (List.prefix_append _ _).trans h3⟩

/-! ## Symbolic links on the way -/

def ENOENT : Nat := 2
def EINTR : Nat := 4
def EIO : Nat := 5
def EBADF : Nat := 9
def EACCES : Nat := 13
def ENOTDIR : Nat := 20
def ENOSPC : Nat := 28
def ELOOP : Nat := 40

/-- Walk from the directory `d` down `names`; `jump` takes over at a symbolic link that is not
the last name. -/
def walkFrom (fs : Fs) (jump : Path → Except Nat Path) : (d : Path) → (names : List Name) → Except Nat Path
  | d, [] => .ok d
  | d, [n] => .ok (d ++ [n])
  | d, n :: m :: rest =>
    match fs.node (d ++ [n]) with
    | some .dir => walkFrom fs jump (d ++ [n]) (m :: rest)
    | some (.symlink t) => jump (t ++ m :: rest)
    | some _ => .error ENOTDIR
    | none => .error ENOENT

def walk (fs : Fs) : Nat → Path → Except Nat Path
  | 0, _ => .error ELOOP
  | hops + 1, p => walkFrom fs (walk fs hops) [] p

/-- Where a path leads when its last name is not followed (40 links at most). -/
def resolve (fs : Fs) (p : Path) : Except Nat Path := walk fs 41 p

/-- Follow a link at the end of a path, too. -/
def follow (fs : Fs) : Nat → Path → Except Nat Path
  | 0, _ => .error ELOOP
  | n + 1, p =>
    match fs.resolve p with
    | .error e => .error e
    | .ok q =>
      match fs.node q with
      | some (.symlink t) => follow fs n t
      | _ => .ok q

theorem walkFrom_dirs (fs : Fs) (jump : Path → Except Nat Path) (d : Path) (names : List Name)
    (h : fs.node (d ++ names.dropLast) = some .dir) : walkFrom fs jump d names = .ok (d ++ names) := by
  induction names generalizing d with
  | nil => simp [walkFrom]
  | cons n rest ih =>
    cases rest with
    | nil => simp [walkFrom]
    | cons m rest =>
      rw [List.dropLast_cons_cons, List.append_cons] at h
      have hd : fs.node (d ++ [n]) = some .dir := by
        cases hr : (m :: rest).dropLast with
        | nil => rw [hr] at h; simpa using h
        | cons a r =>
          rw [hr] at h
          exact fs.node_of_append _ _ (by simp) h
      simp only [walkFrom, hd]
      rw [ih _ h]
      simp

/-- Below real directories a path is where it says. -/
theorem resolve_eq {fs : Fs} {p : Path} (h : fs.node p.dropLast = some .dir) :
    fs.resolve p = .ok p := by
  unfold resolve walk
  rw [walkFrom_dirs fs _ [] p (by simpa using h), List.nil_append]

theorem resolve_of_node {fs : Fs} {p : Path} {x : Node} (h : fs.node p = some x) :
    fs.resolve p = .ok p := by
  rcases List.eq_nil_or_concat p with rfl | ⟨q, n, rfl⟩
  · exact resolve_eq fs.node_nil
  · rw [List.concat_eq_append] at h ⊢
    exact resolve_eq (by rw [List.dropLast_concat]; exact fs.node_parent h)

theorem follow_eq {fs : Fs} {p : Path} {x : Node} (h : fs.node p = some x)
    (hx : ∀ t, x ≠ .symlink t) (n : Nat) : fs.follow (n + 1) p = .ok p := by
  simp only [follow, resolve_of_node h, h]
  cases x with
  | symlink t => exact absurd rfl (hx t)
  | dir => rfl
  | file i => rfl
  | special => rfl

/-- No proper ancestor of `p` is a symbolic link: `p` is where it says.  This is about the spelling of `p` only:
whatever is at `p` or below may be a link, and every existing directory has such a path. -/
def Plain (fs : Fs) (p : Path) : Prop :=
  ∀ q s, s ≠ [] → p = q ++ s → ∀ t, fs.node q ≠ some (.symlink t)

theorem walkFrom_plain {fs : Fs} {jump : Path → Except Nat Path} {d q : Path} {names : List Name}
    (hp : fs.Plain (d ++ names)) (hd : fs.node d = some .dir) (h : walkFrom fs jump d names = .ok q) :
    q = d ++ names ∧ fs.node (d ++ names.dropLast) = some .dir := by
  induction names generalizing d with
  | nil => cases h; simpa using hd
  | cons n rest ih =>
    cases rest with
    | nil => cases h; simpa using hd
    | cons m rest =>
      rw [walkFrom] at h
      split at h
      · next hn =>
        rw [List.append_cons] at hp
        simpa using ih hp hn h
      · next t ht => exact absurd ht (hp (d ++ [n]) (m :: rest) (by simp) (by simp) t)
      · cases h
      · cases h

theorem resolve_plain {fs : Fs} {p q : Path} (hp : fs.Plain p) (h : fs.resolve p = .ok q) :
    q = p ∧ fs.node p.dropLast = some .dir := by
  unfold resolve walk at h
  simpa using walkFrom_plain (d := []) (by simpa using hp) fs.node_nil h

/-- Where the directories on the way are there or missing. -/
theorem walkFrom_way {fs : Fs} {jump : Path → Except Nat Path} {d : Path} {names : List Name}
    (h : ∀ p s, s ≠ [] → p ++ s = d ++ names → fs.node p = some .dir ∨ fs.node p = none) :
    walkFrom fs jump d names = .ok (d ++ names) ∨
      walkFrom fs jump d names = .error ENOENT ∧ fs.node (d ++ names) = none := by
  induction names generalizing d with
  | nil => simp [walkFrom]
  | cons n rest ih =>
    cases rest with
    | nil => simp [walkFrom]
    | cons m rest =>
      rw [walkFrom]
      rcases h (d ++ [n]) (m :: rest) (by simp) (by simp) with hn | hn
      · simp only [hn]
        have := ih (d := d ++ [n]) (by simpa using h)
        simpa using this
      · rw [hn]
        refine .inr ⟨rfl, ?_⟩
        by_contra hx
        obtain ⟨x, hx⟩ := Option.ne_none_iff_exists'.mp hx
        rw [List.append_cons] at hx
        rw [fs.node_of_append _ _ (by simp) hx] at hn
        cases hn

theorem resolve_way {fs : Fs} {p : Path}
    (h : ∀ q s, s ≠ [] → q ++ s = p → fs.node q = some .dir ∨ fs.node q = none) :
    fs.resolve p = .ok p ∨ fs.resolve p = .error ENOENT ∧ fs.node p = none := by
  unfold resolve walk
  simpa using @walkFrom_way fs (fs.walk 40) [] p (by simpa using h)

theorem plain_of_dir {fs : Fs} {p : Path} (h : fs.node p.dropLast = some .dir) : fs.Plain p := by
  intro q s hs he t ht
  obtain ⟨s', n, rfl⟩ : ∃ s' n, s = s' ++ [n] := ⟨_, _, (List.dropLast_append_getLast hs).symm⟩
  rw [he, ← List.append_assoc, List.dropLast_concat] at h
  cases s' with
  | nil => rw [List.append_nil, ht] at h; cases h
  | cons a s' =>
    have := fs.node_of_append q (a :: s') (by simp) h
    rw [ht] at this
    cases this

theorem plain_of_isPrefix {fs : Fs} {p q : Path} (h : fs.Plain p) (hq : q <+: p) : fs.Plain q := by
  obtain ⟨t, rfl⟩ := hq
  intro r s hs he
  exact h r (s ++ t) (by simp [hs]) (by rw [he]; simp)

/-! ## What an update changed, without its proofs -/

def MadeDir (p : Path) (fs fs' : Fs) : Prop :=
  fs.node p = none ∧ fs'.node = Function.update fs.node p (some .dir) ∧ fs'.inode = fs.inode

theorem MadeDir.fileAt_eq {p : Path} {fs fs' : Fs} (h : MadeDir p fs fs') (q : Path) :
    fs'.fileAt q = fs.fileAt q := by
  by_cases hq : q = p
  · rw [fileAt, fileAt, hq, h.1, h.2.1, Function.update_self]
  · exact fileAt_congr (by rw [h.2.1, Function.update_of_ne hq]) fun _ _ => by rw [h.2.2]

/-- A new empty file with inode `i`. -/
def Created (p : Path) (i uid : Nat) (fs fs' : Fs) : Prop :=
  fs.node p = none ∧ (∀ q, fs.node q ≠ some (.file i)) ∧
    fs'.node = Function.update fs.node p (some (.file i)) ∧
    fs'.inode = Function.update fs.inode i ⟨[], uid⟩

def Removed (p : Path) (fs fs' : Fs) : Prop :=
  fs.node p ≠ none ∧ fs.node p ≠ some .dir ∧ fs'.node = Function.update fs.node p none ∧
    fs'.inode = fs.inode

theorem madeDir_insert {fs : Fs} {p : Path} {h : fs.Free p} {hx} (hn : fs.node p = none) :
    MadeDir p fs (fs.insert p .dir h hx) := by
  refine ⟨hn, ?_, rfl⟩
  funext q
  by_cases hq : q = p
  · subst hq; simp
  · rw [node_insert_ne hq, Function.update_of_ne hq]

theorem created_create {fs : Fs} {p : Path} {uid : Nat} {h : fs.Free p} (hn : fs.node p = none) :
    Created p fs.next uid fs (fs.create p uid h) := by
  refine ⟨hn, fun q hq => ne_next hq rfl, ?_, ?_⟩
  · funext q
    by_cases hq : q = p
    · subst hq; simp
    · rw [node_create_ne hq, Function.update_of_ne hq]
  · funext j
    by_cases hj : j = fs.next
    · subst hj; simp
    · rw [inode_create_ne hj, Function.update_of_ne hj]

theorem removed_erase {fs : Fs} {p : Path} {h : fs.node p ≠ some .dir} (hn : fs.node p ≠ none) :
    Removed p fs (fs.erase p h) := by
  refine ⟨hn, h, ?_, rfl⟩
  funext q
  by_cases hq : q = p
  · subst hq; simp
  · rw [node_erase_ne hq, Function.update_of_ne hq]

/-! ## Directories stay, links do not appear -/

/-- Every directory is still one, and there is no new symbolic link. -/
def Grows (fs fs' : Fs) : Prop :=
  (∀ q, fs.node q = some .dir → fs'.node q = some .dir) ∧
    ∀ q t, fs'.node q = some (.symlink t) → fs.node q = some (.symlink t)

theorem Grows.refl (fs : Fs) : Grows fs fs := ⟨fun _ h => h, fun _ _ h => h⟩

theorem Grows.trans {a b c : Fs} (h : Grows a b) (h' : Grows b c) : Grows a c :=
  ⟨fun q hq => h'.1 q (h.1 q hq), fun q t hq => h.2 q t (h'.2 q t hq)⟩

theorem MadeDir.grows {p : Path} {fs fs' : Fs} (h : MadeDir p fs fs') : Grows fs fs' := by
  obtain ⟨hn, hu, -⟩ := h
  refine ⟨fun q hq => ?_, fun q t hq => ?_⟩
  · by_cases e : q = p
    · subst e; rw [hn] at hq; cases hq
    · rw [hu, Function.update_of_ne e]; exact hq
  · by_cases e : q = p
    · subst e; rw [hu, Function.update_self] at hq; cases hq
    · rwa [hu, Function.update_of_ne e] at hq

theorem Created.grows {p : Path} {i uid : Nat} {fs fs' : Fs} (h : Created p i uid fs fs') : Grows fs fs' := by
  obtain ⟨hn, -, hu, -⟩ := h
  refine ⟨fun q hq => ?_, fun q t hq => ?_⟩
  · by_cases e : q = p
    · subst e; rw [hn] at hq; cases hq
    · rw [hu, Function.update_of_ne e]; exact hq
  · by_cases e : q = p
    · subst e; rw [hu, Function.update_self] at hq; cases hq
    · rwa [hu, Function.update_of_ne e] at hq

theorem Removed.grows {p : Path} {fs fs' : Fs} (h : Removed p fs fs') : Grows fs fs' := by
  obtain ⟨-, hd, hu, -⟩ := h
  refine ⟨fun q hq => ?_, fun q t hq => ?_⟩
  · by_cases e : q = p
    · subst e; exact absurd hq hd
    · rw [hu, Function.update_of_ne e]; exact hq
  · by_cases e : q = p
    · subst e; rw [hu, Function.update_self] at hq; cases hq
    · rwa [hu, Function.update_of_ne e] at hq

theorem Grows.plain {fs fs' : Fs} (h : Grows fs fs') {p : Path} (hp : fs.Plain p) : fs'.Plain p :=
  fun q s hs he t ht => hp q s hs he t (h.2 q t ht)

theorem plain_child {fs : Fs} {d : Path} (n : Name) (h : fs.node d = some .dir) : fs.Plain (d ++ [n]) :=
  plain_of_dir (by rw [List.dropLast_concat]; exact h)

/-! ## Directories that were made -/

/-- Directories may have been made; nothing else changed. -/
def Added (fs fs' : Fs) : Prop :=
  (∀ q, fs'.node q = fs.node q ∨ fs.node q = none ∧ fs'.node q = some .dir) ∧ fs'.inode = fs.inode

theorem Added.refl (fs : Fs) : Added fs fs := ⟨fun _ => .inl rfl, rfl⟩

theorem Added.node_eq {fs fs' : Fs} (h : Added fs fs') {q : Path} {x : Node} (hx : fs.node q = some x) :
    fs'.node q = some x := by
  rcases h.1 q with he | ⟨hn, -⟩
  · rw [he, hx]
  · rw [hn] at hx
    cases hx

theorem Added.trans {a b c : Fs} (h : Added a b) (h' : Added b c) : Added a c := by
  refine ⟨fun q => ?_, h'.2.trans h.2⟩
  rcases h.1 q with he | ⟨hn, hd⟩
  · rcases h'.1 q with he' | ⟨hn', hd'⟩
    · exact .inl (he'.trans he)
    · exact .inr ⟨he ▸ hn', hd'⟩
  · exact .inr ⟨hn, h'.node_eq hd⟩

theorem Added.not_symlink {fs fs' : Fs} (h : Added fs fs') {q t : Path} (hq : fs'.node q = some (.symlink t)) :
    fs.node q = some (.symlink t) := by
  rcases h.1 q with he | ⟨-, hd⟩
  · rw [← he, hq]
  · rw [hd] at hq
    cases hq

theorem Added.fileAt_eq {fs fs' : Fs} (h : Added fs fs') (q : Path) : fs'.fileAt q = fs.fileAt q := by
  rcases h.1 q with he | ⟨hn, hd⟩
  · exact fileAt_congr he fun _ _ => by rw [h.2]
  · rw [fileAt, fileAt, hn, hd]

theorem MadeDir.added {p : Path} {fs fs' : Fs} (h : MadeDir p fs fs') : Added fs fs' := by
  refine ⟨fun q => ?_, h.2.2⟩
  by_cases hq : q = p
  · exact .inr ⟨hq ▸ h.1, by rw [h.2.1, hq, Function.update_self]⟩
  · exact .inl (by rw [h.2.1, Function.update_of_ne hq])

/-! A path that leads somewhere leads to the same place when directories were made. -/

theorem Added.walkFrom {fs fs' : Fs} (h : Added fs fs') {jump jump' : Path → Except Nat Path}
    (hj : ∀ p q, jump p = .ok q → jump' p = .ok q) {d q : Path} {names : List Name}
    (hw : walkFrom fs jump d names = .ok q) : walkFrom fs' jump' d names = .ok q := by
  induction names generalizing d with
  | nil => exact hw
  | cons n rest ih =>
    cases rest with
    | nil => exact hw
    | cons m rest =>
      rw [Fs.walkFrom] at hw ⊢
      cases hn : fs.node (d ++ [n]) with
      | none => simp only [hn] at hw; cases hw
      | some x =>
        simp only [hn, h.node_eq hn] at hw ⊢
        cases x with
        | dir => exact ih hw
        | symlink t => exact hj _ _ hw
        | file i => cases hw
        | special => cases hw

theorem Added.walk {fs fs' : Fs} (h : Added fs fs') {hops : Nat} {p q : Path} (hw : fs.walk hops p = .ok q) :
    fs'.walk hops p = .ok q := by
  induction hops generalizing p q with
  | zero => cases hw
  | succ hops ih => exact h.walkFrom (fun _ _ => ih) hw

theorem Added.resolve {fs fs' : Fs} (h : Added fs fs') {p q : Path} (hr : fs.resolve p = .ok q) :
    fs'.resolve p = .ok q := h.walk hr

/-- Nothing is below what is missing. -/
theorem node_below_missing {fs : Fs} {d : Path} (h : fs.node d = none) (n : Name) : fs.node (d ++ [n]) = none := by
  cases hn : fs.node (d ++ [n]) with
  | none => rfl
  | some x =>
    rw [fs.node_parent hn] at h
    cases h

theorem Added.walkFrom_below {fs fs' : Fs} (h : Added fs fs') {jump : Path → Except Nat Path} {d q : Path}
    {names : List Name} (hd : fs.node d = none) (hw : Fs.walkFrom fs' jump d names = .ok q) :
    fs.node q = none := by
  induction names generalizing d with
  | nil => cases hw; exact hd
  | cons n rest ih =>
    have hn := node_below_missing hd n
    cases rest with
    | nil => cases hw; exact hn
    | cons m rest =>
      rw [Fs.walkFrom] at hw
      rcases h.1 (d ++ [n]) with he | ⟨-, he⟩
      · simp only [he, hn] at hw
        cases hw
      · simp only [he] at hw
        exact ih hn hw

/-- Where the way was missing, what it leads to now was missing, too. -/
theorem Added.walkFrom_missing {fs fs' : Fs} (h : Added fs fs') {jump jump' : Path → Except Nat Path}
    (hj : ∀ p q, jump p = .error ENOENT → jump' p = .ok q → fs.node q = none) {d q : Path} {names : List Name}
    (hw : Fs.walkFrom fs jump d names = .error ENOENT) (hw' : Fs.walkFrom fs' jump' d names = .ok q) :
    fs.node q = none := by
  induction names generalizing d with
  | nil => cases hw
  | cons n rest ih =>
    cases rest with
    | nil => cases hw
    | cons m rest =>
      rw [Fs.walkFrom] at hw hw'
      cases hn : fs.node (d ++ [n]) with
      | none =>
        rcases h.1 (d ++ [n]) with he | ⟨-, he⟩
        · simp only [he, hn] at hw'
          cases hw'
        · simp only [he] at hw'
          exact h.walkFrom_below hn hw'
      | some x =>
        simp only [hn, h.node_eq hn] at hw hw'
        cases x with
        | dir => exact ih hw hw'
        | symlink t => exact hj _ _ hw hw'
        | file i => cases hw'
        | special => cases hw'

theorem Added.resolve_missing {fs fs' : Fs} (h : Added fs fs') {p q : Path} (hr : fs.resolve p = .error ENOENT)
    (hr' : fs'.resolve p = .ok q) : fs.node q = none := by
  have key : ∀ hops p q, fs.walk hops p = .error ENOENT → fs'.walk hops p = .ok q → fs.node q = none := by
    intro hops
    induction hops with
    | zero => exact fun p q _ hw' => by cases hw'
    | succ hops ih => exact fun p q hw hw' => h.walkFrom_missing ih hw hw'
  exact key _ _ _ hr hr'

theorem walkFrom_child {fs : Fs} {jump : Path → Except Nat Path} {n : Name}
    (hj : ∀ p b, jump p = .ok b → fs.node b = some .dir → jump (p ++ [n]) = .ok (b ++ [n])) {d b : Path}
    {names : List Name} (hb : fs.node b = some .dir) (hw : walkFrom fs jump d names = .ok b) :
    walkFrom fs jump d (names ++ [n]) = .ok (b ++ [n]) := by
  induction names generalizing d with
  | nil => cases hw; rfl
  | cons a rest ih =>
    cases rest with
    | nil =>
      cases hw
      simp only [List.cons_append, List.nil_append, walkFrom, hb]
    | cons m rest =>
      rw [walkFrom] at hw
      simp only [List.cons_append] at ih ⊢
      rw [walkFrom]
      cases hn : fs.node (d ++ [a]) with
      | none => simp only [hn] at hw; cases hw
      | some x =>
        simp only [hn] at hw ⊢
        cases x with
        | dir => exact ih hw
        | symlink t => simpa using hj _ _ hw hb
        | file i => cases hw
        | special => cases hw

/-- A name in a directory is where the directory is. -/
theorem resolve_child {fs : Fs} {p b : Path} (hr : fs.resolve p = .ok b) (hb : fs.node b = some .dir) (n : Name) :
    fs.resolve (p ++ [n]) = .ok (b ++ [n]) := by
  have key : ∀ hops p b, fs.walk hops p = .ok b → fs.node b = some .dir →
      fs.walk hops (p ++ [n]) = .ok (b ++ [n]) := by
    intro hops
    induction hops with
    | zero => exact fun p b hw _ => by cases hw
    | succ hops ih => exact fun p b hw hb => walkFrom_child ih hb hw
  exact key _ _ _ hr hb

/-! ## Directories as sets -/

/-- The names in a directory, as a set. -/
def names (fs : Fs) (d : Path) : Finset Name := (fs.children d).toFinset

theorem mem_names {fs : Fs} {d : Path} {n : Name} : n ∈ fs.names d ↔ fs.node (d ++ [n]) ≠ none := by
  rw [names, List.mem_toFinset, mem_children]

/-- The size of the regular file at a path, 0 if there is none. -/
def sizeAt (fs : Fs) (p : Path) : Nat := ((fs.fileAt p).map List.length).getD 0

theorem sizeAt_congr {fs fs' : Fs} {p : Path} (h : fs'.fileAt p = fs.fileAt p) : fs'.sizeAt p = fs.sizeAt p := by
  rw [sizeAt, sizeAt, h]

end Fs

end Posix
