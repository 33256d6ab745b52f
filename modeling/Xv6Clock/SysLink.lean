/-
  File:      Xv6Clock/SysLink.lean
  Subject:   `sys_link` (sysfile.c).

  The link count is raised before the directory of the new name is looked up, and lowered again at
  the label `bad`. There is one device, so the test of the two `dev` fields never fails.
  * `relink_tree`: the tree with another link count;
  * `bad_spec`: the count is lowered again, and everything is as it was;
  * `linkInto_spec`: the directory of the new name, for each way its lookup ends;
  * `sysLink_adds`: when the call adds one name or changes nothing.
-/
import Xv6Clock.Namei

namespace Xv6Clock.Dir

open Mkfs (Dinode Superblock bsize maxfile dirsiz rootino blocks)
open FileData (Fs iupdate need)
open Lib (Bytes slotOf putSlot cstr)

/-! ## 1. The call -/

/-- `ip->nlink` is set, and `iupdate(ip)`. -/
def Kfs.setNlink (k : Kfs) (i n : Nat) : Kfs :=
  let d := { k.ino i with nlink := n }
  { k with
    fs := iupdate k.fs i d
    ino := Function.update k.ino i d }

/-- The label `bad` of `sys_link`. -/
def bad (k : Kfs) (ip : Nat) : Except Stop (Int × Kfs) := do
  let k ← ilock k ip
  let k := k.setNlink ip (((k.ino ip).nlink + (2 ^ 16 - 1)) % 2 ^ 16)
  let k ← iunlockput k ip
  .ok (-1, k)

section
variable (sb : Superblock)

/-- `sys_link` from the lookup of the new name on; `name` is the buffer on the stack. -/
def linkInto (k : Kfs) (cwd : Nat) (new : List Byte) (name : Bytes) (ip : Nat) :
    Except Stop (Int × Kfs) := do
  match ← nameiparent sb k cwd new name with
  | (none, _, k) => bad k ip
  | (some dp, name, k) =>
    let k ← ilock k dp
    let (r, k) ← dirlink sb k dp name ip
    let k ← iunlockput k dp
    if r < 0 then bad k ip
    else
      let k ← iput k ip
      .ok (0, k)

/-- `sys_link`. -/
def sysLink (k : Kfs) (cwd : Nat) (old new : List Byte) (name : Bytes) :
    Except Stop (Int × Kfs) := do
  match ← namei sb k cwd old with
  | (none, k) => .ok (-1, k)
  | (some ip, k) =>
    let k ← ilock k ip
    if (k.ino ip).type = tDir then
      let k ← iunlockput k ip
      .ok (-1, k)
    else
      let k := k.setNlink ip (((k.ino ip).nlink + 1) % 2 ^ 16)
      let k ← iunlock k ip
      linkInto sb k cwd new name ip

end

/-! ## 2. Another link count -/

/-- The disk with another link count of inode `i`. -/
def Core.relink (c : Core) (i n : Nat) : Core :=
  { c with fs := iupdate c.fs i { c.fs.din i with nlink := n } }

section
variable {sb : Superblock} {c c' : Core} {k : Kfs} {i n : Nat}

theorem relink_din (c : Core) (i n j : Nat) : (c.relink i n).fs.din j =
    { c.fs.din j with nlink := if j = i then n else (c.fs.din j).nlink } := by
  change Function.update c.fs.din i { c.fs.din i with nlink := n } j = _
  by_cases h : j = i
  · rw [h, Function.update_self, if_pos rfl]
  · rw [Function.update_of_ne h, if_neg h]

@[simp] theorem relink_type (c : Core) (i n j : Nat) :
    ((c.relink i n).fs.din j).type = (c.fs.din j).type := by rw [relink_din]

@[simp] theorem relink_size (c : Core) (i n j : Nat) :
    ((c.relink i n).fs.din j).size = (c.fs.din j).size := by rw [relink_din]

@[simp] theorem relink_entries (c : Core) (i n j : Nat) :
    (c.relink i n).entries j = c.entries j := by
  unfold Core.entries
  rw [relink_din]
  rfl

theorem relink_relink (c : Core) (i n m : Nat) : (c.relink i n).relink i m = c.relink i m := by
  unfold Core.relink iupdate
  dsimp only
  rw [Function.update_self, Function.update_idem]

theorem relink_self (c : Core) (i : Nat) : c.relink i (c.fs.din i).nlink = c := by
  unfold Core.relink iupdate
  dsimp only
  rw [Function.update_eq_self]

theorem setNlink_core (h : k.ino i = k.fs.din i) :
    (k.setNlink i n).toCore = k.toCore.relink i n := by
  unfold Kfs.setNlink Core.relink
  rw [h]

theorem Sync.setNlink (h : Sync k) (i n : Nat) : Sync (k.setNlink i n) := by
  intro j href hv
  unfold Kfs.setNlink iupdate
  dsimp only
  by_cases hj : j = i
  · rw [hj, Function.update_self, Function.update_self]
  · rw [Function.update_of_ne hj, Function.update_of_ne hj]
    exact h j href hv

/-- The walk depends on the types, the entries and the cache. -/
theorem walkSpare_congr (htype : ∀ j, (c'.fs.din j).type = (c.fs.din j).type)
    (hent : ∀ j, c'.entries j = c.entries j) (href : c'.ref = c.ref) (hfree : c'.free = c.free)
    (parent : Bool) {names : List (List Byte)} : ∀ {ip : Nat},
    c'.walkSpare parent ip names = c.walkSpare parent ip names := by
  induction names with
  | nil => exact fun {ip} => rfl
  | cons name names ih =>
    intro ip
    have hlook : c'.lookup ip name = c.lookup ip name := by
      unfold Core.lookup
      rw [hent]
    have hheld : (c'.hold ip).ref = (c.hold ip).ref ∧ (c'.hold ip).free = (c.hold ip).free := by
      unfold Core.hold
      rw [href, hfree]
      exact ⟨rfl, rfl⟩
    unfold Core.walkSpare
    rw [htype, hlook, hheld.1, hheld.2]
    cases c.lookup ip name with
    | none => rfl
    | some next =>
      dsimp only
      rw [ih]

theorem resolve_relink (c : Core) (i n : Nat) (parent : Bool) (cwd : Nat)
    (path : List Byte) :
    (c.relink i n).resolve parent cwd path = c.resolve parent cwd path := by
  unfold Core.resolve
  rw [walkSpare_congr (relink_type c i n) (relink_entries c i n) rfl rfl]
  rfl

/-- **The tree with another link count.** -/
theorem relink_tree (h : Tree sb c) (hn : n = 0 → 0 < c.ref i) : Tree sb (c.relink i n) where
  sound := by
    have hd := relink_din c i n
    refine FileData.Sound.slots h.sound rfl (relink_type c i n) (fun j ht m => ?_) fun j ht => ?_
    · change Inode.slot c.fs.blk ((c.relink i n).fs.din j) m = Inode.slot c.fs.blk (c.fs.din j) m
      rw [hd]
      rfl
    · change Inode.NoHoles c.fs.blk ((c.relink i n).fs.din j)
      rw [hd]
      exact h.sound.noHoles j ht
  root := by
    rw [relink_type]
    exact h.root
  whole j ht := by
    rw [relink_type] at ht
    rw [relink_size]
    exact h.whole j ht
  named j ht e he hl := by
    rw [relink_type] at ht ⊢
    rw [relink_entries] at he
    exact h.named j ht e he hl
  cached j hj := by
    rw [relink_type]
    exact h.cached j hj
  kept j ht hj := by
    rw [relink_din] at ht hj
    dsimp only at ht hj
    by_cases he : j = i
    · rw [if_pos he] at hj
      rw [he]
      exact hn hj
    · rw [if_neg he] at hj
      exact h.kept j ht hj
  unlocked := h.unlocked

/-- The tree with one reference more. -/
theorem hold_tree (h : Tree sb c) (ht : (c.fs.din i).type ≠ 0) : Tree sb (c.hold i) where
  sound := h.sound
  root := h.root
  whole := h.whole
  named := h.named
  cached j hj := by
    rw [hold_ref] at hj
    by_cases he : j = i
    · rw [he]
      exact ht
    · rw [if_neg he] at hj
      exact h.cached j hj
  kept j hj hn := by
    have := h.kept j hj hn
    rw [hold_ref]
    omega
  unlocked := h.unlocked

end

/-! ## 3. The label `bad` -/

section
variable {sb : Superblock} {c : Core} {k : Kfs} {i n : Nat}

theorem lower_raise {n : Nat} (h : n < 2 ^ 16) :
    ((n + 1) % 2 ^ 16 + (2 ^ 16 - 1)) % 2 ^ 16 = n := by omega

/-- **At `bad`** the count is lowered again, and the reference to the inode is given back. -/
theorem bad_spec (h : Tree sb c) (hk : k.toCore = (c.hold i).relink i n) (hs : Sync k)
    (hspare : c.Spare i) (ht : (c.fs.din i).type ≠ 0)
    (hn : (n + (2 ^ 16 - 1)) % 2 ^ 16 = (c.fs.din i).nlink) :
    ∃ k', bad k i = .ok (-1, k') ∧ k'.toCore = c ∧ Sync k' := by
  obtain ⟨hlocked, hl⟩ := ilock_hold (c := c.relink i n) hk hs (h.unlocked i)
    (by rw [relink_type]; exact ht)
  have hback : (((k.locked i).ino i).nlink + (2 ^ 16 - 1)) % 2 ^ 16 = (c.fs.din i).nlink := by
    rw [hl.ino, relink_din, if_pos rfl]
    exact hn
  have hcore : ((k.locked i).setNlink i (c.fs.din i).nlink).toCore =
      (c.hold i).setLock i true := by
    rw [setNlink_core (hl.ino.trans (by rw [hl.core]; rfl)), hl.core]
    change (((c.hold i).relink i n).relink i (c.fs.din i).nlink).setLock i true = _
    rw [relink_relink]
    exact congrArg (·.setLock i true) (relink_self (c.hold i) i)
  obtain ⟨k', hput, hcore', hs'⟩ := iunlockput_hold hcore (hl.sync.setNlink i _) hspare
    (h.unlocked i) (h.kept i ht)
  refine ⟨k', ?_, hcore', hs'⟩
  unfold bad
  rw [hlocked, Lib.ok_bind]
  dsimp only
  rw [hback, hput]
  rfl

end

/-! ## 4. The directory of the new name -/

/-- There is a free entry, or the directory may grow by one. -/
def Core.Fits (c : Core) (dp : Nat) : Prop :=
  (∃ e ∈ c.entries dp, live e = false) ∨ (c.fs.din dp).size + 16 ≤ maxfile * bsize

/-- An entry more takes two blocks at most. -/
theorem need_entry {s : Fs} {d : Dinode} (h : Inode.NoHoles s.blk d) :
    need s d (blocks (d.size + 16)) ≤ 2 := by
  have hgrow : blocks (d.size + 16) ≤ blocks d.size + 1 := by
    change (d.size + 16 + (512 - 1)) / 512 ≤ (d.size + (512 - 1)) / 512 + 1
    omega
  have hmissing : (∑ m ∈ Finset.range (blocks (d.size + 16)),
      if Inode.blockOf s.blk d m = 0 then 1 else 0) ≤ 1 := by
    refine (Finset.sum_le_sum_of_subset (Finset.range_subset_range.mpr hgrow)).trans ?_
    rw [Finset.sum_range_succ, Finset.sum_eq_zero fun m hm =>
      if_neg (h m (Finset.mem_range.mp hm)).2, Nat.zero_add]
    split <;> omega
  have hind : FileData.noIndirect d ≤ 1 := by
    unfold FileData.noIndirect
    split <;> omega
  unfold need
  split <;> omega

section
variable {sb : Superblock} {c : Core} {k : Kfs} {dp inum e : Nat} {name : Bytes} (h : Tree sb c)
  (hk : Locked c k dp) (hd : (c.fs.din dp).type = tDir)
include h hk hd

theorem dirlink_tree_full (hl : c.lookup dp (cstr dirsiz name) = some e)
    (hs : ¬(c.hold dp).Spare e) : dirlink sb k dp name inum = .error .panic := by
  obtain ⟨hopen, hent, hspare⟩ := h.openDir hk hd
  obtain ⟨j, de, hj, he, rfl⟩ := lookup_slot hl
  exact dirlink_full hopen (hent ▸ hj) (hent ▸ he) (mt (hspare _).mp hs)

/-- The name is one of the directory itself. -/
theorem dirlink_tree_deadlock (hl : c.lookup dp (cstr dirsiz name) = some dp) :
    dirlink sb k dp name inum = .error .deadlock := by
  obtain ⟨hopen, hent, hspare⟩ := h.openDir hk hd
  obtain ⟨j, de, hj, he, hdp⟩ := lookup_slot hl
  have hself : (c.hold dp).Spare dp := .inl (by rw [hold_ref_self]; omega)
  refine dirlink_deadlock hopen (hent ▸ hj) (hent ▸ he) ?_ ?_
  · rw [hdp]
    exact (hspare dp).mpr hself
  · rw [hdp, hk.core]
    exact Function.update_self ..

variable (inum) in
theorem dirlink_tree_present (hl : c.lookup dp (cstr dirsiz name) = some e)
    (hs : (c.hold dp).Spare e) (hne : e ≠ dp) :
    ∃ k', dirlink sb k dp name inum = .ok (-1, k') ∧ k'.toCore = k.toCore ∧
      (Sync k → Sync k') := by
  obtain ⟨hopen, hent, hspare⟩ := h.openDir hk hd
  obtain ⟨j, de, hj, he, rfl⟩ := lookup_slot hl
  refine dirlink_present inum hopen (hent ▸ hj) (hent ▸ he) ((hspare _).mpr hs) ?_
  rw [hk.core]
  exact (Function.update_of_ne hne ..).trans (h.unlocked _)

theorem dirlink_tree_noRoom (hl : c.lookup dp (cstr dirsiz name) = none) (hfit : ¬c.Fits dp) :
    dirlink sb k dp name inum = .error .panic := by
  obtain ⟨hopen, hent, -⟩ := h.openDir hk hd
  obtain ⟨hlive, hmax⟩ := not_or.mp hfit
  refine dirlink_noRoom hopen (hent ▸ Option.map_eq_none_iff.mp hl) (fun e he => ?_) ?_
  · by_contra hdead
    exact hlive ⟨e, hent ▸ he, by simpa using hdead⟩
  · rw [hk.core]
    exact Nat.lt_of_not_le hmax

variable (inum) in
theorem dirlink_tree_absent (hsz : sb.size ≤ 2 ^ 32) (hl : c.lookup dp (cstr dirsiz name) = none)
    (hfit : c.Fits dp) (hblocks : 2 ≤ c.fs.free sb) :
    ∃ k', dirlink sb k dp name inum = .ok (0, k') ∧
      Wrote sb k dp (emptySlot (c.entries dp)) (mkDe name inum) k' := by
  obtain ⟨hopen, hent, -⟩ := h.openDir hk hd
  have hfs : k.fs = c.fs := by rw [hk.core]; rfl
  have ht : (c.fs.din dp).type ≠ 0 := by rw [hd]; decide
  have hroom : Room sb k.toCore dp := by
    unfold Room
    rw [hent, hfs]
    exact hfit.imp_right fun hmax => ⟨hmax, (need_entry (h.sound.noHoles dp ht)).trans hblocks⟩
  rw [← hent]
  exact dirlink_absent inum hsz hopen hroom (hent ▸ Option.map_eq_none_iff.mp hl)

end

/-! ## 5. From the lookup of the new name on -/

/-- The count of the inode is raised, and the call has a reference to it. -/
def Core.raised (c : Core) (i : Nat) : Core :=
  (c.hold i).relink i (((c.fs.din i).nlink + 1) % 2 ^ 16)

section
variable {sb : Superblock} {c c' : Core} {k : Kfs} {i dp cwd : Nat} {new : List Byte}
  {name : Bytes}

theorem raised_tree (h : Tree sb c) (ht : (c.fs.din i).type ≠ 0) : Tree sb (c.raised i) :=
  relink_tree (hold_tree h ht) fun _ => by
    rw [hold_ref_self]
    omega

theorem raised_type (c : Core) (i j : Nat) :
    ((c.raised i).fs.din j).type = (c.fs.din j).type := relink_type ..

theorem raised_entries (c : Core) (i j : Nat) : (c.raised i).entries j = c.entries j :=
  relink_entries ..

theorem raised_lookup (c : Core) (i j : Nat) (nm : List Byte) :
    (c.raised i).lookup j nm = c.lookup j nm := by
  unfold Core.lookup
  rw [raised_entries]

theorem raised_fits (c : Core) (i j : Nat) : (c.raised i).Fits j ↔ c.Fits j := by
  unfold Core.Fits
  rw [raised_entries]
  unfold Core.raised
  rw [relink_size]
  rfl

theorem raised_resolve (c : Core) (i : Nat) (parent : Bool) (cwd : Nat) (path : List Byte) :
    (c.raised i).resolve parent cwd path = (c.hold i).resolve parent cwd path :=
  resolve_relink ..

/-- The parent is a directory. -/
theorem resolve_dir (h : c.resolve true cwd new = .ok (some dp)) :
    c.walkParent (start cwd new) (components new) = some dp ∧ (c.fs.din dp).type = tDir := by
  unfold Core.resolve at h
  split at h
  · cases h
  · have hp := walkParent_of_spare h
    refine ⟨hp, ?_⟩
    unfold Core.walkParent at hp
    split at hp
    · cases hp
    · obtain ⟨d, -, hd⟩ := Option.bind_eq_some_iff.mp hp
      split at hd
      · cases hd
        assumption
      · cases hd

/-- `sys_link` before the lookup of the new name. -/
structure Raising (sb : Superblock) (c : Core) (k : Kfs) (i cwd : Nat) (new : List Byte) :
    Prop where
  tree : Tree sb c
  used : (c.fs.din i).type ≠ 0
  spare : c.Spare i
  nlink : (c.fs.din i).nlink < 2 ^ 15
  core : k.toCore = c.raised i
  sync : Sync k
  held : 0 < c.ref cwd
  noNul : 0 ∉ new

section
variable (h : Raising sb c k i cwd new)
include h

/-- At `bad` the raised count is lowered again. -/
theorem Raising.bad {k1 : Kfs} (hk : k1.toCore = c.raised i) (hs : Sync k1) :
    ∃ k', Dir.bad k1 i = .ok (-1, k') ∧ k'.toCore = c ∧ Sync k' :=
  bad_spec h.tree hk hs h.spare h.used (lower_raise (Nat.lt_trans h.nlink (by decide)))

/-- The lookup of the new name. -/
theorem raised_walk (name : Bytes) :
    Lib.Agree (Walked (c.raised i) true (components new)) (nameiparent sb k cwd new name)
      ((c.hold i).resolve true cwd new) := by
  have hcwd : 0 < k.ref cwd := by
    rw [h.core]
    change 0 < (c.hold i).ref cwd
    have := h.held
    rw [hold_ref]
    omega
  have hagree := namex_spec (h.core ▸ raised_tree h.tree h.used) h.sync hcwd true h.noNul name
  rwa [h.core, raised_resolve] at hagree

/-- The cache runs out. -/
theorem linkInto_error {e : Stop} (hr : (c.hold i).resolve true cwd new = .error e) :
    linkInto sb k cwd new name i = .error e := by
  have hagree := raised_walk h name
  rw [hr] at hagree
  unfold linkInto
  rw [hagree.of_error]
  rfl

end

variable (name) in
/-- There is no directory for the new name. -/
theorem linkInto_none (h : Raising sb c k i cwd new)
    (hr : (c.hold i).resolve true cwd new = .ok none) :
    ∃ k', linkInto sb k cwd new name i = .ok (-1, k') ∧ k'.toCore = c := by
  have hagree := raised_walk h name
  rw [hr] at hagree
  obtain ⟨⟨r, name', k1⟩, hcall, hr1, ⟨hs1, hcore⟩, -⟩ := hagree.of_ok
  obtain rfl : r = none := hr1
  obtain ⟨k', hbad, hk', -⟩ := h.bad hcore hs1
  refine ⟨k', ?_, hk'⟩
  unfold linkInto
  rw [hcall]
  exact hbad

variable (name) in
/-- `linkInto` at the directory of the new name, which is locked. -/
theorem linkInto_dir (h : Raising sb c k i cwd new) {nm : List Byte}
    (hr : (c.hold i).resolve true cwd new = .ok (some dp))
    (hnm : (components new).getLast? = some nm) :
    ∃ name' k1, nm = cstr dirsiz name' ∧ Locked (c.raised i) k1 dp ∧ (c.raised i).Spare dp ∧
      ((c.raised i).fs.din dp).type = tDir ∧
      (((c.raised i).fs.din dp).nlink = 0 → 0 < (c.raised i).ref dp) ∧
      linkInto sb k cwd new name i = (do
        let (r, k) ← dirlink sb k1 dp name' i
        let k ← iunlockput k dp
        if r < 0 then Dir.bad k i
        else
          let k ← iput k i
          .ok (0, k)) := by
  have hagree := raised_walk h name
  rw [hr] at hagree
  obtain ⟨⟨r, name', k1⟩, hcall, hr1, ⟨hs1, hcore, hspare, htype⟩, hlast⟩ := hagree.of_ok
  obtain rfl : r = some dp := hr1
  obtain ⟨hlocked, hl⟩ := ilock_hold hcore hs1 (h.tree.unlocked dp) htype
  refine ⟨name', k1.locked dp, Option.some.inj (hnm.symm.trans (hlast rfl (by simp))), hl, hspare,
    (raised_type c i dp).trans (resolve_dir hr).2, (raised_tree h.tree h.used).kept dp htype, ?_⟩
  unfold linkInto
  rw [hcall, Lib.ok_bind]
  dsimp only
  rw [hlocked, Lib.ok_bind]

variable (name) in
/-- The name is there, and is not one of the directory itself. -/
theorem linkInto_present (h : Raising sb c k i cwd new)
    (hr : (c.hold i).resolve true cwd new = .ok (some dp)) {nm : List Byte} {e : Nat}
    (hnm : (components new).getLast? = some nm) (hl : c.lookup dp nm = some e)
    (hroom : ((c.hold i).hold dp).Spare e) (hne : e ≠ dp) :
    ∃ k', linkInto sb k cwd new name i = .ok (-1, k') ∧ k'.toCore = c := by
  obtain ⟨name', k1, rfl, hk1, hsp, hd, hkept, heq⟩ := linkInto_dir name h hr hnm
  obtain ⟨k2, hlink, hcore2, hs2⟩ := dirlink_tree_present i (raised_tree h.tree h.used) hk1 hd
    ((raised_lookup c i dp _).trans hl) hroom hne
  obtain ⟨k3, hput, hcore3, hs3⟩ := iunlockput_hold (hcore2.trans hk1.core) (hs2 hk1.sync) hsp
    (h.tree.unlocked dp) hkept
  obtain ⟨k', hbad, hk', -⟩ := h.bad hcore3 hs3
  refine ⟨k', ?_, hk'⟩
  rw [heq, hlink, Lib.ok_bind]
  dsimp only
  rw [hput]
  exact hbad

variable (name) in
/-- Where `dirlink` does not return, `sys_link` does not. -/
theorem linkInto_stop (h : Raising sb c k i cwd new)
    (hr : (c.hold i).resolve true cwd new = .ok (some dp)) {nm : List Byte}
    (hnm : (components new).getLast? = some nm)
    (hstop : (∃ e, c.lookup dp nm = some e ∧ (e = dp ∨ ¬((c.hold i).hold dp).Spare e)) ∨
      (c.lookup dp nm = none ∧ ¬c.Fits dp)) :
    ∃ e, linkInto sb k cwd new name i = .error e := by
  obtain ⟨name', k1, rfl, hk1, -, hd, -, heq⟩ := linkInto_dir name h hr hnm
  have htree := raised_tree h.tree h.used
  have hlook := raised_lookup c i dp (cstr dirsiz name')
  have hlink : ∃ e, dirlink sb k1 dp name' i = .error e := by
    rcases hstop with ⟨e, hl, he | he⟩ | ⟨hl, hfit⟩
    · exact ⟨_, dirlink_tree_deadlock htree hk1 hd (hlook.trans (he ▸ hl))⟩
    · exact ⟨_, dirlink_tree_full htree hk1 hd (hlook.trans hl) he⟩
    · exact ⟨_, dirlink_tree_noRoom htree hk1 hd (hlook.trans hl) (mt (raised_fits c i dp).mp hfit)⟩
  obtain ⟨e, he⟩ := hlink
  refine ⟨e, ?_⟩
  rw [heq, he]
  rfl

/-- **One name more**, for inode `i` in directory `dp`; the count is a field of 16 bits. -/
structure Linked (c c' : Core) (i dp : Nat) (nm : List Byte) : Prop where
  nlink : (c'.fs.din i).nlink = ((c.fs.din i).nlink + 1) % 2 ^ 16
  others : ∀ j, j ≠ i → (c'.fs.din j).nlink = (c.fs.din j).nlink
  entry : ∃ j e, j ≤ (c.entries dp).length ∧
    (∀ b, (c.entries dp)[j]? = some b → live b = false) ∧ live e = true ∧ key e = nm ∧
    deInum e = i ∧ c'.entries dp = putSlot (c.entries dp) j e
  dirs : ∀ d, d ≠ dp → (c.fs.din d).type = tDir → c'.entries d = c.entries d

/-- The entry is written on the disk with the raised count. -/
theorem linked_of_wrote {name' : Bytes} {k1 k2 : Kfs}
    (hcore : k1.toCore = ((c.raised i).hold dp).setLock dp true)
    (hw : Wrote sb k1 dp (emptySlot (c.entries dp)) (mkDe name' i) k2)
    (hi0 : i ≠ 0) (hi16 : i < 2 ^ 16) (hc' : c'.fs = k2.fs) :
    Linked c c' i dp (cstr dirsiz name') := by
  have hfs : k1.fs = (c.raised i).fs := by
    rw [hcore]
    rfl
  have hdata := hw.data
  rw [hfs] at hdata
  have hnlink : ∀ j, (c'.fs.din j).nlink = ((c.raised i).fs.din j).nlink := fun j => by
    rw [hc', hw.nlink, hfs]
  have hnum : deInum (mkDe name' i) = i := by rw [deInum_mkDe, Nat.mod_eq_of_lt hi16]
  have hent1 : k1.entries dp = c.entries dp := by
    unfold Core.entries
    rw [hfs]
    exact raised_entries c i dp
  have hent2 : ∀ d, c'.entries d = k2.entries d := fun d => by
    unfold Core.entries
    rw [hc']
  refine ⟨?_, fun j hj => ?_, ⟨emptySlot (c.entries dp), mkDe name' i, emptySlot_le _,
    fun b hb => emptySlot_dead hb, live_iff.mpr (by rw [hnum]; exact hi0), key_mkDe .., hnum, ?_⟩,
    fun d hne hdir => ?_⟩
  · rw [hnlink]
    unfold Core.raised
    rw [relink_din, if_pos rfl]
  · rw [hnlink]
    unfold Core.raised
    rw [relink_din, if_neg hj]
    rfl
  · rw [hent2, hw.entries, hent1]
  · have htype : ((c.raised i).fs.din d).type ≠ 0 := by
      rw [raised_type, hdir]
      decide
    rw [hent2, ← raised_entries c i d]
    unfold Core.entries
    rw [hdata.din d hne, hdata.others d hne htype]

variable (name) in
/-- The name is not there, and there is room for it. -/
theorem linkInto_absent (hsz : sb.size ≤ 2 ^ 32) (h : Raising sb c k i cwd new) (hi0 : i ≠ 0)
    (hi16 : i < 2 ^ 16) (hr : (c.hold i).resolve true cwd new = .ok (some dp))
    {nm : List Byte} (hnm : (components new).getLast? = some nm) (hl : c.lookup dp nm = none)
    (hfit : c.Fits dp) (hblocks : 2 ≤ c.fs.free sb) :
    ∃ k', linkInto sb k cwd new name i = .ok (0, k') ∧ Linked c k'.toCore i dp nm := by
  obtain ⟨name', k1, rfl, hk1, hsp, hd, hkept, heq⟩ := linkInto_dir name h hr hnm
  obtain ⟨k2, hlink, hw⟩ := dirlink_tree_absent i (raised_tree h.tree h.used) hk1 hd hsz
    ((raised_lookup c i dp _).trans hl) ((raised_fits c i dp).mpr hfit) hblocks
  rw [raised_entries] at hw
  -- the state after `dirlink` is the one before, on another disk
  let c2 : Core := { c.raised i with fs := k2.fs }
  have hcore2 : k2.toCore = (c2.hold dp).setLock dp true := by
    rw [hw.core, hk1.core]
    rfl
  have hhead : ∀ j, (k2.fs.din j).nlink = ((c.raised i).fs.din j).nlink := fun j => by
    rw [hw.nlink, hk1.core]
    rfl
  obtain ⟨k3, hput, hcore3, hs3⟩ := iunlockput_hold hcore2 (hw.sync hk1.sync) hsp
    (h.tree.unlocked dp) fun hz => hkept ((hhead dp).symm.trans hz)
  have hnlink : (k3.fs.din i).nlink = (c.fs.din i).nlink + 1 := by
    rw [hcore3]
    change (k2.fs.din i).nlink = _
    rw [hhead]
    unfold Core.raised
    have hn := h.nlink
    rw [relink_din, if_pos rfl]
    exact Nat.mod_eq_of_lt (show (c.fs.din i).nlink + 1 < 2 ^ 16 by omega)
  have href : 0 < k3.ref i := by
    rw [hcore3]
    change 0 < (c.hold i).ref i
    rw [hold_ref_self]
    omega
  have hput' : iput k3 i = .ok { k3 with toCore := k3.toCore.drop i } := by
    refine iput_eq (by rw [hcore3]; exact h.tree.unlocked i) fun hx => ?_
    obtain ⟨hv, hz, -⟩ := hx
    rw [hs3 i href hv, hnlink] at hz
    omega
  refine ⟨{ k3 with toCore := k3.toCore.drop i }, ?_, linked_of_wrote hk1.core hw hi0 hi16 ?_⟩
  · rw [heq, hlink, Lib.ok_bind]
    dsimp only
    rw [hput, Lib.ok_bind, if_neg (by decide), hput']
    rfl
  · change k3.fs = k2.fs
    rw [hcore3]

end

/-! ## 6. `sys_link` -/

/-- A field of type `short`. -/
def short (n : Nat) : Int := (BitVec.ofNat 16 n).toInt

/-- **One name more**, and the count of its inode is one higher. -/
structure Added (c c' : Core) (i dp : Nat) (nm : List Byte) : Prop where
  linked : Linked c c' i dp nm
  count : short (c'.fs.din i).nlink = short (c.fs.din i).nlink + 1

/-- The entries of the directories, the counts and the sizes are as they were. -/
structure Unchanged (c c' : Core) : Prop where
  entries : ∀ d, (c.fs.din d).type = tDir → c'.entries d = c.entries d
  nlink : ∀ j, (c'.fs.din j).nlink = (c.fs.din j).nlink
  size : ∀ j, (c'.fs.din j).size = (c.fs.din j).size

/-- **`sys_link` returns**: with 0 and one name more, or with -1 and nothing changed. -/
def AddsOrNot (sb : Superblock) (k : Kfs) (cwd : Nat) (old new : List Byte) (name : Bytes) :
    Prop :=
  ∃ r k', sysLink sb k cwd old new name = .ok (r, k') ∧
    ((r = 0 ∧ ∃ i dp nm, k.walk (start cwd old) (components old) = some i ∧
      k.walkParent (start cwd new) (components new) = some dp ∧
      (components new).getLast? = some nm ∧ Added k.toCore k'.toCore i dp nm) ∨
    (r = -1 ∧ Unchanged k.toCore k'.toCore))

/-- A file system between two calls, and a process in it. -/
structure WellFormed (sb : Superblock) (k : Kfs) (cwd : Nat) : Prop where
  tree : Tree sb k.toCore
  sync : Sync k
  held : 0 < k.ref cwd
  cwdDir : (k.fs.din cwd).type = tDir
  rootDir : (k.fs.din rootino).type = tDir
  nlink : ∀ i, (k.fs.din i).type ≠ 0 → (k.fs.din i).nlink < 2 ^ 15

/-- When `sys_link` returns with inode `i` for the old name: the inode cache does not run out, the
    new name is not one of its directory itself, and where it is not there, the directory has room
    for it and the count does not overflow. -/
structure LinkAt (c : Core) (cwd : Nat) (new : List Byte) (i : Nat) : Prop where
  room : ∃ r, (c.hold i).resolve true cwd new = .ok r
  present : ∀ dp nm e, (c.hold i).resolve true cwd new = .ok (some dp) →
    (components new).getLast? = some nm → c.lookup dp nm = some e →
    e ≠ dp ∧ ((c.hold i).hold dp).Spare e
  absent : ∀ dp nm, (c.hold i).resolve true cwd new = .ok (some dp) →
    (components new).getLast? = some nm → c.lookup dp nm = none →
    c.Fits dp ∧ (c.fs.din i).nlink + 1 < 2 ^ 15

/-- **When `sys_link` adds one name or changes nothing.** -/
structure LinkOk (c : Core) (cwd : Nat) (old new : List Byte) : Prop where
  room : ∃ r, c.resolve false cwd old = .ok r
  link : ∀ i, c.resolve false cwd old = .ok (some i) → (c.fs.din i).type ≠ tDir →
    LinkAt c cwd new i

section
variable {sb : Superblock} {c : Core} {k : Kfs} {i dp cwd : Nat} {old new : List Byte}
  {name : Bytes}

/-- What a walk comes to has its number from an entry, unless it stays where it is. -/
theorem walk_number {names : List (List Byte)} : ∀ {ip : Nat}, c.walk ip names = some i →
    i = ip ∨ (i ≠ 0 ∧ i < 2 ^ 16) := by
  induction names with
  | nil =>
    intro ip h
    exact .inl (Option.some.inj h).symm
  | cons n names ih =>
    intro ip h
    unfold Core.walk at h
    split at h
    · obtain ⟨next, hl, hw⟩ := Option.bind_eq_some_iff.mp h
      obtain ⟨j, hj, hnum⟩ := Option.map_eq_some_iff.mp hl
      obtain ⟨e, he, hlive, -⟩ := Lib.slotOf_some hj
      rw [List.getD_eq_getElem?_getD, he] at hnum
      obtain rfl : deInum e = next := hnum
      refine .inr ((ih hw).elim (fun hx => ?_) id)
      rw [hx]
      exact ⟨live_iff.mp hlive, Lib.getLE_lt ..⟩
    · cases h

theorem Unchanged.of_eq (h : k.toCore = c) : Unchanged c k.toCore := by
  rw [h]
  exact ⟨fun _ _ => rfl, fun _ => rfl, fun _ => rfl⟩

theorem walk_of_resolve {r : Option Nat} (h : c.resolve false cwd old = .ok r) :
    c.walk (start cwd old) (components old) = r := by
  unfold Core.resolve at h
  split at h
  · cases h
  · exact walk_of_spare h

/-- The walk does not depend on the references. -/
theorem walk_hold {names : List (List Byte)} : ∀ {ip : Nat},
    (c.hold i).walk ip names = c.walk ip names := by
  induction names with
  | nil => exact fun {ip} => rfl
  | cons n names ih =>
    intro ip
    unfold Core.walk
    change (if (c.fs.din ip).type = tDir then
      (c.lookup ip n).bind fun next => (c.hold i).walk next names else none) = _
    congr 1
    exact congrArg _ (funext fun next => ih)

theorem walkParent_hold {names : List (List Byte)} {ip : Nat} :
    (c.hold i).walkParent ip names = c.walkParent ip names := by
  unfold Core.walkParent
  rw [walk_hold]
  rfl

/-- The old name, for each way its lookup ends. -/
theorem sysLink_error (h : WellFormed sb k cwd) (h0 : 0 ∉ old) {e : Stop}
    (hr : k.resolve false cwd old = .error e) : sysLink sb k cwd old new name = .error e := by
  have hagree := namex_spec h.tree h.sync h.held false h0 fun _ => 0
  rw [hr] at hagree
  unfold sysLink namei
  rw [hagree.of_error]
  rfl

theorem namei_resolve (h : WellFormed sb k cwd) (h0 : 0 ∉ old) {r : Option Nat}
    (hr : k.resolve false cwd old = .ok r) :
    ∃ k', namei sb k cwd old = .ok (r, k') ∧ Ends k.toCore r k' := by
  have hagree := namex_spec h.tree h.sync h.held false h0 fun _ => 0
  rw [hr] at hagree
  obtain ⟨⟨r', name', k'⟩, hcall, hr', hends, -⟩ := hagree.of_ok
  obtain rfl : r' = r := hr'
  refine ⟨k', ?_, hends⟩
  unfold namei
  rw [hcall]
  rfl

variable (new name) in
theorem sysLink_none (h : WellFormed sb k cwd) (h0 : 0 ∉ old)
    (hr : k.resolve false cwd old = .ok none) :
    ∃ k', sysLink sb k cwd old new name = .ok (-1, k') ∧ k'.toCore = k.toCore := by
  obtain ⟨k', hcall, -, hcore⟩ := namei_resolve h h0 hr
  refine ⟨k', ?_, hcore⟩
  unfold sysLink
  rw [hcall]
  rfl

variable (name) in
theorem sysLink_some (h : WellFormed sb k cwd) (h0 : 0 ∉ old) (h1 : 0 ∉ new)
    (hr : k.resolve false cwd old = .ok (some i)) :
      ((k.fs.din i).type = tDir →
        ∃ k', sysLink sb k cwd old new name = .ok (-1, k') ∧ k'.toCore = k.toCore) ∧
      ((k.fs.din i).type ≠ tDir → ∃ k1, Raising sb k.toCore k1 i cwd new ∧
        sysLink sb k cwd old new name = linkInto sb k1 cwd new name i) := by
  obtain ⟨k1, hcall, hs1, hcore, hspare, ht⟩ := namei_resolve h h0 hr
  obtain ⟨hlocked, hl⟩ := ilock_hold hcore hs1 (h.tree.unlocked i) ht
  refine ⟨fun hd => ?_, fun hd => ?_⟩
  · obtain ⟨k', hput, hcore', -⟩ := iunlockput_hold hl.core hl.sync hspare (h.tree.unlocked i)
      (h.tree.kept i ht)
    refine ⟨k', ?_, hcore'⟩
    unfold sysLink
    rw [hcall, Lib.ok_bind]
    dsimp only
    rw [hlocked, Lib.ok_bind, hl.ino, if_pos hd, hput]
    rfl
  · let n := ((k.fs.din i).nlink + 1) % 2 ^ 16
    let k2 := (k1.locked i).setNlink i n
    have hcore3 : k2.toCore = (k.raised i).setLock i true := by
      rw [setNlink_core (hl.ino.trans (by rw [hl.core]; rfl)), hl.core]
      rfl
    refine ⟨{ k2 with toCore := k2.toCore.setLock i false }, ⟨h.tree, ht, hspare, h.nlink i ht, ?_,
      (hl.sync.setNlink i n).setLock i false, h.held, h1⟩, ?_⟩
    · change k2.toCore.setLock i false = k.raised i
      rw [hcore3, ← show (k.raised i).lock i = false from h.tree.unlocked i, setLock_setLock]
    · have hun : iunlock k2 i = .ok { k2 with toCore := k2.toCore.setLock i false } := by
        refine iunlock_eq ?_ ?_
        · rw [hcore3]
          change 0 < (k.hold i).ref i
          rw [hold_ref_self]
          omega
        · rw [hcore3]
          exact Function.update_self ..
      unfold sysLink
      rw [hcall, Lib.ok_bind]
      dsimp only
      rw [hlocked, Lib.ok_bind, hl.ino, if_neg hd, hun]
      rfl

theorem short_succ {n : Nat} (h : n < 2 ^ 15) :
    short ((n + 1) % 2 ^ 16) = short n + 1 ↔ n + 1 < 2 ^ 15 := by
  unfold short
  rw [BitVec.toInt_eq_toNat_cond, BitVec.toInt_eq_toNat_cond, BitVec.toNat_ofNat,
    BitVec.toNat_ofNat]
  split <;> split <;> omega

/-- A path to something that is not a directory ends with an entry. -/
theorem resolve_number (h : WellFormed sb k cwd) (hr : k.resolve false cwd old = .ok (some i))
    (hd : (k.fs.din i).type ≠ tDir) : i ≠ 0 ∧ i < 2 ^ 16 := by
  refine (walk_number (walk_of_resolve hr)).resolve_left fun he => hd ?_
  rw [he]
  unfold start
  split
  · exact h.rootDir
  · exact h.cwdDir

/-- The parent of the new name has it, or has it not. -/
theorem last_of_resolve (hr : c.resolve true cwd new = .ok (some dp)) :
    ∃ nm, (components new).getLast? = some nm := by
  obtain ⟨hp, -⟩ := resolve_dir hr
  have hne : components new ≠ [] := by
    intro he
    rw [he] at hp
    cases hp
  exact ⟨_, List.getLast?_eq_some_getLast hne⟩

/-- If `sys_link` returns as it should, then the conditions hold. -/
theorem linkAt_of_adds (hsz : sb.size ≤ 2 ^ 32) (h : WellFormed sb k cwd)
    (hblocks : 2 ≤ k.fs.free sb) (h0 : 0 ∉ old) (h1 : 0 ∉ new)
    (ha : AddsOrNot sb k cwd old new name) (hr : k.resolve false cwd old = .ok (some i))
    (hd : (k.fs.din i).type ≠ tDir) : LinkAt k.toCore cwd new i := by
  obtain ⟨r, k', hcall, hcase⟩ := ha
  obtain ⟨k1, hrai, heq⟩ := (sysLink_some name h h0 h1 hr).2 hd
  obtain ⟨hi0, hi16⟩ := resolve_number h hr hd
  rw [heq] at hcall
  have hstop : ∀ {dp nm}, (k.hold i).resolve true cwd new = .ok (some dp) →
      (components new).getLast? = some nm →
      ¬((∃ e, k.lookup dp nm = some e ∧ (e = dp ∨ ¬((k.hold i).hold dp).Spare e)) ∨
        (k.lookup dp nm = none ∧ ¬k.Fits dp)) := by
    intro dp nm hdp hnm hx
    obtain ⟨e, he⟩ := linkInto_stop name hrai hdp hnm hx
    rw [he] at hcall
    cases hcall
  refine ⟨?_, fun dp nm e hdp hnm hl => ?_, fun dp nm hdp hnm hl => ?_⟩
  · cases hres : (k.hold i).resolve true cwd new with
    | ok r => exact ⟨r, rfl⟩
    | error e =>
      rw [linkInto_error hrai hres] at hcall
      cases hcall
  · have hno := fun hx => hstop hdp hnm (.inl ⟨e, hl, hx⟩)
    exact ⟨fun he => hno (.inl he), by_contra fun hs => hno (.inr hs)⟩
  · have hfit : k.Fits dp := by_contra fun hx => hstop hdp hnm (.inr ⟨hl, hx⟩)
    obtain ⟨k2, hadd, hlinked⟩ := linkInto_absent name hsz hrai hi0 hi16 hdp hnm hl hfit hblocks
    rw [hadd] at hcall
    cases hcall
    refine ⟨hfit, ?_⟩
    rcases hcase with ⟨-, i', dp', nm', hi', -, -, hadded⟩ | ⟨hneg, -⟩
    · obtain rfl : i = i' := Option.some.inj ((walk_of_resolve hr).symm.trans hi')
      have hcount := hadded.count
      rw [hlinked.nlink] at hcount
      exact (short_succ hrai.nlink).mp hcount
    · cases hneg

/-- If the conditions hold, `sys_link` returns as it should. -/
theorem adds_of_linkAt (hsz : sb.size ≤ 2 ^ 32) (h : WellFormed sb k cwd)
    (hblocks : 2 ≤ k.fs.free sb) (h0 : 0 ∉ old) (h1 : 0 ∉ new)
    (hr : k.resolve false cwd old = .ok (some i)) (hd : (k.fs.din i).type ≠ tDir)
    (ha : LinkAt k.toCore cwd new i) : AddsOrNot sb k cwd old new name := by
  obtain ⟨k1, hrai, heq⟩ := (sysLink_some name h h0 h1 hr).2 hd
  obtain ⟨hi0, hi16⟩ := resolve_number h hr hd
  obtain ⟨r, hres⟩ := ha.room
  cases r with
  | none =>
    obtain ⟨k', hcall, hcore⟩ := linkInto_none name hrai hres
    exact ⟨-1, k', heq.trans hcall, .inr ⟨rfl, .of_eq hcore⟩⟩
  | some dp =>
    obtain ⟨nm, hnm⟩ := last_of_resolve hres
    cases hl : k.lookup dp nm with
    | some e =>
      obtain ⟨hne, hroom⟩ := ha.present dp nm e hres hnm hl
      obtain ⟨k', hcall, hcore⟩ := linkInto_present name hrai hres hnm hl hroom hne
      exact ⟨-1, k', heq.trans hcall, .inr ⟨rfl, .of_eq hcore⟩⟩
    | none =>
      obtain ⟨hfit, hshort⟩ := ha.absent dp nm hres hnm hl
      obtain ⟨k', hcall, hlinked⟩ := linkInto_absent name hsz hrai hi0 hi16 hres hnm hl hfit
        hblocks
      refine ⟨0, k', heq.trans hcall, .inl ⟨rfl, i, dp, nm, walk_of_resolve hr, ?_, hnm, hlinked,
        ?_⟩⟩
      · rw [← walkParent_hold]
        exact (resolve_dir hres).1
      · rw [hlinked.nlink]
        exact (short_succ hrai.nlink).mpr hshort

end

/-! ### Two names -/

theorem oneName_wellFormed : WellFormed Mkfs.sb (smallKfs oneName [1]) 1 where
  tree := smallKfs_tree oneName_tree _ rfl
  sync := smallKfs_sync oneName [1]
  held := by decide
  cwdDir := rfl
  rootDir := rfl
  nlink i _ := by
    change (smallAt oneName i).nlink < 2 ^ 15
    by_cases hi : i < 3
    · rcases (by omega : i = 0 ∨ i = 1 ∨ i = 2) with rfl | rfl | rfl <;> decide
    · unfold smallAt
      rw [List.getD_eq_default _ _ (Nat.le_of_not_lt hi)]
      decide

theorem oneName_free : 2 ≤ (smallKfs oneName [1]).fs.free Mkfs.sb := by decide +kernel

end Xv6Clock.Dir
