/-
  File:      Xv6Clock/Namei.lean
  Subject:   Path names: `skipelem`, `namex`, `namei` and `nameiparent` (fs.c).

  The path is the list of its bytes before the NUL. What it names is found by looking up its
  components one after the other (`walk`), on the disk alone; `namex` does this with locks and
  references, and the entries of the inode cache may run out on the way (`walkSpare`).
  * `skipelem_eq`: the next component and the rest;
  * `namexLoop_spec`: the loop, for each inode it comes to;
  * `namei_walk`: what is returned, and the references and locks afterwards.
-/
import Xv6Clock.Directory
import Xv6Clock.Lib.Refine
import Mathlib.Data.List.DropRight

namespace Xv6Clock.Dir

open Mkfs (Superblock dirsiz slash rootino)
open Lib (Bytes slotOf splice cstr cstr_of_bytes)

/-! ## 1. The calls -/

/-- `skipelem`: the rest of the path, and the buffer with the element; none for 0. -/
def skipelem (path : List Byte) (name : Bytes) : Option (List Byte × Bytes) :=
  let path := path.dropWhile (· == slash)
  if path = [] then none
  else
    let s := path.takeWhile (· != slash)
    let path := path.dropWhile (· != slash)
    let name := if dirsiz ≤ s.length then splice name 0 (s.take dirsiz)
      else Function.update (splice name 0 s) s.length 0
    some (path.dropWhile (· == slash), name)

section
variable (sb : Superblock)

/-- The loop of `namex`; a round takes a byte of the path at least. -/
def namexLoop (nameiparent : Bool) : Nat → Kfs → Nat → List Byte → Bytes →
    Except Stop (Option Nat × Bytes × Kfs)
  | 0, k, ip, _, name => .ok (some ip, name, k)
  | fuel + 1, k, ip, path, name =>
    match skipelem path name with
    | none =>
      if nameiparent then do
        let k ← iput k ip
        .ok (none, name, k)
      else .ok (some ip, name, k)
    | some (path, name) => do
      let k ← ilock k ip
      if (k.ino ip).type ≠ tDir then do
        let k ← iunlockput k ip
        .ok (none, name, k)
      else if nameiparent = true ∧ path = [] then do
        -- stop one level early
        let k ← iunlock k ip
        .ok (some ip, name, k)
      else
        match ← dirlookup sb k ip name with
        | (none, k) => do
          let k ← iunlockput k ip
          .ok (none, name, k)
        | (some (next, _), k) => do
          let k ← iunlockput k ip
          namexLoop nameiparent fuel k next path name

/-- `namex`. -/
def namex (k : Kfs) (cwd : Nat) (path : List Byte) (nameiparent : Bool) (name : Bytes) :
    Except Stop (Option Nat × Bytes × Kfs) :=
  if path.head? = some slash then do
    let k ← iget k rootino
    namexLoop sb nameiparent (path.length + 1) k rootino path name
  else namexLoop sb nameiparent (path.length + 1) (idup k cwd) cwd path name

/-- `namei`. -/
def namei (k : Kfs) (cwd : Nat) (path : List Byte) : Except Stop (Option Nat × Kfs) := do
  let (ip, _, k) ← namex sb k cwd path false fun _ => 0
  .ok (ip, k)

/-- `nameiparent`. -/
def nameiparent (k : Kfs) (cwd : Nat) (path : List Byte) (name : Bytes) :
    Except Stop (Option Nat × Bytes × Kfs) :=
  namex sb k cwd path true name

end

/-! ## 2. Components -/

/-- **The components**: the maximal parts without a slash that are not empty, cut to 14 bytes. -/
def components (path : List Byte) : List (List Byte) :=
  ((path.splitOnP (· == slash)).filter (· ≠ [])).map (·.take dirsiz)

section
variable {path path' : List Byte} {name name' : Bytes}

theorem components_slash (path : List Byte) :
    components (slash :: path) = components path := by
  unfold components
  rw [List.splitOnP_cons_eq_if_modifyHead]
  simp

theorem components_dropWhile (path : List Byte) :
    components (path.dropWhile (· == slash)) = components path := by
  induction path with
  | nil => rfl
  | cons c path ih =>
    rw [List.dropWhile_cons]
    by_cases hc : c = slash
    · rw [if_pos (by simpa using hc), ih, hc, components_slash]
    · rw [if_neg (by simpa using hc)]

/-- The first component of a path that does not start with a slash. -/
theorem components_first {s rest : List Byte} (hs : s ≠ []) (hno : ∀ c ∈ s, c ≠ slash)
    (hrest : ∀ c r, rest = c :: r → c = slash) :
    components (s ++ rest) = s.take dirsiz :: components rest := by
  have hp : ∀ c ∈ s, (c == slash) = false := fun c hc => by simpa using hno c hc
  unfold components
  cases rest with
  | nil =>
    rw [List.append_nil, List.splitOnP_eq_singleton hp]
    simp [hs]
  | cons c r =>
    rw [hrest c r rfl, List.splitOnP_append_cons_of_forall_mem hp _ (by simp),
      List.splitOnP_cons_eq_if_modifyHead]
    simp [hs]

/-- What `dropWhile` stops at. -/
theorem dropWhile_head {p : Byte → Bool} {xs r : List Byte} {c : Byte}
    (h : xs.dropWhile p = c :: r) : p c = false := by
  have hhead := List.head?_dropWhile_not p xs
  rw [h] at hhead
  simpa using hhead

theorem components_eq_nil : components path = [] ↔ path.dropWhile (· == slash) = [] := by
  rw [← components_dropWhile path]
  cases h : path.dropWhile (· == slash) with
  | nil => exact ⟨fun _ => rfl, fun _ => rfl⟩
  | cons c r =>
    have hc := dropWhile_head h
    refine ⟨fun he => ?_, (fun he => by cases he)⟩
    have hsplit := List.takeWhile_append_dropWhile (p := (· != slash)) (l := c :: r)
    have hne : (c :: r).takeWhile (· != slash) ≠ [] := by
      rw [List.takeWhile_cons, if_pos (by simpa using hc)]
      exact List.cons_ne_nil _ _
    rw [← hsplit, components_first hne (fun x hx => by simpa using List.mem_takeWhile_imp hx)
      fun x t hx => by simpa using dropWhile_head hx] at he
    cases he

theorem skipelem_none : skipelem path name = none ↔ components path = [] := by
  rw [components_eq_nil]
  unfold skipelem
  dsimp only
  split
  · rename_i h
    exact ⟨fun _ => h, fun _ => rfl⟩
  · rename_i h
    exact ⟨(fun he => by cases he), fun he => absurd he h⟩

/-- **The next component**, in the buffer and in what is left of the path. -/
theorem skipelem_some (h0 : 0 ∉ path) (h : skipelem path name = some (path', name')) :
    components path = cstr dirsiz name' :: components path' ∧ path'.length < path.length ∧
      0 ∉ path' ∧ (path' = [] ↔ components path' = []) := by
  unfold skipelem at h
  dsimp only at h
  split at h
  · cases h
  rename_i hne
  generalize hq : path.dropWhile (· == slash) = q at h hne
  have hsub : q.Sublist path := hq ▸ List.dropWhile_sublist _
  have hsplit := List.takeWhile_append_dropWhile (p := (· != slash)) (l := q)
  generalize hs : q.takeWhile (· != slash) = s at h hsplit
  generalize hr : q.dropWhile (· != slash) = rest at h hsplit
  have hlen := congrArg List.length hsplit
  rw [List.length_append] at hlen
  have hs0 : s ≠ [] := by
    cases q with
    | nil => exact absurd rfl hne
    | cons c r =>
      have hc := dropWhile_head hq
      rw [← hs, List.takeWhile_cons, if_pos (by simpa using hc)]
      exact List.cons_ne_nil _ _
  have hpos := List.length_pos_iff.mpr hs0
  have hsub' : (rest.dropWhile (· == slash)).Sublist path :=
    (List.dropWhile_sublist _).trans ((hsplit ▸ List.sublist_append_right s rest).trans hsub)
  have hnul : 0 ∉ s := fun hmem =>
    h0 (hsub.subset (hsplit ▸ List.mem_append_left rest hmem))
  have hno : ∀ x ∈ s, x ≠ slash := by
    intro x hx
    rw [← hs] at hx
    simpa using List.mem_takeWhile_imp hx
  obtain ⟨rfl, rfl⟩ := Prod.mk.inj (Option.some.inj h)
  refine ⟨?_, ?_, fun hmem => h0 (hsub'.subset hmem), ?_⟩
  · rw [← components_dropWhile path, hq, ← hsplit, components_first hs0 hno
      fun x t hx => by simpa using dropWhile_head (hr.trans hx), components_dropWhile]
    congr 1
    symm
    by_cases hcut : dirsiz ≤ s.length
    · have hl : (s.take dirsiz).length = dirsiz := List.length_take_of_le hcut
      rw [if_pos hcut]
      refine cstr_of_bytes (fun hm => hnul (List.mem_of_mem_take hm)) (by omega)
        (fun j hj => ?_) fun hlt => absurd hlt (by omega)
      rw [Lib.splice_in (Nat.zero_le j) (by omega)]
      rfl
    · rw [if_neg hcut, List.take_of_length_le (by omega)]
      refine cstr_of_bytes hnul (by omega) (fun j hj => ?_) fun _ => Function.update_self ..
      rw [Function.update_of_ne (by omega), Lib.splice_in (Nat.zero_le j) (by omega)]
      rfl
  · have h2 := hsub.length_le
    exact Nat.lt_of_le_of_lt (List.dropWhile_sublist _).length_le (by omega)
  · rw [components_eq_nil, List.dropWhile_idempotent]

end

/-! ## 3. What a path names -/

/-- The inode that the directory has for a name. -/
def Core.lookup (c : Core) (ip : Nat) (name : List Byte) : Option Nat :=
  (slotOf live key (c.entries ip) name).map fun j => deInum ((c.entries ip).getD j [])

/-- **Component-wise lookup**; an inode that is not a directory has no names. -/
def Core.walk (c : Core) : Nat → List (List Byte) → Option Nat
  | ip, [] => some ip
  | ip, name :: names =>
    if (c.fs.din ip).type = tDir then (c.lookup ip name).bind fun next => c.walk next names
    else none

/-- The directory that has the last component. -/
def Core.walkParent (c : Core) (ip : Nat) (names : List (List Byte)) : Option Nat :=
  if names = [] then none
  else (c.walk ip names.dropLast).bind fun dp =>
    if (c.fs.din dp).type = tDir then some dp else none

/-- Where the lookup starts. -/
def start (cwd : Nat) (path : List Byte) : Nat :=
  if path.head? = some slash then rootino else cwd

/-- The walk of `namex`, which stops where the cache has no entry for the next inode. -/
def Core.walkSpare (c : Core) (parent : Bool) :
    Nat → List (List Byte) → Except Stop (Option Nat)
  | ip, [] => .ok (if parent then none else some ip)
  | ip, name :: names =>
    if (c.fs.din ip).type ≠ tDir then .ok none
    else if parent = true ∧ names = [] then .ok (some ip)
    else
      match c.lookup ip name with
      | none => .ok none
      | some next =>
        if 0 < (c.hold ip).ref next ∨ 0 < (c.hold ip).free then c.walkSpare parent next names
        else .error .panic

/-- **A tree of directories** that no process is working on: every name is that of an allocated
    inode, the cache has allocated inodes only, and an inode without links is in use. -/
structure Tree (sb : Superblock) (c : Core) : Prop where
  sound : c.fs.image.Sound sb
  root : (c.fs.din rootino).type ≠ 0
  whole : ∀ i, (c.fs.din i).type = tDir → 16 ∣ (c.fs.din i).size
  named : ∀ i, (c.fs.din i).type = tDir → ∀ e ∈ c.entries i, live e = true →
    (c.fs.din (deInum e)).type ≠ 0
  cached : ∀ i, 0 < c.ref i → (c.fs.din i).type ≠ 0
  kept : ∀ i, (c.fs.din i).type ≠ 0 → (c.fs.din i).nlink = 0 → 0 < c.ref i
  unlocked : ∀ i, c.lock i = false

variable {names : List (List Byte)}

section
variable {sb : Superblock} {c : Core} {k : Kfs} {i ip next : Nat}

theorem Tree.lookup (h : Tree sb c) (hd : (c.fs.din ip).type = tDir) {name : List Byte}
    (hl : c.lookup ip name = some next) : (c.fs.din next).type ≠ 0 := by
  obtain ⟨j, hj, rfl⟩ := Option.map_eq_some_iff.mp hl
  obtain ⟨e, he, hlive, -⟩ := Lib.slotOf_some hj
  rw [List.getD_eq_getElem?_getD, he]
  exact h.named ip hd e (List.mem_of_getElem? he) hlive

/-- A walk that the cache has entries for finds what the components name. -/
theorem walk_of_spare : ∀ {ip : Nat} {r : Option Nat},
    c.walkSpare false ip names = .ok r → c.walk ip names = r := by
  induction names with
  | nil =>
    intro ip r h
    cases h
    rfl
  | cons name names ih =>
    intro ip r h
    unfold Core.walkSpare at h
    unfold Core.walk
    by_cases hd : (c.fs.din ip).type = tDir
    · rw [if_neg (not_not.mpr hd), if_neg (fun hx => Bool.false_ne_true hx.1)] at h
      rw [if_pos hd]
      cases hl : c.lookup ip name with
      | none =>
        rw [hl] at h
        cases h
        rfl
      | some next =>
        rw [hl] at h
        dsimp only at h
        split at h
        · exact ih h
        · cases h
    · rw [if_pos hd] at h
      rw [if_neg hd]
      cases h
      rfl

theorem walkParent_of_spare : ∀ {ip : Nat} {r : Option Nat},
    c.walkSpare true ip names = .ok r → c.walkParent ip names = r := by
  induction names with
  | nil =>
    intro ip r h
    cases h
    rfl
  | cons name names ih =>
    intro ip r h
    unfold Core.walkSpare at h
    unfold Core.walkParent
    rw [if_neg (List.cons_ne_nil _ _)]
    by_cases hd : (c.fs.din ip).type = tDir
    · rw [if_neg (not_not.mpr hd)] at h
      by_cases hn : names = []
      · rw [if_pos ⟨rfl, hn⟩] at h
        cases h
        rw [hn]
        exact if_pos hd
      rw [if_neg fun hx => hn hx.2] at h
      rw [List.dropLast_cons_of_ne_nil hn]
      unfold Core.walk
      rw [if_pos hd]
      cases hl : c.lookup ip name with
      | none =>
        rw [hl] at h
        cases h
        rfl
      | some next =>
        rw [hl] at h
        dsimp only at h
        split at h
        · have hnext := ih h
          unfold Core.walkParent at hnext
          rw [if_neg hn] at hnext
          exact hnext
        · cases h
    · rw [if_pos hd] at h
      cases h
      by_cases hn : names = []
      · rw [hn]
        exact if_neg hd
      · rw [List.dropLast_cons_of_ne_nil hn]
        unfold Core.walk
        rw [if_neg hd]
        rfl

/-- With two entries not in use the cache has an entry for every inode on the way. -/
theorem walkSpare_total (hfree : 2 ≤ c.free) (parent : Bool) :
    ∀ {ip : Nat}, ∃ r, c.walkSpare parent ip names = .ok r := by
  induction names with
  | nil => exact fun {ip} => ⟨_, rfl⟩
  | cons name names ih =>
    intro ip
    have hf : 0 < (c.hold ip).free := by
      unfold Core.hold
      dsimp only
      split <;> omega
    unfold Core.walkSpare
    split
    · exact ⟨_, rfl⟩
    · split
      · exact ⟨_, rfl⟩
      · cases c.lookup ip name with
        | none => exact ⟨_, rfl⟩
        | some next =>
          obtain ⟨r, hr⟩ := @ih next
          exact ⟨r, (if_pos (.inr hf)).trans hr⟩

/-- The walk stops where the cache has no entry for the next inode. -/
theorem walkSpare_full {name : List Byte} (hd : (c.fs.din ip).type = tDir)
    (hl : c.lookup ip name = some next) (hroom : ¬(c.hold ip).Spare next) :
    c.walkSpare false ip (name :: names) = .error .panic := by
  unfold Core.walkSpare
  rw [if_neg (not_not.mpr hd), if_neg (fun h => Bool.false_ne_true h.1), hl]
  exact if_neg hroom

end

/-! ## 4. The walk of `namex` -/

section
variable {sb : Superblock} {c : Core} {k : Kfs} {i ip next : Nat}

/-- `iunlockput` of a reference that is not the last one of an inode without links. -/
theorem iunlockput_spec (hk : k.toCore = c.setLock i true) (hs : Sync k) (hlock : c.lock i = false)
    (href : 0 < c.ref i) (hkeep : (c.fs.din i).nlink = 0 → 1 < c.ref i) :
    ∃ k', iunlockput k i = .ok k' ∧ k'.toCore = c.drop i ∧ Sync k' := by
  have href' : k.ref i = c.ref i := by rw [hk]; rfl
  have hlock' : k.lock i = true := by rw [hk]; exact Function.update_self ..
  let k1 : Kfs := { k with toCore := k.toCore.setLock i false }
  have hcore : k1.toCore = c := by
    change k.toCore.setLock i false = c
    rw [hk, ← hlock, setLock_setLock]
  have hs1 : Sync k1 := hs.setLock i false
  have hput : iput k1 i = .ok { k1 with toCore := k1.toCore.drop i } := by
    refine iput_eq (by rw [hcore]; exact hlock) fun h => ?_
    obtain ⟨hv, hn, hone⟩ := h
    rw [hcore] at hone
    rw [hs1 i (by rw [hcore]; exact href) hv, hcore] at hn
    have := hkeep hn
    omega
  refine ⟨{ k1 with toCore := k1.toCore.drop i }, ?_, ?_, hs1.drop i⟩
  · unfold iunlockput
    rw [iunlock_eq (href' ▸ href) hlock', Lib.ok_bind]
    exact hput
  · change k1.toCore.drop i = c.drop i
    rw [hcore]

theorem hold_ref_self (c : Core) (i : Nat) : (c.hold i).ref i = c.ref i + 1 := by
  rw [hold_ref, if_pos rfl]

/-- The inode is locked, with one more reference to it. -/
structure Locked (c : Core) (k : Kfs) (i : Nat) : Prop where
  core : k.toCore = (c.hold i).setLock i true
  ino : k.ino i = c.fs.din i
  sync : Sync k

theorem ilock_hold (hk : k.toCore = c.hold i) (hs : Sync k) (hlock : c.lock i = false)
    (ht : (c.fs.din i).type ≠ 0) : ilock k i = .ok (k.locked i) ∧ Locked c (k.locked i) i := by
  have href : 0 < k.ref i := by
    rw [hk, hold_ref_self]
    omega
  have hfs : k.fs = c.fs := by
    rw [hk]
    rfl
  refine ⟨ilock_eq href (by rw [hk]; exact hlock) (by rw [hfs]; exact ht),
    congrArg (·.setLock i true) hk, ?_, hs.locked i⟩
  rw [hs.ino_locked href, hfs]

/-- The lock and the reference are given back. -/
theorem iunlockput_hold (hk : k.toCore = (c.hold i).setLock i true) (hs : Sync k)
    (hspare : c.Spare i) (hlock : c.lock i = false)
    (hkept : (c.fs.din i).nlink = 0 → 0 < c.ref i) :
    ∃ k', iunlockput k i = .ok k' ∧ k'.toCore = c ∧ Sync k' := by
  obtain ⟨k', hput, hcore, hs'⟩ := iunlockput_spec hk hs hlock (by rw [hold_ref_self]; omega)
    fun hn => by
      have := hkept hn
      rw [hold_ref_self]
      omega
  exact ⟨k', hput, hcore.trans (drop_hold hspare), hs'⟩

/-- The reference moves on to the next inode. -/
theorem hold_hold_drop (hs : c.Spare ip) (hn : (c.hold ip).Spare next) :
    ((c.hold ip).hold next).drop ip = c.hold next ∧ c.Spare next := by
  unfold Core.Spare at hs hn ⊢
  rw [hold_ref] at hn
  by_cases he : next = ip
  · subst he
    refine ⟨drop_hold (.inl ?_), hs⟩
    rw [hold_ref_self]
    omega
  rw [if_neg he] at hn
  have hfree : (c.hold ip).free = if c.ref ip = 0 then c.free - 1 else c.free := rfl
  have href : (c.hold ip).ref next = c.ref next := by rw [hold_ref, if_neg he, Nat.add_zero]
  have href' : ((c.hold ip).hold next).ref ip = c.ref ip + 1 := by
    rw [hold_ref, if_neg (Ne.symm he), hold_ref_self]
  refine ⟨?_, ?_⟩
  · have hrefs : (((c.hold ip).hold next).drop ip).ref = (c.hold next).ref := by
      funext j
      unfold Core.drop
      dsimp only
      by_cases hj : j = ip
      · rw [hj, Function.update_self, href', hold_ref, if_neg (Ne.symm he)]
        omega
      · rw [Function.update_of_ne hj, hold_ref, hold_ref, hold_ref, if_neg hj, Nat.add_zero]
    have hfrees : (((c.hold ip).hold next).drop ip).free = (c.hold next).free := by
      unfold Core.drop
      dsimp only
      rw [href']
      change (if c.ref ip + 1 = 1 then (if (c.hold ip).ref next = 0 then (c.hold ip).free - 1
        else (c.hold ip).free) + 1 else if (c.hold ip).ref next = 0 then (c.hold ip).free - 1
        else (c.hold ip).free) = if c.ref next = 0 then c.free - 1 else c.free
      rw [href, hfree]
      split at hfree <;> split <;> split <;> omega
    exact congrArg₂ (fun r f => (⟨c.fs, r, f, c.lock⟩ : Core)) hrefs hfrees
  · rw [hfree] at hn
    split at hn <;> omega

/-- How a walk ends: with a reference to what it found, or with none. -/
def Ends (c : Core) (r : Option Nat) (k' : Kfs) : Prop :=
  Sync k' ∧ match r with
    | none => k'.toCore = c
    | some i => k'.toCore = c.hold i ∧ c.Spare i ∧ (c.fs.din i).type ≠ 0

/-- What `namex` returns for the outcome of a walk; the parent's walk leaves the last component in
    the buffer. -/
def Walked (c : Core) (parent : Bool) (names : List (List Byte))
    (x : Option Nat × Bytes × Kfs) (r : Option Nat) : Prop :=
  x.1 = r ∧ Ends c r x.2.2 ∧
    (parent = true → r ≠ none → names.getLast? = some (cstr dirsiz x.2.1))

/-- A directory of the tree that is locked, with one more reference to it. -/
theorem Tree.openDir (h : Tree sb c) (hk : Locked c k ip) (hd : (c.fs.din ip).type = tDir) :
    OpenDir sb k ip ∧ k.entries ip = c.entries ip ∧ ∀ j, k.Spare j ↔ (c.hold ip).Spare j := by
  have hfs : k.fs = c.fs := by rw [hk.core]; rfl
  refine ⟨⟨hfs ▸ h.sound, hfs ▸ hd, hfs ▸ h.whole ip hd, by rw [hfs]; exact hk.ino⟩, ?_,
    fun j => ?_⟩
  · unfold Core.entries
    rw [hfs]
  · rw [hk.core]
    exact Iff.rfl

/-- The slot that a name is looked up by. -/
theorem lookup_slot {name : List Byte} (h : c.lookup ip name = some next) :
    ∃ j e, slotOf live key (c.entries ip) name = some j ∧ (c.entries ip)[j]? = some e ∧
      deInum e = next := by
  obtain ⟨j, hj, rfl⟩ := Option.map_eq_some_iff.mp h
  obtain ⟨e, he, -, -⟩ := Lib.slotOf_some hj
  refine ⟨j, e, hj, he, ?_⟩
  rw [List.getD_eq_getElem?_getD, he]
  rfl

/-- `dirlookup` in a directory of the tree. -/
theorem dirlookup_tree (h : Tree sb c) (hk : Locked c k ip) (hd : (c.fs.din ip).type = tDir)
    (name : Bytes) :
    (c.lookup ip (cstr dirsiz name) = none → dirlookup sb k ip name = .ok (none, k)) ∧
    ∀ next, c.lookup ip (cstr dirsiz name) = some next →
      ((c.hold ip).Spare next →
        ∃ off, dirlookup sb k ip name = .ok (some (next, off), k.got next)) ∧
      (¬(c.hold ip).Spare next → dirlookup sb k ip name = .error .panic) := by
  obtain ⟨hopen, hent, hspare⟩ := h.openDir hk hd
  rw [dirlookup_eq hopen, hent]
  refine ⟨fun hnone => ?_, fun next hnext => ?_⟩
  · rw [Option.map_eq_none_iff.mp hnone]
    rfl
  · obtain ⟨j, e, hj, he, rfl⟩ := lookup_slot hnext
    rw [hj, lookedUp_some (hent ▸ he)]
    refine ⟨fun hs => ⟨16 * j, ?_⟩, fun hs => ?_⟩
    · rw [iget_ok ((hspare _).mpr hs)]
      rfl
    · rw [iget_full (mt (hspare _).mp hs)]
      rfl

/-- **The loop of `namex`**, at an inode that it has a reference to. -/
theorem namexLoop_spec (h : Tree sb c) (parent : Bool) {fuel : Nat} :
    ∀ {k : Kfs} {ip : Nat} {path : List Byte} (name : Bytes), path.length < fuel →
    0 ∉ path → k.toCore = c.hold ip → Sync k → c.Spare ip → (c.fs.din ip).type ≠ 0 →
    Lib.Agree (Walked c parent (components path)) (namexLoop sb parent fuel k ip path name)
      (c.walkSpare parent ip (components path)) := by
  induction fuel with
  | zero => exact fun _ hlt => absurd hlt (Nat.not_lt_zero _)
  | succ fuel ih =>
    intro k ip path name hlen h0 hk hs hspare htype
    have hkept := h.kept ip htype
    unfold namexLoop
    cases hskip : skipelem path name with
    | none =>
      rw [skipelem_none.mp hskip]
      dsimp only
      cases parent with
      | false => exact Lib.agree_ok ⟨rfl, ⟨hs, hk, hspare, htype⟩, fun hp => by cases hp⟩
      | true =>
        have hput := iput_eq (k := k) (by rw [hk]; exact h.unlocked ip) fun hfree => by
          obtain ⟨hv, hn, hone⟩ := hfree
          rw [hk, hold_ref_self] at hone
          rw [hs ip (by rw [hk, hold_ref_self]; omega) hv, hk] at hn
          have := hkept hn
          omega
        rw [if_pos rfl, hput]
        refine Lib.agree_ok ⟨rfl, ⟨hs.drop ip, ?_⟩, fun _ hr => absurd rfl hr⟩
        change k.toCore.drop ip = c
        rw [hk, drop_hold hspare]
    | some x =>
      obtain ⟨path', name'⟩ := x
      obtain ⟨hcomp, hshort, h0', hlast⟩ := skipelem_some h0 hskip
      obtain ⟨hlocked, hl1⟩ := ilock_hold hk hs (h.unlocked ip) htype
      rw [hcomp]
      unfold Core.walkSpare
      dsimp only
      rw [hlocked, Lib.ok_bind, hl1.ino]
      by_cases hd : (c.fs.din ip).type = tDir
      · rw [if_neg (not_not.mpr hd), if_neg (not_not.mpr hd)]
        by_cases hstop : parent = true ∧ path' = []
        · -- the last component, for the parent
          obtain ⟨hp, hpath⟩ := hstop
          have href : 0 < (k.locked ip).ref ip := by
            rw [hl1.core]
            exact (hold_ref_self c ip).symm ▸ Nat.succ_pos _
          rw [if_pos ⟨hp, hpath⟩, if_pos ⟨hp, hlast.mp hpath⟩, iunlock_eq href
            (Function.update_self ..)]
          refine Lib.agree_ok ⟨rfl, ⟨hl1.sync.setLock ip false, ?_, hspare, htype⟩, fun _ _ => ?_⟩
          · change (k.locked ip).toCore.setLock ip false = c.hold ip
            rw [hl1.core, ← show (c.hold ip).lock ip = false from h.unlocked ip, setLock_setLock]
          · rw [hlast.mp hpath]
            rfl
        · have hstop' : ¬(parent = true ∧ components path' = []) := fun hx =>
            hstop ⟨hx.1, hlast.mpr hx.2⟩
          rw [if_neg hstop, if_neg hstop']
          obtain ⟨hnone, hsome⟩ := dirlookup_tree h hl1 hd name'
          cases hl : c.lookup ip (cstr dirsiz name') with
          | none =>
            obtain ⟨k', hput, hcore, hs'⟩ := iunlockput_hold hl1.core hl1.sync hspare
              (h.unlocked ip) hkept
            rw [hnone hl, Lib.ok_bind]
            dsimp only
            rw [hput]
            exact Lib.agree_ok ⟨rfl, ⟨hs', hcore⟩, fun _ hr => absurd rfl hr⟩
          | some next =>
            obtain ⟨hfound, hfull⟩ := hsome next hl
            dsimp only
            by_cases hroom : (c.hold ip).Spare next
            · obtain ⟨off, hlook⟩ := hfound hroom
              obtain ⟨hmove, hspare'⟩ := hold_hold_drop hspare hroom
              have hgot : ((k.locked ip).got next).toCore =
                  ((c.hold ip).hold next).setLock ip true := congrArg (·.hold next) hl1.core
              obtain ⟨k', hput, hcore, hs'⟩ := iunlockput_spec hgot (hl1.sync.got next)
                (h.unlocked ip) (by rw [hold_ref, hold_ref_self]; omega) fun hn => by
                  have := hkept hn
                  rw [hold_ref, hold_ref_self]
                  omega
              rw [hlook, Lib.ok_bind, if_pos (show _ ∨ _ from hroom)]
              dsimp only
              rw [hput, Lib.ok_bind]
              have hnext := ih name' (by omega) h0' (hcore.trans hmove) hs' hspare'
                (h.lookup hd hl)
              refine hnext.mono fun x r hx => ⟨hx.1, hx.2.1, fun hp hr => ?_⟩
              rw [List.getLast?_cons_of_ne_nil fun he => hstop' ⟨hp, he⟩]
              exact hx.2.2 hp hr
            · rw [hfull hroom, if_neg (show ¬(_ ∨ _) from hroom)]
              exact Lib.agree_error _
      · obtain ⟨k', hput, hcore, hs'⟩ := iunlockput_hold hl1.core hl1.sync hspare
          (h.unlocked ip) hkept
        rw [if_pos hd, if_pos hd, hput]
        exact Lib.agree_ok ⟨rfl, ⟨hs', hcore⟩, fun _ hr => absurd rfl hr⟩

/-- The walk of a path, from where it starts. -/
def Core.resolve (c : Core) (parent : Bool) (cwd : Nat) (path : List Byte) :
    Except Stop (Option Nat) :=
  if path.head? = some slash ∧ ¬(0 < c.ref rootino ∨ 0 < c.free) then .error .panic
  else c.walkSpare parent (start cwd path) (components path)

/-- **`namex` walks the path**, or the cache runs out on the way. -/
theorem namex_spec (h : Tree sb k.toCore) (hs : Sync k) {cwd : Nat} (hcwd : 0 < k.ref cwd)
    (parent : Bool) {path : List Byte} (h0 : 0 ∉ path) (name : Bytes) :
    Lib.Agree (Walked k.toCore parent (components path)) (namex sb k cwd path parent name)
      (k.resolve parent cwd path) := by
  unfold namex Core.resolve start
  by_cases hslash : path.head? = some slash
  · rw [if_pos hslash, if_pos hslash]
    by_cases hroom : k.Spare rootino
    · rw [if_neg fun hx => hx.2 hroom, iget_ok hroom, Lib.ok_bind]
      exact namexLoop_spec h parent name (Nat.lt_succ_self _) h0 rfl (hs.got rootino) hroom h.root
    · rw [if_pos ⟨hslash, hroom⟩, iget_full hroom]
      exact Lib.agree_error _
  · have hgot : idup k cwd = k.got cwd := by
      unfold idup Kfs.got
      rw [if_neg (by omega)]
    rw [if_neg hslash, if_neg fun hx => hslash hx.1, if_neg hslash, hgot]
    exact namexLoop_spec h parent name (Nat.lt_succ_self _) h0 rfl (hs.got cwd) (.inl hcwd)
      (h.cached cwd hcwd)

/-- With two entries not in use the cache does not run out. -/
theorem resolve_spare (hfree : 2 ≤ c.free) (cwd : Nat) (path : List Byte) :
    c.resolve false cwd path = .ok (c.walk (start cwd path) (components path)) ∧
    c.resolve true cwd path = .ok (c.walkParent (start cwd path) (components path)) := by
  have hroom : ¬(path.head? = some slash ∧ ¬(0 < c.ref rootino ∨ 0 < c.free)) := fun hx =>
    hx.2 (.inr (by omega))
  have htotal : ∀ parent, ∃ r, c.walkSpare parent (start cwd path) (components path) = .ok r :=
    fun parent => walkSpare_total hfree parent
  obtain ⟨r, hr⟩ := htotal false
  obtain ⟨p, hp⟩ := htotal true
  unfold Core.resolve
  rw [if_neg hroom, if_neg hroom, hr, hp, walk_of_spare hr, walkParent_of_spare hp]
  exact ⟨rfl, rfl⟩

/-! ## 5. `namei` and `nameiparent` -/

/-- One reference more to what is returned and to nothing else, nothing locked, and the disk as
    it was. -/
structure Balanced (k k' : Kfs) (r : Option Nat) : Prop where
  ref : ∀ i, k'.ref i = k.ref i + if r = some i then 1 else 0
  lock : ∀ i, k'.lock i = false
  fs : k'.fs = k.fs

theorem Ends.balanced (h : Tree sb k.toCore) {r : Option Nat} {k' : Kfs}
    (he : Ends k.toCore r k') : Balanced k k' r := by
  cases r with
  | none =>
    have hcore : k'.toCore = k.toCore := he.2
    refine ⟨fun i => ?_, fun i => ?_, ?_⟩
    · rw [hcore, if_neg (by simp), Nat.add_zero]
    · rw [hcore]
      exact h.unlocked i
    · rw [hcore]
  | some j =>
    have hcore : k'.toCore = k.toCore.hold j := he.2.1
    refine ⟨fun i => ?_, fun i => ?_, ?_⟩
    · rw [hcore, hold_ref]
      simp [eq_comm]
    · rw [hcore]
      exact h.unlocked i
    · rw [hcore]
      rfl

/-- **Path lookup is component-wise lookup**, in a tree, with two entries of the inode cache not
    in use. -/
theorem namei_walk (h : Tree sb k.toCore) (hs : Sync k) {cwd : Nat} (hcwd : 0 < k.ref cwd)
    (hfree : 2 ≤ k.free) {path : List Byte} (h0 : 0 ∉ path) (name : Bytes) :
    (∃ k', namei sb k cwd path = .ok (k.walk (start cwd path) (components path), k') ∧
      Balanced k k' (k.walk (start cwd path) (components path))) ∧
    ∃ name' k', nameiparent sb k cwd path name =
        .ok (k.walkParent (start cwd path) (components path), name', k') ∧
      Balanced k k' (k.walkParent (start cwd path) (components path)) ∧
      (k.walkParent (start cwd path) (components path) ≠ none →
        (components path).getLast? = some (cstr dirsiz name')) := by
  obtain ⟨hwalk, hparent⟩ := resolve_spare hfree cwd path
  constructor
  · have hagree := namex_spec h hs hcwd false h0 fun _ => 0
    rw [hwalk] at hagree
    obtain ⟨⟨r, name', k'⟩, hcall, hr, hends, -⟩ := hagree.of_ok
    obtain rfl : r = _ := hr
    refine ⟨k', ?_, hends.balanced h⟩
    unfold namei
    rw [hcall]
    rfl
  · have hagree := namex_spec h hs hcwd true h0 name
    rw [hparent] at hagree
    obtain ⟨⟨r, name', k'⟩, hcall, hr, hends, hlast⟩ := hagree.of_ok
    obtain rfl : r = _ := hr
    exact ⟨name', k', hcall, hends.balanced h, hlast rfl⟩

end

/-! ### Small trees -/

/-- The entries of the inode cache. -/
def ninode : Nat := 50

/-- The kernel with the files of a small disk, and one reference to each of the inodes `used`. -/
def smallKfs (files : List SmallFile) (used : List Nat) : Kfs where
  fs := smallFs files
  ref i := if i ∈ used then 1 else 0
  free := ninode - used.length
  lock _ := false
  valid _ := false
  ino := (smallFs files).din

/-- What makes the files a tree. -/
def SmallTree (files : List SmallFile) (used : List Nat) : Prop :=
  Small files ∧ (smallAt files rootino).type ≠ 0 ∧ (∀ i ∈ used, (smallAt files i).type ≠ 0) ∧
    (∀ i < files.length, (smallAt files i).type ≠ 0 → (smallAt files i).nlink = 0 → i ∈ used) ∧
    ∀ f ∈ files, f.type = tDir → 16 ∣ f.data.length ∧
      ∀ e ∈ entriesOf f.data, live e = true → (smallAt files (deInum e)).type ≠ 0

instance (files : List SmallFile) (used : List Nat) : Decidable (SmallTree files used) :=
  inferInstanceAs (Decidable (_ ∧ _))

section
variable {files : List SmallFile} {used : List Nat}

theorem smallAt_lt {i : Nat} (h : (smallAt files i).type ≠ 0) : i < files.length := by
  by_contra hi
  unfold smallAt at h
  rw [List.getD_eq_default _ _ (Nat.le_of_not_lt hi)] at h
  exact h rfl

theorem smallAt_mem {i : Nat} (h : (smallAt files i).type ≠ 0) : smallAt files i ∈ files := by
  unfold smallAt
  rw [List.getD_eq_getElem _ _ (smallAt_lt h)]
  exact List.getElem_mem _

theorem smallKfs_entries (h : Small files) (i : Nat) :
    (smallKfs files used).entries i = entriesOf (smallAt files i).data :=
  congrArg entriesOf (smallFs_content h i)

theorem smallKfs_tree (h : SmallTree files used) (sb : Superblock) (hsb : sb = Mkfs.sb) :
    Tree sb (smallKfs files used).toCore := by
  subst hsb
  obtain ⟨hsmall, hroot, hused, hkept, hfiles⟩ := h
  have href : ∀ i, 0 < (smallKfs files used).ref i ↔ i ∈ used := fun i => by
    change 0 < (if i ∈ used then 1 else 0) ↔ _
    split <;> simp [*]
  have hdir : ∀ i, (smallAt files i).type = tDir → smallAt files i ∈ files := fun i hi =>
    smallAt_mem (by rw [hi]; decide)
  refine ⟨smallFs_sound hsmall, hroot, fun i hi => (hfiles _ (hdir i hi) hi).1,
    fun i hi e he hl => ?_, fun i hi => hused i ((href i).mp hi),
    fun i ht hn => (href i).mpr (hkept i (smallAt_lt ht) ht hn), fun _ => rfl⟩
  rw [smallKfs_entries hsmall] at he
  exact (hfiles _ (hdir i hi) hi).2 e he hl

theorem smallKfs_sync (files : List SmallFile) (used : List Nat) : Sync (smallKfs files used) :=
  fun _ _ hv => by cases hv

end

/-- A root directory with the empty file `a`, inode 2. -/
def oneName : List SmallFile :=
  [⟨0, 0, []⟩, ⟨tDir, 1, rootFile.data ++ Mkfs.dirent 2 [97]⟩, ⟨FileData.tFile, 1, []⟩]

theorem oneName_tree : SmallTree oneName [1] := by decide +kernel

/-- The path `//a`, in the root directory. -/
theorem namei_walk_oneName :
    ∃ k', namei Mkfs.sb (smallKfs oneName [1]) 1 [slash, slash, 97] = .ok (some 2, k') ∧
      k'.ref 2 = 1 ∧ k'.ref 1 = 1 ∧ ∀ i, k'.lock i = false := by
  have hwalk : (smallKfs oneName [1]).walk (start 1 [slash, slash, 97])
      (components [slash, slash, 97]) = some 2 := by
    change (((smallKfs oneName [1]).lookup 1 [97]).bind fun next => some next) = some 2
    unfold Core.lookup
    rw [smallKfs_entries oneName_tree.1]
    decide +kernel
  obtain ⟨⟨k', hcall, hb⟩, -⟩ := namei_walk (smallKfs_tree oneName_tree _ rfl)
    (smallKfs_sync oneName [1]) (show 0 < (smallKfs oneName [1]).ref 1 by decide) (by decide)
    (show 0 ∉ [slash, slash, 97] by decide) fun _ => 0
  rw [hwalk] at hcall hb
  exact ⟨k', hcall, hb.ref 2, hb.ref 1, hb.lock⟩

/-- A root directory with the empty file `a`, inode 51, and 49 files without a name. -/
def crowded : List SmallFile :=
  ⟨0, 0, []⟩ :: ⟨tDir, 1, rootFile.data ++ Mkfs.dirent 51 [97]⟩ ::
    (List.replicate 49 ⟨FileData.tFile, 0, []⟩ ++ [⟨FileData.tFile, 1, []⟩])

/-- The current directory and the files without a name are in use. -/
def crowdedKfs : Kfs := smallKfs crowded (List.range' 1 50)

theorem crowded_tree : SmallTree crowded (List.range' 1 50) := by decide +kernel

/-- **A full inode cache**: `namei` of a name that is there panics. -/
theorem namei_full : Tree Mkfs.sb crowdedKfs.toCore ∧ crowdedKfs.lookup 1 [97] = some 51 ∧
    namei Mkfs.sb crowdedKfs 1 [97] = .error .panic := by
  have hlook : crowdedKfs.lookup 1 [97] = some 51 := by
    unfold Core.lookup crowdedKfs
    rw [smallKfs_entries crowded_tree.1]
    decide +kernel
  have htree := smallKfs_tree crowded_tree Mkfs.sb rfl
  have hagree := namex_spec htree (smallKfs_sync crowded (List.range' 1 50))
    (show 0 < crowdedKfs.ref 1 by decide) false (show (0 : Byte) ∉ [97] by decide) fun _ => 0
  have hfull : crowdedKfs.walkSpare false 1 [[97]] = .error .panic :=
    walkSpare_full rfl hlook (by unfold Core.Spare; decide +kernel)
  rw [show (smallKfs crowded (List.range' 1 50)).resolve false 1 [97] = _ from hfull] at hagree
  refine ⟨htree, hlook, ?_⟩
  unfold namei crowdedKfs
  rw [hagree.of_error]
  rfl

end Xv6Clock.Dir
