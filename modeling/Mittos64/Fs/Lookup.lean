import Mittos64.Fs.Counters
import Mittos64.Fs.Mounts

/-!
# Looking up paths

`fs_readdir`, `fs_finddir` and `fs_namef` of `fs/vfs.c`.  No driver of the kernel has a `readdir`:
the directories are a parameter, with a `readdir` that gives the caller a reference to the file of
the entry.  The walk along a path holds one reference, to the directory that it has reached; it
keeps that reference when the directory has no entry for the next name (`fsNamef_spec`).

The copy of the path that `strdup` makes is a block of its own, and not one of the heap of files.
-/

namespace Vfs

open Pathtok CString

/-- The references that a file counts. -/
def Heap.refs (h : Heap) (file : Ptr) : Nat :=
  (h.file file).refs

/-- From the one heap to the other, the file has one more reference, and no count of another file
has changed. -/
def Gains (h h' : Heap) (file : Ptr) : Prop :=
  ∀ f, h'.refs f = h.refs f + if f = file then 1 else 0

/-- No count has changed. -/
def SameRefs (h h' : Heap) : Prop :=
  ∀ f, h'.refs f = h.refs f

/-- `dirent_t` -/
structure Dirent where
  name : CString
  file : Ptr

/-- The directories: the entries of each file, and the `readdir` of its driver, where there is
one. -/
structure Tree where
  entries : Ptr → List Dirent
  readdir : Ptr → Option (Heap → Nat → Option Dirent × Heap)
  entries_none : ∀ dir, readdir dir = none → entries dir = []
  entry : ∀ dir f, readdir dir = some f → ∀ h i, (f h i).1 = (entries dir)[i]?
  gains : ∀ dir f, readdir dir = some f → ∀ h i e, (entries dir)[i]? = some e →
    Gains h (f h i).2 e.file
  same : ∀ dir f, readdir dir = some f → ∀ h i, (entries dir)[i]? = none → SameRefs h (f h i).2
  file_ne : ∀ dir, ∀ e ∈ entries dir, e.file ≠ .null
  -- the offset is an `int`
  length_lt : ∀ dir, (entries dir).length < 2 ^ 31

/-- `fs_readdir(dir, &entry, offset)`: the entry, when it does not return 0. -/
def fsReaddir (t : Tree) (h : Heap) (dir : Ptr) (offset : Nat) : Option Dirent × Heap :=
  if dir = .null then (none, h)
  else
    match t.readdir dir with
    | some f => f h offset
    | none => (none, h)

theorem fsReaddir_entry {t : Tree} {dir : Ptr} (hdir : dir ≠ .null) (h : Heap) (offset : Nat) :
  (fsReaddir t h dir offset).1 = (t.entries dir)[offset]?
  := by
  rw [fsReaddir, if_neg hdir]
  split
  · rename_i f hf
    apply t.entry dir f hf
  · rename_i hf
    rw [t.entries_none dir hf]
    rfl

theorem fsReaddir_lt {t : Tree} {h : Heap} {dir : Ptr} {offset : Nat} {e : Dirent}
    (he : (fsReaddir t h dir offset).1 = some e) :
  offset < (t.entries dir).length
  := by
  have hdir : dir ≠ .null := by
    rintro rfl
    cases he
  rw [fsReaddir_entry hdir, List.getElem?_eq_some_iff] at he
  exact he.1

/-- The loop of `fs_finddir`: the file of the entry with the name and the heap, unless a comparison
reads behind a string. -/
def finddirLoop (t : Tree) (dir : Ptr) (name : List UInt8) (h : Heap) (offset : Nat) :
    Option (Ptr × Heap) :=
  match _h : (fsReaddir t h dir offset).1 with
  | none => some (.null, (fsReaddir t h dir offset).2)
  | some e =>
      match strcmp e.name.block name with
      | none => none
      | some c =>
          if c ≠ 0 then
            finddirLoop t dir name (fsPut (fsReaddir t h dir offset).2 e.file).2 (offset + 1)
          else some (e.file, (fsReaddir t h dir offset).2)
termination_by (t.entries dir).length - offset
decreasing_by
  have := fsReaddir_lt _h
  omega

/-- `fs_finddir(dir, name)` -/
def fsFinddir (t : Tree) (h : Heap) (dir : Ptr) (name : List UInt8) : Option (Ptr × Heap) :=
  finddirLoop t dir name h 0

/-- The loop of `fs_namef`, with the copy of the path and the pointer into it. -/
def namefLoop (t : Tree) (m : List UInt8) (p : Nat) (dir : Ptr) (h : Heap) : Option (Ptr × Heap) :=
  match _h : pathtok m p with
  | none => none
  | some (none, _, _) => some (dir, h)
  | some (some name, m', p') =>
      match fsFinddir t h dir (m'.drop name) with
      | none => none
      | some (next, h') =>
          if next = .null then some (.null, h')
          else namefLoop t m' p' next (fsPut h' dir).2
termination_by m.length - p
decreasing_by
  have := pathtok_moves _h
  omega

/-- `fs_namef(path)`.  Without a mount for the path it follows a null pointer. -/
def fsNamef (t : Tree) (mountpoints : List Mountpoint) (h : Heap) (path : CString) :
    Option (Ptr × Heap) :=
  (fsClosestMp mountpoints path).bind fun mp =>
    mp.bind fun mp =>
      let a := fsGet h mp.root
      namefLoop t path.block mp.pathLen a.1 a.2

/-! ### The walk -/

/-- The file of the entry of a directory with the name. -/
def Tree.find (t : Tree) (dir : Ptr) (name : List UInt8) : Option Ptr :=
  ((t.entries dir).find? fun e => e.name.chars = name).map Dirent.file

/-- The file that the names lead to from a directory, or the directory that has no entry for the
next name. -/
def Tree.walk (t : Tree) : Ptr → List (List UInt8) → Ptr × Bool
  | dir, [] => (dir, true)
  | dir, name :: names =>
      match t.find dir name with
      | none => (dir, false)
      | some next => t.walk next names

/-- A lookup raises the count of the file it returns by one and changes no other count, and when it
returns no file it changes no count at all. -/
def Conserves (t : Tree) (mountpoints : List Mountpoint) (h : Heap) (path : CString) : Prop :=
  ∃ file h', fsNamef t mountpoints h path = some (file, h')
    ∧ if file = .null then SameRefs h h' else Gains h h' file

/-! ### References -/

theorem refs_fsGet {h : Heap} {file : Ptr} (hfile : file ≠ .null) :
  Gains h (fsGet h file).2 file
  := by
  intro f
  rw [fsGet_of_ne hfile]
  simp only [Heap.refs, Heap.setRefs_file, Function.update_apply]
  split_ifs with hf
  · rw [hf]
  · rfl

/-- A reference that was held is given up. -/
theorem refs_fsPut {h : Heap} {file : Ptr} (hfile : file ≠ .null) (hpos : 0 < h.refs file) :
  Gains (fsPut h file).2 h file
  := by
  intro f
  simp only [Heap.refs, fsPut_file hfile, Function.update_apply]
  split_ifs with hf
  · rw [Heap.refs] at hpos
    rw [hf, decr, if_neg (by omega)]
    simp only
    omega
  · rfl

theorem Gains.pos {h h' : Heap} {file : Ptr} (hg : Gains h h' file) :
  0 < h'.refs file
  := by
  rw [hg file, if_pos rfl]
  apply Nat.succ_pos

/-- What was gained is given up again. -/
theorem Gains.cancel {h h' h'' : Heap} {file : Ptr} (hg : Gains h h' file)
    (hg' : Gains h'' h' file) :
  SameRefs h h''
  := by
  intro f
  have heq := (hg f).symm.trans (hg' f)
  omega

theorem SameRefs.trans {h h' h'' : Heap} (hs : SameRefs h h') (hs' : SameRefs h' h'') :
  SameRefs h h''
  := fun f => (hs' f).trans (hs f)

theorem SameRefs.gains {h h' h'' : Heap} {file : Ptr} (hs : SameRefs h h')
    (hg : Gains h' h'' file) :
  Gains h h'' file
  := by
  intro f
  rw [hg f, hs f]

section Readdir

variable {t : Tree} {dir : Ptr} (hdir : dir ≠ .null) (h : Heap) {offset : Nat}

include hdir

/-- `readdir` gives a reference to the file of the entry. -/
theorem fsReaddir_gains {e : Dirent} (he : (t.entries dir)[offset]? = some e) :
  Gains h (fsReaddir t h dir offset).2 e.file
  := by
  rw [fsReaddir, if_neg hdir]
  split
  · rename_i f hf
    apply t.gains dir f hf h offset e he
  · rename_i hf
    rw [t.entries_none dir hf] at he
    cases he

theorem fsReaddir_same (he : (t.entries dir)[offset]? = none) :
  SameRefs h (fsReaddir t h dir offset).2
  := by
  rw [fsReaddir, if_neg hdir]
  split
  · rename_i f hf
    apply t.same dir f hf h offset he
  · exact fun _ => rfl

end Readdir

/-- The loop at an entry. -/
theorem finddirLoop_entry {t : Tree} {dir : Ptr} {name : List UInt8} {h : Heap} {offset : Nat}
    {e : Dirent} {c : Int} (he : (fsReaddir t h dir offset).1 = some e)
    (hc : strcmp e.name.block name = some c) :
  finddirLoop t dir name h offset
    = if c ≠ 0 then
        finddirLoop t dir name (fsPut (fsReaddir t h dir offset).2 e.file).2 (offset + 1)
      else some (e.file, (fsReaddir t h dir offset).2)
  := by
  rw [finddirLoop]
  split
  · rename_i he'
    rw [he] at he'
    cases he'
  · rename_i e' he'
    obtain rfl := Option.some_inj.mp (he'.symm.trans he)
    rw [hc]

/-- The loop behind the last entry. -/
theorem finddirLoop_end {t : Tree} {dir : Ptr} {name : List UInt8} {h : Heap} {offset : Nat}
    (he : (fsReaddir t h dir offset).1 = none) :
  finddirLoop t dir name h offset = some (.null, (fsReaddir t h dir offset).2)
  := by
  rw [finddirLoop]
  split
  · rfl
  · rename_i he'
    rw [he] at he'
    cases he'

/-- The search through the entries finds the first one with the name and a reference to its file,
and has given up the others. -/
theorem finddirLoop_spec (t : Tree) {dir : Ptr} (hdir : dir ≠ .null) {w : List UInt8} (hw : 0 ∉ w)
    (post : List UInt8) (h : Heap) (offset : Nat) :
  ∃ file h', finddirLoop t dir (w ++ 0 :: post) h offset = some (file, h')
    ∧ match ((t.entries dir).drop offset).find? fun e => e.name.chars = w with
      | none => file = .null ∧ SameRefs h h'
      | some e => file = e.file ∧ e ∈ t.entries dir ∧ Gains h h' e.file
  := by
  induction hn : (t.entries dir).length - offset generalizing h offset with
  | zero =>
      have hdrop : (t.entries dir).drop offset = [] := List.drop_eq_nil_of_le (by omega)
      have hnone : (t.entries dir)[offset]? = none := List.getElem?_eq_none (by omega)
      refine ⟨_, _, finddirLoop_end ((fsReaddir_entry hdir h offset).trans hnone), ?_⟩
      rw [hdrop]
      exact ⟨rfl, fsReaddir_same hdir h hnone⟩
  | succ n ih =>
      have hlt : offset < (t.entries dir).length := by omega
      obtain ⟨e, hsome⟩ : ∃ e, (t.entries dir)[offset]? = some e :=
        ⟨_, List.getElem?_eq_getElem hlt⟩
      have hmem : e ∈ t.entries dir := List.mem_of_getElem? hsome
      have hdrop : (t.entries dir).drop offset = e :: (t.entries dir).drop (offset + 1) := by
        rw [List.drop_eq_getElem_cons hlt]
        congr 1
        apply Option.some_inj.mp
        rw [← hsome, List.getElem?_eq_getElem hlt]
      have hgains := fsReaddir_gains hdir h hsome
      obtain ⟨c, hc, hiff⟩ := strcmp_spec e.name.nonzero hw post
      have hloop := finddirLoop_entry ((fsReaddir_entry hdir h offset).trans hsome) hc
      rw [hdrop]
      by_cases hname : e.name.chars = w
      · rw [if_neg (not_not.mpr (hiff.mpr hname))] at hloop
        refine ⟨_, _, hloop, ?_⟩
        rw [List.find?_cons_of_pos (by simpa using hname)]
        exact ⟨rfl, hmem, hgains⟩
      · rw [if_pos fun hzero => hname (hiff.mp hzero)] at hloop
        -- the reference to the file of this entry is given up
        have hsame := hgains.cancel (refs_fsPut (t.file_ne dir e hmem) hgains.pos)
        obtain ⟨file, h', hrest, hspec⟩ := ih (fsPut (fsReaddir t h dir offset).2 e.file).2
          (offset + 1) (by omega)
        refine ⟨file, h', hloop.trans hrest, ?_⟩
        rw [List.find?_cons_of_neg (by simpa using hname)]
        split at hspec
        · exact ⟨hspec.1, hsame.trans hspec.2⟩
        · exact ⟨hspec.1, hspec.2.1, hsame.gains hspec.2.2⟩

/-- `fs_finddir` returns the file with the name and a reference to it, or no file and leaves all
counts as they are. -/
theorem fsFinddir_spec (t : Tree) {dir : Ptr} (hdir : dir ≠ .null) {w : List UInt8} (hw : 0 ∉ w)
    (post : List UInt8) (h : Heap) :
  ∃ file h', fsFinddir t h dir (w ++ 0 :: post) = some (file, h')
    ∧ match t.find dir w with
      | none => file = .null ∧ SameRefs h h'
      | some next => file = next ∧ next ≠ .null ∧ Gains h h' next
  := by
  obtain ⟨file, h', hloop, hspec⟩ := finddirLoop_spec t hdir hw post h 0
  refine ⟨file, h', hloop, ?_⟩
  rw [List.drop_zero] at hspec
  rw [Tree.find]
  split at hspec
  · rename_i hnone
    rw [hnone]
    exact hspec
  · rename_i e hsome
    rw [hsome]
    exact ⟨hspec.1, t.file_ne dir e hspec.2.1, hspec.2.2⟩

/-! ### The walk along a path -/

theorem namefLoop_end (t : Tree) (pre : List UInt8) (dir : Ptr) (h : Heap) :
  namefLoop t (pre ++ [0]) pre.length dir h = some (dir, h)
  := by
  rw [namefLoop]
  split
  · rename_i hcall
    rw [pathtok_end] at hcall
    cases hcall
  · rfl
  · rename_i hcall
    rw [pathtok_end] at hcall
    cases hcall

theorem namefLoop_step {t : Tree} {m m' : List UInt8} {p p' name : Nat} {dir next : Ptr}
    {h h' : Heap} (hcall : pathtok m p = some (some name, m', p'))
    (hfind : fsFinddir t h dir (m'.drop name) = some (next, h')) :
  namefLoop t m p dir h
    = if next = .null then some (.null, h') else namefLoop t m' p' next (fsPut h' dir).2
  := by
  rw [namefLoop]
  split
  · rename_i hcall'
    rw [hcall] at hcall'
    cases hcall'
  · rename_i hcall'
    rw [hcall] at hcall'
    cases hcall'
  · rename_i hcall'
    rw [hcall] at hcall'
    cases hcall'
    rw [hfind]

/-- The walk holds one reference, to the directory it has reached, and keeps it. -/
theorem namefLoop_spec (t : Tree) (pre : List UInt8) {s : List UInt8} (hs : 0 ∉ s) {dir : Ptr}
    (hdir : dir ≠ .null) {h₀ h : Heap} (hheld : Gains h₀ h dir) :
  ∃ h', namefLoop t (pre ++ (s ++ [0])) pre.length dir h
      = some (if (t.walk dir (names s)).2 then (t.walk dir (names s)).1 else .null, h')
    ∧ (t.walk dir (names s)).1 ≠ .null ∧ Gains h₀ h' (t.walk dir (names s)).1
  := by
  induction hn : s.length using Nat.strongRecOn generalizing pre s dir h with
  | ind n ih =>
      obtain rfl | hne := eq_or_ne s []
      · exact ⟨h, namefLoop_end t pre dir h, hdir, hheld⟩
      · obtain ⟨w, rest, pre', post, ret, hcall, hdrop, hw, hrest, hnames, -, hlt⟩ :=
          pathtok_step pre hs hne
        rw [hn] at hlt
        obtain ⟨next, h', hfind, hspec⟩ := fsFinddir_spec t hdir hw post h
        rw [← hdrop] at hfind
        rw [hnames, Tree.walk, namefLoop_step hcall hfind]
        split at hspec
        · -- the directory has no entry for the name
          obtain ⟨rfl, hsame⟩ := hspec
          refine ⟨h', if_pos rfl, hdir, ?_⟩
          intro f
          rw [hsame f, hheld f]
        · obtain ⟨rfl, hnext, hgains⟩ := hspec
          rw [if_neg hnext]
          apply ih rest.length hlt pre' hrest hnext _ rfl
          have hpos : 0 < h'.refs dir := by
            rw [hgains dir]
            have := hheld.pos
            omega
          have hput := refs_fsPut hdir hpos
          intro f
          have h₁ := hput f
          rw [hgains f, hheld f] at h₁
          omega

/-- The path starts with the path of a mount. -/
def Covered (mountpoints : List Mountpoint) (path : CString) : Prop :=
  ∃ mp ∈ mountpoints, mp.Starts path

/-- The names behind the path of the closest mount, with the file of the mount that the walk starts
at, lead to a file. -/
def Resolves (t : Tree) (mountpoints : List Mountpoint) (path : CString) : Prop :=
  ∃ mp, fsClosestMp mountpoints path = some (some mp)
    ∧ (t.walk mp.root (names (path.chars.drop mp.pathLen))).2 = true

/-- A lookup returns, and it gives the file that it finds a reference, or otherwise the directory
that has no entry for the next name. -/
theorem fsNamef_spec (t : Tree) {mountpoints : List Mountpoint} (h : Heap) {path : CString}
    (hcovered : Covered mountpoints path) :
  ∃ mp h', fsClosestMp mountpoints path = some (some mp)
    ∧ let reached := t.walk mp.root (names (path.chars.drop mp.pathLen))
      fsNamef t mountpoints h path = some (if reached.2 then reached.1 else .null, h')
        ∧ reached.1 ≠ .null ∧ Gains h h' reached.1
  := by
  obtain ⟨best, hbest, hlongest⟩ := fsClosestMp_spec mountpoints path
  cases best with
  | none =>
      obtain ⟨mp, hmp, hstarts⟩ := hcovered
      apply absurd hstarts (hlongest mp hmp)
  | some mp =>
      obtain ⟨-, ⟨-, rest, hrest⟩, -⟩ := hlongest
      have hzero : 0 ∉ rest := by
        intro hmem
        apply path.nonzero
        rw [← hrest]
        apply List.mem_append_right _ hmem
      have hroot : (fsGet h mp.root).1 = mp.root := by rw [fsGet_of_ne mp.root_ne]
      have hdrop : path.chars.drop mp.pathLen = rest := by
        rw [← hrest, mp.pathLen_eq, List.drop_left]
      obtain ⟨h', hloop, hspec⟩ := namefLoop_spec t mp.path.chars hzero mp.root_ne
        (refs_fsGet (h := h) mp.root_ne)
      refine ⟨mp, h', hbest, ?_⟩
      rw [hdrop]
      refine ⟨?_, hspec⟩
      rw [fsNamef, hbest, Option.bind_some, Option.bind_some, ← hloop]
      simp only [hroot]
      rw [block, ← hrest, mp.pathLen_eq, List.append_assoc]

/-- A lookup conserves the references just when the path leads to a file. -/
theorem conserves_iff (t : Tree) {mountpoints : List Mountpoint} (h : Heap) {path : CString}
    (hcovered : Covered mountpoints path) :
  Conserves t mountpoints h path ↔ Resolves t mountpoints path
  := by
  obtain ⟨mp, h', hbest, hloop, hne, hgains⟩ := fsNamef_spec t h hcovered
  constructor
  · rintro ⟨file, h'', hnamef, hrefs⟩
    refine ⟨mp, hbest, ?_⟩
    obtain ⟨rfl, rfl⟩ := Prod.mk.inj (Option.some_inj.mp (hloop.symm.trans hnamef))
    by_contra hfails
    rw [if_neg hfails, if_pos rfl] at hrefs
    -- the directory that was reached has a reference more
    have hpos := hgains.pos
    have hmore := hgains (t.walk mp.root (names (path.chars.drop mp.pathLen))).1
    rw [if_pos rfl, hrefs] at hmore
    omega
  · rintro ⟨mp', hbest', hfound⟩
    obtain rfl := Option.some_inj.mp (Option.some_inj.mp (hbest.symm.trans hbest'))
    rw [if_pos hfound] at hloop
    refine ⟨_, h', hloop, ?_⟩
    rw [if_neg hne]
    exact hgains

/-- A `readdir` that gives out references to the files of the entries. -/
def getEntry (entries : List Dirent) (h : Heap) (i : Nat) : Option Dirent × Heap :=
  match entries[i]? with
  | some e => (some e, (fsGet h e.file).2)
  | none => (none, h)

/-- The directory `dir` with the given entries, and no other directory. -/
def Tree.one (dir : Ptr) (es : List Dirent) (hlen : es.length < 2 ^ 31)
    (hfile : ∀ e ∈ es, e.file ≠ .null) : Tree where
  entries d := if d = dir then es else []
  readdir d := if d = dir then some (getEntry es) else none
  entries_none d hd := by
    split_ifs at hd with hdir
    exact if_neg hdir
  entry d f hd h i := by
    split_ifs at hd with hdir
    obtain rfl := Option.some_inj.mp hd
    rw [if_pos hdir, getEntry]
    split
    · rename_i e he
      rw [he]
    · rename_i he
      rw [he]
  gains d f hd h i e he := by
    split_ifs at hd with hdir
    obtain rfl := Option.some_inj.mp hd
    rw [if_pos hdir] at he
    rw [getEntry, he]
    apply refs_fsGet (hfile e (List.mem_of_getElem? he))
  same d f hd h i he := by
    split_ifs at hd with hdir
    obtain rfl := Option.some_inj.mp hd
    rw [if_pos hdir] at he
    rw [getEntry, he]
    exact fun _ => rfl
  file_ne d e he := by
    split_ifs at he with hdir
    · apply hfile e he
    · cases he
  length_lt d := by
    split_ifs with hdir
    · exact hlen
    · exact Nat.two_pow_pos 31

/-- The root directory with the one entry `a`. -/
def rootTree : Tree :=
  Tree.one (.device 0) [{ name := ⟨[0x61], by decide⟩, file := .device 1 }] (by decide) (by decide)

/-- A heap with two files that have a user each. -/
def twoFiles : Heap where
  file := fun _ => { refs := 1, type := 0, driver := none, data := .null }
  pipe := fun _ => { buffer := .null, readers := 0, writers := 0, reader := .null, writer := .null }
  devices := 2
  pipes := 0
  freed := []
  faults := []

/-- `/a` -/
def aPath : CString where
  chars := [sep, 0x61]
  nonzero := by decide

/-- `/b` -/
def bPath : CString where
  chars := [sep, 0x62]
  nonzero := by decide

theorem covered_rootMount :
  Covered [rootMount] aPath ∧ Covered [rootMount] bPath
  := by
  have hne : rootMount.path.chars ≠ [] := List.cons_ne_nil _ _
  exact ⟨⟨rootMount, List.mem_cons_self, hne, [0x61], rfl⟩,
    ⟨rootMount, List.mem_cons_self, hne, [0x62], rfl⟩⟩

/-- The lookup of `/a` conserves the references. -/
theorem conserves_iff_a :
  Conserves rootTree [rootMount] twoFiles aPath
  := by
  apply (conserves_iff rootTree twoFiles covered_rootMount.1).mpr
  refine ⟨rootMount, rfl, ?_⟩
  decide

/-- The lookup of `/b` returns no file, and leaves the root directory with a reference more. -/
theorem lookup_b_leaks :
  (∃ h, fsNamef rootTree [rootMount] twoFiles bPath = some (.null, h)
      ∧ twoFiles.refs (.device 0) = 1 ∧ h.refs (.device 0) = 2)
    ∧ ¬ Conserves rootTree [rootMount] twoFiles bPath
  := by
  obtain ⟨mp, h, hbest, hloop, -, hgains⟩ :=
    fsNamef_spec rootTree twoFiles covered_rootMount.2
  have hmp : fsClosestMp [rootMount] bPath = some (some rootMount) := rfl
  obtain rfl := Option.some_inj.mp (Option.some_inj.mp (hmp.symm.trans hbest))
  have hwalk : rootTree.walk rootMount.root (names (bPath.chars.drop rootMount.pathLen))
      = (.device 0, false) := by decide
  rw [hwalk] at hloop hgains
  have hmore : h.refs (.device 0) = 2 := hgains (.device 0)
  refine ⟨⟨h, hloop, rfl, hmore⟩, ?_⟩
  rintro ⟨file, h', hnamef, hrefs⟩
  obtain ⟨rfl, rfl⟩ := Prod.mk.inj (Option.some_inj.mp (hloop.symm.trans hnamef))
  have hsame : h.refs (.device 0) = 1 := hrefs (.device 0)
  omega

end Vfs
