import Mittos64.Fs.Path
import Mittos64.Fs.Vfs
import Mittos64.Mem.Strings

/-!
# Mounts

`fs_mount` and `fs_closest_mp` of `fs/vfs.c`.  A path belongs to the mount whose path is its
longest prefix.  The paths are compared as strings: where the prefix ends in the middle of a
component, the path is taken to lie in the mount all the same (`selects_iff`).
-/

namespace Vfs

open Pathtok CString

/-- `struct mountpoint`, but for its links. -/
structure Mountpoint where
  root : Ptr
  pathLen : Nat
  path : CString
  root_ne : root ≠ .null
  pathLen_eq : pathLen = path.chars.length

theorem fsGet_ne_null (h : Heap) (file : Ptr) :
  (fsGet h file).1 ≠ .null
  := by
  rw [fsGet]
  split_ifs with hnull
  · rintro ⟨⟩
  · exact hnull

/-- `fs_mount(root, path)`, with the mounts so far.  The length is `strlen(path)` (`strlen_block`). -/
def fsMount (h : Heap) (mountpoints : List Mountpoint) (root : Ptr) (path : CString) :
    Heap × List Mountpoint :=
  let mp :=
    { root := (fsGet h root).1, pathLen := path.chars.length, path := path,
      root_ne := fsGet_ne_null h root, pathLen_eq := rfl }
  ((fsGet h root).2, mountpoints ++ [mp])

/-- The loop of `fs_closest_mp`, with `best` and `best_len` so far: the best mount at the end,
unless a comparison reads behind a string. -/
def closestLoop (path : CString) : List Mountpoint → Option Mountpoint × Nat →
    Option (Option Mountpoint)
  | [], best => some best.1
  | mp :: mps, best =>
      (strncmp mp.path.block path.block (decr mp.pathLen)).bind fun r =>
        closestLoop path mps (if r = 0 ∧ mp.pathLen > best.2 then (some mp, mp.pathLen) else best)

/-- `fs_closest_mp(path)` -/
def fsClosestMp (mountpoints : List Mountpoint) (path : CString) : Option (Option Mountpoint) :=
  closestLoop path mountpoints (none, 0)

/-- The string is an absolute path. -/
def Absolute (s : CString) : Prop :=
  s.chars.head? = some sep

/-- The path lies in the mount: it goes on behind the path of the mount with another component,
or not at all. -/
def Mountpoint.Covers (mp : Mountpoint) (path : CString) : Prop :=
  ∃ rest, path.chars = mp.path.chars ++ rest
    ∧ (mp.path.chars = [sep] ∨ rest = [] ∨ rest.head? = some sep)

/-- The mount is the one with the longest path among those that pass the test. -/
def Longest (mountpoints : List Mountpoint) (test : Mountpoint → Prop) (mp : Mountpoint) : Prop :=
  mp ∈ mountpoints ∧ test mp
    ∧ ∀ mp' ∈ mountpoints, test mp' → mp'.path.chars.length ≤ mp.path.chars.length

/-- `fs_closest_mp` finds the longest mount that the path lies in, and none only when there is
none. -/
def Selects (mountpoints : List Mountpoint) (path : CString) : Prop :=
  ∃ best, fsClosestMp mountpoints path = some best
    ∧ match best with
      | some mp => Longest mountpoints (·.Covers path) mp
      | none => ∀ mp ∈ mountpoints, ¬ mp.Covers path

/-! ### The search -/

/-- The path starts with the path of the mount, which is not empty. -/
def Mountpoint.Starts (mp : Mountpoint) (path : CString) : Prop :=
  mp.path.chars ≠ [] ∧ mp.path.chars <+: path.chars

/-- What the loop has found among the mounts it has seen. -/
def Found (path : CString) (seen : List Mountpoint) : Option Mountpoint × Nat → Prop
  | (some mp, len) => len = mp.path.chars.length ∧ Longest seen (·.Starts path) mp
  | (none, len) => len = 0 ∧ ∀ mp ∈ seen, ¬ mp.Starts path

theorem found_start (path : CString) :
  Found path [] (none, 0)
  := by
  refine ⟨rfl, ?_⟩
  rintro mp ⟨⟩

/-- A mount with a longer path than those before it is the longest one. -/
theorem Found.cons {path : CString} {seen : List Mountpoint} {best : Option Mountpoint × Nat}
    (h : Found path seen best) {mp : Mountpoint} {r : Int}
    (hr : mp.path.chars ≠ [] → (r = 0 ↔ mp.path.chars <+: path.chars)) :
  Found path (seen ++ [mp])
    (if r = 0 ∧ mp.pathLen > best.2 then (some mp, mp.pathLen) else best)
  := by
  have hmem : ∀ {mp'}, mp' ∈ seen ++ [mp] ↔ mp' ∈ seen ∨ mp' = mp := by
    simp
  rw [mp.pathLen_eq]
  split_ifs with hlonger
  · have hne : mp.path.chars ≠ [] := List.length_pos_iff.mp (Nat.zero_lt_of_lt hlonger.2)
    refine ⟨rfl, hmem.mpr (Or.inr rfl), ⟨hne, (hr hne).mp hlonger.1⟩, ?_⟩
    rintro mp' hmp' hstarts
    obtain hmp' | rfl := hmem.mp hmp'
    · obtain ⟨_ | best, len⟩ := best
      · exact absurd hstarts (h.2 mp' hmp')
      · have hle := h.2.2.2 mp' hmp' hstarts
        have hlt := hlonger.2
        rw [h.1] at hlt
        omega
    · exact Nat.le_refl _
  · obtain ⟨_ | best, len⟩ := best
    · refine ⟨h.1, ?_⟩
      intro mp' hmp' hstarts
      obtain hmp' | rfl := hmem.mp hmp'
      · exact h.2 mp' hmp' hstarts
      · apply hlonger ⟨(hr hstarts.1).mpr hstarts.2, ?_⟩
        rw [h.1]
        exact List.length_pos_iff.mpr hstarts.1
    · obtain ⟨hlen, hbest, htest, hmax⟩ := h
      refine ⟨hlen, hmem.mpr (Or.inl hbest), htest, ?_⟩
      intro mp' hmp' hstarts
      obtain hmp' | rfl := hmem.mp hmp'
      · exact hmax mp' hmp' hstarts
      · apply Nat.le_of_not_lt
        intro hlt
        apply hlonger ⟨(hr hstarts.1).mpr hstarts.2, ?_⟩
        rw [hlen]
        exact hlt

/-- A path is compared with the path of a mount within their blocks. -/
theorem Mountpoint.strncmp_path (mp : Mountpoint) (path : CString) :
  ∃ r, strncmp mp.path.block path.block (decr mp.pathLen) = some r
    ∧ (mp.path.chars ≠ [] → (r = 0 ↔ mp.path.chars <+: path.chars))
  := by
  by_cases hne : mp.path.chars = []
  · obtain ⟨r, hr, -⟩ := strncmp_spec mp.path.nonzero path.nonzero [] [] (decr mp.pathLen)
    exact ⟨r, hr, fun h => absurd hne h⟩
  · have hlen : mp.path.chars.length = decr mp.pathLen + 1 := by
      have hpos := List.length_pos_iff.mpr hne
      rw [mp.pathLen_eq, decr, if_neg (by omega)]
      omega
    obtain ⟨r, hr, hiff⟩ := strncmp_eq_zero_iff (t := path) hlen
    exact ⟨r, hr, fun _ => hiff⟩

/-- The loop compares all paths within their blocks and finds the longest one that the path starts
with. -/
theorem closestLoop_spec {path : CString} {seen : List Mountpoint} (mps : List Mountpoint)
    {best : Option Mountpoint × Nat} (h : Found path seen best) :
  ∃ best', closestLoop path mps best = some best'.1 ∧ Found path (seen ++ mps) best'
  := by
  induction mps generalizing seen best with
  | nil =>
      rw [List.append_nil]
      exact ⟨best, rfl, h⟩
  | cons mp mps ih =>
      obtain ⟨r, hr, hiff⟩ := mp.strncmp_path path
      obtain ⟨best', hbest, hfound⟩ := ih (h.cons hiff)
      refine ⟨best', ?_, ?_⟩
      · rw [closestLoop, hr, Option.bind_some, hbest]
      · rw [List.append_cons]
        exact hfound

/-- `fs_closest_mp` compares all paths within their blocks and finds the longest mount that the
path starts with. -/
theorem fsClosestMp_spec (mountpoints : List Mountpoint) (path : CString) :
  ∃ best, fsClosestMp mountpoints path = some best
    ∧ match best with
      | some mp => Longest mountpoints (·.Starts path) mp
      | none => ∀ mp ∈ mountpoints, ¬ mp.Starts path
  := by
  obtain ⟨⟨best, len⟩, hbest, hfound⟩ := closestLoop_spec mountpoints (found_start path)
  refine ⟨best, hbest, ?_⟩
  cases best with
  | none => exact hfound.2
  | some mp => exact hfound.2

theorem Mountpoint.Covers.prefix {mp : Mountpoint} {path : CString} (h : mp.Covers path) :
  mp.path.chars <+: path.chars
  := by
  obtain ⟨rest, hrest, -⟩ := h
  exact ⟨rest, hrest.symm⟩

/-- Whether a path lies in a mount depends on the path of the mount only. -/
theorem Mountpoint.Covers.congr {mp mp' : Mountpoint} {path : CString} (h : mp.Covers path)
    (heq : mp'.path.chars = mp.path.chars) :
  mp'.Covers path
  := by
  obtain ⟨rest, hrest, hend⟩ := h
  rw [← heq] at hrest hend
  exact ⟨rest, hrest, hend⟩

theorem Absolute.ne_nil {s : CString} (h : Absolute s) :
  s.chars ≠ []
  := by
  intro hnil
  rw [Absolute, hnil] at h
  cases h

/-- `fs_closest_mp` finds the longest mount that the path lies in just when every mount whose path
ends in the middle of a component of the path is shorter than a mount that the path lies in. -/
theorem selects_iff {mountpoints : List Mountpoint} (hms : ∀ mp ∈ mountpoints, Absolute mp.path)
    (path : CString) :
  Selects mountpoints path
    ↔ ∀ mp ∈ mountpoints, mp.path.chars <+: path.chars → ¬ mp.Covers path →
        ∃ mp' ∈ mountpoints, mp'.Covers path ∧ mp.path.chars.length < mp'.path.chars.length
  := by
  obtain ⟨best, hbest, hfound⟩ := fsClosestMp_spec mountpoints path
  constructor
  · rintro ⟨best', hbest', hselects⟩ mp hmp hprefix hnot
    obtain rfl := Option.some_inj.mp (hbest.symm.trans hbest')
    have hstarts : mp.Starts path := ⟨(hms mp hmp).ne_nil, hprefix⟩
    cases best with
    | none => exact absurd hstarts (hfound mp hmp)
    | some best =>
        obtain ⟨hmem, hcovers, -⟩ := hselects
        refine ⟨best, hmem, hcovers, ?_⟩
        apply Nat.lt_of_le_of_ne (hfound.2.2 mp hmp hstarts)
        intro hlen
        apply hnot
        apply hcovers.congr
        apply List.IsPrefix.eq_of_length _ hlen
        apply List.prefix_of_prefix_length_le hprefix hcovers.prefix hlen.le
  · intro hshorter
    have hstarts : ∀ mp ∈ mountpoints, mp.Covers path → mp.Starts path :=
      fun mp hmp hcovers => ⟨(hms mp hmp).ne_nil, hcovers.prefix⟩
    refine ⟨best, hbest, ?_⟩
    cases best with
    | none =>
        intro mp hmp hcovers
        exact hfound mp hmp (hstarts mp hmp hcovers)
    | some best =>
        obtain ⟨hmem, hprefix, hmax⟩ := hfound
        refine ⟨hmem, ?_, fun mp hmp hcovers => hmax mp hmp (hstarts mp hmp hcovers)⟩
        by_contra hnot
        obtain ⟨mp, hmp, hcovers, hlt⟩ := hshorter best hmem hprefix.2 hnot
        apply absurd (hmax mp hmp (hstarts mp hmp hcovers)) (Nat.not_le_of_lt hlt)

/-- `/` -/
def rootPath : CString where
  chars := [sep]
  nonzero := by decide

/-- `/dev/sda` -/
def sdaPath : CString where
  chars := [sep, 0x64, 0x65, 0x76, sep, 0x73, 0x64, 0x61]
  nonzero := by decide

/-- `/dev/sdab` -/
def sdabPath : CString where
  chars := [sep, 0x64, 0x65, 0x76, sep, 0x73, 0x64, 0x61, 0x62]
  nonzero := by decide

/-- The mount of the first file at `/`. -/
def rootMount : Mountpoint where
  root := .device 0
  pathLen := 1
  path := rootPath
  root_ne := by decide
  pathLen_eq := rfl

/-- The mount of the first drive. -/
def sdaMount : Mountpoint where
  root := .device 1
  pathLen := 8
  path := sdaPath
  root_ne := by decide
  pathLen_eq := rfl

theorem rootMount_covers :
  rootMount.Covers sdabPath ∧ rootMount.Covers sdaPath
  := ⟨⟨_, rfl, Or.inl rfl⟩, ⟨_, rfl, Or.inl rfl⟩⟩

theorem sdaMount_covers :
  sdaMount.Covers sdaPath
  := ⟨[], rfl, Or.inr (Or.inl rfl)⟩

theorem absolute_mounts :
  ∀ mp ∈ [rootMount, sdaMount], Absolute mp.path
  := by
  intro mp hmp
  obtain rfl | rfl : mp = rootMount ∨ mp = sdaMount := by simpa using hmp
  · rfl
  · rfl

/-- With these mounts, `/dev/sda` is found. -/
theorem selects_iff_sda :
  Selects [rootMount, sdaMount] sdaPath
  := by
  apply (selects_iff absolute_mounts sdaPath).mpr
  intro mp hmp _ hnot
  obtain rfl | rfl : mp = rootMount ∨ mp = sdaMount := by simpa using hmp
  · apply absurd rootMount_covers.2 hnot
  · apply absurd sdaMount_covers hnot

/-- `/dev/sdab` is taken to lie in the mount at `/dev/sda`, and not in the one at `/`. -/
theorem sdab_selects_sda :
  fsClosestMp [rootMount, sdaMount] sdabPath = some (some sdaMount)
    ∧ rootMount.Covers sdabPath ∧ ¬ sdaMount.Covers sdabPath
    ∧ ¬ Selects [rootMount, sdaMount] sdabPath
  := by
  have hbest : fsClosestMp [rootMount, sdaMount] sdabPath = some (some sdaMount) := rfl
  have hnot : ¬ sdaMount.Covers sdabPath := by
    rintro ⟨rest, hrest, hend⟩
    have happend : sdaPath.chars ++ [0x62] = sdaPath.chars ++ rest := hrest
    have hb : [0x62] = rest := List.append_cancel_left happend
    rw [← hb] at hend
    revert hend
    decide
  refine ⟨hbest, rootMount_covers.1, hnot, ?_⟩
  rintro ⟨best, hbest', hselects⟩
  obtain rfl := Option.some_inj.mp (hbest.symm.trans hbest')
  apply hnot hselects.2.1

end Vfs
