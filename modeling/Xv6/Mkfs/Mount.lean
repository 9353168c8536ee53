import Xv6.Fs.Reading
import Xv6.Mkfs.WellFormed

/-!
# The image in the kernel

The kernel's `dirlookup` in the root directory of the image finds the files by name, and
`readi` returns their bytes.
-/

namespace Xv6.Mkfs

open Lib Lib.Cmd Fs

def fsinit (d : Bytes) : Option Superblock :=
  if word d 0 4 = 0x10203040 then
    some
      { size := word d 4 4
        ninodes := word d 12 4
        inodestart := word d 24 4
        bmapstart := word d 28 4 }
  else none

theorem fsinit_superBytes : fsinit superBytes = some sb := by
  rfl

/-- The name in the directory entry: cut or padded to `DIRSIZ`. -/
def HostFile.stored (x : HostFile) : Str := strncpy 14 (fsName x.name)

/-- The kernel has the image, and entry `dp` is the root directory, which the caller may
have locked.  Entries that are valid are as in the image, and there is an empty one. -/
structure Serving (img : Nat → Bytes) (s : Fs.State) (dp : Slot) : Prop where
  bufs : s.bufs = img
  sb : fsinit (img 1) = some s.sb
  ref : 0 < (s.inode dp).ref
  dev : (s.inode dp).dev = ROOTDEV
  inum : (s.inode dp).inum = ROOTINO
  valid : (s.inode dp).valid = true
  coherent : ∀ k, 0 < (s.inode k).ref → (s.inode k).valid = true →
    (s.inode k).toDinode = s.dinode (s.inode k).inum
  unlocked : ∀ k, k ≠ dp → (s.inode k).locked = false
  empty : ∃ k, (s.inode k).ref = 0

/-- `dirlookup` in the root directory finds the file, and `readi` returns its bytes, from
any offset on. -/
def Served (img : Nat → Bytes) (x : HostFile) : Prop :=
  ∀ s dp, Serving img s dp → ∃ k o t u,
    dirlookup dp (fsName x.name) s = .ok (some (k, o), t) ∧ ilock k t = .ok (⟨⟩, u) ∧
    (u.inode k).size.toNat = x.bytes.length ∧
    ∀ b off n, off ≤ x.bytes.length → off + n < 2 ^ 32 →
      readi k (.kernel b) off n u =
        .ok (((min n (x.bytes.length - off) : Nat), .kernel
          (blit b 0 (min n (x.bytes.length - off)) fun j => x.bytes.getD (off + j) 0)), u)

def entriesOf (files : List HostFile) : List Dirent :=
  { inum := ROOTINO, name := strncpy 14 dot } :: { inum := ROOTINO, name := strncpy 14 dotdot } ::
    files.mapIdx fun k x => { inum := k + 2, name := x.stored }

section

variable {files : List HostFile} {img : Nat → Bytes} {node : Nat → Dinode} {free : Nat}
  {s : Fs.State} {k dp : Slot} {x : HostFile}

theorem dirBytes_entriesOf (files : List HostFile) : dirBytes (entriesOf files) = rootBytes files := by
  have hmap : (files.mapIdx fun k x => entryOf (k + 2) (fsName x.name)) =
      (files.mapIdx fun k x => { inum := k + 2, name := x.stored : Dirent }).map
        fun de => (List.range 16).map de.bytes := by
    rw [List.mapIdx_eq_zipIdx_map, List.mapIdx_eq_zipIdx_map, List.map_map]
    rfl
  rw [rootBytes, hmap, List.append_assoc]
  rfl

theorem proper_entriesOf (hnum : files.length ≤ NINODES - 2) : Proper (entriesOf files) := by
  change _ ≤ 198 at hnum
  intro de hde
  simp only [entriesOf, List.mem_cons] at hde
  rcases hde with rfl | rfl | hde
  · exact ⟨by decide, by decide, length_strncpy _ _⟩
  · exact ⟨by decide, by decide, length_strncpy _ _⟩
  · obtain ⟨i, hi, rfl⟩ := List.mem_mapIdx.1 hde
    exact ⟨by simp, by simp; omega, length_strncpy _ _⟩

theorem entry_name {de : Dirent} (hde : de ∈ entriesOf files) : ∃ q, de.name = strncpy 14 q := by
  simp only [entriesOf, List.mem_cons] at hde
  rcases hde with rfl | rfl | hde
  · exact ⟨dot, rfl⟩
  · exact ⟨dotdot, rfl⟩
  · obtain ⟨i, hi, rfl⟩ := List.mem_mapIdx.1 hde
    exact ⟨_, rfl⟩

theorem entry_first {i : Nat} (hx : files[i]? = some x) (hnames : (files.map HostFile.stored).Nodup)
    (hdot : x.stored ≠ strncpy 14 dot) (hdotdot : x.stored ≠ strncpy 14 dotdot) (e : Nat) (de : Dirent)
    (he : e < i + 2) (hde : (entriesOf files)[e]? = some de) : x.stored ≠ de.name := by
  match e with
  | 0 =>
    cases hde
    exact hdot
  | 1 =>
    cases hde
    exact hdotdot
  | e + 2 =>
    have hlt := (List.getElem?_eq_some_iff.1 hx).1
    have hget : (files.mapIdx fun k x => { inum := k + 2, name := x.stored : Dirent })[e]? = some de :=
      hde
    rw [List.getElem?_mapIdx, List.getElem?_eq_getElem (by omega)] at hget
    cases hget
    intro heq
    have hsame : (files.map HostFile.stored)[i]? = (files.map HostFile.stored)[e]? := by
      rw [List.getElem?_map, List.getElem?_map, hx, List.getElem?_eq_getElem (by omega)]
      exact congrArg some heq
    have := (List.getElem?_inj (by simpa using hlt) hnames).1 hsame
    omega

/-- An entry with an inode of the image is a file with its bytes. -/
theorem Made.readable (h : Made files img node free) (hbufs : s.bufs = img) {i : Nat}
    (hnode : (s.inode k).toDinode = node i) : Readable s k (contentOf files i) := by
  intro o c hc
  have hlt := (List.getElem?_eq_some_iff.1 hc).1
  have hneed : needs (contentOf files) (.data i (o / 1024)) := by
    change 1024 * _ < _
    omega
  have hrange := h.laid.inRange _ hneed
  rw [hbufs, hnode]
  exact ⟨hrange, (h.laid.pos _ hrange).2 hneed, h.filled i o c hc⟩

theorem Serving.dinode (hs : Serving img s dp) (h : Made files img node free) {i : Nat} (hi : i < 208) :
    s.dinode i = node i := by
  have hsb := hs.sb
  rw [h.super, fsinit_superBytes] at hsb
  have hsame : s.sb = Mkfs.sb := (Option.some.inj hsb).symm
  rw [← h.inode i hi, State.dinode, hsame, hs.bufs]
  rfl

/-- `dirlookup` goes to the first entry of the root directory with the name. -/
theorem Serving.dirlookup (hs : Serving img s dp) (h : Made files img node free)
    (hnum : files.length ≤ NINODES - 2) {m : Nat} {de : Dirent} (name : Str)
    (hm : (entriesOf files)[m]? = some de) (hname : strncpy 14 name = de.name)
    (hfirst : ∀ e de', e < m → (entriesOf files)[e]? = some de' → strncpy 14 name ≠ de'.name) :
    dirlookup dp name s =
      (do
        let ip ← iget ROOTDEV de.inum
        return some (ip, 16 * m)) s := by
  have hnode : (s.inode dp).toDinode = node ROOTINO := by
    rw [hs.coherent dp hs.ref hs.valid, hs.inum, hs.dinode h (by decide)]
  have hread : Readable s dp (dirBytes (entriesOf files)) := by
    rw [dirBytes_entriesOf]
    exact h.readable hs.bufs hnode
  have hsize : 16 * (entriesOf files).length ≤ (s.inode dp).size.toNat := by
    rw [hnode, h.root, length_rootBytes]
    simp only [entriesOf, List.length_cons, List.length_mapIdx]
    omega
  have hcmp : ∀ {e : Nat} {de : Dirent}, (entriesOf files)[e]? = some de →
      (namecmp name de.name = 0 ↔ strncpy 14 name = de.name) := by
    intro e de he
    obtain ⟨q, hq⟩ := entry_name (List.mem_of_getElem? he)
    rw [hq]
    exact strncmp_strncpy 14 name q
  rw [← hs.dev]
  apply dirlookup_eq _ hread hsize (proper_entriesOf hnum) hm ((hcmp hm).2 hname)
  · intro e de' he hde heq
    exact hfirst e de' he hde ((hcmp hde).1 heq)
  · rw [hnode, h.type]
    rfl

/-- A file whose name no earlier entry has is found, and is read. -/
theorem Made.served (h : Made files img node free) (hnum : files.length ≤ NINODES - 2) {i : Nat}
    (hx : files[i]? = some x)
    (hfirst : ∀ e de, e < i + 2 → (entriesOf files)[e]? = some de → x.stored ≠ de.name) :
    Served img x := by
  intro s dp hs
  change _ ≤ 198 at hnum
  have hlt := (List.getElem?_eq_some_iff.1 hx).1
  have hentry : (entriesOf files)[i + 2]? = some { inum := i + 2, name := x.stored } := by
    change (files.mapIdx fun k x => { inum := k + 2, name := x.stored : Dirent })[i]? = _
    rw [List.getElem?_mapIdx, hx]
    rfl
  have hcontent : contentOf files (i + 2) = x.bytes := by
    change (files[i]?.map HostFile.bytes).getD [] = _
    rw [hx]
    rfl
  have hlook := hs.dirlookup h hnum (fsName x.name) hentry rfl hfirst
  obtain ⟨j, hj⟩ := hs.empty
  obtain ⟨k, f, hget, hf⟩ := (iget_cases s ROOTDEV (i + 2)).resolve_right fun h => h.2 j hj
  rw [bind_ok hget] at hlook
  have hdinode : (s.adjust k f).dinode (i + 2) = node (i + 2) := hs.dinode h (by omega)
  have hself := s.adjust_self k f
  -- the entry is not that of the root directory, so no one has locked it
  have hne : k ≠ dp := by
    rintro rfl
    have href := hs.ref
    have hinum := hs.inum
    change _ = 1 at hinum
    rcases hf with ⟨-, -, hnum, -⟩ | ⟨hzero, -⟩
    · omega
    · omega
  have hinum : ((s.adjust k f).inode k).inum = i + 2 := by
    rw [hself]
    rcases hf with ⟨-, -, hnum, rfl⟩ | ⟨-, rfl⟩
    · exact hnum
    · rfl
  have href : 0 < ((s.adjust k f).inode k).ref := by
    rw [hself]
    rcases hf with ⟨hpos, -, -, rfl⟩ | ⟨-, rfl⟩
    · dsimp only
      omega
    · exact Int.one_pos
  have hlocked : ((s.adjust k f).inode k).locked = false := by
    rw [hself]
    rcases hf with ⟨-, -, -, rfl⟩ | ⟨-, rfl⟩
    · exact hs.unlocked k hne
    · exact hs.unlocked k hne
  have hvalid : ((s.adjust k f).inode k).valid = true →
      ((s.adjust k f).inode k).toDinode = (s.adjust k f).dinode ((s.adjust k f).inode k).inum := by
    rw [hself]
    rcases hf with ⟨hpos, -, -, rfl⟩ | ⟨-, rfl⟩
    · exact hs.coherent k hpos
    · intro hfalse
      cases hfalse
  obtain ⟨u, hlock, hbufs, -, hnode⟩ := ilock_ok href hlocked hvalid (by
    rw [hinum, hdinode, h.type, kindOf, if_neg (by omega), if_pos (by omega)]
    decide)
  rw [hinum, hdinode] at hnode
  have hsize : (u.inode k).size.toNat = x.bytes.length := by
    rw [hnode, h.size _ (by change i + 2 ≠ 1; omega), hcontent]
  have hread : Readable u k x.bytes := by
    rw [← hcontent]
    exact h.readable (hbufs.trans hs.bufs) hnode
  refine ⟨k, _, _, u, hlook, hlock, hsize, ?_⟩
  intro b off n hoff hn
  exact readi_end hread hsize hoff hn

/-- The kernel reads every file back under its name, if the names differ from each other
and from those of the root directory's own entries. -/
theorem image_served (files : List HostFile) (hfits : Fits files)
    (hlen : ∀ x ∈ files, x.bytes.length ≤ MAXFILE * 1024)
    (hnames : (files.map HostFile.stored).Nodup)
    (hdots : ∀ x ∈ files, x.stored ≠ strncpy 14 dot ∧ x.stored ≠ strncpy 14 dotdot) :
    (∀ img, image files = .ok img → ∀ x ∈ files, Served img x) ∧
      ((∀ x ∈ files, slash ∉ shortname x.name) → ∃ img, image files = .ok img) := by
  constructor
  · intro img himg x hx
    obtain ⟨node, hmade⟩ := image_made hfits himg
    obtain ⟨i, hi⟩ := List.getElem?_of_mem hx
    apply hmade.served hfits.1 hi
    exact entry_first hi hnames (hdots x hx).1 (hdots x hx).2
  · intro hslash
    apply image_ok hfits
    rintro x hx (hbad | hlong)
    · exact hslash x hx hbad
    · have := hlen x hx
      omega

theorem image_served_ls : ∃ img, image [lsFile] = .ok img ∧ Served img lsFile := by
  have hmain := image_served [lsFile] (by decide) (by decide) (by decide) (by decide)
  obtain ⟨img, himg⟩ := hmain.2 (by decide)
  exact ⟨img, himg, hmain.1 img himg lsFile (List.mem_singleton_self _)⟩

/-!
## A file with the name of the root directory's own entry
-/

def rooted (img : Nat → Bytes) : Fs.State where
  sb := sb
  bufs := img
  disk := img
  outstanding := 0
  lh := []
  inode := fun k =>
    { toDinode := inodeAt img ROOTINO
      dev := ROOTDEV
      inum := ROOTINO
      ref := if k = 0 then 1 else 0
      locked := k = 0
      valid := true }

theorem serving_rooted (h : Made files img node free) : Serving img (rooted img) 0 := by
  constructor
  · rfl
  · rw [h.super, fsinit_superBytes]
    rfl
  · exact Int.one_pos
  · rfl
  · rfl
  · rfl
  · intro k _ _
    rfl
  · intro k hk
    exact decide_eq_false hk
  · exact ⟨1, rfl⟩

def dotFile : HostFile where
  name := [underscore, 46]
  pieces := [[1]]

/-- `dirlookup` of `.` finds the root directory, which its caller has locked. -/
theorem dot_not_served : ∃ files, Fits files ∧ (∀ x ∈ files, x.bytes.length ≤ MAXFILE * 1024) ∧
    (files.map HostFile.stored).Nodup ∧ ∃ img, image files = .ok img ∧ ∃ x ∈ files, ¬Served img x := by
  have hfits : Fits [dotFile] := by decide
  obtain ⟨img, himg⟩ := image_ok hfits (by decide)
  obtain ⟨node, hmade⟩ := image_made hfits himg
  refine ⟨[dotFile], hfits, by decide, by decide, img, himg, dotFile, List.mem_singleton_self _, ?_⟩
  intro hserved
  have hs := serving_rooted hmade
  obtain ⟨k, o, t, u, hlook, hlock, -⟩ := hserved (rooted img) 0 hs
  rw [hs.dirlookup hmade hfits.1 (m := 0) (fsName dotFile.name) rfl (by decide) (by
    intro e de he
    omega)] at hlook
  have hget : iget ROOTDEV ROOTINO (rooted img) =
      .ok (0, (rooted img).adjust 0 fun ip => { ip with ref := ip.ref + 1 }) := rfl
  rw [bind_ok hget] at hlook
  cases hlook
  cases hlock

end

end Xv6.Mkfs
