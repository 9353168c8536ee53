import Xv6.Mkfs.Main

/-!
# The shape of the image

What the kernel relies on without checking it: no file has a hole, no block has two uses,
and the bitmap has exactly the metadata and the blocks in use.
-/

namespace Xv6.Mkfs

open Lib Fs

def Use.owner : Use → Nat
  | data i _ => i
  | indirect i => i

def Referenced (img : Nat → Bytes) (u : Use) : Prop :=
  u.owner < NINODES ∧ u.InRange ∧ u.block img (inodeAt img) ≠ 0

structure WellFormed (img : Nat → Bytes) : Prop where
  full : ∀ i, i < NINODES → ∀ j, j < ((inodeAt img i).size.toNat + 1023) / 1024 →
    Referenced img (.data i j)
  distinct : ∀ u v, Referenced img u → Referenced img v →
    u.block img (inodeAt img) = v.block img (inodeAt img) → u = v
  range : ∀ u, Referenced img u →
    nmeta ≤ u.block img (inodeAt img) ∧ u.block img (inodeAt img) < FSSIZE
  marked : ∀ b, bit (img sb.bmapstart) b = true ↔
    b < nmeta ∨ ∃ u, Referenced img u ∧ u.block img (inodeAt img) = b

section

variable {files : List HostFile} {img : Nat → Bytes} {node : Nat → Dinode} {free : Nat}

theorem image_made (hfits : Fits files) (h : image files = .ok img) :
    ∃ node, Made files img node (nmeta + blocksOf files) := by
  have hwp := wp_main hfits.placed
  unfold image at h
  split at h
  next s hmain =>
    cases h
    exact (hwp.ok hmain).2
  next e hmain => cases h

theorem image_ok (hfits : Fits files) (hnot : ∀ x ∈ files, ¬Refused x) :
    ∃ img, image files = .ok img := by
  have hwp := wp_main hfits.placed
  unfold image
  split
  next s hmain => exact ⟨s.img, rfl⟩
  next e hmain =>
    obtain ⟨x, hx, hrefused⟩ := hwp.stop hmain
    exact absurd hrefused (hnot x hx)

namespace Made

theorem block (h : Made files img node free) {u : Use} (hu : u.owner < 208) :
    u.block img (inodeAt img) = u.block img node := by
  cases u with
  | data i j => simp only [Use.block, h.inode i hu]
  | indirect i => simp only [Use.block, h.inode i hu]

theorem owner_lt (hnum : files.length ≤ NINODES - 2) {u : Use} (hu : needs (contentOf files) u) :
    u.owner < NINODES := by
  change _ ≤ 198 at hnum
  have hlt : ∀ i, contentOf files i ≠ [] → i < 200 := by
    intro i hi
    by_contra hge
    obtain ⟨k, rfl⟩ : ∃ k, i = k + 2 := ⟨i - 2, by omega⟩
    apply hi
    simp only [contentOf]
    rw [List.getElem?_eq_none (by omega)]
    rfl
  cases u with
  | data i j =>
    apply hlt i
    rw [← List.length_pos_iff]
    change 1024 * j < _ at hu
    omega
  | indirect i =>
    apply hlt i
    rw [← List.length_pos_iff]
    change 12288 < _ at hu
    omega

theorem referenced (h : Made files img node free) (hnum : files.length ≤ NINODES - 2) (u : Use) :
    Referenced img u ↔ needs (contentOf files) u := by
  constructor
  · rintro ⟨howner, hrange, hblock⟩
    change _ < 200 at howner
    rw [h.block (by omega)] at hblock
    exact (h.laid.pos u hrange).1 hblock
  · intro hneed
    have hrange := h.laid.inRange u hneed
    have howner := owner_lt hnum hneed
    refine ⟨howner, hrange, ?_⟩
    change _ < 200 at howner
    rw [h.block (by omega)]
    exact (h.laid.pos u hrange).2 hneed

theorem referenced_block (h : Made files img node free) {u : Use} (hu : Referenced img u) :
    u.block img (inodeAt img) = u.block img node := by
  have := hu.1
  change _ < 200 at this
  exact h.block (by omega)

theorem distinct (h : Made files img node free) (hnum : files.length ≤ NINODES - 2) (u v : Use)
    (hu : Referenced img u) (hv : Referenced img v)
    (heq : u.block img (inodeAt img) = v.block img (inodeAt img)) : u = v := by
  rw [h.referenced_block hu, h.referenced_block hv] at heq
  exact h.laid.inj u v ((h.referenced hnum u).1 hu) ((h.referenced hnum v).1 hv) heq

theorem range (h : Made files img node free) (hnum : files.length ≤ NINODES - 2) (u : Use)
    (hu : Referenced img u) :
    nmeta ≤ u.block img (inodeAt img) ∧ u.block img (inodeAt img) < free := by
  rw [h.referenced_block hu]
  exact h.laid.range u ((h.referenced hnum u).1 hu)

theorem marked (h : Made files img node free) (hnum : files.length ≤ NINODES - 2) (b : Nat) :
    bit (img sb.bmapstart) b = true ↔
      b < nmeta ∨ ∃ u, Referenced img u ∧ u.block img (inodeAt img) = b := by
  have hlow := h.laid.low
  rw [h.bitmap b]
  constructor
  · intro hb
    by_cases hmeta : b < nmeta
    · exact .inl hmeta
    · obtain ⟨u, hu, hub⟩ := h.laid.onto b (by omega) hb
      have href := (h.referenced hnum u).2 hu
      exact .inr ⟨u, href, by rw [h.referenced_block href, hub]⟩
  · rintro (hb | ⟨u, hu, rfl⟩)
    · omega
    · exact (h.range hnum u hu).2

/-- The root directory has no hole unless its entries fill its blocks. -/
theorem full (h : Made files img node free) (hnum : files.length ≤ NINODES - 2)
    (hround : (files.length + 2) % 64 ≠ 0) (i : Nat) (hi : i < NINODES) (j : Nat)
    (hj : j < ((inodeAt img i).size.toNat + 1023) / 1024) : Referenced img (.data i j) := by
  change i < 200 at hi
  rw [h.referenced hnum]
  rw [h.inode i (by omega)] at hj
  change 1024 * j < (contentOf files i).length
  by_cases hroot : i = ROOTINO
  · subst hroot
    rw [h.root, length_rootBytes] at hj
    change 1024 * j < (rootBytes files).length
    rw [length_rootBytes]
    omega
  · rw [h.size i hroot] at hj
    omega

/-- Entries that fill the blocks of the root directory leave a hole at its end. -/
theorem hole (h : Made files img node free) (hnum : files.length ≤ NINODES - 2)
    (hround : (files.length + 2) % 64 = 0) : ¬WellFormed img := by
  intro hwell
  have hfull := hwell.full ROOTINO (by decide) ((rootBytes files).length / 1024) (by
    rw [h.inode ROOTINO (by decide), h.root]
    omega)
  rw [h.referenced hnum] at hfull
  change 1024 * _ < (rootBytes files).length at hfull
  rw [length_rootBytes] at hfull
  omega

end Made

/-- The file `user/_ls` with three bytes, in two pieces. -/
def lsFile : HostFile where
  name := userDir ++ [95, 108, 115]
  pieces := [[1, 2], [3]]

def emptyFiles : List HostFile :=
  (List.range 62).map fun k => { name := [97, UInt8.ofNat (48 + k)], pieces := [] }

end

end Xv6.Mkfs
