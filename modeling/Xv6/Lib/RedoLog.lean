import Mathlib

/-!
# Redo logs on a disk

A disk is a function from block addresses to contents.  One block is the header
of a redo log, some others are its slots, and the home blocks are disjoint from
both.  `Redo D K l t` says that disk `D` stands for the home contents `K`: the
header names the blocks `l`, the slots hold their contents in `K`, and every home
block but those in `l` from position `t` on holds its content in `K` already.

The writes of a commit and of a recovery keep the disk in that form.  A crash
loses the position only.
-/

namespace Xv6.Lib

universe u v

structure LogLayout (α : Type u) (β : Type v) where
  head : α
  slot : Nat → α
  capacity : Nat
  home : α → Prop
  decode : β → List α
  slot_injective : Function.Injective slot
  slot_ne_head : ∀ i, slot i ≠ head
  home_ne_head : ∀ a, home a → a ≠ head
  home_ne_slot : ∀ a i, home a → i < capacity → a ≠ slot i

variable {α : Type u} {β : Type v} (L : LogLayout α β)

structure Redo (D K : α → β) (l : List α) (t : Nat) : Prop where
  header : L.decode (D L.head) = l
  slots : ∀ i a, l[i]? = some a → D (L.slot i) = K a
  homes : ∀ a, L.home a → a ∉ l.drop t → D a = K a
  home : ∀ a ∈ l, L.home a
  fits : l.length ≤ L.capacity

namespace Redo

variable {L} {D K V : α → β} {l : List α} {t i : Nat} {a : α} {c : β}

theorem index_lt (h : Redo L D K l t) (hi : l[i]? = some a) : i < L.capacity := by
  have hlen : i < l.length := (List.getElem?_eq_some_iff.1 hi).1
  have hfits := h.fits
  omega

/-- Restarting the installation from the beginning is always safe. -/
theorem restart (h : Redo L D K l t) : Redo L D K l 0 where
  __ := h
  homes a ha hmem := h.homes a ha fun hdrop => hmem (List.drop_subset t l hdrop)

theorem finish (h : Redo L D K l t) (ht : l.length ≤ t) : Redo L D K l l.length where
  __ := h
  homes a ha _ := h.homes a ha (by simp [List.drop_eq_nil_of_le ht])

theorem settled (h : Redo L D K [] t) (ha : L.home a) : D a = K a := h.homes a ha (by simp)

variable [DecidableEq α]

theorem write_slot (h : Redo L D K [] t) (hi : i < L.capacity) :
    Redo L (Function.update D (L.slot i) c) K [] t where
  header := by
    rw [Function.update_of_ne (L.slot_ne_head i).symm]
    exact h.header
  slots := by simp
  homes a ha _ := by
    rw [Function.update_of_ne (L.home_ne_slot a i ha hi)]
    exact h.settled ha
  home := by simp
  fits := by simp

/-- Writing the header is the moment at which the logged contents take effect. -/
theorem commit (h : Redo L D K [] t) (hdec : L.decode c = l)
    (hslots : ∀ i a, l[i]? = some a → D (L.slot i) = V a)
    (hkeep : ∀ a, L.home a → a ∉ l → V a = K a)
    (hhome : ∀ a ∈ l, L.home a) (hfits : l.length ≤ L.capacity) :
    Redo L (Function.update D L.head c) V l 0 where
  header := by rw [Function.update_self, hdec]
  slots i a hi := by
    rw [Function.update_of_ne (L.slot_ne_head i)]
    exact hslots i a hi
  homes a ha hmem := by
    rw [Function.update_of_ne (L.home_ne_head a ha), hkeep a ha (by simpa using hmem)]
    exact h.settled ha
  home := hhome
  fits := hfits

theorem install (h : Redo L D K l t) (ht : l[t]? = some a) :
    Redo L (Function.update D a (K a)) K l (t + 1) where
  header := by
    have ha : L.home a := h.home a (List.mem_of_getElem? ht)
    rw [Function.update_of_ne (L.home_ne_head a ha).symm]
    exact h.header
  slots i b hi := by
    have ha : L.home a := h.home a (List.mem_of_getElem? ht)
    rw [Function.update_of_ne (L.home_ne_slot a i ha (h.index_lt hi)).symm]
    exact h.slots i b hi
  homes b hb hmem := by
    by_cases hab : b = a
    · rw [hab, Function.update_self]
    · rw [Function.update_of_ne hab]
      apply h.homes b hb
      obtain ⟨hlt, hget⟩ := List.getElem?_eq_some_iff.1 ht
      rw [List.drop_eq_getElem_cons hlt, hget, List.mem_cons]
      rintro (hba | hdrop)
      · exact hab hba
      · exact hmem hdrop
  home := h.home
  fits := h.fits

theorem clear (h : Redo L D K l t) (ht : l.length ≤ t) (hdec : L.decode c = []) :
    Redo L (Function.update D L.head c) K [] 0 where
  header := by rw [Function.update_self, hdec]
  slots := by simp
  homes a ha _ := by
    rw [Function.update_of_ne (L.home_ne_head a ha)]
    exact h.homes a ha (by simp [List.drop_eq_nil_of_le ht])
  home := by simp
  fits := by simp

end Redo

end Xv6.Lib
