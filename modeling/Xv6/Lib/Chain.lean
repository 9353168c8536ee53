import Mathlib

/-!
# Linked lists in memory

A list of nodes is linked when the successor of each one's key is the key of the node
behind it.  The last node leads to a key `z`; for a circular list that is the first key.
-/

namespace Xv6.Lib

universe u v

variable {α : Type u} {β : Type v}

def firstKey (key : β → α) (l : List β) (z : α) : α :=
  match l with
  | [] => z
  | x :: _ => key x

@[simp] theorem firstKey_nil (key : β → α) (z : α) : firstKey key [] z = z := rfl

@[simp] theorem firstKey_cons (key : β → α) (x : β) (l : List β) (z : α) :
    firstKey key (x :: l) z = key x := rfl

def Chain (next : α → α) (key : β → α) : List β → α → Prop
  | [], _ => True
  | x :: l, z => next (key x) = firstKey key l z ∧ Chain next key l z

namespace Chain

variable {next next' : α → α} {key : β → α} {l l₁ l₂ : List β} {x y : β} {z : α}

theorem append :
    Chain next key (l₁ ++ l₂) z ↔ Chain next key l₁ (firstKey key l₂ z) ∧ Chain next key l₂ z := by
  induction l₁ with
  | nil => simp only [List.nil_append, Chain, true_and]
  | cons x l₁ ih =>
    have hfirst : firstKey key (l₁ ++ l₂) z = firstKey key l₁ (firstKey key l₂ z) := by
      cases l₁ <;> rfl
    simp only [List.cons_append, Chain, ih, hfirst, and_assoc]

theorem congr (h : Chain next key l z) (hnext : ∀ x ∈ l, next' (key x) = next (key x)) :
    Chain next' key l z := by
  induction l with
  | nil => trivial
  | cons x l ih =>
    obtain ⟨hx, hl⟩ := h
    refine ⟨?_, ?_⟩
    · rw [hnext x List.mem_cons_self, hx]
    · exact ih hl fun y hy => hnext y (List.mem_cons_of_mem x hy)

theorem middle : Chain next key (l₁ ++ x :: l₂) z ↔
    Chain next key l₁ (key x) ∧ next (key x) = firstKey key l₂ z ∧ Chain next key l₂ z := by
  rw [append]
  rfl

end Chain

end Xv6.Lib
