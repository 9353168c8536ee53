import Xv6.Umalloc.Code

/-!
# Lists of blocks

What `free` and `malloc` do to the blocks of the free list, apart from how the list is
kept in memory.
-/

namespace Xv6.Umalloc

variable {b x : Block} {l : List Block} {a : Nat}

namespace Block

def Has (b : Block) (a : Nat) : Prop := b.addr ≤ a ∧ a < b.stop

def Apart (x y : Block) : Prop := ∀ a, x.Has a → ¬y.Has a

def Gap (x y : Block) : Prop := x.stop < y.addr

theorem addr_le_stop (b : Block) : b.addr ≤ b.stop := Nat.le_add_right _ _

theorem header_le_stop (h : 0 < b.size) : b.addr + 16 ≤ b.stop := by
  change b.addr + 16 ≤ b.addr + 16 * b.size
  omega

theorem has_addr (h : 0 < b.size) : b.Has b.addr := by
  have hle := header_le_stop h
  exact ⟨Nat.le_refl _, by omega⟩

theorem Apart.symm {y : Block} (h : Apart x y) : Apart y x := fun a hy hx => h a hx hy

instance : Std.Symm Apart := ⟨fun _ _ h => h.symm⟩

theorem Apart.cases {y : Block} (h : Apart x y) (hx : 0 < x.size) (hy : 0 < y.size) :
    x.stop ≤ y.addr ∨ y.stop ≤ x.addr := by
  have hx' := header_le_stop hx
  have hy' := header_le_stop hy
  by_contra hover
  rw [not_or] at hover
  apply h (max x.addr y.addr)
  · exact ⟨Nat.le_max_left _ _, by omega⟩
  · exact ⟨Nat.le_max_right _ _, by omega⟩

end Block

open Block

def Covers (l : List Block) (a : Nat) : Prop := ∃ b ∈ l, b.Has a

def total (l : List Block) : Nat := (l.map Block.size).sum

@[simp] theorem total_nil : total [] = 0 := rfl

@[simp] theorem total_cons (b : Block) (l : List Block) : total (b :: l) = b.size + total l := by
  simp [total]

@[simp] theorem total_append (l₁ l₂ : List Block) : total (l₁ ++ l₂) = total l₁ + total l₂ := by
  simp [total]

theorem length_le_total (h : ∀ b ∈ l, 0 < b.size) : l.length ≤ total l := by
  induction l with
  | nil => exact Nat.le_refl 0
  | cons b l ih =>
    have hb := h b List.mem_cons_self
    have hl := ih fun x hx => h x (List.mem_cons_of_mem b hx)
    rw [List.length_cons, total_cons]
    omega

theorem covers_cons : Covers (b :: l) a ↔ b.Has a ∨ Covers l a := by
  simp [Covers]

theorem covers_append {l₁ l₂ : List Block} : Covers (l₁ ++ l₂) a ↔ Covers l₁ a ∨ Covers l₂ a := by
  simp [Covers, or_and_right, exists_or]

def absorb (b : Block) : List Block → List Block
  | [] => [b]
  | r :: rs =>
    if b.stop = r.addr then { addr := b.addr, size := b.size + r.size } :: rs else b :: r :: rs

section Absorb

variable {b : Block} {rs : List Block}

theorem absorb_cases (b : Block) (rs : List Block) :
    absorb b rs = b :: rs ∧ (∀ r ∈ rs.head?, b.stop ≠ r.addr) ∨
    ∃ r rs', rs = r :: rs' ∧ b.stop = r.addr ∧
      absorb b rs = { addr := b.addr, size := b.size + r.size } :: rs' := by
  cases rs with
  | nil => exact .inl ⟨rfl, nofun⟩
  | cons r rs =>
    by_cases h : b.stop = r.addr
    · exact .inr ⟨r, rs, rfl, h, if_pos h⟩
    · refine .inl ⟨if_neg h, ?_⟩
      rintro _ ⟨⟩
      exact h

theorem stop_join {r : Block} (h : b.stop = r.addr) :
    Block.stop { addr := b.addr, size := b.size + r.size } = r.stop := by
  unfold Block.stop at h ⊢
  simp only [Nat.mul_add]
  omega

theorem absorb_sorted (h : rs.Pairwise Gap) (hb : ∀ r ∈ rs, b.stop ≤ r.addr) :
    (absorb b rs).Pairwise Gap := by
  rcases absorb_cases b rs with ⟨heq, hne⟩ | ⟨r, rs', rfl, hr, heq⟩
  · rw [heq, List.pairwise_cons]
    refine ⟨fun x hx => ?_, h⟩
    cases rs with
    | nil => exact absurd hx List.not_mem_nil
    | cons r rs =>
      have hlt : b.stop < r.addr := Nat.lt_of_le_of_ne (hb r List.mem_cons_self) (hne r rfl)
      rcases List.mem_cons.1 hx with rfl | hx
      · exact hlt
      · have hrx : r.stop < x.addr := (List.pairwise_cons.1 h).1 x hx
        have hle := r.addr_le_stop
        unfold Gap
        omega
  · rw [heq, List.pairwise_cons]
    obtain ⟨hhead, htail⟩ := List.pairwise_cons.1 h
    refine ⟨fun x hx => ?_, htail⟩
    unfold Gap
    rw [stop_join hr]
    exact hhead x hx

theorem covers_absorb : Covers (absorb b rs) a ↔ b.Has a ∨ Covers rs a := by
  rcases absorb_cases b rs with ⟨heq, -⟩ | ⟨r, rs', rfl, hr, heq⟩
  · rw [heq, covers_cons]
  · rw [heq, covers_cons, covers_cons, ← or_assoc]
    refine or_congr_left ?_
    have hle := b.addr_le_stop
    have hle' := r.addr_le_stop
    unfold Has
    rw [stop_join hr]
    simp only
    omega

theorem total_absorb : total (absorb b rs) = b.size + total rs := by
  rcases absorb_cases b rs with ⟨heq, -⟩ | ⟨r, rs', rfl, -, heq⟩
  · rw [heq, total_cons]
  · rw [heq, total_cons, total_cons, Nat.add_assoc]

theorem absorb_cons (b : Block) (rs : List Block) :
    ∃ k rs', absorb b rs = { addr := b.addr, size := b.size + k } :: rs' ∧ ∀ r ∈ rs', r ∈ rs := by
  rcases absorb_cases b rs with ⟨heq, -⟩ | ⟨r, rs', rfl, -, heq⟩
  · exact ⟨0, rs, heq, fun r hr => hr⟩
  · exact ⟨r.size, rs', heq, fun x hx => List.mem_cons_of_mem r hx⟩

theorem absorb_sized (hb : 0 < b.size) (h : ∀ r ∈ rs, 0 < r.size) : ∀ x ∈ absorb b rs, 0 < x.size := by
  obtain ⟨k, rs', heq, hsub⟩ := absorb_cons b rs
  intro x hx
  rw [heq] at hx
  rcases List.mem_cons.1 hx with rfl | hx
  · exact Nat.add_pos_left hb k
  · exact h x (hsub x hx)

theorem exists_absorb_ge (hx : x ∈ rs) : ∃ y ∈ absorb b rs, x.size ≤ y.size := by
  rcases absorb_cases b rs with ⟨heq, -⟩ | ⟨r, rs', rfl, -, heq⟩
  · exact ⟨x, heq ▸ List.mem_cons_of_mem b hx, Nat.le_refl _⟩
  · rcases List.mem_cons.1 hx with rfl | hx
    · exact ⟨_, heq ▸ List.mem_cons_self, Nat.le_add_left _ _⟩
    · exact ⟨x, heq ▸ List.mem_cons_of_mem _ hx, Nat.le_refl _⟩

end Absorb

/-- A sorted list has a place for a block that no other overlaps. -/
theorem exists_place (h : (x :: l).Pairwise Gap)
    (hx : x.stop ≤ b.addr) (hl : ∀ y ∈ l, y.stop ≤ b.addr ∨ b.stop ≤ y.addr) :
    ∃ before p behind, x :: l = before ++ p :: behind ∧ p.stop ≤ b.addr ∧
      ∀ r ∈ behind, b.stop ≤ r.addr := by
  induction l generalizing x with
  | nil => exact ⟨[], x, [], rfl, hx, nofun⟩
  | cons y l ih =>
    obtain ⟨hhead, htail⟩ := List.pairwise_cons.1 h
    rcases hl y List.mem_cons_self with hy | hy
    · obtain ⟨before, p, behind, heq, hp, hbehind⟩ :=
        ih htail hy fun z hz => hl z (List.mem_cons_of_mem y hz)
      exact ⟨x :: before, p, behind, by rw [heq, List.cons_append], hp, hbehind⟩
    · refine ⟨[], x, y :: l, rfl, hx, fun r hr => ?_⟩
      rcases List.mem_cons.1 hr with rfl | hr
      · exact hy
      · have hgap : y.stop < r.addr := (List.pairwise_cons.1 htail).1 r hr
        have hle := y.addr_le_stop
        omega

end Xv6.Umalloc
