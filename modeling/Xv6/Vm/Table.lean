import Xv6.Lib.Radix
import Xv6.Vm.Pte

/-!
# Page tables as radix trees

The page table in a memory is a radix tree of three levels.  `walk` without `alloc` finds the
node of a page, and with `alloc` it adds nodes from the free list.
-/

namespace Xv6.Vm

open Lib Lib.Cmd

def tree (mem : Nat → Bytes) : Radix Nat Nat where
  kid p i := if Valid (pte mem p i) then some (PTE2PA (pte mem p i)) else none
  slot p i := if Valid (pte mem p i) then some (pte mem p i) else none

abbrev pages (mem : Nat → Bytes) (n p : Nat) : List Nat := (tree mem).nodes 512 n p

def Shape (mem : Nat → Bytes) : Nat → Nat → Prop
  | 0, p => ∀ i, i < 512 → pte mem p i = 0 ∨ Leaf (pte mem p i)
  | _ + 1, p => ∀ i, i < 512 → pte mem p i = 0 ∨ ∃ c, c % 4096 = 0 ∧ c < 2 ^ 64 ∧ pte mem p i = link c

structure Page (kend p : Nat) : Prop where
  aligned : p % 4096 = 0
  above : kend ≤ p
  below : p < PHYSTOP

theorem Page.lt {kend p : Nat} (h : Page kend p) : p < 2 ^ 64 := Nat.lt_trans h.below (by decide)

structure Table (kend : Nat) (s : State) (n p : Nat) : Prop where
  shape : (tree s.mem).All 512 (Shape s.mem) n p
  nodup : (pages s.mem n p ++ s.freelist).Nodup
  pages : ∀ q ∈ pages s.mem n p ++ s.freelist, Page kend q

section Mem

variable {mem mem' : Nat → Bytes} {p q i j v n : Nat}

theorem pte_congr (h : mem' q = mem q) : pte mem' q i = pte mem q i := by
  rw [pte, pte, h]

theorem tree_same (h : mem' q = mem q) : Radix.Same (tree mem) (tree mem') q := by
  constructor <;> funext i <;> simp only [tree, pte_congr h]

theorem Shape.congr {k : Nat} (h : Shape mem k q) (hq : mem' q = mem q) : Shape mem' k q := by
  cases k with
  | zero =>
    intro i hi
    rw [pte_congr hq]
    exact h i hi
  | succ k =>
    intro i hi
    rw [pte_congr hq]
    exact h i hi

theorem pte_setPte (hv : v < 256 ^ 8) :
    pte (upd mem p (setWord (mem p) (8 * i) 8 v)) p j = if j = i then v else pte mem p j := by
  unfold pte
  rw [upd_self]
  by_cases hij : j = i
  · rw [if_pos hij, hij, word_setWord_of_lt hv]
  · rw [if_neg hij, word_setWord_outside (by omega)]

theorem pte_fill_zero : pte (upd mem p fun _ => 0) p i = 0 := by
  rw [pte, upd_self, word_zero]

theorem kid_of_valid (h : Valid (pte mem p i)) : (tree mem).kid p i = some (PTE2PA (pte mem p i)) :=
  if_pos h

theorem kid_of_not_valid (h : ¬Valid (pte mem p i)) : (tree mem).kid p i = none := if_neg h

theorem kid_link {c : Nat} (hc : c % 4096 = 0) (hlt : c < 2 ^ 64) (h : pte mem p i = link c) :
    (tree mem).kid p i = some c := by
  obtain ⟨hvalid, -, hpa, -⟩ := link_spec hc hlt
  rw [kid_of_valid (h ▸ hvalid), h, hpa]

end Mem

variable {mem : Nat → Bytes} {Q : PUnit → State → Prop}

section Empty

variable {kend n p : Nat} {s : State}

theorem pte_zero (h : mem p = fun _ => 0) (i : Nat) : pte mem p i = 0 := by
  rw [pte, h, word_zero]

theorem tree_zero (h : mem p = fun _ => 0) (i : Nat) :
    (tree mem).kid p i = none ∧ (tree mem).slot p i = none := by
  simp only [tree, pte_zero h, not_valid_zero, if_false, and_self]

theorem pages_zero (h : mem p = fun _ => 0) : pages mem n p = [p] :=
  Radix.nodes_empty fun i => (tree_zero h i).1

theorem Table.empty (h : s.mem p = fun _ => 0) (hnodup : (p :: s.freelist).Nodup)
    (hpages : ∀ q ∈ p :: s.freelist, Page kend q) : Table kend s n p where
  shape := by
    cases n with
    | zero => exact fun i _ => .inl (pte_zero h i)
    | succ n =>
      refine ⟨fun i _ => .inl (pte_zero h i), fun i _ c hc => ?_⟩
      rw [(tree_zero h i).1] at hc
      cases hc
  nodup := by
    rw [pages_zero h]
    exact hnodup
  pages := by
    rw [pages_zero h]
    exact hpages

end Empty

section Rules

variable {s : State} {p i v : Nat} {c : UInt8} {E : Fail → Prop}

@[simp] theorem wp_setPte : wp (setPte p i v) Q E s ↔
    Q ⟨⟩ { s with mem := upd s.mem p (setWord (s.mem p) (8 * i) 8 v) } := Iff.rfl

@[simp] theorem wp_memset : wp (memset p c) Q E s ↔
    Q ⟨⟩ { s with mem := upd s.mem p fun _ => c } := Iff.rfl

theorem wp_kalloc {Q : Option Nat → State → Prop} (hnone : s.freelist = [] → Q none s)
    (hsome : ∀ r next, s.freelist = r :: next →
      Q (some r) { mem := upd s.mem r fun _ => 5, freelist := next }) : wp kalloc Q E s := by
  rw [kalloc, wp_bind, wp_get]
  cases hf : s.freelist with
  | nil => exact hnone hf
  | cons r next => exact hsome r next hf

theorem wp_kfree {kend : Nat} (h : Page kend p)
    (hQ : Q ⟨⟩ { mem := upd s.mem p fun _ => 1, freelist := p :: s.freelist }) :
    wp (kfree kend p) Q E s := by
  rw [kfree, if_neg]
  · exact hQ
  · have haligned := h.aligned
    have habove := h.above
    have hbelow := h.below
    change ¬(p % 4096 ≠ 0 ∨ p < kend ∨ 2281701376 ≤ p)
    change p < 2281701376 at hbelow
    omega

end Rules

abbrev digits (va : Nat) : Nat → Nat := fun level => PX level va

theorem digits_lt (va : Nat) : ∀ level, digits va level < 512 := fun level => PX_lt level va

theorem walkLoop_read (s : State) (va n p : Nat) :
    walkLoop va false n p s =
      .ok (((tree s.mem).last (digits va) n p).map fun page => (page, PX 0 va), s) := by
  induction n generalizing p with
  | zero => rfl
  | succ n ih =>
    rw [walkLoop, bind_ok (c := get) (a := s) (t := s) rfl]
    change (if Valid (pte s.mem p (PX (n + 1) va)) then
      walkLoop va false n (PTE2PA (pte s.mem p (PX (n + 1) va))) else _) s = _
    unfold Radix.last
    by_cases hv : Valid (pte s.mem p (PX (n + 1) va))
    · rw [if_pos hv, kid_of_valid hv]
      exact ih _
    · rw [if_neg hv, kid_of_not_valid hv]
      rfl

structure Walked (s t : State) (n p : Nat) : Prop where
  grown : Radix.Grown (tree s.mem) (tree t.mem) 512 n p s.freelist t.freelist
  mem : ∀ q, q ∉ pages s.mem n p ++ s.freelist → t.mem q = s.mem q
  shape : (tree t.mem).All 512 (Shape t.mem) n p

section Walk

variable {kend va n p c i : Nat} {s t u : State}

theorem Walked.refl (h : Table kend s n p) : Walked s s n p := ⟨.refl, fun _ _ => rfl, h.shape⟩

theorem Walked.trans (h : Walked s t n p) (h' : Walked t u n p) : Walked s u n p where
  grown := h.grown.trans h'.grown
  mem := by
    intro q hq
    have hq' : q ∉ Vm.pages t.mem n p ++ t.freelist := fun hmem => hq (h.grown.perm.mem_iff.1 hmem)
    rw [h'.mem q hq', h.mem q hq]
  shape := h'.shape

theorem Walked.table (h : Walked s t n p) (ht : Table kend s n p) : Table kend t n p where
  shape := h.shape
  nodup := h.grown.nodup ht.nodup
  pages := fun q hq => ht.pages q (h.grown.perm.mem_iff.1 hq)

theorem Table.root_ne {r : Nat} {next : List Nat} (h : Table kend s n p)
    (hfree : s.freelist = r :: next) : p ≠ r := by
  have hnodup := h.nodup
  rw [hfree] at hnodup
  exact (List.nodup_append.1 hnodup).2.2 p Radix.self_mem_nodes r List.mem_cons_self

theorem Table.kid (h : Table kend s (n + 1) p) (hi : i < 512) (hk : (tree s.mem).kid p i = some c) :
    Table kend s n c := by
  obtain ⟨-, -, hnodup, -⟩ := Radix.nodup_split hi h.nodup
  rw [Radix.sub_of_kid hk] at hnodup
  refine ⟨h.shape.2 i hi c hk, hnodup, fun q hq => h.pages q ?_⟩
  rcases List.mem_append.1 hq with hq | hq
  · exact List.mem_append_left _ (Radix.mem_nodes_of_kid hi hk hq)
  · exact List.mem_append_right _ hq

theorem Walked.lift (h : Walked s t n c) (ht : Table kend s (n + 1) p) (hi : i < 512)
    (hk : (tree s.mem).kid p i = some c) : Walked s t (n + 1) p where
  grown := h.grown.lift hi hk ht.nodup
  mem := by
    intro q hq
    apply h.mem q
    intro hmem
    apply hq
    rcases List.mem_append.1 hmem with hmem | hmem
    · exact List.mem_append_left _ (Radix.mem_nodes_of_kid hi hk hmem)
    · exact List.mem_append_right _ hmem
  shape := h.grown.all_lift hi hk ht.nodup ht.shape h.shape fun q hq k hshape =>
    hshape.congr (h.mem q hq)

/-- The root of a table does not change when something under it does. -/
theorem Walked.root (h : Walked s t n c) (ht : Table kend s (n + 1) p) (hi : i < 512)
    (hk : (tree s.mem).kid p i = some c) : t.mem p = s.mem p := by
  obtain ⟨hp, -, -, -⟩ := Radix.nodup_split hi ht.nodup
  rw [Radix.sub_of_kid hk] at hp
  exact h.mem p hp

/-- The memory with a new, empty page under entry `i`. -/
def installed (mem : Nat → Bytes) (p i page : Nat) : Nat → Bytes :=
  let mem := upd (upd mem page fun _ => 5) page fun _ => 0
  upd mem p (setWord (mem p) (8 * i) 8 (link page))

section Installed

variable {r : Nat}

theorem installed_other {q : Nat} (hp : q ≠ p) (hr : q ≠ r) : installed mem p i r q = mem q := by
  unfold installed
  rw [upd_of_ne _ _ _ hp, upd_of_ne _ _ _ hr, upd_of_ne _ _ _ hr]

theorem pte_installed_root (mem : Nat → Bytes) (i : Nat) (hpr : p ≠ r) (hr : r < 2 ^ 64) (j : Nat) :
    pte (installed mem p i r) p j = if j = i then link r else pte mem p j := by
  have hlt : link r < 256 ^ 8 := pte_lt hr (by decide)
  unfold installed
  rw [pte_setPte hlt]
  have hsame : upd (upd mem r fun _ => 5) r (fun _ => 0) p = mem p := by
    rw [upd_of_ne _ _ _ hpr, upd_of_ne _ _ _ hpr]
  rw [pte_congr hsame]

theorem pte_installed_new (mem : Nat → Bytes) (i : Nat) (hpr : p ≠ r) (j : Nat) : pte (installed mem p i r) r j = 0 := by
  unfold installed
  rw [pte_congr (upd_of_ne _ _ _ (Ne.symm hpr))]
  exact pte_fill_zero

end Installed

theorem install_walked {r : Nat} {next : List Nat} (ht : Table kend s (n + 1) p) (hi : i < 512)
    (hzero : pte s.mem p i = 0) (hfree : s.freelist = r :: next) :
    Walked s { mem := installed s.mem p i r, freelist := next } (n + 1) p := by
  have hnodup := ht.nodup
  rw [hfree] at hnodup
  have hr : Page kend r := ht.pages r (by simp [hfree])
  have hpr := ht.root_ne hfree
  have hroot := pte_installed_root s.mem i hpr hr.lt
  have hnew := pte_installed_new s.mem i hpr
  have hinstall : Radix.Install (tree s.mem) (tree (installed s.mem p i r)) i p r := by
    constructor
    · apply kid_of_not_valid
      rw [hzero]
      exact not_valid_zero
    · exact kid_link hr.aligned hr.lt (by rw [hroot, if_pos rfl])
    · intro j hj
      simp only [tree, hroot, if_neg hj]
    · intro j
      simp only [tree, hnew, not_valid_zero, if_false, and_self]
    · intro q hqp hqr
      exact tree_same (installed_other hqp hqr)
  refine ⟨hfree ▸ hinstall.grown hi hnodup, fun q hq => ?_, ?_⟩
  · rw [hfree, List.mem_append, List.mem_cons, not_or, not_or] at hq
    refine installed_other ?_ hq.2.1
    rintro rfl
    exact hq.1 Radix.self_mem_nodes
  · apply hinstall.all hnodup ht.shape
    · intro hshape j hj
      rw [hroot]
      by_cases hji : j = i
      · rw [if_pos hji]
        exact .inr ⟨r, hr.aligned, hr.lt, rfl⟩
      · rw [if_neg hji]
        exact hshape j hj
    · intro k
      cases k with
      | zero => exact fun j _ => .inl (hnew j)
      | succ k => exact fun j _ => .inl (hnew j)
    · intro q hqp hqr k hshape
      exact hshape.congr (installed_other hqp hqr)

def Found (va : Nat) (t : State) (n p : Nat) (r : Option (Nat × Nat)) : Prop :=
  ∀ page i, r = some (page, i) → i = PX 0 va ∧ (tree t.mem).last (digits va) n p = some page

theorem Found.lift {r : Option (Nat × Nat)} (h : Found va t n c r)
    (hk : (tree t.mem).kid p (PX (n + 1) va) = some c) : Found va t (n + 1) p r := by
  intro page j hr
  refine ⟨(h page j hr).1, ?_⟩
  rw [Radix.last, show (tree t.mem).kid p (digits va (n + 1)) = some c from hk]
  exact (h page j hr).2

theorem walkLoop_alloc (h : Table kend s n p) :
    wp (walkLoop va true n p) (fun r t => Walked s t n p ∧ Found va t n p r) (fun _ => False) s := by
  induction n generalizing s p with
  | zero =>
    refine ⟨.refl h, fun page j hr => ?_⟩
    obtain ⟨rfl, rfl⟩ := Prod.mk.inj (Option.some.inj hr)
    exact ⟨rfl, rfl⟩
  | succ n ih =>
    -- one level down, once there is a page under the entry
    have hdown : ∀ {s c}, Table kend s (n + 1) p → (tree s.mem).kid p (PX (n + 1) va) = some c →
        wp (walkLoop va true n c) (fun r t => Walked s t (n + 1) p ∧ Found va t (n + 1) p r)
          (fun _ => False) s := by
      intro s c h hk
      apply (ih (h.kid (PX_lt _ _) hk)).imp
      rintro r t ⟨hw, hfound⟩
      refine ⟨hw.lift h (PX_lt _ _) hk, hfound.lift ?_⟩
      have hroot := (tree_same (hw.root h (PX_lt _ _) hk)).1
      rw [hroot, hk]
    rw [walkLoop, wp_bind, wp_get]
    change wp (if Valid (pte s.mem p (PX (n + 1) va)) then
      walkLoop va true n (PTE2PA (pte s.mem p (PX (n + 1) va))) else _) _ _ _
    by_cases hv : Valid (pte s.mem p (PX (n + 1) va))
    · rw [if_pos hv]
      exact hdown h (kid_of_valid hv)
    · have hzero : pte s.mem p (PX (n + 1) va) = 0 := by
        rcases h.shape.1 _ (PX_lt _ _) with hzero | ⟨c, hc, hlt, hlink⟩
        · exact hzero
        · exact absurd (hlink ▸ (link_spec hc hlt).1) hv
      rw [if_neg hv, if_pos rfl, wp_bind]
      apply wp_kalloc
      · intro _
        exact ⟨.refl h, nofun⟩
      · intro r next hfree
        have hw := install_walked h (PX_lt (n + 1) va) hzero hfree
        have hr : Page kend r := h.pages r (by simp [hfree])
        have hpr := h.root_ne hfree
        have hk : (tree (installed s.mem p (PX (n + 1) va) r)).kid p (PX (n + 1) va) = some r := by
          apply kid_link hr.aligned hr.lt
          rw [pte_installed_root s.mem _ hpr hr.lt, if_pos rfl]
        change wp (memset r 0 >>= _) _ _ _
        rw [wp_bind, wp_memset, wp_bind, wp_setPte]
        apply (hdown (hw.table h) hk).imp
        rintro res t ⟨hw', hfound⟩
        exact ⟨hw.trans hw', hfound⟩

end Walk

end Xv6.Vm
