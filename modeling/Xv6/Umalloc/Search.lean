import Xv6.Umalloc.Heap

/-!
# `malloc`

The search for a block goes once round the free list, and once more after `morecore`.
-/

namespace Xv6.Umalloc

open Lib Lib.Cmd Block

section Take

variable {limit base units : Nat} {s : State} {before behind live : List Block} {p y : Block}

def Given (limit base units : Nat) (live : List Block) (ap : Nat) (t : State) : Prop :=
  ∃ ring b, Heap limit base t ring (b :: live) ∧ b.size = units ∧ ap = b.addr + unit

theorem Heap.around (h : Heap limit base s (before ++ p :: y :: behind) live) :
    p.addr < y.addr ∧ (∀ x ∈ before, x.addr < p.addr) ∧ ∀ x ∈ behind, y.stop < x.addr := by
  obtain ⟨-, hback, hacross⟩ := List.pairwise_append.1 h.ordered.sorted
  obtain ⟨hp, hrest⟩ := List.pairwise_cons.1 hback
  refine ⟨Gap.lt (hp y List.mem_cons_self), fun x hx => ?_, fun x hx => ?_⟩
  · exact Gap.lt (hacross x hx p List.mem_cons_self)
  · exact (List.pairwise_cons.1 hrest).1 x hx

theorem take_all (h : Heap limit base s (before ++ p :: y :: behind) live) (hunits : 0 < units)
    (hfit : y.size = units) :
    wp (take units p.addr y.addr (s.mem y.addr)) (Given limit base units live) (fun _ => False) s := by
  obtain ⟨hpy, hfront, hback⟩ := h.around
  obtain ⟨hbefore, hrest⟩ := linked_append.1 h.linked
  obtain ⟨hp, hrest⟩ := linked_cons.1 hrest
  obtain ⟨hy, hbehind⟩ := linked_cons.1 hrest
  have hlinked : Linked base
      (upd s.mem p.addr { ptr := firstKey Block.addr behind base, size := p.size })
      (before ++ p :: ([] ++ behind)) := by
    rw [List.nil_append, linked_append, linked_cons]
    refine ⟨hbefore.congr fun x hx => ?_, upd_self _ _ _, hbehind.congr fun x hx => ?_⟩
    · exact upd_of_ne _ _ _ (Nat.ne_of_lt (hfront x hx))
    · have hlt := hback x hx
      have hle := y.addr_le_stop
      exact upd_of_ne _ _ _ (by omega)
  have hheap := h.carve (b := y) hlinked .nil nofun (by omega)
    (by rw [upd_of_ne _ _ _ (Nat.ne_of_gt hpy), hy])
    (fun z hz => upd_of_ne _ _ _ (h.addr_ne hz (by simp))) (by simp [Covers]) (by simp [Covers])
    (by rw [total_nil, Nat.zero_add])
  rw [take, hy, if_pos hfit, wp_bind, wp_load, wp_bind, wp_store, wp_bind, wp_setFreep, hp]
  exact ⟨_, y, hheap, hfit, rfl⟩

theorem take_tail (h : Heap limit base s (before ++ p :: y :: behind) live) (hunits : 0 < units)
    (hfit : units < y.size) :
    wp (take units p.addr y.addr (s.mem y.addr)) (Given limit base units live) (fun _ => False) s := by
  obtain ⟨hpy, hfront, hback⟩ := h.around
  obtain ⟨hbefore, hrest⟩ := linked_append.1 h.linked
  obtain ⟨hp, hrest⟩ := linked_cons.1 hrest
  obtain ⟨hy, hbehind⟩ := linked_cons.1 hrest
  let rest : Block := { addr := y.addr, size := y.size - units }
  let new : Block := { addr := y.addr + unit * (y.size - units), size := units }
  have hstop : rest.stop = new.addr := rfl
  have hstop' : new.stop = y.stop := by
    change y.addr + 16 * (y.size - units) + 16 * units = y.addr + 16 * y.size
    omega
  have hlt : y.addr < new.addr ∧ new.addr < y.stop := by
    change y.addr < y.addr + 16 * (y.size - units) ∧
      y.addr + 16 * (y.size - units) < y.addr + 16 * y.size
    omega
  let mem₁ := upd s.mem y.addr { ptr := firstKey Block.addr behind base, size := y.size - units }
  let mem₂ := upd mem₁ new.addr { ptr := (mem₁ new.addr).ptr, size := units }
  have hother : ∀ a, a ≠ y.addr → a ≠ new.addr → mem₂ a = s.mem a := by
    intro a hay han
    exact (upd_of_ne _ _ _ han).trans (upd_of_ne _ _ _ hay)
  have hlinked : Linked base mem₂ (before ++ p :: ([rest] ++ behind)) := by
    rw [List.singleton_append, linked_append, linked_cons, linked_cons]
    refine ⟨hbefore.congr fun x hx => ?_, ?_, ?_, hbehind.congr fun x hx => ?_⟩
    · have hx := hfront x hx
      exact hother _ (by omega) (by omega)
    · rw [hother _ (by omega) (by omega), hp]
      rfl
    · exact (upd_of_ne _ _ _ (Nat.ne_of_lt hlt.1)).trans (upd_self _ _ _)
    · have hx := hback x hx
      exact hother _ (by omega) (by omega)
  have hsame : ∀ z ∈ live, mem₂ z.addr = s.mem z.addr := by
    intro z hz
    refine hother _ (h.addr_ne hz (by simp)) fun heq => ?_
    refine h.disjoint z hz z.addr (has_addr (h.sized z hz)) ⟨y, by simp, ?_⟩
    rw [heq]
    exact ⟨by omega, by omega⟩
  have hle := rest.addr_le_stop
  have hle' := new.addr_le_stop
  have hin : ∀ m ∈ [rest], y.addr ≤ m.addr ∧ m.stop ≤ y.stop ∧ 0 < m.size := by
    intro m hm
    obtain rfl := List.mem_singleton.1 hm
    refine ⟨Nat.le_refl _, by omega, ?_⟩
    change 0 < y.size - units
    omega
  have hparts : ∀ a, y.Has a ↔ Covers [rest] a ∨ new.Has a := by
    intro a
    simp only [Covers, List.mem_singleton, exists_eq_left, Has]
    change y.addr ≤ a ∧ _ ↔ y.addr ≤ a ∧ _ ∨ _
    omega
  have hapart : ∀ a, new.Has a → ¬Covers [rest] a := by
    intro a
    simp only [Covers, List.mem_singleton, exists_eq_left, Has]
    omega
  have htotal : total [rest] + new.size = y.size := by
    change y.size - units + 0 + units = y.size
    omega
  have hheap := h.carve hlinked (List.pairwise_singleton _ _) hin hunits
    (congrArg Header.size (upd_self _ _ _)) hsame hparts hapart htotal
  rw [take, hy, if_neg (by simp only; omega), wp_bind, wp_store, wp_bind, wp_load, wp_bind, wp_store,
    wp_bind, wp_setFreep]
  exact ⟨_, new, hheap, rfl, rfl⟩

theorem take_spec (h : Heap limit base s (before ++ p :: y :: behind) live) (hunits : 0 < units)
    (hfit : units ≤ y.size) :
    wp (take units p.addr y.addr (s.mem y.addr)) (Given limit base units live) (fun _ => False) s := by
  rcases Nat.lt_or_eq_of_le hfit with hlt | heq
  · exact take_tail h hunits hlt
  · exact take_all h hunits heq.symm

end Take

section Search

variable {limit base m units n : Nat} {s : State} {ring : List Block} {Q : Nat → State → Prop}
  {E : Fail → Prop}

def Takes (units : Nat) (ring : List Block) (s : State) (Q : Nat → State → Prop)
    (E : Fail → Prop) : Prop :=
  ∀ before x y behind, ring = before ++ x :: y :: behind → units ≤ y.size →
    wp (take units x.addr y.addr (s.mem y.addr)) Q E s

theorem search_segment (before between behind : List Block) (p : Block)
    (hl : Linked base s.mem ring) (hring : ring = before ++ p :: (between ++ behind))
    (hfreep : ∀ y ∈ between, y.addr ≠ s.freep) (htake : Takes units ring s Q E)
    (hcont : (∀ y ∈ between, y.size < units) → ∀ before x, ring = before ++ x :: behind →
      wp (search limit m units n x.addr (firstKey Block.addr behind base)) Q E s) :
    wp (search limit m units (n + between.length) p.addr
      (firstKey Block.addr (between ++ behind) base)) Q E s := by
  induction between generalizing before p with
  | nil => exact hcont nofun before p hring
  | cons y between ih =>
    have hsplit : ring = (before ++ [p]) ++ y :: (between ++ behind) := by
      rw [hring]
      simp
    have hnext := Linked.next (hsplit ▸ hl)
    have hsize := hl.sizes y (hsplit ▸ by simp)
    rw [List.length_cons, ← Nat.add_assoc, search, wp_bind, wp_load, List.cons_append, firstKey_cons,
      hsize]
    by_cases hfit : units ≤ y.size
    · rw [if_pos hfit]
      exact htake before p y (between ++ behind) hring hfit
    · rw [if_neg hfit, wp_bind, wp_get, if_neg (hfreep y List.mem_cons_self), hnext]
      apply ih (before ++ [p]) y hsplit
      · intro z hz
        exact hfreep z (List.mem_cons_of_mem y hz)
      · intro hsmall
        apply hcont
        intro z hz
        rcases List.mem_cons.1 hz with rfl | hz
        · omega
        · exact hsmall z hz

def again (limit m units n : Nat) : Cmd Nat := do
  match ← morecore limit m units with
  | none => return 0
  | some p =>
    let h ← load p
    search limit m units n p h.ptr

theorem search_again {prevp : Nat} (hsize : (s.mem s.freep).size < units)
    (h : wp (again limit m units n) Q E s) :
    wp (search limit m units (n + 1) prevp s.freep) Q E s := by
  rw [search, wp_bind, wp_load, if_neg (Nat.not_le.2 hsize), wp_bind, wp_get, if_pos rfl]
  exact h

theorem search_skip {prevp p : Nat} (hsize : (s.mem p).size < units) (hp : p ≠ s.freep)
    (h : wp (search limit m units n p (s.mem p).ptr) Q E s) :
    wp (search limit m units (n + 1) prevp p) Q E s := by
  rw [search, wp_bind, wp_load, if_neg (Nat.not_le.2 hsize), wp_bind, wp_get, if_neg hp]
  exact h

/-- The search once round the list: the nodes behind `freep`, then `base` and the nodes up to
`freep`. -/
theorem search_round (limit m n : Nat) (hl : Linked base s.mem ring) (ho : Ordered base ring)
    (hstart : ∃ x ∈ ring, s.freep = x.addr) (hunits : 0 < units) (htake : Takes units ring s Q E)
    (hagain : (∀ y ∈ ring, y.size < units) → wp (again limit m units n) Q E s) :
    wp (search limit m units (n + ring.length) s.freep (s.mem s.freep).ptr) Q E s := by
  obtain ⟨f, hf, hfreep⟩ := hstart
  obtain ⟨front, back, hring⟩ := List.append_of_mem hf
  obtain ⟨bs, hbs, -⟩ := ho.head
  have hbase : (s.mem base).size = 0 := hl.sizes { addr := base, size := 0 } (hbs ▸ by simp)
  have hnext := Linked.next (hring ▸ hl)
  obtain ⟨-, hsorted, hacross⟩ := List.pairwise_append.1 (hring ▸ ho).sorted
  have hback : ∀ y ∈ back, y.addr ≠ s.freep := by
    intro y hy
    have hlt := Gap.lt ((List.pairwise_cons.1 hsorted).1 y hy)
    omega
  rw [hfreep, hnext, ← List.append_nil back]
  cases front with
  | nil =>
    rw [List.nil_append] at hring
    have heq : f = { addr := base, size := 0 } := by
      rw [hring, List.cons.injEq] at hbs
      exact hbs.1
    have hlen : n + ring.length = n + 1 + back.length := by
      rw [hring, List.length_cons]
      omega
    rw [hlen]
    apply search_segment [] back [] f hl (by simpa using hring) hback htake
    intro hsmall _ x _
    have hf : s.freep = base := by rw [hfreep, heq]
    rw [firstKey_nil, ← hf]
    apply search_again (by rw [hf]; omega)
    apply hagain
    intro y hy
    rw [hring] at hy
    rcases List.mem_cons.1 hy with rfl | hy
    · rw [heq]
      exact hunits
    · exact hsmall y hy
  | cons z front =>
    have heq : z = { addr := base, size := 0 } := by
      rw [hring, List.cons_append, List.cons.injEq] at hbs
      exact hbs.1
    have hfront : ∀ y ∈ z :: front, y.addr ≠ s.freep := by
      intro y hy
      have hlt := Gap.lt (hacross y hy f List.mem_cons_self)
      omega
    have hlen : n + ring.length = n + 1 + front.length + 1 + back.length := by
      rw [hring, List.length_append, List.length_cons, List.length_cons]
      omega
    rw [hlen]
    apply search_segment (z :: front) back [] f hl (by simpa using hring) hback htake
    intro hsmall _ x _
    have hz : base = z.addr := by rw [heq]
    have hcons : ring = z :: (front ++ f :: back) := hring
    have hznext : (s.mem z.addr).ptr = firstKey Block.addr (front ++ f :: back) base :=
      congrArg Header.ptr (linked_cons.1 (hcons ▸ hl)).1
    rw [firstKey_nil]
    apply search_skip (by omega)
    · rw [hz]
      exact hfront z List.mem_cons_self
    rw [hz, hznext]
    apply search_segment [] front (f :: back) z hl hring
      (fun y hy => hfront y (List.mem_cons_of_mem z hy)) htake
    intro hsmall' before x hx
    by_cases hfit : units ≤ f.size
    · rw [search, wp_bind, wp_load, firstKey_cons, hl.sizes f (hring ▸ by simp), if_pos hfit]
      exact htake before x f back hx hfit
    · rw [firstKey_cons, ← hfreep]
      apply search_again
      · rw [hfreep, hl.sizes f (hring ▸ by simp)]
        omega
      apply hagain
      intro y hy
      rw [hring, List.mem_append, List.mem_cons, List.mem_cons] at hy
      rcases hy with (rfl | hy) | rfl | hy
      · rw [heq]
        exact hunits
      · exact hsmall' y hy
      · omega
      · exact hsmall y hy

end Search

section Malloc

variable {limit base n : Nat} {s : State} {ring live : List Block} {nbytes : UInt32}

/-- `malloc` returned no block, or one for the request. -/
def Served (limit base units : Nat) (live : List Block) (ap : Nat) (t : State) : Prop :=
  ap = 0 ∧ (∃ ring, Heap limit base t ring live) ∨ Given limit base units live ap t

theorem search_spec {units : Nat} (h : Heap limit base s ring live) (hlimit : limit < 2 ^ 32)
    (hpos : 0 < units) (hunits : units * unit < 2 ^ 31) (hn : 2 * limit + 2 ≤ n) :
    wp (search limit n units n s.freep (s.mem s.freep).ptr) (Served limit base units live)
      (fun _ => False) s := by
  have htake : ∀ {t ring}, Heap limit base t ring live →
      Takes units ring t (Served limit base units live) fun _ => False := by
    intro t ring h before x y behind hring hfit
    exact (take_spec (hring ▸ h) hpos hfit).imp fun _ _ hgiven => .inr hgiven
  have hlen := h.length_le
  obtain ⟨k, hk⟩ : ∃ k, n = k + ring.length := ⟨n - ring.length, by omega⟩
  have hround := search_round limit n k h.linked h.ordered h.start hpos (htake h)
  rw [← hk] at hround
  apply hround
  intro hsmall
  rw [again, wp_bind]
  apply (h.morecore hlimit (by omega) hunits).imp
  intro r t hr
  cases r with
  | none => exact .inl ⟨rfl, ring, hr⟩
  | some p =>
    obtain ⟨rfl, ring', h', x, hx, hfit⟩ := hr
    have hlen' := h'.length_le
    obtain ⟨j, rfl⟩ : ∃ j, k = j + ring'.length := ⟨k - ring'.length, by omega⟩
    apply search_round limit n j h'.linked h'.ordered h'.start hpos (htake h')
    intro hsmall'
    have hlt := hsmall' x hx
    omega

def Inv (limit base : Nat) (w : World) : Prop :=
  w.heap.freep = 0 ∧ w.live = [] ∧ w.heap.obtained = 0 ∧ base + 16 ≤ w.heap.top ∨
    ∃ ring, Heap limit base w.heap ring w.live

theorem Heap.init (hobtained : s.obtained = 0) (htop : base + 16 ≤ s.top) :
    Heap limit base { s with mem := upd s.mem base { ptr := base, size := 0 }, freep := base }
      [{ addr := base, size := 0 }] [] := by
  have hnone : ∀ a, ¬Covers [{ addr := base, size := 0 }] a := by
    rintro a ⟨b, hb, hle, hlt⟩
    obtain rfl := List.mem_singleton.1 hb
    change a < base + 16 * 0 at hlt
    change base ≤ a at hle
    omega
  exact {
    linked := linked_cons.2 ⟨upd_self _ _ _, ⟨trivial, nofun⟩⟩
    ordered := ⟨⟨[], rfl, nofun⟩, List.pairwise_singleton _ _⟩
    start := ⟨_, List.mem_singleton_self _, rfl⟩
    kept := nofun
    sized := nofun
    apart := .nil
    disjoint := nofun
    bounds := by
      rintro a (ha | ⟨b, hb, -⟩)
      · exact absurd ha (hnone a)
      · exact absurd hb List.not_mem_nil
    above := htop
    units := hobtained.symm
    limited := by
      change s.obtained ≤ limit
      rw [hobtained]
      exact Nat.zero_le _ }

theorem malloc_spec (hbase : 0 < base) (hlimit : limit < 2 ^ 32)
    (hunits : nunits nbytes * unit < 2 ^ 31) (hn : 2 * limit + 2 ≤ n)
    (h : Inv limit base { heap := s, live := live }) :
    wp (malloc limit base n nbytes) (Served limit base (nunits nbytes) live) (fun _ => False) s := by
  have hpos : 0 < nunits nbytes := Nat.succ_pos _
  rw [malloc, wp_bind, wp_get]
  rcases h with ⟨hfreep, hlive, hobtained, htop⟩ | ⟨ring, h⟩
  · have hnew : Heap limit base _ _ _ := .init hobtained htop
    have hsearch := search_spec hnew hlimit hpos hunits hn
    simp only [show s.freep = 0 from hfreep, if_true]
    obtain rfl : live = [] := hlive
    exact hsearch
  · have hfreep : s.freep ≠ 0 := by
      obtain ⟨x, hx, heq⟩ := h.start
      have hle := h.ordered.base_le x hx
      change s.freep = x.addr at heq
      omega
    have hsearch := search_spec h hlimit hpos hunits hn
    simp only [hfreep, if_false]
    exact hsearch

end Malloc

end Xv6.Umalloc
