import Xv6.Umalloc.FreeList

/-!
# The heap

The free blocks and the blocks that the program has do not overlap, lie between `base`
and the end of what `sbrk` has given, and together have all the units of it.
-/

namespace Xv6.Umalloc

open Lib Lib.Cmd Block

structure Heap (limit base : Nat) (s : State) (ring live : List Block) : Prop where
  linked : Linked base s.mem ring
  ordered : Ordered base ring
  start : ∃ x ∈ ring, s.freep = x.addr
  kept : ∀ b ∈ live, (s.mem b.addr).size = b.size
  sized : ∀ b ∈ live, 0 < b.size
  apart : live.Pairwise Apart
  disjoint : ∀ b ∈ live, ∀ a, b.Has a → ¬Covers ring a
  bounds : ∀ a, Covers ring a ∨ Covers live a → base + 16 ≤ a ∧ a < s.top
  above : base + 16 ≤ s.top
  units : total ring + total live = s.obtained
  limited : s.obtained ≤ limit

section

variable {limit base : Nat} {s : State} {ring live live' : List Block} {b x y : Block}

theorem Ordered.sized (h : Ordered base ring) (hx : x ∈ ring) :
    x = { addr := base, size := 0 } ∨ 0 < x.size := by
  obtain ⟨bs, rfl, hpos⟩ := h.head
  rcases List.mem_cons.1 hx with rfl | hx
  · exact .inl rfl
  · exact .inr (hpos x hx)

theorem Covers.of_mem {l : List Block} (hx : x ∈ l) (hpos : 0 < x.size) : Covers l x.addr :=
  ⟨x, hx, has_addr hpos⟩

theorem sbrk_spec {nu : Nat} {Q : Option Nat → State → Prop} {E : Fail → Prop}
    (hnu : nu * unit < 2 ^ 31) (hfail : ∀ answers, Q none { s with sbrks := answers })
    (hok : ∀ gap answers, s.obtained + nu ≤ limit → Q (some (s.top + gap))
      { s with top := s.top + gap + nu * unit, sbrks := answers, obtained := s.obtained + nu }) :
    wp (sbrk limit nu) Q E s := by
  rw [sbrk, if_neg (Nat.not_le.2 hnu), wp_bind, wp_get]
  rcases hs : s.sbrks with _ | ⟨_ | gap, answers⟩
  · have hsame := hfail s.sbrks
    exact hsame
  · exact hfail answers
  · change wp (if s.obtained + nu ≤ limit then _ else _) Q E s
    rw [wp_ite]
    exact ⟨fun hroom => hok gap answers hroom, fun _ => hfail answers⟩

namespace Heap

theorem length_le (h : Heap limit base s ring live) : ring.length ≤ limit + 1 := by
  obtain ⟨bs, hring, hpos⟩ := h.ordered.head
  have hlen := length_le_total hpos
  have hunits := h.units
  have hlimited := h.limited
  rw [hring, total_cons] at hunits
  rw [hring, List.length_cons]
  omega

theorem live_above (h : Heap limit base s ring live) (hb : b ∈ live) : base + 16 ≤ b.addr :=
  (h.bounds _ (.inr (.of_mem hb (h.sized b hb)))).1

theorem live_lt_top (h : Heap limit base s ring live) (hb : b ∈ live) : b.addr < s.top :=
  (h.bounds _ (.inr (.of_mem hb (h.sized b hb)))).2

theorem ring_lt_top (h : Heap limit base s ring live) (hx : x ∈ ring) : x.addr < s.top := by
  rcases h.ordered.sized hx with rfl | hpos
  · have habove := h.above
    simp only
    omega
  · exact (h.bounds _ (.inl (.of_mem hx hpos))).2

/-- A header of the free list is not in a block of the program. -/
theorem ring_not_has (h : Heap limit base s ring live) (hb : b ∈ live) (hx : x ∈ ring) :
    ¬b.Has x.addr := by
  intro hhas
  rcases h.ordered.sized hx with rfl | hpos
  · have habove := h.live_above hb
    have hle := hhas.1
    simp only at hle
    omega
  · exact h.disjoint b hb _ hhas (.of_mem hx hpos)

theorem addr_ne (h : Heap limit base s ring live) (hb : b ∈ live) (hx : x ∈ ring) :
    b.addr ≠ x.addr := by
  intro heq
  apply h.ring_not_has hb hx
  rw [← heq]
  exact has_addr (h.sized b hb)

theorem perm (h : Heap limit base s ring live) (hp : live.Perm live') :
    Heap limit base s ring live' where
  linked := h.linked
  ordered := h.ordered
  start := h.start
  kept := fun b hb => h.kept b (hp.mem_iff.2 hb)
  sized := fun b hb => h.sized b (hp.mem_iff.2 hb)
  apart := (hp.pairwise_iff fun hxy => hxy.symm).1 h.apart
  disjoint := fun b hb => h.disjoint b (hp.mem_iff.2 hb)
  bounds := by
    intro a ha
    apply h.bounds a
    apply ha.imp_right
    rintro ⟨b, hb, hhas⟩
    exact ⟨b, hp.mem_iff.2 hb, hhas⟩
  above := h.above
  units := by
    rw [← h.units]
    unfold total
    rw [(hp.map Block.size).sum_eq]
  limited := h.limited

theorem place (h : Heap limit base s ring (b :: live)) :
    ∃ before p behind, ring = before ++ p :: behind ∧ p.stop ≤ b.addr ∧
      ∀ r ∈ behind, b.stop ≤ r.addr := by
  have hb := h.sized b List.mem_cons_self
  have habove := h.live_above (b := b) List.mem_cons_self
  obtain ⟨bs, rfl, hpos⟩ := h.ordered.head
  apply exists_place h.ordered.sorted
  · change base + 16 * 0 ≤ b.addr
    omega
  · intro y hy
    have hapart : Apart y b := by
      intro a hya hba
      exact h.disjoint b List.mem_cons_self a hba ⟨y, List.mem_cons_of_mem _ hy, hya⟩
    exact hapart.cases (hpos y hy) hb

theorem free {n : Nat} (h : Heap limit base s ring (b :: live)) (hlimit : limit < 2 ^ 32)
    (hn : limit < n) :
    wp (free n (b.addr + unit)) (fun _ t => ∃ ring', Heap limit base t ring' live ∧
      ∃ x ∈ ring', b.size ≤ x.size) (fun _ => False) s := by
  have hb := h.sized b List.mem_cons_self
  have hbase : base < b.addr := by
    have habove := h.live_above (b := b) List.mem_cons_self
    omega
  have hlen := h.length_le
  have hunits := h.units
  have hlimited := h.limited
  obtain ⟨before, p, behind, hring, hp, hbehind⟩ := h.place
  obtain ⟨hapart, hpair⟩ := List.pairwise_cons.1 h.apart
  have hpmem : p ∈ ring := hring ▸ by simp
  have haddr : ∀ y ∈ live, y.addr ≠ p.addr ∧ y.addr ≠ b.addr := by
    intro y hy
    refine ⟨h.addr_ne (List.mem_cons_of_mem b hy) hpmem, fun heq => ?_⟩
    apply hapart y hy y.addr
    · rw [heq]
      exact has_addr hb
    · exact has_addr (h.sized y (List.mem_cons_of_mem b hy))
  have hcovers : ∀ a, Covers (before ++ absorb p (absorb b behind)) a ↔ Covers ring a ∨ b.Has a := by
    intro a
    rw [hring, covers_append, covers_absorb, covers_absorb, covers_append, covers_cons]
    tauto
  rw [total_cons] at hunits
  obtain ⟨x, hx, hfreep⟩ := h.start
  have hkept := h.kept b List.mem_cons_self
  rw [hring] at hx hlen
  apply (free_spec (hring ▸ h.linked) (hring ▸ h.ordered) hkept hb hp hbase hbehind hx hfreep
    (by omega) (by rw [← hring]; omega)).imp
  rintro _ _ ⟨hlinked, hd, hd', rfl⟩
  obtain ⟨k, rs, hcons, -⟩ := absorb_cons p (absorb b behind)
  obtain ⟨j, qs, hcons', -⟩ := absorb_cons b behind
  refine ⟨before ++ absorb p (absorb b behind), ?_, ?_⟩
  · exact {
      linked := hlinked
      ordered := (hring ▸ h.ordered).insert hb hp hbase hbehind
      start := ⟨{ addr := p.addr, size := p.size + k },
        List.mem_append_right _ (hcons ▸ List.mem_cons_self), rfl⟩
      kept := by
        intro y hy
        obtain ⟨hyp, hyb⟩ := haddr y hy
        change (upd (upd s.mem b.addr hd) p.addr hd' y.addr).size = y.size
        rw [upd_of_ne _ _ _ hyp, upd_of_ne _ _ _ hyb]
        exact h.kept y (List.mem_cons_of_mem b hy)
      sized := fun y hy => h.sized y (List.mem_cons_of_mem b hy)
      apart := hpair
      disjoint := by
        intro y hy a hya
        rw [hcovers, not_or]
        exact ⟨h.disjoint y (List.mem_cons_of_mem b hy) a hya, fun hba => hapart y hy a hba hya⟩
      bounds := by
        intro a ha
        rw [hcovers] at ha
        apply h.bounds a
        rw [covers_cons]
        tauto
      above := h.above
      units := by
        rw [total_append, total_absorb, total_absorb]
        rw [hring, total_append, total_cons] at hunits
        change _ = s.obtained
        omega
      limited := h.limited }
  · have hmem : { addr := b.addr, size := b.size + j } ∈ absorb b behind :=
      hcons' ▸ List.mem_cons_self
    obtain ⟨y, hy, hle⟩ := exists_absorb_ge (b := p) hmem
    exact ⟨y, List.mem_append_right _ hy, Nat.le_trans (Nat.le_add_right _ _) hle⟩

/-- A new region from `sbrk`, with its header, is like a block of the program. -/
theorem grow {nu : Nat} (gap : Nat) (answers : List (Option Nat)) (h : Heap limit base s ring live)
    (hnu : 0 < nu) (hlimit : s.obtained + nu ≤ limit) :
    Heap limit base
      { mem := upd s.mem (s.top + gap) { ptr := (s.mem (s.top + gap)).ptr, size := nu }
        freep := s.freep
        top := s.top + gap + nu * unit
        sbrks := answers
        obtained := s.obtained + nu }
      ring ({ addr := s.top + gap, size := nu } :: live) := by
  have hring : ∀ x ∈ ring, x.addr ≠ s.top + gap := by
    intro x hx
    have hlt := h.ring_lt_top hx
    omega
  have hfresh : ∀ a, Covers ring a ∨ Covers live a → a < s.top := fun a ha => (h.bounds a ha).2
  exact {
    linked := h.linked.congr fun x hx => upd_of_ne _ _ _ (hring x hx)
    ordered := h.ordered
    start := h.start
    kept := by
      intro b hb
      rcases List.mem_cons.1 hb with rfl | hb
      · simp only [upd_self]
      · have hlt := h.live_lt_top hb
        simp only
        rw [upd_of_ne _ _ _ (by omega)]
        exact h.kept b hb
    sized := by
      intro b hb
      rcases List.mem_cons.1 hb with rfl | hb
      · exact hnu
      · exact h.sized b hb
    apart := by
      rw [List.pairwise_cons]
      refine ⟨fun b hb a hnew hold => ?_, h.apart⟩
      have hlt := hfresh a (.inr ⟨b, hb, hold⟩)
      have hle : s.top + gap ≤ a := hnew.1
      omega
    disjoint := by
      intro b hb a hba
      rcases List.mem_cons.1 hb with rfl | hb
      · intro hcov
        have hlt := hfresh a (.inl hcov)
        have hle : s.top + gap ≤ a := hba.1
        omega
      · exact h.disjoint b hb a hba
    bounds := by
      intro a ha
      have habove := h.above
      rw [covers_cons, or_left_comm] at ha
      rcases ha with ⟨hle, hlt⟩ | ha
      · simp only [Block.stop] at hle hlt ⊢
        rw [Nat.mul_comm nu unit]
        omega
      · have hold := h.bounds a ha
        simp only
        omega
    above := by
      have habove := h.above
      simp only
      omega
    units := by
      have hunits := h.units
      rw [total_cons]
      simp only
      omega
    limited := hlimit }

theorem answers {answers : List (Option Nat)} (h : Heap limit base s ring live) :
    Heap limit base { s with sbrks := answers } ring live :=
  { h with }

theorem morecore {n nu : Nat} (h : Heap limit base s ring live) (hlimit : limit < 2 ^ 32)
    (hn : limit < n) (hnu : nu * unit < 2 ^ 31) :
    wp (morecore limit n nu) (fun r t => match r with
      | none => Heap limit base t ring live
      | some p => p = t.freep ∧ ∃ ring', Heap limit base t ring' live ∧ ∃ x ∈ ring', nu ≤ x.size)
      (fun _ => False) s := by
  rw [Umalloc.morecore, wp_bind]
  have hsize : nu ≤ (if nu < 4096 then 4096 else nu) ∧ 0 < (if nu < 4096 then 4096 else nu) ∧
      (if nu < 4096 then 4096 else nu) * unit < 2 ^ 31 := by
    split
    · exact ⟨by omega, by decide, by decide⟩
    · exact ⟨Nat.le_refl nu, by omega, hnu⟩
  generalize (if nu < 4096 then 4096 else nu) = size at hsize
  obtain ⟨hle, hpos, hint⟩ := hsize
  apply sbrk_spec hint
  · intro answers
    exact h.answers
  · intro gap answers hroom
    rw [wp_bind, wp_load, wp_bind, wp_store, wp_bind]
    have hnew := h.grow gap answers hpos hroom
    apply (hnew.free hlimit hn).imp
    rintro _ t ⟨ring', h', x, hx, hsize⟩
    rw [wp_bind, wp_get]
    exact ⟨rfl, ring', h', x, hx, Nat.le_trans hle hsize⟩

end Heap

/-!
## Taking a block
-/

section Take

variable {before behind between : List Block} {p : Block}

theorem Ordered.replace (ho : Ordered base (before ++ p :: y :: behind))
    (hsorted : between.Pairwise Gap)
    (hin : ∀ m ∈ between, y.addr ≤ m.addr ∧ m.stop ≤ y.stop ∧ 0 < m.size) :
    Ordered base (before ++ p :: (between ++ behind)) := by
  have hassoc : ∀ l, before ++ p :: l = (before ++ [p]) ++ l := by simp
  have hold := ho.sorted
  rw [hassoc] at hold
  obtain ⟨hfront, hback, hacross⟩ := List.pairwise_append.1 hold
  obtain ⟨hy, hbehind⟩ := List.pairwise_cons.1 hback
  constructor
  · obtain ⟨bs, hbs, hpos⟩ := ho.head
    cases before with
    | nil =>
      rw [List.nil_append, List.cons.injEq] at hbs
      refine ⟨between ++ behind, by rw [List.nil_append, hbs.1], fun m hm => ?_⟩
      rcases List.mem_append.1 hm with hm | hm
      · exact (hin m hm).2.2
      · exact hpos m (hbs.2 ▸ List.mem_cons_of_mem y hm)
    | cons z before =>
      rw [List.cons_append, List.cons.injEq] at hbs
      refine ⟨before ++ p :: (between ++ behind), by rw [List.cons_append, hbs.1], fun m hm => ?_⟩
      have hcases : m ∈ between ∨ m ∈ before ++ p :: y :: behind := by
        simp only [List.mem_append, List.mem_cons] at hm ⊢
        tauto
      rcases hcases with hm | hm
      · exact (hin m hm).2.2
      · exact hpos m (hbs.2 ▸ hm)
  · rw [hassoc, List.pairwise_append]
    refine ⟨hfront, List.pairwise_append.2 ⟨hsorted, hbehind, fun m hm r hr => ?_⟩, fun x hx m hm => ?_⟩
    · have hgap : y.stop < r.addr := hy r hr
      have hle := (hin m hm).2.1
      unfold Gap
      omega
    · rcases List.mem_append.1 hm with hm | hm
      · have hgap : x.stop < y.addr := hacross x hx y List.mem_cons_self
        have hle := (hin m hm).1
        unfold Gap
        omega
      · exact hacross x hx m (List.mem_cons_of_mem y hm)

/-- A free block is split into what stays and a block for the program. -/
theorem Heap.carve {mem : Nat → Header} (h : Heap limit base s (before ++ p :: y :: behind) live)
    (hlinked : Linked base mem (before ++ p :: (between ++ behind)))
    (hsorted : between.Pairwise Gap)
    (hin : ∀ m ∈ between, y.addr ≤ m.addr ∧ m.stop ≤ y.stop ∧ 0 < m.size) (hb : 0 < b.size)
    (hkept : (mem b.addr).size = b.size) (hsame : ∀ z ∈ live, mem z.addr = s.mem z.addr)
    (hparts : ∀ a, y.Has a ↔ Covers between a ∨ b.Has a) (hapart : ∀ a, b.Has a → ¬Covers between a)
    (htotal : total between + b.size = y.size) :
    Heap limit base { s with mem := mem, freep := p.addr } (before ++ p :: (between ++ behind))
      (b :: live) := by
  have hcovers : ∀ a, Covers (before ++ p :: y :: behind) a ↔
      Covers (before ++ p :: (between ++ behind)) a ∨ b.Has a := by
    intro a
    simp only [covers_append, covers_cons, hparts]
    tauto
  have hy : ∀ a, b.Has a → y.Has a := fun a ha => (hparts a).2 (.inr ha)
  have hnot : ∀ x ∈ before ++ p :: behind, ∀ a, y.Has a → ¬x.Has a := by
    intro x hx a ⟨hya, hya'⟩ ⟨hxa, hxa'⟩
    have hsort := h.ordered.sorted
    have hassoc : before ++ p :: y :: behind = (before ++ [p]) ++ y :: behind := by simp
    rw [hassoc] at hsort
    obtain ⟨-, hback, hacross⟩ := List.pairwise_append.1 hsort
    have hcases : x ∈ before ++ [p] ∨ x ∈ behind := by
      simp only [List.mem_append, List.mem_cons] at hx ⊢
      tauto
    rcases hcases with hx | hx
    · have hgap : x.stop < y.addr := hacross x hx y List.mem_cons_self
      omega
    · have hgap : y.stop < x.addr := (List.pairwise_cons.1 hback).1 x hx
      omega
  exact {
    linked := hlinked
    ordered := h.ordered.replace hsorted hin
    start := ⟨p, by simp, rfl⟩
    kept := by
      intro z hz
      rcases List.mem_cons.1 hz with rfl | hz
      · exact hkept
      · simp only
        rw [hsame z hz]
        exact h.kept z hz
    sized := by
      intro z hz
      rcases List.mem_cons.1 hz with rfl | hz
      · exact hb
      · exact h.sized z hz
    apart := by
      rw [List.pairwise_cons]
      refine ⟨fun z hz a hba hza => ?_, h.apart⟩
      exact h.disjoint z hz a hza ((hcovers a).2 (.inr hba))
    disjoint := by
      intro z hz a hza hcov
      rcases List.mem_cons.1 hz with rfl | hz
      · obtain ⟨x, hx, hxa⟩ := hcov
        have hcases : x ∈ before ++ p :: behind ∨ x ∈ between := by
          simp only [List.mem_append, List.mem_cons] at hx ⊢
          tauto
        rcases hcases with hx | hx
        · exact hnot x hx a (hy a hza) hxa
        · exact hapart a hza ⟨x, hx, hxa⟩
      · exact h.disjoint z hz a hza ((hcovers a).2 (.inl hcov))
    bounds := by
      intro a ha
      apply h.bounds a
      rw [hcovers]
      rw [covers_cons] at ha
      tauto
    above := h.above
    units := by
      have hunits := h.units
      simp only [total_append, total_cons] at hunits ⊢
      omega
    limited := h.limited }

end Take

end

end Xv6.Umalloc
