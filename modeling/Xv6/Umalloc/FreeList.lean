import Xv6.Lib.Chain
import Xv6.Umalloc.Blocks

/-!
# The free list

The free list is a circular list of blocks in the order of their addresses, and begins
with `base`, which has no units.  `free` puts a block in its place and joins it with its
neighbours.
-/

namespace Xv6.Umalloc

open Lib Lib.Cmd Block

structure Linked (base : Nat) (mem : Nat → Header) (ring : List Block) : Prop where
  links : Chain (fun a => (mem a).ptr) Block.addr ring base
  sizes : ∀ b ∈ ring, (mem b.addr).size = b.size

structure Ordered (base : Nat) (ring : List Block) : Prop where
  head : ∃ bs, ring = { addr := base, size := 0 } :: bs ∧ ∀ b ∈ bs, 0 < b.size
  sorted : ring.Pairwise Gap

section Rules

variable {s : State} {p : Nat} {h : Header} {E : Fail → Prop}

@[simp] theorem wp_load {Q : Header → State → Prop} : wp (load p) Q E s ↔ Q (s.mem p) s := Iff.rfl

@[simp] theorem wp_store {Q : PUnit → State → Prop} :
    wp (store p h) Q E s ↔ Q ⟨⟩ { s with mem := upd s.mem p h } := Iff.rfl

@[simp] theorem wp_setFreep {Q : PUnit → State → Prop} :
    wp (setFreep p) Q E s ↔ Q ⟨⟩ { s with freep := p } := Iff.rfl

end Rules

section Order

variable {base bp : Nat} {mem : Nat → Header} {ring before behind : List Block} {p x y : Block}

theorem Gap.lt (h : Gap x y) : x.addr < y.addr := Nat.lt_of_le_of_lt x.addr_le_stop h

theorem Ordered.base_le (h : Ordered base ring) : ∀ b ∈ ring, base ≤ b.addr := by
  obtain ⟨bs, rfl, -⟩ := h.head
  intro b hb
  rcases List.mem_cons.1 hb with rfl | hb
  · exact Nat.le_refl _
  · exact Nat.le_of_lt (Gap.lt ((List.pairwise_cons.1 h.sorted).1 b hb))

theorem Ordered.addr_lt {a : Nat} (h : Ordered base ring) (hp : p ∈ ring) (hstop : p.stop ≤ a)
    (hbase : base < a) : p.addr < a := by
  obtain ⟨bs, rfl, hpos⟩ := h.head
  rcases List.mem_cons.1 hp with rfl | hp
  · exact hbase
  · have hle := header_le_stop (hpos p hp)
    omega

theorem Linked.next (h : Linked base mem (before ++ p :: behind)) :
    (mem p.addr).ptr = firstKey Block.addr behind base :=
  (Chain.middle.1 h.links).2.1

end Order

section Place

variable {base bp n : Nat} {s : State} {p x : Block}

/-- From a node before the place, the search goes on to the place. -/
theorem place_forward (before between behind : List Block)
    (hl : Linked base s.mem (before ++ between ++ p :: behind))
    (ho : Ordered base (before ++ between ++ p :: behind)) (hp : p.addr < bp)
    (hbehind : ∀ r ∈ behind, bp < r.addr) (hn : between.length < n) :
    wp (place bp n (firstKey Block.addr (between ++ [p]) 0)) (fun q t => q = p.addr ∧ t = s)
      (fun _ => False) s := by
  induction between generalizing before n with
  | nil =>
    obtain ⟨n, rfl⟩ : ∃ m, n = m + 1 := ⟨n - 1, by omega⟩
    rw [List.append_nil] at hl ho
    have hnext := hl.next
    rw [List.nil_append, firstKey_cons, place, wp_bind, wp_load]
    cases behind with
    | nil =>
      rw [hnext, firstKey_nil]
      have hbase : base ≤ p.addr := ho.base_le p (by simp)
      rw [if_neg (by omega), if_pos ⟨hbase, .inl hp⟩]
      exact ⟨rfl, rfl⟩
    | cons r behind =>
      rw [hnext, firstKey_cons, if_pos ⟨hp, hbehind r List.mem_cons_self⟩]
      exact ⟨rfl, rfl⟩
  | cons z between ih =>
    obtain ⟨n, rfl⟩ : ∃ m, n = m + 1 := ⟨n - 1, by omega⟩
    rw [List.length_cons] at hn
    have hsplit : before ++ z :: between ++ p :: behind =
        before ++ z :: (between ++ p :: behind) := by simp
    have hnext : (s.mem z.addr).ptr = firstKey Block.addr (between ++ [p]) 0 := by
      rw [Linked.next (hsplit ▸ hl)]
      cases between <;> rfl
    have hgap : z.addr < firstKey Block.addr (between ++ [p]) 0 ∧
        firstKey Block.addr (between ++ [p]) 0 ≤ p.addr := by
      have hsorted := (List.pairwise_append.1 (hsplit ▸ ho).sorted).2.1
      obtain ⟨hz, hrest⟩ := List.pairwise_cons.1 hsorted
      cases between with
      | nil => exact ⟨Gap.lt (hz p (by simp)), Nat.le_refl _⟩
      | cons y between =>
        refine ⟨Gap.lt (hz y (by simp)), Nat.le_of_lt ?_⟩
        exact Gap.lt ((List.pairwise_cons.1 hrest).1 p (by simp))
    rw [List.cons_append, firstKey_cons, place, wp_bind, wp_load, hnext, if_neg (by omega), if_neg (by omega)]
    have hassoc : before ++ z :: between ++ p :: behind =
        before ++ [z] ++ between ++ p :: behind := by simp
    apply ih (before ++ [z]) (hassoc ▸ hl) (hassoc ▸ ho)
    omega

theorem place_around (before between behind : List Block)
    (hl : Linked base s.mem (before ++ p :: (between ++ behind)))
    (ho : Ordered base (before ++ p :: (between ++ behind))) (hp : p.addr < bp)
    (hbetween : ∀ r ∈ between ++ behind, bp < r.addr) (hn : before.length + behind.length < n) :
    wp (place bp n (firstKey Block.addr behind base)) (fun q t => q = p.addr ∧ t = s)
      (fun _ => False) s := by
  induction behind generalizing between n with
  | nil =>
    rw [List.append_nil] at hl ho hbetween
    have hfirst : firstKey Block.addr (before ++ [p]) 0 = base := by
      obtain ⟨bs, hbs, -⟩ := ho.head
      cases before with
      | nil =>
        rw [List.nil_append, List.cons.injEq] at hbs
        rw [List.nil_append, firstKey_cons, hbs.1]
      | cons z before =>
        rw [List.cons_append, List.cons.injEq] at hbs
        rw [List.cons_append, firstKey_cons, hbs.1]
    rw [firstKey_nil, ← hfirst]
    exact place_forward [] before between hl ho hp hbetween (by simpa using hn)
  | cons r behind ih =>
    obtain ⟨n, rfl⟩ : ∃ m, n = m + 1 := ⟨n - 1, by omega⟩
    rw [List.length_cons] at hn
    have hsplit : before ++ p :: (between ++ r :: behind) =
        (before ++ p :: between) ++ r :: behind := by simp
    have hnext := Linked.next (hsplit ▸ hl)
    have hr : bp < r.addr := hbetween r (by simp)
    have hbase : base ≤ p.addr := ho.base_le p (by simp)
    rw [place, wp_bind, wp_load, firstKey_cons, if_neg (by omega)]
    have hstop : ¬((s.mem r.addr).ptr ≤ r.addr ∧ (r.addr < bp ∨ bp < (s.mem r.addr).ptr)) := by
      rw [hnext]
      cases behind with
      | nil =>
        rw [firstKey_nil]
        omega
      | cons y behind =>
        have hsorted := (List.pairwise_append.1 (hsplit ▸ ho).sorted).2.1
        have hlt := Gap.lt ((List.pairwise_cons.1 hsorted).1 y List.mem_cons_self)
        rw [firstKey_cons]
        omega
    rw [if_neg hstop, hnext]
    have hassoc : before ++ p :: (between ++ r :: behind) =
        before ++ p :: (between ++ [r] ++ behind) := by simp
    apply ih (between ++ [r]) (hassoc ▸ hl) (hassoc ▸ ho)
    · intro y hy
      apply hbetween y
      simpa using hy
    · omega

theorem place_spec {before behind : List Block} (hl : Linked base s.mem (before ++ p :: behind))
    (ho : Ordered base (before ++ p :: behind)) (hp : p.addr < bp)
    (hbehind : ∀ r ∈ behind, bp < r.addr) (hx : x ∈ before ++ p :: behind)
    (hn : (before ++ p :: behind).length ≤ n) :
    wp (place bp n x.addr) (fun q t => q = p.addr ∧ t = s) (fun _ => False) s := by
  rw [List.length_append, List.length_cons] at hn
  rcases List.mem_append.1 hx with hx | hx
  · obtain ⟨front, between, rfl⟩ := List.append_of_mem hx
    rw [List.length_append] at hn
    apply place_forward front (x :: between) behind hl ho hp hbehind
    omega
  · rcases List.mem_cons.1 hx with rfl | hx
    · have hassoc : before ++ x :: behind = before ++ [] ++ x :: behind := by simp
      apply place_forward before [] behind (hassoc ▸ hl) (hassoc ▸ ho) hp hbehind
      rw [List.length_nil]
      omega
    · obtain ⟨between, back, rfl⟩ := List.append_of_mem hx
      rw [List.length_append] at hn
      apply place_around before between (x :: back) hl ho hp hbehind
      omega

end Place

section Join

variable {base : Nat} {s : State} {x : Block} {rest : List Block}

theorem Linked.congr {mem mem' : Nat → Header} (h : Linked base mem rest)
    (heq : ∀ b ∈ rest, mem' b.addr = mem b.addr) : Linked base mem' rest where
  links := h.links.congr fun b hb => by rw [heq b hb]
  sizes := fun b hb => by rw [heq b hb, h.sizes b hb]

theorem linked_append {mem : Nat → Header} {l : List Block} : Linked base mem (l ++ rest) ↔
    Linked (firstKey Block.addr rest base) mem l ∧ Linked base mem rest := by
  constructor
  · intro h
    obtain ⟨hl, hrest⟩ := Chain.append.1 h.links
    exact ⟨⟨hl, fun b hb => h.sizes b (List.mem_append_left _ hb)⟩,
      ⟨hrest, fun b hb => h.sizes b (List.mem_append_right _ hb)⟩⟩
  · rintro ⟨hl, hrest⟩
    refine ⟨Chain.append.2 ⟨hl.links, hrest.links⟩, fun b hb => ?_⟩
    rcases List.mem_append.1 hb with hb | hb
    · exact hl.sizes b hb
    · exact hrest.sizes b hb

theorem linked_cons {mem : Nat → Header} : Linked base mem (x :: rest) ↔
    mem x.addr = { ptr := firstKey Block.addr rest base, size := x.size } ∧ Linked base mem rest := by
  constructor
  · intro h
    refine ⟨?_, h.links.2, fun b hb => h.sizes b (List.mem_cons_of_mem x hb)⟩
    have hptr := h.links.1
    have hsize := h.sizes x List.mem_cons_self
    cases hm : mem x.addr
    simp_all
  · rintro ⟨hx, h⟩
    refine ⟨⟨congrArg Header.ptr hx, h.links⟩, fun b hb => ?_⟩
    rcases List.mem_cons.1 hb with rfl | hb
    · rw [hx]
    · exact h.sizes b hb

theorem join_spec (hl : Linked base s.mem rest) (hsize : (s.mem x.addr).size = x.size)
    (hlt : ∀ r ∈ rest, x.addr < r.addr) (hbase : rest = [] → x.stop ≠ base)
    (htotal : x.size + total rest < 2 ^ 32) :
    wp (join x.addr (firstKey Block.addr rest base))
      (fun _ t => ∃ h, t = { s with mem := upd s.mem x.addr h } ∧ Linked base t.mem (absorb x rest))
      (fun _ => False) s := by
  have hrest : ∀ h, Linked base (upd s.mem x.addr h) rest := by
    intro h
    apply hl.congr
    intro r hr
    exact upd_of_ne _ _ _ (Nat.ne_of_gt (hlt r hr))
  rw [join, wp_bind, wp_load, hsize, show x.addr + unit * x.size = x.stop from rfl]
  rcases absorb_cases x rest with ⟨heq, hne⟩ | ⟨r, rs, rfl, hr, heq⟩
  · have hstop : x.stop ≠ firstKey Block.addr rest base := by
      cases rest with
      | nil => exact hbase rfl
      | cons r rs => exact hne r rfl
    rw [if_neg hstop, wp_store, heq]
    refine ⟨_, rfl, linked_cons.2 ⟨?_, hrest _⟩⟩
    simp only [upd_self]
  · obtain ⟨hhead, htail⟩ := linked_cons.1 hl
    rw [total_cons] at htotal
    rw [firstKey_cons, if_pos hr, wp_bind, wp_load, wp_store, heq, hhead,
      Nat.mod_eq_of_lt (by simp only; omega)]
    refine ⟨_, rfl, linked_cons.2 ⟨?_, (linked_cons.1 (hrest _)).2⟩⟩
    simp only [upd_self]

end Join

section Free

variable {base n : Nat} {s : State} {before behind : List Block} {p b x : Block}

theorem Ordered.insert (ho : Ordered base (before ++ p :: behind)) (hb : 0 < b.size)
    (hp : p.stop ≤ b.addr) (hbase : base < b.addr) (hbehind : ∀ r ∈ behind, b.stop ≤ r.addr) :
    Ordered base (before ++ absorb p (absorb b behind)) := by
  obtain ⟨hbefore, hrest, hacross⟩ := List.pairwise_append.1 ho.sorted
  obtain ⟨-, hsorted⟩ := List.pairwise_cons.1 hrest
  obtain ⟨k, rs, hcons, hsub⟩ := absorb_cons b behind
  have habove : ∀ r ∈ absorb b behind, p.stop ≤ r.addr := by
    intro r hr
    rw [hcons] at hr
    rcases List.mem_cons.1 hr with rfl | hr
    · exact hp
    · have hle := hbehind r (hsub r hr)
      have hle' := b.addr_le_stop
      omega
  obtain ⟨j, qs, hcons', hsub'⟩ := absorb_cons p (absorb b behind)
  constructor
  · obtain ⟨bs, hbs, hpos⟩ := ho.head
    have hpos' : ∀ r ∈ absorb b behind, 0 < r.size := by
      apply absorb_sized hb
      intro r hr
      cases before with
      | nil =>
        rw [List.nil_append, List.cons.injEq] at hbs
        exact hpos r (hbs.2 ▸ hr)
      | cons z before =>
        rw [List.cons_append, List.cons.injEq] at hbs
        exact hpos r (hbs.2 ▸ by simp [hr])
    cases before with
    | nil =>
      rw [List.nil_append, List.cons.injEq] at hbs
      refine ⟨absorb b behind, ?_, hpos'⟩
      rw [List.nil_append, hbs.1, hcons, absorb, if_neg]
      simp only [Block.stop]
      omega
    | cons z before =>
      rw [List.cons_append, List.cons.injEq] at hbs
      refine ⟨before ++ absorb p (absorb b behind), by rw [List.cons_append, hbs.1], ?_⟩
      intro r hr
      rcases List.mem_append.1 hr with hr | hr
      · exact hpos r (hbs.2 ▸ List.mem_append_left _ hr)
      · exact absorb_sized (hpos p (hbs.2 ▸ by simp)) hpos' r hr
  · rw [List.pairwise_append]
    refine ⟨hbefore, absorb_sorted (absorb_sorted hsorted hbehind) habove, fun y hy r hr => ?_⟩
    have hyp : y.stop < p.addr := hacross y hy p List.mem_cons_self
    rw [hcons'] at hr
    rcases List.mem_cons.1 hr with rfl | hr
    · exact hyp
    · have hle := habove r (hsub' r hr)
      have hle' := p.addr_le_stop
      unfold Gap
      omega

theorem free_spec (hl : Linked base s.mem (before ++ p :: behind))
    (ho : Ordered base (before ++ p :: behind)) (hsize : (s.mem b.addr).size = b.size)
    (hb : 0 < b.size) (hp : p.stop ≤ b.addr) (hbase : base < b.addr)
    (hbehind : ∀ r ∈ behind, b.stop ≤ r.addr) (hx : x ∈ before ++ p :: behind)
    (hfreep : s.freep = x.addr) (hn : (before ++ p :: behind).length ≤ n)
    (htotal : total (before ++ p :: behind) + b.size < 2 ^ 32) :
    wp (free n (b.addr + unit))
      (fun _ t => Linked base t.mem (before ++ absorb p (absorb b behind)) ∧
        ∃ h h', t = { s with mem := upd (upd s.mem b.addr h) p.addr h', freep := p.addr })
      (fun _ => False) s := by
  have hlt : p.addr < b.addr := ho.addr_lt (by simp) hp hbase
  have hpb : p.addr ≠ b.addr := Nat.ne_of_lt hlt
  obtain ⟨hsorted, -, hacross⟩ := List.pairwise_append.1 ho.sorted
  have hbehind' : ∀ r ∈ behind, b.addr < r.addr := by
    intro r hr
    have hle := hbehind r hr
    have hle' := header_le_stop hb
    omega
  have hbefore : ∀ y ∈ before, y.addr < p.addr := by
    intro y hy
    exact Gap.lt (hacross y hy p List.mem_cons_self)
  obtain ⟨hlbefore, hlrest⟩ := linked_append.1 hl
  have hlbehind := (linked_cons.1 hlrest).2
  rw [total_append, total_cons] at htotal
  rw [free, Nat.add_sub_cancel, wp_bind, wp_get, wp_bind, hfreep]
  apply (place_spec hl ho hlt hbehind' hx hn).imp
  rintro _ t ⟨rfl, ht⟩
  rw [ht, wp_bind, wp_load, hl.next, wp_bind]
  have hend : behind = [] → b.stop ≠ base := by
    have hle := b.addr_le_stop
    omega
  apply (join_spec hlbehind hsize hbehind' hend (by omega)).imp
  rintro _ _ ⟨h, rfl, h₁⟩
  obtain ⟨k, rs, hcons, hsub⟩ := absorb_cons b behind
  have hfirst : firstKey Block.addr (absorb b behind) base = b.addr := by rw [hcons]; rfl
  have hmem : upd s.mem b.addr h p.addr = s.mem p.addr := upd_of_ne _ _ _ hpb
  have habove : ∀ r ∈ absorb b behind, p.addr < r.addr := by
    intro r hr
    rw [hcons] at hr
    rcases List.mem_cons.1 hr with rfl | hr
    · exact hlt
    · exact Nat.lt_trans hlt (hbehind' r (hsub r hr))
  have hsize' : (upd s.mem b.addr h p.addr).size = p.size := by
    rw [hmem]
    exact hl.sizes p (by simp)
  have hne : absorb b behind = [] → p.stop ≠ base := by
    rw [hcons]
    exact nofun
  have hjoin := join_spec h₁ hsize' habove hne (by rw [total_absorb]; omega)
  rw [hfirst] at hjoin
  rw [wp_bind]
  apply hjoin.imp
  rintro _ _ ⟨h', rfl, h₂⟩
  rw [wp_setFreep]
  obtain ⟨j, qs, hcons', -⟩ := absorb_cons p (absorb b behind)
  -- the nodes before the place are as they were
  have hsame : ∀ y ∈ before, upd (upd s.mem b.addr h) p.addr h' y.addr = s.mem y.addr := by
    intro y hy
    have hyp := hbefore y hy
    rw [upd_of_ne _ _ _ (by omega), upd_of_ne _ _ _ (by omega)]
  refine ⟨linked_append.2 ⟨?_, h₂⟩, h, h', rfl⟩
  rw [hcons']
  exact hlbefore.congr hsame

end Free

end Xv6.Umalloc
