import Xv6.Virtio.Descriptors

/-!
# Where a request is

A request that has been posted and not seen is in the avail ring, with the device, or in
the used ring.  `Queue` says so for the lists `u` and `v` of heads in the two rings.
-/

namespace Xv6.Virtio

open Lib

variable {B P : Type}

inductive View (B : Type)
  | none
  | ring (b : B) (c : Chain)
  | bump (b : B) (c : Chain)
  | wait (b : B) (c : Chain)

namespace View

def request : View B → Option (B × Chain)
  | none => .none
  | ring b c => some (b, c)
  | bump b c => some (b, c)
  | wait b c => some (b, c)

def posting : View B → Bool
  | ring _ _ => true
  | bump _ _ => true
  | _ => false

end View

def Point.view : Point B → View B
  | ring b c => .ring b c
  | bump b c => .bump b c
  | check b c => .wait b c
  | sleepBuf b c => .wait b c
  | _ => .none

structure Queue (V : P → View B) (d : Disk B) (busy : B → Bool) (fetched : UInt16) (pending u v : List Nat) :
    Prop where
  info : ∀ p b c, (V p).request = some (b, c) → (d.info c.i0).b = some b
  addr : ∀ p b c, (V p).request = some (b, c) →
    (d.desc c.i1).addr = .data b ∧ (d.desc c.i2).addr = .status c.i0
  marked : ∀ p b c, (V p).request = some (b, c) → (V p).posting = true → busy b = true
  slot : ∀ p b c, V p = .bump b c → d.availRing (Fin.ofNat NUM d.availIdx.toNat) = c.i0
  avail : Window d.availRing fetched d.availIdx u
  used : Window d.usedRing d.lookedIdx d.usedIdx v
  nodup : (u ++ pending ++ v).Nodup
  active : ∀ i ∈ u ++ pending ++ v, ∃ p b c, V p = .wait b c ∧ c.i0 = i ∧ busy b = true
  waiting : ∀ p b c, V p = .wait b c → busy b = true → c.i0 ∈ u ++ pending ++ v
  status : ∀ i ∈ v, (d.info i).status = 0

structure Apart (V : P → View B) : Prop where
  buf : ∀ p q b c c', (V p).request = some (b, c) → (V q).request = some (b, c') → p = q
  chain : ∀ p q b c b' c' i, (V p).request = some (b, c) → (V q).request = some (b', c') →
    i ∈ c.list → i ∈ c'.list → p = q
  lt : ∀ p b c, (V p).request = some (b, c) → ∀ i ∈ c.list, i < NUM

namespace Queue

variable {V : P → View B} {d d' : Disk B} {busy : B → Bool} {fetched : UInt16} {pending u v : List Nat}
  {p : P} {b : B} {c : Chain} {i : Nat}

theorem frame (h : Queue V d busy fetched pending u v)
    (hinfo : ∀ p b c, (V p).request = some (b, c) → d'.info c.i0 = d.info c.i0)
    (haddr : ∀ p b c, (V p).request = some (b, c) → d'.desc c.i1 = d.desc c.i1 ∧ d'.desc c.i2 = d.desc c.i2)
    (hring : d'.availRing = d.availRing) (hidx : d'.availIdx = d.availIdx)
    (husedRing : d'.usedRing = d.usedRing) (husedIdx : d'.usedIdx = d.usedIdx)
    (hlooked : d'.lookedIdx = d.lookedIdx) : Queue V d' busy fetched pending u v := by
  constructor
  · intro p b c hp
    rw [hinfo p b c hp]
    exact h.info p b c hp
  · intro p b c hp
    rw [(haddr p b c hp).1, (haddr p b c hp).2]
    exact h.addr p b c hp
  · exact h.marked
  · rw [hring, hidx]
    exact h.slot
  · rw [hring, hidx]
    exact h.avail
  · rw [husedRing, husedIdx, hlooked]
    exact h.used
  · exact h.nodup
  · exact h.active
  · exact h.waiting
  · intro i hi
    obtain ⟨p, b, c, hp, rfl, -⟩ := h.active i (List.mem_append_right _ hi)
    rw [hinfo p b c (by rw [hp]; rfl)]
    exact h.status _ hi

/-- The heads in the rings and with the device are fewer than the ring has places. -/
theorem length_le (h : Queue V d busy fetched pending u v) (ha : Apart V) :
    (u ++ pending ++ v).length ≤ NUM := by
  have hsub : (u ++ pending ++ v) ⊆ List.range NUM := by
    intro i hi
    obtain ⟨p, b, c, hp, rfl, -⟩ := h.active i hi
    rw [List.mem_range]
    exact ha.lt p b c (by rw [hp]; rfl) _ List.mem_cons_self
  have hle := (List.subperm_of_subset h.nodup hsub).length_le
  rwa [List.length_range] at hle

theorem posting_notMem (h : Queue V d busy fetched pending u v) (ha : Apart V)
    (hp : (V p).request = some (b, c)) (hposting : (V p).posting = true) :
    c.i0 ∉ u ++ pending ++ v := by
  intro hmem
  obtain ⟨q, b', c', hq, heq, -⟩ := h.active _ hmem
  have hpq := ha.chain p q b c b' c' c.i0 hp (by rw [hq]; rfl) List.mem_cons_self
    (heq ▸ List.mem_cons_self)
  subst hpq
  rw [hq] at hposting
  cases hposting

theorem length_lt (h : Queue V d busy fetched pending u v) (ha : Apart V)
    (hp : (V p).request = some (b, c)) (hposting : (V p).posting = true) :
    (u ++ pending ++ v).length < NUM := by
  have hnot := h.posting_notMem ha hp hposting
  have hnodup : (c.i0 :: (u ++ pending ++ v)).Nodup := List.nodup_cons.2 ⟨hnot, h.nodup⟩
  have hsub : (c.i0 :: (u ++ pending ++ v)) ⊆ List.range NUM := by
    intro i hi
    rw [List.mem_range]
    rcases List.mem_cons.1 hi with rfl | hi
    · exact ha.lt p b c hp _ List.mem_cons_self
    · obtain ⟨q, b', c', hq, rfl, -⟩ := h.active i hi
      exact ha.lt q b' c' (by rw [hq]; rfl) _ List.mem_cons_self
  have hle := (List.subperm_of_subset hnodup hsub).length_le
  rwa [List.length_range] at hle

variable [DecidableEq P]

theorem format [DecidableEq B] {r : Call B} (h : Queue V d busy fetched pending u v) (hp : V p = .none)
    (ha : Apart (upd V p (.ring r.b c))) (hnodup : c.list.Nodup) :
    Queue (upd V p (.ring r.b c)) (d.format r c) (upd busy r.b true) fetched pending u v := by
  have hself : (upd V p (.ring r.b c) p).request = some (r.b, c) := by rw [upd_self]; rfl
  have hother : ∀ q b' c', q ≠ p → (V q).request = some (b', c') →
      b' ≠ r.b ∧ ∀ i ∈ c'.list, i ∉ c.list := by
    intro q b' c' hq hreq
    have hreq' : (upd V p (.ring r.b c) q).request = some (b', c') := by rwa [upd_of_ne _ _ _ hq]
    constructor
    · rintro rfl
      exact hq (ha.buf q p r.b c' c hreq' hself)
    · intro i hi hi'
      exact hq (ha.chain q p b' c' r.b c i hreq' hself hi hi')
  have hwait : ∀ q b' c', V q = .wait b' c' → q ≠ p := by
    rintro q b' c' hq rfl
    rw [hp] at hq
    cases hq
  simp only [Chain.list, List.nodup_cons, List.mem_cons, List.not_mem_nil, or_false, not_or] at hnodup
  obtain ⟨⟨h01, h02⟩, h12, -⟩ := hnodup
  constructor
  · intro q b' c' hq
    by_cases hqp : q = p
    · rw [hqp, hself] at hq
      cases hq
      change (upd d.info c.i0 _ c.i0).b = _
      rw [upd_self]
    · rw [upd_of_ne _ _ _ hqp] at hq
      have hne : c'.i0 ≠ c.i0 := by
        intro heq
        exact (hother q b' c' hqp hq).2 c'.i0 List.mem_cons_self (heq ▸ List.mem_cons_self)
      change (upd d.info c.i0 _ c'.i0).b = _
      rw [upd_of_ne _ _ _ hne]
      exact h.info q b' c' hq
  · intro q b' c' hq
    by_cases hqp : q = p
    · rw [hqp, hself] at hq
      cases hq
      simp only [Disk.format]
      rw [upd_of_ne _ _ _ h12, upd_self, upd_self]
      exact ⟨rfl, rfl⟩
    · rw [upd_of_ne _ _ _ hqp] at hq
      have hdesc : ∀ i ∈ c'.list, (d.format r c).desc i = d.desc i := by
        intro i hi
        have hnot := (hother q b' c' hqp hq).2 i hi
        simp only [Chain.list, List.mem_cons, List.not_mem_nil, or_false, not_or] at hnot
        simp only [Disk.format]
        rw [upd_of_ne _ _ _ hnot.2.2, upd_of_ne _ _ _ hnot.2.1, upd_of_ne _ _ _ hnot.1]
      rw [hdesc c'.i1 (by simp [Chain.list]), hdesc c'.i2 (by simp [Chain.list])]
      exact h.addr q b' c' hq
  · intro q b' c' hq hposting
    by_cases hqp : q = p
    · rw [hqp, hself] at hq
      cases hq
      exact upd_self _ _ _
    · rw [upd_of_ne _ _ _ hqp] at hq hposting
      rw [upd_of_ne _ _ _ (hother q b' c' hqp hq).1]
      exact h.marked q b' c' hq hposting
  · intro q b' c' hq
    by_cases hqp : q = p
    · rw [hqp, upd_self] at hq
      cases hq
    · rw [upd_of_ne _ _ _ hqp] at hq
      exact h.slot q b' c' hq
  · exact h.avail
  · exact h.used
  · exact h.nodup
  · intro i hi
    obtain ⟨q, b', c', hq, hi0, hbusy⟩ := h.active i hi
    refine ⟨q, b', c', ?_, hi0, ?_⟩
    · rw [upd_of_ne _ _ _ (hwait q b' c' hq)]
      exact hq
    · rw [upd_of_ne _ _ _ (hother q b' c' (hwait q b' c' hq) (by rw [hq]; rfl)).1]
      exact hbusy
  · intro q b' c' hq hbusy
    have hqp : q ≠ p := by
      rintro rfl
      rw [upd_self] at hq
      cases hq
    rw [upd_of_ne _ _ _ hqp] at hq
    rw [upd_of_ne _ _ _ (hother q b' c' hqp (by rw [hq]; rfl)).1] at hbusy
    exact h.waiting q b' c' hq hbusy
  · intro i hi
    obtain ⟨q, b', c', hq, rfl, -⟩ := h.active i (List.mem_append_right _ hi)
    have hne : c'.i0 ≠ c.i0 := by
      intro heq
      exact (hother q b' c' (hwait q b' c' hq) (by rw [hq]; rfl)).2 c'.i0 List.mem_cons_self
        (heq ▸ List.mem_cons_self)
    change (upd d.info c.i0 _ c'.i0).status = 0
    rw [upd_of_ne _ _ _ hne]
    exact h.status _ hi

theorem ring (h : Queue V d busy fetched pending u v) (ha : Apart V) (hp : V p = .ring b c)
    (honly : ∀ q b' c', V q ≠ .bump b' c') :
    Queue (upd V p (.bump b c))
      { d with availRing := upd d.availRing (Fin.ofNat NUM d.availIdx.toNat) c.i0 }
      busy fetched pending u v := by
  have hlen := h.length_lt ha (p := p) (by rw [hp]; rfl) (by rw [hp]; rfl)
  have hview : ∀ q, (upd V p (.bump b c) q).request = (V q).request ∧
      (upd V p (.bump b c) q).posting = (V q).posting := by
    intro q
    by_cases hq : q = p
    · rw [hq, upd_self, hp]
      exact ⟨rfl, rfl⟩
    · rw [upd_of_ne _ _ _ hq]
      exact ⟨rfl, rfl⟩
  have hwait : ∀ q b' c', upd V p (.bump b c) q = .wait b' c' ↔ V q = .wait b' c' := by
    intro q b' c'
    by_cases hq : q = p
    · rw [hq, upd_self, hp]
      simp
    · rw [upd_of_ne _ _ _ hq]
  constructor
  · intro q b' c' hq
    rw [(hview q).1] at hq
    exact h.info q b' c' hq
  · intro q b' c' hq
    rw [(hview q).1] at hq
    exact h.addr q b' c' hq
  · intro q b' c' hq hposting
    rw [(hview q).1] at hq
    rw [(hview q).2] at hposting
    exact h.marked q b' c' hq hposting
  · intro q b' c' hq
    by_cases hqp : q = p
    · rw [hqp, upd_self] at hq
      cases hq
      exact upd_self _ _ _
    · rw [upd_of_ne _ _ _ hqp] at hq
      exact absurd hq (honly q b' c')
  · apply h.avail.write (by decide)
    · simp only [List.length_append] at hlen
      omega
    · intro k hk
      exact upd_of_ne _ _ _ hk
  · exact h.used
  · exact h.nodup
  · intro i hi
    obtain ⟨q, b', c', hq, hrest⟩ := h.active i hi
    exact ⟨q, b', c', (hwait q b' c').2 hq, hrest⟩
  · intro q b' c' hq
    exact h.waiting q b' c' ((hwait q b' c').1 hq)
  · exact h.status

theorem post (h : Queue V d busy fetched pending u v) (ha : Apart V) (hp : V p = .bump b c)
    (honly : ∀ q b' c', V q = .bump b' c' → q = p) :
    Queue (upd V p (.wait b c)) { d with availIdx := d.availIdx + 1 } busy fetched pending
      (u ++ [c.i0]) v := by
  have hreq : (V p).request = some (b, c) := by rw [hp]; rfl
  have hnot := h.posting_notMem ha hreq (by rw [hp]; rfl)
  have hbusy := h.marked p b c hreq (by rw [hp]; rfl)
  have hperm : (u ++ [c.i0] ++ pending ++ v).Perm (c.i0 :: (u ++ pending ++ v)) := by
    rw [List.append_assoc, List.append_assoc, List.append_assoc]
    exact List.perm_middle
  have hview : ∀ q, (upd V p (.wait b c) q).request = (V q).request := by
    intro q
    by_cases hq : q = p
    · rw [hq, upd_self, hp]
      rfl
    · rw [upd_of_ne _ _ _ hq]
  constructor
  · intro q b' c' hq
    rw [hview q] at hq
    exact h.info q b' c' hq
  · intro q b' c' hq
    rw [hview q] at hq
    exact h.addr q b' c' hq
  · intro q b' c' hq hposting
    by_cases hqp : q = p
    · rw [hqp, upd_self] at hposting
      cases hposting
    · rw [upd_of_ne _ _ _ hqp] at hq hposting
      exact h.marked q b' c' hq hposting
  · intro q b' c' hq
    by_cases hqp : q = p
    · rw [hqp, upd_self] at hq
      cases hq
    · rw [upd_of_ne _ _ _ hqp] at hq
      exact absurd (honly q b' c' hq) hqp
  · exact h.avail.bump (by decide) (h.slot p b c hp)
  · exact h.used
  · exact hperm.nodup_iff.2 (List.nodup_cons.2 ⟨hnot, h.nodup⟩)
  · intro i hi
    rcases List.mem_cons.1 (hperm.mem_iff.1 hi) with rfl | hi
    · exact ⟨p, b, c, upd_self _ _ _, rfl, hbusy⟩
    · obtain ⟨q, b', c', hq, hrest⟩ := h.active i hi
      have hqp : q ≠ p := by
        rintro rfl
        rw [hp] at hq
        cases hq
      exact ⟨q, b', c', by rwa [upd_of_ne _ _ _ hqp], hrest⟩
  · intro q b' c' hq hb'
    rw [hperm.mem_iff, List.mem_cons]
    by_cases hqp : q = p
    · rw [hqp, upd_self] at hq
      cases hq
      exact .inl rfl
    · rw [upd_of_ne _ _ _ hqp] at hq
      exact .inr (h.waiting q b' c' hq hb')
  · exact h.status

/-- The requester leaves the loop when its request has been seen. -/
theorem leave (h : Queue V d busy fetched pending u v) (hp : V p = .wait b c) (hbusy : busy b = false) :
    Queue (upd V p .none) d busy fetched pending u v := by
  have hview : ∀ q x, (upd V p .none q).request = some x → upd V p .none q = V q := by
    intro q x hq
    by_cases hqp : q = p
    · rw [hqp, upd_self] at hq
      cases hq
    · rw [upd_of_ne _ _ _ hqp]
  constructor
  · intro q b' c' hq
    rw [hview q _ hq] at hq
    exact h.info q b' c' hq
  · intro q b' c' hq
    rw [hview q _ hq] at hq
    exact h.addr q b' c' hq
  · intro q b' c' hq hposting
    have heq := hview q _ hq
    rw [heq] at hq hposting
    exact h.marked q b' c' hq hposting
  · intro q b' c' hq
    have hreq : (upd V p .none q).request = some (b', c') := by rw [hq]; rfl
    rw [hview q _ hreq] at hq
    exact h.slot q b' c' hq
  · exact h.avail
  · exact h.used
  · exact h.nodup
  · intro i hi
    obtain ⟨q, b', c', hq, hi0, hb'⟩ := h.active i hi
    have hqp : q ≠ p := by
      rintro rfl
      rw [hp] at hq
      cases hq
      rw [hbusy] at hb'
      cases hb'
    exact ⟨q, b', c', by rwa [upd_of_ne _ _ _ hqp], hi0, hb'⟩
  · intro q b' c' hq
    have hreq : (upd V p .none q).request = some (b', c') := by rw [hq]; rfl
    rw [hview q _ hreq] at hq
    exact h.waiting q b' c' hq
  · exact h.status

omit [DecidableEq P] in
theorem fetch (h : Queue V d busy fetched pending u v) (ha : Apart V) (hne : fetched ≠ d.availIdx) :
    ∃ i u', u = i :: u' ∧ d.availRing (Fin.ofNat NUM fetched.toNat) = i ∧
      Queue V d busy (fetched + 1) (pending ++ [i]) u' v := by
  have hlen := h.length_le ha
  simp only [List.length_append] at hlen
  have hnil : u ≠ [] := by
    intro hnil
    exact hne ((h.avail.eq_iff (by change _ ≤ 8 at hlen; omega)).2 hnil)
  cases u with
  | nil => exact absurd rfl hnil
  | cons i u =>
    obtain ⟨hfirst, havail⟩ := h.avail.pop (by decide)
    have hperm : (u ++ (pending ++ [i]) ++ v).Perm (i :: u ++ pending ++ v) := by
      simp only [List.append_assoc, List.cons_append, List.nil_append]
      exact (List.perm_middle.append_left u).trans List.perm_middle
    refine ⟨i, u, rfl, hfirst, ?_⟩
    constructor
    · exact h.info
    · exact h.addr
    · exact h.marked
    · exact h.slot
    · exact havail
    · exact h.used
    · exact hperm.nodup_iff.2 h.nodup
    · intro k hk
      exact h.active k (hperm.mem_iff.1 hk)
    · intro p b c hp hbusy
      exact hperm.mem_iff.2 (h.waiting p b c hp hbusy)
    · exact h.status

omit [DecidableEq P] in
theorem complete {info : Nat → Info B} (h : Queue V d busy fetched pending u v) (ha : Apart V)
    (hi : i ∈ pending) (hinfo : info = upd d.info i { d.info i with status := 0 }) :
    Queue V
      { d with
        info := info
        usedRing := upd d.usedRing (Fin.ofNat NUM d.usedIdx.toNat) i
        usedIdx := d.usedIdx + 1 } busy fetched (pending.erase i) u (v ++ [i]) := by
  have hlen := h.length_le ha
  simp only [List.length_append] at hlen
  have hpos := List.length_pos_of_mem hi
  have hperm : (u ++ pending.erase i ++ (v ++ [i])).Perm (u ++ pending ++ v) := by
    have herase : pending.Perm (i :: pending.erase i) := List.perm_cons_erase hi
    have hlast : (pending.erase i ++ (v ++ [i])).Perm (i :: (pending.erase i ++ v)) := by
      rw [← List.append_assoc]
      exact List.perm_append_singleton _ _
    rw [List.append_assoc, List.append_assoc]
    exact (hlast.trans (herase.symm.append_right v)).append_left u
  have hb : ∀ k, (info k).b = (d.info k).b := by
    intro k
    rw [hinfo, upd_eq]
    split
    · rename_i hk
      rw [hk]
    · rfl
  constructor
  · intro p b c hp
    rw [hb]
    exact h.info p b c hp
  · exact h.addr
  · exact h.marked
  · exact h.slot
  · exact h.avail
  · have hwrite := h.used.write (g := upd d.usedRing (Fin.ofNat NUM d.usedIdx.toNat) i) (by decide)
      (by change _ < 8; change _ ≤ 8 at hlen; omega) (fun k hk => upd_of_ne _ _ _ hk)
    exact hwrite.bump (by decide) (upd_self _ _ _)
  · exact hperm.nodup_iff.2 h.nodup
  · intro k hk
    exact h.active k (hperm.mem_iff.1 hk)
  · intro p b c hp hbusy
    exact hperm.mem_iff.2 (h.waiting p b c hp hbusy)
  · intro k hk
    change (info k).status = 0
    rw [hinfo, upd_eq]
    split
    · rfl
    · rename_i hne
      rcases List.mem_append.1 hk with hk | hk
      · exact h.status k hk
      · exact absurd (List.mem_singleton.1 hk) hne

omit [DecidableEq P] in
theorem seen (h : Queue V d busy fetched pending u v) (ha : Apart V) (hne : d.lookedIdx ≠ d.usedIdx) :
    ∃ i v', v = i :: v' ∧ d.usedRing (Fin.ofNat NUM d.lookedIdx.toNat) = i ∧ (d.info i).status = 0 ∧
      ∃ p b c, V p = .wait b c ∧ c.i0 = i ∧ busy b = true ∧ (d.info i).b = some b := by
  have hlen := h.length_le ha
  simp only [List.length_append] at hlen
  have hnil : v ≠ [] := by
    intro hnil
    exact hne ((h.used.eq_iff (by change _ ≤ 8 at hlen; omega)).2 hnil)
  cases v with
  | nil => exact absurd rfl hnil
  | cons i v =>
    obtain ⟨hfirst, -⟩ := h.used.pop (by decide)
    obtain ⟨p, b, c, hp, rfl, hbusy⟩ := h.active i (by simp)
    exact ⟨c.i0, v, rfl, hfirst, h.status _ List.mem_cons_self, p, b, c, hp, rfl, hbusy,
      h.info p b c (by rw [hp]; rfl)⟩

omit [DecidableEq P] in
theorem see [DecidableEq B] (h : Queue V d busy fetched pending u (c.i0 :: v)) (ha : Apart V)
    (hp : V p = .wait b c) :
    Queue V { d with lookedIdx := d.lookedIdx + 1 } (upd busy b false) fetched pending u v := by
  have hreq : (V p).request = some (b, c) := by rw [hp]; rfl
  obtain ⟨-, hused⟩ := h.used.pop (by decide)
  have hperm : (u ++ pending ++ c.i0 :: v).Perm (c.i0 :: (u ++ pending ++ v)) := List.perm_middle
  obtain ⟨hnot, hnodup⟩ := List.nodup_cons.1 (hperm.nodup_iff.1 h.nodup)
  have hbuf : ∀ q c', V q = .wait b c' → q = p := by
    intro q c' hq
    exact ha.buf q p b c' c (by rw [hq]; rfl) hreq
  constructor
  · exact h.info
  · exact h.addr
  · intro q b' c' hq hposting
    have hne : b' ≠ b := by
      rintro rfl
      have hqp := ha.buf q p b' c' c hq hreq
      subst hqp
      rw [hp] at hposting
      cases hposting
    rw [upd_of_ne _ _ _ hne]
    exact h.marked q b' c' hq hposting
  · exact h.slot
  · exact h.avail
  · exact hused
  · exact hnodup
  · intro k hk
    obtain ⟨q, b', c', hq, rfl, hbusy⟩ := h.active k (hperm.mem_iff.2 (List.mem_cons_of_mem _ hk))
    refine ⟨q, b', c', hq, rfl, ?_⟩
    have hne : b' ≠ b := by
      rintro rfl
      have hqp := hbuf q c' hq
      subst hqp
      rw [hp] at hq
      cases hq
      exact hnot hk
    rwa [upd_of_ne _ _ _ hne]
  · intro q b' c' hq hbusy
    by_cases hb' : b' = b
    · rw [hb', upd_self] at hbusy
      cases hbusy
    · rw [upd_of_ne _ _ _ hb'] at hbusy
      rcases List.mem_cons.1 (hperm.mem_iff.1 (h.waiting q b' c' hq hbusy)) with heq | hmem
      · have hqp := ha.chain q p b' c' b c c'.i0 (by rw [hq]; rfl) hreq List.mem_cons_self
          (heq ▸ List.mem_cons_self)
        subst hqp
        rw [hp] at hq
        cases hq
        exact absurd rfl hb'
      · exact hmem
  · intro k hk
    exact h.status k (List.mem_cons_of_mem _ hk)

end Queue

end Xv6.Virtio
