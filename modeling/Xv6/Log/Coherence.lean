import Xv6.Log.Cache
import Xv6.Log.Operations

/-!
# The cache is coherent

The latest content of a block is the last change that any process made to it.
A buffer that holds a block has that content, and so does the disk, unless the
block is pinned or some process has changed it without writing or logging it yet.
So a `bread` that fills a buffer from the disk reads the latest content.
-/

namespace Xv6.Log

open Instr Lib

variable {m : Nat} {cl : Clients} {sb : Superblock}

/-- The latest contents after an event. -/
def Event.latest (L : Disk) : Event → Disk
  | changed b c => Function.update L b c
  | _ => L

/-- The latest contents after the events `es`, on a machine that booted with disk `d`. -/
def latest (d : Disk) (es : List Event) : Disk := es.foldl Event.latest d

theorem latest_end {L : Disk} {e : Event} (he : e = .tau ∨ ∃ o, e = .ended o) : e.latest L = L := by
  rcases he with rfl | ⟨o, rfl⟩ <;> rfl

def Proc.Draft (q : Proc) (i : BufId) : Prop :=
  (∃ x ∈ q.held, x.dirty = true ∧ x.buf = i) ∨ ∃ k c, q.code = bwrite k :: c ∧ q.reg k.reg = i

structure Coherent (L : Disk) (w : Option (Fin (m + 1))) (s : Sys m) : Prop where
  cached : ∀ i b, (s.bufs i).blockno = some b → (s.bufs i).valid = true → (s.bufs i).data = L b
  stored : ∀ b, b ∉ s.pins w →
    (∀ q i, (s.procs q).Draft i → (s.bufs i).blockno ≠ some b) → s.disk b = L b
  saved : ∀ q k b c, (s.procs q).code = bunpin k b :: c → s.disk b = L b

/-- The buffers `bufs` are of the same blocks as those of `s`, with contents `data`. -/
def Sys.Holds (s : Sys m) (bufs : BufId → Buf m) (data : BufId → Block) : Prop :=
  ∀ i, (bufs i).blockno = (s.bufs i).blockno ∧ (bufs i).valid = (s.bufs i).valid ∧
    (bufs i).data = data i

section Holds

variable {s : Sys m} {j : BufId} {f : Buf m → Buf m}

theorem Sys.Holds.setBuf (hf : ∀ y, (f y).blockno = y.blockno ∧ (f y).valid = y.valid) :
    s.Holds (s.setBuf j f).bufs fun k =>
      if j = k then (f (s.bufs j)).data else (s.bufs k).data := by
  intro k
  have h : s.Touched (s.setBuf j f) j f := .of_eq rfl
  exact ⟨h.keep _ (fun y => (hf y).1) k, h.keep _ (fun y => (hf y).2) k, h.part _ k⟩

theorem Sys.Holds.keep (hf : ∀ y, (f y).blockno = y.blockno ∧ (f y).valid = y.valid ∧
    (f y).data = y.data) : s.Holds (s.setBuf j f).bufs fun k => (s.bufs k).data := by
  intro k
  have h : s.Touched (s.setBuf j f) j f := .of_eq rfl
  exact ⟨h.keep _ (fun y => (hf y).1) k, h.keep _ (fun y => (hf y).2.1) k,
    h.keep _ (fun y => (hf y).2.2) k⟩

end Holds

namespace Proc

variable {q q' : Proc} {i : Instr} {c : Code} {j : BufId}

theorem Draft.mem_refs (h : q.Draft j) (hwf : Wf sb q.code) : ∃ b, ⟨j, b, true⟩ ∈ q.refs := by
  rcases h with ⟨x, hx, -, rfl⟩ | ⟨k, c, hcode, rfl⟩
  · exact ⟨x.block, mem_refs_of_held hx⟩
  · rw [hcode] at hwf
    have hok := hwf.ok
    cases k with
    | slot t b => exact ⟨_, mem_refs_of_points (by rw [hcode]; exact hok.1)⟩
    | header => exact ⟨_, mem_refs_of_points (by rw [hcode]; exact hok.1)⟩
    | home t b => exact ⟨_, mem_refs_of_points (by rw [hcode]; exact hok.1)⟩

/-- An instruction that writes nothing leaves the changed buffers changed. -/
theorem Draft.of_held (h : q.Draft j) (hcode : q.code = i :: c) (hi : ∀ k, i ≠ bwrite k)
    (hheld : ∀ x ∈ q.held, x.dirty = true → ∃ y ∈ q'.held, y.dirty = true ∧ y.buf = x.buf) :
    q'.Draft j := by
  rcases h with ⟨x, hx, hd, rfl⟩ | ⟨k, c', hc, -⟩
  · exact .inl (hheld x hx hd)
  · rw [hcode] at hc
    exact absurd (List.cons.inj hc).1 (hi k)

theorem Draft.same (h : q.Draft j) (hcode : q.code = i :: c) (hi : ∀ k, i ≠ bwrite k)
    (hheld : q'.held = q.held) : q'.Draft j :=
  h.of_held hcode hi fun x hx hd => ⟨x, by rw [hheld]; exact hx, hd, rfl⟩

/-- After an instruction other than the home write no `bunpin` comes next. -/
theorem not_bunpin (hwf : Wf sb (i :: c)) (hi : ∀ k b, i ≠ bwrite (.home k b)) (hc : q.code = c)
    (k b : Nat) (c' : Code) : q.code ≠ bunpin k b :: c' := by
  intro heq
  rw [hc] at heq
  subst heq
  rcases hwf.due_tail with hnone | hsome
  · simp [cause] at hnone
  · simp only [due_cons, cause, Option.some.injEq] at hsome
    exact hi k b hsome.symm

end Proc

namespace Coherent

variable {L : Disk} {w w' : Option (Fin (m + 1))} {s t : Sys m} {p : Fin (m + 1)}
  {x : Ref BufId Nat} {d : Block}

theorem boot {disk : Disk} {n : Nat} : Coherent disk (some 0) (boot sb disk n : Sys m) where
  cached _ _ hb := by cases hb
  stored _ _ _ := rfl
  saved q k b c _ := rfl

theorem quiet (h : Coherent L w s) (hbufs : s.Holds t.bufs fun i => (s.bufs i).data)
    (hdisk : t.disk = s.disk) (hother : s.Only t p)
    (hpins : ∀ b ∈ s.pins w, b ∈ t.pins w' ∨ s.disk b = L b)
    (hdraft : ∀ i b, (s.procs p).Draft i → (s.bufs i).blockno = some b →
      (t.procs p).Draft i ∨ b ∈ t.pins w')
    (hsaved : ∀ k b c, (t.procs p).code = bunpin k b :: c → s.disk b = L b) :
    Coherent L w' t where
  cached i b hb hv := by
    rw [(hbufs i).1] at hb
    rw [(hbufs i).2.1] at hv
    rw [(hbufs i).2.2]
    exact h.cached i b hb hv
  stored b hb hno := by
    rw [hdisk]
    by_cases hold : b ∈ s.pins w
    · exact (hpins b hold).resolve_left hb
    · refine h.stored b hold fun q i hq hi => ?_
      by_cases hqp : q = p
      · subst hqp
        rcases hdraft i b hq hi with hnew | hpin
        · exact hno q i hnew (by rw [(hbufs i).1, hi])
        · exact hb hpin
      · exact hno q i (by rw [hother q hqp]; exact hq) (by rw [(hbufs i).1, hi])
  saved q k b c hcode := by
    rw [hdisk]
    by_cases hqp : q = p
    · subst hqp
      exact hsaved k b c hcode
    · rw [hother q hqp] at hcode
      exact h.saved q k b c hcode

/-- A free buffer that no process refers to is taken for another block. -/
theorem recycle {j : BufId} {b : Nat} (h : Coherent L w s) (hcache : CacheInv w s)
    (hctl : Control cl sb w s) (hfree : (s.bufs j).refcnt = 0)
    (hbufs : s.Touched t j fun y => { y with blockno := some b, valid := false, refcnt := 1 })
    (hdisk : t.disk = s.disk) (hother : s.Only t p) (hpins : t.pins w' = s.pins w)
    (hdraft : ∀ i, (s.procs p).Draft i → (t.procs p).Draft i)
    (hsaved : ∀ k b c, (t.procs p).code ≠ bunpin k b :: c) : Coherent L w' t where
  cached i b' hb hv := by
    rw [hbufs.part Buf.valid i] at hv
    rw [hbufs.part Buf.blockno i] at hb
    rw [hbufs.keep Buf.data (fun _ => rfl) i]
    split at hv
    · cases hv
    next hij =>
      rw [if_neg hij] at hb
      exact h.cached i b' hb hv
  stored b' hb hno := by
    rw [hdisk]
    rw [hpins] at hb
    refine h.stored b' hb fun q i hq hi => ?_
    obtain ⟨b'', hmem⟩ := hq.mem_refs (hctl.locals q).wf
    have hpos : 0 < (s.bufs i).refcnt := hcache.sound.refcnt_pos (p := q) hmem
    have hij : j ≠ i := by
      rintro rfl
      omega
    refine hno q i ?_ (by rw [hbufs.part Buf.blockno i, if_neg hij, hi])
    by_cases hqp : q = p
    · subst hqp
      exact hdraft i hq
    · rw [hother q hqp]
      exact hq
  saved q k b' c hcode := by
    rw [hdisk]
    by_cases hqp : q = p
    · subst hqp
      exact absurd hcode (hsaved k b' c)
    · rw [hother q hqp] at hcode
      exact h.saved q k b' c hcode

/-- A process other than the one that has locked block `x.key` is at no `bunpin` of it. -/
theorem key_ne_of_bunpin (hcache : CacheInv w s) (hctl : Control cl sb w s)
    (hx : x ∈ (s.procs p).refs) (hl : x.locked = true) {q : Fin (m + 1)} (hq : q ≠ p) {k b : Nat}
    {c : Code} (hcode : (s.procs q).code = bunpin k b :: c) : b ≠ x.key := by
  rintro rfl
  have hok := (hctl.local_code hcode).ok
  have hy : ⟨(s.procs q).reg .dbuf, x.key, true⟩ ∈ (s.procs q).refs :=
    Proc.mem_refs_of_points (by rw [hcode]; exact hok.1)
  have hslot : x.slot = (s.procs q).reg .dbuf :=
    hcache.sound.key_injective _ _ x.key (hcache.sound.key p x hx) (hcache.sound.key q _ hy)
  exact hq (hcache.sound.locked_unique hx hl hy rfl hslot).symm

theorem change (h : Coherent L w s) (hcache : CacheInv w s) (hctl : Control cl sb w s)
    (hx : x ∈ (s.procs p).refs) (hl : x.locked = true)
    (hbufs : s.Holds t.bufs fun i => if x.slot = i then d else (s.bufs i).data)
    (hdisk : t.disk = s.disk) (hother : s.Only t p) (hpins : t.pins w' = s.pins w)
    (hdraft : ∀ i, (s.procs p).Draft i → (t.procs p).Draft i) (hnew : (t.procs p).Draft x.slot)
    (hsaved : ∀ k b c, (t.procs p).code ≠ bunpin k b :: c) :
    Coherent (Function.update L x.key d) w' t where
  cached i b hb hv := by
    rw [(hbufs i).1] at hb
    rw [(hbufs i).2.1] at hv
    have hkey : (s.bufs x.slot).blockno = some x.key := hcache.sound.key p x hx
    rw [(hbufs i).2.2]
    dsimp only
    by_cases hi : x.slot = i
    · subst hi
      rw [hkey] at hb
      rw [if_pos rfl, ← Option.some.inj hb, Function.update_self]
    · rw [if_neg hi]
      have hne : b ≠ x.key := by
        rintro rfl
        exact hi (hcache.sound.key_injective _ _ x.key hkey hb)
      rw [Function.update_of_ne hne]
      exact h.cached i b hb hv
  stored b hb hno := by
    have hkey : (s.bufs x.slot).blockno = some x.key := hcache.sound.key p x hx
    have hne : b ≠ x.key := by
      rintro rfl
      exact hno p x.slot hnew (by rw [(hbufs _).1, hkey])
    rw [hdisk, Function.update_of_ne hne]
    rw [hpins] at hb
    refine h.stored b hb fun q i hq hi => hno q i ?_ (by rw [(hbufs i).1, hi])
    by_cases hqp : q = p
    · subst hqp
      exact hdraft i hq
    · rw [hother q hqp]
      exact hq
  saved q k b c hcode := by
    by_cases hqp : q = p
    · subst hqp
      exact absurd hcode (hsaved k b c)
    · rw [hother q hqp] at hcode
      rw [hdisk, Function.update_of_ne (key_ne_of_bunpin hcache hctl hx hl hqp hcode)]
      exact h.saved q k b c hcode

theorem write (h : Coherent L w s) (hcache : CacheInv w s) (hx : x ∈ (s.procs p).refs)
    (hl : x.locked = true) (hbufs : t.bufs = s.bufs)
    (hdisk : t.disk = Function.update s.disk x.key (s.bufs x.slot).data) (hother : s.Only t p)
    (hpins : t.pins w' = s.pins w)
    (hdraft : ∀ i, (s.procs p).Draft i → x.slot = i ∨ (t.procs p).Draft i)
    (hsaved : ∀ k b c, (t.procs p).code = bunpin k b :: c → b = x.key) : Coherent L w' t := by
  have hkey : (s.bufs x.slot).blockno = some x.key := hcache.sound.key p x hx
  have hnow : t.disk x.key = L x.key := by
    rw [hdisk, Function.update_self]
    exact h.cached _ _ hkey (hcache.sound.valid p x hx hl)
  have helse : ∀ b, b ≠ x.key → t.disk b = s.disk b := by
    intro b hb
    rw [hdisk, Function.update_of_ne hb]
  constructor
  case cached =>
    rw [hbufs]
    exact h.cached
  case stored =>
    intro b hb hno
    by_cases hne : b = x.key
    · rw [hne, hnow]
    · rw [helse b hne]
      rw [hpins] at hb
      refine h.stored b hb fun q i hq hi => ?_
      by_cases hqp : q = p
      · subst hqp
        rcases hdraft i hq with rfl | hnew
        · rw [hkey] at hi
          exact hne (Option.some.inj hi).symm
        · exact hno q i hnew (by rw [hbufs, hi])
      · exact hno q i (by rw [hother q hqp]; exact hq) (by rw [hbufs, hi])
  case saved =>
    intro q k b c hcode
    by_cases hne : b = x.key
    · rw [hne, hnow]
    · rw [helse b hne]
      by_cases hqp : q = p
      · subst hqp
        exact absurd (hsaved k b c hcode) hne
      · rw [hother q hqp] at hcode
        exact h.saved q k b c hcode

theorem contentOf_eq {r : Reg} {b : Nat} {c : Code} (h : Coherent L w s) (hcache : CacheInv w s)
    (hctl : Control cl sb w s) (hcode : (s.procs p).code = bread r b :: c) :
    s.blockOf p r = b ∧ s.contentOf p r = L b := by
  have hmem : ⟨(s.procs p).reg r, b, false⟩ ∈ (s.procs p).refs :=
    Proc.mem_refs_of_points (by rw [hcode]; simp [Points, live, locked])
  have hkey : (s.ptr p r).blockno = some b := hcache.sound.key p _ hmem
  have hblock : s.blockOf p r = b := by simp [Sys.blockOf, hkey]
  refine ⟨hblock, ?_⟩
  unfold Sys.contentOf
  split
  next hv => exact h.cached _ b hkey hv
  next hv =>
    rw [hblock]
    have honly : ∀ i, (s.bufs i).blockno = some b → i = (s.procs p).reg r := fun i hi =>
      hcache.sound.key_injective _ _ b hi hkey
    apply h.stored
    · intro hpin
      obtain ⟨i, hi, hvi⟩ := hcache.sound.pins b hpin
      rw [honly i hi] at hvi
      exact hv hvi
    · intro q i hq hi
      obtain ⟨b', hmem'⟩ := hq.mem_refs (hctl.locals q).wf
      have hvi := hcache.sound.valid q _ hmem' rfl
      rw [honly i hi] at hvi
      exact hv hvi

theorem bread {r : Reg} {b : Nat} {c : Code} (h : Coherent L w s) (hcache : CacheInv w s)
    (hctl : Control cl sb w s) (hcode : (s.procs p).code = bread r b :: c)
    (hbufs : s.Touched t ((s.procs p).reg r) fun y =>
      { y with holder := some p, valid := true, data := s.contentOf p r }) (hdisk : t.disk = s.disk)
    (hother : s.Only t p) (hpins : t.pins w' = s.pins w)
    (hdraft : ∀ i, (s.procs p).Draft i → (t.procs p).Draft i)
    (hsaved : ∀ k b c, (t.procs p).code ≠ bunpin k b :: c) : Coherent L w' t where
  cached i b' hb hv := by
    rw [hbufs.keep Buf.blockno (fun _ => rfl) i] at hb
    rw [hbufs.part Buf.valid i] at hv
    rw [hbufs.part Buf.data i]
    split
    next hi =>
      obtain ⟨hblock, hcontent⟩ := h.contentOf_eq hcache hctl hcode
      have hb' : b' = b := by
        rw [← hblock, Sys.blockOf, Sys.ptr, hi, hb]
        rfl
      rw [hb']
      exact hcontent
    next hi =>
      rw [if_neg hi] at hv
      exact h.cached i b' hb hv
  stored b' hb hno := by
    rw [hdisk]
    rw [hpins] at hb
    refine h.stored b' hb fun q i hq hi =>
      hno q i ?_ (by rw [hbufs.keep Buf.blockno (fun _ => rfl) i, hi])
    by_cases hqp : q = p
    · subst hqp
      exact hdraft i hq
    · rw [hother q hqp]
      exact hq
  saved q k b' c' hc := by
    rw [hdisk]
    by_cases hqp : q = p
    · subst hqp
      exact absurd hc (hsaved k b' c')
    · rw [hother q hqp] at hc
      exact h.saved q k b' c' hc

section Moves

variable {i : Instr} {c : Code} {e : Event}

/-- An instruction that writes nothing and pins and unpins nothing. -/
theorem calm (h : Coherent L w s) (hcode : (s.procs p).code = i :: c) (hi : ∀ k, i ≠ bwrite k)
    (hbufs : s.Holds t.bufs fun i => (s.bufs i).data) (hdisk : t.disk = s.disk)
    (hother : s.Only t p) (hpins : t.pins w' = s.pins w)
    (hheld : ∀ x ∈ (s.procs p).held, x.dirty = true →
      ∃ y ∈ (t.procs p).held, y.dirty = true ∧ y.buf = x.buf)
    (hsaved : ∀ k b c, (t.procs p).code ≠ bunpin k b :: c) : Coherent L w' t := by
  refine h.quiet hbufs hdisk hother (fun b hb => .inl (by rw [hpins]; exact hb)) ?_ ?_
  · exact fun j b hj _ => .inl (hj.of_held hcode hi hheld)
  · exact fun k b c' hc => absurd hc (hsaved k b c')

/-- Such an instruction that leaves the buffers of the file system call alone. -/
theorem pop (h : Coherent L w s) (hctl : Control cl sb w s) (hcode : (s.procs p).code = i :: c)
    (hi : ∀ k, i ≠ bwrite k) (hbufs : s.Holds t.bufs fun i => (s.bufs i).data)
    (hdisk : t.disk = s.disk) (hother : s.Only t p) (hpins : t.pins w' = s.pins w)
    (hheld : (t.procs p).held = (s.procs p).held)
    (hc : (t.procs p).code = c) : Coherent L w' t := by
  refine h.calm hcode hi hbufs hdisk hother hpins ?_ ?_
  · exact fun x hx hd => ⟨x, by rw [hheld]; exact hx, hd, rfl⟩
  · exact Proc.not_bunpin (hctl.local_code hcode) (fun _ _ => hi _) hc

/-- Setting the mark of one held buffer leaves the others alone. -/
theorem mem_set_or {l : List Held} {k : Nat} {x y : Held} {f : Bool} (hx : l[k]? = some x)
    (hy : y ∈ l) : y = x ∨ y ∈ l.set k { x with dirty := f } := by
  obtain ⟨n, hn⟩ := List.mem_iff_getElem?.1 hy
  by_cases hnk : k = n
  · subst hnk
    rw [hx] at hn
    exact .inl (Option.some.inj hn).symm
  · right
    refine List.mem_iff_getElem?.2 ⟨n, ?_⟩
    rw [List.getElem?_set_ne hnk, hn]

theorem mem_eraseIdx_of_dirty {l : List Held} {k : Nat} {x y : Held} (hx : l[k]? = some x)
    (hclean : x.dirty = false) (hy : y ∈ l) (hd : y.dirty = true) : y ∈ l.eraseIdx k := by
  obtain ⟨n, hn⟩ := List.mem_iff_getElem?.1 hy
  rw [List.mem_eraseIdx_iff_getElem?]
  refine ⟨n, ?_, hn⟩
  rintro rfl
  rw [hx] at hn
  cases hn
  rw [hclean] at hd
  cases hd

/-- Logging or writing a buffer takes at most that buffer off the changed ones. -/
theorem draft_set {q q' : Proc} {k : Nat} {x : Held} {f : Bool} {j : BufId}
    (hx : q.held[k]? = some x) (hcode : q.code = client :: c)
    (hheld : q'.held = q.held.set k { x with dirty := f }) (hj : q.Draft j) :
    x.buf = j ∨ q'.Draft j := by
  rcases hj with ⟨y, hy, hd, rfl⟩ | ⟨k', c', hc, -⟩
  · rcases mem_set_or (f := f) hx hy with rfl | hy
    · exact .inl rfl
    · exact .inr (.inl ⟨y, by rw [hheld]; exact hy, hd, rfl⟩)
  · rw [hcode] at hc
    cases hc

theorem blockOf_eq (hcache : CacheInv w s) {r : Reg} {b : Nat} {f : Bool}
    (hmem : ⟨(s.procs p).reg r, b, f⟩ ∈ (s.procs p).refs) : s.blockOf p r = b := by
  have hkey : (s.ptr p r).blockno = some b := hcache.sound.key p _ hmem
  simp [Sys.blockOf, hkey]

theorem bwrite_points {k : Target} (hok : Ok sb c (bwrite k)) :
    ∃ b, Points k.reg b true c ∧ ∀ n b', k = .home n b' → b = b' := by
  cases k with
  | slot n b => exact ⟨_, hok.1, by simp⟩
  | header => exact ⟨_, hok.1, by simp⟩
  | home n b => exact ⟨b, hok.1, by simp⟩

theorem prepare {k : Target} {c' : Code} (h : Coherent L w s) (hcache : CacheInv w s)
    (hctl : Control cl sb w s) (hcode : (s.procs p).code = i :: c) (hc : c = bwrite k :: c')
    (hi : ∀ k, i ≠ bwrite k)
    (hlive : ∀ r, live r (i :: c) = live r c ∧ locked r (i :: c) = locked r c)
    (hbufs : s.Holds t.bufs fun j => if (s.procs p).reg k.reg = j then d else (s.bufs j).data)
    (hdisk : t.disk = s.disk) (hother : s.Only t p)
    (hproc : t.procs p = { s.procs p with code := c }) (hpins : t.pins w' = s.pins w) :
    Coherent (Function.update L (s.blockOf p k.reg) d) w' t := by
  have hwf := (hctl.local_code hcode).tail
  rw [hc] at hwf
  obtain ⟨b, hpoints, -⟩ := bwrite_points hwf.ok
  have hmem : ⟨(s.procs p).reg k.reg, b, true⟩ ∈ (s.procs p).refs := by
    refine Proc.mem_refs_of_points ?_
    rw [hcode, Points, (hlive _).1, (hlive _).2, hc]
    exact hpoints
  rw [blockOf_eq hcache hmem]
  refine h.change hcache hctl hmem rfl hbufs hdisk hother hpins ?_ ?_ ?_
  · exact fun j hj => hj.same hcode hi (by rw [hproc])
  · exact .inr ⟨k, c', by rw [hproc, ← hc], by rw [hproc]⟩
  · rw [hproc, hc]
    simp

section Call

variable {k : Nat} {x : Held}

theorem modify (h : Coherent L w s) (hcache : CacheInv w s) (hctl : Control cl sb w s)
    (hcode : (s.procs p).code = client :: c) (hx : (s.procs p).held[k]? = some x)
    (hbufs : s.Holds t.bufs fun j => if x.buf = j then d else (s.bufs j).data)
    (hdisk : t.disk = s.disk) (hother : s.Only t p) (hpins : t.pins w' = s.pins w)
    (hheld : (t.procs p).held = (s.procs p).held.set k { x with dirty := true })
    (hc : (t.procs p).code = (s.procs p).code) :
    Coherent (Function.update L (s.blockAt x) d) w' t := by
  have hmem := List.mem_of_getElem? hx
  have hnew : (t.procs p).Draft x.buf := by
    refine .inl ⟨{ x with dirty := true }, ?_, rfl, rfl⟩
    rw [hheld]
    exact List.mem_set (List.getElem?_eq_some_iff.1 hx).1 _
  rw [(hcache.blockAt_eq hmem).2]
  refine h.change (x := x.ref) hcache hctl (Proc.mem_refs_of_held hmem) rfl hbufs hdisk hother hpins
    ?_ hnew (by simp [hc, hcode])
  intro j hj
  rcases draft_set hx hcode hheld hj with rfl | hj
  · exact hnew
  · exact hj

/-- `log_write` by a file system call: the block is pinned from now on. -/
theorem log (h : Coherent L w s) (hcode : (s.procs p).code = client :: c)
    (hx : (s.procs p).held[k]? = some x) (hbufs : s.Holds t.bufs fun i => (s.bufs i).data)
    (hdisk : t.disk = s.disk) (hother : s.Only t p) (hpins : ∀ b ∈ s.pins w, b ∈ t.pins w')
    (hpin : s.blockAt x ∈ t.pins w')
    (hheld : (t.procs p).held = (s.procs p).held.set k { x with dirty := false })
    (hc : (t.procs p).code = (s.procs p).code) : Coherent L w' t := by
  refine h.quiet hbufs hdisk hother (fun b hb => .inl (hpins b hb)) ?_ (by simp [hc, hcode])
  intro j b hj hb
  rcases draft_set hx hcode hheld hj with rfl | hj
  · rw [Sys.blockAt, hb] at hpin
    exact .inr hpin
  · exact .inl hj

theorem flush (h : Coherent L w s) (hcache : CacheInv w s) (hcode : (s.procs p).code = client :: c)
    (hx : (s.procs p).held[k]? = some x) (hbufs : t.bufs = s.bufs)
    (hdisk : t.disk = Function.update s.disk (s.blockAt x) (s.bufs x.buf).data)
    (hother : s.Only t p) (hpins : t.pins w' = s.pins w)
    (hheld : (t.procs p).held = (s.procs p).held.set k { x with dirty := false })
    (hc : (t.procs p).code = (s.procs p).code) : Coherent L w' t := by
  have hmem := List.mem_of_getElem? hx
  rw [(hcache.blockAt_eq hmem).2] at hdisk
  exact h.write (x := x.ref) hcache (Proc.mem_refs_of_held hmem) rfl hbufs hdisk hother hpins
    (fun j hj => draft_set hx hcode hheld hj) (by simp [hc, hcode])

end Call

theorem step (h : Coherent L w s) (hcache : CacheInv w s) (hctl : Control cl sb w s)
    (hcode : (s.procs p).code = i :: c) (hup : s.up = true ∨ p = 0)
    (hm : Move cl sb s p c i t e) : Coherent (e.latest L) (after w p (t.procs p).code) t := by
  have hwf := hctl.local_code hcode
  have hpins := CacheInv.pins_step hctl hcode hup hm
  have hnone : s.Holds s.bufs fun k => (s.bufs k).data := fun _ => ⟨rfl, rfl, rfl⟩
  cases hm with
  | recycle hmiss hfree =>
    refine h.recycle hcache hctl hfree (.of_eq rfl) rfl (.proc rfl)
      (hpins (by simp) (by simp)) ?_ ?_
    · exact fun j hj => hj.same hcode (by simp) (by simp)
    · exact Proc.not_bunpin hwf (by simp) (by simp)
  | bread hfree =>
    refine h.bread hcache hctl hcode (.of_eq rfl) rfl (.proc rfl) (hpins (by simp) (by simp)) ?_ ?_
    · exact fun j hj => hj.same hcode (by simp) (by simp)
    · exact Proc.not_bunpin hwf (by simp) (by simp)
  | hit | releasesleep | brelse =>
    refine h.pop hctl hcode (by simp) ?_ rfl (.proc rfl) (hpins (by simp) (by simp))
      (by simp) (by simp)
    simp only [Sys.Holds, Sys.goto_eq, Sys.setProc_bufs, Sys.setLinks_bufs]
    exact Sys.Holds.keep fun _ => ⟨rfl, rfl, rfl⟩
  | getHead | clearHead | writeLogDone | installDone | commitEmpty | endCommit | initDone
  | enter =>
    exact h.pop hctl hcode (by simp) hnone rfl (.proc rfl) (hpins (by simp) (by simp))
      (by simp) (by simp)
  | writeLog | commit =>
    exact h.calm hcode (by simp) hnone rfl (.proc rfl) (hpins (by simp) (by simp))
      (fun x hx hd => ⟨x, by simpa using hx, hd, rfl⟩)
      (by simp [writeLogCode, commitCode, breadCode])
  | install =>
    exact h.calm hcode (by simp) hnone rfl (.proc rfl) (hpins (by simp) (by simp))
      (fun x hx hd => ⟨x, by simpa using hx, hd, rfl⟩) (by simp [installCode, breadCode])
  | endEarly hc hout he =>
    rw [latest_end he]
    exact h.pop hctl hcode (by simp) hnone rfl (.proc rfl) (hpins (by simp) (by simp))
      (by simp) (by simp)
  | endLast hc hout he =>
    rw [latest_end he]
    exact h.calm hcode (by simp) hnone rfl (.proc rfl) (hpins (by simp) (by simp))
      (fun x hx hd => ⟨x, by simpa using hx, hd, rfl⟩) (by simp)
  | sleep =>
    exact h.calm hcode (by simp) hnone rfl (fun _ _ => rfl) (hpins (by simp) (by simp))
      (fun x hx hd => ⟨x, hx, hd, rfl⟩) (by simp [hcode])
  | keep =>
    obtain rfl : c = [client] := hwf.ok
    exact h.calm hcode (by simp) hnone rfl (.proc rfl) (hpins (by simp) (by simp))
      (fun x hx hd => ⟨x, by simpa using .inr hx, hd, rfl⟩) (by simp)
  | start | finish | read =>
    exact h.calm hcode (by simp) hnone rfl (.proc rfl) (hpins (fun _ => rfl) (by simp))
      (fun x hx hd => ⟨x, by simpa using hx, hd, rfl⟩) (by simp [breadCode])
  | tooBig | outside =>
    exact h.calm hcode (by simp) hnone rfl (.proc rfl) (hpins (fun _ => rfl) (by simp))
      (fun x hx hd => ⟨x, by simpa using hx, hd, rfl⟩) (by simp [hcode])
  | @bunpin k b =>
    have hw : w = some p := by
      refine (hctl.worker p).1 ?_
      rw [hcode]
      simp [phase, hwf.ok.2.1]
    refine h.quiet (p := p) ?_ rfl (.proc rfl) ?_ ?_ ?_
    · simp only [Sys.Holds, Sys.goto_eq, Sys.setProc_bufs]
      exact Sys.Holds.keep fun _ => ⟨rfl, rfl, rfl⟩
    · intro b' hb'
      simp only [hw, Sys.pins, hcode, pins, List.mem_cons] at hb'
      rcases hb' with rfl | hb'
      · exact .inr (h.saved p k b' c hcode)
      · left
        simp only [hw, after, Sys.goto_eq, Sys.setProc_procs_self, hwf.ok.2.1, Option.isSome_some,
          if_true, Sys.pins, Sys.setProc_lh, Sys.setBuf_lh]
        rw [hwf.ok.2.2]
        exact hb'
    · exact fun j b' hj _ => .inl (hj.same hcode (by simp) (by simp))
    · exact fun k' b' c' hc => absurd hc (Proc.not_bunpin hwf (by simp) (by simp) k' b' c')
  | toLog | toHome =>
    obtain ⟨-, c', hc⟩ := hwf.ok
    refine h.prepare hcache hctl hcode hc (by simp) (fun _ => ⟨rfl, rfl⟩) ?_ rfl
      (.proc rfl) (by simp) (hpins (by simp) (by simp))
    simp only [Sys.Holds, Sys.goto_eq, Sys.setProc_bufs]
    exact Sys.Holds.setBuf fun _ => ⟨rfl, rfl⟩
  | setHead =>
    obtain ⟨c', hc⟩ := hwf.ok
    refine h.prepare hcache hctl hcode hc (by simp) (fun _ => ⟨rfl, rfl⟩) ?_ rfl
      (.proc rfl) (by simp) (hpins (by simp) (by simp))
    simp only [Sys.Holds, Sys.goto_eq, Sys.setProc_bufs]
    exact Sys.Holds.setBuf fun _ => ⟨rfl, rfl⟩
  | @bwrite k hheld =>
    have he : (if k = .header ∧ s.lh ≠ [] then Event.committed else .tau).latest L = L := by
      split <;> rfl
    rw [he]
    obtain ⟨b, hpoints, hhome⟩ := bwrite_points hwf.ok
    have hmem : ⟨(s.procs p).reg k.reg, b, true⟩ ∈ (s.procs p).refs :=
      Proc.mem_refs_of_points (by rw [hcode]; exact hpoints)
    refine h.write hcache hmem rfl rfl ?_ (.proc rfl) (hpins (by simp) (by simp)) ?_ ?_
    · rw [← blockOf_eq hcache hmem]
      rfl
    · rintro j (⟨y, hy, hd, rfl⟩ | ⟨k', c', hc, rfl⟩)
      · exact .inr (.inl ⟨y, by simpa using hy, hd, rfl⟩)
      · rw [hcode] at hc
        cases hc
        exact .inl rfl
    · intro k' b' c' hc
      simp only [Sys.goto_eq, Sys.setProc_procs_self] at hc
      subst hc
      have hdue := hwf.due_tail
      simp only [due_cons, cause, reduceCtorEq, Option.some.injEq, bwrite.injEq, false_or] at hdue
      exact (hhome k' b' hdue.symm).symm
  | @modify k x d hx hop =>
    refine h.modify hcache hctl hcode hx ?_ rfl (.proc rfl)
      (hpins (fun _ => rfl) (by simp)) (by simp) (by simp)
    simp only [Sys.Holds, Sys.setProc_bufs]
    exact Sys.Holds.setBuf fun _ => ⟨rfl, rfl⟩
  | @absorb k x hx hop hout hroom hmem =>
    obtain rfl := hctl.idle_of_outstanding hout
    have hp := hpins (fun _ => rfl) (by simp)
    refine h.log hcode hx hnone rfl (.proc rfl) ?_ ?_ (by simp) (by simp)
    · exact fun b hb => by rw [hp]; exact hb
    · rw [hp]
      exact hmem
  | @append k x hx hop hout hroom hmem =>
    obtain rfl := hctl.idle_of_outstanding hout
    have hafter : after none p (client :: c) = none := by
      simp [after, phase]
    refine h.log hcode hx ?_ rfl (.proc rfl) ?_ ?_ (by simp) (by simp)
    · exact Sys.Holds.keep (j := x.buf) (f := fun y => { y with refcnt := y.refcnt + 1 })
        fun _ => ⟨rfl, rfl, rfl⟩
    · intro b hb
      simp only [Sys.setProc_procs_self, Sys.setBuf_procs, Sys.setLh_procs, hcode, hafter]
      exact List.mem_append_left _ hb
    · simp only [Sys.setProc_procs_self, Sys.setBuf_procs, Sys.setLh_procs, hcode, hafter]
      exact List.mem_append_right _ (List.mem_singleton.2 rfl)
  | @flush k x hx hfree hheld =>
    exact h.flush hcache hcode hx rfl rfl (.proc rfl)
      (hpins (fun _ => rfl) (by simp)) (by simp) (by simp)
  | @drop k x hx hclean =>
    refine h.calm hcode (by simp) hnone rfl (.proc rfl) (hpins (fun _ => rfl) (by simp))
      ?_ (by simp [brelseCode])
    exact fun y hy hd => ⟨y, by simpa using mem_eraseIdx_of_dirty hx hclean hy hd, hd, rfl⟩
  | endPanic hc =>
    rw [hctl.committing_of_op ((hctl.locals p).ends (by simp [hcode])).1] at hc
    cases hc
  | @panic i k =>
    have hp : (s.panic k).pins (after w p ((s.panic k).procs p).code) = s.pins w :=
      Sys.pins_eq hctl (fun _ _ => rfl) rfl rfl rfl
    refine h.quiet (p := p) hnone rfl (fun _ _ => rfl) ?_ (fun _ _ hj _ => .inl hj)
      fun k b c' hc => h.saved p k b c' hc
    exact fun b hb => .inl (by rw [hp]; exact hb)

end Moves

/-- All invariants hold in every state that is reached without a crash. -/
theorem reach {disk : Disk} {n : Nat} {es : List Event}
    (h : Run (Step cl sb) (Log.boot sb disk n) es s) (hno : Event.crashed ∉ es) :
    ∃ w, Control cl sb w s ∧ CacheInv w s ∧ Operations s ∧ Coherent (latest disk es) w s := by
  refine h.history (I := fun es s => Event.crashed ∉ es →
    ∃ w, Control cl sb w s ∧ CacheInv w s ∧ Operations s ∧ Coherent (latest disk es) w s) ?_
    (fun _ => ⟨_, .boot, .boot, .boot, boot⟩) hno
  intro es s e t hI hstep hno
  simp only [List.mem_append, List.mem_singleton, not_or] at hno
  obtain ⟨w, hctl, hcache, hop, hcoh⟩ := hI hno.1
  cases hstep with
  | run p ch hs =>
    obtain ⟨i, c, hcode, hup, hm⟩ := step_move hs
    have hnew := hcoh.step hcache hctl hcode hup hm
    refine ⟨_, hctl.step hcode hup hm, hcache.step hctl hcode hup hm, hop.step hctl hcode hup hm, ?_⟩
    rw [latest, List.foldl_append]
    exact hnew
  | crash => exact absurd rfl hno.2

end Coherent

section

variable {w : Option (Fin (m + 1))} {s t : Sys m} {p : Fin (m + 1)} {i : Instr} {c : Code} {e : Event}

/-- Only a buffer that nobody refers to is given to another block. -/
theorem recycled_free (hm : Move cl sb s p c i t e) (j : BufId)
    (hj : (t.bufs j).blockno ≠ (s.bufs j).blockno) : (s.bufs j).refcnt = 0 := by
  cases hm with
  | @recycle r b k hmiss hfree =>
    by_cases hk : k = j
    · rw [← hk]
      exact hfree
    · simp [Sys.setBuf_bufs, hk] at hj
  | hit | bread | releasesleep | brelse | bunpin | toLog | toHome | setHead | modify | append =>
    refine absurd ?_ hj
    simp only [Sys.goto_eq, Sys.setProc_bufs, Sys.setLinks_bufs, Sys.setLh_bufs, Sys.setBuf_bufs]
    split
    next heq => rw [heq]
    next => rfl
  | _ => exact absurd rfl hj

/-- The blocks of the log that `install_trans` has not written yet stay in the cache. -/
theorem pinned_or_installed {L : Disk} {k b : Nat} (hctl : Control cl sb w s) (hcache : CacheInv w s)
    (hop : Operations s) (hcoh : Coherent L w s) (hup : s.up = true) (hb : s.lh[k]? = some b) :
    (∃ j, (s.bufs j).blockno = some b ∧ 0 < (s.bufs j).refcnt) ∨
      (s.disk b = L b ∧ ∃ q, (∃ n o, phase (s.procs q).code = some (.installing n o) ∧ k < n) ∨
        phase (s.procs q).code = some .installed) := by
  by_cases hpin : b ∈ s.pins w
  · obtain ⟨j, hj, -⟩ := hcache.sound.pins b hpin
    exact .inl ⟨j, hj, hcache.sound.refcnt_pos_of_pinned hpin hj⟩
  by_cases hdraft : ∃ q j, (s.procs q).Draft j ∧ (s.bufs j).blockno = some b
  · obtain ⟨q, j, hq, hj⟩ := hdraft
    obtain ⟨b', hmem⟩ := hq.mem_refs (hctl.locals q).wf
    exact .inl ⟨j, hj, hcache.sound.refcnt_pos (p := q) hmem⟩
  right
  refine ⟨hcoh.stored b hpin fun q j hq hj => hdraft ⟨q, j, hq, hj⟩, ?_⟩
  cases w with
  | none => exact absurd (List.mem_of_getElem? hb) hpin
  | some q =>
    refine ⟨q, ?_⟩
    have hinit : initDone ∉ (s.procs q).code := by
      intro hmem
      have hdown := (hctl.boots q hmem).2
      rw [hup] at hdown
      cases hdown
    obtain ⟨f, hf⟩ := Option.isSome_iff_exists.1 ((hctl.worker q).2 rfl)
    have hdone := installed_of_not_pinned (hctl.locals q).wf hinit hf (hop.fits q f hf) hb hpin
    rw [hf]
    rcases hdone with ⟨n, o, rfl, hlt⟩ | rfl
    · exact .inl ⟨n, o, rfl, hlt⟩
    · exact .inr rfl

theorem returned_bread {b : Nat} {d : Block} (hm : Move cl sb s p c i t (.returned b d)) :
    ∃ r b', i = bread r b' ∧ b = s.blockOf p r ∧ d = s.contentOf p r := by
  generalize he : Event.returned b d = e at hm
  cases hm with
  | bread =>
    cases he
    exact ⟨_, _, rfl, rfl, rfl⟩
  | bwrite => split at he <;> cases he
  | endLast hc hout hend | endEarly hc hout hend => rcases hend with rfl | ⟨o, rfl⟩ <;> cases he
  | _ => cases he

end

/-- Coherence of the buffer cache under any clients that write or log every change
before they release the block: a block is in at most one buffer; the list through
`next` and `prev` has every buffer once; only an unreferenced buffer is recycled; a
logged block keeps its reference until `install_trans` has written it home; and
`bread` returns the latest content. -/
theorem cache_coherent {disk : Disk} {n : Nat} {es : List Event} {s : Sys m}
    (h : Run (Step cl sb) (boot sb disk n) es s) (hno : Event.crashed ∉ es) :
    (∀ i j b, (s.bufs i).blockno = some b → (s.bufs j).blockno = some b → i = j) ∧
    (s.order.Nodup ∧ (∀ i, i ∈ s.order) ∧ s.orderBack = s.order.reverse) ∧
    (∀ x, s.links.prev (s.links.next x) = x ∧ s.links.next (s.links.prev x) = x) ∧
    (∀ e t, Step cl sb s e t → e ≠ .crashed → ∀ i,
      (t.bufs i).blockno ≠ (s.bufs i).blockno → (s.bufs i).refcnt = 0) ∧
    (s.up = true → ∀ k b, s.lh[k]? = some b →
      (∃ i, (s.bufs i).blockno = some b ∧ 0 < (s.bufs i).refcnt) ∨
      (s.disk b = latest disk es b ∧
        ∃ p, (∃ r o, phase (s.procs p).code = some (.installing r o) ∧ k < r) ∨
          phase (s.procs p).code = some .installed)) ∧
    ∀ b c t, Step cl sb s (.returned b c) t → c = latest disk es b := by
  obtain ⟨w, hctl, hcache, hop, hcoh⟩ := Coherent.reach h hno
  obtain ⟨l, hring, hall⟩ := hcache.ring
  have hlen : l.length ≤ NBUF := by
    have hcard := hring.nodup.length_le_card
    rwa [Fintype.card_fin] at hcard
  have horder : s.order = l := Links.scan_next hring.linked hlen
  have hback : s.orderBack = l.reverse := Links.scan_prev hring.linked hlen
  refine ⟨hcache.sound.key_injective, ?_, ?_, ?_, ?_, ?_⟩
  · rw [horder, hback]
    exact ⟨hring.nodup, hall, rfl⟩
  · exact fun x => hring.inverse fun j _ => hall j
  · intro e t hstep he i hi
    cases hstep with
    | run p ch hs =>
      obtain ⟨i', c, -, -, hm⟩ := step_move hs
      exact recycled_free hm i hi
    | crash => exact absurd rfl he
  · exact fun hup k b hb => pinned_or_installed hctl hcache hop hcoh hup hb
  · intro b c t hstep
    cases hstep with
    | run p ch hs =>
      obtain ⟨i, c', hcode, -, hm⟩ := step_move hs
      obtain ⟨r, b', rfl, rfl, rfl⟩ := returned_bread hm
      obtain ⟨hblock, hcontent⟩ := hcoh.contentOf_eq hcache hctl hcode
      rw [hblock]
      exact hcontent

/-- A process logs block 40 and releases it: only its pin keeps it in the cache. -/
theorem cache_coherent_pinned :
    ∃ (es : List Event) (s : Sys 0), Run (Step .logged mkfs) (boot mkfs (fun _ _ => 0) 0) es s ∧
      Event.crashed ∉ es ∧ s.lh = [40] ∧ (s.procs 0).held = [] ∧
      ∃ i, (s.bufs i).blockno = some 40 ∧ 0 < (s.bufs i).refcnt := by
  have hcheck : ((boot mkfs (fun _ _ => 0) 0 : Sys 0).trace .logged mkfs
      ([goes 0 14, [some (0, .start)], goes 0 1, [some (0, .read 40)], goes 0 3,
        [some (0, .modify 0 fun _ => 7), some (0, .log 0), some (0, .drop 0)],
        goes 0 2].flatten)).any (fun x => x.1.up && x.1.lh == [40] &&
          (x.1.procs 0).held.isEmpty && (phase (x.1.procs 0).code).isNone &&
          x.2.all fun e => match e with | .crashed => false | _ => true) = true := by
    decide +kernel
  obtain ⟨⟨s, es⟩, hs, hcheck⟩ := (Option.any_eq_true _ _).1 hcheck
  simp only [Bool.and_eq_true, beq_iff_eq, List.isEmpty_iff, Option.isNone_iff_eq_none] at hcheck
  obtain ⟨⟨⟨⟨hup, hlh⟩, hheld⟩, hphase⟩, hall⟩ := hcheck
  have hno : Event.crashed ∉ es := fun hmem => by simpa using List.all_eq_true.1 hall _ hmem
  have hrun := Sys.trace_run hs
  have hpin := (cache_coherent hrun hno).2.2.2.2.1 hup 0 40 (by rw [hlh]; rfl)
  refine ⟨es, s, hrun, hno, hlh, hheld, hpin.resolve_right ?_⟩
  rintro ⟨-, p, hp⟩
  obtain rfl : p = 0 := Fin.ext (by omega)
  simp [hphase] at hp

end Xv6.Log
