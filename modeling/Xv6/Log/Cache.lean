import Xv6.Log.Control

/-!
# The buffer cache is a reference-counted cache

The references of a process are the buffers its file system call holds and those
its pointers refer to.  Read that way the buffers form a `RefCache`, whose pins
are the logged blocks that are not installed yet, and every move keeps it sound.
-/

namespace Xv6.Log

open Instr Lib

variable {m : Nat} {cl : Clients} {sb : Superblock}

def Reg.other : Reg → Reg
  | lbuf => dbuf
  | dbuf => lbuf

/-- The reference that a buffer held by a file system call is. -/
def Held.ref (x : Held) : Ref BufId Nat := ⟨x.buf, x.block, true⟩

variable {r : Reg} {x : Held} {k : Nat}

namespace Proc

variable (q : Proc)

def regRef (r : Reg) : List (Ref BufId Nat) :=
  match live r q.code with
  | some b => [⟨q.reg r, b, locked r q.code⟩]
  | none => []

def refs : List (Ref BufId Nat) :=
  q.held.map Held.ref ++ q.regRef .lbuf ++ q.regRef .dbuf

def restRefs (r : Reg) : List (Ref BufId Nat) :=
  q.held.map Held.ref ++ q.regRef r.other

variable {q}

theorem refs_perm (r : Reg) : q.refs.Perm (q.regRef r ++ q.restRefs r) := by
  cases r with
  | lbuf =>
    unfold refs restRefs Reg.other
    rw [← List.append_assoc]
    exact List.Perm.append_right _ List.perm_append_comm
  | dbuf => exact List.perm_append_comm

theorem regRef_of_points {b : Nat} {f : Bool} (h : Points r b f q.code) :
    q.regRef r = [⟨q.reg r, b, f⟩] := by
  simp [regRef, h.1, h.2]

theorem regRef_of_not_live (h : live r q.code = none) : q.regRef r = [] := by
  simp [regRef, h]

theorem mem_refs_of_points {b : Nat} {f : Bool} (h : Points r b f q.code) :
    ⟨q.reg r, b, f⟩ ∈ q.refs := by
  rw [(refs_perm r).mem_iff, regRef_of_points h]
  simp

theorem mem_refs_of_held (h : x ∈ q.held) : x.ref ∈ q.refs := by
  simp only [refs, List.mem_append]
  exact .inl (.inl (List.mem_map_of_mem h))

end Proc

def Sys.pins (s : Sys m) : Option (Fin (m + 1)) → List Nat
  | none => s.lh
  | some p => Log.pins s.lh (s.procs p).code

def Sys.cache (s : Sys m) (w : Option (Fin (m + 1))) : RefCache (Fin (m + 1)) BufId Nat where
  key i := (s.bufs i).blockno
  valid i := (s.bufs i).valid
  refcnt i := (s.bufs i).refcnt
  holder i := (s.bufs i).holder
  refs p := (s.procs p).refs
  pins := s.pins w

structure CacheInv (w : Option (Fin (m + 1))) (s : Sys m) : Prop where
  ring : ∃ l, s.links.Ring l ∧ ∀ i, i ∈ l
  sound : (s.cache w).Sound

/-- Popping an instruction of process `p` keeps its pins, but for `bunpin`. -/
theorem pins_tail {i : Instr} {c : Code} {lh : List Nat} (h : Wf sb (i :: c))
    (hbunpin : ∀ t b, i ≠ bunpin t b) (hinstall : ∀ f t, i = installTrans f t → lh[t]? = none)
    (hhead : i ≠ getHead) (hclear : i ≠ clearHead) :
    pins lh c = pins lh (i :: c) := by
  have hok := h.ok
  cases i with
  | bwrite k =>
    cases k <;> simp only [Ok] at hok
    case slot => exact hok.2.2 lh
    case header => exact hok.2.2 lh
    case home => rfl
  | bunpin t b => exact absurd rfl (hbunpin t b)
  | toLog k b =>
    obtain ⟨-, c', rfl⟩ := hok
    rfl
  | toHome k b => rfl
  | setHead =>
    obtain ⟨c', rfl⟩ := hok
    rfl
  | getHead => exact absurd rfl hhead
  | clearHead => exact absurd rfl hclear
  | writeLog | commit => exact hok.2.2.1 lh
  | installTrans f t =>
    rw [hok.2.2.1 lh]
    cases f with
    | true => rfl
    | false =>
      have hnone := hinstall false t rfl
      simp only [pins, Bool.false_eq_true, if_false]
      rw [List.drop_eq_nil_of_le (List.getElem?_eq_none_iff.1 hnone)]
  | keep b =>
    obtain rfl : c = [client] := hok
    rfl
  | endCommit | initDone | beginOp | endOp =>
    obtain rfl : c = [client] := hok
    rfl
  | client =>
    obtain rfl : c = [] := hok
    rfl
  | bget | bread | releasesleep | brelse => rfl

def Instr.moves : Instr → Bool
  | bget _ _ => true
  | bread _ _ => true
  | releasesleep _ _ => true
  | brelse _ _ => true
  | keep _ => true
  | _ => false

theorem live_tail {i : Instr} {c : Code} (h : Wf sb (i :: c)) (hi : i.moves = false) (r : Reg) :
    live r c = live r (i :: c) ∧ locked r c = locked r (i :: c) := by
  have hok := h.ok
  have hbare : Bare c → live r c = none ∧ locked r c = false := by
    intro hb
    have hlive : live r c = none := by
      cases r with
      | lbuf => exact hb.1
      | dbuf => exact hb.2
    exact ⟨hlive, locked_of_not_live hlive⟩
  cases i with
  | bget | bread | releasesleep | brelse | keep => cases hi
  | bwrite | bunpin | toLog | toHome | setHead | getHead => exact ⟨rfl, rfl⟩
  | clearHead | writeLog | installTrans | commit => exact hbare hok.1
  | endCommit | initDone | beginOp | endOp =>
    obtain rfl : c = [client] := hok
    exact ⟨rfl, rfl⟩
  | client =>
    obtain rfl : c = [] := hok
    exact ⟨rfl, rfl⟩

theorem Proc.refs_congr {q q' : Proc} (hheld : q'.held.map Held.ref = q.held.map Held.ref)
    (hreg : q'.reg = q.reg)
    (hcode : ∀ r, live r q'.code = live r q.code ∧ locked r q'.code = locked r q.code) :
    q'.refs = q.refs := by
  simp only [Proc.refs, Proc.regRef, hheld, hreg, (hcode _).1, (hcode _).2]

namespace Sys

variable {w : Option (Fin (m + 1))} {s t : Sys m} {p : Fin (m + 1)}

/-- A step that does not change what `p` has pinned changes no pins. -/
theorem pins_eq (h : Control cl sb w s) (hother : s.Only t p)
    (hphase : (phase (t.procs p).code).isSome = (phase (s.procs p).code).isSome) (hlh : t.lh = s.lh)
    (hpins : Log.pins s.lh (t.procs p).code = Log.pins s.lh (s.procs p).code) :
    t.pins (after w p (t.procs p).code) = s.pins w := by
  rw [h.after_eq hphase]
  cases w with
  | none => exact hlh
  | some q =>
    simp only [Sys.pins, hlh]
    by_cases hq : q = p
    · rw [hq, hpins]
    · rw [hother q hq]

end Sys

namespace CacheInv

variable {w w' : Option (Fin (m + 1))} {s t : Sys m} {p : Fin (m + 1)}

theorem same (h : CacheInv w s)
    (hbufs : ∀ i, (t.bufs i).blockno = (s.bufs i).blockno ∧ (t.bufs i).valid = (s.bufs i).valid ∧
      (t.bufs i).refcnt = (s.bufs i).refcnt ∧ (t.bufs i).holder = (s.bufs i).holder)
    (hother : s.Only t p) (hrefs : (t.procs p).refs.Perm (s.procs p).refs)
    (hpins : t.pins w' = s.pins w) (hlinks : t.links = s.links) : CacheInv w' t where
  ring := by
    rw [hlinks]
    exact h.ring
  sound := by
    refine h.sound.same (fun j => (hbufs j).1) (fun j => (hbufs j).2.1) (fun j => (hbufs j).2.2.1)
      (fun j => (hbufs j).2.2.2) hpins fun q => ?_
    by_cases hq : q = p
    · subst hq
      exact hrefs
    · show (t.procs q).refs.Perm (s.procs q).refs
      rw [hother q hq]

theorem mem_order (h : CacheInv w s) (i : BufId) : i ∈ s.order := by
  obtain ⟨l, hring, hall⟩ := h.ring
  have hlen : l.length ≤ NBUF := by
    have hcard := hring.nodup.length_le_card
    rwa [Fintype.card_fin] at hcard
  rw [Sys.order, Links.scan_next hring.linked hlen]
  exact hall i

theorem others {u v : Option (Fin (m + 1))} (hother : s.Only t p) :
    RefCache.Others (s.cache u) (t.cache v) p := by
  intro q hq
  show (t.procs q).refs = (s.procs q).refs
  rw [hother q hq]

section Registers

variable {q q' : Proc} {r : Reg} {b : Nat} {i : Instr} {c : Code}

/-- The instructions on pointer `r` leave the other references alone. -/
theorem restRefs_pop (hcode : q.code = i :: c)
    (hi : i = bget r b ∨ i = bread r b ∨ i = releasesleep r b ∨ i = brelse r b) (hc : q'.code = c)
    (hheld : q'.held = q.held) (hreg : q'.reg r.other = q.reg r.other) :
    q'.restRefs r = q.restRefs r := by
  have hother : live r.other (i :: c) = live r.other c ∧
      locked r.other (i :: c) = locked r.other c := by
    rcases hi with rfl | rfl | rfl | rfl <;> cases r <;> exact ⟨rfl, rfl⟩
  simp only [Proc.restRefs, Proc.regRef, hheld, hreg, hc, hcode, hother.1, hother.2]

/-- How the references change when pointer `r` changes from `l` to `l'`. -/
theorem refs_swap (hrest : q'.restRefs r = q.restRefs r) {l l' : List (Ref BufId Nat)}
    (hl : q.regRef r = l) (hl' : q'.regRef r = l') :
    q.refs.Perm (l ++ q.restRefs r) ∧ q'.refs.Perm (l' ++ q.restRefs r) := by
  have hold := Proc.refs_perm (q := q) r
  have hnew := Proc.refs_perm (q := q') r
  rw [hl] at hold
  rw [hl', hrest] at hnew
  exact ⟨hold, hnew⟩

end Registers

section Moves

variable {i : Instr} {c : Code} {r : Reg} {b : Nat} {j : BufId} {e : Event}

theorem pins_pop (h : Control cl sb w s) (hcode : (s.procs p).code = i :: c) (hother : s.Only t p)
    (hc : (t.procs p).code = c) (hlh : t.lh = s.lh) (hend : i ≠ endCommit ∧ i ≠ initDone)
    (hbunpin : ∀ k b, i ≠ bunpin k b) (hinstall : ∀ f k, i = installTrans f k → s.lh[k]? = none)
    (hhead : i ≠ getHead)
    (hclear : i ≠ clearHead) : t.pins (after w p (t.procs p).code) = s.pins w := by
  apply Sys.pins_eq h hother _ hlh
  · rw [hc, hcode]
    exact pins_tail (h.local_code hcode) hbunpin hinstall hhead hclear
  · rw [hc, hcode]
    exact phase_tail (h.local_code hcode) hend

/-- A step of the worker that changes the log but pins and unpins nothing. -/
theorem pins_worker (hctl : Control cl sb w s) (hcode : (s.procs p).code = i :: c)
    (hphase : (phase (i :: c)).isSome) (hphase' : (phase (t.procs p).code).isSome)
    (hpins : pins t.lh (t.procs p).code = pins s.lh (i :: c)) :
    t.pins (after w p (t.procs p).code) = s.pins w := by
  have hw : w = some p := (hctl.worker p).1 (by rw [hcode]; exact hphase)
  rw [hctl.after_eq (by rw [hphase', hcode, hphase]), hw]
  show pins t.lh (t.procs p).code = pins s.lh (s.procs p).code
  rw [hpins, hcode]

theorem pins_step (hctl : Control cl sb w s) (hcode : (s.procs p).code = i :: c)
    (hup : s.up = true ∨ p = 0) (hm : Move cl sb s p c i t e) (hlog : i = client → t.lh = s.lh)
    (hbunpin : ∀ k b, i ≠ bunpin k b) : t.pins (after w p (t.procs p).code) = s.pins w := by
  have hwf := hctl.local_code hcode
  cases hm with
  | hit | recycle | bread | releasesleep | brelse | bwrite | toLog | toHome | setHead
  | writeLogDone | commitEmpty =>
    exact pins_pop hctl hcode (.proc rfl) (by simp) rfl (by simp) (by simp) (by simp)
      (by simp) (by simp)
  | bunpin => exact absurd rfl (hbunpin _ _)
  | getHead =>
    obtain ⟨-, hphase, hpins, -⟩ := hwf.ok
    apply pins_worker hctl hcode rfl
    · simp [hphase]
    · simp [hpins, pins]
  | clearHead =>
    obtain ⟨-, hphase, hpins⟩ := hwf.ok
    apply pins_worker hctl hcode rfl
    · simp [hphase]
    · simp [hpins, pins]
  | writeLog hb =>
    apply pins_worker hctl hcode rfl
    · simp [phase_writeLogCode]
    · simp [writeLogCode, breadCode, pins]
  | @install f k b hb =>
    apply pins_worker hctl hcode rfl
    · simp [phase_installCode]
    · obtain ⟨hlt, hget⟩ := List.getElem?_eq_some_iff.1 hb
      cases f with
      | true => simp [installCode, breadCode, brelseCode, pins]
      | false => simp [installCode, breadCode, pins, ← hget]
  | installDone ht =>
    refine pins_pop hctl hcode (.proc rfl) (by simp) rfl (by simp) (by simp) ?_ (by simp) (by simp)
    rintro f k ⟨⟩
    exact ht
  | commit hlh =>
    apply pins_worker hctl hcode rfl
    · simp [phase_commitCode]
    · simp [commitCode, pins]
  | endCommit | initDone =>
    have hw : w = some p := (hctl.worker p).1 (by rw [hcode]; rfl)
    obtain rfl : c = [client] := hwf.ok
    subst hw
    simp [after, phase, Sys.pins, hcode, pins]
  | sleep | panic => exact Sys.pins_eq hctl (fun _ _ => rfl) rfl rfl rfl
  | enter hc hroom =>
    have hphase : phase (s.procs p).code = none := by rw [hcode]; rfl
    obtain rfl := hctl.idle hc (hctl.booted hup hphase)
    obtain rfl : c = [client] := hwf.ok
    simp [after, phase, Sys.pins]
  | endLast hc hout he =>
    obtain rfl := hctl.idle_of_op ((hctl.locals p).ends (by simp [hcode])).1
    simp [after, phase, Sys.pins, pins]
  | endEarly hc hout he =>
    obtain rfl := hctl.idle_of_op ((hctl.locals p).ends (by simp [hcode])).1
    obtain rfl : c = [client] := hwf.ok
    simp [after, phase, Sys.pins]
  | keep =>
    obtain rfl : c = [client] := hwf.ok
    exact Sys.pins_eq hctl (.proc rfl) (by simp [hcode, phase]) rfl (by simp [hcode, pins])
  | start hop | finish hop =>
    obtain rfl : c = [] := hwf.ok
    exact Sys.pins_eq hctl (.proc rfl) (by simp [hcode, phase]) rfl (by simp [hcode, pins])
  | read hb =>
    obtain rfl : c = [] := hwf.ok
    exact Sys.pins_eq hctl (.proc rfl) (by simp [hcode, phase, breadCode]) rfl
      (by simp [hcode, pins, breadCode])
  | drop hx hclean =>
    obtain rfl : c = [] := hwf.ok
    exact Sys.pins_eq hctl (.proc rfl) (by simp [hcode, phase, brelseCode]) rfl
      (by simp [hcode, pins, brelseCode])
  | modify hx | absorb hx | flush hx | tooBig hx | outside hx =>
    exact Sys.pins_eq hctl (.proc rfl) (by simp) rfl (by simp)
  | append hx =>
    exact Sys.pins_eq hctl (.proc rfl) (by simp) (hlog rfl) (by simp)
  | endPanic hc =>
    rw [hctl.committing_of_op ((hctl.locals p).ends (by simp [hcode])).1] at hc
    cases hc

theorem refs_bget (hctl : Control cl sb w s) (hcode : (s.procs p).code = bget r b :: c)
    (hproc : t.procs p = { s.procs p with reg := Function.update (s.procs p).reg r j, code := c }) :
    (t.procs p).refs.Perm (⟨j, b, false⟩ :: (s.procs p).refs) := by
  have hrest : (t.procs p).restRefs r = (s.procs p).restRefs r := by
    apply restRefs_pop hcode (.inl rfl) <;> rw [hproc]
    cases r <;> simp [Reg.other]
  obtain ⟨hold, hnew⟩ := refs_swap hrest
    (Proc.regRef_of_not_live (by rw [hcode]; simp [live]))
    (Proc.regRef_of_points (b := b) (f := false) (by rw [hproc]; exact (hctl.local_code hcode).ok))
  have hreg : (t.procs p).reg r = j := by simp [hproc]
  rw [hreg] at hnew
  exact hnew.trans (hold.symm.cons _)

theorem hit (h : CacheInv w s) (hctl : Control cl sb w s) (hcode : (s.procs p).code = bget r b :: c)
    (hj : (s.bufs j).blockno = some b) (hother : s.Only t p)
    (hproc : t.procs p = { s.procs p with reg := Function.update (s.procs p).reg r j, code := c })
    (hbufs : s.Touched t j fun x => { x with refcnt := x.refcnt + 1 }) (hlinks : t.links = s.links)
    (hpins : t.pins (after w p (t.procs p).code) = s.pins w) : CacheInv (after w p (t.procs p).code) t := by
  refine ⟨by rw [hlinks]; exact h.ring, ?_⟩
  apply h.sound.take (x := ⟨j, b, false⟩) (others hother)
  · exact refs_bget hctl hcode hproc
  · rfl
  · exact hj
  · intro k
    refine (hbufs.part Buf.refcnt k).trans ?_
    show _ = (s.bufs k).refcnt + if j = k then 1 else 0
    split
    next hjk => rw [hjk]
    next => rfl
  · exact hbufs.keep Buf.blockno fun _ => rfl
  · exact hbufs.keep Buf.valid fun _ => rfl
  · exact hbufs.keep Buf.holder fun _ => rfl
  · exact hpins

theorem recycle (h : CacheInv w s) (hctl : Control cl sb w s)
    (hcode : (s.procs p).code = bget r b :: c) (hmiss : ∀ k ∈ s.order, (s.bufs k).blockno ≠ some b)
    (hfree : (s.bufs j).refcnt = 0) (hother : s.Only t p)
    (hproc : t.procs p = { s.procs p with reg := Function.update (s.procs p).reg r j, code := c })
    (hbufs : s.Touched t j fun x => { x with blockno := some b, valid := false, refcnt := 1 })
    (hlinks : t.links = s.links) (hpins : t.pins (after w p (t.procs p).code) = s.pins w) :
    CacheInv (after w p (t.procs p).code) t := by
  refine ⟨by rw [hlinks]; exact h.ring, ?_⟩
  apply h.sound.recycle (i := j) (b := b) (others hother)
  · exact refs_bget hctl hcode hproc
  · exact hfree
  · exact fun k => hmiss k (h.mem_order k)
  · exact hbufs.part Buf.refcnt
  · exact hbufs.part Buf.blockno
  · exact hbufs.part Buf.valid
  · exact hbufs.keep Buf.holder fun _ => rfl
  · exact hpins

theorem bread {d : Block} (h : CacheInv w s) (hctl : Control cl sb w s)
    (hcode : (s.procs p).code = bread r b :: c) (hfree : (s.ptr p r).holder = none)
    (hother : s.Only t p) (hproc : t.procs p = { s.procs p with code := c })
    (hbufs : s.Touched t ((s.procs p).reg r) fun x =>
      { x with holder := some p, valid := true, data := d }) (hlinks : t.links = s.links)
    (hpins : t.pins (after w p (t.procs p).code) = s.pins w) :
    CacheInv (after w p (t.procs p).code) t := by
  have hold : Points r b false (s.procs p).code := by
    rw [hcode]
    exact ⟨if_pos rfl, if_pos rfl⟩
  have hnew : Points r b true (t.procs p).code := by
    rw [hproc]
    exact (hctl.local_code hcode).ok.1
  have hrest : (t.procs p).restRefs r = (s.procs p).restRefs r := by
    apply restRefs_pop hcode (.inr (.inl rfl)) <;> rw [hproc]
  obtain ⟨hrefs, hrefs'⟩ := refs_swap hrest (Proc.regRef_of_points hold) (Proc.regRef_of_points hnew)
  have hreg : (t.procs p).reg r = (s.procs p).reg r := by rw [hproc]
  rw [hreg] at hrefs'
  refine ⟨by rw [hlinks]; exact h.ring, ?_⟩
  apply h.sound.relock (f := true) (others hother) hrefs hrefs' hfree
  · exact hbufs.part Buf.holder
  · intro k hk
    refine (hbufs.part Buf.valid k).trans ?_
    split
    next => rfl
    next => exact hk
  · intro _
    exact (hbufs.part Buf.valid _).trans (if_pos rfl)
  · exact hbufs.keep Buf.blockno fun _ => rfl
  · exact hbufs.keep Buf.refcnt fun _ => rfl
  · exact hpins

theorem releasesleep (h : CacheInv w s) (hctl : Control cl sb w s)
    (hcode : (s.procs p).code = releasesleep r b :: c) (hheld : (s.ptr p r).holder = some p)
    (hother : s.Only t p) (hproc : t.procs p = { s.procs p with code := c })
    (hbufs : s.Touched t ((s.procs p).reg r) fun x => { x with holder := none })
    (hlinks : t.links = s.links) (hpins : t.pins (after w p (t.procs p).code) = s.pins w) :
    CacheInv (after w p (t.procs p).code) t := by
  have hold : Points r b true (s.procs p).code := by
    rw [hcode]
    exact ⟨if_pos rfl, if_pos rfl⟩
  have hnew : Points r b false (t.procs p).code := by
    rw [hproc]
    exact (hctl.local_code hcode).ok
  have hrest : (t.procs p).restRefs r = (s.procs p).restRefs r := by
    apply restRefs_pop hcode (.inr (.inr (.inl rfl))) <;> rw [hproc]
  obtain ⟨hrefs, hrefs'⟩ := refs_swap hrest (Proc.regRef_of_points hold) (Proc.regRef_of_points hnew)
  have hreg : (t.procs p).reg r = (s.procs p).reg r := by rw [hproc]
  rw [hreg] at hrefs'
  refine ⟨by rw [hlinks]; exact h.ring, ?_⟩
  apply h.sound.relock (f := false) (others hother) hrefs hrefs' hheld
  · exact hbufs.part Buf.holder
  · intro k hk
    exact (hbufs.keep Buf.valid (fun _ => rfl) k).trans hk
  · simp
  · exact hbufs.keep Buf.blockno fun _ => rfl
  · exact hbufs.keep Buf.refcnt fun _ => rfl
  · exact hpins

/-- A buffer that is given up goes to the front of the list if nobody else uses it. -/
theorem ring_brelse (h : CacheInv w s)
    (hl : t.links = s.links ∨ t.links = (s.links.unlink j).pushFront j) :
    ∃ l, t.links.Ring l ∧ ∀ i, i ∈ l := by
  rcases hl with hl | hl
  · rw [hl]
    exact h.ring
  · obtain ⟨l, hring, hall⟩ := h.ring
    obtain ⟨l₁, l₂, rfl⟩ := List.append_of_mem (hall j)
    have hj : j ∉ l₁ ++ l₂ := (List.nodup_cons.1 (List.nodup_middle.1 hring.nodup)).1
    refine ⟨j :: (l₁ ++ l₂), hl ▸ hring.unlink.pushFront hj, fun i => ?_⟩
    have hi := hall i
    simp only [List.mem_append, List.mem_cons] at hi ⊢
    tauto

theorem brelse (h : CacheInv w s) (hctl : Control cl sb w s)
    (hcode : (s.procs p).code = brelse r b :: c) (hother : s.Only t p)
    (hproc : t.procs p = { s.procs p with code := c })
    (hbufs : s.Touched t ((s.procs p).reg r) fun x => { x with refcnt := x.refcnt - 1 })
    (hl : t.links = s.links ∨
      t.links = (s.links.unlink ((s.procs p).reg r)).pushFront ((s.procs p).reg r))
    (hpins : t.pins (after w p (t.procs p).code) = s.pins w) :
    CacheInv (after w p (t.procs p).code) t := by
  have hold : Points r b false (s.procs p).code := by
    rw [hcode]
    exact ⟨if_pos rfl, if_pos rfl⟩
  have hnew : live r (t.procs p).code = none := by
    rw [hproc]
    exact (hctl.local_code hcode).ok
  have hrest : (t.procs p).restRefs r = (s.procs p).restRefs r := by
    apply restRefs_pop hcode (.inr (.inr (.inr rfl))) <;> rw [hproc]
  obtain ⟨hrefs, hrefs'⟩ := refs_swap hrest (Proc.regRef_of_points hold) (Proc.regRef_of_not_live hnew)
  refine ⟨h.ring_brelse hl, ?_⟩
  apply h.sound.release (i := (s.procs p).reg r) (b := b) (others hother)
  · exact hrefs.trans (hrefs'.symm.cons _)
  · intro k
    refine (hbufs.part Buf.refcnt k).trans ?_
    show _ = (s.bufs k).refcnt - if (s.procs p).reg r = k then 1 else 0
    split
    next hjk => rw [hjk]
    next => rfl
  · exact hbufs.keep Buf.blockno fun _ => rfl
  · exact hbufs.keep Buf.valid fun _ => rfl
  · exact hbufs.keep Buf.holder fun _ => rfl
  · exact hpins

theorem touch {d : Buf m → Block} (h : CacheInv w s)
    (hbufs : s.Touched t j fun x => { x with data := d x }) (hother : s.Only t p)
    (hrefs : (t.procs p).refs.Perm (s.procs p).refs) (hpins : t.pins w' = s.pins w)
    (hlinks : t.links = s.links) : CacheInv w' t := by
  refine h.same (fun i => ⟨?_, ?_, ?_, ?_⟩) hother hrefs hpins hlinks
  · exact hbufs.keep Buf.blockno (fun _ => rfl) i
  · exact hbufs.keep Buf.valid (fun _ => rfl) i
  · exact hbufs.keep Buf.refcnt (fun _ => rfl) i
  · exact hbufs.keep Buf.holder (fun _ => rfl) i

/-- The references of a process that pops an instruction on no pointer. -/
theorem refs_pop (hctl : Control cl sb w s) (hcode : (s.procs p).code = i :: c)
    (hi : i.moves = false) (hc : (t.procs p).code = c) (hheld : (t.procs p).held = (s.procs p).held)
    (hreg : (t.procs p).reg = (s.procs p).reg) : (t.procs p).refs = (s.procs p).refs := by
  apply Proc.refs_congr (by rw [hheld]) hreg
  intro r
  rw [hc, hcode]
  exact live_tail (hctl.local_code hcode) hi r

theorem bunpin (h : CacheInv w s) (hctl : Control cl sb w s)
    (hcode : (s.procs p).code = bunpin k b :: c) (hother : s.Only t p)
    (hproc : t.procs p = { s.procs p with code := c })
    (hbufs : s.Touched t ((s.procs p).reg .dbuf) fun x => { x with refcnt := x.refcnt - 1 })
    (hlh : t.lh = s.lh) (hlinks : t.links = s.links) :
    CacheInv (after w p (t.procs p).code) t := by
  have hwf := hctl.local_code hcode
  obtain ⟨hpoints, hphase, hpins⟩ := hwf.ok
  have hw : w = some p := (hctl.worker p).1 (by rw [hcode]; simp [phase, hphase])
  have hrefs := refs_pop hctl hcode rfl (t := t) (by rw [hproc]) (by rw [hproc]) (by rw [hproc])
  have hpoints' : Points .dbuf b true (s.procs p).code := by rw [hcode]; exact hpoints
  refine ⟨by rw [hlinks]; exact h.ring, ?_⟩
  rw [hctl.after_eq (by rw [hproc, hcode]; rfl)]
  apply h.sound.unpin (i := (s.procs p).reg .dbuf) (b := b)
  · exact hbufs.keep Buf.blockno fun _ => rfl
  · exact hbufs.keep Buf.valid fun _ => rfl
  · exact hbufs.keep Buf.holder fun _ => rfl
  · intro q
    by_cases hq : q = p
    · subst hq
      exact List.Perm.of_eq hrefs
    · exact List.Perm.of_eq (others (u := w) (v := w) hother q hq)
  · exact h.sound.key p _ (Proc.mem_refs_of_points hpoints')
  · subst hw
    show pins s.lh (s.procs p).code = b :: pins t.lh (t.procs p).code
    rw [hcode, hproc, hlh, hpins]
    rfl
  · intro k
    refine (hbufs.part Buf.refcnt k).trans ?_
    show _ = (s.bufs k).refcnt - if (s.procs p).reg .dbuf = k then 1 else 0
    split
    next hjk => rw [hjk]
    next => rfl

/-- The block number `log_write` reads is the one the buffer was read for. -/
theorem blockAt_eq (h : CacheInv w s) (hx : x ∈ (s.procs p).held) :
    (s.bufs x.buf).blockno = some x.block ∧ s.blockAt x = x.block := by
  have hkey : (s.bufs x.buf).blockno = some x.block :=
    h.sound.key p x.ref (Proc.mem_refs_of_held hx)
  exact ⟨hkey, by rw [Sys.blockAt, hkey]; rfl⟩

theorem refs_mark {g : Bool} (hx : (s.procs p).held[k]? = some x)
    (hheld : (t.procs p).held = (s.procs p).held.set k { x with dirty := g })
    (hreg : (t.procs p).reg = (s.procs p).reg) (hc : (t.procs p).code = (s.procs p).code) :
    (t.procs p).refs = (s.procs p).refs := by
  apply Proc.refs_congr _ hreg (fun r => by rw [hc]; exact ⟨rfl, rfl⟩)
  obtain ⟨hlt, hget⟩ := List.getElem?_eq_some_iff.1 hx
  rw [hheld, List.map_set]
  show List.set _ k x.ref = _
  have hlt' : k < ((s.procs p).held.map Held.ref).length := by simpa using hlt
  rw [show x.ref = ((s.procs p).held.map Held.ref)[k] by simp [hget], List.set_getElem_self]

theorem append (h : CacheInv none s) (hctl : Control cl sb none s)
    (hcode : (s.procs p).code = client :: c) (hx : (s.procs p).held[k]? = some x)
    (hmem : s.blockAt x ∉ s.lh) (hother : s.Only t p)
    (hheld : (t.procs p).held = (s.procs p).held.set k { x with dirty := false })
    (hreg : (t.procs p).reg = (s.procs p).reg) (hc : (t.procs p).code = (s.procs p).code)
    (hbufs : s.Touched t x.buf fun y => { y with refcnt := y.refcnt + 1 })
    (hlh : t.lh = s.lh ++ [s.blockAt x]) (hlinks : t.links = s.links) :
    CacheInv (after none p (t.procs p).code) t := by
  have hxmem : x ∈ (s.procs p).held := List.mem_of_getElem? hx
  have hrefs := refs_mark hx hheld hreg hc
  refine ⟨by rw [hlinks]; exact h.ring, ?_⟩
  rw [hctl.after_eq (by rw [hc])]
  apply h.sound.pin (i := x.buf) (b := s.blockAt x)
  · exact hbufs.keep Buf.blockno fun _ => rfl
  · exact hbufs.keep Buf.valid fun _ => rfl
  · exact hbufs.keep Buf.holder fun _ => rfl
  · intro q
    by_cases hq : q = p
    · subst hq
      exact List.Perm.of_eq hrefs
    · exact List.Perm.of_eq (others (u := none) (v := none) hother q hq)
  · rw [(h.blockAt_eq hxmem).2]
    exact (h.blockAt_eq hxmem).1
  · exact h.sound.valid p x.ref (Proc.mem_refs_of_held hxmem) rfl
  · exact hmem
  · intro k
    refine (hbufs.part Buf.refcnt k).trans ?_
    show _ = (s.bufs k).refcnt + if x.buf = k then 1 else 0
    split
    next hjk => rw [hjk]
    next => rfl
  · exact hlh

theorem refs_bare (hcode : (s.procs p).code = i :: c) (hold : ∀ r, live r (i :: c) = none)
    (hnew : ∀ r, live r (t.procs p).code = none) (hheld : (t.procs p).held = (s.procs p).held)
    (hreg : (t.procs p).reg = (s.procs p).reg) :
    (t.procs p).refs = (s.procs p).refs := by
  apply Proc.refs_congr (by rw [hheld]) hreg
  intro r
  rw [hcode, hold r, hnew r]
  exact ⟨rfl, (locked_of_not_live (hnew r)).trans (locked_of_not_live (hold r)).symm⟩

theorem step (h : CacheInv w s) (hctl : Control cl sb w s) (hcode : (s.procs p).code = i :: c)
    (hup : s.up = true ∨ p = 0) (hm : Move cl sb s p c i t e) :
    CacheInv (after w p (t.procs p).code) t := by
  have hwf := hctl.local_code hcode
  have hpins := pins_step hctl hcode hup hm
  have hnone : ∀ k, (s.bufs k).blockno = (s.bufs k).blockno ∧ (s.bufs k).valid = (s.bufs k).valid ∧
      (s.bufs k).refcnt = (s.bufs k).refcnt ∧ (s.bufs k).holder = (s.bufs k).holder :=
    fun _ => ⟨rfl, rfl, rfl, rfl⟩
  have hpop : ∀ t : Sys m, i.moves = false → (t.procs p).code = c →
      (t.procs p).held = (s.procs p).held → (t.procs p).reg = (s.procs p).reg →
      (t.procs p).refs.Perm (s.procs p).refs := fun t hi hc hheld hreg =>
    List.Perm.of_eq (refs_pop hctl hcode hi hc hheld hreg)
  cases hm with
  | hit hi =>
    exact h.hit hctl hcode hi (.proc rfl) (by simp) (.of_eq rfl) rfl (hpins (by simp) (by simp))
  | recycle hmiss hfree =>
    exact h.recycle hctl hcode hmiss hfree (.proc rfl) (by simp) (.of_eq rfl) rfl
      (hpins (by simp) (by simp))
  | bread hfree =>
    exact h.bread (d := s.contentOf p _) hctl hcode hfree (.proc rfl) (by simp)
      (.of_eq rfl) rfl (hpins (by simp) (by simp))
  | releasesleep hheld =>
    exact h.releasesleep hctl hcode hheld (.proc rfl) (by simp) (.of_eq rfl) rfl
      (hpins (by simp) (by simp))
  | brelse hl =>
    exact h.brelse hctl hcode (.proc rfl) (by simp) (.of_eq rfl) hl (hpins (by simp) (by simp))
  | bunpin =>
    exact h.bunpin hctl hcode (.proc rfl) (by simp) (.of_eq rfl) rfl rfl
  | toLog =>
    exact h.touch (d := fun _ => (s.ptr p .dbuf).data) (.of_eq rfl) (.proc rfl)
      (hpop _ rfl (by simp) (by simp) (by simp)) (hpins (by simp) (by simp)) rfl
  | toHome =>
    exact h.touch (d := fun _ => (s.ptr p .lbuf).data) (.of_eq rfl) (.proc rfl)
      (hpop _ rfl (by simp) (by simp) (by simp)) (hpins (by simp) (by simp)) rfl
  | setHead =>
    exact h.touch (d := fun x => encode s.lh x.data) (.of_eq rfl) (.proc rfl)
      (hpop _ rfl (by simp) (by simp) (by simp)) (hpins (by simp) (by simp)) rfl
  | bwrite | getHead | clearHead | writeLogDone | installDone | commitEmpty | endCommit | initDone
  | enter | endEarly =>
    exact h.same hnone (.proc rfl) (hpop _ rfl (by simp) (by simp) (by simp))
      (hpins (by simp) (by simp)) rfl
  | writeLog | install | commit =>
    refine h.same hnone (.proc rfl) (List.Perm.of_eq ?_) (hpins (by simp) (by simp)) rfl
    refine refs_bare hcode (fun _ => rfl) (fun r => ?_) (by simp) (by simp)
    rw [Sys.goto_eq, Sys.setProc_procs_self]
    cases r <;> rfl
  | sleep =>
    exact h.same (p := p) hnone (fun _ _ => rfl) (.refl _) (hpins (by simp) (by simp)) rfl
  | panic =>
    refine h.same (p := p) hnone (fun _ _ => rfl) (.refl _) ?_ rfl
    exact Sys.pins_eq hctl (fun _ _ => rfl) rfl rfl rfl
  | tooBig | outside =>
    refine h.same (p := p) hnone (.proc rfl) (List.Perm.of_eq ?_)
      (hpins (fun _ => rfl) (by simp)) rfl
    exact Proc.refs_congr (by simp) (by simp) (by simp)
  | endLast =>
    refine h.same hnone (.proc rfl) (List.Perm.of_eq ?_) (hpins (by simp) (by simp)) rfl
    refine refs_bare hcode (fun _ => rfl) (fun r => ?_) (by simp) (by simp)
    rw [Sys.setProc_procs_self]
    rfl
  | keep =>
    obtain rfl : c = [client] := hwf.ok
    refine h.same hnone (.proc rfl) ?_ (hpins (by simp) (by simp)) rfl
    rw [Sys.setProc_procs_self]
    simp only [Proc.refs, Proc.regRef, hcode, live, locked, List.map_cons, List.append_nil,
      if_true, reduceCtorEq, if_false]
    exact (List.perm_append_singleton _ _).symm
  | start | read | finish =>
    obtain rfl : c = [] := hwf.ok
    refine h.same hnone (.proc rfl) (List.Perm.of_eq ?_) (hpins (fun _ => rfl) (by simp)) rfl
    refine refs_bare hcode (fun _ => rfl) (fun r => ?_) (by simp) (by simp)
    rw [Sys.goto_eq, Sys.setProc_procs_self]
    cases r <;> rfl
  | @modify k x d hx hop =>
    refine h.touch (d := fun _ => d) (.of_eq rfl) (.proc rfl) (List.Perm.of_eq ?_)
      (hpins (fun _ => rfl) (by simp)) rfl
    exact refs_mark (g := true) hx (by simp) (by simp) (by simp)
  | absorb hx | flush hx =>
    refine h.same hnone (.proc rfl) (List.Perm.of_eq ?_) (hpins (fun _ => rfl) (by simp)) rfl
    exact refs_mark (g := false) hx (by simp) (by simp) (by simp)
  | append hx hop hout hroom hmem =>
    obtain rfl := hctl.idle_of_outstanding hout
    exact h.append hctl hcode hx hmem (.proc rfl) (by simp) (by simp) (by simp) (.of_eq rfl) rfl rfl
  | @drop k x hx hclean =>
    obtain rfl : c = [] := hwf.ok
    refine h.same hnone (.proc rfl) ?_ (hpins (fun _ => rfl) (by simp)) rfl
    rw [Sys.setProc_procs_self]
    obtain ⟨hlt, hget⟩ := List.getElem?_eq_some_iff.1 hx
    have hperm := (List.getElem_cons_eraseIdx_perm hlt).map Held.ref
    rw [hget] at hperm
    simp only [Proc.refs, Proc.regRef, hcode, live, locked, brelseCode, List.append_nil,
      List.cons_append, List.nil_append, if_true, reduceCtorEq, if_false, Function.update_self]
    exact (List.perm_append_singleton _ _).trans hperm
  | endPanic hc =>
    rw [hctl.committing_of_op ((hctl.locals p).ends (by simp [hcode])).1] at hc
    cases hc

end Moves

theorem boot {d : Disk} {n : Nat} : CacheInv (some 0) (boot sb d n : Sys m) := by
  have hrefs : ∀ q : Fin (m + 1), ((Log.boot sb d n : Sys m).procs q).refs = [] := by
    intro q
    by_cases hq : q = 0
    · simp [Log.boot, Proc.refs, Proc.regRef, hq, recoverFromLog, readHead, writeHead, breadCode,
        brelseCode, live]
    · simp [Log.boot, Proc.refs, Proc.regRef, hq, live]
  have hpins : (Log.boot sb d n : Sys m).pins (some 0) = [] := by
    simp [Sys.pins, Log.boot, recoverFromLog, readHead, breadCode, pins]
  refine ⟨⟨(List.finRange NBUF).reverse, ?_, by simp⟩, ?_⟩
  · have hring := (Links.ring_empty (ι := BufId)).foldl_pushFront (List.nodup_finRange NBUF)
      (by simp)
    rw [List.append_nil] at hring
    exact hring
  · constructor
    case key_injective => exact fun _ _ _ hkey => by cases hkey
    case refcnt =>
      intro i
      have hzero : ((Log.boot sb d n : Sys m).cache (some 0)).pinned i = 0 :=
        if_neg (by simp [Sys.cache, hpins])
      rw [hzero]
      show 0 = ∑ q, RefCache.uses ((Log.boot sb d n : Sys m).procs q).refs i + 0
      simp [hrefs, RefCache.uses]
    case key => simp [Sys.cache, hrefs]
    case holder =>
      intro q i
      show RefCache.locks ((Log.boot sb d n : Sys m).procs q).refs i = 0
      rw [hrefs]
      rfl
    case valid => simp [Sys.cache, hrefs]
    case pins => simp [Sys.cache, hpins]
    case pins_nodup => simp [Sys.cache, hpins]

end CacheInv

end Xv6.Log
