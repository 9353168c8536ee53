import Xv6.Log.Discipline

/-!
# What a step can do

`Move` lists every outcome of an instruction with the conditions under which the
code reaches it; every step of a process is one of them.
-/

namespace Xv6.Log

open Instr

variable {m : Nat}

namespace Sys

variable (s : Sys m) (p q : Fin (m + 1)) (i j : BufId)

section

variable (f : Buf m → Buf m)

theorem setBuf_bufs : (s.setBuf i f).bufs j = if i = j then f (s.bufs i) else s.bufs j := by
  simp only [setBuf, Function.update_apply, eq_comm]

end

section

variable (f g : Proc → Proc)

@[simp] theorem setProc_procs_self : (s.setProc p f).procs p = f (s.procs p) := by
  simp [setProc]

theorem setProc_procs_of_ne {q : Fin (m + 1)} (h : q ≠ p) :
    (s.setProc p f).procs q = s.procs q := by
  simp [setProc, h]

@[simp] theorem setProc_setProc : (s.setProc p f).setProc p g = s.setProc p fun x => g (f x) := by
  simp [setProc]

end

@[simp] theorem goto_eq (c : Code) : s.goto p c = s.setProc p fun x => { x with code := c } := rfl

@[simp] theorem setReg_eq (r : Reg) :
    s.setReg p r i = s.setProc p fun x => { x with reg := Function.update x.reg r i } := rfl

end Sys

/-- From `s` to `t` only process `p` changes. -/
def Sys.Only (s t : Sys m) (p : Fin (m + 1)) : Prop := ∀ q, q ≠ p → t.procs q = s.procs q

theorem Sys.Only.proc {s X : Sys m} {p : Fin (m + 1)} {f : Proc → Proc} (hX : X.procs = s.procs) :
    s.Only (X.setProc p f) p := by
  intro q hq
  rw [X.setProc_procs_of_ne p f hq, hX]

def Sys.Touched (s t : Sys m) (i : BufId) (f : Buf m → Buf m) : Prop :=
  ∀ j, t.bufs j = if i = j then f (s.bufs i) else s.bufs j

namespace Sys.Touched

variable {s t : Sys m} {i : BufId} {f : Buf m → Buf m} {β : Type*}

theorem of_eq (h : t.bufs = (s.setBuf i f).bufs) : s.Touched t i f := by
  intro j
  rw [h, setBuf_bufs]

theorem part (h : s.Touched t i f) (g : Buf m → β) (j : BufId) :
    g (t.bufs j) = if i = j then g (f (s.bufs i)) else g (s.bufs j) := by
  rw [h j]
  split <;> rfl

theorem keep (h : s.Touched t i f) (g : Buf m → β) (hg : ∀ x, g (f x) = g x) (j : BufId) :
    g (t.bufs j) = g (s.bufs j) := by
  rw [h.part g j, hg]
  split
  next hij => rw [hij]
  next => rfl

end Sys.Touched

section

variable (cl : Clients) (sb : Superblock) (s : Sys m) (p : Fin (m + 1)) (c : Code)

def Sys.blockOf (r : Reg) : Nat := (s.ptr p r).blockno.getD 0

def Sys.contentOf (r : Reg) : Block :=
  if (s.ptr p r).valid then (s.ptr p r).data else s.disk (s.blockOf p r)

def Sys.blockAt (x : Held) : Nat := (s.bufs x.buf).blockno.getD 0

/-- The outcomes of an instruction of process `p` that has the code `c` left. -/
inductive Move : Instr → Sys m → Event → Prop
  | hit {r : Reg} {b : Nat} {i : BufId} (hi : (s.bufs i).blockno = some b) :
      Move (bget r b) ((s.setBuf i fun x => { x with refcnt := x.refcnt + 1 }).setProc p fun q =>
        { q with reg := Function.update q.reg r i, code := c }) .tau
  | recycle {r : Reg} {b : Nat} {i : BufId} (hmiss : ∀ j ∈ s.order, (s.bufs j).blockno ≠ some b)
      (hfree : (s.bufs i).refcnt = 0) :
      Move (bget r b) ((s.setBuf i fun x =>
        { x with blockno := some b, valid := false, refcnt := 1 }).setProc p fun q =>
        { q with reg := Function.update q.reg r i, code := c }) .tau
  | bread {r : Reg} {b : Nat} (hfree : (s.ptr p r).holder = none) :
      Move (bread r b) ((s.setBuf ((s.procs p).reg r) fun x =>
        { x with holder := some p, valid := true, data := s.contentOf p r }).goto p c)
        (.returned (s.blockOf p r) (s.contentOf p r))
  | releasesleep {r : Reg} {b : Nat} (hheld : (s.ptr p r).holder = some p) :
      Move (releasesleep r b)
        ((s.setBuf ((s.procs p).reg r) fun x => { x with holder := none }).goto p c) .tau
  | brelse {r : Reg} {b : Nat} {l : Lib.Links BufId}
      (hl : l = s.links ∨ l = (s.links.unlink ((s.procs p).reg r)).pushFront ((s.procs p).reg r)) :
      Move (brelse r b)
        (((s.setBuf ((s.procs p).reg r) fun x => { x with refcnt := x.refcnt - 1 }).setLinks l).goto p c)
        .tau
  | bwrite {k : Target} (hheld : (s.ptr p k.reg).holder = some p) :
      Move (bwrite k)
        ((s.writeDisk (s.blockOf p k.reg) (s.ptr p k.reg).data).goto p c)
        (if k = .header ∧ s.lh ≠ [] then .committed else .tau)
  | bunpin {t b : Nat} :
      Move (bunpin t b)
        ((s.setBuf ((s.procs p).reg .dbuf) fun x => { x with refcnt := x.refcnt - 1 }).goto p c) .tau
  | toLog {t b : Nat} :
      Move (toLog t b) ((s.setBuf ((s.procs p).reg .lbuf) fun x =>
        { x with data := (s.ptr p .dbuf).data }).goto p c)
        (.changed (s.blockOf p .lbuf) (s.ptr p .dbuf).data)
  | toHome {t b : Nat} :
      Move (toHome t b) ((s.setBuf ((s.procs p).reg .dbuf) fun x =>
        { x with data := (s.ptr p .lbuf).data }).goto p c)
        (.changed (s.blockOf p .dbuf) (s.ptr p .lbuf).data)
  | setHead :
      Move setHead ((s.setBuf ((s.procs p).reg .lbuf) fun x =>
        { x with data := encode s.lh x.data }).goto p c)
        (.changed (s.blockOf p .lbuf) (encode s.lh (s.ptr p .lbuf).data))
  | getHead : Move getHead ((s.setLh (decode (s.ptr p .lbuf).data)).goto p c) .tau
  | clearHead : Move clearHead ((s.setLh []).goto p c) .tau
  | writeLog {t b : Nat} (hb : s.lh[t]? = some b) :
      Move (writeLog t) (s.goto p (writeLogCode sb t b ++ c)) .tau
  | writeLogDone {t : Nat} (ht : s.lh[t]? = none) : Move (writeLog t) (s.goto p c) .tau
  | install {f : Bool} {t b : Nat} (hb : s.lh[t]? = some b) :
      Move (installTrans f t) (s.goto p (installCode sb f t b ++ c)) .tau
  | installDone {f : Bool} {t : Nat} (ht : s.lh[t]? = none) :
      Move (installTrans f t) (s.goto p c) .tau
  | commit (hlh : s.lh ≠ []) : Move commit (s.goto p (commitCode sb ++ c)) .tau
  | commitEmpty (hlh : s.lh = []) : Move commit (s.goto p c) .tau
  | endCommit : Move endCommit ((s.setCommitting false).wakeup.goto p c) .tau
  | sleep (hwait : s.committing = true ∨
        LOGSIZE < s.lh.length + (s.outstanding + 1) * MAXOPBLOCKS) : Move beginOp (s.sleep p) .tau
  | enter (hc : s.committing = false)
      (hroom : s.lh.length + (s.outstanding + 1) * MAXOPBLOCKS ≤ LOGSIZE) :
      Move beginOp (s.enter.setProc p fun q =>
        { q with op := some s.ops, logged := [], code := c }) (.began s.ops)
  | endLast {e : Event} (hc : s.committing = false) (hout : s.outstanding - 1 = 0)
      (he : e = .tau ∨ ∃ o, e = .ended o) :
      Move endOp ((s.retire.setCommitting true).setProc p fun q =>
        { q with op := none, logged := [], code := [Instr.commit, Instr.endCommit] ++ c }) e
  | endEarly {e : Event} (hc : s.committing = false) (hout : s.outstanding - 1 ≠ 0)
      (he : e = .tau ∨ ∃ o, e = .ended o) :
      Move endOp (s.retire.wakeup.setProc p fun q =>
        { q with op := none, logged := [], code := c }) e
  | initDone : Move initDone (s.initialised.goto p c) .recovered
  | keep {b : Nat} :
      Move (keep b) (s.setProc p fun q =>
        { q with held := ⟨q.reg .dbuf, b, false⟩ :: q.held, code := c }) .tau
  | start (hop : (s.procs p).op = none) :
      Move client (s.goto p ([beginOp, client] ++ c)) .tau
  | read {b : Nat} (hb : cl = .logged → sb.home b) :
      Move client (s.goto p (breadCode .dbuf b ++ [Instr.keep b, client] ++ c)) .tau
  | modify {k : Nat} {x : Held} {d : Block} (hx : (s.procs p).held[k]? = some x)
      (hop : cl = .logged → (s.procs p).op.isSome) :
      Move client ((s.setBuf x.buf fun y => { y with data := d }).setProc p fun q =>
        { q with held := q.held.set k { x with dirty := true } }) (.changed (s.blockAt x) d)
  | absorb {k : Nat} {x : Held} (hx : (s.procs p).held[k]? = some x)
      (hop : cl = .logged → (s.procs p).op.isSome) (hout : 1 ≤ s.outstanding)
      (hroom : s.lh.length < LOGSIZE ∧ s.lh.length < sb.nlog - 1)
      (hmem : s.blockAt x ∈ s.lh) :
      Move client (s.setProc p fun q =>
        { q with
          logged := q.logged.insert (s.blockAt x)
          held := q.held.set k { x with dirty := false } })
        (.wrote (s.procs p).op (s.blockAt x) (s.bufs x.buf).data)
  | append {k : Nat} {x : Held} (hx : (s.procs p).held[k]? = some x)
      (hop : cl = .logged → (s.procs p).op.isSome) (hout : 1 ≤ s.outstanding)
      (hroom : s.lh.length < LOGSIZE ∧ s.lh.length < sb.nlog - 1)
      (hmem : s.blockAt x ∉ s.lh) :
      Move client (((s.setLh (s.lh ++ [s.blockAt x])).setBuf x.buf fun y =>
        { y with refcnt := y.refcnt + 1 }).setProc p fun q =>
        { q with
          logged := q.logged.insert (s.blockAt x)
          held := q.held.set k { x with dirty := false } })
        (.wrote (s.procs p).op (s.blockAt x) (s.bufs x.buf).data)
  | flush {k : Nat} {x : Held} (hx : (s.procs p).held[k]? = some x) (hfree : cl = .free)
      (hheld : (s.bufs x.buf).holder = some p) :
      Move client ((s.writeDisk (s.blockAt x) (s.bufs x.buf).data).setProc p fun q =>
        { q with held := q.held.set k { x with dirty := false } }) .tau
  | drop {k : Nat} {x : Held} (hx : (s.procs p).held[k]? = some x) (hclean : x.dirty = false) :
      Move client (s.setProc p fun q =>
        { q with
          held := q.held.eraseIdx k
          reg := Function.update q.reg .dbuf x.buf
          code := brelseCode .dbuf x.block ++ [client] ++ c }) .tau
  | finish (hop : (s.procs p).op.isSome)
      (hclean : cl = .logged → ∀ x ∈ (s.procs p).held, x.dirty = false) :
      Move client (s.goto p ([endOp, client] ++ c)) .tau
  | tooBig {k : Nat} {x : Held} (hx : (s.procs p).held[k]? = some x)
      (hop : cl = .logged → (s.procs p).op.isSome)
      (hfull : LOGSIZE ≤ s.lh.length ∨ sb.nlog - 1 ≤ s.lh.length) :
      Move client ((s.panic .tooBig).setProc p fun q =>
        { q with logged := q.logged.insert (s.blockAt x) }) .tau
  | outside {k : Nat} {x : Held} (hx : (s.procs p).held[k]? = some x)
      (hop : cl = .logged → (s.procs p).op.isSome) (hout : s.outstanding < 1) :
      Move client ((s.panic .outsideTrans).setProc p fun q =>
        { q with logged := q.logged.insert (s.blockAt x) }) .tau
  | endPanic (hc : s.committing = true) : Move endOp (s.retire.panic .committing) .tau
  | panic {i : Instr} {k : Panic} (hk : k ≠ .tooBig) : Move i (s.panic k) .tau

end

section

variable {cl : Clients} {sb : Superblock} {s t : Sys m} {p : Fin (m + 1)} {c : Code} {e : Event}
  {ch : Choice}

theorem bget_move {r : Reg} {b : Nat} : Move cl sb s p c (bget r b) (s.bget p r b c) .tau := by
  unfold Sys.bget
  split
  next i hi =>
    have hb := List.find?_some hi
    simp only [Sys.setReg_eq, Sys.goto_eq, Sys.setProc_setProc]
    exact .hit (by simpa using hb)
  next hmiss =>
    split
    next i hi =>
      have hfree := List.find?_some hi
      simp only [Sys.setReg_eq, Sys.goto_eq, Sys.setProc_setProc]
      exact .recycle (by simpa using hmiss) (by simpa using hfree)
    next => exact .panic (by decide)

theorem brelse_move {r : Reg} {b : Nat} : Move cl sb s p c (brelse r b) (s.brelse p r c) .tau := by
  unfold Sys.brelse
  dsimp only
  split
  · exact Move.brelse (.inr rfl)
  · exact Move.brelse (l := s.links) (.inl rfl)

theorem endOp_move : Move cl sb s p c endOp (s.endOp p c).1 (s.endOp p c).2 := by
  unfold Sys.endOp
  dsimp only
  split
  next hc => exact .endPanic hc
  next hc =>
    have hc : s.committing = false := by simpa [Sys.retire] using hc
    split
    next hout => exact .endLast hc hout (by cases (s.procs p).op <;> simp)
    next hout => exact .endEarly hc hout (by cases (s.procs p).op <;> simp)

theorem logWrite_move {k : Nat} {x : Held} (hx : (s.procs p).held[k]? = some x)
    (hop : cl = .logged → (s.procs p).op.isSome) :
    Move cl sb s p c client (s.logWrite p sb (s.procs p).op k x).1
      (s.logWrite p sb (s.procs p).op k x).2 := by
  unfold Sys.logWrite
  dsimp only
  split
  next hfull => exact .tooBig hx hop hfull
  next hfull =>
    simp only [Sys.setProc_lh, not_or, not_le] at hfull
    split
    next hout => exact .outside hx hop hout
    next hout =>
      simp only [Sys.setProc_outstanding, not_lt] at hout
      simp only [Sys.setProc_setProc, Sys.setProc_lh]
      split
      next hmem => exact .absorb hx hop hout hfull hmem
      next hmem => exact .append hx hop hout hfull hmem

theorem call_move (h : s.call p cl sb c ch = some (t, e)) : Move cl sb s p c client t e := by
  cases ch with
  | go => simp [Sys.call] at h
  | start =>
    simp only [Sys.call, Option.ite_none_right_eq_some, Option.some.injEq, Prod.mk.injEq] at h
    obtain ⟨hop, rfl, rfl⟩ := h
    exact .start hop
  | read b =>
    simp only [Sys.call, Option.ite_none_right_eq_some, Option.some.injEq, Prod.mk.injEq] at h
    obtain ⟨hb, rfl, rfl⟩ := h
    exact .read hb
  | modify k d =>
    simp only [Sys.call, Option.bind_eq_bind, Option.bind_eq_some_iff,
      Option.ite_none_right_eq_some, Option.some.injEq, Prod.mk.injEq] at h
    obtain ⟨x, hx, hop, rfl, rfl⟩ := h
    exact .modify hx hop
  | log k =>
    simp only [Sys.call, Option.bind_eq_bind, Option.bind_eq_some_iff,
      Option.ite_none_right_eq_some, Option.some.injEq] at h
    obtain ⟨x, hx, hop, h⟩ := h
    have hmove : Move cl sb s p c client _ _ := logWrite_move hx hop
    rw [h] at hmove
    exact hmove
  | flush k =>
    simp only [Sys.call, Option.bind_eq_bind, Option.bind_eq_some_iff,
      Option.ite_none_right_eq_some, Option.some.injEq, Prod.mk.injEq] at h
    obtain ⟨x, hx, hfree, rfl, rfl⟩ := h
    unfold Sys.flush
    split
    next hheld => exact .flush hx hfree hheld
    next => exact .panic (by decide)
  | drop k =>
    simp only [Sys.call, Option.bind_eq_bind, Option.bind_eq_some_iff] at h
    obtain ⟨x, hx, h⟩ := h
    split at h
    next => cases h
    next hclean =>
      simp only [Sys.setReg_eq, Sys.goto_eq, Sys.setProc_setProc, Option.some.injEq,
        Prod.mk.injEq] at h
      obtain ⟨rfl, rfl⟩ := h
      exact .drop hx (by simpa using hclean)
  | finish =>
    simp only [Sys.call, Option.ite_none_right_eq_some, Option.some.injEq, Prod.mk.injEq] at h
    obtain ⟨⟨hop, hclean⟩, rfl, rfl⟩ := h
    exact .finish hop hclean

theorem exec_move {i : Instr} (h : s.exec p cl sb ch c i = some (t, e)) : Move cl sb s p c i t e := by
  cases i with
  | client => exact call_move h
  | bread r b =>
    simp only [Sys.exec, Sys.bread, Option.ite_none_right_eq_some, Option.some.injEq,
      Prod.mk.injEq] at h
    obtain ⟨hfree, rfl, rfl⟩ := h
    exact .bread hfree
  | writeLog k =>
    simp only [Sys.exec] at h
    split at h <;> cases h
    next hb => exact .writeLog hb
    next hb => exact .writeLogDone hb
  | installTrans f k =>
    simp only [Sys.exec] at h
    split at h <;> cases h
    next hb => exact .install hb
    next hb => exact .installDone hb
  | bget r b => cases h; exact bget_move
  | brelse r b => cases h; exact brelse_move
  | releasesleep r b =>
    cases h
    unfold Sys.releasesleep
    split
    next hheld => exact .releasesleep hheld
    next => exact .panic (by decide)
  | bwrite k =>
    simp only [Sys.exec, Sys.bwrite, Option.some.injEq] at h
    split at h <;> cases h
    next hheld => exact .bwrite hheld
    next => exact .panic (by decide)
  | beginOp =>
    simp only [Sys.exec, Sys.beginOp, Option.some.injEq] at h
    split at h
    next hc => cases h; exact .sleep (.inl hc)
    next hc =>
      split at h <;> cases h
      next hroom => exact .sleep (.inr hroom)
      next hroom => exact .enter (by simpa using hc) (by simpa using hroom)
  | endOp =>
    simp only [Sys.exec, Option.some.injEq] at h
    have hmove : Move cl sb s p c endOp _ _ := endOp_move
    rw [h] at hmove
    exact hmove
  | commit =>
    cases h
    split
    next hlh => exact .commit (List.length_pos_iff.1 hlh)
    next hlh => exact .commitEmpty (by simpa using hlh)
  | bunpin k b => cases h; exact .bunpin
  | toLog k b => cases h; exact .toLog
  | toHome k b => cases h; exact .toHome
  | setHead => cases h; exact .setHead
  | getHead => cases h; exact .getHead
  | clearHead => cases h; exact .clearHead
  | endCommit => cases h; exact .endCommit
  | initDone => cases h; exact .initDone
  | keep b => cases h; exact .keep

/-- A step of process `p` is a move of the instruction at the head of its code. -/
theorem step_move (h : s.step p cl sb ch = some (t, e)) :
    ∃ i c, (s.procs p).code = i :: c ∧ (s.up = true ∨ p = 0) ∧ Move cl sb s p c i t e := by
  unfold Sys.step at h
  split at h
  next hrun =>
    split at h
    next => cases h
    next i c hcode => exact ⟨i, c, hcode, hrun.2.1, exec_move h⟩
  next => cases h

end

end Xv6.Log
