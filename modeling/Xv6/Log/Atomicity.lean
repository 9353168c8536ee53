import Xv6.Log.Recovery

/-!
# Crash atomicity

The history of a run splits the `log_write`s into those whose transaction reached
the disk and those still pending; a crash forgets the latter.  After every recovery
the home blocks are the replay of the committed writes, and the writes of each
operation are committed together or not at all.
-/

namespace Xv6.Log

open Instr Lib

variable {m : Nat} {sb : Superblock}

/-- A `log_write`: its operation, its block, and the content of the block. -/
structure Write where
  op : Option Nat
  block : Nat
  content : Block

structure History where
  committed : List Write
  pending : List Write

def Event.record (h : History) : Event → History
  | wrote o b c => { h with pending := h.pending ++ [⟨o, b, c⟩] }
  | committed => ⟨h.committed ++ h.pending, []⟩
  | crashed => { h with pending := [] }
  | _ => h

/-- The committed writes, transaction after transaction, and the pending ones. -/
def history (es : List Event) : History := es.foldl Event.record ⟨[], []⟩

def Event.write? : Event → Option Write
  | wrote o b c => some ⟨o, b, c⟩
  | _ => none

def Event.isRecovered : Event → Bool
  | recovered => true
  | _ => false

def writes (es : List Event) : List Write := es.filterMap Event.write?

/-- The contents after the writes `ws`. -/
def replay (d : Disk) (ws : List Write) : Disk :=
  ws.foldl (fun D x => Function.update D x.block x.content) d

def Write.of (o : Nat) (ws : List Write) : List Write := ws.filter fun x => x.op = some o

@[simp] theorem Write.of_append {o : Nat} {ws ws' : List Write} :
    Write.of o (ws ++ ws') = Write.of o ws ++ Write.of o ws' := List.filter_append ..

@[simp] theorem Write.of_nil {o : Nat} : Write.of o [] = [] := rfl

variable {es : List Event} {e : Event} {d : Disk} {n : Nat}

theorem history_concat : history (es ++ [e]) = e.record (history es) := by
  rw [history, List.foldl_append]
  rfl

theorem writes_concat : writes (es ++ [e]) = writes es ++ e.write?.toList := by
  cases e <;> simp [writes, Event.write?]

/-- The committed and the pending contents are replays of the history. -/
theorem replay_record {h : History} :
    e.settled (replay d h.committed) (replay d (h.committed ++ h.pending)) =
        replay d (e.record h).committed ∧
      e.pending (replay d h.committed) (replay d (h.committed ++ h.pending)) =
        replay d ((e.record h).committed ++ (e.record h).pending) := by
  cases e <;> simp [Event.settled, Event.pending, Event.record, replay, List.foldl_append]

structure Atomic (es : List Event) (s : Sys m) : Prop where
  fresh : ∀ o, s.ops ≤ o → Write.of o (writes es) = []
  active : ∀ q o, (s.procs q).op = some o → o < s.ops ∧ Write.of o (history es).committed = [] ∧
    Write.of o (history es).pending = Write.of o (writes es)
  whole : ∀ o, (Write.of o (history es).committed = [] ∧
      (Write.of o (history es).pending = [] ∨
        Write.of o (history es).pending = Write.of o (writes es))) ∨
    (Write.of o (history es).committed = Write.of o (writes es) ∧
      Write.of o (history es).pending = [])

namespace Atomic

variable {es : List Event} {s t : Sys m} {w : Option (Fin (m + 1))} {p : Fin (m + 1)} {i : Instr}
  {c : Code} {e : Event}

theorem boot : Atomic [] (boot sb d n : Sys m) where
  fresh _ _ := rfl
  active q o ho := by cases ho
  whole o := .inl ⟨rfl, .inl rfl⟩

theorem quiet (h : Atomic es s) (hrecord : e.record (history es) = history es)
    (hwrite : e.write? = none) (hops : t.ops = s.ops)
    (hop : ∀ q o, (t.procs q).op = some o → (s.procs q).op = some o) : Atomic (es ++ [e]) t := by
  constructor <;> simp only [history_concat, hrecord, writes_concat, hwrite, hops,
    Option.toList_none, List.append_nil]
  · exact h.fresh
  · exact fun q o ho => h.active q o (hop q o ho)
  · exact h.whole

theorem wrote {b : Nat} {d : Block} (h : Atomic es s) (hn : (s.procs p).op = some n)
    (hops : t.ops = s.ops) (hop : ∀ q o, (t.procs q).op = some o → (s.procs q).op = some o) :
    Atomic (es ++ [.wrote (some n) b d]) t := by
  obtain ⟨hlt, hnone, hall⟩ := h.active p n hn
  constructor <;> simp only [history_concat, Event.record, writes_concat, Event.write?, hops,
    Option.toList_some, Write.of_append]
  · intro o ho
    rw [h.fresh o ho]
    simp [Write.of, show n ≠ o by omega]
  · intro q o ho
    obtain ⟨hlt, hc, hp⟩ := h.active q o (hop q o ho)
    exact ⟨hlt, hc, by rw [hp]⟩
  · intro o
    by_cases ho : o = n
    · subst ho
      exact .inl ⟨hnone, .inr (by rw [hall])⟩
    · have hother : Write.of o [⟨some n, b, d⟩] = [] := by
        simp [Write.of, Ne.symm ho]
      rw [hother]
      simpa using h.whole o

theorem committed (h : Atomic es s) (hidle : ∀ q, (s.procs q).op = none) (hops : t.ops = s.ops)
    (hop : ∀ q o, (t.procs q).op = some o → (s.procs q).op = some o) :
    Atomic (es ++ [.committed]) t := by
  constructor <;> simp only [history_concat, Event.record, writes_concat, Event.write?, hops,
    Option.toList_none, List.append_nil, Write.of_append, Write.of_nil]
  · exact h.fresh
  · intro q o ho
    have hold := hop q o ho
    rw [hidle q] at hold
    cases hold
  · intro o
    rcases h.whole o with ⟨hc, hp | hp⟩ | ⟨hc, hp⟩
    · exact .inl ⟨by rw [hc, hp]; rfl, .inl trivial⟩
    · exact .inr ⟨by rw [hc, hp]; rfl, trivial⟩
    · exact .inr ⟨by rw [hc, hp, List.append_nil], trivial⟩

/-- A crash ends all operations and forgets their pending writes. -/
theorem crashed (h : Atomic es s) : Atomic (es ++ [.crashed]) (Log.boot sb d s.ops : Sys m) := by
  constructor <;> simp only [history_concat, Event.record, writes_concat, Event.write?,
    Option.toList_none, List.append_nil, Write.of_nil]
  · exact h.fresh
  · intro q o ho
    cases ho
  · intro o
    rcases h.whole o with ⟨hc, -⟩ | ⟨hc, -⟩
    · exact .inl ⟨hc, .inl trivial⟩
    · exact .inr ⟨hc, trivial⟩

/-- A step of process `p` that leaves the operations of all processes as they are. -/
theorem ops_same (hother : s.Only t p)
    (hop : (t.procs p).op = (s.procs p).op ∨ (t.procs p).op = none) (q : Fin (m + 1)) (o : Nat)
    (ho : (t.procs q).op = some o) : (s.procs q).op = some o := by
  by_cases hq : q = p
  · subst hq
    rcases hop with heq | hnone
    · rw [← heq, ho]
    · rw [hnone] at ho
      cases ho
  · rw [← hother q hq, ho]

theorem step (h : Atomic es s) (hctl : Control .logged sb w s)
    (hcode : (s.procs p).code = i :: c) (hm : Move .logged sb s p c i t e) :
    Atomic (es ++ [e]) t := by
  have hwf := hctl.local_code hcode
  cases hm with
  | @bwrite k hheld =>
    split
    next hk =>
      obtain rfl := hk.1
      have hphase : (phase (Instr.bwrite .header :: c)).isSome := by
        simp only [phase]
        split <;> rfl
      have hw := (hctl.worker p).1 (by rw [hcode]; exact hphase)
      exact h.committed (fun q => hctl.quiet (by rw [hw]; rfl) q) rfl
        (ops_same (.proc rfl) (.inl (by simp)))
    next => exact h.quiet rfl rfl rfl (ops_same (.proc rfl) (.inl (by simp)))
  | absorb hx hop | append hx hop =>
    obtain ⟨n, hn⟩ := Option.isSome_iff_exists.1 (hop rfl)
    rw [hn]
    exact h.wrote hn rfl (ops_same (.proc rfl) (.inl (by simp)))
  | enter hc hroom =>
    constructor <;> simp only [history_concat, Event.record, writes_concat, Event.write?,
      Option.toList_none, List.append_nil]
    · intro o ho
      exact h.fresh o (Nat.le_of_succ_le ho)
    · intro q o ho
      by_cases hq : q = p
      · subst hq
        rw [Sys.setProc_procs_self] at ho
        cases ho
        have hfresh := h.fresh s.ops (Nat.le_refl _)
        refine ⟨Nat.lt_succ_self _, ?_⟩
        rcases h.whole s.ops with ⟨hc, hp | hp⟩ | ⟨hc, hp⟩ <;> simp [hc, hp, hfresh]
      · rw [Sys.setProc_procs_of_ne _ _ _ hq] at ho
        obtain ⟨hlt, hrest⟩ := h.active q o ho
        exact ⟨Nat.lt_succ_of_lt hlt, hrest⟩
    · exact h.whole
  | endLast hc hout he | endEarly hc hout he =>
    rcases he with rfl | ⟨o, rfl⟩ <;>
      exact h.quiet rfl rfl rfl (ops_same (.proc rfl) (.inr (by simp)))
  | endPanic | panic | sleep => exact h.quiet rfl rfl rfl fun _ _ ho => ho
  | _ => exact h.quiet rfl rfl rfl (ops_same (.proc rfl) (.inl (by simp)))

end Atomic

/-- All invariants hold in every state, with the contents that the history gives. -/
theorem recoverable_of_run {s : Sys m}
    (hd : decode (d sb.logstart) = []) (h : Run (Step .logged sb) (boot sb d n) es s) :
    Atomic es s ∧ ∃ w L, Control .logged sb w s ∧ CacheInv w s ∧ Operations s ∧ Coherent L w s ∧
      Recoverable sb (replay d (history es).committed)
        (replay d ((history es).committed ++ (history es).pending)) L w s := by
  refine h.history (I := fun es s => Atomic es s ∧ ∃ w L, Control .logged sb w s ∧ CacheInv w s ∧
    Operations s ∧ Coherent L w s ∧ Recoverable sb (replay d (history es).committed)
      (replay d ((history es).committed ++ (history es).pending)) L w s) ?_ ?_
  · rintro es s e t ⟨hatomic, w, L, hctl, hcache, hop, hcoh, hrec⟩ hstep
    cases hstep with
    | run p ch hs =>
      obtain ⟨i, c, hcode, hup, hm⟩ := step_move hs
      have hnew := hrec.step hcoh hcache hop hctl hcode hup hm
      rw [replay_record.1, replay_record.2] at hnew
      rw [history_concat]
      exact ⟨hatomic.step hctl hcode hm, _, _, hctl.step hcode hup hm,
        hcache.step hctl hcode hup hm, hop.step hctl hcode hup hm,
        hcoh.step hcache hctl hcode hup hm, hnew⟩
    | crash =>
      obtain ⟨l, hredo⟩ := hrec.restart
      have hnew : Recoverable sb _ _ _ _ (boot sb s.disk s.ops : Sys m) := .boot hredo
      refine ⟨hatomic.crashed, _, _, .boot, .boot, .boot, .boot, ?_⟩
      rw [history_concat]
      simpa [Event.record] using hnew
  · refine ⟨.boot, _, _, .boot, .boot, .boot, .boot, .boot (l := []) ?_⟩
    exact ⟨hd, by simp, fun _ _ _ => rfl, by simp, by simp⟩

theorem idle_of_recovered {w : Option (Fin (m + 1))} {s t : Sys m} {p : Fin (m + 1)} {i : Instr}
    {c : Code} (hctl : Control .logged sb w s) (hcode : (s.procs p).code = i :: c)
    (hm : Move .logged sb s p c i t .recovered) : after w p (t.procs p).code = none := by
  have hwf := hctl.local_code hcode
  generalize he : Event.recovered = e at hm
  cases hm with
  | initDone =>
    have hw := (hctl.worker p).1 (by rw [hcode]; rfl)
    obtain rfl : c = [client] := hwf.ok
    simp [after, phase, hw]
  | bwrite => split at he <;> cases he
  | endLast hc hout hend | endEarly hc hout hend => rcases hend with rfl | ⟨o, rfl⟩ <;> cases he
  | _ => cases he

/-- Whatever operations run, and wherever the machine crashes, also during recovery:
when `initlog` returns, the home blocks are what the committed transactions made of
them in their order, the log is empty, and the writes of each operation are all
there or all absent. -/
theorem crash_atomic {d : Disk} {n : Nat} {es : List Event} {s : Sys m}
    (hd : decode (d sb.logstart) = []) (h : Run (Step .logged sb) (boot sb d n) es s)
    (hlast : es.getLast? = some .recovered) :
    (∀ b, sb.home b → s.disk b = replay d (history es).committed b) ∧
    decode (s.disk sb.logstart) = [] ∧
    ∀ o, Write.of o (history es).committed = [] ∨
      Write.of o (history es).committed = Write.of o (writes es) := by
  have hatomic := (recoverable_of_run hd h).1
  obtain ⟨es, rfl⟩ := List.getLast?_eq_some_iff.1 hlast
  obtain ⟨u, hrun, hstep⟩ := h.split
  obtain ⟨-, w, L, hctl, hcache, hop, hcoh, hrec⟩ := recoverable_of_run hd hrun
  have hredo : Redo (layout sb) s.disk (replay d (history (es ++ [.recovered])).committed) [] 0 := by
    cases hstep.step_of_single with
    | run p ch hs =>
      obtain ⟨i, c, hcode, hup, hm⟩ := step_move hs
      have hnew := hrec.step hcoh hcache hop hctl hcode hup hm
      rw [idle_of_recovered hctl hcode hm] at hnew
      rw [history_concat]
      exact hnew.staged.1
  refine ⟨fun b hb => hredo.settled hb, hredo.header, fun o => ?_⟩
  rcases hatomic.whole o with ⟨hnone, -⟩ | ⟨hall, -⟩
  · exact .inl hnone
  · exact .inr hall

/-- One operation on block 40.  The machine crashes when its header is on the disk and
block 40 is not; recovery installs it. -/
theorem crash_atomic_header :
    ∃ (es : List Event) (s : Sys 0), Run (Step .logged mkfs) (boot mkfs (fun _ _ => 0) 0) es s ∧
      es.getLast? = some .recovered ∧ s.disk 40 0 = 7 := by
  have hcheck : ((boot mkfs (fun _ _ => 0) 0 : Sys 0).trace .logged mkfs
      ([goes 0 14, [some (0, .start)], goes 0 1, [some (0, .read 40)], goes 0 3,
        [some (0, .modify 0 fun _ => 7), some (0, .log 0), some (0, .drop 0)], goes 0 2,
        [some (0, .finish)], goes 0 18, [none], goes 0 25].flatten)).any (fun x =>
          x.2.getLast?.any Event.isRecovered &&
          replay (fun _ _ => 0) (history x.2).committed 40 0 == 7) = true := by
    decide +kernel
  obtain ⟨⟨s, es⟩, hs, hcheck⟩ := (Option.any_eq_true _ _).1 hcheck
  simp only [Bool.and_eq_true, beq_iff_eq] at hcheck
  have hlast : es.getLast? = some .recovered := by
    obtain ⟨e, he, hrec⟩ := (Option.any_eq_true _ _).1 hcheck.1
    cases e with
    | recovered => exact he
    | _ => cases hrec
  have hrun := Sys.trace_run hs
  have hempty : decode ((fun _ _ => 0 : Disk) mkfs.logstart) = [] := rfl
  have hatomic := crash_atomic hempty hrun hlast
  exact ⟨es, s, hrun, hlast, by rw [hatomic.1 40 (by decide), hcheck.2]⟩

end Xv6.Log
