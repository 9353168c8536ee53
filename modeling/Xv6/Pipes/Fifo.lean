import Xv6.Lib.RingBuffer
import Xv6.Pipes.Machine

/-!
# A pipe is a queue of bytes

What readers got, followed by what is in the pipe, is what writers put in, in that
order, also when the counters wrap.
-/

namespace Xv6.Pipes

open Lib

variable {m : Nat}

namespace Pipe

variable {pi : Pipe} {ch : UInt8}

def count (pi : Pipe) : Nat := (pi.nwrite - pi.nread).toNat

/-- The bytes in the pipe, the oldest first. -/
def buffered (pi : Pipe) : List UInt8 := contents pi.data pi.nread.toNat pi.count

theorem count_eq : pi.count = (2 ^ 32 - pi.nread.toNat + pi.nwrite.toNat) % 2 ^ 32 :=
  UInt32.toNat_sub ..

theorem nwrite_eq : pi.nwrite.toNat = (pi.nread.toNat + pi.count) % 2 ^ 32 := by
  have hr := pi.nread.toNat_lt
  have hw := pi.nwrite.toNat_lt
  rw [count_eq]
  omega

theorem count_put (ch : UInt8) (h : pi.count ≤ PIPESIZE) (hroom : pi.full = false) :
    pi.count < PIPESIZE ∧ (pi.put ch).count = pi.count + 1 := by
  have hne : pi.nwrite.toNat ≠ (pi.nread.toNat + 512) % 2 ^ 32 := by
    intro heq
    have hfull : pi.nwrite = pi.nread + 512 := UInt32.toNat_inj.1 (by rw [heq, UInt32.toNat_add]; rfl)
    simp [full, hfull] at hroom
  have hlt : pi.count < PIPESIZE := by
    refine Nat.lt_of_le_of_ne h fun heq => hne ?_
    rw [nwrite_eq, heq]
  refine ⟨hlt, ?_⟩
  have hlt : pi.count < 512 := hlt
  have hr := pi.nread.toNat_lt
  have hput : (pi.put ch).count =
      (2 ^ 32 - pi.nread.toNat + (pi.nwrite.toNat + 1) % 2 ^ 32) % 2 ^ 32 := by
    rw [count_eq]
    simp [put, UInt32.toNat_add]
  rw [hput, nwrite_eq]
  omega

theorem count_take (hsome : pi.empty = false) : pi.count = pi.take.count + 1 := by
  have hne : pi.nread.toNat ≠ pi.nwrite.toNat := by
    intro heq
    simp [empty, UInt32.toNat_inj.1 heq] at hsome
  have hr := pi.nread.toNat_lt
  have hw := pi.nwrite.toNat_lt
  have htake : pi.take.count =
      (2 ^ 32 - (pi.nread.toNat + 1) % 2 ^ 32 + pi.nwrite.toNat) % 2 ^ 32 := by
    rw [count_eq]
    simp [take, UInt32.toNat_add]
  rw [count_eq, htake]
  omega

/-- The position of the next byte; `PIPESIZE` divides the range of the counters. -/
theorem index_nwrite : Fin.ofNat PIPESIZE pi.nwrite.toNat =
    Fin.ofNat PIPESIZE (pi.nread.toNat + pi.count) := by
  apply Fin.ext
  show pi.nwrite.toNat % 512 = (pi.nread.toNat + pi.count) % 512
  rw [nwrite_eq]
  omega

theorem buffered_put (h : pi.count ≤ PIPESIZE) (hroom : pi.full = false) :
    (pi.put ch).buffered = pi.buffered ++ [ch] := by
  obtain ⟨hlt, hcount⟩ := count_put ch h hroom
  rw [buffered, hcount]
  show contents (Function.update pi.data (Fin.ofNat PIPESIZE pi.nwrite.toNat) ch) pi.nread.toNat _ = _
  rw [index_nwrite, contents_push hlt, buffered]

theorem buffered_take (hsome : pi.empty = false) : pi.buffered = pi.front :: pi.take.buffered := by
  rw [buffered, count_take hsome, contents_succ, buffered]
  have hmod : (pi.nread.toNat + 1) % 512 = pi.take.nread.toNat % 512 := by
    simp only [take, UInt32.toNat_add, UInt32.toNat_one]
    omega
  rw [contents_congr hmod]
  rfl

end Pipe

/-- The user memory of a pending read is mapped. -/
def Pc.Mapped : Pc → Prop
  | readAcquire dst n => ∀ i : Nat, (i : Int) < n → dst i = true
  | readWait dst n => ∀ i : Nat, (i : Int) < n → dst i = true
  | readSleep dst n => ∀ i : Nat, (i : Int) < n → dst i = true
  | readDoze dst n => ∀ i : Nat, (i : Int) < n → dst i = true
  | readLoop dst _ n => ∀ i : Nat, (i : Int) < n → dst i = true
  | _ => True

/-- A call of `piperead` is for mapped memory. -/
def Event.Mapped : Event m → Prop
  | called _ o => o.start.Mapped
  | _ => True

def Event.accepted? : Event m → Option UInt8
  | accepted b => some b
  | _ => none

def Event.delivered? : Event m → Option UInt8
  | delivered b => some b
  | _ => none

/-- The bytes that came into the pipe. -/
def accepted (es : List (Event m)) : List UInt8 := es.filterMap Event.accepted?

def delivered (es : List (Event m)) : List UInt8 := es.filterMap Event.delivered?

structure Fifo (es : List (Event m)) (s : Sys m) : Prop where
  mapped : ∀ p, (s.procs p).pc.Mapped
  count : s.pipe.count ≤ PIPESIZE
  order : accepted es = delivered es ++ s.pipe.buffered

namespace Fifo

variable {es : List (Event m)} {s t : Sys m} {p : Fin m} {e : Event m}

theorem quiet (h : Fifo es s) (hmapped : (t.procs p).pc.Mapped)
    (hother : ∀ q, q ≠ p → (t.procs q).pc = (s.procs q).pc) (hcount : t.pipe.count = s.pipe.count)
    (hbuf : t.pipe.buffered = s.pipe.buffered) (ha : e.accepted? = none)
    (hd : e.delivered? = none) : Fifo (es ++ [e]) t where
  mapped q := by
    by_cases hq : q = p
    · rw [hq]
      exact hmapped
    · rw [hother q hq]
      exact h.mapped q
  count := by
    rw [hcount]
    exact h.count
  order := by
    have horder := h.order
    simp only [accepted, delivered] at horder
    simp [accepted, delivered, ha, hd, hbuf, horder]

theorem step (h : Fifo es s) (hm : Move s p t e) (hmapped : e.Mapped) : Fifo (es ++ [e]) t := by
  have hp := h.mapped p
  have hset : ∀ (u : Sys m) (f : Proc → Proc), u.procs = s.procs →
      ∀ q, q ≠ p → ((u.setProc p f).procs q).pc = (s.procs q).pc := by
    intro u f hu q hq
    rw [Sys.setProc_procs_of_ne _ _ _ hq, hu]
  cases hm with
  | acquire hpc hmove =>
    refine h.quiet ?_ (hset _ _ rfl) rfl rfl rfl rfl
    rw [hpc] at hp
    simp only [Sys.goto_eq, Sys.setProc_procs_self]
    cases hmove <;> exact hp
  | pass hpc hmove =>
    refine h.quiet ?_ (hset _ _ rfl) rfl rfl rfl rfl
    rw [hpc] at hp
    simp only [Sys.goto_eq, Sys.setProc_procs_self]
    cases hmove <;> first | exact hp | trivial
  | @wake a b c j hpc hmove hj =>
    refine h.quiet (p := p) ?_ ?_ ?_ ?_ rfl rfl
    · simp only [Sys.goto_eq, Sys.setProc_procs_self]
      cases hmove <;> trivial
    · intro q hq
      rw [Sys.goto_eq, Sys.setProc_procs_of_ne _ _ _ hq]
      exact (s.rouse_procs p c j q).1
    · simp
    · simp
  | @put src i n ch hpc hopen halive hroom hch =>
    refine ⟨fun q => ?_, ?_, ?_⟩
    · by_cases hq : q = p
      · rw [hq, Sys.goto_eq, Sys.setProc_procs_self]
        trivial
      · rw [Sys.goto_eq, Sys.setProc_procs_of_ne _ _ _ hq]
        exact h.mapped q
    · obtain ⟨hlt, hcount⟩ := Pipe.count_put ch h.count hroom
      show (s.pipe.put ch).count ≤ PIPESIZE
      omega
    · show accepted (es ++ [_]) = delivered (es ++ [_]) ++ (s.pipe.put ch).buffered
      have horder := h.order
      simp only [accepted, delivered] at horder
      rw [Pipe.buffered_put h.count hroom]
      simp [accepted, delivered, Event.accepted?, Event.delivered?, horder]
  | @take dst i n hpc hi hsome hdst =>
    have hcount := Pipe.count_take hsome
    refine ⟨fun q => ?_, ?_, ?_⟩
    · by_cases hq : q = p
      · rw [hpc] at hp
        rw [hq, Sys.goto_eq, Sys.setProc_procs_self]
        exact hp
      · rw [Sys.goto_eq, Sys.setProc_procs_of_ne _ _ _ hq]
        exact h.mapped q
    · have hle := h.count
      show s.pipe.take.count ≤ PIPESIZE
      omega
    · show accepted (es ++ [_]) = delivered (es ++ [_]) ++ s.pipe.take.buffered
      have horder := h.order
      simp only [accepted, delivered] at horder
      simp [accepted, delivered, Event.accepted?, Event.delivered?, horder,
        Pipe.buffered_take hsome]
  | @lose dst i n hpc hi hsome hdst =>
    rw [hpc] at hp
    rw [hp i hi] at hdst
    cases hdst
  | release hpc hmove he =>
    have hevent : e.accepted? = none ∧ e.delivered? = none := by
      rcases he with rfl | rfl | ⟨r, rfl⟩ <;> exact ⟨rfl, rfl⟩
    refine h.quiet ?_ (hset _ _ rfl) rfl rfl hevent.1 hevent.2
    rw [hpc] at hp
    simp only [Sys.goto_eq, Sys.setProc_procs_self]
    cases hmove <;> exact hp
  | doze hpc hmove =>
    refine h.quiet ?_ (hset _ _ rfl) rfl rfl rfl rfl
    rw [hpc] at hp
    simp only [Sys.setProc_procs_self]
    cases hmove <;> exact hp
  | @shut w hpc =>
    refine h.quiet (p := p) ?_ (hset _ _ rfl) ?_ ?_ rfl rfl
    · simp only [Sys.goto_eq, Sys.setProc_procs_self]
      trivial
    · cases w <;> rfl
    · cases w <;> rfl
  | call hpc =>
    refine h.quiet ?_ (hset _ _ rfl) rfl rfl rfl rfl
    simp only [Sys.goto_eq, Sys.setProc_procs_self]
    exact hmapped
  | kill hdoze =>
    refine h.quiet ?_ (hset _ _ rfl) rfl rfl rfl rfl
    simp only [Sys.setProc_procs_self]
    exact hp

end Fifo

/-- From any equal values of the counters, and whatever processes write, read, close
and kill, as long as the memory they read into is mapped: the pipe never holds more
than `PIPESIZE` bytes, and the bytes delivered and then those in the pipe are the
bytes accepted. -/
theorem pipe_fifo {data : Fin PIPESIZE → UInt8} {c : UInt32} {es : List (Event m)} {s : Sys m}
    (h : Run (Restrict Step fun _ e _ => e.Mapped) (fresh data c) es s) :
    (s.pipe.nwrite - s.pipe.nread).toNat ≤ PIPESIZE ∧
    delivered es ++ s.pipe.buffered = accepted es := by
  have hinv : Fifo es s := by
    refine h.history (I := Fifo) ?_ ?_
    · rintro es s e t hfifo ⟨hstep, hmapped⟩
      obtain ⟨p, hm, -⟩ := hstep.move
      exact hfifo.step hm hmapped
    · have hzero : (fresh data c : Sys m).pipe.count = 0 := by
        simp [Pipe.count, fresh]
      refine ⟨fun _ => trivial, by rw [hzero]; decide, ?_⟩
      simp [accepted, delivered, Pipe.buffered, hzero]
  exact ⟨hinv.count, hinv.order.symm⟩

/-- Counters at their largest value: two bytes are written, one is read. -/
theorem pipe_fifo_wrap :
    ∃ (es : List (Event 2)) (s : Sys 2),
      Run (Restrict Step fun _ e _ => e.Mapped) (fresh (fun _ => 0) 0xffffffff) es s ∧
      s.pipe.nwrite = 1 ∧ accepted es = [5, 6] ∧ delivered es = [5] ∧ s.pipe.buffered = [6] := by
  have hcheck : (Lib.trace Sys.next (fresh (fun _ => 0) 0xffffffff : Sys 2)
      ([[.call 1 (.write (fun i => [5, 6][i]?) 2)], List.replicate 8 (.go 1),
        [.call 0 (.read (fun _ => true) 1)], List.replicate 3 (.go 0)].flatten)).any
      (fun x => x.1.pipe.nwrite == 1 && accepted x.2 == [5, 6] && delivered x.2 == [5] &&
        x.2.all fun e => match e with
          | .called _ (.read dst n) => n == 1 && dst 0
          | _ => true) = true := by
    decide +kernel
  obtain ⟨⟨s, es⟩, hs, hcheck⟩ := (Option.any_eq_true _ _).1 hcheck
  simp only [Bool.and_eq_true, beq_iff_eq, List.all_eq_true] at hcheck
  obtain ⟨⟨⟨hwrite, haccepted⟩, hdelivered⟩, hmapped⟩ := hcheck
  have hrun : Run (Restrict Step fun _ e _ => e.Mapped)
      (fresh (fun _ => 0) 0xffffffff : Sys 2) es s := by
    refine (Lib.trace_run Sys.next_step hs).restrict (C := Event.Mapped) fun e he => ?_
    have hok := hmapped e he
    cases e with
    | called p o =>
      cases o with
      | read dst n =>
        simp only [Bool.and_eq_true, beq_iff_eq] at hok
        intro i hi
        obtain rfl : i = 0 := by omega
        exact hok.2
      | _ => trivial
    | _ => trivial
  have hfifo := (pipe_fifo hrun).2
  rw [haccepted, hdelivered] at hfifo
  exact ⟨es, s, hrun, hwrite, haccepted, hdelivered, (List.cons.inj hfifo).2⟩

end Xv6.Pipes
