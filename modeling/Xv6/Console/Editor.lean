import Xv6.Console.Machine
import Xv6.Lib.RingBuffer

/-!
# The console is a line editor

The line editor: the text that was committed, the line that is being typed, and how much
of the text was read.  The console shows the editor's state in its buffer and indices,
also when the indices wrap.
-/

namespace Xv6.Console

open Lib

structure Editor where
  committed : List UInt8
  line : List UInt8
  /-- How many characters of the text were read. -/
  consumed : Nat
  deriving DecidableEq, Repr

namespace Editor

def unread (x : Editor) : Nat := x.committed.length + x.line.length - x.consumed

/-- A character is typed.  There is room for `INPUT_BUF` characters that are not read;
the last of them commits the line, as the newline and control-D do. -/
def type (x : Editor) (c : UInt8) : Editor :=
  if c = controlP then x
  else if c = controlU then { x with line := [] }
  else if c = controlH ∨ c = delete then { x with line := x.line.dropLast }
  else if c ≠ 0 ∧ x.unread < INPUT_BUF then
    let c := if c = carriageReturn then newline else c
    if c = newline ∨ c = controlD ∨ x.unread + 1 = INPUT_BUF then
      { x with committed := x.committed ++ (x.line ++ [c]), line := [] }
    else { x with line := x.line ++ [c] }
  else x

/-- What an event does to the editor.  The read that ends with a control-D takes it if
there was nothing before it. -/
def step {m : Nat} (x : Editor) : Event m → Editor
  | .input c => x.type c
  | .delivered _ _ => { x with consumed := x.consumed + 1 }
  | .eof _ 0 => { x with consumed := x.consumed + 1 }
  | _ => x

def next (x : Editor) : Option UInt8 := x.committed[x.consumed]?

end Editor

def editor {m : Nat} (es : List (Event m)) : Editor :=
  es.foldl Editor.step { committed := [], line := [], consumed := 0 }

theorem editor_snoc {m : Nat} (es : List (Event m)) (e : Event m) :
    editor (es ++ [e]) = (editor es).step e := by
  simp [editor]

structure Shows (x : Editor) (k : Cons) : Prop where
  read : x.consumed ≤ x.committed.length
  room : x.committed.length + x.line.length ≤ x.consumed + INPUT_BUF
  r : k.r = UInt32.ofNat x.consumed
  w : k.w = UInt32.ofNat x.committed.length
  e : k.e = UInt32.ofNat (x.committed.length + x.line.length)
  buf : ∀ j c, x.consumed ≤ j → (x.committed ++ x.line)[j]? = some c →
    k.buf (Fin.ofNat INPUT_BUF j) = c
  full : x.committed.length + x.line.length = x.consumed + INPUT_BUF → x.line = []
  line : ∀ c ∈ x.line, c ≠ newline

theorem char_ofNat (k : Cons) (j : Nat) : k.char (UInt32.ofNat j) = k.buf (Fin.ofNat INPUT_BUF j) := by
  unfold Cons.char
  congr 1
  apply Fin.ext
  change (UInt32.ofNat j).toNat % 128 = j % 128
  rw [UInt32.toNat_ofNat']
  omega

theorem ofNat_sub_one (j : Nat) : UInt32.ofNat (j + 1) - 1 = UInt32.ofNat j := by
  rw [UInt32.ofNat_add]
  simp

theorem toNat_ofNat_sub {i j : Nat} (hij : i ≤ j) (hj : j ≤ i + INPUT_BUF) :
    (UInt32.ofNat j - UInt32.ofNat i).toNat = j - i := by
  rw [UInt32.toNat_sub, UInt32.toNat_ofNat', UInt32.toNat_ofNat']
  change j ≤ i + 128 at hj
  omega

theorem ofNat_eq_iff {i j : Nat} (hij : i ≤ j) (hj : j ≤ i + INPUT_BUF) :
    UInt32.ofNat j = UInt32.ofNat i ↔ j = i := by
  constructor
  · intro h
    have := toNat_ofNat_sub hij hj
    rw [h] at this
    simp at this
    omega
  · rintro rfl
    rfl

namespace Shows

variable {x : Editor} {k : Cons} {c : UInt8}

theorem unread_eq (h : Shows x k) : (k.e - k.r).toNat = x.unread := by
  have := h.read
  rw [h.e, h.r, toNat_ofNat_sub (by omega) h.room]
  rfl

theorem e_ne_w (h : Shows x k) : k.e ≠ k.w ↔ x.line ≠ [] := by
  have := h.read
  have := h.room
  rw [ne_eq, h.e, h.w, ofNat_eq_iff (by omega) (by omega)]
  rw [ne_eq, ← List.length_eq_zero_iff]
  omega

theorem backspace (h : Shows x k) (hline : x.line ≠ []) :
    Shows { x with line := x.line.dropLast } { k with e := k.e - 1 } := by
  have hlen : x.line.dropLast.length + 1 = x.line.length := by
    have := List.length_pos_iff.2 hline
    rw [List.length_dropLast]
    omega
  have hroom := h.room
  constructor
  · exact h.read
  · change x.committed.length + x.line.dropLast.length ≤ x.consumed + INPUT_BUF
    omega
  · exact h.r
  · exact h.w
  · change k.e - 1 = UInt32.ofNat (x.committed.length + x.line.dropLast.length)
    rw [h.e, ← hlen, ← Nat.add_assoc, ofNat_sub_one]
  · intro j c hj hc
    apply h.buf j c hj
    rw [← List.dropLast_append_getLast hline, ← List.append_assoc]
    exact List.getElem?_append_left (List.getElem?_eq_some_iff.1 hc).1 ▸ hc
  · intro hfull
    change x.committed.length + x.line.dropLast.length = x.consumed + INPUT_BUF at hfull
    omega
  · intro c hc
    exact h.line c (List.dropLast_subset _ hc)

/-- The character before `e` is the last one of the line, which is no newline. -/
theorem char_last (h : Shows x k) (hline : x.line ≠ []) : k.char (k.e - 1) ≠ newline := by
  have hpos := List.length_pos_iff.2 hline
  have hread := h.read
  obtain ⟨n, hn⟩ : ∃ n, x.line.length = n + 1 := ⟨x.line.length - 1, by omega⟩
  rw [h.e, hn, ← Nat.add_assoc, ofNat_sub_one, char_ofNat]
  have hlast : (x.committed ++ x.line)[x.committed.length + n]? = some (x.line.getLast hline) := by
    rw [List.getElem?_append_right (by omega), List.getLast_eq_getElem]
    rw [show x.committed.length + n - x.committed.length = x.line.length - 1 by omega]
    exact List.getElem?_eq_getElem (by omega)
  rw [h.buf _ _ (by omega) hlast]
  exact h.line _ (List.getLast_mem hline)

theorem killLine {n : Nat} (h : Shows x k) (hn : x.line.length = n) :
    Shows { x with line := [] } (Cons.killLine n k) := by
  induction n generalizing x k with
  | zero =>
    have hnil : x.line = [] := List.length_eq_zero_iff.1 hn
    rw [← hnil]
    exact h
  | succ n ih =>
    have hline : x.line ≠ [] := by
      intro hnil
      simp [hnil] at hn
    unfold Cons.killLine
    rw [if_pos ⟨h.e_ne_w.2 hline, h.char_last hline⟩]
    have hlen : x.line.dropLast.length = n := by
      rw [List.length_dropLast]
      omega
    exact ih (x := { x with line := x.line.dropLast }) (h.backspace hline) hlen

theorem store (h : Shows x k) (hroom : x.unread < INPUT_BUF) (c : UInt8) :
    ∀ j d, x.consumed ≤ j → (x.committed ++ (x.line ++ [c]))[j]? = some d →
      (k.store c).buf (Fin.ofNat INPUT_BUF j) = d := by
  have hread := h.read
  have hlt : x.committed.length + x.line.length < x.consumed + 128 := by
    change x.committed.length + x.line.length - x.consumed < 128 at hroom
    omega
  have hpos : Fin.ofNat INPUT_BUF k.e.toNat =
      Fin.ofNat INPUT_BUF (x.committed.length + x.line.length) := by
    apply Fin.ext
    change k.e.toNat % 128 = (x.committed.length + x.line.length) % 128
    rw [h.e, UInt32.toNat_ofNat']
    omega
  intro j d hj hd
  rw [← List.append_assoc] at hd
  unfold Cons.store
  dsimp only
  rw [hpos]
  by_cases hlast : j = x.committed.length + x.line.length
  · subst hlast
    rw [upd_self]
    simpa using hd
  · have hjlt : j < x.committed.length + x.line.length := by
      have := (List.getElem?_eq_some_iff.1 hd).1
      simp only [List.length_append, List.length_singleton] at this
      omega
    have hne : Fin.ofNat INPUT_BUF j ≠
        Fin.ofNat INPUT_BUF (x.committed.length + x.line.length) := by
      have := ofNat_ne (N := INPUT_BUF) (r := x.consumed)
        (show j - x.consumed < x.committed.length + x.line.length - x.consumed by omega)
        (by change _ < 128; omega)
      rwa [show x.consumed + (j - x.consumed) = j by omega,
        show x.consumed + (x.committed.length + x.line.length - x.consumed) =
          x.committed.length + x.line.length by omega] at this
    rw [upd_of_ne _ _ _ hne]
    apply h.buf j d hj
    rwa [List.getElem?_append_left (by rw [List.length_append]; exact hjlt)] at hd

theorem e_store (h : Shows x k) (c : UInt8) :
    (k.store c).e = UInt32.ofNat (x.committed.length + x.line.length + 1) := by
  change k.e + 1 = _
  rw [h.e, UInt32.ofNat_add _ 1]
  rfl

theorem commit (h : Shows x k) (hroom : x.unread < INPUT_BUF) (c : UInt8) :
    Shows { x with committed := x.committed ++ (x.line ++ [c]), line := [] }
      { k.store c with w := (k.store c).e } := by
  have hread := h.read
  have hlen : (x.committed ++ (x.line ++ [c])).length = x.committed.length + x.line.length + 1 := by
    simp
    omega
  change x.committed.length + x.line.length - x.consumed < 128 at hroom
  constructor
  · change x.consumed ≤ (x.committed ++ (x.line ++ [c])).length
    omega
  · change (x.committed ++ (x.line ++ [c])).length + 0 ≤ x.consumed + 128
    omega
  · exact h.r
  · change (k.store c).e = UInt32.ofNat (x.committed ++ (x.line ++ [c])).length
    rw [hlen, h.e_store]
  · change (k.store c).e = UInt32.ofNat ((x.committed ++ (x.line ++ [c])).length + 0)
    rw [hlen, h.e_store, Nat.add_zero]
  · intro j d hj hd
    apply h.store hroom c j d hj
    simpa using hd
  · intro _
    rfl
  · intro d hd
    cases hd

theorem grow (h : Shows x k) (hroom : x.unread + 1 < INPUT_BUF) (hc : c ≠ newline) :
    Shows { x with line := x.line ++ [c] } (k.store c) := by
  have hread := h.read
  have hlen : (x.line ++ [c]).length = x.line.length + 1 := by simp
  have hroom' : x.unread < INPUT_BUF := by omega
  change x.committed.length + x.line.length - x.consumed + 1 < 128 at hroom
  constructor
  · exact h.read
  · change x.committed.length + (x.line ++ [c]).length ≤ x.consumed + 128
    omega
  · exact h.r
  · exact h.w
  · change (k.store c).e = UInt32.ofNat (x.committed.length + (x.line ++ [c]).length)
    rw [hlen, h.e_store, Nat.add_assoc]
  · intro j d hj hd
    exact h.store hroom' c j d hj hd
  · intro hfull
    change x.committed.length + (x.line ++ [c]).length = x.consumed + 128 at hfull
    omega
  · intro d hd
    rcases List.mem_append.1 hd with hd | hd
    · exact h.line d hd
    · rw [List.mem_singleton.1 hd]
      exact hc

theorem intr (h : Shows x k) (c : UInt8) : Shows (x.type c) (k.intr c).1 := by
  unfold Editor.type Cons.intr
  by_cases hP : c = controlP
  · rw [if_pos hP, if_pos hP]
    exact h
  rw [if_neg hP, if_neg hP]
  by_cases hU : c = controlU
  · rw [if_pos hU, if_pos hU]
    apply h.killLine
    have hroom := h.room
    have hread := h.read
    rw [h.e, h.w, toNat_ofNat_sub (by omega) (by omega)]
    omega
  rw [if_neg hU, if_neg hU]
  by_cases hH : c = controlH ∨ c = delete
  · rw [if_pos hH, if_pos hH]
    by_cases hline : x.line = []
    · rw [if_neg (by rw [h.e_ne_w]; simpa using hline)]
      have hsame : { x with line := x.line.dropLast } = x := by
        cases x
        simp_all
      rw [hsame]
      exact h
    · rw [if_pos (h.e_ne_w.2 hline)]
      exact h.backspace hline
  rw [if_neg hH, if_neg hH]
  have hunread : k.e - k.r < 128 ↔ x.unread < INPUT_BUF := by
    rw [UInt32.lt_iff_toNat_lt, h.unread_eq]
    rfl
  unfold Cons.accept
  by_cases hroom : c ≠ 0 ∧ x.unread < INPUT_BUF
  · have hguard : c ≠ 0 ∧ k.e - k.r < 128 := ⟨hroom.1, hunread.2 hroom.2⟩
    simp only [if_pos hroom, if_pos hguard]
    generalize (if c = carriageReturn then newline else c) = d
    have hread := h.read
    have hfull : (k.store d).e = (k.store d).r + 128 ↔ x.unread + 1 = INPUT_BUF := by
      have hr : (k.store d).r + 128 = UInt32.ofNat (x.consumed + 128) := by
        change k.r + 128 = _
        rw [h.r, UInt32.ofNat_add]
        rfl
      have hlt := hroom.2
      change x.committed.length + x.line.length - x.consumed < 128 at hlt
      change _ ↔ x.committed.length + x.line.length - x.consumed + 1 = 128
      rw [h.e_store, hr, eq_comm, ofNat_eq_iff (by omega) (by change _ ≤ _ + 128; omega)]
      omega
    by_cases hend : d = newline ∨ d = controlD ∨ x.unread + 1 = INPUT_BUF
    · simp only [if_pos hend, hfull]
      exact h.commit hroom.2 d
    · simp only [if_neg hend, hfull]
      simp only [not_or] at hend
      exact h.grow (by have := hroom.2; have := hend.2.2; omega) hend.1
  · rw [if_neg hroom, if_neg (by rw [hunread]; exact hroom)]
    exact h

theorem next_some (h : Shows x k) (hsome : k.r ≠ k.w) : x.next = some (k.char k.r) := by
  have hread := h.read
  have hroom := h.room
  have hlt : x.consumed < x.committed.length := by
    by_contra hge
    have heq : x.consumed = x.committed.length := by omega
    exact hsome (by rw [h.r, h.w, heq])
  have hget : x.committed[x.consumed]? = some x.committed[x.consumed] :=
    List.getElem?_eq_getElem hlt
  have hbuf := h.buf x.consumed _ (Nat.le_refl _) (by
    rw [List.getElem?_append_left hlt]
    exact hget)
  rw [h.r, char_ofNat, hbuf]
  exact hget

theorem take (h : Shows x k) (hsome : k.r ≠ k.w) :
    Shows { x with consumed := x.consumed + 1 } { k with r := k.r + 1 } := by
  have hlt : x.consumed < x.committed.length := by
    have := h.next_some hsome
    exact (List.getElem?_eq_some_iff.1 this).1
  have hroom := h.room
  constructor
  · exact hlt
  · change x.committed.length + x.line.length ≤ x.consumed + 1 + 128
    change x.committed.length + x.line.length ≤ x.consumed + 128 at hroom
    omega
  · change k.r + 1 = UInt32.ofNat (x.consumed + 1)
    rw [h.r, UInt32.ofNat_add]
    rfl
  · exact h.w
  · exact h.e
  · intro j c hj hc
    exact h.buf j c (Nat.le_of_succ_le hj) hc
  · intro hfull
    change x.committed.length + x.line.length = x.consumed + 1 + 128 at hfull
    change x.committed.length + x.line.length ≤ x.consumed + 128 at hroom
    omega
  · exact h.line

end Shows

variable {m : Nat}

def got (p : Fin m) (es : List (Event m)) : Nat :=
  es.foldl (fun n e =>
    match e with
    | .called q _ _ => if q = p then 0 else n
    | .delivered q _ => if q = p then n + 1 else n
    | _ => n) 0

theorem got_snoc (p : Fin m) (es : List (Event m)) (e : Event m) :
    got p (es ++ [e]) =
      match e with
      | .called q _ _ => if q = p then 0 else got p es
      | .delivered q _ => if q = p then got p es + 1 else got p es
      | _ => got p es := by
  unfold got
  rw [List.foldl_append]
  rfl

def delivered (es : List (Event m)) : List UInt8 :=
  es.filterMap fun e =>
    match e with
    | .delivered _ b => some b
    | _ => none

/-- A read gets the next character of the text, which is not a control-D, or it comes to
a control-D and returns what it got; and other reads return what they got, or -1. -/
def Proper (es : List (Event m)) : Event m → Prop
  | .delivered _ b => (editor es).next = some b ∧ b ≠ controlD
  | .eof p i => (editor es).next = some controlD ∧ i = got p es
  | .returned p r => r = got p es ∨ r = -1
  | _ => True

/-- The user memory of a read is mapped. -/
def Event.Mapped : Event m → Prop
  | .called _ dst n => ∀ i : Nat, (i : Int) < n → dst i = true
  | _ => True

def Pc.Counts : Pc → Nat → Prop
  | .user, _ => True
  | .acquire dst i n, k => i = k ∧ ∀ i : Nat, (i : Int) < n → dst i = true
  | .loop dst i n, k => i = k ∧ ∀ i : Nat, (i : Int) < n → dst i = true
  | .done r, k => r = k ∨ r = -1

structure Edited (es : List (Event m)) (s : Sys m) : Prop where
  shows : Shows (editor es) s.cons
  counts : ∀ p, (s.procs p).pc.Counts (got p es)
  text : delivered es = ((editor es).committed.take (editor es).consumed).filter (· ≠ controlD)
  proper : ∀ es₁ e es₂, es = es₁ ++ e :: es₂ → Proper es₁ e

theorem Editor.take_type {x : Editor} (h : x.consumed ≤ x.committed.length) (c : UInt8) :
    (x.type c).consumed = x.consumed ∧
    (x.type c).committed.take x.consumed = x.committed.take x.consumed := by
  unfold Editor.type
  generalize (if c = carriageReturn then newline else c) = d
  dsimp only
  split_ifs
  · exact ⟨rfl, rfl⟩
  · exact ⟨rfl, rfl⟩
  · exact ⟨rfl, rfl⟩
  · exact ⟨rfl, List.take_append_of_le_length h⟩
  · exact ⟨rfl, rfl⟩
  · exact ⟨rfl, rfl⟩

theorem Editor.take_next {x : Editor} {c : UInt8} (h : x.next = some c) :
    x.committed.take (x.consumed + 1) = x.committed.take x.consumed ++ [c] := by
  rw [List.take_add_one]
  unfold Editor.next at h
  rw [h]
  rfl

namespace Edited

variable {es : List (Event m)} {s t : Sys m} {p : Fin m} {e : Event m}

theorem snoc (h : Edited es s) (hshows : Shows ((editor es).step e) t.cons)
    (hcounts : ∀ p, (t.procs p).pc.Counts (got p (es ++ [e])))
    (htext : Console.delivered (es ++ [e]) = (((editor es).step e).committed.take
      ((editor es).step e).consumed).filter (· ≠ controlD))
    (hproper : Proper es e) : Edited (es ++ [e]) t := by
  constructor
  · rw [editor_snoc]
    exact hshows
  · exact hcounts
  · rw [editor_snoc]
    exact htext
  · intro es₁ e' es₂ hes
    rcases List.eq_nil_or_concat es₂ with rfl | ⟨es₂, e'', rfl⟩
    · obtain ⟨rfl, he⟩ := List.append_inj' hes rfl
      obtain rfl : e = e' := by simpa using he
      exact hproper
    · rw [List.concat_eq_append, ← List.cons_append, ← List.append_assoc] at hes
      obtain ⟨rfl, -⟩ := List.append_inj' hes rfl
      exact h.proper _ _ _ rfl

/-- A step that concerns neither the text nor any reader's count but that of `p`. -/
theorem silent (h : Edited es s) (hcons : t.cons = s.cons) (hstep : (editor es).step e = editor es)
    (hdelivered : Console.delivered (es ++ [e]) = Console.delivered es)
    (hgot : ∀ q, q ≠ p → got q (es ++ [e]) = got q es)
    (hother : ∀ q, q ≠ p → (t.procs q).pc = (s.procs q).pc)
    (hp : (t.procs p).pc.Counts (got p (es ++ [e]))) (hproper : Proper es e) :
    Edited (es ++ [e]) t := by
  apply h.snoc
  · rw [hstep, hcons]
    exact h.shows
  · intro q
    by_cases hq : q = p
    · rw [hq]
      exact hp
    · rw [hgot q hq, hother q hq]
      exact h.counts q
  · rw [hstep, hdelivered]
    exact h.text
  · exact hproper

theorem intr (h : Edited es s) {c : UInt8} (hintr : s.intr c = some (t, e)) :
    Edited (es ++ [e]) t := by
  unfold Sys.intr at hintr
  split at hintr
  next =>
    cases hintr
    obtain ⟨hconsumed, htake⟩ := Editor.take_type h.shows.read c
    apply h.snoc
    · exact h.shows.intr c
    · intro q
      rw [got_snoc]
      have hpc : ∀ b : Bool, ((if b then fun q => { s.procs q with asleep := false } else s.procs) q).pc =
          (s.procs q).pc := by
        intro b
        cases b <;> rfl
      rw [hpc]
      exact h.counts q
    · change _ = (((editor es).type c).committed.take ((editor es).type c).consumed).filter _
      rw [hconsumed, htake, ← h.text]
      simp [Console.delivered]
    · trivial
  next => cases hintr

theorem deliver (h : Edited es s) {c : UInt8} {pc : Pc} (hsome : s.cons.r ≠ s.cons.w)
    (hc : s.cons.char s.cons.r = c) (hne : c ≠ controlD) (hpc : pc.Counts (got p es + 1)) :
    Edited (es ++ [.delivered p c]) (s.take.goto p pc) := by
  have hnext := h.shows.next_some hsome
  rw [hc] at hnext
  apply h.snoc
  · exact h.shows.take hsome
  · intro q
    rw [got_snoc]
    by_cases hq : q = p
    · subst hq
      simpa [Sys.goto, Sys.setProc] using hpc
    · simp only [Sys.goto, Sys.setProc, upd_of_ne _ _ _ hq, if_neg (Ne.symm hq)]
      exact h.counts q
  · change _ = ((editor es).committed.take ((editor es).consumed + 1)).filter _
    rw [Editor.take_next hnext, List.filter_append, ← h.text]
    simp [Console.delivered, hne]
  · exact ⟨hnext, hne⟩

theorem eof (h : Edited es s) {i : Nat} (hsome : s.cons.r ≠ s.cons.w)
    (hc : s.cons.char s.cons.r = controlD) (hi : i = got p es) :
    Edited (es ++ [.eof p i])
      ({ (if 0 < i then s else s.take) with lock := none }.goto p .user) := by
  have hnext := h.shows.next_some hsome
  rw [hc] at hnext
  have hcounts : ∀ (u : Sys m) (q : Fin m), u.procs = s.procs →
      ((u.goto p .user).procs q).pc.Counts (got q (es ++ [.eof p i])) := by
    intro u q hu
    rw [got_snoc]
    by_cases hq : q = p
    · subst hq
      simp [Sys.goto, Sys.setProc, Pc.Counts]
    · simp only [Sys.goto, Sys.setProc, upd_of_ne _ _ _ hq, hu]
      exact h.counts q
  cases i with
  | zero =>
    apply h.snoc
    · exact h.shows.take hsome
    · intro q
      exact hcounts _ q rfl
    · change _ = ((editor es).committed.take ((editor es).consumed + 1)).filter _
      rw [Editor.take_next hnext, List.filter_append, ← h.text]
      simp [Console.delivered]
    · exact ⟨hnext, hi⟩
  | succ i =>
    rw [if_pos (Nat.succ_pos i)]
    apply h.snoc
    · exact h.shows
    · intro q
      exact hcounts _ q rfl
    · change _ = ((editor es).committed.take (editor es).consumed).filter _
      rw [← h.text]
      simp [Console.delivered]
    · exact ⟨hnext, hi⟩

theorem loop (h : Edited es s) {dst : Target} {i : Nat} {n : Int}
    (hpc : (s.procs p).pc = .loop dst i n) :
    Edited (es ++ [(s.loop p dst i n).2]) (s.loop p dst i n).1 := by
  have hp := h.counts p
  rw [hpc] at hp
  obtain ⟨hi, hdst⟩ := hp
  have htau : ∀ (u : Sys m) (f : Proc → Proc), u.cons = s.cons → u.procs = s.procs →
      (f (s.procs p)).pc.Counts (got p es) → Edited (es ++ [.tau]) (u.setProc p f) := by
    intro u f hcons hprocs hf
    refine h.silent (p := p) hcons rfl (by simp [Console.delivered]) (fun q _ => got_snoc q es _) ?_ ?_
      trivial
    · intro q hq
      simp only [Sys.setProc, upd_of_ne _ _ _ hq, hprocs]
    · rw [got_snoc]
      simpa [Sys.setProc, hprocs] using hf
  unfold Sys.loop
  by_cases hlt : (i : Int) < n
  · rw [if_pos hlt]
    by_cases hempty : s.cons.r = s.cons.w
    · rw [if_pos hempty]
      by_cases hkilled : (s.procs p).killed = true
      · rw [if_pos hkilled]
        exact htau s (fun x => { x with pc := .done (-1) }) rfl rfl (Or.inr rfl)
      · rw [if_neg hkilled]
        exact htau { s with lock := none }
          (fun x => { x with pc := .acquire dst i n, asleep := true }) rfl rfl (And.intro hi hdst)
    · rw [if_neg hempty]
      by_cases heof : s.cons.char s.cons.r = controlD
      · simp only [if_pos heof]
        exact h.eof hempty heof hi
      · simp only [if_neg heof, if_pos (hdst i hlt)]
        apply h.deliver hempty rfl heof
        by_cases hnl : s.cons.char s.cons.r = newline
        · rw [if_pos hnl, ← hi]
          exact .inl rfl
        · rw [if_neg hnl]
          exact ⟨by rw [hi], hdst⟩
  · rw [if_neg hlt]
    exact htau s (fun x => { x with pc := .done i }) rfl rfl (Or.inl (by rw [hi]))

theorem step (h : Edited es s) (hstep : Step s e t) (hmapped : e.Mapped) : Edited (es ++ [e]) t := by
  cases hstep with
  | intr c hs => exact h.intr hs
  | run p hs =>
    unfold Sys.step at hs
    split at hs
    next => cases hs
    next =>
      have hp := h.counts p
      generalize hpc : (s.procs p).pc = pc at hs hp
      cases pc with
      | user => cases hs
      | acquire dst i n =>
        simp only [Sys.exec] at hs
        split at hs
        next =>
          cases hs
          refine h.silent (p := p) rfl rfl (by simp [Console.delivered])
            (fun q _ => got_snoc q es _) ?_ ?_ trivial
          · intro q hq
            simp only [Sys.goto, Sys.setProc, upd_of_ne _ _ _ hq]
          · rw [got_snoc]
            simp only [Sys.goto, Sys.setProc, upd_self]
            exact hp
        next => cases hs
      | loop dst i n =>
        simp only [Sys.exec, Option.some.injEq] at hs
        have := h.loop hpc
        rwa [hs] at this
      | done r =>
        cases hs
        refine h.silent (p := p) rfl rfl (by simp [Console.delivered])
          (fun q _ => got_snoc q es _) ?_ ?_ hp
        · intro q hq
          simp only [Sys.goto, Sys.setProc, upd_of_ne _ _ _ hq]
        · simp [Sys.goto, Sys.setProc, Pc.Counts]
  | call p dst n hs =>
    unfold Sys.call at hs
    split at hs
    next =>
      cases hs
      refine h.silent (p := p) rfl rfl (by simp [Console.delivered]) ?_ ?_ ?_ trivial
      · intro q hq
        rw [got_snoc]
        exact if_neg (Ne.symm hq)
      · intro q hq
        simp only [Sys.goto, Sys.setProc, upd_of_ne _ _ _ hq]
      · rw [got_snoc]
        simp only [Sys.goto, Sys.setProc, upd_self, if_true]
        exact ⟨rfl, hmapped⟩
    next => cases hs
  | kill p hs =>
    cases hs
    refine h.silent (p := p) rfl rfl (by simp [Console.delivered]) (fun q _ => got_snoc q es _) ?_ ?_
      trivial
    · intro q hq
      simp only [Sys.setProc, upd_of_ne _ _ _ hq]
    · rw [got_snoc]
      simpa [Sys.setProc] using h.counts p

end Edited

theorem edited_initial : Edited [] (initial : Sys m) := by
  constructor
  · constructor <;> simp [editor, initial]
  · intro p
    trivial
  · rfl
  · intro es₁ e es₂ hes
    simp at hes

/-- Whatever is typed, and whatever processes read and are killed, as long as the memory
they read into is mapped: the indices are in order and at most `INPUT_BUF` apart, and a
full buffer can be read.  The bytes delivered are those of the text read so far, without
its control-Ds; and each time, a read gets the next character of the text or ends at a
control-D, which stays the next character if the read had got data. -/
theorem console_line_editor {es : List (Event m)} {s : Sys m}
    (h : Run (Restrict Step fun _ e _ => e.Mapped) initial es s) :
    ((s.cons.w - s.cons.r).toNat ≤ (s.cons.e - s.cons.r).toNat ∧
      (s.cons.e - s.cons.r).toNat ≤ INPUT_BUF) ∧
    (s.cons.e = s.cons.r + 128 → s.cons.w = s.cons.e) ∧
    delivered es = ((editor es).committed.take (editor es).consumed).filter (· ≠ controlD) ∧
    ∀ es₁ e es₂, es = es₁ ++ e :: es₂ → Proper es₁ e := by
  have hinv : Edited es s := by
    refine h.history (I := Edited) ?_ edited_initial
    intro es s e t hedited hstep
    exact hedited.step hstep.1 hstep.2
  have hshows := hinv.shows
  have hread := hshows.read
  have hroom := hshows.room
  have hw : (s.cons.w - s.cons.r).toNat = (editor es).committed.length - (editor es).consumed := by
    rw [hshows.w, hshows.r, toNat_ofNat_sub hread (by omega)]
  have he := hshows.unread_eq
  unfold Editor.unread at he
  refine ⟨⟨by omega, by omega⟩, ?_, hinv.text, hinv.proper⟩
  intro hfull
  have hlen : (editor es).committed.length + (editor es).line.length =
      (editor es).consumed + INPUT_BUF := by
    have : (s.cons.e - s.cons.r).toNat = 128 := by
      rw [hfull, UInt32.add_comm, UInt32.add_sub_cancel]
      rfl
    change _ = _ + 128
    omega
  rw [hshows.w, hshows.e, hshows.full hlen]
  rfl

/-- What the reads that came to a control-D returned. -/
def eofs (es : List (Event m)) : List Nat :=
  es.filterMap fun e =>
    match e with
    | .eof _ i => some i
    | _ => none

/-- Two reads of a line `ab` that was corrected and ended with control-D. -/
theorem console_line_editor_eof :
    ∃ (es : List (Event 1)) (s : Sys 1),
      Run (Restrict Step fun _ e _ => e.Mapped) initial es s ∧ eofs es = [2, 0] ∧
      (editor es).committed = [97, 98, 4] ∧ (editor es).consumed = 3 ∧
      delivered es = [97, 98] ∧ (s.cons.e - s.cons.r).toNat ≤ INPUT_BUF := by
  have hcheck : (trace Sys.next initial
      [.intr 97, .intr 120, .intr 8, .intr 98, .intr 4, .call 0 (fun _ => true) 5, .go 0, .go 0,
        .go 0, .go 0, .call 0 (fun _ => true) 5, .go 0, .go 0]).any
      (fun (x : Sys 1 × List (Event 1)) => eofs x.2 == [2, 0] &&
        decide (editor x.2 = ⟨[97, 98, 4], [], 3⟩) &&
        x.2.all fun e =>
          match e with
          | .called _ dst n => (List.range 5).all dst && decide (n = 5)
          | _ => true) = true := by
    decide +kernel
  obtain ⟨⟨s, es⟩, hs, hcheck⟩ := (Option.any_eq_true _ _).1 hcheck
  simp only [Bool.and_eq_true, beq_iff_eq, decide_eq_true_eq, List.all_eq_true] at hcheck
  obtain ⟨⟨heofs, heditor⟩, hmapped⟩ := hcheck
  have hrun : Run (Restrict Step fun _ e _ => e.Mapped) initial es s := by
    refine (trace_run Sys.next_step hs).restrict (C := Event.Mapped) fun e he => ?_
    have hok := hmapped e he
    cases e with
    | called p dst n =>
      simp only [Bool.and_eq_true, List.all_eq_true, decide_eq_true_eq] at hok
      intro i hi
      rw [hok.2] at hi
      exact hok.1 i (List.mem_range.2 (by omega))
    | _ => trivial
  obtain ⟨hindices, -, htext, -⟩ := console_line_editor hrun
  refine ⟨es, s, hrun, heofs, by rw [heditor], by rw [heditor], ?_, hindices.2⟩
  rw [htext, heditor]
  rfl

end Xv6.Console
