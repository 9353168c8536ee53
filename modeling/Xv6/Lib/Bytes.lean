import Mathlib

/-!
# Little-endian numbers in a byte memory

A byte memory is a function from offsets to bytes.  `blit` copies a range into it,
`word` reads a number of `k` bytes and `setWord` stores one.
-/

namespace Xv6.Lib

/-- `f` with the value `v` at `a`.  Unlike `Function.update` it has no cast in it, so that
long chains of updates evaluate. -/
def upd {α β : Type} [DecidableEq α] (f : α → β) (a : α) (v : β) : α → β :=
  fun x => if x = a then v else f x

section

variable {α β : Type} [DecidableEq α] (f : α → β) (a : α) (v : β)

@[simp] theorem upd_self : upd f a v a = v := if_pos rfl

theorem upd_of_ne {x : α} (h : x ≠ a) : upd f a v x = f x := if_neg h

theorem upd_upd (w : β) : upd (upd f a v) a w = upd f a w := by
  funext x
  by_cases h : x = a <;> simp [upd, h]

theorem upd_eq_self : upd f a (f a) = f := by
  funext x
  by_cases h : x = a <;> simp [upd, h]

theorem upd_eq (x : α) : upd f a v x = if x = a then v else f x := rfl

end

/-- The assignments `m[d] = m[s]` for the pairs `(d, s)`, one after the other. -/
def copyAll {α β : Type} [DecidableEq α] (m : α → β) (l : List (α × α)) : α → β :=
  l.foldl (fun m p => upd m p.1 (m p.2)) m

section

variable {α β : Type} [DecidableEq α] {m : α → β} {l : List (α × α)}

theorem copyAll_of_not_mem {a : α} (h : ∀ p ∈ l, a ≠ p.1) : copyAll m l a = m a := by
  induction l generalizing m with
  | nil => rfl
  | cons q l ih =>
    calc copyAll (upd m q.1 (m q.2)) l a = upd m q.1 (m q.2) a :=
          ih fun p hp => h p (List.mem_cons_of_mem q hp)
      _ = m a := upd_of_ne _ _ _ (h q List.mem_cons_self)

/-- If no assignment changes what a later one writes or reads, all values are the old ones. -/
theorem copyAll_of_mem (hl : l.Pairwise fun p q => p.1 ≠ q.1 ∧ p.1 ≠ q.2) {p : α × α}
    (hp : p ∈ l) : copyAll m l p.1 = m p.2 := by
  induction l generalizing m with
  | nil => cases hp
  | cons q l ih =>
    obtain ⟨hq, hl⟩ := List.pairwise_cons.1 hl
    rcases List.mem_cons.1 hp with rfl | hp
    · calc copyAll (upd m p.1 (m p.2)) l p.1 = upd m p.1 (m p.2) p.1 :=
            copyAll_of_not_mem fun r hr => (hq r hr).1
        _ = m p.2 := upd_self ..
    · calc copyAll (upd m q.1 (m q.2)) l p.1 = upd m q.1 (m q.2) p.2 := ih hl hp
        _ = m p.2 := upd_of_ne _ _ _ (hq p hp).2.symm

end

abbrev Bytes := Nat → UInt8

def blit (d : Bytes) (o n : Nat) (src : Bytes) : Bytes :=
  fun i => if o ≤ i ∧ i < o + n then src (i - o) else d i

def word (d : Bytes) : Nat → Nat → Nat
  | _, 0 => 0
  | o, k + 1 => (d o).toNat + 256 * word d (o + 1) k

def byteOf (v i : Nat) : UInt8 := UInt8.ofNat (v / 256 ^ i)

def setWord (d : Bytes) (o k v : Nat) : Bytes := blit d o k (byteOf v)

section

variable {d d' src : Bytes} {o o' n n' k k' v i : Nat}

theorem blit_inside (h : o ≤ i) (h' : i < o + n) : blit d o n src i = src (i - o) := by
  simp [blit, h, h']

theorem blit_outside (h : i < o ∨ o + n ≤ i) : blit d o n src i = d i := by
  unfold blit
  rw [if_neg]
  omega

theorem blit_blit (d src : Bytes) (o n n' : Nat) :
    blit (blit d o n src) (o + n) n' (fun j => src (n + j)) = blit d o (n + n') src := by
  funext i
  unfold blit
  by_cases hlast : o + n ≤ i ∧ i < o + n + n'
  · rw [if_pos hlast, if_pos (by omega), show i - o = n + (i - (o + n)) by omega]
  · rw [if_neg hlast]
    by_cases hfirst : o ≤ i ∧ i < o + n
    · rw [if_pos hfirst, if_pos (by omega)]
    · rw [if_neg hfirst, if_neg (by omega)]

theorem word_congr (h : ∀ i, o ≤ i → i < o + k → d i = d' i) : word d o k = word d' o k := by
  induction k generalizing o with
  | zero => rfl
  | succ k ih =>
    rw [word, word, h o (Nat.le_refl _) (by omega), ih fun i hi hi' => h i (by omega) (by omega)]

theorem word_blit_outside (h : o' + k ≤ o ∨ o + n ≤ o') :
    word (blit d o n src) o' k = word d o' k := by
  apply word_congr
  intro i hi hi'
  exact blit_outside (by omega)

theorem word_of_bytes (h : ∀ i, i < k → d (o + i) = byteOf v i) : word d o k = v % 256 ^ k := by
  induction k generalizing o v with
  | zero => simp [word, Nat.mod_one]
  | succ k ih =>
    have hfirst := h 0 (Nat.succ_pos k)
    have hrest : word d (o + 1) k = (v / 256) % 256 ^ k := by
      apply ih
      intro i hi
      have hnext := h (i + 1) (by omega)
      rw [show o + 1 + i = o + (i + 1) by omega, hnext, byteOf, byteOf, Nat.pow_succ',
        Nat.div_div_eq_div_mul]
    rw [word, hrest, Nat.pow_succ', Nat.mod_mul]
    simp only [Nat.add_zero] at hfirst
    rw [hfirst]
    simp [byteOf]

theorem word_setWord (d : Bytes) (o k v : Nat) : word (setWord d o k v) o k = v % 256 ^ k := by
  apply word_of_bytes
  intro i hi
  rw [setWord, blit_inside (by omega) (by omega)]
  congr 1
  omega

theorem word_setWord_of_lt (h : v < 256 ^ k) : word (setWord d o k v) o k = v := by
  rw [word_setWord, Nat.mod_eq_of_lt h]

theorem word_setWord_outside (h : o' + k' ≤ o ∨ o + k ≤ o') :
    word (setWord d o k v) o' k' = word d o' k' :=
  word_blit_outside h

end

theorem word_zero (o k : Nat) : word (fun _ => 0) o k = 0 := by
  induction k generalizing o with
  | zero => rfl
  | succ k ih => simp [word, ih]

/-!
## A range of a list
-/

section

variable {α : Type} {l w : List α} {off : Nat}

/-- `l` with `w` in place of what it has from `off` on. -/
def splice (l : List α) (off : Nat) (w : List α) : List α :=
  l.take off ++ w ++ l.drop (off + w.length)

theorem length_splice (h : off ≤ l.length) :
    (splice l off w).length = max l.length (off + w.length) := by
  simp only [splice, List.length_append, List.length_take, List.length_drop]
  omega

theorem getElem?_splice (h : off ≤ l.length) (i : Nat) :
    (splice l off w)[i]? = if off ≤ i ∧ i < off + w.length then w[i - off]? else l[i]? := by
  have htake : (l.take off).length = off := by
    rw [List.length_take]
    omega
  unfold splice
  by_cases hfirst : i < off
  · rw [List.append_assoc, List.getElem?_append_left (by omega), List.getElem?_take_of_lt hfirst,
      if_neg (by omega)]
  · by_cases hin : i < off + w.length
    · rw [List.getElem?_append_left (by rw [List.length_append]; omega),
        List.getElem?_append_right (by omega), htake, if_pos (by omega)]
    · rw [List.getElem?_append_right (by rw [List.length_append]; omega), List.length_append, htake,
        List.getElem?_drop, if_neg (by omega), Nat.add_sub_cancel' (by omega)]

end

/-!
## Bits
-/

def bit (d : Bytes) (i : Nat) : Bool := (d (i / 8)).toBitVec.getLsbD (i % 8)

def setBit (d : Bytes) (i : Nat) : Bytes :=
  fun j => if j = i / 8 then ⟨(d j).toBitVec ||| BitVec.twoPow 8 (i % 8)⟩ else d j

def clearBit (d : Bytes) (i : Nat) : Bytes :=
  fun j => if j = i / 8 then ⟨(d j).toBitVec &&& ~~~(BitVec.twoPow 8 (i % 8))⟩ else d j

theorem bit_setBit (d : Bytes) (i j : Nat) : bit (setBit d i) j = (decide (j = i) || bit d j) := by
  unfold bit setBit
  have hlt : j % 8 < 8 := Nat.mod_lt _ (by decide)
  by_cases hbyte : j / 8 = i / 8
  · rw [if_pos hbyte]
    have hiff : (j % 8 = i % 8) ↔ j = i := by omega
    simp [hlt, hiff, eq_comm, Bool.or_comm]
  · have hne : j ≠ i := fun h => hbyte (by rw [h])
    simp [hbyte, hne]

theorem bit_clearBit (d : Bytes) (i j : Nat) :
    bit (clearBit d i) j = (!decide (j = i) && bit d j) := by
  unfold bit clearBit
  have hlt : j % 8 < 8 := Nat.mod_lt _ (by decide)
  by_cases hbyte : j / 8 = i / 8
  · rw [if_pos hbyte]
    have hiff : (j % 8 = i % 8) ↔ j = i := by omega
    simp [hlt, hiff, eq_comm, Bool.and_comm]
  · have hne : j ≠ i := fun h => hbyte (by rw [h])
    simp [hbyte, hne]

end Xv6.Lib
