import Xv6.Virtio.Queue

/-!
# The descriptor protocol

The invariant of the driver and the device, and what follows from it for every run: the
marks of the descriptors, the way of a request from its post to the handler, and the
panics that cannot be reached.
-/

namespace Xv6.Virtio

open Lib

variable {B P H : Type}

inductive Stage
  | idle
  | posted
  | completed
  deriving DecidableEq, Repr

/-- A head is posted, completed and seen in turn. -/
def Stage.after (i : Nat) (l : Option Stage) : Event B P → Option Stage
  | .post j _ _ => if j = i then (if l = some idle then some posted else none) else l
  | .complete j => if j = i then (if l = some posted then some completed else none) else l
  | .see j _ => if j = i then (if l = some completed then some idle else none) else l
  | _ => l

def stage (i : Nat) (es : List (Event B P)) : Option Stage := es.foldl (Stage.after i) (some .idle)

theorem stage_append (i : Nat) (es : List (Event B P)) (e : Event B P) :
    stage i (es ++ [e]) = Stage.after i (stage i es) e := by
  simp [stage]

variable {b : B} {c : Chain} {d : Disk B} {proc : P → Point B} {i : Nat}

namespace Point

def locked : Point B → Bool
  | out => false
  | enter _ => false
  | sleepFree _ => false
  | sleepBuf _ _ => false
  | _ => true

def buf : Point B → Option B
  | out => none
  | enter r => some r.b
  | alloc r => some r.b
  | sleepFree r => some r.b
  | format r _ => some r.b
  | ring b _ => some b
  | bump b _ => some b
  | check b _ => some b
  | sleepBuf b _ => some b
  | clear b _ => some b
  | freeing b _ _ => some b
  | release b => some b

theorem held_of_request {a : Point B} (h : a.view.request = some (b, c)) :
    a.held = c.list ∧ a.buf = some b ∧ a.formatted = true := by
  cases a with
  | ring _ _ => cases h; exact ⟨rfl, rfl, rfl⟩
  | bump _ _ => cases h; exact ⟨rfl, rfl, rfl⟩
  | check _ _ => cases h; exact ⟨rfl, rfl, rfl⟩
  | sleepBuf _ _ => cases h; exact ⟨rfl, rfl, rfl⟩
  | _ => cases h

end Point

def Handler.locked : Handler → Bool
  | off => false
  | enter => false
  | _ => true

def Sys.locked (s : Sys B P H) : P ⊕ H → Bool
  | .inl p => (s.proc p).locked
  | .inr h => (s.hart h).locked

def Owner {T : Type} (L : T → Bool) (lock : Option T) : Prop := ∀ t, L t = true ↔ lock = some t

namespace Owner

variable {T : Type} [DecidableEq T] {L : T → Bool} {lock : Option T} {t : T}

theorem acquire (h : Owner L none) : Owner (upd L t true) (some t) := by
  intro r
  by_cases hr : r = t
  · simp [hr]
  · rw [upd_of_ne _ _ _ hr, h r]
    simp [Ne.symm hr]

theorem release (h : Owner L lock) (ht : L t = true) : Owner (upd L t false) none := by
  have hlock := (h t).1 ht
  intro r
  by_cases hr : r = t
  · simp [hr]
  · rw [upd_of_ne _ _ _ hr, h r, hlock]
    simp [Ne.symm hr]

omit [DecidableEq T] in
theorem unique (h : Owner L lock) (t r : T) (ht : L t = true) (hr : L r = true) : t = r := by
  have := ((h t).1 ht).symm.trans ((h r).1 hr)
  exact Option.some.inj this

end Owner

structure Inv (es : List (Event B P)) (s : Sys B P H) (u v : List Nat) : Prop where
  owner : Owner s.locked s.lock
  block : ∀ p b, (s.proc p).buf = some b → s.block b = some p
  descs : Descs s.disk s.proc
  queue : Queue (fun p => (s.proc p).view) s.disk s.busy s.fetched s.pending u v
  body : ∀ h, s.hart h = .body → v ≠ []
  stages : ∀ i, stage i es =
    some (if i ∈ u ++ s.pending then .posted else if i ∈ v then .completed else .idle)
  calm : ∀ why, .panic why ∉ es

theorem apart_of {block : B → Option P} (hdescs : Descs d proc)
    (hblock : ∀ p b, (proc p).buf = some b → block b = some p) : Apart fun p => (proc p).view := by
  constructor
  · intro p q b c c' hp hq
    have hbp := hblock p b (Point.held_of_request hp).2.1
    have hbq := hblock q b (Point.held_of_request hq).2.1
    rw [hbp] at hbq
    exact Option.some.inj hbq
  · intro p q b c b' c' i hp hq hi hi'
    apply hdescs.disjoint p q i
    · rw [(Point.held_of_request hp).1]
      exact hi
    · rw [(Point.held_of_request hq).1]
      exact hi'
  · intro p b c hp i hi
    apply hdescs.lt p i
    rw [(Point.held_of_request hp).1]
    exact hi

namespace Inv

variable {es : List (Event B P)} {s t : Sys B P H} {u v : List Nat} {p : P} {a : Point B}

theorem apart (h : Inv es s u v) : Apart fun p => (s.proc p).view := apart_of h.descs h.block

/-- The descriptors of a request are not those of another process. -/
theorem request_ne (h : Inv es s u v) {q : P} {j : Nat} (hq : (s.proc q).view.request = some (b, c))
    (hj : j ∈ c.list) (hi : i ∈ (s.proc p).held) (hpq : (s.proc p).view = .none) : j ≠ i := by
  rintro rfl
  have heq := h.descs.disjoint q p j (by rw [(Point.held_of_request hq).1]; exact hj) hi
  subst heq
  rw [hpq] at hq
  cases hq

theorem request_busy (h : Inv es s u v) {q : P} {j : Nat}
    (hq : (s.proc q).view.request = some (b, c)) (hj : j ∈ c.list) : s.disk.free j = false := by
  have hheld : j ∈ (s.proc q).held := by
    rw [(Point.held_of_request hq).1]
    exact hj
  exact (h.descs.free j (h.descs.lt q j hheld)).2 ⟨q, hheld⟩

end Inv

/-!
## Steps of a process
-/

section

variable [DecidableEq P] {es : List (Event B P)} {s t : Sys B P H} {u v : List Nat} {p : P}
  {a : Point B}

theorem view_upd (proc : P → Point B) (p : P) (a : Point B) :
    (fun q => (upd proc p a q).view) = upd (fun q => (proc q).view) p a.view := by
  funext q
  by_cases hq : q = p
  · rw [hq, upd_self, upd_self]
  · rw [upd_of_ne _ _ _ hq, upd_of_ne _ _ _ hq]

theorem view_keep (h : a.view = (proc p).view) :
    upd (fun q => (proc q).view) p a.view = fun q => (proc q).view := by
  rw [h]
  exact upd_eq_self (fun q => (proc q).view) p

theorem block_upd {block : B → Option P} (h : ∀ q b, (proc q).buf = some b → block b = some q)
    (hbuf : ∀ b, a.buf = some b → block b = some p) (q : P) (b : B)
    (hq : (upd proc p a q).buf = some b) : block b = some q := by
  by_cases hqp : q = p
  · rw [hqp, upd_self] at hq
    rw [hqp]
    exact hbuf b hq
  · rw [upd_of_ne _ _ _ hqp] at hq
    exact h q b hq

variable [DecidableEq H]

set_option linter.unusedSectionVars false

theorem locked_goto (s : Sys B P H) (p : P) (a : Point B) :
    (s.goto p a).locked = upd s.locked (.inl p) a.locked := by
  funext x
  cases x with
  | inl q =>
    change (upd s.proc p a q).locked = _
    by_cases hq : q = p
    · rw [hq, upd_self, upd_self]
    · rw [upd_of_ne _ _ _ hq, upd_of_ne _ _ _ (by simpa using hq)]
      rfl
  | inr h => rfl

namespace Inv

theorem quiet (h : Inv es s u v) {busy : B → Bool} {lock : Option (P ⊕ H)}
    (howner : Owner (upd s.locked (.inl p) a.locked) lock)
    (hbuf : ∀ b, a.buf = some b → (s.proc p).buf = some b) (hdescs : Descs d (upd s.proc p a))
    (hqueue : Queue (upd (fun q => (s.proc q).view) p a.view) d busy s.fetched s.pending u v) :
    Inv (es ++ [.tau]) { s with disk := d, busy := busy, lock := lock, proc := upd s.proc p a } u v := by
  constructor
  · change Owner (s.goto p a).locked lock
    rw [locked_goto]
    exact howner
  · exact block_upd h.block fun b hb => h.block p b (hbuf b hb)
  · exact hdescs
  · change Queue (fun q => (upd s.proc p a q).view) _ _ _ _ _ _
    rw [view_upd]
    exact hqueue
  · exact h.body
  · intro i
    rw [stage_append, h.stages i]
    rfl
  · intro why
    rw [List.mem_append, not_or]
    exact ⟨h.calm why, by simp⟩

theorem owner_keep (h : Inv es s u v) (ha : a.locked = (s.proc p).locked) :
    Owner (upd s.locked (.inl p) a.locked) s.lock := by
  have heq := upd_eq_self s.locked (.inl p)
  change upd s.locked (.inl p) (s.proc p).locked = _ at heq
  rw [ha, heq]
  exact h.owner

end Inv

structure Like (a b : Point B) : Prop where
  held : a.held = b.held
  view : a.view = b.view
  formatted : a.formatted = true → b.formatted = true
  freeing : ∀ x c i, a ≠ .freeing x c i
  buf : ∀ x, a.buf = some x → b.buf = some x

namespace Inv

theorem descs_keep (h : Inv es s u v) (hlike : Like a (s.proc p)) : Descs s.disk (upd s.proc p a) :=
  h.descs.same hlike.held hlike.formatted fun x c i heq => absurd heq (hlike.freeing x c i)

theorem acquire (h : Inv es s u v) (hlock : s.lock = none) (ha : a.locked = true)
    (hlike : Like a (s.proc p)) :
    Inv (es ++ [.tau]) { s.goto p a with lock := some (.inl p) } u v := by
  have howner : Owner (upd s.locked (.inl p) a.locked) (some (.inl p)) := by
    rw [ha]
    exact (hlock ▸ h.owner).acquire
  apply h.quiet howner hlike.buf (h.descs_keep hlike)
  rw [view_keep hlike.view]
  exact h.queue

theorem release (h : Inv es s u v) (hlocked : (s.proc p).locked = true) (ha : a.locked = false)
    (hlike : Like a (s.proc p)) : Inv (es ++ [.tau]) (s.goto p a).release u v := by
  have howner : Owner (upd s.locked (.inl p) a.locked) none := by
    rw [ha]
    exact h.owner.release hlocked
  apply h.quiet howner hlike.buf (h.descs_keep hlike)
  rw [view_keep hlike.view]
  exact h.queue

variable [DecidableEq B] {r : Call B} {b : B} {c : Chain} {e : Event B P}

theorem go_acquire (h : Inv es s u v) (ha : a.locked = true) (hlike : Like a (s.proc p))
    (hgo : s.acquire p a = some (t, e)) : Inv (es ++ [e]) t u v := by
  unfold Sys.acquire at hgo
  split at hgo
  next hlock =>
    cases hgo
    exact h.acquire (Option.isNone_iff_eq_none.1 hlock) ha hlike
  next => cases hgo

/-- The process has no request, or an unchanged one, and the driver's own data changes. -/
theorem queue_frame (h : Inv es s u v) (hview : a.view = (s.proc p).view)
    (hinfo : ∀ q b c, (s.proc q).view.request = some (b, c) → d.info c.i0 = s.disk.info c.i0)
    (hdesc : ∀ q b c, (s.proc q).view.request = some (b, c) → ∀ i ∈ c.list, d.desc i = s.disk.desc i)
    (hring : d.availRing = s.disk.availRing) (hidx : d.availIdx = s.disk.availIdx)
    (husedRing : d.usedRing = s.disk.usedRing) (husedIdx : d.usedIdx = s.disk.usedIdx)
    (hlooked : d.lookedIdx = s.disk.lookedIdx) :
    Queue (upd (fun q => (s.proc q).view) p a.view) d s.busy s.fetched s.pending u v := by
  rw [view_keep hview]
  apply h.queue.frame hinfo _ hring hidx husedRing husedIdx hlooked
  intro q b c hq
  exact ⟨hdesc q b c hq c.i1 (by simp [Chain.list]), hdesc q b c hq c.i2 (by simp [Chain.list])⟩

theorem go_alloc (h : Inv es s u v) (hp : s.proc p = .alloc r)
    (hgo : s.go p (.alloc r) = some (t, e)) : Inv (es ++ [e]) t u v := by
  unfold Sys.go at hgo
  rcases alloc3Desc_cases s.disk with ⟨c, heq, ht⟩ | ⟨desc, heq, hdesc⟩
  · rw [heq] at hgo
    cases hgo
    apply h.quiet (a := .format r c)
    · exact h.owner_keep (by rw [hp]; rfl)
    · intro x hx
      rw [hp]
      exact hx
    · exact h.descs.alloc (by rw [hp]; rfl) ht r
    · apply h.queue_frame
      · rw [hp]
        rfl
      · intro q b c _
        rfl
      · intro q b c _ i _
        rfl
      · rfl
      · rfl
      · rfl
      · rfl
      · rfl
  · rw [heq] at hgo
    cases hgo
    have hlocked : (s.proc p).locked = true := by rw [hp]; rfl
    apply h.quiet (a := .sleepFree r)
    · exact h.owner.release hlocked
    · intro x hx
      rw [hp]
      exact hx
    · apply Descs.refill _ hdesc
      apply h.descs.same
      · rw [hp]
        rfl
      · intro hfalse
        cases hfalse
      · intro x c i hfalse
        cases hfalse
    · apply h.queue_frame
      · rw [hp]
        rfl
      · intro q b c _
        rfl
      · intro q b c hq i hi
        exact hdesc i (h.request_busy hq hi)
      · rfl
      · rfl
      · rfl
      · rfl
      · rfl

theorem go_format (h : Inv es s u v) (hp : s.proc p = .format r c)
    (hgo : s.go p (.format r c) = some (t, e)) : Inv (es ++ [e]) t u v := by
  cases hgo
  have hdescs := h.descs.format hp
  have hbuf : ∀ x, (Point.ring r.b c).buf = some x → (s.proc p).buf = some x := by
    intro x hx
    rw [hp]
    exact hx
  have happart := apart_of hdescs (block_upd h.block fun x hx => h.block p x (hbuf x hx))
  have hnodup := h.descs.nodup p
  rw [view_upd] at happart
  rw [hp] at hnodup
  apply h.quiet (a := .ring r.b c)
  · exact h.owner_keep (by rw [hp]; rfl)
  · exact hbuf
  · exact hdescs
  · exact h.queue.format (by rw [hp]; rfl) happart hnodup

theorem bump_unique (h : Inv es s u v) (hp : (s.proc p).locked = true) (q : P) (b : B) (c : Chain)
    (hq : (s.proc q).view = .bump b c) : q = p := by
  have hlocked : (s.proc q).locked = true := by
    cases hpt : s.proc q with
    | bump _ _ => rfl
    | _ =>
      rw [hpt] at hq
      cases hq
  have heq := h.owner.unique (.inl q) (.inl p) hlocked hp
  exact Sum.inl.inj heq

theorem go_ring (h : Inv es s u v) (hp : s.proc p = .ring b c)
    (hgo : s.go p (.ring b c) = some (t, e)) : Inv (es ++ [e]) t u v := by
  cases hgo
  have hlocked : (s.proc p).locked = true := by rw [hp]; rfl
  have hdescs : Descs s.disk (upd s.proc p (.bump b c)) := by
    apply h.descs.same
    · rw [hp]
      rfl
    · intro _
      rw [hp]
      rfl
    · intro x c i hfalse
      cases hfalse
  apply h.quiet (a := .bump b c)
  · exact h.owner_keep (by rw [hp]; rfl)
  · intro x hx
    rw [hp]
    exact hx
  · exact hdescs.congr rfl rfl
  · apply h.queue.ring h.apart
    · rw [hp]
      rfl
    · intro q b' c' hq
      have heq := h.bump_unique hlocked q b' c' hq
      rw [heq, hp] at hq
      cases hq

theorem stages_post (h : Inv es s u v) (hnot : i ∉ u ++ s.pending ++ v) (k : Nat) :
    stage k (es ++ [.post i p b]) =
      some (if k ∈ u ++ [i] ++ s.pending then .posted else if k ∈ v then .completed else .idle) := by
  rw [stage_append, h.stages k]
  simp only [List.mem_append, not_or] at hnot
  by_cases hk : i = k
  · subst hk
    simp [Stage.after, hnot.1.1, hnot.1.2, hnot.2]
  · simp [Stage.after, hk, Ne.symm hk]

theorem go_bump (h : Inv es s u v) (hp : s.proc p = .bump b c)
    (hgo : s.go p (.bump b c) = some (t, e)) : Inv (es ++ [e]) t (u ++ [c.i0]) v := by
  cases hgo
  have hlocked : (s.proc p).locked = true := by rw [hp]; rfl
  have hview : (s.proc p).view = .bump b c := by rw [hp]; rfl
  have hdescs : Descs s.disk (upd s.proc p (.check b c)) := by
    apply h.descs.same
    · rw [hp]
      rfl
    · intro _
      rw [hp]
      rfl
    · intro x c i hfalse
      cases hfalse
  constructor
  · change Owner (s.goto p (.check b c)).locked s.lock
    rw [locked_goto]
    exact h.owner_keep (by rw [hp]; rfl)
  · apply block_upd h.block
    intro x hx
    apply h.block p x
    rw [hp]
    exact hx
  · exact hdescs.congr rfl rfl
  · have hqueue := h.queue.post h.apart hview (h.bump_unique hlocked)
    change Queue (fun q => (upd s.proc p (.check b c) q).view) _ _ _ _ _ _
    rw [view_upd]
    exact hqueue
  · exact h.body
  · apply h.stages_post
    exact h.queue.posting_notMem h.apart (p := p) (b := b) (by rw [hview]; rfl) (by rw [hview]; rfl)
  · intro why
    rw [List.mem_append, not_or]
    exact ⟨h.calm why, by simp⟩

theorem go_check (h : Inv es s u v) (hp : s.proc p = .check b c)
    (hgo : s.go p (.check b c) = some (t, e)) : Inv (es ++ [e]) t u v := by
  have hlocked : (s.proc p).locked = true := by rw [hp]; rfl
  simp only [Sys.go] at hgo
  split at hgo
  next hbusy =>
    cases hgo
    apply h.release hlocked rfl
    rw [hp]
    exact ⟨rfl, rfl, fun _ => rfl, by simp, fun x hx => hx⟩
  next hbusy =>
    cases hgo
    apply h.quiet (a := .clear b c)
    · exact h.owner_keep (by rw [hp]; rfl)
    · intro x hx
      rw [hp]
      exact hx
    · apply h.descs.same
      · rw [hp]
        rfl
      · intro _
        rw [hp]
        rfl
      · intro x c i hfalse
        cases hfalse
    · apply h.queue.leave (b := b) (c := c)
      · rw [hp]
        rfl
      · simpa using hbusy

theorem go_clear (h : Inv es s u v) (hp : s.proc p = .clear b c)
    (hgo : s.go p (.clear b c) = some (t, e)) : Inv (es ++ [e]) t u v := by
  cases hgo
  have hheld : (s.proc p).held = c.list := by rw [hp]; rfl
  have hnodup := h.descs.nodup p
  rw [hheld] at hnodup
  have hdrop : c.list.dropWhile (· != c.i0) = c.list := by
    simp [Chain.list]
  have hdescs : Descs s.disk (upd s.proc p (.freeing b c c.i0)) := by
    apply h.descs.same
    · rw [hheld]
      exact hdrop
    · intro _
      rw [hp]
      rfl
    · intro x c' i heq
      cases heq
      exact ⟨List.mem_cons_self, hnodup⟩
  apply h.quiet (a := .freeing b c c.i0)
  · exact h.owner_keep (by rw [hp]; rfl)
  · intro x hx
    rw [hp]
    exact hx
  · exact hdescs.congr rfl rfl
  · apply h.queue_frame
    · rw [hp]
      rfl
    · intro q b' c' hq
      apply upd_of_ne
      apply h.request_ne hq List.mem_cons_self (p := p)
      · rw [hheld]
        exact List.mem_cons_self
      · rw [hp]
        rfl
    · intro q b c _ i _
      rfl
    · rfl
    · rfl
    · rfl
    · rfl
    · rfl

theorem go_freeing (h : Inv es s u v) (hp : s.proc p = .freeing b c i)
    (hgo : s.go p (.freeing b c i) = some (t, e)) : Inv (es ++ [e]) t u v := by
  obtain ⟨d, hfree, hd, hmem, hdescs⟩ := h.descs.freeNext hp
  unfold Sys.go at hgo
  dsimp only at hgo
  rw [hfree] at hgo
  cases hgo
  generalize ha : (if (s.disk.desc i).flags &&& VRING_DESC_F_NEXT = 0 then Point.release b
    else .freeing b c (s.disk.desc i).next) = a at hdescs ⊢
  have hsame : a.locked = true ∧ a.view = .none ∧ ∀ x, a.buf = some x → x = b := by
    rw [← ha]
    split
    · exact ⟨rfl, rfl, fun x hx => (Option.some.inj hx).symm⟩
    · exact ⟨rfl, rfl, fun x hx => (Option.some.inj hx).symm⟩
  apply h.quiet (a := a)
  · apply h.owner_keep
    rw [hp]
    exact hsame.1
  · intro x hx
    rw [hp, hsame.2.2 x hx]
    rfl
  · exact hdescs
  · subst hd
    apply h.queue_frame
    · rw [hp]
      exact hsame.2.1
    · intro q b' c' _
      rfl
    · intro q b' c' hq j hj
      apply upd_of_ne
      apply h.request_ne hq hj hmem
      rw [hp]
      rfl
    · rfl
    · rfl
    · rfl
    · rfl
    · rfl

theorem go (h : Inv es s u v) (hgo : s.go p (s.proc p) = some (t, e)) :
    ∃ u', Inv (es ++ [e]) t u' v := by
  cases hp : s.proc p with
  | out =>
    rw [hp] at hgo
    cases hgo
  | enter r =>
    rw [hp] at hgo
    refine ⟨u, h.go_acquire rfl ?_ hgo⟩
    rw [hp]
    exact ⟨rfl, rfl, by simp [Point.formatted], by simp, fun x hx => hx⟩
  | sleepFree r =>
    rw [hp] at hgo
    refine ⟨u, h.go_acquire rfl ?_ hgo⟩
    rw [hp]
    exact ⟨rfl, rfl, by simp [Point.formatted], by simp, fun x hx => hx⟩
  | alloc r => exact ⟨u, h.go_alloc hp (hp ▸ hgo)⟩
  | format r c => exact ⟨u, h.go_format hp (hp ▸ hgo)⟩
  | ring b c => exact ⟨u, h.go_ring hp (hp ▸ hgo)⟩
  | bump b c => exact ⟨u ++ [c.i0], h.go_bump hp (hp ▸ hgo)⟩
  | check b c => exact ⟨u, h.go_check hp (hp ▸ hgo)⟩
  | sleepBuf b c =>
    rw [hp] at hgo
    refine ⟨u, h.go_acquire rfl ?_ hgo⟩
    rw [hp]
    exact ⟨rfl, rfl, fun _ => rfl, by simp, fun x hx => hx⟩
  | clear b c => exact ⟨u, h.go_clear hp (hp ▸ hgo)⟩
  | freeing b c i => exact ⟨u, h.go_freeing hp (hp ▸ hgo)⟩
  | release b =>
    rw [hp] at hgo
    cases hgo
    refine ⟨u, h.release (by rw [hp]; rfl) rfl ?_⟩
    rw [hp]
    exact ⟨rfl, rfl, by simp [Point.formatted], by simp, fun x hx => by cases hx⟩

end Inv

end

end Xv6.Virtio
