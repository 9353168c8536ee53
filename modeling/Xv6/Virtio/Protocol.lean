import Xv6.Virtio.Safety

/-!
# Runs of the driver

The steps of the interrupt handler and of the device keep the invariant too, so it holds
in every run.
-/

namespace Xv6.Virtio

open Lib

set_option linter.unusedSectionVars false

variable {B P H : Type} [DecidableEq B] [DecidableEq P] [DecidableEq H] {es : List (Event B P)}
  {s t : Sys B P H} {u v : List Nat} {p : P} {e : Event B P}

theorem locked_handleTo (s : Sys B P H) (h : H) (x : Handler) :
    (s.handleTo h x).locked = upd s.locked (.inr h) x.locked := by
  funext y
  cases y with
  | inl q => rfl
  | inr h' =>
    change (upd s.hart h x h').locked = _
    by_cases hh : h' = h
    · rw [hh, upd_self, upd_self]
    · rw [upd_of_ne _ _ _ hh, upd_of_ne _ _ _ (by simpa using hh)]
      rfl

theorem calm_append {x : Event B P} (h : ∀ why, Event.panic why ∉ es) (hx : ∀ why, x ≠ .panic why)
    (why : Panic) : Event.panic why ∉ es ++ [x] := by
  rw [List.mem_append, not_or, List.mem_singleton]
  exact ⟨h why, (hx why).symm⟩

variable {x : Handler} {k : H} {i : Nat}

theorem body_upd {hart : H → Handler} {h : H} {v' : List Nat}
    (hbody : ∀ h, hart h = .body → v' ≠ []) (hx : x = .body → v' ≠ []) (h' : H)
    (hh : upd hart h x h' = .body) : v' ≠ [] := by
  by_cases heq : h' = h
  · rw [heq, upd_self] at hh
    exact hx hh
  · rw [upd_of_ne _ _ _ heq] at hh
    exact hbody h' hh

namespace Inv

theorem hartTo (h : Inv es s u v) {lock : Option (P ⊕ H)}
    (howner : Owner (upd s.locked (.inr k) x.locked) lock) (hx : x = .body → v ≠ []) :
    Inv (es ++ [.tau]) { s.handleTo k x with lock := lock } u v := by
  constructor
  · change Owner (s.handleTo k x).locked lock
    rw [locked_handleTo]
    exact howner
  · exact h.block
  · exact h.descs
  · exact h.queue
  · exact body_upd h.body hx
  · intro i
    rw [stage_append, h.stages i]
    rfl
  · exact calm_append h.calm (by simp)

theorem hart_keep (h : Inv es s u v) (hx : x.locked = (s.hart k).locked) :
    Owner (upd s.locked (.inr k) x.locked) s.lock := by
  have heq := upd_eq_self s.locked (.inr k)
  change upd s.locked (.inr k) (s.hart k).locked = _ at heq
  rw [hx, heq]
  exact h.owner

/-- The handler's test tells whether there is an element in the used ring. -/
theorem looked_iff (h : Inv es s u v) : s.disk.lookedIdx = s.disk.usedIdx ↔ v = [] := by
  have hlen := h.queue.length_le h.apart
  simp only [List.length_append] at hlen
  apply h.queue.used.eq_iff
  change _ ≤ 8 at hlen
  omega

theorem next_seen (h : Inv es s u v) (hv : v ≠ []) :
    ∃ p b c v', (s.proc p).view = .wait b c ∧ v = c.i0 :: v' ∧ s.busy b = true ∧
      s.disk.usedRing (Fin.ofNat NUM s.disk.lookedIdx.toNat) = c.i0 ∧
      (s.disk.info c.i0).status = 0 ∧ (s.disk.info c.i0).b = some b := by
  have hne : s.disk.lookedIdx ≠ s.disk.usedIdx := by
    intro heq
    exact hv (h.looked_iff.1 heq)
  obtain ⟨i, v', rfl, hring, hstatus, p, b, c, hp, rfl, hbusy, hb⟩ := h.queue.seen h.apart hne
  exact ⟨p, b, c, v', hp, rfl, hbusy, hring, hstatus, hb⟩

theorem used_notMem (h : Inv es s u (i :: v)) : i ∉ u ++ s.pending ∧ i ∉ v := by
  have hnodup := h.queue.nodup
  have hperm : (u ++ s.pending ++ i :: v).Perm (i :: (u ++ s.pending ++ v)) := List.perm_middle
  obtain ⟨hnot, -⟩ := List.nodup_cons.1 (hperm.nodup_iff.1 hnodup)
  rwa [List.mem_append, not_or] at hnot

theorem stage_used (h : Inv es s u (i :: v)) : stage i es = some .completed := by
  rw [h.stages i, if_neg h.used_notMem.1, if_pos List.mem_cons_self]

theorem stages_see {b : B} (h : Inv es s u (i :: v)) (k : Nat) :
    stage k (es ++ [.see i b]) =
      some (if k ∈ u ++ s.pending then .posted else if k ∈ v then .completed else .idle) := by
  rw [stage_append]
  by_cases hk : i = k
  · subst hk
    rw [h.stage_used, if_neg h.used_notMem.1, if_neg h.used_notMem.2]
    simp [Stage.after]
  · have hmem : k ∈ i :: v ↔ k ∈ v := by simp [Ne.symm hk]
    rw [h.stages k]
    simp only [Stage.after, hk, if_false, hmem]

theorem handle_body (h : Inv es s u v) (hk : s.hart k = .body)
    (hgo : s.handle k .body = some (t, e)) :
    ∃ p b c v', v = c.i0 :: v' ∧ (s.proc p).view = .wait b c ∧ s.busy b = true ∧ e = .see c.i0 b ∧
      t.busy = upd s.busy b false ∧ Inv (es ++ [e]) t u v' := by
  obtain ⟨p, b, c, v', hp, rfl, hbusy, hring, hstatus, hb⟩ := h.next_seen (h.body k hk)
  simp only [Sys.handle, hring, hstatus, hb, ne_eq, not_true_eq_false, if_false] at hgo
  cases hgo
  refine ⟨p, b, c, v', rfl, hp, hbusy, rfl, rfl, ?_⟩
  constructor
  · change Owner (s.handleTo k .test).locked s.lock
    rw [locked_handleTo]
    exact h.hart_keep (by rw [hk]; rfl)
  · exact h.block
  · exact h.descs.congr rfl rfl
  · exact h.queue.see h.apart hp
  · -- no other hart is in the loop
    intro k' hk'
    by_cases heq : k' = k
    · change upd s.hart k .test k' = .body at hk'
      rw [heq, upd_self] at hk'
      cases hk'
    · change upd s.hart k .test k' = .body at hk'
      rw [upd_of_ne _ _ _ heq] at hk'
      have hlocked : s.locked (.inr k') = true := by
        change (s.hart k').locked = true
        rw [hk']
        rfl
      have hlocked' : s.locked (.inr k) = true := by
        change (s.hart k).locked = true
        rw [hk]
        rfl
      exact absurd (Sum.inr.inj (h.owner.unique (.inr k') (.inr k) hlocked hlocked')) heq
  · exact h.stages_see
  · exact calm_append h.calm (by simp)

theorem handle (h : Inv es s u v) (hgo : s.handle k (s.hart k) = some (t, e)) :
    ∃ v', Inv (es ++ [e]) t u v' := by
  cases hk : s.hart k with
  | off =>
    rw [hk] at hgo
    cases hgo
  | enter =>
    rw [hk] at hgo
    simp only [Sys.handle] at hgo
    split at hgo
    next hlock =>
      cases hgo
      have hnone := Option.isNone_iff_eq_none.1 hlock
      exact ⟨v, h.hartTo (hnone ▸ h.owner).acquire (by simp)⟩
    next => cases hgo
  | test =>
    rw [hk] at hgo
    simp only [Sys.handle, Option.some.injEq, Prod.mk.injEq] at hgo
    obtain ⟨rfl, rfl⟩ := hgo
    refine ⟨v, h.hartTo (h.hart_keep ?_) ?_⟩
    · rw [hk]
      split <;> rfl
    · intro hbody hv
      rw [if_pos (h.looked_iff.2 hv)] at hbody
      cases hbody
  | body =>
    obtain ⟨p, b, c, v', -, -, -, -, -, hinv⟩ := h.handle_body hk (hk ▸ hgo)
    exact ⟨v', hinv⟩
  | release =>
    rw [hk] at hgo
    cases hgo
    have hlocked : s.locked (.inr k) = true := by
      change (s.hart k).locked = true
      rw [hk]
      rfl
    exact ⟨v, h.hartTo (h.owner.release hlocked) (by simp)⟩

/-!
## The device
-/

/-- The device finds the status of the request at the end of its chain. -/
theorem setStatus_eq (h : Inv es s u v) (hi : i ∈ s.pending) :
    s.setStatus i = upd s.disk.info i { s.disk.info i with status := 0 } := by
  obtain ⟨p, b, c, hp, rfl, -⟩ := h.queue.active i (by simp [hi])
  have hreq : (s.proc p).view.request = some (b, c) := by rw [hp]; rfl
  have hlinked := h.descs.linked p (Point.held_of_request hreq).2.2
  rw [(Point.held_of_request hreq).1] at hlinked
  obtain ⟨-, hnext0, -, hnext1, -⟩ := hlinked
  have haddr := (h.queue.addr p b c hreq).2
  unfold Sys.setStatus
  rw [hnext0, hnext1, haddr]

theorem stages_complete (h : Inv es s u v) (hi : i ∈ s.pending) (k : Nat) :
    stage k (es ++ [.complete i]) =
      some (if k ∈ u ++ s.pending.erase i then .posted
        else if k ∈ v ++ [i] then .completed else .idle) := by
  have hnodup := h.queue.nodup
  rw [List.append_assoc, List.nodup_append, List.nodup_append] at hnodup
  obtain ⟨-, ⟨hpending, -, -⟩, hapart⟩ := hnodup
  have hu : i ∉ u := by
    intro hu
    exact hapart i hu i (List.mem_append_left _ hi) rfl
  rw [stage_append, h.stages k]
  by_cases hk : i = k
  · subst hk
    have herase : i ∉ s.pending.erase i := by
      rw [hpending.mem_erase_iff]
      simp
    simp [Stage.after, hi, hu, herase]
  · have hmem : k ∈ s.pending.erase i ↔ k ∈ s.pending := by
      rw [hpending.mem_erase_iff]
      simp [Ne.symm hk]
    simp [Stage.after, hk, hmem, Ne.symm hk]

theorem complete (h : Inv es s u v) (hi : i ∈ s.pending)
    (hgo : s.next (.complete i) = some (t, e)) : Inv (es ++ [e]) t u (v ++ [i]) := by
  simp only [Sys.next, hi, if_true, Option.some.injEq, Prod.mk.injEq] at hgo
  obtain ⟨rfl, rfl⟩ := hgo
  constructor
  · exact h.owner
  · exact h.block
  · exact h.descs.congr rfl rfl
  · exact h.queue.complete h.apart hi (h.setStatus_eq hi)
  · intro k _ hnil
    simp at hnil
  · exact h.stages_complete hi
  · exact calm_append h.calm (by simp)

theorem fetch (h : Inv es s u v) (hgo : s.next .fetch = some (t, e)) :
    ∃ u', Inv (es ++ [e]) t u' v := by
  simp only [Sys.next] at hgo
  split at hgo
  next => cases hgo
  next hne =>
    cases hgo
    obtain ⟨i, u', rfl, hring, hqueue⟩ := h.queue.fetch h.apart hne
    refine ⟨u', ?_⟩
    constructor
    · exact h.owner
    · exact h.block
    · exact h.descs
    · rw [hring]
      exact hqueue
    · exact h.body
    · intro k
      rw [stage_append, h.stages k, hring]
      have hmem : k ∈ i :: u' ++ s.pending ↔ k ∈ u' ++ (s.pending ++ [i]) := by
        simp only [List.cons_append, List.mem_cons, List.mem_append, List.not_mem_nil, or_false]
        constructor
        · rintro (hi | hu | hp)
          · exact .inr (.inr hi)
          · exact .inl hu
          · exact .inr (.inl hp)
        · rintro (hu | hp | hi)
          · exact .inr (.inl hu)
          · exact .inr (.inr hp)
          · exact .inl hi
      simp only [hmem]
      rfl
    · exact calm_append h.calm (by simp)

/-!
## Whole runs
-/

theorem reblock (h : Inv es s u v) {block : B → Option P}
    (hblock : ∀ q b, (s.proc q).buf = some b → block b = some q) :
    Inv (es ++ [.tau]) { s with block := block } u v := by
  constructor
  · exact h.owner
  · exact hblock
  · exact h.descs
  · exact h.queue
  · exact h.body
  · intro i
    rw [stage_append, h.stages i]
    rfl
  · exact calm_append h.calm (by simp)

theorem call (h : Inv es s u v) {r : Call B} (hp : s.proc p = .out) (hr : s.block r.b = some p) :
    Inv (es ++ [.tau]) (s.goto p (.enter r)) u v := by
  constructor
  · rw [locked_goto]
    exact h.owner_keep (by rw [hp]; rfl)
  · apply block_upd h.block
    intro b hb
    cases hb
    exact hr
  · apply h.descs.same
    · rw [hp]
      rfl
    · intro hfalse
      cases hfalse
    · intro x c i hfalse
      cases hfalse
  · change Queue (fun q => (upd s.proc p (.enter r) q).view) _ _ _ _ _ _
    rw [view_upd, view_keep (by rw [hp]; rfl)]
    exact h.queue
  · exact h.body
  · intro i
    rw [stage_append, h.stages i]
    rfl
  · exact calm_append h.calm (by simp)

theorem step (h : Inv es s u v) (hstep : s.Step e t) : ∃ u' v', Inv (es ++ [e]) t u' v' := by
  obtain ⟨m, hm⟩ := hstep
  cases m with
  | lockBuf p b =>
    simp only [Sys.next] at hm
    split at hm
    · split at hm
      next hnone =>
        cases hm
        have hfree := Option.isNone_iff_eq_none.1 hnone
        refine ⟨u, v, h.reblock ?_⟩
        intro q b' hq
        have hb' := h.block q b' hq
        have hne : b' ≠ b := by
          rintro rfl
          rw [hfree] at hb'
          cases hb'
        rw [upd_of_ne _ _ _ hne]
        exact hb'
      next => cases hm
    · cases hm
  | unlockBuf p b =>
    simp only [Sys.next] at hm
    split at hm
    next hp =>
      split at hm
      next hb =>
        cases hm
        refine ⟨u, v, h.reblock ?_⟩
        intro q b' hq
        have hb' := h.block q b' hq
        have hne : b' ≠ b := by
          rintro rfl
          rw [hb] at hb'
          cases hb'
          rw [hp] at hq
          cases hq
        rw [upd_of_ne _ _ _ hne]
        exact hb'
      next => cases hm
    · cases hm
  | call p r =>
    simp only [Sys.next] at hm
    split at hm
    next hp =>
      split at hm
      next hb =>
        cases hm
        exact ⟨u, v, h.call hp hb⟩
      next => cases hm
    · cases hm
  | go p =>
    obtain ⟨u', hinv⟩ := h.go hm
    exact ⟨u', v, hinv⟩
  | interrupt k =>
    simp only [Sys.next] at hm
    split at hm
    next hk =>
      cases hm
      exact ⟨u, v, h.hartTo (h.hart_keep (by rw [hk]; rfl)) (by simp)⟩
    · cases hm
  | handle k =>
    obtain ⟨v', hinv⟩ := h.handle hm
    exact ⟨u, v', hinv⟩
  | fetch =>
    obtain ⟨u', hinv⟩ := h.fetch hm
    exact ⟨u', v, hinv⟩
  | complete i =>
    by_cases hi : i ∈ s.pending
    · exact ⟨u, v ++ [i], h.complete hi hm⟩
    · simp [Sys.next, hi] at hm

theorem init : Inv [] (Sys.init : Sys B P H) [] [] := by
  constructor
  · intro x
    cases x <;> simp [Sys.locked, Sys.init, Point.locked, Handler.locked]
  · intro p b hb
    cases hb
  · constructor
    · intro p
      exact List.nodup_nil
    · intro p i hi
      cases hi
    · intro p q i hi
      cases hi
    · intro i hi
      simpa [Sys.init, Point.held] using hi
    · intro p hfalse
      cases hfalse
    · intro p b c i hfalse
      cases hfalse
  · constructor
    · intro p b c hfalse
      cases hfalse
    · intro p b c hfalse
      cases hfalse
    · intro p b c hfalse
      cases hfalse
    · intro p b c hfalse
      cases hfalse
    · exact .nil _ _
    · exact .nil _ _
    · exact List.nodup_nil
    · intro i hi
      cases hi
    · intro p b c hfalse
      cases hfalse
    · intro i hi
      cases hi
  · intro k hk
    cases hk
  · intro i
    rfl
  · intro why hmem
    cases hmem

theorem run (h : Run Sys.Step Sys.init es s) : ∃ u v, Inv es s u v := by
  apply h.history (I := fun es s => ∃ u v, Inv es s u v)
  · rintro es s e t ⟨u, v, hinv⟩ hstep
    exact hinv.step hstep
  · exact ⟨[], [], init⟩

end Inv

/-- A step of a process sees no completion and clears no `b->disk`. -/
theorem go_busy {a : Point B} (hgo : s.go p a = some (t, e)) :
    (∀ i b, e ≠ .see i b) ∧ ∀ b, s.busy b = true → t.busy b = true := by
  have hacquire : ∀ {a}, s.acquire p a = some (t, e) →
      (∀ i b, e ≠ .see i b) ∧ ∀ b, s.busy b = true → t.busy b = true := by
    intro a hgo
    unfold Sys.acquire at hgo
    split at hgo
    next =>
      cases hgo
      exact ⟨by simp, fun b hb => hb⟩
    next => cases hgo
  cases a with
  | out => cases hgo
  | enter r => exact hacquire hgo
  | sleepFree r => exact hacquire hgo
  | sleepBuf b c => exact hacquire hgo
  | alloc r =>
    simp only [Sys.go] at hgo
    split at hgo <;> cases hgo <;> exact ⟨by simp, fun b hb => hb⟩
  | format r c =>
    cases hgo
    refine ⟨by simp, ?_⟩
    intro b hb
    change upd s.busy r.b true b = true
    rw [upd_eq]
    split
    · rfl
    · exact hb
  | ring b c =>
    cases hgo
    exact ⟨by simp, fun b hb => hb⟩
  | bump b c =>
    cases hgo
    exact ⟨by simp, fun b hb => hb⟩
  | check b c =>
    simp only [Sys.go] at hgo
    split at hgo <;> cases hgo <;> exact ⟨by simp, fun b hb => hb⟩
  | clear b c =>
    cases hgo
    exact ⟨by simp, fun b hb => hb⟩
  | freeing b c i =>
    simp only [Sys.go] at hgo
    split at hgo <;> cases hgo <;> exact ⟨by simp, fun b hb => hb⟩
  | release b =>
    cases hgo
    exact ⟨by simp, fun b hb => hb⟩

/-- Only the body of the handler's loop sees a completion or clears a `b->disk`. -/
theorem step_busy (hstep : s.Step e t) :
    ((∀ i b, e ≠ .see i b) ∧ ∀ b, s.busy b = true → t.busy b = true) ∨
      ∃ k, s.hart k = .body ∧ s.handle k .body = some (t, e) := by
  obtain ⟨m, hm⟩ := hstep
  cases m with
  | go p => exact .inl (go_busy hm)
  | handle k =>
    cases hk : s.hart k with
    | body => exact .inr ⟨k, hk, by simpa only [Sys.next, hk] using hm⟩
    | off =>
      simp only [Sys.next, hk] at hm
      cases hm
    | enter =>
      simp only [Sys.next, hk, Sys.handle] at hm
      split at hm
      next =>
        cases hm
        exact .inl ⟨by simp, fun b hb => hb⟩
      next => cases hm
    | test =>
      simp only [Sys.next, hk] at hm
      cases hm
      exact .inl ⟨by simp, fun b hb => hb⟩
    | release =>
      simp only [Sys.next, hk] at hm
      cases hm
      exact .inl ⟨by simp, fun b hb => hb⟩
  | _ =>
    simp only [Sys.next] at hm
    repeat' split at hm
    all_goals first | (cases hm; exact .inl ⟨by simp, fun b hb => hb⟩) | cases hm

/-!
## The protocol
-/

/-- The posted request of a process, up to `free_chain`. -/
def Sys.outstanding (s : Sys B P H) (p : P) : Option (B × Chain) :=
  match s.proc p with
  | .check b c => some (b, c)
  | .sleepBuf b c => some (b, c)
  | _ => none

theorem view_outstanding {b : B} {c : Chain} :
    s.outstanding p = some (b, c) ↔ (s.proc p).view = .wait b c := by
  unfold Sys.outstanding
  cases s.proc p <;> simp [Point.view]

/-- What holds after the events `es` have led to `s`. -/
structure Safe (es : List (Event B P)) (s : Sys B P H) : Prop where
  /-- The descriptors that are not free are those of the outstanding requests. -/
  marked : s.lock = none → ∀ i, i < NUM →
    (s.disk.free i = false ↔ ∃ p b c, s.outstanding p = some (b, c) ∧ i ∈ c.list)
  /-- They are chains of three. -/
  chained : ∀ p b c, s.outstanding p = some (b, c) →
    c.list.Nodup ∧ (∀ i ∈ c.list, i < NUM) ∧ Linked s.disk c.list
  disjoint : ∀ p q b c b' c' i, s.outstanding p = some (b, c) → s.outstanding q = some (b', c') →
    i ∈ c.list → i ∈ c'.list → p = q
  /-- A failed `alloc3_desc` leaves the marks as they are. -/
  failed : ∀ d, s.disk.alloc3Desc = .ok (none, d) → d.free = s.disk.free
  /-- Each head is posted, completed and seen in turn. -/
  inTurn : ∀ i, stage i es ≠ none
  /-- When the handler finds `used_idx` and `used->idx` equal, it has seen every completion. -/
  caught : s.disk.lookedIdx = s.disk.usedIdx → ∀ i, stage i es ≠ some .completed
  /-- The handler clears `b->disk` of the buffer whose request was completed. -/
  clears : ∀ i b t, s.Step (.see i b) t → stage i es = some .completed ∧
    (∃ p c, s.outstanding p = some (b, c) ∧ c.i0 = i) ∧ s.busy b = true ∧ t.busy = upd s.busy b false
  /-- Nothing else clears it. -/
  keeps : ∀ e t b, s.Step e t → s.busy b = true → t.busy b = false → ∃ i, e = .see i b
  /-- No panic has been reached. -/
  calm : ∀ why, Event.panic why ∉ es

/-- With the lock free, what a process has is the chain of its request. -/
theorem Inv.marked (h : Inv es s u v) (hlock : s.lock = none) (i : Nat) (hi : i < NUM) :
    s.disk.free i = false ↔ ∃ p b c, s.outstanding p = some (b, c) ∧ i ∈ c.list := by
  rw [h.descs.free i hi]
  constructor
  · rintro ⟨p, hp⟩
    have hunlocked : (s.proc p).locked ≠ true := by
      intro hlocked
      have hsome := (h.owner (.inl p)).1 hlocked
      rw [hlock] at hsome
      cases hsome
    refine ⟨p, ?_⟩
    unfold Sys.outstanding
    cases hpt : s.proc p with
    | sleepBuf b c =>
      rw [hpt] at hp
      exact ⟨b, c, rfl, hp⟩
    | out =>
      rw [hpt] at hp
      cases hp
    | enter r =>
      rw [hpt] at hp
      cases hp
    | sleepFree r =>
      rw [hpt] at hp
      cases hp
    | _ =>
      rw [hpt] at hunlocked
      exact absurd rfl hunlocked
  · rintro ⟨p, b, c, hp, hmem⟩
    have hview := view_outstanding.1 hp
    refine ⟨p, ?_⟩
    rw [(Point.held_of_request (by rw [hview]; rfl)).1]
    exact hmem

/-- The descriptor protocol is safe in every run. -/
theorem descriptors_safe {es : List (Event B P)} {s : Sys B P H} (h : Run Sys.Step Sys.init es s) :
    Safe es s := by
  obtain ⟨u, v, hinv⟩ := Inv.run h
  have hreq : ∀ p b c, s.outstanding p = some (b, c) → (s.proc p).view.request = some (b, c) := by
    intro p b c hp
    rw [view_outstanding.1 hp]
    rfl
  constructor
  · exact hinv.marked
  · intro p b c hp
    obtain ⟨hheld, -, hformatted⟩ := Point.held_of_request (hreq p b c hp)
    have hnodup := hinv.descs.nodup p
    have hlt := hinv.descs.lt p
    have hlinked := hinv.descs.linked p hformatted
    rw [hheld] at hnodup hlt hlinked
    exact ⟨hnodup, hlt, hlinked⟩
  · intro p q b c b' c' i hp hq
    exact hinv.apart.chain p q b c b' c' i (hreq p b c hp) (hreq q b' c' hq)
  · intro d hd
    rcases alloc3Desc_cases s.disk with ⟨c, heq, -⟩ | ⟨desc, heq, -⟩
    · rw [heq] at hd
      cases hd
    · rw [heq] at hd
      cases hd
      rfl
  · intro i hnone
    rw [hinv.stages i] at hnone
    cases hnone
  · intro heq i hcompleted
    rw [hinv.stages i, hinv.looked_iff.1 heq] at hcompleted
    simp only [List.not_mem_nil, if_false, Option.some.injEq] at hcompleted
    split at hcompleted <;> cases hcompleted
  · intro i b t hstep
    rcases step_busy hstep with ⟨hnot, -⟩ | ⟨k, hk, hgo⟩
    · exact absurd rfl (hnot i b)
    · obtain ⟨p, b', c, v', rfl, hview, hbusy, hevent, hclear, -⟩ := hinv.handle_body hk hgo
      cases hevent
      exact ⟨hinv.stage_used, ⟨p, c, view_outstanding.2 hview, rfl⟩, hbusy, hclear⟩
  · intro e t b hstep hbusy hclear
    rcases step_busy hstep with ⟨-, hkeep⟩ | ⟨k, hk, hgo⟩
    · rw [hkeep b hbusy] at hclear
      cases hclear
    · obtain ⟨p, b', c, v', rfl, hview, -, rfl, hupd, -⟩ := hinv.handle_body hk hgo
      rw [hupd, upd_eq] at hclear
      split at hclear
      next heq => exact ⟨c.i0, by rw [heq]⟩
      next =>
        rw [hbusy] at hclear
        cases hclear
  · exact hinv.calm

theorem Sys.next_step (s : Sys B P H) (m : Move B P H) (t : Sys B P H) (e : Event B P)
    (h : s.next m = some (t, e)) : s.Step e t := ⟨m, h⟩

/-- Two requests, of which the device completes the second, and the handler has seen it. -/
theorem descriptors_safe_two : ∃ (es : List (Event Bool Bool)) (s : Sys Bool Bool Unit),
    Run Sys.Step Sys.init es s ∧ s.disk.free 5 = false ∧ s.busy true = false ∧
      (∃ p b c, s.outstanding p = some (b, c) ∧ 5 ∈ c.list) ∧ Safe es s := by
  have hcheck : (trace Sys.next (Sys.init : Sys Bool Bool Unit)
      ([[.lockBuf false false, .call false ⟨false, true, 5⟩], List.replicate 6 (.go false),
        [.lockBuf true true, .call true ⟨true, false, 7⟩], List.replicate 6 (.go true),
        [.fetch, .fetch, .complete 3, .interrupt ()],
        List.replicate 5 (.handle ())].flatten)).any
      (fun x => decide (x.1.lock = none ∧ x.1.disk.free 5 = false ∧ x.1.busy true = false)) = true := by
    decide +kernel
  obtain ⟨⟨s, es⟩, hs, hcheck⟩ := (Option.any_eq_true _ _).1 hcheck
  obtain ⟨hlock, hfree, hbusy⟩ := of_decide_eq_true hcheck
  have hrun := trace_run Sys.next_step hs
  have hsafe := descriptors_safe hrun
  exact ⟨es, s, hrun, hfree, hbusy, (hsafe.marked hlock 5 (by decide)).1 hfree, hsafe⟩

end Xv6.Virtio
