/-
  `check_free_space` of `cache/eviction.rs`, and how the chunk workers of `cache/worker.rs` pause.

  The flag is a `watch` channel.  A pass of the eviction sets it when the disk is short of space and
  clears it when there is enough again; `send` does nothing while nobody has a receiver.  A worker looks
  at the flag before each chunk, and where it is set waits for ONE change: what counts as a change is
  whatever its receiver has not seen, and looking at the value does not see it.  So a worker whose
  receiver is older than the flag goes on at once, the first time.

  1. **Parties** — the passes, and any number of receivers: those that are only kept (by a read, by a
     session) and cloned, and the workers'.
  2. **Bound** — `Receiver.Bound`, what a receiver can still do while the flag is set; the version it
     has seen decides (`step_bounded`).
  3. **Results** — `starts_while_paused`: at most two chunks each; `resumes_after_pass`: no wake is lost.
-/
import RdRs.Lib.Runs

set_option linter.unusedVariables false

namespace RdRs.Cache.Pause

open RdRs.Runs

/-! ## The channel and its receivers -/

/-- What the owner of a receiver does with it. -/
inductive Phase where
  /-- it keeps it, to clone it -/
  | held
  /-- a worker in front of the flag -/
  | top
  /-- `p_rx.changed()` -/
  | waiting
  /-- in front of the queue -/
  | popping
  /-- with a chunk -/
  | busy
  /-- it has dropped it -/
  | gone
deriving DecidableEq

/-- A receiver, with the version it has seen; how many chunks it has started since the flag was set
    is kept for the statements. -/
structure Receiver where
  seen : Nat
  phase : Phase
  starts : Nat
deriving DecidableEq

/-- `pause_downloads`, and the two settings of the passes, in bytes. -/
structure Pausing where
  cacheMaxSize : Nat
  cacheMinFreeSpace : Nat
  value : Bool
  version : Nat
  receivers : List Receiver
deriving DecidableEq

/-- `Cache::new`: the first receiver is dropped. -/
def Pausing.new (cacheMaxSize cacheMinFreeSpace : Nat) : Pausing where
  cacheMaxSize := cacheMaxSize
  cacheMinFreeSpace := cacheMinFreeSpace
  value := false
  version := 0
  receivers := []

/-- Somebody has a receiver. -/
def Pausing.heard (p : Pausing) : Bool := p.receivers.any fun r => r.phase != .gone

/-- `watch::Sender::send` -/
def Pausing.send (p : Pausing) (value : Bool) : Pausing :=
  if p.heard then { p with
    value := value
    version := p.version + 1
    receivers := p.receivers.map fun r => { r with starts := 0 } }
  else p

/-- `check_free_space`, with the free bytes `statvfs` finds. -/
def Pausing.checkFreeSpace (p : Pausing) (free : Option Nat) : Pausing :=
  if p.cacheMinFreeSpace = 0 then p
  else
    match free with
    | none => p
    | some free =>
      if free < p.cacheMinFreeSpace then if p.value then p else p.send true
      else if p.value then p.send false else p

/-- The end of `evict`. -/
def Pausing.evict (p : Pausing) (free : Option Nat) : Pausing :=
  if p.cacheMaxSize = 0 then p else p.checkFreeSpace free

/-- What happens; a receiver has a number. -/
inductive Event where
  /-- a pass of the eviction -/
  | evict (free : Option Nat)
  | subscribe
  /-- a receiver that is kept is cloned, for a worker or to be kept -/
  | clone (k : Nat) (worker : Bool)
  /-- `*p_rx.borrow()` -/
  | look (k : Nat)
  /-- `changed()` returns -/
  | changed (k : Nat)
  /-- `pop_front`, if there is a chunk -/
  | pop (k : Nat)
  /-- the chunk is done -/
  | finish (k : Nat)
  /-- it is dropped: the worker is done, has failed, or is cancelled -/
  | drop (k : Nat)
deriving DecidableEq

/-- What a worker does next, seeing the channel; `none` where it waits. -/
def Receiver.act (value : Bool) (version : Nat) (r : Receiver) : Event → Option Receiver
  | .look _ =>
    match r.phase with
    | .top => some { r with phase := if value then .waiting else .popping }
    | _ => none
  | .changed _ =>
    match r.phase with
    | .waiting => if version ≠ r.seen then some { r with seen := version, phase := .popping } else none
    | _ => none
  | .pop _ =>
    match r.phase with
    | .popping => some { r with phase := .busy, starts := r.starts + 1 }
    | _ => none
  | .finish _ =>
    match r.phase with
    | .busy => some { r with phase := .top }
    | _ => none
  | .drop _ => some { r with phase := .gone }
  | _ => none

/-- Whose step it is. -/
def Event.number : Event → Nat
  | .evict _ => 0
  | .subscribe => 0
  | .clone k _ => k
  | .look k => k
  | .changed k => k
  | .pop k => k
  | .finish k => k
  | .drop k => k

/-- A step. -/
def Pausing.step (p : Pausing) (e : Event) : Option Pausing :=
  match e with
  | .evict free => some (p.evict free)
  | .subscribe => some { p with receivers := p.receivers ++ [⟨p.version, .held, 0⟩] }
  | .clone k worker =>
    match p.receivers[k]? with
    | some r =>
      if r.phase = .held then
        some { p with receivers := p.receivers ++ [⟨r.seen, if worker then .top else .held, 0⟩] }
      else none
    | none => none
  | e =>
    match p.receivers[e.number]? with
    | some r => (r.act p.value p.version e).map fun r' =>
        { p with receivers := p.receivers.set e.number r' }
    | none => none

/-! ## What a receiver can still do -/

/-- **What a receiver can still do.**  Where it waits, there is a change to come, or the flag is set.
    While the flag is set: with its last version unseen it has a wake to come, and has started one chunk
    at most, which it was about to when the flag was set; once it has seen it, the chunk of that wake is
    its last. -/
structure Receiver.Bound (value : Bool) (version : Nat) (r : Receiver) : Prop where
  seen : r.seen ≤ version
  waiting : r.phase = .waiting → value = true ∨ r.seen < version
  unseen : value = true → r.seen < version → r.starts ≤ 1 ∧ (r.phase = .popping → r.starts = 0)
  starts : value = true → r.starts ≤ 2 ∧ (r.phase = .popping → r.starts ≤ 1)

/-- What can change in a step, beside a receiver that moves on its own. -/
inductive Shared (p : Pausing) : Pausing → Prop where
  | same : Shared p p
  | sent (value : Bool) : p.value ≠ value → Shared p { p with
      value := value
      version := p.version + 1
      receivers := p.receivers.map fun r => { r with starts := 0 } }
  | added (r : Receiver) : (∃ old ∈ p.receivers, r.seen = old.seen) ∨ r.seen = p.version →
      r.phase ≠ .waiting → r.starts = 0 → Shared p { p with receivers := p.receivers ++ [r] }

section

variable {p q : Pausing} {e : Event}

theorem send_shared (p : Pausing) {value : Bool} (hne : p.value ≠ value) : Shared p (p.send value) := by
  rw [Pausing.send]
  split
  · exact .sent value hne
  · exact .same

theorem evict_shared (p : Pausing) (free : Option Nat) : Shared p (p.evict free) := by
  rw [Pausing.evict]
  split
  · exact .same
  · unfold Pausing.checkFreeSpace
    split
    · exact .same
    · split
      · exact .same
      · split
        · split
          · exact .same
          · rename_i hoff
            exact send_shared p hoff
        · split
          · rename_i hon
            exact send_shared p (by rw [hon]; exact Bool.noConfusion)
          · exact .same

/-- **What a step can do.** -/
theorem step_cases (h : p.step e = some q) : Shared p q ∨
    ∃ k r r', p.receivers[k]? = some r ∧ r.act p.value p.version e = some r' ∧
      q = { p with receivers := p.receivers.set k r' } := by
  have hown : ∀ k : Nat, ((match p.receivers[k]? with
      | some r => (r.act p.value p.version e).map fun r' => { p with receivers := p.receivers.set k r' }
      | none => none) = some q) →
      ∃ k r r', p.receivers[k]? = some r ∧ r.act p.value p.version e = some r' ∧
        q = { p with receivers := p.receivers.set k r' } := by
    intro k hk
    split at hk
    · rename_i r hr
      obtain ⟨r', hact, rfl⟩ := Option.map_eq_some_iff.mp hk
      exact ⟨k, r, r', hr, hact, rfl⟩
    · cases hk
  cases e with
  | evict free => exact Or.inl (Option.some.inj h ▸ evict_shared p free)
  | subscribe =>
    exact Or.inl (Option.some.inj h ▸ .added _ (Or.inr rfl) Phase.noConfusion rfl)
  | clone k worker =>
    rw [Pausing.step] at h
    split at h
    · rename_i r hr
      split at h
      · refine Or.inl (Option.some.inj h ▸ .added _ (Or.inl ⟨r, List.mem_of_getElem? hr, rfl⟩) ?_ rfl)
        cases worker <;> exact Phase.noConfusion
      · cases h
    · cases h
  | look k => exact Or.inr (hown k h)
  | changed k => exact Or.inr (hown k h)
  | pop k => exact Or.inr (hown k h)
  | finish k => exact Or.inr (hown k h)
  | drop k => exact Or.inr (hown k h)

/-- A receiver moves on. -/
theorem Receiver.Bound.act {value : Bool} {version : Nat} {r r' : Receiver} (h : r.Bound value version)
    (hact : r.act value version e = some r') : r'.Bound value version := by
  have hseen := h.seen
  cases e with
  | evict free => cases hact
  | subscribe => cases hact
  | clone k worker => cases hact
  | look k =>
    rw [Receiver.act] at hact
    split at hact
    · rename_i hphase
      obtain rfl := Option.some.inj hact
      cases value with
      | false =>
        exact ⟨h.seen, fun hw => Phase.noConfusion hw, fun hv => Bool.noConfusion hv,
          fun hv => Bool.noConfusion hv⟩
      | true =>
        exact ⟨h.seen, fun _ => Or.inl rfl,
          fun hv hlt => ⟨(h.unseen hv hlt).1, fun hp => Phase.noConfusion hp⟩,
          fun hv => ⟨(h.starts hv).1, fun hp => Phase.noConfusion hp⟩⟩
    · cases hact
  | changed k =>
    rw [Receiver.act] at hact
    split at hact
    · rename_i hphase
      split at hact
      · rename_i hnew
        obtain rfl := Option.some.inj hact
        -- the wake is used up: what was unseen is seen
        have hlt : r.seen < version := by omega
        refine ⟨Nat.le_refl _, fun hw => Phase.noConfusion hw,
          fun _ hlt => absurd hlt (Nat.lt_irrefl version), fun hv => ?_⟩
        have hone := (h.unseen hv hlt).1
        exact ⟨Nat.le_succ_of_le hone, fun _ => hone⟩
      · cases hact
    · cases hact
  | pop k =>
    rw [Receiver.act] at hact
    split at hact
    · rename_i hphase
      obtain rfl := Option.some.inj hact
      refine ⟨h.seen, fun hw => Phase.noConfusion hw, fun hv hlt => ?_, fun hv => ?_⟩
      · have hzero := (h.unseen hv hlt).2 hphase
        exact ⟨Nat.succ_le_succ (Nat.le_of_eq hzero), fun hp => Phase.noConfusion hp⟩
      · exact ⟨Nat.succ_le_succ ((h.starts hv).2 hphase), fun hp => Phase.noConfusion hp⟩
    · cases hact
  | finish k =>
    rw [Receiver.act] at hact
    split at hact
    · rename_i hphase
      obtain rfl := Option.some.inj hact
      exact ⟨h.seen, fun hw => Phase.noConfusion hw,
        fun hv hlt => ⟨(h.unseen hv hlt).1, fun hp => Phase.noConfusion hp⟩,
        fun hv => ⟨(h.starts hv).1, fun hp => Phase.noConfusion hp⟩⟩
    · cases hact
  | drop k =>
    obtain rfl := Option.some.inj hact
    exact ⟨h.seen, fun hw => Phase.noConfusion hw,
      fun hv hlt => ⟨(h.unseen hv hlt).1, fun hp => Phase.noConfusion hp⟩,
      fun hv => ⟨(h.starts hv).1, fun hp => Phase.noConfusion hp⟩⟩

/-- The flag is set or cleared. -/
theorem Receiver.Bound.sent {value value' : Bool} {version : Nat} {r : Receiver}
    (h : r.Bound value version) : ({ r with starts := 0 } : Receiver).Bound value' (version + 1) := by
  have hlt : r.seen < version + 1 := Nat.lt_succ_of_le h.seen
  exact ⟨hlt.le, fun _ => Or.inr hlt, fun _ _ => ⟨Nat.zero_le _, fun _ => rfl⟩,
    fun _ => ⟨Nat.zero_le _, fun _ => Nat.zero_le _⟩⟩

/-- Every receiver is bounded. -/
def Bounded (p : Pausing) : Prop := ∀ r ∈ p.receivers, r.Bound p.value p.version

/-- **A step keeps the bounds.** -/
theorem step_bounded (h : Bounded p) (hs : p.step e = some q) : Bounded q := by
  rcases step_cases hs with hshared | ⟨k, r, r', hr, hact, rfl⟩
  · cases hshared with
    | same => exact h
    | sent value hne =>
      intro r hr
      obtain ⟨old, hold, rfl⟩ := List.mem_map.mp hr
      exact (h old hold).sent
    | added r hseen hphase hstarts =>
      intro r' hr'
      rcases List.mem_append.mp hr' with hold | hnew
      · exact h r' hold
      · rw [List.mem_singleton.mp hnew]
        have hle : r.seen ≤ p.version := by
          rcases hseen with ⟨old, hold, heq⟩ | heq
          · exact heq ▸ (h old hold).seen
          · exact heq.le
        refine ⟨hle, fun hw => absurd hw hphase, fun _ _ => ?_, fun _ => ?_⟩
        · rw [hstarts]
          exact ⟨Nat.zero_le _, fun _ => rfl⟩
        · rw [hstarts]
          exact ⟨Nat.zero_le _, fun _ => Nat.zero_le _⟩
  · intro r'' hr''
    rcases List.mem_or_eq_of_mem_set hr'' with hold | rfl
    · exact h r'' hold
    · exact (h r (List.mem_of_getElem? hr)).act hact

/-! ## Runs -/

/-- **Every run keeps the bounds.** -/
theorem run_bounded {cacheMaxSize cacheMinFreeSpace : Nat} {es : List Event}
    (hr : run Pausing.step (.new cacheMaxSize cacheMinFreeSpace) es = some p) : Bounded p :=
  run_inv' (fun _ _ _ h hs => step_bounded h hs) es _ p (fun r hr => absurd hr List.not_mem_nil) hr

/-- **While the flag is set** no worker starts more than two chunks, whenever it has come and however
    it runs; and when it has started two, it is with the second one, or in front of the flag. -/
theorem starts_while_paused {cacheMaxSize cacheMinFreeSpace : Nat} {es : List Event}
    (hr : run Pausing.step (.new cacheMaxSize cacheMinFreeSpace) es = some p) (hset : p.value = true)
    {r : Receiver} (hmem : r ∈ p.receivers) :
    r.starts ≤ 2 ∧ (r.starts = 2 → r.seen = p.version ∧ r.phase ≠ .popping) := by
  have h := run_bounded hr r hmem
  refine ⟨(h.starts hset).1, fun htwo => ⟨?_, fun hp => ?_⟩⟩
  · by_contra hne
    have hone := (h.unseen hset (lt_of_le_of_ne h.seen hne)).1
    omega
  · have hone := (h.starts hset).2 hp
    omega

/-- A worker that waits where the flag is not set can go on. -/
theorem Bounded.wakes (h : Bounded p) (hclear : p.value = false) {k : Nat} {r : Receiver}
    (hk : p.receivers[k]? = some r) (hwaiting : r.phase = .waiting) :
    ∃ q, p.step (.changed k) = some q := by
  have hnew : p.version ≠ r.seen := by
    rcases (h r (List.mem_of_getElem? hk)).waiting hwaiting with hset | hlt
    · exact absurd (hclear.symm.trans hset) Bool.false_ne_true
    · exact hlt.ne'
  have hact : r.act p.value p.version (.changed k) =
      some { r with seen := p.version, phase := .popping } := by
    rw [Receiver.act, hwaiting]
    exact if_pos hnew
  refine ⟨{ p with receivers := p.receivers.set k { r with seen := p.version, phase := .popping } }, ?_⟩
  show (match p.receivers[k]? with
    | some r => (r.act p.value p.version (.changed k)).map fun r' =>
        { p with receivers := p.receivers.set k r' }
    | none => none) = _
  rw [hk]
  exact congrArg (Option.map fun r' => { p with receivers := p.receivers.set k r' }) hact

/-- **What a pass does to the flag**: if it looks at the disk, it leaves it set exactly when the disk is
    short of space — unless nobody has a receiver, and then it leaves it as it was. -/
theorem flag_after_pass (hmax : p.cacheMaxSize ≠ 0) (hmin : p.cacheMinFreeSpace ≠ 0) (free : Nat) :
    (p.evict (some free)).value =
      if p.heard then decide (free < p.cacheMinFreeSpace) else p.value := by
  have hsend : ∀ value, (p.send value).value = if p.heard then value else p.value := by
    intro value
    rw [Pausing.send]
    split <;> rfl
  rw [Pausing.evict, if_neg hmax]
  unfold Pausing.checkFreeSpace
  rw [if_neg hmin]
  simp only
  by_cases hlow : free < p.cacheMinFreeSpace
  · rw [if_pos hlow, decide_eq_true hlow]
    cases hv : p.value with
    | true =>
      rw [if_pos rfl, hv]
      split <;> rfl
    | false => rw [if_neg Bool.false_ne_true, hsend, hv]
  · rw [if_neg hlow, decide_eq_false hlow]
    cases hv : p.value with
    | true => rw [if_pos rfl, hsend, hv]
    | false =>
      rw [if_neg Bool.false_ne_true, hv]
      split <;> rfl

/-- A pass moves no receiver. -/
theorem evict_receiver (p : Pausing) (free : Option Nat) {k : Nat} {r : Receiver}
    (hk : p.receivers[k]? = some r) :
    ∃ r', (p.evict free).receivers[k]? = some r' ∧ r'.phase = r.phase := by
  have hshared := evict_shared p free
  generalize p.evict free = q at hshared ⊢
  cases hshared with
  | same => exact ⟨r, hk, rfl⟩
  | sent value _ =>
    refine ⟨{ r with starts := 0 }, ?_, rfl⟩
    show (p.receivers.map _)[k]? = _
    rw [List.getElem?_map, hk]
    rfl
  | added new _ _ _ =>
    refine ⟨r, ?_, rfl⟩
    show (p.receivers ++ [new])[k]? = _
    rw [List.getElem?_append_left (List.getElem?_eq_some_iff.mp hk).1, hk]

/-- **No wake is lost.**  In any run, the first pass that finds enough space lets every worker that
    waits go on, whatever it has seen before. -/
theorem resumes_after_pass {cacheMaxSize cacheMinFreeSpace free k : Nat} {es : List Event}
    (hmax : cacheMaxSize ≠ 0) (hmin : cacheMinFreeSpace ≠ 0)
    (hr : run Pausing.step (.new cacheMaxSize cacheMinFreeSpace) es = some p) {r : Receiver}
    (hk : p.receivers[k]? = some r) (hwaiting : r.phase = .waiting) (hfree : cacheMinFreeSpace ≤ free) :
    ∃ q, (p.evict (some free)).step (.changed k) = some q := by
  have hsettings : p.cacheMaxSize = cacheMaxSize ∧ p.cacheMinFreeSpace = cacheMinFreeSpace := by
    refine run_inv' (I := fun p : Pausing =>
      p.cacheMaxSize = cacheMaxSize ∧ p.cacheMinFreeSpace = cacheMinFreeSpace)
      (fun p e q h hs => ?_) es _ p ⟨rfl, rfl⟩ hr
    rcases step_cases hs with hshared | ⟨k, r, r', -, -, rfl⟩
    · cases hshared <;> exact h
    · exact h
  have hheard : p.heard = true := by
    refine List.any_eq_true.mpr ⟨r, List.mem_of_getElem? hk, ?_⟩
    rw [hwaiting]
    rfl
  have hclear : (p.evict (some free)).value = false := by
    rw [flag_after_pass (hsettings.1 ▸ hmax) (hsettings.2 ▸ hmin), if_pos hheard, hsettings.2]
    exact decide_eq_false (Nat.not_lt.mpr hfree)
  obtain ⟨r', hk', hphase⟩ := evict_receiver p (some free) hk
  have hbounded : Bounded (p.evict (some free)) :=
    step_bounded (e := .evict (some free)) (run_bounded hr) rfl
  exact hbounded.wakes hclear hk' (hphase.trans hwaiting)

end

/-- One worker, whose receiver is older than the flag: it has passed the flag when the disk runs full,
    and starts two chunks before it waits. -/
def twoStarts : List Event :=
  [.subscribe, .clone 0 true, .look 1, .evict (some 5), .pop 1, .finish 1, .look 1, .changed 1, .pop 1,
    .finish 1, .look 1]

theorem starts_while_paused_two : ∃ p, run Pausing.step (.new 1 10) twoStarts = some p ∧
    p.value = true ∧ p.receivers = [⟨0, .held, 0⟩, ⟨1, .waiting, 2⟩] ∧
    ∀ r ∈ p.receivers, r.starts ≤ 2 := by
  obtain ⟨p, hr, hp⟩ : ∃ p, run Pausing.step (.new 1 10) twoStarts = some p ∧
      (p.value, p.receivers) = (true, [⟨0, .held, 0⟩, ⟨1, .waiting, 2⟩]) :=
    Option.map_eq_some_iff.mp (by decide)
  obtain ⟨hvalue, hreceivers⟩ := Prod.mk.inj hp
  exact ⟨p, hr, hvalue, hreceivers, fun r hmem => (starts_while_paused hr hvalue hmem).1⟩

theorem resumes_after_pass_two : ∃ p, run Pausing.step (.new 1 10) twoStarts = some p ∧
    p.receivers[1]? = some ⟨1, .waiting, 2⟩ ∧ ∃ q, (p.evict (some 10)).step (.changed 1) = some q := by
  obtain ⟨p, hr, hp⟩ : ∃ p, run Pausing.step (.new 1 10) twoStarts = some p ∧
      p.receivers[1]? = some ⟨1, .waiting, 2⟩ :=
    Option.map_eq_some_iff.mp (by decide)
  exact ⟨p, hr, hp, resumes_after_pass (by decide) (by decide) hr hp rfl (Nat.le_refl 10)⟩

end RdRs.Cache.Pause
