/-
  Runs of a step function, and pools of tasks that share a state.

  A system is given by a partial step function `step : S → E → Option S`; an event is enabled where
  `step` answers `some`.  A RUN is the list of its events, so "in every reachable state" is a
  quantifier over all lists of events.  `Along C` says that every state and event of a run meets
  `C`, which is how a condition on the environment is put on a whole run.

  * `run_inv` — what one step preserves (under `C`), a whole run preserves;
  * `run_inv_past` — the same of a state and the events that led to it;
  * `along_congr` — two conditions that agree wherever an invariant holds agree along a run;
  * `throughout_iff` — "in every state reached" is "at the start, and after every step";
  * `run_cost` — a potential bounds what the events of a run cost.

  A POOL is any number of tasks over one shared state: an event names a task and one of its actions,
  and the tasks take turns in any order.  `Pool.step_cases` is the one inversion lemma; what a step
  leaves alone (`Pool.frame`) and the two invariant rules follow from it: `Pool.inv_step` (a shared
  invariant plus one per task, kept by the acting task for itself and for the others) and
  `Pool.sum_step` (a quantity spread over the shared state and the tasks that every action
  conserves).
-/
import Mathlib

set_option linter.unusedVariables false

namespace RdRs.Runs

variable {S E : Type*}

/-! ## Runs -/

/-- The state after a list of events, when each was enabled. -/
def run (step : S → E → Option S) : S → List E → Option S
  | s, [] => some s
  | s, e :: es => (step s e).bind fun s' => run step s' es

@[simp] theorem run_nil (step : S → E → Option S) (s : S) : run step s [] = some s := rfl

theorem run_cons {step : S → E → Option S} {s s' : S} {e : E} {es : List E}
    (h : run step s (e :: es) = some s') : ∃ t, step s e = some t ∧ run step t es = some s' :=
  Option.bind_eq_some_iff.mp h

theorem run_step {step : S → E → Option S} {s t : S} {e : E} (es : List E)
    (h : step s e = some t) : run step s (e :: es) = run step t es := by
  rw [run, h]
  rfl

/-- The events of a run can be taken in two parts. -/
theorem run_append {step : S → E → Option S} : ∀ (es fs : List E) (s : S),
    run step s (es ++ fs) = (run step s es).bind fun t => run step t fs
  | [], fs, s => rfl
  | e :: es, fs, s => by
    show (step s e).bind _ = ((step s e).bind _).bind _
    rw [Option.bind_assoc]
    exact congrArg _ (funext fun t => run_append es fs t)

/-- Where a run is when it comes to one of its events. -/
theorem run_at {step : S → E → Option S} {s t : S} {es : List E} {k : Nat} {e : E}
    (h : run step s es = some t) (hk : es[k]? = some e) :
    ∃ u v, run step s (es.take k) = some u ∧ step u e = some v := by
  obtain ⟨hlt, hget⟩ := List.getElem?_eq_some_iff.mp hk
  have hsplit : es = es.take k ++ e :: es.drop (k + 1) := by
    rw [← hget, ← List.drop_eq_getElem_cons hlt, List.take_append_drop]
  rw [hsplit, run_append] at h
  obtain ⟨u, hu, hrest⟩ := Option.bind_eq_some_iff.mp h
  obtain ⟨v, hv, -⟩ := run_cons hrest
  exact ⟨u, v, hu, hv⟩

/-- `C` holds of every state of the run and the event taken there. -/
def Along (step : S → E → Option S) (C : S → E → Prop) : S → List E → Prop
  | _, [] => True
  | s, e :: es => C s e ∧ ∀ t, step s e = some t → Along step C t es

theorem along_cons {step : S → E → Option S} {C : S → E → Prop} {s t : S} {e : E} {es : List E}
    (h : step s e = some t) : Along step C s (e :: es) ↔ C s e ∧ Along step C t es := by
  constructor
  · rintro ⟨h1, h2⟩
    exact ⟨h1, h2 t h⟩
  · rintro ⟨h1, h2⟩
    refine ⟨h1, fun t' ht' => ?_⟩
    rw [h] at ht'
    obtain rfl := Option.some.inj ht'
    exact h2

/-- **The invariant rule.**  Induction on the events, from one step to the whole run. -/
theorem run_inv {step : S → E → Option S} {C : S → E → Prop} {I : S → Prop}
    (hstep : ∀ s e t, I s → C s e → step s e = some t → I t) :
    ∀ (es : List E) (s s' : S), I s → Along step C s es → run step s es = some s' → I s'
  | [], s, s', hs, _, hr => by
    obtain rfl : s = s' := by simpa using hr
    exact hs
  | e :: es, s, s', hs, hC, hr => by
    obtain ⟨t, ht, hr'⟩ := run_cons hr
    exact run_inv hstep es t s' (hstep s e t hs hC.1 ht) (hC.2 t ht) hr'

/-- The unconditional invariant rule. -/
theorem run_inv' {step : S → E → Option S} {I : S → Prop}
    (hstep : ∀ s e t, I s → step s e = some t → I t) (es : List E) (s s' : S) (hs : I s)
    (hr : run step s es = some s') : I s' := by
  have htriv : ∀ (es : List E) (s : S), Along step (fun _ _ => True) s es := by
    intro es
    induction es with
    | nil => intro s; trivial
    | cons e es ih => intro s; exact ⟨trivial, fun t _ => ih t⟩
  exact run_inv (fun s e t hs _ ht => hstep s e t hs ht) es s s' hs (htriv es s) hr

/-- What one step preserves of a state and the events so far holds at the end of a run. -/
theorem run_inv_past {step : S → E → Option S} {I : S → List E → Prop}
    (hstep : ∀ s past e t, I s past → step s e = some t → I t (past ++ [e])) :
    ∀ (es past : List E) (s s' : S), I s past → run step s es = some s' → I s' (past ++ es)
  | [], past, s, s', hs, hr => by
    obtain rfl := Option.some.inj hr
    rw [List.append_nil]
    exact hs
  | e :: es, past, s, s', hs, hr => by
    obtain ⟨t, ht, hr⟩ := run_cons hr
    have hrest := run_inv_past hstep es (past ++ [e]) t s' (hstep s past e t hs ht) hr
    rw [List.append_assoc] at hrest
    exact hrest

/-- A condition on the events alone. -/
theorem along_of_forall_mem {step : S → E → Option S} {C : E → Prop} :
    ∀ (es : List E) (s : S), (∀ e ∈ es, C e) → Along step (fun _ e => C e) s es
  | [], _, _ => trivial
  | e :: es, s, h => ⟨h e List.mem_cons_self, fun t _ =>
      along_of_forall_mem es t (fun e' he' => h e' (List.mem_cons_of_mem e he'))⟩

/-- A test of a condition along a run. -/
def checkAlong (step : S → E → Option S) (c : S → E → Bool) : S → List E → Bool
  | _, [] => true
  | s, e :: es => c s e && match step s e with
    | none => true
    | some t => checkAlong step c t es

theorem along_of_check {step : S → E → Option S} {c : S → E → Bool} {C : S → E → Prop}
    (hc : ∀ s e, c s e = true → C s e) :
    ∀ (es : List E) (s : S), checkAlong step c s es = true → Along step C s es
  | [], _, _ => trivial
  | e :: es, s, h => by
    rw [checkAlong, Bool.and_eq_true] at h
    refine ⟨hc s e h.1, fun t ht => along_of_check hc es t ?_⟩
    rw [ht] at h
    exact h.2

/-- A condition that can be decided is its own test. -/
theorem along_of_decide {step : S → E → Option S} {C : S → E → Prop}
    [∀ s e, Decidable (C s e)] {es : List E} {s : S}
    (h : checkAlong step (fun s e => decide (C s e)) s es = true) : Along step C s es :=
  along_of_check (fun _ _ h => of_decide_eq_true h) es s h

theorem Along.and {step : S → E → Option S} {C D : S → E → Prop} :
    ∀ (es : List E) (s : S), Along step C s es → Along step D s es →
      Along step (fun s e => C s e ∧ D s e) s es
  | [], _, _, _ => trivial
  | e :: es, s, hC, hD => ⟨⟨hC.1, hD.1⟩, fun t ht => Along.and es t (hC.2 t ht) (hD.2 t ht)⟩

/-- Conditions that agree wherever an invariant holds agree along every run from it; the invariant
    may need them to be kept. -/
theorem along_congr {step : S → E → Option S} {C D : S → E → Prop} {I : S → Prop}
    (hstep : ∀ s e t, I s → C s e → step s e = some t → I t)
    (hCD : ∀ s e, I s → (C s e ↔ D s e)) :
    ∀ (es : List E) (s : S), I s → (Along step C s es ↔ Along step D s es)
  | [], s, _ => Iff.rfl
  | e :: es, s, hs => by
    constructor
    · rintro ⟨h1, h2⟩
      exact ⟨(hCD s e hs).mp h1, fun t ht =>
        (along_congr hstep hCD es t (hstep s e t hs h1 ht)).mp (h2 t ht)⟩
    · rintro ⟨h1, h2⟩
      have h1' := (hCD s e hs).mpr h1
      exact ⟨h1', fun t ht =>
        (along_congr hstep hCD es t (hstep s e t hs h1' ht)).mpr (h2 t ht)⟩

/-- **The potential rule.**  What the events of a run cost is paid from a potential that no step
    overdraws. -/
theorem run_cost {step : S → E → Option S} {I : S → Prop} {φ : S → Nat} {cost : E → Nat}
    (hstep : ∀ s e t, I s → step s e = some t → I t ∧ φ t + cost e ≤ φ s) :
    ∀ (es : List E) (s s' : S), I s → run step s es = some s' →
      φ s' + (es.map cost).sum ≤ φ s
  | [], s, s', _, hr => by
    obtain rfl : s = s' := by simpa using hr
    simp
  | e :: es, s, s', hs, hr => by
    obtain ⟨t, ht, hr'⟩ := run_cons hr
    obtain ⟨hI, hpaid⟩ := hstep s e t hs ht
    have ih := run_cost hstep es t s' hI hr'
    rw [List.map_cons, List.sum_cons]
    omega

/-- `I` holds in every state a run passes, its start included. -/
def Throughout (step : S → E → Option S) (I : S → Prop) (s : S) (es : List E) : Prop :=
  ∀ k t, run step s (es.take k) = some t → I t

/-- An invariant holds throughout a run exactly when it holds at the start and every step of the
    run arrives in it. -/
theorem throughout_iff {step : S → E → Option S} {I : S → Prop} : ∀ (es : List E) (s : S),
    Throughout step I s es ↔ I s ∧ Along step (fun s e => ∀ t, step s e = some t → I t) s es
  | [], s => by
    constructor
    · intro h
      exact ⟨h 0 s rfl, trivial⟩
    · rintro ⟨h, -⟩ k t ht
      rw [List.take_nil] at ht
      exact Option.some.inj ht ▸ h
  | e :: es, s => by
    constructor
    · intro h
      refine ⟨h 0 s rfl, fun t ht => h 1 t ?_, fun t ht => ?_⟩
      · show (step s e).bind (fun s' => run step s' (es.take 0)) = some t
        rw [ht]
        rfl
      · refine ((throughout_iff es t).mp fun k u hu => h (k + 1) u ?_).2
        show (step s e).bind (fun s' => run step s' (es.take k)) = some u
        rw [ht]
        exact hu
    · rintro ⟨hs, hstep, hrest⟩ k t ht
      cases k with
      | zero => exact Option.some.inj ht ▸ hs
      | succ k =>
        obtain ⟨u, hu, hut⟩ := run_cons ht
        exact (throughout_iff es u).mpr ⟨hstep u hu, hrest u hu⟩ k t hut

/-! ## Pools of tasks over a shared state -/

/-- Any number of tasks over one shared state. -/
structure Pool (G L : Type*) where
  shared : G
  tasks : List L

namespace Pool

variable {G L A : Type*} {act : G → L → A → Option (G × L)}

/-- Task `e.1` takes the action `e.2`. -/
def step (act : G → L → A → Option (G × L)) (p : Pool G L) (e : Nat × A) : Option (Pool G L) :=
  match p.tasks[e.1]? with
  | none => none
  | some l => (act p.shared l e.2).map fun r => ⟨r.1, p.tasks.set e.1 r.2⟩

theorem step_eq_some {p q : Pool G L} {e : Nat × A} (h : step act p e = some q) :
    ∃ l g' l', p.tasks[e.1]? = some l ∧ act p.shared l e.2 = some (g', l') ∧
      q = ⟨g', p.tasks.set e.1 l'⟩ := by
  unfold step at h
  cases hl : p.tasks[e.1]? with
  | none =>
    rw [hl] at h
    exact absurd h nofun
  | some l =>
    rw [hl] at h
    obtain ⟨⟨g', l'⟩, hr, rfl⟩ := Option.map_eq_some_iff.mp h
    exact ⟨l, g', l', rfl, hr, rfl⟩

/-- **What a step can do**: one task acts, every other task is as it was. -/
theorem step_cases {p q : Pool G L} {e : Nat × A} (h : step act p e = some q) :
    ∃ xs l ys g' l', p.tasks = xs ++ l :: ys ∧ xs.length = e.1 ∧
      act p.shared l e.2 = some (g', l') ∧ q = ⟨g', xs ++ l' :: ys⟩ := by
  obtain ⟨l, g', l', hl, hr, rfl⟩ := step_eq_some h
  obtain ⟨hlt, hget⟩ := List.getElem?_eq_some_iff.mp hl
  have hsplit : p.tasks = p.tasks.take e.1 ++ l :: p.tasks.drop (e.1 + 1) := by
    rw [← hget, ← List.drop_eq_getElem_cons hlt, List.take_append_drop]
  refine ⟨p.tasks.take e.1, l, p.tasks.drop (e.1 + 1), g', l', hsplit, ?_, hr, ?_⟩
  · rw [List.length_take]
    omega
  · rw [List.set_eq_take_append_cons_drop, if_pos hlt]

/-- A run of a single task, action by action. -/
theorem run_alone {g g' : G} {l l' : L} {a : A} {es : List (Nat × A)} {q : Pool G L}
    (hact : act g l a = some (g', l')) (h : run (step act) ⟨g', [l']⟩ es = some q) :
    run (step act) ⟨g, [l]⟩ ((0, a) :: es) = some q := by
  have hstep : step act ⟨g, [l]⟩ (0, a) = some ⟨g', [l']⟩ := by
    show (act g l a).map _ = _
    rw [hact]
    rfl
  exact (run_step es hstep).trans h

/-- **Rule 1**: a shared invariant `I` and one invariant `J` per task.  The acting task must keep
    `I`, its own `J`, and the `J` of every other task. -/
theorem inv_step {I : G → Prop} {J : G → L → Prop}
    (hself : ∀ g l a g' l', I g → J g l → act g l a = some (g', l') → I g' ∧ J g' l')
    (hother : ∀ g l a g' l' k, I g → J g l → J g k → act g l a = some (g', l') → J g' k)
    {p q : Pool G L} {e : Nat × A} (hp : I p.shared ∧ ∀ l ∈ p.tasks, J p.shared l)
    (h : step act p e = some q) : I q.shared ∧ ∀ l ∈ q.tasks, J q.shared l := by
  obtain ⟨xs, l, ys, g', l', htasks, -, hact, rfl⟩ := step_cases h
  obtain ⟨hI, hJ⟩ := hp
  have hl : J p.shared l := hJ l (by rw [htasks]; simp)
  obtain ⟨hI', hJ'⟩ := hself _ _ _ _ _ hI hl hact
  refine ⟨hI', fun k hk => ?_⟩
  rcases List.mem_append.mp hk with hk | hk
  · exact hother _ _ _ _ _ k hI hl (hJ k (by rw [htasks]; simp [hk])) hact
  · rcases List.mem_cons.mp hk with rfl | hk
    · exact hJ'
    · exact hother _ _ _ _ _ k hI hl (hJ k (by rw [htasks]; simp [hk])) hact

/-- **The frame of a step**: the acting task is replaced, the others are still there, and a quantity
    spread over all tasks changes as it does in the acting one. -/
theorem frame {p q : Pool G L} {e : Nat × A} (h : step act p e = some q) :
    ∃ l l', p.tasks[e.1]? = some l ∧ act p.shared l e.2 = some (q.shared, l') ∧ l' ∈ q.tasks ∧
      (∀ k ∈ q.tasks, k = l' ∨ k ∈ p.tasks) ∧ (∀ k ∈ p.tasks, k = l ∨ k ∈ q.tasks) ∧
      ∀ v : L → Nat, (q.tasks.map v).sum + v l = (p.tasks.map v).sum + v l' := by
  obtain ⟨xs, l, ys, g', l', htasks, hlen, hact, rfl⟩ := step_cases h
  refine ⟨l, l', ?_, hact, by simp, fun k hk => ?_, fun k hk => ?_, fun v => ?_⟩
  · rw [htasks, ← hlen, List.getElem?_append_right (Nat.le_refl _), Nat.sub_self]
    rfl
  · rw [htasks]
    simp only [List.mem_append, List.mem_cons] at hk ⊢
    tauto
  · rw [htasks] at hk
    simp only [List.mem_append, List.mem_cons] at hk ⊢
    tauto
  · rw [htasks]
    simp only [List.map_append, List.map_cons, List.sum_append, List.sum_cons]
    omega

/-- **Rule 2**: a quantity spread over the shared state (`w`) and the tasks (`v`) that every action
    conserves is conserved by the pool. -/
theorem sum_step {w : G → Nat} {v : L → Nat}
    {p q : Pool G L} {e : Nat × A}
    (hact : ∀ l ∈ p.tasks, ∀ g' l', act p.shared l e.2 = some (g', l') →
      w g' + v l' = w p.shared + v l)
    (h : step act p e = some q) :
    w q.shared + (q.tasks.map v).sum = w p.shared + (p.tasks.map v).sum := by
  obtain ⟨l, l', hl, ha, -, -, -, hsum⟩ := frame h
  have hc := hact l (List.mem_of_getElem? hl) q.shared l' ha
  have := hsum v
  omega

end Pool

end RdRs.Runs
