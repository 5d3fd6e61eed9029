/-
  Computations that leave a trace of effects, and what a prefix of the trace does to a world.

  A sequential program whose calls are answered from outside is, once the answers are fixed, a list
  of effects and a result.  STOPPING it at one of its effects leaves the world that the PREFIX of the
  list before that effect makes, so a property "wherever the program is stopped" is a property of all
  prefixes, and no second semantics of cancellation is needed.

  * `Emits P m` — every effect of `m` satisfies `P`; closed under sequencing (`Emits.bind`);
  * `Reaches step s m Q` — an automaton that runs beside `m` accepts each of its effects, and where
    it is in the end fits the result; closed under sequencing (`Reaches.bind`);
  * `replay` — the world after a list of effects; `replay_inv` is its invariant rule.
-/
import RdRs.Lib.Runs

set_option linter.unusedVariables false

namespace RdRs.Effects

open RdRs.Runs

/-- A result with the effects on the way to it, oldest first. -/
structure Traced (E α : Type) where
  events : List E
  value : α

variable {E α β W : Type}

instance : Monad (Traced E) where
  pure a := ⟨[], a⟩
  bind m f := ⟨m.events ++ (f m.value).events, (f m.value).value⟩

/-- One effect. -/
def emit (e : E) : Traced E Unit := ⟨[e], ()⟩

@[simp] theorem pure_events (a : α) : (pure a : Traced E α).events = [] := rfl
@[simp] theorem pure_value (a : α) : (pure a : Traced E α).value = a := rfl
@[simp] theorem bind_events (m : Traced E α) (f : α → Traced E β) :
    (m >>= f).events = m.events ++ (f m.value).events := rfl
@[simp] theorem bind_value (m : Traced E α) (f : α → Traced E β) :
    (m >>= f).value = (f m.value).value := rfl
@[simp] theorem emit_events (e : E) : (emit e).events = [e] := rfl

/-! ## What a computation may do -/

/-- Every effect of `m` satisfies `P`. -/
def Emits (P : E → Prop) (m : Traced E α) : Prop := ∀ e ∈ m.events, P e

/-- A value emits nothing. -/
theorem Emits.pure {P : E → Prop} (a : α) : Emits P (Pure.pure a : Traced E α) :=
  fun e he => absurd he List.not_mem_nil

/-- One event. -/
theorem Emits.emit {P : E → Prop} {e : E} (h : P e) : Emits P (Effects.emit e) := by
  intro e' he'
  rw [List.mem_singleton.mp he']
  exact h

/-- What both parts emit. -/
theorem Emits.bind {P : E → Prop} {m : Traced E α} {f : α → Traced E β} (hm : Emits P m)
    (hf : Emits P (f m.value)) : Emits P (m >>= f) := by
  intro e he
  rcases List.mem_append.mp he with he | he
  · exact hm e he
  · exact hf e he

/-- Started in `s`, the automaton `step` takes the effects of `m`, and ends in a state that is in `Q`
    with the result. -/
def Reaches {S : Type} (step : S → E → Option S) (s : S) (m : Traced E α) (Q : α → S → Prop) : Prop :=
  ∃ t, run step s m.events = some t ∧ Q m.value t

section Reaches

variable {S : Type} {step : S → E → Option S} {s t : S} {Q : α → S → Prop} {R : β → S → Prop}

/-- A value moves nothing. -/
theorem Reaches.pure {a : α} (h : Q a s) : Reaches step s (Pure.pure a : Traced E α) Q := ⟨s, rfl, h⟩

/-- One event is one step. -/
theorem Reaches.emit {e : E} {Q : Unit → S → Prop} (h : step s e = some t) (hQ : Q () t) :
    Reaches step s (Effects.emit e) Q :=
  ⟨t, run_step [] h, hQ⟩

/-- The second part goes on where the first one has got to. -/
theorem Reaches.bind {m : Traced E α} {f : α → Traced E β} (hm : Reaches step s m Q)
    (hf : ∀ t, Q m.value t → Reaches step t (f m.value) R) : Reaches step s (m >>= f) R := by
  obtain ⟨t, hrun, hQ⟩ := hm
  obtain ⟨u, hrun', hR⟩ := hf t hQ
  refine ⟨u, ?_, hR⟩
  rw [bind_events, run_append, hrun]
  exact hrun'

/-- One effect before the rest. -/
theorem Reaches.emit_bind {e : E} {f : Unit → Traced E β} (h : step s e = some t)
    (hf : Reaches step t (f ()) R) : Reaches step s (Effects.emit e >>= f) R :=
  (Reaches.emit (Q := fun _ u => u = t) h rfl).bind fun u hu => hu ▸ hf

/-- What holds at the end may be weakened. -/
theorem Reaches.mono {m : Traced E α} {Q' : α → S → Prop} (h : Reaches step s m Q)
    (hQ : ∀ t, Q m.value t → Q' m.value t) : Reaches step s m Q' := by
  obtain ⟨t, hrun, ht⟩ := h
  exact ⟨t, hrun, hQ t ht⟩

end Reaches

/-! ## The world after a trace -/

/-- The world after a list of effects. -/
def replay (step : W → E → W) (w : W) (es : List E) : W := es.foldl step w

/-- Events are replayed in two parts. -/
theorem replay_append (step : W → E → W) (w : W) (es fs : List E) :
    replay step w (es ++ fs) = replay step (replay step w es) fs := List.foldl_append

/-- **The invariant rule**: what each permitted effect keeps, the whole trace keeps. -/
theorem replay_inv {step : W → E → W} {P : E → Prop} {I : W → Prop}
    (hstep : ∀ w e, I w → P e → I (step w e)) :
    ∀ (es : List E) (w : W), I w → (∀ e ∈ es, P e) → I (replay step w es)
  | [], w, hw, _ => hw
  | e :: es, w, hw, hP =>
    replay_inv hstep es (step w e) (hstep w e hw (hP e List.mem_cons_self))
      (fun e' he' => hP e' (List.mem_cons_of_mem e he'))

end RdRs.Effects
