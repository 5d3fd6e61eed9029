/-
  What a program leaves behind, whatever it is answered.

  Some calls leave a mark (`mark`), and the marks of a history, in order, are what one wants to bound or
  to match.  `Marked mark p Q` says that every history of `p` ends with a result and marks in `Q`.  It is
  proved along the program: `marked_bind` puts the marks of two parts one after the other, and a part
  that is `Unmarked` leaves none.

  `bind_congr` — what follows a program matters only for the results it can have.
-/
import RdRs.Lib.Programs

set_option linter.unusedVariables false

namespace RdRs.Programs

variable {A : Type} {R : A → Type} {α β M : Type}

/-! ## Histories of sequences -/

/-- A history of a sequence is one of each part. -/
theorem History.of_bind : ∀ {p : Prog A R α} {f : α → Prog A R β} {log : List (Sigma R)} {y : β},
    History (p >>= f) log y →
      ∃ first x rest, log = first ++ rest ∧ History p first x ∧ History (f x) rest y
  | .ret x, f, log, y, h => ⟨[], x, log, rfl, .ret x, h⟩
  | .act a k, f, log, y, h => by
    cases h with
    | act _ _ r rest _ h =>
      obtain ⟨first, x, rest, rfl, hp, hf⟩ := History.of_bind h
      exact ⟨⟨a, r⟩ :: first, x, rest, rfl, .act a k r first x hp, hf⟩

/-- Programs that agree on the results there can be. -/
theorem Prog.bind_congr : ∀ {p : Prog A R α} {f g : α → Prog A R β},
    (∀ log x, History p log x → f x = g x) → (p >>= f) = (p >>= g)
  | .ret x, f, g, h => h [] x (.ret x)
  | .act a k, f, g, h =>
    congrArg (Prog.act a) (funext fun r => Prog.bind_congr fun log x hx =>
      h (⟨a, r⟩ :: log) x (.act a k r log x hx))

/-! ## Marks -/

variable (mark : Sigma R → Option M)

/-- The marks of a history. -/
def marks (log : List (Sigma R)) : List M := log.filterMap mark

/-- Every history of the program ends with a result and marks in `Q`. -/
def Marked (p : Prog A R α) (Q : α → List M → Prop) : Prop :=
  ∀ log x, History p log x → Q x (marks mark log)

/-- No call of the program leaves a mark. -/
def Unmarked (p : Prog A R α) : Prop := Marked mark p fun _ ms => ms = []

variable {mark} {Q Q' : α → List M → Prop}

theorem Marked.mono {p : Prog A R α} (h : Marked mark p Q) (hQ : ∀ x ms, Q x ms → Q' x ms) :
    Marked mark p Q' := fun log x hx => hQ x _ (h log x hx)

theorem marked_pure {x : α} (h : Q x []) : Marked mark (pure x : Prog A R α) Q := by
  intro log y hy
  cases hy
  exact h

/-- **Sequencing**: the marks of the parts, one after the other. -/
theorem marked_bind {p : Prog A R α} {f : α → Prog A R β} {Q' : β → List M → Prop}
    (hp : Marked mark p Q)
    (hf : ∀ x ms, Q x ms → Marked mark (f x) fun y ms' => Q' y (ms ++ ms')) :
    Marked mark (p >>= f) Q' := by
  intro log y h
  obtain ⟨first, x, rest, rfl, hx, hy⟩ := History.of_bind h
  rw [marks, List.filterMap_append]
  exact hf x _ (hp first x hx) rest y hy

/-- One call, and the rest. -/
theorem marked_call_bind {a : A} {f : R a → Prog A R β} {Q : β → List M → Prop}
    (h : ∀ r, Marked mark (f r) fun y ms => Q y ((mark ⟨a, r⟩).toList ++ ms)) :
    Marked mark (Prog.call a >>= f) Q := by
  intro log y hy
  cases hy with
  | act _ _ r rest _ hrest =>
    have hQ := h r rest y hrest
    rw [marks, List.filterMap_cons]
    cases hm : mark ⟨a, r⟩ with
    | none =>
      rw [hm] at hQ
      exact hQ
    | some m =>
      rw [hm] at hQ
      exact hQ

/-- An unmarked part adds nothing. -/
theorem Unmarked.bind {p : Prog A R α} {f : α → Prog A R β} {Q : β → List M → Prop}
    (hp : Unmarked mark p) (hf : ∀ x, Marked mark (f x) Q) : Marked mark (p >>= f) Q :=
  marked_bind hp fun x ms hms => by
    subst hms
    exact hf x

theorem unmarked_pure (x : α) : Unmarked mark (pure x : Prog A R α) := marked_pure rfl

theorem unmarked_call {a : A} (h : ∀ r, mark ⟨a, r⟩ = none) : Unmarked mark (Prog.call a) := by
  intro log r hr
  cases hr with
  | act _ _ r _ _ hret =>
    cases hret
    rw [marks, List.filterMap_cons, h r]
    rfl

theorem unmarked_when {b : Bool} {p : Prog A R Unit} (h : Unmarked mark p) :
    Unmarked mark (Prog.when b p) := by
  cases b with
  | true => exact h
  | false => exact unmarked_pure ()

end RdRs.Programs
