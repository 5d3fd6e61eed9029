/-
  Programs that act on a shared world, run alone or side by side.

  A `Prog A R α` performs actions `a : A`, goes on with the answer in `R a`, and returns an `α`.  An
  asynchronous method is one program: each of its actions is atomic, and between two of them anything
  may happen.  The same program then has two meanings.

  1. **Alone** — `eval` runs it against a world whose actions are answered by `perform`; `eval_bind`
     and `eval_fold` take it apart.
  2. **Side by side** — a `Task` of a `Runs.Pool` takes one action at a time (`taskAct`), interleaved
     with the actions of the others in any order.

  What a program does in every interleaving is stated with a `Protocol`: a small automaton beside the
  program which says, in each of its states, which actions are allowed and which answers can come
  back.  `Follows P s p Q` — started in state `s` the program `p` keeps to the protocol whatever the
  answers, and ends with a result and a state in `Q` — is proved along the program
  (`follows_bind`, `follows_fold`) and used action by action (`follows_act`).

  What a program has done when it ends is its `History`: the actions with their answers, in order.
  The protocol `logging` writes it down, so that `Follows` proves what holds of every history
  (`Follows.history`).
-/
import RdRs.Lib.Runs

set_option linter.unusedVariables false

namespace RdRs.Programs

open RdRs.Runs

/-- A program with actions in `A`, answered in `R a`, and a result in `α`. -/
inductive Prog (A : Type) (R : A → Type) (α : Type) where
  | ret (x : α)
  | act (a : A) (k : R a → Prog A R α)

variable {A : Type} {R : A → Type} {α β σ W E : Type}

namespace Prog

/-- Sequencing. -/
def bind : Prog A R α → (α → Prog A R β) → Prog A R β
  | .ret x, f => f x
  | .act a k, f => .act a fun r => (k r).bind f

instance : Monad (Prog A R) where
  pure := .ret
  bind := Prog.bind

/-- One action. -/
def call (a : A) : Prog A R (R a) := .act a .ret

/-- The action the program takes next. -/
def head : Prog A R α → Option A
  | .ret _ => none
  | .act a _ => some a

/-- A loop over a list with an accumulator. -/
def fold (f : β → α → Prog A R β) : β → List α → Prog A R β
  | acc, [] => pure acc
  | acc, x :: xs => do
    let acc ← f acc x
    fold f acc xs

/-- A part that runs only if the condition holds. -/
def when (b : Bool) (p : Prog A R Unit) : Prog A R Unit := if b then p else pure ()

@[simp] theorem ret_bind (x : α) (f : α → Prog A R β) : (Prog.ret x >>= f) = f x := rfl
@[simp] theorem pure_bind (x : α) (f : α → Prog A R β) : ((pure x : Prog A R α) >>= f) = f x := rfl
@[simp] theorem act_bind (a : A) (k : R a → Prog A R α) (f : α → Prog A R β) :
    (Prog.act a k >>= f) = .act a fun r => k r >>= f := rfl
@[simp] theorem call_bind (a : A) (f : R a → Prog A R β) : (call a >>= f) = .act a f := rfl

theorem bind_ret : ∀ p : Prog A R α, (p >>= .ret) = p
  | .ret x => rfl
  | .act a k => congrArg (Prog.act a) (funext fun r => bind_ret (k r))

/-- Programs follow each other in any grouping. -/
theorem bind_assoc {γ : Type} : ∀ (p : Prog A R α) (f : α → Prog A R β) (g : β → Prog A R γ),
    (p >>= f) >>= g = p >>= fun x => f x >>= g
  | .ret x, f, g => rfl
  | .act a k, f, g => congrArg (Prog.act a) (funext fun r => bind_assoc (k r) f g)

/-- The program with another program for each of its actions. -/
def interpret {B : Type} {S : B → Type} (f : (a : A) → Prog B S (R a)) : Prog A R α → Prog B S α
  | .ret x => .ret x
  | .act a k => (f a).bind fun r => (k r).interpret f

/-- A call is what the interpretation makes of it. -/
theorem interpret_call {B : Type} {S : B → Type} (f : (a : A) → Prog B S (R a)) (a : A) :
    (call a).interpret f = f a := bind_ret (f a)

/-- A program under a condition is interpreted under it. -/
theorem interpret_when {B : Type} {S : B → Type} (f : (a : A) → Prog B S (R a)) (b : Bool)
    (p : Prog A R Unit) : (when b p).interpret f = when b (p.interpret f) := by
  cases b with
  | false => rfl
  | true => rfl

/-- Two programs are interpreted one after the other. -/
theorem interpret_bind {B : Type} {S : B → Type} (f : (a : A) → Prog B S (R a)) :
    ∀ (p : Prog A R α) (g : α → Prog A R β),
      (p >>= g).interpret f = p.interpret f >>= fun x => (g x).interpret f
  | .ret x, g => rfl
  | .act a k, g => by
    show (f a >>= fun r => (k r >>= g).interpret f) = (f a >>= fun r => (k r).interpret f) >>= _
    rw [bind_assoc]
    exact congrArg _ (funext fun r => interpret_bind f (k r) g)

/-! ## A program alone -/

/-- The result and the world after a program that runs alone, with what is left of the inputs `env`
    from which `perform` answers. -/
def eval (perform : W → (a : A) → E → R a × W) : Prog A R α → W → (Nat → E) → α × W × (Nat → E)
  | .ret x, w, env => (x, w, env)
  | .act a k, w, env =>
    eval perform (k (perform w a (env 0)).1) (perform w a (env 0)).2 fun n => env (n + 1)

variable {perform : W → (a : A) → E → R a × W}

@[simp] theorem eval_pure (x : α) (w : W) (env : Nat → E) :
    (pure x : Prog A R α).eval perform w env = (x, w, env) := rfl

@[simp] theorem eval_act (a : A) (k : R a → Prog A R α) (w : W) (env : Nat → E) :
    (Prog.act a k).eval perform w env =
      (k (perform w a (env 0)).1).eval perform (perform w a (env 0)).2 fun n => env (n + 1) := rfl

/-- The second program starts where the first one ends. -/
theorem eval_bind : ∀ (p : Prog A R α) (f : α → Prog A R β) (w : W) (env : Nat → E),
    (p >>= f).eval perform w env =
      (f (p.eval perform w env).1).eval perform (p.eval perform w env).2.1
        (p.eval perform w env).2.2
  | .ret x, f, w, env => rfl
  | .act a k, f, w, env => eval_bind (k (perform w a (env 0)).1) f _ _

/-- **The loop rule for a program alone**: an invariant of the accumulator and the world. -/
theorem eval_fold {f : β → α → Prog A R β} {I : List α → β → W → Prop}
    (hstep : ∀ acc x xs w env, I (x :: xs) acc w →
      I xs ((f acc x).eval perform w env).1 ((f acc x).eval perform w env).2.1) :
    ∀ (xs : List α) (acc : β) (w : W) (env : Nat → E), I xs acc w →
      I [] ((fold f acc xs).eval perform w env).1 ((fold f acc xs).eval perform w env).2.1
  | [], acc, w, env, h => h
  | x :: xs, acc, w, env, h => by
    rw [fold, eval_bind]
    exact eval_fold hstep xs _ _ _ (hstep acc x xs w env h)

end Prog

/-! ## Protocols -/

/-- In each state: the actions that are allowed, the answers that can come back, and the state
    after. -/
structure Protocol (A : Type) (R : A → Type) (σ : Type) where
  allows : σ → A → Prop
  answers : σ → (a : A) → R a → Prop
  next : σ → (a : A) → R a → σ

/-- From state `s` the program keeps to the protocol, and ends with a result and a state in `Q`. -/
def Follows (P : Protocol A R σ) : σ → Prog A R α → (α → σ → Prop) → Prop
  | s, .ret x, Q => Q x s
  | s, .act a k, Q => P.allows s a ∧ ∀ r, P.answers s a r → Follows P (P.next s a r) (k r) Q

/-- Any result and any state at the end. -/
def anyEnd : α → σ → Prop := fun _ _ => True

variable {P : Protocol A R σ}

@[simp] theorem follows_pure {s : σ} {x : α} {Q : α → σ → Prop} :
    Follows P s (pure x : Prog A R α) Q ↔ Q x s := Iff.rfl

@[simp] theorem follows_ret {s : σ} {x : α} {Q : α → σ → Prop} :
    Follows P s (.ret x : Prog A R α) Q ↔ Q x s := Iff.rfl

/-- A program follows a protocol if its first call does, and the rest after every answer. -/
theorem follows_act {s : σ} {a : A} {k : R a → Prog A R α} {Q : α → σ → Prop} :
    Follows P s (.act a k) Q ↔
      P.allows s a ∧ ∀ r, P.answers s a r → Follows P (P.next s a r) (k r) Q := Iff.rfl

/-- **Sequencing**: the second part starts where the first ends. -/
theorem follows_bind : ∀ {p : Prog A R α} {f : α → Prog A R β} {s : σ} {Q : β → σ → Prop},
    Follows P s (p >>= f) Q ↔ Follows P s p fun x s' => Follows P s' (f x) Q
  | .ret x, f, s, Q => Iff.rfl
  | .act a k, f, s, Q => by
    constructor
    · rintro ⟨ha, hk⟩
      exact ⟨ha, fun r hr => follows_bind.mp (hk r hr)⟩
    · rintro ⟨ha, hk⟩
      exact ⟨ha, fun r hr => follows_bind.mpr (hk r hr)⟩

/-- What holds at the end may be weakened. -/
theorem Follows.mono : ∀ {p : Prog A R α} {s : σ} {Q Q' : α → σ → Prop},
    Follows P s p Q → (∀ x s', Q x s' → Q' x s') → Follows P s p Q'
  | .ret x, s, Q, Q', h, hQ => hQ x s h
  | .act a k, s, Q, Q', h, hQ => ⟨h.1, fun r hr => (h.2 r hr).mono hQ⟩

/-- A part that may be left out. -/
theorem follows_when {b : Bool} {p : Prog A R Unit} {s : σ} {Q : Unit → σ → Prop}
    (hp : b = true → Follows P s p Q) (hskip : b = false → Q () s) :
    Follows P s (Prog.when b p) Q := by
  cases b with
  | true => exact hp rfl
  | false => exact hskip rfl

/-- **The loop rule**: what the body keeps, the loop keeps. -/
theorem follows_fold {f : β → α → Prog A R β} {I : β → σ → Prop} :
    ∀ (xs : List α) {acc : β} {s : σ}, I acc s →
      (∀ x ∈ xs, ∀ acc s, I acc s → Follows P s (f acc x) I) →
      Follows P s (Prog.fold f acc xs) I
  | [], acc, s, h, _ => h
  | x :: xs, acc, s, h, hbody =>
    follows_bind.mpr ((hbody x List.mem_cons_self acc s h).mono fun acc' s' h' =>
      follows_fold xs h' fun y hy => hbody y (List.mem_cons_of_mem x hy))

/-! ## Histories -/

/-- With these answers to its actions, oldest first, the program ends with `x`. -/
inductive History : Prog A R α → List (Sigma R) → α → Prop where
  | ret (x : α) : History (.ret x) [] x
  | act (a : A) (k : R a → Prog A R α) (r : R a) (log : List (Sigma R)) (x : α) :
      History (k r) log x → History (.act a k) (⟨a, r⟩ :: log) x

/-- The protocol that writes down what is done and answered. -/
def logging (answers : (a : A) → R a → Prop) : Protocol A R (List (Sigma R)) where
  allows _ _ := True
  answers _ := answers
  next log a r := log ++ [⟨a, r⟩]

/-- **What is proved with `logging` holds of every history** with answers of that kind. -/
theorem Follows.history {answers : (a : A) → R a → Prop} {p : Prog A R α} {log : List (Sigma R)}
    {x : α} (h : History p log x) (hanswers : ∀ e ∈ log, answers e.1 e.2) :
    ∀ {s : List (Sigma R)} {Q : α → List (Sigma R) → Prop}, Follows (logging answers) s p Q →
      Q x (s ++ log) := by
  induction h with
  | ret x =>
    intro s Q hp
    rw [List.append_nil]
    exact hp
  | act a k r log x _ ih =>
    intro s Q hp
    have hnext := hp.2 r (hanswers ⟨a, r⟩ List.mem_cons_self)
    rw [List.append_cons]
    exact ih (fun e he => hanswers e (List.mem_cons_of_mem _ he)) hnext

/-- The history of a program whose actions are answered one way each. -/
def answered (answer : (a : A) → R a) : Prog A R α → List (Sigma R) × α
  | .ret x => ([], x)
  | .act a k =>
    (⟨a, answer a⟩ :: (answered answer (k (answer a))).1, (answered answer (k (answer a))).2)

/-- A program that is answered has that history. -/
theorem history_answered (answer : (a : A) → R a) : ∀ p : Prog A R α,
    History p (answered answer p).1 (answered answer p).2
  | .ret x => .ret x
  | .act a k => .act a k _ _ _ (history_answered answer (k (answer a)))

/-- Every call of the history has its answer. -/
theorem mem_answered {answer : (a : A) → R a} {e : Sigma R} : ∀ {p : Prog A R α},
    e ∈ (answered answer p).1 → e.2 = answer e.1
  | .ret x, h => absurd h List.not_mem_nil
  | .act a k, h => by
    rcases List.mem_cons.mp h with rfl | h
    · rfl
    · exact mem_answered h

/-! ## Programs side by side -/

/-- A program in progress, with a label for what it is. -/
structure Task (K A : Type) (R : A → Type) where
  kind : K
  prog : Prog A R Unit

variable {K : Type}

/-- The next action of a task; blocked where `perform` is.  The world may see what kind of task acts. -/
def taskAct (perform : K → W → (a : A) → E → Option (R a × W)) (w : W) (t : Task K A R) (e : E) :
    Option (W × Task K A R) :=
  match t.prog with
  | .ret _ => none
  | .act a k => (perform t.kind w a e).map fun rw => (rw.2, ⟨t.kind, k rw.1⟩)

/-- **What a task can do**: perform the action at its head and go on with the answer. -/
theorem taskAct_cases {perform : K → W → (a : A) → E → Option (R a × W)} {w w' : W}
    {t t' : Task K A R} {e : E} (h : taskAct perform w t e = some (w', t')) :
    ∃ a k r, t.prog = .act a k ∧ perform t.kind w a e = some (r, w') ∧ t' = ⟨t.kind, k r⟩ := by
  cases hp : t.prog with
  | ret x =>
    rw [taskAct, hp] at h
    cases h
  | act a k =>
    rw [taskAct, hp] at h
    obtain ⟨rw', hr, heq⟩ := Option.map_eq_some_iff.mp h
    obtain ⟨rfl, rfl⟩ := Prod.mk.inj heq
    exact ⟨a, k, rw'.1, rfl, hr, rfl⟩

/-- A task that keeps to a protocol and acts: the action is allowed, and after an answer the protocol
    expects the task keeps to it still. -/
theorem Follows.step {t : Task K A R} {a : A} {k : R a → Prog A R Unit} {s : σ} {Q : Unit → σ → Prop}
    (h : Follows P s t.prog Q) (hp : t.prog = .act a k) :
    P.allows s a ∧ ∀ r, P.answers s a r → Follows P (P.next s a r) (k r) Q := by
  rw [hp] at h
  exact h

end RdRs.Programs
