/-
  `HookWorker` of `torrent/hook.rs` — how paths that changed come to the library hook.

  The manager sends lists of paths; the worker collects them in a set, and when none has come for
  500 ms it hands the set to a task of its own, which runs the command for each path.  Each task first
  takes the one permit of `limiter`.

  `tokio::select!` takes any branch that is ready: a message can be received although the timer is
  due, and the timer can go off late.  The tasks take turns in any order.  Time is in milliseconds.

  1. **Paths** — `groups_partition`: the messages received fall into consecutive groups; each task has
     exactly the paths of its group, each of them once, and was started when the last of these
     messages was at least 500 ms old.
  2. **Commands** — `hooks_in_turn`: the shell commands are those of the tasks, one task after the
     other in the order of the acquire events of the run; commands of two tasks never mix.
  3. **Result** — `every_path_served`: when nothing is left to do, each path that was ever sent has
     been handed on, and the command for it has been run to its end.
-/
import RdRs.Lib.Runs
import RdRs.Torrent.Hook
import RdRs.Torrent.Mirror

set_option linter.unusedVariables false

namespace RdRs.Torrent.Debounce

open RdRs.Rd RdRs.Programs RdRs.Runs

/-! ## The worker -/

/-- `DEBOUNCE_WAIT` -/
def debounceWait : Nat := 500

/-- How far the task of a flush is. -/
inductive Phase where
  /-- `limiter.acquire()` -/
  | waiting
  /-- it has the permit; so many of its commands have ended, and whether the next one runs -/
  | holding (ended : Nat) (inShell : Bool)
  | done
deriving Repr, DecidableEq

/-- A message, with the time at which it was received. -/
structure Message where
  received : Nat
  paths : List String
deriving Repr, DecidableEq

/-- The task of a flush. -/
structure HookTask where
  /-- the command as it was configured at the flush -/
  command : String
  pathsToTrigger : List String
  phase : Phase
  /-- the messages it was started for, and when; kept for the statements -/
  group : List Message
  startedAt : Nat
deriving Repr, DecidableEq

/-- What `launch_shell` does for the task with a number. -/
inductive Shell where
  | started (task : Nat) (command : String)
  | ended (task : Nat) (command : String)
deriving Repr, DecidableEq

/-- The worker, its channel and the tasks it has started. -/
structure Worker where
  now : Nat
  /-- messages that are sent and not received -/
  receiver : List (List String)
  pendingPaths : List String
  flushDeadline : Option Nat
  /-- the loop has been left -/
  stopped : Bool
  /-- the permits of `limiter` -/
  permits : Nat
  tasks : List HookTask
  shells : List Shell
  /-- everything that was sent, and the messages since the last flush; kept for the statements -/
  sent : List (List String)
  opened : List Message
deriving Repr, DecidableEq

/-- A worker that has just been spawned. -/
def Worker.spawn : Worker := ⟨0, [], [], none, false, 1, [], [], [], []⟩

/-- What happens. -/
inductive Event where
  | tick (millis : Nat)
  /-- `trigger_library_update` -/
  | send (paths : List String)
  | recv
  /-- the timer goes off; the set is drained in some order -/
  | flush (command : String) (pathsToTrigger : List String)
  | shutdown
  | acquire (task : Nat)
  /-- `launch_shell` is called -/
  | launch (task : Nat)
  /-- it returns -/
  | exit (task : Nat)
  /-- the task ends and drops its permit -/
  | release (task : Nat)
deriving Repr, DecidableEq

/-- `pending_paths.insert` -/
def insertPath (pending : List String) (path : String) : List String :=
  if path ∈ pending then pending else pending ++ [path]

/-- `execute_hook`, with the paths of the task. -/
def HookTask.commands (t : HookTask) : List String := executeHook t.command t.pathsToTrigger

/-- The task with a number goes on to a phase. -/
def Worker.setPhase (w : Worker) (i : Nat) (t : HookTask) (phase : Phase) : List HookTask :=
  w.tasks.set i { t with phase := phase }

/-- A message is received. -/
def Worker.recv (w : Worker) : Option Worker :=
  match w.stopped, w.receiver with
  | false, paths :: rest => some { w with
      receiver := rest
      pendingPaths := paths.foldl insertPath w.pendingPaths
      flushDeadline := some (w.now + debounceWait)
      opened := w.opened ++ [⟨w.now, paths⟩] }
  | _, _ => none

/-- The timer goes off. -/
def Worker.flush (w : Worker) (command : String) (pathsToTrigger : List String) : Option Worker :=
  match w.stopped, w.flushDeadline with
  | false, some deadline =>
    if deadline ≤ w.now ∧ pathsToTrigger.Perm w.pendingPaths then
      some { w with
        pendingPaths := []
        flushDeadline := none
        opened := []
        tasks := if pathsToTrigger.isEmpty then w.tasks
          else w.tasks ++ [⟨command, pathsToTrigger, .waiting, w.opened, w.now⟩] }
    else none
  | _, _ => none

/-- One event. -/
def Worker.step (w : Worker) : Event → Option Worker
  | .tick millis => some { w with now := w.now + millis }
  | .send paths =>
    if paths.isEmpty || w.stopped then some w
    else some { w with receiver := w.receiver ++ [paths], sent := w.sent ++ [paths] }
  | .recv => w.recv
  | .flush command pathsToTrigger => w.flush command pathsToTrigger
  | .shutdown => some { w with stopped := true }
  | .acquire i =>
    match w.tasks[i]? with
    | some t => if t.phase = .waiting ∧ 0 < w.permits then
        some { w with permits := w.permits - 1, tasks := w.setPhase i t (.holding 0 false) } else none
    | none => none
  | .launch i =>
    match w.tasks[i]? with
    | some t =>
      match t.phase with
      | .holding n false =>
        (t.commands[n]?).map fun command => { w with
          shells := w.shells ++ [.started i command], tasks := w.setPhase i t (.holding n true) }
      | _ => none
    | none => none
  | .exit i =>
    match w.tasks[i]? with
    | some t =>
      match t.phase with
      | .holding n true =>
        (t.commands[n]?).map fun command => { w with
          shells := w.shells ++ [.ended i command]
          tasks := w.setPhase i t (.holding (n + 1) false) }
      | _ => none
    | none => none
  | .release i =>
    match w.tasks[i]? with
    | some t => if t.phase = .holding t.commands.length false then
        some { w with permits := w.permits + 1, tasks := w.setPhase i t .done } else none
    | none => none

/-! ## What a step does -/

/-- The task to which an event gives the permit. -/
def Event.granted : Event → List Nat
  | .acquire i => [i]
  | _ => []

/-- The tasks that got the permit, in the order of the events. -/
def acquired (es : List Event) : List Nat := es.flatMap Event.granted

/-- What a task does at an event with the permits and the shell, and where it goes. -/
inductive Does (i : Nat) (t : HookTask) :
    Event → Nat → Phase → Nat → List Shell → Phase → Prop where
  | acquire {permits : Nat} : 0 < permits →
      Does i t (.acquire i) permits .waiting (permits - 1) [] (.holding 0 false)
  | launch {permits n : Nat} {command : String} : t.commands[n]? = some command →
      Does i t (.launch i) permits (.holding n false) permits [.started i command] (.holding n true)
  | exit {permits n : Nat} {command : String} : t.commands[n]? = some command →
      Does i t (.exit i) permits (.holding n true) permits [.ended i command]
        (.holding (n + 1) false)
  | release {permits : Nat} :
      Does i t (.release i) permits (.holding t.commands.length false) (permits + 1) [] .done

/-- A turn of a task. -/
def Turn (w : Worker) (e : Event) (w' : Worker) : Prop :=
  ∃ i t permits shells phase, w.tasks[i]? = some t ∧
    Does i t e w.permits t.phase permits shells phase ∧
    w' = { w with
      permits := permits, shells := w.shells ++ shells, tasks := w.setPhase i t phase }

/-- Where the worker itself is at work, the tasks stay as they are. -/
structure Still (w w' : Worker) : Prop where
  tasks : w'.tasks = w.tasks
  permits : w'.permits = w.permits
  shells : w'.shells = w.shells

/-- A set that is flushed. -/
structure Flushed (w w' : Worker) (command : String) (pathsToTrigger : List String) : Prop where
  due : ∃ deadline, w.flushDeadline = some deadline ∧ deadline ≤ w.now
  perm : pathsToTrigger.Perm w.pendingPaths
  nonempty : pathsToTrigger ≠ []
  eq : w' = { w with
    pendingPaths := []
    flushDeadline := none
    opened := []
    tasks := w.tasks ++ [⟨command, pathsToTrigger, .waiting, w.opened, w.now⟩] }

/-- A message that is received. -/
def Received (w w' : Worker) : Prop :=
  ∃ paths rest, w.receiver = paths :: rest ∧ w' = { w with
    receiver := rest
    pendingPaths := paths.foldl insertPath w.pendingPaths
    flushDeadline := some (w.now + debounceWait)
    opened := w.opened ++ [⟨w.now, paths⟩] }

/-- What else can happen: time passes, a message is sent, the loop is left, or the timer goes off with
    nothing to hand on. -/
inductive Quiet (w : Worker) : Worker → Prop where
  | tick (millis : Nat) : Quiet w { w with now := w.now + millis }
  | send (paths : List String) : paths ≠ [] →
      Quiet w { w with receiver := w.receiver ++ [paths], sent := w.sent ++ [paths] }
  | same : Quiet w w
  | shutdown : Quiet w { w with stopped := true }
  | idle : w.pendingPaths = [] →
      Quiet w { w with pendingPaths := [], flushDeadline := none, opened := [] }

section

variable {w w' : Worker} {e : Event}

theorem flush_cases {command : String} {pathsToTrigger : List String}
    (h : w.flush command pathsToTrigger = some w') :
    Flushed w w' command pathsToTrigger ∨ Quiet w w' := by
  rw [Worker.flush] at h
  split at h
  · rename_i deadline hstop hdeadline
    split at h
    · rename_i hdue
      obtain rfl := Option.some.inj h
      cases hpaths : pathsToTrigger with
      | nil =>
        rw [hpaths] at hdue
        exact Or.inr (.idle hdue.2.symm.eq_nil)
      | cons p rest =>
        rw [hpaths] at hdue
        exact Or.inl ⟨⟨deadline, hdeadline, hdue.1⟩, hdue.2, List.cons_ne_nil p rest, rfl⟩
    · cases h
  · cases h

/-- **What a step can do**; only a turn of a task gives the permit away. -/
theorem step_cases (h : w.step e = some w') :
    Turn w e w' ∨ e.granted = [] ∧
      ((∃ command paths, Flushed w w' command paths) ∨ Received w w' ∨ Quiet w w') := by
  cases e with
  | tick millis => exact Or.inr ⟨rfl, Or.inr (Or.inr (Option.some.inj h ▸ .tick millis))⟩
  | send paths =>
    refine Or.inr ⟨rfl, Or.inr (Or.inr ?_)⟩
    rw [Worker.step] at h
    split at h
    · exact Option.some.inj h ▸ .same
    · rename_i hne
      rw [Bool.or_eq_true, not_or] at hne
      refine Option.some.inj h ▸ .send paths fun hnil => hne.1 ?_
      rw [hnil]
      rfl
  | recv =>
    rw [Worker.step, Worker.recv] at h
    split at h
    · rename_i paths rest hstop hrecv
      exact Or.inr ⟨rfl, Or.inr (Or.inl ⟨paths, rest, hrecv, (Option.some.inj h).symm⟩)⟩
    · cases h
  | flush command paths =>
    refine Or.inr ⟨rfl, ?_⟩
    rcases flush_cases h with hf | hq
    · exact Or.inl ⟨command, paths, hf⟩
    · exact Or.inr (Or.inr hq)
  | shutdown => exact Or.inr ⟨rfl, Or.inr (Or.inr (Option.some.inj h ▸ .shutdown))⟩
  | acquire i =>
    refine Or.inl ?_
    rw [Worker.step] at h
    split at h
    · rename_i t ht
      split at h
      · rename_i hfree
        refine ⟨i, t, w.permits - 1, [], .holding 0 false, ht, ?_, ?_⟩
        · rw [hfree.1]
          exact .acquire hfree.2
        · rw [List.append_nil]
          exact (Option.some.inj h).symm
      · cases h
    · cases h
  | launch i =>
    refine Or.inl ?_
    rw [Worker.step] at h
    split at h
    · rename_i t ht
      split at h
      · rename_i n hph
        obtain ⟨command, hcommand, hw⟩ := Option.map_eq_some_iff.mp h
        refine ⟨i, t, w.permits, [.started i command], .holding n true, ht, ?_, hw.symm⟩
        rw [hph]
        exact .launch hcommand
      · cases h
    · cases h
  | exit i =>
    refine Or.inl ?_
    rw [Worker.step] at h
    split at h
    · rename_i t ht
      split at h
      · rename_i n hph
        obtain ⟨command, hcommand, hw⟩ := Option.map_eq_some_iff.mp h
        refine ⟨i, t, w.permits, [.ended i command], .holding (n + 1) false, ht, ?_, hw.symm⟩
        rw [hph]
        exact .exit hcommand
      · cases h
    · cases h
  | release i =>
    refine Or.inl ?_
    rw [Worker.step] at h
    split at h
    · rename_i t ht
      split at h
      · rename_i hph
        refine ⟨i, t, w.permits + 1, [], .done, ht, ?_, ?_⟩
        · rw [hph]
          exact .release
        · rw [List.append_nil]
          exact (Option.some.inj h).symm
      · cases h
    · cases h

theorem Received.still (h : Received w w') : Still w w' := by
  obtain ⟨paths, rest, -, rfl⟩ := h
  exact ⟨rfl, rfl, rfl⟩

theorem Quiet.still (h : Quiet w w') : Still w w' := by
  cases h <;> exact ⟨rfl, rfl, rfl⟩

end

/-! ## The commands -/

/-- A call of `launch_shell` that has returned. -/
def call (i : Nat) (command : String) : List Shell := [.started i command, .ended i command]

/-- What a task has done at a phase. -/
def HookTask.shellsAt (t : HookTask) (i : Nat) : Phase → List Shell
  | .waiting => []
  | .holding n inShell => (t.commands.take n).flatMap (call i) ++
      if inShell then (t.commands[n]?.map (Shell.started i)).toList else []
  | .done => t.commands.flatMap (call i)

/-- What the task with a number has done. -/
def Worker.shellsOf (w : Worker) (i : Nat) : List Shell :=
  match w.tasks[i]? with
  | some t => t.shellsAt i t.phase
  | none => []

/-- The task with this number has ended. -/
def Worker.Done (w : Worker) (i : Nat) : Prop := ∃ t, w.tasks[i]? = some t ∧ t.phase = .done

/-- The task with this number has the permit. -/
def Worker.Holds (w : Worker) (i : Nat) : Prop :=
  ∃ t n inShell, w.tasks[i]? = some t ∧ t.phase = .holding n inShell

/-- **The tasks take turns**, in the order in which they got the permit. -/
structure InTurn (w : Worker) (served : List Nat) : Prop where
  nodup : served.Nodup
  taken : ∀ i t, w.tasks[i]? = some t → (i ∈ served ↔ t.phase ≠ .waiting)
  shells : w.shells = served.flatMap w.shellsOf
  turn : w.permits = 1 ∧ (∀ i ∈ served, w.Done i) ∨
    w.permits = 0 ∧ ∃ before i, served = before ++ [i] ∧ w.Holds i ∧ ∀ j ∈ before, w.Done j

section

variable {w w' : Worker} {served : List Nat} {i : Nat} {t : HookTask} {phase : Phase}

theorem get_setPhase (ht : w.tasks[i]? = some t) (j : Nat) :
    (w.setPhase i t phase)[j]? = if j = i then some { t with phase := phase } else w.tasks[j]? := by
  obtain ⟨hlt, -⟩ := List.getElem?_eq_some_iff.mp ht
  rw [Worker.setPhase]
  by_cases hj : j = i
  · rw [if_pos hj, hj, List.getElem?_set_self hlt]
  · rw [if_neg hj, List.getElem?_set_ne (Ne.symm hj)]

theorem Worker.Done.congr {j : Nat} (h : w.Done j) (hsame : w'.tasks[j]? = w.tasks[j]?) : w'.Done j := by
  obtain ⟨u, hu, hdone⟩ := h
  exact ⟨u, hsame.trans hu, hdone⟩

theorem Worker.Holds.congr {j : Nat} (h : w.Holds j) (hsame : w'.tasks[j]? = w.tasks[j]?) :
    w'.Holds j := by
  obtain ⟨u, n, b, hu, hph⟩ := h
  exact ⟨u, n, b, hsame.trans hu, hph⟩

/-- A task that has neither waited nor ended is the one whose turn it is. -/
theorem InTurn.last (h : InTurn w served) (ht : w.tasks[i]? = some t) {n : Nat} {b : Bool}
    (hph : t.phase = .holding n b) : w.permits = 0 ∧ ∃ before, served = before ++ [i] ∧
      ∀ j ∈ before, j ≠ i ∧ w.Done j := by
  have hmem : i ∈ served := (h.taken i t ht).mpr (by rw [hph]; exact Phase.noConfusion)
  have hnot : ¬w.Done i := by
    rintro ⟨u, hu, hdone⟩
    obtain rfl := Option.some.inj (ht.symm.trans hu)
    rw [hph] at hdone
    cases hdone
  rcases h.turn with ⟨-, hdone⟩ | ⟨hzero, before, k, hserved, -, hdone⟩
  · exact absurd (hdone i hmem) hnot
  · have hik : i = k := by
      rw [hserved] at hmem
      rcases List.mem_append.mp hmem with hm | hm
      · exact absurd (hdone i hm) hnot
      · exact List.mem_singleton.mp hm
    subst hik
    refine ⟨hzero, before, hserved, fun j hj => ⟨?_, hdone j hj⟩⟩
    rintro rfl
    exact hnot (hdone _ hj)

/-- The calls of tasks that have not moved. -/
theorem flatMap_shellsOf {js : List Nat} (hsame : ∀ j ∈ js, w'.tasks[j]? = w.tasks[j]?) :
    js.flatMap w'.shellsOf = js.flatMap w.shellsOf := by
  refine List.flatMap_congr fun j hj => ?_
  rw [Worker.shellsOf, Worker.shellsOf, hsame j hj]

/-- The task that has the permit goes on. -/
theorem InTurn.goes (h : InTurn w served) (ht : w.tasks[i]? = some t) {n : Nat} {b : Bool}
    (hph : t.phase = .holding n b) {permits : Nat} {shells : List Shell}
    (hshells : t.shellsAt i phase = t.shellsAt i (.holding n b) ++ shells)
    (hnext : permits = 1 ∧ phase = .done ∨ permits = 0 ∧ ∃ m c, phase = .holding m c) :
    InTurn { w with
      permits := permits, shells := w.shells ++ shells, tasks := w.setPhase i t phase } served := by
  obtain ⟨hzero, before, hserved, hbefore⟩ := h.last ht hph
  have hother : ∀ j, j ≠ i → (w.setPhase i t phase)[j]? = w.tasks[j]? := fun j hj => by
    rw [get_setPhase ht, if_neg hj]
  have hself : (w.setPhase i t phase)[i]? = some { t with phase := phase } := by
    rw [get_setPhase ht, if_pos rfl]
  have hmoved : phase ≠ .waiting := by
    rcases hnext with ⟨-, rfl⟩ | ⟨-, m, c, rfl⟩ <;> exact Phase.noConfusion
  refine ⟨h.nodup, fun j u hu => ?_, ?_, ?_⟩
  · by_cases hj : j = i
    · subst hj
      obtain rfl := Option.some.inj (hself.symm.trans hu)
      refine iff_of_true ?_ hmoved
      rw [hserved]
      exact List.mem_append_right _ (List.mem_singleton_self _)
    · exact h.taken j u ((hother j hj).symm.trans hu)
  · show w.shells ++ shells = _
    rw [h.shells, hserved, List.flatMap_append, List.flatMap_append, List.append_assoc]
    refine congrArg₂ (· ++ ·) (flatMap_shellsOf fun j hj => hother j (hbefore j hj).1).symm ?_
    rw [List.flatMap_singleton, List.flatMap_singleton]
    show w.shellsOf i ++ shells = (match (w.setPhase i t phase)[i]? with
      | some u => u.shellsAt i u.phase
      | none => [])
    rw [hself, Worker.shellsOf, ht]
    show t.shellsAt i t.phase ++ shells = t.shellsAt i phase
    rw [hph, hshells]
  · rcases hnext with ⟨rfl, rfl⟩ | ⟨rfl, m, c, rfl⟩
    · refine Or.inl ⟨rfl, fun j hj => ?_⟩
      rw [hserved] at hj
      rcases List.mem_append.mp hj with hj | hj
      · exact (hbefore j hj).2.congr (hother j (hbefore j hj).1)
      · rw [List.mem_singleton.mp hj]
        exact ⟨_, hself, rfl⟩
    · exact Or.inr ⟨rfl, before, i, hserved, ⟨_, m, c, hself, rfl⟩,
        fun j hj => (hbefore j hj).2.congr (hother j (hbefore j hj).1)⟩

/-- A task gets the permit. -/
theorem InTurn.acquires (h : InTurn w served) (ht : w.tasks[i]? = some t) (hph : t.phase = .waiting)
    (hfree : 0 < w.permits) :
    InTurn { w with
      permits := w.permits - 1
      shells := w.shells ++ []
      tasks := w.setPhase i t (.holding 0 false) } (served ++ [i]) := by
  have hnot : i ∉ served := fun hi => (h.taken i t ht).mp hi hph
  have hother : ∀ j, j ≠ i → (w.setPhase i t (.holding 0 false))[j]? = w.tasks[j]? := fun j hj => by
    rw [get_setPhase ht, if_neg hj]
  have hself : (w.setPhase i t (.holding 0 false))[i]? = some { t with phase := .holding 0 false } := by
    rw [get_setPhase ht, if_pos rfl]
  have hne : ∀ j ∈ served, j ≠ i := by
    rintro j hj rfl
    exact hnot hj
  rcases h.turn with ⟨hone, hdone⟩ | ⟨hzero, -⟩
  · refine ⟨?_, fun j u hu => ?_, ?_, Or.inr ⟨?_, served, i, rfl, ⟨_, 0, false, hself, rfl⟩,
      fun j hj => (hdone j hj).congr (hother j (hne j hj))⟩⟩
    · refine List.nodup_append.mpr ⟨h.nodup, List.nodup_singleton i, fun a ha b hb => ?_⟩
      rw [List.mem_singleton.mp hb]
      exact hne a ha
    · by_cases hj : j = i
      · subst hj
        obtain rfl := Option.some.inj (hself.symm.trans hu)
        exact iff_of_true (List.mem_append_right _ (List.mem_singleton_self _)) Phase.noConfusion
      · rw [List.mem_append, List.mem_singleton, or_iff_left hj]
        exact h.taken j u ((hother j hj).symm.trans hu)
    · show w.shells ++ [] = _
      rw [List.append_nil, h.shells, List.flatMap_append,
        ← @flatMap_shellsOf w { w with tasks := w.setPhase i t (.holding 0 false) } _
          fun j hj => hother j (hne j hj), List.flatMap_singleton]
      refine (List.append_nil _).symm.trans (congrArg _ ?_)
      show [] = (match (w.setPhase i t (.holding 0 false))[i]? with
        | some u => u.shellsAt i u.phase
        | none => [])
      rw [hself]
      rfl
    · show w.permits - 1 = 0
      rw [hone]
  · omega

/-- **A turn keeps the order**; who gets the permit is the last. -/
theorem InTurn.step {e : Event} (h : InTurn w served) (hturn : Turn w e w') :
    InTurn w' (served ++ e.granted) := by
  obtain ⟨i, t, permits, shells, phase, ht, hdoes, rfl⟩ := hturn
  generalize hp : w.permits = p at hdoes
  generalize hph : t.phase = ph at hdoes
  cases hdoes with
  | acquire hfree =>
    subst hp
    exact h.acquires ht hph hfree
  | launch hcommand =>
    obtain ⟨hzero, -⟩ := h.last ht hph
    show InTurn _ (served ++ [])
    rw [List.append_nil served]
    refine h.goes ht hph ?_ (Or.inr ⟨hp.symm.trans hzero, _, true, rfl⟩)
    rw [HookTask.shellsAt, HookTask.shellsAt, hcommand]
    simp
  | exit hcommand =>
    obtain ⟨hzero, -⟩ := h.last ht hph
    show InTurn _ (served ++ [])
    rw [List.append_nil served]
    refine h.goes ht hph ?_ (Or.inr ⟨hp.symm.trans hzero, _, false, rfl⟩)
    rw [HookTask.shellsAt, HookTask.shellsAt, hcommand, List.take_add_one, hcommand, List.flatMap_append]
    simp [call]
  | release =>
    obtain ⟨hzero, -⟩ := h.last ht hph
    show InTurn _ (served ++ [])
    rw [List.append_nil served]
    have hone : p + 1 = 1 := by omega
    refine h.goes ht hph ?_ (Or.inl ⟨hone, rfl⟩)
    rw [HookTask.shellsAt, HookTask.shellsAt, List.take_length]
    simp

/-- Tasks that are started later leave the order as it is. -/
theorem InTurn.more (h : InTurn w served) (hpermits : w'.permits = w.permits)
    (hshells : w'.shells = w.shells) {new : List HookTask} (htasks : w'.tasks = w.tasks ++ new)
    (hnew : ∀ t ∈ new, t.phase = .waiting) : InTurn w' served := by
  have hold : ∀ {j u}, w.tasks[j]? = some u → w'.tasks[j]? = w.tasks[j]? := fun {j u} hu => by
    rw [htasks, List.getElem?_append_left (List.getElem?_eq_some_iff.mp hu).1]
  have hin : ∀ j ∈ served, w'.tasks[j]? = w.tasks[j]? := fun j hj => by
    rcases h.turn with ⟨-, hdone⟩ | ⟨-, before, i, rfl, ⟨u, n, b, hu, -⟩, hdone⟩
    · obtain ⟨u, hu, -⟩ := hdone j hj
      exact hold hu
    · rcases List.mem_append.mp hj with hj | hj
      · obtain ⟨u, hu, -⟩ := hdone j hj
        exact hold hu
      · rw [List.mem_singleton.mp hj]
        exact hold hu
  refine ⟨h.nodup, fun j u hu => ?_, ?_, ?_⟩
  · rw [htasks] at hu
    rcases Nat.lt_or_ge j w.tasks.length with hlt | hge
    · rw [List.getElem?_append_left hlt] at hu
      exact h.taken j u hu
    · rw [List.getElem?_append_right hge] at hu
      refine iff_of_false (fun hj => ?_) (not_not_intro (hnew u (List.mem_of_getElem? hu)))
      have hnone := hin j hj
      rw [htasks, List.getElem?_append_right hge, hu, List.getElem?_eq_none hge] at hnone
      cases hnone
  · rw [hshells, h.shells, flatMap_shellsOf hin]
  · rw [hpermits]
    refine h.turn.imp (fun ⟨hone, hdone⟩ => ⟨hone, fun j hj => (hdone j hj).congr (hin j hj)⟩) ?_
    rintro ⟨hzero, before, i, rfl, hholds, hdone⟩
    exact ⟨hzero, before, i, rfl,
      hholds.congr (hin i (List.mem_append_right _ (List.mem_singleton_self _))),
      fun j hj => (hdone j hj).congr (hin j (List.mem_append_left _ hj))⟩

end

/-! ## The paths -/

/-- The set has the paths of these messages, each once. -/
def SetOf (paths : List String) (messages : List Message) : Prop :=
  paths.Nodup ∧ ∀ p, p ∈ paths ↔ ∃ m ∈ messages, p ∈ m.paths

/-- A task has the paths of its messages, the last of which was old enough. -/
structure HookTask.Settled (t : HookTask) : Prop where
  group : t.group ≠ []
  paths : SetOf t.pathsToTrigger t.group
  quiet : ∀ m ∈ t.group, m.received + debounceWait ≤ t.startedAt

/-- **Where the messages are**: in the groups of the tasks, in the set, or in the channel. -/
structure Grouped (w : Worker) : Prop where
  sent : w.sent = (w.tasks.flatMap (·.group) ++ w.opened).map (·.paths) ++ w.receiver
  nonempty : ∀ paths ∈ w.sent, paths ≠ []
  tasks : ∀ t ∈ w.tasks, t.Settled
  pending : SetOf w.pendingPaths w.opened
  deadline : ∀ m ∈ w.opened, ∃ deadline, w.flushDeadline = some deadline ∧
    m.received + debounceWait ≤ deadline
  past : ∀ m ∈ w.opened, m.received ≤ w.now

section

variable {w w' : Worker}

theorem nodup_insertPath {pending : List String} {path : String} (h : pending.Nodup) :
    (insertPath pending path).Nodup := by
  rw [insertPath]
  split
  · exact h
  · refine List.nodup_append.mpr ⟨h, List.nodup_singleton path, fun a ha b hb => ?_⟩
    rw [List.mem_singleton.mp hb]
    rintro rfl
    exact ‹a ∉ pending› ha

theorem mem_insertPath {pending : List String} {path p : String} :
    p ∈ insertPath pending path ↔ p ∈ pending ∨ p = path := by
  rw [insertPath]
  split
  · constructor
    · exact Or.inl
    · rintro (h | rfl)
      · exact h
      · assumption
  · rw [List.mem_append, List.mem_singleton]

theorem nodup_foldl_insertPath : ∀ (paths pending : List String), pending.Nodup →
    (paths.foldl insertPath pending).Nodup
  | [], pending, h => h
  | p :: paths, pending, h => nodup_foldl_insertPath paths _ (nodup_insertPath h)

theorem mem_foldl_insertPath {p : String} : ∀ (paths pending : List String),
    p ∈ paths.foldl insertPath pending ↔ p ∈ pending ∨ p ∈ paths
  | [], pending => by
    rw [List.foldl_nil]
    exact (or_iff_left List.not_mem_nil).symm
  | q :: paths, pending => by
    rw [List.foldl_cons, mem_foldl_insertPath paths, mem_insertPath, List.mem_cons, or_assoc]

theorem SetOf.receive {paths new : List String} {messages : List Message} (h : SetOf paths messages)
    (now : Nat) : SetOf (new.foldl insertPath paths) (messages ++ [⟨now, new⟩]) := by
  refine ⟨nodup_foldl_insertPath new paths h.1, fun p => ?_⟩
  rw [mem_foldl_insertPath, h.2 p]
  constructor
  · rintro (⟨m, hm, hp⟩ | hp)
    · exact ⟨m, List.mem_append_left _ hm, hp⟩
    · exact ⟨_, List.mem_append_right _ (List.mem_singleton_self _), hp⟩
  · rintro ⟨m, hm, hp⟩
    rcases List.mem_append.mp hm with hm | hm
    · exact Or.inl ⟨m, hm, hp⟩
    · rw [List.mem_singleton.mp hm] at hp
      exact Or.inr hp

/-- Nothing is in the set only when no message has been received since the last flush. -/
theorem Grouped.opened_eq_nil (h : Grouped w) (hnone : w.pendingPaths = []) : w.opened = [] := by
  refine List.eq_nil_iff_forall_not_mem.mpr fun m hm => ?_
  have hsent : m.paths ∈ w.sent := by
    rw [h.sent]
    exact List.mem_append_left _ (List.mem_map_of_mem (List.mem_append_right _ hm))
  obtain ⟨p, hp⟩ := List.exists_mem_of_ne_nil _ (h.nonempty _ hsent)
  have hpending := (h.pending.2 p).mpr ⟨m, hm, hp⟩
  rw [hnone] at hpending
  exact List.not_mem_nil hpending

theorem Grouped.turn {e : Event} (h : Grouped w) (hturn : Turn w e w') : Grouped w' := by
  obtain ⟨i, t, permits, shells, phase, ht, -, rfl⟩ := hturn
  have hsame : (w.setPhase i t phase).map (·.group) = w.tasks.map (·.group) := by
    obtain ⟨hlt, hget⟩ := List.getElem?_eq_some_iff.mp ht
    rw [Worker.setPhase, List.map_set]
    refine List.ext_getElem? fun j => ?_
    by_cases hj : j = i
    · subst hj
      rw [List.getElem?_set_self (by rw [List.length_map]; exact hlt), List.getElem?_map, ht]
      rfl
    · rw [List.getElem?_set_ne (Ne.symm hj)]
  refine ⟨?_, h.nonempty, fun u hu => ?_, h.pending, h.deadline, h.past⟩
  · show w.sent = ((w.setPhase i t phase).flatMap HookTask.group ++ w.opened).map Message.paths ++
      w.receiver
    rw [h.sent, List.flatMap_def, List.flatMap_def, hsame]
  · rcases List.mem_or_eq_of_mem_set hu with hu | rfl
    · exact h.tasks u hu
    · obtain ⟨hgroup, hpaths, hquiet⟩ := h.tasks t (List.mem_of_getElem? ht)
      exact ⟨hgroup, hpaths, hquiet⟩

theorem Grouped.flushed (h : Grouped w) {command : String} {paths : List String}
    (hf : Flushed w w' command paths) : Grouped w' := by
  obtain ⟨⟨deadline, hdeadline, hdue⟩, hperm, hne, rfl⟩ := hf
  have hsettled : (⟨command, paths, .waiting, w.opened, w.now⟩ : HookTask).Settled := by
    refine ⟨fun hnil => ?_, ⟨hperm.nodup_iff.mpr h.pending.1, fun p => ?_⟩, fun m hm => ?_⟩
    · obtain ⟨p, hp⟩ := List.exists_mem_of_ne_nil _ hne
      obtain ⟨m, hm, -⟩ := (h.pending.2 p).mp (hperm.mem_iff.mp hp)
      rw [show w.opened = [] from hnil] at hm
      exact List.not_mem_nil hm
    · exact hperm.mem_iff.trans (h.pending.2 p)
    · obtain ⟨deadline', hdeadline', hold⟩ := h.deadline m hm
      obtain rfl := Option.some.inj (hdeadline.symm.trans hdeadline')
      exact hold.trans hdue
  refine ⟨?_, h.nonempty, fun t ht => ?_, ⟨List.nodup_nil, fun p => ?_⟩,
    fun m hm => absurd hm List.not_mem_nil, fun m hm => absurd hm List.not_mem_nil⟩
  · show w.sent = ((w.tasks ++ [(⟨command, paths, .waiting, w.opened, w.now⟩ : HookTask)]).flatMap
      HookTask.group ++ []).map Message.paths ++ w.receiver
    rw [h.sent, List.flatMap_append, List.flatMap_singleton, List.append_nil]
  · rcases List.mem_append.mp ht with ht | ht
    · exact h.tasks t ht
    · rw [List.mem_singleton.mp ht]
      exact hsettled
  · exact iff_of_false List.not_mem_nil fun ⟨m, hm, _⟩ => List.not_mem_nil hm

theorem Grouped.received (h : Grouped w) (hr : Received w w') : Grouped w' := by
  obtain ⟨paths, rest, hreceiver, rfl⟩ := hr
  refine ⟨?_, h.nonempty, h.tasks, h.pending.receive w.now, fun m hm => ⟨_, rfl, ?_⟩, fun m hm => ?_⟩
  · show w.sent = (w.tasks.flatMap HookTask.group ++ (w.opened ++ [(⟨w.now, paths⟩ : Message)])).map
      Message.paths ++ rest
    rw [h.sent, hreceiver]
    simp only [List.map_append, List.map_cons, List.map_nil, List.append_assoc, List.cons_append,
      List.nil_append]
  · rcases List.mem_append.mp hm with hm | hm
    · have := h.past m hm
      omega
    · rw [List.mem_singleton.mp hm]
  · rcases List.mem_append.mp hm with hm | hm
    · exact h.past m hm
    · rw [List.mem_singleton.mp hm]

theorem Grouped.still (h : Grouped w) (hq : Quiet w w') : Grouped w' := by
  cases hq with
  | tick millis =>
    exact ⟨h.sent, h.nonempty, h.tasks, h.pending, h.deadline,
      fun m hm => (h.past m hm).trans (Nat.le_add_right _ _)⟩
  | send paths hne =>
    refine ⟨?_, fun q hq => ?_, h.tasks, h.pending, h.deadline, h.past⟩
    · show w.sent ++ [paths] = _ ++ (w.receiver ++ [paths])
      rw [h.sent, List.append_assoc]
    · rcases List.mem_append.mp hq with hq | hq
      · exact h.nonempty q hq
      · rw [List.mem_singleton.mp hq]
        exact hne
  | same => exact h
  | shutdown => exact ⟨h.sent, h.nonempty, h.tasks, h.pending, h.deadline, h.past⟩
  | idle hnone =>
    have hopened := h.opened_eq_nil hnone
    refine ⟨?_, h.nonempty, h.tasks, ?_, fun m hm => absurd hm List.not_mem_nil,
      fun m hm => absurd hm List.not_mem_nil⟩
    · have hsent := h.sent
      rw [hopened] at hsent
      exact hsent
    · have hpending := h.pending
      rw [hnone, hopened] at hpending
      exact hpending

/-! ## Runs -/

/-- **A step keeps the groups and the order.** -/
theorem step_inv {past : List Event} {e : Event} (h : Grouped w ∧ InTurn w (acquired past))
    (hs : w.step e = some w') : Grouped w' ∧ InTurn w' (acquired (past ++ [e])) := by
  obtain ⟨hgrouped, hturns⟩ := h
  rw [acquired, List.flatMap_append, List.flatMap_singleton]
  rcases step_cases hs with hturn | ⟨hnone, hw⟩
  · exact ⟨hgrouped.turn hturn, hturns.step hturn⟩
  · rw [hnone, List.append_nil]
    have hstill : Still w w' → InTurn w' (acquired past) := fun hv =>
      hturns.more hv.permits hv.shells (hv.tasks.trans (List.append_nil _).symm)
        fun t ht => absurd ht List.not_mem_nil
    rcases hw with ⟨command, paths, hf⟩ | hr | hq
    · refine ⟨hgrouped.flushed hf, ?_⟩
      obtain ⟨-, -, -, rfl⟩ := hf
      refine hturns.more rfl rfl rfl fun t ht => ?_
      rw [List.mem_singleton.mp ht]
    · exact ⟨hgrouped.received hr, hstill hr.still⟩
    · exact ⟨hgrouped.still hq, hstill hq.still⟩

theorem run_inv_spawn {es : List Event} (hrun : run Worker.step .spawn es = some w) :
    Grouped w ∧ InTurn w (acquired es) := by
  refine run_inv_past (I := fun w past => Grouped w ∧ InTurn w (acquired past))
    (fun w past e w' h hs => step_inv h hs) es [] _ w ⟨?_, ?_⟩ hrun
  · exact ⟨rfl, fun q hq => absurd hq List.not_mem_nil, fun t ht => absurd ht List.not_mem_nil,
      ⟨List.nodup_nil, fun p => iff_of_false List.not_mem_nil fun ⟨m, hm, _⟩ => List.not_mem_nil hm⟩,
      fun m hm => absurd hm List.not_mem_nil, fun m hm => absurd hm List.not_mem_nil⟩
  · refine ⟨List.nodup_nil, fun i t ht => ?_, rfl, Or.inl ⟨rfl, fun i hi => ?_⟩⟩
    · cases ht
    · exact absurd hi List.not_mem_nil

/-- **The commands are run task after task.**  In every interleaving the calls of `launch_shell` are
    those of the tasks, one after the other in the order in which the events of the run gave them the
    permit; all but the last of these have ended, and while one is under way the permit is taken. -/
theorem hooks_in_turn {es : List Event} (hrun : run Worker.step .spawn es = some w) :
    InTurn w (acquired es) :=
  (run_inv_spawn hrun).2

/-- Two messages in one group and a third in the next; the second task gets the permit first. -/
def twoFlushes : List Event :=
  [.send ["a"], .send ["b", "a"], .recv, .recv, .tick 500, .flush "echo %s" ["b", "a"],
    .send ["c"], .recv, .tick 700, .flush "notify" ["c"], .acquire 1, .launch 1, .exit 1,
    .release 1, .acquire 0, .launch 0]

theorem hooks_in_turn_two : ∃ w, run Worker.step .spawn twoFlushes = some w ∧
    acquired twoFlushes = [1, 0] ∧ InTurn w (acquired twoFlushes) ∧
    w.shells = [.started 1 "notify", .ended 1 "notify", .started 0 "echo b"] := by
  obtain ⟨w, hrun, hshells⟩ : ∃ w, run Worker.step .spawn twoFlushes = some w ∧
      w.shells = [.started 1 "notify", .ended 1 "notify", .started 0 "echo b"] :=
    Option.map_eq_some_iff.mp (by decide)
  exact ⟨w, hrun, rfl, hooks_in_turn hrun, hshells⟩

/-- **The messages are divided among the tasks.**  What was sent is what the groups of the tasks, the
    set and the channel hold, in this order; each task has the paths of its group, each once, and was
    started when the last message of the group was 500 ms old. -/
theorem groups_partition {es : List Event} (hrun : run Worker.step .spawn es = some w) : Grouped w :=
  (run_inv_spawn hrun).1

theorem groups_partition_two : ∃ w, run Worker.step .spawn twoFlushes = some w ∧ Grouped w ∧
    w.tasks.map (·.group) = [[⟨0, ["a"]⟩, ⟨0, ["b", "a"]⟩], [⟨500, ["c"]⟩]] := by
  obtain ⟨w, hrun, hgroups⟩ : ∃ w, run Worker.step .spawn twoFlushes = some w ∧
      w.tasks.map (·.group) = [[⟨0, ["a"]⟩, ⟨0, ["b", "a"]⟩], [⟨500, ["c"]⟩]] :=
    Option.map_eq_some_iff.mp (by decide)
  exact ⟨w, hrun, groups_partition hrun, hgroups⟩

/-- Nothing is left to do. -/
structure Worker.AtRest (w : Worker) : Prop where
  receiver : w.receiver = []
  timer : w.flushDeadline = none
  tasks : ∀ t ∈ w.tasks, t.phase = .done

/-- A path that was sent is, at rest, in a task all of whose commands have been run, one after the
    other and with nothing in between. -/
theorem every_path_served {es : List Event} (hrun : run Worker.step .spawn es = some w)
    (hrest : w.AtRest) {paths : List String} (hsent : paths ∈ w.sent) {p : String} (hp : p ∈ paths) :
    ∃ (i : Nat) (t : HookTask), w.tasks[i]? = some t ∧ p ∈ t.pathsToTrigger ∧
      t.commands.flatMap (call i) <:+: w.shells := by
  obtain ⟨hgrouped, hturns⟩ := run_inv_spawn hrun
  have hopened : w.opened = [] := List.eq_nil_iff_forall_not_mem.mpr fun m hm => by
    obtain ⟨deadline, hdeadline, -⟩ := hgrouped.deadline m hm
    rw [hrest.timer] at hdeadline
    cases hdeadline
  rw [hgrouped.sent, hopened, hrest.receiver, List.append_nil, List.append_nil] at hsent
  obtain ⟨m, hm, rfl⟩ := List.mem_map.mp hsent
  obtain ⟨t, ht, hmt⟩ := List.mem_flatMap.mp hm
  obtain ⟨i, hi⟩ := List.getElem?_of_mem ht
  refine ⟨i, t, hi, ((hgrouped.tasks t ht).paths.2 p).mpr ⟨m, hmt, hp⟩, ?_⟩
  have hserved : i ∈ acquired es := (hturns.taken i t hi).mpr (by
    rw [hrest.tasks t ht]
    exact Phase.noConfusion)
  have hall : t.commands.flatMap (call i) = w.shellsOf i := by
    rw [Worker.shellsOf, hi]
    show _ = t.shellsAt i t.phase
    rw [hrest.tasks t ht]
    rfl
  obtain ⟨before, rest, hsplit⟩ := List.append_of_mem hserved
  rw [hturns.shells, hsplit, hall, List.flatMap_append, List.flatMap_cons]
  exact ⟨_, _, (List.append_assoc ..)⟩

end

/-! ## From a refresh to the hook -/

/-- A key that a pass adds or changes has its path among those that are sent. -/
theorem path_of_written {current : Torrents} {fresh : List Torrent} {key : String}
    (h : isWritten ((freshMap fresh).lookup key) (current.lookup key) = true) :
    pathOf key ∈ (diff current fresh).added.map (fun a => pathOf (keyOf a.1)) ++
      (diff current fresh).changed.flatMap (fun a =>
        ((current.lookup (keyOf a.1)).map fun _ => pathOf (keyOf a.1)).toList) := by
  cases hf : (freshMap fresh).lookup key with
  | none =>
    rw [hf] at h
    cases hmt : current.lookup key <;> rw [hmt] at h <;> cases h
  | some f =>
    cases hmt : current.lookup key with
    | none =>
      refine List.mem_append_left _ ?_
      obtain ⟨a, ha, rfl⟩ := List.mem_map.mp ((mem_added_keys current fresh).mpr ⟨⟨f, hf⟩, hmt⟩)
      exact List.mem_map.mpr ⟨a, ha, rfl⟩
    | some mt =>
      rw [hf, hmt] at h
      refine List.mem_append_right _ ?_
      obtain ⟨a, ha, rfl⟩ :=
        List.mem_map.mp ((mem_changed_keys current fresh).mpr ⟨f, mt, hf, hmt, h⟩)
      refine List.mem_flatMap.mpr ⟨a, ha, ?_⟩
      rw [hmt]
      exact List.mem_singleton_self _

/-- **The hook hears of every change.**  A refresh pass goes through, the worker is fed with what the
    manager has sent, and nothing is left to do: for each key the pass has added or changed, a task
    had its path and has run all its commands, one after the other and with nothing in between. -/
theorem hook_hears {cfg : RefreshConfig} {m : Manager} {env : Nat → Env} {list : List Torrent}
    (hlist : (env 0).list = some list) (hok : ((runOnce cfg).eval performAlone m env).1 = true)
    {es : List Event} {w : Worker} (hrun : run Worker.step .spawn es = some w)
    (hfed : w.sent = ((runOnce cfg).eval performAlone m env).2.1.hooks) (hrest : w.AtRest)
    {key : String}
    (hkey : isWritten ((freshMap (usable list)).lookup key) (m.torrents.lookup key) = true) :
    ∃ (i : Nat) (t : HookTask), w.tasks[i]? = some t ∧ pathOf key ∈ t.pathsToTrigger ∧
      t.commands.flatMap (call i) <:+: w.shells := by
  obtain ⟨c, ok, -, -, hpaths, hres, -, hhooks⟩ := @runOnce_spec cfg m env list hlist
  have hmem : pathOf key ∈ c.paths := by
    rw [hpaths]
    exact List.mem_append_left _ (path_of_written hkey)
  have hsent : c.paths ∈ w.sent := by
    rw [hok] at hres
    rw [hfed, hhooks, ← hres, List.isEmpty_eq_false_iff.mpr (List.ne_nil_of_mem hmem)]
    exact List.mem_append_right _ (List.mem_singleton_self _)
  exact every_path_served hrun hrest hsent hmem

/-- A pass before has sent a path; now the film is changed and another one is new. -/
def filmStoredAndSent : Manager := { filmStored with hooks := [["__all__/HASH0/Old"]] }

/-- The path of the first pass is in a flush of its own; the task of the second one gets the permit
    first. -/
def flushPerPass : List Event :=
  [.send ["__all__/HASH0/Old"], .recv, .tick 500, .flush "echo %s" ["__all__/HASH0/Old"],
    .send ["__all__/HASH2/Next", "__all__/HASH/Film"], .recv, .tick 600,
    .flush "echo %s" ["__all__/HASH/Film", "__all__/HASH2/Next"],
    .acquire 1, .launch 1, .exit 1, .launch 1, .exit 1, .release 1,
    .acquire 0, .launch 0, .exit 0, .release 0]

theorem hook_hears_film : ∃ w : Worker, run Worker.step .spawn flushPerPass = some w ∧
    w.tasks.length = 2 ∧ ∀ key ∈ ["HASH/Film", "HASH2/Next"], ∃ (i : Nat) (t : HookTask),
      w.tasks[i]? = some t ∧ pathOf key ∈ t.pathsToTrigger ∧
        t.commands.flatMap (call i) <:+: w.shells := by
  obtain ⟨w, hrun, hw⟩ : ∃ w, run Worker.step .spawn flushPerPass = some w ∧
      ((w.sent, w.receiver), w.flushDeadline, w.tasks.map (·.phase)) =
        (([["__all__/HASH0/Old"], ["__all__/HASH2/Next", "__all__/HASH/Film"]], []),
          none, [.done, .done]) :=
    Option.map_eq_some_iff.mp (by decide)
  obtain ⟨hsent, hrest⟩ := Prod.mk.inj hw
  obtain ⟨hsent, hreceiver⟩ := Prod.mk.inj hsent
  obtain ⟨htimer, htasks⟩ := Prod.mk.inj hrest
  have hdone : ∀ t ∈ w.tasks, t.phase = .done := fun t ht => by
    have hmem := List.mem_map_of_mem (f := fun t : HookTask => t.phase) ht
    rw [htasks] at hmem
    simpa using hmem
  have hlength := congrArg List.length htasks
  rw [List.length_map] at hlength
  have hhooks : ((runOnce keepErrored).eval performAlone filmStoredAndSent
      fun _ => answering filmTwiceAndNext true).2.1.hooks =
        [["__all__/HASH0/Old"], ["__all__/HASH2/Next", "__all__/HASH/Film"]] := by decide
  have hears : ∀ key, isWritten ((freshMap (usable filmTwiceAndNext)).lookup key)
      (filmStoredAndSent.torrents.lookup key) = true → ∃ (i : Nat) (t : HookTask),
        w.tasks[i]? = some t ∧ pathOf key ∈ t.pathsToTrigger ∧
          t.commands.flatMap (call i) <:+: w.shells := fun key hkey =>
    @hook_hears keepErrored filmStoredAndSent (fun _ => answering filmTwiceAndNext true)
      filmTwiceAndNext rfl (by decide) flushPerPass w hrun (hsent.trans hhooks.symm)
      ⟨hreceiver, htimer, hdone⟩ key hkey
  refine ⟨w, hrun, hlength, fun key hkey => ?_⟩
  rcases List.mem_cons.mp hkey with rfl | hkey
  · exact hears _ (by decide)
  · obtain rfl := List.mem_singleton.mp hkey
    exact hears _ (by decide)

end RdRs.Torrent.Debounce
