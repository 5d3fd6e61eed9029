/-
  `fuse/fs.rs` (`open`, `release`, `interrupt`, `read`), `fuse/open_file.rs`,
  `fuse/read_cancel_bridge.rs` — file handles, and how a read is told to stop.

  An open file has a token that `release` cancels.  A read has a token of its own, registered under
  the number of its request for `interrupt` to find, and a task that passes a cancellation of the
  handle's token on to it.  Requests are handled at the same time; between two actions of one, others
  run.

  * `handles_distinct` — in any state two files that were opened have different handles, also when one
    has been released.
  * `stopped_iff` — once nothing is half done, a read is cancelled exactly when an `interrupt` has
    found its own registration or the handle it reads from has been released; no read is stopped for
    another (`stopped_only_by_own`, in any state).
  * `nothing_left` — when all requests are done, nothing is registered, and the files that are open
    are the ones opened and not released.
-/
import RdRs.Lib.Runs
import RdRs.Fuse.TorrentDir

set_option linter.unusedVariables false

namespace RdRs.Fuse.Handles

open RdRs.Runs RdRs.Fuse

/-! ## State -/

/-- A `CancellationToken`, known by the request that makes it. -/
inductive Token where
  /-- `OpenFileState::cancel` -/
  | handle (unique : Nat)
  /-- `FuseReadCancelRegistration::token` -/
  | read (unique : Nat)
  /-- `unwrap_or_default()`, where the handle is not known -/
  | unlinked (unique : Nat)
deriving Repr, DecidableEq

/-- The part of `RdFs` that requests for open files use, with the tokens cancelled so far. -/
structure Mount where
  nextFh : Nat
  openFiles : AList (fun _ : Nat => Token)
  /-- `pending_fuse_reads` -/
  pending : AList (fun _ : Nat => Token)
  cancelled : List Token

/-- `RdFs::new`: handles are numbered from 1. -/
def Mount.new : Mount := ⟨1, ∅, ∅, []⟩

/-- How far a request is. -/
inductive Phase where
  | open_ (inode flags : Nat)
  /-- a number is taken, `open_files.insert` comes next -/
  | inserting (inode fh : Nat)
  | opened (inode fh : Nat)
  /-- `EACCES` -/
  | denied
  | release (fh : Nat)
  /-- the file is taken out of the map, `st.cancel()` comes next -/
  | closing (fh : Nat) (token : Token)
  | released (fh : Nat) (token : Option Token)
  | interrupt (unique : Nat)
  /-- the token is taken out of the map, `t.cancel()` comes next -/
  | stopping (unique : Nat) (token : Token)
  | interrupted (unique : Nat) (token : Option Token)
  | read (fh : Nat)
  /-- the handle's token is known, `pending.insert` comes next -/
  | registering (fh : Nat) (fhToken : Token)
  /-- with whether `fh_link` has passed the cancellation on -/
  | reading (fh : Nat) (fhToken : Token) (fired : Bool)
  /-- `fh_link.abort()` is done, `pending.remove` comes next -/
  | dropping (fh : Nat) (fhToken : Token) (fired : Bool)
  | replied (fh : Nat) (fhToken : Token) (fired : Bool)
deriving Repr, DecidableEq

/-- A request by its number. -/
structure FuseRequest where
  unique : Nat
  phase : Phase
deriving Repr, DecidableEq

/-- `O_WRONLY | O_RDWR` -/
def writeFlags : Nat := 1 ||| 2

inductive Act where
  /-- the request goes on -/
  | go
  /-- its `fh_link` cancels the token of the read -/
  | link
deriving Repr, DecidableEq

/-- A request goes on by one action. -/
def go (g : Mount) (u : Nat) : Phase → Option (Mount × Phase)
  | .open_ inode flags =>
    if flags &&& writeFlags ≠ 0 then some (g, .denied)
    else if inodeFileBase ≤ inode then some ({ g with nextFh := g.nextFh + 1 }, .inserting inode g.nextFh)
    else some (g, .opened inode 0)
  | .inserting inode fh =>
    some ({ g with openFiles := g.openFiles.insert fh (.handle u) }, .opened inode fh)
  | .release fh =>
    match g.openFiles.lookup fh with
    | some token => some ({ g with openFiles := g.openFiles.erase fh }, .closing fh token)
    | none => some (g, .released fh none)
  | .closing fh token =>
    some ({ g with cancelled := token :: g.cancelled }, .released fh (some token))
  | .interrupt unique =>
    match g.pending.lookup unique with
    | some token => some ({ g with pending := g.pending.erase unique }, .stopping unique token)
    | none => some (g, .interrupted unique none)
  | .stopping unique token =>
    some ({ g with cancelled := token :: g.cancelled }, .interrupted unique (some token))
  | .read fh => some (g, .registering fh ((g.openFiles.lookup fh).getD (.unlinked u)))
  | .registering fh fhToken =>
    some ({ g with pending := g.pending.insert u (.read u) }, .reading fh fhToken false)
  | .reading fh fhToken fired => some (g, .dropping fh fhToken fired)
  | .dropping fh fhToken fired =>
    some ({ g with pending := g.pending.erase u }, .replied fh fhToken fired)
  | _ => none

/-- The link of a read, once the token of the handle is cancelled.  `abort` stops a link that waits;
    one that is at it when the read ends still passes the cancellation on. -/
def link (g : Mount) (u : Nat) : Phase → Option (Mount × Phase)
  | .reading fh fhToken false =>
    if fhToken ∈ g.cancelled then
      some ({ g with cancelled := .read u :: g.cancelled }, .reading fh fhToken true)
    else none
  | .dropping fh fhToken false =>
    if fhToken ∈ g.cancelled then
      some ({ g with cancelled := .read u :: g.cancelled }, .dropping fh fhToken true)
    else none
  | .replied fh fhToken false =>
    if fhToken ∈ g.cancelled then
      some ({ g with cancelled := .read u :: g.cancelled }, .replied fh fhToken true)
    else none
  | _ => none

/-- An action of a request. -/
def act (g : Mount) (l : FuseRequest) : Act → Option (Mount × FuseRequest)
  | .go => (go g l.unique l.phase).map fun r => (r.1, ⟨l.unique, r.2⟩)
  | .link => (link g l.unique l.phase).map fun r => (r.1, ⟨l.unique, r.2⟩)

/-- Requests that have not begun. -/
def Phase.fresh : Phase → Bool
  | .open_ _ _ => true
  | .release _ => true
  | .interrupt _ => true
  | .read _ => true
  | _ => false

/-- Requests come to a new mount, each with a number of its own. -/
structure Comes (requests : List FuseRequest) : Prop where
  fresh : ∀ l ∈ requests, l.phase.fresh = true
  distinct : (requests.map (·.unique)).Nodup

/-- The mount after actions of these requests, in any order. -/
def Reaches (requests : List FuseRequest) (es : List (Nat × Act)) (p : Pool Mount FuseRequest) : Prop :=
  run (Pool.step act) ⟨.new, requests⟩ es = some p

/-! ## What an action does -/

/-- **What a request can do**: the mount and the phase before, and after. -/
inductive Does (u : Nat) : Mount → Phase → Mount → Phase → Prop where
  | deny (g inode flags) : Does u g (.open_ inode flags) g .denied
  | stateless (g inode flags) (h : ¬inodeFileBase ≤ inode) :
      Does u g (.open_ inode flags) g (.opened inode 0)
  | number (g inode flags) (h : inodeFileBase ≤ inode) : Does u g (.open_ inode flags)
      { g with nextFh := g.nextFh + 1 } (.inserting inode g.nextFh)
  | insert (g inode fh) : Does u g (.inserting inode fh)
      { g with openFiles := g.openFiles.insert fh (.handle u) } (.opened inode fh)
  | unknown (g fh) (h : g.openFiles.lookup fh = none) : Does u g (.release fh) g (.released fh none)
  | takeOut (g fh token) (h : g.openFiles.lookup fh = some token) :
      Does u g (.release fh) { g with openFiles := g.openFiles.erase fh } (.closing fh token)
  | cancelHandle (g fh token) : Does u g (.closing fh token)
      { g with cancelled := token :: g.cancelled } (.released fh (some token))
  | missed (g unique) (h : g.pending.lookup unique = none) :
      Does u g (.interrupt unique) g (.interrupted unique none)
  | found (g unique token) (h : g.pending.lookup unique = some token) :
      Does u g (.interrupt unique) { g with pending := g.pending.erase unique } (.stopping unique token)
  | cancelRead (g unique token) : Does u g (.stopping unique token)
      { g with cancelled := token :: g.cancelled } (.interrupted unique (some token))
  | look (g fh) : Does u g (.read fh) g (.registering fh ((g.openFiles.lookup fh).getD (.unlinked u)))
  | register (g fh fhToken) : Does u g (.registering fh fhToken)
      { g with pending := g.pending.insert u (.read u) } (.reading fh fhToken false)
  | finish (g fh fhToken fired) : Does u g (.reading fh fhToken fired) g (.dropping fh fhToken fired)
  | unregister (g fh fhToken fired) : Does u g (.dropping fh fhToken fired)
      { g with pending := g.pending.erase u } (.replied fh fhToken fired)
  | linkReading (g fh fhToken) (h : fhToken ∈ g.cancelled) : Does u g (.reading fh fhToken false)
      { g with cancelled := .read u :: g.cancelled } (.reading fh fhToken true)
  | linkDropping (g fh fhToken) (h : fhToken ∈ g.cancelled) : Does u g (.dropping fh fhToken false)
      { g with cancelled := .read u :: g.cancelled } (.dropping fh fhToken true)
  | linkReplied (g fh fhToken) (h : fhToken ∈ g.cancelled) : Does u g (.replied fh fhToken false)
      { g with cancelled := .read u :: g.cancelled } (.replied fh fhToken true)

theorem go_does {g g' : Mount} {u : Nat} {ph ph' : Phase} (h : go g u ph = some (g', ph')) :
    Does u g ph g' ph' := by
  cases ph with
  | open_ inode flags =>
    rw [go] at h
    split at h
    · cases h
      exact .deny g inode flags
    split at h
    · cases h
      exact .number g inode flags ‹_›
    · cases h
      exact .stateless g inode flags ‹_›
  | release fh =>
    rw [go] at h
    split at h
    · rename_i token htoken
      cases h
      exact .takeOut g fh token htoken
    · rename_i hnone
      cases h
      exact .unknown g fh hnone
  | interrupt unique =>
    rw [go] at h
    split at h
    · rename_i token htoken
      cases h
      exact .found g unique token htoken
    · rename_i hnone
      cases h
      exact .missed g unique hnone
  | inserting inode fh => cases h; exact .insert g inode fh
  | closing fh token => cases h; exact .cancelHandle g fh token
  | stopping unique token => cases h; exact .cancelRead g unique token
  | read fh => cases h; exact .look g fh
  | registering fh fhToken => cases h; exact .register g fh fhToken
  | reading fh fhToken fired => cases h; exact .finish g fh fhToken fired
  | dropping fh fhToken fired => cases h; exact .unregister g fh fhToken fired
  | opened inode fh => cases h
  | denied => cases h
  | released fh token => cases h
  | interrupted unique token => cases h
  | replied fh fhToken fired => cases h

theorem link_does {g g' : Mount} {u : Nat} {ph ph' : Phase} (h : link g u ph = some (g', ph')) :
    Does u g ph g' ph' := by
  unfold link at h
  split at h
  · split at h
    · cases h
      exact .linkReading g _ _ ‹_›
    · cases h
  · split at h
    · cases h
      exact .linkDropping g _ _ ‹_›
    · cases h
  · split at h
    · cases h
      exact .linkReplied g _ _ ‹_›
    · cases h
  · cases h

theorem act_does {g g' : Mount} {l l' : FuseRequest} {a : Act} (h : act g l a = some (g', l')) :
    l'.unique = l.unique ∧ Does l.unique g l.phase g' l'.phase := by
  cases a with
  | go =>
    obtain ⟨r, hr, hr'⟩ := Option.map_eq_some_iff.mp h
    cases hr'
    exact ⟨rfl, go_does hr⟩
  | link =>
    obtain ⟨r, hr, hr'⟩ := Option.map_eq_some_iff.mp h
    cases hr'
    exact ⟨rfl, link_does hr⟩

/-- One task has moved. -/
structure Moves (p q : Pool Mount FuseRequest) (u : Nat) (ph ph' : Phase) : Prop where
  before : ⟨u, ph⟩ ∈ p.tasks
  after : ⟨u, ph'⟩ ∈ q.tasks
  does : Does u p.shared ph q.shared ph'
  new : ∀ k ∈ q.tasks, k = ⟨u, ph'⟩ ∨ k ∈ p.tasks
  kept : ∀ k ∈ p.tasks, k = ⟨u, ph⟩ ∨ k ∈ q.tasks
  uniques : q.tasks.map (·.unique) = p.tasks.map (·.unique)

theorem step_moves {p q : Pool Mount FuseRequest} {e : Nat × Act} (h : Pool.step act p e = some q) :
    ∃ u ph ph', Moves p q u ph ph' := by
  obtain ⟨l, g', l', hl, hact, rfl⟩ := Pool.step_eq_some h
  obtain ⟨k, k', hk, hact', hafter, hnew, hkept, -⟩ := Pool.frame h
  obtain rfl := Option.some.inj (hl.symm.trans hk)
  obtain ⟨-, rfl⟩ := Prod.mk.inj (Option.some.inj (hact.symm.trans hact'))
  obtain ⟨hu, hdoes⟩ := act_does hact
  obtain ⟨u, ph⟩ := l
  obtain ⟨u', ph'⟩ := l'
  obtain rfl : u' = u := hu
  refine ⟨u', ph, ph', List.mem_of_getElem? hl, hafter, hdoes, hnew, hkept, ?_⟩
  obtain ⟨hlt, hget⟩ := List.getElem?_eq_some_iff.mp hl
  have hlt' : e.1 < (p.tasks.map (·.unique)).length := by rw [List.length_map]; exact hlt
  have hsame : (p.tasks.map (·.unique))[e.1] = u' := by
    rw [List.getElem_map, hget]
  rw [List.map_set]
  conv_lhs => rw [← hsame]
  exact List.set_getElem_self _

/-! ## Handles -/

section

variable {p q : Pool Mount FuseRequest} {u : Nat} {ph ph' : Phase}

/-- The handle a request has taken for a file. -/
def Phase.number : Phase → Option Nat
  | .inserting inode fh => some fh
  | .opened inode fh => if inodeFileBase ≤ inode then some fh else none
  | _ => none

/-- A file is opened under the handle `fh`, by the request `v`. -/
def Opened (p : Pool Mount FuseRequest) (fh v : Nat) : Prop :=
  ∃ inode, inodeFileBase ≤ inode ∧ ⟨v, .opened inode fh⟩ ∈ p.tasks

/-- A handle is taken out of the map: its release is done, or about to cancel its token. -/
def TakenOut (p : Pool Mount FuseRequest) (fh : Nat) (token : Token) : Prop :=
  ∃ r, ⟨r, .closing fh token⟩ ∈ p.tasks ∨ ⟨r, .released fh (some token)⟩ ∈ p.tasks

/-- The release of a handle is done. -/
def Released (p : Pool Mount FuseRequest) (fh : Nat) (token : Token) : Prop :=
  ∃ r, ⟨r, .released fh (some token)⟩ ∈ p.tasks

/-- **Handles**: numbered once each, and open until they are taken out. -/
structure HandlesOk (p : Pool Mount FuseRequest) : Prop where
  distinct : (p.tasks.map (·.unique)).Nodup
  start : 0 < p.shared.nextFh
  below : ∀ k ∈ p.tasks, ∀ fh, k.phase.number = some fh → 0 < fh ∧ fh < p.shared.nextFh
  numbers : ∀ k ∈ p.tasks, ∀ l ∈ p.tasks, ∀ fh, k.phase.number = some fh → l.phase.number = some fh →
    k = l
  inserting : ∀ v inode fh, ⟨v, .inserting inode fh⟩ ∈ p.tasks →
    inodeFileBase ≤ inode ∧ p.shared.openFiles.lookup fh = none
  openFiles : ∀ fh token, p.shared.openFiles.lookup fh = some token →
    ∃ v, token = .handle v ∧ Opened p fh v
  opened : ∀ fh v, Opened p fh v →
    p.shared.openFiles.lookup fh = some (.handle v) ∨ TakenOut p fh (.handle v)
  takenOut : ∀ fh token, TakenOut p fh token →
    (∃ v, token = .handle v ∧ Opened p fh v) ∧ p.shared.openFiles.lookup fh = none

/-- Requests are told apart by their numbers. -/
theorem task_unique (hd : (p.tasks.map (·.unique)).Nodup) {k l : FuseRequest} (hk : k ∈ p.tasks)
    (hl : l ∈ p.tasks) (h : k.unique = l.unique) : k = l :=
  List.inj_on_of_nodup_map hd hk hl h

/-- A request that has been answered takes no action. -/
theorem does_of_final {g g' : Mount} (h : Does u g ph g' ph') :
    (∀ inode fh, ph ≠ .opened inode fh) ∧ (∀ fh token, ph ≠ .released fh token) ∧
      ∀ v token, ph ≠ .interrupted v token := by
  cases h
  all_goals exact ⟨nofun, nofun, nofun⟩

theorem Moves.opened (hm : Moves p q u ph ph') {fh v : Nat} (h : Opened p fh v) : Opened q fh v := by
  obtain ⟨inode, hinode, hk⟩ := h
  refine ⟨inode, hinode, (hm.kept _ hk).resolve_left fun heq => ?_⟩
  exact (does_of_final hm.does).1 inode fh (congrArg FuseRequest.phase heq).symm

theorem Moves.released (hm : Moves p q u ph ph') {fh : Nat} {token : Token} (h : Released p fh token) :
    Released q fh token := by
  obtain ⟨r, hk⟩ := h
  refine ⟨r, (hm.kept _ hk).resolve_left fun heq => ?_⟩
  exact (does_of_final hm.does).2.1 fh _ (congrArg FuseRequest.phase heq).symm

/-- What becomes of a handle about to be cancelled. -/
theorem does_closing {g g' : Mount} {fh : Nat} {token : Token} (h : Does u g (.closing fh token) g' ph') :
    ph' = .released fh (some token) ∧ g' = { g with cancelled := token :: g.cancelled } := by
  cases h
  exact ⟨rfl, rfl⟩

theorem Moves.takenOut (hm : Moves p q u ph ph') {fh : Nat} {token : Token} (h : TakenOut p fh token) :
    TakenOut q fh token := by
  obtain ⟨r, hk | hk⟩ := h
  · rcases hm.kept _ hk with heq | hk
    · obtain ⟨rfl, rfl⟩ := FuseRequest.mk.inj heq
      exact ⟨r, Or.inr ((does_closing hm.does).1 ▸ hm.after)⟩
    · exact ⟨r, Or.inl hk⟩
  · obtain ⟨r', hr'⟩ := hm.released ⟨r, hk⟩
    exact ⟨r', Or.inr hr'⟩

/-- The number of a request: the one it had, or the next one. -/
theorem does_number {g g' : Mount} {fh : Nat} (h : Does u g ph g' ph') (hn : ph'.number = some fh)
    (hins : ∀ inode fh, ph = .inserting inode fh → inodeFileBase ≤ inode) :
    (ph.number = some fh ∧ g'.nextFh = g.nextFh) ∨ (fh = g.nextFh ∧ g'.nextFh = g.nextFh + 1) := by
  cases h with
  | number inode flags hinode => exact Or.inr ⟨(Option.some.inj hn).symm, rfl⟩
  | insert inode fh' =>
    rw [Phase.number, if_pos (hins inode fh' rfl)] at hn
    exact Or.inl ⟨hn, rfl⟩
  | stateless inode flags hinode =>
    rw [Phase.number, if_neg hinode] at hn
    cases hn
  | _ => cases hn

theorem does_nextFh {g g' : Mount} (h : Does u g ph g' ph') : g.nextFh ≤ g'.nextFh := by
  cases h with
  | number => exact Nat.le_succ _
  | _ => exact le_refl _

/-- What happens to the map of open files. -/
theorem does_openFiles {g g' : Mount} (h : Does u g ph g' ph') : g'.openFiles = g.openFiles ∨
    (∃ inode fh, ph = .inserting inode fh ∧ ph' = .opened inode fh ∧
      g'.openFiles = g.openFiles.insert fh (.handle u)) ∨
    ∃ fh token, ph = .release fh ∧ ph' = .closing fh token ∧ g.openFiles.lookup fh = some token ∧
      g'.openFiles = g.openFiles.erase fh := by
  cases h with
  | insert inode fh => exact Or.inr (Or.inl ⟨inode, fh, rfl, rfl, rfl⟩)
  | takeOut fh token htoken => exact Or.inr (Or.inr ⟨fh, token, rfl, rfl, htoken, rfl⟩)
  | _ => exact Or.inl rfl

/-- The numbers of requests stay what they are; a new one is the next. -/
theorem Moves.number (hm : Moves p q u ph ph') (hp : HandlesOk p) {k : FuseRequest} {fh : Nat}
    (hk : k ∈ q.tasks) (hn : k.phase.number = some fh) :
    (∃ l ∈ p.tasks, l.unique = k.unique ∧ l.phase.number = some fh) ∨
      (k = ⟨u, ph'⟩ ∧ fh = p.shared.nextFh ∧ q.shared.nextFh = p.shared.nextFh + 1) := by
  rcases hm.new k hk with rfl | hk
  · have hins : ∀ inode fh, ph = .inserting inode fh → inodeFileBase ≤ inode :=
      fun inode fh heq => (hp.inserting u inode fh (heq ▸ hm.before)).1
    rcases does_number hm.does hn hins with ⟨hold, -⟩ | hnew
    · exact Or.inl ⟨⟨u, ph⟩, hm.before, rfl, hold⟩
    · exact Or.inr ⟨rfl, hnew⟩
  · exact Or.inl ⟨k, hk, rfl, hn⟩

/-- An insertion ends with the handle open. -/
theorem Moves.inserted (hm : Moves p q u ph ph') (hp : HandlesOk p) {inode fh : Nat}
    (hph : ph = .inserting inode fh) (hph' : ph' = .opened inode fh) : Opened q fh u :=
  ⟨inode, (hp.inserting u inode fh (hph ▸ hm.before)).1, hph' ▸ hm.after⟩

/-- What is taken out is taken out now, or was before. -/
theorem Moves.takenOut_inv (hm : Moves p q u ph ph') {fh : Nat} {token : Token}
    (h : TakenOut q fh token) : TakenOut p fh token ∨
      (ph = .release fh ∧ p.shared.openFiles.lookup fh = some token ∧
        q.shared.openFiles = p.shared.openFiles.erase fh) := by
  obtain ⟨r, hr⟩ := h
  have hcase : ∀ k : FuseRequest, k ∈ q.tasks →
      (k.phase = .closing fh token ∨ k.phase = .released fh (some token)) →
      TakenOut p fh token ∨ (ph = .release fh ∧ p.shared.openFiles.lookup fh = some token ∧
        q.shared.openFiles = p.shared.openFiles.erase fh) := by
    intro k hk hphase
    rcases hm.new k hk with rfl | hk
    · have hdoes := hm.does
      have hbefore := hm.before
      generalize hgq : q.shared = gq at hdoes
      dsimp only at hphase
      cases hdoes with
      | takeOut fh' token' htoken =>
        rcases hphase with hphase | hphase
        · cases hphase
          exact Or.inr ⟨rfl, htoken, rfl⟩
        · cases hphase
      | cancelHandle fh' token' =>
        rcases hphase with hphase | hphase
        · cases hphase
        · cases hphase
          exact Or.inl ⟨u, Or.inl hbefore⟩
      | _ => rcases hphase with hphase | hphase <;> cases hphase
    · obtain ⟨v, phase⟩ := k
      dsimp only at hphase
      rcases hphase with rfl | rfl
      · exact Or.inl ⟨v, Or.inl hk⟩
      · exact Or.inl ⟨v, Or.inr hk⟩
  rcases hr with hr | hr
  · exact hcase _ hr (Or.inl rfl)
  · exact hcase _ hr (Or.inr rfl)

/-- The handle of an open file is not given to another. -/
theorem HandlesOk.not_inserting (hp : HandlesOk p) {fh v w inode : Nat} (h : Opened p fh v) :
    ⟨w, .inserting inode fh⟩ ∉ p.tasks := by
  intro hk
  obtain ⟨inode', hinode', hk'⟩ := h
  have heq := hp.numbers _ hk _ hk' fh rfl (if_pos hinode')
  exact absurd (congrArg FuseRequest.phase heq) nofun

/-- A handle that is not in the map stays out of it, unless it is inserted now. -/
theorem Moves.lookup_none (hm : Moves p q u ph ph') {fh : Nat}
    (h : p.shared.openFiles.lookup fh = none) (hins : ∀ inode, ph ≠ .inserting inode fh) :
    q.shared.openFiles.lookup fh = none := by
  rcases does_openFiles hm.does with hsame | ⟨inode, fh', hph, -, hinsert⟩ |
      ⟨fh', token', -, -, -, herase⟩
  · rw [hsame]
    exact h
  · have hne : fh ≠ fh' := fun heq => hins inode (heq ▸ hph)
    rw [hinsert, AList.lookup_insert_ne hne]
    exact h
  · by_cases hfh : fh = fh'
    · rw [herase, hfh]
      exact AList.lookup_erase _ _
    · rw [herase, AList.lookup_erase_ne hfh]
      exact h

theorem HandlesOk.below_step (hm : Moves p q u ph ph') (hp : HandlesOk p) {k : FuseRequest} {fh : Nat}
    (hk : k ∈ q.tasks) (hn : k.phase.number = some fh) : 0 < fh ∧ fh < q.shared.nextFh := by
  rcases hm.number hp hk hn with ⟨l, hl, -, hln⟩ | ⟨-, rfl, hsucc⟩
  · obtain ⟨hpos, hlt⟩ := hp.below l hl fh hln
    exact ⟨hpos, lt_of_lt_of_le hlt (does_nextFh hm.does)⟩
  · have := hp.start
    omega

theorem HandlesOk.numbers_step (hm : Moves p q u ph ph') (hp : HandlesOk p) {k l : FuseRequest}
    {fh : Nat} (hk : k ∈ q.tasks) (hl : l ∈ q.tasks) (hkn : k.phase.number = some fh)
    (hln : l.phase.number = some fh) : k = l := by
  rcases hm.number hp hk hkn with ⟨k', hk', hku, hk'n⟩ | ⟨rfl, hfh, -⟩
  · rcases hm.number hp hl hln with ⟨l', hl', hlu, hl'n⟩ | ⟨rfl, hfh, -⟩
    · have heq := hp.numbers k' hk' l' hl' fh hk'n hl'n
      exact task_unique (hm.uniques ▸ hp.distinct) hk hl (by rw [← hku, ← hlu, heq])
    · have := (hp.below k' hk' fh hk'n).2
      omega
  · rcases hm.number hp hl hln with ⟨l', hl', -, hl'n⟩ | ⟨rfl, -, -⟩
    · have := (hp.below l' hl' fh hl'n).2
      omega
    · rfl

theorem HandlesOk.openFiles_step (hm : Moves p q u ph ph') (hp : HandlesOk p) {fh : Nat}
    {token : Token} (h : q.shared.openFiles.lookup fh = some token) :
    ∃ v, token = .handle v ∧ Opened q fh v := by
  have hold : p.shared.openFiles.lookup fh = some token → ∃ v, token = .handle v ∧ Opened q fh v := by
    intro h
    obtain ⟨v, hv, hopened⟩ := hp.openFiles fh token h
    exact ⟨v, hv, hm.opened hopened⟩
  rcases does_openFiles hm.does with hsame | ⟨inode, fh', hph, hph', hins⟩ |
      ⟨fh', token', -, -, -, herase⟩
  · exact hold (hsame ▸ h)
  · by_cases hfh : fh = fh'
    · rw [hins, hfh, AList.lookup_insert, Option.some.injEq] at h
      exact ⟨u, h.symm, hfh ▸ hm.inserted hp hph hph'⟩
    · rw [hins, AList.lookup_insert_ne hfh] at h
      exact hold h
  · by_cases hfh : fh = fh'
    · rw [herase, hfh, AList.lookup_erase] at h
      cases h
    · rw [herase, AList.lookup_erase_ne hfh] at h
      exact hold h

/-- A number is not in the map before it is inserted. -/
theorem HandlesOk.inserting_step (hm : Moves p q u ph ph') (hp : HandlesOk p) {v inode fh : Nat}
    (hk : ⟨v, .inserting inode fh⟩ ∈ q.tasks) :
    inodeFileBase ≤ inode ∧ q.shared.openFiles.lookup fh = none := by
  have hdoes := hm.does
  generalize hgq : q.shared = gq at hdoes
  rcases hm.new _ hk with heq | hkp
  · obtain ⟨rfl, rfl⟩ := FuseRequest.mk.inj heq
    cases hdoes with
    | number inode flags hinode =>
      refine ⟨hinode, ?_⟩
      cases hlook : p.shared.openFiles.lookup p.shared.nextFh with
      | none => rfl
      | some token =>
        obtain ⟨w, -, inode', hinode', hw⟩ := hp.openFiles _ _ hlook
        have := (hp.below _ hw _ (if_pos hinode')).2
        omega
  · obtain ⟨hinode, hnone⟩ := hp.inserting v inode fh hkp
    refine ⟨hinode, hgq ▸ hm.lookup_none hnone fun inode' hph => ?_⟩
    -- it would be the request itself, which has gone on
    have hsame := hp.numbers _ hkp _ hm.before fh rfl (by rw [hph]; rfl)
    obtain ⟨rfl, hphase⟩ := FuseRequest.mk.inj hsame
    have hafter := task_unique (hm.uniques ▸ hp.distinct) hk hm.after rfl
    rw [hph, ← (FuseRequest.mk.inj hafter).2] at hdoes
    cases hdoes

/-- A file that was opened is open under its handle until it is taken out. -/
theorem HandlesOk.opened_step (hm : Moves p q u ph ph') (hp : HandlesOk p) {fh v : Nat}
    (h : Opened q fh v) :
    q.shared.openFiles.lookup fh = some (.handle v) ∨ TakenOut q fh (.handle v) := by
  obtain ⟨inode, hinode, hk⟩ := h
  rcases hm.new _ hk with heq | hkp
  · obtain ⟨rfl, rfl⟩ := FuseRequest.mk.inj heq
    have hdoes := hm.does
    generalize hgq : q.shared = gq at hdoes
    cases hdoes with
    | stateless inode flags hinode' => exact absurd hinode hinode'
    | insert inode fh => exact Or.inl (AList.lookup_insert _)
  rcases hp.opened fh v ⟨inode, hinode, hkp⟩ with hlook | htaken
  · rcases does_openFiles hm.does with hsame | ⟨inode', fh', hph, -, hins⟩ |
        ⟨fh', token, hph, hph', htoken, herase⟩
    · exact Or.inl (hsame ▸ hlook)
    · refine Or.inl ?_
      have hne : fh ≠ fh' := by
        rintro rfl
        rw [(hp.inserting u inode' fh (hph ▸ hm.before)).2] at hlook
        cases hlook
      rw [hins, AList.lookup_insert_ne hne]
      exact hlook
    · by_cases hfh : fh = fh'
      · obtain rfl := Option.some.inj (hlook.symm.trans (hfh ▸ htoken))
        exact Or.inr ⟨u, Or.inl (hfh ▸ hph' ▸ hm.after)⟩
      · rw [herase, AList.lookup_erase_ne hfh]
        exact Or.inl hlook
  · exact Or.inr (hm.takenOut htaken)

theorem HandlesOk.takenOut_step (hm : Moves p q u ph ph') (hp : HandlesOk p) {fh : Nat} {token : Token}
    (h : TakenOut q fh token) :
    (∃ v, token = .handle v ∧ Opened q fh v) ∧ q.shared.openFiles.lookup fh = none := by
  rcases hm.takenOut_inv h with h | ⟨-, hlook, herase⟩
  · obtain ⟨⟨v, hv, hop⟩, hnone⟩ := hp.takenOut fh token h
    refine ⟨⟨v, hv, hm.opened hop⟩, hm.lookup_none hnone fun inode hph => ?_⟩
    exact hp.not_inserting hop (hph ▸ hm.before)
  · obtain ⟨v, hv, hop⟩ := hp.openFiles fh token hlook
    refine ⟨⟨v, hv, hm.opened hop⟩, ?_⟩
    rw [herase]
    exact AList.lookup_erase _ _

theorem HandlesOk.step (hm : Moves p q u ph ph') (hp : HandlesOk p) : HandlesOk q where
  distinct := hm.uniques ▸ hp.distinct
  start := lt_of_lt_of_le hp.start (does_nextFh hm.does)
  below := fun k hk fh hn => hp.below_step hm hk hn
  numbers := fun k hk l hl fh hkn hln => hp.numbers_step hm hk hl hkn hln
  inserting := fun v inode fh hk => hp.inserting_step hm hk
  openFiles := fun fh token h => hp.openFiles_step hm h
  opened := fun fh v h => hp.opened_step hm h
  takenOut := fun fh token h => hp.takenOut_step hm h

end

/-! ## Reads -/

section

variable {p q : Pool Mount FuseRequest} {u : Nat} {ph ph' : Phase}

/-- Of a read: its handle, the token it has for it, and whether its link has fired. -/
def Phase.reader : Phase → Option (Nat × Token × Bool)
  | .registering fh token => some (fh, token, false)
  | .reading fh token fired => some (fh, token, fired)
  | .dropping fh token fired => some (fh, token, fired)
  | .replied fh token fired => some (fh, token, fired)
  | _ => none

/-- A read that is registered and has not been taken off the list by itself. -/
def Phase.inFlight : Phase → Bool
  | .reading _ _ _ => true
  | .dropping _ _ _ => true
  | _ => false

/-- An `interrupt` has found the registration of a read, and is done. -/
def Interrupted (p : Pool Mount FuseRequest) (u : Nat) : Prop :=
  ∃ r, ⟨r, .interrupted u (some (.read u))⟩ ∈ p.tasks

/-- The link of a read has fired. -/
def Linked (p : Pool Mount FuseRequest) (u : Nat) : Prop :=
  ∃ k ∈ p.tasks, k.unique = u ∧ ∃ fh token, k.phase.reader = some (fh, token, true)

/-- **Reads**: what is registered is in flight, and what is cancelled has a reason. -/
structure ReadsOk (p : Pool Mount FuseRequest) : Prop where
  pending : ∀ v token, p.shared.pending.lookup v = some token →
    token = .read v ∧ ∃ k ∈ p.tasks, k.unique = v ∧ k.phase.inFlight = true
  stopping : ∀ r v token, ⟨r, .stopping v token⟩ ∈ p.tasks → token = .read v
  interrupted : ∀ r v token, ⟨r, .interrupted v (some token)⟩ ∈ p.tasks →
    token = .read v ∧ token ∈ p.shared.cancelled
  released : ∀ fh token, Released p fh token → token ∈ p.shared.cancelled
  reader : ∀ k ∈ p.tasks, ∀ fh token fired, k.phase.reader = some (fh, token, fired) →
    (token = .unlinked k.unique ∨ ∃ v, token = .handle v ∧ Opened p fh v) ∧
      (fired = true → token ∈ p.shared.cancelled ∧ .read k.unique ∈ p.shared.cancelled)
  handles : ∀ v, .handle v ∈ p.shared.cancelled → ∃ fh, Released p fh (.handle v)
  reads : ∀ v, .read v ∈ p.shared.cancelled → Interrupted p v ∨ Linked p v
  unlinked : ∀ v, .unlinked v ∉ p.shared.cancelled

/-- What happens to the tokens. -/
theorem does_cancelled {g g' : Mount} (h : Does u g ph g' ph') : g'.cancelled = g.cancelled ∨
    (∃ fh token, ph = .closing fh token ∧ ph' = .released fh (some token) ∧
      g'.cancelled = token :: g.cancelled) ∨
    (∃ v token, ph = .stopping v token ∧ ph' = .interrupted v (some token) ∧
      g'.cancelled = token :: g.cancelled) ∨
    ∃ fh token, ph.reader = some (fh, token, false) ∧ ph'.reader = some (fh, token, true) ∧
      token ∈ g.cancelled ∧ g'.cancelled = .read u :: g.cancelled := by
  cases h with
  | cancelHandle fh token => exact Or.inr (Or.inl ⟨fh, token, rfl, rfl, rfl⟩)
  | cancelRead v token => exact Or.inr (Or.inr (Or.inl ⟨v, token, rfl, rfl, rfl⟩))
  | linkReading fh token h => exact Or.inr (Or.inr (Or.inr ⟨fh, token, rfl, rfl, h, rfl⟩))
  | linkDropping fh token h => exact Or.inr (Or.inr (Or.inr ⟨fh, token, rfl, rfl, h, rfl⟩))
  | linkReplied fh token h => exact Or.inr (Or.inr (Or.inr ⟨fh, token, rfl, rfl, h, rfl⟩))
  | _ => exact Or.inl rfl

/-- A token that is cancelled stays so. -/
theorem Moves.still (hm : Moves p q u ph ph') {token : Token} (h : token ∈ p.shared.cancelled) :
    token ∈ q.shared.cancelled := by
  rcases does_cancelled hm.does with hsame | ⟨fh, t, -, -, hcons⟩ | ⟨v, t, -, -, hcons⟩ |
      ⟨fh, t, -, -, -, hcons⟩
  · exact hsame ▸ h
  all_goals exact hcons ▸ List.mem_cons_of_mem _ h

/-- Where a read has its handle's token from. -/
theorem does_reader {g g' : Mount} {fh : Nat} {token : Token} {fired : Bool}
    (h : Does u g ph g' ph') (hr : ph'.reader = some (fh, token, fired)) :
    ph.reader = some (fh, token, fired) ∨
    (fired = false ∧ token = (g.openFiles.lookup fh).getD (.unlinked u)) ∨
    (ph.reader = some (fh, token, false) ∧ fired = true ∧ token ∈ g.cancelled ∧
      g'.cancelled = .read u :: g.cancelled) := by
  cases h with
  | look => cases hr; exact Or.inr (Or.inl ⟨rfl, rfl⟩)
  | register => exact Or.inl hr
  | finish => exact Or.inl hr
  | unregister => exact Or.inl hr
  | linkReading fh token h => cases hr; exact Or.inr (Or.inr ⟨rfl, rfl, h, rfl⟩)
  | linkDropping fh token h => cases hr; exact Or.inr (Or.inr ⟨rfl, rfl, h, rfl⟩)
  | linkReplied fh token h => cases hr; exact Or.inr (Or.inr ⟨rfl, rfl, h, rfl⟩)
  | _ => cases hr

/-- A link that has fired has fired. -/
theorem does_linked {g g' : Mount} {fh : Nat} {token : Token} (h : Does u g ph g' ph')
    (hr : ph.reader = some (fh, token, true)) : ph'.reader = some (fh, token, true) := by
  cases h with
  | register => exact hr
  | finish => exact hr
  | unregister => exact hr
  | linkReading fh token h => cases hr
  | linkDropping fh token h => cases hr
  | linkReplied fh token h => cases hr
  | _ => cases hr

/-- What happens to the list of reads. -/
theorem does_pending {g g' : Mount} (h : Does u g ph g' ph') :
    (g'.pending = g.pending ∧ (ph.inFlight = true → ph'.inFlight = true)) ∨
    (ph'.inFlight = true ∧ g'.pending = g.pending.insert u (.read u)) ∨
    (∃ v token, ph = .interrupt v ∧ ph' = .stopping v token ∧ g.pending.lookup v = some token ∧
      g'.pending = g.pending.erase v) ∨
    g'.pending = g.pending.erase u := by
  cases h with
  | register fh token => exact Or.inr (Or.inl ⟨rfl, rfl⟩)
  | found v token h => exact Or.inr (Or.inr (Or.inl ⟨v, token, rfl, rfl, h, rfl⟩))
  | unregister => exact Or.inr (Or.inr (Or.inr rfl))
  | finish => exact Or.inl ⟨rfl, fun _ => rfl⟩
  | linkReading => exact Or.inl ⟨rfl, fun _ => rfl⟩
  | linkDropping => exact Or.inl ⟨rfl, fun _ => rfl⟩
  | _ => exact Or.inl ⟨rfl, nofun⟩

theorem Moves.interrupted (hm : Moves p q u ph ph') {v : Nat} (h : Interrupted p v) :
    Interrupted q v := by
  obtain ⟨r, hk⟩ := h
  refine ⟨r, (hm.kept _ hk).resolve_left fun heq => ?_⟩
  exact (does_of_final hm.does).2.2 v _ (congrArg FuseRequest.phase heq).symm

theorem Moves.linked (hm : Moves p q u ph ph') {v : Nat} (h : Linked p v) : Linked q v := by
  obtain ⟨k, hk, rfl, fh, token, hr⟩ := h
  rcases hm.kept k hk with rfl | hkq
  · exact ⟨_, hm.after, rfl, fh, token, does_linked hm.does hr⟩
  · exact ⟨k, hkq, rfl, fh, token, hr⟩

/-- A read in flight that is not the one that moves is in flight still. -/
theorem Moves.inFlight (hm : Moves p q u ph ph') {v : Nat} (hne : v ≠ u)
    (h : ∃ k ∈ p.tasks, k.unique = v ∧ k.phase.inFlight = true) :
    ∃ k ∈ q.tasks, k.unique = v ∧ k.phase.inFlight = true := by
  obtain ⟨k, hk, rfl, hfl⟩ := h
  rcases hm.kept k hk with rfl | hkq
  · exact absurd rfl hne
  · exact ⟨k, hkq, rfl, hfl⟩

theorem ReadsOk.pending_step (hm : Moves p q u ph ph') (hh : HandlesOk p) (hp : ReadsOk p) {v : Nat}
    {token : Token} (h : q.shared.pending.lookup v = some token) :
    token = .read v ∧ ∃ k ∈ q.tasks, k.unique = v ∧ k.phase.inFlight = true := by
  -- a read that is listed still is in flight still, if the one that moves is
  have hold : p.shared.pending.lookup v = some token → (ph.inFlight = true → ph'.inFlight = true) →
      token = .read v ∧ ∃ k ∈ q.tasks, k.unique = v ∧ k.phase.inFlight = true := by
    intro hlook hkeep
    obtain ⟨htoken, k, hk, hkv, hfl⟩ := hp.pending v token hlook
    refine ⟨htoken, ?_⟩
    by_cases hvu : v = u
    · have hku := task_unique hh.distinct hk hm.before (hkv.trans hvu)
      rw [hku] at hfl
      exact ⟨_, hm.after, hvu.symm, hkeep hfl⟩
    · exact hm.inFlight hvu ⟨k, hk, hkv, hfl⟩
  rcases does_pending hm.does with ⟨hsame, hkeep⟩ | ⟨hfl, hins⟩ | ⟨w, t, hph, -, -, herase⟩ | herase
  · exact hold (hsame ▸ h) hkeep
  · by_cases hvu : v = u
    · rw [hins, hvu, AList.lookup_insert, Option.some.injEq] at h
      exact ⟨hvu ▸ h.symm, _, hm.after, hvu.symm, hfl⟩
    · rw [hins, AList.lookup_insert_ne hvu] at h
      obtain ⟨htoken, hk⟩ := hp.pending v token h
      exact ⟨htoken, hm.inFlight hvu hk⟩
  · by_cases hvw : v = w
    · rw [herase, hvw, AList.lookup_erase] at h
      cases h
    · rw [herase, AList.lookup_erase_ne hvw] at h
      exact hold h fun hfl => by rw [hph] at hfl; cases hfl
  · by_cases hvu : v = u
    · rw [herase, hvu, AList.lookup_erase] at h
      cases h
    · rw [herase, AList.lookup_erase_ne hvu] at h
      obtain ⟨htoken, hk⟩ := hp.pending v token h
      exact ⟨htoken, hm.inFlight hvu hk⟩

/-- What an `interrupt` is about to cancel, or has cancelled, is the token of the read it is for. -/
theorem ReadsOk.stopping_step (hm : Moves p q u ph ph') (hp : ReadsOk p) {r v : Nat} {token : Token} :
    (⟨r, .stopping v token⟩ ∈ q.tasks → token = .read v) ∧
    (⟨r, .interrupted v (some token)⟩ ∈ q.tasks → token = .read v ∧ token ∈ q.shared.cancelled) := by
  constructor
  · intro h
    rcases hm.new _ h with heq | h
    · obtain ⟨rfl, rfl⟩ := FuseRequest.mk.inj heq
      have hdoes := hm.does
      generalize q.shared = gq at hdoes
      cases hdoes with
      | found v token hlook => exact (hp.pending v token hlook).1
    · exact hp.stopping r v token h
  · intro h
    rcases hm.new _ h with heq | h
    · obtain ⟨rfl, rfl⟩ := FuseRequest.mk.inj heq
      have hbefore := hm.before
      have hdoes := hm.does
      generalize hgq : q.shared = gq at hdoes
      cases hdoes with
      | cancelRead v token => exact ⟨hp.stopping _ v token hbefore, List.mem_cons_self⟩
    · obtain ⟨htoken, hc⟩ := hp.interrupted r v token h
      exact ⟨htoken, hm.still hc⟩

theorem ReadsOk.released_step (hm : Moves p q u ph ph') (hp : ReadsOk p) {fh : Nat} {token : Token}
    (h : Released q fh token) : token ∈ q.shared.cancelled := by
  obtain ⟨r, h⟩ := h
  rcases hm.new _ h with heq | h
  · obtain ⟨rfl, rfl⟩ := FuseRequest.mk.inj heq
    have hdoes := hm.does
    generalize hgq : q.shared = gq at hdoes
    cases hdoes with
    | cancelHandle fh token => exact List.mem_cons_self
  · exact hm.still (hp.released fh token ⟨r, h⟩)

/-- A read has the token of a file that was open under its handle, or one nobody else has. -/
theorem ReadsOk.reader_step (hm : Moves p q u ph ph') (hh : HandlesOk p) (hp : ReadsOk p)
    {k : FuseRequest} (hk : k ∈ q.tasks) {fh : Nat} {token : Token} {fired : Bool}
    (hr : k.phase.reader = some (fh, token, fired)) :
    (token = .unlinked k.unique ∨ ∃ v, token = .handle v ∧ Opened q fh v) ∧
      (fired = true → token ∈ q.shared.cancelled ∧ .read k.unique ∈ q.shared.cancelled) := by
  -- what was so of a read, is so still
  have hold : ∀ l ∈ p.tasks, ∀ fired', l.phase.reader = some (fh, token, fired') →
      (token = .unlinked l.unique ∨ ∃ v, token = .handle v ∧ Opened q fh v) ∧
        (fired' = true → token ∈ q.shared.cancelled ∧ .read l.unique ∈ q.shared.cancelled) := by
    intro l hl fired' hlr
    obtain ⟨htoken, hfired⟩ := hp.reader l hl fh token fired' hlr
    refine ⟨htoken.imp id fun ⟨v, hv, hop⟩ => ⟨v, hv, hm.opened hop⟩, fun h => ?_⟩
    exact ⟨hm.still (hfired h).1, hm.still (hfired h).2⟩
  rcases hm.new k hk with rfl | hk
  · rcases does_reader hm.does hr with hsame | ⟨rfl, rfl⟩ | ⟨hbefore, rfl, hc, hcons⟩
    · exact hold _ hm.before fired hsame
    · refine ⟨?_, nofun⟩
      cases hlook : p.shared.openFiles.lookup fh with
      | none => exact Or.inl rfl
      | some t =>
        obtain ⟨v, hv, hop⟩ := hh.openFiles fh t hlook
        exact Or.inr ⟨v, hv, hm.opened hop⟩
    · refine ⟨(hold _ hm.before false hbefore).1, fun _ => ⟨hm.still hc, ?_⟩⟩
      rw [hcons]
      exact List.mem_cons_self
  · exact hold k hk fired hr

/-- What is cancelled, was or is cancelled now, by a release, by an `interrupt` or by a link. -/
theorem ReadsOk.cancelled_step (hm : Moves p q u ph ph') (hh : HandlesOk p) (hp : ReadsOk p)
    {token : Token} (h : token ∈ q.shared.cancelled) : token ∈ p.shared.cancelled ∨
      (∃ fh v, token = .handle v ∧ Released q fh token) ∨
      ∃ v, token = .read v ∧ (Interrupted q v ∨ Linked q v) := by
  rcases does_cancelled hm.does with hsame | ⟨fh, t, hph, hph', hcons⟩ | ⟨v, t, hph, hph', hcons⟩ |
      ⟨fh, t, -, hr, -, hcons⟩
  · exact Or.inl (hsame ▸ h)
  · rcases List.mem_cons.mp (hcons ▸ h) with rfl | h
    · obtain ⟨⟨v, hv, -⟩, -⟩ := hh.takenOut fh token ⟨u, Or.inl (hph ▸ hm.before)⟩
      exact Or.inr (Or.inl ⟨fh, v, hv, u, hph' ▸ hm.after⟩)
    · exact Or.inl h
  · rcases List.mem_cons.mp (hcons ▸ h) with rfl | h
    · have hv := hp.stopping u v token (hph ▸ hm.before)
      exact Or.inr (Or.inr ⟨v, hv, Or.inl ⟨u, hv ▸ hph' ▸ hm.after⟩⟩)
    · exact Or.inl h
  · rcases List.mem_cons.mp (hcons ▸ h) with rfl | h
    · exact Or.inr (Or.inr ⟨u, rfl, Or.inr ⟨_, hm.after, rfl, fh, t, hr⟩⟩)
    · exact Or.inl h

theorem ReadsOk.step (hm : Moves p q u ph ph') (hh : HandlesOk p) (hp : ReadsOk p) : ReadsOk q where
  pending := fun v token h => hp.pending_step hm hh h
  stopping := fun r v token h => (hp.stopping_step hm).1 h
  interrupted := fun r v token h => (hp.stopping_step hm).2 h
  released := fun fh token h => hp.released_step hm h
  reader := fun k hk fh token fired hr => hp.reader_step hm hh hk hr
  handles := fun v h => by
    rcases hp.cancelled_step hm hh h with h | ⟨fh, -, -, hr⟩ | ⟨w, hw, -⟩
    · obtain ⟨fh, hr⟩ := hp.handles v h
      exact ⟨fh, hm.released hr⟩
    · exact ⟨fh, hr⟩
    · cases hw
  reads := fun v h => by
    rcases hp.cancelled_step hm hh h with h | ⟨fh, w, hw, -⟩ | ⟨w, hw, hreason⟩
    · exact (hp.reads v h).imp hm.interrupted hm.linked
    · cases hw
    · cases hw
      exact hreason
  unlinked := fun v h => by
    rcases hp.cancelled_step hm hh h with h | ⟨fh, w, hw, -⟩ | ⟨w, hw, -⟩
    · exact hp.unlinked v h
    · cases hw
    · cases hw

end

/-! ## Over whole runs -/

section

variable {requests : List FuseRequest} {es : List (Nat × Act)} {p : Pool Mount FuseRequest}

/-- A request that has not begun has no number, no token and is in no list. -/
theorem fresh_phase {ph : Phase} (h : ph.fresh = true) :
    ph.number = none ∧ ph.reader = none ∧ (∀ inode fh, ph ≠ .inserting inode fh) ∧
      (∀ inode fh, ph ≠ .opened inode fh) ∧ (∀ fh token, ph ≠ .closing fh token) ∧
      (∀ fh token, ph ≠ .released fh token) ∧ (∀ v token, ph ≠ .stopping v token) ∧
      ∀ v token, ph ≠ .interrupted v token := by
  cases ph with
  | open_ | release | interrupt | read =>
    exact ⟨rfl, rfl, nofun, nofun, nofun, nofun, nofun, nofun⟩
  | _ => cases h

theorem Comes.handles (h : Comes requests) : HandlesOk ⟨.new, requests⟩ where
  distinct := h.distinct
  start := Nat.one_pos
  below := fun k hk fh hn => by
    rw [(fresh_phase (h.fresh k hk)).1] at hn
    cases hn
  numbers := fun k hk l hl fh hn _ => by
    rw [(fresh_phase (h.fresh k hk)).1] at hn
    cases hn
  inserting := fun v inode fh hk => absurd rfl ((fresh_phase (h.fresh _ hk)).2.2.1 inode fh)
  openFiles := fun fh token hlook => by cases hlook
  opened := fun fh v ⟨inode, _, hk⟩ => absurd rfl ((fresh_phase (h.fresh _ hk)).2.2.2.1 inode fh)
  takenOut := fun fh token ⟨r, hk⟩ => by
    rcases hk with hk | hk
    · exact absurd rfl ((fresh_phase (h.fresh _ hk)).2.2.2.2.1 fh token)
    · exact absurd rfl ((fresh_phase (h.fresh _ hk)).2.2.2.2.2.1 fh _)

theorem Comes.reads (h : Comes requests) : ReadsOk ⟨.new, requests⟩ where
  pending := fun v token hlook => by cases hlook
  stopping := fun r v token hk =>
    absurd rfl ((fresh_phase (h.fresh _ hk)).2.2.2.2.2.2.1 v token)
  interrupted := fun r v token hk =>
    absurd rfl ((fresh_phase (h.fresh _ hk)).2.2.2.2.2.2.2 v _)
  released := fun fh token ⟨r, hk⟩ =>
    absurd rfl ((fresh_phase (h.fresh _ hk)).2.2.2.2.2.1 fh _)
  reader := fun k hk fh token fired hr => by
    rw [(fresh_phase (h.fresh k hk)).2.1] at hr
    cases hr
  handles := fun v hv => absurd hv List.not_mem_nil
  reads := fun v hv => absurd hv List.not_mem_nil
  unlinked := fun v hv => absurd hv List.not_mem_nil

theorem reaches_ok (hc : Comes requests) (hr : Reaches requests es p) : HandlesOk p ∧ ReadsOk p := by
  refine run_inv' (I := fun p => HandlesOk p ∧ ReadsOk p) ?_ es _ p ⟨hc.handles, hc.reads⟩ hr
  rintro p e q ⟨hh, hp⟩ hstep
  obtain ⟨u, ph, ph', hm⟩ := step_moves hstep
  exact ⟨hh.step hm, hp.step hm hh⟩

/-- **Handles are never reused**: two files that were opened have different handles, none of them 0,
    whether released or not. -/
theorem handles_distinct (hc : Comes requests) (hr : Reaches requests es p) {fh fh' v w : Nat}
    (h : Opened p fh v) (h' : Opened p fh' w) : 0 < fh ∧ (fh = fh' → v = w) := by
  obtain ⟨hh, -⟩ := reaches_ok hc hr
  obtain ⟨inode, hinode, hk⟩ := h
  obtain ⟨inode', hinode', hk'⟩ := h'
  refine ⟨(hh.below _ hk fh (if_pos hinode)).1, ?_⟩
  rintro rfl
  exact congrArg FuseRequest.unique (hh.numbers _ hk _ hk' fh (if_pos hinode) (if_pos hinode'))

/-- **No read is stopped for another**: one that is cancelled was found by an `interrupt` for it, or
    the file it reads from has been released under its handle. -/
theorem stopped_only_by_own (hc : Comes requests) (hr : Reaches requests es p) {k : FuseRequest}
    (hk : k ∈ p.tasks) {fh : Nat} {token : Token} {fired : Bool}
    (hreader : k.phase.reader = some (fh, token, fired)) (hstop : .read k.unique ∈ p.shared.cancelled) :
    Interrupted p k.unique ∨ Released p fh token := by
  obtain ⟨hh, hp⟩ := reaches_ok hc hr
  refine (hp.reads k.unique hstop).imp id fun ⟨l, hl, hlk, fh', token', hlr⟩ => ?_
  obtain rfl := task_unique hh.distinct hl hk hlk
  obtain ⟨rfl, rfl, rfl⟩ : fh' = fh ∧ token' = token ∧ true = fired := by
    have := Option.some.inj (hlr.symm.trans hreader)
    exact ⟨congrArg (·.1) this, congrArg (·.2.1) this, congrArg (·.2.2) this⟩
  obtain ⟨htoken, hfired⟩ := hp.reader l hk fh' token' true hlr
  have hcancelled := (hfired rfl).1
  rcases htoken with rfl | ⟨v, rfl, hop⟩
  · exact absurd hcancelled (hp.unlinked _)
  · obtain ⟨fh'', r, hrel⟩ := hp.handles v hcancelled
    -- the file was opened by one request, so under one handle
    obtain ⟨⟨w, hw, inode, hinode, hopened⟩, -⟩ := hh.takenOut fh'' (.handle v) ⟨r, Or.inr hrel⟩
    obtain rfl : v = w := Token.handle.inj hw
    obtain ⟨inode', hinode', hopened'⟩ := hop
    have hsame := task_unique hh.distinct hopened hopened' rfl
    obtain ⟨-, rfl⟩ := Phase.opened.inj (FuseRequest.mk.inj hsame).2
    exact ⟨r, hrel⟩

/-- Nothing is half done: no release and no `interrupt` is about to cancel a token, no link is about
    to fire. -/
structure Settled (p : Pool Mount FuseRequest) : Prop where
  closing : ∀ r fh token, ⟨r, .closing fh token⟩ ∉ p.tasks
  stopping : ∀ r v token, ⟨r, .stopping v token⟩ ∉ p.tasks
  links : ∀ r fh token, ⟨r, .reading fh token false⟩ ∈ p.tasks → token ∉ p.shared.cancelled

/-- **Exactly then**: a read that goes on is cancelled when an `interrupt` has found it or its file has
    been released. -/
theorem stopped_iff (hc : Comes requests) (hr : Reaches requests es p) (hs : Settled p) {v fh : Nat}
    {token : Token} {fired : Bool} (hk : ⟨v, .reading fh token fired⟩ ∈ p.tasks) :
    .read v ∈ p.shared.cancelled ↔ Interrupted p v ∨ Released p fh token := by
  obtain ⟨hh, hp⟩ := reaches_ok hc hr
  constructor
  · exact stopped_only_by_own hc hr hk rfl
  · rintro (⟨r, hint⟩ | hrel)
    · exact (hp.interrupted r v _ hint).2
    · have hcancelled := hp.released fh token hrel
      cases fired with
      | false => exact absurd hcancelled (hs.links v fh token hk)
      | true => exact ((hp.reader _ hk fh token true rfl).2 rfl).2

/-- **Nothing is left**: when all requests are done, no read is registered, and the files that are
    open are the ones opened and not released. -/
theorem nothing_left (hc : Comes requests) (hr : Reaches requests es p)
    (hdone : ∀ k ∈ p.tasks, go p.shared k.unique k.phase = none) :
    (∀ v, p.shared.pending.lookup v = none) ∧
      ∀ fh v, p.shared.openFiles.lookup fh = some (.handle v) ↔
        Opened p fh v ∧ ¬Released p fh (.handle v) := by
  obtain ⟨hh, hp⟩ := reaches_ok hc hr
  refine ⟨fun v => ?_, fun fh v => ⟨fun hlook => ⟨?_, ?_⟩, ?_⟩⟩
  · cases hlook : p.shared.pending.lookup v with
    | none => rfl
    | some token =>
      obtain ⟨-, ⟨w, ph⟩, hk, -, hfl⟩ := hp.pending v token hlook
      have hnone := hdone _ hk
      cases ph with
      | reading => cases hnone
      | dropping => cases hnone
      | _ => cases hfl
  · obtain ⟨w, hw, hop⟩ := hh.openFiles fh _ hlook
    rw [Token.handle.inj hw]
    exact hop
  · rintro ⟨r, hrel⟩
    rw [(hh.takenOut fh _ ⟨r, Or.inr hrel⟩).2] at hlook
    cases hlook
  · rintro ⟨hop, hnot⟩
    rcases hh.opened fh v hop with hlook | ⟨r, hclosing | hrel⟩
    · exact hlook
    · cases hdone _ hclosing
    · exact absurd ⟨r, hrel⟩ hnot

end

/-! ## Two files and three reads -/

/-- Two files are opened, the first is read twice and the second once; one of the two reads is
    interrupted, and the second file is released. -/
def twoFiles : List FuseRequest :=
  [⟨1, .open_ (2 ^ 32) 0⟩, ⟨2, .open_ (2 ^ 32 + 1) 0⟩, ⟨3, .read 1⟩, ⟨4, .read 2⟩, ⟨5, .read 1⟩,
    ⟨6, .interrupt 5⟩, ⟨7, .release 2⟩]

theorem twoFiles_comes : Comes twoFiles := ⟨by decide, by decide⟩

def twoFilesRun : List (Nat × Act) :=
  [(0, .go), (1, .go), (1, .go), (0, .go), (2, .go), (3, .go), (4, .go), (2, .go), (3, .go), (4, .go),
    (5, .go), (6, .go), (6, .go), (3, .link), (5, .go)]

theorem twoFilesRun_reaches : ∃ p, Reaches twoFiles twoFilesRun p ∧ (p.tasks, p.shared.cancelled) =
    ([⟨1, .opened (2 ^ 32) 1⟩, ⟨2, .opened (2 ^ 32 + 1) 2⟩, ⟨3, .reading 1 (.handle 1) false⟩,
      ⟨4, .reading 2 (.handle 2) true⟩, ⟨5, .reading 1 (.handle 1) false⟩,
      ⟨6, .interrupted 5 (some (.read 5))⟩, ⟨7, .released 2 (some (.handle 2))⟩],
      [.read 5, .read 4, .handle 2]) :=
  Option.map_eq_some_iff.mp (by decide)

/-- The two handles are 1 and 2. -/
theorem handles_distinct_two : ∃ p, Reaches twoFiles twoFilesRun p ∧
    Opened p 1 1 ∧ Opened p 2 2 ∧ 0 < 1 ∧ (1 = 2 → 1 = 2) := by
  obtain ⟨p, hr, hp⟩ := twoFilesRun_reaches
  obtain ⟨htasks, -⟩ := Prod.mk.inj hp
  have hone : Opened p 1 1 := ⟨2 ^ 32, by decide, by rw [htasks]; decide⟩
  have htwo : Opened p 2 2 := ⟨2 ^ 32 + 1, by decide, by rw [htasks]; decide⟩
  exact ⟨p, hr, hone, htwo, handles_distinct twoFiles_comes hr hone htwo⟩

/-- Of the three reads the first goes on; the interrupted one and the one of the released file are
    cancelled. -/
theorem stopped_iff_two : ∃ p, Reaches twoFiles twoFilesRun p ∧ Settled p ∧
    (.read 3 ∈ p.shared.cancelled ↔ Interrupted p 3 ∨ Released p 1 (.handle 1)) ∧
    (.read 4 ∈ p.shared.cancelled ↔ Interrupted p 4 ∨ Released p 2 (.handle 2)) ∧
    .read 4 ∈ p.shared.cancelled ∧ .read 3 ∉ p.shared.cancelled := by
  obtain ⟨p, hr, hp⟩ := twoFilesRun_reaches
  obtain ⟨htasks, hcancelled⟩ := Prod.mk.inj hp
  have hs : Settled p := by
    refine ⟨fun r fh token h => ?_, fun r v token h => ?_, fun r fh token h => ?_⟩
    all_goals
      rw [htasks] at h
      simp only [List.mem_cons, FuseRequest.mk.injEq, reduceCtorEq, and_false, false_or, or_false,
        List.not_mem_nil, Phase.reading.injEq, Bool.false_eq_true, and_true] at h
    obtain ⟨-, -, htoken⟩ | ⟨-, -, htoken⟩ := h
    all_goals
      rw [hcancelled, htoken]
      decide
  have hthree : ⟨3, .reading 1 (.handle 1) false⟩ ∈ p.tasks := by
    rw [htasks]
    decide
  have hfour : ⟨4, .reading 2 (.handle 2) true⟩ ∈ p.tasks := by
    rw [htasks]
    decide
  refine ⟨p, hr, hs, stopped_iff twoFiles_comes hr hs hthree, stopped_iff twoFiles_comes hr hs hfour,
    ?_, ?_⟩
  all_goals
    rw [hcancelled]
    decide

/-- The reads end: the second file is closed, and the first is open still. -/
theorem nothing_left_two : ∃ p, Reaches twoFiles (twoFilesRun ++
      [(2, .go), (2, .go), (3, .go), (3, .go), (4, .go), (4, .go)]) p ∧
    (∀ v, p.shared.pending.lookup v = none) ∧
    ∀ fh v, p.shared.openFiles.lookup fh = some (.handle v) ↔
      Opened p fh v ∧ ¬Released p fh (.handle v) := by
  have hreach : ∃ p, Reaches twoFiles (twoFilesRun ++
      [(2, .go), (2, .go), (3, .go), (3, .go), (4, .go), (4, .go)]) p ∧
      decide (∀ k ∈ p.tasks, (go p.shared k.unique k.phase).isNone = true) = true :=
    Option.map_eq_some_iff.mp (by decide)
  obtain ⟨p, hr, hdone⟩ := hreach
  exact ⟨p, hr, nothing_left twoFiles_comes hr fun k hk =>
    Option.isNone_iff_eq_none.mp (of_decide_eq_true hdone k hk)⟩

end RdRs.Fuse.Handles
