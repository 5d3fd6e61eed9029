/-
  A torrent under repair and the refresh passes beside it.

  `coordination.rs` protects what is being repaired: a pass neither removes a torrent that is
  `under_repair` nor asks Real-Debrid to delete one of its ids.  The only sign of a repair is the state
  in the map, and others write it too; and a pass looks first and acts later.

  1. **Window** — `repairWindow` watches the repair: open from its write of `under_repair` to its write
     of the final state.
  2. **Protocol** — `windowProtocol`: while the window is open the repair reads and writes records
     under repair only.
  3. **Licence** — `Licensed`: what a pass is about to do is still licensed by the state of the map.
     Its last look licensed it (`licensed_of_follows`), and a write that would take the licence away
     while the pass is about to act is what `Undisturbed` rules out.
  4. **Result** — while the window is open no task removes the key or has one of its ids deleted
     (`protected_while_repaired`).
-/
import RdRs.Repair.Rules
import RdRs.Torrent.Writes
import RdRs.Torrent.Replicas

set_option linter.unusedVariables false

namespace RdRs.Torrent

open RdRs.Rd RdRs.Repair RdRs.Programs RdRs.Runs

/-! ## The window of a repair -/

/-- The window opens with the repair's write of `under_repair` and closes with its write of another
    state. -/
def repairWindow : Observer Bool where
  see
    | .repair _ _, _, .write .updateState _ _ mt, _ => mt.state == .underRepair
    | _, isOpen, _, _ => isOpen
  ran isOpen _ _ := isOpen

/-- The key is in the map and under repair. -/
def UnderRepair (k : String) (torrents : Torrents) : Prop :=
  ∃ mt, torrents.lookup k = some mt ∧ mt.state = .underRepair

/-- The repair of `k`; the state of the protocol says whether the window is open. -/
def windowProtocol (k : String) : Protocol Act Act.Res Bool where
  allows
    | isOpen, .write op key _ mt => key = k ∧ mt.accessKey = k ∧
        (op ≠ .updateState → isOpen = true → mt.state = .underRepair)
    | _, .remove _ | _, .deleteTorrent _ => False
    | _, _ => True
  answers
    | isOpen, .get key, r => OfKey key r ∧
        (key = k → isOpen = true → ∀ mt, r = some mt → mt.state = .underRepair)
    | isOpen, .inject key _, r => OfKey key r ∧
        (key = k → isOpen = true → ∀ mt, r = some mt → mt.state = .underRepair)
    | _, _, _ => True
  next
    | _, .write .updateState _ _ mt, _ => mt.state == .underRepair
    | isOpen, _, _ => isOpen

section Repair

variable {k : String}

/-- A copy of the repair: while the window is open, one that is under repair. -/
def WindowCopy (k : String) (mt : ManagedTorrent) (isOpen : Bool) : Prop :=
  mt.accessKey = k ∧ (isOpen = true → mt.state = .underRepair)

theorem window_get (isOpen : Bool) :
    Takes (windowProtocol k) isOpen (.get k) (Looks (fun _ => True) (WindowCopy k)) := by
  refine ⟨trivial, fun r hr => ?_⟩
  cases r with
  | none => exact trivial
  | some mt => exact ⟨hr.1 mt rfl, fun hopen => hr.2 rfl hopen mt rfl⟩

theorem window_trails : Trails (windowProtocol k) fun _ => True := by
  intro isOpen a _ ha
  cases a with
  | enqueue batch => exact ⟨trivial, fun r _ => trivial⟩
  | await ticket => exact ⟨trivial, fun r _ => trivial⟩
  | hook paths => exact ⟨trivial, fun r _ => trivial⟩
  | send key state => exact ⟨trivial, fun r _ => trivial⟩
  | _ => exact False.elim ha

theorem window_ensureTorrentInfo (isOpen : Bool) :
    Follows (windowProtocol k) isOpen (ensureTorrentInfo k)
      (Looks (fun _ => True) (WindowCopy k)) := by
  refine ensureTorrentInfo_rule (window_get isOpen) (fun mt s h => trivial) ?_ ?_
  · intro mt s id h
    exact ⟨trivial, fun r _ => h⟩
  · intro mt s info h
    refine ⟨trivial, fun r hr => ?_⟩
    cases r with
    | none => exact h
    | some updated => exact ⟨hr.1 updated rfl, fun hopen => hr.2 rfl hopen updated rfl⟩

theorem window_updateTorrentState (isOpen : Bool) (state : TorrentState) (reason : Option String) :
    Follows (windowProtocol k) isOpen (updateTorrentState k state reason) fun _ _ => True := by
  refine updateTorrentState_rule (J := fun _ => True) window_trails (window_get isOpen) ?_ ?_
  · intro mt s h
    exact ⟨trivial, fun r _ => h⟩
  · intro mt s now h
    exact ⟨⟨rfl, h.1, fun hop => absurd rfl hop⟩, fun r _ => trivial⟩

/-- **A repair keeps to the protocol.** -/
theorem repair_window (cfg : EngineConfig) (isOpen : Bool) :
    Follows (windowProtocol k) isOpen (repairOneTorrent cfg k) anyEnd := by
  refine repairOneTorrent_rule (prepare_rule (A := fun _ => True) (B := fun _ => True) ?_
    (fun s _ => window_ensureTorrentInfo s) ?_ ?_ (fun s _ => window_ensureTorrentInfo s) trivial) ?_
  · intro s _
    exact ⟨trivial, fun r _ => trivial⟩
  · intro mt s h
    exact ⟨trivial, fun r _ => h⟩
  · intro mt s state h hreason
    exact window_updateTorrentState s state none
  · intro mt s h
    refine repairPrepared_rule (D := fun _ => True) (Q := fun _ => WindowCopy k mt)
      ⟨trivial, fun o _ => h⟩ ?_ ?_ ?_ ?_ ?_
    · intro o s _
      exact window_updateTorrentState s .broken none
    · intro o s m h hm
      obtain ⟨_, _, rfl⟩ := runPreflight_edits hm
      refine persistTorrentSnapshot_rule window_trails ?_
      exact ⟨⟨h.1, h.1, fun _ hopen => h.2 hopen⟩, fun r _ => trivial⟩
    · intro m s _
      refine runCascade_rule ?_ ?_ trivial
      · intro s _
        exact ⟨trivial, fun r _ => trivial⟩
      · intro s ev _
        exact ⟨trivial, fun r _ => trivial⟩
    · intro ids s _
      refine replaceRdIdsAfterRepair_rule window_trails (window_get s) ?_
      intro mt s h
      exact ⟨⟨h.1, h.1, fun _ hopen => h.2 hopen⟩, fun r _ => trivial⟩
    · intro state reason s _
      exact window_updateTorrentState s state reason

end Repair

/-! ## The licence of a pass -/

/-- What the task has looked at is what is in the map. -/
def Sees : Glance → Torrents → Prop
  | .nothing, _ => True
  | .record key mt, torrents => torrents.lookup key = mt
  | .map seen, torrents => torrents = seen

/-- The task is not about to remove the key while it is under repair, nor to have one of its ids
    deleted. -/
def Licensed (k : String) (torrents : Torrents) (t : RegTask) : Prop :=
  (t.prog.head = some (.remove k) → ¬UnderRepair k torrents) ∧
    ∀ id mt, t.prog.head = some (.deleteTorrent id) → torrents.lookup k = some mt →
      mt.state = .underRepair → id ∉ mt.rdIds

section Licence

variable {k : String} {ops : WriteOp → ManagedTorrent → Prop} {removes : Prop} {g : Glance}
  {torrents : Torrents}

theorem sees_next {m m' : Manager} {a : Act} {e : Env} {r : a.Res} (h : perform m a e = (r, m')) :
    Sees ((writes ops removes).next g a r) m'.torrents := by
  cases a with
  | get key =>
    cases h
    exact rfl
  | iter =>
    cases h
    exact rfl
  | _ => exact trivial

/-- The look at the map licenses what follows at once. -/
theorem licensed_of_follows {t : RegTask} (h : Follows (writes ops removes) g t.prog anyEnd)
    (hsees : Sees g torrents) : Licensed k torrents t := by
  cases hprog : t.prog with
  | ret x =>
    refine ⟨fun hhead => ?_, fun id mt hhead => ?_⟩
    · rw [hprog] at hhead
      cases hhead
    · rw [hprog] at hhead
      cases hhead
  | act a kont =>
    obtain ⟨hallows, -⟩ := h.step hprog
    refine ⟨fun hhead => ?_, fun id mt hhead hmt hstate hid => ?_⟩
    · rw [hprog] at hhead
      obtain rfl : a = .remove k := Option.some.inj hhead
      obtain ⟨-, mt, rfl, hfree⟩ := hallows
      rintro ⟨cur, hcur, hstate⟩
      rw [show torrents.lookup k = mt from hsees] at hcur
      subst hcur
      have hskip : skipLocalRemoveForState cur.state = false := hfree
      rw [hstate] at hskip
      cases hskip
    · rw [hprog] at hhead
      obtain rfl : a = .deleteTorrent id := Option.some.inj hhead
      obtain ⟨seen, rfl, hfree⟩ := hallows
      obtain rfl : torrents = seen := hsees
      rw [rdIdBelongsToUnderRepair, List.any_eq_false] at hfree
      refine hfree _ (AList.mem_lookup_iff.mp hmt) ?_
      simp [hstate, hid]

/-- The licence lasts, unless the key is written under repair with something the task is about to
    take away. -/
theorem Licensed.keep {m m' : Manager} {a : Act} {e : Env} {r : a.Res} {u : RegTask}
    (hu : Licensed k m.torrents u) (h : perform m a e = (r, m'))
    (hfree : ∀ op base mt, a = .write op k base mt → mt.state = .underRepair →
      u.prog.head ≠ some (.remove k) ∧ ∀ id ∈ mt.rdIds, u.prog.head ≠ some (.deleteTorrent id)) :
    Licensed k m'.torrents u := by
  rcases lookup_perform h k with hsame | ⟨op, base, mt, rfl, hnew⟩ | ⟨info, mt, -, hold, hnew⟩ |
    ⟨-, hnone⟩
  · rw [Licensed, UnderRepair, hsame]
    exact hu
  · refine ⟨?_, fun id cur hhead hcur hstate hid => ?_⟩
    · rintro hhead ⟨cur, hcur, hstate⟩
      obtain rfl := Option.some.inj (hnew.symm.trans hcur)
      exact (hfree op base mt rfl hstate).1 hhead
    · obtain rfl := Option.some.inj (hnew.symm.trans hcur)
      exact (hfree op base mt rfl hstate).2 id hid hhead
  · refine ⟨?_, fun id cur hhead hcur hstate => ?_⟩
    · rintro hhead ⟨cur, hcur, hstate⟩
      obtain rfl := Option.some.inj (hnew.symm.trans hcur)
      exact hu.1 hhead ⟨mt, hold, hstate⟩
    · obtain rfl := Option.some.inj (hnew.symm.trans hcur)
      exact hu.2 id mt hhead hold hstate
  · refine ⟨?_, fun id cur hhead hcur => ?_⟩
    · rintro hhead ⟨cur, hcur, -⟩
      rw [hnone] at hcur
      cases hcur
    · rw [hnone] at hcur
      cases hcur

end Licence

/-! ## The invariant -/

/-- What runs beside the repair: fatal reads and refresh passes. -/
def BesideKind : Kind → Prop
  | .fatalRead _ _ _ | .refresh _ => True
  | _ => False

/-- The repair in progress; while its window is open the key is under repair. -/
def Repairing (k : String) (w : Watched Bool) (t : RegTask) : Prop :=
  (∃ cfg, t.kind = .repair cfg k) ∧ Keyed w.m.torrents ∧
    Follows (windowProtocol k) w.ob t.prog anyEnd ∧ (w.ob = true → UnderRepair k w.m.torrents)

/-- A fatal read or a pass in progress. -/
def Beside (k : String) (w : Watched Bool) (t : RegTask) : Prop :=
  BesideKind t.kind ∧ (∃ g, Follows (writes (fun _ _ => True) True) g t.prog anyEnd) ∧
    Licensed k w.m.torrents t

theorem beside_start {k : String} {w : Watched Bool} {kind : Kind} (h : BesideKind kind) :
    Beside k w (start kind) := by
  have hfollows : Follows (writes (fun _ _ => True) True) .nothing (start kind).prog anyEnd := by
    cases kind with
    | fatalRead key path wait => exact fatalRead_writes (fun _ _ => trivial) (fun _ => trivial) key wait
    | refresh cfg =>
      exact follows_done (runOnce_writes (fun _ _ => trivial) (fun _ _ _ => trivial) trivial cfg)
    | _ => exact False.elim h
  exact ⟨h, ⟨.nothing, hfollows⟩, licensed_of_follows hfollows trivial⟩

/-- Nothing comes between the sign of the repair and the passes: while the window is open nobody else
    writes the key with another state, and no write sets it under repair when a task is about to
    remove it or to have one of its ids deleted. -/
structure Undisturbed (k : String) (p : World Bool) (ev : Event) : Prop where
  sign : ∀ t op base mt, Acts p ev t (.write op k base mt) → BesideKind t.kind → p.shared.ob = true →
    mt.state = .underRepair
  late : ∀ t op base mt, Acts p ev t (.write op k base mt) → mt.state = .underRepair →
    ∀ u ∈ p.tasks, u.prog.head ≠ some (.remove k) ∧
      ∀ id ∈ mt.rdIds, u.prog.head ≠ some (.deleteTorrent id)

section Step

variable {k : String} {w : Watched Bool} {m' : Manager} {a : Act} {e : Env} {r : a.Res}

theorem beside_see {kind : Kind} (h : BesideKind kind) (isOpen : Bool) (a : Act) (r : a.Res) :
    repairWindow.see kind isOpen a r = isOpen := by
  cases kind with
  | fatalRead key path wait => rfl
  | refresh cfg => rfl
  | _ => exact False.elim h

theorem window_answers {isOpen : Bool} (hkeyed : Keyed w.m.torrents)
    (hopen : isOpen = true → UnderRepair k w.m.torrents) (h : perform w.m a e = (r, m')) :
    (windowProtocol k).answers isOpen a r := by
  cases a with
  | get key =>
    cases h
    refine ⟨fun t ht => hkeyed key t ht, ?_⟩
    rintro rfl ho mt hmt
    obtain ⟨cur, hcur, hstate⟩ := hopen ho
    obtain rfl := Option.some.inj (hcur.symm.trans hmt)
    exact hstate
  | inject key info =>
    refine ⟨ofKey_inject hkeyed h, ?_⟩
    rintro rfl ho mt rfl
    obtain ⟨cur, hcur, hstate⟩ := hopen ho
    rw [perform, hcur] at h
    obtain ⟨hr, -⟩ := Prod.mk.inj h
    obtain rfl := Option.some.inj hr
    exact hstate
  | _ => trivial

/-- The key stays under repair, unless it is written with another state or removed. -/
theorem UnderRepair.keep {m : Manager} (h : UnderRepair k m.torrents) (hperf : perform m a e = (r, m'))
    (hwrite : ∀ op base mt, a = .write op k base mt → mt.state = .underRepair)
    (hremove : a ≠ .remove k) : UnderRepair k m'.torrents := by
  obtain ⟨cur, hcur, hstate⟩ := h
  rcases lookup_perform hperf k with hsame | ⟨op, base, mt, ha, hnew⟩ | ⟨info, mt, -, hold, hnew⟩ |
    ⟨ha, -⟩
  · exact ⟨cur, hsame.trans hcur, hstate⟩
  · exact ⟨mt, hnew, hwrite op base mt ha⟩
  · obtain rfl := Option.some.inj (hcur.symm.trans hold)
    exact ⟨_, hnew, hstate⟩
  · exact absurd ha hremove

/-- The repair keeps its key under repair as long as its window is open. -/
theorem Repairing.next {t : RegTask} {kont : a.Res → M Unit} (h : Repairing k w t)
    (hprog : t.prog = .act a kont) (hperf : perform w.m a e = (r, m')) :
    Repairing k ⟨m', repairWindow.see t.kind w.ob a r⟩ ⟨t.kind, kont r⟩ := by
  obtain ⟨⟨cfg, hkind⟩, hkeyed, hfollows, hopen⟩ := h
  obtain ⟨hallows, hnext⟩ := hfollows.step hprog
  have hrest := hnext r (window_answers hkeyed hopen hperf)
  have hkeyed' : Keyed m'.torrents := by
    refine keyed_perform hkeyed ?_ hperf
    rintro op key base mt rfl
    exact hallows.2.1.trans hallows.1.symm
  have hsee : repairWindow.see t.kind w.ob a r = (windowProtocol k).next w.ob a r := by
    rw [hkind]
    cases a with
    | write op key base mt => cases op <;> rfl
    | _ => rfl
  rw [hsee]
  refine ⟨⟨cfg, hkind⟩, hkeyed', hrest, fun ho => ?_⟩
  -- a write that leaves the window open is one under repair; other actions leave it as it was
  cases a with
  | write op key base mt =>
    obtain ⟨rfl, -, hother⟩ := hallows
    cases hperf
    refine ⟨mt, AList.lookup_insert _, ?_⟩
    cases op with
    | updateState => exact beq_iff_eq.mp ho
    | _ => exact hother WriteOp.noConfusion ho
  | remove key => exact False.elim hallows
  | _ => exact (hopen ho).keep hperf (fun op base mt hw => Act.noConfusion hw) Act.noConfusion

/-- A fatal read or a pass that acts leaves the repair its key, and goes on with a fresh licence. -/
theorem Beside.next {p : World Bool} {ev : Event} {lead t : RegTask} {kont : a.Res → M Unit}
    (hlead : Repairing k p.shared lead) (h : Beside k p.shared t) (hC : Undisturbed k p ev)
    (hacts : Acts p ev t a) (hprog : t.prog = .act a kont)
    (hperf : perform p.shared.m a e = (r, m')) :
    Repairing k ⟨m', repairWindow.see t.kind p.shared.ob a r⟩ lead ∧
      Beside k ⟨m', repairWindow.see t.kind p.shared.ob a r⟩ ⟨t.kind, kont r⟩ := by
  obtain ⟨hkind, hkeyed, hfollows, hopen⟩ := hlead
  obtain ⟨hbeside, ⟨g, hwrites⟩, hlicence⟩ := h
  obtain ⟨hallows, hnext⟩ := hwrites.step hprog
  have hrest := hnext r (writes_answers hkeyed hperf)
  have hkeyed' : Keyed m'.torrents := by
    refine keyed_perform hkeyed ?_ hperf
    rintro op key base mt rfl
    exact hallows.2.1
  rw [beside_see hbeside]
  refine ⟨⟨hkind, hkeyed', hfollows, fun ho => ?_⟩, hbeside, ⟨_, hrest⟩,
    licensed_of_follows hrest (sees_next hperf)⟩
  have hunder := hopen ho
  refine hunder.keep hperf ?_ ?_
  · rintro op base mt rfl
    exact hC.sign t op base mt hacts hbeside ho
  · rintro rfl
    refine hlicence.1 ?_ hunder
    rw [hprog]
    rfl

end Step

theorem beside_step (k : String) : ∀ (p : World Bool) ev q, Led (Repairing k) (Beside k) p →
    Undisturbed k p ev → step repairWindow p ev = some q → Led (Repairing k) (Beside k) q := by
  -- whoever acts, the licences of the others last
  have hkeep : ∀ (p : World Bool) ev (t u : RegTask) (a : Act) (e : Env) (r : a.Res) m' ob,
      Undisturbed k p ev → Acts p ev t a → perform p.shared.m a e = (r, m') → u ∈ p.tasks →
      Beside k p.shared u → Beside k ⟨m', ob⟩ u := by
    rintro p ev t u a e r m' ob hC hacts hperf hu ⟨hkind, hwrites, hlicence⟩
    refine ⟨hkind, hwrites, hlicence.keep hperf ?_⟩
    rintro op base mt rfl hstate
    exact hC.late t op base mt hacts hstate u hu
  refine led_step ?_ ?_ ?_
  · rintro p ev lead rest a kont r m' htasks hlead hbeside hC ⟨hacts, hprog, hb, e, hperf⟩
    refine ⟨hlead.next hprog hperf, fun u hu => ?_⟩
    refine hkeep p ev lead u a e r m' _ hC hacts hperf ?_ (hbeside u hu)
    rw [htasks]
    exact List.mem_cons_of_mem _ hu
  · rintro p ev lead rest t a kont r m' htasks ht hlead hbeside hC ⟨hacts, hprog, hb, e, hperf⟩
    obtain ⟨hlead', ht'⟩ := (hbeside t ht).next hlead hC hacts hprog hperf
    refine ⟨hlead', ht', fun u hu => ?_⟩
    refine hkeep p ev t u a e r m' _ hC hacts hperf ?_ (hbeside u hu)
    rw [htasks]
    exact List.mem_cons_of_mem _ hu
  · intro p ok lead rest m' htasks hlead hbeside hrun
    obtain ⟨batch, others, hjobs, rfl⟩ := runJob_some hrun
    exact ⟨hlead, hbeside⟩

/-! ## The result -/

/-- **The key of a repair is left alone**: one repair, any fatal reads and refresh passes, in any order
    of their steps.  From the repair's write of `under_repair` to that of its final state no task
    removes the key, or asks Real-Debrid to delete one of its ids. -/
theorem protected_while_repaired (k : String) (cfg : EngineConfig) (m : Manager) (beside : List Kind)
    (es : List Event) (p : World Bool) (hkeyed : Keyed m.torrents)
    (hbeside : ∀ kind ∈ beside, BesideKind kind)
    (hquiet : Along (step repairWindow) (Undisturbed k)
      ⟨⟨m, false⟩, (.repair cfg k :: beside).map start⟩ es)
    (hrun : run (step repairWindow) ⟨⟨m, false⟩, (.repair cfg k :: beside).map start⟩ es = some p)
    (hopen : p.shared.ob = true) (ev : Event) (t : RegTask) (a : Act) (hacts : Acts p ev t a) :
    a ≠ .remove k ∧ ∀ id mt, a = .deleteTorrent id → p.shared.m.torrents.lookup k = some mt →
      id ∉ mt.rdIds := by
  have hstart : Led (Repairing k) (Beside k) ⟨⟨m, false⟩, (.repair cfg k :: beside).map start⟩ := by
    refine ⟨start (.repair cfg k), beside.map start, rfl, ⟨⟨cfg, rfl⟩, hkeyed, ?_, ?_⟩, ?_⟩
    · exact follows_done (repair_window cfg false)
    · intro ho
      cases ho
    · intro t ht
      obtain ⟨kind, hkind, rfl⟩ := List.mem_map.mp ht
      exact beside_start (hbeside kind hkind)
  obtain ⟨lead, rest, htasks, ⟨-, -, hfollows, hunder⟩, hrest⟩ :=
    run_inv (beside_step k) es _ p hstart hquiet hrun
  have hur := hunder hopen
  obtain ⟨i, e, -, hi, hhead⟩ := hacts
  have ht : t ∈ lead :: rest := htasks ▸ List.mem_of_getElem? hi
  rcases List.mem_cons.mp ht with rfl | ht
  · -- the repair itself neither removes nor has ids deleted by a refresh's call
    cases hprog : t.prog with
    | ret x =>
      rw [hprog] at hhead
      cases hhead
    | act a' kont =>
      rw [hprog] at hhead
      obtain rfl : a' = a := Option.some.inj hhead
      obtain ⟨hallows, -⟩ := hfollows.step hprog
      refine ⟨?_, ?_⟩
      · rintro rfl
        exact hallows
      · rintro id mt rfl
        exact False.elim hallows
  · obtain ⟨-, -, hlicence⟩ := hrest t ht
    refine ⟨?_, ?_⟩
    · rintro rfl
      exact hlicence.1 hhead hur
    · rintro id mt rfl hmt
      obtain ⟨cur, hcur, hstate⟩ := hur
      obtain rfl := Option.some.inj (hcur.symm.trans hmt)
      exact hlicence.2 id cur hhead hcur hstate

/-- A repair of the film, a read of its file that fails for good, and a refresh. -/
def repairReadRefresh : List Kind :=
  [.repair oneHour "HASH/Film", .fatalRead "HASH/Film" "/Film.mkv" false, .refresh keepErrored]

/-- The repair sets the film under repair, the read sets it to broken, and the refresh gets a list
    without the film and looks at its record. -/
def readMeanwhile : List Event :=
  List.replicate 6 (does 0) ++ List.replicate 5 (does 1) ++ List.replicate 3 (does 2)

/-- The film is in the map, and the window of its repair is open. -/
def filmInWindow (p : World Bool) : Bool × Bool :=
  ((p.shared.m.torrents.lookup "HASH/Film").isSome, p.shared.ob)

/-- The refresh takes the film out of the map while its repair is under way. -/
theorem read_exposes_repaired_film :
    ∃ p q, run (step repairWindow) ⟨⟨filmStored, false⟩, repairReadRefresh.map start⟩ readMeanwhile =
        some p ∧
      step repairWindow p (does 2) = some q ∧ filmInWindow p = (true, true) ∧
      filmInWindow q = (false, true) := by
  have htest : ((run (step repairWindow) ⟨⟨filmStored, false⟩, repairReadRefresh.map start⟩
      readMeanwhile).any fun p => filmInWindow p == (true, true) &&
        (step repairWindow p (does 2)).any fun q => filmInWindow q == (false, true)) = true := by
    decide +kernel
  obtain ⟨p, hp, htest⟩ := (Option.any_eq_true _ _).mp htest
  rw [Bool.and_eq_true, beq_iff_eq] at htest
  obtain ⟨hin, htest⟩ := htest
  obtain ⟨q, hq, hout⟩ := (Option.any_eq_true _ _).mp htest
  exact ⟨p, q, hp, hq, hin, beq_iff_eq.mp hout⟩

/-- The task is about to remove the key, or to have one of the ids deleted. -/
def aboutToTake (k : String) (ids : List String) (t : RegTask) : Bool :=
  match t.prog.head with
  | some (.remove key) => key == k
  | some (.deleteTorrent id) => ids.contains id
  | _ => false

/-- The test of `Undisturbed`. -/
def testUndisturbed (k : String) : World Bool → Event → Bool :=
  testEvent (fun p t a => match a with
    | .write _ key _ mt => key != k ||
        ((match t.kind with
          | .repair _ _ => true
          | _ => !p.shared.ob || mt.state == .underRepair) &&
        (mt.state != .underRepair || p.tasks.all fun u => !aboutToTake k mt.rdIds u))
    | _ => true) fun _ => true

theorem undisturbed_of_test {k : String} (p : World Bool) (ev : Event)
    (h : testUndisturbed k p ev = true) : Undisturbed k p ev := by
  have hwrite : ∀ t op base mt, Acts p ev t (.write op k base mt) →
      ((match t.kind with
          | .repair _ _ => true
          | _ => !p.shared.ob || mt.state == .underRepair) = true) ∧
        (mt.state != .underRepair || p.tasks.all fun u => !aboutToTake k mt.rdIds u) = true := by
    intro t op base mt hacts
    have htest := testEvent_acts h hacts
    dsimp only at htest
    rw [bne_self_eq_false, Bool.false_or, Bool.and_eq_true] at htest
    exact htest
  refine ⟨?_, ?_⟩
  · intro t op base mt hacts hkind hopen
    obtain ⟨hsign, -⟩ := hwrite t op base mt hacts
    have hstate : (!p.shared.ob || mt.state == .underRepair) = true := by
      cases hk : t.kind with
      | fatalRead key path wait =>
        rw [hk] at hsign
        exact hsign
      | refresh cfg =>
        rw [hk] at hsign
        exact hsign
      | _ =>
        rw [hk] at hkind
        exact False.elim hkind
    rw [hopen] at hstate
    exact beq_iff_eq.mp hstate
  · intro t op base mt hacts hstate u hu
    obtain ⟨-, hlate⟩ := hwrite t op base mt hacts
    rw [hstate, bne_self_eq_false, Bool.false_or, List.all_eq_true] at hlate
    have hfree := hlate u hu
    refine ⟨fun hhead => ?_, fun id hid hhead => ?_⟩
    · rw [aboutToTake, hhead] at hfree
      simp at hfree
    · rw [aboutToTake, hhead] at hfree
      simp [hid] at hfree

/-- Without the read the refresh passes the film by. -/
theorem protected_while_repaired_unread :
    ∃ p, run (step repairWindow) ⟨⟨filmStored, false⟩,
        [.repair oneHour "HASH/Film", .refresh keepErrored].map start⟩
        (List.replicate 6 (does 0) ++ List.replicate 3 (does 1)) = some p ∧
      filmInWindow p = (true, true) ∧
      ∀ t a, Acts p (does 1) t a → a ≠ .remove "HASH/Film" := by
  have htest : ((run (step repairWindow) ⟨⟨filmStored, false⟩,
      [.repair oneHour "HASH/Film", .refresh keepErrored].map start⟩
      (List.replicate 6 (does 0) ++ List.replicate 3 (does 1))).any fun p =>
        filmInWindow p == (true, true)) = true := by
    decide +kernel
  obtain ⟨p, hp, hin⟩ := (Option.any_eq_true _ _).mp htest
  have hin := beq_iff_eq.mp hin
  refine ⟨p, hp, hin, fun t a hacts => ?_⟩
  exact (protected_while_repaired "HASH/Film" oneHour filmStored [.refresh keepErrored] _ p
    (keyed_singleton soundFilm) (fun kind hkind => by rw [List.mem_singleton.mp hkind]; trivial)
    (along_of_check undisturbed_of_test _ _ (by decide +kernel)) hp (congrArg Prod.snd hin) (does 1)
    t a hacts).1

end RdRs.Torrent
