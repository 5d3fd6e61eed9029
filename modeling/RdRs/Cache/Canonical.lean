/-
  `cache/cache.rs`, `cache/eviction.rs` — one item for each key, with every thread in between.

  `Store.getOrCreate`, `Store.invalidate` and `Store.evictIdle` are single steps of the store.  Here a
  thread takes them map operation by map operation and counter operation by counter operation.  The
  fast path of `get_or_create` counts its handle while it has the entry, under the shard's read lock;
  the slow path lets go of the entry first (`Thread.marking`) and counts its handle afterwards.  An
  eviction pass looks at the idle keys one by one, and later removes each with `remove_if`.

  `invalidated` is the log of the invalidations, and not the program's.

  * `moves_of_act` — everything a step can do;
  * `canon_step` — handles are counted, and the entries that threads have or are about to have stand;
  * `canonical_of_steady` — an item in use is the one of the map, as long as no key is taken out of
    it between the entry and the handle of a slow path.
-/
import RdRs.Lib.Runs
import RdRs.Cache.Sizes

set_option linter.unusedVariables false

namespace RdRs.Cache

open RdRs.Runs RdRs.FileTree

/-! ## Threads -/

/-- The cache, the keys that are under a read lock, and the log of the invalidations. -/
structure Registry where
  store : Store
  readLocks : List String
  invalidated : List String

/-- Where a thread is. -/
inductive Thread where
  | idle
  /-- `get_or_create`, fast path: has the entry, under its read lock -/
  | found (key : String) (i : Nat)
  /-- `get_or_create`, slow path: the key was not there -/
  | missed (accessKey filename : String) (fileSize : Nat)
  /-- the entry was there or was made, and is let go of; the handle is not counted yet -/
  | marking (key : String) (i : Nat)
  /-- `get_or_create` has returned item `i`, after so many invalidations of the key -/
  | holds (key : String) (i : Nat) (invalidations : Nat)
  /-- `release` of the last handle, before the flush -/
  | flushing (i : Nat)
  /-- `invalidate`, the map entry gone -/
  | purging (accessKey filename : String)
  /-- an eviction pass, with the keys it has collected -/
  | collecting (now : Nat) (keys : List String)
  | removing (now : Nat) (keys : List String)
  /-- an item is out of the map, and not flushed yet -/
  | evicted (i now : Nat) (keys : List String)
deriving DecidableEq

inductive MapStep where
  | get (accessKey filename : String) (fileSize : Nat)
  | entry (now : Nat) (io : Store.OpenIo)
  | open_ (now : Nat)
  | release
  | flush (now : Nat) (dbOk : Bool)
  | invalidate (accessKey filename : String)
  | purge (removeOk dbOk : Bool)
  | evict (now : Nat)
  | visit (key : String)
  | collected
  | removeIf
  | finish

/-- `item.open()` at the end of `get_or_create`. -/
def Registry.hand (g : Registry) (key : String) (i now : Nat) : Registry × Thread :=
  ({ g with store := g.store.openItem i now }, .holds key i (g.invalidated.count key))

/-- One step of a thread.  What changes the map waits for the read locks of the key. -/
def Thread.act (g : Registry) : Thread → MapStep → Option (Registry × Thread)
  | .idle, .get accessKey filename fileSize =>
    let key := buildKey accessKey filename
    match g.store.map.lookup key with
    | some i => some ({ g with readLocks := key :: g.readLocks }, .found key i)
    | none => some (g, .missed accessKey filename fileSize)
  | .found key i, .open_ now =>
    some ({ g with readLocks := g.readLocks.erase key }.hand key i now)
  | .missed accessKey filename fileSize, .entry now io =>
    let key := buildKey accessKey filename
    if key ∈ g.readLocks then none
    else match g.store.map.lookup key with
      | some i => some (g, .marking key i)
      | none =>
        match g.store.openOrCreateWithDb (g.store.fileOf accessKey filename) key fileSize now io with
        | (s, .error _) => some ({ g with store := s }, .idle)
        | (s, .ok i) =>
          some ({ g with store := { s with map := s.map.insert key i } }, .marking key i)
  | .marking key i, .open_ now => some (g.hand key i now)
  | .holds _ i _, .release =>
    match g.store.closeHandle i with
    | (s, true) => some ({ g with store := s }, .flushing i)
    | (s, false) => some ({ g with store := s }, .idle)
  | .flushing i, .flush now dbOk =>
    some ({ g with store := g.store.flushRanges i true now dbOk }, .idle)
  | .idle, .invalidate accessKey filename =>
    let key := buildKey accessKey filename
    if key ∈ g.readLocks then none
    else some ({ g with
        store := { g.store with map := g.store.map.erase key }
        invalidated := key :: g.invalidated }, .purging accessKey filename)
  | .purging accessKey filename, .purge removeOk dbOk =>
    some ({ g with store := { g.store with
        fs := (g.store.fs.remove (g.store.fileOf accessKey filename) removeOk).1
        db := if dbOk then g.store.db.deleteKeys [buildKey accessKey filename] else g.store.db } },
      .idle)
  | .idle, .evict now => some (g, .collecting now [])
  | .collecting now keys, .visit key =>
    if key ∈ g.store.idleKeys now then some (g, .collecting now (keys ++ [key])) else none
  | .collecting now keys, .collected => some (g, .removing now keys)
  | .removing now (key :: keys), .removeIf =>
    if key ∈ g.readLocks then none
    else match g.store.dropIdle key with
      | (s, some i) => some ({ g with store := s }, .evicted i now keys)
      | (_, none) => some (g, .removing now keys)
  | .evicted i now keys, .flush _ dbOk =>
    some ({ g with store := g.store.flushRanges i true now dbOk }, .removing now keys)
  | .removing _ [], .finish => some (g, .idle)
  | _, _ => none

/-- The threads of the program, in any interleaving. -/
abbrev threads := Pool.step Thread.act

/-- **An item in use is the item of its key**: what `get_or_create` returned and was not released is
    what the map has under the key, unless the key was invalidated since. -/
def Canonical (p : Pool Registry Thread) : Prop :=
  ∀ key i n, .holds key i n ∈ p.tasks →
    p.shared.store.map.lookup key = some i ∨ n < p.shared.invalidated.count key

/-- A program that has just made its cache, over whatever files and rows there are. -/
def Idle (p : Pool Registry Thread) : Prop :=
  p.shared.store.items = [] ∧ p.shared.store.map = ∅ ∧ p.shared.readLocks = [] ∧
    p.shared.invalidated = [] ∧ ∀ t ∈ p.tasks, t = .idle

/-! ## Handles -/

/-- The handle counters of all items. -/
def Store.opens (s : Store) : List Nat := s.items.map (·.opens)

theorem Store.length_opens (s : Store) : s.opens.length = s.items.length := List.length_map _

theorem Store.opens_of_set {s s' : Store} {i : Nat} {it' : Item}
    (hitems : s'.items = s.items.set i it') : s'.opens = s.opens.set i it'.opens := by
  rw [Store.opens, hitems, List.map_set]
  rfl

theorem Store.opens_getElem? {s : Store} {i : Nat} {it : Item} (h : s.items[i]? = some it) :
    s.opens[i]? = some it.opens := by
  rw [Store.opens, List.getElem?_map, h]
  rfl

theorem Store.flushRanges_keeps (s : Store) (i : Nat) (force : Bool) (now : Nat) (dbOk : Bool) :
    (s.flushRanges i force now dbOk).opens = s.opens ∧
      (s.flushRanges i force now dbOk).map = s.map := by
  unfold Store.flushRanges
  split
  · exact ⟨rfl, rfl⟩
  · rename_i it hi
    split
    · refine ⟨?_, rfl⟩
      obtain ⟨hlt, hget⟩ := List.getElem?_eq_some_iff.mp (Store.opens_getElem? hi)
      rw [Store.opens_of_set rfl]
      show s.opens.set i it.opens = s.opens
      rw [← hget, List.set_getElem_self]
    · exact ⟨rfl, rfl⟩

theorem Store.openItem_opens (s : Store) (i now : Nat) :
    (s.openItem i now).opens = s.opens.modify i fun n => (n + 1) % 2 ^ 32 := by
  unfold Store.openItem
  split
  · rename_i hi
    rw [List.modify_eq_self]
    rw [Store.length_opens]
    exact List.getElem?_eq_none_iff.mp hi
  · rename_i it hi
    rw [Store.opens_of_set rfl, List.modify_eq_set_getElem?, Store.opens_getElem? hi]
    rfl

theorem Store.closeHandle_keeps (s : Store) (i : Nat) :
    (s.closeHandle i).1.opens = s.opens.modify i (fun n => n - 1) ∧
      (s.closeHandle i).1.map = s.map := by
  unfold Store.closeHandle
  split
  · rename_i hi
    refine ⟨?_, rfl⟩
    rw [List.modify_eq_self]
    rw [Store.length_opens]
    exact List.getElem?_eq_none_iff.mp hi
  · rename_i it hi
    refine ⟨?_, rfl⟩
    rw [Store.opens_of_set rfl, List.modify_eq_set_getElem?, Store.opens_getElem? hi]
    rfl

/-- A new item has no handles. -/
theorem Store.openOrCreateWithDb_opens {s s' : Store} {path : Path} {key : String} {n now : Nat}
    {io : OpenIo} {i : Nat} (h : s.openOrCreateWithDb path key n now io = (s', .ok i)) :
    i = s.items.length ∧ s'.opens = s.opens ++ [0] := by
  obtain ⟨hi, it, hitems, -, hopens⟩ := Store.openOrCreateWithDb_new h
  refine ⟨hi, ?_⟩
  rw [Store.opens, hitems, List.map_append, List.map_singleton, hopens]
  rfl

/-- `remove_if` takes out the item of the key, when it has no handles, or does nothing. -/
theorem Store.dropIdle_cases (s : Store) (key : String) :
    (∃ i, s.map.lookup key = some i ∧ s.opens[i]? = some 0 ∧
      s.dropIdle key = ({ s with map := s.map.erase key }, some i)) ∨
    s.dropIdle key = (s, none) := by
  unfold Store.dropIdle
  split
  · exact Or.inr rfl
  · rename_i i hi
    split
    · exact Or.inr rfl
    · rename_i it hit
      split
      · exact Or.inr rfl
      · rename_i hopen
        refine Or.inl ⟨i, hi, ?_, rfl⟩
        rw [Store.opens_getElem? hit]
        unfold Item.isOpen at hopen
        simp only [decide_eq_true_eq] at hopen
        rw [Nat.eq_zero_of_not_pos hopen]

/-! ## What a step can do -/

/-- The thread has an entry, or is about to have a handle for it. -/
def Thread.pins : Thread → Option (String × Nat)
  | .found key i => some (key, i)
  | .marking key i => some (key, i)
  | _ => none

/-- The key a thread has under its read lock. -/
def Thread.reads : Thread → Option String
  | .found key _ => some key
  | _ => none

/-- The key of an entry that was let go of. -/
def Thread.marks : Thread → Option String
  | .marking key _ => some key
  | _ => none

/-- The item a thread has a handle of. -/
def Thread.item : Thread → Option Nat
  | .holds _ i _ => some i
  | _ => none

/-- Neither an entry nor a handle. -/
def Thread.Free (l : Thread) : Prop := l.pins = none ∧ l.reads = none ∧ l.item = none

/-- The key that a step takes out of the map. -/
def takesOut (g : Registry) : Thread → MapStep → Option String
  | .idle, .invalidate accessKey filename => some (buildKey accessKey filename)
  | .removing _ (key :: _), .removeIf => (g.store.dropIdle key).2.map fun _ => key
  | _, _ => none

/-- Everything a step can do. -/
inductive Takes (g : Registry) : Thread → MapStep → Registry → Thread → Prop where
  | quiet (l l' : Thread) (a : MapStep) (s : Store) : s.map = g.store.map →
      s.opens = g.store.opens → l.Free → l'.Free → takesOut g l a = none →
      Takes g l a { g with store := s } l'
  | get (accessKey filename key : String) (fileSize i : Nat) : g.store.map.lookup key = some i →
      Takes g .idle (.get accessKey filename fileSize) { g with readLocks := key :: g.readLocks }
        (.found key i)
  | handFound (key : String) (i now : Nat) :
      Takes g (.found key i) (.open_ now)
        { g with readLocks := g.readLocks.erase key, store := g.store.openItem i now }
        (.holds key i (g.invalidated.count key))
  | entry (accessKey filename key : String) (fileSize now i : Nat) (io : Store.OpenIo) :
      g.store.map.lookup key = some i →
      Takes g (.missed accessKey filename fileSize) (.entry now io) g (.marking key i)
  | create (accessKey filename key : String) (fileSize now : Nat) (io : Store.OpenIo) (s : Store) :
      key ∉ g.readLocks → g.store.map.lookup key = none → s.map = g.store.map →
      s.opens = g.store.opens ++ [0] →
      Takes g (.missed accessKey filename fileSize) (.entry now io)
        { g with store := { s with map := s.map.insert key g.store.items.length } }
        (.marking key g.store.items.length)
  | handMarked (key : String) (i now : Nat) :
      Takes g (.marking key i) (.open_ now) { g with store := g.store.openItem i now }
        (.holds key i (g.invalidated.count key))
  | release (key : String) (i n : Nat) (s : Store) (l' : Thread) : s.map = g.store.map →
      s.opens = g.store.opens.modify i (fun n => n - 1) → l'.Free →
      Takes g (.holds key i n) .release { g with store := s } l'
  | invalidate (accessKey filename key : String) : key = buildKey accessKey filename →
      key ∉ g.readLocks →
      Takes g .idle (.invalidate accessKey filename)
        { g with
          store := { g.store with map := g.store.map.erase key }
          invalidated := key :: g.invalidated } (.purging accessKey filename)
  | removeIf (key : String) (i now : Nat) (keys : List String) : key ∉ g.readLocks →
      g.store.map.lookup key = some i → g.store.opens[i]? = some 0 →
      Takes g (.removing now (key :: keys)) .removeIf
        { g with store := { g.store with map := g.store.map.erase key } } (.evicted i now keys)

/-- **The inversion of a step.** -/
theorem takes_of_act {g g' : Registry} {l l' : Thread} {a : MapStep}
    (h : l.act g a = some (g', l')) : Takes g l a g' l' := by
  unfold Thread.act at h
  split at h
  · -- `get`
    simp only at h
    split at h
    · rename_i i hi
      obtain ⟨rfl, rfl⟩ := Prod.mk.inj (Option.some.inj h)
      exact .get _ _ _ _ i hi
    · obtain ⟨rfl, rfl⟩ := Prod.mk.inj (Option.some.inj h)
      exact .quiet _ _ _ g.store rfl rfl ⟨rfl, rfl, rfl⟩ ⟨rfl, rfl, rfl⟩ rfl
  · obtain ⟨rfl, rfl⟩ := Prod.mk.inj (Option.some.inj h)
    exact .handFound _ _ _
  · -- `entry`
    rename_i accessKey filename fileSize now io
    simp only at h
    split at h
    · exact absurd h (by simp)
    · rename_i hfree
      split at h
      · rename_i i hi
        obtain ⟨rfl, rfl⟩ := Prod.mk.inj (Option.some.inj h)
        exact .entry _ _ _ _ _ i _ hi
      · rename_i hnone
        have hmap := g.store.openOrCreateWithDb_map (g.store.fileOf accessKey filename)
          (buildKey accessKey filename) fileSize now io
        split at h
        · rename_i s e hs
          obtain ⟨rfl, rfl⟩ := Prod.mk.inj (Option.some.inj h)
          rw [hs] at hmap
          refine .quiet _ _ _ s hmap ?_ ⟨rfl, rfl, rfl⟩ ⟨rfl, rfl, rfl⟩ rfl
          rw [Store.opens, Store.openOrCreateWithDb_error hs]
          rfl
        · rename_i s i hs
          obtain ⟨rfl, rfl⟩ := Prod.mk.inj (Option.some.inj h)
          rw [hs] at hmap
          obtain ⟨rfl, hopens⟩ := Store.openOrCreateWithDb_opens hs
          exact .create _ _ _ _ _ _ s hfree hnone hmap hopens
  · obtain ⟨rfl, rfl⟩ := Prod.mk.inj (Option.some.inj h)
    exact .handMarked _ _ _
  · -- `release`
    rename_i key i n
    obtain ⟨hopens, hmap⟩ := g.store.closeHandle_keeps i
    split at h
    · rename_i s hs
      obtain ⟨rfl, rfl⟩ := Prod.mk.inj (Option.some.inj h)
      rw [hs] at hopens hmap
      exact .release _ _ _ s _ hmap hopens ⟨rfl, rfl, rfl⟩
    · rename_i s hs
      obtain ⟨rfl, rfl⟩ := Prod.mk.inj (Option.some.inj h)
      rw [hs] at hopens hmap
      exact .release _ _ _ s _ hmap hopens ⟨rfl, rfl, rfl⟩
  · obtain ⟨rfl, rfl⟩ := Prod.mk.inj (Option.some.inj h)
    obtain ⟨hopens, hmap⟩ := g.store.flushRanges_keeps _ _ _ _
    exact .quiet _ _ _ _ hmap hopens ⟨rfl, rfl, rfl⟩ ⟨rfl, rfl, rfl⟩ rfl
  · -- `invalidate`
    simp only at h
    split at h
    · exact absurd h (by simp)
    · rename_i hfree
      obtain ⟨rfl, rfl⟩ := Prod.mk.inj (Option.some.inj h)
      exact .invalidate _ _ _ rfl hfree
  · obtain ⟨rfl, rfl⟩ := Prod.mk.inj (Option.some.inj h)
    exact .quiet _ _ _ _ rfl rfl ⟨rfl, rfl, rfl⟩ ⟨rfl, rfl, rfl⟩ rfl
  · obtain ⟨rfl, rfl⟩ := Prod.mk.inj (Option.some.inj h)
    exact .quiet _ _ _ g.store rfl rfl ⟨rfl, rfl, rfl⟩ ⟨rfl, rfl, rfl⟩ rfl
  · split at h
    · obtain ⟨rfl, rfl⟩ := Prod.mk.inj (Option.some.inj h)
      exact .quiet _ _ _ g.store rfl rfl ⟨rfl, rfl, rfl⟩ ⟨rfl, rfl, rfl⟩ rfl
    · exact absurd h (by simp)
  · obtain ⟨rfl, rfl⟩ := Prod.mk.inj (Option.some.inj h)
    exact .quiet _ _ _ g.store rfl rfl ⟨rfl, rfl, rfl⟩ ⟨rfl, rfl, rfl⟩ rfl
  · -- `remove_if`
    rename_i now key keys
    split at h
    · exact absurd h (by simp)
    · rename_i hfree
      rcases g.store.dropIdle_cases key with ⟨i, hi, hopens, hs⟩ | hs
      · rw [hs] at h
        obtain ⟨rfl, rfl⟩ := Prod.mk.inj (Option.some.inj h)
        exact .removeIf key i now keys hfree hi hopens
      · rw [hs] at h
        obtain ⟨rfl, rfl⟩ := Prod.mk.inj (Option.some.inj h)
        refine .quiet _ _ _ g.store rfl rfl ⟨rfl, rfl, rfl⟩ ⟨rfl, rfl, rfl⟩ ?_
        rw [takesOut, hs]
        rfl
  · obtain ⟨rfl, rfl⟩ := Prod.mk.inj (Option.some.inj h)
    obtain ⟨hopens, hmap⟩ := g.store.flushRanges_keeps _ _ _ _
    exact .quiet _ _ _ _ hmap hopens ⟨rfl, rfl, rfl⟩ ⟨rfl, rfl, rfl⟩ rfl
  · obtain ⟨rfl, rfl⟩ := Prod.mk.inj (Option.some.inj h)
    exact .quiet _ _ _ g.store rfl rfl ⟨rfl, rfl, rfl⟩ ⟨rfl, rfl, rfl⟩ rfl
  · exact absurd h (by simp)

/-! ## A thread alone

Without others in between, the steps of a thread add up to the operations of the store. -/

theorem getOrCreate_alone (g : Registry) (hfree : g.readLocks = []) (accessKey filename : String)
    (fileSize now : Nat) (io : Store.OpenIo) :
    ∃ es q, run threads ⟨g, [.idle]⟩ es = some q ∧
      q.shared.store = (g.store.getOrCreate accessKey filename fileSize now io).1 := by
  unfold Store.getOrCreate
  simp only
  cases hlook : g.store.map.lookup (buildKey accessKey filename) with
  | some i =>
    have hfound : Thread.act g .idle (.get accessKey filename fileSize) = some
        ({ g with readLocks := buildKey accessKey filename :: g.readLocks },
          .found (buildKey accessKey filename) i) := by
      simp only [Thread.act, hlook]
    exact ⟨[(0, .get accessKey filename fileSize), (0, .open_ now)], _,
      Pool.run_alone hfound (Pool.run_alone rfl (run_nil _ _)), rfl⟩
  | none =>
    have hmissed : Thread.act g .idle (.get accessKey filename fileSize) = some
        (g, .missed accessKey filename fileSize) := by
      simp only [Thread.act, hlook]
    have hunlocked : buildKey accessKey filename ∉ g.readLocks := by
      rw [hfree]
      exact List.not_mem_nil
    cases hmade : g.store.openOrCreateWithDb (g.store.fileOf accessKey filename)
      (buildKey accessKey filename) fileSize now io with
    | mk s r =>
      cases r with
      | error e =>
        have hentry : Thread.act g (.missed accessKey filename fileSize) (.entry now io) = some
            ({ g with store := s }, .idle) := by
          simp only [Thread.act, hlook, if_neg hunlocked, hmade]
        exact ⟨[(0, .get accessKey filename fileSize), (0, .entry now io)], _,
          Pool.run_alone hmissed (Pool.run_alone hentry (run_nil _ _)), rfl⟩
      | ok i =>
        have hentry : Thread.act g (.missed accessKey filename fileSize) (.entry now io) = some
            ({ g with store := { s with map := s.map.insert (buildKey accessKey filename) i } },
              .marking (buildKey accessKey filename) i) := by
          simp only [Thread.act, hlook, if_neg hunlocked, hmade]
        exact ⟨[(0, .get accessKey filename fileSize), (0, .entry now io), (0, .open_ now)], _,
          Pool.run_alone hmissed (Pool.run_alone hentry (Pool.run_alone rfl (run_nil _ _))), rfl⟩

theorem invalidate_alone (g : Registry) (hfree : g.readLocks = []) (accessKey filename : String)
    (removeOk dbOk : Bool) :
    ∃ es q, run threads ⟨g, [.idle]⟩ es = some q ∧
      q.shared.store = g.store.invalidate accessKey filename removeOk dbOk := by
  have hdrop : Thread.act g .idle (.invalidate accessKey filename) = some
      ({ g with
          store := { g.store with map := g.store.map.erase (buildKey accessKey filename) }
          invalidated := buildKey accessKey filename :: g.invalidated },
        .purging accessKey filename) := by
    simp only [Thread.act, hfree, List.not_mem_nil, if_false]
  exact ⟨[(0, .invalidate accessKey filename), (0, .purge removeOk dbOk)], _,
    Pool.run_alone hdrop (Pool.run_alone rfl (run_nil _ _)), rfl⟩

/-- One key of an eviction pass. -/
theorem evictIdle_alone (g : Registry) (hfree : g.readLocks = []) (key : String)
    (keys : List String) (now : Nat) (dbOk : Bool) :
    ∃ es q, run threads ⟨g, [.removing now (key :: keys)]⟩ es = some q ∧
      q.tasks = [.removing now keys] ∧ q.shared.store = g.store.evictIdle key now dbOk := by
  unfold Store.evictIdle
  cases hdrop : g.store.dropIdle key with
  | mk s r =>
    cases r with
    | some i =>
      have hremove : Thread.act g (.removing now (key :: keys)) .removeIf = some
          ({ g with store := s }, .evicted i now keys) := by
        simp only [Thread.act, hfree, List.not_mem_nil, if_false, hdrop]
      exact ⟨[(0, .removeIf), (0, .flush now dbOk)], _,
        Pool.run_alone hremove (Pool.run_alone rfl (run_nil _ _)), rfl, rfl⟩
    | none =>
      have hsame : s = g.store := by
        rcases g.store.dropIdle_cases key with ⟨i, -, -, hs⟩ | hs
        · exact absurd (Prod.mk.inj (hdrop.symm.trans hs)).2 (by simp)
        · exact (Prod.mk.inj (hdrop.symm.trans hs)).1
      have hkeep : Thread.act g (.removing now (key :: keys)) .removeIf = some
          (g, .removing now keys) := by
        simp only [Thread.act, hfree, List.not_mem_nil, if_false, hdrop]
      exact ⟨[(0, .removeIf)], _, Pool.run_alone hkeep (run_nil _ _), rfl, hsame.symm⟩

/-! ## The invariant -/

/-- One read lock of the key. -/
def Thread.locks (key : String) (l : Thread) : Nat := if l.reads = some key then 1 else 0

/-- One handle of the item. -/
def Thread.handles (i : Nat) (l : Thread) : Nat := if l.item = some i then 1 else 0

/-- What holds in every state: locks and handles are counted, an entry that a thread has or has just
    let go of is in the map, and a handle is for an item of the map unless the key was
    invalidated. -/
structure Canon (p : Pool Registry Thread) : Prop where
  mapped : p.shared.store.Mapped
  locks : ∀ key, (p.tasks.map (Thread.locks key)).sum = p.shared.readLocks.count key
  opens : ∀ i n, p.shared.store.opens[i]? = some n → n = (p.tasks.map (Thread.handles i)).sum
  entries : ∀ l ∈ p.tasks, ∀ key i, l.pins = some (key, i) → p.shared.store.map.lookup key = some i
  items : ∀ l ∈ p.tasks, ∀ i, l.item = some i → i < p.shared.store.items.length
  holders : ∀ key i n, .holds key i n ∈ p.tasks → n ≤ p.shared.invalidated.count key ∧
    (p.shared.store.map.lookup key = some i ∨ n < p.shared.invalidated.count key)

/-- The item that a step counts a handle of. -/
def opening : Thread → MapStep → Option Nat
  | .found _ i, .open_ _ => some i
  | .marking _ i, .open_ _ => some i
  | _, _ => none

/-- **The condition on a step.**  No key is taken out of the map while a slow path has let go of its
    entry and not counted its handle; and a counter of handles does not wrap around. -/
def Steady (p : Pool Registry Thread) (e : Nat × MapStep) : Prop :=
  ∀ l ∈ p.tasks[e.1]?, (∀ key ∈ takesOut p.shared l e.2, ∀ k ∈ p.tasks, k.marks ≠ some key) ∧
    ∀ i ∈ opening l e.2, ∀ n ∈ p.shared.store.opens[i]?, n + 1 < 2 ^ 32

instance (p : Pool Registry Thread) (e : Nat × MapStep) : Decidable (Steady p e) :=
  inferInstanceAs (Decidable (∀ l ∈ p.tasks[e.1]?,
    (∀ key ∈ takesOut p.shared l e.2, ∀ k ∈ p.tasks, k.marks ≠ some key) ∧
      ∀ i ∈ opening l e.2, ∀ n ∈ p.shared.store.opens[i]?, n + 1 < 2 ^ 32))

theorem one_le_sum {v : Thread → Nat} {l : Thread} {ls : List Thread} (hl : l ∈ ls) (hv : v l = 1) :
    1 ≤ (ls.map v).sum := by
  rw [← hv]
  exact List.single_le_sum (fun n _ => Nat.zero_le n) _ (List.mem_map_of_mem hl)

/-- A key without read locks has no thread on the fast path. -/
theorem Canon.reads_ne {p : Pool Registry Thread} (h : Canon p) {key : String}
    (hfree : key ∉ p.shared.readLocks) : ∀ l ∈ p.tasks, l.reads ≠ some key := by
  intro l hl hreads
  have hone := one_le_sum (v := Thread.locks key) hl (if_pos hreads)
  rw [h.locks key, List.count_eq_zero.mpr hfree] at hone
  exact absurd hone (by decide)

/-- An item without handles has no holder. -/
theorem Canon.item_ne {p : Pool Registry Thread} (h : Canon p) {i : Nat}
    (hidle : p.shared.store.opens[i]? = some 0) : ∀ l ∈ p.tasks, l.item ≠ some i := by
  intro l hl hitem
  have hone := one_le_sum (v := Thread.handles i) hl (if_pos hitem)
  rw [← h.opens i 0 hidle] at hone
  exact absurd hone (by decide)

/-- Entries that a thread pins are read or marked. -/
theorem reads_or_marks {l : Thread} {key : String} {i : Nat} (h : l.pins = some (key, i)) :
    l.reads = some key ∨ l.marks = some key := by
  cases l with
  | found k j =>
    obtain ⟨rfl, -⟩ := Prod.mk.inj (Option.some.inj h)
    exact Or.inl rfl
  | marking k j =>
    obtain ⟨rfl, -⟩ := Prod.mk.inj (Option.some.inj h)
    exact Or.inr rfl
  | idle | missed _ _ _ | holds _ _ _ | flushing _ | purging _ _ | collecting _ _ | removing _ _
  | evicted _ _ _ => exact absurd h (by simp [Thread.pins])

theorem Thread.Free.locks {l : Thread} (h : l.Free) (key : String) : l.locks key = 0 := by
  rw [Thread.locks, h.2.1, if_neg (by simp)]

theorem Thread.Free.handles {l : Thread} (h : l.Free) (i : Nat) : l.handles i = 0 := by
  rw [Thread.handles, h.2.2, if_neg (by simp)]

/-- A step counts its read lock. -/
theorem Takes.locks {g g' : Registry} {l l' : Thread} {a : MapStep} (h : Takes g l a g' l')
    (key : String) (hle : l.locks key ≤ g.readLocks.count key) :
    l'.locks key + g.readLocks.count key = l.locks key + g'.readLocks.count key := by
  have hfound : ∀ k i, Thread.locks key (.found k i) = if k = key then 1 else 0 := by
    intro k i
    simp only [Thread.locks, Thread.reads, Option.some.injEq]
  cases h with
  | quiet _ _ _ s _ _ hfree hfree' _ => rw [hfree.locks, hfree'.locks]
  | get accessKey filename k fileSize i _ =>
    show _ = 0 + (k :: g.readLocks).count key
    rw [hfound, List.count_cons]
    simp only [beq_iff_eq]
    omega
  | handFound k i now =>
    show 0 + _ = _ + (g.readLocks.erase k).count key
    rw [hfound] at hle ⊢
    rw [List.count_erase]
    simp only [beq_iff_eq]
    omega
  | release k i n s l' _ _ hfree' => rw [hfree'.locks]; rfl
  | entry _ _ _ _ _ _ _ _ | create _ _ _ _ _ _ _ _ _ _ _ | handMarked _ _ _ | invalidate _ _ _ _ _
  | removeIf _ _ _ _ _ _ _ => rfl

/-- A step counts its handle, and a new item has none. -/
theorem Takes.handles {g g' : Registry} {l l' : Thread} {a : MapStep} (h : Takes g l a g' l')
    (hwrap : ∀ i ∈ opening l a, ∀ n ∈ g.store.opens[i]?, n + 1 < 2 ^ 32) {i m : Nat}
    (hm : g'.store.opens[i]? = some m)
    (hle : ∀ n, g.store.opens[i]? = some n → l.handles i ≤ n) :
    (∃ n, g.store.opens[i]? = some n ∧ m + l.handles i = n + l'.handles i) ∨
      i = g.store.items.length ∧ m = 0 ∧ l.handles i = 0 ∧ l'.handles i = 0 := by
  have hholds : ∀ key j n, Thread.handles i (.holds key j n) = if j = i then 1 else 0 := by
    intro key j n
    simp only [Thread.handles, Thread.item, Option.some.injEq]
  have hhand : ∀ (j now key n) (s : Store), s.opens = g.store.opens →
      (s.openItem j now).opens[i]? = some m →
      (∀ n ∈ g.store.opens[j]?, n + 1 < 2 ^ 32) →
      ∃ n', g.store.opens[i]? = some n' ∧ m + 0 = n' + Thread.handles i (.holds key j n) := by
    intro j now key n s hs hopens hbound
    rw [Store.openItem_opens, hs, List.getElem?_modify] at hopens
    obtain ⟨n', hn', hm'⟩ := Option.map_eq_some_iff.mp hopens
    refine ⟨n', hn', ?_⟩
    rw [hholds]
    by_cases hji : j = i
    · subst hji
      have := hbound n' hn'
      simp only [if_true] at hm' ⊢
      rw [Nat.mod_eq_of_lt this] at hm'
      omega
    · simp only [if_neg hji] at hm' ⊢
      omega
  cases h with
  | quiet _ _ _ s _ hopens hfree hfree' _ =>
    refine Or.inl ⟨m, by rw [← hopens]; exact hm, ?_⟩
    rw [hfree.handles, hfree'.handles]
  | get _ _ _ _ _ _ => exact Or.inl ⟨m, hm, rfl⟩
  | handFound key j now => exact Or.inl (hhand j now key _ g.store rfl hm (hwrap j rfl))
  | entry _ _ _ _ _ _ _ _ => exact Or.inl ⟨m, hm, rfl⟩
  | create _ _ key _ _ _ s _ _ _ hopens =>
    change s.opens[i]? = some m at hm
    rw [hopens, List.getElem?_append] at hm
    split at hm
    · exact Or.inl ⟨m, hm, rfl⟩
    · rename_i hge
      have hlen := g.store.length_opens
      obtain ⟨hlt, hget⟩ := List.getElem?_eq_some_iff.mp hm
      rw [List.length_singleton] at hlt
      have hi : i = g.store.items.length := by omega
      refine Or.inr ⟨hi, ?_, rfl, rfl⟩
      rw [← hget, List.getElem_singleton]
  | handMarked key j now => exact Or.inl (hhand j now key _ g.store rfl hm (hwrap j rfl))
  | release key j n s l' _ hopens hfree' =>
    change s.opens[i]? = some m at hm
    rw [hopens, List.getElem?_modify] at hm
    obtain ⟨n', hn', hm'⟩ := Option.map_eq_some_iff.mp hm
    refine Or.inl ⟨n', hn', ?_⟩
    have hone := hle n' hn'
    rw [hfree'.handles]
    rw [hholds] at hone ⊢
    by_cases hji : j = i
    · subst hji
      simp only [if_true] at hm' hone ⊢
      omega
    · simp only [if_neg hji] at hm' ⊢
      omega
  | invalidate _ _ _ _ _ => exact Or.inl ⟨m, hm, rfl⟩
  | removeIf _ _ _ _ _ _ _ => exact Or.inl ⟨m, hm, rfl⟩

theorem takesOut_removeIf {g : Registry} {key : String} {i now : Nat} {keys : List String}
    (hi : g.store.map.lookup key = some i) (hidle : g.store.opens[i]? = some 0) :
    takesOut g (.removing now (key :: keys)) .removeIf = some key := by
  obtain ⟨it, hit, hopens⟩ : ∃ it, g.store.items[i]? = some it ∧ it.opens = 0 := by
    rw [Store.opens, List.getElem?_map] at hidle
    exact Option.map_eq_some_iff.mp hidle
  have hclosed : it.isOpen = false := by
    unfold Item.isOpen
    rw [hopens]
    rfl
  show (g.store.dropIdle key).2.map (fun _ => key) = some key
  unfold Store.dropIdle
  simp only [hi, hit, hclosed, Bool.false_eq_true, if_false, Option.map_some]

/-- An entry stands unless the step takes it out. -/
theorem Takes.lookup {g g' : Registry} {l l' : Thread} {a : MapStep} (h : Takes g l a g' l')
    {key : String} {i : Nat} (hi : g.store.map.lookup key = some i)
    (hkeep : takesOut g l a ≠ some key) : g'.store.map.lookup key = some i := by
  cases h with
  | quiet _ _ _ s hmap _ _ _ _ =>
    show s.map.lookup key = some i
    rw [hmap]
    exact hi
  | get _ _ _ _ _ _ => exact hi
  | handFound k j now =>
    show (g.store.openItem j now).map.lookup key = some i
    rw [Store.openItem_map]
    exact hi
  | entry _ _ _ _ _ _ _ _ => exact hi
  | create _ _ k _ _ _ s _ hnone hmap _ =>
    have hne : key ≠ k := by
      rintro rfl
      exact absurd (hnone.symm.trans hi) (by simp)
    show (s.map.insert k _).lookup key = some i
    rw [AList.lookup_insert_ne hne, hmap]
    exact hi
  | handMarked k j now =>
    show (g.store.openItem j now).map.lookup key = some i
    rw [Store.openItem_map]
    exact hi
  | release _ _ _ s _ hmap _ _ =>
    show s.map.lookup key = some i
    rw [hmap]
    exact hi
  | invalidate accessKey filename k hk _ =>
    have hne : key ≠ k := by
      rintro rfl
      exact hkeep (by rw [hk]; rfl)
    show (g.store.map.erase k).lookup key = some i
    rw [AList.lookup_erase_ne hne]
    exact hi
  | removeIf k j now keys _ hj hidle =>
    have hne : key ≠ k := by
      rintro rfl
      exact hkeep (takesOut_removeIf hj hidle)
    show (g.store.map.erase k).lookup key = some i
    rw [AList.lookup_erase_ne hne]
    exact hi

/-- What is taken out of the map is not locked, and was invalidated or has no handles. -/
theorem Takes.takesOut {g g' : Registry} {l l' : Thread} {a : MapStep} (h : Takes g l a g' l')
    {key : String} (hout : takesOut g l a = some key) :
    key ∉ g.readLocks ∧ (g'.invalidated = key :: g.invalidated ∨
      ∃ i, g.store.map.lookup key = some i ∧ g.store.opens[i]? = some 0) := by
  cases h with
  | quiet _ _ _ _ _ _ _ _ hnone => exact absurd (hnone.symm.trans hout) (by simp)
  | invalidate accessKey filename k hk hfree =>
    obtain rfl : k = key := hk.trans (Option.some.inj hout)
    exact ⟨hfree, Or.inl rfl⟩
  | removeIf k i now keys hfree hi hidle =>
    obtain rfl : k = key := Option.some.inj ((takesOut_removeIf hi hidle).symm.trans hout)
    exact ⟨hfree, Or.inr ⟨i, hi, hidle⟩⟩
  | get _ _ _ _ _ _ | handFound _ _ _ | entry _ _ _ _ _ _ _ _ | create _ _ _ _ _ _ _ _ _ _ _
  | handMarked _ _ _ | release _ _ _ _ _ _ _ _ => exact absurd hout (by simp [Cache.takesOut])

theorem Takes.invalidated {g g' : Registry} {l l' : Thread} {a : MapStep} (h : Takes g l a g' l')
    (key : String) : g.invalidated.count key ≤ g'.invalidated.count key := by
  cases h with
  | invalidate accessKey filename k _ _ => exact List.count_le_count_cons
  | quiet _ _ _ _ _ _ _ _ _ | get _ _ _ _ _ _ | handFound _ _ _ | entry _ _ _ _ _ _ _ _
  | create _ _ _ _ _ _ _ _ _ _ _ | handMarked _ _ _ | release _ _ _ _ _ _ _ _
  | removeIf _ _ _ _ _ _ _ => exact Nat.le_refl _

/-- The items of before are still there. -/
theorem Takes.items {g g' : Registry} {l l' : Thread} {a : MapStep} (h : Takes g l a g' l') :
    g.store.items.length ≤ g'.store.items.length := by
  rw [← Store.length_opens, ← Store.length_opens]
  cases h with
  | quiet _ _ _ s _ hopens _ _ _ => exact Nat.le_of_eq (congrArg List.length hopens).symm
  | handFound k j now => rw [Store.openItem_opens, List.length_modify]
  | create _ _ k _ _ _ s _ _ _ hopens =>
    show _ ≤ s.opens.length
    rw [hopens, List.length_append]
    exact Nat.le_add_right _ _
  | handMarked k j now => rw [Store.openItem_opens, List.length_modify]
  | release _ _ _ s _ _ hopens _ =>
    show _ ≤ s.opens.length
    rw [hopens, List.length_modify]
  | get _ _ _ _ _ _ | entry _ _ _ _ _ _ _ _ | invalidate _ _ _ _ _ | removeIf _ _ _ _ _ _ _ =>
    exact Nat.le_refl _

/-- The map leads to items. -/
theorem Takes.mapped {g g' : Registry} {l l' : Thread} {a : MapStep} (h : Takes g l a g' l')
    (hg : g.store.Mapped) : g'.store.Mapped := by
  intro key i hi
  have hold : g.store.map.lookup key = some i → i < g'.store.items.length := fun hi =>
    Nat.lt_of_lt_of_le (hg key i hi) h.items
  cases h with
  | quiet _ _ _ s hmap _ _ _ _ => exact hold (by rw [← hmap]; exact hi)
  | handFound k j now => exact hold (by rw [← Store.openItem_map]; exact hi)
  | create _ _ k _ _ _ s _ _ hmap hopens =>
    change (s.map.insert k _).lookup key = some i at hi
    by_cases hkey : key = k
    · rw [hkey, AList.lookup_insert] at hi
      obtain rfl := Option.some.inj hi
      show _ < s.items.length
      rw [← Store.length_opens s, hopens, List.length_append, Store.length_opens]
      exact Nat.lt_succ_self _
    · rw [AList.lookup_insert_ne hkey, hmap] at hi
      exact hold hi
  | handMarked k j now => exact hold (by rw [← Store.openItem_map]; exact hi)
  | release _ _ _ s _ hmap _ _ => exact hold (by rw [← hmap]; exact hi)
  | get _ _ _ _ _ _ | entry _ _ _ _ _ _ _ _ => exact hold hi
  | invalidate _ _ k _ _ => exact hold ((g.store.shrinks_erase k).map key i hi)
  | removeIf k _ _ _ _ _ _ => exact hold ((g.store.shrinks_erase k).map key i hi)

/-- Who has an entry after its step has found or made it. -/
theorem Takes.pins {g g' : Registry} {l l' : Thread} {a : MapStep} (h : Takes g l a g' l')
    {key : String} {i : Nat} (hpins : l'.pins = some (key, i)) :
    g'.store.map.lookup key = some i := by
  cases h with
  | get _ _ k _ j hj =>
    obtain ⟨rfl, rfl⟩ := Prod.mk.inj (Option.some.inj hpins)
    exact hj
  | entry _ _ k _ _ j _ hj =>
    obtain ⟨rfl, rfl⟩ := Prod.mk.inj (Option.some.inj hpins)
    exact hj
  | create _ _ k _ _ _ s _ _ _ _ =>
    obtain ⟨rfl, rfl⟩ := Prod.mk.inj (Option.some.inj hpins)
    exact AList.lookup_insert s.map
  | quiet _ _ _ _ _ _ _ hfree' _ => exact absurd (hfree'.1.symm.trans hpins) (by simp)
  | release _ _ _ _ _ _ _ hfree' => exact absurd (hfree'.1.symm.trans hpins) (by simp)
  | handFound _ _ _ | handMarked _ _ _ | invalidate _ _ _ _ _ | removeIf _ _ _ _ _ _ _ =>
    exact absurd hpins (by simp [Thread.pins])

/-- Who has a handle after its step had the entry before, and the log is as it was. -/
theorem Takes.holds {g g' : Registry} {l l' : Thread} {a : MapStep} (h : Takes g l a g' l')
    {key : String} {i n : Nat} (hl : l' = .holds key i n) :
    l.pins = some (key, i) ∧ g'.store.map = g.store.map ∧ n = g'.invalidated.count key := by
  cases h with
  | handFound k j now =>
    obtain ⟨rfl, rfl, rfl⟩ := Thread.holds.inj hl
    exact ⟨rfl, Store.openItem_map _ _ _, rfl⟩
  | handMarked k j now =>
    obtain ⟨rfl, rfl, rfl⟩ := Thread.holds.inj hl
    exact ⟨rfl, Store.openItem_map _ _ _, rfl⟩
  | quiet _ _ _ _ _ _ _ hfree' _ =>
    rw [hl] at hfree'
    exact absurd hfree'.2.2 (by simp [Thread.item])
  | release _ _ _ _ _ _ _ hfree' =>
    rw [hl] at hfree'
    exact absurd hfree'.2.2 (by simp [Thread.item])
  | get _ _ _ _ _ _ | entry _ _ _ _ _ _ _ _ | create _ _ _ _ _ _ _ _ _ _ _ | invalidate _ _ _ _ _
  | removeIf _ _ _ _ _ _ _ => exact absurd hl (by simp)

/-- **A step keeps the invariant**, if it takes nothing out between an entry and its handle. -/
theorem canon_step (p : Pool Registry Thread) (e : Nat × MapStep) (q : Pool Registry Thread)
    (hp : Canon p) (hsteady : Steady p e) (h : threads p e = some q) : Canon q := by
  obtain ⟨l, l', hl, hact, -, hmem, -, hsum⟩ := Pool.frame h
  have htakes := takes_of_act hact
  have hl' := List.mem_of_getElem? hl
  obtain ⟨hout, hwrap⟩ := hsteady l hl
  refine ⟨htakes.mapped hp.mapped, fun key => ?_, fun i m hm => ?_, fun k hk key i hpins => ?_,
    fun k hk i hi => ?_, fun key i n hk => ?_⟩
  · have hle : l.locks key ≤ p.shared.readLocks.count key := by
      rw [← hp.locks key]
      exact List.single_le_sum (fun n _ => Nat.zero_le n) _ (List.mem_map_of_mem hl')
    have hcount := htakes.locks key hle
    have hbefore := hp.locks key
    have hframe := hsum (Thread.locks key)
    omega
  · have hframe := hsum (Thread.handles i)
    have hle : ∀ n, p.shared.store.opens[i]? = some n → l.handles i ≤ n := by
      intro n hn
      rw [hp.opens i n hn]
      exact List.single_le_sum (fun n _ => Nat.zero_le n) _ (List.mem_map_of_mem hl')
    rcases htakes.handles hwrap hm hle with ⟨n, hn, hcount⟩ | ⟨hnew, rfl, h0, h0'⟩
    · have hbefore := hp.opens i n hn
      omega
    · have hnone : (p.tasks.map (Thread.handles i)).sum = 0 := by
        refine List.sum_eq_zero fun n hn => ?_
        obtain ⟨k, hk, rfl⟩ := List.mem_map.mp hn
        refine if_neg fun hi => ?_
        exact absurd (hp.items k hk i hi) (by omega)
      omega
  · rcases hmem k hk with rfl | hk
    · exact htakes.pins hpins
    · refine htakes.lookup (hp.entries k hk key i hpins) fun hgone => ?_
      rcases reads_or_marks hpins with hreads | hmarks
      · exact hp.reads_ne (htakes.takesOut hgone).1 k hk hreads
      · exact hout key hgone k hk hmarks
  · refine Nat.lt_of_lt_of_le ?_ htakes.items
    rcases hmem k hk with rfl | hk
    · cases k with
      | holds key j n =>
        obtain rfl := Option.some.inj hi
        obtain ⟨hpins, -, -⟩ := htakes.holds rfl
        exact hp.mapped key j (hp.entries l hl' key j hpins)
      | idle | found _ _ | missed _ _ _ | marking _ _ | flushing _ | purging _ _ | collecting _ _
      | removing _ _ | evicted _ _ _ => exact absurd hi (by simp [Thread.item])
    · exact hp.items k hk i hi
  · rcases hmem _ hk with hnew | hk
    · obtain ⟨hpins, hmap, rfl⟩ := htakes.holds hnew.symm
      refine ⟨Nat.le_refl _, Or.inl ?_⟩
      rw [hmap]
      exact hp.entries l hl' key i hpins
    · obtain ⟨hle, hlive⟩ := hp.holders key i n hk
      have hmono := htakes.invalidated key
      refine ⟨Nat.le_trans hle hmono, ?_⟩
      rcases hlive with hlive | hgone
      · by_cases htaken : takesOut p.shared l e.2 = some key
        · rcases (htakes.takesOut htaken).2 with hlog | ⟨j, hj, hidle⟩
          · right
            rw [hlog, List.count_cons_self]
            omega
          · obtain rfl := Option.some.inj (hlive.symm.trans hj)
            exact absurd rfl (hp.item_ne hidle _ hk)
        · exact Or.inl (htakes.lookup hlive htaken)
      · exact Or.inr (Nat.lt_of_lt_of_le hgone hmono)

theorem Idle.canon {p : Pool Registry Thread} (h : Idle p) : Canon p := by
  obtain ⟨hitems, hmap, hlocks, hlog, htasks⟩ := h
  have hnone : ∀ key, p.shared.store.map.lookup key = none := by
    intro key
    rw [hmap]
    exact AList.lookup_empty key
  refine ⟨fun key i hi => ?_, fun key => ?_, fun i n hn => ?_, fun l hl key i hi => ?_,
    fun l hl i hi => ?_, fun key i n hk => ?_⟩
  · exact absurd ((hnone key).symm.trans hi) (by simp)
  · rw [hlocks]
    refine List.sum_eq_zero fun n hn => ?_
    obtain ⟨l, hl, rfl⟩ := List.mem_map.mp hn
    rw [htasks l hl]
    rfl
  · rw [Store.opens, hitems] at hn
    exact absurd hn (by simp)
  · rw [htasks l hl] at hi
    exact absurd hi (by simp [Thread.pins])
  · rw [htasks l hl] at hi
    exact absurd hi (by simp [Thread.item])
  · exact absurd (htasks _ hk) (by simp)

/-- **One item for each key.**  In every state of every run of the threads in which no key is taken
    out of the map between the entry of a slow path and its handle (and no counter wraps around),
    every item in use is the item of its key, unless the key was invalidated since. -/
theorem canonical_of_steady (p q : Pool Registry Thread) (es : List (Nat × MapStep)) (hp : Idle p)
    (hsteady : Along threads Steady p es) (hrun : run threads p es = some q) : Canonical q :=
  fun key i n hk => ((run_inv canon_step es p q hp.canon hsteady hrun).holders key i n hk).2

/-- Three threads and an empty cache. -/
def threeThreads : Pool Registry Thread :=
  ⟨⟨⟨["cache"], .init, ∅, [], ∅⟩, [], []⟩, [.idle, .idle, .idle]⟩

theorem idle_threeThreads : Idle threeThreads := by
  refine ⟨rfl, rfl, rfl, rfl, fun t ht => ?_⟩
  simp only [threeThreads, List.mem_cons, List.not_mem_nil, or_false] at ht
  rcases ht with rfl | rfl | rfl <;> rfl

/-- The first thread misses the key.  The second creates the item, and is done with it a minute
    before the third collects it.  The first gets the entry, the third removes it, and only then does
    the first count its handle: it has an item that the map does not have. -/
theorem eviction_between_entry_and_open :
    Idle threeThreads ∧ ∃ p, run threads threeThreads
      [(0, .get "ak" "f" 10), (1, .get "ak" "f" 10), (1, .entry 0 .allOk), (1, .open_ 0),
        (1, .release), (1, .flush 0 true), (2, .evict 100), (2, .visit "ak/f"), (2, .collected),
        (0, .entry 100 .allOk), (2, .removeIf), (0, .open_ 100)] = some p ∧ ¬Canonical p := by
  refine ⟨idle_threeThreads, _, rfl, fun h => ?_⟩
  rcases h "ak/f" 0 0 (by decide) with hlive | hgone
  · exact absurd hlive (by decide)
  · exact absurd hgone (by decide)

/-- The same threads, and the first counts its handle before the third removes: the item stays. -/
def openFirst : List (Nat × MapStep) :=
  [(0, .get "ak" "f" 10), (1, .get "ak" "f" 10), (1, .entry 0 .allOk), (1, .open_ 0), (1, .release),
    (1, .flush 0 true), (2, .evict 100), (2, .visit "ak/f"), (2, .collected), (0, .entry 100 .allOk),
    (0, .open_ 100), (2, .removeIf)]

theorem canonical_of_steady_openFirst :
    ∃ p, run threads threeThreads openFirst = some p ∧ .holds "ak/f" 0 0 ∈ p.tasks ∧
      Canonical p := by
  refine ⟨_, rfl, by decide, canonical_of_steady threeThreads _ openFirst idle_threeThreads ?_ rfl⟩
  exact along_of_decide (by decide)

end RdRs.Cache
