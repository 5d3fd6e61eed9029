/-
  `cache/item.rs` — `write_range` and `flush_ranges`, with other writers in between.

  `Store.writeRange` and `Store.flushRanges` are single steps of the store.  The chunk workers of an
  item call them at the same time, so here they are cut where another caller can run: the insert and
  the store of the dirty flag, then the load of the flag, the debounce test, the snapshot, the
  upsert, the store of the persist time and the clearing of the flag.

  1. **Program** — `Flusher.act` is one caller; `Desk.flushRanges` is a flush that is alone, which is
     what the last `release` runs (`flush_alone`, `flushRanges_store`);
  2. **Steps** — `Flushes` lists everything a step can do;
  3. **Invariant** — `Synced`: what is missing in a snapshot, and in the row once the flag is or will
     be cleared, belongs to a writer that has not stored the flag yet;
  4. **Result** — `no_range_lost`.
-/
import RdRs.Lib.Runs
import RdRs.Cache.Store

set_option linter.unusedVariables false

namespace RdRs.Cache

open RdRs.Runs

/-! ## Callers of `flush_ranges` -/

/-- An item and the table with its row. -/
structure Desk where
  item : Item
  db : RangeDb

/-- Ranges as `encode_ranges_blob` can write them. -/
abbrev Snapshot := {r : ByteRanges // r.Fits}

/-- Where a caller is. -/
inductive Flusher where
  /-- `write_range`, at the write of `len` bytes to the sparse file -/
  | writes (offset len : Nat)
  /-- the range is inserted, the flag not yet stored -/
  | inserted (start stop : Nat)
  /-- `flush_ranges`, before it loads the flag -/
  | flushing (force : Bool)
  /-- the flag was set -/
  | loaded (force : Bool)
  /-- the debounce time is over -/
  | due (now : Nat)
  | snapped (now : Nat) (snapshot : Snapshot)
  | upserted (now : Nat)
  /-- the persist time is stored, the flag not yet cleared -/
  | stamped
  | returned

inductive FlushStep where
  | insert
  /-- the file cannot be opened or written -/
  | fail
  | mark
  | load
  | debounce (now : Nat)
  | snapshot
  | upsert (ok : Bool)
  | stamp
  | clear
deriving DecidableEq

/-- One step of a caller. -/
def Flusher.act (g : Desk) : Flusher → FlushStep → Option (Desk × Flusher)
  | .writes offset len, .insert =>
    if h : offset + len ≤ maxOffset then
      some ({ g with item := { g.item with
          ranges := g.item.ranges.insert offset (offset + len)
          fits := g.item.fits.insert (Nat.lt_of_le_of_lt h (by decide)) } },
        .inserted offset (offset + len))
    else none
  | .writes _ _, .fail => some (g, .returned)
  | .inserted _ _, .mark =>
    some ({ g with item := { g.item with persistDirty := true } }, .flushing false)
  | .flushing force, .load =>
    if g.item.persistDirty then some (g, .loaded force) else some (g, .returned)
  | .loaded force, .debounce now =>
    if !force && decide (now - g.item.lastPersist < flushDebounce) then some (g, .returned)
    else some (g, .due now)
  | .due now, .snapshot => some (g, .snapped now ⟨g.item.ranges, g.item.fits⟩)
  | .snapped now snapshot, .upsert ok =>
    if ok then
      some ({ g with
        db := g.db.upsert g.item.cacheKey g.item.fileSize (asI64 now) snapshot.1 }, .upserted now)
    else some (g, .returned)
  | .upserted now, .stamp => some ({ g with item := { g.item with lastPersist := now } }, .stamped)
  | .stamped, .clear =>
    some ({ g with item := { g.item with persistDirty := false } }, .returned)
  | _, _ => none

/-- All callers on one item, in any interleaving. -/
abbrev flushers := Pool.step Flusher.act

/-- `flush_ranges` without other callers in between, and with an upsert that succeeds. -/
def Desk.flushRanges (g : Desk) (force : Bool) (now : Nat) : Desk :=
  if g.item.wantsFlush force now then
    ⟨{ g.item with persistDirty := false, lastPersist := now },
      g.db.upsert g.item.cacheKey g.item.fileSize (asI64 now) g.item.ranges⟩
  else g

/-- It is the flush of the store. -/
theorem flushRanges_store {s : Store} {i : Nat} {it : Item} (hi : s.items[i]? = some it)
    (force : Bool) (now : Nat) :
    (s.flushRanges i force now true).items[i]? = some (Desk.flushRanges ⟨it, s.db⟩ force now).item ∧
      (s.flushRanges i force now true).db = (Desk.flushRanges ⟨it, s.db⟩ force now).db := by
  unfold Store.flushRanges Desk.flushRanges
  simp only [hi, Bool.and_true]
  split
  · exact ⟨List.getElem?_set_self (List.getElem?_eq_some_iff.mp hi).1, rfl⟩
  · exact ⟨hi, rfl⟩

/-- It is what the steps of a lone caller add up to. -/
theorem flush_alone (g : Desk) (force : Bool) (now : Nat) :
    ∃ es, run flushers ⟨g, [.flushing force]⟩ es = some ⟨g.flushRanges force now, [.returned]⟩ := by
  cases hdirty : g.item.persistDirty with
  | false =>
    have hload : Flusher.act g (.flushing force) .load = some (g, .returned) := by
      simp only [Flusher.act, hdirty, Bool.false_eq_true, if_false]
    have hno : g.flushRanges force now = g := by
      simp only [Desk.flushRanges, Item.wantsFlush, hdirty, Bool.false_and, Bool.false_eq_true,
        if_false]
    rw [hno]
    exact ⟨[(0, .load)], Pool.run_alone hload (run_nil _ _)⟩
  | true =>
    have hload : Flusher.act g (.flushing force) .load = some (g, .loaded force) := by
      simp only [Flusher.act, hdirty, if_true]
    cases hearly : !force && decide (now - g.item.lastPersist < flushDebounce) with
    | true =>
      have hskip : Flusher.act g (.loaded force) (.debounce now) = some (g, .returned) := by
        simp only [Flusher.act, hearly, if_true]
      have hno : g.flushRanges force now = g := by
        simp only [Bool.and_eq_true, Bool.not_eq_true', decide_eq_true_eq] at hearly
        obtain ⟨hforce, hlt⟩ := hearly
        have hnot : ¬now - g.item.lastPersist ≥ flushDebounce := by omega
        simp only [Desk.flushRanges, Item.wantsFlush, hdirty, hforce, hnot, decide_false,
          Bool.or_false, Bool.and_false, Bool.false_eq_true, if_false]
      rw [hno]
      exact ⟨[(0, .load), (0, .debounce now)],
        Pool.run_alone hload (Pool.run_alone hskip (run_nil _ _))⟩
    | false =>
      have hgo : Flusher.act g (.loaded force) (.debounce now) = some (g, .due now) := by
        simp only [Flusher.act, hearly, Bool.false_eq_true, if_false]
      have hyes : g.flushRanges force now =
          ⟨{ g.item with persistDirty := false, lastPersist := now },
            g.db.upsert g.item.cacheKey g.item.fileSize (asI64 now) g.item.ranges⟩ := by
        have hwants : g.item.wantsFlush force now = true := by
          rw [Item.wantsFlush, hdirty, Bool.true_and]
          cases force with
          | true => rfl
          | false =>
            have hge : flushDebounce ≤ now - g.item.lastPersist := by simpa using hearly
            simpa using hge
        rw [Desk.flushRanges, if_pos hwants]
      rw [hyes]
      exact ⟨[(0, .load), (0, .debounce now), (0, .snapshot), (0, .upsert true), (0, .stamp),
          (0, .clear)], Pool.run_alone hload (Pool.run_alone hgo (Pool.run_alone rfl
        (Pool.run_alone rfl (Pool.run_alone rfl (Pool.run_alone rfl (run_nil _ _))))))⟩

/-! ## What a step can do -/

/-- A range that is inserted and not flagged. -/
def Flusher.unflagged : Flusher → Option (Nat × Nat)
  | .inserted start stop => some (start, stop)
  | _ => none

/-- A snapshot that is not upserted. -/
def Flusher.snapshot : Flusher → Option ByteRanges
  | .snapped _ snapshot => some snapshot.1
  | _ => none

/-- The row is upserted, the flag not yet cleared. -/
def Flusher.clears : Flusher → Bool
  | .upserted _ => true
  | .stamped => true
  | _ => false

/-- The ranges in the row of the item's key; none without a usable row. -/
def Desk.row (g : Desk) : ByteRanges :=
  match g.db.get g.item.cacheKey with
  | .ok (some row) => row.ranges
  | _ => .new

/-- Everything a step can do. -/
inductive Flushes (g : Desk) : Flusher → FlushStep → Desk → Flusher → Prop where
  /-- nothing happens to the ranges, the flag and the table -/
  | quiet (l l' : Flusher) (a : FlushStep) (item : Item) : item.ranges = g.item.ranges →
      item.persistDirty = g.item.persistDirty → item.cacheKey = g.item.cacheKey →
      l.unflagged = none → l'.snapshot = none → (l'.clears = true → l.clears = true) →
      Flushes g l a { g with item := item } l'
  | insert (offset len : Nat) (item : Item) :
      item.ranges = g.item.ranges.insert offset (offset + len) →
      item.persistDirty = g.item.persistDirty → item.cacheKey = g.item.cacheKey →
      Flushes g (.writes offset len) .insert { g with item := item }
        (.inserted offset (offset + len))
  | mark (start stop : Nat) :
      Flushes g (.inserted start stop) .mark
        { g with item := { g.item with persistDirty := true } } (.flushing false)
  | snapshot (now : Nat) :
      Flushes g (.due now) .snapshot g (.snapped now ⟨g.item.ranges, g.item.fits⟩)
  | upsert (now : Nat) (snapshot : Snapshot) :
      Flushes g (.snapped now snapshot) (.upsert true)
        { g with db := g.db.upsert g.item.cacheKey g.item.fileSize (asI64 now) snapshot.1 }
        (.upserted now)
  | clear :
      Flushes g .stamped .clear { g with item := { g.item with persistDirty := false } } .returned

/-- **The inversion of a step.** -/
theorem flushes_of_act {g g' : Desk} {l l' : Flusher} {a : FlushStep}
    (h : l.act g a = some (g', l')) : Flushes g l a g' l' := by
  have hstay : ∀ {k : Flusher} {b : FlushStep} {k' : Flusher}, k.unflagged = none →
      k'.snapshot = none → k'.clears = false → Flushes g k b g k' := fun h1 h2 h3 =>
    .quiet _ _ _ g.item rfl rfl rfl h1 h2 (fun h => absurd (h3.symm.trans h) (by simp))
  unfold Flusher.act at h
  split at h
  · split at h
    · obtain ⟨rfl, rfl⟩ := Prod.mk.inj (Option.some.inj h)
      exact .insert _ _ _ rfl rfl rfl
    · exact absurd h (by simp)
  · obtain ⟨rfl, rfl⟩ := Prod.mk.inj (Option.some.inj h)
    exact hstay rfl rfl rfl
  · obtain ⟨rfl, rfl⟩ := Prod.mk.inj (Option.some.inj h)
    exact .mark _ _
  · split at h
    · obtain ⟨rfl, rfl⟩ := Prod.mk.inj (Option.some.inj h)
      exact hstay rfl rfl rfl
    · obtain ⟨rfl, rfl⟩ := Prod.mk.inj (Option.some.inj h)
      exact hstay rfl rfl rfl
  · split at h
    · obtain ⟨rfl, rfl⟩ := Prod.mk.inj (Option.some.inj h)
      exact hstay rfl rfl rfl
    · obtain ⟨rfl, rfl⟩ := Prod.mk.inj (Option.some.inj h)
      exact hstay rfl rfl rfl
  · obtain ⟨rfl, rfl⟩ := Prod.mk.inj (Option.some.inj h)
    exact .snapshot _
  · rename_i ok
    split at h
    · rename_i hok
      obtain ⟨rfl, rfl⟩ := Prod.mk.inj (Option.some.inj h)
      rw [hok]
      exact .upsert _ _
    · obtain ⟨rfl, rfl⟩ := Prod.mk.inj (Option.some.inj h)
      exact hstay rfl rfl rfl
  · obtain ⟨rfl, rfl⟩ := Prod.mk.inj (Option.some.inj h)
    exact .quiet _ _ _ _ rfl rfl rfl rfl rfl (fun _ => rfl)
  · obtain ⟨rfl, rfl⟩ := Prod.mk.inj (Option.some.inj h)
    exact .clear
  · exact absurd h (by simp)

/-! ## The invariant -/

/-- **The row holds exactly the item's ranges**; no row stands for none. -/
def Desk.RowCurrent (g : Desk) : Prop :=
  ∃ row, g.db.get g.item.cacheKey = .ok row ∧ (row.map (·.ranges)).getD .new = g.item.ranges

/-- The bytes that are inserted and not flagged. -/
def unflagged (p : Pool Desk Flusher) : Set Nat :=
  {x | ∃ k ∈ p.tasks, ∃ r ∈ k.unflagged, x ∈ Set.Ico r.1 r.2}

/-- Ranges that lack only bytes that are not flagged. -/
def UpToUnflagged (p : Pool Desk Flusher) (r : ByteRanges) : Prop :=
  r.bytes ⊆ p.shared.item.ranges.bytes ∧ p.shared.item.ranges.bytes ⊆ r.bytes ∪ unflagged p

/-- The flag is cleared, or a caller is about to clear it. -/
def Settled (p : Pool Desk Flusher) : Prop :=
  p.shared.item.persistDirty = false ∨ ∃ k ∈ p.tasks, k.clears = true

/-- What holds in every state: a snapshot, and the row once the flag does not count, lack only bytes
    that are not flagged yet. -/
structure Synced (p : Pool Desk Flusher) : Prop where
  snapshots : ∀ k ∈ p.tasks, ∀ r ∈ k.snapshot, UpToUnflagged p r
  row : Settled p → (∃ row, p.shared.db.get p.shared.item.cacheKey = .ok row) ∧
    UpToUnflagged p p.shared.row

/-- **The condition on a step.**  A writer stores the flag only when its range is in every snapshot
    that is still to be upserted, and in the row if a caller is about to clear the flag. -/
def InTime (p : Pool Desk Flusher) (e : Nat × FlushStep) : Prop :=
  e.2 = .mark → ∀ l ∈ p.tasks[e.1]?, ∀ r ∈ l.unflagged,
    (∀ k ∈ p.tasks, ∀ s ∈ k.snapshot, s.hasRange r.1 r.2 = true) ∧
      ((∃ k ∈ p.tasks, k.clears = true) → p.shared.row.hasRange r.1 r.2 = true)

instance (p : Pool Desk Flusher) (e : Nat × FlushStep) : Decidable (InTime p e) :=
  inferInstanceAs (Decidable (e.2 = .mark → ∀ l ∈ p.tasks[e.1]?, ∀ r ∈ l.unflagged,
    (∀ k ∈ p.tasks, ∀ s ∈ k.snapshot, s.hasRange r.1 r.2 = true) ∧
      ((∃ k ∈ p.tasks, k.clears = true) → p.shared.row.hasRange r.1 r.2 = true)))

/-- Nothing is lost as long as the ranges stay and what is not flagged stays so. -/
theorem UpToUnflagged.mono {p q : Pool Desk Flusher} {r : ByteRanges} (h : UpToUnflagged p r)
    (hranges : q.shared.item.ranges = p.shared.item.ranges)
    (hopen : ∀ x ∈ unflagged p, x ∉ r.bytes → x ∈ unflagged q) : UpToUnflagged q r := by
  refine ⟨by rw [hranges]; exact h.1, fun x hx => ?_⟩
  rw [hranges] at hx
  by_cases hr : x ∈ r.bytes
  · exact Or.inl hr
  · rcases h.2 hx with hx | hx
    · exact absurd hx hr
    · exact Or.inr (hopen x hx hr)

theorem row_congr {g g' : Desk} (hdb : g'.db = g.db) (hkey : g'.item.cacheKey = g.item.cacheKey) :
    g'.row = g.row := by
  unfold Desk.row
  rw [hdb, hkey]

/-- **A step keeps what is not lost.** -/
theorem synced_step (p : Pool Desk Flusher) (e : Nat × FlushStep) (q : Pool Desk Flusher)
    (hp : Synced p) (hin : InTime p e) (h : flushers p e = some q) : Synced q := by
  obtain ⟨i, a⟩ := e
  obtain ⟨l, l', hl, hact, hnew, hmem, hkeep, -⟩ := Pool.frame h
  have hl' := List.mem_of_getElem? hl
  have hopen : l.unflagged = none → ∀ x ∈ unflagged p, x ∈ unflagged q := by
    rintro hnone x ⟨k, hk, r, hr, hx⟩
    rcases hkeep k hk with rfl | hk
    · exact absurd (hnone.symm.trans hr) (by simp)
    · exact ⟨k, hk, r, hr, hx⟩
  have hsettled : (q.shared.item.persistDirty = false → p.shared.item.persistDirty = false) →
      (l'.clears = true → l.clears = true) → Settled q → Settled p := by
    rintro hflag hclears (h | ⟨k, hk, hkc⟩)
    · exact Or.inl (hflag h)
    · rcases hmem k hk with rfl | hk
      · exact Or.inr ⟨l, hl', hclears hkc⟩
      · exact Or.inr ⟨k, hk, hkc⟩
  generalize hg : q.shared = g' at hact
  cases flushes_of_act hact with
  | quiet _ _ _ item hranges hdirty hkey hnone hsnap hclears =>
    have hsame : q.shared.item.ranges = p.shared.item.ranges := by rw [hg]; exact hranges
    have hrow : q.shared.row = p.shared.row := row_congr (by rw [hg]) (by rw [hg]; exact hkey)
    refine ⟨fun k hk r hr => ?_, fun hq => ?_⟩
    · rcases hmem k hk with rfl | hk
      · exact absurd (hsnap.symm.trans hr) (by simp)
      · exact (hp.snapshots k hk r hr).mono hsame fun x hx _ => hopen hnone x hx
    · obtain ⟨hread, hup⟩ := hp.row
        (hsettled (fun h => by rw [hg] at h; exact hdirty.symm.trans h) hclears hq)
      rw [hrow]
      refine ⟨?_, hup.mono hsame fun x hx _ => hopen hnone x hx⟩
      rw [hg]
      show ∃ row, p.shared.db.get item.cacheKey = .ok row
      rw [hkey]
      exact hread
  | insert offset len item hranges hdirty hkey =>
    have hbytes : q.shared.item.ranges.bytes =
        p.shared.item.ranges.bytes ∪ Set.Ico offset (offset + len) := by
      rw [hg]
      show item.ranges.bytes = _
      rw [hranges, ByteRanges.bytes_insert]
    have hrow : q.shared.row = p.shared.row := row_congr (by rw [hg]) (by rw [hg]; exact hkey)
    -- the new bytes are the writer's, and not flagged
    have hup : ∀ r, UpToUnflagged p r → UpToUnflagged q r := by
      intro r hr
      rw [UpToUnflagged, hbytes]
      refine ⟨hr.1.trans Set.subset_union_left, fun x hx => ?_⟩
      rcases hx with hx | hx
      · exact (hr.2 hx).imp_right (hopen rfl x)
      · exact Or.inr ⟨_, hnew, (offset, offset + len), rfl, hx⟩
    refine ⟨fun k hk r hr => ?_, fun hq => ?_⟩
    · rcases hmem k hk with rfl | hk
      · exact absurd hr (by simp [Flusher.snapshot])
      · exact hup r (hp.snapshots k hk r hr)
    · obtain ⟨hread, hrest⟩ := hp.row
        (hsettled (fun h => by rw [hg] at h; exact hdirty.symm.trans h) id hq)
      rw [hrow]
      refine ⟨?_, hup _ hrest⟩
      rw [hg]
      show ∃ row, p.shared.db.get item.cacheKey = .ok row
      rw [hkey]
      exact hread
  | mark start stop =>
    obtain ⟨hsnaps, hrow⟩ := hin rfl _ hl (start, stop) rfl
    have hsame : q.shared.item.ranges = p.shared.item.ranges := by rw [hg]
    -- the writer's bytes are flagged now, and in `r` anyway
    have hup : ∀ r : ByteRanges, r.hasRange start stop = true → UpToUnflagged p r →
        UpToUnflagged q r := by
      rintro r hhas hr
      refine hr.mono hsame ?_
      rintro x ⟨k, hk, s, hs, hx⟩ hnot
      rcases hkeep k hk with rfl | hk
      · obtain rfl := Option.some.inj hs
        exact absurd ((r.hasRange_iff start stop).mp hhas hx) hnot
      · exact ⟨k, hk, s, hs, hx⟩
    refine ⟨fun k hk r hr => ?_, fun hq => ?_⟩
    · rcases hmem k hk with rfl | hk
      · exact absurd hr (by simp [Flusher.snapshot])
      · exact hup r (hsnaps k hk r hr) (hp.snapshots k hk r hr)
    · obtain ⟨k, hk, hkc⟩ : ∃ k ∈ p.tasks, k.clears = true := by
        rcases hq with hflag | ⟨k, hk, hkc⟩
        · rw [hg] at hflag
          exact absurd hflag (by simp)
        · rcases hmem k hk with rfl | hk
          · exact absurd hkc (by simp [Flusher.clears])
          · exact ⟨k, hk, hkc⟩
      obtain ⟨hread, hrest⟩ := hp.row (Or.inr ⟨k, hk, hkc⟩)
      have hkept : q.shared.row = p.shared.row := row_congr (by rw [hg]) (by rw [hg])
      rw [hkept]
      refine ⟨?_, hup _ (hrow ⟨k, hk, hkc⟩) hrest⟩
      rw [hg]
      exact hread
  | snapshot now =>
    have hsame : q.shared.item.ranges = p.shared.item.ranges := by rw [hg]
    refine ⟨fun k hk r hr => ?_, fun hq => ?_⟩
    · rcases hmem k hk with rfl | hk
      · obtain rfl := Option.some.inj hr
        show UpToUnflagged q p.shared.item.ranges
        rw [← hsame]
        exact ⟨Set.Subset.rfl, Set.subset_union_left⟩
      · exact (hp.snapshots k hk r hr).mono hsame fun x hx _ => hopen rfl x hx
    · obtain ⟨hread, hrest⟩ := hp.row (hsettled (fun h => by rw [hg] at h; exact h) id hq)
      rw [hg]
      exact ⟨hread, hrest.mono hsame fun x hx _ => hopen rfl x hx⟩
  | upsert now snapshot =>
    have hsame : q.shared.item.ranges = p.shared.item.ranges := by rw [hg]
    have hget : q.shared.db.get q.shared.item.cacheKey = .ok (some
        ⟨(max (asI64 p.shared.item.fileSize) 0).toNat, asI64 now, snapshot.1⟩) := by
      rw [hg]
      exact RangeDb.get_upsert snapshot.2
    have hrow : q.shared.row = snapshot.1 := by
      unfold Desk.row
      rw [hget]
    refine ⟨fun k hk r hr => ?_, fun _ => ⟨⟨_, hget⟩, ?_⟩⟩
    · rcases hmem k hk with rfl | hk
      · exact absurd hr (by simp [Flusher.snapshot])
      · exact (hp.snapshots k hk r hr).mono hsame fun x hx _ => hopen rfl x hx
    · rw [hrow]
      exact (hp.snapshots _ hl' _ rfl).mono hsame fun x hx _ => hopen rfl x hx
  | clear =>
    have hsame : q.shared.item.ranges = p.shared.item.ranges := by rw [hg]
    have hrow : q.shared.row = p.shared.row := row_congr (by rw [hg]) (by rw [hg])
    obtain ⟨hread, hrest⟩ := hp.row (Or.inr ⟨_, hl', rfl⟩)
    refine ⟨fun k hk r hr => ?_, fun _ => ⟨by rw [hg]; exact hread, ?_⟩⟩
    · rcases hmem k hk with rfl | hk
      · exact absurd hr (by simp [Flusher.snapshot])
      · exact (hp.snapshots k hk r hr).mono hsame fun x hx _ => hopen rfl x hx
    · rw [hrow]
      exact hrest.mono hsame fun x hx _ => hopen rfl x hx

/-! ## After the last writer -/

/-- No caller is under way yet, and the row is current or the flag is set. -/
def Begins (p : Pool Desk Flusher) : Prop :=
  (∀ k ∈ p.tasks, (∃ offset len, k = .writes offset len) ∨ ∃ force, k = .flushing force) ∧
    (p.shared.item.persistDirty = false → p.shared.RowCurrent)

theorem RowCurrent.row_eq {g : Desk} (h : g.RowCurrent) : g.row = g.item.ranges := by
  obtain ⟨row, hget, hrow⟩ := h
  rw [← hrow, Desk.row, hget]
  cases row with
  | none => rfl
  | some row => rfl

theorem rowCurrent_of_eq {g : Desk} (hread : ∃ row, g.db.get g.item.cacheKey = .ok row)
    (hrow : g.row = g.item.ranges) : g.RowCurrent := by
  obtain ⟨row, hget⟩ := hread
  refine ⟨row, hget, ?_⟩
  rw [← hrow, Desk.row, hget]
  cases row with
  | none => rfl
  | some row => rfl

/-- An item that was just opened, with the purge of a stale row done, starts with a current row. -/
theorem rowCurrent_of_restore {db db' : RangeDb} {io : Store.OpenIo} {r : Snapshot} {it : Item}
    (h : Store.restore db it.cacheKey it.fileSize io = .ok (db', r)) (hpurge : io.deleteOk = true)
    (hr : it.ranges = r.1) : Desk.RowCurrent ⟨it, db'⟩ := by
  unfold Store.restore at h
  split at h
  · cases h
  · rename_i hget
    obtain ⟨rfl, rfl⟩ := Prod.mk.inj (Except.ok.inj h)
    exact ⟨none, hget, hr.symm⟩
  · rename_i row hget
    split at h
    · obtain ⟨rfl, rfl⟩ := Prod.mk.inj (Except.ok.inj h)
      exact ⟨some row, hget, hr.symm⟩
    · split at h
      · cases h
      · obtain ⟨rfl, rfl⟩ := Prod.mk.inj (Except.ok.inj h)
        refine ⟨none, ?_, hr.symm⟩
        show (db.deleteKeys [it.cacheKey]).get it.cacheKey = _
        rw [RangeDb.get, RangeDb.lookup_deleteKeys, if_pos (List.mem_singleton.mpr rfl)]

theorem Begins.synced {p : Pool Desk Flusher} (h : Begins p) : Synced p := by
  obtain ⟨htasks, hrow⟩ := h
  refine ⟨fun k hk r hr => ?_, fun hsettled => ?_⟩
  · rcases htasks k hk with ⟨o, n, rfl⟩ | ⟨f, rfl⟩
    · exact absurd hr (by simp [Flusher.snapshot])
    · exact absurd hr (by simp [Flusher.snapshot])
  · have hcurrent : p.shared.RowCurrent := by
      rcases hsettled with hflag | ⟨k, hk, hkc⟩
      · exact hrow hflag
      · rcases htasks k hk with ⟨o, n, rfl⟩ | ⟨f, rfl⟩
        · exact absurd hkc (by simp [Flusher.clears])
        · exact absurd hkc (by simp [Flusher.clears])
    refine ⟨hcurrent.imp fun row h => h.1, ?_⟩
    rw [RowCurrent.row_eq hcurrent]
    exact ⟨Set.Subset.rfl, Set.subset_union_left⟩

/-- **No persisted range is lost.**  In a run of any number of callers in which every writer stores
    the flag in time, once all have returned the flush of the last `release` leaves the row with
    exactly the item's ranges. -/
theorem no_range_lost (p q : Pool Desk Flusher) (es : List (Nat × FlushStep)) (hp : Begins p)
    (hin : Along flushers InTime p es) (hrun : run flushers p es = some q)
    (hdone : ∀ k ∈ q.tasks, k = .returned) (now : Nat) :
    (q.shared.flushRanges true now).RowCurrent := by
  have hq := run_inv synced_step es p q hp.synced hin hrun
  have hnone : unflagged q = ∅ := by
    refine Set.eq_empty_of_forall_notMem ?_
    rintro x ⟨k, hk, r, hr, -⟩
    rw [hdone k hk] at hr
    exact absurd hr (by simp [Flusher.unflagged])
  cases hdirty : q.shared.item.persistDirty with
  | true =>
    have hwants : q.shared.item.wantsFlush true now = true := by
      rw [Item.wantsFlush, hdirty]
      rfl
    rw [Desk.flushRanges, if_pos hwants]
    exact ⟨_, RangeDb.get_upsert q.shared.item.fits, rfl⟩
  | false =>
    have hno : q.shared.item.wantsFlush true now = false := by
      rw [Item.wantsFlush, hdirty]
      rfl
    obtain ⟨hread, hsub, hsup⟩ := hq.row (Or.inl hdirty)
    rw [hnone, Set.union_empty] at hsup
    rw [Desk.flushRanges, hno]
    exact rowCurrent_of_eq hread (ByteRanges.eq_of_bytes_eq (Set.Subset.antisymm hsub hsup))

/-- A new item of eight bytes without a row, and two writers of four bytes each. -/
def twoWriters : Pool Desk Flusher :=
  ⟨⟨⟨["cache", "ak", "f"], 8, .new, ByteRanges.fits_new, 1, 0, "ak/f", false, 0⟩, ∅⟩,
    [.writes 0 4, .writes 4 4]⟩

theorem begins_twoWriters : Begins twoWriters := by
  refine ⟨fun k hk => ?_, fun _ => ⟨none, rfl, rfl⟩⟩
  simp only [twoWriters, List.mem_cons, List.not_mem_nil, or_false] at hk
  rcases hk with rfl | rfl
  · exact Or.inl ⟨0, 4, rfl⟩
  · exact Or.inl ⟨4, 4, rfl⟩

/-- The first writer has its snapshot, the second inserts its range and stores the flag, and then the
    first upserts and clears the flag: the second finds it cleared, and so does the last `release`.
    The row has the first four bytes of eight. -/
theorem flag_cleared_over_other_writer :
    Begins twoWriters ∧ ∃ q, run flushers twoWriters
      [(0, .insert), (0, .mark), (0, .load), (0, .debounce 10), (0, .snapshot), (1, .insert),
        (1, .mark), (0, .upsert true), (0, .stamp), (0, .clear), (1, .load)] = some q ∧
      (∀ k ∈ q.tasks, k = .returned) ∧ ¬(q.shared.flushRanges true 20).RowCurrent := by
  refine ⟨begins_twoWriters, _, rfl, ?_, fun h => ?_⟩
  · intro k hk
    change k ∈ [Flusher.returned, .returned] at hk
    simpa using hk
  · have hrow := RowCurrent.row_eq h
    have hlong := congrArg (fun r : ByteRanges => r.hasRange 0 8) hrow
    exact absurd hlong (by decide)

/-- The second writer stores the flag after the first has cleared it: its flush is debounced, and the
    last `release` writes all eight bytes. -/
def flaggedLater : List (Nat × FlushStep) :=
  [(0, .insert), (0, .mark), (0, .load), (0, .debounce 10), (0, .snapshot), (1, .insert),
    (0, .upsert true), (0, .stamp), (0, .clear), (1, .mark), (1, .load), (1, .debounce 11)]

theorem no_range_lost_flaggedLater :
    ∃ q, run flushers twoWriters flaggedLater = some q ∧ q.shared.row.hasRange 4 8 = false ∧
      (q.shared.flushRanges true 20).RowCurrent := by
  refine ⟨_, rfl, by decide, no_range_lost twoWriters _ flaggedLater begins_twoWriters ?_ rfl ?_ 20⟩
  · exact along_of_decide (by decide)
  · intro k hk
    change k ∈ [Flusher.returned, .returned] at hk
    simpa using hk

end RdRs.Cache
