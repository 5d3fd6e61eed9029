/-
  What a cascade leaves of a torrent's old ids on Real-Debrid.

  1. **Touching ids** — `Ev.Within R F` sorts the calls by the ids they may touch: the old ones are
     deleted by strategy 1 and by nothing else (`mem_live_replay`), guards and drop-deletes are about
     magnets (`guards_replay`).
  2. **Emission** — what each strategy emits, up to the shape of a whole cascade
     (`executeCascade_shape`): refused without a call, or strategy 1's deletes first.
  3. **Survival** — hence the old ids that are left after any prefix (`old_id_live_take`), after the
     whole cascade (`old_id_settled`), and when it is deferred or dropped (`old_id_survives_iff`).
-/
import Mathlib
import RdRs.Repair.Cascade

set_option linter.unusedVariables false

namespace RdRs.Repair

open RdRs.Rd RdRs.Effects

/-! ## Survival of an old id -/

/-- Removing an id leaves the others. -/
theorem mem_remove {live : List String} {id x : String} : x ∈ remove live id ↔ x ∈ live ∧ x ≠ id := by
  simp [remove]

/-- The events of the cascade by the ids they may touch: `R` for the old ones, `F` for magnets. -/
def Ev.Within (R F : Set String) : Ev → Prop
  | .delete id _ => id ∈ R
  | .add _ (some id) => id ∈ F
  | .guardNew id => id ∈ F
  | .deleteEphemeral id _ => id ∈ F
  | _ => True

/-- More old ids may be touched. -/
theorem Ev.Within.mono {R R' F : Set String} (hR : R ⊆ R') {e : Ev} (h : e.Within R F) :
    e.Within R' F := by
  cases e with
  | delete id ok => exact hR h
  | add hash id => cases id with
    | none => trivial
    | some id => exact h
  | guardNew id => exact h
  | deleteEphemeral id ok => exact h
  | select id files => trivial
  | info id => trivial
  | sleep => trivial
  | dismiss => trivial
  | guardDrop => trivial

/-- The guard and the spawned drop-deletes are about magnets. -/
def World.Guards (F : Set String) (w : World) : Prop :=
  (∀ id ∈ w.guard, id ∈ F) ∧ ∀ id ∈ w.spawned, id ∈ F

/-- The guard stays about a magnet at every event within bounds. -/
theorem guards_step {R F : Set String} (w : World) (e : Ev) (hw : w.Guards F) (he : e.Within R F) :
    (w.step e).Guards F := by
  obtain ⟨hg, hs⟩ := hw
  have hnone : ∀ id ∈ (none : Option String), id ∈ F := fun id hid => absurd hid (by simp)
  cases e with
  | guardNew id =>
    refine ⟨fun x hx => ?_, hs⟩
    obtain rfl : id = x := Option.mem_some_iff.mp hx
    exact he
  | guardDrop =>
    refine ⟨hnone, fun x hx => ?_⟩
    rcases List.mem_append.mp hx with hx | hx
    · exact hs x hx
    · exact hg x (Option.mem_toList.mp hx)
  | dismiss => exact ⟨hnone, hs⟩
  | deleteEphemeral id ok =>
    cases ok with
    | true => exact ⟨hnone, hs⟩
    | false => exact ⟨hg, hs⟩
  | delete id ok => exact ⟨hg, hs⟩
  | add hash id => exact ⟨hg, hs⟩
  | select id files => exact ⟨hg, hs⟩
  | info id => exact ⟨hg, hs⟩
  | sleep => exact ⟨hg, hs⟩

/-- After the events of a call the guard is about a magnet. -/
theorem guards_replay {R F : Set String} {es : List Ev} (live : List String)
    (h : ∀ e ∈ es, e.Within R F) : (replay World.step (World.start live) es).Guards F :=
  replay_inv (P := Ev.Within R F) guards_step es _
    ⟨fun id hid => absurd hid (by simp [World.start]), fun id hid => absurd hid List.not_mem_nil⟩ h

/-- An event touches an id that is no magnet's by deleting it only. -/
theorem mem_live_effect {R F : Set String} {live : List String} {e : Ev} {x : String}
    (he : e.Within R F) (hx : x ∉ F) :
    x ∈ serverEffect live e ↔ x ∈ live ∧ e ≠ .delete x true := by
  cases e with
  | delete id ok =>
    cases ok with
    | true =>
      rw [serverEffect, mem_remove]
      simp [eq_comm]
    | false => simp [serverEffect]
  | add hash id =>
    cases id with
    | none => simp [serverEffect]
    | some id =>
      have hne : x ≠ id := fun h => hx (h ▸ he)
      simp [serverEffect, hne]
  | deleteEphemeral id ok =>
    have hne : x ≠ id := fun h => hx (h ▸ he)
    cases ok with
    | true =>
      rw [serverEffect, mem_remove]
      simp [hne]
    | false => simp [serverEffect]
  | guardNew id => simp [serverEffect]
  | select id files => simp [serverEffect]
  | info id => simp [serverEffect]
  | sleep => simp [serverEffect]
  | dismiss => simp [serverEffect]
  | guardDrop => simp [serverEffect]

/-- **Only strategy 1's deletes remove an id that is no magnet's.** -/
theorem mem_live_replay {R F : Set String} {x : String} (hx : x ∉ F) :
    ∀ (es : List Ev) (w : World), (∀ e ∈ es, e.Within R F) →
      (x ∈ (replay World.step w es).live ↔ x ∈ w.live ∧ .delete x true ∉ es)
  | [], w, _ => by simp [replay]
  | e :: es, w, h => by
    have ih := mem_live_replay hx es (w.step e) fun e' he' => h e' (List.mem_cons_of_mem e he')
    show x ∈ (replay World.step (w.step e) es).live ↔ _
    rw [ih, World.step, mem_live_effect (h e List.mem_cons_self) hx, List.mem_cons, not_or, and_assoc,
      ne_comm]

/-- Drop-deletes leave the ids they are not about. -/
theorem mem_runDrops {drops : Nat → Except RdError Unit × Except RdError Unit} {x : String} :
    ∀ (ids : List String) (i : Nat) (live : List String), x ∉ ids →
      (x ∈ runDrops drops ids i live ↔ x ∈ live)
  | [], _, _, _ => Iff.rfl
  | id :: ids, i, live, h => by
    have hne : x ≠ id := fun hx => h (hx ▸ List.mem_cons_self)
    rw [runDrops, mem_runDrops ids (i + 1) _ (fun hm => h (List.mem_cons_of_mem id hm))]
    split
    · rw [mem_remove]
      exact ⟨And.left, fun hl => ⟨hl, hne⟩⟩
    · exact Iff.rfl

/-- The drop-deletes at the end leave what is no magnet of the call. -/
theorem mem_settled {a : Answers} {F : Set String} {w : World} (hw : w.Guards F) {x : String}
    (hx : x ∉ F) : x ∈ w.settled a ↔ x ∈ w.live :=
  mem_runDrops w.spawned 0 w.live fun hm => hx (hw.2 x hm)

/-! ## What the strategies emit -/

/-- The ids that `add_magnet` gives for some slots. -/
def Answers.ids (a : Answers) (S : Set Slot) : Set String :=
  {id | ∃ s ∈ S, (a.magnet s).add = .ok id}

/-- A fresh id is none of the old ones. -/
theorem Answers.Fresh.not_mem_ids {a : Answers} {old : List String} (h : a.Fresh old) {id : String}
    (hid : id ∈ old) {S : Set Slot} : id ∉ a.ids S := by
  rintro ⟨s, -, hs⟩
  exact h.new s id hs hid

/-- The polls of `info_ready`. -/
def Ev.IsPoll (e : Ev) : Prop := e = .sleep ∨ ∃ id, e = .info id

theorem infoReadyFrom_emits (m : Magnet) (id : String) (restrictCached : Bool) :
    ∀ left attempt, Emits Ev.IsPoll (infoReadyFrom m id restrictCached left attempt)
  | 0, _ => Emits.pure _
  | left + 1, attempt => by
    rw [infoReadyFrom]
    have hinfo : Ev.IsPoll (.info id) := Or.inr ⟨id, rfl⟩
    refine Emits.bind ?_ (Emits.bind (Emits.emit hinfo) ?_)
    · unfold pollBackoff
      split
      · exact Emits.emit (Or.inl rfl)
      · exact Emits.pure ()
    · split
      · exact Emits.pure _
      · split
        · exact Emits.pure _
        · exact infoReadyFrom_emits m id restrictCached left (attempt + 1)

theorem Ev.IsPoll.within {e : Ev} (h : e.IsPoll) (R F : Set String) : e.Within R F := by
  rcases h with rfl | ⟨id, rfl⟩
  · trivial
  · trivial

/-- The guard's id. -/
def Probe.id : Probe → Option String
  | .addFailed _ => none
  | .selectFailed id _ => some id
  | .checked id _ => some id

section Emitted

variable {m : Magnet} {F : Set String}

/-- A magnet that is opened touches its own id at most. -/
theorem openMagnet_emits (hF : ∀ id, m.add = .ok id → id ∈ F) (hash files : String)
    (restrictCached : Bool) : Emits (Ev.Within ∅ F) (openMagnet m hash files restrictCached) := by
  unfold openMagnet
  split
  · exact Emits.bind (Emits.emit trivial) (Emits.pure _)
  · rename_i id hadd
    refine Emits.bind (Emits.emit (hF id hadd)) (Emits.bind (Emits.emit (hF id hadd))
      (Emits.bind (Emits.emit trivial) ?_))
    split
    · exact Emits.pure _
    · refine Emits.bind (fun e he => ?_) (Emits.pure _)
      exact (infoReadyFrom_emits m id restrictCached 3 0 e he).within ∅ F

theorem openMagnet_id (m : Magnet) (hash files : String) (restrictCached : Bool) :
    ∀ id ∈ (openMagnet m hash files restrictCached).value.id, m.add = .ok id := by
  intro id hid
  unfold openMagnet at hid
  split at hid
  · exact absurd hid (by simp [Probe.id])
  · rename_i id' hadd
    rw [hadd]
    simp only [bind_value] at hid
    split at hid
    · exact congrArg Except.ok (Option.mem_some_iff.mp hid)
    · exact congrArg Except.ok (Option.mem_some_iff.mp hid)

/-- A strategy touches its own id, and what its continuation touches. -/
theorem withMagnet_emits {β : Type} (hF : ∀ id, m.add = .ok id → id ∈ F) {hash files : String}
    {restrictCached : Bool} {k : Probe → Traced Ev β}
    (hk : ∀ p, (∀ id ∈ p.id, id ∈ F) → Emits (Ev.Within ∅ F) (k p)) :
    Emits (Ev.Within ∅ F) (withMagnet m hash files restrictCached k) := by
  refine Emits.bind (openMagnet_emits hF hash files restrictCached) (Emits.bind (hk _ ?_) ?_)
  · intro id hid
    exact hF id (openMagnet_id m hash files restrictCached id hid)
  · split
    · exact Emits.pure _
    · exact Emits.bind (Emits.emit trivial) (Emits.pure _)
    · exact Emits.bind (Emits.emit trivial) (Emits.pure _)

theorem deleteNotCached_emits {id : String} (hid : id ∈ F) :
    Emits (Ev.Within ∅ F) (deleteNotCached m id) := by
  refine Emits.bind (Emits.emit hid) ?_
  split
  · exact Emits.pure _
  · split
    · exact Emits.pure _
    · exact Emits.pure _

theorem react_emits {β : Type} {onError : RdError → β} {onReady : String → Traced Ev β}
    {exit : CascadeOutcome → β} {notReady : β}
    (hready : ∀ id, Emits (Ev.Within ∅ F) (onReady id)) (p : Probe) (hp : ∀ id ∈ p.id, id ∈ F) :
    Emits (Ev.Within ∅ F) (react m onError onReady exit notReady p) := by
  match p with
  | .addFailed e | .selectFailed _ e | .checked _ (.error e) => exact Emits.pure _
  | .checked id (.ok out) =>
    rw [react]
    split
    · exact hready id
    · split
      · exact Emits.bind (deleteNotCached_emits (hp id rfl)) (Emits.pure _)
      · exact Emits.pure _

theorem keep_emits {β : Type} (exit : CascadeOutcome → β) (id : String) :
    Emits (Ev.Within ∅ F) (keep exit id) :=
  Emits.bind (Emits.emit trivial) (Emits.pure _)

end Emitted

section EmittedLoops

variable {a : Answers} {S : Set Slot} {hash : String} {restrictCached : Bool}

/-- Strategy 2 touches the files' magnets only. -/
theorem individualFiles_emits (hS : ∀ i, Slot.file i ∈ S) : ∀ (files : List File) (i : Nat) (b : Bool),
    Emits (Ev.Within ∅ (a.ids S)) (individualFiles a hash restrictCached files i b)
  | [], _, _ => Emits.pure _
  | f :: rest, i, b => by
    refine Emits.bind (withMagnet_emits (F := a.ids S) (fun id hid => ⟨_, hS i, hid⟩)
      (react_emits fun _ => Emits.pure _)) ?_
    split
    · exact Emits.pure _
    · exact individualFiles_emits hS rest (i + 1) _

/-- The batches touch their own ids at most. -/
theorem batchDownload_emits (hS : ∀ j, Slot.batch j ∈ S) :
    ∀ (chunks : List (List Int)) (j n : Nat),
      Emits (Ev.Within ∅ (a.ids S)) (batchDownload a hash restrictCached chunks j n)
  | [], _, _ => Emits.pure _
  | c :: rest, j, n => by
    refine Emits.bind (withMagnet_emits (F := a.ids S) (fun id hid => ⟨_, hS j, hid⟩)
      (react_emits fun _ => Emits.pure _)) ?_
    split
    · exact Emits.pure _
    · exact batchDownload_emits hS rest (j + 1) _

theorem archiveAll_emits (hS : Slot.archive ∈ S) (info : TorrentInfo) :
    Emits (Ev.Within ∅ (a.ids S)) (archiveAll a hash info restrictCached) := by
  unfold archiveAll
  split
  · exact withMagnet_emits (F := a.ids S) (fun id hid => ⟨_, hS, hid⟩) (react_emits (keep_emits _))
  · exact Emits.pure _

/-- The later strategies touch no old id. -/
theorem laterStrategies_emits (mt : ManagedTorrent) (info : TorrentInfo) (cfg : RepairConfig) :
    Emits (Ev.Within ∅ (a.ids Set.univ)) (laterStrategies a mt info cfg) := by
  refine Emits.bind (individualFiles_emits (fun i => Set.mem_univ _) _ 0 true) ?_
  split
  · exact Emits.pure _
  · exact Emits.pure _
  · refine Emits.bind (archiveAll_emits (Set.mem_univ _) info) ?_
    split
    · exact Emits.pure _
    · unfold batchStage
      split
      · refine Emits.bind (batchDownload_emits (fun j => Set.mem_univ _) _ 0 0) ?_
        split
        · exact Emits.pure _
        · split
          · exact Emits.pure _
          · exact Emits.pure _
      · exact Emits.pure _

end EmittedLoops

/-! ## The old ids of a deferred or dropped cascade -/

/-- The deletes at the end are those of the old ids, in order. -/
theorem deleteIds_events (a : Answers) : ∀ (ids : List String) (i : Nat),
    (deleteIds a ids i).events
      = (ids.zipIdx i).map fun p => Ev.delete p.1 (a.delete p.2).isOk
  | [], _ => rfl
  | id :: ids, i => by
    rw [deleteIds, bind_events, emit_events, deleteIds_events a ids (i + 1), List.zipIdx_cons,
      List.map_cons]
    rfl

/-- Outcomes before strategy 1 has begun: neither a success nor a deferral. -/
def CascadeOutcome.Refused : CascadeOutcome → Prop
  | .unrepairable _ => True
  | .unrepairableMsg _ => True
  | .success _ => False
  | .deferBandwidth => False

/-- **The shape of a cascade**: refused without a call, or first the deletes of strategy 1 and then
    calls that touch magnets only. -/
theorem executeCascade_shape (a : Answers) (mt : ManagedTorrent) (cfg : RepairConfig) :
    ((executeCascade a mt cfg).events = [] ∧ (executeCascade a mt cfg).value.Refused) ∨
    ∃ rest, (executeCascade a mt cfg).events = (deleteIds a mt.rdIds 0).events ++ rest ∧
      ∀ e ∈ rest, e.Within ∅ (a.ids Set.univ) := by
  have hmagnet : ∀ files, Emits (Ev.Within ∅ (a.ids Set.univ))
      (withMagnet (a.magnet .reinsert) mt.torrent.hash files cfg.restrictToCached
        (reinsertReact (a.magnet .reinsert))) := fun files =>
    withMagnet_emits (F := a.ids Set.univ) (fun id hid => ⟨_, Set.mem_univ _, hid⟩)
      (react_emits (keep_emits _))
  unfold executeCascade
  split
  · split
    · exact Or.inl ⟨rfl, trivial⟩
    · right
      refine ⟨_, ?_, hmagnet "all"⟩
      rw [bind_events, tryStrategy1Reinsert, bind_events, pure_events, List.append_nil]
  · rename_i info hinfo
    split
    · exact Or.inl ⟨rfl, trivial⟩
    · split
      · exact Or.inl ⟨rfl, trivial⟩
      · split
        · exact Or.inl ⟨rfl, trivial⟩
        · right
          rw [bind_events, tryStrategy1Reinsert, bind_events, List.append_assoc]
          refine ⟨_, rfl, fun e he => ?_⟩
          rcases List.mem_append.mp he with he | he
          · exact hmagnet _ e he
          · split at he
            · exact absurd he List.not_mem_nil
            · exact laterStrategies_emits mt info cfg e he

/-- After the deletes of old ids nothing old is touched. -/
theorem within_of_mem {a : Answers} {old : List String} {rest : List Ev} {F : Set String}
    (hrest : ∀ e ∈ rest, e.Within ∅ F) :
    ∀ e ∈ (deleteIds a old 0).events ++ rest, e.Within Set.univ F := by
  intro e he
  rcases List.mem_append.mp he with he | he
  · rw [deleteIds_events] at he
    obtain ⟨p, -, rfl⟩ := List.mem_map.mp he
    exact Set.mem_univ _
  · exact (hrest e he).mono (Set.empty_subset _)

/-- A dropped future: its account is that of a prefix, one longer when the call in flight
    arrived. -/
theorem droppedAt_spec {R F : Set String} {live : List String} {es : List Ev} {k : Nat}
    {arrived : Bool} {w : World} (h : droppedAt live es k arrived = some w)
    (hes : ∀ e ∈ es, e.Within R F) :
    w.Guards F ∧ ∃ j, (∀ i, i < j ↔ i < k ∨ i = k ∧ arrived = true) ∧
      w.live = (replay World.step (World.start live) (es.take j)).live := by
  unfold droppedAt at h
  split at h
  · exact absurd h (by simp)
  · rename_i e hk
    split at h
    · obtain rfl := Option.some.inj h
      have hpre : ∀ e ∈ es.take k, e.Within R F := fun e he => hes e (List.mem_of_mem_take he)
      have hg := guards_replay live hpre
      cases arrived with
      | false =>
        exact ⟨guards_step (R := R) _ .guardDrop hg trivial, k, fun i => by simp, rfl⟩
      | true =>
        refine ⟨guards_step (R := R) _ .guardDrop ⟨hg.1, hg.2⟩ trivial, k + 1,
          fun i => by rw [and_iff_left rfl]; omega, ?_⟩
        obtain ⟨hlt, hget⟩ := List.getElem?_eq_some_iff.mp hk
        rw [List.take_succ_eq_append_getElem hlt, hget, replay_append]
        rfl
    · exact absurd h (by simp)

/-- `.delete id true` is among the first `k` events exactly when one of strategy 1's first `k`
    deletes was of `id` and succeeded. -/
theorem delete_mem_take {a : Answers} {old : List String} {rest : List Ev} {F : Set String}
    (hrest : ∀ e ∈ rest, e.Within ∅ F) (id : String) (k : Nat) :
    .delete id true ∈ ((deleteIds a old 0).events ++ rest).take k ↔
      ∃ i, i < k ∧ old[i]? = some id ∧ (a.delete i).isOk = true := by
  have hrest' : .delete id true ∉ rest := fun h => hrest _ h
  have hget : ∀ i, ((deleteIds a old 0).events ++ rest)[i]? = some (.delete id true) ↔
      old[i]? = some id ∧ (a.delete i).isOk = true := by
    intro i
    rw [List.getElem?_append]
    split
    · rw [deleteIds_events, List.getElem?_map, List.getElem?_zipIdx, Option.map_map]
      rw [Option.map_eq_some_iff]
      constructor
      · rintro ⟨x, hx, h⟩
        simp only [Function.comp_apply, Ev.delete.injEq, Nat.zero_add] at h
        exact ⟨h.1 ▸ hx, h.2⟩
      · rintro ⟨hx, h⟩
        refine ⟨id, hx, ?_⟩
        simp [h]
    · -- past strategy 1's deletes: no old id is deleted there
      rename_i hlen
      rw [deleteIds_events, List.length_map, List.length_zipIdx] at hlen
      constructor
      · intro h
        exact absurd (List.mem_of_getElem? h) hrest'
      · rintro ⟨hx, -⟩
        rw [List.getElem?_eq_none (by omega)] at hx
        exact absurd hx (by simp)
  rw [List.mem_iff_getElem?]
  constructor
  · rintro ⟨i, hi⟩
    rw [List.getElem?_take] at hi
    split at hi
    · rename_i hik
      exact ⟨i, hik, (hget i).mp hi⟩
    · exact absurd hi (by simp)
  · rintro ⟨i, hik, hi⟩
    refine ⟨i, ?_⟩
    rw [List.getElem?_take, if_pos hik]
    exact (hget i).mpr hi

section OldIds

variable {a : Answers} {mt : ManagedTorrent} {cfg : RepairConfig} {rest : List Ev} {id : String}

/-- An old id after the first `j` events of a cascade that made calls. -/
theorem old_id_live_take {old : List String} (hfresh : a.Fresh old)
    (hrest : ∀ e ∈ rest, e.Within ∅ (a.ids Set.univ)) (hid : id ∈ old) (live : List String) (j : Nat) :
    id ∈ (replay World.step (World.start live)
        (((deleteIds a old 0).events ++ rest).take j)).live ↔
      id ∈ live ∧ ∀ i, old[i]? = some id → i < j → (a.delete i).isOk = false := by
  rw [mem_live_replay (R := Set.univ) (hfresh.not_mem_ids hid) _ _
    (fun e he => within_of_mem hrest e (List.mem_of_mem_take he)), delete_mem_take hrest]
  refine and_congr_right fun _ => ?_
  constructor
  · intro h i hi hij
    cases hok : (a.delete i).isOk with
    | false => rfl
    | true => exact absurd ⟨i, hij, hi, hok⟩ h
  · rintro h ⟨i, hij, hi, hok⟩
    rw [h i hi hij] at hok
    exact absurd hok (by decide)

/-- An old id once a cascade that made calls has ended and its drop-deletes have run. -/
theorem old_id_settled (hfresh : a.Fresh mt.rdIds)
    (hev : (executeCascade a mt cfg).events = (deleteIds a mt.rdIds 0).events ++ rest)
    (hrest : ∀ e ∈ rest, e.Within ∅ (a.ids Set.univ)) (hid : id ∈ mt.rdIds) (live : List String) :
    id ∈ (cascadeWorld a mt cfg live).settled a ↔
      id ∈ live ∧ ∀ i, mt.rdIds[i]? = some id → (a.delete i).isOk = false := by
  have hguards : (cascadeWorld a mt cfg live).Guards (a.ids Set.univ) :=
    guards_replay live (fun e he => within_of_mem hrest e (hev ▸ he))
  rw [mem_settled hguards (hfresh.not_mem_ids hid), cascadeWorld, hev,
    ← List.take_length (l := _ ++ rest), old_id_live_take hfresh hrest hid]
  refine and_congr_right fun _ => forall_congr' fun i => forall_congr' fun hi => ?_
  have hlt : i < mt.rdIds.length := (List.getElem?_eq_some_iff.mp hi).1
  have hlen : i < ((deleteIds a mt.rdIds 0).events ++ rest).length := by
    rw [List.length_append, deleteIds_events, List.length_map, List.length_zipIdx]
    omega
  exact ⟨fun h => h hlen, fun h _ => h⟩

end OldIds

/-- **When an old id survives a deferred or dropped cascade.**  A cascade that is deferred, or whose
    future is dropped at any await, leaves at least one of the old ids live exactly when there is
    one all of whose deletes issued so far failed: strategy 1 deletes before it knows that anything
    can replace the torrent. -/
theorem old_id_survives_iff (a : Answers) (mt : ManagedTorrent) (cfg : RepairConfig)
    (live : List String) (hlive : ∀ id ∈ mt.rdIds, id ∈ live) (hfresh : a.Fresh mt.rdIds) :
    ((executeCascade a mt cfg).value = .deferBandwidth →
      ((∃ id ∈ mt.rdIds, id ∈ (cascadeWorld a mt cfg live).settled a) ↔
        ∃ id ∈ mt.rdIds, ∀ i, mt.rdIds[i]? = some id → (a.delete i).isOk = false)) ∧
    (∀ k arrived w, droppedAt live (executeCascade a mt cfg).events k arrived = some w →
      ((∃ id ∈ mt.rdIds, id ∈ w.settled a) ↔
        ∃ id ∈ mt.rdIds, ∀ i, mt.rdIds[i]? = some id → (i < k ∨ i = k ∧ arrived = true) →
          (a.delete i).isOk = false)) := by
  rcases executeCascade_shape a mt cfg with ⟨hnil, href⟩ | ⟨rest, hev, hrest⟩
  · -- refused before the first call
    constructor
    · intro hdefer
      rw [hdefer] at href
      exact absurd href id
    · intro k arrived w hw
      rw [hnil] at hw
      exact absurd hw (by simp [droppedAt])
  · constructor
    · intro hdefer
      refine exists_congr fun id => and_congr_right fun hid => ?_
      rw [old_id_settled hfresh hev hrest hid]
      exact and_iff_right (hlive id hid)
    · intro k arrived w hw
      -- `j` is `k`, or `k + 1` with the call in flight counted
      obtain ⟨hguards, j, hj, hlivew⟩ := droppedAt_spec hw
        (fun e he => within_of_mem hrest e (hev ▸ he))
      refine exists_congr fun id => and_congr_right fun hid => ?_
      rw [mem_settled hguards (hfresh.not_mem_ids hid), hlivew, hev,
        old_id_live_take hfresh hrest hid, and_iff_right (hlive id hid)]
      refine forall_congr' fun i => forall_congr' fun hi => ?_
      rw [hj]

/-- A magnet whose calls all fail with the same error. -/
def failing (e : RdError) : Magnet := ⟨.error e, .error e, fun _ => .error e, .error e⟩

/-- The account's traffic is used up. -/
def trafficExhausted : RdError := .api (.trafficExhausted "traffic exhausted")

/-- A torrent without detail and with the old ids `A` and `B`. -/
def staleTorrent : ManagedTorrent where
  accessKey := "hash/name"
  rdIds := ["A", "B"]
  torrent := ⟨"A", "name", "hash", 100, "downloaded", [], 0⟩
  info := none
  state := .underRepair
  unrepairableReason := none
  lastRepairedAt := none
  fileStates := none
  underRepairStartedAt := some 0

/-- Both deletes succeed, then the traffic is used up. -/
def exhaustedAfterDeletes : Answers :=
  ⟨fun _ => .ok (), fun _ => failing trafficExhausted, fun _ => (.ok (), .ok ())⟩

/-- The cascade is deferred, or dropped while `add_magnet` is in flight, with every old id gone. -/
theorem deferred_with_all_ids_deleted :
    (executeCascade exhaustedAfterDeletes staleTorrent ⟨false, 5⟩).value = .deferBandwidth ∧
    (∀ id ∈ staleTorrent.rdIds, id ∈ ["A", "B"]) ∧
    (cascadeWorld exhaustedAfterDeletes staleTorrent ⟨false, 5⟩ ["A", "B"]).settled
      exhaustedAfterDeletes = [] ∧
    droppedAt ["A", "B"] (executeCascade exhaustedAfterDeletes staleTorrent ⟨false, 5⟩).events 2
      false = some ⟨[], none, []⟩ := by
  refine ⟨by decide, by decide, by decide, by decide⟩

/-- Only the first delete succeeds, the magnet `N` is added, and selecting its files is refused. -/
def secondDeleteFails : Answers where
  delete i := if i = 0 then .ok () else .error trafficExhausted
  magnet s := match s with
    | .reinsert => { failing trafficExhausted with add := .ok "N" }
    | .file _ | .archive | .batch _ => failing trafficExhausted
  dropDelete _ := (.ok (), .ok ())

theorem old_id_survives_iff_secondDeleteFails :
    ∃ id ∈ staleTorrent.rdIds, id ∈ (cascadeWorld secondDeleteFails staleTorrent ⟨false, 5⟩
      ["A", "B"]).settled secondDeleteFails := by
  refine ((old_id_survives_iff secondDeleteFails staleTorrent ⟨false, 5⟩ ["A", "B"] (by decide)
    ⟨?_, ?_⟩).1 (by decide)).mpr ⟨"B", by decide, ?_⟩
  · intro s id hs
    cases s with
    | reinsert =>
      obtain rfl := Except.ok.inj hs
      decide
    | file _ | archive | batch _ => exact absurd hs (by simp [secondDeleteFails, failing])
  · intro s t id hs ht
    cases s with
    | reinsert => cases t with
      | reinsert => rfl
      | file _ | archive | batch _ => exact absurd ht (by simp [secondDeleteFails, failing])
    | file _ | archive | batch _ => exact absurd hs (by simp [secondDeleteFails, failing])
  · intro i hi
    match i with
    | 0 => exact absurd hi (by decide)
    | 1 => rfl
    | n + 2 => exact absurd hi (by simp [staleTorrent])

end RdRs.Repair
