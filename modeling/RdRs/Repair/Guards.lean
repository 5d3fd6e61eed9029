/-
  `repair/strategies.rs`, `repair/ephemeral_torrent.rs` — who answers for a magnet the cascade adds.

  1. **Scope** — the life of a guard as an automaton: a magnet is added, held by its guard, and then
     kept, or asked to be deleted, or left to the destructor.  An event that is out of place (a
     second dismissal, a call after one, a guard for another id) is refused.
  2. **Cascade** — `executeCascade_scoped`: whatever Real-Debrid answers, the trace of a cascade is
     accepted, and it ends outside every scope or with the one magnet of its success kept.
  3. **Accounts** — `Accounted`, an invariant of the accepted traces: every magnet added so far has
     been asked to be deleted or is the one in scope, and one that is held or kept has not been asked
     to be deleted.  From it `magnets_accounted`.
-/
import RdRs.Repair.Success

set_option linter.unusedVariables false

namespace RdRs.Repair

open RdRs.Rd RdRs.Effects RdRs.Runs

/-! ## The life of a guard -/

/-- Where a cascade is with its magnet. -/
inductive Scope where
  /-- no guard -/
  | outside
  /-- `add_magnet` has returned the id, the guard is not made yet -/
  | added (id : String)
  | held (id : String)
  /-- dismissed: the id is the torrent's now -/
  | kept (id : String)
  /-- `delete_ephemeral` was called and has succeeded or not -/
  | asked (id : String) (deleted : Bool)
  /-- the guard of a kept magnet is gone -/
  | done (id : String)
deriving DecidableEq

/-- The event fits, and this is where it leads.  Strategy 1 deletes ids of `old`. -/
def Scope.next (old : List String) : Scope → Ev → Option Scope
  | .outside, .delete id _ => if id ∈ old then some .outside else none
  | .outside, .add _ none => some .outside
  | .outside, .add _ (some id) => some (.added id)
  | .added id, .guardNew id' => if id' = id then some (.held id) else none
  | .held id, .select id' _ => if id' = id then some (.held id) else none
  | .held id, .info id' => if id' = id then some (.held id) else none
  | .held id, .sleep => some (.held id)
  | .held id, .dismiss => some (.kept id)
  | .held id, .deleteEphemeral id' ok => if id' = id then some (.asked id ok) else none
  | .held _, .guardDrop => some .outside
  | .asked _ _, .guardDrop => some .outside
  | .kept id, .guardDrop => some (.done id)
  | _, _ => none

/-- The guard, as the scope has it. -/
def Scope.guard : Scope → Option String
  | .held id => some id
  | .asked id false => some id
  | _ => none

/-- The magnet nobody has been asked to delete. -/
def Scope.owned : Scope → Option String
  | .added id | .held id | .kept id | .done id => some id
  | .outside | .asked _ _ => none

/-- The magnet that stays. -/
def CascadeOutcome.kept : CascadeOutcome → List String
  | .success (some ids) => ids
  | _ => []

/-- Where a cascade with this outcome ends. -/
inductive Settled : CascadeOutcome → Scope → Prop where
  | nothing {o : CascadeOutcome} (h : o.kept = []) : Settled o .outside
  | kept (id : String) : Settled (.success (some [id])) (.done id)

/-- Out of the guard's scope. -/
def Scope.drop : Scope → Scope
  | .held _ | .asked _ _ => .outside
  | .kept id => .done id
  | s => s

/-- The guard can go out of scope here, and then `P` holds. -/
def Scope.Closing {β : Type} (old : List String) (P : β → Scope → Prop) (b : β) (s : Scope) : Prop :=
  s.next old .guardDrop = some s.drop ∧ P b s.drop

/-! ## The cascade keeps to it -/

section Scoped

variable {old : List String}

/-- Polling keeps the guard. -/
theorem infoReadyFrom_scoped (m : Magnet) (id : String) (restrictCached : Bool) :
    ∀ left attempt, Reaches (Scope.next old) (.held id) (infoReadyFrom m id restrictCached left attempt)
      fun _ s => s = .held id
  | 0, _ => .pure rfl
  | left + 1, attempt => by
    have hpause : Reaches (Scope.next old) (.held id) (pollBackoff attempt)
        fun _ s => s = .held id := by
      unfold pollBackoff
      split
      · exact .emit rfl rfl
      · exact .pure rfl
    refine hpause.bind fun s hs => ?_
    subst hs
    refine Reaches.emit_bind (if_pos rfl) ?_
    split
    · exact .pure rfl
    · split
      · exact .pure rfl
      · exact infoReadyFrom_scoped m id restrictCached left (attempt + 1)

/-- After the opening the magnet that was added is held. -/
theorem openMagnet_scoped (m : Magnet) (hash files : String) (restrictCached : Bool) :
    Reaches (Scope.next old) .outside (openMagnet m hash files restrictCached) fun p s =>
      s = match p.id with
        | none => .outside
        | some id => .held id := by
  unfold openMagnet
  split
  · exact Reaches.emit_bind rfl (.pure rfl)
  · rename_i id hadd
    refine Reaches.emit_bind rfl (Reaches.emit_bind (if_pos rfl) (Reaches.emit_bind (if_pos rfl) ?_))
    split
    · exact .pure rfl
    · exact (infoReadyFrom_scoped m id restrictCached 3 0).bind fun s hs => .pure hs

/-- A magnet that is not cached is deleted inside its guard. -/
theorem deleteNotCached_scoped (m : Magnet) (id : String) :
    Reaches (Scope.next old) (.held id) (deleteNotCached m id) (Scope.Closing old Settled) := by
  have hkept : (deleteNotCached m id).value.kept = [] := by
    cases hvalue : (deleteNotCached m id).value with
    | success ids => exact absurd hvalue (deleteNotCached_ne_success m id ids)
    | unrepairable reason => rfl
    | unrepairableMsg msg => rfl
    | deferBandwidth => rfl
  refine ⟨.asked id m.delete.isOk, ?_, rfl, .nothing hkept⟩
  have hevents : (deleteNotCached m id).events = [.deleteEphemeral id m.delete.isOk] := by
    unfold deleteNotCached
    rw [bind_events, emit_events]
    split
    · rfl
    · split
      · rfl
      · rfl
  rw [hevents]
  exact run_step [] (if_pos rfl)

theorem keep_scoped {β : Type} {P : β → Scope → Prop} {exit : CascadeOutcome → β}
    (hexit : ∀ o s, Settled o s → P (exit o) s) (id : String) :
    Reaches (Scope.next old) (.held id) (keep exit id) (Scope.Closing old P) :=
  Reaches.emit_bind rfl (.pure ⟨rfl, hexit _ _ (.kept id)⟩)

/-- **The scope of one magnet**: `P` of the result, by the exits of `react`. -/
theorem withMagnet_scoped {β : Type} {m : Magnet} {hash files : String} {restrictCached : Bool}
    {onError : RdError → β} {onReady : String → Traced Ev β} {exit : CascadeOutcome → β}
    {notReady : β} {P : β → Scope → Prop} (herror : ∀ e, P (onError e) .outside)
    (hready : ∀ id, Reaches (Scope.next old) (.held id) (onReady id) (Scope.Closing old P))
    (hexit : ∀ o s, Settled o s → P (exit o) s) (hnotReady : P notReady .outside) :
    Reaches (Scope.next old) .outside
      (withMagnet m hash files restrictCached (react m onError onReady exit notReady)) P := by
  unfold withMagnet
  refine (openMagnet_scoped m hash files restrictCached).bind fun s hs => ?_
  cases hp : (openMagnet m hash files restrictCached).value with
  | addFailed e =>
    rw [hp] at hs
    subst hs
    exact ⟨.outside, rfl, herror e⟩
  | selectFailed id e =>
    rw [hp] at hs
    subst hs
    exact ⟨.outside, rfl, herror e⟩
  | checked id r =>
    rw [hp] at hs
    subst hs
    have hreact : Reaches (Scope.next old) (.held id)
        (react m onError onReady exit notReady (.checked id r)) (Scope.Closing old P) := by
      cases r with
      | error e => exact .pure ⟨rfl, herror e⟩
      | ok out =>
        rw [react]
        split
        · exact hready id
        · split
          · exact (deleteNotCached_scoped m id).bind fun s hs => .pure ⟨hs.1, hexit _ _ hs.2⟩
          · exact .pure ⟨rfl, hnotReady⟩
    exact hreact.bind fun s hs => Reaches.emit_bind hs.1 (.pure hs.2)

/-- What strategies 2 to 4 hand on. -/
def Onward {α : Type} (r : Except CascadeOutcome α) (s : Scope) : Prop :=
  match r with
  | .error out => Settled out s
  | .ok _ => s = .outside

/-- A strategy, and what follows it: the cascade ends with its outcome, or goes on outside every
    scope. -/
theorem onward_bind {α β : Type} {m : Traced Ev (Except CascadeOutcome α)}
    {f : Except CascadeOutcome α → Traced Ev β} {P : β → Scope → Prop}
    (hm : Reaches (Scope.next old) .outside m Onward)
    (herror : ∀ out s, Settled out s → Reaches (Scope.next old) s (f (.error out)) P)
    (hok : ∀ a, Reaches (Scope.next old) .outside (f (.ok a)) P) :
    Reaches (Scope.next old) .outside (m >>= f) P := by
  refine hm.bind fun s hs => ?_
  cases hvalue : m.value with
  | error out =>
    rw [hvalue] at hs
    exact herror out s hs
  | ok a =>
    rw [hvalue] at hs
    obtain rfl : s = .outside := hs
    exact hok a

theorem onward_deferOr (e : RdError) : Onward (deferOr e) .outside := by
  unfold deferOr
  split
  · exact .nothing rfl
  · rfl

theorem probe_scoped (m : Magnet) (hash files : String) (restrictCached : Bool) :
    Reaches (Scope.next old) .outside (withMagnet m hash files restrictCached (probeReact m))
      Onward :=
  withMagnet_scoped onward_deferOr (fun id => .pure ⟨rfl, rfl⟩) (fun o s hs => hs) rfl

/-- File by file each guard is closed before the next one. -/
theorem individualFiles_scoped (a : Answers) (hash : String) (restrictCached : Bool) :
    ∀ (files : List File) (i : Nat) (allFixed : Bool), Reaches (Scope.next old) .outside
      (individualFiles a hash restrictCached files i allFixed) Onward
  | [], _, _ => .pure rfl
  | f :: rest, i, allFixed => by
    rw [individualFiles]
    refine onward_bind (probe_scoped (a.magnet (.file i)) hash (toString f.id) restrictCached)
      (fun out s hs => .pure hs) fun fixed => ?_
    exact individualFiles_scoped a hash restrictCached rest (i + 1) (allFixed && fixed)

/-- Batch by batch each guard is closed before the next one. -/
theorem batchDownload_scoped (a : Answers) (hash : String) (restrictCached : Bool) :
    ∀ (chunks : List (List Int)) (j n : Nat), Reaches (Scope.next old) .outside
      (batchDownload a hash restrictCached chunks j n) Onward
  | [], _, _ => .pure rfl
  | chunk :: rest, j, n => by
    rw [batchDownload]
    refine onward_bind (probe_scoped (a.magnet (.batch j)) hash (joinIds chunk) restrictCached)
      (fun out s hs => .pure hs) fun fixed => ?_
    exact batchDownload_scoped a hash restrictCached rest (j + 1) (if fixed then n + 1 else n)

/-- The archive strategy closes its guard. -/
theorem archiveAll_scoped (a : Answers) (hash : String) (info : TorrentInfo)
    (restrictCached : Bool) :
    Reaches (Scope.next old) .outside (archiveAll a hash info restrictCached) Onward := by
  unfold archiveAll
  split
  · exact withMagnet_scoped onward_deferOr (keep_scoped fun o s hs => hs) (fun o s hs => hs) rfl
  · exact .pure rfl

theorem finishFailure_kept (mt : ManagedTorrent) : (finishFailure mt).kept = [] := by
  unfold finishFailure
  split
  · rfl
  · rfl

theorem mapRd_kept (e : RdError) : (mapRd e).kept = [] := by
  unfold mapRd
  split
  · rfl
  · split
    · rfl
    · rfl

theorem batchStage_scoped (a : Answers) (mt : ManagedTorrent) (info : TorrentInfo)
    (cfg : RepairConfig) :
    Reaches (Scope.next old) .outside (batchStage a mt info cfg) Settled := by
  unfold batchStage
  split
  · refine onward_bind (batchDownload_scoped a _ _ (batches info cfg) 0 0)
      (fun out s hs => .pure hs) fun batchesOk => ?_
    show Reaches (Scope.next old) .outside
      (if batchesOk = (batches info cfg).length then pure (.success none)
        else pure (finishFailure mt)) Settled
    split
    · exact .pure (.nothing rfl)
    · exact .pure (.nothing (finishFailure_kept mt))
  · exact .pure (.nothing (finishFailure_kept mt))

/-- The later strategies close every guard. -/
theorem laterStrategies_scoped (a : Answers) (mt : ManagedTorrent) (info : TorrentInfo)
    (cfg : RepairConfig) :
    Reaches (Scope.next old) .outside (laterStrategies a mt info cfg) Settled := by
  unfold laterStrategies
  refine onward_bind (individualFiles_scoped a _ _ info.selectedFiles 0 true)
    (fun out s hs => .pure hs) fun allFixed => ?_
  cases allFixed with
  | true => exact .pure (.nothing rfl)
  | false =>
    exact onward_bind (archiveAll_scoped a _ info _) (fun out s hs => .pure hs) fun fixed =>
      batchStage_scoped a mt info cfg

/-- The old ids are deleted outside all guards. -/
theorem deleteIds_scoped (a : Answers) : ∀ (ids : List String) (i : Nat), (∀ id ∈ ids, id ∈ old) →
    Reaches (Scope.next old) .outside (deleteIds a ids i) fun _ s => s = .outside
  | [], _, _ => .pure rfl
  | id :: ids, i, h =>
    Reaches.emit_bind (if_pos (h id List.mem_cons_self))
      (deleteIds_scoped a ids (i + 1) fun x hx => h x (List.mem_cons_of_mem id hx))

/-- Strategy 1: an outcome, or nothing and no guard left. -/
theorem reinsert_scoped (a : Answers) (mt : ManagedTorrent) (files : String)
    (restrictCached : Bool) :
    Reaches (Scope.next mt.rdIds) .outside (tryStrategy1Reinsert a mt files restrictCached)
      fun r s => match r with
        | none => s = .outside
        | some out => Settled out s := by
  refine (deleteIds_scoped a mt.rdIds 0 fun id hid => hid).bind fun s hs => ?_
  subst hs
  exact withMagnet_scoped (fun e => .nothing (mapRd_kept e)) (keep_scoped fun o s hs => hs)
    (fun o s hs => hs) rfl

end Scoped

/-- **Every cascade keeps to the life of its guards**, whatever Real-Debrid answers. -/
theorem executeCascade_scoped (a : Answers) (mt : ManagedTorrent) (cfg : RepairConfig) :
    Reaches (Scope.next mt.rdIds) .outside (executeCascade a mt cfg) Settled := by
  unfold executeCascade
  split
  · split
    · exact .pure (.nothing rfl)
    · refine (reinsert_scoped a mt "all" _).bind fun s hs => .pure ?_
      split at hs
      · rename_i hnone
        subst hs
        rw [hnone]
        exact .nothing (finishFailure_kept mt)
      · rename_i out hout
        rw [hout]
        exact hs
  · rename_i info hinfo
    split
    · exact .pure (.nothing rfl)
    · split
      · exact .pure (.nothing rfl)
      · split
        · exact .pure (.nothing rfl)
        · refine (reinsert_scoped a mt _ _).bind fun s hs => ?_
          split
          · rename_i out hout
            rw [hout] at hs
            exact .pure hs
          · rename_i hnone
            rw [hnone] at hs
            obtain rfl : s = .outside := hs
            exact laterStrategies_scoped a mt info cfg

/-! ## Accounts -/

/-- The id `add_magnet` returns. -/
def Ev.added : Ev → Option String
  | .add _ id => id
  | _ => none

/-- The id `delete_torrent` is called for. -/
def Ev.deleted : Ev → Option String
  | .delete id _ => some id
  | .deleteEphemeral id _ => some id
  | _ => none

/-- The ids `add_magnet` has returned, in order. -/
def addedIds (es : List Ev) : List String := es.filterMap Ev.added

/-- The ids for which a `delete_torrent` has been issued, or scheduled by a destructor. -/
def deletedIds (es : List Ev) (w : World) : List String := es.filterMap Ev.deleted ++ w.spawned

/-- `add_magnet` has returned new ids: none of the old ones, and never one twice. -/
structure FreshIds (old : List String) (es : List Ev) : Prop where
  new : ∀ id ∈ addedIds es, id ∉ old
  once : (addedIds es).Nodup

/-- An event adds its own id. -/
theorem mem_addedIds_snoc {es : List Ev} {e : Ev} {id : String} :
    id ∈ addedIds (es ++ [e]) ↔ id ∈ addedIds es ∨ e.added = some id := by
  rw [addedIds, List.filterMap_append, List.mem_append]
  refine or_congr_right ?_
  rw [List.mem_filterMap]
  simp

theorem mem_addedIds_quiet {es : List Ev} {e : Ev} (h : e.added = none) {id : String} :
    id ∈ addedIds (es ++ [e]) ↔ id ∈ addedIds es := by
  rw [mem_addedIds_snoc, h, or_iff_left (by simp)]

/-- An event deletes its own id, or, when a guard is dropped, the id it holds. -/
theorem mem_deletedIds_snoc {es : List Ev} {e : Ev} {w : World} {id : String} :
    id ∈ deletedIds (es ++ [e]) (w.step e) ↔
      id ∈ deletedIds es w ∨ e.deleted = some id ∨ e = .guardDrop ∧ w.guard = some id := by
  have hspawned : id ∈ (w.step e).spawned ↔ id ∈ w.spawned ∨ e = .guardDrop ∧ w.guard = some id := by
    by_cases he : e = .guardDrop
    · simp [World.step, he]
    · simp [World.step, he]
  rw [deletedIds, List.mem_append, hspawned, List.filterMap_append, List.mem_append, deletedIds,
    List.mem_append, List.mem_filterMap (l := [e])]
  simp only [List.mem_singleton, exists_eq_left]
  tauto

/-- The magnet in scope. -/
def Scope.magnet : Scope → Option String
  | .added id | .held id | .kept id | .done id | .asked id _ => some id
  | .outside => none

/-- **The accounts** after the events `es`, in the scope `s`: the guard is as the scope has it; only
    old ids and magnets are deleted; every magnet is deleted or owned, and never both. -/
structure Accounted (old : List String) (es : List Ev) (w : World) (s : Scope) : Prop where
  guard : w.guard = s.guard
  magnet : ∀ id, s.magnet = some id → id ∈ addedIds es
  deleted : ∀ id ∈ deletedIds es w, id ∈ old ∨ id ∈ addedIds es
  cover : ∀ id ∈ addedIds es, id ∈ deletedIds es w ∨ s.owned = some id
  owned : ∀ id, s.owned = some id → id ∉ deletedIds es w

/-- At the start there is nothing to account for. -/
theorem accounted_start (old live : List String) : Accounted old [] (World.start live) .outside where
  guard := rfl
  magnet := fun id h => by cases h
  deleted := fun id h => absurd h List.not_mem_nil
  cover := fun id h => absurd h List.not_mem_nil
  owned := fun id h => by cases h

section Accounts

variable {old : List String} {es : List Ev} {w : World} {s s' : Scope} {e : Ev}

/-- An event that neither adds nor deletes a magnet. -/
theorem Accounted.quiet (h : Accounted old es w s) (hadded : e.added = none)
    (hdeleted : e.deleted = none) (hdrop : e = .guardDrop → w.guard = none)
    (hguard : (w.step e).guard = s'.guard) (hmagnet : ∀ id, s'.magnet = some id → s.magnet = some id)
    (howned : s'.owned = s.owned) : Accounted old (es ++ [e]) (w.step e) s' := by
  have hadd : ∀ id, id ∈ addedIds (es ++ [e]) ↔ id ∈ addedIds es := fun id =>
    mem_addedIds_quiet hadded
  have hdel : ∀ id, id ∈ deletedIds (es ++ [e]) (w.step e) ↔ id ∈ deletedIds es w := by
    intro id
    rw [mem_deletedIds_snoc, hdeleted]
    refine or_iff_left ?_
    rintro (hid | ⟨he, hid⟩)
    · cases hid
    · rw [hdrop he] at hid
      cases hid
  refine ⟨hguard, fun id hid => ?_, fun id hid => ?_, fun id hid => ?_, fun id hid => ?_⟩
  · rw [hadd]
    exact h.magnet id (hmagnet id hid)
  · rw [hadd]
    exact h.deleted id ((hdel id).mp hid)
  · rw [hdel, howned]
    exact h.cover id ((hadd id).mp hid)
  · rw [hdel]
    exact h.owned id (howned ▸ hid)

/-- An event that has `x` deleted: an old id, or the magnet in scope, of which nothing is owned
    then. -/
theorem Accounted.release (h : Accounted old es w s) {x : String} (hadded : e.added = none)
    (hdeleted : ∀ id, e.deleted = some id ∨ e = .guardDrop ∧ w.guard = some id ↔ id = x)
    (hguard : (w.step e).guard = s'.guard) (hmagnet : ∀ id, s'.magnet = some id → s.magnet = some id)
    (hx : x ∈ old ∨ s.magnet = some x) (hbefore : ∀ id, s.owned = some id → id = x)
    (hafter : s'.owned = none) : Accounted old (es ++ [e]) (w.step e) s' := by
  have hadd : ∀ id, id ∈ addedIds (es ++ [e]) ↔ id ∈ addedIds es := fun id =>
    mem_addedIds_quiet hadded
  have hdel : ∀ id, id ∈ deletedIds (es ++ [e]) (w.step e) ↔ id ∈ deletedIds es w ∨ id = x := by
    intro id
    rw [mem_deletedIds_snoc, hdeleted]
  refine ⟨hguard, fun id hid => ?_, fun id hid => ?_, fun id hid => ?_, fun id hid => ?_⟩
  · rw [hadd]
    exact h.magnet id (hmagnet id hid)
  · rw [hadd]
    rcases (hdel id).mp hid with hid | rfl
    · exact h.deleted id hid
    · exact hx.imp_right (h.magnet id)
  · rw [hdel]
    rcases h.cover id ((hadd id).mp hid) with hid | hid
    · exact Or.inl (Or.inl hid)
    · exact Or.inl (Or.inr (hbefore id hid))
  · rw [hafter] at hid
    cases hid

/-- A new magnet. -/
theorem Accounted.add {hash id : String} (h : Accounted old es w .outside)
    (hfresh : FreshIds old (es ++ [.add hash (some id)])) :
    Accounted old (es ++ [.add hash (some id)]) (w.step (.add hash (some id))) (.added id) := by
  have hadd : ∀ x, x ∈ addedIds (es ++ [.add hash (some id)]) ↔ x ∈ addedIds es ∨ id = x := by
    intro x
    rw [mem_addedIds_snoc]
    exact or_congr_right Option.some_inj
  have hdel : ∀ x, x ∈ deletedIds (es ++ [.add hash (some id)]) (w.step (.add hash (some id))) ↔
      x ∈ deletedIds es w := by
    intro x
    rw [mem_deletedIds_snoc]
    refine or_iff_left ?_
    rintro (hx | ⟨he, -⟩)
    · cases hx
    · cases he
  have hnew : id ∉ addedIds es := by
    have honce := hfresh.once
    rw [addedIds, List.filterMap_append] at honce
    exact fun hin => List.disjoint_of_nodup_append honce hin List.mem_cons_self
  refine ⟨h.guard, fun x hx => ?_, fun x hx => ?_, fun x hx => ?_, fun x hx => ?_⟩
  · exact (hadd x).mpr (Or.inr (Option.some.inj hx))
  · exact (h.deleted x ((hdel x).mp hx)).imp_right fun hin => (hadd x).mpr (Or.inl hin)
  · rcases (hadd x).mp hx with hx | rfl
    · refine Or.inl ((hdel x).mpr ((h.cover x hx).resolve_right nofun))
    · exact Or.inr rfl
  · obtain rfl := Option.some.inj hx
    rw [hdel]
    intro hin
    rcases h.deleted id hin with hold | hadded
    · exact hfresh.new id ((hadd id).mpr (Or.inr rfl)) hold
    · exact hnew hadded

/-- **One event** keeps the accounts. -/
theorem accounted_step (h : Accounted old es w s) (hnext : s.next old e = some s')
    (hfresh : FreshIds old (es ++ [e])) : Accounted old (es ++ [e]) (w.step e) s' := by
  have hguard : w.guard = s.guard := h.guard
  cases s with
  | outside =>
    cases e with
    | delete id ok =>
      rw [Scope.next] at hnext
      split at hnext
      · rename_i hid
        cases hnext
        exact h.release rfl (fun x => by simp [Ev.deleted, eq_comm]) hguard nofun (Or.inl hid) nofun rfl
      · cases hnext
    | add hash id =>
      cases id with
      | none =>
        cases hnext
        exact h.quiet rfl rfl nofun hguard (fun x hx => hx) rfl
      | some id =>
        cases hnext
        exact h.add hfresh
    | _ => cases hnext
  | added id =>
    cases e with
    | guardNew id' =>
      rw [Scope.next] at hnext
      split at hnext
      · rename_i hid
        subst hid
        cases hnext
        exact h.quiet rfl rfl nofun rfl (fun x hx => hx) rfl
      · cases hnext
    | add hash id => cases id <;> cases hnext
    | _ => cases hnext
  | held id =>
    cases e with
    | select id' files =>
      rw [Scope.next] at hnext
      split at hnext
      · cases hnext
        exact h.quiet rfl rfl nofun hguard (fun x hx => hx) rfl
      · cases hnext
    | info id' =>
      rw [Scope.next] at hnext
      split at hnext
      · cases hnext
        exact h.quiet rfl rfl nofun hguard (fun x hx => hx) rfl
      · cases hnext
    | sleep =>
      cases hnext
      exact h.quiet rfl rfl nofun hguard (fun x hx => hx) rfl
    | dismiss =>
      cases hnext
      exact h.quiet rfl rfl nofun rfl (fun x hx => hx) rfl
    | deleteEphemeral id' ok =>
      rw [Scope.next] at hnext
      split at hnext
      · rename_i hid
        subst hid
        cases hnext
        refine h.release rfl (x := id') (fun x => by simp [Ev.deleted, eq_comm]) ?_ (fun x hx => hx)
          (Or.inr rfl) (fun x hx => (Option.some.inj hx).symm) rfl
        cases ok with
        | true => rfl
        | false => exact hguard
      · cases hnext
    | guardDrop =>
      cases hnext
      exact h.release rfl (x := id) (fun x => by simp [Ev.deleted, hguard, Scope.guard, eq_comm]) rfl
        nofun (Or.inr rfl) (fun x hx => (Option.some.inj hx).symm) rfl
    | add hash id => cases id <;> cases hnext
    | _ => cases hnext
  | asked id deleted =>
    cases e with
    | guardDrop =>
      cases hnext
      cases deleted with
      | true => exact h.quiet rfl rfl (fun _ => hguard) rfl nofun rfl
      -- the destructor tries again
      | false =>
        exact h.release rfl (x := id) (fun x => by simp [Ev.deleted, hguard, Scope.guard, eq_comm])
          rfl nofun (Or.inr rfl) nofun rfl
    | add hash id => cases id <;> cases hnext
    | _ => cases hnext
  | kept id =>
    cases e with
    | guardDrop =>
      cases hnext
      exact h.quiet rfl rfl (fun _ => hguard) rfl (fun x hx => hx) rfl
    | add hash id => cases id <;> cases hnext
    | _ => cases hnext
  | done id =>
    cases e with
    | add hash id => cases id <;> cases hnext
    | _ => cases hnext

end Accounts

theorem FreshIds.left {old : List String} {es fs : List Ev} (h : FreshIds old (es ++ fs)) :
    FreshIds old es := by
  have hsplit : addedIds (es ++ fs) = addedIds es ++ addedIds fs := List.filterMap_append
  refine ⟨fun id hid => h.new id ?_, ?_⟩
  · rw [hsplit]
    exact List.mem_append_left _ hid
  · have honce := h.once
    rw [hsplit] at honce
    exact (List.nodup_append.mp honce).1

/-- **The accounts of an accepted trace.** -/
theorem accounted_run {old : List String} (live : List String) :
    ∀ (es : List Ev) (s : Scope), run (Scope.next old) .outside es = some s → FreshIds old es →
      Accounted old es (replay World.step (World.start live) es) s := by
  intro es
  induction es using List.reverseRecOn with
  | nil =>
    intro s hrun _
    cases hrun
    exact accounted_start old live
  | append_singleton es e ih =>
    intro s hrun hfresh
    rw [run_append] at hrun
    obtain ⟨t, hbefore, hlast⟩ := Option.bind_eq_some_iff.mp hrun
    obtain ⟨u, hnext, hu⟩ := run_cons hlast
    cases hu
    rw [replay_append]
    exact accounted_step (ih t hbefore hfresh.left) hnext hfresh

/-! ## The result -/

/-- The `expect` before an event: on `guard.id()`, which is the id of the call, or on
    `guard.dismiss()`. -/
def Ev.Expected (guard : Option String) : Ev → Prop
  | .select id _ => guard = some id
  | .info id => guard = some id
  | .dismiss => guard ≠ none
  | _ => True

theorem expected_of_next {old : List String} {s s' : Scope} {e : Ev} (h : s.next old e = some s') :
    e.Expected s.guard := by
  -- a call about a magnet goes through for the magnet that is held
  have hheld : ∀ {id id' : String} {t : Scope}, (if id = id' then some t else none) = some s' →
      some id' = some id := by
    intro id id' t hif
    split at hif
    · rename_i hid
      exact congrArg some hid.symm
    · cases hif
  cases e with
  | select id files =>
    cases s with
    | held id' => exact hheld h
    | _ => cases h
  | info id =>
    cases s with
    | held id' => exact hheld h
    | _ => cases h
  | dismiss =>
    cases s with
    | held id' => exact nofun
    | _ => cases h
  | _ => trivial

/-- At an await a magnet is owned only by a guard that holds it. -/
theorem owned_at_await {old : List String} {s s' : Scope} {e : Ev} (h : s.next old e = some s')
    (hawait : e.isAwait = true) : s.owned = none ∨ s.owned = s.guard := by
  cases s with
  | outside => exact Or.inl rfl
  | held id => exact Or.inr rfl
  | asked id deleted => exact Or.inl rfl
  | added id | kept id | done id =>
    cases e with
    | add hash id' => cases id' <;> cases h
    | guardNew id' | dismiss | guardDrop => cases hawait
    | _ => cases h

/-- At the end only the magnet of a success is owned. -/
theorem Settled.kept_iff {o : CascadeOutcome} {s : Scope} (h : Settled o s) (id : String) :
    id ∈ o.kept ↔ s.owned = some id := by
  cases h with
  | nothing hnone =>
    rw [hnone]
    exact ⟨fun h => absurd h List.not_mem_nil, nofun⟩
  | kept id' =>
    rw [CascadeOutcome.kept, List.mem_singleton]
    exact ⟨fun h => congrArg some h.symm, fun h => (Option.some.inj h).symm⟩

/-- What a dropped future has scheduled: what its guards had, and the guard in scope. -/
theorem droppedAt_spawned {live : List String} {es : List Ev} {k : Nat} {arrived : Bool} {w : World}
    (h : droppedAt live es k arrived = some w) :
    ∃ e, es[k]? = some e ∧ e.isAwait = true ∧
      w.spawned = (replay World.step (World.start live) (es.take k)).spawned ++
        (replay World.step (World.start live) (es.take k)).guard.toList := by
  unfold droppedAt at h
  split at h
  · cases h
  · rename_i e hk
    split at h
    · rename_i hawait
      obtain rfl := Option.some.inj h
      refine ⟨e, hk, hawait, ?_⟩
      cases arrived <;> rfl
    · cases h

/-- **Every magnet is accounted for.**  When a cascade has run to its end, the magnets it has added
    and not deleted, nor scheduled to be deleted, are exactly those of its success; when its future is
    dropped at an await, all magnets added before are deleted or scheduled to be; and no `expect` on
    a guard fails. -/
theorem magnets_accounted (a : Answers) (mt : ManagedTorrent) (cfg : RepairConfig)
    (live : List String) (hfresh : FreshIds mt.rdIds (executeCascade a mt cfg).events) :
    (∀ id ∈ (executeCascade a mt cfg).value.kept, id ∈ addedIds (executeCascade a mt cfg).events) ∧
    (∀ id ∈ addedIds (executeCascade a mt cfg).events,
      id ∈ deletedIds (executeCascade a mt cfg).events (cascadeWorld a mt cfg live) ↔
        id ∉ (executeCascade a mt cfg).value.kept) ∧
    (∀ k arrived w, droppedAt live (executeCascade a mt cfg).events k arrived = some w →
      ∀ id ∈ addedIds ((executeCascade a mt cfg).events.take k),
        id ∈ deletedIds ((executeCascade a mt cfg).events.take k) w) ∧
    ∀ (k : Nat) (e : Ev), (executeCascade a mt cfg).events[k]? = some e →
      e.Expected (replay World.step (World.start live)
        ((executeCascade a mt cfg).events.take k)).guard := by
  obtain ⟨s, hrun, hend⟩ := executeCascade_scoped a mt cfg
  have hall : Accounted mt.rdIds (executeCascade a mt cfg).events (cascadeWorld a mt cfg live) s :=
    accounted_run live _ s hrun hfresh
  -- the accounts wherever the cascade comes to an event
  have hat : ∀ (k : Nat) (e : Ev), (executeCascade a mt cfg).events[k]? = some e → ∃ u v,
      u.next mt.rdIds e = some v ∧ Accounted mt.rdIds ((executeCascade a mt cfg).events.take k)
        (replay World.step (World.start live) ((executeCascade a mt cfg).events.take k)) u := by
    intro k e hk
    obtain ⟨u, v, hu, hv⟩ := run_at hrun hk
    refine ⟨u, v, hv, accounted_run live _ u hu ?_⟩
    rw [← List.take_append_drop k (executeCascade a mt cfg).events] at hfresh
    exact hfresh.left
  have hkept := hend.kept_iff
  refine ⟨fun id hid => hall.magnet id ?_, fun id hid => ⟨fun hdel hid' => ?_, fun hnot => ?_⟩,
    fun k arrived w hw id hid => ?_, fun k e hk => ?_⟩
  · have howned := (hkept id).mp hid
    cases s with
    | outside | asked id' deleted => cases howned
    | added id' | held id' | kept id' | done id' => exact howned
  · exact hall.owned id ((hkept id).mp hid') hdel
  · exact (hall.cover id hid).resolve_right fun howned => hnot ((hkept id).mpr howned)
  · obtain ⟨e, hk, hawait, hspawned⟩ := droppedAt_spawned hw
    obtain ⟨u, v, hnext, hacc⟩ := hat k e hk
    rw [deletedIds, hspawned, ← List.append_assoc]
    refine List.mem_append.mpr ((hacc.cover id hid).imp_right fun howned => ?_)
    rcases owned_at_await hnext hawait with hnone | hguard
    · rw [hnone] at howned
      cases howned
    · rw [hacc.guard, ← hguard, howned]
      exact List.mem_singleton_self id
  · obtain ⟨u, v, hnext, hacc⟩ := hat k e hk
    rw [hacc.guard]
    exact expected_of_next hnext

/-- Strategy 1's magnet `N0` is never ready, the file's `N1` is: both are deleted in the end, and
    `N0` already when the future is dropped while `N1` is being added. -/
theorem magnets_accounted_readyOnSecondTry :
    (∀ id ∈ ["N0", "N1"], id ∈ deletedIds
      (executeCascade readyOnSecondTry loneTorrent ⟨false, 5⟩).events
      (cascadeWorld readyOnSecondTry loneTorrent ⟨false, 5⟩ ["A"])) ∧
    ∃ w, droppedAt ["A"] (executeCascade readyOnSecondTry loneTorrent ⟨false, 5⟩).events 10 true =
      some w ∧ "N0" ∈ deletedIds
        ((executeCascade readyOnSecondTry loneTorrent ⟨false, 5⟩).events.take 10) w := by
  have h := magnets_accounted readyOnSecondTry loneTorrent ⟨false, 5⟩ ["A"]
    ⟨by decide, by decide⟩
  refine ⟨fun id hid => ?_, ⟨["N1", "N0"], none, ["N0"]⟩, by decide, ?_⟩
  · have hadded : id ∈ addedIds (executeCascade readyOnSecondTry loneTorrent ⟨false, 5⟩).events := by
      have hids : addedIds (executeCascade readyOnSecondTry loneTorrent ⟨false, 5⟩).events =
        ["N0", "N1"] := by decide
      rw [hids]
      exact hid
    exact (h.2.1 id hadded).mpr (by
      have hvalue : (executeCascade readyOnSecondTry loneTorrent ⟨false, 5⟩).value.kept = [] := by
        decide
      rw [hvalue]
      exact List.not_mem_nil)
  · exact h.2.2.1 10 true _ (by decide) "N0" (by decide)

end RdRs.Repair
