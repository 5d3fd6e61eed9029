/-
  `spawn_cleanup_task` of `fuse/fs.rs` beside the refresh and the directory operations — what becomes
  of the inodes of torrents that are gone.

  The refresh takes a key out of the registry and then sends it on a broadcast channel of 256; the
  cleanup task receives keys one by one and purges each from both maps.  `lookup` and `readdirplus`
  assign an inode while they hold the registry's entry, which a removal has to wait for; `readdir`
  looks and lets go, and assigns afterwards.

  Every key in the maps has to be `Known`: in the registry, or its notice is still to be handled.  Two
  steps can break this, and no later one repairs it, as the periodic sweep looks at
  `broken_read_warn_ts` alone (which is left out here, the maps do not depend on it):

  * a receive that lags, and so loses the notice of a key that has an inode;
  * a `readdir` that assigns after its key was removed and the notice handled.

  `maps_purged` — in a run without such steps (`Careful`), nothing that is gone is left in the maps
  whenever all notices are handled.  `lagged_leaves_stale` is a run that lags.
-/
import RdRs.Lib.Broadcast
import RdRs.Fuse.Inodes
import RdRs.Fuse.Walk

set_option linter.unusedVariables false

namespace RdRs.Fuse

open RdRs.Runs RdRs.Broadcast

/-! ## The parties -/

/-- The capacity of `torrent_removed_tx` -/
def removedCapacity : Nat := 256

/-- Where the cleanup task is. -/
inductive CleanupTask where
  | idle
  /-- it has received a key -/
  | received (key : String)
  /-- it has taken the key out of `key_to_inode`, which had this inode -/
  | taken (inode : Nat)
deriving DecidableEq

/-- The registry, the channel, the maps, and the parties. -/
structure Mount where
  /-- the keys of `torrents` -/
  registry : List String
  /-- removed keys whose notice is not sent yet -/
  unsent : List String
  chan : Chan String
  maps : Inodes
  task : CleanupTask
  /-- the entries of `torrents` that `lookup` or `readdirplus` hold -/
  guards : List String
  /-- the keys `readdir` has seen in `torrents` -/
  seen : List String

/-- A mount over a registry, before anything has happened. -/
def Mount.start (registry : List String) : Mount where
  registry := registry
  unsent := []
  chan := .empty
  maps := .empty
  task := .idle
  guards := []
  seen := []

inductive MountStep where
  /-- `torrents.insert` -/
  | add (key : String)
  /-- `torrents.remove` -/
  | remove (key : String)
  /-- `notify_torrent_removed` -/
  | notify (key : String)
  /-- `removed_rx.recv()` -/
  | recv
  /-- `key_to_inode.remove(&access_key)` -/
  | take
  /-- `inode_to_key.remove(&inode)` -/
  | drop
  /-- the periodic sweep -/
  | sweep
  /-- `lookup` or `readdirplus` gets the entry of its key from `torrents` and keeps it -/
  | hold (key : String)
  | release (key : String)
  /-- `readdir` sees that its key is in `torrents` -/
  | see (key : String)
  /-- the steps of `get_or_assign_torrent_inode` -/
  | enter (key : String)
  | fill (key : String)
  | finish (key : String)

/-- One step; `none` is a step that has to wait or is not due. -/
def mountStep (s : Mount) : MountStep → Option Mount
  | .add key => some { s with registry := s.registry.insert key }
  | .remove key =>
    if key ∈ s.guards then none
    else some { s with registry := s.registry.filter (· ≠ key), unsent := key :: s.unsent }
  | .notify key =>
    if key ∈ s.unsent then some { s with unsent := s.unsent.erase key, chan := s.chan.send key }
    else none
  | .recv =>
    match s.task with
    | .idle =>
      match s.chan.recv removedCapacity with
      | none => none
      | some (.msg key, chan) => some { s with chan := chan, task := .received key }
      | some (.lagged _, chan) => some { s with chan := chan }
    | _ => none
  | .take =>
    match s.task with
    | .received key =>
      (inodeStep s.maps (.take key)).map fun maps =>
        { s with maps := maps, task := match s.maps.keyToInode.lookup key with
          | some inode => .taken inode
          | none => .idle }
    | _ => none
  | .drop =>
    match s.task with
    | .taken inode => (inodeStep s.maps (.drop inode)).map fun maps =>
        { s with maps := maps, task := .idle }
    | _ => none
  | .sweep => if s.task = .idle then some s else none
  | .hold key => if key ∈ s.registry then some { s with guards := key :: s.guards } else none
  | .release key => if key ∈ s.guards then some { s with guards := s.guards.erase key } else none
  | .see key => if key ∈ s.registry then some { s with seen := key :: s.seen } else none
  | .enter key =>
    if key ∈ s.guards then (inodeStep s.maps (.enter key)).map fun maps => { s with maps := maps }
    else if key ∈ s.seen then
      (inodeStep s.maps (.enter key)).map fun maps => { s with maps := maps, seen := s.seen.erase key }
    else none
  | .fill key => (inodeStep s.maps (.fill key)).map fun maps => { s with maps := maps }
  | .finish key => (inodeStep s.maps (.finish key)).map fun maps => { s with maps := maps }

/-! ## What has to hold of keys in the maps -/

/-- The notice that a key was removed is still to be handled. -/
def Awaited (s : Mount) (key : String) : Prop :=
  key ∈ s.unsent ∨ key ∈ s.chan.pending ∨ s.task = .received key

/-- The key is in the registry, or will be purged. -/
def Known (s : Mount) (key : String) : Prop := key ∈ s.registry ∨ Awaited s key

/-- The key has an inode, or a call is about to give it one. -/
def HasInode (s : Mount) (key : String) : Prop := key ∈ s.maps.keyToInode ∨ key ∈ s.maps.calls

/-- **The steps that are careful**: the cleanup task loses no notice that matters, and an inode is
    assigned to a key that is known.  A lost notice does not matter when its key has no inode, is back
    in the registry, or was removed once more. -/
def Careful (s : Mount) : MountStep → Prop
  | .recv => ∀ key ∈ s.chan.lost removedCapacity, HasInode s key →
      key ∈ s.registry ∨ key ∈ s.unsent ∨ key ∈ s.chan.kept removedCapacity
  | .enter key => Known s key
  | _ => True

/-- Every notice is handled. -/
def AllHandled (s : Mount) : Prop := s.unsent = [] ∧ s.chan.pending = [] ∧ s.task = .idle

/-- No key that is absent from the registry is in either map. -/
def Purged (s : Mount) : Prop :=
  ∀ key, key ∉ s.registry →
    s.maps.keyToInode.lookup key = none ∧ ∀ inode, s.maps.inodeToKey.lookup inode ≠ some key

/-- The inode the task is about to take out of `inode_to_key`. -/
def CleanupTask.halfDone : CleanupTask → List Nat
  | .taken inode => [inode]
  | _ => []

/-- What holds in every state of a careful run. -/
structure Tracked (s : Mount) : Prop where
  maps : s.maps.Inv
  chan : s.chan.Wf
  half : s.maps.halfDone = s.task.halfDone
  /-- an entry that is held is in the registry -/
  guarded : ∀ key ∈ s.guards, key ∈ s.registry
  keyed : ∀ key inode, s.maps.keyToInode.lookup key = some inode → Known s key
  called : ∀ key ∈ s.maps.calls, Known s key

theorem start_tracked (registry : List String) : Tracked (Mount.start registry) where
  maps := Inodes.empty_inv
  chan := Chan.empty_wf
  half := rfl
  guarded key h := absurd h List.not_mem_nil
  keyed key inode h := absurd h (by simp [Mount.start, Inodes.empty])
  called key h := absurd h (by simp [Mount.start, Inodes.empty])

/-- With all notices handled, a known key is in the registry. -/
theorem Known.of_allHandled {s : Mount} {key : String} (h : Known s key) (hdone : AllHandled s) :
    key ∈ s.registry := by
  obtain ⟨hunsent, hpending, hidle⟩ := hdone
  rcases h with hreg | hun | hpend | htask
  · exact hreg
  · rw [hunsent] at hun
    exact absurd hun List.not_mem_nil
  · rw [hpending] at hpend
    exact absurd hpend List.not_mem_nil
  · rw [hidle] at htask
    exact absurd htask (by simp)

/-- **What tracking is for.** -/
theorem Tracked.purged {s : Mount} (h : Tracked s) (hdone : AllHandled s) : Purged s := by
  intro key habsent
  have hnone : s.maps.keyToInode.lookup key = none := by
    cases hkey : s.maps.keyToInode.lookup key with
    | none => rfl
    | some inode => exact absurd ((h.keyed key inode hkey).of_allHandled hdone) habsent
  refine ⟨hnone, fun inode hname => ?_⟩
  rcases (h.maps.named inode key hname).2 with hkey | hcall | hhalf
  · rw [hnone] at hkey
    exact Option.some_ne_none _ hkey.symm
  · have hmem : key ∈ s.maps.calls := AList.lookup_isSome.mp (by rw [hcall]; rfl)
    exact habsent ((h.called key hmem).of_allHandled hdone)
  · rw [h.half, hdone.2.2] at hhalf
    exact absurd hhalf List.not_mem_nil

/-! ## Steps -/

variable {s s' : Mount} {key : String}

theorem hasInode_of_lookup {inode : Nat} (h : s.maps.keyToInode.lookup key = some inode) :
    HasInode s key := Or.inl (AList.lookup_isSome.mp (by rw [h]; rfl))

/-- **Steps that leave the maps**, the removal under way and what the guards need, and lose no known key
    that has an inode. -/
theorem Tracked.frame (h : Tracked s) (hmaps : s'.maps = s.maps)
    (hhalf : s'.task.halfDone = s.task.halfDone) (hchan : s'.chan.Wf)
    (hguards : ∀ key ∈ s'.guards, key ∈ s'.registry)
    (hknown : ∀ key, HasInode s key → Known s key → Known s' key) : Tracked s' where
  maps := hmaps ▸ h.maps
  chan := hchan
  half := by rw [hmaps, hhalf, h.half]
  guarded := hguards
  keyed key inode hk := by
    rw [hmaps] at hk
    exact hknown key (hasInode_of_lookup hk) (h.keyed key inode hk)
  called key hk := by
    rw [hmaps] at hk
    exact hknown key (Or.inr hk) (h.called key hk)

/-- A key that leaves the registry waits for its notice to be sent. -/
theorem Tracked.remove (h : Tracked s) (hstep : mountStep s (.remove key) = some s') : Tracked s' := by
  rw [mountStep] at hstep
  split at hstep
  · exact absurd hstep.symm (Option.some_ne_none _)
  · rename_i hkey
    obtain rfl := Option.some.inj hstep
    refine h.frame rfl rfl h.chan (fun k hk => ?_) fun k _ hk => ?_
    · have hne : k ≠ key := by
        rintro rfl
        exact hkey hk
      exact List.mem_filter.mpr ⟨h.guarded k hk, decide_eq_true hne⟩
    · rcases hk with hreg | hun | hrest
      · by_cases hne : k = key
        · exact Or.inr (Or.inl (hne ▸ List.mem_cons_self))
        · exact Or.inl (List.mem_filter.mpr ⟨hreg, decide_eq_true hne⟩)
      · exact Or.inr (Or.inl (List.mem_cons_of_mem _ hun))
      · exact Or.inr (Or.inr hrest)

/-- A notice that is sent is pending. -/
theorem Tracked.notify (h : Tracked s) (hstep : mountStep s (.notify key) = some s') : Tracked s' := by
  rw [mountStep] at hstep
  split at hstep
  · obtain rfl := Option.some.inj hstep
    refine h.frame rfl rfl (Chan.send_wf h.chan key) h.guarded fun k _ hk => ?_
    have hpending := Chan.pending_send h.chan key
    rcases hk with hreg | hun | hpend | htask
    · exact Or.inl hreg
    · by_cases hne : k = key
      · refine Or.inr (Or.inr (Or.inl ?_))
        rw [hpending, hne]
        exact List.mem_append_right _ (List.mem_singleton.mpr rfl)
      · exact Or.inr (Or.inl ((List.mem_erase_of_ne hne).mpr hun))
    · refine Or.inr (Or.inr (Or.inl ?_))
      rw [hpending]
      exact List.mem_append_left _ hpend
    · exact Or.inr (Or.inr (Or.inr htask))
  · exact absurd hstep.symm (Option.some_ne_none _)

/-- A receive hands the first pending key to the task, or loses notices that do not matter. -/
theorem Tracked.recv (h : Tracked s) (hcareful : Careful s .recv)
    (hstep : mountStep s .recv = some s') : Tracked s' := by
  rw [mountStep] at hstep
  split at hstep
  · rename_i hidle
    split at hstep
    · exact absurd hstep.symm (Option.some_ne_none _)
    · rename_i k chan hrecv
      obtain rfl := Option.some.inj hstep
      obtain ⟨hpending, hwf⟩ := Chan.recv_msg hrecv
      refine h.frame rfl (by rw [hidle]; rfl) hwf h.guarded ?_
      rintro k' - (hreg | hun | hpend | htask)
      · exact Or.inl hreg
      · exact Or.inr (Or.inl hun)
      · rw [hpending] at hpend
        rcases List.mem_cons.mp hpend with rfl | hpend
        · exact Or.inr (Or.inr (Or.inr rfl))
        · exact Or.inr (Or.inr (Or.inl hpend))
      · rw [hidle] at htask
        exact absurd htask (by simp)
    · rename_i missed chan hrecv
      obtain rfl := Option.some.inj hstep
      obtain ⟨hkept, hwf⟩ := Chan.recv_lagged hrecv
      refine h.frame rfl rfl hwf h.guarded ?_
      rintro k' hhas (hreg | hun | hpend | htask)
      · exact Or.inl hreg
      · exact Or.inr (Or.inl hun)
      · rw [Chan.pending_eq_lost_append removedCapacity] at hpend
        rcases List.mem_append.mp hpend with hlost | hleft
        · rcases hcareful k' hlost hhas with hreg | hun | hleft
          · exact Or.inl hreg
          · exact Or.inr (Or.inl hun)
          · exact Or.inr (Or.inr (Or.inl (hkept ▸ hleft)))
        · exact Or.inr (Or.inr (Or.inl (hkept ▸ hleft)))
      · exact Or.inr (Or.inr (Or.inr htask))
  · exact absurd hstep.symm (Option.some_ne_none _)

/-- The key that is handled leaves `key_to_inode`; no call holds its entry. -/
theorem Tracked.take (h : Tracked s) (hstep : mountStep s .take = some s') : Tracked s' := by
  rw [mountStep] at hstep
  split at hstep
  · rename_i k htask
    obtain ⟨maps, hmaps, rfl⟩ := Option.map_eq_some_iff.mp hstep
    obtain ⟨hfree, hcase⟩ := take_cases hmaps
    -- every other key is known as before
    have hknown : ∀ k' t, k' ≠ k → Known s k' → Known { s with maps := maps, task := t } k' := by
      rintro k' t hne (hreg | hun | hpend | ht)
      · exact Or.inl hreg
      · exact Or.inr (Or.inl hun)
      · exact Or.inr (Or.inr (Or.inl hpend))
      · rw [htask] at ht
        exact absurd (CleanupTask.received.inj ht).symm hne
    have hcalled : ∀ t, ∀ k' ∈ s.maps.calls, Known { s with maps := maps, task := t } k' := by
      intro t k' hk'
      have hne : k' ≠ k := by
        rintro rfl
        exact hfree hk'
      exact hknown k' t hne (h.called k' hk')
    have hhalf : s.maps.halfDone = [] := by rw [h.half, htask]; rfl
    have hinv := Inodes.step_inv (.take k) h.maps hmaps
    rcases hcase with ⟨inode, hinode, rfl⟩ | ⟨hnone, rfl⟩
    · exact {
        maps := hinv
        chan := h.chan
        half := by
          show inode :: s.maps.halfDone = _
          rw [hhalf, hinode]
          rfl
        guarded := h.guarded
        keyed := by
          intro k' i hk'
          have hne : k' ≠ k := by
            rintro rfl
            rw [show (s.maps.take k' inode).keyToInode.lookup k' = none from
              AList.lookup_erase _ _] at hk'
            exact Option.some_ne_none _ hk'.symm
          refine hknown k' _ hne (h.keyed k' i ?_)
          rw [← hk']
          exact (AList.lookup_erase_ne hne).symm
        called := hcalled _ }
    · exact {
        maps := hinv
        chan := h.chan
        half := by rw [hhalf, hnone]; rfl
        guarded := h.guarded
        keyed := by
          intro k' i hk'
          have hne : k' ≠ k := by
            rintro rfl
            rw [hnone] at hk'
            exact Option.some_ne_none _ hk'.symm
          exact hknown k' _ hne (h.keyed k' i hk')
        called := hcalled _ }
  · exact absurd hstep.symm (Option.some_ne_none _)

theorem Tracked.drop (h : Tracked s) (hstep : mountStep s .drop = some s') : Tracked s' := by
  rw [mountStep] at hstep
  split at hstep
  · rename_i inode htask
    obtain ⟨maps, hmaps, rfl⟩ := Option.map_eq_some_iff.mp hstep
    obtain ⟨hmem, rfl⟩ := drop_cases hmaps
    have hknown : ∀ k, Known s k →
        Known { s with maps := s.maps.dropInode inode, task := .idle } k := by
      rintro k (hreg | hun | hpend | ht)
      · exact Or.inl hreg
      · exact Or.inr (Or.inl hun)
      · exact Or.inr (Or.inr (Or.inl hpend))
      · rw [htask] at ht
        exact absurd ht (by simp)
    exact {
      maps := h.maps.dropInode hmem
      chan := h.chan
      half := by
        show s.maps.halfDone.erase inode = []
        rw [h.half, htask]
        exact List.erase_cons_head ..
      guarded := h.guarded
      keyed := fun k i hk => hknown k (h.keyed k i hk)
      called := fun k hk => hknown k (h.called k hk) }
  · exact absurd hstep.symm (Option.some_ne_none _)

/-- A step of a call: keys that get into the maps are known. -/
theorem Tracked.call (h : Tracked s) {maps : Inodes} {seen : List String} {e : InodeStep}
    (hmaps : inodeStep s.maps e = some maps) (hhalf : maps.halfDone = s.maps.halfDone)
    (hkeyed : ∀ k i, maps.keyToInode.lookup k = some i → Known s k)
    (hcalled : ∀ k ∈ maps.calls, Known s k) : Tracked { s with maps := maps, seen := seen } where
  maps := Inodes.step_inv e h.maps hmaps
  chan := h.chan
  half := hhalf.trans h.half
  guarded := h.guarded
  keyed := hkeyed
  called := hcalled

/-- A call begins, for a key that is known. -/
theorem Tracked.enter (h : Tracked s) (hknown : Known s key) {maps : Inodes} {seen : List String}
    (hmaps : inodeStep s.maps (.enter key) = some maps) :
    Tracked { s with maps := maps, seen := seen } := by
  obtain ⟨hfree, ⟨inode, hinode, rfl⟩ | ⟨hnone, rfl⟩⟩ := enter_cases hmaps
  · exact h.call hmaps rfl h.keyed h.called
  · refine h.call hmaps rfl h.keyed fun k hk => ?_
    rcases (AList.mem_insert _).mp hk with rfl | hk
    · exact hknown
    · exact h.called k hk

/-- A call goes on, or ends. -/
theorem Tracked.goOn (h : Tracked s) {maps : Inodes} {e : InodeStep}
    (he : e = .fill key ∨ e = .finish key) (hmaps : inodeStep s.maps e = some maps) :
    Tracked { s with maps := maps } := by
  have hcall : ∀ inode b, s.maps.calls.lookup key = some (inode, b) → Known s key := fun inode b hc =>
    h.called key (AList.lookup_isSome.mp (by rw [hc]; rfl))
  rcases he with rfl | rfl
  · obtain ⟨inode, hc, rfl⟩ := fill_cases hmaps
    refine @Tracked.call s h _ s.seen _ hmaps rfl h.keyed fun k hk => ?_
    rcases (AList.mem_insert _).mp hk with rfl | hk
    · exact hcall inode false hc
    · exact h.called k hk
  · obtain ⟨inode, hc, rfl⟩ := finish_cases hmaps
    refine @Tracked.call s h _ s.seen _ hmaps rfl (fun k i hk => ?_) fun k hk => ?_
    · by_cases hne : k = key
      · exact hne ▸ hcall inode true hc
      · refine h.keyed k i ?_
        rw [← hk]
        exact (AList.lookup_insert_ne hne).symm
    · exact h.called k (AList.mem_erase.mp hk).2

/-- **A careful step keeps track.** -/
theorem Tracked.step (h : Tracked s) (e : MountStep) (hcareful : Careful s e)
    (hstep : mountStep s e = some s') : Tracked s' := by
  cases e with
  | add key =>
    obtain rfl := Option.some.inj hstep
    have hsub : ∀ k ∈ s.registry, k ∈ s.registry.insert key := fun k hk =>
      List.mem_insert_iff.mpr (Or.inr hk)
    exact h.frame rfl rfl h.chan (fun k hk => hsub k (h.guarded k hk)) fun k _ hk =>
      hk.imp_left (hsub k)
  | remove key => exact h.remove hstep
  | notify key => exact h.notify hstep
  | recv => exact h.recv hcareful hstep
  | take => exact h.take hstep
  | drop => exact h.drop hstep
  | sweep =>
    rw [mountStep] at hstep
    split at hstep
    · obtain rfl := Option.some.inj hstep
      exact h
    · exact absurd hstep.symm (Option.some_ne_none _)
  | hold key =>
    rw [mountStep] at hstep
    split at hstep
    · rename_i hreg
      obtain rfl := Option.some.inj hstep
      refine h.frame rfl rfl h.chan (fun k hk => ?_) fun k _ hk => hk
      rcases List.mem_cons.mp hk with rfl | hk
      · exact hreg
      · exact h.guarded k hk
    · exact absurd hstep.symm (Option.some_ne_none _)
  | release key =>
    rw [mountStep] at hstep
    split at hstep
    · obtain rfl := Option.some.inj hstep
      exact h.frame rfl rfl h.chan (fun k hk => h.guarded k (List.mem_of_mem_erase hk)) fun k _ hk => hk
    · exact absurd hstep.symm (Option.some_ne_none _)
  | see key =>
    rw [mountStep] at hstep
    split at hstep
    · obtain rfl := Option.some.inj hstep
      exact h.frame rfl rfl h.chan h.guarded fun k _ hk => hk
    · exact absurd hstep.symm (Option.some_ne_none _)
  | enter key =>
    rw [mountStep] at hstep
    split at hstep
    · obtain ⟨maps, hmaps, rfl⟩ := Option.map_eq_some_iff.mp hstep
      exact h.enter hcareful hmaps
    · split at hstep
      · obtain ⟨maps, hmaps, rfl⟩ := Option.map_eq_some_iff.mp hstep
        exact h.enter hcareful hmaps
      · exact absurd hstep.symm (Option.some_ne_none _)
  | fill key =>
    obtain ⟨maps, hmaps, rfl⟩ := Option.map_eq_some_iff.mp hstep
    exact h.goOn (Or.inl rfl) hmaps
  | finish key =>
    obtain ⟨maps, hmaps, rfl⟩ := Option.map_eq_some_iff.mp hstep
    exact h.goOn (Or.inr rfl) hmaps

/-- **Inode maps are purged of removed torrents** in every run whose steps are careful: in each of its
    states in which all notices are handled, no key that is absent from the registry is in either
    map. -/
theorem maps_purged (registry : List String) (es : List MountStep)
    (hcareful : Along mountStep Careful (Mount.start registry) es) (s : Mount)
    (h : run mountStep (Mount.start registry) es = some s) (hdone : AllHandled s) : Purged s :=
  (run_inv (fun s e t hs hc ht => Tracked.step hs e hc ht) es _ s (start_tracked registry) hcareful
    h).purged hdone

/-- A call that holds its entry of the registry is careful: only `readdir` can be careless here. -/
theorem careful_of_guarded (h : Tracked s) (hkey : key ∈ s.guards) : Careful s (.enter key) :=
  Or.inl (h.guarded key hkey)

instance (s : Mount) (key : String) : Decidable (Known s key) :=
  inferInstanceAs (Decidable (_ ∨ _ ∨ _ ∨ _))

instance (s : Mount) : Decidable (AllHandled s) :=
  inferInstanceAs (Decidable (_ ∧ _ ∧ _))

instance (s : Mount) (key : String) : Decidable (HasInode s key) :=
  inferInstanceAs (Decidable (_ ∨ _))

instance (s : Mount) : (e : MountStep) → Decidable (Careful s e)
  | .recv => inferInstanceAs (Decidable (∀ key ∈ s.chan.lost removedCapacity, HasInode s key →
      key ∈ s.registry ∨ key ∈ s.unsent ∨ key ∈ s.chan.kept removedCapacity))
  | .enter key => inferInstanceAs (Decidable (Known s key))
  | .add _ | .remove _ | .notify _ | .take | .drop | .sweep | .hold _ | .release _ | .see _
  | .fill _ | .finish _ => .isTrue trivial

/-- A torrent that is looked up, removed and purged. -/
def purgedRun : List MountStep :=
  [.hold "a", .enter "a", .fill "a", .finish "a", .release "a", .remove "a", .notify "a", .recv, .take,
    .drop, .sweep]

theorem maps_purged_one : ∃ s, run mountStep (Mount.start ["a", "b"]) purgedRun = some s ∧
    AllHandled s ∧ Purged s := by
  obtain ⟨s, hs⟩ := Option.isSome_iff_exists.mp
    (show (run mountStep (Mount.start ["a", "b"]) purgedRun).isSome = true by decide)
  have hdone : AllHandled s := by
    have hall : (run mountStep (Mount.start ["a", "b"]) purgedRun).any
        (fun s => decide (AllHandled s)) = true := by decide
    rw [hs] at hall
    exact of_decide_eq_true hall
  exact ⟨s, hs, hdone, maps_purged ["a", "b"] purgedRun (along_of_decide (by decide)) s hs hdone⟩

/-! ## A run that lags -/

/-- One refresh that removes the keys one after the other. -/
def removals (keys : List String) : List MountStep := keys.flatMap fun key => [.remove key, .notify key]

/-- Removals, when nothing holds an entry: the keys are pending, and not in the registry. -/
theorem run_removals : ∀ (keys : List String) (s : Mount), s.guards = [] → ∃ registry,
    run mountStep s (removals keys) =
      some { s with registry := registry, chan := ⟨s.chan.sent ++ keys, s.chan.next⟩ } ∧
    ∀ key, key ∈ registry → key ∈ s.registry ∧ key ∉ keys := by
  intro keys
  induction keys with
  | nil =>
    intro s hguards
    exact ⟨s.registry, by rw [List.append_nil]; rfl, fun key hkey => ⟨hkey, List.not_mem_nil⟩⟩
  | cons key keys ih =>
    intro s hguards
    obtain ⟨registry, hrun, hreg⟩ := ih { s with
      registry := s.registry.filter (· ≠ key)
      chan := s.chan.send key } hguards
    refine ⟨registry, ?_, fun k hk => ?_⟩
    · have hremove : mountStep s (.remove key) = some { s with
          registry := s.registry.filter (· ≠ key)
          unsent := key :: s.unsent } := by
        rw [mountStep, hguards, if_neg List.not_mem_nil]
      have hnotify : mountStep { s with
          registry := s.registry.filter (· ≠ key)
          unsent := key :: s.unsent } (.notify key) = some { s with
          registry := s.registry.filter (· ≠ key)
          chan := s.chan.send key } := by
        rw [mountStep]
        dsimp only
        rw [if_pos List.mem_cons_self, List.erase_cons_head]
      show run mountStep s (.remove key :: .notify key :: removals keys) = _
      rw [run_step _ hremove, run_step _ hnotify, hrun]
      dsimp only [Chan.send]
      rw [List.append_assoc, List.singleton_append]
    · obtain ⟨hmem, hnot⟩ := hreg k hk
      obtain ⟨hin, hne⟩ := List.mem_filter.mp hmem
      have hkey : k ≠ key := by simpa using hne
      exact ⟨hin, fun hcons => (List.mem_cons.mp hcons).elim hkey hnot⟩

/-- The task receives the keys that are left, and finds no inode of theirs. -/
theorem run_receipts : ∀ (rest : List String) (s : Mount), s.task = .idle → s.chan.pending = rest →
    rest.length ≤ removedCapacity → (∀ key ∈ rest, ¬ HasInode s key) →
    run mountStep s (rest.flatMap fun _ => [.recv, .take]) =
      some { s with chan := ⟨s.chan.sent, s.chan.next + rest.length⟩ } := by
  intro rest
  induction rest with
  | nil =>
    intro s _ _ _ _
    rfl
  | cons key rest ih =>
    intro s hidle hpending hlen hnone
    have hcap : s.chan.sent.length ≤ s.chan.next + removedCapacity := by
      have hlength := congrArg List.length hpending
      rw [Chan.pending, List.length_drop] at hlength
      omega
    have hnext : s.chan.sent[s.chan.next]? = some key := by
      rw [← List.head?_drop]
      exact congrArg List.head? hpending
    have hrecv : mountStep s .recv =
        some { s with chan := ⟨s.chan.sent, s.chan.next + 1⟩, task := .received key } := by
      rw [mountStep, hidle]
      dsimp only
      rw [show s.chan.recv removedCapacity = _ from Chan.recv_next hcap hnext]
    have htake : mountStep { s with chan := ⟨s.chan.sent, s.chan.next + 1⟩, task := .received key } .take
        = some { s with chan := ⟨s.chan.sent, s.chan.next + 1⟩ } := by
      obtain ⟨hkey, hcall⟩ := not_or.mp (hnone key List.mem_cons_self)
      rw [mountStep]
      dsimp only
      rw [inodeStep, if_neg hcall, AList.lookup_eq_none.mpr hkey]
      dsimp only
      rw [Option.map_some, hidle]
    have hleft : s.chan.sent.drop (s.chan.next + 1) = rest := by
      rw [← List.tail_drop]
      exact congrArg List.tail hpending
    have hrest := ih { s with chan := ⟨s.chan.sent, s.chan.next + 1⟩ } hidle hleft
      (Nat.le_of_succ_le hlen) fun k hk => hnone k (List.mem_cons_of_mem key hk)
    show run mountStep s (.recv :: .take :: rest.flatMap _) = _
    rw [run_step _ hrecv, run_step _ htake, hrest, List.length_cons, Nat.add_assoc, Nat.add_comm 1]

/-- The maps after one key got its inode. -/
def oneInode (key : String) : Inodes :=
  ((Inodes.empty.allocate key).fill key inodeTorrentBase).finish key inodeTorrentBase

theorem oneInode_lookup (key : String) : (oneInode key).keyToInode.lookup key = some inodeTorrentBase :=
  AList.lookup_insert _

theorem oneInode_other {s : Mount} {key k : String} (hmaps : s.maps = oneInode key) (hne : k ≠ key) :
    ¬ HasInode s k := by
  rw [HasInode, hmaps]
  rintro (hkey | hcall)
  · rcases (AList.mem_insert _).mp hkey with rfl | hkey
    · exact hne rfl
    · exact AList.notMem_empty k hkey
  · obtain ⟨-, hcall⟩ := AList.mem_erase.mp hcall
    rcases (AList.mem_insert _).mp hcall with rfl | hcall
    · exact hne rfl
    · rcases (AList.mem_insert _).mp hcall with rfl | hcall
      · exact hne rfl
      · exact AList.notMem_empty k hcall

/-- `lookup` of a key of the registry. -/
theorem run_lookup {s : Mount} {key : String} (hkey : key ∈ s.registry) (hguards : s.guards = [])
    (hmaps : s.maps = .empty) (es : List MountStep) :
    run mountStep s (.hold key :: .enter key :: .fill key :: .finish key :: .release key :: es) =
      run mountStep { s with maps := oneInode key } es := by
  have hhold : mountStep s (.hold key) = some { s with guards := [key] } := by
    rw [mountStep, if_pos hkey, hguards]
  have henter : mountStep { s with guards := [key] } (.enter key) =
      some { s with guards := [key], maps := Inodes.empty.allocate key } := by
    rw [mountStep]
    dsimp only
    rw [if_pos List.mem_cons_self, hmaps]
    rfl
  have hfill : mountStep { s with guards := [key], maps := Inodes.empty.allocate key } (.fill key) =
      some { s with guards := [key], maps := (Inodes.empty.allocate key).fill key inodeTorrentBase } := by
    rw [mountStep]
    dsimp only
    rw [inodeStep, show (Inodes.empty.allocate key).calls.lookup key =
      some (inodeTorrentBase, false) from AList.lookup_insert _]
    rfl
  have hfinish : mountStep { s with
      guards := [key]
      maps := (Inodes.empty.allocate key).fill key inodeTorrentBase } (.finish key) =
      some { s with guards := [key], maps := oneInode key } := by
    rw [mountStep]
    dsimp only
    rw [inodeStep, show ((Inodes.empty.allocate key).fill key inodeTorrentBase).calls.lookup key =
      some (inodeTorrentBase, true) from AList.lookup_insert _]
    rfl
  have hrelease : mountStep { s with guards := [key], maps := oneInode key } (.release key) =
      some { s with maps := oneInode key } := by
    rw [mountStep]
    dsimp only
    rw [if_pos List.mem_cons_self, List.erase_cons_head, hguards]
  rw [run_step _ hhold, run_step _ henter, run_step _ hfill, run_step _ hfinish, run_step _ hrelease]

/-- One key is looked up, a refresh removes it and the rest, and the cleanup task gets what is left. -/
def laggedRun (key : String) (rest : List String) : List MountStep :=
  MountStep.hold key :: .enter key :: .fill key :: .finish key :: .release key ::
    (removals (key :: rest) ++
      MountStep.recv :: (rest.flatMap (fun _ => [MountStep.recv, .take]) ++ [MountStep.sweep]))

/-- The mount after the refresh, when the cleanup task has come to the notice `next`. -/
def staleMount (key : String) (rest : List String) (next : Nat) : Mount :=
  { Mount.start [] with maps := oneInode key, chan := ⟨key :: rest, next⟩ }

/-- The receive that lags loses the first notice. -/
theorem recv_stale {key : String} {rest : List String} (hlen : rest.length = removedCapacity) :
    mountStep (staleMount key rest 0) .recv = some (staleMount key rest 1) := by
  have hbehind : (staleMount key rest 0).chan.next + removedCapacity <
      (staleMount key rest 0).chan.sent.length := by
    show 0 + removedCapacity < rest.length + 1
    omega
  rw [mountStep, show (staleMount key rest 0).task = .idle from rfl]
  dsimp only
  rw [Chan.recv_behind hbehind]
  show some { staleMount key rest 0 with chan := ⟨key :: rest, rest.length + 1 - removedCapacity⟩ } = _
  rw [hlen, Nat.add_sub_cancel_left]
  rfl

/-- When one more than the channel holds are removed, the first one keeps its inode. -/
theorem run_lagged {key : String} {rest : List String} (hkey : key ∉ rest)
    (hlen : rest.length = removedCapacity) :
    run mountStep (Mount.start (key :: rest)) (laggedRun key rest) =
      some (staleMount key rest (1 + rest.length)) := by
  obtain ⟨registry, hremovals, hregistry⟩ :=
    run_removals (key :: rest) { Mount.start (key :: rest) with maps := oneInode key } rfl
  have hempty : registry = [] := List.eq_nil_iff_forall_not_mem.mpr fun k hk =>
    (hregistry k hk).2 (hregistry k hk).1
  have hrefresh : run mountStep { Mount.start (key :: rest) with maps := oneInode key }
      (removals (key :: rest)) = some (staleMount key rest 0) := by
    rw [hremovals, hempty]
    rfl
  have hleft : run mountStep (staleMount key rest 1) (rest.flatMap fun _ => [.recv, .take]) =
      some (staleMount key rest (1 + rest.length)) := by
    have hother : ∀ k ∈ rest, ¬ HasInode (staleMount key rest 1) k := by
      intro k hk
      refine oneInode_other rfl ?_
      rintro rfl
      exact hkey hk
    exact run_receipts rest (staleMount key rest 1) rfl rfl (Nat.le_of_eq hlen) hother
  have hsweep : mountStep (staleMount key rest (1 + rest.length)) .sweep =
      some (staleMount key rest (1 + rest.length)) := by
    rw [mountStep]
    exact if_pos rfl
  rw [laggedRun, run_lookup (show key ∈ key :: rest from List.mem_cons_self) rfl rfl, run_append,
    hrefresh, Option.bind_some, run_step _ (recv_stale hlen), run_append, hleft, Option.bind_some,
    run_step _ hsweep, run_nil]

/-- Everything is received then. -/
theorem staleMount_allHandled (key : String) (rest : List String) :
    AllHandled (staleMount key rest (1 + rest.length)) := by
  refine ⟨rfl, ?_, rfl⟩
  show (key :: rest).drop (1 + rest.length) = []
  rw [Nat.add_comm]
  exact List.drop_length

theorem staleMount_not_purged (key : String) (rest : List String) (next : Nat) :
    ¬ Purged (staleMount key rest next) := by
  intro hpurged
  have hnone : (oneInode key).keyToInode.lookup key = none := (hpurged key List.not_mem_nil).1
  rw [oneInode_lookup] at hnone
  exact Option.some_ne_none _ hnone

/-- As many keys as the channel holds. -/
def otherKeys : List String := (List.range removedCapacity).map cloneKey

theorem otherKeys_length : otherKeys.length = removedCapacity := by
  rw [otherKeys, List.length_map, List.length_range]

theorem a_notMem_otherKeys : "a" ∉ otherKeys := by
  intro hmem
  obtain ⟨i, -, hi⟩ := List.mem_map.mp hmem
  have hhead : (cloneKey i).toList.head? = "a".toList.head? := by rw [hi]
  rw [cloneKey, String.toList_ofList, List.replicate_succ] at hhead
  exact absurd (show 'k' = 'a' from Option.some.inj hhead) (by decide)

/-- **What a lag loses is not found again**: everything is received, the sweep has run, and a key that
    is gone still has its inode. -/
theorem lagged_leaves_stale :
    ∃ s, run mountStep (Mount.start ("a" :: otherKeys)) (laggedRun "a" otherKeys) = some s ∧
      AllHandled s ∧ ¬ Purged s :=
  ⟨_, run_lagged a_notMem_otherKeys otherKeys_length, staleMount_allHandled "a" otherKeys,
    staleMount_not_purged "a" otherKeys _⟩

end RdRs.Fuse
