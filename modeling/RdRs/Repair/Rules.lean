/-
  Rules for `repair_one_torrent` and the methods it calls, over any protocol.

  What a repair has to keep to depends on what is to be shown of it, but its shape does not.  So each
  method has one rule: from what the protocol says of its actions, state by state, to what it says of
  the whole method.  `prepare_rule` and `repairPrepared_rule` put the rules of the methods together.

  A protocol's states are described by predicates: `K mt s`, in state `s` the repair holds the copy
  `mt`; `J s`, it holds none.
-/
import RdRs.Repair.RepairOne

set_option linter.unusedVariables false

namespace RdRs.Repair

open RdRs.Rd RdRs.Programs RdRs.Torrent

variable {σ : Type} {P : Protocol Act Act.Res σ} {key : String} {J : σ → Prop}
  {K : ManagedTorrent → σ → Prop}

/-- The action is allowed in the state, and each answer leads to `J`. -/
def Takes (P : Protocol Act Act.Res σ) (s : σ) (a : Act) (J : a.Res → σ → Prop) : Prop :=
  P.allows s a ∧ ∀ r, P.answers s a r → J r (P.next s a r)

/-- Where a look at the record of a key leads. -/
def Looks (J : σ → Prop) (K : ManagedTorrent → σ → Prop) : Option ManagedTorrent → σ → Prop
  | none, s => J s
  | some mt, s => K mt s

theorem looks_of {r : Option ManagedTorrent} {s : σ} (h : ∀ mt, r = some mt → K mt s) :
    Looks (fun _ => True) K r s := by
  cases r with
  | none => trivial
  | some mt => exact h mt rfl

theorem Looks.of_some {r : Option ManagedTorrent} {s : σ} (h : Looks J K r s) {mt : ManagedTorrent}
    (hmt : r = some mt) : K mt s := by
  subst hmt
  exact h

/-! ## The methods -/

/-- The actions after a write: the row goes to the database, the path to the hook and the state to the
    channel. -/
def AfterWrite : Act → Prop
  | .enqueue _ | .await _ | .hook _ | .send _ _ => True
  | _ => False

/-- These are allowed in `J` and lead back to it. -/
def Trails (P : Protocol Act Act.Res σ) (J : σ → Prop) : Prop :=
  ∀ s a, J s → AfterWrite a → Takes P s a fun _ => J

theorem upsert_rule (hJ : Trails P J) {s : σ} (hs : J s) (batch : List TorrentRow) :
    Follows P s (upsert batch) fun _ => J := by
  obtain ⟨henqueue, hnext⟩ := hJ s (.enqueue batch) hs trivial
  refine ⟨henqueue, fun ticket ht => ?_⟩
  exact hJ _ (.await ticket) (hnext ticket ht) trivial

/-- `update_torrent_state`: look, read the clock, write, then what follows a write. -/
theorem updateTorrentState_rule {state : TorrentState} {reason : Option String} (hJ : Trails P J)
    {s : σ} (hget : Takes P s (.get key) (Looks J K))
    (hnow : ∀ mt s, K mt s → Takes P s .now fun _ => K mt)
    (hwrite : ∀ mt s now, K mt s →
      Takes P s (.write .updateState key (some mt) (withState mt state reason now)) fun _ => J) :
    Follows P s (updateTorrentState key state reason) fun _ => J := by
  rw [updateTorrentState, Prog.call_bind, follows_act]
  refine ⟨hget.1, fun r hr => ?_⟩
  have hlook := hget.2 r hr
  cases r with
  | none => exact hlook
  | some mt =>
    obtain ⟨hclock, hK⟩ := hnow mt _ hlook
    refine ⟨hclock, fun now hnow' => ?_⟩
    obtain ⟨hw, hafter⟩ := hwrite mt _ now (hK now hnow')
    refine ⟨hw, fun u hu => ?_⟩
    show Follows P _ (upsert _ >>= fun ok => _) _
    refine follows_bind.mpr ((upsert_rule hJ (hafter u hu) _).mono fun ok s' hs' => ?_)
    cases ok with
    | false => exact hs'
    | true =>
      obtain ⟨hhook, hs1⟩ := hJ s' (.hook _) hs' trivial
      refine ⟨hhook, fun u hu => ?_⟩
      obtain ⟨hsend, hs2⟩ := hJ _ (.send key state) (hs1 u hu) trivial
      exact ⟨hsend, fun u hu => hs2 u hu⟩

/-- `mark_file_broken` -/
theorem markFileBroken_rule {path : String} (hJ : Trails P J) {s : σ}
    (hget : Takes P s (.get key) (Looks J K))
    (hwrite : ∀ mt s, K mt s →
      Takes P s (.write (.markBroken path) key (some mt) (withBroken mt path)) fun _ => J) :
    Follows P s (markFileBroken key path) fun _ => J := by
  rw [markFileBroken, Prog.call_bind, follows_act]
  refine ⟨hget.1, fun r hr => ?_⟩
  have hlook := hget.2 r hr
  cases r with
  | none => exact hlook
  | some mt =>
    obtain ⟨hw, hafter⟩ := hwrite mt _ hlook
    exact ⟨hw, fun u hu => upsert_rule hJ (hafter u hu) _⟩

/-- `persist_torrent_snapshot` -/
theorem persistTorrentSnapshot_rule {op : WriteOp} {base : Option ManagedTorrent} {mt : ManagedTorrent}
    (hJ : Trails P J) {s : σ} (hwrite : Takes P s (.write op mt.accessKey base mt) fun _ => J) :
    Follows P s (persistTorrentSnapshot op base mt) fun _ => J := by
  rw [persistTorrentSnapshot, Prog.call_bind, follows_act]
  exact ⟨hwrite.1, fun u hu => upsert_rule hJ (hwrite.2 u hu) _⟩

/-- `replace_rd_ids_after_repair` -/
theorem replaceRdIdsAfterRepair_rule {ids : List String} (hJ : Trails P J) {s : σ}
    (hget : Takes P s (.get key) (Looks J K))
    (hwrite : ∀ mt s, K mt s →
      Takes P s (.write .replaceRdIds mt.accessKey (some mt) (withRdIds mt ids)) fun _ => J) :
    Follows P s (replaceRdIdsAfterRepair key ids) fun _ => J := by
  rw [replaceRdIdsAfterRepair, Prog.call_bind, follows_act]
  refine ⟨hget.1, fun r hr => ?_⟩
  have hlook := hget.2 r hr
  cases r with
  | none => exact hlook
  | some mt => exact persistTorrentSnapshot_rule hJ (hwrite mt _ hlook)

/-- `ensure_torrent_info`: it asks for the detail of the record's first id, of which `L` is known
    then; the copy is the record as read, or as it is after the injection. -/
theorem ensureTorrentInfo_fetched_rule {L : ManagedTorrent → TorrentInfo → σ → Prop} {s : σ}
    (hget : Takes P s (.get key) (Looks J K)) (hdrop : ∀ mt s, K mt s → J s)
    (hinfo : ∀ mt s id, mt.rdIds.head? = some id → K mt s →
      Takes P s (.torrentInfo id) fun r s => match r with
        | none => K mt s
        | some info => L mt info s)
    (hinject : ∀ mt s info, L mt info s →
      Takes P s (.inject key info) (Looks (K { mt with info := some info }) K)) :
    Follows P s (ensureTorrentInfo key) (Looks J K) := by
  rw [ensureTorrentInfo, Prog.call_bind, follows_act]
  refine ⟨hget.1, fun r hr => ?_⟩
  have hlook := hget.2 r hr
  cases r with
  | none => exact hlook
  | some mt =>
    dsimp only
    split
    · exact hlook
    · split
      · exact hdrop mt _ hlook
      · rename_i id hid
        obtain ⟨hask, hgot⟩ := hinfo mt _ id hid hlook
        refine ⟨hask, fun info hinfo' => ?_⟩
        cases info with
        | none => exact hgot none hinfo'
        | some info =>
          obtain ⟨hinj, hafter⟩ := hinject mt _ info (hgot (some info) hinfo')
          refine ⟨hinj, fun r hr => ?_⟩
          have hupdated := hafter r hr
          cases r with
          | none => exact hupdated
          | some updated => exact hupdated

/-- The same where nothing is known of the detail. -/
theorem ensureTorrentInfo_rule {s : σ} (hget : Takes P s (.get key) (Looks J K))
    (hdrop : ∀ mt s, K mt s → J s)
    (hinfo : ∀ mt s id, K mt s → Takes P s (.torrentInfo id) fun _ => K mt)
    (hinject : ∀ mt s info, K mt s →
      Takes P s (.inject key info) (Looks (K { mt with info := some info }) K)) :
    Follows P s (ensureTorrentInfo key) (Looks J K) := by
  refine ensureTorrentInfo_fetched_rule (L := fun mt _ => K mt) hget hdrop ?_ hinject
  intro mt s id _ hK
  obtain ⟨hask, hgot⟩ := hinfo mt s id hK
  refine ⟨hask, fun r hr => ?_⟩
  cases r with
  | none => exact hgot none hr
  | some info => exact hgot (some info) hr

/-- The cascade: its answers, then its calls one by one. -/
theorem runCascade_rule {cfg : EngineConfig} {mt : ManagedTorrent}
    (hask : ∀ s, J s → Takes P s .cascade fun _ => J)
    (hcall : ∀ s ev, J s → Takes P s (.cascadeCall key ev) fun _ => J) {s : σ} (hs : J s) :
    Follows P s (runCascade cfg key mt) fun _ => J := by
  have hcalls : ∀ (es : List Ev) (s : σ), J s → Follows P s (cascadeCalls key es) fun _ => J :=
    fun es s hs => follows_fold (I := fun _ => J) es hs fun ev _ _ s hs => hcall s ev hs
  rw [runCascade, Prog.call_bind, follows_act]
  refine ⟨(hask s hs).1, fun got hgot => ?_⟩
  have hs' := (hask s hs).2 got hgot
  split
  · exact follows_bind.mpr ((hcalls _ _ hs').mono fun _ s hs => hs)
  · exact follows_bind.mpr ((hcalls _ _ hs').mono fun _ s hs => hs)

/-! ## The repair -/

/-- `repair_one_torrent` up to the copy of preflight: it starts in `A`, looks at the record (`K`),
    updates the state of one without a reason, is then in `B`, and looks again (`L`). -/
theorem prepare_rule {A B : σ → Prop} {L : ManagedTorrent → σ → Prop} {cfg : EngineConfig}
    (hnow : ∀ s, A s → Takes P s .now fun _ => A)
    (hfirst : ∀ s, A s → Follows P s (ensureTorrentInfo key) (Looks (fun _ => True) K))
    (hcapacity : ∀ mt s, K mt s → Takes P s .capacity fun _ => K mt)
    (hupdate : ∀ mt s state, K mt s → mt.unrepairableReason = none →
      Follows P s (updateTorrentState key state none) fun _ => B)
    (hsecond : ∀ s, B s → Follows P s (ensureTorrentInfo key) (Looks (fun _ => True) L))
    {s : σ} (hs : A s) : Follows P s (prepare cfg key) (Looks (fun _ => True) L) := by
  rw [prepare, Prog.call_bind, follows_act]
  refine ⟨(hnow s hs).1, fun now hnow' => ?_⟩
  refine follows_bind.mpr ((hfirst _ ((hnow s hs).2 now hnow')).mono fun x s hx => ?_)
  cases x with
  | none => exact trivial
  | some mt =>
    dsimp only
    split
    · exact trivial
    · rename_i hreason
      have hnone : mt.unrepairableReason = none := by
        rw [Option.isSome_iff_ne_none] at hreason
        exact not_not.mp hreason
      split
      · exact follows_bind.mpr ((hupdate mt s .broken hx hnone).mono fun _ _ _ => trivial)
      · rw [Prog.call_bind, follows_act]
        refine ⟨(hcapacity mt s hx).1, fun capacity hcap => ?_⟩
        have hx' := (hcapacity mt s hx).2 capacity hcap
        split
        · refine follows_bind.mpr ((hupdate mt _ .underRepair hx' hnone).mono fun ok s hB => ?_)
          split
          · exact hsecond s hB
          · exact trivial
        · exact trivial

/-- `repair_one_torrent` from preflight on: it asks for the answers (`Q`), writes its snapshot, is then
    in `D`, and stays there until the last update. -/
theorem repairPrepared_rule {D : σ → Prop} {Q : Outside → σ → Prop} {cfg : EngineConfig}
    {mt : ManagedTorrent} {s : σ} (hask : Takes P s .preflight Q)
    (hdefer : ∀ o s, Q o s → Follows P s (updateTorrentState key .broken none) anyEnd)
    (hsnapshot : ∀ o s m, Q o s →
      ((runPreflight o mt).value = .proceed m ∨ (runPreflight o mt).value = .verifiedOk m) →
      Follows P s (persistTorrentSnapshot .preflightSnapshot (some mt) m) fun _ => D)
    (hcascade : ∀ m s, D s → Follows P s (runCascade cfg key m) fun _ => D)
    (hreplace : ∀ ids s, D s → Follows P s (replaceRdIdsAfterRepair key ids) fun _ => D)
    (hupdate : ∀ state reason s, D s → Follows P s (updateTorrentState key state reason) anyEnd) :
    Follows P s (repairPrepared cfg key mt) anyEnd := by
  have hbroken : ∀ reason s, D s → Follows P s (finishBroken key reason) anyEnd := by
    intro reason s hD
    rw [finishBroken]
    exact follows_bind.mpr ((hupdate .broken reason s hD).mono fun _ _ _ => trivial)
  have hok : ∀ (x : RepairEnd) s, D s →
      Follows P s (updateTorrentState key .ok none >>= fun _ => pure x) anyEnd := fun x s hD =>
    follows_bind.mpr ((hupdate .ok none s hD).mono fun _ _ _ => trivial)
  rw [repairPrepared, Prog.call_bind, follows_act]
  refine ⟨hask.1, fun o ho => ?_⟩
  have hQ := hask.2 o ho
  cases hpre : (runPreflight o mt).value with
  | deferBandwidth =>
    show Follows P _ (finishBroken key none) anyEnd
    rw [finishBroken]
    exact follows_bind.mpr ((hdefer o _ hQ).mono fun _ _ _ => trivial)
  | verifiedOk m =>
    refine follows_bind.mpr ((hsnapshot o _ m hQ (Or.inr hpre)).mono fun _ s hD => ?_)
    exact hok .verifiedOk s hD
  | proceed m =>
    refine follows_bind.mpr ((hsnapshot o _ m hQ (Or.inl hpre)).mono fun _ s hD => ?_)
    refine follows_bind.mpr ((hcascade m s hD).mono fun outcome s hD => ?_)
    cases outcome with
    | none => exact hbroken none s hD
    | some outcome =>
      cases outcome with
      | success ids =>
        cases ids with
        | none => exact hok (.repaired none) s hD
        | some ids =>
          show Follows P s (replaceRdIdsAfterRepair key ids >>= fun _ => _) anyEnd
          refine follows_bind.mpr ((hreplace ids s hD).mono fun _ s hD => ?_)
          exact hok (.repaired (some ids)) s hD
      | unrepairable reason => exact hbroken _ s hD
      | unrepairableMsg msg => exact hbroken _ s hD
      | deferBandwidth => exact hbroken none s hD

/-- The two halves. -/
theorem repairOneTorrent_rule {L : ManagedTorrent → σ → Prop} {cfg : EngineConfig} {s : σ}
    (hprepare : Follows P s (prepare cfg key) (Looks (fun _ => True) L))
    (hrepair : ∀ mt s, L mt s → Follows P s (repairPrepared cfg key mt) anyEnd) :
    Follows P s (repairOneTorrent cfg key) anyEnd := by
  rw [repairOneTorrent]
  refine follows_bind.mpr (hprepare.mono fun x s hx => ?_)
  cases x with
  | none => exact trivial
  | some mt => exact hrepair mt s hx

end RdRs.Repair
