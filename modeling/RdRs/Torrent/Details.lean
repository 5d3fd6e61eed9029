/-
  `torrent/mod.rs` (`ensure_torrent_info`), `torrent/refresh/mod.rs`, `torrent/state_ops.rs` — whose
  detail a record holds.

  `ensure_torrent_info` asks for the detail of the first id it reads and puts the answer into whatever
  record the key has by then.  The merge of a refresh and `replace_rd_ids_after_repair` drop the detail
  when the ids change, and every other writer stores ids and detail as its copy has them.

  1. **Any interleaving** — `Belongs`: the detail was fetched for one of the record's ids.  It is a
     property of one record, so whoever writes a copy keeps it (`op_details`); an injection keeps it if
     the record still lists the id (`injectsOwn`), and then every state of a life has it
     (`detail_belongs`).
  2. **One after the other** — `visit`: refreshes, loads and the other writers in sequence, with the
     record each detail was fetched for (`fetchedAt`).  The SET OF IDS at the fetch stays; status and
     progress stay exactly as long as no list has others for a record that keeps its detail
     (`detail_current_iff`).
-/
import RdRs.Torrent.Operations

set_option linter.unusedVariables false

namespace RdRs.Torrent

open RdRs.Rd RdRs.Repair RdRs.Programs RdRs.Runs

/-! ## Whose detail -/

/-- The same detail up to the links, which preflight assigns. -/
def SameDetail (i i' : TorrentInfo) : Prop := ∃ links, i' = { i with links := links }

/-- The detail of the record was fetched for one of its ids. -/
def Belongs (fetched : List (String × TorrentInfo)) (mt : ManagedTorrent) : Prop :=
  ∀ info, mt.info = some info → ∃ id ∈ mt.rdIds, ∃ i, (id, i) ∈ fetched ∧ SameDetail i info

theorem SameDetail.refl (i : TorrentInfo) : SameDetail i i := ⟨i.links, rfl⟩

theorem SameDetail.trans {i i' i'' : TorrentInfo} (h : SameDetail i i') (h' : SameDetail i' i'') :
    SameDetail i i'' := by
  obtain ⟨links, rfl⟩ := h
  obtain ⟨links', rfl⟩ := h'
  exact ⟨links', rfl⟩

/-- Preflight leaves the ids, and of the detail all but the links. -/
theorem preflightLeaves_detail {o : Outside} {mt m : ManagedTorrent}
    (h : preflightLeaves o mt = some m) :
    m.rdIds = mt.rdIds ∧ ∀ info', m.info = some info' → ∃ info, mt.info = some info ∧
      SameDetail info info' := by
  have hrun := preflightLeaves_some h
  have hne := PreflightOutcome.ne_defer hrun
  cases hinfo : mt.info with
  | none =>
    rw [runPreflight, hinfo] at hrun
    rcases hrun with hv | hv
    · cases hv
      exact ⟨rfl, fun info' h' => absurd (hinfo.symm.trans h') (Option.some_ne_none info').symm⟩
    · cases hv
  | some info =>
    obtain ⟨-, -, hv⟩ := runPreflight_value hinfo hne
    obtain ⟨links, hlinks⟩ := (assigned_onSelected o mt info).1
    have hsame : SameDetail info (assigned o mt info).info := ⟨links, hlinks⟩
    rw [hv] at hrun hne
    rcases shortcutStage_cases hne with ⟨hp, -⟩ | ⟨info', file, selI, hslot, -, hp⟩
    · rw [hp] at hrun
      rcases hrun with h' | h'
      · cases h'
        exact ⟨rfl, fun info' hi => ⟨info, rfl, Option.some.inj hi ▸ hsame⟩⟩
      · cases h'
    · rw [hp] at hrun
      rcases hrun with h' | h'
      · cases h'
      · cases h'
        obtain rfl := Option.some.inj (shortcutSlot_iff.mp hslot).1
        exact ⟨rfl, fun info' hi => ⟨info, rfl, Option.some.inj hi ▸ hsame⟩⟩

theorem Belongs.mono {fetched fetched' : List (String × TorrentInfo)} {mt : ManagedTorrent}
    (h : Belongs fetched mt) (hsub : fetched ⊆ fetched') : Belongs fetched' mt := by
  intro info hinfo
  obtain ⟨id, hid, i, hi, hsame⟩ := h info hinfo
  exact ⟨id, hid, i, hsub hi, hsame⟩

/-- Without detail there is nothing to fetch. -/
theorem belongs_of_none {fetched : List (String × TorrentInfo)} {mt : ManagedTorrent}
    (h : mt.info = none) : Belongs fetched mt := by
  intro info hinfo
  rw [h] at hinfo
  cases hinfo

theorem belongs_preflight {fetched : List (String × TorrentInfo)} {o : Outside}
    {mt m : ManagedTorrent} (h : Belongs fetched mt) (hm : preflightLeaves o mt = some m) :
    Belongs fetched m := by
  obtain ⟨hids, hdetail⟩ := preflightLeaves_detail hm
  intro info' hinfo'
  obtain ⟨info, hinfo, hsame⟩ := hdetail info' hinfo'
  obtain ⟨id, hid, i, hi, hi'⟩ := h info hinfo
  exact ⟨id, hids ▸ hid, i, hi, hi'.trans hsame⟩

/-- The merge's test: as many ids, and the same ones. -/
def KeepsIds (existing : ManagedTorrent) (ids : List String) : Prop :=
  existing.rdIds.length = ids.length ∧ ∀ id, id ∈ existing.rdIds ↔ id ∈ ids

/-- The merge keeps the detail when the ids pass its test, and drops it otherwise. -/
theorem mergeTorrent_info_iff {existing : ManagedTorrent} {t : Torrent} {ids : List String}
    {info : TorrentInfo} : (mergeTorrent existing t ids).info = some info ↔
      existing.info = some info ∧ KeepsIds existing ids := by
  have hinfo : (mergeTorrent existing t ids).info =
      if existing.rdIds.length != ids.length ||
        ids.any (fun id => !existing.rdIds.contains id) ||
        existing.rdIds.any (fun id => !ids.contains id) then none else existing.info := rfl
  have htest : (existing.rdIds.length != ids.length ||
      ids.any (fun id => !existing.rdIds.contains id) ||
      existing.rdIds.any (fun id => !ids.contains id)) = false ↔ KeepsIds existing ids := by
    rw [Bool.or_eq_false_iff, Bool.or_eq_false_iff, List.any_eq_false, List.any_eq_false, KeepsIds]
    simp only [bne_eq_false_iff_eq, Bool.not_eq_true', List.contains_iff_mem, Bool.not_eq_false]
    constructor
    · rintro ⟨⟨hlen, hin⟩, hout⟩
      exact ⟨hlen, fun id => ⟨hout id, hin id⟩⟩
    · rintro ⟨hlen, hids⟩
      exact ⟨⟨hlen, fun id => (hids id).mpr⟩, fun id => (hids id).mp⟩
  rw [hinfo, ← htest]
  split
  · rename_i hdrop
    refine iff_of_false (Option.some_ne_none info).symm ?_
    rintro ⟨-, hkeep⟩
    rw [hdrop] at hkeep
    cases hkeep
  · rename_i hkeep
    exact (and_iff_left (Bool.eq_false_iff.mpr hkeep)).symm

/-- A merge keeps the detail only if the ids are the same. -/
theorem mergeTorrent_info {existing : ManagedTorrent} {t : Torrent} {ids : List String}
    {info : TorrentInfo} (h : (mergeTorrent existing t ids).info = some info) :
    existing.info = some info ∧ ∀ id, id ∈ existing.rdIds ↔ id ∈ ids := by
  obtain ⟨hinfo, hkeeps⟩ := mergeTorrent_info_iff.mp h
  exact ⟨hinfo, hkeeps.2⟩

theorem belongs_merge {fetched : List (String × TorrentInfo)} {existing : ManagedTorrent}
    (h : Belongs fetched existing) (t : Torrent) (ids : List String) :
    Belongs fetched (mergeTorrent existing t ids) := by
  intro info hinfo
  obtain ⟨hold, hids⟩ := mergeTorrent_info hinfo
  obtain ⟨id, hid, i, hi, hsame⟩ := h info hold
  exact ⟨id, (hids id).mp hid, i, hi, hsame⟩

/-! ## The operations -/

/-- Records that are written belong if the copies that are read do; what is fetched is in `fetched`. -/
def details (fetched : List (String × TorrentInfo)) : Protocol Act Act.Res Unit where
  allows
    | _, .write _ _ _ mt => Belongs fetched mt
    | _, _ => True
  answers
    | _, .get _, r => ∀ mt, r = some mt → Belongs fetched mt
    | _, .inject _ _, r => ∀ mt, r = some mt → Belongs fetched mt
    | _, .torrentInfo id, r => ∀ info, r = some info → (id, info) ∈ fetched
    | _, _, _ => True
  next _ _ _ := ()

/-- A snapshot is that of preflight. -/
def Op.Plain : Op → Prop
  | .snapshot _ _ edit => edit = preflightEdit
  | _ => True

section Writers

variable {fetched : List (String × TorrentInfo)}

theorem details_trails : Trails (details fetched) fun _ => True := by
  intro s a _ ha
  cases a with
  | enqueue _ | await _ | hook _ | send _ _ => exact ⟨trivial, fun _ _ => trivial⟩
  | _ => exact ha.elim

/-- A look at a record is a look at one that belongs. -/
theorem details_get (key : String) : Takes (details fetched) () (.get key)
    (Looks (fun _ => True) fun mt _ => Belongs fetched mt) :=
  ⟨trivial, fun _ hr => looks_of hr⟩

theorem details_write {op : WriteOp} {key : String} {base : Option ManagedTorrent}
    {mt : ManagedTorrent} (h : Belongs fetched mt) :
    Takes (details fetched) () (.write op key base mt) fun _ _ => True :=
  ⟨h, fun _ _ => trivial⟩

/-- The copy `ensure_torrent_info` returns belongs, the detached one included. -/
theorem ensureTorrentInfo_details (key : String) :
    Follows (details fetched) () (ensureTorrentInfo key) fun r _ =>
      ∀ mt, r = some mt → Belongs fetched mt := by
  have hcopy : Follows (details fetched) () (ensureTorrentInfo key)
      (Looks (fun _ => True) fun mt _ => Belongs fetched mt) := by
    refine ensureTorrentInfo_fetched_rule
      (L := fun mt info _ => Belongs fetched { mt with info := some info }) (details_get key)
      (fun _ _ _ => trivial) ?_ ?_
    · intro mt s id hid hbelongs
      refine ⟨trivial, fun r hr => ?_⟩
      cases r with
      | none => exact hbelongs
      | some info =>
        intro info' hinfo'
        obtain rfl := Option.some.inj hinfo'
        exact ⟨id, List.mem_of_head? hid, info, hr info rfl, SameDetail.refl info⟩
    · intro mt s info hbelongs
      refine ⟨trivial, fun updated hupdated => ?_⟩
      cases updated with
      | none => exact hbelongs
      | some new => exact hupdated new rfl
  exact hcopy.mono fun r s hr mt hmt => hr.of_some hmt

theorem snapshotEdited_details (key : String) (loads : Bool) :
    Follows (details fetched) () (snapshotEdited key loads preflightEdit) anyEnd := by
  rw [snapshotEdited]
  have hcopy : Follows (details fetched) () (takeCopy key loads) fun r _ =>
      ∀ mt, r = some mt → Belongs fetched mt := by
    unfold takeCopy
    split
    · exact ensureTorrentInfo_details key
    · exact ⟨trivial, fun r hr => hr⟩
  refine follows_bind.mpr (hcopy.mono fun copy _ hbelongs => ?_)
  cases copy with
  | none => exact trivial
  | some mt =>
    dsimp only
    rw [Prog.call_bind, follows_act]
    refine ⟨trivial, fun outside _ => ?_⟩
    split
    · exact trivial
    · rename_i m hm
      exact follows_done (persistTorrentSnapshot_rule details_trails
        (details_write (belongs_preflight (hbelongs mt rfl) hm)))

/-- **Every operation** writes records that belong, if the copies it reads do. -/
theorem op_details {op : Op} (h : op.Plain) : Follows (details fetched) () op.prog anyEnd := by
  cases op with
  | updateState key state reason =>
    exact follows_done (updateTorrentState_rule details_trails (details_get key)
      (fun mt _ hmt => ⟨trivial, fun _ _ => hmt⟩) fun mt _ now hmt => details_write hmt)
  | markBroken key path =>
    exact follows_done (markFileBroken_rule details_trails (details_get key)
      fun mt _ hmt => details_write hmt)
  | snapshot key loads edit =>
    obtain rfl : edit = preflightEdit := h
    exact snapshotEdited_details key loads
  | replaceRdIds key rdIds =>
    exact follows_done (replaceRdIdsAfterRepair_rule details_trails (details_get key)
      fun mt _ hmt => details_write (belongs_of_none rfl))
  | ensureInfo key => exact follows_done (ensureTorrentInfo_details key)
  | refresh cfg =>
    have htakes : ∀ (a : Act), (details fetched).allows () a →
        Takes (details fetched) () a fun _ _ => True := fun a ha => ⟨ha, fun _ _ => trivial⟩
    refine follows_done (runOnce_rule (J := fun _ => True) (D := fun _ _ => True)
      (fun _ _ => htakes .listTorrents trivial) (fun _ _ => htakes .iter trivial)
      (fun _ _ => htakes .now trivial) (fun _ id _ => htakes (.deleteTorrent id) trivial)
      (fun _ _ => trivial) (fun a c _ _ => ⟨belongs_of_none rfl, fun _ _ => trivial⟩) ?_ ?_ ?_
      trivial cfg)
    · intro a c _ _
      rw [mergeOne, Prog.call_bind, follows_act]
      refine ⟨trivial, fun r hr => ?_⟩
      cases r with
      | none => exact trivial
      | some existing => exact ⟨belongs_merge (hr existing rfl) a.1 a.2, fun _ _ => trivial⟩
    · intro key c _ _
      rw [removeOne, Prog.call_bind, follows_act]
      refine ⟨trivial, fun r _ => ?_⟩
      split
      · exact trivial
      · exact ⟨trivial, fun _ _ => ⟨trivial, fun _ _ => trivial⟩⟩
    · intro c _ _
      rw [publish]
      split
      · refine follows_bind.mpr ((upsert_rule details_trails trivial c.rows).mono fun ok _ _ => ?_)
        cases ok with
        | false => exact trivial
        | true => exact ⟨trivial, fun _ _ => trivial⟩
      · exact ⟨trivial, fun _ _ => trivial⟩

end Writers

/-! ## Over a life -/

/-- What an injection finds: no record, or one that lists an id this detail was fetched for. -/
def injectsOwn (p : Lived) : Happening → Bool
  | .acts i _ =>
    match p.tasks[i]?.bind fun t => t.prog.head with
    | some (.inject key info) =>
      match p.shared.m.torrents.lookup key with
      | none => true
      | some mt => mt.rdIds.any fun id => decide ((id, info) ∈ p.shared.fetched)
    | _ => true
  | _ => true

/-- A snapshot that starts is that of preflight. -/
def Happening.Plain : Happening → Prop
  | .starts op => op.Plain
  | _ => True

/-- All records belong. -/
def AllBelong (w : Living) : Prop :=
  ∀ k mt, w.m.torrents.lookup k = some mt → Belongs w.fetched mt

/-- The operation will write records that belong, whatever else is fetched. -/
def WillBelong (w : Living) (t : OpTask) : Prop :=
  ∀ fetched, w.fetched ⊆ fetched → Follows (details fetched) () t.prog anyEnd

section Steps

variable {p : Lived} {i : Nat} {e : Env} {t : OpTask} {a : Act} {kont : a.Res → M Unit} {r : a.Res}
  {m' : Manager}

theorem injected_belongs {key : String} {info : TorrentInfo} {mt : ManagedTorrent}
    (hown : injectsOwn p (.acts i e) = true) (ht : p.tasks[i]? = some t)
    (hhead : t.prog.head = some (.inject key info))
    (hmt : p.shared.m.torrents.lookup key = some mt) :
    Belongs p.shared.fetched { mt with info := some info } := by
  have hfound : (mt.rdIds.any fun id => decide ((id, info) ∈ p.shared.fetched)) = true := by
    rw [injectsOwn, ht, Option.bind_some, hhead] at hown
    dsimp only at hown
    rw [hmt] at hown
    exact hown
  obtain ⟨id, hid, hin⟩ := List.any_eq_true.mp hfound
  intro info' hinfo'
  obtain rfl := Option.some.inj hinfo'
  exact ⟨id, hid, info, of_decide_eq_true hin, SameDetail.refl info⟩

/-- The answers an operation gets are what the protocol expects. -/
theorem details_answers (hI : AllBelong p.shared) (hown : injectsOwn p (.acts i e) = true)
    (h : OpActs p i t a kont r m') :
    (details (p.shared.fetched ++ newlyFetched a r)).answers () a r := by
  obtain ⟨e', hperf⟩ := h.effect
  have hsub : p.shared.fetched ⊆ p.shared.fetched ++ newlyFetched a r :=
    List.subset_append_left _ _
  cases a with
  | get key =>
    cases hperf
    exact fun mt hmt => (hI key mt hmt).mono hsub
  | inject key info =>
    rw [perform] at hperf
    split at hperf
    · cases hperf
      exact fun mt hmt => absurd hmt (Option.some_ne_none mt).symm
    · rename_i old hold
      cases hperf
      intro mt hmt
      obtain rfl := Option.some.inj hmt
      refine (injected_belongs hown h.task ?_ hold).mono hsub
      rw [h.prog]
      rfl
  | torrentInfo id =>
    intro info hinfo
    obtain rfl := hinfo
    exact List.mem_append_right _ (List.mem_singleton.mpr rfl)
  | _ => trivial

/-- **One action** leaves all records belonging. -/
theorem allBelong_acts (hI : AllBelong p.shared) (hJ : WillBelong p.shared t)
    (hown : injectsOwn p (.acts i e) = true) (h : OpActs p i t a kont r m') :
    AllBelong ⟨m', p.shared.fetched ++ newlyFetched a r⟩ := by
  obtain ⟨e', hperf⟩ := h.effect
  have hsub : p.shared.fetched ⊆ p.shared.fetched ++ newlyFetched a r :=
    List.subset_append_left _ _
  intro k mt hmt
  suffices h : Belongs p.shared.fetched mt from h.mono hsub
  rcases lookup_perform hperf k with hsame | ⟨op, base, new, rfl, hnew⟩ |
    ⟨info, old, rfl, hold, hnew⟩ | ⟨-, hnone⟩
  · rw [hsame] at hmt
    exact hI k mt hmt
  · obtain rfl := Option.some.inj (hnew.symm.trans hmt)
    exact ((hJ _ (List.Subset.refl _)).step h.prog).1
  · obtain rfl := Option.some.inj (hnew.symm.trans hmt)
    refine injected_belongs hown h.task ?_ hold
    rw [h.prog]
    rfl
  · rw [hnone] at hmt
    cases hmt

end Steps

theorem details_step (p : Lived) (ev : Happening) (q : Lived)
    (h : AllBelong p.shared ∧ ∀ t ∈ p.tasks, WillBelong p.shared t)
    (hC : injectsOwn p ev = true ∧ ev.Plain) (hstep : happen p ev = some q) :
    AllBelong q.shared ∧ ∀ t ∈ q.tasks, WillBelong q.shared t := by
  refine happen_inv (C := fun p ev => injectsOwn p ev = true ∧ ev.Plain) (I := AllBelong)
    (J := WillBelong) (fun w w' t ht hsub F hF => ht F (List.Subset.trans hsub hF))
    (fun p op hplain F _ => op_details hplain.2) ?_ ?_ ?_ p ev q h hC hstep
  · intro p i e t a kont r m' hown hI hJ hacts
    refine ⟨allBelong_acts hI hJ hown.1 hacts, fun F hF => ?_⟩
    obtain ⟨-, hnext⟩ := (hJ F (List.Subset.trans (List.subset_append_left _ _) hF)).step hacts.prog
    refine hnext r ?_
    have hans := details_answers hI hown.1 hacts
    cases a with
    | get key => exact fun mt hmt => (hans mt hmt).mono hF
    | inject key info => exact fun mt hmt => (hans mt hmt).mono hF
    | torrentInfo id => exact fun info hinfo => hF (hans info hinfo)
    | _ => trivial
  · intro w ok m' hI hrun k mt hmt
    obtain ⟨batch, rest, -, rfl⟩ := runJob_some hrun
    exact hI k mt hmt
  · intro w now hI k mt hmt
    -- the table has no detail
    have hloaded : (loadFromDb w.m.rows now).lookup k = some mt := hmt
    rw [loadFromDb_lookup] at hloaded
    obtain ⟨row, -, rfl⟩ := Option.map_eq_some_iff.mp hloaded
    exact belongs_of_none rfl

/-- **Detail belongs to its torrent**: in every life, from any table, whose injections each find a
    record that still lists an id the detail was fetched for (or no record), every detail in the map
    was fetched for one of the current ids of its record. -/
theorem detail_belongs (rows : Rows) (now : Int) (es : List Happening) (p : Lived)
    (hrun : run happen (booted rows now) es = some p) (hplain : ∀ ev ∈ es, ev.Plain)
    (hown : Along happen (fun p ev => injectsOwn p ev = true) (booted rows now) es) :
    ∀ k mt info, p.shared.m.torrents.lookup k = some mt → mt.info = some info →
      ∃ id ∈ mt.rdIds, ∃ i, (id, i) ∈ p.shared.fetched ∧ SameDetail i info := by
  have hinit : AllBelong (booted rows now).shared ∧
      ∀ t ∈ (booted rows now).tasks, WillBelong (booted rows now).shared t := by
    refine ⟨fun k mt hmt => ?_, fun t ht => absurd ht List.not_mem_nil⟩
    have hloaded : (loadFromDb rows now).lookup k = some mt := hmt
    rw [loadFromDb_lookup] at hloaded
    obtain ⟨row, -, rfl⟩ := Option.map_eq_some_iff.mp hloaded
    exact belongs_of_none rfl
  have hall := (run_inv details_step es _ p hinit
    (Along.and es _ hown (along_of_forall_mem es _ hplain)) hrun).1
  exact fun k mt info hmt hinfo => hall k mt hmt info hinfo

/-- The film in the table. -/
def filmRow : Rows := AList.singleton "HASH/Film" (torrentToRow soundFilm)

/-- Real-Debrid answers with the film's detail. -/
def detailComes : Env := { answering [] true with info := some oneFilmInfo }

/-- A detail is asked for, the ids are replaced, and the detail arrives. -/
def replacedMeanwhile : List Happening :=
  [.starts (.ensureInfo "HASH/Film"), .acts 0 detailComes, .acts 0 detailComes,
    .starts (.replaceRdIds "HASH/Film" ["RD2"]), .acts 1 detailComes, .acts 1 detailComes,
    .acts 0 detailComes]

/-- The record lists `RD2` only and holds the detail of `RD1`. -/
theorem detail_of_replaced_id :
    ∃ p mt, run happen (booted filmRow 0) replacedMeanwhile = some p ∧
      p.shared.m.torrents.lookup "HASH/Film" = some mt ∧ mt.rdIds = ["RD2"] ∧
      mt.info = some oneFilmInfo ∧ p.shared.fetched = [("RD1", oneFilmInfo)] ∧
      ¬∃ id ∈ mt.rdIds, ∃ i, (id, i) ∈ p.shared.fetched ∧ SameDetail i oneFilmInfo := by
  obtain ⟨p, hp⟩ := Option.isSome_iff_exists.mp
    (show (run happen (booted filmRow 0) replacedMeanwhile).isSome = true by decide)
  have hrecord : ((run happen (booted filmRow 0) replacedMeanwhile).bind fun p =>
      p.shared.m.torrents.lookup "HASH/Film").map (fun mt => (mt.rdIds, mt.info)) =
      some (["RD2"], some oneFilmInfo) := by decide
  have hfetched : (run happen (booted filmRow 0) replacedMeanwhile).map (fun p => p.shared.fetched) =
      some [("RD1", oneFilmInfo)] := by decide
  rw [hp] at hrecord hfetched
  obtain ⟨mt, hmt, hfields⟩ := Option.map_eq_some_iff.mp hrecord
  obtain ⟨hids, hinfo⟩ := Prod.mk.inj hfields
  have hfetched' : p.shared.fetched = [("RD1", oneFilmInfo)] := Option.some.inj hfetched
  refine ⟨p, mt, hp, hmt, hids, hinfo, hfetched', ?_⟩
  rintro ⟨id, hid, i, hin, -⟩
  rw [hids, List.mem_singleton] at hid
  rw [hfetched', List.mem_singleton] at hin
  subst hid
  have hone : "RD2" = "RD1" := congrArg Prod.fst hin
  exact absurd hone (by decide)

/-- A detail is loaded before anything else happens, and the film is then marked. -/
def loadedInPeace : List Happening :=
  [.starts (.ensureInfo "HASH/Film"), .acts 0 detailComes, .acts 0 detailComes, .acts 0 detailComes,
    .starts (.markBroken "HASH/Film" "/Film.mkv"), .acts 1 detailComes, .acts 1 detailComes]

theorem detail_belongs_loadedInPeace :
    ∃ p mt, run happen (booted filmRow 0) loadedInPeace = some p ∧
      p.shared.m.torrents.lookup "HASH/Film" = some mt ∧
      ∃ id ∈ mt.rdIds, ∃ i, (id, i) ∈ p.shared.fetched ∧ SameDetail i oneFilmInfo := by
  obtain ⟨p, hp⟩ := Option.isSome_iff_exists.mp
    (show (run happen (booted filmRow 0) loadedInPeace).isSome = true by decide)
  have hrecord : ((run happen (booted filmRow 0) loadedInPeace).bind fun p =>
      p.shared.m.torrents.lookup "HASH/Film").map ManagedTorrent.info = some (some oneFilmInfo) := by
    decide
  rw [hp] at hrecord
  obtain ⟨mt, hmt, hinfo⟩ := Option.map_eq_some_iff.mp hrecord
  refine ⟨p, mt, hp, hmt, detail_belongs filmRow 0 loadedInPeace p hp ?_
    (along_of_check (fun _ _ h => h) _ _ (by decide)) "HASH/Film" mt oneFilmInfo hmt hinfo⟩
  intro ev hev
  simp only [loadedInPeace, List.mem_cons, List.not_mem_nil, or_false] at hev
  rcases hev with rfl | rfl | rfl | rfl | rfl | rfl | rfl <;> trivial

/-! ## One after the other -/

/-- What happens to a registry when nothing interferes. -/
inductive Visit where
  | refresh (cfg : RefreshConfig) (env : Nat → Env)
  /-- `ensure_torrent_info` of a key -/
  | load (key : String) (env : Nat → Env)
  | update (key : String) (state : TorrentState) (reason : Option String) (env : Nat → Env)
  | mark (key path : String) (env : Nat → Env)
  | replace (key : String) (rdIds : List String) (env : Nat → Env)
  | restart (now : Int)

/-- The manager, and for each key the last detail that was fetched, with the record it was fetched
    for. -/
structure Visited where
  m : Manager
  fetchedAt : String → Option (ManagedTorrent × TorrentInfo)

/-- What a load fetches: the record before had no detail, the one after has. -/
def fetchOf (before after : Option ManagedTorrent) : Option (ManagedTorrent × TorrentInfo) :=
  match before, after with
  | some old, some new =>
    if old.info.isNone then new.info.map fun info => (old, info) else none
  | _, _ => none

/-- One visit. -/
def visit (s : Visited) : Visit → Visited
  | .refresh cfg env => { s with m := ((runOnce cfg).eval performAlone s.m env).2.1 }
  | .load key env =>
    let after := ((ensureTorrentInfo key).eval performAlone s.m env).2.1
    ⟨after, fun k => if k = key then
      (fetchOf (s.m.torrents.lookup k) (after.torrents.lookup k)).or (s.fetchedAt k)
      else s.fetchedAt k⟩
  | .update key state reason env =>
    { s with m := ((updateTorrentState key state reason).eval performAlone s.m env).2.1 }
  | .mark key path env => { s with m := ((markFileBroken key path).eval performAlone s.m env).2.1 }
  | .replace key rdIds env =>
    { s with m := ((replaceRdIdsAfterRepair key rdIds).eval performAlone s.m env).2.1 }
  | .restart now => { s with m := reboot s.m now }

/-- A history from a table. -/
def visits (rows : Rows) (now : Int) (vs : List Visit) : Visited :=
  vs.foldl visit ⟨reboot (atRest ∅ rows) now, fun _ => none⟩

/-- Two records of a key with the same ids, in whatever order. -/
def SameIds (old mt : ManagedTorrent) : Prop := ∀ id, id ∈ old.rdIds ↔ id ∈ mt.rdIds

/-- Two records of a key with the same status and progress in the account's list. -/
def SameListing (old mt : ManagedTorrent) : Prop :=
  old.torrent.status = mt.torrent.status ∧ old.torrent.progress = mt.torrent.progress

/-- What stays as long as ids and list entry stay, and adds up. -/
structure Steady (R : ManagedTorrent → ManagedTorrent → Prop) : Prop where
  kept : ∀ {old new}, new.rdIds = old.rdIds → new.torrent = old.torrent → R old new
  trans : ∀ {r old new}, R r old → R old new → R r new

theorem steady_sameIds : Steady SameIds where
  kept h _ id := by rw [h]
  trans h h' id := (h id).trans (h' id)

theorem steady_sameListing : Steady SameListing where
  kept _ h := by rw [SameListing, h]; exact ⟨rfl, rfl⟩
  trans h h' := ⟨h.1.trans h'.1, h.2.trans h'.2⟩

/-- The detail of a record was fetched for a record of the key that is like it. -/
def FetchedFor (R : ManagedTorrent → ManagedTorrent → Prop) (s : Visited) : Prop :=
  ∀ k mt info, s.m.torrents.lookup k = some mt → mt.info = some info →
    ∃ old, s.fetchedAt k = some (old, info) ∧ R old mt

/-- A record of `m'` that has a detail has it from one of `m` under the key that is like it. -/
def Inherits (R : ManagedTorrent → ManagedTorrent → Prop) (m m' : Manager) : Prop :=
  ∀ k mt info, m'.torrents.lookup k = some mt → mt.info = some info →
    ∃ old, m.torrents.lookup k = some old ∧ old.info = some info ∧ R old mt

section Steady

variable {R : ManagedTorrent → ManagedTorrent → Prop}

theorem FetchedFor.inherits (hR : Steady R) {s : Visited} {m' : Manager} (h : FetchedFor R s)
    (hm : Inherits R s.m m') : FetchedFor R { s with m := m' } := by
  intro k mt info hmt hinfo
  obtain ⟨old, hold, hinfo', hlike⟩ := hm k mt info hmt hinfo
  obtain ⟨r, hr, hlike'⟩ := h k old info hold hinfo'
  exact ⟨r, hr, hR.trans hlike' hlike⟩

/-- Putting a record that is like the old one and has its detail, or has none, under a key. -/
theorem inherits_insert (hR : Steady R) {m m' : Manager} {key : String} {new : ManagedTorrent}
    (hm : m'.torrents = m.torrents.insert key new)
    (hnew : ∀ info, new.info = some info → ∃ old, m.torrents.lookup key = some old ∧
      old.info = some info ∧ R old new) : Inherits R m m' := by
  intro k mt info hmt hinfo
  rw [hm] at hmt
  by_cases hk : k = key
  · subst hk
    rw [AList.lookup_insert] at hmt
    obtain rfl := Option.some.inj hmt
    exact hnew info hinfo
  · rw [AList.lookup_insert_ne hk] at hmt
    exact ⟨mt, hmt, hinfo, hR.kept rfl rfl⟩

theorem Inherits.of_eq (hR : Steady R) {m m' : Manager} (h : m'.torrents = m.torrents) :
    Inherits R m m' := by
  intro k mt info hmt hinfo
  rw [h] at hmt
  exact ⟨mt, hmt, hinfo, hR.kept rfl rfl⟩

theorem updateTorrentState_inherits (hR : Steady R) (key : String) (state : TorrentState)
    (reason : Option String) (m : Manager) (env : Nat → Env) :
    Inherits R m ((updateTorrentState key state reason).eval performAlone m env).2.1 := by
  obtain ⟨now, h⟩ := updateTorrentState_alone key state reason m env
  cases hold : m.torrents.lookup key with
  | none =>
    rw [hold] at h
    exact Inherits.of_eq hR h
  | some old =>
    rw [hold] at h
    exact inherits_insert hR h fun info hinfo => ⟨old, hold, hinfo, hR.kept rfl rfl⟩

theorem markFileBroken_inherits (hR : Steady R) (key path : String) (m : Manager) (env : Nat → Env) :
    Inherits R m ((markFileBroken key path).eval performAlone m env).2.1 := by
  have hget : performAlone m (.get key) (env 0) = (m.torrents.lookup key, m) := rfl
  rw [markFileBroken, Prog.call_bind, Prog.eval_act, hget]
  dsimp only
  cases hold : m.torrents.lookup key with
  | none => exact Inherits.of_eq hR rfl
  | some old =>
    dsimp only
    rw [Prog.call_bind, Prog.eval_act, upsert_alone]
    exact @inherits_insert R hR m _ key (withBroken old path) rfl
      fun info hinfo => ⟨old, hold, hinfo, hR.kept rfl rfl⟩

theorem replaceRdIdsAfterRepair_inherits (hR : Steady R) (key : String) (rdIds : List String) (m : Manager)
    (env : Nat → Env) :
    Inherits R m ((replaceRdIdsAfterRepair key rdIds).eval performAlone m env).2.1 := by
  have h := replaceRdIdsAfterRepair_alone key rdIds m env
  cases hold : m.torrents.lookup key with
  | none =>
    rw [hold] at h
    exact Inherits.of_eq hR h
  | some old =>
    rw [hold] at h
    -- the detail is dropped
    exact inherits_insert hR h fun info hinfo => absurd hinfo (Option.some_ne_none info).symm

/-- A pass that keeps a detail keeps it with its set of ids: the record is the old one, or the merge of
    a list entry into it. -/
theorem runOnce_inherits (hR : Steady R) (cfg : RefreshConfig) (m : Manager) (env : Nat → Env)
    (hmerge : ∀ freshAll k f old, (env 0).list = some freshAll →
      (freshMap (usable freshAll)).lookup k = some f → m.torrents.lookup k = some old →
      old.info.isSome → KeepsIds old (sortIds f.ids) →
      R old (mergeTorrent old f.torrent (sortIds f.ids))) :
    Inherits R m ((runOnce cfg).eval performAlone m env).2.1 := by
  cases hlist : (env 0).list with
  | none =>
    rw [runOnce_without_list hlist]
    exact Inherits.of_eq hR rfl
  | some freshAll =>
    obtain ⟨c, ok, hlookup, -⟩ := @runOnce_spec cfg m env freshAll hlist
    intro k mt info hmt hinfo
    rw [hlookup] at hmt
    cases hold : m.torrents.lookup k with
    | none =>
      rw [hold] at hmt
      cases hfresh : (freshMap (usable freshAll)).lookup k with
      | none =>
        rw [hfresh] at hmt
        cases hmt
      | some f =>
        rw [hfresh] at hmt
        obtain rfl := Option.some.inj hmt
        cases hinfo
    | some old =>
      rw [hold] at hmt
      have hsame : mt = old → ∃ old', some old = some old' ∧ old'.info = some info ∧ R old' mt := by
        rintro rfl
        exact ⟨mt, rfl, hinfo, hR.kept rfl rfl⟩
      cases hfresh : (freshMap (usable freshAll)).lookup k with
      | none =>
        rw [hfresh, refreshed] at hmt
        split at hmt
        · exact hsame (Option.some.inj hmt).symm
        · cases hmt
      | some f =>
        rw [hfresh, refreshed] at hmt
        split at hmt
        · obtain rfl := Option.some.inj hmt
          obtain ⟨hinfo', hids⟩ := mergeTorrent_info_iff.mp hinfo
          exact ⟨old, rfl, hinfo', hmerge freshAll k f old hlist hfresh hold
            (hinfo' ▸ rfl) hids⟩
        · exact hsame (Option.some.inj hmt).symm

/-- What a load does to the map: nothing, or it puts a detail where there was none. -/
theorem ensureTorrentInfo_torrents (key : String) (m : Manager) (env : Nat → Env) :
    ((ensureTorrentInfo key).eval performAlone m env).2.1.torrents = m.torrents ∨
    ∃ old info, m.torrents.lookup key = some old ∧ old.info = none ∧
      ((ensureTorrentInfo key).eval performAlone m env).2.1.torrents =
        m.torrents.insert key { old with info := some info } := by
  have hget : performAlone m (.get key) (env 0) = (m.torrents.lookup key, m) := rfl
  rw [ensureTorrentInfo, Prog.call_bind, Prog.eval_act, hget]
  dsimp only
  cases hold : m.torrents.lookup key with
  | none => exact Or.inl rfl
  | some old =>
    dsimp only
    split
    · exact Or.inl rfl
    · rename_i hnone
      have hinfo : old.info = none := by
        rw [Option.isSome_iff_ne_none] at hnone
        exact not_not.mp hnone
      cases hid : old.rdIds.head? with
      | none => exact Or.inl rfl
      | some id =>
        have hask : performAlone m (.torrentInfo id) (env 1) = ((env 1).info, m) := rfl
        dsimp only
        rw [Prog.call_bind, Prog.eval_act, hask]
        dsimp only
        cases (env 1).info with
        | none => exact Or.inl rfl
        | some info =>
          have hinject : performAlone m (.inject key info) (env 2) =
              (some { old with info := some info },
                { m with torrents := m.torrents.insert key { old with info := some info } }) := by
            show perform m (.inject key info) (env 2) = _
            rw [perform, hold]
          dsimp only
          rw [Prog.call_bind, Prog.eval_act, hinject]
          exact Or.inr ⟨old, info, rfl, hinfo, rfl⟩

theorem load_fetchedFor (hR : Steady R) {s : Visited} (h : FetchedFor R s) (key : String)
    (env : Nat → Env) : FetchedFor R (visit s (.load key env)) := by
  intro k mt info hmt hinfo
  have hmt' : ((ensureTorrentInfo key).eval performAlone s.m env).2.1.torrents.lookup k = some mt :=
    hmt
  have hat : (visit s (.load key env)).fetchedAt k = if k = key then
      (fetchOf (s.m.torrents.lookup k) (some mt)).or (s.fetchedAt k) else s.fetchedAt k := by
    rw [← hmt']
    rfl
  -- a record that had its detail before has it from the fetch before
  have hold : s.m.torrents.lookup k = some mt →
      (visit s (.load key env)).fetchedAt k = s.fetchedAt k := by
    intro hlook
    have hnone : fetchOf (some mt) (some mt) = none := by
      rw [fetchOf, hinfo]
      rfl
    rw [hat, hlook, hnone, Option.none_or, ite_self]
  rcases ensureTorrentInfo_torrents key s.m env with hsame | ⟨old, info', hlook, hnone, hnew⟩
  · rw [hsame] at hmt'
    rw [hold hmt']
    exact h k mt info hmt' hinfo
  · rw [hnew] at hmt'
    by_cases hk : k = key
    · subst hk
      rw [AList.lookup_insert] at hmt'
      obtain rfl := Option.some.inj hmt'
      obtain rfl := Option.some.inj hinfo
      refine ⟨old, ?_, hR.kept rfl rfl⟩
      rw [hat, if_pos rfl, hlook, fetchOf, hnone]
      rfl
    · rw [AList.lookup_insert_ne hk] at hmt'
      rw [hold hmt']
      exact h k mt info hmt' hinfo

theorem reboot_fetchedFor {s : Visited} {m : Manager} {now : Int} :
    FetchedFor R { s with m := reboot m now } := by
  intro k mt info hmt hinfo
  have hloaded : (loadFromDb m.rows now).lookup k = some mt := hmt
  rw [loadFromDb_lookup] at hloaded
  obtain ⟨row, -, rfl⟩ := Option.map_eq_some_iff.mp hloaded
  cases hinfo

/-- **One visit** keeps it, a refresh if its merges do. -/
theorem visit_fetchedFor (hR : Steady R) {s : Visited} (h : FetchedFor R s) (v : Visit)
    (hrefresh : ∀ cfg env, v = .refresh cfg env →
      Inherits R s.m ((runOnce cfg).eval performAlone s.m env).2.1) : FetchedFor R (visit s v) := by
  cases v with
  | refresh cfg env => exact h.inherits hR (hrefresh cfg env rfl)
  | load key env => exact load_fetchedFor hR h key env
  | update key state reason env =>
    exact h.inherits hR (updateTorrentState_inherits hR key state reason s.m env)
  | mark key path env => exact h.inherits hR (markFileBroken_inherits hR key path s.m env)
  | replace key rdIds env =>
    exact h.inherits hR (replaceRdIdsAfterRepair_inherits hR key rdIds s.m env)
  | restart now => exact reboot_fetchedFor

end Steady

theorem visits_append (rows : Rows) (now : Int) (vs : List Visit) (v : Visit) :
    visits rows now (vs ++ [v]) = visit (visits rows now vs) v := by
  rw [visits, List.foldl_append]
  rfl

/-- A merge that keeps the detail keeps the set of ids. -/
theorem runOnce_inherits_ids (cfg : RefreshConfig) (m : Manager) (env : Nat → Env) :
    Inherits SameIds m ((runOnce cfg).eval performAlone m env).2.1 :=
  runOnce_inherits steady_sameIds cfg m env fun _ _ _ _ _ _ _ _ hids => hids.2

theorem visits_sameIds (rows : Rows) (now : Int) (vs : List Visit) :
    FetchedFor SameIds (visits rows now vs) := by
  induction vs using List.reverseRecOn with
  | nil => exact reboot_fetchedFor (s := ⟨atRest ∅ rows, fun _ => none⟩)
  | append_singleton vs v ih =>
    rw [visits_append]
    refine visit_fetchedFor steady_sameIds ih v ?_
    rintro cfg env rfl
    exact runOnce_inherits_ids cfg _ env

/-! ## The list and the detail -/

/-- **The detail is current**: it was fetched when the list had the record's status and progress. -/
def DetailCurrent (s : Visited) : Prop := FetchedFor SameListing s

/-- The list has the status and the progress of every record that has a detail and keeps it. -/
def ListAgrees (m : Manager) (env : Nat → Env) : Prop :=
  ∀ freshAll k f mt, (env 0).list = some freshAll → (freshMap (usable freshAll)).lookup k = some f →
    m.torrents.lookup k = some mt → mt.info.isSome → KeepsIds mt f.ids →
    f.torrent.status = mt.torrent.status ∧ f.torrent.progress = mt.torrent.progress

theorem keepsIds_sortIds {mt : ManagedTorrent} {ids : List String} :
    KeepsIds mt (sortIds ids) ↔ KeepsIds mt ids := by
  have hperm : (sortIds ids).Perm ids := List.perm_insertionSort (· ≤ ·) ids
  rw [KeepsIds, KeepsIds, hperm.length_eq]
  simp only [hperm.mem_iff]

/-- What a refresh leaves of a listed key that was there. -/
theorem refresh_listed {s : Visited} {cfg : RefreshConfig} {env : Nat → Env} {freshAll : List Torrent}
    {k : String} {f : Fresh} {mt : ManagedTorrent} (hlist : (env 0).list = some freshAll)
    (hf : (freshMap (usable freshAll)).lookup k = some f) (hmt : s.m.torrents.lookup k = some mt) :
    (visit s (.refresh cfg env)).m.torrents.lookup k =
      if isChanged mt f then some (mergeTorrent mt f.torrent (sortIds f.ids)) else some mt := by
  obtain ⟨c, ok, hlookup, -⟩ := @runOnce_spec cfg s.m env freshAll hlist
  have hafter := hlookup k
  rw [hf, hmt] at hafter
  exact hafter

/-- **One refresh** keeps every detail current exactly when the list agrees. -/
theorem refresh_current_iff {s : Visited} (h : DetailCurrent s) (cfg : RefreshConfig)
    (env : Nat → Env) : DetailCurrent (visit s (.refresh cfg env)) ↔ ListAgrees s.m env := by
  constructor
  · intro hafter freshAll k f mt hlist hf hmt hsome hids
    obtain ⟨info, hinfo⟩ := Option.isSome_iff_exists.mp hsome
    obtain ⟨old, hold, hstatus, hprogress⟩ := h k mt info hmt hinfo
    have hlook := @refresh_listed s cfg env freshAll k f mt hlist hf hmt
    cases hchanged : isChanged mt f with
    | false =>
      rw [isChanged, Bool.or_eq_false_iff, Bool.or_eq_false_iff, bne_eq_false_iff_eq,
        bne_eq_false_iff_eq] at hchanged
      exact hchanged.1
    | true =>
      -- the merged record has the old detail and the new list entry
      rw [hchanged, if_pos rfl] at hlook
      obtain ⟨old', hold', hstatus', hprogress'⟩ := hafter k _ info hlook
        (mergeTorrent_info_iff.mpr ⟨hinfo, keepsIds_sortIds.mpr hids⟩)
      have hsame : s.fetchedAt k = some (old', info) := hold'
      rw [hold] at hsame
      obtain rfl := (Prod.mk.inj (Option.some.inj hsame)).1
      exact ⟨hstatus'.symm.trans hstatus, hprogress'.symm.trans hprogress⟩
  · intro hagree
    refine visit_fetchedFor steady_sameListing h (.refresh cfg env) ?_
    rintro cfg' env' hv
    obtain ⟨rfl, rfl⟩ := Visit.refresh.inj hv
    refine runOnce_inherits steady_sameListing cfg s.m env ?_
    intro freshAll k f old hlist hf hold hsome hids
    obtain ⟨hstatus, hprogress⟩ := hagree freshAll k f old hlist hf hold hsome
      (keepsIds_sortIds.mp hids)
    exact ⟨hstatus.symm, hprogress.symm⟩

/-- **When every detail is current.**  After every part of a history from any table the details were
    fetched when the list had the records' status and progress, exactly when each refresh on the way
    finds the list in agreement with the records that keep their detail.  And whatever the lists say:
    a detail was fetched for the set of ids that its record has; a listed key with other ids gets the
    list's ids and loses its detail, and one with the same ids keeps it. -/
theorem detail_current_iff (rows : Rows) (now : Int) (vs : List Visit) :
    ((∀ vs', vs' <+: vs → DetailCurrent (visits rows now vs')) ↔
      ∀ vs' cfg env, vs' ++ [.refresh cfg env] <+: vs → ListAgrees (visits rows now vs').m env) ∧
    (∀ k mt info, (visits rows now vs).m.torrents.lookup k = some mt → mt.info = some info →
      ∃ old, (visits rows now vs).fetchedAt k = some (old, info) ∧
        ∀ id, id ∈ old.rdIds ↔ id ∈ mt.rdIds) ∧
    ∀ cfg env freshAll k f mt, (env 0).list = some freshAll →
      (freshMap (usable freshAll)).lookup k = some f →
      (visits rows now vs).m.torrents.lookup k = some mt →
      ∃ mt', (visit (visits rows now vs) (.refresh cfg env)).m.torrents.lookup k = some mt' ∧
        (mt.rdIds.length ≠ f.ids.length ∨ (∃ id ∈ mt.rdIds, id ∉ f.ids) →
          mt'.rdIds = sortIds f.ids ∧ mt'.info = none) ∧
        (mt.rdIds.Perm f.ids → mt'.rdIds.Perm f.ids ∧ mt'.info = mt.info) := by
  refine ⟨⟨fun h vs' cfg env hpre => ?_, fun h vs' hpre => ?_⟩, visits_sameIds rows now vs, ?_⟩
  · have hbefore := h vs' ((List.prefix_append vs' _).trans hpre)
    rw [← refresh_current_iff hbefore cfg env, ← visits_append]
    exact h _ hpre
  · induction vs' using List.reverseRecOn with
    | nil => exact reboot_fetchedFor (s := ⟨atRest ∅ rows, fun _ => none⟩)
    | append_singleton vs' v ih =>
      have hbefore := ih ((List.prefix_append vs' _).trans hpre)
      rw [visits_append]
      cases v with
      | refresh cfg env => exact (refresh_current_iff hbefore cfg env).mpr (h vs' cfg env hpre)
      | _ => exact visit_fetchedFor steady_sameListing hbefore _ fun cfg env hv => by cases hv
  · intro cfg env freshAll k f mt hlist hf hmt
    have hperm : (sortIds f.ids).Perm f.ids := List.perm_insertionSort (· ≤ ·) f.ids
    rw [refresh_listed hlist hf hmt]
    cases hchanged : isChanged mt f with
    | false =>
      refine ⟨mt, rfl, fun hother => ?_, fun hids => ⟨hids, rfl⟩⟩
      -- an unchanged record passes the test of the ids
      simp only [isChanged, Bool.or_eq_false_iff, bne_eq_false_iff_eq, List.any_eq_false] at hchanged
      rcases hother with hlen | ⟨id, hid, hnot⟩
      · exact absurd hchanged.2.1 hlen
      · exact absurd (by simpa using hchanged.2.2 id hid) hnot
    | true =>
      refine ⟨_, rfl, fun hother => ⟨rfl, ?_⟩, fun hids => ⟨hperm, ?_⟩⟩
      · rw [Option.eq_none_iff_forall_ne_some]
        intro info hinfo
        obtain ⟨-, hlen, hsame⟩ := mergeTorrent_info_iff.mp hinfo
        rcases hother with hlen' | ⟨id, hid, hnot⟩
        · exact hlen' (hlen.trans hperm.length_eq)
        · exact hnot (hperm.mem_iff.mp ((hsame id).mp hid))
      · have hkeeps : KeepsIds mt (sortIds f.ids) :=
          keepsIds_sortIds.mpr ⟨hids.length_eq, fun id => hids.mem_iff⟩
        refine Option.ext fun info => ?_
        rw [mergeTorrent_info_iff]
        exact and_iff_left hkeeps

/-- The film while it is being downloaded. -/
def halfFilm : Torrent := { soundFilm.torrent with progress := 50, status := "downloading", links := [] }

/-- Its detail then: the file is selected and has no link. -/
def halfInfo : TorrentInfo := { oneFilmInfo with progress := 50, links := [] }

/-- A refresh finds the film half downloaded and its detail is looked at; the next one finds it
    complete. -/
def lookedAtTooEarly : List Visit :=
  [.refresh keepErrored fun _ => answering [halfFilm] true,
    .load "HASH/Film" fun _ => { answering [] true with info := some halfInfo },
    .refresh keepErrored fun _ => answering [soundFilm.torrent] true]

/-- The film is complete and still has the detail without links, which makes it a candidate for
    repair. -/
theorem complete_film_keeps_early_detail :
    ¬DetailCurrent (visits ∅ 0 lookedAtTooEarly) ∧
      ((visits ∅ 0 lookedAtTooEarly).m.torrents.lookup "HASH/Film").map (fun mt =>
        (mt.torrent.status, mt.torrent.progress, mt.info, periodicRepairEligible mt)) =
        some ("downloaded", 100, some halfInfo, true) := by
  have hrecord : ((visits ∅ 0 lookedAtTooEarly).m.torrents.lookup "HASH/Film").map (fun mt =>
      (mt.torrent.status, mt.torrent.progress, mt.info, periodicRepairEligible mt)) =
      some ("downloaded", 100, some halfInfo, true) := by decide
  have hfetched : ((visits ∅ 0 lookedAtTooEarly).fetchedAt "HASH/Film").map (fun f =>
      f.1.torrent.status) = some "downloading" := by decide
  refine ⟨fun h => ?_, hrecord⟩
  obtain ⟨mt, hmt, hfields⟩ := Option.map_eq_some_iff.mp hrecord
  simp only [Prod.mk.injEq] at hfields
  obtain ⟨old, hold, hstatus, -⟩ := h "HASH/Film" mt halfInfo hmt hfields.2.2.1
  rw [hold] at hfetched
  have hdown : old.torrent.status = "downloading" := Option.some.inj hfetched
  rw [hstatus, hfields.1] at hdown
  exact absurd hdown (by decide)

end RdRs.Torrent
