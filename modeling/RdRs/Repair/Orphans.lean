/-
  Which slots `assign_orphan_links` writes.

  `placements` lists what the loop assigns, in order: the number of the orphan, the slot, and what
  spoke for it.  One turn of the loop assigns at most once (`chosen`, `placeOrphan_links`).

  * `Assigned` — the invariant of the loop, after any prefix of it: the links are the old ones with
    the placements written into them, each placement is `Justified` by the draft BEFORE the call, no
    slot is written twice, and no path is newly `broken`.
  * Crux (`Assigned.place`): a slot that was filled cannot be taken again, as it holds a link and
    its file is marked `ok`; so what speaks for a slot spoke for it before the call.

  The loop ends early on a bandwidth limit; what it has written by then stays, so the result is
  about the draft of both endings.
-/
import RdRs.Repair.FileMarks

set_option linter.unusedVariables false

namespace RdRs.Repair

open RdRs.Rd RdRs.Effects

/-! ## What the loop assigns -/

/-- An orphan link that went to a slot. -/
structure Placement where
  /-- the number of the orphan among the non-empty ones -/
  number : Nat
  slot : Nat
  link : String
  /-- the selected file of the slot -/
  file : File
  download : Download
deriving Repr, DecidableEq

/-- The placement of orphan number `k`, once its download is good. -/
def chosen (o : Outside) (d : Draft) (k : Nat) (link : String) (dl : Download) : Option Placement :=
  (d.info.selectedFiles.zipIdx.find? (takesOrphan o d dl)).map fun fi => ⟨k, fi.2, link, fi.1, dl⟩

/-- The placements of the loop, the first orphan being number `k`. -/
def placements (o : Outside) : Nat → List String → Draft → List Placement
  | _, [], _ => []
  | k, link :: rest, d =>
    match (tryLink o (.orphan k)).value with
    | .refused e => if e.isBandwidthLimited then [] else placements o (k + 1) rest d
    | .unverified text =>
      if verifyFailedLikeBandwidth text then [] else placements o (k + 1) rest d
    | .good dl =>
      (chosen o d k link dl).toList ++ placements o (k + 1) rest (placeOrphan o d link dl).value

/-- Write placements into the links. -/
def writeLinks (links : List String) (ps : List Placement) : List String :=
  ps.foldl (fun links p => setLink links p.slot p.link) links

theorem writeLinks_append (links : List String) (ps ps' : List Placement) :
    writeLinks links (ps ++ ps') = writeLinks (writeLinks links ps) ps' := List.foldl_append

/-- What speaks for a placement, in the draft `d` before the call. -/
structure Justified (o : Outside) (d : Draft) (p : Placement) : Prop where
  orphan : (loopOrphans d.info)[p.number]? = some p.link
  file : d.info.selectedFiles[p.slot]? = some p.file
  needed : isBroken d.states p.file.path = true ∨ hasLink d.info p.slot = false
  unrestricted : o.unrestrict (.orphan p.number) = .ok p.download
  verified : verifyError o (o.verify (.orphan p.number)) = none
  fits : downloadMatchesFile o p.file p.download = true

/-- An orphan of the loop is not empty. -/
theorem Justified.link_ne {o : Outside} {d : Draft} {p : Placement} (h : Justified o d p) :
    p.link ≠ "" := by
  have hmem := List.mem_of_getElem? h.orphan
  rw [loopOrphans, List.mem_filter] at hmem
  simpa using hmem.2

/-- A slot of a selected file lies before the orphans. -/
theorem slot_lt_links {info : TorrentInfo} {k i : Nat} {link : String} {file : File}
    (hk : (loopOrphans info)[k]? = some link) (hi : info.selectedFiles[i]? = some file) :
    i < info.links.length := by
  have hmem := List.mem_of_getElem? hk
  rw [loopOrphans, List.mem_filter, orphanRdLinks] at hmem
  have hlen := List.length_pos_of_mem hmem.1
  rw [List.length_drop] at hlen
  have hlt := (List.getElem?_eq_some_iff.mp hi).1
  omega

/-! ## One turn -/

/-- Inside the list, `ensure_link_slot` adds nothing. -/
theorem setLink_of_lt {links : List String} {i : Nat} (link : String) (h : i < links.length) :
    setLink links i link = links.set i link := by
  rw [setLink, show i + 1 - links.length = 0 by omega, List.replicate_zero, List.append_nil]

/-- The links after a turn are the links with its placement written. -/
theorem placeOrphan_links (o : Outside) (d : Draft) (k : Nat) (link : String) (dl : Download) :
    (placeOrphan o d link dl).value.info.links =
      writeLinks d.info.links (chosen o d k link dl).toList := by
  rw [placeOrphan, chosen]
  cases d.info.selectedFiles.zipIdx.find? (takesOrphan o d dl) with
  | none => rfl
  | some fi => rfl

/-- What a turn that places leaves broken was broken before, and is another file. -/
theorem placeOrphan_isBroken {o : Outside} {d : Draft} {k : Nat} {link : String} {dl : Download}
    {path : String} (h : isBroken (placeOrphan o d link dl).value.states path = true) :
    isBroken d.states path = true ∧ ∀ p ∈ chosen o d k link dl, path ≠ p.file.path := by
  rw [placeOrphan] at h
  rw [chosen]
  cases hfind : d.info.selectedFiles.zipIdx.find? (takesOrphan o d dl) with
  | none =>
    rw [hfind] at h
    exact ⟨h, fun p hp => absurd hp (by simp)⟩
  | some fi =>
    obtain ⟨file, i⟩ := fi
    rw [hfind] at h
    have hins : isBroken (d.states.insert file.path "ok") path = true := by
      simp only [bind_value] at h
      rw [applyLoneSelectedRarOkPolicy] at h
      split at h
      · exact h
      · split at h
        · exact h
        · exact ((setStates_ok_isBroken _ _).mp h).1
    have hne : path ≠ file.path := by
      rintro rfl
      rw [isBroken, AList.lookup_insert] at hins
      exact absurd hins (by decide)
    rw [isBroken, AList.lookup_insert_ne hne] at hins
    refine ⟨hins, fun p hp => ?_⟩
    obtain rfl := Option.some.inj (Option.mem_def.mp hp)
    exact hne

/-- What the inner loop has checked of the slot it takes. -/
theorem chosen_spec {o : Outside} {d : Draft} {k : Nat} {link : String} {dl : Download}
    {p : Placement} (h : chosen o d k link dl = some p) :
    p.number = k ∧ p.link = link ∧ p.download = dl ∧
      d.info.selectedFiles[p.slot]? = some p.file ∧
      (isBroken d.states p.file.path = true ∨ hasLink d.info p.slot = false) ∧
      downloadMatchesFile o p.file dl = true := by
  rw [chosen, Option.map_eq_some_iff] at h
  obtain ⟨⟨file, i⟩, hfind, rfl⟩ := h
  have htakes := List.find?_some hfind
  rw [takesOrphan, Bool.and_eq_true, Bool.or_eq_true, Bool.not_eq_true'] at htakes
  exact ⟨rfl, rfl, rfl, List.mk_mem_zipIdx_iff_getElem?.mp (List.mem_of_find?_eq_some hfind),
    htakes.1, htakes.2⟩

/-! ## The invariant of the loop -/

/-- After the placements `ps`, made by the orphans before number `k`, the draft is `d`; it was `d₀`
    before the call. -/
structure Assigned (o : Outside) (d₀ : Draft) (k : Nat) (ps : List Placement) (d : Draft) : Prop where
  onSelected : OnSelected d₀ d
  written : d.info.links = writeLinks d₀.info.links ps
  length : d.info.links.length = d₀.info.links.length
  justified : ∀ p ∈ ps, Justified o d₀ p
  before : ∀ p ∈ ps, p.number < k
  inOrder : (ps.map Placement.number).Pairwise (· < ·)
  slots : (ps.map Placement.slot).Nodup
  held : ∀ p ∈ ps, d.info.links[p.slot]? = some p.link
  others : ∀ i, i ∉ ps.map Placement.slot → d.info.links[i]? = d₀.info.links[i]?
  settled : ∀ p ∈ ps, isBroken d.states p.file.path = false
  broken : ∀ path, isBroken d.states path = true → isBroken d₀.states path = true

variable {o : Outside} {d₀ d : Draft} {k : Nat} {ps : List Placement}

theorem Assigned.start (o : Outside) (d : Draft) : Assigned o d 0 [] d where
  onSelected := OnSelected.refl d
  written := rfl
  length := rfl
  justified p hp := absurd hp List.not_mem_nil
  before p hp := absurd hp List.not_mem_nil
  inOrder := List.Pairwise.nil
  slots := List.nodup_nil
  held p hp := absurd hp List.not_mem_nil
  others i _ := rfl
  settled p hp := absurd hp List.not_mem_nil
  broken path h := h

/-- An orphan that goes nowhere only uses up its number. -/
theorem Assigned.skip (h : Assigned o d₀ k ps d) : Assigned o d₀ (k + 1) ps d :=
  { h with before := fun p hp => (h.before p hp).trans (Nat.lt_succ_self k) }

/-- A slot the inner loop would take is a new one, and what speaks for it spoke for it before. -/
theorem Assigned.fresh (h : Assigned o d₀ k ps d) {p : Placement}
    (hfile : d.info.selectedFiles[p.slot]? = some p.file)
    (hneeded : isBroken d.states p.file.path = true ∨ hasLink d.info p.slot = false) :
    p.slot ∉ ps.map Placement.slot ∧
      (isBroken d₀.states p.file.path = true ∨ hasLink d₀.info p.slot = false) := by
  have hslot : p.slot ∉ ps.map Placement.slot := by
    intro hmem
    obtain ⟨q, hq, hqp⟩ := List.mem_map.mp hmem
    rcases hneeded with hbroken | hempty
    · -- the file of `q` is the file of the slot, and it was marked `ok`
      have hq_file := (h.justified q hq).file
      rw [hqp, ← h.onSelected.selectedFiles, hfile, Option.some.injEq] at hq_file
      rw [hq_file, h.settled q hq] at hbroken
      exact Bool.false_ne_true hbroken
    · have hheld := h.held q hq
      rw [hqp] at hheld
      rw [hasLink, hheld] at hempty
      exact (h.justified q hq).link_ne (by simpa using hempty)
  refine ⟨hslot, hneeded.imp (h.broken _) fun hempty => ?_⟩
  rwa [hasLink, h.others p.slot hslot] at hempty

/-- A turn that places: the new placement joins the list. -/
theorem Assigned.place (h : Assigned o d₀ k ps d) {link : String} {dl : Download} {p : Placement}
    (hlink : (loopOrphans d₀.info)[k]? = some link) (hdl : o.unrestrict (.orphan k) = .ok dl)
    (hv : verifyError o (o.verify (.orphan k)) = none) (hp : chosen o d k link dl = some p) :
    Assigned o d₀ (k + 1) (ps ++ [p]) (placeOrphan o d link dl).value := by
  obtain ⟨rfl, rfl, rfl, hfile, hneeded, hfits⟩ := chosen_spec hp
  obtain ⟨hnew, hneeded₀⟩ := h.fresh hfile hneeded
  have hfile₀ : d₀.info.selectedFiles[p.slot]? = some p.file := by
    rw [← h.onSelected.selectedFiles]
    exact hfile
  have hlt : p.slot < d.info.links.length := by
    rw [h.length]
    exact slot_lt_links hlink hfile₀
  have hlinks : (placeOrphan o d p.link p.download).value.info.links =
      d.info.links.set p.slot p.link := by
    rw [placeOrphan_links o d p.number, hp]
    exact setLink_of_lt p.link hlt
  have hne : ∀ q ∈ ps, q.slot ≠ p.slot := fun q hq heq =>
    hnew (heq ▸ List.mem_map_of_mem hq)
  refine ⟨h.onSelected.trans (placeOrphan_onSelected ..), ?_, ?_, ?_, ?_, ?_, ?_, ?_, ?_, ?_, ?_⟩
  · rw [placeOrphan_links o d p.number, hp, h.written, ← writeLinks_append]
    rfl
  · rw [hlinks, List.length_set, h.length]
  · intro q hq
    rcases List.mem_append.mp hq with hq | hq
    · exact h.justified q hq
    · obtain rfl := List.mem_singleton.mp hq
      exact ⟨hlink, hfile₀, hneeded₀, hdl, hv, hfits⟩
  · intro q hq
    rcases List.mem_append.mp hq with hq | hq
    · exact (h.before q hq).trans (Nat.lt_succ_self _)
    · obtain rfl := List.mem_singleton.mp hq
      exact Nat.lt_succ_self _
  · rw [List.map_append, List.pairwise_append]
    refine ⟨h.inOrder, List.pairwise_singleton _ _, fun a ha b hb => ?_⟩
    obtain ⟨q, hq, rfl⟩ := List.mem_map.mp ha
    obtain rfl := List.mem_singleton.mp hb
    exact h.before q hq
  · rw [List.map_append]
    refine h.slots.append (List.nodup_singleton _) ?_
    exact List.disjoint_singleton.mpr hnew
  · intro q hq
    rw [hlinks]
    rcases List.mem_append.mp hq with hq | hq
    · rw [List.getElem?_set_ne (hne q hq).symm]
      exact h.held q hq
    · obtain rfl := List.mem_singleton.mp hq
      exact List.getElem?_set_self hlt
  · intro i hi
    rw [List.map_append, List.mem_append, not_or] at hi
    have hip : p.slot ≠ i := fun heq => hi.2 (List.mem_singleton.mpr heq.symm)
    rw [hlinks, List.getElem?_set_ne hip]
    exact h.others i hi.1
  · intro q hq
    rw [Bool.eq_false_iff]
    intro hbroken
    obtain ⟨hb, hother⟩ := placeOrphan_isBroken (k := p.number) hbroken
    rcases List.mem_append.mp hq with hq | hq
    · rw [h.settled q hq] at hb
      exact Bool.false_ne_true hb
    · obtain rfl := List.mem_singleton.mp hq
      exact hother q hp rfl
  · intro path hbroken
    exact h.broken path (placeOrphan_isBroken (k := p.number) hbroken).1

/-- A turn that finds no slot leaves the draft. -/
theorem placeOrphan_of_chosen_none {link : String} {dl : Download}
    (h : chosen o d k link dl = none) : (placeOrphan o d link dl).value = d := by
  rw [chosen, Option.map_eq_none_iff] at h
  rw [placeOrphan, h]
  rfl

/-- **The loop keeps the invariant**, whichever way it ends. -/
theorem Assigned.loop : ∀ (rest : List String) (k : Nat) (ps : List Placement) (d : Draft),
    Assigned o d₀ k ps d → (loopOrphans d₀.info).drop k = rest →
    ∃ k', Assigned o d₀ k' (ps ++ placements o k rest d) (assignFrom o k rest d).value.2
  | [], k, ps, d, h, _ => ⟨k, by rw [placements, List.append_nil]; exact h⟩
  | link :: rest, k, ps, d, h, hrest => by
    have hlink : (loopOrphans d₀.info)[k]? = some link := by
      rw [← List.head?_drop, hrest, List.head?_cons]
    have hnext : (loopOrphans d₀.info).drop (k + 1) = rest := by
      rw [← List.tail_drop, hrest, List.tail_cons]
    rw [assignFrom, placements, bind_value]
    cases htrial : (tryLink o (.orphan k)).value with
    | refused e =>
      dsimp only
      split
      · exact ⟨k, by rw [List.append_nil]; exact h⟩
      · exact Assigned.loop rest (k + 1) ps d h.skip hnext
    | unverified text =>
      dsimp only
      split
      · exact ⟨k, by rw [List.append_nil]; exact h⟩
      · exact Assigned.loop rest (k + 1) ps d h.skip hnext
    | good dl =>
      obtain ⟨hdl, hv⟩ := tryLink_value_good htrial
      dsimp only [bind_value]
      rw [← List.append_assoc]
      refine Assigned.loop rest (k + 1) _ _ ?_ hnext
      cases hp : chosen o d k link dl with
      | none =>
        rw [placeOrphan_of_chosen_none hp, Option.toList_none, List.append_nil]
        exact h.skip
      | some p => exact h.place hlink hdl hv hp

/-! ## The whole call -/

/-- What `assign_orphan_links` assigns. -/
def assignedPlacements (o : Outside) (d : Draft) : List Placement :=
  placements o 0 (loopOrphans d.info) d

/-- **Orphan assignment touches only slots that need it**, whether it returns `Ok` or `Err`: the
    draft differs in links only, none is added or removed, and the slots past the selected files
    stay; a slot that changed was assigned, each assignment is justified by the draft before the
    call and holds its orphan's link, no orphan and no slot is assigned twice; no path is newly
    `broken`. -/
theorem assignOrphanLinks_frame (o : Outside) (d : Draft) :
    let out := (assignOrphanLinks o d).value.2
    let ps := assignedPlacements o d
    out.info = { d.info with links := writeLinks d.info.links ps } ∧
    out.info.links.length = d.info.links.length ∧
    (∀ i, d.info.selectedFiles.length ≤ i → out.info.links[i]? = d.info.links[i]?) ∧
    (∀ i, out.info.links[i]? ≠ d.info.links[i]? → i ∈ ps.map Placement.slot) ∧
    (∀ p ∈ ps, Justified o d p ∧ out.info.links[p.slot]? = some p.link) ∧
    (ps.map Placement.number).Nodup ∧ (ps.map Placement.slot).Nodup ∧
    ∀ path, isBroken out.states path = true → isBroken d.states path = true := by
  obtain ⟨k, h⟩ := Assigned.loop (loopOrphans d.info) 0 [] d (Assigned.start o d) rfl
  rw [List.nil_append] at h
  obtain ⟨links, hinfo⟩ := h.onSelected.1
  have hlinks := h.written
  rw [hinfo] at hlinks
  refine ⟨hinfo.trans (hlinks ▸ rfl), h.length, fun i hi => h.others i ?_, fun i hi => ?_,
    fun p hp => ⟨h.justified p hp, h.held p hp⟩, ?_, h.slots, h.broken⟩
  · intro hmem
    obtain ⟨p, hp, rfl⟩ := List.mem_map.mp hmem
    have hlt := (List.getElem?_eq_some_iff.mp (h.justified p hp).file).1
    omega
  · by_contra hnot
    exact hi (h.others i hnot)
  · exact h.inOrder.imp fun hlt => hlt.ne

end RdRs.Repair
