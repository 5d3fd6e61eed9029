/-
  What preflight leaves: which slots have a link, and which files are broken.

  Preflight works on a draft of the links and of `file_states`.  What it makes of them is said here in
  terms of what it starts from and of the answers it gets, without its run.

  1. **The draft** — only links and states of selected files change (`OnSelected`).
  2. **The orphans** — a good orphan link goes to the first slot of a matching file that is still open
     after the orphans before it.  `GoesTo` is that rule; `Allotted` is the invariant of the loop: the
     draft has the slots and the marks that the rule gives it.
  3. **The probe** — each path has the mark of its last linked file (`ProbedBroken`).
  4. **The shortcut** — takes the mark off one file (`ShortcutClears`).
  5. **Result** — the files that preflight leaves broken (`runPreflight_broken`).
-/
import RdRs.Repair.Preflight

set_option linter.unusedVariables false

namespace RdRs.Repair

open RdRs.Rd RdRs.Effects

/-! ## The answers -/

/-- The link at this place is good: both calls are answered well. -/
def answersGood (o : Outside) (site : Site) : Bool :=
  (o.unrestrict site).isOk && (verifyError o (o.verify site)).isNone

/-- A trial that goes well has both answers. -/
theorem tryLink_value_good {o : Outside} {site : Site} {dl : Download}
    (h : (tryLink o site).value = .good dl) :
    o.unrestrict site = .ok dl ∧ verifyError o (o.verify site) = none := by
  cases hu : o.unrestrict site with
  | error e =>
    rw [tryLink_refused hu] at h
    exact absurd h (by simp)
  | ok dl' =>
    cases hv : verifyError o (o.verify site) with
    | some text =>
      rw [tryLink_unverified hu hv] at h
      exact absurd h (by simp)
    | none =>
      rw [tryLink_good hu hv] at h
      exact ⟨congrArg Except.ok (Trial.good.inj h), rfl⟩

/-- A trial goes well exactly when the answers are good. -/
theorem answersGood_iff {o : Outside} {site : Site} :
    answersGood o site = true ↔ ∃ dl, (tryLink o site).value = .good dl := by
  constructor
  · intro h
    rw [answersGood, Bool.and_eq_true, Option.isNone_iff_eq_none] at h
    obtain ⟨hu, hv⟩ := h
    cases hun : o.unrestrict site with
    | error e =>
      rw [hun] at hu
      cases hu
    | ok dl => exact ⟨dl, by rw [tryLink_good hun hv]⟩
  · rintro ⟨dl, h⟩
    obtain ⟨hun, hv⟩ := tryLink_value_good h
    rw [answersGood, hun, hv]
    rfl

/-- A link is not good exactly if trying it gives no download. -/
theorem answersGood_eq_false {o : Outside} {site : Site} :
    answersGood o site = false ↔ ∀ dl, (tryLink o site).value ≠ .good dl := by
  rw [← Bool.not_eq_true, answersGood_iff, not_exists]

/-! ## The draft -/

/-- The paths of the selected files. -/
def selectedPaths (info : TorrentInfo) : List String := info.selectedFiles.map File.path

/-- `d'` differs from `d` in links and in states of selected files only. -/
def OnSelected (d d' : Draft) : Prop :=
  (∃ links, d'.info = { d.info with links := links }) ∧
    ∀ p, p ∉ selectedPaths d.info → d'.states.lookup p = d.states.lookup p

theorem OnSelected.refl (d : Draft) : OnSelected d d := ⟨⟨d.info.links, rfl⟩, fun p _ => rfl⟩

/-- The selected files are the same. -/
theorem OnSelected.selectedFiles {d d' : Draft} (h : OnSelected d d') :
    d'.info.selectedFiles = d.info.selectedFiles := by
  obtain ⟨links, hinfo⟩ := h.1
  rw [hinfo]
  rfl

theorem OnSelected.trans {d d' d'' : Draft} (h : OnSelected d d') (h' : OnSelected d' d'') :
    OnSelected d d'' := by
  refine ⟨?_, fun p hp => ?_⟩
  · obtain ⟨links, hinfo⟩ := h.1
    obtain ⟨links', hinfo'⟩ := h'.1
    exact ⟨links', by rw [hinfo', hinfo]⟩
  · rw [h'.2 p (by rwa [selectedPaths, h.selectedFiles]), h.2 p hp]

theorem setStates_lookup_other {status p : String} : ∀ (paths : List String) (states : FileStates),
    p ∉ paths → (setStates status paths states).value.lookup p = states.lookup p
  | [], states, _ => rfl
  | path :: paths, states, h => by
    rw [List.mem_cons, not_or] at h
    show (setStates status paths (states.insert path status)).value.lookup p = _
    rw [setStates_lookup_other paths _ h.2, AList.lookup_insert_ne h.1]

/-- Placing one link changes links and marks of selected files only. -/
theorem placeOrphan_onSelected (o : Outside) (d : Draft) (link : String) (dl : Download) :
    OnSelected d (placeOrphan o d link dl).value := by
  rw [placeOrphan]
  cases hfind : d.info.selectedFiles.zipIdx.find? (takesOrphan o d dl) with
  | none => exact OnSelected.refl d
  | some fi =>
    obtain ⟨file, selI⟩ := fi
    have hfile : file ∈ d.info.selectedFiles :=
      (List.mem_zipIdx' (List.mem_of_find?_eq_some hfind)).2 ▸ List.getElem_mem _
    refine ⟨⟨setLink d.info.links selI link, rfl⟩, fun p hp => ?_⟩
    have hne : p ≠ file.path := by
      rintro rfl
      exact hp (List.mem_map_of_mem hfile)
    show (applyLoneSelectedRarOkPolicy _ (d.states.insert file.path "ok") file.path).value.lookup p = _
    rw [applyLoneSelectedRarOkPolicy]
    split
    · exact AList.lookup_insert_ne hne
    · split
      · exact AList.lookup_insert_ne hne
      · exact (setStates_lookup_other _ _ hp).trans (AList.lookup_insert_ne hne)

/-- So does placing all of them. -/
theorem assignFrom_onSelected (o : Outside) : ∀ (orphans : List String) (k : Nat) (d : Draft),
    OnSelected d (assignFrom o k orphans d).value.2
  | [], k, d => OnSelected.refl d
  | link :: rest, k, d => by
    rw [assignFrom, bind_value]
    cases (tryLink o (.orphan k)).value with
    | refused e =>
      dsimp only
      split
      · exact OnSelected.refl d
      · exact assignFrom_onSelected o rest (k + 1) d
    | unverified text =>
      dsimp only
      split
      · exact OnSelected.refl d
      · exact assignFrom_onSelected o rest (k + 1) d
    | good dl =>
      exact (placeOrphan_onSelected o d link dl).trans
        (assignFrom_onSelected o rest (k + 1) (placeOrphan o d link dl).value)

/-! ## The orphans -/

/-- The orphans the loop goes through. -/
def loopOrphans (info : TorrentInfo) : List String := (orphanRdLinks info).filter fun l => l != ""

/-- The download of orphan number `k`, if its link is good. -/
def orphanDownload (o : Outside) (k : Nat) : Option Download :=
  match o.unrestrict (.orphan k) with
  | .ok dl => if (verifyError o (o.verify (.orphan k))).isNone then some dl else none
  | .error _ => none

/-- Filling these slots takes the mark off the path: it is that of a slot's own file, or a selected
    one and a slot has the only selected `.rar`. -/
def Clears (info : TorrentInfo) (slots : Set Nat) (p : String) : Prop :=
  ∃ i ∈ slots, ∃ g, info.selectedFiles[i]? = some g ∧
    (p = g.path ∨ selectedRarCount info = 1 ∧ isRar g.path = true ∧ p ∈ selectedPaths info)

/-- A slot of the file is open when these slots are filled: it has no link, or its file is broken. -/
def StillOpen (d : Draft) (filled : Set Nat) (f : File) (i : Nat) : Prop :=
  (isBroken d.states f.path = true ∧ ¬Clears d.info filled f.path) ∨
    (hasLink d.info i = false ∧ i ∉ filled)

/-- The open slots of the files that the download matches. -/
def openSlots (o : Outside) (d : Draft) (filled : Set Nat) (dl : Download) : Set Nat :=
  {i | ∃ f, d.info.selectedFiles[i]? = some f ∧ StillOpen d filled f i ∧
    downloadMatchesFile o f dl = true}

/-- **The rule of the orphans**: orphan number `k` goes to slot `i` when its link is good and `i` is
    the first open slot of a matching file, the orphans before it being where they go. -/
def GoesTo (o : Outside) (d : Draft) (k i : Nat) : Prop :=
  k < (loopOrphans d.info).length ∧ ∃ dl, orphanDownload o k = some dl ∧
    IsLeast (openSlots o d {j | ∃ k', ∃ _ : k' < k, GoesTo o d k' j} dl) i
termination_by k

/-- The slots that the first `k` orphans go to. -/
def filledBy (o : Outside) (d : Draft) (k : Nat) : Set Nat := {i | ∃ k' < k, GoesTo o d k' i}

/-- The slots that an orphan goes to. -/
def filled (o : Outside) (d : Draft) : Set Nat := {i | ∃ k, GoesTo o d k i}

/-- The slot has a link once the orphans are where they go. -/
def Linked (o : Outside) (d : Draft) (i : Nat) : Prop := hasLink d.info i = true ∨ i ∈ filled o d

theorem goesTo_iff {o : Outside} {d : Draft} {k i : Nat} :
    GoesTo o d k i ↔ k < (loopOrphans d.info).length ∧ ∃ dl, orphanDownload o k = some dl ∧
      IsLeast (openSlots o d (filledBy o d k) dl) i := by
  have hfilled : {j | ∃ k', ∃ _ : k' < k, GoesTo o d k' j} = filledBy o d k := by
    ext j
    simp [filledBy]
  rw [GoesTo, hfilled]

/-- Before the first link nothing is filled. -/
theorem filledBy_zero (o : Outside) (d : Draft) : filledBy o d 0 = ∅ := by
  ext i
  simp [filledBy]

/-- One link more fills the slot it goes to. -/
theorem filledBy_succ (o : Outside) (d : Draft) (k : Nat) :
    filledBy o d (k + 1) = {i | GoesTo o d k i} ∪ filledBy o d k := by
  ext i
  constructor
  · rintro ⟨k', hk', hi⟩
    rcases Nat.lt_succ_iff_lt_or_eq.mp hk' with hlt | rfl
    · exact Or.inr ⟨k', hlt, hi⟩
    · exact Or.inl hi
  · rintro (hi | ⟨k', hk', hi⟩)
    · exact ⟨k, Nat.lt_succ_self k, hi⟩
    · exact ⟨k', Nat.lt_succ_of_lt hk', hi⟩

/-- Past the last orphan nothing is filled. -/
theorem filledBy_all (o : Outside) (d : Draft) :
    filledBy o d (loopOrphans d.info).length = filled o d := by
  ext i
  constructor
  · rintro ⟨k, -, hi⟩
    exact ⟨k, hi⟩
  · rintro ⟨k, hi⟩
    exact ⟨k, (goesTo_iff.mp hi).1, hi⟩

/-- A mark is cleared by either of two sets of slots. -/
theorem clears_union {info : TorrentInfo} {s t : Set Nat} {p : String} :
    Clears info (s ∪ t) p ↔ Clears info s p ∨ Clears info t p := by
  constructor
  · rintro ⟨i, hi | hi, g, hg⟩
    · exact Or.inl ⟨i, hi, g, hg⟩
    · exact Or.inr ⟨i, hi, g, hg⟩
  · rintro (⟨i, hi, g, hg⟩ | ⟨i, hi, g, hg⟩)
    · exact ⟨i, Or.inl hi, g, hg⟩
    · exact ⟨i, Or.inr hi, g, hg⟩

theorem not_clears_empty {info : TorrentInfo} {p : String} : ¬Clears info ∅ p := by
  rintro ⟨i, hi, -⟩
  exact hi

/-- The first place of a list that passes a test. -/
theorem find?_zipIdx_eq_some {α : Type} {l : List α} {test : α × Nat → Bool} {a : α} {i : Nat} :
    l.zipIdx.find? test = some (a, i) ↔ l[i]? = some a ∧ test (a, i) = true ∧
      ∀ j < i, ∀ b, l[j]? = some b → test (b, j) = false := by
  rw [List.find?_eq_some_iff_getElem]
  constructor
  · rintro ⟨htest, n, hn, hget, hbefore⟩
    rw [List.length_zipIdx] at hn
    rw [List.getElem_zipIdx, Prod.mk.injEq] at hget
    obtain ⟨rfl, rfl⟩ := hget
    rw [Nat.zero_add] at htest ⊢
    refine ⟨List.getElem?_eq_getElem hn, htest, fun j hj b hb => ?_⟩
    obtain ⟨hlt, rfl⟩ := List.getElem?_eq_some_iff.mp hb
    have h := hbefore j hj
    rwa [List.getElem_zipIdx, Nat.zero_add, Bool.not_eq_true'] at h
  · rintro ⟨hget, htest, hbefore⟩
    obtain ⟨hlt, rfl⟩ := List.getElem?_eq_some_iff.mp hget
    refine ⟨htest, i, by rwa [List.length_zipIdx], by rw [List.getElem_zipIdx, Nat.zero_add], ?_⟩
    intro j hj
    rw [List.getElem_zipIdx, Nat.zero_add, Bool.not_eq_true']
    exact hbefore j hj _ (List.getElem?_eq_getElem (hj.trans hlt))

/-- A slot that gets a link has one, and the others are as they were. -/
theorem hasLink_setLink {info : TorrentInfo} {i j : Nat} {link : String} (hne : link ≠ "") :
    hasLink { info with links := setLink info.links i link } j = true ↔
      j = i ∨ hasLink info j = true := by
  have hget : (setLink info.links i link)[j]? = if i = j then some link else
      (info.links ++ List.replicate (i + 1 - info.links.length) "")[j]? := by
    rw [setLink, List.getElem?_set]
    by_cases hij : i = j
    · have hlt : i < (info.links ++ List.replicate (i + 1 - info.links.length) "").length := by
        rw [List.length_append, List.length_replicate]
        omega
      rw [if_pos hij, if_pos hij, if_pos hlt]
    · rw [if_neg hij, if_neg hij]
  rw [hasLink, hget]
  by_cases hij : i = j
  · simp [hij, hne]
  · rw [if_neg hij]
    by_cases hj : j < info.links.length
    · rw [List.getElem?_append_left hj, hasLink]
      simp [Ne.symm hij]
    · -- a slot past the links is padding, which is no link
      rw [List.getElem?_append_right (Nat.le_of_not_lt hj), List.getElem?_replicate, hasLink,
        List.getElem?_eq_none (Nat.le_of_not_lt hj)]
      split
      · rename_i hpad
        split at hpad
        · obtain rfl := Option.some.inj hpad
          simp [Ne.symm hij]
        · cases hpad
      · simp [Ne.symm hij]

/-- Paths that are set to `ok` are no longer broken. -/
theorem setStates_ok_isBroken {p : String} : ∀ (paths : List String) (states : FileStates),
    isBroken (setStates "ok" paths states).value p = true ↔ isBroken states p = true ∧ p ∉ paths
  | [], states => by
    show isBroken states p = true ↔ _
    simp
  | path :: paths, states => by
    show isBroken (setStates "ok" paths (states.insert path "ok")).value p = true ↔ _
    rw [setStates_ok_isBroken paths, List.mem_cons, not_or]
    by_cases hp : p = path
    · subst hp
      rw [isBroken, AList.lookup_insert]
      simp
    · rw [isBroken, AList.lookup_insert_ne hp, ← isBroken]
      simp [hp]

/-- What the draft keeps broken when an orphan goes to the slot of a file. -/
theorem loneRar_isBroken {info : TorrentInfo} {states : FileStates} {file : File} {i : Nat} {p : String}
    (hfile : info.selectedFiles[i]? = some file) :
    isBroken (applyLoneSelectedRarOkPolicy info (states.insert file.path "ok") file.path).value p = true
      ↔ isBroken states p = true ∧ ¬Clears info {i} p := by
  have hinsert : isBroken (states.insert file.path "ok") p = true ↔
      isBroken states p = true ∧ p ≠ file.path := by
    by_cases hp : p = file.path
    · subst hp
      rw [isBroken, AList.lookup_insert]
      simp
    · rw [isBroken, AList.lookup_insert_ne hp, ← isBroken]
      simp [hp]
  have hclears : Clears info {i} p ↔ p = file.path ∨
      selectedRarCount info = 1 ∧ isRar file.path = true ∧ p ∈ selectedPaths info := by
    constructor
    · rintro ⟨j, rfl, g, hg, h⟩
      rw [hfile] at hg
      obtain rfl := Option.some.inj hg
      exact h
    · intro h
      exact ⟨i, rfl, file, hfile, h⟩
  rw [hclears, applyLoneSelectedRarOkPolicy]
  split
  · rename_i hcount
    rw [pure_value, hinsert]
    simp [hcount]
  · rename_i hcount
    split
    · rename_i hrar
      rw [pure_value, hinsert]
      simp at hrar
      simp [hrar]
    · rename_i hrar
      rw [setStates_ok_isBroken, hinsert]
      simp at hcount hrar
      simp [hcount, hrar, selectedPaths, and_assoc]

/-- The draft after the first `k` orphans has the links and the marks that the rule gives it. -/
structure Allotted (o : Outside) (d₀ : Draft) (k : Nat) (d : Draft) : Prop where
  onSelected : OnSelected d₀ d
  linked : ∀ i, hasLink d.info i = true ↔ hasLink d₀.info i = true ∨ i ∈ filledBy o d₀ k
  broken : ∀ p, isBroken d.states p = true ↔
    isBroken d₀.states p = true ∧ ¬Clears d₀.info (filledBy o d₀ k) p

section Allotted

variable {o : Outside} {d₀ d : Draft} {k : Nat}

/-- Nothing is allotted yet. -/
theorem Allotted.start (o : Outside) (d : Draft) : Allotted o d 0 d where
  onSelected := OnSelected.refl d
  linked i := by
    rw [filledBy_zero]
    simp
  broken p := by
    rw [filledBy_zero]
    simp [not_clears_empty]

/-- The inner loop's test is that the slot is open and the file matches. -/
theorem Allotted.takesOrphan_iff (h : Allotted o d₀ k d) {dl : Download} {f : File} {i : Nat} :
    takesOrphan o d dl (f, i) = true ↔
      StillOpen d₀ (filledBy o d₀ k) f i ∧ downloadMatchesFile o f dl = true := by
  have hempty : hasLink d.info i = false ↔ hasLink d₀.info i = false ∧ i ∉ filledBy o d₀ k := by
    rw [← Bool.not_eq_true, h.linked, not_or, Bool.not_eq_true]
  rw [takesOrphan, Bool.and_eq_true, Bool.or_eq_true, Bool.not_eq_true', h.broken, hempty]
  rfl

/-- The first slot the inner loop finds is where the orphan goes. -/
theorem Allotted.find_iff (h : Allotted o d₀ k d) (hk : k < (loopOrphans d₀.info).length)
    {dl : Download} (hdl : orphanDownload o k = some dl) {i : Nat} :
    GoesTo o d₀ k i ↔ ∃ f, d.info.selectedFiles.zipIdx.find? (takesOrphan o d dl) = some (f, i) := by
  have hleast : GoesTo o d₀ k i ↔ IsLeast (openSlots o d₀ (filledBy o d₀ k) dl) i := by
    rw [goesTo_iff]
    constructor
    · rintro ⟨-, dl', hdl', hi⟩
      rw [hdl] at hdl'
      obtain rfl := Option.some.inj hdl'
      exact hi
    · intro hi
      exact ⟨hk, dl, hdl, hi⟩
  rw [hleast, h.onSelected.selectedFiles]
  constructor
  · rintro ⟨⟨f, hf, hopen⟩, hfirst⟩
    refine ⟨f, find?_zipIdx_eq_some.mpr ⟨hf, h.takesOrphan_iff.mpr hopen, fun j hj g hg => ?_⟩⟩
    rw [Bool.eq_false_iff]
    intro htakes
    exact absurd (hfirst ⟨g, hg, h.takesOrphan_iff.mp htakes⟩) (Nat.not_le_of_lt hj)
  · rintro ⟨f, hfind⟩
    obtain ⟨hf, htakes, hbefore⟩ := find?_zipIdx_eq_some.mp hfind
    refine ⟨⟨f, hf, h.takesOrphan_iff.mp htakes⟩, ?_⟩
    rintro j ⟨g, hg, hopen⟩
    by_contra hlt
    have hnot := hbefore j (Nat.lt_of_not_le hlt) g hg
    rw [h.takesOrphan_iff.mpr hopen] at hnot
    cases hnot

/-- An orphan that goes nowhere. -/
theorem Allotted.skip (h : Allotted o d₀ k d) (hno : ∀ i, ¬GoesTo o d₀ k i) :
    Allotted o d₀ (k + 1) d := by
  have hsame : filledBy o d₀ (k + 1) = filledBy o d₀ k := by
    rw [filledBy_succ, show {i | GoesTo o d₀ k i} = ∅ from Set.eq_empty_of_forall_notMem hno,
      Set.empty_union]
  exact ⟨h.onSelected, hsame ▸ h.linked, hsame ▸ h.broken⟩

/-- A good orphan. -/
theorem Allotted.place (h : Allotted o d₀ k d) {link : String} {dl : Download}
    (hk : (loopOrphans d₀.info)[k]? = some link) (hdl : orphanDownload o k = some dl) :
    Allotted o d₀ (k + 1) (placeOrphan o d link dl).value := by
  have hlt := (List.getElem?_eq_some_iff.mp hk).1
  have hne : link ≠ "" := by
    have hmem := List.mem_of_getElem? hk
    rw [loopOrphans, List.mem_filter] at hmem
    simpa using hmem.2
  rw [placeOrphan]
  cases hfind : d.info.selectedFiles.zipIdx.find? (takesOrphan o d dl) with
  | none =>
    refine h.skip fun i hi => ?_
    obtain ⟨f, hf⟩ := (h.find_iff hlt hdl).mp hi
    rw [hfind] at hf
    cases hf
  | some fi =>
    obtain ⟨file, i⟩ := fi
    have hgoes : GoesTo o d₀ k i := (h.find_iff hlt hdl).mpr ⟨file, hfind⟩
    have hone : {j | GoesTo o d₀ k j} = {i} := by
      ext j
      constructor
      · intro hj
        obtain ⟨f, hf⟩ := (h.find_iff hlt hdl).mp hj
        rw [hfind] at hf
        exact (Prod.mk.inj (Option.some.inj hf)).2.symm
      · rintro rfl
        exact hgoes
    have hfile := (find?_zipIdx_eq_some.mp hfind).1
    refine ⟨?_, fun j => ?_, fun p => ?_⟩
    · have hon := placeOrphan_onSelected o d link dl
      rw [placeOrphan, hfind] at hon
      exact h.onSelected.trans hon
    · show hasLink { d.info with links := setLink d.info.links i link } j = true ↔ _
      rw [hasLink_setLink hne, h.linked, filledBy_succ, hone]
      simp only [Set.mem_union, Set.mem_singleton_iff]
      tauto
    · have hclears : ∀ s, Clears d.info s p ↔ Clears d₀.info s p := by
        intro s
        have hsel := h.onSelected.selectedFiles
        unfold Clears selectedRarCount selectedPaths
        rw [hsel]
      refine (@loneRar_isBroken { d.info with links := setLink d.info.links i link } d.states file i p
        hfile).trans ?_
      have hrest : Clears { d.info with links := setLink d.info.links i link } {i} p ↔
          Clears d₀.info {i} p := hclears {i}
      rw [hrest, h.broken, filledBy_succ, hone, clears_union]
      tauto

/-- **The loop leaves what the rule says**, unless it ends early. -/
theorem Allotted.loop : ∀ (rest : List String) (k : Nat) (d : Draft), Allotted o d₀ k d →
    (loopOrphans d₀.info).drop k = rest → limited (assignFrom o k rest d).value.1 = false →
    Allotted o d₀ (loopOrphans d₀.info).length (assignFrom o k rest d).value.2
  | [], k, d, h, hrest, _ => by
    have hall : filledBy o d₀ (loopOrphans d₀.info).length = filledBy o d₀ k := by
      have hle := List.drop_eq_nil_iff.mp hrest
      ext i
      constructor
      · rintro ⟨k', hk', hi⟩
        exact ⟨k', hk'.trans_le hle, hi⟩
      · rintro ⟨k', -, hi⟩
        exact ⟨k', (goesTo_iff.mp hi).1, hi⟩
    exact ⟨h.onSelected, hall ▸ h.linked, hall ▸ h.broken⟩
  | link :: rest, k, d, h, hrest, hlim => by
    have hlink : (loopOrphans d₀.info)[k]? = some link := by
      rw [← List.head?_drop, hrest, List.head?_cons]
    have hnext : (loopOrphans d₀.info).drop (k + 1) = rest := by
      rw [← List.tail_drop, hrest, List.tail_cons]
    -- an orphan whose trial goes wrong has no download
    have hbad : answersGood o (.orphan k) = false → ∀ i, ¬GoesTo o d₀ k i := by
      intro hno i hi
      obtain ⟨-, dl, hdl, -⟩ := goesTo_iff.mp hi
      rw [answersGood] at hno
      rw [orphanDownload] at hdl
      cases hu : o.unrestrict (.orphan k) with
      | error e =>
        rw [hu] at hdl
        cases hdl
      | ok dl' =>
        rw [hu] at hno hdl
        have hv : (verifyError o (o.verify (.orphan k))).isNone = false := hno
        simp [hv] at hdl
    rw [assignFrom, bind_value] at hlim ⊢
    cases htrial : (tryLink o (.orphan k)).value with
    | refused e =>
      rw [htrial] at hlim
      dsimp only at hlim ⊢
      have hskip := h.skip (hbad (answersGood_eq_false.mpr fun dl hdl => by rw [htrial] at hdl; cases hdl))
      split
      · rename_i hband
        rw [if_pos hband] at hlim
        exact Bool.noConfusion (hband.symm.trans hlim)
      · rename_i hband
        rw [if_neg hband] at hlim
        exact Allotted.loop rest (k + 1) d hskip hnext hlim
    | unverified text =>
      rw [htrial] at hlim
      dsimp only at hlim ⊢
      have hskip := h.skip (hbad (answersGood_eq_false.mpr fun dl hdl => by rw [htrial] at hdl; cases hdl))
      split
      · rename_i hband
        rw [if_pos hband] at hlim
        cases hlim
      · rename_i hband
        rw [if_neg hband] at hlim
        exact Allotted.loop rest (k + 1) d hskip hnext hlim
    | good dl =>
      rw [htrial] at hlim
      obtain ⟨hu, hv⟩ := tryLink_value_good htrial
      have hdl : orphanDownload o k = some dl := by
        rw [orphanDownload, hu, hv]
        rfl
      exact Allotted.loop rest (k + 1) _ (h.place hlink hdl) hnext hlim

end Allotted

/-! ## The probe -/

/-- What the probe notes for a link. -/
def probeMark (o : Outside) (i : Nat) : String :=
  if answersGood o (.probe i) then "ok" else "broken"

/-- One turn of a probe that is not limited: the file's mark is set if it has a link. -/
theorem probeFrom_step {o : Outside} {info : TorrentInfo} {file : File} {selI : Nat}
    {rest : List (File × Nat)} {states : FileStates}
    (h : limited (probeFrom o info ((file, selI) :: rest) states).value.1 = false) :
    (probeFrom o info ((file, selI) :: rest) states).value =
      (probeFrom o info rest (if hasLink info selI then
        states.insert file.path (probeMark o selI) else states)).value := by
  rw [probeFrom] at h ⊢
  cases hl : hasLink info selI with
  | false => simp
  | true =>
    simp only [hl, Bool.not_true, Bool.false_eq_true, if_false, if_true, bind_value] at h ⊢
    cases htry : (tryLink o (.probe selI)).value with
    | refused e =>
      have hmark : probeMark o selI = "broken" := by
        rw [probeMark, answersGood_eq_false.mpr fun dl hdl => by rw [htry] at hdl; cases hdl]
        rfl
      simp only [htry] at h ⊢
      cases hlim : e.isBandwidthLimited with
      | true =>
        rw [hlim] at h
        exact Bool.noConfusion (hlim.symm.trans h)
      | false =>
        rw [hmark]
        rfl
    | unverified text =>
      have hmark : probeMark o selI = "broken" := by
        rw [probeMark, answersGood_eq_false.mpr fun dl hdl => by rw [htry] at hdl; cases hdl]
        rfl
      simp only [htry] at h ⊢
      cases hlim : verifyFailedLikeBandwidth text with
      | true =>
        rw [hlim] at h
        cases h
      | false =>
        rw [hmark]
        rfl
    | good dl =>
      rw [probeMark, answersGood_iff.mpr ⟨dl, htry⟩]
      rfl

/-- The last file of a path in a list, with its index. -/
def lastOf (fs : List (File × Nat)) (p : String) : Option (File × Nat) :=
  fs.reverse.find? fun fi => fi.1.path == p

theorem lastOf_cons (fi : File × Nat) (fs : List (File × Nat)) (p : String) :
    lastOf (fi :: fs) p = (lastOf fs p).or (if fi.1.path == p then some fi else none) := by
  rw [lastOf, List.reverse_cons, List.find?_append, List.find?_singleton]
  rfl

/-- No file of the list has the path. -/
theorem lastOf_eq_none {fs : List (File × Nat)} {p : String} :
    lastOf fs p = none ↔ ∀ fi ∈ fs, fi.1.path ≠ p := by
  rw [lastOf, List.find?_eq_none]
  simp

/-- In a list in the order of the indices the last file has the greatest. -/
theorem lastOf_eq_some {p : String} : ∀ {fs : List (File × Nat)} {fi : File × Nat},
    fs.Pairwise (fun a b => a.2 < b.2) → lastOf fs p = some fi →
    fi ∈ fs ∧ fi.1.path = p ∧ ∀ gi ∈ fs, gi.1.path = p → gi.2 ≤ fi.2
  | [], fi, _, h => by cases h
  | x :: fs, fi, hfs, h => by
    rw [List.pairwise_cons] at hfs
    rw [lastOf_cons] at h
    cases hlast : lastOf fs p with
    | some gi =>
      rw [hlast] at h
      obtain rfl := Option.some.inj h
      obtain ⟨hmem, hpath, hmax⟩ := lastOf_eq_some hfs.2 hlast
      refine ⟨List.mem_cons_of_mem _ hmem, hpath, fun g hg hgp => ?_⟩
      rcases List.mem_cons.mp hg with rfl | hg
      · exact Nat.le_of_lt (hfs.1 _ hmem)
      · exact hmax g hg hgp
    | none =>
      rw [hlast, Option.none_or] at h
      split at h
      · rename_i hx
        obtain rfl := Option.some.inj h
        refine ⟨List.mem_cons_self, beq_iff_eq.mp hx, fun g hg hgp => ?_⟩
        rcases List.mem_cons.mp hg with rfl | hg
        · exact Nat.le_refl _
        · exact absurd hgp (lastOf_eq_none.mp hlast g hg)
      · cases h

/-- **What the probe leaves**: each path has the mark of its last file with a link. -/
theorem probeFrom_lookup {o : Outside} {info : TorrentInfo} {p : String} :
    ∀ (fs : List (File × Nat)) (states : FileStates),
      limited (probeFrom o info fs states).value.1 = false →
      (probeFrom o info fs states).value.2.lookup p =
        ((lastOf (fs.filter fun fi => hasLink info fi.2) p).map fun fi => probeMark o fi.2).or
          (states.lookup p)
  | [], states, _ => rfl
  | (file, selI) :: rest, states, h => by
    have hstep := probeFrom_step h
    rw [hstep] at h ⊢
    rw [probeFrom_lookup rest _ h]
    cases hl : hasLink info selI with
    | false =>
      rw [List.filter_cons_of_neg (by simp [hl])]
      rfl
    | true =>
      rw [List.filter_cons_of_pos (by simp [hl]), lastOf_cons, if_pos rfl]
      cases lastOf (rest.filter fun fi => hasLink info fi.2) p with
      | some fi => rfl
      | none =>
        by_cases hp : file.path = p
        · subst hp
          simp
        · simp [hp, AList.lookup_insert_ne (Ne.symm hp)]

/-- The last slot of the path that has a link. -/
def LastLinked (o : Outside) (d : Draft) (p : String) (i : Nat) : Prop :=
  IsGreatest {j | Linked o d j ∧ ∃ f, d.info.selectedFiles[j]? = some f ∧ f.path = p} i

/-- The path is broken after the probe: its last link is dead, or there is no link and the mark it
    had has not been taken off. -/
def ProbedBroken (o : Outside) (d : Draft) (p : String) : Prop :=
  (∃ i, LastLinked o d p i ∧ answersGood o (.probe i) = false) ∨
    (∀ i f, d.info.selectedFiles[i]? = some f → f.path = p → ¬Linked o d i) ∧
      isBroken d.states p = true ∧ ¬Clears d.info (filled o d) p

/-! ## The outcome of preflight -/

theorem PreflightOutcome.ne_defer {v : PreflightOutcome} {m : ManagedTorrent}
    (h : v = .proceed m ∨ v = .verifiedOk m) : v ≠ .deferBandwidth := by
  rcases h with rfl | rfl
  · exact PreflightOutcome.noConfusion
  · exact PreflightOutcome.noConfusion

section Outcome

variable (o : Outside) (mt : ManagedTorrent) (info : TorrentInfo)

/-- What preflight starts from. -/
def drafted : Draft := ⟨info, mt.fileStates.getD ∅⟩

/-- The detail and the states once the orphan links are assigned. -/
def assigned : Draft := (assignOrphanLinks o (drafted mt info)).value.2

/-- The result of the probe after that. -/
def probed : Except RdError Unit × FileStates := (probeSelectedLinks o (assigned o mt info)).value

/-- The record as probed. -/
def asProbed : ManagedTorrent :=
  { mt with info := some (assigned o mt info).info, fileStates := some (probed o mt info).2 }

theorem assigned_onSelected : OnSelected (drafted mt info) (assigned o mt info) :=
  assignFrom_onSelected o _ 0 _

theorem selectedFiles_assigned :
    (assigned o mt info).info.selectedFiles = info.selectedFiles :=
  (assigned_onSelected o mt info).selectedFiles

variable {o mt info}

/-- With its detail, a record leaves preflight as probed, by way of the shortcut or past it, when
    neither the assignment nor the probe met a limit. -/
theorem runPreflight_value (hinfo : mt.info = some info)
    (h : (runPreflight o mt).value ≠ .deferBandwidth) :
    limited (assignOrphanLinks o (drafted mt info)).value.1 = false ∧
      limited (probed o mt info).1 = false ∧
      (runPreflight o mt).value = (shortcutStage o (asProbed o mt info)).value := by
  rw [runPreflight, hinfo] at h ⊢
  simp only [bind_value] at h ⊢
  split at h
  · exact absurd rfl h
  · rename_i hassign
    rw [if_neg hassign]
    rw [probeStage, bind_value] at h ⊢
    split at h
    · exact absurd rfl h
    · rename_i hprobe
      refine ⟨Bool.eq_false_iff.mpr hassign, Bool.eq_false_iff.mpr hprobe, ?_⟩
      exact congrArg Traced.value (if_neg hprobe)

/-- After an assignment without a limit the draft is as the rule has it. -/
theorem assigned_allotted (h : limited (assignOrphanLinks o (drafted mt info)).value.1 = false) :
    (∀ i, hasLink (assigned o mt info).info i = true ↔ Linked o (drafted mt info) i) ∧
      ∀ p, isBroken (assigned o mt info).states p = true ↔ isBroken (mt.fileStates.getD ∅) p = true ∧
        ¬Clears info (filled o (drafted mt info)) p := by
  have hall : Allotted o (drafted mt info) (loopOrphans info).length (assigned o mt info) :=
    Allotted.loop (loopOrphans info) 0 (drafted mt info) (Allotted.start o _) rfl h
  have hfilled : filledBy o (drafted mt info) (loopOrphans info).length =
      filled o (drafted mt info) := filledBy_all o (drafted mt info)
  refine ⟨fun i => ?_, fun p => ?_⟩
  · rw [hall.linked, hfilled]
    rfl
  · rw [hall.broken, hfilled]
    rfl

theorem zipIdx_pairwise {α : Type} (l : List α) : l.zipIdx.Pairwise (fun a b => a.2 < b.2) := by
  have h : (l.zipIdx.map Prod.snd).Pairwise (· < ·) := by
    rw [List.zipIdx_map_snd]
    exact List.pairwise_lt_range'
  exact List.pairwise_map.mp h

/-- **What the probe leaves broken.** -/
theorem isBroken_probed (hassign : limited (assignOrphanLinks o (drafted mt info)).value.1 = false)
    (hprobe : limited (probed o mt info).1 = false) (p : String) :
    isBroken (probed o mt info).2 p = true ↔ ProbedBroken o (drafted mt info) p := by
  obtain ⟨hlinked, hbroken⟩ := assigned_allotted hassign
  -- the files that the probe looks at
  have hmem : ∀ f i, (f, i) ∈ (assigned o mt info).info.selectedFiles.zipIdx.filter (fun fi =>
      hasLink (assigned o mt info).info fi.2) ↔
        info.selectedFiles[i]? = some f ∧ Linked o (drafted mt info) i := by
    intro f i
    rw [List.mem_filter, List.mk_mem_zipIdx_iff_getElem?, selectedFiles_assigned, hlinked]
  have hlook : (probed o mt info).2.lookup p = _ := probeFrom_lookup _ _ hprobe
  cases hlast : lastOf ((assigned o mt info).info.selectedFiles.zipIdx.filter fun fi =>
      hasLink (assigned o mt info).info fi.2) p with
  | some fi =>
    obtain ⟨f, i⟩ := fi
    obtain ⟨hin, hpath, hmax⟩ := lastOf_eq_some ((zipIdx_pairwise _).filter _) hlast
    obtain ⟨hf, hi⟩ := (hmem f i).mp hin
    have hgreatest : LastLinked o (drafted mt info) p i := by
      refine ⟨⟨hi, f, hf, hpath⟩, ?_⟩
      rintro j ⟨hj, g, hg, hgp⟩
      exact hmax (g, j) ((hmem g j).mpr ⟨hg, hj⟩) hgp
    rw [hlast] at hlook
    rw [isBroken, hlook]
    constructor
    · intro h
      refine Or.inl ⟨i, hgreatest, ?_⟩
      rw [Bool.eq_false_iff]
      intro hgood
      simp [probeMark, hgood] at h
    · rintro (⟨j, hj, hdead⟩ | ⟨hnone, -, -⟩)
      · obtain rfl := hj.unique hgreatest
        simp [probeMark, hdead]
      · exact absurd hi (hnone i f hf hpath)
  | none =>
    have hnone : ∀ i f, info.selectedFiles[i]? = some f → f.path = p →
        ¬Linked o (drafted mt info) i := fun i f hf hpath hi =>
      lastOf_eq_none.mp hlast (f, i) ((hmem f i).mpr ⟨hf, hi⟩) hpath
    have hsame : isBroken (probed o mt info).2 p = isBroken (assigned o mt info).states p := by
      rw [hlast] at hlook
      rw [isBroken, hlook]
      rfl
    rw [hsame, hbroken]
    constructor
    · intro h
      exact Or.inr ⟨hnone, h⟩
    · rintro (⟨i, ⟨⟨hi, f, hf, hpath⟩, -⟩, -⟩ | ⟨-, h⟩)
      · exact absurd hi (hnone i f hf hpath)
      · exact h

/-! ## The shortcut -/

/-- How the last step goes on: it clears the link in the slot it picks, when that is good. -/
theorem shortcutStage_cases {r : ManagedTorrent} (h : (shortcutStage o r).value ≠ .deferBandwidth) :
    ((shortcutStage o r).value = .proceed r ∧ ∀ info' file selI,
        shortcutSlot r = some (info', file, selI) → answersGood o (.shortcut selI) = false) ∨
      ∃ info' file selI, shortcutSlot r = some (info', file, selI) ∧
        answersGood o (.shortcut selI) = true ∧
        (shortcutStage o r).value = .verifiedOk (markVerified r info' file.path).value := by
  rw [shortcutStage, bind_value, verifyOneLinkAndClear] at h ⊢
  cases hslot : shortcutSlot r with
  | none => exact Or.inl ⟨rfl, fun info' file selI hs => by cases hs⟩
  | some slot =>
    obtain ⟨info', file, selI⟩ := slot
    rw [hslot] at h
    simp only [bind_value] at h ⊢
    cases htry : (tryLink o (.shortcut selI)).value with
    | refused e =>
      have hdead := answersGood_eq_false.mpr fun dl hdl => by rw [htry] at hdl; cases hdl
      rw [htry] at h
      dsimp only [pure_value] at h ⊢
      refine Or.inl ⟨?_, fun i f s hs => ?_⟩
      · split
        · rename_i hlim
          rw [if_pos hlim] at h
          exact absurd rfl h
        · rfl
      · obtain ⟨-, -, rfl⟩ := Prod.mk.inj (Option.some.inj hs)
        exact hdead
    | unverified text =>
      have hdead := answersGood_eq_false.mpr fun dl hdl => by rw [htry] at hdl; cases hdl
      rw [htry] at h
      dsimp only at h ⊢
      refine Or.inl ⟨?_, fun i f s hs => ?_⟩
      · cases hlim : verifyFailedLikeBandwidth text with
        | true =>
          rw [hlim] at h
          exact absurd rfl h
        | false => rfl
      · obtain ⟨-, -, rfl⟩ := Prod.mk.inj (Option.some.inj hs)
        exact hdead
    | good dl =>
      exact Or.inr ⟨info', file, selI, rfl, answersGood_iff.mpr ⟨dl, htry⟩, rfl⟩

/-- The slot the shortcut picks: the first one with a link, of a torrent with playable files, none of
    them broken. -/
theorem shortcutSlot_iff {r : ManagedTorrent} {info' : TorrentInfo} {f : File} {i : Nat} :
    shortcutSlot r = some (info', f, i) ↔ r.info = some info' ∧ anyPlayableSelected info' = true ∧
      (∀ g ∈ playableSelected info', isBroken (r.fileStates.getD ∅) g.path = false) ∧
      info'.selectedFiles[i]? = some f ∧ hasLink info' i = true ∧
      ∀ j < i, ∀ g, info'.selectedFiles[j]? = some g → hasLink info' j = false := by
  have hbroken : ∀ info, brokenPlayablePaths info (r.fileStates.getD ∅) = [] ↔
      ∀ g ∈ playableSelected info, isBroken (r.fileStates.getD ∅) g.path = false := by
    intro info
    rw [brokenPlayablePaths, List.map_eq_nil_iff, List.filter_eq_nil_iff]
    simp
  rw [shortcutSlot]
  cases hinfo : r.info with
  | none => simp
  | some info =>
    dsimp only
    cases hplay : anyPlayableSelected info with
    | false =>
      rw [if_pos (by rfl)]
      refine iff_of_false (by simp) ?_
      rintro ⟨hi, hp, -⟩
      obtain rfl := Option.some.inj hi
      rw [hplay] at hp
      cases hp
    | true =>
      rw [if_neg (by simp)]
      by_cases hnone : brokenPlayablePaths info (r.fileStates.getD ∅) = []
      · rw [if_neg (not_not.mpr hnone), Option.map_eq_some_iff]
        constructor
        · rintro ⟨fi, hfind, heq⟩
          obtain ⟨hi, rfl⟩ := Prod.mk.inj heq
          obtain rfl := hi
          obtain ⟨hf, hl, hfirst⟩ := find?_zipIdx_eq_some.mp hfind
          exact ⟨rfl, hplay, (hbroken info).mp hnone, hf, hl, hfirst⟩
        · rintro ⟨hi, -, -, hf, hl, hfirst⟩
          obtain rfl := Option.some.inj hi
          exact ⟨(f, i), find?_zipIdx_eq_some.mpr ⟨hf, hl, hfirst⟩, rfl⟩
      · rw [if_pos hnone]
        refine iff_of_false (by simp) ?_
        rintro ⟨hi, -, hb, -⟩
        obtain rfl := Option.some.inj hi
        exact hnone ((hbroken info).mpr hb)

/-- `or_insert` leaves the marks that are there. -/
theorem orInsertOk_lookup_broken {p : String} : ∀ (paths : List String) (states : FileStates),
    ((orInsertOk paths states).value.lookup p = some "broken" ↔ states.lookup p = some "broken")
  | [], states => Iff.rfl
  | path :: paths, states => by
    rw [orInsertOk]
    split
    · exact orInsertOk_lookup_broken paths states
    · rename_i hnone
      show (orInsertOk paths (states.insert path "ok")).value.lookup p = some "broken" ↔ _
      rw [orInsertOk_lookup_broken paths]
      by_cases hp : p = path
      · subst hp
        rw [Option.not_isSome_iff_eq_none] at hnone
        rw [AList.lookup_insert, hnone]
        simp
      · rw [AList.lookup_insert_ne hp]

/-- The shortcut takes the mark off the file it has verified, and off no other. -/
theorem isBroken_markVerified {r : ManagedTorrent} {info' : TorrentInfo} {path p : String} :
    isBroken ((markVerified r info' path).value.fileStates.getD ∅) p = true ↔
      p ≠ path ∧ isBroken (r.fileStates.getD ∅) p = true := by
  rw [isBroken, isBroken, beq_iff_eq, beq_iff_eq]
  show (orInsertOk _ ((r.fileStates.getD ∅).insert path "ok")).value.lookup p = _ ↔ _
  rw [orInsertOk_lookup_broken]
  by_cases hp : p = path
  · subst hp
    simp
  · rw [AList.lookup_insert_ne hp]
    simp [hp]

/-- The shortcut takes the mark off the path: the first slot with a link is one of its slots, the link
    is good, and there are playable files, none of them broken after the probe. -/
def ShortcutClears (o : Outside) (d : Draft) (p : String) : Prop :=
  ∃ i f, IsLeast {j | j < d.info.selectedFiles.length ∧ Linked o d j} i ∧
    d.info.selectedFiles[i]? = some f ∧ f.path = p ∧ answersGood o (.shortcut i) = true ∧
    anyPlayableSelected d.info = true ∧
    ∀ g ∈ playableSelected d.info, ¬ProbedBroken o d g.path

/-! ## The result -/

/-- **Preflight leaves the file broken**: by what the answers say of the links, and otherwise by the
    mark the record has. -/
def LeavesBroken (o : Outside) (mt : ManagedTorrent) (p : String) : Prop :=
  match mt.info with
  | none => isBroken (mt.fileStates.getD ∅) p = true
  | some info => ProbedBroken o (drafted mt info) p ∧ ¬ShortcutClears o (drafted mt info) p

/-- The slot picked after the probe, in terms of what preflight starts from. -/
theorem shortcutSlot_asProbed
    (hassign : limited (assignOrphanLinks o (drafted mt info)).value.1 = false)
    (hprobe : limited (probed o mt info).1 = false) {f : File} {i : Nat} :
    (∃ info', shortcutSlot (asProbed o mt info) = some (info', f, i)) ↔
      IsLeast {j | j < info.selectedFiles.length ∧ Linked o (drafted mt info) j} i ∧
        info.selectedFiles[i]? = some f ∧ anyPlayableSelected info = true ∧
        ∀ g ∈ playableSelected info, ¬ProbedBroken o (drafted mt info) g.path := by
  obtain ⟨hlinked, -⟩ := assigned_allotted hassign
  have hsel := selectedFiles_assigned o mt info
  have hplay : playableSelected (assigned o mt info).info = playableSelected info := by
    rw [playableSelected, playableSelected, hsel]
  have hany : anyPlayableSelected (assigned o mt info).info = anyPlayableSelected info := by
    rw [anyPlayableSelected, anyPlayableSelected, hplay]
  have hbroken : ∀ g : File, isBroken (probed o mt info).2 g.path = false ↔
      ¬ProbedBroken o (drafted mt info) g.path := by
    intro g
    rw [← isBroken_probed hassign hprobe, Bool.not_eq_true]
  constructor
  · rintro ⟨info', hslot⟩
    obtain ⟨hinfo, hp, hb, hf, hl, hfirst⟩ := shortcutSlot_iff.mp hslot
    obtain rfl : (assigned o mt info).info = info' := Option.some.inj hinfo
    rw [hsel] at hf hfirst
    rw [hplay] at hb
    refine ⟨⟨⟨(List.getElem?_eq_some_iff.mp hf).1, (hlinked i).mp hl⟩, ?_⟩, hf, hany ▸ hp,
      fun g hg => (hbroken g).mp (hb g hg)⟩
    rintro j ⟨hj, hlj⟩
    by_contra hlt
    have hnot := hfirst j (Nat.lt_of_not_le hlt) _ (List.getElem?_eq_getElem hj)
    rw [(hlinked j).mpr hlj] at hnot
    cases hnot
  · rintro ⟨⟨⟨hlt, hl⟩, hfirst⟩, hf, hp, hb⟩
    refine ⟨(assigned o mt info).info, shortcutSlot_iff.mpr ⟨rfl, hany.trans hp, ?_, ?_, ?_, ?_⟩⟩
    · intro g hg
      rw [hplay] at hg
      exact (hbroken g).mpr (hb g hg)
    · rwa [hsel]
    · exact (hlinked i).mpr hl
    · intro j hj g hg
      rw [hsel] at hg
      rw [Bool.eq_false_iff]
      intro hlj
      exact absurd (hfirst ⟨(List.getElem?_eq_some_iff.mp hg).1, (hlinked j).mp hlj⟩)
        (Nat.not_le_of_lt hj)

/-- **What preflight leaves broken**, when it comes to an end. -/
theorem runPreflight_broken {m : ManagedTorrent}
    (h : (runPreflight o mt).value = .proceed m ∨ (runPreflight o mt).value = .verifiedOk m)
    (p : String) : isBroken (m.fileStates.getD ∅) p = true ↔ LeavesBroken o mt p := by
  have hne := PreflightOutcome.ne_defer h
  rw [LeavesBroken]
  cases hinfo : mt.info with
  | none =>
    rw [runPreflight, hinfo] at h
    rcases h with h | h
    · cases h
      exact Iff.rfl
    · cases h
  | some info =>
    obtain ⟨hassign, hprobe, hvalue⟩ := runPreflight_value hinfo hne
    rw [hvalue] at h hne
    have hprobed : isBroken ((asProbed o mt info).fileStates.getD ∅) p = true ↔
        ProbedBroken o (drafted mt info) p := isBroken_probed hassign hprobe p
    rcases shortcutStage_cases hne with ⟨hv, hdead⟩ | ⟨info', f, i, hslot, hgood, hv⟩
    · -- past the shortcut
      obtain rfl : asProbed o mt info = m := by
        rcases h with h | h
        · rw [hv] at h
          exact PreflightOutcome.proceed.inj h
        · rw [hv] at h
          cases h
      rw [hprobed]
      refine (and_iff_left ?_).symm
      rintro ⟨i, f, hi, hf, -, hgood, hplay, hb⟩
      obtain ⟨info', hslot⟩ := (shortcutSlot_asProbed hassign hprobe).mpr ⟨hi, hf, hplay, hb⟩
      rw [hdead info' f i hslot] at hgood
      cases hgood
    · -- by way of it
      obtain rfl : (markVerified (asProbed o mt info) info' f.path).value = m := by
        rcases h with h | h
        · rw [hv] at h
          cases h
        · rw [hv] at h
          exact PreflightOutcome.verifiedOk.inj h
      obtain ⟨hi, hf, hplay, hb⟩ := (shortcutSlot_asProbed hassign hprobe).mp ⟨info', hslot⟩
      have hclears : ShortcutClears o (drafted mt info) p ↔ p = f.path := by
        constructor
        · rintro ⟨i', f', hi', hf', rfl, -⟩
          obtain rfl := hi'.unique hi
          have hsame := hf'.symm.trans hf
          obtain rfl := Option.some.inj hsame
          rfl
        · rintro rfl
          exact ⟨i, f, hi, hf, rfl, hgood, hplay, hb⟩
      rw [isBroken_markVerified, hprobed, and_comm]
      exact and_congr_right fun _ => not_congr hclears.symm

end Outcome

/-- A playable file whose own link is dead is left broken. -/
theorem leavesBroken_of_dead {o : Outside} {mt : ManagedTorrent} {info : TorrentInfo} {f : File}
    {i : Nat} (hinfo : mt.info = some info) (hf : info.selectedFiles[i]? = some f)
    (hplay : pathLooksPlayable f.path = true) (hlink : hasLink info i = true)
    (hlast : ∀ j g, info.selectedFiles[j]? = some g → g.path = f.path → j ≤ i)
    (hdead : answersGood o (.probe i) = false) : LeavesBroken o mt f.path := by
  have hprobed : ProbedBroken o (drafted mt info) f.path := by
    refine Or.inl ⟨i, ⟨⟨Or.inl hlink, f, hf, rfl⟩, ?_⟩, hdead⟩
    rintro j ⟨-, g, hg, hpath⟩
    exact hlast j g hg hpath
  rw [LeavesBroken, hinfo]
  refine ⟨hprobed, ?_⟩
  rintro ⟨-, -, -, -, -, -, -, hnone⟩
  exact hnone f (List.mem_filter.mpr ⟨List.mem_of_getElem? hf, hplay⟩) hprobed

end RdRs.Repair
