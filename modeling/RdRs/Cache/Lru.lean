/-
  `cache/eviction.rs` — `evict_disk_lru`, candidate by candidate.

  `Store.lruRemove` says what the pass leaves on disk; here the loop also records what became of
  every candidate (`Fate`), over an arbitrary list of candidates and with any behaviour of
  `remove_file`: it may answer by anything that has happened before.  The `u64` arithmetic is
  checked, so a pass that underflows has no result.

  * `lruReplay` — the calls of `remove_file` that a record shows, made again;
  * `lruLoop_spec` — the invariant of the traversal, assembled from the three ways a step can go
    (`LruSpec.stopped`, `.skipped`, `.tried`);
  * `evictLru_store` — on the store, the recorded loop leaves the files `Store.evictDiskLru` leaves;
  * `lru_removes_oldest_first` — what a pass removes, and what it leaves.
-/
import RdRs.Cache.Eviction

set_option linter.unusedVariables false

namespace RdRs.Cache

open RdRs.FileTree

/-! ## The loop, with a record -/

/-- What becomes of a candidate. -/
inductive Fate where
  /-- the loop had ended before it -/
  | unreached
  | inMap
  | young
  | failed
  | removed
deriving DecidableEq

/-- `remove_file` was called. -/
def Fate.tried : Fate → Bool
  | .failed => true
  | .removed => true
  | .unreached => false
  | .inMap => false
  | .young => false

/-- What the loop reads besides the candidates. -/
structure LruPass where
  cacheDir : Path
  containsKey : String → Bool
  threshold : Nat
  now : Nat

abbrev LruTrace := List (Candidate × Fate)

section Loop

variable {σ : Type} (remove : σ → Path → σ × Bool) (e : LruPass)

/-- One more entry in front of what the rest of the loop records. -/
def record (c : Candidate) (f : Fate) (rest : Option (LruTrace × σ)) : Option (LruTrace × σ) :=
  rest.map fun r => ((c, f) :: r.1, r.2)

/-- The loop of `evict_disk_lru`; `remove` is `remove_file` on whatever state the files are in. -/
def lruLoop (total : Nat) : List Candidate → Nat → σ → Option (LruTrace × σ)
  | [], freed, st => some ([], st)
  | c :: cs, freed, st => do
    let left ← ByteRanges.checkedSub total freed
    if left ≤ e.threshold then some ((c :: cs).map fun c => (c, .unreached), st)
    else if e.containsKey (pathToKey e.cacheDir c.path) then
      record c .inMap (lruLoop total cs freed st)
    else if e.now - c.atime < diskOrphanMinAgeSecs then
      record c .young (lruLoop total cs freed st)
    else if (remove st c.path).2 then
      record c .removed (lruLoop total cs (← ByteRanges.checkedAdd freed c.size) (remove st c.path).1)
    else record c .failed (lruLoop total cs freed (remove st c.path).1)

/-- The state after the calls of `remove_file` that a record shows, if each of them answers what is
    recorded. -/
def lruReplay : LruTrace → σ → Option σ
  | [], st => some st
  | (c, f) :: trace, st =>
    if f.tried then
      if (remove st c.path).2 = decide (f = .removed) then lruReplay trace (remove st c.path).1
      else none
    else lruReplay trace st

/-- The scan's `total += size`. -/
def lruTotal (candidates : List Candidate) : Option Nat :=
  candidates.foldl (fun acc c => do ByteRanges.checkedAdd (← acc) c.size) (some 0)

/-- `evict_disk_lru`, from the list the scan has made. -/
def evictLru (candidates : List Candidate) (st : σ) : Option (LruTrace × σ) := do
  let total ← lruTotal candidates
  if total ≤ e.threshold then some (candidates.map fun c => (c, .unreached), st)
  else lruLoop remove e total (candidates.insertionSort fun a b => a.atime ≤ b.atime) 0 st

/-- Without calls nothing happens. -/
theorem lruReplay_unreached (cs : List Candidate) (st : σ) :
    lruReplay remove (cs.map fun c => (c, .unreached)) st = some st := by
  induction cs with
  | nil => rfl
  | cons c cs ih => exact ih

end Loop

/-! ## What a step adds to the record -/

/-- Not in the map, and last accessed five minutes ago or earlier. -/
def LruPass.Removable (e : LruPass) (c : Candidate) : Prop :=
  e.containsKey (pathToKey e.cacheDir c.path) = false ∧ c.atime + diskOrphanMinAgeSecs ≤ e.now

/-- The sizes of the files that were removed. -/
def removedBytes (trace : LruTrace) : Nat :=
  (trace.map fun x => if x.2 = .removed then x.1.size else 0).sum

theorem removedBytes_cons (x : Candidate × Fate) (trace : LruTrace) :
    removedBytes (x :: trace) = (if x.2 = .removed then x.1.size else 0) + removedBytes trace := rfl

theorem removedBytes_unreached (cs : List Candidate) :
    removedBytes (cs.map fun c => (c, .unreached)) = 0 := by
  rw [removedBytes, List.map_map, List.sum_eq_zero_iff]
  intro n hn
  obtain ⟨c, -, rfl⟩ := List.mem_map.mp hn
  rfl

/-- What the record of the candidates `cs` says, when `freed` bytes were gone before them. -/
structure LruSpec (e : LruPass) (total freed : Nat) (cs : List Candidate) (trace : LruTrace) :
    Prop where
  candidates : trace.map Prod.fst = cs
  removable : ∀ x ∈ trace, x.2.tried = true → e.Removable x.1
  done : total - (freed + removedBytes trace) ≤ e.threshold ∨
    ∀ x ∈ trace, e.Removable x.1 → x.2.tried = true
  needed : ∀ A x B, trace = A ++ x :: B → x.2.tried = true →
    e.threshold < total - (freed + removedBytes A)
  inOrder : trace.Pairwise fun x y => e.Removable x.1 → x.2.tried = false → y.2.tried = false
  bounded : freed + removedBytes trace ≤ total

section Spec

variable {e : LruPass} {total freed : Nat} {c : Candidate} {cs : List Candidate} {trace : LruTrace}

/-- The loop ends here. -/
theorem LruSpec.stopped (hle : freed ≤ total) (hstop : total - freed ≤ e.threshold) :
    LruSpec e total freed cs (cs.map fun c => (c, .unreached)) := by
  have hun : ∀ x ∈ cs.map fun c => (c, Fate.unreached), x.2.tried = false := by
    intro x hx
    obtain ⟨c, -, rfl⟩ := List.mem_map.mp hx
    rfl
  refine ⟨?_, ?_, Or.inl ?_, ?_, ?_, ?_⟩
  · rw [List.map_map]
    exact List.map_id' cs
  · intro x hx htried
    exact absurd ((hun x hx).symm.trans htried) Bool.noConfusion
  · rw [removedBytes_unreached]
    exact hstop
  · intro A x B heq htried
    have hx : x ∈ cs.map fun c => (c, Fate.unreached) := by
      rw [heq]
      exact List.mem_append_right A List.mem_cons_self
    exact absurd ((hun x hx).symm.trans htried) Bool.noConfusion
  · refine List.pairwise_iff_forall_sublist.mpr fun {x y} hsub _ _ => ?_
    exact hun y (hsub.subset (by simp))
  · rw [removedBytes_unreached]
    exact hle

/-- A candidate in the map, or a young one, is passed over. -/
theorem LruSpec.skipped (h : LruSpec e total freed cs trace) {f : Fate} (hf : f.tried = false)
    (hc : ¬e.Removable c) : LruSpec e total freed (c :: cs) ((c, f) :: trace) := by
  have hne : f ≠ .removed := by
    rintro rfl
    exact absurd hf Bool.noConfusion
  have hbytes : ∀ l : LruTrace, removedBytes ((c, f) :: l) = removedBytes l := by
    intro l
    rw [removedBytes_cons, if_neg hne, Nat.zero_add]
  refine ⟨?_, ?_, ?_, ?_, ?_, ?_⟩
  · rw [List.map_cons, h.candidates]
  · intro x hx htried
    rcases List.mem_cons.mp hx with rfl | hx
    · exact absurd (hf.symm.trans htried) Bool.noConfusion
    · exact h.removable x hx htried
  · rw [hbytes]
    refine h.done.imp_right fun hall x hx hrem => ?_
    rcases List.mem_cons.mp hx with rfl | hx
    · exact absurd hrem hc
    · exact hall x hx hrem
  · intro A x B heq htried
    cases A with
    | nil =>
      obtain ⟨rfl, rfl⟩ := List.cons.inj heq
      exact absurd (hf.symm.trans htried) Bool.noConfusion
    | cons y A =>
      obtain ⟨rfl, rfl⟩ := List.cons.inj heq
      rw [hbytes]
      exact h.needed A x B rfl htried
  · exact List.pairwise_cons.mpr ⟨fun y _ hrem => absurd hrem hc, h.inOrder⟩
  · rw [hbytes]
    exact h.bounded

/-- A removable candidate is tried, and its size counts if it went. -/
theorem LruSpec.tried {f : Fate} (hf : f.tried = true)
    (h : LruSpec e total (freed + if f = .removed then c.size else 0) cs trace)
    (hc : e.Removable c) (hgo : e.threshold < total - freed) :
    LruSpec e total freed (c :: cs) ((c, f) :: trace) := by
  have hbytes : ∀ l : LruTrace, freed + removedBytes ((c, f) :: l)
      = (freed + if f = .removed then c.size else 0) + removedBytes l := by
    intro l
    rw [removedBytes_cons, Nat.add_assoc]
  refine ⟨?_, ?_, ?_, ?_, ?_, ?_⟩
  · rw [List.map_cons, h.candidates]
  · intro x hx htried
    rcases List.mem_cons.mp hx with rfl | hx
    · exact hc
    · exact h.removable x hx htried
  · rw [hbytes]
    refine h.done.imp_right fun hall x hx hrem => ?_
    rcases List.mem_cons.mp hx with rfl | hx
    · exact hf
    · exact hall x hx hrem
  · intro A x B heq htried
    cases A with
    | nil => exact hgo
    | cons y A =>
      obtain ⟨rfl, rfl⟩ := List.cons.inj heq
      rw [hbytes]
      exact h.needed A x B rfl htried
  · refine List.pairwise_cons.mpr ⟨fun y _ _ hno => ?_, h.inOrder⟩
    exact absurd (hno.symm.trans hf) Bool.noConfusion
  · rw [hbytes]
    exact h.bounded

end Spec

/-! ## The whole traversal -/

/-- **The invariant of the loop**: what is freed and what is still to come fits the total, so no
    subtraction underflows, the record keeps to `LruSpec`, and it is a record of the calls that were
    made.  Induction on the candidates. -/
theorem lruLoop_spec {σ : Type} (remove : σ → Path → σ × Bool) (e : LruPass) {total : Nat}
    (htotal : total < 2 ^ 64) : ∀ (cs : List Candidate) (freed : Nat) (st : σ),
    freed + (cs.map (·.size)).sum ≤ total →
    ∃ trace st', lruLoop remove e total cs freed st = some (trace, st') ∧
      LruSpec e total freed cs trace ∧ lruReplay remove trace st = some st' := by
  intro cs
  induction cs with
  | nil =>
    intro freed st hle
    refine ⟨[], st, rfl, ⟨rfl, ?_, Or.inr ?_, ?_, List.Pairwise.nil, hle⟩, rfl⟩
    · exact fun x hx => absurd hx List.not_mem_nil
    · exact fun x hx => absurd hx List.not_mem_nil
    · intro A x B heq
      exact absurd heq (by simp)
  | cons c cs ih =>
    intro freed st hle
    rw [List.map_cons, List.sum_cons] at hle
    rw [lruLoop, ByteRanges.checkedSub, if_pos (by omega)]
    show ∃ trace st', (if total - freed ≤ e.threshold then _ else _) = some (trace, st') ∧ _
    by_cases hstop : total - freed ≤ e.threshold
    · rw [if_pos hstop]
      exact ⟨_, st, rfl, LruSpec.stopped (by omega) hstop, lruReplay_unreached remove _ st⟩
    rw [if_neg hstop]
    by_cases hmap : e.containsKey (pathToKey e.cacheDir c.path) = true
    · obtain ⟨trace, st', heq, hspec, hreplay⟩ := ih freed st (by omega)
      rw [if_pos hmap, heq]
      refine ⟨_, st', rfl, hspec.skipped rfl fun hrem => ?_, hreplay⟩
      exact absurd (hrem.1.symm.trans hmap) Bool.noConfusion
    rw [if_neg hmap]
    by_cases hyoung : e.now - c.atime < diskOrphanMinAgeSecs
    · obtain ⟨trace, st', heq, hspec, hreplay⟩ := ih freed st (by omega)
      rw [if_pos hyoung, heq]
      refine ⟨_, st', rfl, hspec.skipped rfl fun hrem => ?_, hreplay⟩
      have := hrem.2
      omega
    have hrem : e.Removable c := by
      refine ⟨Bool.not_eq_true _ ▸ hmap, ?_⟩
      have hpos : 0 < diskOrphanMinAgeSecs := by decide
      omega
    rw [if_neg hyoung]
    cases hgone : (remove st c.path).2 with
    | true =>
      obtain ⟨trace, st', heq, hspec, hreplay⟩ :=
        ih (freed + c.size) (remove st c.path).1 (by omega)
      have hadd : ByteRanges.checkedAdd freed c.size = some (freed + c.size) := by
        rw [ByteRanges.checkedAdd, if_pos (by omega)]
      rw [if_pos rfl, hadd]
      show ∃ trace st', record c .removed (lruLoop remove e total cs (freed + c.size) _) = _ ∧ _
      rw [heq]
      refine ⟨_, st', rfl, LruSpec.tried rfl hspec hrem (by omega), ?_⟩
      exact (if_pos hgone).trans hreplay
    | false =>
      obtain ⟨trace, st', heq, hspec, hreplay⟩ := ih freed (remove st c.path).1 (by omega)
      rw [if_neg Bool.noConfusion, heq]
      refine ⟨_, st', rfl, LruSpec.tried rfl hspec hrem (by omega), ?_⟩
      exact (if_pos hgone).trans hreplay

/-- The checked sum is the sum where that fits, and nothing else. -/
theorem lruTotal_eq : ∀ (cs : List Candidate) (n : Nat), n < 2 ^ 64 →
    cs.foldl (fun acc c => do ByteRanges.checkedAdd (← acc) c.size) (some n)
      = if n + (cs.map (·.size)).sum < 2 ^ 64 then some (n + (cs.map (·.size)).sum) else none := by
  intro cs
  induction cs with
  | nil =>
    intro n hn
    rw [List.map_nil, List.sum_nil, Nat.add_zero, if_pos hn]
    rfl
  | cons c cs ih =>
    intro n hn
    rw [List.foldl_cons, List.map_cons, List.sum_cons, ← Nat.add_assoc]
    show cs.foldl _ (ByteRanges.checkedAdd n c.size) = _
    by_cases hadd : n + c.size < 2 ^ 64
    · rw [ByteRanges.checkedAdd, if_pos hadd, ih (n + c.size) hadd]
    · have hnone : ∀ l : List Candidate,
          l.foldl (fun acc c => do ByteRanges.checkedAdd (← acc) c.size) none = none := by
        intro l
        induction l with
        | nil => rfl
        | cons d l ihl => exact ihl
      rw [ByteRanges.checkedAdd, if_neg hadd, hnone, if_neg (by omega)]

/-- What a whole pass does: nothing can fail but the sum, and the record keeps to `LruSpec` over
    the candidates in the order of their access times. -/
theorem evictLru_spec {σ : Type} (remove : σ → Path → σ × Bool) (e : LruPass)
    (candidates : List Candidate) (st : σ) :
    if (candidates.map (·.size)).sum < 2 ^ 64 then
      ∃ cs trace st', evictLru remove e candidates st = some (trace, st') ∧ cs.Perm candidates ∧
        LruSpec e (candidates.map (·.size)).sum 0 cs trace ∧ lruReplay remove trace st = some st' ∧
        ((∀ x ∈ trace, x.2 = .unreached) ∨ cs.Pairwise fun a b => a.atime ≤ b.atime)
    else evictLru remove e candidates st = none := by
  have htotal := lruTotal_eq candidates 0 (by decide)
  rw [Nat.zero_add] at htotal
  rw [evictLru, lruTotal, htotal]
  split
  · rename_i hfits
    show ∃ cs trace st', (if (candidates.map (·.size)).sum ≤ e.threshold then _ else _) = _ ∧ _
    by_cases hlow : (candidates.map (·.size)).sum ≤ e.threshold
    · rw [if_pos hlow]
      refine ⟨candidates, _, st, rfl, List.Perm.refl _, LruSpec.stopped (Nat.zero_le _) ?_,
        lruReplay_unreached remove _ st, Or.inl fun x hx => ?_⟩
      · rwa [Nat.sub_zero]
      · obtain ⟨c, -, rfl⟩ := List.mem_map.mp hx
        rfl
    · rw [if_neg hlow]
      have hperm := List.perm_insertionSort (fun a b : Candidate => a.atime ≤ b.atime) candidates
      have hsum := (hperm.map (·.size)).sum_eq
      obtain ⟨trace, st', heq, hspec, hreplay⟩ := lruLoop_spec remove e hfits
        (candidates.insertionSort fun a b => a.atime ≤ b.atime) 0 st (by rw [hsum, Nat.zero_add])
      exact ⟨_, trace, st', heq, hperm, hspec, hreplay, Or.inr (List.pairwise_insertionSort _ _)⟩
  · rfl

/-! ## The pass on the store -/

/-- What the store's pass reads. -/
def Store.lruPass (s : Store) (threshold now : Nat) : LruPass :=
  ⟨s.dir.resolve, fun key => (s.map.lookup key).isSome, threshold, now⟩

/-- `remove_file` on the tree of files. -/
def removeLru (io : EvictIo) (fs : Fs) (path : Path) : Fs × Bool :=
  ((fs.remove path (io.removeLruOk path)).1,
    decide ((fs.remove path (io.removeLruOk path)).2 = .removed))

/-- Where the recorded loop has a result, its files are those of `Store.lruRemove`. -/
theorem lruLoop_store (s : Store) (threshold now : Nat) (io : EvictIo) (total : Nat) :
    ∀ (cs : List Candidate) (freed : Nat) (fs : Fs) (trace : LruTrace) (fs' : Fs),
      lruLoop (removeLru io) (s.lruPass threshold now) total cs freed fs = some (trace, fs') →
      fs' = s.lruRemove threshold now io total cs freed fs := by
  intro cs
  induction cs with
  | nil =>
    intro freed fs trace fs' h
    exact (Prod.mk.inj (Option.some.inj h)).2.symm
  | cons c cs ih =>
    intro freed fs trace fs' h
    -- one more entry in the record leaves the files as they are
    have hrec : ∀ {f : Fate} {rest : Option (LruTrace × Fs)},
        record c f rest = some (trace, fs') → ∃ trace', rest = some (trace', fs') := by
      intro f rest hr
      obtain ⟨r, hrest, hr⟩ := Option.map_eq_some_iff.mp hr
      exact ⟨r.1, by rw [hrest, ← (Prod.mk.inj hr).2]⟩
    obtain ⟨left, hleft, h⟩ := Option.bind_eq_some_iff.mp h
    obtain rfl : left = total - freed := by
      unfold ByteRanges.checkedSub at hleft
      split at hleft
      · exact (Option.some.inj hleft).symm
      · exact absurd hleft (by simp)
    rw [Store.lruRemove]
    change (if total - freed ≤ threshold then _ else _) = _ at h
    by_cases hstop : total - freed ≤ threshold
    · rw [if_pos hstop] at h ⊢
      exact (Prod.mk.inj (Option.some.inj h)).2.symm
    rw [if_neg hstop] at h ⊢
    change (if (s.map.lookup (pathToKey s.dir.resolve c.path)).isSome = true then _ else _) = _ at h
    by_cases hmap : (s.map.lookup (pathToKey s.dir.resolve c.path)).isSome = true
    · rw [if_pos hmap] at h ⊢
      obtain ⟨trace', h⟩ := hrec h
      exact ih freed fs trace' fs' h
    rw [if_neg hmap] at h ⊢
    change (if now - c.atime < diskOrphanMinAgeSecs then _ else _) = _ at h
    by_cases hyoung : now - c.atime < diskOrphanMinAgeSecs
    · rw [if_pos hyoung] at h ⊢
      obtain ⟨trace', h⟩ := hrec h
      exact ih freed fs trace' fs' h
    rw [if_neg hyoung] at h ⊢
    unfold removeLru at h
    rcases hr : fs.remove c.path (io.removeLruOk c.path) with ⟨t, r⟩
    rw [hr] at h
    cases r with
    | removed =>
      rw [if_pos (by rfl)] at h
      obtain ⟨freed', hadd, h⟩ := Option.bind_eq_some_iff.mp h
      obtain rfl : freed' = freed + c.size := by
        unfold ByteRanges.checkedAdd at hadd
        split at hadd
        · exact (Option.some.inj hadd).symm
        · exact absurd hadd (by simp)
      obtain ⟨trace', h⟩ := hrec h
      exact ih _ t trace' fs' h
    | notFound | failed =>
      rw [if_neg (by simp)] at h
      obtain ⟨trace', h⟩ := hrec h
      exact ih freed t trace' fs' h

/-- **On the store, the recorded pass leaves the files that `evictDiskLru` leaves.** -/
theorem evictLru_store (s : Store) (threshold now : Nat) (io : EvictIo)
    (hfits : ((s.lruCandidates io).map (·.size)).sum < 2 ^ 64) :
    ∃ trace, evictLru (removeLru io) (s.lruPass threshold now) (s.lruCandidates io) s.fs
      = some (trace, (s.evictDiskLru threshold now io).fs) := by
  have hspec := evictLru_spec (removeLru io) (s.lruPass threshold now) (s.lruCandidates io) s.fs
  rw [if_pos hfits] at hspec
  obtain ⟨cs, trace, fs', heq, -⟩ := hspec
  refine ⟨trace, ?_⟩
  rw [heq]
  rw [evictLru, lruTotal, lruTotal_eq _ 0 (by decide), Nat.zero_add, if_pos hfits] at heq
  change (if _ ≤ threshold then _ else _) = _ at heq
  unfold Store.evictDiskLru
  simp only
  split at heq
  · rename_i hlow
    rw [if_pos hlow]
    rw [← (Prod.mk.inj (Option.some.inj heq)).2]
  · rename_i hlow
    rw [if_neg hlow]
    rw [lruLoop_store s threshold now io _ _ 0 s.fs trace fs' heq]

/-! ## What a pass removes -/

theorem Fate.tried_iff (f : Fate) : f.tried = true ↔ f = .removed ∨ f = .failed := by
  cases f <;> decide

/-- In a record over candidates in the order of their access times, a removed file is no younger
    than a removable one that was not tried. -/
theorem LruSpec.oldest_first {e : LruPass} {total freed : Nat} {cs : List Candidate}
    {trace : LruTrace} (h : LruSpec e total freed cs trace)
    (hsorted : cs.Pairwise fun a b => a.atime ≤ b.atime) {c d : Candidate} {f : Fate}
    (hc : (c, .removed) ∈ trace) (hd : (d, f) ∈ trace) (hrem : e.Removable d)
    (hf : f.tried = false) : c.atime ≤ d.atime := by
  rw [← h.candidates, List.pairwise_map] at hsorted
  refine List.Pairwise.forall_of_forall_of_flip (R := fun x y : Candidate × Fate =>
    x.2 = .removed → e.Removable y.1 → y.2.tried = false → x.1.atime ≤ y.1.atime)
    (fun x _ _ _ _ => Nat.le_refl _) ?_ ?_ hc hd rfl hrem hf
  · exact hsorted.imp fun hle _ _ _ => hle
  · -- the other way round, the loop had ended at the untried one
    refine h.inOrder.imp fun hlater hy hx hno => ?_
    have := hlater hx hno
    rw [hy] at this
    exact absurd this Bool.noConfusion

/-- **The pass removes a minimal set, oldest first.**  Only the sum of all sizes can overflow, and
    then the loop is not entered; otherwise no subtraction underflows, and for the record of the
    candidates: `remove_file` was called for those that are recorded as removed or failed, in this
    order, with these answers, and for no others; what is removed is not in the map and old enough;
    at the end the rest is below the threshold or every removable candidate was tried; a candidate is
    tried only while the rest is above the threshold; and no removed file is younger than a removable
    one that was not tried. -/
theorem lru_removes_oldest_first {σ : Type} (remove : σ → Path → σ × Bool) (e : LruPass)
    (candidates : List Candidate) (st : σ) :
    match evictLru remove e candidates st with
    | none => 2 ^ 64 ≤ (candidates.map (·.size)).sum
    | some (trace, st') =>
      (trace.map Prod.fst).Perm candidates ∧
      lruReplay remove trace st = some st' ∧
      removedBytes trace ≤ (candidates.map (·.size)).sum ∧
      (∀ c, (c, .removed) ∈ trace →
        e.containsKey (pathToKey e.cacheDir c.path) = false ∧ c.atime + 300 ≤ e.now) ∧
      ((candidates.map (·.size)).sum - removedBytes trace ≤ e.threshold ∨
        ∀ c f, (c, f) ∈ trace → e.Removable c → f = .removed ∨ f = .failed) ∧
      (∀ A x B, trace = A ++ x :: B → x.2 = .removed ∨ x.2 = .failed →
        e.threshold < (candidates.map (·.size)).sum - removedBytes A) ∧
      (∀ c d f, (c, .removed) ∈ trace → (d, f) ∈ trace → e.Removable d →
        ¬(f = .removed ∨ f = .failed) → c.atime ≤ d.atime) := by
  have hspec := evictLru_spec remove e candidates st
  split at hspec
  · obtain ⟨cs, trace, st', heq, hperm, hspec, hreplay, hsorted⟩ := hspec
    rw [heq]
    refine ⟨?_, hreplay, ?_, fun c hc => hspec.removable _ hc rfl, ?_, fun A x B hsplit hx => ?_,
      fun c d f hc hd hrem hf => ?_⟩
    · rw [hspec.candidates]
      exact hperm
    · have := hspec.bounded
      omega
    · have hdone := hspec.done
      rw [Nat.zero_add] at hdone
      exact hdone.imp_right fun hall c f hx hrem => f.tried_iff.mp (hall (c, f) hx hrem)
    · have hneeded := hspec.needed A x B hsplit ((Fate.tried_iff _).mpr hx)
      rwa [Nat.zero_add] at hneeded
    · rw [← f.tried_iff, Bool.not_eq_true] at hf
      rcases hsorted with hnone | hsorted
      · exact absurd (hnone _ hc) Fate.noConfusion
      · exact hspec.oldest_first hsorted hc hd hrem hf
  · rename_i hbig
    rw [hspec]
    exact Nat.le_of_not_lt hbig

/-- Six candidates over a threshold of 30: one is in the map, one cannot be removed, and the loop
    ends before the youngest. -/
example : (evictLru (fun (_ : Unit) path => ((), decide (path ≠ ["c", "stuck"])))
    ⟨["c"], fun key => decide (key = "used"), 30, 1000⟩
    [⟨50, ["c", "late"], 10⟩, ⟨0, ["c", "old"], 10⟩, ⟨1, ["c", "used"], 10⟩, ⟨900, ["c", "young"], 10⟩,
      ⟨2, ["c", "stuck"], 10⟩, ⟨30, ["c", "mid"], 10⟩] ()).map (fun r => r.1.map (·.2))
    = some [.removed, .inMap, .failed, .removed, .removed, .unreached] := by decide

end RdRs.Cache
