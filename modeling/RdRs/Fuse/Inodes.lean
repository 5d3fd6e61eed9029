/-
  The inode maps of `fuse/fs_helpers.rs` and `fuse/fs.rs`, step by step.

  `get_or_assign_torrent_inode` holds the entry of its key while it takes the next number, fills
  `inode_to_key` and then `key_to_inode`; calls for other keys go on meanwhile.  The cleanup task goes
  the other way: it takes the key out of `key_to_inode`, for which it waits for the entry, and then the
  inode out of `inode_to_key`.  Between the two steps the key may get a new inode.

  * `Inodes.Inv` — an inode is issued to one key and for good (`issued`), and a name in `inode_to_key`
    is matched by `key_to_inode`, or by a call that is not at its end, or by a removal that is half
    done.
  * `step_inv`, one operation after the other; `inode_resolves` puts a whole run together.
  * `getOrAssign_steps` — a call without anything in between is `InodeTable.getOrAssign`.

  The number of an inode is a `Nat` as in `InodeTable`: a counter of 64 bits does not come round.
-/
import RdRs.Lib.Runs
import RdRs.Fuse.AllDir

set_option linter.unusedVariables false

namespace RdRs.Fuse

open RdRs.Runs

/-! ## Steps -/

/-- The maps, the calls and removals under way, and what has been. -/
structure Inodes where
  keyToInode : AList (fun _ : String => Nat)
  inodeToKey : AList (fun _ : Nat => String)
  next : Nat
  /-- the keys whose entry a call holds, with the number it has taken, and whether `inode_to_key` has
      it -/
  calls : AList (fun _ : String => Nat × Bool)
  /-- the inodes whose removal is half done -/
  halfDone : List Nat
  /-- the key each number was taken for -/
  issued : AList (fun _ : Nat => String)
  /-- what calls have returned, for which key -/
  returned : List (String × Nat)

/-- The maps of a new `RdFs` -/
def Inodes.empty : Inodes where
  keyToInode := ∅
  inodeToKey := ∅
  next := inodeTorrentBase
  calls := ∅
  halfDone := []
  issued := ∅
  returned := []

/-- A step of a call of `get_or_assign`, or of a cleanup. -/
inductive InodeStep where
  /-- a call gets the entry of its key: it returns what is there or takes the next number -/
  | enter (key : String)
  /-- `inode_to_key.insert(inode, key)` -/
  | fill (key : String)
  /-- the closure ends: the entry is filled and the call returns -/
  | finish (key : String)
  /-- `key_to_inode.remove(&access_key)` -/
  | take (key : String)
  /-- `inode_to_key.remove(&inode)` -/
  | drop (inode : Nat)

namespace Inodes

/-- The call returns the inode that is there. -/
def answer (s : Inodes) (key : String) (inode : Nat) : Inodes :=
  { s with returned := (key, inode) :: s.returned }

/-- `next_torrent_inode.fetch_add(1)`, with the entry held -/
def allocate (s : Inodes) (key : String) : Inodes :=
  { s with
    next := s.next + 1
    calls := s.calls.insert key (s.next, false)
    issued := s.issued.insert s.next key }

/-- The call writes the second map. -/
def fill (s : Inodes) (key : String) (inode : Nat) : Inodes :=
  { s with
    inodeToKey := s.inodeToKey.insert inode key
    calls := s.calls.insert key (inode, true) }

/-- The call fills the entry it holds, and returns. -/
def finish (s : Inodes) (key : String) (inode : Nat) : Inodes :=
  { s with
    keyToInode := s.keyToInode.insert key inode
    calls := s.calls.erase key
    returned := (key, inode) :: s.returned }

/-- The cleanup takes the key out of the first map. -/
def take (s : Inodes) (key : String) (inode : Nat) : Inodes :=
  { s with
    keyToInode := s.keyToInode.erase key
    halfDone := inode :: s.halfDone }

/-- The cleanup takes the inode out of the second map. -/
def dropInode (s : Inodes) (inode : Nat) : Inodes :=
  { s with
    inodeToKey := s.inodeToKey.erase inode
    halfDone := s.halfDone.erase inode }

end Inodes

/-- One step; `none` is a step that has to wait or is not due. -/
def inodeStep (s : Inodes) : InodeStep → Option Inodes
  | .enter key =>
    if key ∈ s.calls then none
    else match s.keyToInode.lookup key with
      | some inode => some (s.answer key inode)
      | none => some (s.allocate key)
  | .fill key =>
    match s.calls.lookup key with
    | some (inode, false) => some (s.fill key inode)
    | _ => none
  | .finish key =>
    match s.calls.lookup key with
    | some (inode, true) => some (s.finish key inode)
    | _ => none
  | .take key =>
    if key ∈ s.calls then none
    else match s.keyToInode.lookup key with
      | some inode => some (s.take key inode)
      | none => some s
  | .drop inode => if inode ∈ s.halfDone then some (s.dropInode inode) else none

/-- `inode_to_access_key` -/
def inodeToAccessKey (s : Inodes) (inode : Nat) : Option String := s.inodeToKey.lookup inode

/-! ## What can be told of a step -/

/-- A step that needs the entry of its key, and looks at what `key_to_inode` has. -/
theorem entry_cases {s s' : Inodes} {key : String} {found : Nat → Inodes} {absent : Inodes}
    (h : (if key ∈ s.calls then none
      else match s.keyToInode.lookup key with
        | some inode => some (found inode)
        | none => some absent) = some s') :
    key ∉ s.calls ∧ ((∃ inode, s.keyToInode.lookup key = some inode ∧ s' = found inode) ∨
      (s.keyToInode.lookup key = none ∧ s' = absent)) := by
  split at h
  · exact absurd h.symm (Option.some_ne_none s')
  · rename_i hfree
    refine ⟨hfree, ?_⟩
    cases hkey : s.keyToInode.lookup key with
    | some inode =>
      rw [hkey] at h
      exact Or.inl ⟨inode, rfl, (Option.some.inj h).symm⟩
    | none =>
      rw [hkey] at h
      exact Or.inr ⟨rfl, (Option.some.inj h).symm⟩

theorem enter_cases {s s' : Inodes} {key : String} (h : inodeStep s (.enter key) = some s') :
    key ∉ s.calls ∧ ((∃ inode, s.keyToInode.lookup key = some inode ∧ s' = s.answer key inode) ∨
      (s.keyToInode.lookup key = none ∧ s' = s.allocate key)) := by
  rw [inodeStep] at h
  exact entry_cases h

theorem fill_cases {s s' : Inodes} {key : String} (h : inodeStep s (.fill key) = some s') :
    ∃ inode, s.calls.lookup key = some (inode, false) ∧ s' = s.fill key inode := by
  rw [inodeStep] at h
  split at h
  · rename_i inode hcall
    exact ⟨inode, hcall, (Option.some.inj h).symm⟩
  · exact absurd h.symm (Option.some_ne_none s')

theorem finish_cases {s s' : Inodes} {key : String} (h : inodeStep s (.finish key) = some s') :
    ∃ inode, s.calls.lookup key = some (inode, true) ∧ s' = s.finish key inode := by
  rw [inodeStep] at h
  split at h
  · rename_i inode hcall
    exact ⟨inode, hcall, (Option.some.inj h).symm⟩
  · exact absurd h.symm (Option.some_ne_none s')

theorem take_cases {s s' : Inodes} {key : String} (h : inodeStep s (.take key) = some s') :
    key ∉ s.calls ∧ ((∃ inode, s.keyToInode.lookup key = some inode ∧ s' = s.take key inode) ∨
      (s.keyToInode.lookup key = none ∧ s' = s)) := by
  rw [inodeStep] at h
  exact entry_cases h

theorem drop_cases {s s' : Inodes} {inode : Nat} (h : inodeStep s (.drop inode) = some s') :
    inode ∈ s.halfDone ∧ s' = s.dropInode inode := by
  rw [inodeStep] at h
  split at h
  · rename_i hhalf
    exact ⟨hhalf, (Option.some.inj h).symm⟩
  · exact absurd h.symm (Option.some_ne_none s')

/-! ## The invariant -/

namespace Inodes

/-- What holds in every state. -/
structure Inv (s : Inodes) : Prop where
  /-- numbers are taken in order -/
  below : ∀ i k, s.issued.lookup i = some k → i < s.next
  /-- a key's inode is issued to it, names it, and is not being removed -/
  keyed : ∀ k i, s.keyToInode.lookup k = some i →
    s.issued.lookup i = some k ∧ s.inodeToKey.lookup i = some k ∧ i ∉ s.halfDone
  /-- an inode's name is the key it was issued to, and who answers for it -/
  named : ∀ i k, s.inodeToKey.lookup i = some k → s.issued.lookup i = some k ∧
    (s.keyToInode.lookup k = some i ∨ s.calls.lookup k = some (i, true) ∨ i ∈ s.halfDone)
  /-- a call holds the empty entry of its key, with a number of its own -/
  called : ∀ k i b, s.calls.lookup k = some (i, b) → s.issued.lookup i = some k ∧
    s.keyToInode.lookup k = none ∧ i ∉ s.halfDone ∧ (b = true → s.inodeToKey.lookup i = some k)
  removed : ∀ i ∈ s.halfDone, ∃ k, s.issued.lookup i = some k
  told : ∀ k i, (k, i) ∈ s.returned → s.issued.lookup i = some k

/-- No inode is given out yet. -/
theorem empty_inv : empty.Inv where
  below i k h := absurd h (by simp [empty])
  keyed k i h := absurd h (by simp [empty])
  named i k h := absurd h (by simp [empty])
  called k i b h := absurd h (by simp [empty])
  removed i h := absurd h List.not_mem_nil
  told k i h := absurd h List.not_mem_nil

variable {s : Inodes}

/-- The entry of a key that no call holds. -/
theorem lookup_none_of_free {key : String} (h : key ∉ s.calls) : s.calls.lookup key = none :=
  AList.lookup_eq_none.mpr h

/-- A call that finds its inode keeps the invariant. -/
theorem Inv.answer (h : s.Inv) {key : String} {inode : Nat}
    (hkey : s.keyToInode.lookup key = some inode) : (s.answer key inode).Inv :=
  { h with
    told := by
      intro k i hmem
      rcases List.mem_cons.mp hmem with heq | hmem
      · obtain ⟨rfl, rfl⟩ := Prod.mk.inj heq
        exact (h.keyed _ _ hkey).1
      · exact h.told k i hmem }

/-- A number that is not taken yet. -/
theorem Inv.next_fresh (h : s.Inv) {i : Nat} {k : String} (hi : s.issued.lookup i = some k) :
    i ≠ s.next := (h.below i k hi).ne

/-- Taking the next number keeps the invariant. -/
theorem Inv.allocate (h : s.Inv) {key : String} (hfree : key ∉ s.calls)
    (hkey : s.keyToInode.lookup key = none) : (s.allocate key).Inv := by
  have hnone := lookup_none_of_free hfree
  -- what was issued stays issued
  have hkeep : ∀ i k, s.issued.lookup i = some k →
      (s.issued.insert s.next key).lookup i = some k := fun i k hi => by
    rw [AList.lookup_insert_ne (h.next_fresh hi), hi]
  refine ⟨fun i k hi => ?_, fun k i hi => ?_, fun i k hi => ?_, fun k i b hc => ?_, fun i hi => ?_,
    fun k i hmem => hkeep i k (h.told k i hmem)⟩
  · show i < s.next + 1
    by_cases hnext : i = s.next
    · omega
    · rw [show (s.allocate key).issued = s.issued.insert s.next key from rfl,
        AList.lookup_insert_ne hnext] at hi
      have hlt := h.below i k hi
      omega
  · obtain ⟨hissued, hname, hhalf⟩ := h.keyed k i hi
    exact ⟨hkeep i k hissued, hname, hhalf⟩
  · obtain ⟨hissued, hwho⟩ := h.named i k hi
    refine ⟨hkeep i k hissued, ?_⟩
    rcases hwho with hk | hc | hhalf
    · exact Or.inl hk
    · have hne : k ≠ key := by
        rintro rfl
        rw [hnone] at hc
        exact Option.some_ne_none _ hc.symm
      exact Or.inr (Or.inl ((AList.lookup_insert_ne hne).trans hc))
    · exact Or.inr (Or.inr hhalf)
  · by_cases hk : k = key
    · subst hk
      rw [show (s.allocate k).calls.lookup k = some (s.next, false) from AList.lookup_insert _,
        Option.some.injEq, Prod.mk.injEq] at hc
      obtain ⟨rfl, rfl⟩ := hc
      refine ⟨AList.lookup_insert _, hkey, fun hhalf => ?_, fun hb => absurd hb Bool.false_ne_true⟩
      obtain ⟨k', hk'⟩ := h.removed _ hhalf
      exact h.next_fresh hk' rfl
    · rw [show (s.allocate key).calls.lookup k = s.calls.lookup k from
        AList.lookup_insert_ne hk] at hc
      obtain ⟨hissued, hrest⟩ := h.called k i b hc
      exact ⟨hkeep i k hissued, hrest⟩
  · obtain ⟨k, hk⟩ := h.removed i hi
    exact ⟨k, hkeep i k hk⟩

/-- Writing the second map keeps the invariant. -/
theorem Inv.fill (h : s.Inv) {key : String} {inode : Nat}
    (hcall : s.calls.lookup key = some (inode, false)) : (s.fill key inode).Inv := by
  obtain ⟨hissued, hempty, hhalf, -⟩ := h.called key inode false hcall
  -- the names of other inodes are as before
  have hother : ∀ i, i ≠ inode → (s.inodeToKey.insert inode key).lookup i = s.inodeToKey.lookup i :=
    fun i hi => AList.lookup_insert_ne hi
  refine ⟨h.below, fun k i hi => ?_, fun i k hi => ?_, fun k i b hc => ?_, h.removed, h.told⟩
  · obtain ⟨hiss, hname, hfree⟩ := h.keyed k i hi
    refine ⟨hiss, ?_, hfree⟩
    have hne : i ≠ inode := by
      rintro rfl
      have hkk : k = key := Option.some.inj (hiss.symm.trans hissued)
      have hold : s.keyToInode.lookup k = some i := hi
      rw [hkk, hempty] at hold
      exact Option.some_ne_none _ hold.symm
    exact (hother i hne).trans hname
  · by_cases heq : i = inode
    · subst heq
      rw [show (s.fill key i).inodeToKey.lookup i = some key from AList.lookup_insert _,
        Option.some.injEq] at hi
      subst hi
      exact ⟨hissued, Or.inr (Or.inl (AList.lookup_insert _))⟩
    · rw [show (s.fill key inode).inodeToKey.lookup i = s.inodeToKey.lookup i from hother i heq] at hi
      obtain ⟨hiss, hwho⟩ := h.named i k hi
      refine ⟨hiss, hwho.imp_right fun hwho => hwho.imp_left fun hc => ?_⟩
      have hne : k ≠ key := by
        rintro rfl
        rw [hcall] at hc
        exact absurd (Prod.mk.inj (Option.some.inj hc)).2 (by decide)
      exact (AList.lookup_insert_ne hne).trans hc
  · by_cases hk : k = key
    · subst hk
      rw [show (s.fill k inode).calls.lookup k = some (inode, true) from AList.lookup_insert _,
        Option.some.injEq, Prod.mk.injEq] at hc
      obtain ⟨rfl, rfl⟩ := hc
      exact ⟨hissued, hempty, hhalf, fun _ => AList.lookup_insert _⟩
    · rw [show (s.fill key inode).calls.lookup k = s.calls.lookup k from
        AList.lookup_insert_ne hk] at hc
      obtain ⟨hiss, hnone, hfree, hname⟩ := h.called k i b hc
      refine ⟨hiss, hnone, hfree, fun hb => ?_⟩
      have hne : i ≠ inode := by
        rintro rfl
        exact hk (Option.some.inj (hiss.symm.trans hissued))
      exact (hother i hne).trans (hname hb)

/-- The end of a call keeps the invariant: both maps are written by then. -/
theorem Inv.finish (h : s.Inv) {key : String} {inode : Nat}
    (hcall : s.calls.lookup key = some (inode, true)) : (s.finish key inode).Inv := by
  obtain ⟨hissued, hempty, hhalf, hnamed⟩ := h.called key inode true hcall
  refine ⟨h.below, fun k i hi => ?_, fun i k hi => ?_, fun k i b hc => ?_, h.removed,
    fun k i hmem => ?_⟩
  · by_cases hk : k = key
    · subst hk
      rw [show (s.finish k inode).keyToInode.lookup k = some inode from AList.lookup_insert _,
        Option.some.injEq] at hi
      subst hi
      exact ⟨hissued, hnamed rfl, hhalf⟩
    · rw [show (s.finish key inode).keyToInode.lookup k = s.keyToInode.lookup k from
        AList.lookup_insert_ne hk] at hi
      exact h.keyed k i hi
  · obtain ⟨hiss, hwho⟩ := h.named i k hi
    refine ⟨hiss, ?_⟩
    by_cases hk : k = key
    · subst hk
      rcases hwho with hki | hc | hfree
      · rw [hempty] at hki
        exact absurd hki.symm (Option.some_ne_none i)
      · rw [hcall, Option.some.injEq, Prod.mk.injEq] at hc
        rw [← hc.1]
        exact Or.inl (AList.lookup_insert _)
      · exact Or.inr (Or.inr hfree)
    · rcases hwho with hki | hc | hfree
      · exact Or.inl ((AList.lookup_insert_ne hk).trans hki)
      · exact Or.inr (Or.inl ((AList.lookup_erase_ne hk).trans hc))
      · exact Or.inr (Or.inr hfree)
  · have hk : k ≠ key := by
      rintro rfl
      rw [show (s.finish k inode).calls.lookup k = none from AList.lookup_erase _ _] at hc
      exact Option.some_ne_none _ hc.symm
    rw [show (s.finish key inode).calls.lookup k = s.calls.lookup k from AList.lookup_erase_ne hk] at hc
    obtain ⟨hiss, hnone, hrest⟩ := h.called k i b hc
    exact ⟨hiss, (AList.lookup_insert_ne hk).trans hnone, hrest⟩
  · rcases List.mem_cons.mp hmem with heq | hmem
    · obtain ⟨rfl, rfl⟩ := Prod.mk.inj heq
      exact hissued
    · exact h.told k i hmem

/-- Taking a key out keeps the invariant: its inode is half done. -/
theorem Inv.take (h : s.Inv) {key : String} {inode : Nat} (hfree : key ∉ s.calls)
    (hkey : s.keyToInode.lookup key = some inode) : (s.take key inode).Inv := by
  obtain ⟨hissued, hname, hhalf⟩ := h.keyed key inode hkey
  -- another key's inode is another inode
  have hother : ∀ k i, k ≠ key → s.issued.lookup i = some k → i ≠ inode := by
    rintro k i hk hi rfl
    exact hk (Option.some.inj (hi.symm.trans hissued))
  refine ⟨h.below, fun k i hi => ?_, fun i k hi => ?_, fun k i b hc => ?_, fun i hi => ?_, h.told⟩
  · have hk : k ≠ key := by
      rintro rfl
      rw [show (s.take k inode).keyToInode.lookup k = none from AList.lookup_erase _ _] at hi
      exact Option.some_ne_none _ hi.symm
    rw [show (s.take key inode).keyToInode.lookup k = s.keyToInode.lookup k from
      AList.lookup_erase_ne hk] at hi
    obtain ⟨hiss, hnm, hnot⟩ := h.keyed k i hi
    exact ⟨hiss, hnm, fun hmem => (List.mem_cons.mp hmem).elim (hother k i hk hiss) hnot⟩
  · obtain ⟨hiss, hwho⟩ := h.named i k hi
    refine ⟨hiss, ?_⟩
    rcases hwho with hki | hc | hmem
    · by_cases hk : k = key
      · subst hk
        rw [hkey, Option.some.injEq] at hki
        exact Or.inr (Or.inr (List.mem_cons.mpr (Or.inl hki.symm)))
      · exact Or.inl ((AList.lookup_erase_ne hk).trans hki)
    · exact Or.inr (Or.inl hc)
    · exact Or.inr (Or.inr (List.mem_cons_of_mem _ hmem))
  · have hk : k ≠ key := by
      rintro rfl
      rw [show (s.take k inode).calls.lookup k = none from lookup_none_of_free hfree] at hc
      exact Option.some_ne_none _ hc.symm
    obtain ⟨hiss, hnone, hnot, hnm⟩ := h.called k i b hc
    exact ⟨hiss, (AList.lookup_erase_ne hk).trans hnone,
      fun hmem => (List.mem_cons.mp hmem).elim (hother k i hk hiss) hnot, hnm⟩
  · rcases List.mem_cons.mp hi with rfl | hi
    · exact ⟨key, hissued⟩
    · exact h.removed i hi

/-- The end of a removal keeps the invariant. -/
theorem Inv.dropInode (h : s.Inv) {inode : Nat} (hmem : inode ∈ s.halfDone) :
    (s.dropInode inode).Inv := by
  have hsub : ∀ i, i ∈ s.halfDone.erase inode → i ∈ s.halfDone := fun i hi => List.mem_of_mem_erase hi
  -- what is not being removed is not the inode
  have hkeep : ∀ i, i ∉ s.halfDone → (s.inodeToKey.erase inode).lookup i = s.inodeToKey.lookup i := by
    intro i hi
    refine AList.lookup_erase_ne ?_
    rintro rfl
    exact hi hmem
  refine ⟨h.below, fun k i hi => ?_, fun i k hi => ?_, fun k i b hc => ?_,
    fun i hi => h.removed i (hsub i hi), h.told⟩
  · obtain ⟨hiss, hname, hnot⟩ := h.keyed k i hi
    exact ⟨hiss, (hkeep i hnot).trans hname, fun hi => hnot (hsub i hi)⟩
  · have hne : i ≠ inode := by
      rintro rfl
      rw [show (s.dropInode i).inodeToKey.lookup i = none from AList.lookup_erase _ _] at hi
      exact Option.some_ne_none _ hi.symm
    rw [show (s.dropInode inode).inodeToKey.lookup i = s.inodeToKey.lookup i from
      AList.lookup_erase_ne hne] at hi
    obtain ⟨hiss, hwho⟩ := h.named i k hi
    exact ⟨hiss, hwho.imp_right fun hwho => hwho.imp_right fun hmem =>
      (List.mem_erase_of_ne hne).mpr hmem⟩
  · obtain ⟨hiss, hnone, hnot, hname⟩ := h.called k i b hc
    exact ⟨hiss, hnone, fun hi => hnot (hsub i hi), fun hb => (hkeep i hnot).trans (hname hb)⟩

/-- **One step keeps the invariant.** -/
theorem step_inv {s' : Inodes} (e : InodeStep) (h : s.Inv) (hstep : inodeStep s e = some s') :
    s'.Inv := by
  cases e with
  | enter key =>
    obtain ⟨hfree, ⟨inode, hkey, rfl⟩ | ⟨hkey, rfl⟩⟩ := enter_cases hstep
    · exact h.answer hkey
    · exact h.allocate hfree hkey
  | fill key =>
    obtain ⟨inode, hcall, rfl⟩ := fill_cases hstep
    exact h.fill hcall
  | finish key =>
    obtain ⟨inode, hcall, rfl⟩ := finish_cases hstep
    exact h.finish hcall
  | take key =>
    obtain ⟨hfree, ⟨inode, hkey, rfl⟩ | ⟨-, rfl⟩⟩ := take_cases hstep
    · exact h.take hfree hkey
    · exact h
  | drop inode =>
    obtain ⟨hmem, rfl⟩ := drop_cases hstep
    exact h.dropInode hmem

/-- **Every reachable state has it.** -/
theorem run_invariant {es : List InodeStep} (h : run inodeStep empty es = some s) : s.Inv :=
  run_inv' (fun s e t hs ht => step_inv e hs ht) es empty s empty_inv h

/-! ## What follows -/

/-- An inode that was returned for a key resolves to that key or to nothing. -/
theorem Inv.resolves (h : s.Inv) {key : String} {inode : Nat} (hret : (key, inode) ∈ s.returned) :
    inodeToAccessKey s inode = some key ∨ inodeToAccessKey s inode = none := by
  cases hname : inodeToAccessKey s inode with
  | none => exact Or.inr rfl
  | some k =>
    have hk := (h.named inode k hname).1
    rw [h.told key inode hret, Option.some.injEq] at hk
    exact Or.inl (congrArg some hk.symm)

/-- With no removal half done, the maps are inverse to each other, outside the entries that calls
    hold. -/
theorem Inv.inverse (h : s.Inv) (hhalf : s.halfDone = []) {key : String} (hfree : key ∉ s.calls)
    (inode : Nat) :
    s.keyToInode.lookup key = some inode ↔ s.inodeToKey.lookup inode = some key := by
  constructor
  · exact fun hk => (h.keyed key inode hk).2.1
  · intro hi
    rcases (h.named inode key hi).2 with hk | hc | hmem
    · exact hk
    · rw [lookup_none_of_free hfree] at hc
      exact absurd hc.symm (Option.some_ne_none _)
    · rw [hhalf] at hmem
      exact absurd hmem List.not_mem_nil

end Inodes

/-- **An inode never resolves to another torrent.**  In every state of every interleaving of calls and
    removals: an inode that was ever returned for a key resolves to that key or to nothing; no two keys
    were ever given one inode, nor have one now; and with no removal half done the maps are inverse to
    each other, at every key whose entry no call holds. -/
theorem inode_resolves (es : List InodeStep) : ∀ s ∈ run inodeStep Inodes.empty es,
    (∀ key inode, (key, inode) ∈ s.returned →
      inodeToAccessKey s inode = some key ∨ inodeToAccessKey s inode = none) ∧
    (∀ key key' inode, (key, inode) ∈ s.returned → (key', inode) ∈ s.returned → key = key') ∧
    (∀ key key' inode, s.keyToInode.lookup key = some inode → s.keyToInode.lookup key' = some inode →
      key = key') ∧
    (s.halfDone = [] → ∀ key, key ∉ s.calls → ∀ inode,
      s.keyToInode.lookup key = some inode ↔ s.inodeToKey.lookup inode = some key) := by
  intro s hs
  have h := Inodes.run_invariant hs
  refine ⟨fun key inode => h.resolves, fun key key' inode hk hk' => ?_, fun key key' inode hk hk' => ?_,
    fun hhalf key hfree inode => h.inverse hhalf hfree inode⟩
  · exact Option.some.inj ((h.told key inode hk).symm.trans (h.told key' inode hk'))
  · exact Option.some.inj ((h.keyed key inode hk).1.symm.trans (h.keyed key' inode hk').1)

/-- A key that is removed and gets a new inode before its removal is done. -/
theorem inode_resolves_reassigned : ∃ s, run inodeStep Inodes.empty
      [.enter "a", .fill "a", .finish "a", .take "a", .enter "a", .fill "a", .finish "a"] = some s ∧
    s.returned = [("a", 4), ("a", 3)] ∧ s.halfDone = [3] ∧
    (inodeToAccessKey s 3 = some "a" ∨ inodeToAccessKey s 3 = none) :=
  ⟨_, rfl, rfl, rfl, (inode_resolves
    [.enter "a", .fill "a", .finish "a", .take "a", .enter "a", .fill "a", .finish "a"] _ rfl).1
      "a" 3 (by decide)⟩

/-! ## Calls without anything in between -/

/-- **`InodeTable.getOrAssign` is a call on its own**: from maps that are the table's, the steps of the
    call lead to the maps of the table after it, and the call returns its inode. -/
theorem getOrAssign_steps (t : InodeTable) {s : Inodes} (key : String) (hk : s.keyToInode = t.keyToInode)
    (hi : s.inodeToKey = t.inodeToKey) (hn : s.next = t.next) (hfree : key ∉ s.calls) :
    ∃ es s', run inodeStep s es = some s' ∧
      s'.keyToInode = (t.getOrAssign key).2.keyToInode ∧
      s'.inodeToKey = (t.getOrAssign key).2.inodeToKey ∧ s'.next = (t.getOrAssign key).2.next ∧
      s'.returned = (key, (t.getOrAssign key).1) :: s.returned := by
  rw [InodeTable.getOrAssign]
  split
  · rename_i inode hinode
    refine ⟨[.enter key], s.answer key inode, ?_, hk, hi, hn, rfl⟩
    rw [run, inodeStep, if_neg hfree, hk, hinode]
    rfl
  · rename_i hnone
    have henter : inodeStep s (.enter key) = some (s.allocate key) := by
      rw [inodeStep, if_neg hfree, hk, hnone]
    have hfill : inodeStep (s.allocate key) (.fill key) = some ((s.allocate key).fill key s.next) := by
      rw [inodeStep, show (s.allocate key).calls.lookup key = some (s.next, false) from
        AList.lookup_insert _]
    have hfinish : inodeStep ((s.allocate key).fill key s.next) (.finish key) =
        some (((s.allocate key).fill key s.next).finish key s.next) := by
      rw [inodeStep, show ((s.allocate key).fill key s.next).calls.lookup key = some (s.next, true) from
        AList.lookup_insert _]
    refine ⟨[.enter key, .fill key, .finish key],
      ((s.allocate key).fill key s.next).finish key s.next, ?_, ?_, ?_, ?_, ?_⟩
    · rw [run_step _ henter, run_step _ hfill, run_step _ hfinish, run_nil]
    · show s.keyToInode.insert key s.next = _
      rw [hk, hn]
    · show s.inodeToKey.insert s.next key = _
      rw [hi, hn]
    · show s.next + 1 = _
      rw [hn]
    · show (key, s.next) :: s.returned = _
      rw [hn]

end RdRs.Fuse
