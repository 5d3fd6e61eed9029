/-
  A file system as a tree of named nodes, over any type of names and of file contents.

  The tree is a finite map from paths to nodes.  That every node hangs below a directory is part of
  the type (`root`, `parent`), so that no operation can lose it: a directory is never replaced by a
  file or removed, and what is created needs a directory to be created in.

  * `createDirAll_of_dir` — below a directory nothing has to be created;
  * `create_isSome` — a free name in a directory can be taken;
  * `Keeps` — creating and opening leave what is there as it is;
  * `remove_dir_iff`, `remove_none_iff`, `remove_failed_iff` — what a removal does.
-/
import Mathlib

set_option linter.unusedVariables false

namespace RdRs.FileTree

variable {N F : Type*}

/-- A directory, or a file with its content. -/
inductive Node (F : Type*) where
  | dir
  | file (f : F)

/-- A tree of directories and files. -/
structure Tree (N F : Type*) [DecidableEq N] where
  nodes : AList fun _ : List N => Node F
  root : nodes.lookup [] = some .dir
  parent : ∀ p c, nodes.lookup (p ++ [c]) ≠ none → nodes.lookup p = some .dir

/-- The ends of a removal. -/
inductive Removal where
  | removed
  | notFound
  | failed
deriving DecidableEq

namespace Tree

variable [DecidableEq N]

/-- The entry at a path. -/
def lookup (t : Tree N F) (p : List N) : Option (Node F) := t.nodes.lookup p

/-- Only the root. -/
def init : Tree N F where
  nodes := AList.singleton [] .dir
  root := rfl
  parent p c h := by
    have hne : p ++ [c] ≠ [] := by simp
    exact absurd (AList.lookup_insert_ne hne (s := ∅)) (by simpa using h)

/-- Every entry is in a directory. -/
theorem parent_dir (t : Tree N F) {p : List N} (h : t.lookup p ≠ none) :
    t.lookup p.dropLast = some .dir := by
  rcases List.eq_nil_or_concat p with rfl | ⟨q, c, rfl⟩
  · exact t.root
  · rw [List.concat_eq_append] at h ⊢
    rw [List.dropLast_concat]
    exact t.parent q c h

/-! ## Changing a node -/

/-- A node put at a path whose parent is a directory; a directory stays one. -/
def put (t : Tree N F) (p : List N) (n : Node F) (hp : t.lookup p.dropLast = some .dir)
    (hn : t.lookup p = some .dir → n = .dir) : Tree N F where
  nodes := t.nodes.insert p n
  root := by
    by_cases h : p = []
    · subst h
      rw [AList.lookup_insert, hn t.root]
    · rw [AList.lookup_insert_ne (Ne.symm h)]
      exact t.root
  parent q c h := by
    by_cases hqp : q = p
    · -- `p` has a child, so it was a directory
      subst hqp
      rw [AList.lookup_insert_ne (by simp)] at h
      rw [AList.lookup_insert, hn (t.parent q c h)]
    · rw [AList.lookup_insert_ne hqp]
      by_cases hc : q ++ [c] = p
      · rw [← hc, List.dropLast_concat] at hp
        exact hp
      · rw [AList.lookup_insert_ne hc] at h
        exact t.parent q c h

/-- A file taken away. -/
def eraseFile (t : Tree N F) (p : List N) (f : F) (hf : t.lookup p = some (.file f)) : Tree N F where
  nodes := t.nodes.erase p
  root := by
    have hne : [] ≠ p := by
      rintro rfl
      exact absurd (t.root.symm.trans hf) nofun
    rw [AList.lookup_erase_ne hne]
    exact t.root
  parent q c h := by
    have hc : q ++ [c] ≠ p := by
      rintro rfl
      exact h (AList.lookup_erase _ _)
    rw [AList.lookup_erase_ne hc] at h
    have hq : t.nodes.lookup q = some .dir := t.parent q c h
    have hne : q ≠ p := by
      rintro rfl
      exact absurd (hq.symm.trans hf) nofun
    rw [AList.lookup_erase_ne hne]
    exact hq

/-! ## The system calls -/

/-- A new node; `none` when the name is taken or there is no directory to put it in. -/
def create (t : Tree N F) (p : List N) (n : Node F) : Option (Tree N F) :=
  match hq : t.lookup p.dropLast, hp : t.lookup p with
  | some .dir, none => some (t.put p n hq (by rw [hp]; exact nofun))
  | _, _ => none

/-- One directory on the way. -/
def mkdir (t : Tree N F) (p : List N) : Option (Tree N F) :=
  match t.lookup p with
  | none => t.create p .dir
  | some .dir => some t
  | some (.file _) => none

/-- Every directory on the way to `p`, and `p`; `none` when a file is in the way. -/
def createDirAll (t : Tree N F) (p : List N) : Option (Tree N F) := p.inits.foldlM mkdir t

/-- Open for writing, created when absent; `none` for a directory. -/
def openCreate (t : Tree N F) (p : List N) (empty : F) : Option (Tree N F × F) :=
  match t.lookup p with
  | some (.file f) => some (t, f)
  | some .dir => none
  | none => (t.create p (.file empty)).map fun t => (t, empty)

/-- New contents for a file. -/
def setFile (t : Tree N F) (p : List N) (f : F) : Tree N F :=
  match hp : t.lookup p with
  | some (.file g) => t.put p (.file f) (t.parent_dir (by rw [hp]; exact nofun)) (by rw [hp]; exact nofun)
  | _ => t

/-- Remove a file; `ok` says whether the system lets it go. -/
def remove (t : Tree N F) (p : List N) (ok : Bool) : Tree N F × Removal :=
  match hp : t.lookup p with
  | none => (t, .notFound)
  | some .dir => (t, .failed)
  | some (.file f) => if ok then (t.eraseFile p f hp, .removed) else (t, .failed)

/-! ## What they do -/

/-- What leads to a directory is a directory. -/
theorem dir_of_isPrefix (t : Tree N F) {q p : List N} (h : q <+: p) (hp : t.lookup p = some .dir) :
    t.lookup q = some .dir := by
  induction p using List.reverseRecOn with
  | nil =>
    rw [List.prefix_nil.mp h]
    exact hp
  | append_singleton p c ih =>
    rcases List.prefix_concat_iff.mp h with rfl | h'
    · exact hp
    · exact ih h' (t.parent p c (by rw [show t.nodes.lookup (p ++ [c]) = _ from hp]; exact nofun))

/-- A directory that is there is not made again. -/
theorem createDirAll_of_dir (t : Tree N F) {p : List N} (hp : t.lookup p = some .dir) :
    t.createDirAll p = some t := by
  have hdirs : ∀ q ∈ p.inits, t.lookup q = some .dir := fun q hq =>
    t.dir_of_isPrefix ((List.mem_inits q p).mp hq) hp
  have hall : ∀ qs : List (List N), (∀ q ∈ qs, t.lookup q = some .dir) →
      qs.foldlM mkdir t = some t := by
    intro qs hqs
    induction qs with
    | nil => rfl
    | cons q qs ih =>
      have hmk : t.mkdir q = some t := by rw [mkdir, hqs q List.mem_cons_self]
      rw [List.foldlM_cons, hmk]
      exact ih fun r hr => hqs r (List.mem_cons_of_mem q hr)
  exact hall p.inits hdirs

/-- A free path in a directory can be taken. -/
theorem create_isSome (t : Tree N F) {p : List N} (n : Node F)
    (hq : t.lookup p.dropLast = some .dir) (hp : t.lookup p = none) :
    ∃ t', t.create p n = some t' := by
  unfold create
  split
  · exact ⟨_, rfl⟩
  · rename_i h
    exact absurd hp (h hq)

theorem lookup_put (t : Tree N F) (p : List N) (n : Node F) (hp : t.lookup p.dropLast = some .dir)
    (hn : t.lookup p = some .dir → n = .dir) (q : List N) :
    (t.put p n hp hn).lookup q = if q = p then some n else t.lookup q := by
  by_cases h : q = p
  · rw [if_pos h, h]
    exact AList.lookup_insert _
  · rw [if_neg h]
    exact AList.lookup_insert_ne h

/-- Whatever is there stays as it is. -/
def Keeps (t t' : Tree N F) : Prop := ∀ q n, t.lookup q = some n → t'.lookup q = some n

theorem Keeps.refl (t : Tree N F) : t.Keeps t := fun _ _ h => h

theorem Keeps.trans {t t' t'' : Tree N F} (h : t.Keeps t') (h' : t'.Keeps t'') : t.Keeps t'' :=
  fun q n hq => h' q n (h q n hq)

/-- A new entry is there, and the others are kept. -/
theorem create_spec {t t' : Tree N F} {p : List N} {n : Node F} (h : t.create p n = some t') :
    t.Keeps t' ∧ t'.lookup p = some n := by
  unfold create at h
  split at h
  · rename_i hq hp
    obtain rfl := Option.some.inj h
    refine ⟨fun q m hm => ?_, by rw [lookup_put, if_pos rfl]⟩
    have hne : q ≠ p := by
      rintro rfl
      exact absurd (hp.symm.trans hm) nofun
    rw [lookup_put, if_neg hne]
    exact hm
  · exact absurd h nofun

theorem mkdir_keeps {t t' : Tree N F} {p : List N} (h : t.mkdir p = some t') : t.Keeps t' := by
  unfold mkdir at h
  split at h
  · exact (create_spec h).1
  · obtain rfl := Option.some.inj h
    exact .refl t
  · exact absurd h nofun

/-- Making directories keeps every entry. -/
theorem createDirAll_keeps {t t' : Tree N F} {p : List N} (h : t.createDirAll p = some t') :
    t.Keeps t' := by
  have hall : ∀ (qs : List (List N)) (t t' : Tree N F), qs.foldlM mkdir t = some t' → t.Keeps t' := by
    intro qs
    induction qs with
    | nil =>
      intro t t' h
      obtain rfl := Option.some.inj h
      exact .refl t
    | cons q qs ih =>
      intro t t' h
      rw [List.foldlM_cons] at h
      obtain ⟨t₁, h₁, h₂⟩ := Option.bind_eq_some_iff.mp h
      exact (mkdir_keeps h₁).trans (ih t₁ t' h₂)
  exact hall _ t t' h

/-- Opening a file makes it if it is not there. -/
theorem openCreate_spec {t t' : Tree N F} {p : List N} {empty f : F}
    (h : t.openCreate p empty = some (t', f)) : t.Keeps t' ∧ t'.lookup p = some (.file f) := by
  unfold openCreate at h
  split at h
  · rename_i g hg
    obtain ⟨rfl, rfl⟩ := Prod.mk.inj (Option.some.inj h)
    exact ⟨.refl t, hg⟩
  · exact absurd h nofun
  · obtain ⟨t₁, h₁, heq⟩ := Option.map_eq_some_iff.mp h
    obtain ⟨rfl, rfl⟩ := Prod.mk.inj heq
    exact create_spec h₁

/-- A file gets other content, and the rest is as it was. -/
theorem lookup_setFile {t : Tree N F} {p : List N} {g : F} (h : t.lookup p = some (.file g)) (f : F)
    (q : List N) : (t.setFile p f).lookup q = if q = p then some (.file f) else t.lookup q := by
  unfold setFile
  split
  · exact lookup_put t p _ _ _ q
  · rename_i hno
    exact absurd h (hno g)

/-- **What a removal does**: there is nothing, a file goes, or it fails. -/
theorem remove_eq (t : Tree N F) (p : List N) (ok : Bool) :
    (t.lookup p = none ∧ t.remove p ok = (t, .notFound)) ∨
    (∃ f h, ok = true ∧ t.remove p ok = (t.eraseFile p f h, .removed)) ∨
    ((t.lookup p = some .dir ∨ ok = false) ∧ t.lookup p ≠ none ∧ t.remove p ok = (t, .failed)) := by
  unfold remove
  split
  · rename_i h
    exact Or.inl ⟨h, rfl⟩
  · rename_i h
    exact Or.inr (Or.inr ⟨Or.inl h, by rw [h]; exact nofun, rfl⟩)
  · rename_i f h
    cases ok with
    | true => exact Or.inr (Or.inl ⟨f, h, rfl, rfl⟩)
    | false => exact Or.inr (Or.inr ⟨Or.inr rfl, by rw [h]; exact nofun, rfl⟩)

/-- A file is gone, and the rest is as it was. -/
theorem lookup_eraseFile (t : Tree N F) {p : List N} {f : F} (hf : t.lookup p = some (.file f))
    (q : List N) : (t.eraseFile p f hf).lookup q = if q = p then none else t.lookup q := by
  by_cases h : q = p
  · rw [if_pos h, h]
    exact AList.lookup_erase _ _
  · rw [if_neg h]
    exact AList.lookup_erase_ne h

/-- A removal is about one path. -/
theorem lookup_remove_ne (t : Tree N F) {p q : List N} (ok : Bool) (h : q ≠ p) :
    (t.remove p ok).1.lookup q = t.lookup q := by
  rcases t.remove_eq p ok with ⟨-, heq⟩ | ⟨f, hf, -, heq⟩ | ⟨-, -, heq⟩
  · rw [heq]
  · rw [heq, lookup_eraseFile, if_neg h]
  · rw [heq]

/-- **Removals leave the directories alone.** -/
theorem remove_dir_iff (t : Tree N F) (p : List N) (ok : Bool) (q : List N) :
    (t.remove p ok).1.lookup q = some .dir ↔ t.lookup q = some .dir := by
  rcases t.remove_eq p ok with ⟨-, h⟩ | ⟨f, hf, -, h⟩ | ⟨-, -, h⟩
  · rw [h]
  · rw [h, lookup_eraseFile]
    by_cases hq : q = p
    · rw [if_pos hq, hq, hf]
      exact ⟨nofun, nofun⟩
    · rw [if_neg hq]
  · rw [h]

/-- Gone is what was absent, and the file that the system let go. -/
theorem remove_none_iff (t : Tree N F) (p : List N) (ok : Bool) (q : List N) :
    (t.remove p ok).1.lookup q = none ↔
      t.lookup q = none ∨ (q = p ∧ ok = true ∧ t.lookup q ≠ some .dir) := by
  rcases t.remove_eq p ok with ⟨hp, h⟩ | ⟨f, hf, hok, h⟩ | ⟨hfail, hp, h⟩
  · rw [h]
    refine ⟨Or.inl, fun hq => hq.elim id fun hq => ?_⟩
    rw [hq.1]
    exact hp
  · rw [h, lookup_eraseFile]
    by_cases hq : q = p
    · rw [if_pos hq]
      refine iff_of_true rfl (Or.inr ⟨hq, hok, ?_⟩)
      rw [hq, hf]
      exact nofun
    · rw [if_neg hq]
      exact ⟨Or.inl, fun h' => h'.resolve_right fun h'' => hq h''.1⟩
  · rw [h]
    refine ⟨Or.inl, fun hq => hq.elim id fun ⟨hqp, hok, hdir⟩ => ?_⟩
    subst hqp
    rcases hfail with hd | hno
    · exact absurd hd hdir
    · exact absurd (hok.symm.trans hno) nofun

/-- A removal fails at a directory, or when the system says so. -/
theorem remove_failed_iff (t : Tree N F) (p : List N) (ok : Bool) :
    (t.remove p ok).2 = .failed ↔ t.lookup p = some .dir ∨ (t.lookup p ≠ none ∧ ok = false) := by
  rcases t.remove_eq p ok with ⟨hp, h⟩ | ⟨f, hf, hok, h⟩ | ⟨hfail, hp, h⟩
  · rw [h, hp]
    exact ⟨nofun, fun h' => h'.elim nofun fun h'' => absurd rfl h''.1⟩
  · rw [h, hf, hok]
    exact ⟨nofun, fun h' => h'.elim nofun fun h'' => absurd h''.2 nofun⟩
  · rw [h]
    exact iff_of_true rfl (hfail.imp id fun hno => ⟨hp, hno⟩)

end Tree

end RdRs.FileTree
