/-
  Path texts and what they name.

  A text is cut at its slashes (`components`), and a walk over the components from a directory first
  climbs and then goes down: `climb` counts the `..` that find no name to take back, and keeps the
  names that are left.

  * `components_slash` — a slash between two texts puts their components one after the other;
  * `resolve_append` — where a walk from a directory ends;
  * `prefix_walk_iff` — when it ends inside the directory it began in.
-/
import RdRs.Cache.Store

set_option linter.unusedVariables false

namespace RdRs.Cache

/-! ## Components of a text -/

/-- The parts of a joined path are those of both sides. -/
theorem components_slash (a b : String) :
    components (a ++ "/" ++ b) = components a ++ components b := by
  have htext : (a ++ "/" ++ b).toList = a.toList ++ '/' :: b.toList := by
    rw [String.toList_append, String.toList_append, List.append_assoc]
    rfl
  rw [components, htext, List.splitOn_append_cons_self, List.filter_append, List.map_append]
  rfl

/-- A text that is one name: no slash in it, and not skipped. -/
structure IsName (s : String) : Prop where
  no_slash : '/' ∉ s.toList
  ne_empty : s ≠ ""
  ne_dot : s ≠ "."

/-- A name is one part. -/
theorem IsName.components_eq {s : String} (h : IsName s) : components s = [s] := by
  have hempty : s.toList ≠ [] := fun h' => h.ne_empty (String.toList_inj.mp h')
  have hdot : s.toList ≠ ['.'] := fun h' => h.ne_dot (String.toList_inj.mp h')
  rw [components, List.splitOn_eq_singleton h.no_slash, List.filter_singleton,
    decide_eq_true (⟨hempty, hdot⟩ : s.toList ≠ [] ∧ s.toList ≠ ['.']), cond_true, List.map_cons,
    String.ofList_toList, List.map_nil]

/-! ## Walks -/

/-- How far a walk climbs, and the names it goes down after that. -/
def climb (cs : List String) : Nat × List String :=
  cs.foldl (fun w c =>
    if c = ".." then (if w.2 = [] then (w.1 + 1, []) else (w.1, w.2.dropLast))
    else (w.1, w.2 ++ [c])) (0, [])

/-- A `..` at the end takes the last name back, or climbs further. -/
theorem climb_append_up (cs : List String) : climb (cs ++ [".."]) =
    if (climb cs).2 = [] then ((climb cs).1 + 1, []) else ((climb cs).1, (climb cs).2.dropLast) := by
  rw [climb, List.foldl_append]
  rfl

/-- A name at the end is kept. -/
theorem climb_append_name (cs : List String) {c : String} (hc : c ≠ "..") :
    climb (cs ++ [c]) = ((climb cs).1, (climb cs).2 ++ [c]) := by
  rw [climb, List.foldl_append]
  exact if_neg hc

/-- `..` is the directory above. -/
theorem resolve_append_up (p : Path) : Path.resolve (p ++ [".."]) = p.resolve.dropLast := by
  rw [Path.resolve, List.foldl_append]
  rfl

/-- A name is the entry below. -/
theorem resolve_append_name (p : Path) {c : String} (hc : c ≠ "..") :
    Path.resolve (p ++ [c]) = p.resolve ++ [c] := by
  rw [Path.resolve, List.foldl_append]
  exact if_neg hc

/-- **Where a walk ends**: some of the directory's last names are gone, the walk's own are added. -/
theorem resolve_append (p : Path) (cs : List String) : Path.resolve (p ++ cs) =
    p.resolve.take (p.resolve.length - (climb cs).1) ++ (climb cs).2 := by
  induction cs using List.reverseRecOn with
  | nil =>
    show Path.resolve (p ++ []) = p.resolve.take (p.resolve.length - 0) ++ []
    rw [List.append_nil, List.append_nil, Nat.sub_zero, List.take_length]
  | append_singleton cs c ih =>
    rw [← List.append_assoc]
    by_cases hc : c = ".."
    · subst hc
      rw [resolve_append_up, ih, climb_append_up]
      by_cases hnames : (climb cs).2 = []
      · -- nothing to take back: one name of the directory goes
        rw [if_pos hnames, hnames, List.append_nil, List.append_nil, List.dropLast_eq_take,
          List.take_take, List.length_take]
        congr 1
        omega
      · rw [if_neg hnames, List.dropLast_append_of_ne_nil hnames]
    · rw [resolve_append_name _ hc, ih, climb_append_name _ hc, List.append_assoc]

/-- A walk of `cs` from `dir` comes back to it: the names go down through the directories that the
    walk climbed out of. -/
def ComesBack (dir : Path) (cs : List String) : Prop :=
  dir.drop (dir.length - (climb cs).1) <+: (climb cs).2

/-- A walk from a directory ends below it exactly if it comes back to it. -/
theorem prefix_walk_iff (p : Path) (cs : List String) :
    p.resolve <+: Path.resolve (p ++ cs) ↔ ComesBack p.resolve cs := by
  rw [resolve_append, ComesBack]
  have hsplit := List.take_append_drop (p.resolve.length - (climb cs).1) p.resolve
  conv_lhs => lhs; rw [← hsplit]
  exact List.prefix_append_right_inj _

/-- Strictly below a directory. -/
def Below (dir p : Path) : Prop := dir.resolve <+: p ∧ p ≠ dir.resolve

theorem below_append_name (dir q : Path) (c : String) : Below dir (q ++ [c]) ↔ dir.resolve <+: q := by
  constructor
  · rintro ⟨hle, hne⟩
    exact (List.prefix_concat_iff.mp hle).resolve_left fun h => hne h.symm
  · intro hle
    refine ⟨hle.trans (List.prefix_append q [c]), fun h => ?_⟩
    have hlen := hle.length_le
    rw [← h, List.length_append, List.length_singleton] at hlen
    omega

end RdRs.Cache
