/-
  `torrent/hook.rs` — the command of the `on_library_update` hook.

  `execute_hook` puts each path for `%s` into the template and hands the text to `sh -c`.  The path is
  `__all__/<hash>/<name>` and the name is whatever the torrent is called, so the name is read as part
  of the command.

  The characters of a command are marked by where they come from, the template or a path.  `rawWords`
  collects a word with the marks, `shapes` keeps of the path only that it was there; two commands
  whose shapes agree have the same words outside `%s`.

  * `shapes_agree` — paths with no character that is special where `%s` stands give the same shapes;
  * `hook_command_changes` — and for every template with a `%s` there are names that give others.
-/
import RdRs.Lib.ShellWords
import RdRs.Rd.Execute
import RdRs.Torrent.Refresh

set_option linter.unusedVariables false

namespace RdRs.Torrent

open RdRs.Rd RdRs.ShellWords

/-! ## The command -/

/-- `command_template.replace("%s", &path)` -/
def replaceHoles (path : List Char) : List Char → List Char
  | [] => []
  | [c] => [c]
  | c :: d :: rest =>
    if c = '%' ∧ d = 's' then path ++ replaceHoles path rest else c :: replaceHoles path (d :: rest)

/-- `execute_hook`: the commands handed to `launch_shell` -/
def executeHook (commandTemplate : String) (paths : List String) : List String :=
  if commandTemplate = "" then []
  else if !contains commandTemplate "%s" then [commandTemplate]
  else paths.map fun path => String.ofList (replaceHoles path.toList commandTemplate.toList)

/-- The template with `none` for each `%s`. -/
def holes : List Char → List (Option Char)
  | [] => []
  | [c] => [some c]
  | c :: d :: rest => if c = '%' ∧ d = 's' then none :: holes rest else some c :: holes (d :: rest)

/-- A filled template; characters of the path are marked. -/
def fill (path : List Char) : List (Option Char) → List (Char × Bool)
  | [] => []
  | some c :: items => (c, false) :: fill path items
  | none :: items => path.map (·, true) ++ fill path items

/-- The marked text is the command. -/
theorem fill_holes (path template : List Char) :
    (fill path (holes template)).map Prod.fst = replaceHoles path template := by
  induction template using holes.induct with
  | case1 => rfl
  | case2 c => rfl
  | case3 c d rest h ih =>
    rw [holes, replaceHoles, if_pos h, if_pos h, fill, List.map_append, ih, List.map_map]
    show path.map id ++ _ = _
    rw [List.map_id]
  | case4 c d rest h ih =>
    rw [holes, replaceHoles, if_neg h, if_neg h, fill, List.map_cons, ih]

theorem none_mem_holes {template : List Char} (h : ['%', 's'] <:+: template) :
    none ∈ holes template := by
  induction template using holes.induct with
  | case1 => exact absurd (List.IsInfix.length_le h) (by decide)
  | case2 c => exact absurd (List.IsInfix.length_le h) (by simp)
  | case3 c d rest hcd ih =>
    rw [holes, if_pos hcd]
    exact List.mem_cons_self
  | case4 c d rest hcd ih =>
    rw [holes, if_neg hcd]
    obtain hpre | hin := List.infix_cons_iff.mp h
    · obtain ⟨rest', heq⟩ := hpre
      simp only [List.cons_append, List.nil_append, List.cons.injEq] at heq
      exact absurd ⟨heq.1.symm, heq.2.1.symm⟩ hcd
    · exact List.mem_cons_of_mem _ (ih hin)

/-! ## Two commands -/

/-- Words with the marks of their characters. -/
def rawWords : Collect Bool (List (Char × Bool)) := ⟨[], fun w a => w ++ [a]⟩

/-- Words of which the path's characters are left out; the flag says that there were some. -/
def shapes : Collect Bool (List Char × Bool) where
  empty := ([], false)
  snoc w a := if a.2 then (w.1, true) else (w.1 ++ [a.1], w.2)

def shape (w : List (Char × Bool)) : List Char × Bool :=
  ((w.filter fun a => !a.2).map Prod.fst, w.any Prod.snd)

theorem shape_hom : rawWords.Hom shapes shape where
  empty := rfl
  snoc w a := by
    obtain ⟨c, m⟩ := a
    cases m with
    | true => simp [rawWords, shapes, shape]
    | false => simp [rawWords, shapes, shape]

theorem absorbs_path : Absorbs shapes true := fun w c d => rfl

/-- Equal operators; equal words, or two words where the path stands. -/
def Alike : Token (List (Char × Bool)) → Token (List (Char × Bool)) → Prop
  | .op text, .op text' => text = text'
  | .word w, .word w' => w = w' ∨ (w.any Prod.snd = true ∧ w'.any Prod.snd = true)
  | _, _ => False

/-- How the shell reads the command for a path. -/
def reading (template path : String) : Reading (List (Char × Bool)) :=
  tokenize rawWords (fill path.toList (holes template.toList))

/-- **The same commands**: blank lines apart, as many words and operators for one path as for the
    other, the same outside the words where `%s` stood, and both commands complete or neither. -/
def SameCommands (template p q : String) : Prop :=
  List.Forall₂ Alike (dropBlankLines true (reading template p).tokens)
      (dropBlankLines true (reading template q).tokens) ∧
    (reading template p).complete = (reading template q).complete

/-- The number of words the shell reads in the command for a path. -/
def wordCount (template path : String) : Nat := (wordsOf (reading template path).tokens).length

/-- The same commands have as many words. -/
theorem SameCommands.wordCount_eq {template p q : String} (h : SameCommands template p q) :
    wordCount template p = wordCount template q := by
  have hwords : ∀ {xs ys : List (Token (List (Char × Bool)))}, List.Forall₂ Alike xs ys →
      (wordsOf xs).length = (wordsOf ys).length := by
    intro xs ys hxy
    induction hxy with
    | nil => rfl
    | @cons x y xs ys hxy _ ih =>
      cases x with
      | op text =>
        cases y with
        | op text' => exact ih
        | word w => exact absurd hxy not_false
      | word w =>
        cases y with
        | op text' => exact absurd hxy not_false
        | word w' => exact congrArg (· + 1) ih
  have hlen := hwords h.1
  rwa [wordsOf_dropBlankLines, wordsOf_dropBlankLines] at hlen

theorem eq_of_unmarked {w : List (Char × Bool)} (h : w.any Prod.snd = false) :
    w = ((w.filter fun a => !a.2).map Prod.fst).map (·, false) := by
  induction w with
  | nil => rfl
  | cons a w ih =>
    obtain ⟨c, m⟩ := a
    rw [List.any_cons, Bool.or_eq_false_iff] at h
    obtain ⟨rfl, hw⟩ := h
    rw [List.filter_cons_of_pos rfl, List.map_cons, List.map_cons, ← ih hw]

theorem alike_of_shape {x y : Token (List (Char × Bool))} (h : x.map shape = y.map shape) :
    Alike x y := by
  cases x with
  | op text =>
    cases y with
    | op text' => exact Token.op.inj h
    | word w => exact absurd h nofun
  | word w =>
    cases y with
    | op text => exact absurd h nofun
    | word w' =>
      obtain ⟨hchars, hmark⟩ := Prod.mk.inj (Token.word.inj h)
      cases hany : w.any Prod.snd with
      | true => exact Or.inr ⟨hany, hmark.symm.trans hany⟩
      | false =>
        refine Or.inl ((eq_of_unmarked hany).trans ?_)
        rw [hchars]
        exact (eq_of_unmarked (hmark.symm.trans hany)).symm

/-! ## Harmless paths -/

/-- No character of the path is special where it stands, in the rest of the template. -/
def harmlessFrom (path : List Char) (s : State Bool (List (Char × Bool))) :
    List (Option Char) → Bool
  | [] => true
  | some c :: items => harmlessFrom path (read rawWords s (c, false)) items
  | none :: items =>
    (path.all fun c => decide (kind c ∉ special (read rawWords s ('_', true)).stack)) &&
      harmlessFrom path (run rawWords s (path.map (·, true))) items

/-- No character of the path is special where a `%s` of the template stands. -/
def harmless (template path : String) : Bool :=
  harmlessFrom path.toList State.start (holes template.toList)

theorem toList_pathOf (key : String) : (pathOf key).toList = '_' :: ("_all__/" ++ key).toList := by
  rw [pathOf, String.toList_append, String.toList_append]
  rfl

/-- **Harmless paths give the same shapes**, whatever stands around them. -/
theorem shapes_agree (key key' : String) (items : List (Option Char)) :
    ∀ s s' : State Bool (List (Char × Bool)), s.map shape = s'.map shape →
      harmlessFrom (pathOf key).toList s items = true →
      harmlessFrom (pathOf key').toList s' items = true →
      (run rawWords s (fill (pathOf key).toList items)).map shape =
        (run rawWords s' (fill (pathOf key').toList items)).map shape := by
  -- with its characters left out, a harmless path is read like its first character
  have hfirst : ∀ (key : String) (s : State Bool (List (Char × Bool))),
      ((pathOf key).toList.all fun c =>
        decide (kind c ∉ special (read rawWords s ('_', true)).stack)) = true →
      (run rawWords s ((pathOf key).toList.map (·, true))).map shape =
        read shapes (s.map shape) ('_', true) := by
    intro key s hall
    rw [run_map shape_hom, toList_pathOf]
    refine run_absorbed shapes absorbs_path (by decide) (by decide) _ fun d hd => ?_
    rw [← read_map shape_hom]
    show kind d ∉ special ((read rawWords s ('_', true)).stack.map (Frame.map shape))
    rw [special_map]
    refine of_decide_eq_true (List.all_eq_true.mp hall d ?_)
    rw [toList_pathOf]
    exact List.mem_cons_of_mem _ hd
  induction items with
  | nil => exact fun s s' hs _ _ => hs
  | cons item items ih =>
    intro s s' hs hp hq
    cases item with
    | some c =>
      refine ih _ _ ?_ hp hq
      rw [read_map shape_hom, read_map shape_hom, hs]
    | none =>
      obtain ⟨hp, hp'⟩ := Bool.and_eq_true_iff.mp hp
      obtain ⟨hq, hq'⟩ := Bool.and_eq_true_iff.mp hq
      rw [fill, fill, run_append, run_append]
      refine ih _ _ ?_ hp' hq'
      rw [hfirst key s hp, hfirst key' s' hq, hs]

theorem sameCommands_of_harmless {template key key' : String}
    (hp : harmless template (pathOf key) = true) (hq : harmless template (pathOf key') = true) :
    SameCommands template (pathOf key) (pathOf key') := by
  have hagree := shapes_agree key key' (holes template.toList) _ _ rfl hp hq
  have htokens := congrArg List.reverse (tokens_eq_of_map _ hagree)
  rw [← List.map_reverse, ← List.map_reverse] at htokens
  constructor
  · have hlines := congrArg (dropBlankLines true) htokens
    rw [← map_dropBlankLines, ← map_dropBlankLines, ← List.forall₂_eq_eq_eq,
      List.forall₂_map_left_iff, List.forall₂_map_right_iff] at hlines
    exact hlines.imp fun x y => alike_of_shape
  · have hclosed := congrArg isClosed hagree
    rw [isClosed_map, isClosed_map] at hclosed
    exact hclosed

/-! ## Names that change the command -/

theorem fill_of_not_mem (path path' : List Char) {items : List (Option Char)} (h : none ∉ items) :
    fill path items = fill path' items := by
  induction items with
  | nil => rfl
  | cons item items ih =>
    rw [List.mem_cons, not_or] at h
    cases item with
    | none => exact absurd rfl h.1
    | some c => rw [fill, fill, ih h.2]

theorem fill_append (path : List Char) (xs ys : List (Option Char)) :
    fill path (xs ++ ys) = fill path xs ++ fill path ys := by
  induction xs with
  | nil => rfl
  | cons item xs ih =>
    cases item with
    | some c => rw [List.cons_append, fill, fill, ih, List.cons_append]
    | none => rw [List.cons_append, fill, fill, ih, List.append_assoc]

theorem wordCount_ge (template path : String) :
    (wordsOf (run rawWords State.start (fill path.toList (holes template.toList))).out).length ≤
      wordCount template path := by
  have hle := wordsOf_length_le ((out_endOp
    (run rawWords State.start (fill path.toList (holes template.toList)))).trans (out_endWord _))
  rw [wordCount, reading, tokenize]
  refine hle.trans (le_of_eq ?_)
  rw [wordsOf, wordsOf, List.filterMap_reverse, List.length_reverse]

/-- **A name can make any number of words**: it closes what is open where the first `%s` stands, and
    goes on with lines of one word. -/
theorem exists_name_words {template : String} (h : none ∈ holes template.toList) (t : Rd.Torrent)
    (n : Nat) :
    ∃ name, n ≤ wordCount template (pathOf (keyOf { t with name := name })) := by
  obtain ⟨before, after, hitems, hbefore⟩ := List.eq_append_cons_of_mem h
  -- the state at the first `%s`, then after the hash and one plain character of the name
  let s := run rawWords State.start (fill [] before)
  let base := "__all__/" ++ (t.hash ++ "/")
  let s₁ := read rawWords (run rawWords s (base.toList.map (·, true))) ('x', true)
  have hpending : s₁.pending = .none := (settled_read rawWords (by decide) (by decide) _ true).pending
  obtain ⟨text, hcommand⟩ := exists_inCommand rawWords true s₁ hpending
  let lines := (List.replicate n ['x', '\n']).flatten
  have hlines : lines.map (·, true) = (List.replicate n [('x', true), ('\n', true)]).flatten := by
    rw [List.map_flatten, List.map_replicate]
    rfl
  refine ⟨String.ofList ('x' :: (text ++ lines)), ?_⟩
  refine le_trans ?_ (wordCount_ge template _)
  have hpath : (pathOf (keyOf { t with name := String.ofList ('x' :: (text ++ lines)) })).toList =
      base.toList ++ 'x' :: (text ++ lines) := by
    simp only [pathOf, keyOf, accessKey, base, String.toList_append, String.toList_ofList,
      List.append_assoc]
  rw [hitems, fill_append, run_append, fill_of_not_mem _ [] hbefore, fill, run_append, hpath]
  refine le_trans ?_ (wordsOf_length_le (out_run rawWords _ _))
  rw [List.map_append, run_append, List.map_cons, run_cons, List.map_append, run_append, hlines]
  exact run_lines rawWords hcommand (by decide) (by decide) true n

/-- What is read is what is handed to the shell. -/
theorem executeHook_eq {template : String} (h : contains template "%s" = true) (paths : List String) :
    executeHook template paths = paths.map fun path =>
      String.ofList ((fill path.toList (holes template.toList)).map Prod.fst) := by
  have hne : ¬template = "" := by
    rintro rfl
    exact absurd h (by decide)
  rw [executeHook, if_neg hne, h, Bool.not_true, if_neg Bool.false_ne_true]
  simp only [fill_holes]

/-- **The name of a torrent changes the shell command**, for every template with a `%s` and every
    torrent: under another name the shell reads more words, so other commands.  It reads the same ones
    for two paths that have no special character where the `%s` stands. -/
theorem hook_command_changes (template : String) (h : contains template "%s" = true) :
    (∀ paths, executeHook template paths = paths.map fun path =>
      String.ofList ((fill path.toList (holes template.toList)).map Prod.fst)) ∧
    (∀ t : Rd.Torrent, ∃ name name',
      wordCount template (pathOf (keyOf { t with name := name })) <
        wordCount template (pathOf (keyOf { t with name := name' })) ∧
      ¬SameCommands template (pathOf (keyOf { t with name := name }))
        (pathOf (keyOf { t with name := name' }))) ∧
    ∀ key key', harmless template (pathOf key) = true → harmless template (pathOf key') = true →
      SameCommands template (pathOf key) (pathOf key') := by
  refine ⟨executeHook_eq h, fun t => ?_, fun key key' => sameCommands_of_harmless⟩
  have hhole : none ∈ holes template.toList := none_mem_holes (of_decide_eq_true h)
  obtain ⟨name', hmore⟩ := exists_name_words hhole t
    (wordCount template (pathOf (keyOf { t with name := "" })) + 1)
  refine ⟨"", name', hmore, fun hsame => ?_⟩
  have hsameCount := hsame.wordCount_eq
  omega

/-- The command of the README: names of letters, digits and blanks are harmless in its quotes. -/
theorem hook_command_changes_readme :
    contains "echo 'Library updated: %s'" "%s" = true ∧
    SameCommands "echo 'Library updated: %s'" (pathOf "HASH/Film") (pathOf "HASH/Show 2") := by
  refine ⟨by decide, (hook_command_changes _ (by decide)).2.2 _ _ ?_ ?_⟩
  · decide
  · decide

/-- In the command of the README a quote in the name ends the quoted text, and the rest of the name is
    a command of its own. -/
theorem name_runs_command :
    executeHook "echo 'Library updated: %s'"
        [pathOf (accessKey "HASH" "Film"), pathOf (accessKey "HASH" "'; reboot; '")] =
      ["echo 'Library updated: __all__/HASH/Film'",
        "echo 'Library updated: __all__/HASH/'; reboot; ''"] ∧
    wordCount "echo 'Library updated: %s'" (pathOf (accessKey "HASH" "Film")) = 2 ∧
    wordCount "echo 'Library updated: %s'" (pathOf (accessKey "HASH" "'; reboot; '")) = 4 ∧
    ¬SameCommands "echo 'Library updated: %s'" (pathOf (accessKey "HASH" "Film"))
      (pathOf (accessKey "HASH" "'; reboot; '")) := by
  have hfilm : wordCount "echo 'Library updated: %s'" (pathOf (accessKey "HASH" "Film")) = 2 := by
    decide +kernel
  have hreboot : wordCount "echo 'Library updated: %s'"
      (pathOf (accessKey "HASH" "'; reboot; '")) = 4 := by
    decide +kernel
  refine ⟨by decide, hfilm, hreboot, fun hsame => ?_⟩
  have hcount := hsame.wordCount_eq
  omega

end RdRs.Torrent
