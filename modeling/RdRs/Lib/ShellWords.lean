/-
  Reading a shell command: words, operators and quoting, by the POSIX rules of token recognition.

  The reader takes one character after the other.  A stack holds what is open around it: quotes,
  `${..}`, `$((..))`, a comment, or the commands of a `$(..)` and of backquotes, which are read like
  the outer ones.  Characters carry a mark of any type, and `Collect` says how a word is made of them,
  so that one reading can be looked at with all of a word, or with less.  (The lines of a
  here-document are read like other lines.)

  * `read_map` — reading does not depend on how words are collected;
  * `out_run` — tokens that were read stay;
  * `exists_inCommand` — every quoting can be closed by some text;
  * `read_inert` — a character that is not special where it stands only grows the word.
-/
import Mathlib

set_option linter.unusedVariables false

namespace RdRs.ShellWords

/-! ## Characters -/

/-- What a character can mean to the shell. -/
inductive Kind where
  | plain | blank | newline | hash | operator | openParen | closeParen | openBrace | closeBrace
  | backslash | singleQuote | doubleQuote | backquote | dollar
deriving Repr, DecidableEq

/-- What a character can mean, by its code. -/
def kind (c : Char) : Kind :=
  match c.toNat with
  | 9 | 32 => .blank
  | 10 => .newline
  | 34 => .doubleQuote
  | 35 => .hash
  | 36 => .dollar
  | 38 | 59 | 60 | 62 | 124 => .operator
  | 39 => .singleQuote
  | 40 => .openParen
  | 41 => .closeParen
  | 92 => .backslash
  | 96 => .backquote
  | 123 => .openBrace
  | 125 => .closeBrace
  | _ => .plain

/-- Operators of more than one character. -/
def longOperators : List (List Char) :=
  [['&', '&'], ['|', '|'], [';', ';'], [';', '&'], ['<', '<'], ['>', '>'], ['<', '&'], ['>', '&'],
    ['<', '>'], ['<', '<', '-'], ['>', '|']]

/-- The operator in progress goes on with this character. -/
def continues (op : List Char) (c : Char) : Bool := decide (op ++ [c] ∈ longOperators)

/-- An operator goes on with a few characters only. -/
theorem mem_of_continues {op : List Char} {c : Char} (h : continues op c = true) :
    c ∈ ['&', '|', ';', '<', '>', '-'] := by
  have hlast : ∀ text ∈ longOperators, text.getLastD 'x' ∈ ['&', '|', ';', '<', '>', '-'] := by
    decide
  have hc := hlast (op ++ [c]) (of_decide_eq_true h)
  rwa [List.getLastD_concat] at hc

/-! ## The reader -/

/-- How a word is made of its characters. -/
structure Collect (τ W : Type) where
  empty : W
  snoc : W → Char × τ → W

/-- An operator, with its text, or a word. -/
inductive Token (W : Type) where
  | op (text : List Char)
  | word (w : W)

/-- What is open around the next character; `subst` keeps the word the substitution is in, and counts
    the parentheses open inside it. -/
inductive Frame (W : Type) where
  | single
  | double
  | braces
  | arith (depth : Nat)
  | comment
  | subst (backquote : Bool) (depth : Nat) (outer : W)

/-- What the last character waits for. -/
inductive Pending (τ : Type) where
  | none
  | escape (a : Char × τ)
  | dollar
  | dollarParen (a : Char × τ)

/-- The operator and the word in progress, and the tokens so far, the last one first. -/
structure State (τ W : Type) where
  pending : Pending τ
  op : List Char
  word : Option W
  stack : List (Frame W)
  out : List (Token W)

namespace State

variable {τ W : Type}

/-- Nothing is read yet. -/
def start : State τ W := ⟨.none, [], none, [], []⟩

/-- The operator in progress is a token. -/
def endOp (s : State τ W) : State τ W :=
  if s.op = [] then s else { s with op := [], out := .op s.op :: s.out }

/-- The word in progress is a token. -/
def endWord (s : State τ W) : State τ W :=
  match s.word with
  | none => s
  | some w => { s with word := none, out := .word w :: s.out }

/-- An operator is read. -/
def emit (s : State τ W) (text : List Char) : State τ W := { s with out := .op text :: s.out }

def push (s : State τ W) (f : Frame W) : State τ W := { s with stack := f :: s.stack }

def pop (s : State τ W) : State τ W := { s with stack := s.stack.tail }

def wait (s : State τ W) (p : Pending τ) : State τ W := { s with pending := p }

/-- The frame on top takes the place of the last one. -/
def swap (s : State τ W) (f : Frame W) : State τ W := { s with stack := f :: s.stack.tail }

end State

section

variable {τ W : Type} (C : Collect τ W)

/-- The character belongs to the word. -/
def add (s : State τ W) (a : Char × τ) : State τ W :=
  { s with word := some (C.snoc (s.word.getD C.empty) a) }

/-- A substitution starts inside the word; a token says where. -/
def enter (s : State τ W) (backquote : Bool) (a : Char × τ) : State τ W :=
  { s.emit ['$', '('] with
    word := none
    stack := .subst backquote 0 (C.snoc (s.word.getD C.empty) a) :: s.stack }

/-- A substitution ends, and the word around it goes on. -/
def leave (s : State τ W) (outer : W) (a : Char × τ) : State τ W :=
  { (s.endWord.emit [')']).pop with word := some (C.snoc outer a) }

/-- A parenthesis that is an operator. -/
def openParen (s : State τ W) : State τ W :=
  match s.stack with
  | .subst false depth outer :: _ => (s.endWord.emit ['(']).swap (.subst false (depth + 1) outer)
  | _ => s.endWord.emit ['(']

/-- A parenthesis that is an operator, or ends the substitution. -/
def closeParen (s : State τ W) (a : Char × τ) : State τ W :=
  match s.stack with
  | .subst false 0 outer :: _ => leave C s outer a
  | .subst false (depth + 1) outer :: _ => (s.endWord.emit [')']).swap (.subst false depth outer)
  | _ => s.endWord.emit [')']

/-- A backquote opens a substitution, or closes the one it is in. -/
def backquote (s : State τ W) (a : Char × τ) : State τ W :=
  match s.stack with
  | .subst true _ outer :: _ => leave C s outer a
  | _ => enter C s true a

/-- A character among commands. -/
def readCommand (s : State τ W) (a : Char × τ) : State τ W :=
  match kind a.1 with
  | .backslash => s.wait (.escape a)
  | .singleQuote => (add C s a).push .single
  | .doubleQuote => (add C s a).push .double
  | .backquote => backquote C s a
  | .dollar => (add C s a).wait .dollar
  | .newline => s.endWord.emit [a.1]
  | .blank => s.endWord
  | .hash => if s.word.isSome then add C s a else s.push .comment
  | .openParen => openParen s
  | .closeParen => closeParen C s a
  | .operator => { s.endWord with op := [a.1] }
  | .openBrace | .closeBrace | .plain => add C s a

/-- A character between single quotes. -/
def readSingle (s : State τ W) (a : Char × τ) : State τ W :=
  match kind a.1 with
  | .singleQuote => (add C s a).pop
  | _ => add C s a

/-- A character between double quotes. -/
def readDouble (s : State τ W) (a : Char × τ) : State τ W :=
  match kind a.1 with
  | .backslash => s.wait (.escape a)
  | .doubleQuote => (add C s a).pop
  | .backquote => enter C s true a
  | .dollar => (add C s a).wait .dollar
  | _ => add C s a

/-- A character in `${..}`. -/
def readBraces (s : State τ W) (a : Char × τ) : State τ W :=
  match kind a.1 with
  | .backslash => s.wait (.escape a)
  | .singleQuote => (add C s a).push .single
  | .doubleQuote => (add C s a).push .double
  | .backquote => enter C s true a
  | .dollar => (add C s a).wait .dollar
  | .closeBrace => (add C s a).pop
  | _ => add C s a

/-- A character in `$((..))`, with the parentheses that are open there. -/
def readArith (s : State τ W) (depth : Nat) (a : Char × τ) : State τ W :=
  match kind a.1 with
  | .backslash => s.wait (.escape a)
  | .backquote => enter C s true a
  | .dollar => (add C s a).wait .dollar
  | .openParen => (add C s a).swap (.arith (depth + 1))
  | .closeParen =>
    match depth with
    | 0 => (add C s a).pop
    | depth + 1 => (add C s a).swap (.arith depth)
  | _ => add C s a

/-- A character of a comment, which ends with the line. -/
def readComment (s : State τ W) (a : Char × τ) : State τ W :=
  match kind a.1 with
  | .newline => readCommand C s.pop a
  | _ => s

/-- A character, where the frame on top says how to read it. -/
def readIn (s : State τ W) (a : Char × τ) : State τ W :=
  match s.stack with
  | .single :: _ => readSingle C s a
  | .double :: _ => readDouble C s a
  | .braces :: _ => readBraces C s a
  | .arith depth :: _ => readArith C s depth a
  | .comment :: _ => readComment C s a
  | .subst _ _ _ :: _ | [] => readCommand C s a

/-- A character, after what the last one waits for. -/
def readNext (s : State τ W) (a : Char × τ) : State τ W :=
  match s.pending with
  | .none => readIn C s a
  | .escape b =>
    match kind a.1 with
    | .newline => s.wait .none
    | _ => add C (add C (s.wait .none) b) a
  | .dollar =>
    match kind a.1 with
    | .openParen => s.wait (.dollarParen a)
    | .openBrace => (add C (s.wait .none) a).push .braces
    | .dollar => add C (s.wait .none) a
    | _ => readIn C (s.wait .none) a
  | .dollarParen b =>
    match kind a.1 with
    | .openParen => (add C (add C (s.wait .none) b) a).push (.arith 1)
    | _ => readCommand C (enter C (s.wait .none) false b) a

/-- **One character**: the operator in progress goes on, or ends before it. -/
def read (s : State τ W) (a : Char × τ) : State τ W :=
  if s.op ≠ [] ∧ continues s.op a.1 then { s with op := s.op ++ [a.1] } else readNext C s.endOp a

/-- A text, character by character. -/
def run (s : State τ W) (text : List (Char × τ)) : State τ W := text.foldl (read C) s

/-- The tokens of a text, and whether all that it opens is closed. -/
structure Reading (W : Type) where
  tokens : List (Token W)
  complete : Bool

/-- Nothing is open: a `$` or a comment may be the end of a text. -/
def isClosed (s : State τ W) : Bool :=
  match s.stack, s.pending with
  | [], .none | [], .dollar | [.comment], _ => true
  | _, _ => false

/-- The tokens of a whole text. -/
def tokenize (text : List (Char × τ)) : Reading W :=
  let s := run C State.start text
  ⟨s.endOp.endWord.out.reverse, isClosed s⟩

/-- The word of a token. -/
def Token.word? : Token W → Option W
  | .op _ => none
  | .word w => some w

/-- The words among the tokens, those of the substitutions included. -/
def wordsOf (tokens : List (Token W)) : List W := tokens.filterMap Token.word?

/-- A newline before these tokens ends no command: nothing follows, or a closing parenthesis. -/
def atEnd : List (Token W) → Bool
  | [] => true
  | .op text :: _ => text == [')']
  | .word _ :: _ => false

/-- The tokens without blank lines.  A newline is one when no command is in progress (`fresh`: at the
    start, or after an operator that closes nothing) or when none follows. -/
def dropBlankLines : Bool → List (Token W) → List (Token W)
  | _, [] => []
  | _, .word w :: rest => .word w :: dropBlankLines false rest
  | fresh, .op text :: rest =>
    if text = ['\n'] then
      if fresh || atEnd (dropBlankLines true rest) then dropBlankLines true rest
      else .op text :: dropBlankLines true rest
    else .op text :: dropBlankLines (text != [')']) rest

/-- The characters that mean something in the frame on top. -/
def special : List (Frame W) → List Kind
  | .single :: _ => [.singleQuote]
  | .double :: _ => [.backslash, .doubleQuote, .backquote, .dollar]
  | .braces :: _ => [.backslash, .singleQuote, .doubleQuote, .backquote, .dollar, .closeBrace]
  | .arith _ :: _ => [.backslash, .backquote, .dollar, .openParen, .closeParen]
  | .comment :: _ => [.newline]
  | .subst _ _ _ :: _ | [] => [.blank, .newline, .operator, .openParen, .closeParen, .backslash,
      .singleQuote, .doubleQuote, .backquote, .dollar]

@[simp] theorem run_nil (s : State τ W) : run C s [] = s := rfl

@[simp] theorem run_cons (s : State τ W) (a : Char × τ) (text : List (Char × τ)) :
    run C s (a :: text) = run C (read C s a) text := rfl

/-- A text is read in two parts. -/
theorem run_append (s : State τ W) (xs ys : List (Char × τ)) :
    run C s (xs ++ ys) = run C (run C s xs) ys := List.foldl_append

end

/-- Blank lines have no words. -/
theorem wordsOf_dropBlankLines {W : Type} : ∀ (fresh : Bool) (tokens : List (Token W)),
    wordsOf (dropBlankLines fresh tokens) = wordsOf tokens
  | _, [] => rfl
  | fresh, .word w :: rest => by
    rw [dropBlankLines]
    exact congrArg (w :: ·) (wordsOf_dropBlankLines false rest)
  | fresh, .op text :: rest => by
    rw [dropBlankLines]
    split
    · split
      · exact wordsOf_dropBlankLines true rest
      · exact wordsOf_dropBlankLines true rest
    · exact wordsOf_dropBlankLines _ rest

/-! ## What stays -/

section

variable {τ W : Type} (C : Collect τ W) (s : State τ W)

/-- Ending an operator takes no token back. -/
theorem out_endOp : s.out <:+ s.endOp.out := by
  unfold State.endOp
  split
  · exact List.suffix_refl _
  · exact List.suffix_cons _ _

/-- Ending a word takes no token back. -/
theorem out_endWord : s.out <:+ s.endWord.out := by
  unfold State.endWord
  split
  · exact List.suffix_refl _
  · exact List.suffix_cons _ _

theorem out_emit (text : List Char) : s.out <:+ (s.endWord.emit text).out :=
  (out_endWord s).trans (List.suffix_cons _ _)

theorem out_enter (b : Bool) (a : Char × τ) : s.out <:+ (enter C s b a).out := List.suffix_cons _ _

theorem out_leave (outer : W) (a : Char × τ) : s.out <:+ (leave C s outer a).out := out_emit s _

theorem out_openParen : s.out <:+ (openParen s).out := by
  unfold openParen
  split
  · exact out_emit s _
  · exact out_emit s _

theorem out_closeParen (a : Char × τ) : s.out <:+ (closeParen C s a).out := by
  unfold closeParen
  split
  · exact out_leave C s _ a
  · exact out_emit s _
  · exact out_emit s _

theorem out_backquote (a : Char × τ) : s.out <:+ (backquote C s a).out := by
  unfold backquote
  split
  · exact out_leave C s _ a
  · exact out_enter C s true a

/-- A character among commands takes no token back. -/
theorem out_readCommand (a : Char × τ) : s.out <:+ (readCommand C s a).out := by
  unfold readCommand
  cases kind a.1 with
  | newline => exact out_emit s _
  | blank => exact out_endWord s
  | operator => exact out_endWord s
  | openParen => exact out_openParen s
  | closeParen => exact out_closeParen C s a
  | backquote => exact out_backquote C s a
  | hash =>
    simp only
    split
    · exact List.suffix_refl _
    · exact List.suffix_refl _
  | _ => exact List.suffix_refl _

theorem out_readArith (depth : Nat) (a : Char × τ) : s.out <:+ (readArith C s depth a).out := by
  unfold readArith
  cases kind a.1 with
  | closeParen =>
    cases depth with
    | zero => exact List.suffix_refl _
    | succ depth => exact List.suffix_refl _
  | backquote => exact out_enter C s true a
  | _ => exact List.suffix_refl _

/-- A character takes no token back, whatever is open. -/
theorem out_readIn (a : Char × τ) : s.out <:+ (readIn C s a).out := by
  unfold readIn
  split
  · unfold readSingle
    cases kind a.1 <;> exact List.suffix_refl _
  · unfold readDouble
    cases kind a.1 with
    | backquote => exact out_enter C s true a
    | _ => exact List.suffix_refl _
  · unfold readBraces
    cases kind a.1 with
    | backquote => exact out_enter C s true a
    | _ => exact List.suffix_refl _
  · exact out_readArith C s _ a
  · unfold readComment
    cases kind a.1 with
    | newline => exact out_readCommand C s.pop a
    | _ => exact List.suffix_refl _
  · exact out_readCommand C s a
  · exact out_readCommand C s a

/-- A character takes no token back, whatever is waited for. -/
theorem out_readNext (a : Char × τ) : s.out <:+ (readNext C s a).out := by
  unfold readNext
  cases s.pending with
  | none => exact out_readIn C s a
  | escape b => cases kind a.1 <;> exact List.suffix_refl _
  | dollar =>
    cases kind a.1 with
    | openParen => exact List.suffix_refl _
    | openBrace => exact List.suffix_refl _
    | dollar => exact List.suffix_refl _
    | _ => exact out_readIn C (s.wait .none) a
  | dollarParen b =>
    cases kind a.1 with
    | openParen => exact List.suffix_refl _
    | _ => exact (out_enter C (s.wait .none) false b).trans (out_readCommand C _ a)

/-- Tokens that were read stay. -/
theorem out_read (a : Char × τ) : s.out <:+ (read C s a).out := by
  unfold read
  split
  · exact List.suffix_refl _
  · exact (out_endOp s).trans (out_readNext C s.endOp a)

/-- **Tokens that were read stay**, whatever comes after them. -/
theorem out_run (text : List (Char × τ)) : s.out <:+ (run C s text).out := by
  induction text generalizing s with
  | nil => exact List.suffix_refl _
  | cons a text ih => exact (out_read C s a).trans (ih (read C s a))

end

/-! ## Another way to collect words -/

section

variable {τ W W' : Type}

namespace Token

/-- A token with its word looked at through `f`. -/
def map (f : W → W') : Token W → Token W'
  | .op text => .op text
  | .word w => .word (f w)

end Token

namespace Frame

/-- A frame with its outer word looked at through `f`. -/
def map (f : W → W') : Frame W → Frame W'
  | .single => .single
  | .double => .double
  | .braces => .braces
  | .arith depth => .arith depth
  | .comment => .comment
  | .subst backquote depth outer => .subst backquote depth (f outer)

end Frame

/-- A state with all its words looked at through `f`. -/
def State.map (f : W → W') (s : State τ W) : State τ W' :=
  ⟨s.pending, s.op, s.word.map f, s.stack.map (Frame.map f), s.out.map (Token.map f)⟩

/-- Collecting with `C'` is collecting with `C` and looking at it through `f`. -/
structure Collect.Hom (C : Collect τ W) (C' : Collect τ W') (f : W → W') : Prop where
  empty : f C.empty = C'.empty
  snoc : ∀ w a, f (C.snoc w a) = C'.snoc (f w) a

variable {C : Collect τ W} {C' : Collect τ W'} {f : W → W'} (h : C.Hom C' f) (s : State τ W)

/-- An operator ends alike. -/
theorem map_endOp : s.endOp.map f = (s.map f).endOp := by
  unfold State.endOp
  by_cases hop : s.op = []
  · rw [if_pos hop, if_pos (show (s.map f).op = [] from hop)]
  · rw [if_neg hop, if_neg (show ¬(s.map f).op = [] from hop)]
    rfl

/-- A word ends alike. -/
theorem map_endWord : s.endWord.map f = (s.map f).endWord := by
  obtain ⟨pending, op, word, stack, out⟩ := s
  cases word with
  | none => rfl
  | some w => rfl

theorem map_pop : s.pop.map f = (s.map f).pop := by
  unfold State.map State.pop
  simp only [List.map_tail]

theorem map_swap (frame : Frame W) : (s.swap frame).map f = (s.map f).swap (frame.map f) := by
  unfold State.map State.swap
  simp only [List.map_cons, List.map_tail]

/-- A parenthesis opens alike. -/
theorem map_openParen : (openParen s).map f = openParen (s.map f) := by
  have hemit : (s.endWord.emit ['(']).map f = (s.map f).endWord.emit ['('] := by
    rw [← map_endWord]
    rfl
  obtain ⟨pending, op, word, stack, out⟩ := s
  cases stack with
  | nil => exact hemit
  | cons frame stack =>
    cases frame with
    | subst b depth outer =>
      cases b with
      | true => exact hemit
      | false =>
        exact (map_swap _ _).trans (congrArg (State.swap · _) hemit)
    | _ => exact hemit

include h

/-- One more character, on a word in progress or on a new one. -/
theorem snoc_getD (word : Option W) (a : Char × τ) :
    f (C.snoc (word.getD C.empty) a) = C'.snoc ((word.map f).getD C'.empty) a := by
  cases word with
  | none => rw [Option.getD_none, h.snoc, h.empty, Option.map_none, Option.getD_none]
  | some w => rw [Option.getD_some, h.snoc, Option.map_some, Option.getD_some]

/-- The word grows alike. -/
theorem map_add (a : Char × τ) : (add C s a).map f = add C' (s.map f) a := by
  unfold add State.map
  simp only [Option.map_some, snoc_getD h]

/-- A substitution starts alike. -/
theorem map_enter (b : Bool) (a : Char × τ) :
    (enter C s b a).map f = enter C' (s.map f) b a := by
  unfold enter State.map State.emit
  simp only [Option.map_none, List.map_cons, Frame.map, Token.map, snoc_getD h]

/-- A substitution ends alike. -/
theorem map_leave (outer : W) (a : Char × τ) :
    (leave C s outer a).map f = leave C' (s.map f) (f outer) a := by
  unfold leave
  rw [← map_endWord]
  unfold State.map State.pop State.emit
  simp only [Option.map_some, h.snoc, List.map_cons, List.map_tail, Token.map]

/-- A parenthesis closes alike. -/
theorem map_closeParen (a : Char × τ) :
    (closeParen C s a).map f = closeParen C' (s.map f) a := by
  have hemit : (s.endWord.emit [')']).map f = (s.map f).endWord.emit [')'] := by
    rw [← map_endWord]
    rfl
  obtain ⟨pending, op, word, stack, out⟩ := s
  cases stack with
  | nil => exact hemit
  | cons frame stack =>
    cases frame with
    | subst b depth outer =>
      cases b with
      | true => exact hemit
      | false =>
        cases depth with
        | zero => exact map_leave h _ outer a
        | succ depth =>
          exact (map_swap _ _).trans (congrArg (State.swap · _) hemit)
    | _ => exact hemit

theorem map_backquote (a : Char × τ) : (backquote C s a).map f = backquote C' (s.map f) a := by
  obtain ⟨pending, op, word, stack, out⟩ := s
  cases stack with
  | nil => exact map_enter h _ true a
  | cons frame stack =>
    cases frame with
    | subst b depth outer =>
      cases b with
      | true => exact map_leave h _ outer a
      | false => exact map_enter h _ true a
    | _ => exact map_enter h _ true a

/-- A character among commands is read alike. -/
theorem map_readCommand (a : Char × τ) :
    (readCommand C s a).map f = readCommand C' (s.map f) a := by
  unfold readCommand
  cases kind a.1 with
  | plain => exact map_add h s a
  | openBrace => exact map_add h s a
  | closeBrace => exact map_add h s a
  | blank => exact map_endWord s
  | newline => exact congrArg (State.emit · [a.1]) (map_endWord s)
  | hash =>
    have hword : (s.map f).word.isSome = s.word.isSome := Option.isSome_map
    simp only [hword]
    split
    · exact map_add h s a
    · rfl
  | operator => exact congrArg (fun t : State τ W' => { t with op := [a.1] }) (map_endWord s)
  | openParen => exact map_openParen s
  | closeParen => exact map_closeParen h s a
  | backslash => rfl
  | singleQuote => exact congrArg (State.push · .single) (map_add h s a)
  | doubleQuote => exact congrArg (State.push · .double) (map_add h s a)
  | backquote => exact map_backquote h s a
  | dollar => exact congrArg (State.wait · .dollar) (map_add h s a)

theorem map_readSingle (a : Char × τ) : (readSingle C s a).map f = readSingle C' (s.map f) a := by
  unfold readSingle
  cases kind a.1 with
  | singleQuote => exact (map_pop _).trans (congrArg State.pop (map_add h s a))
  | _ => exact map_add h s a

theorem map_readDouble (a : Char × τ) : (readDouble C s a).map f = readDouble C' (s.map f) a := by
  unfold readDouble
  cases kind a.1 with
  | backslash => rfl
  | doubleQuote => exact (map_pop _).trans (congrArg State.pop (map_add h s a))
  | backquote => exact map_enter h s true a
  | dollar => exact congrArg (State.wait · .dollar) (map_add h s a)
  | _ => exact map_add h s a

theorem map_readBraces (a : Char × τ) : (readBraces C s a).map f = readBraces C' (s.map f) a := by
  unfold readBraces
  cases kind a.1 with
  | backslash => rfl
  | singleQuote => exact congrArg (State.push · .single) (map_add h s a)
  | doubleQuote => exact congrArg (State.push · .double) (map_add h s a)
  | closeBrace => exact (map_pop _).trans (congrArg State.pop (map_add h s a))
  | backquote => exact map_enter h s true a
  | dollar => exact congrArg (State.wait · .dollar) (map_add h s a)
  | _ => exact map_add h s a

theorem map_readArith (depth : Nat) (a : Char × τ) :
    (readArith C s depth a).map f = readArith C' (s.map f) depth a := by
  unfold readArith
  cases kind a.1 with
  | backslash => rfl
  | backquote => exact map_enter h s true a
  | dollar => exact congrArg (State.wait · .dollar) (map_add h s a)
  | openParen => exact (map_swap _ _).trans (congrArg (State.swap · _) (map_add h s a))
  | closeParen =>
    cases depth with
    | zero => exact (map_pop _).trans (congrArg State.pop (map_add h s a))
    | succ depth => exact (map_swap _ _).trans (congrArg (State.swap · _) (map_add h s a))
  | _ => exact map_add h s a

theorem map_readComment (a : Char × τ) : (readComment C s a).map f = readComment C' (s.map f) a := by
  unfold readComment
  cases kind a.1 with
  | newline => exact (map_readCommand h s.pop a).trans (congrArg (readCommand C' · a) (map_pop s))
  | _ => rfl

theorem map_readIn (a : Char × τ) : (readIn C s a).map f = readIn C' (s.map f) a := by
  obtain ⟨pending, op, word, stack, out⟩ := s
  cases stack with
  | nil => exact map_readCommand h _ a
  | cons frame stack =>
    cases frame with
    | single => exact map_readSingle h _ a
    | double => exact map_readDouble h _ a
    | braces => exact map_readBraces h _ a
    | arith depth => exact map_readArith h _ depth a
    | comment => exact map_readComment h _ a
    | subst b depth outer => exact map_readCommand h _ a

theorem map_add_add (b a : Char × τ) :
    (add C (add C s b) a).map f = add C' (add C' (s.map f) b) a := by
  rw [map_add h, map_add h]

/-- What the last character waits for is met alike. -/
theorem map_readNext (a : Char × τ) : (readNext C s a).map f = readNext C' (s.map f) a := by
  obtain ⟨pending, op, word, stack, out⟩ := s
  unfold readNext
  cases pending with
  | none => exact map_readIn h _ a
  | escape b =>
    cases kind a.1 with
    | newline => rfl
    | _ => exact map_add_add h _ b a
  | dollar =>
    cases kind a.1 with
    | openParen => rfl
    | openBrace => exact congrArg (State.push · .braces) (map_add h _ a)
    | dollar => exact map_add h _ a
    | _ => exact map_readIn h _ a
  | dollarParen b =>
    cases kind a.1 with
    | openParen => exact congrArg (State.push · (.arith 1)) (map_add_add h _ b a)
    | _ =>
      exact (map_readCommand h _ a).trans (congrArg (readCommand C' · a) (map_enter h _ false b))

/-- **Reading does not depend on how words are collected.** -/
theorem read_map (a : Char × τ) : (read C s a).map f = read C' (s.map f) a := by
  unfold read
  by_cases hop : s.op ≠ [] ∧ continues s.op a.1
  · rw [if_pos hop, if_pos (show (s.map f).op ≠ [] ∧ continues (s.map f).op a.1 from hop)]
    rfl
  · rw [if_neg hop, if_neg (show ¬((s.map f).op ≠ [] ∧ continues (s.map f).op a.1) from hop),
      map_readNext h, map_endOp]

theorem run_map (text : List (Char × τ)) : (run C s text).map f = run C' (s.map f) text := by
  induction text generalizing s with
  | nil => rfl
  | cons a text ih => rw [run_cons, run_cons, ih, read_map h]

omit h in
/-- What is open does not depend on the words. -/
theorem isClosed_map : isClosed (s.map f) = isClosed s := by
  obtain ⟨pending, op, word, stack, out⟩ := s
  cases stack with
  | nil => cases pending <;> rfl
  | cons frame stack =>
    cases stack with
    | nil => cases frame <;> cases pending <;> rfl
    | cons frame' stack => cases frame <;> rfl

omit h in
/-- The frame on top reads the same. -/
theorem special_map (stack : List (Frame W)) : special (stack.map (Frame.map f)) = special stack := by
  cases stack with
  | nil => rfl
  | cons frame stack => cases frame <;> rfl

omit h in
/-- Readings that end alike have their words alike. -/
theorem tokens_eq_of_map {s' : State τ W} (hs : s.map f = s'.map f) :
    s.endOp.endWord.out.map (Token.map f) = s'.endOp.endWord.out.map (Token.map f) := by
  show (s.endOp.endWord.map f).out = (s'.endOp.endWord.map f).out
  rw [map_endWord, map_endWord, map_endOp, map_endOp, hs]

end

/-- Which lines are blank does not depend on the words. -/
theorem map_dropBlankLines {W W' : Type} {f : W → W'} : ∀ (fresh : Bool) (tokens : List (Token W)),
    (dropBlankLines fresh tokens).map (Token.map f) = dropBlankLines fresh (tokens.map (Token.map f))
  | _, [] => rfl
  | fresh, .word w :: rest => by
    rw [dropBlankLines, List.map_cons, List.map_cons, Token.map, dropBlankLines,
      map_dropBlankLines false rest]
  | fresh, .op text :: rest => by
    have hend : atEnd (dropBlankLines true (rest.map (Token.map f))) =
        atEnd (dropBlankLines true rest) := by
      rw [← map_dropBlankLines true rest]
      cases dropBlankLines true rest with
      | nil => rfl
      | cons token rest' => cases token <;> rfl
    rw [dropBlankLines, List.map_cons, Token.map, dropBlankLines, hend]
    split
    · split
      · exact map_dropBlankLines true rest
      · exact congrArg (List.cons (.op text)) (map_dropBlankLines true rest)
    · exact congrArg (List.cons (.op text)) (map_dropBlankLines _ rest)

/-! ## Ways out -/

section

variable {τ W : Type} (C : Collect τ W)

/-- Commands are read here. -/
def AtCommand : List (Frame W) → Prop
  | [] | .subst _ _ _ :: _ => True
  | _ => False

/-- Nothing is waited for, and commands are read. -/
def InCommand (s : State τ W) : Prop := s.pending = .none ∧ AtCommand s.stack

/-- Ending an operator waits for nothing new. -/
theorem pending_endOp (s : State τ W) : s.endOp.pending = s.pending := by
  unfold State.endOp
  split <;> rfl

/-- Ending an operator opens and closes nothing. -/
theorem stack_endOp (s : State τ W) : s.endOp.stack = s.stack := by
  unfold State.endOp
  split <;> rfl

/-- No operator is in progress after its end. -/
theorem op_endOp (s : State τ W) : s.endOp.op = [] := by
  unfold State.endOp
  split
  · assumption
  · rfl

theorem pending_endWord (s : State τ W) : s.endWord.pending = s.pending := by
  unfold State.endWord
  split <;> rfl

/-- Ending a word opens and closes nothing. -/
theorem stack_endWord (s : State τ W) : s.endWord.stack = s.stack := by
  unfold State.endWord
  split <;> rfl

/-- No operator goes on with this character. -/
theorem read_of_not_mem (s : State τ W) {c : Char} (hc : c ∉ ['&', '|', ';', '<', '>', '-']) (m : τ) :
    read C s (c, m) = readNext C s.endOp (c, m) := by
  unfold read
  rw [if_neg fun h => hc (mem_of_continues h.2)]

/-- Where nothing is waited for, the frame on top reads the character. -/
theorem read_of_pending {s : State τ W} (h : s.pending = .none) {c : Char}
    (hc : c ∉ ['&', '|', ';', '<', '>', '-']) (m : τ) :
    read C s (c, m) = readIn C s.endOp (c, m) := by
  rw [read_of_not_mem C s hc, readNext, pending_endOp, h]

/-- Among commands a character is read as one of a command. -/
theorem readIn_of_atCommand {s : State τ W} (h : AtCommand s.stack) (a : Char × τ) :
    readIn C s a = readCommand C s a := by
  obtain ⟨pending, op, word, stack, out⟩ := s
  cases stack with
  | nil => rfl
  | cons frame stack =>
    cases frame with
    | subst b depth outer => rfl
    | _ => exact absurd h not_false

/-- More tokens have no fewer words. -/
theorem wordsOf_length_le {ts ts' : List (Token W)} (h : ts <:+ ts') :
    (wordsOf ts).length ≤ (wordsOf ts').length := (h.filterMap Token.word?).length_le

/-- Among commands, a plain character and a newline are a word, whatever stood before. -/
theorem run_line {s : State τ W} (h : InCommand s) {c : Char}
    (hc : c ∉ ['&', '|', ';', '<', '>', '-']) (hkind : kind c = .plain) (m : τ) :
    InCommand (run C s [(c, m), ('\n', m)]) ∧
      (wordsOf s.out).length < (wordsOf (run C s [(c, m), ('\n', m)]).out).length := by
  have hword : read C s (c, m) = add C s.endOp (c, m) := by
    rw [read_of_pending C h.1 hc, readIn_of_atCommand C (by rw [stack_endOp]; exact h.2), readCommand,
      hkind]
  have hop : s.endOp.op = [] := op_endOp s
  have hend : (add C s.endOp (c, m)).endOp = add C s.endOp (c, m) := if_pos hop
  have hnewline : read C (add C s.endOp (c, m)) ('\n', m) =
      readIn C (add C s.endOp (c, m)).endOp ('\n', m) :=
    read_of_pending C (show (add C s.endOp (c, m)).pending = .none from (pending_endOp s).trans h.1)
      (by decide) m
  have hline : run C s [(c, m), ('\n', m)] = (add C s.endOp (c, m)).endWord.emit ['\n'] := by
    rw [run_cons, run_cons, run_nil, hword, hnewline, hend, readIn_of_atCommand C]
    · rfl
    · show AtCommand s.endOp.stack
      rw [stack_endOp]
      exact h.2
  rw [hline]
  refine ⟨⟨?_, ?_⟩, ?_⟩
  · exact (pending_endOp s).trans h.1
  · show AtCommand s.endOp.stack
    rw [stack_endOp]
    exact h.2
  · exact Nat.lt_succ_of_le (wordsOf_length_le (out_endOp s))

/-- Any number of such lines is at least as many words. -/
theorem run_lines {s : State τ W} (h : InCommand s) {c : Char}
    (hc : c ∉ ['&', '|', ';', '<', '>', '-']) (hkind : kind c = .plain) (m : τ) (n : Nat) :
    n ≤ (wordsOf (run C s (List.replicate n [(c, m), ('\n', m)]).flatten).out).length := by
  have hlen : ∀ (n : Nat) (s : State τ W), InCommand s → (wordsOf s.out).length + n ≤
      (wordsOf (run C s (List.replicate n [(c, m), ('\n', m)]).flatten).out).length := by
    intro n
    induction n with
    | zero => exact fun s _ => le_refl _
    | succ n ih =>
      intro s hs
      obtain ⟨hnext, hlt⟩ := run_line C hs hc hkind m
      have hrest := ih _ hnext
      rw [List.replicate_succ, List.flatten_cons, run_append]
      omega
  exact (Nat.le_add_left n _).trans (hlen n s h)

/-- A character that closes the frame on top. -/
theorem run_pop {m : τ} {s : State τ W} {frame : Frame W} {stack : List (Frame W)}
    (hpending : s.pending = .none) (hstack : s.stack = frame :: stack) {c : Char}
    (hc : c ∉ ['&', '|', ';', '<', '>', '-'])
    (hpop : readIn C s.endOp (c, m) = (add C s.endOp (c, m)).pop) :
    (run C s ([c].map (·, m))).pending = .none ∧ (run C s ([c].map (·, m))).stack = stack := by
  show (read C s (c, m)).pending = .none ∧ (read C s (c, m)).stack = stack
  rw [read_of_pending C hpending hc, hpop]
  refine ⟨(pending_endOp s).trans hpending, ?_⟩
  show s.endOp.stack.tail = stack
  rw [stack_endOp, hstack, List.tail_cons]

/-- An arithmetic expansion is closed by as many parentheses as are open in it. -/
theorem exists_close_arith (m : τ) {stack : List (Frame W)} (depth : Nat) :
    ∀ s : State τ W, s.pending = .none → s.stack = .arith depth :: stack →
      ∃ text : List Char, (run C s (text.map (·, m))).pending = .none ∧
        (run C s (text.map (·, m))).stack = stack := by
  induction depth with
  | zero =>
    intro s hpending hstack
    refine ⟨[')'], run_pop C hpending hstack (by decide) ?_⟩
    rw [readIn, stack_endOp, hstack]
    rfl
  | succ depth ih =>
    intro s hpending hstack
    have hread : read C s (')', m) = (add C s.endOp (')', m)).swap (.arith depth) := by
      rw [read_of_pending C hpending (by decide), readIn, stack_endOp, hstack]
      rfl
    have hnone : (read C s (')', m)).pending = .none := by
      rw [hread]
      exact (pending_endOp s).trans hpending
    have hnext : (read C s (')', m)).stack = .arith depth :: stack := by
      rw [hread]
      show Frame.arith depth :: s.endOp.stack.tail = _
      rw [stack_endOp, hstack, List.tail_cons]
    obtain ⟨text, htext⟩ := ih _ hnone hnext
    exact ⟨')' :: text, htext⟩

/-- What is open and is no substitution can be closed. -/
theorem exists_close (m : τ) {s : State τ W} {frame : Frame W} {stack : List (Frame W)}
    (hpending : s.pending = .none) (hstack : s.stack = frame :: stack)
    (hframe : ¬AtCommand (frame :: stack)) :
    ∃ text : List Char, (run C s (text.map (·, m))).pending = .none ∧
      (run C s (text.map (·, m))).stack = stack := by
  cases frame with
  | single =>
    refine ⟨[Char.ofNat 39], run_pop C hpending hstack (by decide) ?_⟩
    rw [readIn, stack_endOp, hstack]
    rfl
  | double =>
    refine ⟨[Char.ofNat 34], run_pop C hpending hstack (by decide) ?_⟩
    rw [readIn, stack_endOp, hstack]
    rfl
  | braces =>
    refine ⟨[Char.ofNat 125], run_pop C hpending hstack (by decide) ?_⟩
    rw [readIn, stack_endOp, hstack]
    rfl
  | arith depth => exact exists_close_arith C m depth s hpending hstack
  | comment =>
    refine ⟨['\n'], ?_⟩
    show (read C s ('\n', m)).pending = .none ∧ (read C s ('\n', m)).stack = stack
    have hread : read C s ('\n', m) = s.endOp.pop.endWord.emit ['\n'] := by
      rw [read_of_pending C hpending (by decide), readIn, stack_endOp, hstack]
      rfl
    rw [hread]
    refine ⟨(pending_endWord _).trans ((pending_endOp s).trans hpending), ?_⟩
    refine (stack_endWord _).trans ?_
    show s.endOp.stack.tail = stack
    rw [stack_endOp, hstack, List.tail_cons]
  | subst b depth outer => exact absurd trivial hframe

/-- **Every quoting can be closed**: some text leads back to commands. -/
theorem exists_inCommand (m : τ) (s : State τ W) (hpending : s.pending = .none) :
    ∃ text : List Char, InCommand (run C s (text.map (·, m))) := by
  have hstack : ∀ (stack : List (Frame W)) (s : State τ W), s.stack = stack → s.pending = .none →
      ∃ text : List Char, InCommand (run C s (text.map (·, m))) := by
    intro stack
    induction stack with
    | nil => exact fun s hs hp => ⟨[], hp, hs ▸ trivial⟩
    | cons frame stack ih =>
      intro s hs hp
      by_cases hat : AtCommand (frame :: stack)
      · exact ⟨[], hp, show AtCommand s.stack from hs ▸ hat⟩
      · obtain ⟨text, hp', hs'⟩ := exists_close C m hp hs hat
        obtain ⟨text', htext'⟩ := ih _ hs' hp'
        refine ⟨text ++ text', ?_⟩
        rw [List.map_append, run_append]
        exact htext'
  exact hstack s.stack s rfl hpending

/-! ## Characters that only grow the word -/

/-- No operator is in progress, nothing is waited for, and among commands a word is. -/
structure Settled (s : State τ W) : Prop where
  pending : s.pending = .none
  op : s.op = []
  word : AtCommand s.stack → s.word.isSome

/-- The word grows, except in a comment. -/
def grow (s : State τ W) (a : Char × τ) : State τ W :=
  match s.stack with
  | .comment :: _ => s
  | _ => add C s a

/-- A word that has grown is still settled. -/
theorem Settled.grow {s : State τ W} (h : Settled s) (a : Char × τ) : Settled (grow C s a) := by
  unfold ShellWords.grow
  split
  · exact h
  · exact ⟨h.pending, h.op, fun _ => rfl⟩

/-- Growing opens and closes nothing. -/
theorem stack_grow (s : State τ W) (a : Char × τ) : (grow C s a).stack = s.stack := by
  unfold grow
  split <;> rfl

/-- The frame on top lets the word grow by every character that is not special there. -/
theorem readIn_inert {s : State τ W} (hword : AtCommand s.stack → s.word.isSome) {a : Char × τ}
    (ha : kind a.1 ∉ special s.stack) : readIn C s a = grow C s a := by
  obtain ⟨pending, op, word, stack, out⟩ := s
  have hcommand : AtCommand stack → kind a.1 ∉ special ([] : List (Frame W)) →
      readCommand C ⟨pending, op, word, stack, out⟩ a = add C ⟨pending, op, word, stack, out⟩ a := by
    intro hat hnot
    have hsome : word.isSome = true := hword hat
    unfold readCommand
    cases hk : kind a.1 <;> simp_all [special]
  cases stack with
  | nil => exact hcommand trivial ha
  | cons frame stack =>
    cases frame with
    | subst b depth outer => exact hcommand trivial ha
    | single =>
      unfold readIn grow readSingle
      cases hk : kind a.1 <;> simp_all [special]
    | double =>
      unfold readIn grow readDouble
      cases hk : kind a.1 <;> simp_all [special]
    | braces =>
      unfold readIn grow readBraces
      cases hk : kind a.1 <;> simp_all [special]
    | arith depth =>
      unfold readIn grow readArith
      cases hk : kind a.1 <;> simp_all [special]
    | comment =>
      unfold readIn grow readComment
      cases hk : kind a.1 <;> simp_all [special]

/-- **A character that is not special where it stands only grows the word.** -/
theorem read_inert {s : State τ W} (h : Settled s) {a : Char × τ} (ha : kind a.1 ∉ special s.stack) :
    read C s a = grow C s a := by
  have hread : read C s a = readIn C s a := by
    rw [read, if_neg fun hop => hop.1 h.op, readNext, State.endOp, if_pos h.op, h.pending]
  rw [hread, readIn_inert C h.word ha]

/-- A text without special characters only grows the word. -/
theorem run_inert {s : State τ W} (h : Settled s) (text : List (Char × τ))
    (htext : ∀ a ∈ text, kind a.1 ∉ special s.stack) : run C s text = text.foldl (grow C) s := by
  induction text generalizing s with
  | nil => rfl
  | cons a text ih =>
    obtain ⟨ha, htext⟩ := List.forall_mem_cons.mp htext
    rw [run_cons, read_inert C h ha, List.foldl_cons]
    refine ih (h.grow C a) fun b hb => ?_
    rw [stack_grow]
    exact htext b hb

/-- A plain character is added to the word, or lost in a comment. -/
theorem read_plain {c : Char} (hc : c ∉ ['&', '|', ';', '<', '>', '-']) (hkind : kind c = .plain)
    (s : State τ W) (m : τ) :
    ∃ t : State τ W, t.pending = .none ∧ t.op = [] ∧ (read C s (c, m) = add C t (c, m) ∨
      (∃ stack, t.stack = .comment :: stack) ∧ read C s (c, m) = t) := by
  have hin : ∀ t : State τ W, readIn C t (c, m) = add C t (c, m) ∨
      (∃ stack, t.stack = .comment :: stack) ∧ readIn C t (c, m) = t := by
    rintro ⟨pending, op, word, stack, out⟩
    unfold readIn readCommand readSingle readDouble readBraces readArith readComment
    rw [hkind]
    cases stack with
    | nil => exact Or.inl rfl
    | cons frame stack =>
      cases frame with
      | comment => exact Or.inr ⟨⟨stack, rfl⟩, rfl⟩
      | _ => exact Or.inl rfl
  have hop : s.endOp.op = [] := op_endOp s
  rw [read_of_not_mem C s hc]
  unfold readNext
  rw [hkind]
  cases hpending : s.endOp.pending with
  | none => exact ⟨s.endOp, hpending, hop, hin s.endOp⟩
  | escape b => exact ⟨add C (s.endOp.wait .none) b, rfl, hop, Or.inl rfl⟩
  | dollar => exact ⟨s.endOp.wait .none, rfl, hop, hin _⟩
  | dollarParen b =>
    refine ⟨enter C (s.endOp.wait .none) false b, rfl, hop, Or.inl ?_⟩
    unfold readCommand
    rw [hkind]

/-- A plain character ends operators and leaves nothing to wait for. -/
theorem settled_read {c : Char} (hc : c ∉ ['&', '|', ';', '<', '>', '-']) (hkind : kind c = .plain)
    (s : State τ W) (m : τ) : Settled (read C s (c, m)) := by
  obtain ⟨t, hpending, hop, hadd | ⟨⟨stack, hstack⟩, hsame⟩⟩ := read_plain C hc hkind s m
  · rw [hadd]
    exact ⟨hpending, hop, fun _ => rfl⟩
  · rw [hsame]
    refine ⟨hpending, hop, fun hat => ?_⟩
    rw [hstack] at hat
    exact absurd hat not_false

/-- A mark of which a word keeps only that it was there. -/
def Absorbs (m : τ) : Prop := ∀ w c d, C.snoc (C.snoc w (c, m)) (d, m) = C.snoc w (c, m)

/-- **A marked text that is not special where it stands reads like its first character.** -/
theorem run_absorbed {m : τ} (hm : Absorbs C m) {c : Char} (hc : c ∉ ['&', '|', ';', '<', '>', '-'])
    (hkind : kind c = .plain) (s : State τ W) {text : List Char}
    (htext : ∀ d ∈ text, kind d ∉ special (read C s (c, m)).stack) :
    run C s ((c :: text).map (·, m)) = read C s (c, m) := by
  have hgrow : ∀ d, grow C (read C s (c, m)) (d, m) = read C s (c, m) := by
    intro d
    obtain ⟨t, -, -, hadd | ⟨⟨stack, hstack⟩, hsame⟩⟩ := read_plain C hc hkind s m
    · rw [hadd]
      unfold grow
      split
      · rfl
      · unfold add
        simp only [Option.getD_some, hm (t.word.getD C.empty) c d]
    · rw [hsame]
      unfold grow
      rw [hstack]
  have hfold : ∀ text : List Char,
      (text.map (·, m)).foldl (grow C) (read C s (c, m)) = read C s (c, m) := by
    intro text
    induction text with
    | nil => rfl
    | cons d text ih => rw [List.map_cons, List.foldl_cons, hgrow, ih]
  rw [List.map_cons, run_cons, run_inert C (settled_read C hc hkind s m), hfold]
  intro a ha
  obtain ⟨d, hd, rfl⟩ := List.mem_map.mp ha
  exact htext d hd

end

end RdRs.ShellWords
