import Xv6Gui.ShellTokens

/-!
# The parser reads what was rendered

A command tree is written with parentheses around each subtree. Each function of the parser is
described by what it reads and by what may follow: it stops in front of the rest of the line.
-/
namespace ShellRenderings

open WordMemory GuardedRuns ShellParser ShellTokens
open WindowManagerState (Fault)

inductive Direction
  | input
  | output
  deriving DecidableEq, Repr

def Direction.symbol : Direction → Byte
  | .input => byte '<'
  | .output => byte '>'

def Direction.mode : Direction → ℕ
  | .input => oRdonly
  | .output => oWronly ||| oCreate

def Direction.fd : Direction → ℕ
  | .input => 0
  | .output => 1

/-- A command tree that can be written down. -/
inductive Tree
  | exec (argv : List Name) (few : argv.length < maxargs)
  | redir (cmd : Tree) (file : Name) (dir : Direction)
  | pipe (left right : Tree)
  | list (left right : Tree)
  | back (cmd : Tree)

def Tree.cmd : Tree → Cmd Name
  | .exec argv _ => .exec argv
  | .redir cmd file dir => .redir cmd.cmd file dir.mode dir.fd
  | .pipe left right => .pipe left.cmd right.cmd
  | .list left right => .list left.cmd right.cmd
  | .back cmd => .back cmd.cmd

def parens (toks : List Token) : List Token :=
  .symbol (byte '(') :: (toks ++ [.symbol (byte ')')])

/-- The tree with parentheses around each subtree. -/
def Tree.tokens : Tree → List Token
  | .exec argv _ => argv.map .word
  | .redir cmd file dir => parens cmd.tokens ++ [.symbol dir.symbol, .word file]
  | .pipe left right => parens left.tokens ++ .symbol (byte '|') :: parens right.tokens
  | .list left right => parens left.tokens ++ .symbol (byte ';') :: parens right.tokens
  | .back cmd => parens cmd.tokens ++ [.symbol (byte '&')]

/-- Two commands of one shape, with related strings. -/
inductive Matches {α β : Type} (R : α → β → Prop) : Cmd α → Cmd β → Prop
  | exec {as bs} : List.Forall₂ R as bs → Matches R (.exec as) (.exec bs)
  | redir {c d a b} (mode fd : ℕ) : Matches R c d → R a b →
      Matches R (.redir c a mode fd) (.redir d b mode fd)
  | pipe {c d c' d'} : Matches R c d → Matches R c' d' → Matches R (.pipe c c') (.pipe d d')
  | list {c d c' d'} : Matches R c d → Matches R c' d' → Matches R (.list c c') (.list d d')
  | back {c d} : Matches R c d → Matches R (.back c) (.back d)

section Functions

variable {mem : Memory} {es n : ℕ}

/-- `f` reads the tokens as the command and stops in front of the others. -/
def Parses (mem : Memory) (es : ℕ) (f : ℕ → Except Fault (Cmd Slice × ℕ))
    (toks rest : List Token) (c : Cmd Name) : Prop :=
  ∀ s, Ready mem es s (toks ++ rest) →
    ∃ cmd s', f s = .ok (cmd, s') ∧ Ready mem es s' rest ∧ Matches (Spells mem) cmd c

variable {toks left right rest : List Token} {c d : Cmd Name}

theorem parseredirs_stop {s : ℕ} (cmd : Cmd Slice) (h : Ready mem es s rest)
    (hrest : starts (['<', '>'].map byte) rest = false) (hn : 0 < n) :
    ∃ s', parseredirs mem es n cmd s = .ok (cmd, s') ∧ Ready mem es s' rest := by
  obtain ⟨n, rfl⟩ := Nat.exists_eq_add_one.mpr hn
  obtain ⟨s', hpeek, hready⟩ := peek_ready (['<', '>'].map byte) h redirects_symbols
  refine ⟨s', ?_, hready⟩
  simp only [parseredirs, hpeek, hrest, Bool.false_eq_true, if_false]

theorem parseredirs_redirect {s : ℕ} {file : Name} {dir : Direction} (cmd : Cmd Slice)
    (h : Ready mem es s (.symbol dir.symbol :: .word file :: rest))
    (hrest : starts (['<', '>'].map byte) rest = false) (hn : 1 < n) :
    ∃ a s', parseredirs mem es n cmd s = .ok (.redir cmd a dir.mode dir.fd, s') ∧
      Spells mem a file ∧ Ready mem es s' rest := by
  obtain ⟨n, rfl⟩ : ∃ k, n = k + 1 := ⟨n - 1, by omega⟩
  obtain ⟨s₁, hpeek, hready⟩ := peek_ready (['<', '>'].map byte) h redirects_symbols
  have hstarts : starts (['<', '>'].map byte)
      (.symbol dir.symbol :: .word file :: rest) = true := by cases dir <;> rfl
  obtain ⟨hret, hnext⟩ := gettoken_symbol hready fun _ => rfl
  obtain ⟨hword, hspells, hafter⟩ := gettoken_word hnext
  have hredirect : ∀ a, redirect cmd dir.symbol a = .redir cmd a dir.mode dir.fd := by
    intro a
    cases dir <;> rfl
  obtain ⟨s', hloop, hready'⟩ := parseredirs_stop (n := n)
    (redirect cmd dir.symbol (gettoken mem es (gettoken mem es s₁).ps).slice) hafter hrest
    (by omega)
  refine ⟨_, s', ?_, hspells, hready'⟩
  rw [← hredirect, ← hloop]
  simp only [parseredirs, hpeek, hstarts, if_true, hword, ne_eq, not_true_eq_false, if_false, hret]

/-- What may follow a tree: the end of the line or of the block around it. -/
def Closes (rest : List Token) : Prop := rest = [] ∨ ∃ toks, rest = .symbol (byte ')') :: toks

theorem closes_parens (rest : List Token) : Closes (.symbol (byte ')') :: rest) := .inr ⟨rest, rfl⟩

theorem Closes.not_starts {cs : List Byte} (h : Closes rest) (hcs : byte ')' ∉ cs) :
    starts cs rest = false := by
  rcases h with rfl | ⟨toks, rfl⟩
  · rfl
  · exact strchr_eq_false hcs

theorem Closes.redirects (h : Closes rest) : starts (['<', '>'].map byte) rest = false :=
  h.not_starts (by decide)

theorem Closes.bar (h : Closes rest) : starts [byte '|'] rest = false := h.not_starts (by decide)

theorem Closes.amp (h : Closes rest) : starts [byte '&'] rest = false := h.not_starts (by decide)

theorem Closes.semi (h : Closes rest) : starts [byte ';'] rest = false := h.not_starts (by decide)

theorem parseargs_words {ws done : List Name} {argv : List Slice} {s argc : ℕ}
    (h : Ready mem es s (ws.map .word ++ rest)) (hrest : Closes rest)
    (hdone : List.Forall₂ (Spells mem) argv done) (hfew : argc + ws.length < maxargs)
    (hn : ws.length < n) :
    ∃ argv' s', parseargs mem es n argc (.exec argv) s = .ok (.exec argv', s') ∧
      Ready mem es s' rest ∧ List.Forall₂ (Spells mem) argv' (done ++ ws) := by
  obtain ⟨n, rfl⟩ : ∃ k, n = k + 1 := ⟨n - 1, by omega⟩
  obtain ⟨s₁, hpeek, hready⟩ := peek_ready (['|', ')', '&', ';'].map byte) h ends_symbols
  induction ws generalizing s s₁ argc argv done n with
  | nil =>
    rw [List.append_nil]
    rcases hrest with rfl | ⟨toks, rfl⟩
    · obtain ⟨hret, hend⟩ := gettoken_end hready
      refine ⟨argv, _, ?_, hend, hdone⟩
      have hstarts : starts (['|', ')', '&', ';'].map byte)
          (([] : List Name).map Token.word ++ []) = false := rfl
      simp only [parseargs, hpeek, hstarts, Bool.false_eq_true, if_false, hret, if_true]
    · refine ⟨argv, s₁, ?_, hready, hdone⟩
      have hstarts : starts (['|', ')', '&', ';'].map byte)
          (([] : List Name).map Token.word ++ .symbol (byte ')') :: toks) = true := rfl
      simp only [parseargs, hpeek, hstarts, if_true]
  | cons w ws ih =>
    rw [List.length_cons] at hfew hn
    have hstarts : starts (['|', ')', '&', ';'].map byte)
        ((w :: ws).map Token.word ++ rest) = false := rfl
    obtain ⟨hret, hspells, hnext⟩ := gettoken_word hready
    have hnone : starts (['<', '>'].map byte) (ws.map Token.word ++ rest) = false := by
      cases ws with
      | nil => exact hrest.redirects
      | cons w' ws => rfl
    have hdone' : List.Forall₂ (Spells mem) (argv ++ [(gettoken mem es s₁).slice])
        (done ++ [w]) := List.rel_append hdone (.cons hspells .nil)
    obtain ⟨s₂, hredirs, hready₂⟩ := parseredirs_stop (n := n)
      (addArg (.exec argv) (gettoken mem es s₁).slice) hnext hnone (by omega)
    obtain ⟨n, rfl⟩ : ∃ k, n = k + 1 := ⟨n - 1, by omega⟩
    obtain ⟨s₃, hpeek₃, hready₃⟩ :=
      peek_ready (['|', ')', '&', ';'].map byte) hready₂ ends_symbols
    obtain ⟨argv', s', hloop, hready', hall⟩ :=
      ih hready₂ hdone' (show argc + 1 + ws.length < maxargs by omega) n (by omega) s₃ hpeek₃
        hready₃
    refine ⟨argv', s', ?_, hready', ?_⟩
    · have hzero : byte 'a' ≠ 0 := by decide
      rw [parseargs]
      simp only [hpeek, hstarts, Bool.false_eq_true, if_false, hret, if_neg hzero, ne_eq,
        not_true_eq_false, if_neg (show ¬maxargs ≤ argc + 1 by omega), hredirs, ok_bind]
      exact hloop
    · rwa [List.append_assoc] at hall

theorem parseexec_words {ws : List Name} (hrest : Closes rest) (hfew : ws.length < maxargs)
    (hn : ws.length < n) :
    Parses mem es (parseexec mem es (n + 1)) (ws.map .word) rest (.exec ws) := by
  intro s h
  obtain ⟨s₁, hpeek, hready⟩ := peek_ready [byte '('] h open_symbol
  have hclosed : ∀ cs, byte ')' ∉ cs → starts cs (ws.map Token.word ++ rest) = false := by
    intro cs hcs
    cases ws with
    | nil => exact hrest.not_starts hcs
    | cons w ws => rfl
  obtain ⟨s₂, hredirs, hready₂⟩ := parseredirs_stop (n := n) (.exec []) hready
    (hclosed _ (by decide)) (by omega)
  obtain ⟨argv, s', hargs, hready', hall⟩ :=
    parseargs_words hready₂ hrest .nil (show 0 + ws.length < maxargs by omega) hn
  refine ⟨.exec argv, s', ?_, hready', .exec hall⟩
  rw [parseexec]
  simp only [hpeek, hclosed [byte '('] (by decide), Bool.false_eq_true, if_false, hredirs, ok_bind]
  exact hargs

theorem parens_append (toks rest : List Token) :
    parens toks ++ rest = .symbol (byte '(') :: (toks ++ .symbol (byte ')') :: rest) := by
  rw [parens, List.cons_append, List.append_assoc]
  rfl

/-- A block up to its parenthesis; what redirects it is still to be read. -/
theorem parseexec_block (h : Parses mem es (parseline mem es n) toks
      (.symbol (byte ')') :: rest) c) {s : ℕ} (hs : Ready mem es s (parens toks ++ rest)) :
    ∃ cmd s', parseexec mem es (n + 2) s = parseredirs mem es n cmd s' ∧
      Ready mem es s' rest ∧ Matches (Spells mem) cmd c := by
  rw [parens_append] at hs
  obtain ⟨s₁, hpeek, hready⟩ := peek_ready [byte '('] hs open_symbol
  have hopen : starts [byte '('] (.symbol (byte '(') :: (toks ++ .symbol (byte ')') :: rest)) =
      true := rfl
  obtain ⟨s₂, hpeek₂, hready₂⟩ := peek_ready [byte '('] hready open_symbol
  have hnext := (gettoken_symbol hready₂ fun hb => absurd hb (by decide)).2
  obtain ⟨cmd, s₃, hline, hready₃, hmatches⟩ := h _ hnext
  obtain ⟨s₄, hpeek₄, hready₄⟩ := peek_ready [byte ')'] hready₃ close_symbol
  have hclose : starts [byte ')'] (.symbol (byte ')') :: rest) = true := rfl
  have hafter := (gettoken_symbol hready₄ fun hb => absurd hb (by decide)).2
  refine ⟨cmd, _, ?_, hafter, hmatches⟩
  rw [parseexec]
  simp only [hpeek, hopen, if_true]
  rw [parseblock]
  simp only [hpeek₂, hopen, if_true, hline, ok_bind, hpeek₄, hclose]

theorem block_parses (h : Parses mem es (parseline mem es n) toks (.symbol (byte ')') :: rest) c)
    (hrest : starts (['<', '>'].map byte) rest = false) (hn : 0 < n) :
    Parses mem es (parseexec mem es (n + 2)) (parens toks) rest c := by
  intro s hs
  obtain ⟨cmd, s₁, hblock, hready, hmatches⟩ := parseexec_block h hs
  obtain ⟨s', hredirs, hready'⟩ := parseredirs_stop cmd hready hrest hn
  exact ⟨cmd, s', hblock.trans hredirs, hready', hmatches⟩

theorem redirected_parses {file : Name} {dir : Direction}
    (h : Parses mem es (parseline mem es n) toks
      (.symbol (byte ')') :: .symbol dir.symbol :: .word file :: rest) c)
    (hrest : starts (['<', '>'].map byte) rest = false) (hn : 1 < n) :
    Parses mem es (parseexec mem es (n + 2)) (parens toks ++ [.symbol dir.symbol, .word file])
      rest (.redir c file dir.mode dir.fd) := by
  intro s hs
  rw [List.append_assoc] at hs
  obtain ⟨cmd, s₁, hblock, hready, hmatches⟩ := parseexec_block h hs
  obtain ⟨a, s', hredirs, hspells, hready'⟩ := parseredirs_redirect cmd hready hrest hn
  exact ⟨_, s', hblock.trans hredirs, hready', .redir _ _ hmatches hspells⟩

theorem parsepipe_single (h : Parses mem es (parseexec mem es n) toks rest c)
    (hrest : starts [byte '|'] rest = false) :
    Parses mem es (parsepipe mem es (n + 1)) toks rest c := by
  intro s hs
  obtain ⟨cmd, s₁, hexec, hready, hmatches⟩ := h s hs
  obtain ⟨s', hpeek, hready'⟩ := peek_ready [byte '|'] hready bar_symbol
  refine ⟨cmd, s', ?_, hready', hmatches⟩
  rw [parsepipe]
  simp only [hexec, ok_bind, hpeek, hrest, Bool.false_eq_true, if_false]

theorem parsepipe_pipe
    (hl : Parses mem es (parseexec mem es n) left (.symbol (byte '|') :: (right ++ rest)) c)
    (hr : Parses mem es (parsepipe mem es n) right rest d) :
    Parses mem es (parsepipe mem es (n + 1)) (left ++ .symbol (byte '|') :: right) rest
      (.pipe c d) := by
  intro s hs
  rw [List.append_assoc] at hs
  obtain ⟨cmd, s₁, hexec, hready, hmatches⟩ := hl s hs
  obtain ⟨s₂, hpeek, hready₂⟩ := peek_ready [byte '|'] hready bar_symbol
  have hstarts : starts [byte '|'] (.symbol (byte '|') :: (right ++ rest)) = true := rfl
  have hnext := (gettoken_symbol hready₂ fun hb => absurd hb (by decide)).2
  obtain ⟨cmd', s', hpipe, hready', hmatches'⟩ := hr _ hnext
  refine ⟨.pipe cmd cmd', s', ?_, hready', .pipe hmatches hmatches'⟩
  rw [parsepipe]
  simp only [hexec, ok_bind, hpeek, hstarts, if_true, hpipe]

theorem parsebacks_stop {s : ℕ} (cmd : Cmd Slice) (h : Ready mem es s rest)
    (hrest : starts [byte '&'] rest = false) (hn : 0 < n) :
    ∃ s', parsebacks mem es n cmd s = .ok (cmd, s') ∧ Ready mem es s' rest := by
  obtain ⟨n, rfl⟩ := Nat.exists_eq_add_one.mpr hn
  obtain ⟨s', hpeek, hready⟩ := peek_ready [byte '&'] h amp_symbol
  refine ⟨s', ?_, hready⟩
  simp only [parsebacks, hpeek, hrest, Bool.false_eq_true, if_false]

theorem parsebacks_back {s : ℕ} (cmd : Cmd Slice)
    (h : Ready mem es s (.symbol (byte '&') :: rest)) (hrest : starts [byte '&'] rest = false)
    (hn : 1 < n) :
    ∃ s', parsebacks mem es n cmd s = .ok (.back cmd, s') ∧ Ready mem es s' rest := by
  obtain ⟨n, rfl⟩ : ∃ k, n = k + 1 := ⟨n - 1, by omega⟩
  obtain ⟨s₁, hpeek, hready⟩ := peek_ready [byte '&'] h amp_symbol
  have hstarts : starts [byte '&'] (.symbol (byte '&') :: rest) = true := rfl
  have hnext := (gettoken_symbol hready fun hb => absurd hb (by decide)).2
  obtain ⟨s', hloop, hready'⟩ := parsebacks_stop (n := n) (.back cmd) hnext hrest (by omega)
  refine ⟨s', ?_, hready'⟩
  simp only [parsebacks, hpeek, hstarts, if_true, hloop]

theorem parseline_single (h : Parses mem es (parsepipe mem es n) toks rest c)
    (hrest : Closes rest) (hn : 0 < n) :
    Parses mem es (parseline mem es (n + 1)) toks rest c := by
  intro s hs
  obtain ⟨cmd, s₁, hpipe, hready, hmatches⟩ := h s hs
  obtain ⟨s₂, hbacks, hready₂⟩ := parsebacks_stop cmd hready hrest.amp hn
  obtain ⟨s', hpeek, hready'⟩ := peek_ready [byte ';'] hready₂ semi_symbol
  refine ⟨cmd, s', ?_, hready', hmatches⟩
  rw [parseline]
  simp only [hpipe, ok_bind, hbacks, hpeek, hrest.semi, Bool.false_eq_true, if_false]

theorem parseline_back
    (h : Parses mem es (parsepipe mem es n) toks (.symbol (byte '&') :: rest) c)
    (hrest : Closes rest) (hn : 1 < n) :
    Parses mem es (parseline mem es (n + 1)) (toks ++ [.symbol (byte '&')]) rest (.back c) := by
  intro s hs
  rw [List.append_assoc] at hs
  obtain ⟨cmd, s₁, hpipe, hready, hmatches⟩ := h s hs
  obtain ⟨s₂, hbacks, hready₂⟩ := parsebacks_back cmd hready hrest.amp hn
  obtain ⟨s', hpeek, hready'⟩ := peek_ready [byte ';'] hready₂ semi_symbol
  refine ⟨.back cmd, s', ?_, hready', .back hmatches⟩
  rw [parseline]
  simp only [hpipe, ok_bind, hbacks, hpeek, hrest.semi, Bool.false_eq_true, if_false]

theorem parseline_list
    (hl : Parses mem es (parsepipe mem es n) left (.symbol (byte ';') :: (right ++ rest)) c)
    (hr : Parses mem es (parseline mem es n) right rest d) (hn : 0 < n) :
    Parses mem es (parseline mem es (n + 1)) (left ++ .symbol (byte ';') :: right) rest
      (.list c d) := by
  intro s hs
  rw [List.append_assoc] at hs
  obtain ⟨cmd, s₁, hpipe, hready, hmatches⟩ := hl s hs
  obtain ⟨s₂, hbacks, hready₂⟩ := parsebacks_stop cmd hready rfl hn
  obtain ⟨s₃, hpeek, hready₃⟩ := peek_ready [byte ';'] hready₂ semi_symbol
  have hstarts : starts [byte ';'] (.symbol (byte ';') :: (right ++ rest)) = true := rfl
  have hnext := (gettoken_symbol hready₃ fun hb => absurd hb (by decide)).2
  obtain ⟨cmd', s', hline, hready', hmatches'⟩ := hr _ hnext
  refine ⟨.list cmd cmd', s', ?_, hready', .list hmatches hmatches'⟩
  rw [parseline]
  simp only [hpipe, ok_bind, hbacks, hpeek, hstarts, if_true, hline]

/-- A block is read by the functions above it, when nothing of theirs follows. -/
theorem parseline_block (h : Parses mem es (parseline mem es n) toks
      (.symbol (byte ')') :: rest) c) (hrest : Closes rest) (hn : 0 < n) :
    Parses mem es (parseline mem es (n + 4)) (parens toks) rest c := by
  have hexec := block_parses h hrest.redirects hn
  exact parseline_single (parsepipe_single hexec hrest.bar) hrest (by omega)

theorem length_parens (toks : List Token) : (parens toks).length = toks.length + 2 := by
  rw [parens, List.length_cons, List.length_append, List.length_singleton]

/-- The tokens of a tree are read as the tree, in front of what closes it. -/
theorem parseline_parses (c : Tree) (hn : 2 * c.tokens.length + 5 ≤ n) (hrest : Closes rest) :
    Parses mem es (parseline mem es n) c.tokens rest c.cmd := by
  induction c generalizing n rest with
  | exec argv few =>
    rw [Tree.tokens, List.length_map] at hn
    obtain ⟨n, rfl⟩ : ∃ k, n = k + 3 := ⟨n - 3, by omega⟩
    have hexec : Parses mem es (parseexec mem es (n + 1)) (argv.map .word) rest (.exec argv) :=
      parseexec_words hrest few (by omega)
    exact parseline_single (parsepipe_single hexec hrest.bar) hrest (by omega)
  | redir cmd file dir ih =>
    rw [Tree.tokens, List.length_append, length_parens] at hn
    obtain ⟨n, rfl⟩ : ∃ k, n = k + 4 := ⟨n - 4, by omega⟩
    have hcmd : ∀ k, Parses mem es (parseline mem es n) cmd.tokens (.symbol (byte ')') :: k)
        cmd.cmd := fun k => ih (by omega) (closes_parens k)
    have hredir : Parses mem es (parseexec mem es (n + 2))
        (parens cmd.tokens ++ [.symbol dir.symbol, .word file]) rest
        (.redir cmd.cmd file dir.mode dir.fd) :=
      redirected_parses (hcmd _) hrest.redirects (by omega)
    exact parseline_single (parsepipe_single hredir hrest.bar) hrest (by omega)
  | pipe left right ihl ihr =>
    rw [Tree.tokens, List.length_append, List.length_cons, length_parens, length_parens] at hn
    obtain ⟨n, rfl⟩ : ∃ k, n = k + 5 := ⟨n - 5, by omega⟩
    have hleft : ∀ k, Parses mem es (parseline mem es (n + 1)) left.tokens
        (.symbol (byte ')') :: k) left.cmd := fun k => ihl (by omega) (closes_parens k)
    have hright : ∀ k, Parses mem es (parseline mem es n) right.tokens
        (.symbol (byte ')') :: k) right.cmd := fun k => ihr (by omega) (closes_parens k)
    have hfirst := block_parses (hleft (.symbol (byte '|') :: (parens right.tokens ++ rest))) rfl
      (Nat.succ_pos n)
    have hsecond := parsepipe_single
      (block_parses (hright rest) hrest.redirects (by omega)) hrest.bar
    exact parseline_single (parsepipe_pipe hfirst hsecond) hrest (by omega)
  | list left right ihl ihr =>
    rw [Tree.tokens, List.length_append, List.length_cons, length_parens, length_parens] at hn
    obtain ⟨n, rfl⟩ : ∃ k, n = k + 5 := ⟨n - 5, by omega⟩
    have hleft : ∀ k, Parses mem es (parseline mem es (n + 1)) left.tokens
        (.symbol (byte ')') :: k) left.cmd := fun k => ihl (by omega) (closes_parens k)
    have hright : ∀ k, Parses mem es (parseline mem es n) right.tokens
        (.symbol (byte ')') :: k) right.cmd := fun k => ihr (by omega) (closes_parens k)
    have hfirst := block_parses (hleft (.symbol (byte ';') :: (parens right.tokens ++ rest))) rfl
      (Nat.succ_pos n)
    have hsecond := parseline_block (hright rest) hrest (by omega)
    exact parseline_list (parsepipe_single hfirst rfl) hsecond (by omega)
  | back cmd ih =>
    rw [Tree.tokens, List.length_append, length_parens] at hn
    obtain ⟨n, rfl⟩ : ∃ k, n = k + 4 := ⟨n - 4, by omega⟩
    have hcmd : ∀ k, Parses mem es (parseline mem es n) cmd.tokens (.symbol (byte ')') :: k)
        cmd.cmd := fun k => ih (by omega) (closes_parens k)
    have hblock := block_parses (hcmd (.symbol (byte '&') :: rest)) rfl (by omega)
    exact parseline_back (parsepipe_single hblock rfl) hrest (by omega)

end Functions

/-- The strings of a command, from left to right. -/
def strings {α : Type} : Cmd α → List α
  | .exec argv => argv
  | .redir cmd file _ _ => strings cmd ++ [file]
  | .pipe left right => strings left ++ strings right
  | .list left right => strings left ++ strings right
  | .back cmd => strings cmd

section Strings

variable {α β γ : Type} {R S : α → β → Prop} {c : Cmd α} {d : Cmd β} {f : α → γ} {g : β → γ}
  {as : List α} {bs : List β}

theorem forall₂_left (h : List.Forall₂ R as bs) : ∀ a ∈ as, ∃ b, R a b := by
  induction h with
  | nil => exact fun a ha => absurd ha List.not_mem_nil
  | cons h _ ih => exact List.forall_mem_cons.mpr ⟨⟨_, h⟩, ih⟩

theorem forall₂_mono (h : List.Forall₂ R as bs)
    (hS : ∀ a ∈ as, ∀ b ∈ bs, R a b → S a b) : List.Forall₂ S as bs := by
  induction h with
  | nil => exact .nil
  | cons h _ ih =>
    refine .cons (hS _ List.mem_cons_self _ List.mem_cons_self h) (ih ?_)
    intro a ha b hb
    exact hS a (List.mem_cons_of_mem _ ha) b (List.mem_cons_of_mem _ hb)

theorem Matches.related (h : Matches R c d) : List.Forall₂ R (strings c) (strings d) := by
  induction h with
  | exec h => exact h
  | redir mode fd _ h ih => exact List.rel_append ih (.cons h .nil)
  | pipe _ _ ih ih' => exact List.rel_append ih ih'
  | list _ _ ih ih' => exact List.rel_append ih ih'
  | back _ ih => exact ih

theorem Matches.mono (h : Matches R c d)
    (hS : ∀ a ∈ strings c, ∀ b ∈ strings d, R a b → S a b) : Matches S c d := by
  induction h with
  | exec h => exact .exec (forall₂_mono h hS)
  | redir mode fd _ h ih =>
    refine .redir mode fd (ih ?_) (hS _ ?_ _ ?_ h)
    · intro a ha b hb
      exact hS a (List.mem_append_left _ ha) b (List.mem_append_left _ hb)
    · exact List.mem_append_right _ List.mem_cons_self
    · exact List.mem_append_right _ List.mem_cons_self
  | pipe _ _ ih ih' =>
    refine .pipe (ih ?_) (ih' ?_)
    · intro a ha b hb
      exact hS a (List.mem_append_left _ ha) b (List.mem_append_left _ hb)
    · intro a ha b hb
      exact hS a (List.mem_append_right _ ha) b (List.mem_append_right _ hb)
  | list _ _ ih ih' =>
    refine .list (ih ?_) (ih' ?_)
    · intro a ha b hb
      exact hS a (List.mem_append_left _ ha) b (List.mem_append_left _ hb)
    · intro a ha b hb
      exact hS a (List.mem_append_right _ ha) b (List.mem_append_right _ hb)
  | back _ ih => exact .back (ih hS)

theorem Matches.map_eq (h : Matches (fun a b => f a = g b) c d) : c.map f = d.map g := by
  induction h with
  | exec h =>
    have hmap := List.forall₂_map_right_iff.mpr (List.forall₂_map_left_iff.mpr h)
    rw [List.forall₂_eq_eq_eq] at hmap
    rw [Cmd.map, hmap, Cmd.map]
  | redir mode fd _ h ih => rw [Cmd.map, ih, h, Cmd.map]
  | pipe _ _ ih ih' => rw [Cmd.map, ih, ih', Cmd.map]
  | list _ _ ih ih' => rw [Cmd.map, ih, ih', Cmd.map]
  | back _ ih => rw [Cmd.map, ih, Cmd.map]

end Strings

section Zeros

variable {mem : Memory} {es s n x : ℕ} {as : List Slice} {a : Slice} {w : Name} {line : List Byte}

/-- A zero byte behind each of the slices. -/
def terminate (mem : Memory) (as : List Slice) : Memory :=
  as.foldl (fun m a => Function.update m a.eq 0) mem

theorem terminate_append (mem : Memory) (as bs : List Slice) :
    terminate mem (as ++ bs) = terminate (terminate mem as) bs := List.foldl_append

theorem nulterminate_eq (mem : Memory) (cmd : Cmd Slice) :
    nulterminate mem cmd = terminate mem (strings cmd) := by
  induction cmd generalizing mem with
  | exec argv => rfl
  | redir cmd file mode fd ih =>
    rw [nulterminate, strings, terminate_append, ih]
    rfl
  | pipe left right ihl ihr => rw [nulterminate, strings, terminate_append, ihr, ihl]
  | list left right ihl ihr => rw [nulterminate, strings, terminate_append, ihr, ihl]
  | back cmd ih => exact ih mem

theorem terminate_other (h : ∀ a ∈ as, a.eq ≠ x) : terminate mem as x = mem x := by
  induction as generalizing mem with
  | nil => rfl
  | cons a as ih =>
    obtain ⟨ha, has⟩ := List.forall_mem_cons.mp h
    exact (ih has).trans (Function.update_of_ne ha.symm _ _)

theorem terminate_end (h : ∃ a ∈ as, a.eq = x) : terminate mem as x = 0 := by
  induction as generalizing mem with
  | nil =>
    obtain ⟨a, ha, -⟩ := h
    exact absurd ha List.not_mem_nil
  | cons b as ih =>
    by_cases hmore : ∃ a ∈ as, a.eq = x
    · exact ih hmore
    · have hother : ∀ a ∈ as, a.eq ≠ x := fun a ha he => hmore ⟨a, ha, he⟩
      obtain ⟨a, ha, rfl⟩ := h
      obtain rfl : a = b := by
        rcases List.mem_cons.mp ha with rfl | ha
        · rfl
        · exact absurd rfl (hother a ha)
      exact (terminate_other hother).trans (Function.update_self _ _ _)

/-- A slice is the string of its word once the zero bytes are there. -/
theorem cstring_spelled (h : Spells mem a w) (ha : a ∈ as) (has : ∀ b ∈ as, ∃ v, Spells mem b v)
    (hn : w.bytes.length < n) : cstring (terminate mem as) a.q n = some w.bytes := by
  have hinside : ∀ i (hi : i < w.bytes.length), ∀ b ∈ as, b.eq ≠ a.q + i := by
    rintro i hi b hb heq
    obtain ⟨v, hv⟩ := has b hb
    obtain ⟨hzero, hspace, hsymbol⟩ := w.plain w.bytes[i] (List.getElem_mem hi)
    have hstop := hv.stop
    rw [heq, h.bytes i hi] at hstop
    rcases hstop with hstop | hstop | hstop
    · exact hzero hstop
    · exact hspace hstop
    · exact hsymbol hstop
  have hholds : Holds (terminate mem as) a.eq a.q (w.bytes ++ []) := by
    refine holds_append.mpr ⟨?_, ?_⟩
    · intro i hi
      rw [terminate_other (hinside i hi)]
      exact h.bytes i hi
    · exact ⟨h.length.symm, terminate_end ⟨a, ha, rfl⟩⟩
  rw [List.append_nil] at hholds
  exact hholds.string (fun b hb => (w.plain b hb).1) hn

end Zeros

theorem mem_parens {t : Token} {toks : List Token} (h : t ∈ toks) : t ∈ parens toks :=
  List.mem_cons_of_mem _ (List.mem_append_left _ h)

/-- The words of a tree are among its tokens. -/
theorem word_mem_tokens {c : Tree} {w : Name} (h : w ∈ strings c.cmd) :
    Token.word w ∈ c.tokens := by
  induction c with
  | exec argv few => exact List.mem_map_of_mem h
  | redir cmd file dir ih =>
    rcases List.mem_append.mp h with h | h
    · exact List.mem_append_left _ (mem_parens (ih h))
    · obtain rfl := List.mem_singleton.mp h
      exact List.mem_append_right _ (List.mem_cons_of_mem _ List.mem_cons_self)
  | pipe left right ihl ihr =>
    rcases List.mem_append.mp h with h | h
    · exact List.mem_append_left _ (mem_parens (ihl h))
    · exact List.mem_append_right _ (List.mem_cons_of_mem _ (mem_parens (ihr h)))
  | list left right ihl ihr =>
    rcases List.mem_append.mp h with h | h
    · exact List.mem_append_left _ (mem_parens (ihl h))
    · exact List.mem_append_right _ (List.mem_cons_of_mem _ (mem_parens (ihr h)))
  | back cmd ih => exact List.mem_append_left _ (mem_parens (ih h))

/-- parsecmd on a line whose tokens parseline reads to the end. -/
theorem parsecmd_eq {mem : Memory} {s n : ℕ} {line : List Byte} {toks : List Token} {c : Cmd Name}
    (hline : cstring mem s n = some line) (hrender : Rendering toks line)
    (hparses : Parses mem (s + line.length) (parseline mem (s + line.length) n) toks [] c)
    (hwords : ∀ w ∈ strings c, w.bytes.length < n) :
    ∃ mem' cmd, parsecmd n mem s = .ok (mem', cmd) ∧
      cmd.map (fun a => cstring mem' a.q n) = c.map fun w => some w.bytes := by
  have hready : Ready mem (s + line.length) s (toks ++ []) := by
    rw [List.append_nil]
    exact ⟨line, hrender, holds_of_cstring hline⟩
  obtain ⟨cmd, s', hparse, hend, hmatches⟩ := hparses s hready
  refine ⟨nulterminate mem cmd, cmd, ?_, ?_⟩
  · simp only [parsecmd, strlen, hline, Option.map_some, hparse, ok_bind, peek_end hend, ne_eq,
      not_true_eq_false, if_false]
  · have hslices := forall₂_left hmatches.related
    rw [nulterminate_eq]
    refine Matches.map_eq (hmatches.mono ?_)
    intro a ha w hw hspells
    exact cstring_spelled hspells ha hslices (hwords w hw)

/-- parsecmd on a rendering of a tree, with or without parentheses around the whole, returns the
tree: the strings that its pointers lead to are the words. -/
theorem parsecmd_rendering (c : Tree) (line : List Byte) (mem : Memory) (s n : ℕ)
    (hrender : Rendering c.tokens line ∨ Rendering (parens c.tokens) line)
    (hline : cstring mem s n = some line) (hn : 2 * line.length + 5 ≤ n) :
    ∃ mem' cmd, parsecmd n mem s = .ok (mem', cmd) ∧
      cmd.map (fun a => cstring mem' a.q n) = c.cmd.map fun w => some w.bytes := by
  have hfits : ∀ toks, Rendering toks line → toks.length ≤ line.length ∧
      ∀ w, Token.word w ∈ toks → w.bytes.length ≤ line.length := by
    rintro toks ⟨ws, t, rfl, -, hspaced⟩
    rw [List.length_append]
    refine ⟨hspaced.length_le.trans (Nat.le_add_left _ _), ?_⟩
    intro w hw
    exact (hspaced.word_le hw).trans (Nat.le_add_left _ _)
  rcases hrender with hrender | hrender
  · obtain ⟨hlength, hwords⟩ := hfits _ hrender
    refine parsecmd_eq hline hrender (parseline_parses c (by omega) (.inl rfl)) ?_
    intro w hw
    have hle := hwords w (word_mem_tokens hw)
    omega
  · obtain ⟨hlength, hwords⟩ := hfits _ hrender
    rw [length_parens] at hlength
    obtain ⟨n, rfl⟩ : ∃ k, n = k + 4 := ⟨n - 4, by omega⟩
    have hinner : Parses mem (s + line.length) (parseline mem (s + line.length) n) c.tokens
        [.symbol (byte ')')] c.cmd := parseline_parses c (by omega) (closes_parens [])
    refine parsecmd_eq hline hrender (parseline_block hinner (.inl rfl) (by omega)) ?_
    intro w hw
    have hle := hwords w (mem_parens (word_mem_tokens hw))
    omega

def ls : Name := ⟨['l', 's'].map byte, by decide, by decide⟩

def out : Name := ⟨['o', 'u', 't'].map byte, by decide, by decide⟩

/-- `((ls ls)> out) &` -/
def redirectedLine : List Byte :=
  ['(', '(', 'l', 's', ' ', 'l', 's', ')', '>', ' ', 'o', 'u', 't', ')', ' ', '&'].map byte

theorem parsecmd_redirected :
    cstring (fun a => (redirectedLine[a - 100]?).getD 0) 100 37 = some redirectedLine ∧
    ∃ mem' cmd,
      parsecmd 37 (fun a => (redirectedLine[a - 100]?).getD 0) 100 = .ok (mem', cmd) ∧
      cmd.map (fun a => cstring mem' a.q 37) =
        (Tree.back (.redir (.exec [ls, ls] (by decide)) out .output)).cmd.map
          fun w => some w.bytes := by
  have hline : cstring (fun a => (redirectedLine[a - 100]?).getD 0) 100 37 =
      some redirectedLine := by decide
  have htokens : Rendering
      (Tree.back (.redir (.exec [ls, ls] (by decide)) out .output)).tokens redirectedLine := by
    refine ⟨[], redirectedLine, rfl, by decide, ?_⟩
    refine .symbol [] (by decide) (by decide) (.symbol [] (by decide) (by decide) ?_)
    refine .word [byte ' '] (by decide) (fun _ => by decide) ?_
    refine .word [] (by decide) (fun h => absurd h (by decide)) ?_
    refine .symbol [] (by decide) (by decide) (.symbol [byte ' '] (by decide) (by decide) ?_)
    refine .word [] (by decide) (fun h => absurd h (by decide)) ?_
    refine .symbol [byte ' '] (by decide) (by decide) (.symbol [] (by decide) (by decide) .nil)
  exact ⟨hline, parsecmd_rendering _ redirectedLine _ 100 37 (.inl htokens) hline (by decide)⟩

end ShellRenderings
