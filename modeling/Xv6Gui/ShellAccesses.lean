import Xv6Gui.ShellTerminators

/-!
# What the parser of the shell touches

The parser with a check of every access to the line, of every position that it stores through
`ps` and of every index of argv and eargv. No check fails, and the bound of the loops and calls is
never reached, so parsecmd returns or ends in one of its panics.
-/
namespace ShellAccesses

open WordMemory ShellParser ShellTokens ShellRenderings ShellTerminators GuardedRuns
open WindowManagerState (Fault)

inductive Stop where
  | panic (text : String)
  | outside (x : ℕ)
  | overrun (argc : ℕ)
  | diverges
  deriving DecidableEq, Repr

namespace Checked

variable (mem : Memory) (lo hi : ℕ)

def read (x : ℕ) : Except Stop Byte :=
  if lo ≤ x ∧ x ≤ hi then .ok (mem x) else .error (.outside x)

/-- Put a zero byte into the line. -/
def clear (m : Memory) (x : ℕ) : Except Stop Memory :=
  if lo ≤ x ∧ x ≤ hi then .ok (Function.update m x 0) else .error (.outside x)

/-- Store a position through `ps`. -/
def move (s : ℕ) : Except Stop ℕ := if lo ≤ s ∧ s ≤ hi then .ok s else .error (.outside s)

/-- `p` is asked only below `es`. -/
def skipWhile (es : ℕ) (p : Byte → Bool) : ℕ → ℕ → Except Stop ℕ
  | 0, _ => .error .diverges
  | n + 1, s =>
    if s < es then
      read mem lo hi s >>= fun c => if p c then skipWhile es p n (s + 1) else .ok s
    else .ok s

def skipSpace (es s : ℕ) : Except Stop ℕ :=
  skipWhile mem lo hi es (strchr whitespace) (es - s + 1) s

def gettoken (es s : ℕ) : Except Stop Gotten :=
  skipSpace mem lo hi es s >>= fun q =>
  read mem lo hi q >>= fun c =>
  (if c = 0 then .ok (c, q)
  else if (['|', '(', ')', ';', '&', '<'].map byte).contains c then .ok (c, q + 1)
  else if c = byte '>' then
    read mem lo hi (q + 1) >>= fun d =>
      if d = byte '>' then .ok (byte '+', q + 2) else .ok (c, q + 1)
  else
    skipWhile mem lo hi es (fun c => !strchr whitespace c && !strchr symbols c) (es - q + 1) q >>=
      fun s => .ok (byte 'a', s)) >>= fun r =>
  skipSpace mem lo hi es r.2 >>= fun ps =>
  move lo hi ps >>= fun ps => .ok ⟨r.1, ⟨q, r.2⟩, ps⟩

def peek (es s : ℕ) (toks : List Byte) : Except Stop (Bool × ℕ) :=
  skipSpace mem lo hi es s >>= fun s =>
  move lo hi s >>= fun s =>
  read mem lo hi s >>= fun c => .ok (decide (c ≠ 0) && strchr toks c, s)

def parseredirs (es : ℕ) : ℕ → Cmd Slice → ℕ → Except Stop (Cmd Slice × ℕ)
  | 0, _, _ => .error .diverges
  | n + 1, cmd, s =>
    peek mem lo hi es s (['<', '>'].map byte) >>= fun p =>
    if p.1 then
      gettoken mem lo hi es p.2 >>= fun tok =>
      gettoken mem lo hi es tok.ps >>= fun file =>
      if file.ret ≠ byte 'a' then .error (.panic "missing file for redirection")
      else parseredirs es n (redirect cmd tok.ret file.slice) file.ps
    else .ok (cmd, p.2)

/-- Store the ends of a string, or the null pointers, at index `argc`. -/
def storeArg (argc : ℕ) (cmd : Cmd Slice) : Except Stop (Cmd Slice) :=
  if argc < maxargs then .ok cmd else .error (.overrun argc)

def parseargs (es : ℕ) : ℕ → ℕ → Cmd Slice → ℕ → Except Stop (Cmd Slice × ℕ)
  | 0, _, _, _ => .error .diverges
  | n + 1, argc, ret, s =>
    peek mem lo hi es s (['|', ')', '&', ';'].map byte) >>= fun p =>
    if p.1 then storeArg argc ret >>= fun ret => .ok (ret, p.2)
    else
      gettoken mem lo hi es p.2 >>= fun tok =>
      if tok.ret = 0 then storeArg argc ret >>= fun ret => .ok (ret, tok.ps)
      else if tok.ret ≠ byte 'a' then .error (.panic "syntax")
      else
        storeArg argc (addArg ret tok.slice) >>= fun ret =>
        if maxargs ≤ argc + 1 then .error (.panic "too many args")
        else parseredirs mem lo hi es n ret tok.ps >>= fun r => parseargs es n (argc + 1) r.1 r.2

def parsebacks (es : ℕ) : ℕ → Cmd Slice → ℕ → Except Stop (Cmd Slice × ℕ)
  | 0, _, _ => .error .diverges
  | n + 1, cmd, s =>
    peek mem lo hi es s [byte '&'] >>= fun p =>
    if p.1 then gettoken mem lo hi es p.2 >>= fun tok => parsebacks es n (.back cmd) tok.ps
    else .ok (cmd, p.2)

mutual

def parseline (es : ℕ) : ℕ → ℕ → Except Stop (Cmd Slice × ℕ)
  | 0, _ => .error .diverges
  | n + 1, s =>
    parsepipe es n s >>= fun r =>
    parsebacks mem lo hi es n r.1 r.2 >>= fun r =>
    peek mem lo hi es r.2 [byte ';'] >>= fun p =>
    if p.1 then
      gettoken mem lo hi es p.2 >>= fun tok =>
      parseline es n tok.ps >>= fun t => .ok (.list r.1 t.1, t.2)
    else .ok (r.1, p.2)

def parsepipe (es : ℕ) : ℕ → ℕ → Except Stop (Cmd Slice × ℕ)
  | 0, _ => .error .diverges
  | n + 1, s =>
    parseexec es n s >>= fun r =>
    peek mem lo hi es r.2 [byte '|'] >>= fun p =>
    if p.1 then
      gettoken mem lo hi es p.2 >>= fun tok =>
      parsepipe es n tok.ps >>= fun t => .ok (.pipe r.1 t.1, t.2)
    else .ok (r.1, p.2)

def parseblock (es : ℕ) : ℕ → ℕ → Except Stop (Cmd Slice × ℕ)
  | 0, _ => .error .diverges
  | n + 1, s =>
    peek mem lo hi es s [byte '('] >>= fun p =>
    if p.1 then
      gettoken mem lo hi es p.2 >>= fun tok =>
      parseline es n tok.ps >>= fun r =>
      peek mem lo hi es r.2 [byte ')'] >>= fun p =>
      if p.1 then
        gettoken mem lo hi es p.2 >>= fun tok => parseredirs mem lo hi es n r.1 tok.ps
      else .error (.panic "syntax - missing )")
    else .error (.panic "parseblock")

def parseexec (es : ℕ) : ℕ → ℕ → Except Stop (Cmd Slice × ℕ)
  | 0, _ => .error .diverges
  | n + 1, s =>
    peek mem lo hi es s [byte '('] >>= fun p =>
    if p.1 then parseblock es n p.2
    else
      parseredirs mem lo hi es n (.exec []) p.2 >>= fun r => parseargs mem lo hi es n 0 r.1 r.2

end

def nulterminate (m : Memory) : Cmd Slice → Except Stop Memory
  | .exec argv => argv.foldlM (fun m a => clear lo hi m a.eq) m
  | .redir cmd file _ _ => nulterminate m cmd >>= fun m => clear lo hi m file.eq
  | .pipe left right => nulterminate m left >>= fun m => nulterminate m right
  | .list left right => nulterminate m left >>= fun m => nulterminate m right
  | .back cmd => nulterminate m cmd

def strlen : ℕ → ℕ → Except Stop ℕ
  | 0, _ => .error .diverges
  | n + 1, s =>
    read mem lo hi s >>= fun c =>
    if c = 0 then .ok 0 else strlen n (s + 1) >>= fun k => .ok (k + 1)

/-- The message about leftovers reads up to the zero byte, as strlen does. -/
def parsecmd (n s : ℕ) : Except Stop (Memory × Cmd Slice) :=
  strlen mem lo hi n s >>= fun len =>
  parseline mem lo hi (s + len) n s >>= fun r =>
  peek mem lo hi (s + len) r.2 [] >>= fun p =>
  if p.2 ≠ s + len then strlen mem lo hi n p.2 >>= fun _ => .error (.panic "syntax")
  else nulterminate lo hi mem r.1 >>= fun m => .ok (m, r.1)

end Checked

/-- A fault of the parser without checks. -/
def raised : Fault → Stop
  | .panic text => .panic text
  | .outOfBounds i => .outside i.toNat
  | .diverges => .diverges

def lift {α : Type} (x : Except Fault α) : Except Stop α := x.mapError raised

/-- The checked function does what the other does, at every position of the line. -/
def Agrees (lo es : ℕ) (f : ℕ → Except Stop (Cmd Slice × ℕ))
    (g : ℕ → Except Fault (Cmd Slice × ℕ)) : Prop :=
  ∀ s, lo ≤ s → s ≤ es → f s = lift (g s)

/-- The computation returns or panics. -/
def Terminates {α : Type} (x : Except Fault α) : Prop := ∀ e, x = .error e → ∃ text, e = .panic text

/-- The function terminates at every position for which `n` is enough. -/
def Ends (lo es c n : ℕ) (f : ℕ → Except Fault (Cmd Slice × ℕ)) : Prop :=
  ∀ s, lo ≤ s → s ≤ es → 4 * (es - s) + c ≤ n → Terminates (f s)

variable {mem m : Memory} {lo es s n x argc : ℕ} {cmd ret : Cmd Slice} {toks line : List Byte}
  {p : Byte → Bool}

section Lifting

variable {α β : Type} {y : Except Fault α} {f : α → Except Fault β} {g : α → Except Stop β}

theorem lift_bind (h : ∀ a, y = .ok a → g a = lift (f a)) : lift y >>= g = lift (y >>= f) := by
  cases y with
  | error e => rfl
  | ok a => exact h a rfl

theorem bind_ends (hy : Terminates y) (h : ∀ a, y = .ok a → Terminates (f a)) :
    Terminates (y >>= f) := by
  cases y with
  | error e =>
    intro e' he
    exact hy e' (congrArg Except.error (Except.error.inj he))
  | ok a => exact h a rfl

theorem ok_ends (a : α) : Terminates (.ok a) := nofun

theorem panic_ends (text : String) : Terminates (.error (.panic text) : Except Fault α) := by
  rintro e ⟨⟩
  exact ⟨text, rfl⟩

end Lifting

section Positions

theorem read_checked (hlo : lo ≤ x) (hx : x ≤ es) : Checked.read mem lo es x = .ok (mem x) :=
  if_pos ⟨hlo, hx⟩

theorem move_checked (hlo : lo ≤ s) (hs : s ≤ es) : Checked.move lo es s = .ok s :=
  if_pos ⟨hlo, hs⟩

theorem skipWhile_checked (hlo : lo ≤ s) (hn : s + n = es) :
    Checked.skipWhile mem lo es es p (n + 1) s = .ok (ShellParser.skipWhile mem p n s) := by
  induction n generalizing s with
  | zero => exact if_neg (by omega)
  | succ n ih =>
    rw [Checked.skipWhile, if_pos (by omega), read_checked hlo (by omega), ok_bind,
      ShellParser.skipWhile]
    by_cases hp : p (mem s) = true
    · rw [if_pos hp, if_pos hp, ih (by omega) (by omega)]
    · rw [if_neg hp, if_neg hp]

theorem skipSpace_checked (hlo : lo ≤ s) (hs : s ≤ es) :
    Checked.skipSpace mem lo es es s = .ok (ShellParser.skipSpace mem es s) :=
  skipWhile_checked hlo (by omega)

theorem peek_checked (hlo : lo ≤ s) (hs : s ≤ es) (toks : List Byte) :
    Checked.peek mem lo es es s toks = .ok (ShellParser.peek mem es s toks) := by
  obtain ⟨hge, hle, -⟩ := skipSpace_spec mem hs
  rw [Checked.peek, skipSpace_checked hlo hs, ok_bind, move_checked (hlo.trans hge) hle, ok_bind,
    read_checked (hlo.trans hge) hle, ok_bind, ShellParser.peek]

theorem gettoken_checked (h : Line mem lo es) (hlo : lo ≤ s) (hs : s ≤ es) :
    Checked.gettoken mem lo es es s = .ok (ShellParser.gettoken mem es s) := by
  obtain ⟨hge, hle, -⟩ := skipSpace_spec mem hs
  have htaken := gettoken_spec h hlo hs
  have hrest : ∀ r : Byte × ℕ,
      ShellParser.gettoken mem es s = ⟨r.1, ⟨ShellParser.skipSpace mem es s, r.2⟩,
        ShellParser.skipSpace mem es r.2⟩ →
      ((.ok r : Except Stop (Byte × ℕ)) >>= fun r =>
        Checked.skipSpace mem lo es es r.2 >>= fun ps =>
        Checked.move lo es ps >>= fun ps =>
          .ok ⟨r.1, ⟨ShellParser.skipSpace mem es s, r.2⟩, ps⟩) =
        .ok (ShellParser.gettoken mem es s) := by
    intro r hr
    rw [hr] at htaken ⊢
    have heq : lo ≤ r.2 := hlo.trans (htaken.skipped.trans htaken.ordered)
    rw [ok_bind, skipSpace_checked heq (htaken.behind.trans htaken.inside), ok_bind,
      move_checked (heq.trans htaken.behind) htaken.inside, ok_bind]
  rw [Checked.gettoken, skipSpace_checked hlo hs, ok_bind, read_checked (hlo.trans hge) hle,
    ok_bind]
  by_cases hzero : mem (ShellParser.skipSpace mem es s) = 0
  case pos =>
    rw [if_pos hzero]
    exact hrest _ (by simp only [ShellParser.gettoken, if_pos hzero])
  case neg =>
    have hlt : ShellParser.skipSpace mem es s < es := by
      refine Nat.lt_of_le_of_ne hle ?_
      intro hend
      rw [hend] at hzero
      exact hzero h.stop
    rw [if_neg hzero]
    by_cases hsymbol : (['|', '(', ')', ';', '&', '<'].map byte).contains
      (mem (ShellParser.skipSpace mem es s)) = true
    case pos =>
      rw [if_pos hsymbol]
      exact hrest _ (by simp only [ShellParser.gettoken, if_neg hzero, if_pos hsymbol])
    case neg =>
      rw [if_neg hsymbol]
      by_cases hgreater : mem (ShellParser.skipSpace mem es s) = byte '>'
      case pos =>
        -- the byte behind `>` is at most the zero byte
        rw [if_pos hgreater, read_checked (by omega) hlt, ok_bind]
        by_cases hagain : mem (ShellParser.skipSpace mem es s + 1) = byte '>'
        · rw [if_pos hagain]
          exact hrest _ (by
            simp only [ShellParser.gettoken, if_neg hzero, if_neg hsymbol, if_pos hgreater,
              if_pos hagain])
        · rw [if_neg hagain]
          exact hrest _ (by
            simp only [ShellParser.gettoken, if_neg hzero, if_neg hsymbol, if_pos hgreater,
              if_neg hagain])
      case neg =>
        rw [if_neg hgreater, skipWhile_checked (hlo.trans hge) (by omega), ok_bind]
        exact hrest _ (by
          simp only [ShellParser.gettoken, if_neg hzero, if_neg hsymbol, if_neg hgreater])

end Positions

section Agreement

theorem parseredirs_checked (h : Line mem lo es) (hlo : lo ≤ s) (hs : s ≤ es) :
    Checked.parseredirs mem lo es es n cmd s = lift (ShellParser.parseredirs mem es n cmd s) := by
  induction n generalizing cmd s with
  | zero => rfl
  | succ n ih =>
    obtain ⟨hp, hp', -⟩ := peek_spec h hs (['<', '>'].map byte)
    have htok := gettoken_spec h (hlo.trans hp) hp'
    have hps := hp.trans htok.ge
    have hfile := gettoken_spec h (hlo.trans hps) htok.inside
    rw [Checked.parseredirs, peek_checked hlo hs, ok_bind, ShellParser.parseredirs]
    by_cases hmore : (ShellParser.peek mem es s (['<', '>'].map byte)).1 = true
    case pos =>
      rw [if_pos hmore, gettoken_checked h (hlo.trans hp) hp', ok_bind,
        gettoken_checked h (hlo.trans hps) htok.inside, ok_bind]
      dsimp only
      rw [if_pos hmore]
      split
      · rfl
      · exact ih (hlo.trans (hps.trans hfile.ge)) hfile.inside
    case neg =>
      dsimp only
      rw [if_neg hmore, if_neg hmore]
      rfl

theorem storeArg_checked (hargc : argc < maxargs) (cmd : Cmd Slice) :
    Checked.storeArg argc cmd = .ok cmd := if_pos hargc

theorem parseargs_checked (h : Line mem lo es) (hlo : lo ≤ s) (hs : s ≤ es)
    (hret : ∀ a ∈ strings ret, Recorded mem lo es a) (hargc : argc < maxargs) :
    Checked.parseargs mem lo es es n argc ret s =
      lift (ShellParser.parseargs mem es n argc ret s) := by
  induction n generalizing argc ret s with
  | zero => rfl
  | succ n ih =>
    obtain ⟨hp, hp', -⟩ := peek_spec h hs (['|', ')', '&', ';'].map byte)
    have htok := gettoken_spec h (hlo.trans hp) hp'
    have hps := hp.trans htok.ge
    rw [Checked.parseargs, peek_checked hlo hs, ok_bind, ShellParser.parseargs,
      storeArg_checked hargc, gettoken_checked h (hlo.trans hp) hp']
    dsimp only
    split
    · rfl
    rw [ok_bind, storeArg_checked hargc]
    split
    · rfl
    split
    · rfl
    next hword =>
      rw [ok_bind]
      split
      · rfl
      next hfew =>
        have hslice := htok.recorded (hlo.trans hp) (not_not.mp hword)
        have hargs := addArg_recorded hret hslice
        rw [parseredirs_checked h (hlo.trans hps) htok.inside]
        apply lift_bind
        intro u hu
        have hredirs := parseredirs_parsed h (hlo.trans hps) htok.inside hargs hu
        exact ih (hlo.trans (hps.trans hredirs.ge)) hredirs.le hredirs.recorded
          (Nat.lt_of_not_le hfew)

theorem parsebacks_checked (h : Line mem lo es) (hlo : lo ≤ s) (hs : s ≤ es) :
    Checked.parsebacks mem lo es es n cmd s = lift (ShellParser.parsebacks mem es n cmd s) := by
  induction n generalizing cmd s with
  | zero => rfl
  | succ n ih =>
    obtain ⟨hp, hp', -⟩ := peek_spec h hs [byte '&']
    have htok := gettoken_spec h (hlo.trans hp) hp'
    rw [Checked.parsebacks, peek_checked hlo hs, ok_bind, ShellParser.parsebacks,
      gettoken_checked h (hlo.trans hp) hp', ok_bind]
    split
    · exact ih (hlo.trans (hp.trans htok.ge)) htok.inside
    · rfl

/-- The command behind an operator. -/
theorem operand_checked (h : Line mem lo es) {f : ℕ → Except Stop (Cmd Slice × ℕ)}
    {f' : ℕ → Except Fault (Cmd Slice × ℕ)} (hf : Agrees lo es f f')
    (g : Cmd Slice → Cmd Slice) (cmd : Cmd Slice) (hlo : lo ≤ s) (hs : s ≤ es)
    (toks : List Byte) :
    (Checked.peek mem lo es es s toks >>= fun p =>
      if p.1 then
        Checked.gettoken mem lo es es p.2 >>= fun tok => f tok.ps >>= fun t => .ok (g t.1, t.2)
      else .ok (cmd, p.2)) =
    lift (if (ShellParser.peek mem es s toks).1 then
        f' (ShellParser.gettoken mem es (ShellParser.peek mem es s toks).2).ps >>= fun t =>
          .ok (g t.1, t.2)
      else .ok (cmd, (ShellParser.peek mem es s toks).2)) := by
  obtain ⟨hp, hp', -⟩ := peek_spec h hs toks
  have htok := gettoken_spec h (hlo.trans hp) hp'
  rw [peek_checked hlo hs, ok_bind, gettoken_checked h (hlo.trans hp) hp', ok_bind]
  split
  · rw [hf _ (hlo.trans (hp.trans htok.ge)) htok.inside]
    exact lift_bind fun _ _ => rfl
  · rfl

theorem parsepipe_agrees (h : Line mem lo es)
    (hexec : Agrees lo es (Checked.parseexec mem lo es es n) (ShellParser.parseexec mem es n))
    (hpipe : Agrees lo es (Checked.parsepipe mem lo es es n) (ShellParser.parsepipe mem es n)) :
    Agrees lo es (Checked.parsepipe mem lo es es (n + 1))
      (ShellParser.parsepipe mem es (n + 1)) := by
  intro s hlo hs
  rw [Checked.parsepipe, ShellParser.parsepipe, hexec s hlo hs]
  apply lift_bind
  intro u hu
  have hparsed := (parsers_keep h n).2.2.2 s u hlo hs hu
  exact operand_checked h hpipe (.pipe u.1) u.1 (hlo.trans hparsed.ge) hparsed.le [byte '|']

theorem parseline_agrees (h : Line mem lo es)
    (hpipe : Agrees lo es (Checked.parsepipe mem lo es es n) (ShellParser.parsepipe mem es n))
    (hline : Agrees lo es (Checked.parseline mem lo es es n) (ShellParser.parseline mem es n)) :
    Agrees lo es (Checked.parseline mem lo es es (n + 1))
      (ShellParser.parseline mem es (n + 1)) := by
  intro s hlo hs
  rw [Checked.parseline, ShellParser.parseline, hpipe s hlo hs]
  apply lift_bind
  intro u hu
  have hparsed := (parsers_keep h n).2.1 s u hlo hs hu
  have hu' := hlo.trans hparsed.ge
  rw [parsebacks_checked h hu' hparsed.le]
  apply lift_bind
  intro v hv
  have hbacks := parsebacks_parsed h hu' hparsed.le hparsed.recorded hv
  exact operand_checked h hline (.list v.1) v.1 (hu'.trans hbacks.ge) hbacks.le [byte ';']

theorem parseblock_agrees (h : Line mem lo es)
    (hline : Agrees lo es (Checked.parseline mem lo es es n) (ShellParser.parseline mem es n)) :
    Agrees lo es (Checked.parseblock mem lo es es (n + 1))
      (ShellParser.parseblock mem es (n + 1)) := by
  intro s hlo hs
  obtain ⟨hp, hp', -⟩ := peek_spec h hs [byte '(']
  have htok := gettoken_spec h (hlo.trans hp) hp'
  have hps := hlo.trans (hp.trans htok.ge)
  rw [Checked.parseblock, ShellParser.parseblock, peek_checked hlo hs, ok_bind,
    gettoken_checked h (hlo.trans hp) hp', ok_bind]
  dsimp only
  split
  case isFalse => rfl
  rw [hline _ hps htok.inside]
  apply lift_bind
  intro u hu
  have hinner := (parsers_keep h n).1 _ u hps htok.inside hu
  have hu' := hps.trans hinner.ge
  obtain ⟨hq, hq', -⟩ := peek_spec h hinner.le [byte ')']
  have hclose := gettoken_spec h (hu'.trans hq) hq'
  rw [peek_checked hu' hinner.le, ok_bind, gettoken_checked h (hu'.trans hq) hq', ok_bind]
  split
  case isFalse => rfl
  exact parseredirs_checked h (hu'.trans (hq.trans hclose.ge)) hclose.inside

theorem parseexec_agrees (h : Line mem lo es)
    (hblock : Agrees lo es (Checked.parseblock mem lo es es n) (ShellParser.parseblock mem es n)) :
    Agrees lo es (Checked.parseexec mem lo es es (n + 1))
      (ShellParser.parseexec mem es (n + 1)) := by
  intro s hlo hs
  obtain ⟨hp, hp', -⟩ := peek_spec h hs [byte '(']
  rw [Checked.parseexec, ShellParser.parseexec, peek_checked hlo hs, ok_bind]
  split
  case isTrue => exact hblock _ (hlo.trans hp) hp'
  rw [parseredirs_checked h (hlo.trans hp) hp']
  apply lift_bind
  intro u hu
  have hredirs := parseredirs_parsed h (hlo.trans hp) hp'
    (fun a ha => absurd ha List.not_mem_nil) hu
  exact parseargs_checked h (hlo.trans (hp.trans hredirs.ge)) hredirs.le hredirs.recorded
    (by decide)

theorem parsers_agree (h : Line mem lo es) (n : ℕ) :
    Agrees lo es (Checked.parseline mem lo es es n) (ShellParser.parseline mem es n) ∧
    Agrees lo es (Checked.parsepipe mem lo es es n) (ShellParser.parsepipe mem es n) ∧
    Agrees lo es (Checked.parseblock mem lo es es n) (ShellParser.parseblock mem es n) ∧
    Agrees lo es (Checked.parseexec mem lo es es n) (ShellParser.parseexec mem es n) := by
  induction n with
  | zero =>
    refine ⟨fun s _ _ => ?_, fun s _ _ => ?_, fun s _ _ => ?_, fun s _ _ => ?_⟩
    · rw [Checked.parseline, ShellParser.parseline]
      rfl
    · rw [Checked.parsepipe, ShellParser.parsepipe]
      rfl
    · rw [Checked.parseblock, ShellParser.parseblock]
      rfl
    · rw [Checked.parseexec, ShellParser.parseexec]
      rfl
  | succ n ih =>
    obtain ⟨hline, hpipe, hblock, hexec⟩ := ih
    exact ⟨parseline_agrees h hpipe hline, parsepipe_agrees h hexec hpipe,
      parseblock_agrees h hline, parseexec_agrees h hblock⟩

end Agreement

section Termination

theorem parseredirs_ends (h : Line mem lo es) (hlo : lo ≤ s) (hs : s ≤ es) (hn : es - s < n) :
    Terminates (ShellParser.parseredirs mem es n cmd s) := by
  induction n generalizing cmd s with
  | zero => exact absurd hn (Nat.not_lt_zero _)
  | succ n ih =>
    obtain ⟨hp, hp', hmore⟩ := peek_spec h hs (['<', '>'].map byte)
    have htok := gettoken_spec h (hlo.trans hp) hp'
    have hps := hp.trans htok.ge
    have hfile := gettoken_spec h (hlo.trans hps) htok.inside
    rw [ShellParser.parseredirs]
    dsimp only
    split
    · next hpeek =>
      split
      · exact panic_ends _
      · have hadv := htok.advances (hmore hpeek)
        have hge := hfile.ge
        have hinside := hfile.inside
        exact ih (hlo.trans (hps.trans hge)) hinside (by omega)
    · exact ok_ends _

theorem parseargs_ends (h : Line mem lo es) (hlo : lo ≤ s) (hs : s ≤ es) (hn : es - s < n)
    (hret : ∀ a ∈ strings ret, Recorded mem lo es a) :
    Terminates (ShellParser.parseargs mem es n argc ret s) := by
  induction n generalizing argc ret s with
  | zero => exact absurd hn (Nat.not_lt_zero _)
  | succ n ih =>
    obtain ⟨hp, hp', -⟩ := peek_spec h hs (['|', ')', '&', ';'].map byte)
    have htok := gettoken_spec h (hlo.trans hp) hp'
    have hps := hp.trans htok.ge
    rw [ShellParser.parseargs]
    dsimp only
    split
    · exact ok_ends _
    split
    · exact ok_ends _
    split
    · exact panic_ends _
    next hword =>
      split
      · exact panic_ends _
      have hret' := not_not.mp hword
      have hslice := htok.recorded (hlo.trans hp) hret'
      obtain ⟨w, hw⟩ := hslice.word
      have hlong := List.length_pos_of_ne_nil w.nonempty
      have hlength := hw.length
      have hskipped := htok.skipped
      have hbehind := htok.behind
      have hinside := htok.inside
      have hfuel : es - (gettoken mem es (ShellParser.peek mem es s
          (['|', ')', '&', ';'].map byte)).2).ps < n := by omega
      apply bind_ends (parseredirs_ends h (hlo.trans hps) htok.inside hfuel)
      intro u hu
      have hredirs := parseredirs_parsed h (hlo.trans hps) htok.inside
        (addArg_recorded hret hslice) hu
      have hge := hredirs.ge
      exact ih (hlo.trans (hps.trans hge)) hredirs.le (by omega) hredirs.recorded

theorem parsebacks_ends (h : Line mem lo es) (hlo : lo ≤ s) (hs : s ≤ es) (hn : es - s < n) :
    Terminates (ShellParser.parsebacks mem es n cmd s) := by
  induction n generalizing cmd s with
  | zero => exact absurd hn (Nat.not_lt_zero _)
  | succ n ih =>
    obtain ⟨hp, hp', hmore⟩ := peek_spec h hs [byte '&']
    have htok := gettoken_spec h (hlo.trans hp) hp'
    rw [ShellParser.parsebacks]
    split
    · next hpeek =>
      have hadv := htok.advances (hmore hpeek)
      have hinside := htok.inside
      exact ih (hlo.trans (hp.trans htok.ge)) hinside (by omega)
    · exact ok_ends _

/-- An operator is behind `s`, so the command behind it needs less. -/
theorem operand_ends (h : Line mem lo es) {c k : ℕ} {f : ℕ → Except Fault (Cmd Slice × ℕ)}
    (hf : Ends lo es c n f) (g : Cmd Slice → Cmd Slice) (cmd : Cmd Slice) (hlo : lo ≤ s)
    (hs : s ≤ es) (hk : k ≤ s) (hn : 4 * (es - k) + c ≤ n + 4) (toks : List Byte) :
    Terminates (if (ShellParser.peek mem es s toks).1 then
        f (ShellParser.gettoken mem es (ShellParser.peek mem es s toks).2).ps >>= fun t =>
          .ok (g t.1, t.2)
      else .ok (cmd, (ShellParser.peek mem es s toks).2)) := by
  obtain ⟨hp, hp', hmore⟩ := peek_spec h hs toks
  have htok := gettoken_spec h (hlo.trans hp) hp'
  split
  · next hpeek =>
    have hadv := htok.advances (hmore hpeek)
    have hinside := htok.inside
    apply bind_ends (hf _ (hlo.trans (hp.trans htok.ge)) hinside (by omega))
    exact fun _ _ => ok_ends _
  · exact ok_ends _

theorem parsepipe_ends (h : Line mem lo es)
    (hexec : Ends lo es 2 n (ShellParser.parseexec mem es n))
    (hpipe : Ends lo es 3 n (ShellParser.parsepipe mem es n)) :
    Ends lo es 3 (n + 1) (ShellParser.parsepipe mem es (n + 1)) := by
  intro s hlo hs hn
  rw [ShellParser.parsepipe]
  apply bind_ends (hexec s hlo hs (by omega))
  intro u hu
  have hparsed := (parsers_keep h n).2.2.2 s u hlo hs hu
  exact operand_ends h hpipe (.pipe u.1) u.1 (hlo.trans hparsed.ge) hparsed.le hparsed.ge
    (by omega) [byte '|']

theorem parseline_ends (h : Line mem lo es)
    (hpipe : Ends lo es 3 n (ShellParser.parsepipe mem es n))
    (hline : Ends lo es 4 n (ShellParser.parseline mem es n)) :
    Ends lo es 4 (n + 1) (ShellParser.parseline mem es (n + 1)) := by
  intro s hlo hs hn
  rw [ShellParser.parseline]
  apply bind_ends (hpipe s hlo hs (by omega))
  intro u hu
  have hparsed := (parsers_keep h n).2.1 s u hlo hs hu
  have hge := hparsed.ge
  have hu' := hlo.trans hge
  apply bind_ends (parsebacks_ends h hu' hparsed.le (by omega))
  intro v hv
  have hbacks := parsebacks_parsed h hu' hparsed.le hparsed.recorded hv
  exact operand_ends h hline (.list v.1) v.1 (hu'.trans hbacks.ge) hbacks.le
    (hge.trans hbacks.ge) (by omega) [byte ';']

theorem parseblock_ends (h : Line mem lo es)
    (hline : Ends lo es 4 n (ShellParser.parseline mem es n)) :
    Ends lo es 1 (n + 1) (ShellParser.parseblock mem es (n + 1)) := by
  intro s hlo hs hn
  obtain ⟨hp, hp', hmore⟩ := peek_spec h hs [byte '(']
  have htok := gettoken_spec h (hlo.trans hp) hp'
  have hge := hp.trans htok.ge
  have hps := hlo.trans hge
  rw [ShellParser.parseblock]
  dsimp only
  split
  case isFalse => exact panic_ends _
  case isTrue hpeek =>
    have hadv := htok.advances (hmore hpeek)
    have hinside := htok.inside
    apply bind_ends (hline _ hps hinside (by omega))
    intro u hu
    have hinner := (parsers_keep h n).1 _ u hps htok.inside hu
    have hu' := hps.trans hinner.ge
    have hinner' := hinner.ge
    obtain ⟨hq, hq', -⟩ := peek_spec h hinner.le [byte ')']
    have hclose := gettoken_spec h (hu'.trans hq) hq'
    have hclose' := hclose.ge
    split
    · exact parseredirs_ends h (hu'.trans (hq.trans hclose.ge)) hclose.inside (by omega)
    · exact panic_ends _

theorem parseexec_ends (h : Line mem lo es)
    (hblock : Ends lo es 1 n (ShellParser.parseblock mem es n)) :
    Ends lo es 2 (n + 1) (ShellParser.parseexec mem es (n + 1)) := by
  intro s hlo hs hn
  obtain ⟨hp, hp', -⟩ := peek_spec h hs [byte '(']
  rw [ShellParser.parseexec]
  split
  · exact hblock _ (hlo.trans hp) hp' (by omega)
  apply bind_ends (parseredirs_ends h (hlo.trans hp) hp' (by omega))
  intro u hu
  have hredirs := parseredirs_parsed h (hlo.trans hp) hp'
    (fun a ha => absurd ha List.not_mem_nil) hu
  have hge := hredirs.ge
  exact parseargs_ends h (hlo.trans (hp.trans hge)) hredirs.le (by omega) hredirs.recorded

theorem parsers_end (h : Line mem lo es) (n : ℕ) :
    Ends lo es 4 n (ShellParser.parseline mem es n) ∧
    Ends lo es 3 n (ShellParser.parsepipe mem es n) ∧
    Ends lo es 1 n (ShellParser.parseblock mem es n) ∧
    Ends lo es 2 n (ShellParser.parseexec mem es n) := by
  induction n with
  | zero =>
    refine ⟨fun s _ _ hn => ?_, fun s _ _ hn => ?_, fun s _ _ hn => ?_, fun s _ _ hn => ?_⟩
    all_goals omega
  | succ n ih =>
    obtain ⟨hline, hpipe, hblock, hexec⟩ := ih
    exact ⟨parseline_ends h hpipe hline, parsepipe_ends h hexec hpipe,
      parseblock_ends h hline, parseexec_ends h hblock⟩

end Termination

section Commands

theorem strlen_checked (h : Line mem lo es) (hlo : lo ≤ s) (hs : s ≤ es) (hn : es - s < n) :
    Checked.strlen mem lo es n s = .ok (es - s) := by
  induction n generalizing s with
  | zero => exact absurd hn (Nat.not_lt_zero _)
  | succ n ih =>
    rw [Checked.strlen, read_checked hlo hs, ok_bind]
    by_cases hend : s = es
    case pos =>
      rw [hend, if_pos h.stop, Nat.sub_self]
    case neg =>
      have hlt : s < es := Nat.lt_of_le_of_ne hs hend
      have hrest : es - (s + 1) + 1 = es - s := by omega
      rw [if_neg (h.nonzero s hlo hlt), ih (by omega) hlt (by omega), ok_bind, hrest]

theorem clear_checked (hlo : lo ≤ x) (hx : x ≤ es) (m : Memory) :
    Checked.clear lo es m x = .ok (Function.update m x 0) := if_pos ⟨hlo, hx⟩

theorem nulterminate_checked (hcmd : ∀ a ∈ strings cmd, lo ≤ a.eq ∧ a.eq ≤ es) :
    Checked.nulterminate lo es m cmd = .ok (ShellParser.nulterminate m cmd) := by
  induction cmd generalizing m with
  | exec argv =>
    change argv.foldlM _ m = _
    rw [ShellParser.nulterminate]
    induction argv generalizing m with
    | nil => rfl
    | cons a argv ih =>
      obtain ⟨ha, hargv⟩ := List.forall_mem_cons.mp hcmd
      rw [List.foldlM_cons, clear_checked ha.1 ha.2, ok_bind, List.foldl_cons]
      exact ih hargv
  | redir cmd file mode fd ih =>
    have hfile := hcmd file (List.mem_append_right _ List.mem_cons_self)
    rw [Checked.nulterminate, ih fun a ha => hcmd a (List.mem_append_left _ ha), ok_bind,
      clear_checked hfile.1 hfile.2, ShellParser.nulterminate]
  | pipe left right ihl ihr =>
    rw [Checked.nulterminate, ihl fun a ha => hcmd a (List.mem_append_left _ ha), ok_bind,
      ihr fun a ha => hcmd a (List.mem_append_right _ ha), ShellParser.nulterminate]
  | list left right ihl ihr =>
    rw [Checked.nulterminate, ihl fun a ha => hcmd a (List.mem_append_left _ ha), ok_bind,
      ihr fun a ha => hcmd a (List.mem_append_right _ ha), ShellParser.nulterminate]
  | back cmd ih => exact ih hcmd

theorem cstring_length (h : cstring mem s n = some line) : line.length < n := by
  induction n generalizing s line with
  | zero => cases h
  | succ n ih =>
    rw [cstring] at h
    split at h
    · obtain rfl := Option.some.inj h
      exact Nat.succ_pos n
    · obtain ⟨t, ht, rfl⟩ := Option.map_eq_some_iff.mp h
      exact Nat.succ_lt_succ (ih ht)

/-- More room finds the same string. -/
theorem cstring_more {k : ℕ} (h : cstring mem s k = some line) (hn : line.length < n) :
    cstring mem s n = some line := by
  induction k generalizing s n line with
  | zero => cases h
  | succ k ih =>
    obtain ⟨n, rfl⟩ : ∃ m, n = m + 1 := ⟨n - 1, by omega⟩
    rw [cstring] at h ⊢
    split at h
    · next hend => rw [if_pos hend, h]
    · next hend =>
      obtain ⟨t, ht, rfl⟩ := Option.map_eq_some_iff.mp h
      rw [if_neg hend, ih ht (Nat.lt_of_succ_lt_succ hn), Option.map_some]

theorem parsecmd_terminates (hline : cstring mem s n = some line)
    (hn : 4 * line.length + 4 ≤ n) : Terminates (ShellParser.parsecmd n mem s) := by
  have h := line_of_cstring hline
  have hend : s ≤ s + line.length := Nat.le_add_right _ _
  rw [ShellParser.parsecmd, ShellParser.strlen, hline, Option.map_some]
  apply bind_ends ((parsers_end h n).1 s (Nat.le_refl s) hend (by omega))
  intro u hu
  split
  · exact panic_ends _
  · exact ok_ends _

theorem parsecmd_checked (hline : cstring mem s n = some line) :
    Checked.parsecmd mem s (s + line.length) n s = lift (ShellParser.parsecmd n mem s) := by
  have h := line_of_cstring hline
  have hend : s ≤ s + line.length := Nat.le_add_right _ _
  have hlength : s + line.length - s = line.length := Nat.add_sub_cancel_left _ _
  have hn := cstring_length hline
  rw [Checked.parsecmd, strlen_checked h (Nat.le_refl s) hend (by omega), ok_bind, hlength,
    ShellParser.parsecmd, ShellParser.strlen, hline, Option.map_some,
    (parsers_agree h n).1 s (Nat.le_refl s) hend]
  apply lift_bind
  intro u hu
  have hparsed := (parsers_keep h n).1 s u (Nat.le_refl s) hend hu
  obtain ⟨hp, hp', -⟩ := peek_spec h hparsed.le []
  have hge := hparsed.ge
  rw [peek_checked hparsed.ge hparsed.le, ok_bind]
  split
  · rw [strlen_checked h (hparsed.ge.trans hp) hp' (by omega)]
    rfl
  · rw [nulterminate_checked, ok_bind]
    · rfl
    · intro a ha
      have hrecorded := hparsed.recorded a ha
      obtain ⟨w, hw⟩ := hrecorded.word
      have hlower := hrecorded.lower
      have hlength := hw.length
      exact ⟨by omega, hrecorded.upper⟩

end Commands

/-- On every string parsecmd returns or panics, and no access, position or index is out of its
bounds. Four rounds and calls for each byte, and five more, are enough. -/
theorem parsecmd_safe (mem : Memory) (s k n : ℕ) (line : List Byte)
    (hline : cstring mem s k = some line) (hn : 4 * line.length + 5 ≤ n) :
    Checked.parsecmd mem s (s + line.length) n s = lift (ShellParser.parsecmd n mem s) ∧
      ((∃ r, Checked.parsecmd mem s (s + line.length) n s = .ok r) ∨
        ∃ text, Checked.parsecmd mem s (s + line.length) n s = .error (.panic text)) := by
  have hline' := cstring_more hline (by omega : line.length < n)
  have hchecked := parsecmd_checked hline'
  have hends := parsecmd_terminates hline' (by omega)
  refine ⟨hchecked, ?_⟩
  rw [hchecked]
  cases hrun : ShellParser.parsecmd n mem s with
  | ok r => exact .inl ⟨r, rfl⟩
  | error e =>
    obtain ⟨text, rfl⟩ := hends e hrun
    exact .inr ⟨text, rfl⟩

/-- `a>>` without a file -/
def missingFile : Memory := fun x => ((['a', '>', '>'].map byte)[x - 100]?).getD 0

theorem parsecmd_safe_missing_file : Checked.parsecmd missingFile 100 103 17 100 =
    .error (.panic "missing file for redirection") := by
  have hpanics : (ShellParser.parsecmd 17 missingFile 100).map (fun _ => ()) =
      .error (.panic "missing file for redirection") := by decide +kernel
  obtain ⟨hchecked, -⟩ := parsecmd_safe missingFile 100 4 17 (['a', '>', '>'].map byte)
    (by decide) (by decide)
  refine hchecked.trans ?_
  cases hrun : ShellParser.parsecmd 17 missingFile 100 with
  | ok r =>
    rw [hrun] at hpanics
    cases hpanics
  | error e =>
    rw [hrun] at hpanics
    cases hpanics
    rfl

end ShellAccesses
