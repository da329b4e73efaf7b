import Xv6Gui.GuardedRuns
import Xv6Gui.WindowManagerState
import Xv6Gui.WordMemory

/-!
# The parser of the shell

shell.c reads a command line between the pointers `s` and `es`. The strings of a command are parts
of the line until nulterminate puts a zero byte behind each of them.
-/
namespace ShellParser

open WordMemory GuardedRuns
open WindowManagerState (Fault)

def byte (c : Char) : Byte := BitVec.ofNat 8 c.toNat

def whitespace : List Byte := [' ', '\t', '\r', '\n', '\x0b'].map byte

def symbols : List Byte := ['<', '|', '>', '&', ';', '(', ')'].map byte

def maxargs : ℕ := 10

def oRdonly : ℕ := 0x000
def oWronly : ℕ := 0x001
def oCreate : ℕ := 0x200

/-- A command; `argv` up to its null pointer. -/
inductive Cmd (α : Type)
  | exec (argv : List α)
  | redir (cmd : Cmd α) (file : α) (mode fd : ℕ)
  | pipe (left right : Cmd α)
  | list (left right : Cmd α)
  | back (cmd : Cmd α)
  deriving DecidableEq, Repr

def Cmd.map {α β : Type} (f : α → β) : Cmd α → Cmd β
  | .exec argv => .exec (argv.map f)
  | .redir cmd file mode fd => .redir (cmd.map f) (f file) mode fd
  | .pipe left right => .pipe (left.map f) (right.map f)
  | .list left right => .list (left.map f) (right.map f)
  | .back cmd => .back (cmd.map f)

/-- The part of the line from `q` up to `eq`. -/
structure Slice where
  q : ℕ
  eq : ℕ
  deriving DecidableEq, Repr

/-- What `gettoken` returns and stores. -/
structure Gotten where
  ret : Byte
  slice : Slice
  ps : ℕ

/-- `strchr` finds the character. -/
def strchr (s : List Byte) (c : Byte) : Bool := s.contains c

section Line

variable (mem : Memory) (es : ℕ)

/-- Step over the bytes of `p`, at most as many as the numeral says. -/
def skipWhile (p : Byte → Bool) : ℕ → ℕ → ℕ
  | 0, s => s
  | n + 1, s => if p (mem s) then skipWhile p n (s + 1) else s

def skipSpace (s : ℕ) : ℕ := skipWhile mem (strchr whitespace) (es - s) s

def gettoken (s : ℕ) : Gotten :=
  let q := skipSpace mem es s
  let r : Byte × ℕ :=
    if mem q = 0 then (mem q, q)
    else if (['|', '(', ')', ';', '&', '<'].map byte).contains (mem q) then (mem q, q + 1)
    else if mem q = byte '>' then
      if mem (q + 1) = byte '>' then (byte '+', q + 2) else (mem q, q + 1)
    else
      (byte 'a', skipWhile mem (fun c => !strchr whitespace c && !strchr symbols c) (es - q) q)
  ⟨r.1, ⟨q, r.2⟩, skipSpace mem es r.2⟩

def peek (s : ℕ) (toks : List Byte) : Bool × ℕ :=
  let s := skipSpace mem es s
  (decide (mem s ≠ 0) && strchr toks (mem s), s)

/-- The `switch` of `parseredirs` -/
def redirect (cmd : Cmd Slice) (tok : Byte) (file : Slice) : Cmd Slice :=
  if tok = byte '<' then .redir cmd file oRdonly 0
  else if tok = byte '>' then .redir cmd file (oWronly ||| oCreate) 1
  else if tok = byte '+' then .redir cmd file (oWronly ||| oCreate) 1
  else cmd

/-- The loops and calls go no deeper than the numeral says. -/
def parseredirs : ℕ → Cmd Slice → ℕ → Except Fault (Cmd Slice × ℕ)
  | 0, _, _ => .error .diverges
  | n + 1, cmd, s =>
    let p := peek mem es s (['<', '>'].map byte)
    if p.1 then
      let tok := gettoken mem es p.2
      let file := gettoken mem es tok.ps
      if file.ret ≠ byte 'a' then .error (.panic "missing file for redirection")
      else parseredirs n (redirect cmd tok.ret file.slice) file.ps
    else .ok (cmd, p.2)

/-- Store through the pointer to the EXEC node, which redirections may surround by now. -/
def addArg : Cmd Slice → Slice → Cmd Slice
  | .exec argv, a => .exec (argv ++ [a])
  | .redir cmd file mode fd, a => .redir (addArg cmd a) file mode fd
  | cmd, _ => cmd

/-- The loop of `parseexec` -/
def parseargs : ℕ → ℕ → Cmd Slice → ℕ → Except Fault (Cmd Slice × ℕ)
  | 0, _, _, _ => .error .diverges
  | n + 1, argc, ret, s =>
    let p := peek mem es s (['|', ')', '&', ';'].map byte)
    if p.1 then .ok (ret, p.2)
    else
      let tok := gettoken mem es p.2
      if tok.ret = 0 then .ok (ret, tok.ps)
      else if tok.ret ≠ byte 'a' then .error (.panic "syntax")
      else if maxargs ≤ argc + 1 then .error (.panic "too many args")
      else parseredirs mem es n (addArg ret tok.slice) tok.ps >>= fun r =>
        parseargs n (argc + 1) r.1 r.2

/-- The loop of `parseline` -/
def parsebacks : ℕ → Cmd Slice → ℕ → Except Fault (Cmd Slice × ℕ)
  | 0, _, _ => .error .diverges
  | n + 1, cmd, s =>
    let p := peek mem es s [byte '&']
    if p.1 then parsebacks n (.back cmd) (gettoken mem es p.2).ps
    else .ok (cmd, p.2)

mutual

def parseline : ℕ → ℕ → Except Fault (Cmd Slice × ℕ)
  | 0, _ => .error .diverges
  | n + 1, s =>
    parsepipe n s >>= fun r =>
      parsebacks mem es n r.1 r.2 >>= fun r =>
        let p := peek mem es r.2 [byte ';']
        if p.1 then
          parseline n (gettoken mem es p.2).ps >>= fun t => .ok (.list r.1 t.1, t.2)
        else .ok (r.1, p.2)

def parsepipe : ℕ → ℕ → Except Fault (Cmd Slice × ℕ)
  | 0, _ => .error .diverges
  | n + 1, s =>
    parseexec n s >>= fun r =>
      let p := peek mem es r.2 [byte '|']
      if p.1 then
        parsepipe n (gettoken mem es p.2).ps >>= fun t => .ok (.pipe r.1 t.1, t.2)
      else .ok (r.1, p.2)

def parseblock : ℕ → ℕ → Except Fault (Cmd Slice × ℕ)
  | 0, _ => .error .diverges
  | n + 1, s =>
    let p := peek mem es s [byte '(']
    if p.1 then
      parseline n (gettoken mem es p.2).ps >>= fun r =>
        let p := peek mem es r.2 [byte ')']
        if p.1 then parseredirs mem es n r.1 (gettoken mem es p.2).ps
        else .error (.panic "syntax - missing )")
    else .error (.panic "parseblock")

def parseexec : ℕ → ℕ → Except Fault (Cmd Slice × ℕ)
  | 0, _ => .error .diverges
  | n + 1, s =>
    let p := peek mem es s [byte '(']
    if p.1 then parseblock n p.2
    else parseredirs mem es n (.exec []) p.2 >>= fun r => parseargs mem es n 0 r.1 r.2

end

end Line

def nulterminate (mem : Memory) : Cmd Slice → Memory
  | .exec argv => argv.foldl (fun m a => Function.update m a.eq 0) mem
  | .redir cmd file _ _ => Function.update (nulterminate mem cmd) file.eq 0
  | .pipe left right => nulterminate (nulterminate mem left) right
  | .list left right => nulterminate (nulterminate mem left) right
  | .back cmd => nulterminate mem cmd

def strlen (mem : Memory) (n s : ℕ) : Option ℕ := (cstring mem s n).map List.length

def parsecmd (n : ℕ) (mem : Memory) (s : ℕ) : Except Fault (Memory × Cmd Slice) :=
  match strlen mem n s with
  | none => .error .diverges
  | some len =>
    let es := s + len
    parseline mem es n s >>= fun r =>
      if (peek mem es r.2 []).2 ≠ es then .error (.panic "syntax")
      else .ok (nulterminate mem r.1, r.1)

end ShellParser
