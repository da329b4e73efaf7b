import Xv6Gui.WordMemory
import Xv6Gui.WindowManagerState

/-!
# The arguments of exec

The system call collects argument pointers upwards from the array it is given until it meets
a zero word. The handlers that start a program build their array on the stack without one, so
what follows the array decides what the program receives.
-/
namespace ExecArguments

open WordMemory WindowManagerState

abbrev maxArg : ℕ := 32
abbrev maxShortStrlen : ℕ := 50
abbrev dirSiz : ℕ := 30

/-- The calling process: its memory, its size and the stack pointer of the trap frame. No
process grows to KERNBASE, so the length of a string is never negative as an `int`. -/
structure Process where
  mem : Memory
  sz : Word
  esp : Word
  sz_lt : sz < 0x80000000#32

def Process.fetchint (p : Process) (addr : Word) : Option Word :=
  if addr ≥ p.sz ∨ addr + 4 > p.sz then none else some (word p.mem addr.toNat)

/-- The string at an address, if it ends within the process. -/
def Process.stringAt (p : Process) (addr : Word) : Option (List Byte) :=
  if addr ≥ p.sz then none else cstring p.mem addr.toNat (p.sz.toNat - addr.toNat)

def Process.fetchstr (p : Process) (addr : Word) : Option ℕ :=
  (p.stringAt addr).map List.length

def Process.argint (p : Process) (n : Word) : Option Word := p.fetchint (p.esp + 4 + 4 * n)

def Process.argstr (p : Process) (n : Word) : Option Word := do
  let addr ← p.argint n
  let _ ← p.fetchstr addr
  return addr

/-- The loop of sys_exec from entry `i` on, with room for `n` more entries. -/
def Process.collectArgs (p : Process) (uargv : Word) : ℕ → ℕ → Option (List Word)
  | 0, _ => none
  | n + 1, i =>
    match p.fetchint (uargv + 4 * BitVec.ofNat 32 i) with
    | none => none
    | some uarg =>
      if uarg = 0 then some []
      else
        match p.fetchstr uarg with
        | none => none
        | some _ => (p.collectArgs uargv n (i + 1)).map (uarg :: ·)

/-- The path and the argument vector handed to exec; `none` is the return of -1. -/
def Process.sysExec (p : Process) : Option (Word × List Word) := do
  let path ← p.argstr 0
  let uargv ← p.argint 1
  let argv ← p.collectArgs uargv maxArg 0
  return (path, argv)

/-! ### The handlers -/

def Process.store (p : Process) (dst : Word) (bytes : List Byte) : Process :=
  { p with mem := writeBytes p.mem dst.toNat bytes }

def Process.memset (p : Process) (dst : Word) (c : Byte) (n : ℕ) : Process :=
  p.store dst (List.replicate n c)

def Process.strlen (p : Process) (s : Word) : Option ℕ := (p.stringAt s).map List.length

/-- The two strings are globals of their own and do not overlap. -/
def Process.strcpy (p : Process) (s t : Word) : Option Process :=
  (p.stringAt t).map (fun bytes => p.store s (bytes ++ [0]))

/-- A call exec(argv2[0], argv2): the child when it fills in the array, and the values of the
array's initialisers. -/
structure ExecRequest where
  process : Process
  init : List Word

/-- The bytes of ".", "/" and "txt". -/
abbrev dot : Byte := 46
abbrev slash : Byte := 47
abbrev txt : List Byte := [116, 120, 116]

/-- What follows the last dot of a name, or the name. -/
def extension (name : List Byte) : List Byte := (name.reverse.takeWhile (· ≠ dot)).reverse

/-- The extension is copied to the static `buf` unless it is too long for it. -/
def getFileExtension (p : Process) (buf filename : Word) : Option (Process × Word) := do
  let name ← p.stringAt filename
  let ext := extension name
  if ext.length ≥ dirSiz then
    return (p, filename + BitVec.ofNat 32 (name.length - ext.length))
  else
    let p := p.store buf ext
    return (p.memset (buf + BitVec.ofNat 32 ext.length) 0 1, buf)

/-- In the explorer. The arguments are the addresses of the globals and of the literals. -/
def mkdirHandler (p : Process) (currentPath newDir mkdirText tempText : Word)
    (msg : MsgType) : Option ExecRequest :=
  if msg = .mouseDblclick then do
    let p := p.memset newDir 0 maxShortStrlen
    let p ← p.strcpy newDir currentPath
    let n ← p.strlen currentPath
    let p := p.memset (newDir + BitVec.ofNat 32 n) slash 1
    let n ← p.strlen currentPath
    let p ← p.strcpy (newDir + BitVec.ofNat 32 n + 1) tempText
    return ⟨p, [mkdirText, newDir]⟩
  else none

/-- In the explorer; `text` is the file name of the widget. -/
def buttonHandler (p : Process) (buf editorText text : Word) (msg : MsgType) :
    Option ExecRequest :=
  if msg = .mouseDblclick then do
    let (p, ext) ← getFileExtension p buf text
    if p.stringAt ext = some txt then return ⟨p, [editorText, text]⟩
    else return ⟨p, [text]⟩
  else none

/-- In the desktop; `text` is the label of the widget's button. -/
def Desktop.startProgramHandler (p : Process) (text : Word) (msg : MsgType) :
    Option ExecRequest :=
  if msg = .mouseDblclick then some ⟨p, [text]⟩ else none

/-- In the start window. It prints a line first, below its own frame. -/
def StartWindow.startProgramHandler (p : Process) (text : Word) (msg : MsgType) :
    Option ExecRequest :=
  if msg = .mouseDblclick then some ⟨p, [text]⟩ else none

inductive BuildsArgv2 (r : ExecRequest) : Prop where
  | mkdir {p currentPath newDir mkdirText tempText msg}
      (h : mkdirHandler p currentPath newDir mkdirText tempText msg = some r)
  | button {p buf editorText text msg} (h : buttonHandler p buf editorText text msg = some r)
  | desktop {p text msg} (h : Desktop.startProgramHandler p text msg = some r)
  | startWindow {p text msg} (h : StartWindow.startProgramHandler p text msg = some r)

/-- Where the array lies on the stack, and below it the return address and the two arguments
of the call. -/
structure Frame (r : ExecRequest) where
  argv2 : Word
  esp : Word
  ret : Word
  below : esp.toNat + 12 ≤ argv2.toNat
  inside : argv2.toNat + 4 * r.init.length ≤ r.process.sz.toNat

/-- The process at the system call. -/
def Frame.callExec {r : ExecRequest} (f : Frame r) : Process :=
  let mem := storeWords r.process.mem f.argv2.toNat r.init
  { r.process with
    mem := storeWords mem f.esp.toNat [f.ret, word mem f.argv2.toNat, f.argv2]
    esp := f.esp }

/-- The string an initialiser points at, which no part of the frame overlaps. -/
def Frame.Spares {r : ExecRequest} (f : Frame r) (ptr : Word) : Prop :=
  ptr ≠ 0 ∧ ∃ s, r.process.stringAt ptr = some s ∧
    (ptr.toNat + s.length < f.esp.toNat ∨ f.argv2.toNat + 4 * r.init.length ≤ ptr.toNat)

theorem init_shape {r : ExecRequest} (h : BuildsArgv2 r) :
    (∃ a, r.init = [a]) ∨ ∃ a b, r.init = [a, b] := by
  cases h with
  | mkdir h =>
    simp only [mkdirHandler, Option.bind_eq_bind, Option.pure_def] at h
    split at h
    · simp only [Option.bind_eq_some_iff, Option.some.injEq] at h
      obtain ⟨_, -, _, -, _, -, _, -, rfl⟩ := h
      exact .inr ⟨_, _, rfl⟩
    · cases h
  | button h =>
    simp only [buttonHandler, Option.bind_eq_bind, Option.pure_def] at h
    split at h
    · simp only [Option.bind_eq_some_iff] at h
      obtain ⟨_, -, h⟩ := h
      split at h
      · cases h
        exact .inr ⟨_, _, rfl⟩
      · cases h
        exact .inl ⟨_, rfl⟩
    · cases h
  | desktop h =>
    rw [Desktop.startProgramHandler] at h
    split at h
    · cases h
      exact .inl ⟨_, rfl⟩
    · cases h
  | startWindow h =>
    rw [StartWindow.startProgramHandler] at h
    split at h
    · cases h
      exact .inl ⟨_, rfl⟩
    · cases h

theorem init_length {r : ExecRequest} (h : BuildsArgv2 r) :
    0 < r.init.length ∧ r.init.length < maxArg := by
  rcases init_shape h with ⟨a, h⟩ | ⟨a, b, h⟩
  · simp [h, maxArg]
  · simp [h, maxArg]

/-! ### The loop -/

theorem toNat_slot {a : Word} {i : ℕ} (h : a.toNat + 4 * i < 4294967296) :
    (a + 4 * BitVec.ofNat 32 i).toNat = a.toNat + 4 * i := by
  have hfour : (4 : Word).toNat = 4 := rfl
  rw [BitVec.toNat_add, BitVec.toNat_mul, BitVec.toNat_ofNat, hfour]
  omega

theorem fetchint_eq (p : Process) {addr : Word} (h : addr.toNat + 4 ≤ p.sz.toNat) :
    p.fetchint addr = some (word p.mem addr.toNat) := by
  have hsz := p.sz.isLt
  have hin : ¬ (addr ≥ p.sz ∨ addr + 4 > p.sz) := by
    rw [ge_iff_le, gt_iff_lt, BitVec.le_def, BitVec.lt_def, BitVec.toNat_add]
    have hfour : (4 : Word).toNat = 4 := rfl
    omega
  rw [Process.fetchint, if_neg hin]

/-- The loop takes over a segment of string pointers and goes on behind it. -/
theorem collectArgs_append (p : Process) (uargv : Word) (ptrs : List Word) (n i : ℕ)
    (hptrs : ∀ k (hk : k < ptrs.length),
      p.fetchint (uargv + 4 * BitVec.ofNat 32 (i + k)) = some ptrs[k])
    (hstr : ∀ ptr ∈ ptrs, ptr ≠ 0 ∧ ∃ l, p.fetchstr ptr = some l) :
    p.collectArgs uargv (ptrs.length + n) i =
      (p.collectArgs uargv n (i + ptrs.length)).map (ptrs ++ ·) := by
  induction ptrs generalizing i with
  | nil => simp
  | cons ptr ptrs ih =>
    obtain ⟨⟨hne, l, hl⟩, hrest⟩ := List.forall_mem_cons.mp hstr
    have hfirst : p.fetchint (uargv + 4 * BitVec.ofNat 32 i) = some ptr :=
      hptrs 0 (Nat.succ_pos _)
    have hnext : ∀ k (hk : k < ptrs.length),
        p.fetchint (uargv + 4 * BitVec.ofNat 32 (i + 1 + k)) = some ptrs[k] := by
      intro k hk
      have hk' := hptrs (k + 1) (Nat.succ_lt_succ hk)
      rwa [← Nat.add_assoc, Nat.add_right_comm i k 1] at hk'
    have hlen : (ptr :: ptrs).length + n = ptrs.length + n + 1 := Nat.succ_add _ _
    have hplace : i + (ptr :: ptrs).length = i + 1 + ptrs.length := by
      rw [List.length_cons]
      omega
    rw [hlen, hplace, Process.collectArgs, hfirst]
    simp only [if_neg hne, hl, ih (i + 1) hnext hrest, Option.map_map]
    rfl

/-- With room for an entry left, nothing more is collected exactly before a zero word. -/
theorem collectArgs_eq_nil (p : Process) (uargv : Word) (n i : ℕ) :
    p.collectArgs uargv (n + 1) i = some [] ↔
      p.fetchint (uargv + 4 * BitVec.ofNat 32 i) = some 0 := by
  rw [Process.collectArgs]
  cases hf : p.fetchint (uargv + 4 * BitVec.ofNat 32 i) with
  | none => simp
  | some uarg =>
    by_cases hu : uarg = 0
    · rw [hu]
      simp
    · have hne : some uarg ≠ some 0 := fun h => hu (Option.some.inj h)
      simp only [if_neg hu, hne, iff_false]
      cases p.fetchstr uarg with
      | none => simp
      | some l => simp

/-! ### The frame of the call -/

section Frame

variable {r : ExecRequest} (f : Frame r)

theorem callExec_mem : f.callExec.mem =
    storeWords (storeWords r.process.mem f.argv2.toNat r.init) f.esp.toNat
      [f.ret, word (storeWords r.process.mem f.argv2.toNat r.init) f.argv2.toNat, f.argv2] :=
  rfl

/-- The call writes below the array only. -/
theorem callExec_above {b : ℕ} (h : f.argv2.toNat ≤ b) :
    f.callExec.mem b = storeWords r.process.mem f.argv2.toNat r.init b := by
  have hbelow := f.below
  rw [callExec_mem]
  apply storeWords_outside
  right
  rw [List.length_cons, List.length_cons, List.length_cons, List.length_nil]
  omega

theorem callExec_outside {b : ℕ}
    (h : b < f.esp.toNat ∨ f.argv2.toNat + 4 * r.init.length ≤ b) :
    f.callExec.mem b = r.process.mem b := by
  have hbelow := f.below
  rcases h with h | h
  · rw [callExec_mem, storeWords_outside _ _ (.inl h),
      storeWords_outside _ _ (.inl (by omega))]
  · rw [callExec_above f (by omega), storeWords_outside _ _ (.inr h)]

theorem word_array {i : ℕ} (hi : i < r.init.length) :
    word f.callExec.mem (f.argv2.toNat + 4 * i) = r.init[i] := by
  rw [← word_storeWords r.process.mem f.argv2.toNat r.init hi]
  apply word_congr
  intro b hb _
  exact callExec_above f (by omega)

theorem fetchint_array {i : ℕ} (hi : i < r.init.length) :
    f.callExec.fetchint (f.argv2 + 4 * BitVec.ofNat 32 i) = some r.init[i] := by
  have hin := f.inside
  have hsz := r.process.sz.isLt
  have haddr := toNat_slot (a := f.argv2) (i := i) (by omega)
  have hroom : (f.argv2 + 4 * BitVec.ofNat 32 i).toNat + 4 ≤ f.callExec.sz.toNat := by
    rw [haddr]
    exact (by omega : f.argv2.toNat + 4 * i + 4 ≤ r.process.sz.toNat)
  rw [fetchint_eq _ hroom, haddr, word_array f hi]

/-- The word behind the array is the one the process had there before. -/
theorem fetchint_behind :
    f.callExec.fetchint (f.argv2 + 4 * BitVec.ofNat 32 r.init.length) =
      r.process.fetchint (f.argv2 + 4 * BitVec.ofNat 32 r.init.length) := by
  have hin := f.inside
  have hsz := r.process.sz.isLt
  have haddr := toNat_slot (a := f.argv2) (i := r.init.length) (by omega)
  have hword : word f.callExec.mem (f.argv2 + 4 * BitVec.ofNat 32 r.init.length).toNat =
      word r.process.mem (f.argv2 + 4 * BitVec.ofNat 32 r.init.length).toNat := by
    apply word_congr
    intro b hb _
    rw [haddr] at hb
    exact callExec_outside f (.inr hb)
  rw [Process.fetchint, Process.fetchint, hword]
  rfl

theorem stringAt_spared {ptr : Word} (h : f.Spares ptr) :
    f.callExec.stringAt ptr = r.process.stringAt ptr := by
  obtain ⟨-, s, hs, hapart⟩ := h
  rw [hs]
  rw [Process.stringAt] at hs ⊢
  split at hs
  · cases hs
  · next hin =>
    rw [if_neg (show ¬ ptr ≥ f.callExec.sz from hin)]
    apply cstring_congr hs
    intro b hb hb'
    exact callExec_outside f (by omega)

theorem fetchstr_spared {ptr : Word} (h : f.Spares ptr) :
    ∃ l, f.callExec.fetchstr ptr = some l := by
  obtain ⟨-, s, hs, -⟩ := id h
  exact ⟨s.length, by rw [Process.fetchstr, stringAt_spared f h, hs, Option.map_some]⟩

theorem argint_callExec {n : ℕ} (hn : n < 2) :
    f.callExec.argint (BitVec.ofNat 32 n) =
      some (word f.callExec.mem (f.esp.toNat + 4 * (n + 1))) := by
  have hbelow := f.below
  have hin := f.inside
  have hsz := r.process.sz.isLt
  have hplace : f.callExec.esp + 4 + 4 * BitVec.ofNat 32 n =
      f.esp + 4 * BitVec.ofNat 32 (n + 1) := by
    rw [BitVec.ofNat_add, BitVec.mul_add, BitVec.add_comm (4 * _), ← BitVec.add_assoc]
    rfl
  have haddr := toNat_slot (a := f.esp) (i := n + 1) (by omega)
  have hroom : (f.esp + 4 * BitVec.ofNat 32 (n + 1)).toNat + 4 ≤ f.callExec.sz.toNat := by
    rw [haddr]
    exact (by omega : f.esp.toNat + 4 * (n + 1) + 4 ≤ r.process.sz.toNat)
  rw [Process.argint, hplace, fetchint_eq _ hroom, haddr]

/-- The path is the first entry of the array. -/
theorem argstr_callExec (hlen : 0 < r.init.length) (hs : ∀ ptr ∈ r.init, f.Spares ptr) :
    f.callExec.argstr 0 = some r.init[0] := by
  have hfirst := word_storeWords r.process.mem f.argv2.toNat r.init hlen
  have hpath : f.callExec.argint 0 = some r.init[0] := by
    have harg := argint_callExec f (n := 0) (by decide)
    rw [callExec_mem, word_storeWords _ _ _ (by simp)] at harg
    exact harg.trans (congrArg some hfirst)
  obtain ⟨l, hl⟩ := fetchstr_spared f (hs _ (List.getElem_mem hlen))
  rw [Process.argstr, hpath]
  exact (congrArg (· >>= fun _ => some r.init[0]) hl)

theorem argint_argv : f.callExec.argint 1 = some f.argv2 := by
  have harg := argint_callExec f (n := 1) (by decide)
  rw [callExec_mem, word_storeWords _ _ _ (by simp)] at harg
  exact harg

/-- The system call gets past the array and goes on with the words behind it. -/
theorem sysExec_callExec (hr : BuildsArgv2 r) (hs : ∀ ptr ∈ r.init, f.Spares ptr) :
    f.callExec.sysExec.map Prod.snd =
      (f.callExec.collectArgs f.argv2 (maxArg - r.init.length) r.init.length).map
        (r.init ++ ·) := by
  obtain ⟨hpos, hlt⟩ := init_length hr
  have hloop := collectArgs_append f.callExec f.argv2 r.init (maxArg - r.init.length) 0
    (fun k hk => by rw [Nat.zero_add]; exact fetchint_array f hk)
    (fun ptr hptr => ⟨(hs ptr hptr).1, fetchstr_spared f (hs ptr hptr)⟩)
  rw [Nat.zero_add, Nat.add_sub_cancel' hlt.le] at hloop
  simp only [Process.sysExec, argstr_callExec f hpos hs, argint_argv, hloop,
    Option.bind_eq_bind, Option.pure_def, Option.bind_some, Option.bind_map]
  cases f.callExec.collectArgs f.argv2 (maxArg - r.init.length) r.init.length with
  | none => rfl
  | some rest => rfl

end Frame

/-- The program receives the strings of the array's initialisers and nothing else exactly if
the word right behind the array lies in the process and is zero. -/
theorem argument_vector_iff {r : ExecRequest} (hr : BuildsArgv2 r) (f : Frame r)
    (hs : ∀ ptr ∈ r.init, f.Spares ptr) :
    f.callExec.sysExec.map (fun c => c.2.map f.callExec.stringAt) =
        some (r.init.map r.process.stringAt) ↔
      r.process.fetchint (f.argv2 + 4 * BitVec.ofNat 32 r.init.length) = some 0 := by
  obtain ⟨-, hlt⟩ := init_length hr
  obtain ⟨n, hn⟩ : ∃ n, maxArg - r.init.length = n + 1 :=
    ⟨maxArg - r.init.length - 1, by omega⟩
  have hinit : r.init.map f.callExec.stringAt = r.init.map r.process.stringAt := by
    apply List.map_congr_left
    intro ptr hptr
    exact stringAt_spared f (hs ptr hptr)
  have hsplit : f.callExec.sysExec.map (fun c => c.2.map f.callExec.stringAt) =
      (f.callExec.sysExec.map Prod.snd).map (List.map f.callExec.stringAt) := by
    rw [Option.map_map]
    rfl
  rw [← fetchint_behind f, ← collectArgs_eq_nil f.callExec f.argv2 n, hsplit,
    sysExec_callExec f hr hs, hn, Option.map_map]
  cases f.callExec.collectArgs f.argv2 (n + 1) r.init.length with
  | none => simp
  | some rest =>
    simp only [Option.map_some, Function.comp_apply, List.map_append, hinit, Option.some.injEq,
      List.append_right_eq_self, List.map_eq_nil_iff]

/-- A small process with the label "sh" at 16, about to fill in the one-entry array at 100. -/
def labelled (behind : Word) : ExecRequest where
  process := ⟨storeWord (writeBytes (fun _ => 0) 16 [115, 104]) 104 behind, 256, 100, by decide⟩
  init := [16]

def labelledFrame (behind : Word) : Frame (labelled behind) where
  argv2 := 100
  esp := 88
  ret := 4
  below := by decide
  inside := (by decide : 100 + 4 * 1 ≤ 256)

theorem labelled_built (behind : Word) : BuildsArgv2 (labelled behind) := by
  have hclick : Desktop.startProgramHandler (labelled behind).process 16 .mouseDblclick =
      some (labelled behind) := rfl
  exact .desktop hclick

theorem argument_vector_label :
    (labelledFrame 0).callExec.sysExec.map (fun c => c.2.map (labelledFrame 0).callExec.stringAt) =
      some ((labelled 0).init.map (labelled 0).process.stringAt) :=
  (argument_vector_iff (labelled_built 0) (labelledFrame 0) (by
    intro ptr hptr
    rw [List.mem_singleton.mp hptr]
    exact ⟨by decide, [115, 104], by decide +kernel, by decide⟩)).mpr (by decide +kernel)

/-- The word behind the array happens to point at the label, which is passed twice. -/
theorem label_passed_twice :
    ¬ ∀ (r : ExecRequest) (_ : BuildsArgv2 r) (f : Frame r), (∀ ptr ∈ r.init, f.Spares ptr) →
      f.callExec.sysExec.map (fun c => c.2.map f.callExec.stringAt) =
        some (r.init.map r.process.stringAt) := by
  intro h
  have hvector := h (labelled 16) (labelled_built 16) (labelledFrame 16) (by
    intro ptr hptr
    rw [List.mem_singleton.mp hptr]
    exact ⟨by decide, [115, 104], by decide +kernel, by decide⟩)
  revert hvector
  decide +kernel

end ExecArguments
