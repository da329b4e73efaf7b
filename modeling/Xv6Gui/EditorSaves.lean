import Xv6Gui.FileContents

/-!
# The text that the editor saves

The save button and the start of editor.c. The text of the input field is in a buffer of 1000
bytes; the names of files fit their array, and the window is left out.
-/
namespace EditorSaves

open GuardedRuns Directories FileSystem FileSystemSpecs FailedCalls FileContents
open WindowManagerState (ProcId MsgType)
open FileTable (FileId nofile setFile setSlot oRdwr oCreate)

abbrev maxLongStrlen : ℕ := 1000

/-- The globals `filename` and `file`. -/
structure Editor where
  filename : List UInt8
  file : ℤ
  deriving DecidableEq, Repr

/-- `/new.txt` -/
def newTxt : List UInt8 := [47, 110, 101, 119, 46, 116, 120, 116]

/-- `Start typing...` -/
def startTyping : List UInt8 :=
  [83, 116, 97, 114, 116, 32, 116, 121, 112, 105, 110, 103, 46, 46, 46]

/-- An array of `n` bytes that starts with the given ones. -/
def pad (n : ℕ) (bytes : List UInt8) : List UInt8 := (bytes ++ List.replicate n 0).take n

/-- What `strcpy` copies out of an array; nothing when it leaves the array. -/
def cstring (bytes : List UInt8) : Option (List UInt8) :=
  if 0 ∈ bytes then some (bytes.takeWhile (· ≠ 0)) else none

/-- The handler opens for reading and writing the file that the editor has, and else makes one. -/
def openForSave (s : System) (p : ProcId) (ed : Editor) : Except Fault (System × ℤ) :=
  if ed.file ≠ -1 then sysOpen s p (some ed.filename) oRdwr
  else sysOpen s p (some newTxt) oCreate

def buttonHandler (o : Others) (s : System) (p : ProcId) (ed : Editor) (msg : MsgType)
    (text : List UInt8) : Except Fault (System × Editor) :=
  if msg = .mouseLeftClick ∨ msg = .mouseDblclick then do
    let (s, file) ← openForSave s p ed
    let (s, _) ← sysWrite o s p file (text.take 512)
    let (s, _) ← sysClose s p file
    return (s, { ed with file := file })
  else .ok (s, ed)

/-- The part of main that looks at the argument. -/
def openArgument (s : System) (p : ProcId) : Option (List UInt8) → Except Fault (System × Editor)
  | none => .ok (s, { filename := [], file := -1 })
  | some path => do
    let (s, file) ← sysOpen s p (some path) oRdwr
    return (s, { filename := path, file := file })

/-- The start of the editor, up to the text that its input field shows. -/
def main (o : Others) (s : System) (p : ProcId) (arg : Option (List UInt8)) :
    Except Fault (System × Editor × Option (List UInt8)) := do
  let (s, ed) ← openArgument s p arg
  if ed.file ≥ 0 then do
    let (s, bytes) ← sysRead o s p ed.file maxLongStrlen
    let (s, _) ← sysClose s p ed.file
    return (s, ed, cstring (pad maxLongStrlen (bytes.getD [])))
  else return (s, ed, cstring (pad maxLongStrlen startTyping))

/-- The file that the handler saves to: the one that the editor was started on, or `/new.txt`
when it was started without a file or could not open it. -/
inductive SavesTo (s s' : System) (p : ProcId) (ed : Editor) (ip : ℕ) : Prop where
  | file {name : Name} : ed.file ≠ -1 → lookup s p ed.filename false = some (ip, name) →
    (s.inode ip).type = .file → SavesTo s s' p ed ip
  | newTxt {name : Name} : ed.file = -1 ∨ ed.filename = [] →
    lookup s' p newTxt false = some (ip, name) → (s'.inode ip).type = .file → SavesTo s s' p ed ip

/-- The handler opens the file that the editor was started on. -/
def Opens (s : System) (p : ProcId) (ed : Editor) : Prop :=
  ed.file ≠ -1 ∧ ed.filename ≠ [] ∧ ¬TablesFull s.tables p

/-- The contents of an inode; `create` empties one that was free. -/
def contents (s : System) (ip : ℕ) : List UInt8 :=
  if (s.inode ip).type = .free then [] else (s.inode ip).data

/-- The first 512 bytes of the text are written and end it, or what the file has behind them
ends it; or nothing is written and the file has the text already. -/
def Keeps (s : System) (p : ProcId) (ed : Editor) (ip : ℕ) (t : List UInt8) : Prop :=
  Opens s p ed ∧ (t.length < 512 ∨
    cstring (pad (maxLongStrlen - 512) ((contents s ip).drop 512)) = some (t.drop 512)) ∨
  ¬Opens s p ed ∧ cstring (pad maxLongStrlen (contents s ip)) = some t

section Bytes

variable {t a b : List UInt8}

theorem cstring_append (ha : ∀ c ∈ a, c ≠ 0) : cstring (a ++ b) = (cstring b).map (a ++ ·) := by
  have hmem : 0 ∈ a ++ b ↔ 0 ∈ b := by
    rw [List.mem_append]
    exact or_iff_right fun h => ha 0 h rfl
  have htake : (a ++ b).takeWhile (· ≠ 0) = a ++ b.takeWhile (· ≠ 0) :=
    List.takeWhile_append_of_pos fun c hc => decide_eq_true (ha c hc)
  simp only [cstring, hmem, htake]
  split <;> rfl

theorem cstring_text (ht : ∀ c ∈ t, c ≠ 0) : cstring (t ++ 0 :: b) = some t := by
  have hzero : cstring (0 :: b) = some [] := by simp [cstring]
  rw [cstring_append ht, hzero, Option.map_some, List.append_nil]

theorem pad_append (n : ℕ) : pad (a.length + n) (a ++ b) = a ++ pad n b := by
  rw [pad, List.append_assoc, List.take_length_add_append, pad, Nat.add_comm,
    List.replicate_add, ← List.append_assoc, List.take_append_of_le_length]
  simp

/-- What the first 1000 bytes of the file show after 512 bytes of the buffer were written over
its start. -/
theorem cstring_saved {rest old : List UInt8} (ht : ∀ c ∈ t, c ≠ 0)
    (hlen : (t ++ 0 :: rest).length = maxLongStrlen) :
    cstring (pad maxLongStrlen ((t ++ 0 :: rest).take 512 ++ old.drop 512)) = some t ↔
      t.length < 512 ∨ cstring (pad (maxLongStrlen - 512) (old.drop 512)) = some (t.drop 512) := by
  have htake : ((t ++ 0 :: rest).take 512).length = 512 := by
    rw [List.length_take, hlen]
    rfl
  have hpad := pad_append (a := (t ++ 0 :: rest).take 512) (b := old.drop 512)
    (maxLongStrlen - 512)
  rw [htake] at hpad
  change pad maxLongStrlen _ = _ at hpad
  rw [hpad]
  by_cases hshort : t.length < 512
  · have hstart : (t ++ 0 :: rest).take 512 = t ++ 0 :: rest.take (511 - t.length) := by
      rw [List.take_append, List.take_of_length_le hshort.le]
      have hmore : 512 - t.length = 511 - t.length + 1 := by omega
      rw [hmore, List.take_succ_cons]
    rw [hstart, List.append_assoc, List.cons_append, cstring_text ht]
    exact iff_of_true rfl (Or.inl hshort)
  · have hstart : (t ++ 0 :: rest).take 512 = t.take 512 :=
      List.take_append_of_le_length (not_lt.mp hshort)
    have hsplit := List.take_append_drop 512 t
    have hnz : ∀ c ∈ t.take 512, c ≠ 0 := fun c hc => ht c (List.mem_of_mem_take hc)
    rw [hstart, cstring_append hnz, Option.map_eq_some_iff]
    constructor
    · rintro ⟨x, hx, heq⟩
      right
      rw [hx, ← List.append_cancel_left (heq.trans hsplit.symm)]
    · rintro (hlt | hx)
      · exact absurd hlt hshort
      · exact ⟨t.drop 512, hx, hsplit⟩

end Bytes

section Opening

variable {s t u : System} {p : ProcId} {path : List UInt8} {ip : ℕ} {name : Name} {r : ℤ}

/-- Open for reading and writing what the path leads to. -/
theorem open_cases (h : Sound s) (hlook : lookup s p path false = some (ip, name))
    (hcall : sysOpen s p (some path) oRdwr = .ok (u, r)) : (s.inode ip).type ≠ .free ∧
      (((s.inode ip).type = .dir ∨ TablesFull s.tables p) ∧ r = -1 ∧ u = s ∨
        (s.inode ip).type ≠ .dir ∧ ¬TablesFull s.tables p ∧ ∃ f fd,
          (s.tables.file f).ref = 0 ∧ r = ((fd : Fin nofile) : ℕ) ∧
            u = opened (hold s ip) p f fd ip oRdwr) := by
  have hmode : ¬oRdwr &&& oCreate ≠ 0 := by decide
  simp only [sysOpen, if_neg hmode] at hcall
  obtain ⟨⟨v, x⟩, hv, hcall⟩ := bind_eq_ok.mp hcall
  rcases namex_cases h.anchored hv with ⟨hnone, -, -⟩ | ⟨i, name', hsome, rfl, rfl⟩
  · rw [hlook] at hnone
    cases hnone
  · rw [hlook] at hsome
    cases hsome
    obtain ⟨_, hlock, hcall⟩ := bind_eq_ok.mp hcall
    refine ⟨ilock_eq_ok hlock, ?_⟩
    split at hcall
    · next hdir =>
      cases hcall
      exact Or.inl ⟨Or.inl hdir.1, rfl, iput_hold h.anchored ip⟩
    · next hdir =>
      have hne : (s.inode ip).type ≠ .dir := fun hd => hdir ⟨hd, by decide⟩
      rcases openFile_cases (s := hold s ip) h.closed hcall with
        ⟨hfull, rfl, rfl⟩ | ⟨hfree, f, fd, hf, -, rfl, rfl⟩
      · exact Or.inl ⟨Or.inr hfull, rfl, iput_hold h.anchored ip⟩
      · exact Or.inr ⟨hne, hfree, f, fd, hf, rfl, rfl⟩

theorem lookup_nil (s : System) (p : ProcId) : lookup s p [] false = some (s.cwd p, []) := rfl

theorem pad_take (n : ℕ) (l : List UInt8) : pad n (l.take n) = pad n l := by
  rw [pad, pad]
  by_cases hl : l.length ≤ n
  · rw [List.take_of_length_le hl]
  · have hlen : (l.take n).length = n := List.length_take_of_le (Nat.le_of_not_le hl)
    rw [List.take_append_of_le_length (Nat.le_of_not_le hl),
      List.take_append_of_le_length hlen.ge, List.take_take, Nat.min_self]

/-- What the editor shows when it could open the file that it is started on. -/
theorem main_shows {o : Others} {ed : Editor} {shown : Option (List UInt8)} (h : Sound s)
    (hlook : lookup s p path false = some (ip, name))
    (hcall : main o s p (some path) = .ok (t, ed, shown)) (hopen : 0 ≤ ed.file) :
    (s.inode ip).type ≠ .free ∧ ((s.inode ip).type = .file →
      shown = cstring (pad maxLongStrlen (s.inode ip).data)) := by
  obtain ⟨⟨u, ed'⟩, hu, hcall⟩ := bind_eq_ok.mp hcall
  obtain ⟨⟨v, r⟩, hv, hu⟩ := bind_eq_ok.mp hu
  cases hu
  have hcases := open_cases h hlook hv
  refine ⟨hcases.1, ?_⟩
  intro htype
  simp only [] at hcall
  split at hcall
  · next hr =>
    rcases hcases.2 with ⟨-, rfl, -⟩ | ⟨-, -, f, fd, -, rfl, rfl⟩
    · exact absurd hr (by decide)
    · have hread : ∃ w, sysRead o (opened (hold s ip) p f fd ip oRdwr) p fd maxLongStrlen =
          .ok (w, some ((s.inode ip).data.take maxLongStrlen)) := sysRead_opened htype
      obtain ⟨w, hw⟩ := hread
      simp only [hw, ok_bind] at hcall
      obtain ⟨⟨x, y⟩, -, hcall⟩ := bind_eq_ok.mp hcall
      cases hcall
      rw [Option.getD_some, pad_take]
  · next hr =>
    cases hcall
    exact absurd hopen hr

end Opening

section Saving

variable {o : Others} {s s' u : System} {p : ProcId} {ed ed' : Editor} {msg : MsgType}
  {text : List UInt8} {ip j : ℕ} {r : ℤ}

/-- Regular files have the contents they had, or are new and empty. -/
def SameContents (s u : System) : Prop :=
  ∀ j, (u.inode j).type = .file → (u.inode j).data = contents s j

theorem contents_of_file (h : (s.inode j).type = .file) : contents s j = (s.inode j).data :=
  if_neg (by rw [h]; nofun)

theorem SameContents.of_eq (h : ∀ j, (u.inode j).type = .file → u.inode j = s.inode j) :
    SameContents s u := by
  intro j hj
  have hsame := h j hj
  rw [hsame] at hj ⊢
  exact (contents_of_file hj).symm

theorem SameContents.mono {t : System} (h : SameContents s u)
    (hsame : ∀ j, (t.inode j).type ≠ .free → t.inode j = u.inode j) : SameContents s t := by
  intro j hj
  have heq := hsame j (by rw [hj]; nofun)
  rw [heq] at hj ⊢
  exact h j hj

theorem sameContents_created {path : List UInt8} {dp : ℕ} {name : Name}
    (hnew : MakesNew s p path dp ip name) :
    SameContents s (created s dp ip name .file 0 0) := by
  have hmade : SameContents s (hold (made s dp ip name .file 0 0) dp) := by
    intro j hj
    rw [hold_inode, made, hold_inode] at hj ⊢
    by_cases hd : j = dp
    · subst hd
      rw [setInode_inode_self] at hj
      have hdir := lookup_parent hnew.parent
      exact absurd (hdir.symm.trans hj) (by decide)
    · rw [setInode_inode_of_ne hd] at hj ⊢
      by_cases hi : j = ip
      · rw [hi, setInode_inode_self, contents, if_pos hnew.free]
        rfl
      · rw [setInode_inode_of_ne hi] at hj ⊢
        exact (contents_of_file hj).symm
  exact hmade.mono fun j hj => iput_inode_of_allocated hj

/-- A file that was opened with O_CREATE alone refuses the write. -/
theorem sysOpen_create (h : Sound s)
    (hcall : sysOpen s p (some newTxt) oCreate = .ok (u, r)) :
    SameContents s u ∧ ∀ src, sysWrite o u p r src = .ok (u, -1) := by
  rcases sysOpen_cases h.anchored h.closed hcall with ⟨rfl, rfl, -⟩ |
    ⟨_, i, f, fd, -, -, -, -, rfl, rfl⟩ | ⟨_, dp, i, name, -, -, hnew, hend⟩
  · exact ⟨.of_eq fun _ _ => rfl, fun _ => sysWrite_neg⟩
  · exact ⟨.of_eq fun _ _ => rfl, fun _ => sysWrite_unwritable⟩
  · have hmade := sameContents_created hnew
    rcases hend with ⟨-, rfl, rfl⟩ | ⟨-, f, fd, -, -, rfl, rfl⟩
    · exact ⟨hmade.mono fun j hj => iput_inode_of_allocated hj, fun _ => sysWrite_neg⟩
    · exact ⟨hmade, fun _ => sysWrite_unwritable⟩

/-- After a click on the save button. -/
theorem saved_contents (h : Sound s) (hcwd : (s.inode (s.cwd p)).type = .dir)
    (hlen : text.length = maxLongStrlen) (hclick : msg = .mouseLeftClick ∨ msg = .mouseDblclick)
    (hsave : buttonHandler o s p ed msg text = .ok (s', ed')) (hfile : SavesTo s s' p ed ip) :
    Sound s' ∧ ((s'.inode ip).type ≠ .free → (s'.inode ip).type = .file ∧
      (Opens s p ed ∧ (s'.inode ip).data = text.take 512 ++ (contents s ip).drop 512 ∨
        ¬Opens s p ed ∧ (s'.inode ip).data = contents s ip)) := by
  rw [buttonHandler, if_pos hclick] at hsave
  obtain ⟨⟨u, file⟩, hu, hsave⟩ := bind_eq_ok.mp hsave
  obtain ⟨⟨v, w⟩, hv, hsave⟩ := bind_eq_ok.mp hsave
  obtain ⟨⟨x, y⟩, hx, hsave⟩ := bind_eq_ok.mp hsave
  cases hsave
  have hkeep : ∀ j, (s'.inode j).type ≠ .free → s'.inode j = v.inode j :=
    fun j hj => sysClose_inode hx hj
  have hclosed : Sound v → Sound s' := fun hs => call_sound (e := .close p file) hs hx
  rw [openForSave] at hu
  cases hfile with
  | file hne hlook htype =>
    rw [if_pos hne] at hu
    have hname : ed.filename ≠ [] := by
      intro hnil
      rw [hnil, lookup_nil] at hlook
      cases hlook
      exact absurd (hcwd.symm.trans htype) (by nofun)
    rcases (open_cases h hlook hu).2 with ⟨hfull, rfl, rfl⟩ | ⟨-, hfree, f, fd, -, rfl, rfl⟩
    · have hno : ¬Opens u p ed := by
        rintro ⟨-, -, hfree⟩
        rcases hfull with hdir | hfull
        · exact absurd (hdir.symm.trans htype) (by nofun)
        · exact hfree hfull
      rw [sysWrite_neg] at hv
      cases hv
      refine ⟨hclosed h, ?_⟩
      intro hip
      have hsame := hkeep ip hip
      refine ⟨hsame ▸ htype, Or.inr ⟨hno, ?_⟩⟩
      rw [hsame, contents_of_file htype]
    · have hheld : Sound (hold s ip) := ⟨anchored_hold h.anchored ip, h.closed⟩
      have htake : (text.take 512).length = 512 := by
        rw [List.length_take, hlen]
        rfl
      have hwrite : ∃ t r, sysWrite o (opened (hold s ip) p f fd ip oRdwr) p fd (text.take 512) =
          .ok (t, r) ∧ Sound t ∧ t.inode ip = { s.inode ip with
            data := text.take 512 ++ (s.inode ip).data.drop (text.take 512).length } :=
        sysWrite_opened hheld htype (List.ne_nil_of_length_pos (by omega)) (by rw [htake]; decide)
      obtain ⟨v', r, hv', hsound, hinode⟩ := hwrite
      rw [hv'] at hv
      cases hv
      refine ⟨hclosed hsound, ?_⟩
      intro hip
      have hsame := (hkeep ip hip).trans hinode
      rw [hsame]
      refine ⟨htype, Or.inl ⟨⟨hne, hname, hfree⟩, ?_⟩⟩
      rw [contents_of_file htype, htake]
  | newTxt hno hlook htype =>
    have hopens : ¬Opens s p ed := by
      rintro ⟨hne, hname, -⟩
      rcases hno with hno | hno
      · exact hne hno
      · exact hname hno
    have hrefused : SameContents s u ∧ Sound u ∧ v = u := by
      by_cases hneg : ed.file = -1
      · rw [if_neg (not_not.mpr hneg)] at hu
        obtain ⟨hsame, hwrite⟩ := sysOpen_create (o := o) h hu
        rw [hwrite] at hv
        cases hv
        exact ⟨hsame, call_sound (e := .open p (some newTxt) oCreate) h hu, rfl⟩
      · -- The empty name stands for the directory of the process.
        rw [if_pos hneg, hno.resolve_left hneg] at hu
        rcases (open_cases h (lookup_nil s p) hu).2 with ⟨-, rfl, rfl⟩ | ⟨hdir, -⟩
        · rw [sysWrite_neg] at hv
          cases hv
          exact ⟨.of_eq fun _ _ => rfl, h, rfl⟩
        · exact absurd hcwd hdir
    obtain ⟨hsame, hsound, rfl⟩ := hrefused
    exact ⟨hclosed hsound, fun _ => ⟨htype, Or.inr ⟨hopens, hsame.mono hkeep ip htype⟩⟩⟩

/-- A text of at most 999 characters is shown by an editor that is started on the file that it
was saved to exactly when the file was opened for writing, and the 512 bytes written end the
text or what was behind them in the file does, or when the file had the text already. -/
theorem saved_text_shows_iff {q : ProcId} {ed'' : Editor} {t rest path : List UInt8} {name : Name}
    {shown : Option (List UInt8)} (h : Sound s) (hcwd : (s.inode (s.cwd p)).type = .dir)
    (ht : ∀ c ∈ t, c ≠ 0) (hlen : (t ++ 0 :: rest).length = maxLongStrlen)
    (hclick : msg = .mouseLeftClick ∨ msg = .mouseDblclick)
    (hsave : buttonHandler o s p ed msg (t ++ 0 :: rest) = .ok (s', ed'))
    (hfile : SavesTo s s' p ed ip) (hpath : lookup s' q path false = some (ip, name))
    (hstart : main o s' q (some path) = .ok (u, ed'', shown)) (hopen : 0 ≤ ed''.file) :
    shown = some t ↔ Keeps s p ed ip t := by
  obtain ⟨hsound, hsaves⟩ := saved_contents h hcwd hlen hclick hsave hfile
  obtain ⟨hip, hshows⟩ := main_shows hsound hpath hstart hopen
  obtain ⟨htype, hdata⟩ := hsaves hip
  rw [hshows htype, Keeps]
  rcases hdata with ⟨hopens, hdata⟩ | ⟨hopens, hdata⟩
  · rw [hdata, cstring_saved ht hlen]
    constructor
    · intro hsaved
      exact Or.inl ⟨hopens, hsaved⟩
    · rintro (⟨-, hsaved⟩ | ⟨hno, -⟩)
      · exact hsaved
      · exact absurd hopens hno
  · rw [hdata]
    constructor
    · intro hsaved
      exact Or.inr ⟨hopens, hsaved⟩
    · rintro (⟨hno, -⟩ | ⟨-, hsaved⟩)
      · exact absurd hno hopens
      · exact hsaved

end Saving

section Sessions

/-- Pipes and devices that refuse. -/
def refusing : Others where
  read s _ _ := .ok (s, none)
  write s _ _ := .ok (s, -1)

/-- init has made the file `/a`. -/
def fileMade : List Event := [.open 0 (some [47, 97]) oCreate, .close 0 0]

/-- Save and start the editor again: where the path leads, the descriptor and what is shown. -/
def session (s : System) (ed : Editor) (text path : List UInt8) :
    Except Fault (Option (ℕ × Name) × ℤ × Option (List UInt8)) := do
  let (s, _) ← buttonHandler refusing s 0 ed .mouseLeftClick text
  let (_, ed, shown) ← main refusing s 0 (some path)
  return (lookup s 0 path false, ed.file, shown)

theorem session_eq_ok {s : System} {ed : Editor} {text path : List UInt8} {x : Option (ℕ × Name)}
    {file : ℤ} {shown : Option (List UInt8)} (h : session s ed text path = .ok (x, file, shown)) :
    ∃ s' ed' u ed'', buttonHandler refusing s 0 ed .mouseLeftClick text = .ok (s', ed') ∧
      lookup s' 0 path false = x ∧ main refusing s' 0 (some path) = .ok (u, ed'', shown) ∧
      ed''.file = file := by
  obtain ⟨⟨s', ed'⟩, hsave, h⟩ := bind_eq_ok.mp h
  obtain ⟨⟨u, ed'', shown'⟩, hstart, h⟩ := bind_eq_ok.mp h
  cases h
  exact ⟨s', ed', u, ed'', hsave, rfl, hstart, rfl⟩

theorem pad_text {n : ℕ} {t : List UInt8} (h : t.length < n) :
    pad n t = t ++ 0 :: List.replicate (n - 1 - t.length) 0 := by
  have hn : n = t.length + (n - 1 - t.length + 1) := by omega
  have hpad := pad_append (a := t) (b := []) (n - 1 - t.length + 1)
  rw [List.append_nil, ← hn] at hpad
  rw [hpad, pad, List.nil_append, List.take_replicate, ← List.replicate_succ]
  congr 2
  omega

theorem length_pad (n : ℕ) (l : List UInt8) : (pad n l).length = n := by
  rw [pad, List.length_take, List.length_append, List.length_replicate]
  omega

/-- A short text saved to an empty file. -/
theorem saved_text_shows_iff_short : ∃ s s' u ed' ed'',
    Execution FileSystem.step (emptyDisk 8) fileMade s ∧
    buttonHandler refusing s 0 ⟨[47, 97], 0⟩ .mouseLeftClick (pad maxLongStrlen [104, 105]) =
      .ok (s', ed') ∧
    main refusing s' 0 (some [47, 97]) = .ok (u, ed'', some [104, 105]) := by
  obtain ⟨s, hs, hf⟩ := execution_of_map FileSystem.step (emptyDisk 8) fileMade
    (fun s => decide ((s.inode (s.cwd 0)).type = .dir ∧ lookup s 0 [47, 97] false = some (2, []) ∧
      (s.inode 2).type = .file ∧ (s.tables.file 0).ref = 0 ∧ s.tables.ofile (0, 0) = none ∧
      session s ⟨[47, 97], 0⟩ (pad maxLongStrlen [104, 105]) [47, 97] =
        .ok (some (2, []), 0, some [104, 105])))
    (b := true) (by decide +kernel)
  obtain ⟨hcwd, hlook, htype, href, hslot, hsession⟩ := of_decide_eq_true hf
  obtain ⟨s', ed', u, ed'', hsave, hpath, hstart, hopen⟩ := session_eq_ok hsession
  have hsound := execution_invariant (fun _ _ _ => step_sound) hs (sound_emptyDisk 8)
  have hfree : ¬TablesFull s.tables 0 := by
    rintro (hfull | hfull)
    · exact hfull 0 href
    · exact hfull 0 hslot
  have hlen := length_pad maxLongStrlen [104, 105]
  have hsave' := hsave
  rw [pad_text (by decide)] at hlen hsave'
  have hiff := saved_text_shows_iff hsound hcwd (by simp) hlen (Or.inl rfl) hsave'
    (.file (by decide) hlook htype) hpath hstart hopen.ge
  have hkeeps : Keeps s 0 ⟨[47, 97], 0⟩ 2 [104, 105] :=
    Or.inl ⟨⟨by decide, by decide, hfree⟩, Or.inl (by decide)⟩
  rw [hiff.mpr hkeeps] at hstart
  exact ⟨s, s', u, ed', ed'', hs, hsave, hstart⟩

/-- An editor without a file makes `/new.txt` and writes nothing to it. -/
theorem saved_text_lost : ¬∀ (o : Others) (s s' u : System) (p q : ProcId) (ed ed' ed'' : Editor)
    (msg : MsgType) (t rest path : List UInt8) (ip : ℕ) (name : Name)
    (shown : Option (List UInt8)), Sound s → (s.inode (s.cwd p)).type = .dir →
    (∀ c ∈ t, c ≠ 0) → (t ++ 0 :: rest).length = maxLongStrlen →
    (msg = .mouseLeftClick ∨ msg = .mouseDblclick) →
    buttonHandler o s p ed msg (t ++ 0 :: rest) = .ok (s', ed') → SavesTo s s' p ed ip →
    lookup s' q path false = some (ip, name) → main o s' q (some path) = .ok (u, ed'', shown) →
    0 ≤ ed''.file → shown = some t := by
  intro h
  have hsession : session (emptyDisk 8) ⟨[], -1⟩ (pad maxLongStrlen [97]) newTxt =
      .ok (some (2, []), 0, some []) := by decide +kernel
  obtain ⟨s', ed', u, ed'', hsave, hpath, hstart, hopen⟩ := session_eq_ok hsession
  have hlen := length_pad maxLongStrlen [97]
  have htype : (buttonHandler refusing (emptyDisk 8) 0 ⟨[], -1⟩ .mouseLeftClick
      (pad maxLongStrlen [97])).map (fun x => (x.1.inode 2).type) = .ok .file := by decide +kernel
  rw [hsave] at htype
  rw [pad_text (by decide)] at hlen hsave
  exact nomatch h refusing (emptyDisk 8) s' u 0 0 ⟨[], -1⟩ ed' ed'' .mouseLeftClick [97] _ newTxt 2
    [] (some []) (sound_emptyDisk 8) rfl (by simp) hlen (Or.inl rfl) hsave
    (.newTxt (Or.inl rfl) hpath (Except.ok.inj htype)) hpath hstart hopen.ge

end Sessions

end EditorSaves
