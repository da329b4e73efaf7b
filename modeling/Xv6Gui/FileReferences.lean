import Xv6Gui.FileTable
import Mathlib.Data.Finset.Card
import Mathlib.Tactic.Set

/-!
# The references of struct files

Inside a call a reference may be in nobody's descriptor table: between filealloc and fdalloc,
or between clearing a descriptor and fileclose. The invariant counts these as pending, each
function takes on or settles a pending reference, and at the boundary of a call none is left.
-/
namespace FileReferences

open WindowManagerState GuardedRuns FileTable
open ProcessTable (findProc initproc)

section Uses

variable {α β : Type} [Fintype α] [DecidableEq α] [DecidableEq β] {g : α → Option β} {x : α}
  {b : β}

/-- How many places of `g` hold `b`. -/
def uses (g : α → Option β) (b : β) : ℕ := (Finset.univ.filter fun x => g x = some b).card

omit [DecidableEq α] in
theorem uses_pos (h : g x = some b) : 0 < uses g b :=
  Finset.card_pos.mpr ⟨x, Finset.mem_filter.mpr ⟨Finset.mem_univ x, h⟩⟩

omit [DecidableEq α] in
theorem exists_of_uses (h : uses g b ≠ 0) : ∃ x, g x = some b := by
  obtain ⟨x, hx⟩ := Finset.card_ne_zero.mp h
  exact ⟨x, (Finset.mem_filter.mp hx).2⟩

theorem uses_fill (h : g x = none) (b c : β) :
    uses (Function.update g x (some b)) c = uses g c + if b = c then 1 else 0 := by
  simp only [uses]
  split
  · next hbc =>
    subst hbc
    have hx : x ∉ Finset.univ.filter fun y => g y = some b := by simp [h]
    rw [← Finset.card_insert_of_notMem hx]
    congr 1
    ext y
    by_cases hy : y = x
    · simp [hy]
    · simp [hy]
  · next hbc =>
    congr 1
    ext y
    by_cases hy : y = x
    · simp [hy, h, hbc]
    · simp [hy]

theorem uses_clear (h : g x = some b) (c : β) :
    uses g c = uses (Function.update g x none) c + if b = c then 1 else 0 := by
  have hnone : Function.update g x none x = none := Function.update_self _ _ _
  rw [← uses_fill hnone b c, Function.update_idem, ← h, Function.update_eq_self]

end Uses

section Invariant

variable {s t u : System} {p np : ProcId} {f g : FileId} {v : File} {pending : List FileId}
  {a : ℕ} {w : Bool} {x : Slot}

/-- The end of a pipe that a file is: the page, and whether it is the end written to. -/
def pipeEnd (v : File) : Option (ℕ × Bool) :=
  if v.type = .pipe then some (v.pipe, v.writable) else none

theorem pipeEnd_eq_some : pipeEnd v = some (a, w) ↔
    v.type = .pipe ∧ v.pipe = a ∧ v.writable = w := by
  simp [pipeEnd]

theorem pipeEnd_of_type_ne (h : v.type ≠ .pipe) : pipeEnd v = none := if_neg h

structure PipesOk (s : System) : Prop where
  readable : ∀ f, (s.file f).type = .pipe → (s.file f).readable = !(s.file f).writable
  opened : ∀ f a w, pipeEnd (s.file f) = some (a, w) →
    ∃ e, s.page a = some e ∧ e.isOpen w = true
  unique : ∀ f g a w, pipeEnd (s.file f) = some (a, w) → pipeEnd (s.file g) = some (a, w) → f = g
  held : ∀ a e w, s.page a = some e → e.isOpen w = true →
    ∃ f, pipeEnd (s.file f) = some (a, w)
  someOpen : ∀ a e, s.page a = some e → ∃ w, e.isOpen w = true
  balance : ∀ a, s.allocs a = s.frees a + if (s.page a).isSome then 1 else 0

structure Inv (pending : List FileId) (s : System) : Prop where
  refs : ∀ f, (s.file f).ref = uses s.ofile f + pending.count f
  closed : ∀ f, (s.file f).ref = 0 → (s.file f).type = .none
  pipes : PipesOk s

/-- Only descriptors of `p` have changed. -/
structure Local (p : ProcId) (s t : System) : Prop where
  life : t.life = s.life
  ofile : ∀ q fd, q ≠ p → t.ofile (q, fd) = s.ofile (q, fd)

theorem Local.refl (p : ProcId) (s : System) : Local p s s := ⟨rfl, fun _ _ _ => rfl⟩

theorem Local.trans (h : Local p s t) (k : Local p t u) : Local p s u where
  life := k.life.trans h.life
  ofile q fd hq := (k.ofile q fd hq).trans (h.ofile q fd hq)

theorem Local.of_eq (hl : t.life = s.life) (ho : t.ofile = s.ofile) : Local p s t :=
  ⟨hl, fun q fd _ => congrFun ho (q, fd)⟩

theorem local_setSlot (s : System) (p : ProcId) (fd : Fin nofile) (o : Option FileId) :
    Local p s (setSlot s (p, fd) o) := by
  refine ⟨rfl, ?_⟩
  intro q fd' hq
  exact Function.update_of_ne (fun h => hq (congrArg Prod.fst h)) _ _

theorem local_setFile (s : System) (p : ProcId) (f : FileId) (v : File) :
    Local p s (setFile s f v) := Local.of_eq rfl rfl

@[simp] theorem file_setFile_self (s : System) (f : FileId) (v : File) :
    (setFile s f v).file f = v := Function.update_self _ _ _

theorem file_setFile_of_ne (h : g ≠ f) : (setFile s f v).file g = s.file g :=
  Function.update_of_ne h _ _

theorem PipesOk.setFile (h : PipesOk s) (he : pipeEnd v = pipeEnd (s.file f))
    (hr : v.type = .pipe → v.readable = !v.writable) : PipesOk (setFile s f v) := by
  have hends : ∀ g, pipeEnd ((FileTable.setFile s f v).file g) = pipeEnd (s.file g) := by
    intro g
    by_cases hg : g = f
    · rw [hg, file_setFile_self, he]
    · rw [file_setFile_of_ne hg]
  refine ⟨?_, ?_, ?_, ?_, h.someOpen, h.balance⟩
  · intro g
    by_cases hg : g = f
    · rw [hg, file_setFile_self]
      exact hr
    · rw [file_setFile_of_ne hg]
      exact h.readable g
  · intro g a w hg
    exact h.opened g a w (hends g ▸ hg)
  · intro g g' a w hg hg'
    exact h.unique g g' a w (hends g ▸ hg) (hends g' ▸ hg')
  · intro a e w ha hw
    obtain ⟨g, hg⟩ := h.held a e w ha hw
    exact ⟨g, (hends g).trans hg⟩

theorem pipesOk_ref (h : PipesOk s) (f : FileId) (r : ℕ) :
    PipesOk (setFile s f { s.file f with ref := r }) :=
  h.setFile rfl (h.readable f)

theorem isOpen_close (e : Ends) (w v : Bool) :
    (e.close w).isOpen v = (e.isOpen v && v != w) := by
  cases w <;> cases v <;> simp [Ends.close, Ends.isOpen]

theorem closed_iff (e : Ends) : (e.readopen = false ∧ e.writeopen = false) ↔
    ∀ w, e.isOpen w = false := by
  constructor
  · rintro ⟨hr, hw⟩ w
    cases w
    · exact hr
    · exact hw
  · intro h
    exact ⟨h false, h true⟩

/-- After the file has let go of its end, the ends that are left are those of other files. -/
theorem pipeEnd_released {b : ℕ} {c : Bool} (h : PipesOk s)
    (hf : pipeEnd (s.file f) = some (a, w)) (hv : pipeEnd v = none)
    (hg : pipeEnd ((setFile s f v).file g) = some (b, c)) :
    pipeEnd (s.file g) = some (b, c) ∧ ¬(b = a ∧ c = w) := by
  have hgf : g ≠ f := by
    rintro rfl
    rw [file_setFile_self, hv] at hg
    exact nomatch hg
  rw [file_setFile_of_ne hgf] at hg
  refine ⟨hg, ?_⟩
  rintro ⟨rfl, rfl⟩
  exact hgf (h.unique g f b c hg hf)

theorem pipeEnd_kept {b : ℕ} {c : Bool} (hf : pipeEnd (s.file f) = some (a, w))
    (hg : pipeEnd (s.file g) = some (b, c)) (hne : ¬(b = a ∧ c = w)) :
    pipeEnd ((setFile s f v).file g) = some (b, c) := by
  have hgf : g ≠ f := by
    rintro rfl
    rw [hf] at hg
    cases hg
    exact hne ⟨rfl, rfl⟩
  rw [file_setFile_of_ne hgf, hg]

section Release

variable {e : Ends} (h : PipesOk s) (hf : pipeEnd (s.file f) = some (a, w))
  (hv : pipeEnd v = none)

include h hv in
theorem readable_released (g : FileId) (hg : ((setFile s f v).file g).type = .pipe) :
    ((setFile s f v).file g).readable = !((setFile s f v).file g).writable := by
  by_cases hgf : g = f
  · rw [hgf, file_setFile_self] at hg
    simp [pipeEnd, hg] at hv
  · rw [file_setFile_of_ne hgf] at hg ⊢
    exact h.readable g hg

include h hf hv

theorem unique_released (g g' : FileId) (b : ℕ) (c : Bool)
    (hg : pipeEnd ((setFile s f v).file g) = some (b, c))
    (hg' : pipeEnd ((setFile s f v).file g') = some (b, c)) : g = g' :=
  h.unique g g' b c (pipeEnd_released h hf hv hg).1 (pipeEnd_released h hf hv hg').1

variable (he : s.page a = some e)

include he

/-- The last end of a pipe has been closed. -/
theorem pipesOk_freed (hshut : ∀ c, (e.close w).isOpen c = false) :
    PipesOk (kfree (setFile s f v) a) := by
  have hpage : ∀ {b}, b ≠ a → (kfree (setFile s f v) a).page b = s.page b := fun hb =>
    Function.update_of_ne hb _ _
  have hgone : ∀ {b e'}, (kfree (setFile s f v) a).page b = some e' → b ≠ a := by
    rintro b e' hb rfl
    simp [kfree] at hb
  constructor
  case readable => exact readable_released h hv
  case opened =>
    intro g b c hg
    obtain ⟨hg', hne⟩ := pipeEnd_released h hf hv hg
    obtain ⟨e', he', hc⟩ := h.opened g b c hg'
    have hb : b ≠ a := by
      rintro rfl
      have hee : e' = e := Option.some.inj (he'.symm.trans he)
      have hcw : c ≠ w := fun hc => hne ⟨rfl, hc⟩
      have hs := hshut c
      rw [isOpen_close, ← hee, hc] at hs
      simp [hcw] at hs
    exact ⟨e', (hpage hb).trans he', hc⟩
  case unique => exact unique_released h hf hv
  case held =>
    intro b e' c hb hc
    have hba := hgone hb
    obtain ⟨g, hg⟩ := h.held b e' c ((hpage hba).symm.trans hb) hc
    exact ⟨g, pipeEnd_kept hf hg fun hn => hba hn.1⟩
  case someOpen =>
    intro b e' hb
    exact h.someOpen b e' ((hpage (hgone hb)).symm.trans hb)
  case balance =>
    intro b
    have hbal := h.balance b
    by_cases hb : b = a
    · subst hb
      simp only [he] at hbal
      simpa [kfree, setFile] using hbal
    · simpa [kfree, setFile, hb] using hbal

/-- One end of a pipe has been closed and the other is still open. -/
theorem pipesOk_closed (hopen : ∃ c, (e.close w).isOpen c = true) :
    PipesOk { setFile s f v with
      page := Function.update (setFile s f v).page a (some (e.close w)) } := by
  have hpage : ∀ {b}, b ≠ a →
      Function.update (setFile s f v).page a (some (e.close w)) b = s.page b := fun hb =>
    Function.update_of_ne hb _ _
  constructor
  case readable => exact readable_released h hv
  case opened =>
    intro g b c hg
    obtain ⟨hg', hne⟩ := pipeEnd_released h hf hv hg
    obtain ⟨e', he', hc⟩ := h.opened g b c hg'
    by_cases hb : b = a
    · subst hb
      have hee : e' = e := Option.some.inj (he'.symm.trans he)
      have hcw : c ≠ w := fun hc => hne ⟨rfl, hc⟩
      refine ⟨_, Function.update_self _ _ _, ?_⟩
      rw [isOpen_close, ← hee, hc]
      simp [hcw]
    · exact ⟨e', (hpage hb).trans he', hc⟩
  case unique => exact unique_released h hf hv
  case held =>
    intro b e' c hb hc
    by_cases hba : b = a
    · subst hba
      have hee : e' = e.close w := by simpa [setFile] using hb.symm
      rw [hee, isOpen_close, Bool.and_eq_true, bne_iff_ne] at hc
      obtain ⟨g, hg⟩ := h.held b e c he hc.1
      exact ⟨g, pipeEnd_kept hf hg fun hn => hc.2 hn.2⟩
    · obtain ⟨g, hg⟩ := h.held b e' c ((hpage hba).symm.trans hb) hc
      exact ⟨g, pipeEnd_kept hf hg fun hn => hba hn.1⟩
  case someOpen =>
    intro b e' hb
    by_cases hba : b = a
    · subst hba
      have hee : e' = e.close w := by simpa [setFile] using hb.symm
      rwa [hee]
    · exact h.someOpen b e' ((hpage hba).symm.trans hb)
  case balance =>
    intro b
    have hbal := h.balance b
    by_cases hb : b = a
    · subst hb
      simp only [he] at hbal
      simpa [setFile] using hbal
    · simpa [setFile, hb] using hbal

end Release

/-- The end is open, so its page is there; the page goes when the other end is closed too. -/
theorem pipeclose_spec (h : PipesOk s) (hf : pipeEnd (s.file f) = some (a, w))
    (hv : pipeEnd v = none) : ∃ t, pipeclose (setFile s f v) a w = .ok t ∧ PipesOk t ∧
      t.file = (setFile s f v).file ∧ t.ofile = s.ofile ∧ t.life = s.life := by
  obtain ⟨e, he, -⟩ := h.opened f a w hf
  have hpage : (setFile s f v).page a = some e := he
  simp only [pipeclose, hpage, closed_iff]
  split
  · next hshut => exact ⟨_, rfl, pipesOk_freed h hf hv he hshut, rfl, rfl, rfl⟩
  · next hshut =>
    obtain ⟨c, hc⟩ := not_forall.mp hshut
    have hopen : ∃ c, (e.close w).isOpen c = true := ⟨c, (Bool.not_eq_false _).mp hc⟩
    exact ⟨_, rfl, pipesOk_closed h hf hv he hopen, rfl, rfl, rfl⟩

@[simp] theorem count_cons_file (f g : FileId) (pending : List FileId) :
    (f :: pending).count g = pending.count g + if f = g then 1 else 0 := by
  rw [List.count_cons]
  simp only [beq_iff_eq]

/-- The descriptor takes over the pending reference. -/
theorem inv_fill (h : Inv (f :: pending) s) (hx : s.ofile x = none) :
    Inv pending (setSlot s x (some f)) := by
  refine ⟨?_, h.closed, h.pipes.readable, h.pipes.opened, h.pipes.unique, h.pipes.held,
    h.pipes.someOpen, h.pipes.balance⟩
  intro g
  have hg := h.refs g
  rw [count_cons_file] at hg
  simp only [setSlot, uses_fill hx]
  omega

theorem inv_clear (h : Inv pending s) (hx : s.ofile x = some f) :
    Inv (f :: pending) (setSlot s x none) := by
  refine ⟨?_, h.closed, h.pipes.readable, h.pipes.opened, h.pipes.unique, h.pipes.held,
    h.pipes.someOpen, h.pipes.balance⟩
  intro g
  have hg := h.refs g
  rw [uses_clear hx] at hg
  simp only [setSlot, count_cons_file]
  omega

theorem ref_pos_of_slot (h : Inv pending s) (hx : s.ofile x = some f) : 0 < (s.file f).ref := by
  have hpos := uses_pos hx
  have hf := h.refs f
  omega

theorem ref_pos_of_pending (h : Inv (f :: pending) s) : 0 < (s.file f).ref := by
  have hf := h.refs f
  simp only [count_cons_file, if_true] at hf
  omega

/-- Only the reference count of one file has changed, to a count that is not 0. -/
theorem inv_ref {pending' : List FileId} {r : ℕ} (h : Inv pending s) (hr : 0 < r)
    (hf : r = uses s.ofile f + pending'.count f)
    (hg : ∀ g, g ≠ f → pending'.count g = pending.count g) :
    Inv pending' (setFile s f { s.file f with ref := r }) := by
  refine ⟨?_, ?_, pipesOk_ref h.pipes f r⟩
  · intro g
    by_cases hgf : g = f
    · rw [hgf, file_setFile_self]
      exact hf
    · rw [file_setFile_of_ne hgf, hg g hgf]
      exact h.refs g
  · intro g hz
    by_cases hgf : g = f
    · rw [hgf, file_setFile_self] at hz
      exact absurd hz hr.ne'
    · rw [file_setFile_of_ne hgf] at hz ⊢
      exact h.closed g hz

theorem filealloc_spec (h : Inv pending s) (ht : filealloc s = some (f, t)) :
    t = setFile s f { s.file f with ref := 1 } ∧ (s.file f).ref = 0 ∧ Inv (f :: pending) t ∧
      (t.file f).type = .none := by
  simp only [filealloc, Option.map_eq_some_iff, Prod.mk.injEq] at ht
  obtain ⟨f', hfind, rfl, rfl⟩ := ht
  have hzero : (s.file f').ref = 0 := by
    have hp := List.find?_some hfind
    exact beq_iff_eq.mp hp
  have href := h.refs f'
  refine ⟨rfl, hzero, inv_ref h Nat.one_pos ?_ ?_, ?_⟩
  · simp only [count_cons_file, if_true]
    omega
  · intro g hg
    simp only [count_cons_file, if_neg (Ne.symm hg), Nat.add_zero]
  · rw [file_setFile_self]
    exact h.closed f' hzero

theorem filedup_spec (h : Inv pending s) (hf : 0 < (s.file f).ref) :
    filedup s f = .ok (setFile s f { s.file f with ref := (s.file f).ref + 1 }) ∧
      Inv (f :: pending) (setFile s f { s.file f with ref := (s.file f).ref + 1 }) := by
  refine ⟨if_neg (by omega), inv_ref h (Nat.succ_pos _) ?_ ?_⟩
  · rw [h.refs f, count_cons_file, if_pos rfl, Nat.add_assoc]
  · intro g hg
    simp only [count_cons_file, if_neg (Ne.symm hg), Nat.add_zero]

/-- `fileclose` settles a pending reference, and never faults on one. -/
theorem fileclose_spec (h : Inv (f :: pending) s) :
    ∃ t, fileclose s f = .ok t ∧ Inv pending t ∧ t.ofile = s.ofile ∧ t.life = s.life := by
  have hpos := ref_pos_of_pending h
  have href := h.refs f
  simp only [count_cons_file, if_true] at href
  have hothers : ∀ g, g ≠ f → pending.count g = (f :: pending).count g := by
    intro g hg
    simp only [count_cons_file, if_neg (Ne.symm hg), Nat.add_zero]
  rw [fileclose, if_neg (by omega)]
  split
  · next hmore => exact ⟨_, rfl, inv_ref h hmore (by omega) hothers, rfl, rfl⟩
  · next hlast =>
    have hnone : pipeEnd { s.file f with ref := 0, type := .none } = none := rfl
    have hinv : ∀ t : System,
        t.file = (setFile s f { s.file f with ref := 0, type := .none }).file →
        t.ofile = s.ofile → PipesOk t → Inv pending t := by
      intro t hfile hofile hpipes
      refine ⟨?_, ?_, hpipes⟩
      · intro g
        rw [hfile, hofile]
        by_cases hg : g = f
        · subst hg
          rw [file_setFile_self]
          change 0 = _
          omega
        · rw [file_setFile_of_ne hg, hothers g hg]
          exact h.refs g
      · intro g hz
        rw [hfile] at hz ⊢
        by_cases hg : g = f
        · rw [hg, file_setFile_self]
        · rw [file_setFile_of_ne hg] at hz ⊢
          exact h.closed g hz
    cases htype : (s.file f).type with
    | pipe =>
      have hend : pipeEnd (s.file f) = some ((s.file f).pipe, (s.file f).writable) :=
        pipeEnd_eq_some.mpr ⟨htype, rfl, rfl⟩
      obtain ⟨t, ht, hpipes, hfile, hofile, hlife⟩ := pipeclose_spec h.pipes hend hnone
      exact ⟨t, ht, hinv t hfile hofile hpipes, hofile, hlife⟩
    | none | inode =>
      refine ⟨_, rfl, hinv _ rfl rfl (h.pipes.setFile ?_ nofun), rfl, rfl⟩
      rw [hnone, pipeEnd_of_type_ne (by rw [htype]; nofun)]

theorem fdalloc_spec {fd : Fin nofile} (h : Inv (f :: pending) s)
    (ht : fdalloc s p f = some (fd, t)) :
    t = setSlot s (p, fd) (some f) ∧ s.ofile (p, fd) = none ∧ Inv pending t ∧ Local p s t := by
  simp only [fdalloc, Option.map_eq_some_iff, Prod.mk.injEq] at ht
  obtain ⟨fd', hfind, rfl, rfl⟩ := ht
  have hfree := List.find?_some hfind
  have hnone : s.ofile (p, fd') = none := Option.isNone_iff_eq_none.mp hfree
  exact ⟨rfl, hnone, inv_fill h hnone, local_setSlot s p fd' (some f)⟩

theorem inv_perm {pending' : List FileId} (h : Inv pending s) (hp : pending.Perm pending') :
    Inv pending' s :=
  ⟨fun f => hp.count_eq f ▸ h.refs f, h.closed, h.pipes⟩

/-- A file in use gets its type and the rest; its references stay. -/
theorem inv_open (h : Inv pending s) (hpipes : PipesOk t) (hofile : t.ofile = s.ofile)
    (href : ∀ g, (t.file g).ref = (s.file g).ref)
    (htype : ∀ g, (s.file g).ref = 0 → (t.file g).type = (s.file g).type) : Inv pending t := by
  refine ⟨?_, ?_, hpipes⟩
  · intro g
    rw [href, hofile]
    exact h.refs g
  · intro g hg
    rw [href] at hg
    rw [htype g hg]
    exact h.closed g hg

theorem sysOpen_spec (h : Inv [] s) (found : Option Found) (omode : BitVec 32) :
    ∃ t r, sysOpen s p found omode = .ok (t, r) ∧ Inv [] t ∧ Local p s t := by
  simp only [sysOpen]
  cases openInode found omode with
  | none => exact ⟨s, _, rfl, h, Local.refl p s⟩
  | some ip =>
    cases hf : filealloc s with
    | none => exact ⟨s, _, rfl, h, Local.refl p s⟩
    | some r =>
      obtain ⟨f, t⟩ := r
      obtain ⟨ht, hzero, hinv, htype⟩ := filealloc_spec h hf
      have hloc : Local p s t := Local.of_eq (by rw [ht]; rfl) (by rw [ht]; rfl)
      simp only []
      cases hfd : fdalloc t p f with
      | none =>
        obtain ⟨u, hu, hinv', ho, hl⟩ := fileclose_spec hinv
        exact ⟨u, -1, by simp only [hu, ok_bind, pure_eq_ok], hinv',
          hloc.trans (Local.of_eq hl ho)⟩
      | some r =>
        obtain ⟨fd, u⟩ := r
        obtain ⟨hu, -, hinv', hloc'⟩ := fdalloc_spec hinv hfd
        have hfile : u.file = t.file := by rw [hu]; rfl
        have hnone : pipeEnd (u.file f) = none := by
          rw [hfile]
          exact pipeEnd_of_type_ne (by rw [htype]; nofun)
        refine ⟨_, _, rfl, inv_open hinv' (hinv'.pipes.setFile (by rw [hnone]; rfl) nofun) rfl
          ?_ ?_, (hloc.trans hloc').trans (local_setFile u p f _)⟩
        · intro g
          by_cases hg : g = f
          · rw [hg, file_setFile_self]
          · rw [file_setFile_of_ne hg]
        · intro g hz
          have hpos := ref_pos_of_pending hinv
          have hg : g ≠ f := by
            rintro rfl
            rw [hfile] at hz
            omega
          rw [file_setFile_of_ne hg]

theorem pipesOk_open {f0 f1 : FileId} (v0 v1 : File) (h : PipesOk s) (ha : s.page a = none)
    (hne : f0 ≠ f1) (h0 : pipeEnd (s.file f0) = none) (h1 : pipeEnd (s.file f1) = none)
    (hv0 : pipeEnd v0 = some (a, false)) (hr0 : v0.readable = true)
    (hv1 : pipeEnd v1 = some (a, true)) (hr1 : v1.readable = false) :
    PipesOk (setFile (setFile (kalloc s a ⟨true, true⟩) f0 v0) f1 v1) := by
  set t := setFile (setFile (kalloc s a ⟨true, true⟩) f0 v0) f1 v1 with ht
  have hf0 : t.file f0 = v0 := by rw [ht, file_setFile_of_ne hne, file_setFile_self]
  have hf1 : t.file f1 = v1 := by rw [ht, file_setFile_self]
  have hother : ∀ g, g ≠ f0 → g ≠ f1 → t.file g = s.file g := by
    intro g hg0 hg1
    rw [ht, file_setFile_of_ne hg1, file_setFile_of_ne hg0]
    rfl
  have hold : ∀ g, pipeEnd (s.file g) ≠ none → t.file g = s.file g := by
    intro g hg
    apply hother
    · rintro rfl
      exact hg h0
    · rintro rfl
      exact hg h1
  have hpage : ∀ {b}, b ≠ a → t.page b = s.page b := fun hb => Function.update_of_ne hb _ _
  have hself : t.page a = some ⟨true, true⟩ := Function.update_self _ _ _
  have hnew : ∀ g c, pipeEnd (t.file g) = some (a, c) → g = if c then f1 else f0 := by
    intro g c hg
    by_cases hg0 : g = f0
    · rw [hg0, hf0, hv0] at hg
      cases hg
      exact hg0
    · by_cases hg1 : g = f1
      · rw [hg1, hf1, hv1] at hg
        cases hg
        exact hg1
      · rw [hother g hg0 hg1] at hg
        obtain ⟨e, he, -⟩ := h.opened g a c hg
        rw [ha] at he
        cases he
  have helse : ∀ g b c, b ≠ a → pipeEnd (t.file g) = some (b, c) →
      pipeEnd (s.file g) = some (b, c) := by
    intro g b c hb hg
    by_cases hg0 : g = f0
    · rw [hg0, hf0, hv0] at hg
      cases hg
      exact absurd rfl hb
    · by_cases hg1 : g = f1
      · rw [hg1, hf1, hv1] at hg
        cases hg
        exact absurd rfl hb
      · rwa [hother g hg0 hg1] at hg
  refine ⟨?_, ?_, ?_, ?_, ?_, ?_⟩
  · intro g hg
    by_cases hg0 : g = f0
    · rw [hg0, hf0, hr0, (pipeEnd_eq_some.mp hv0).2.2]
      rfl
    · by_cases hg1 : g = f1
      · rw [hg1, hf1, hr1, (pipeEnd_eq_some.mp hv1).2.2]
        rfl
      · rw [hother g hg0 hg1] at hg ⊢
        exact h.readable g hg
  · intro g b c hg
    rcases eq_or_ne b a with rfl | hb
    · exact ⟨_, hself, by cases c <;> rfl⟩
    · obtain ⟨e, he, hc⟩ := h.opened g b c (helse g b c hb hg)
      exact ⟨e, (hpage hb).trans he, hc⟩
  · intro g g' b c hg hg'
    rcases eq_or_ne b a with rfl | hb
    · exact (hnew g c hg).trans (hnew g' c hg').symm
    · exact h.unique g g' b c (helse g b c hb hg) (helse g' b c hb hg')
  · intro b e c hb hc
    by_cases hba : b = a
    · subst hba
      cases c with
      | false => exact ⟨f0, by rw [hf0, hv0]⟩
      | true => exact ⟨f1, by rw [hf1, hv1]⟩
    · obtain ⟨g, hg⟩ := h.held b e c ((hpage hba).symm.trans hb) hc
      exact ⟨g, by rw [hold g (by rw [hg]; nofun), hg]⟩
  · intro b e hb
    by_cases hba : b = a
    · subst hba
      rw [hself] at hb
      cases hb
      exact ⟨true, rfl⟩
    · exact h.someOpen b e ((hpage hba).symm.trans hb)
  · intro b
    have hbal := h.balance b
    by_cases hb : b = a
    · subst hb
      simp only [ha] at hbal
      simpa [ht, kalloc, setFile] using hbal
    · simpa [ht, kalloc, setFile, hb] using hbal

/-- Either nothing is left taken, or two files that are pending are the ends of a new pipe. -/
theorem pipealloc_spec {page : Option ℕ} (h : Inv [] s) (hpage : ∀ a ∈ page, s.page a = none) :
    ∃ t r, pipealloc s page = .ok (t, r) ∧ t.ofile = s.ofile ∧ t.life = s.life ∧
      Inv (r.elim [] fun fs => [fs.1, fs.2]) t := by
  simp only [pipealloc]
  cases hf0 : filealloc s with
  | none => exact ⟨s, none, rfl, rfl, rfl, h⟩
  | some r =>
    obtain ⟨f0, t⟩ := r
    obtain ⟨ht, -, hinv0, htype0⟩ := filealloc_spec h hf0
    have hot : t.ofile = s.ofile := by rw [ht]; rfl
    have hlt : t.life = s.life := by rw [ht]; rfl
    simp only []
    cases hf1 : filealloc t with
    | none =>
      obtain ⟨u, hu, hinv, ho, hl⟩ := fileclose_spec hinv0
      exact ⟨u, none, by simp only [hu, ok_bind, pure_eq_ok], ho.trans hot, hl.trans hlt, hinv⟩
    | some r =>
      obtain ⟨f1, u⟩ := r
      obtain ⟨hu, hzero1, hinv1, htype1⟩ := filealloc_spec hinv0 hf1
      have hou : u.ofile = s.ofile := by rw [hu]; exact hot
      have hlu : u.life = s.life := by rw [hu]; exact hlt
      have hne : f0 ≠ f1 := by
        rintro rfl
        have hpos := ref_pos_of_pending hinv0
        omega
      cases page with
      | none =>
        obtain ⟨v, hv, hinv2, hov, hlv⟩ := fileclose_spec (inv_perm hinv1 (List.Perm.swap _ _ _))
        obtain ⟨y, hy, hinv3, hoy, hly⟩ := fileclose_spec hinv2
        exact ⟨y, none, by simp only [hv, hy, ok_bind, pure_eq_ok], hoy.trans (hov.trans hou),
          hly.trans (hlv.trans hlu), hinv3⟩
      | some a =>
        have ha : u.page a = none := by
          rw [hu, ht]
          exact hpage a rfl
        have htype0' : (u.file f0).type = .none := by
          rw [hu, file_setFile_of_ne hne]
          exact htype0
        have hopen := pipesOk_open
          { u.file f0 with type := .pipe, readable := true, writable := false, pipe := a }
          { u.file f1 with type := .pipe, readable := false, writable := true, pipe := a }
          hinv1.pipes ha hne (pipeEnd_of_type_ne (by rw [htype0']; nofun))
          (pipeEnd_of_type_ne (by rw [htype1]; nofun)) rfl rfl rfl rfl
        refine ⟨setFile (setFile (kalloc u a ⟨true, true⟩) f0 _) f1 _, some (f0, f1), ?_, hou, hlu,
          inv_open (inv_perm hinv1 (List.Perm.swap _ _ _)) hopen rfl ?_ ?_⟩
        · simp only [file_setFile_of_ne hne.symm]
          rfl
        · intro g
          by_cases hg1 : g = f1
          · rw [hg1, file_setFile_self]
          · rw [file_setFile_of_ne hg1]
            by_cases hg0 : g = f0
            · rw [hg0, file_setFile_self]
            · rw [file_setFile_of_ne hg0]
              rfl
        · intro g hz
          have hg1 : g ≠ f1 := by
            rintro rfl
            have hpos := ref_pos_of_pending hinv1
            omega
          have hg0 : g ≠ f0 := by
            rintro rfl
            have hpos := ref_pos_of_pending (inv_perm hinv1 (List.Perm.swap _ _ _))
            omega
          rw [file_setFile_of_ne hg1, file_setFile_of_ne hg0]
          rfl

theorem sysPipe_spec (argOk : Bool) {page : Option ℕ} (h : Inv [] s)
    (hpage : ∀ a ∈ page, s.page a = none) :
    ∃ t r, sysPipe s p argOk page = .ok (t, r) ∧ Inv [] t ∧ Local p s t := by
  simp only [sysPipe]
  split
  · obtain ⟨t, files, ht, ho, hl, hinv⟩ := pipealloc_spec h hpage
    have hloc : Local p s t := Local.of_eq hl ho
    simp only [ht, ok_bind]
    cases files with
    | none => exact ⟨t, _, rfl, hinv, hloc⟩
    | some fs =>
      obtain ⟨rf, wf⟩ := fs
      simp only [Option.elim_some] at hinv
      simp only []
      cases hfd0 : fdalloc t p rf with
      | none =>
        obtain ⟨u, hu, hinv1, hou, hlu⟩ := fileclose_spec hinv
        obtain ⟨v, hv, hinv2, hov, hlv⟩ := fileclose_spec hinv1
        exact ⟨v, -1, by simp only [hu, hv, ok_bind, pure_eq_ok], hinv2,
          (hloc.trans (Local.of_eq hlu hou)).trans (Local.of_eq hlv hov)⟩
      | some r =>
        obtain ⟨fd0, u⟩ := r
        obtain ⟨hu, -, hinv0, hlocu⟩ := fdalloc_spec hinv hfd0
        simp only []
        cases hfd1 : fdalloc u p wf with
        | none =>
          have hslot : u.ofile (p, fd0) = some rf := by
            rw [hu]
            exact Function.update_self _ _ _
          have hlocc := local_setSlot u p fd0 none
          obtain ⟨v, hv, hinv1, hov, hlv⟩ := fileclose_spec (inv_clear hinv0 hslot)
          obtain ⟨y, hy, hinv2, hoy, hly⟩ := fileclose_spec hinv1
          exact ⟨y, -1, by simp only [hv, hy, ok_bind, pure_eq_ok], hinv2,
            (((hloc.trans hlocu).trans hlocc).trans (Local.of_eq hlv hov)).trans
              (Local.of_eq hly hoy)⟩
        | some r =>
          obtain ⟨fd1, v⟩ := r
          obtain ⟨-, -, hinv1, hlocv⟩ := fdalloc_spec hinv0 hfd1
          exact ⟨v, 0, rfl, hinv1, (hloc.trans hlocu).trans hlocv⟩
  · exact ⟨s, _, rfl, h, Local.refl p s⟩

theorem argfd_spec {fd : ℤ} {fd' : Fin nofile} (h : argfd s p fd = some (fd', f)) :
    s.ofile (p, fd') = some f := by
  simp only [argfd] at h
  split at h
  · simp only [Option.map_eq_some_iff, Prod.mk.injEq] at h
    obtain ⟨f', hf', rfl, rfl⟩ := h
    exact hf'
  · exact nomatch h

/-- The descriptor is taken before the reference; the two writes are to different tables. -/
theorem sysDup_spec (h : Inv [] s) (fd : ℤ) :
    ∃ t r, sysDup s p fd = .ok (t, r) ∧ Inv [] t ∧ Local p s t := by
  simp only [sysDup]
  cases harg : argfd s p fd with
  | none => exact ⟨s, _, rfl, h, Local.refl p s⟩
  | some r =>
    obtain ⟨fd0, f⟩ := r
    simp only []
    have hpos := ref_pos_of_slot h (argfd_spec harg)
    obtain ⟨hdup, hinv⟩ := filedup_spec h hpos
    cases hfd : fdalloc s p f with
    | none => exact ⟨s, _, rfl, h, Local.refl p s⟩
    | some r =>
      obtain ⟨fd1, t⟩ := r
      simp only [fdalloc, Option.map_eq_some_iff, Prod.mk.injEq] at hfd
      obtain ⟨fd', hfind, rfl, rfl⟩ := hfd
      have hfree := List.find?_some hfind
      have hnone : s.ofile (p, fd') = none := Option.isNone_iff_eq_none.mp hfree
      refine ⟨setSlot (setFile s f { s.file f with ref := (s.file f).ref + 1 }) (p, fd') (some f),
        fd', ?_, inv_fill hinv hnone,
        (local_setFile s p f _).trans (local_setSlot _ p fd' (some f))⟩
      have hmore : ¬((setSlot s (p, fd') (some f)).file f).ref < 1 := by
        change ¬(s.file f).ref < 1
        omega
      simp only [filedup, if_neg hmore]
      rfl

theorem sysClose_spec (h : Inv [] s) (fd : ℤ) :
    ∃ t r, sysClose s p fd = .ok (t, r) ∧ Inv [] t ∧ Local p s t := by
  simp only [sysClose]
  cases harg : argfd s p fd with
  | none => exact ⟨s, _, rfl, h, Local.refl p s⟩
  | some r =>
    obtain ⟨fd', f⟩ := r
    obtain ⟨t, ht, hinv, ho, hl⟩ := fileclose_spec (inv_clear h (argfd_spec harg))
    exact ⟨t, 0, by simp only [ht, ok_bind, pure_eq_ok], hinv,
      (local_setSlot s p fd' none).trans (Local.of_eq hl ho)⟩

theorem dupFiles_spec {fds : List (Fin nofile)} (hnodup : fds.Nodup) (h : Inv [] s)
    (hfree : ∀ fd ∈ fds, s.ofile (np, fd) = none) :
    ∃ t, dupFiles s p np fds = .ok t ∧ Inv [] t ∧ Local np s t := by
  induction fds generalizing s with
  | nil => exact ⟨s, rfl, h, Local.refl np s⟩
  | cons fd fds ih =>
    obtain ⟨hnot, hnodup⟩ := List.nodup_cons.mp hnodup
    simp only [dupFiles]
    cases hf : s.ofile (p, fd) with
    | none => exact ih hnodup h fun fd' hfd' => hfree fd' (List.mem_cons_of_mem _ hfd')
    | some f =>
      obtain ⟨hdup, hinv⟩ := filedup_spec h (ref_pos_of_slot h hf)
      have hfilled := inv_fill hinv (hfree fd List.mem_cons_self)
      have hlater : ∀ fd' ∈ fds, (setSlot (setFile s f { s.file f with
          ref := (s.file f).ref + 1 }) (np, fd) (some f)).ofile (np, fd') = none := by
        intro fd' hfd'
        have hx : ((np, fd') : Slot) ≠ (np, fd) := by
          rintro ⟨⟩
          exact hnot hfd'
        exact (Function.update_of_ne hx _ _).trans (hfree fd' (List.mem_cons_of_mem _ hfd'))
      obtain ⟨t, ht, hinv', hloc⟩ := ih hnodup hfilled hlater
      exact ⟨t, by simp only [hdup, ok_bind, ht], hinv',
        ((local_setFile s np f _).trans (local_setSlot _ np fd (some f))).trans hloc⟩

theorem pipeclose_setSlot (s : System) (x : Slot) (o : Option FileId) (a : ℕ) (w : Bool) :
    pipeclose (setSlot s x o) a w = (setSlot · x o) <$> pipeclose s a w := by
  have hpage : (setSlot s x o).page = s.page := rfl
  simp only [pipeclose, hpage]
  cases s.page a with
  | none => rfl
  | some e =>
    simp only []
    split <;> rfl

/-- Closing a file does not look at descriptors. -/
theorem fileclose_setSlot (s : System) (x : Slot) (o : Option FileId) (f : FileId) :
    fileclose (setSlot s x o) f = (setSlot · x o) <$> fileclose s f := by
  have hfile : (setSlot s x o).file = s.file := rfl
  have hset : ∀ v, setFile (setSlot s x o) f v = setSlot (setFile s f v) x o := fun _ => rfl
  simp only [fileclose, hfile, hset]
  split
  · rfl
  · split
    · rfl
    · cases (s.file f).type with
      | none | inode => rfl
      | pipe => exact pipeclose_setSlot _ x o _ _

theorem closeFiles_spec (fds : List (Fin nofile)) (h : Inv [] s) :
    ∃ t, closeFiles s p fds = .ok t ∧ Inv [] t ∧ Local p s t ∧
      (∀ fd ∈ fds, t.ofile (p, fd) = none) ∧ ∀ x, s.ofile x = none → t.ofile x = none := by
  induction fds generalizing s with
  | nil => exact ⟨s, rfl, h, Local.refl p s, nofun, fun _ hx => hx⟩
  | cons fd fds ih =>
    simp only [closeFiles]
    cases hf : s.ofile (p, fd) with
    | none =>
      obtain ⟨t, ht, hinv, hloc, hclosed, hkept⟩ := ih h
      refine ⟨t, ht, hinv, hloc, ?_, hkept⟩
      intro fd' hfd'
      rcases List.mem_cons.mp hfd' with rfl | hfd'
      · exact hkept _ hf
      · exact hclosed fd' hfd'
    | some f =>
      obtain ⟨u, hu, hinv, ho, hl⟩ := fileclose_spec (inv_clear h hf)
      rw [fileclose_setSlot] at hu
      obtain ⟨v, hv, rfl⟩ := map_eq_ok.mp hu
      obtain ⟨t, ht, hinv', hloc, hclosed, hkept⟩ := ih hinv
      have hself : (setSlot v (p, fd) none).ofile (p, fd) = none := Function.update_self _ _ _
      refine ⟨t, by simp only [hv, ok_bind, ht], hinv',
        ((local_setSlot s p fd none).trans (Local.of_eq hl ho)).trans hloc, ?_, ?_⟩
      · intro fd' hfd'
        rcases List.mem_cons.mp hfd' with rfl | hfd'
        · exact hkept _ hself
        · exact hclosed fd' hfd'
      · intro x hx
        apply hkept
        rw [ho]
        by_cases hxp : x = (p, fd)
        · rw [hxp]
          exact Function.update_self _ _ _
        · exact (Function.update_of_ne hxp _ _).trans hx

/-- At the boundary of a call: nothing is pending, and only running processes have
descriptors. -/
structure Settled (s : System) : Prop where
  inv : Inv [] s
  idle : ∀ q fd, s.life q ≠ .live → s.ofile (q, fd) = none

theorem Settled.of_local (h : Settled s) (hp : s.life p = .live) (hinv : Inv [] t)
    (hl : Local p s t) : Settled t := by
  refine ⟨hinv, ?_⟩
  intro q fd hq
  rw [hl.life] at hq
  have hqp : q ≠ p := by
    rintro rfl
    exact hq hp
  rw [hl.ofile q fd hqp]
  exact h.idle q fd hq

theorem inv_setLife (h : Inv pending s) (q : ProcId) (v : Life) : Inv pending (setLife s q v) :=
  ⟨h.refs, h.closed, h.pipes.readable, h.pipes.opened, h.pipes.unique, h.pipes.held,
    h.pipes.someOpen, h.pipes.balance⟩

theorem fork_spec (h : Settled s) (p : ProcId) (memory : Bool) :
    ∃ t, fork s p memory = .ok t ∧ Settled t := by
  simp only [fork]
  cases hnp : findProc fun q => s.life q == .unused with
  | none => exact ⟨s, rfl, h⟩
  | some np =>
    have hunused : s.life np = .unused := by
      have hfound := List.find?_some hnp
      exact beq_iff_eq.mp hfound
    simp only []
    split
    · obtain ⟨t, ht, hinv, hloc⟩ := dupFiles_spec (p := p) (List.nodup_finRange nofile) h.inv
        fun fd _ => h.idle np fd (by rw [hunused]; nofun)
      refine ⟨setLife t np .live, by simp only [ht, ok_bind, pure_eq_ok],
        inv_setLife hinv np .live, ?_⟩
      intro q fd hq
      have hqn : q ≠ np := by
        rintro rfl
        exact hq (Function.update_self _ _ _)
      have hq' : s.life q ≠ .live := by
        rw [← hloc.life]
        exact fun hl => hq ((Function.update_of_ne hqn _ _).trans hl)
      exact (hloc.ofile q fd hqn).trans (h.idle q fd hq')
    · exact ⟨s, rfl, h⟩

theorem exit_spec (h : Settled s) (hp : p ≠ initproc) :
    ∃ t, exit s p = .ok t ∧ Settled t := by
  obtain ⟨t, ht, hinv, hloc, hclosed, hkept⟩ :=
    closeFiles_spec (p := p) (List.finRange nofile) h.inv
  refine ⟨setLife t p .zombie, by simp only [exit, if_neg hp, ht, ok_bind, pure_eq_ok],
    inv_setLife hinv p .zombie, ?_⟩
  intro q fd hq
  by_cases hqp : q = p
  · subst hqp
    exact hclosed fd (List.mem_finRange fd)
  · have hq' : s.life q ≠ .live := by
      rw [← hloc.life]
      exact fun hl => hq ((Function.update_of_ne hqp _ _).trans hl)
    exact hkept _ (h.idle q fd hq')

theorem settled_initial : Settled initial := by
  refine ⟨⟨?_, fun _ _ => rfl, ⟨nofun, nofun, nofun, nofun, nofun, fun _ => rfl⟩⟩, fun _ _ _ => rfl⟩
  intro f
  have hnone : uses initial.ofile f = 0 := by simp [uses, initial]
  rw [hnone]
  rfl

/-- Every call ends in order, or is the exit of init. -/
theorem step_spec (h : Settled s) {e : Event} (he : Enabled s e) :
    (∃ t, step s e = .ok t ∧ Settled t) ∨ step s e = .error (.panic "init exiting") := by
  cases e with
  | «open» p found omode =>
    obtain ⟨t, r, ht, hinv, hloc⟩ := sysOpen_spec (p := p) h.inv found omode
    exact Or.inl ⟨t, by simp only [step, ht]; rfl, h.of_local he hinv hloc⟩
  | pipe p argOk page =>
    obtain ⟨t, r, ht, hinv, hloc⟩ := sysPipe_spec (p := p) argOk h.inv he.2
    exact Or.inl ⟨t, by simp only [step, ht]; rfl, h.of_local he.1 hinv hloc⟩
  | dup p fd =>
    obtain ⟨t, r, ht, hinv, hloc⟩ := sysDup_spec (p := p) h.inv fd
    exact Or.inl ⟨t, by simp only [step, ht]; rfl, h.of_local he hinv hloc⟩
  | close p fd =>
    obtain ⟨t, r, ht, hinv, hloc⟩ := sysClose_spec (p := p) h.inv fd
    exact Or.inl ⟨t, by simp only [step, ht]; rfl, h.of_local he hinv hloc⟩
  | fork p memory => exact Or.inl (fork_spec h p memory)
  | exit p =>
    by_cases hp : p = initproc
    · exact Or.inr (if_pos hp)
    · exact Or.inl (exit_spec h hp)
  | wait p child =>
    refine Or.inl ⟨_, rfl, inv_setLife h.inv child .unused, ?_⟩
    intro q fd hq
    by_cases hqc : q = child
    · subst hqc
      exact h.idle q fd (by rw [he.2]; nofun)
    · exact h.idle q fd fun hl => hq ((Function.update_of_ne hqc _ _).trans hl)

/-- `ref` counts descriptors, a pipe's flags say which ends some file in use still is, and a
page that `kalloc` gave for a pipe has been given back as often as it was taken, but for a pipe
with an open end. -/
structure Accounted (s : System) : Prop where
  refs : ∀ f, (s.file f).ref = uses s.ofile f
  readopen : ∀ a e, s.page a = some e → (e.readopen = true ↔ ∃ f, 0 < (s.file f).ref ∧
    (s.file f).type = .pipe ∧ (s.file f).pipe = a ∧ (s.file f).readable = true)
  writeopen : ∀ a e, s.page a = some e → (e.writeopen = true ↔ ∃ f, 0 < (s.file f).ref ∧
    (s.file f).type = .pipe ∧ (s.file f).pipe = a ∧ (s.file f).writable = true)
  allocated : ∀ f, 0 < (s.file f).ref → (s.file f).type = .pipe →
    (s.page (s.file f).pipe).isSome = true
  freed : ∀ a, (∀ e, s.page a = some e → e.readopen = true ∨ e.writeopen = true) ∧
    s.allocs a = s.frees a + if (s.page a).isSome then 1 else 0

theorem ref_pos_of_pipe (h : Inv pending s) (hf : (s.file f).type = .pipe) :
    0 < (s.file f).ref := by
  apply Nat.pos_of_ne_zero
  intro hz
  rw [h.closed f hz] at hf
  exact nomatch hf

/-- The flag of an end is up exactly while some file in use is that end. -/
theorem isOpen_iff (h : Inv pending s) {e : Ends} (he : s.page a = some e) (w : Bool) :
    e.isOpen w = true ↔ ∃ f, 0 < (s.file f).ref ∧
      (s.file f).type = .pipe ∧ (s.file f).pipe = a ∧ (s.file f).writable = w := by
  constructor
  · intro hw
    obtain ⟨f, hf⟩ := h.pipes.held a e w he hw
    have hf' := pipeEnd_eq_some.mp hf
    exact ⟨f, ref_pos_of_pipe h hf'.1, hf'⟩
  · rintro ⟨f, -, hf⟩
    obtain ⟨e', he', hw⟩ := h.pipes.opened f a w (pipeEnd_eq_some.mpr hf)
    cases he.symm.trans he'
    exact hw

theorem accounted (h : Settled s) : Accounted s := by
  refine ⟨?_, ?_, ?_, ?_, ?_⟩
  · intro f
    rw [h.inv.refs f, List.count_nil, Nat.add_zero]
  · intro a e he
    constructor
    · intro hr
      obtain ⟨f, hpos, htype, hpage, hw⟩ := (isOpen_iff h.inv he false).mp hr
      exact ⟨f, hpos, htype, hpage, by rw [h.inv.pipes.readable f htype, hw]; rfl⟩
    · rintro ⟨f, hpos, htype, hpage, hr⟩
      rw [h.inv.pipes.readable f htype, Bool.not_eq_true'] at hr
      exact (isOpen_iff h.inv he false).mpr ⟨f, hpos, htype, hpage, hr⟩
  · intro a e he
    exact isOpen_iff h.inv he true
  · intro f _ hf
    obtain ⟨e, he, -⟩ := h.inv.pipes.opened f _ _ (pipeEnd_eq_some.mpr ⟨hf, rfl, rfl⟩)
    rw [he]
    rfl
  · intro a
    refine ⟨?_, h.inv.pipes.balance a⟩
    intro e he
    obtain ⟨w, hw⟩ := h.inv.pipes.someOpen a e he
    cases w with
    | false => exact Or.inl hw
    | true => exact Or.inr hw

/-- In every sequence of calls the tables agree at each boundary, and no call meets a closed
file or a freed page: the one way to stop is for init to exit. -/
theorem files_accounted (es : List Event) (h : Along step Enabled initial es) :
    Visits step Accounted initial es ∧ Along step (fun s e => ∀ fault, step s e = .error fault →
      fault = .panic "init exiting") initial es := by
  have hkept : ∀ s e t, Settled s → Enabled s e → step s e = .ok t → Settled t := by
    intro s e t hs he ht
    rcases step_spec hs he with ⟨t', ht', hset⟩ | hexit
    · rw [ht'] at ht
      cases ht
      exact hset
    · rw [hexit] at ht
      exact nomatch ht
  constructor
  · exact visits_of_invariant (fun s hs => accounted hs) hkept settled_initial h
  · refine along_of_invariant ?_ hkept settled_initial h
    intro s e hs he fault hfault
    rcases step_spec hs he with ⟨t, ht, -⟩ | hexit
    · rw [ht] at hfault
      exact nomatch hfault
    · rw [hexit] at hfault
      cases hfault
      rfl

/-- A pipe shared by a fork, closed end by end, then a pipe that finds no page. -/
theorem files_accounted_shared_pipe : Visits step Accounted initial
    [.pipe 0 true (some 4096), .dup 0 0, .fork 0 true, .close 0 0, .close 0 1, .exit 1, .wait 0 1,
      .close 0 2, .pipe 0 true none] ∧
    Along step (fun s e => ∀ fault, step s e = .error fault → fault = .panic "init exiting")
      initial [.pipe 0 true (some 4096), .dup 0 0, .fork 0 true, .close 0 0, .close 0 1, .exit 1,
        .wait 0 1, .close 0 2, .pipe 0 true none] :=
  files_accounted _ (by decide +kernel)

end Invariant

end FileReferences
