import Xv6Gui.ProcessTable

/-!
# Parents and children

fork links a process to its parent, exit hands the children to init and wait frees a zombie
child. A live process always has a live parent to wait for it, and a parent that is asleep
in wait has nothing to collect, since exit wakes the parent before it leaves a zombie.
-/
namespace ProcessFamilies

open WindowManagerState ProcessTable GuardedRuns

/-- Every process but init has a parent that can still wait for it, and nobody sleeps in
wait over a child that has exited. -/
structure FamilyOk (s : PTable) : Prop where
  parent : ∀ p, p ≠ initproc → Settled (s.proc p) →
    ∃ q, (s.proc p).parent = some q ∧ (s.proc q).state ≠ .unused ∧ (s.proc q).state ≠ .zombie
  asleep : ∀ p c, (s.proc p).state = .sleeping → s.control p = .waiting →
    (s.proc c).parent = some p → (s.proc c).state ≠ .zombie

def Alive (q : Proc) : Prop := Settled q ∧ q.state ≠ .zombie

/-- The links of the process tree. A fork that has copied its parent's memory has linked a
slot that is not yet a process. -/
structure Links (s : PTable) : Prop where
  init : Alive (s.proc initproc)
  root : (s.proc initproc).parent = none
  parent : ∀ p, p ≠ initproc → Settled (s.proc p) →
    ∃ q, (s.proc p).parent = some q ∧ Alive (s.proc q)
  proper : ∀ p, (s.proc p).parent ≠ some p
  copied : ∀ p np, s.control p = .copied np → (s.proc np).parent = some p
  inside : ∀ p, s.control p ≠ .user → Alive (s.proc p)

/-- Nobody sleeps in the middle of fork, and a process asleep in wait sleeps on itself and has
no zombie to collect. -/
def Rested (s : PTable) : Prop := ∀ p, (s.proc p).state = .sleeping → s.control p ≠ .user →
  s.control p = .waiting ∧ (s.proc p).chan = some (.proc p) ∧
    ∀ c, (s.proc c).parent = some p → (s.proc c).state ≠ .zombie

structure Invariant (s : PTable) : Prop where
  table : TableOk s
  links : Links s
  rested : Rested s

/-- Nobody enters or leaves the process tree or moves in it. -/
structure Still (s t : PTable) : Prop where
  control : ∀ q, t.control q = s.control q
  parent : ∀ q, (t.proc q).parent = (s.proc q).parent
  settled : ∀ q, Settled (t.proc q) ↔ Settled (s.proc q)
  zombie : ∀ q, (t.proc q).state = .zombie ↔ (s.proc q).state = .zombie

/-- And nobody goes to sleep in fork or wait. -/
structure Quiet (s t : PTable) : Prop extends Still s t where
  asleep : ∀ q, (t.proc q).state = .sleeping → s.control q ≠ .user →
    (s.proc q).state = .sleeping ∧ (t.proc q).chan = (s.proc q).chan

section Lemmas

variable {s t : PTable} {p q c np : ProcId} {e : Event}

theorem Quiet.refl (s : PTable) : Quiet s s :=
  ⟨⟨fun _ => rfl, fun _ => rfl, fun _ => Iff.rfl, fun _ => Iff.rfl⟩, fun _ h _ => ⟨h, rfl⟩⟩

theorem Still.alive (h : Still s t) (q : ProcId) : Alive (t.proc q) ↔ Alive (s.proc q) :=
  and_congr (h.settled q) (not_congr (h.zombie q))

theorem Still.links (h : Still s t) (hs : Links s) : Links t where
  init := (h.alive _).mpr hs.init
  root := (h.parent _).trans hs.root
  parent p hp hset := by
    obtain ⟨q, hq, halive⟩ := hs.parent p hp ((h.settled p).mp hset)
    exact ⟨q, (h.parent p).trans hq, (h.alive q).mpr halive⟩
  proper p := by
    simp only [h.parent]
    exact hs.proper p
  copied p np hp := by
    simp only [h.parent]
    exact hs.copied p np (h.control p ▸ hp)
  inside p hp := (h.alive p).mpr (hs.inside p (h.control p ▸ hp))

theorem Quiet.rested (h : Quiet s t) (hs : Rested s) : Rested t := by
  intro p hp hc
  simp only [h.control] at hc ⊢
  obtain ⟨hsleep, hchan⟩ := h.asleep p hp hc
  obtain ⟨hwait, hself, hchildren⟩ := hs p hsleep hc
  refine ⟨hwait, hchan.trans hself, ?_⟩
  intro c hparent hz
  simp only [h.parent] at hparent
  exact hchildren c hparent ((h.zombie c).mp hz)

@[simp] theorem updateProc_self (s : PTable) (p : ProcId) (f : Proc → Proc) :
    (updateProc s p f).proc p = f (s.proc p) :=
  Function.update_self _ _ _

theorem updateProc_of_ne {f : Proc → Proc} (h : q ≠ p) :
    (updateProc s p f).proc q = s.proc q :=
  Function.update_of_ne h _ _

@[simp] theorem updateProc_control (s : PTable) (p : ProcId) (f : Proc → Proc) :
    (updateProc s p f).control = s.control := rfl

@[simp] theorem setControl_proc (s : PTable) (p : ProcId) (c : Control) :
    (setControl s p c).proc = s.proc := rfl

@[simp] theorem setControl_self (s : PTable) (p : ProcId) (c : Control) :
    (setControl s p c).control p = c :=
  Function.update_self _ _ _

theorem setControl_of_ne {c : Control} (h : q ≠ p) :
    (setControl s p c).control q = s.control q :=
  Function.update_of_ne h _ _

theorem still_updateProc {f : Proc → Proc}
    (hparent : (f (s.proc p)).parent = (s.proc p).parent)
    (hsettled : Settled (f (s.proc p)) ↔ Settled (s.proc p))
    (hzombie : (f (s.proc p)).state = .zombie ↔ (s.proc p).state = .zombie) :
    Still s (updateProc s p f) := by
  refine ⟨fun _ => rfl, ?_, ?_, ?_⟩ <;> intro q <;> by_cases hq : q = p
  · subst hq
    simpa using hparent
  · simp only [updateProc_of_ne hq]
  · subst hq
    simpa using hsettled
  · simp only [updateProc_of_ne hq]
  · subst hq
    simpa using hzombie
  · simp only [updateProc_of_ne hq]

theorem Still.quiet {f : Proc → Proc} (h : Still s (updateProc s p f))
    (hasleep : (f (s.proc p)).state = .sleeping → s.control p ≠ .user →
      (s.proc p).state = .sleeping ∧ (f (s.proc p)).chan = (s.proc p).chan) :
    Quiet s (updateProc s p f) := by
  refine ⟨h, ?_⟩
  intro q
  by_cases hq : q = p
  · subst hq
    simpa using hasleep
  · simp only [updateProc_of_ne hq]
    exact fun h _ => ⟨h, trivial⟩

/-- A running process changes its own state, but stays alive. -/
theorem still_alive {f : Proc → Proc} (hp : Alive (s.proc p)) (ht : Alive (f (s.proc p)))
    (hparent : (f (s.proc p)).parent = (s.proc p).parent) : Still s (updateProc s p f) :=
  still_updateProc hparent (iff_of_true ht.1 hp.1) (iff_of_false ht.2 hp.2)

theorem alive_of_running (h : (s.proc p).state = .running) : Alive (s.proc p) := by
  simp [Alive, Settled, h]

/-- Whoever sleeps after a wakeup slept before it, on another channel. -/
theorem wakeup1_sleeping {chan : Option Chan}
    (h : ((wakeup1 s chan).proc q).state = .sleeping) :
    (wakeup1 s chan).proc q = s.proc q ∧ (s.proc q).chan ≠ chan := by
  simp only [wakeup1] at h ⊢
  split at h
  · cases h
  · next hn => exact ⟨if_neg hn, fun hc => hn ⟨h, hc⟩⟩

theorem quiet_wakeup1 (s : PTable) (chan : Option Chan) : Quiet s (wakeup1 s chan) := by
  refine ⟨⟨fun _ => rfl, ?_, ?_, ?_⟩, ?_⟩ <;> intro q
  · simp only [wakeup1]
    split <;> rfl
  · simp only [wakeup1]
    split
    · next h => simp [Settled, h.1]
    · exact Iff.rfl
  · simp only [wakeup1]
    split
    · next h => simp [h.1]
    · exact Iff.rfl
  · intro h _
    simp only [(wakeup1_sleeping h).1] at h ⊢
    exact ⟨h, trivial⟩

theorem quiet_kill (s : PTable) (pid : ℤ) : Quiet s (kill s pid) := by
  simp only [kill]
  split
  · exact Quiet.refl s
  · refine (still_updateProc rfl ?_ ?_).quiet ?_
    · dsimp only [Settled]
      split <;> simp_all
    · dsimp only
      split <;> simp_all
    · dsimp only
      intro h
      split at h <;> simp_all

theorem zombieChild_none (h : zombieChild s p = none) (hc : (s.proc c).parent = some p) :
    (s.proc c).state ≠ .zombie := by
  have hfind := List.find?_eq_none.mp h c (List.mem_finRange c)
  simp only [hc, beq_self_eq_true, Bool.true_and, beq_iff_eq] at hfind
  exact hfind

theorem ne_of_unsettled (hp : Alive (s.proc p)) (hn : ¬Settled (s.proc np)) : p ≠ np :=
  fun he => hn (he ▸ hp.1)

/-- Work of a running process on a slot that is not yet a process, with nobody else at work
there. -/
theorem Links.work (h : Links s) {f : Proc → Proc} {ctl : Control} (hp : Alive (s.proc p))
    (hn : ¬Settled (s.proc np)) (halone : ∀ q, q ≠ p → (s.control q).reserved ≠ some np)
    (hproper : (f (s.proc np)).parent ≠ some np)
    (hborn : Settled (f (s.proc np)) → ∃ q, (f (s.proc np)).parent = some q ∧ Alive (s.proc q))
    (hcopied : ∀ m, ctl = .copied m → m = np ∧ (f (s.proc np)).parent = some p) :
    Links (setControl (updateProc s np f) p ctl) := by
  have halive : ∀ {q}, Alive (s.proc q) → Alive ((updateProc s np f).proc q) := fun {q} hq => by
    simpa only [updateProc_of_ne (ne_of_unsettled hq hn)] using hq
  refine ⟨halive h.init, ?_, ?_, ?_, ?_, ?_⟩
  · have hne := ne_of_unsettled h.init hn
    simpa only [setControl_proc, updateProc_of_ne hne] using h.root
  · intro q hq hset
    simp only [setControl_proc] at hset ⊢
    by_cases he : q = np
    · subst he
      simp only [updateProc_self] at hset ⊢
      obtain ⟨r, hr, hrl⟩ := hborn hset
      exact ⟨r, hr, halive hrl⟩
    · simp only [updateProc_of_ne he] at hset ⊢
      obtain ⟨r, hr, hrl⟩ := h.parent q hq hset
      exact ⟨r, hr, halive hrl⟩
  · intro q
    simp only [setControl_proc]
    by_cases he : q = np
    · subst he
      simpa only [updateProc_self] using hproper
    · simpa only [updateProc_of_ne he] using h.proper q
  · intro q m hm
    simp only [setControl_proc]
    by_cases he : q = p
    · subst he
      simp only [setControl_self] at hm
      obtain ⟨rfl, hparent⟩ := hcopied m hm
      simpa only [updateProc_self] using hparent
    · simp only [setControl_of_ne he, updateProc_control] at hm
      have hne : m ≠ np := fun hmn => halone q he (by rw [hm, hmn]; rfl)
      simpa only [updateProc_of_ne hne] using h.copied q m hm
  · intro q hq
    simp only [setControl_proc]
    by_cases he : q = p
    · exact halive (he ▸ hp)
    · simp only [setControl_of_ne he, updateProc_control] at hq
      exact halive (h.inside q hq)

theorem Rested.work (h : Rested s) (hl : Links s) {f : Proc → Proc} {ctl : Control}
    (hp : (s.proc p).state = .running) (hn : ¬Settled (s.proc np))
    (hz : (f (s.proc np)).state ≠ .zombie) :
    Rested (setControl (updateProc s np f) p ctl) := by
  intro q hq hc
  have hpn := ne_of_unsettled (alive_of_running hp) hn
  by_cases he : q = p
  · subst he
    simp only [setControl_proc, updateProc_of_ne hpn, hp] at hq
    cases hq
  · simp only [setControl_of_ne he, updateProc_control] at hc ⊢
    have hne := ne_of_unsettled (hl.inside q hc) hn
    simp only [setControl_proc, updateProc_of_ne hne] at hq ⊢
    obtain ⟨hwait, hchan, hchildren⟩ := h q hq hc
    refine ⟨hwait, hchan, ?_⟩
    intro c hparent
    by_cases hcn : c = np
    · subst hcn
      simpa only [updateProc_self] using hz
    · simp only [updateProc_of_ne hcn] at hparent ⊢
      exact hchildren c hparent

theorem Invariant.work (h : Invariant s) {f : Proc → Proc} {ctl : Control}
    (hp : (s.proc p).state = .running) (hn : ¬Settled (s.proc np))
    (halone : ∀ q, q ≠ p → (s.control q).reserved ≠ some np)
    (hproper : (f (s.proc np)).parent ≠ some np)
    (hborn : Settled (f (s.proc np)) → ∃ q, (f (s.proc np)).parent = some q ∧ Alive (s.proc q))
    (hcopied : ∀ m, ctl = .copied m → m = np ∧ (f (s.proc np)).parent = some p)
    (hz : (f (s.proc np)).state ≠ .zombie)
    (ht : TableOk (setControl (updateProc s np f) p ctl)) :
    Invariant (setControl (updateProc s np f) p ctl) :=
  ⟨ht, h.links.work (alive_of_running hp) hn halone hproper hborn hcopied,
    h.rested.work h.links hp hn hz⟩

theorem tableOk_nextpid {n : ℤ} (h : TableOk { s with nextpid := n }) : TableOk s :=
  ⟨h.settled, h.embryo, h.stack, h.memory, h.distinct⟩

theorem Invariant.nextpid (h : Invariant s) (n : ℤ) : Invariant { s with nextpid := n } :=
  ⟨⟨h.table.settled, h.table.embryo, h.table.stack, h.table.memory, h.table.distinct⟩,
    ⟨h.links.init, h.links.root, h.links.parent, h.links.proper, h.links.copied,
      h.links.inside⟩, h.rested⟩

theorem forkAlloc_invariant (h : Invariant s) (he : Enabled s (.forkAlloc p)) :
    Invariant (forkAlloc s p) := by
  have ht := step_tableOk h.table he rfl
  simp only [forkAlloc, allocproc] at ht ⊢
  cases hf : findProc fun p => (s.proc p).state == .unused with
  | none => exact h
  | some np =>
    have hn : (s.proc np).state = .unused := by simpa using findProc_some hf
    simp only [hf, Option.map_some] at ht ⊢
    refine Invariant.nextpid (h.work he.1 (fun hs => hs.1 hn)
      (unreserved_alone h.table (by simp [hn])) (h.links.proper np) ?_ ?_ ?_
      (tableOk_nextpid ht)) _
    · exact fun hs => absurd rfl hs.2
    · exact fun m hm => by cases hm
    · exact fun hm => by cases hm

theorem reserved_unsettled (h : Invariant s) (hc : (s.control p).reserved = some np) :
    ¬Settled (s.proc np) := fun hs => hs.2 (h.table.embryo p np hc)

theorem forkStack_invariant {kstack : ℕ} (h : Invariant s) (he : Enabled s (.forkStack p kstack)) :
    Invariant (forkStack s p kstack) := by
  have ht := step_tableOk h.table he rfl
  obtain ⟨hrun, np, hc⟩ := he
  have hres : (s.control p).reserved = some np := by simp only [hc, Control.reserved]
  have hembryo := h.table.embryo p np hres
  simp only [forkStack, hc] at ht ⊢
  split at ht
  · next hk =>
    simp only [hk, if_true]
    refine h.work hrun (reserved_unsettled h hres) (reserved_alone h.table hres)
      (h.links.proper np) ?_ ?_ ?_ ht
    · exact fun hs => absurd rfl hs.1
    · exact fun m hm => by cases hm
    · exact fun hm => by cases hm
  · next hk =>
    simp only [hk, if_false]
    refine h.work hrun (reserved_unsettled h hres) (reserved_alone h.table hres)
      (h.links.proper np) ?_ ?_ ?_ ht
    · exact fun hs => absurd hembryo hs.2
    · exact fun m hm => by cases hm
    · simp [hembryo]

/-- The slot gets its parent while fork is still at work on it. -/
theorem forkMemory_invariant {pgdir : ℕ} (h : Invariant s) (he : Enabled s (.forkMemory p pgdir)) :
    Invariant (forkMemory s p pgdir) := by
  have ht := step_tableOk h.table he rfl
  obtain ⟨hrun, np, hc⟩ := he
  have hres : (s.control p).reserved = some np := by simp only [hc, Control.reserved]
  have hembryo := h.table.embryo p np hres
  simp only [forkMemory, hc] at ht ⊢
  split at ht
  · next hd =>
    simp only [hd, if_true]
    refine h.work hrun (reserved_unsettled h hres) (reserved_alone h.table hres)
      (h.links.proper np) ?_ ?_ ?_ ht
    · exact fun hs => absurd rfl hs.1
    · exact fun m hm => by cases hm
    · exact fun hm => by cases hm
  · next hd =>
    simp only [hd, if_false]
    refine h.work hrun (reserved_unsettled h hres) (reserved_alone h.table hres)
      ?_ ?_ ?_ ?_ ht
    · intro hp
      cases hp
      exact ne_of_unsettled (alive_of_running hrun) (reserved_unsettled h hres) rfl
    · exact fun hs => absurd hembryo hs.2
    · intro m hm
      cases hm
      exact ⟨rfl, rfl⟩
    · simp [hembryo]

theorem forkFinish_invariant (h : Invariant s) (he : Enabled s (.forkFinish p)) :
    Invariant (forkFinish s p) := by
  have ht := step_tableOk h.table he rfl
  obtain ⟨hrun, np, hc⟩ := he
  have hres : (s.control p).reserved = some np := by simp only [hc, Control.reserved]
  have hparent := h.links.copied p np hc
  simp only [forkFinish, hc] at ht ⊢
  refine h.work hrun (reserved_unsettled h hres) (reserved_alone h.table hres)
    (h.links.proper np) ?_ ?_ ?_ ht
  · exact fun _ => ⟨p, hparent, alive_of_running hrun⟩
  · exact fun m hm => by cases hm
  · exact fun hm => by cases hm

/-- A child that is reaped has no children left, since it handed them to init. -/
theorem reap_links (h : Invariant s) (hc : zombieChild s p = some c) :
    Links (reap s c) := by
  have hz := zombieChild_state hc
  have hne : ∀ {q}, Alive (s.proc q) → q ≠ c := fun {q} hq he => hq.2 (he ▸ hz)
  have halive : ∀ {q}, Alive (s.proc q) → Alive ((reap s c).proc q) := fun {q} hq => by
    simpa only [reap, updateProc_of_ne (hne hq)] using hq
  refine ⟨halive h.links.init, ?_, ?_, ?_, ?_, ?_⟩
  · simpa only [reap, updateProc_of_ne (hne h.links.init)] using h.links.root
  · intro q hq hset
    have hqc : q ≠ c := by
      intro he
      subst he
      simp only [reap, updateProc_self] at hset
      exact hset.1 rfl
    simp only [reap, updateProc_of_ne hqc] at hset
    obtain ⟨r, hr, hlive⟩ := h.links.parent q hq hset
    exact ⟨r, by simpa only [reap, updateProc_of_ne hqc] using hr, halive hlive⟩
  · intro q
    by_cases he : q = c
    · simp [reap, he]
    · simpa only [reap, updateProc_of_ne he] using h.links.proper q
  · intro q np hq
    have hembryo := h.table.embryo q np (by
      rw [show s.control q = .copied np from hq]
      rfl)
    have hnp : np ≠ c := fun he => by simp [← he, hembryo] at hz
    simpa only [reap, updateProc_of_ne hnp] using h.links.copied q np hq
  · exact fun q hq => halive (h.links.inside q hq)

theorem reap_rested (h : Rested s) (c : ProcId) : Rested (reap s c) := by
  intro q hq hctl
  have hqc : q ≠ c := by
    intro he
    subst he
    simp [reap] at hq
  simp only [reap, updateProc_of_ne hqc] at hq ⊢
  obtain ⟨hwait, hchan, hchildren⟩ := h q hq hctl
  refine ⟨hwait, hchan, ?_⟩
  intro d hd
  by_cases he : d = c
  · subst he
    simp
  · simp only [updateProc_of_ne he] at hd ⊢
    exact hchildren d hd

theorem Links.setControl (h : Links s) {ctl : Control} (hp : Alive (s.proc p))
    (hctl : ctl = .user ∨ ctl = .waiting) : Links (setControl s p ctl) := by
  refine ⟨h.init, h.root, h.parent, h.proper, ?_, ?_⟩
  · intro q np hq
    by_cases he : q = p
    · subst he
      simp only [setControl_self] at hq
      rcases hctl with rfl | rfl <;> cases hq
    · exact h.copied q np (by simpa only [setControl_of_ne he] using hq)
  · intro q hq
    by_cases he : q = p
    · exact he ▸ hp
    · exact h.inside q (by simpa only [setControl_of_ne he] using hq)

theorem Rested.returned (h : Rested s) : Rested (setControl s p .user) := by
  intro q hq hc
  by_cases he : q = p
  · subst he
    simp at hc
  · simp only [setControl_of_ne he] at hc ⊢
    exact h q hq hc

theorem still_sleep (chan : Chan) (hp : Alive (s.proc p)) :
    Still s (updateProc s p fun q => { q with chan := some chan, state := .sleeping }) :=
  still_alive hp (by simp [Alive, Settled]) rfl

/-- A process that goes to sleep in wait has just seen that none of its children is a
zombie. -/
theorem sleep_rested (h : Rested s) (hp : Alive (s.proc p)) (hz : zombieChild s p = none) :
    Rested (setControl (updateProc s p fun q =>
      { q with chan := some (.proc p), state := .sleeping }) p .waiting) := by
  have hstill : Still s (updateProc s p fun q =>
      { q with chan := some (.proc p), state := .sleeping }) := still_sleep _ hp
  intro q hq hc
  simp only [setControl_proc] at hq ⊢
  simp only [hstill.parent, ne_eq, hstill.zombie]
  by_cases he : q = p
  · subst he
    simp only [setControl_self, updateProc_self, true_and]
    exact fun c hparent => zombieChild_none hz hparent
  · simp only [setControl_of_ne he, updateProc_control, updateProc_of_ne he] at hq hc ⊢
    exact h q hq hc

theorem wait_invariant (h : Invariant s) (he : Enabled s (.wait p)) : Invariant (wait s p) := by
  have ht := step_tableOk h.table he rfl
  have hp := alive_of_running he.1
  refine ⟨ht, ?_, ?_⟩ <;> rw [wait] <;> split
  · next c hc =>
    have hne : p ≠ c := fun hpc => hp.2 (hpc ▸ zombieChild_state hc)
    refine (reap_links h hc).setControl ?_ (Or.inl rfl)
    simpa only [reap, updateProc_of_ne hne] using hp
  · dsimp only
    split
    · exact h.links.setControl hp (Or.inl rfl)
    · have hstill := still_sleep (.proc p) hp
      exact (hstill.links h.links).setControl ((hstill.alive p).mpr hp) (Or.inr rfl)
  · next c hc => exact (reap_rested h.rested c).returned
  · next hz =>
    dsimp only
    split
    · exact h.rested.returned
    · exact sleep_rested h.rested hp hz

@[simp] theorem passChildren_state (s : PTable) (p q : ProcId) :
    ((passChildren s p).proc q).state = (s.proc q).state := by
  simp only [passChildren]
  split <;> rfl

@[simp] theorem passChildren_chan (s : PTable) (p q : ProcId) :
    ((passChildren s p).proc q).chan = (s.proc q).chan := by
  simp only [passChildren]
  split <;> rfl

theorem passChildren_parent (s : PTable) (p q : ProcId) :
    ((passChildren s p).proc q).parent =
      if (s.proc q).parent = some p then some initproc else (s.proc q).parent := by
  simp only [passChildren]
  split <;> rfl

theorem passChildren_alive (s : PTable) (p q : ProcId) :
    Alive ((passChildren s p).proc q) ↔ Alive (s.proc q) := by
  simp only [Alive, Settled, passChildren_state]

/-- Once its children are with init, nothing is lost when the process becomes a zombie. -/
theorem passed_links (h : Links s) (hinit : p ≠ initproc) (hp : Alive (s.proc p))
    (huser : s.control p = .user) (ht : Still (passChildren s p) t) :
    Links (updateProc t p fun q => { q with state := .zombie }) := by
  have hof : ∀ {q}, q ≠ p → (updateProc t p fun q => { q with state := .zombie }).proc q =
      t.proc q := fun hq => updateProc_of_ne hq
  have halive : ∀ {q}, q ≠ p → Alive (s.proc q) →
      Alive ((updateProc t p fun q => { q with state := .zombie }).proc q) := fun {q} hq ha => by
    simpa only [hof hq, ht.alive, passChildren_alive] using ha
  have hparent : ∀ q, ((updateProc t p fun q => { q with state := .zombie }).proc q).parent =
      if (s.proc q).parent = some p then some initproc else (s.proc q).parent := by
    intro q
    have hq := (ht.parent q).trans (passChildren_parent s p q)
    by_cases he : q = p
    · subst he
      simpa only [updateProc_self] using hq
    · simpa only [hof he] using hq
  have hcontrol : ∀ q, t.control q = s.control q := ht.control
  have hfar : ∀ {q}, t.control q ≠ .user → q ≠ p := fun {q} hq he =>
    hq (by rw [hcontrol, he, huser])
  refine ⟨halive hinit.symm h.init, ?_, ?_, ?_, ?_, ?_⟩
  · simp [hparent, h.root]
  · intro q hq hset
    simp only [hparent]
    split
    · exact ⟨initproc, rfl, halive hinit.symm h.init⟩
    · next hne =>
      have hold : Settled (s.proc q) := by
        by_cases he : q = p
        · exact he ▸ hp.1
        · simp only [hof he, ht.settled] at hset
          simpa only [Settled, passChildren_state] using hset
      obtain ⟨r, hr, hlive⟩ := h.parent q hq hold
      exact ⟨r, hr, halive (fun hrp => hne (hrp ▸ hr)) hlive⟩
  · intro q
    simp only [hparent]
    split
    · next hq =>
      intro he
      cases he
      simp [h.root] at hq
    · exact h.proper q
  · intro q np hq
    simp only [updateProc_control] at hq
    have hqp := hfar (q := q) (by simp [hq])
    have hnp := h.copied q np (by rw [← hcontrol, hq])
    simp only [hparent, hnp, Option.some.injEq, hqp, if_false]
  · intro q hq
    simp only [updateProc_control] at hq
    exact halive (hfar hq) (h.inside q (by rwa [← hcontrol]))

theorem still_reparent (s : PTable) (p : ProcId) : Still (passChildren s p) (reparent s p) := by
  simp only [reparent]
  split
  · exact (quiet_wakeup1 _ _).toStill
  · exact (Quiet.refl _).toStill

/-- Init does not sleep on while a zombie becomes its child. -/
theorem reparent_sleeping (h : ((reparent s p).proc q).state = .sleeping) :
    (s.proc q).state = .sleeping ∧ ((reparent s p).proc q).chan = (s.proc q).chan ∧
      (∀ c, (s.proc c).parent = some p → (s.proc c).state = .zombie →
        (s.proc q).chan ≠ some (.proc initproc)) := by
  simp only [reparent] at h ⊢
  split at h
  · next hz =>
    obtain ⟨hproc, hchan⟩ := wakeup1_sleeping h
    rw [if_pos hz, hproc]
    rw [hproc] at h
    simp only [passChildren_state, passChildren_chan] at h hchan ⊢
    exact ⟨h, trivial, fun _ _ _ => hchan⟩
  · next hz =>
    rw [if_neg hz]
    simp only [passChildren_state, passChildren_chan] at h ⊢
    refine ⟨h, trivial, ?_⟩
    intro c hc hzombie
    exact absurd hzombie (zombieChild_none (Option.not_isSome_iff_eq_none.mp hz) hc)

/-- The parent was woken before its child became a zombie, and init before the zombies of
the child became its own. -/
theorem exit_rested (h : Invariant s) (hinit : p ≠ initproc) (hp : Alive (s.proc p)) :
    Rested (updateProc (reparent (wakeup1 s ((s.proc p).parent.map .proc)) p) p
      fun q => { q with state := .zombie }) := by
  have hwake := quiet_wakeup1 s ((s.proc p).parent.map .proc)
  have hstill := still_reparent (wakeup1 s ((s.proc p).parent.map .proc)) p
  intro q hq hc
  have hqp : q ≠ p := by
    intro he
    subst he
    simp at hq
  simp only [updateProc_control, hstill.control] at hc ⊢
  simp only [updateProc_of_ne hqp] at hq ⊢
  obtain ⟨hsleep, hchan, hpassed⟩ := reparent_sleeping hq
  obtain ⟨hsame, hparent⟩ := wakeup1_sleeping hsleep
  rw [hsame] at hsleep hchan hpassed
  obtain ⟨hwait, hself, hchildren⟩ := h.rested q hsleep hc
  refine ⟨hwait, hchan.trans hself, ?_⟩
  intro c hchild hz
  by_cases he : c = p
  · subst he
    simp only [updateProc_self, hstill.parent, passChildren_parent, hwake.parent,
      h.links.proper, if_false] at hchild
    exact hparent (by rw [hself, hchild, Option.map_some])
  · simp only [updateProc_of_ne he, hstill.parent, hstill.zombie, passChildren_parent,
      passChildren_state, hwake.parent, hwake.zombie] at hchild hz
    split at hchild
    · next hcp =>
      cases hchild
      exact hpassed c ((hwake.parent c).trans hcp) ((hwake.zombie c).mpr hz) hself
    · exact hchildren c hchild hz

theorem exit_invariant (h : Invariant s) (he : Enabled s (.exit p)) (ht : exit s p = .ok t) :
    Invariant t := by
  have htable := step_tableOk h.table he ht
  have hp := alive_of_running he.1
  simp only [exit] at ht
  split at ht
  · cases ht
  · next hinit =>
    cases ht
    have hwake := quiet_wakeup1 s ((s.proc p).parent.map .proc)
    refine ⟨htable, ?_, exit_rested h hinit hp⟩
    exact passed_links (hwake.links h.links) hinit ((hwake.alive p).mpr hp) he.2
      (still_reparent _ p)

theorem step_quiet (he : Enabled s e) (ht : step s e = .ok t)
    (hfork : ∀ p n, e ≠ .forkAlloc p ∧ e ≠ .forkStack p n ∧ e ≠ .forkMemory p n ∧
      e ≠ .forkFinish p) (hleave : ∀ p, e ≠ .exit p ∧ e ≠ .wait p) : Quiet s t := by
  cases e with
  | schedule p =>
    obtain ⟨_, _, ht⟩ := bind_eq_ok.mp ht
    cases ht
    have hp : (s.proc p).state = .runnable := he
    have halive : Alive (s.proc p) := by simp [Alive, Settled, hp]
    exact (still_alive halive (by simp [Alive, Settled]) rfl).quiet fun hs => by cases hs
  | yield p =>
    cases ht
    exact (still_alive (alive_of_running he) (by simp [Alive, Settled]) rfl).quiet
      fun hs => by cases hs
  | sleep p chan =>
    cases ht
    exact (still_sleep _ (alive_of_running he.1)).quiet fun _ hc => absurd he.2 hc
  | wakeup chan =>
    cases ht
    exact quiet_wakeup1 s _
  | kill p pid =>
    cases ht
    exact quiet_kill s pid
  | exec p pgdir =>
    simp only [step, exec] at ht
    split at ht
    · cases ht
      exact Quiet.refl s
    · obtain ⟨_, _, ht⟩ := bind_eq_ok.mp ht
      cases ht
      exact (still_updateProc rfl Iff.rfl Iff.rfl).quiet fun hs _ => ⟨hs, rfl⟩
  | forkAlloc p => exact absurd rfl (hfork p 0).1
  | forkStack p n => exact absurd rfl (hfork p n).2.1
  | forkMemory p n => exact absurd rfl (hfork p n).2.2.1
  | forkFinish p => exact absurd rfl (hfork p 0).2.2.2
  | exit p => exact absurd rfl (hleave p).1
  | wait p => exact absurd rfl (hleave p).2

theorem step_invariant (h : Invariant s) (he : Enabled s e) (ht : step s e = .ok t) :
    Invariant t := by
  cases e with
  | forkAlloc p =>
    cases ht
    exact forkAlloc_invariant h he
  | forkStack p kstack =>
    cases ht
    exact forkStack_invariant h he
  | forkMemory p pgdir =>
    cases ht
    exact forkMemory_invariant h he
  | forkFinish p =>
    cases ht
    exact forkFinish_invariant h he
  | exit p => exact exit_invariant h he ht
  | wait p =>
    cases ht
    exact wait_invariant h he
  | _ =>
    have hq := step_quiet he ht (fun _ _ => ⟨nofun, nofun, nofun, nofun⟩) fun _ => ⟨nofun, nofun⟩
    exact ⟨step_tableOk h.table he ht, hq.links h.links, hq.rested h.rested⟩

theorem userinit_settled {pages : FirstPages} (h : Settled ((userinit pages).proc p)) :
    p = initproc := by
  by_contra hp
  exact h.1 (by simp [userinit, hp, zeroProc])

theorem userinit_invariant (pages : FirstPages) : Invariant (userinit pages) where
  table := userinit_tableOk pages
  links := {
    init := by simp [userinit, Alive, Settled]
    root := by simp [userinit]
    parent := fun p hp hs => absurd (userinit_settled hs) hp
    proper := by
      intro p
      simp only [userinit]
      split <;> simp [zeroProc]
    copied := fun p np hp => by cases hp
    inside := fun p hp => absurd rfl hp }
  rested p _ hc := absurd rfl hc

theorem Invariant.familyOk (h : Invariant s) : FamilyOk s where
  parent p hp hs := by
    obtain ⟨q, hq, halive⟩ := h.links.parent p hp hs
    exact ⟨q, hq, halive.1.1, halive.2⟩
  asleep p c hp hc hparent := (h.rested p hp (by simp [hc])).2.2 c hparent

end Lemmas

/-- In every run of the process table, whatever the schedule. -/
theorem families_ok (pages : FirstPages) (events : List Event)
    (h : Along step Enabled (userinit pages) events) :
    Visits step FamilyOk (userinit pages) events :=
  visits_of_invariant (fun _ => Invariant.familyOk) (fun _ _ _ => step_invariant)
    (userinit_invariant pages) h

/-- The parent sleeps in wait while its child forks in turn and exits. -/
def orphaned : List Event :=
  [.schedule 0, .forkAlloc 0, .forkStack 0 4096, .forkMemory 0 8192, .forkFinish 0, .wait 0,
    .schedule 1, .forkAlloc 1, .forkStack 1 4096, .forkMemory 1 8192, .forkFinish 1, .exit 1,
    .schedule 0, .wait 0]

theorem families_ok_orphaned :
    Visits step FamilyOk (userinit ⟨12288, 16384, by decide, by decide⟩) orphaned :=
  families_ok _ _ (by decide +kernel)

end ProcessFamilies
