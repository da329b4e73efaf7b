import Xv6Gui.ProcessFamilies

/-!
# Killed processes

kill searches every slot for the pid, in use or not, and only wait clears the mark it leaves.
A free slot has pid 0 or, after a fork that ran out of memory, the pid of a child that never
ran, so a mark can be left where the next fork picks it up.
-/
namespace KilledProcesses

open WindowManagerState ProcessTable ProcessFamilies GuardedRuns

/-- The slot that kill marks before it returns 0. Without one it returns -1. -/
def marked (s : PTable) (pid : ℤ) : Option ProcId := findProc fun q => (s.proc q).pid == pid

/-- What kill marks is in use, and what fork returns is not marked. -/
def KillLaw (s : PTable) : Event → Prop
  | .kill _ pid => ∀ q, marked s pid = some q → (s.proc q).state ≠ .unused
  | .forkFinish p => ∀ np, s.control p = .copied np → ((forkFinish s p).proc np).killed = false
  | _ => True

/-- The first slot that carries the number belongs to a process that fork has completed and
wait has not freed. -/
def NamesProcess (s : PTable) : Event → Prop
  | .kill _ pid => ∀ q, (s.proc q).pid = pid → (∀ r < q, (s.proc r).pid ≠ pid) →
      Settled (s.proc q)
  | _ => True

instance (q : Proc) : Decidable (Settled q) := inferInstanceAs (Decidable (_ ∧ _))

instance (s : PTable) : (e : Event) → Decidable (KillLaw s e)
  | .kill _ _ => inferInstanceAs (Decidable (∀ _, _ → _))
  | .forkFinish _ => inferInstanceAs (Decidable (∀ _, _ → _))
  | .schedule _ | .yield _ | .sleep _ _ | .wakeup _ | .forkAlloc _ | .forkStack _ _
  | .forkMemory _ _ | .exec _ _ | .exit _ | .wait _ => inferInstanceAs (Decidable True)

instance (s : PTable) : (e : Event) → Decidable (NamesProcess s e)
  | .kill _ _ => inferInstanceAs (Decidable (∀ _, _ → _ → _))
  | .schedule _ | .yield _ | .sleep _ _ | .wakeup _ | .forkAlloc _ | .forkStack _ _
  | .forkMemory _ _ | .forkFinish _ | .exec _ _ | .exit _ | .wait _ =>
    inferInstanceAs (Decidable True)

/-- Every slot that fork holds is held by some fork. -/
def EmbryosHeld (s : PTable) : Prop :=
  ∀ np, (s.proc np).state = .embryo → ∃ p, (s.control p).reserved = some np

/-- A slot that a fork can still be given, or has been given, carries no mark. -/
def FreeUnmarked (s : PTable) : Prop := ∀ q, ¬Settled (s.proc q) → (s.proc q).killed = false

/-- The process goes on to break the law. -/
def Breaks (s : PTable) : Prop :=
  ∃ rest, Along step Enabled s rest ∧ ¬Along step KillLaw s rest

section Lemmas

variable {s t : PTable} {p q np : ProcId} {pid : ℤ} {e : Event}

theorem marked_iff : marked s pid = some q ↔
    (s.proc q).pid = pid ∧ ∀ r < q, (s.proc r).pid ≠ pid := by
  constructor
  · intro h
    obtain ⟨hq, i, hi, hget, hbefore⟩ := List.find?_eq_some_iff_getElem.mp h
    simp only [List.getElem_finRange] at hget
    refine ⟨by simpa using hq, ?_⟩
    intro r hr
    have hri : r.val < i := by
      rw [← hget] at hr
      exact hr
    simpa using hbefore r.val hri
  · rintro ⟨hq, hbefore⟩
    refine List.find?_eq_some_iff_getElem.mpr ⟨by simpa using hq, q.val, by simp, by simp, ?_⟩
    intro j hj
    simpa using hbefore ⟨j, by omega⟩ hj

theorem kill_marked (h : marked s pid = some q) : kill s pid = updateProc s q fun q =>
    { q with killed := true, state := if q.state = .sleeping then .runnable else q.state } := by
  rw [kill, show findProc _ = some q from h]

theorem killed_updateProc {f : Proc → Proc} (h : ((updateProc s p f).proc q).killed = true)
    (hf : ∀ x, (f x).killed = true → x.killed = true) : (s.proc q).killed = true := by
  by_cases hq : q = p
  · subst hq
    simp only [updateProc_self] at h
    exact hf _ h
  · simpa only [updateProc_of_ne hq] using h

theorem wakeup1_killed (s : PTable) (chan : Option Chan) (q : ProcId) :
    ((wakeup1 s chan).proc q).killed = (s.proc q).killed := by
  simp only [wakeup1]
  split <;> rfl

theorem reparent_killed (s : PTable) (p q : ProcId) :
    ((reparent s p).proc q).killed = (s.proc q).killed := by
  have hpass : ((passChildren s p).proc q).killed = (s.proc q).killed := by
    simp only [passChildren]
    split <;> rfl
  simp only [reparent]
  split
  · exact (wakeup1_killed _ _ _).trans hpass
  · exact hpass

theorem fork_killed (ht : t = forkAlloc s p ∨ (∃ n, t = forkStack s p n ∨ t = forkMemory s p n) ∨
    t = forkFinish s p) (hk : (t.proc q).killed = true) : (s.proc q).killed = true := by
  rcases ht with rfl | ⟨n, rfl | rfl⟩ | rfl
  · simp only [forkAlloc, allocproc] at hk
    cases hf : findProc fun p => (s.proc p).state == .unused with
    | none => simpa only [hf, Option.map_none] using hk
    | some np =>
      simp only [hf, Option.map_some, setControl_proc] at hk
      exact killed_updateProc hk fun _ h => h
  · simp only [forkStack] at hk
    split at hk
    · split at hk <;> simp only [setControl_proc] at hk <;>
        exact killed_updateProc hk fun _ h => h
    · exact hk
  · simp only [forkMemory] at hk
    split at hk
    · split at hk <;> simp only [setControl_proc] at hk <;>
        exact killed_updateProc hk fun _ h => h
    · exact hk
  · simp only [forkFinish] at hk
    split at hk
    · simp only [setControl_proc] at hk
      exact killed_updateProc hk fun _ h => h
    · exact hk

theorem wait_killed (hk : ((wait s p).proc q).killed = true) : (s.proc q).killed = true := by
  rw [wait] at hk
  split at hk
  · simp only [setControl_proc, reap] at hk
    exact killed_updateProc hk fun _ h => by cases h
  · dsimp only at hk
    split at hk
    · exact hk
    · simp only [setControl_proc] at hk
      exact killed_updateProc hk fun _ h => h

/-- Only kill sets a mark. -/
theorem step_killed (ht : step s e = .ok t) (hk : (t.proc q).killed = true) :
    (s.proc q).killed = true ∨ ∃ p pid, e = .kill p pid ∧ marked s pid = some q := by
  cases e with
  | schedule p =>
    obtain ⟨_, _, ht⟩ := bind_eq_ok.mp ht
    cases ht
    exact Or.inl (killed_updateProc hk fun _ h => h)
  | yield p | sleep p chan =>
    cases ht
    exact Or.inl (killed_updateProc hk fun _ h => h)
  | wakeup chan =>
    cases ht
    exact Or.inl ((wakeup1_killed s _ q).symm.trans hk)
  | kill p pid =>
    cases ht
    cases hm : marked s pid with
    | none =>
      rw [kill, show findProc _ = none from hm] at hk
      exact Or.inl hk
    | some r =>
      rw [kill_marked hm] at hk
      by_cases hq : q = r
      · exact Or.inr ⟨p, pid, rfl, hq ▸ hm⟩
      · exact Or.inl (by simpa only [updateProc_of_ne hq] using hk)
  | forkAlloc p =>
    cases ht
    exact Or.inl (fork_killed (Or.inl rfl) hk)
  | forkStack p n =>
    cases ht
    exact Or.inl (fork_killed (Or.inr (Or.inl ⟨n, Or.inl rfl⟩)) hk)
  | forkMemory p n =>
    cases ht
    exact Or.inl (fork_killed (Or.inr (Or.inl ⟨n, Or.inr rfl⟩)) hk)
  | forkFinish p =>
    cases ht
    exact Or.inl (fork_killed (Or.inr (Or.inr rfl)) hk)
  | exec p pgdir =>
    simp only [step, exec] at ht
    split at ht
    · cases ht
      exact Or.inl hk
    · obtain ⟨_, _, ht⟩ := bind_eq_ok.mp ht
      cases ht
      exact Or.inl (killed_updateProc hk fun _ h => h)
  | exit p =>
    simp only [step, exit] at ht
    split at ht
    · cases ht
    · cases ht
      have hold := killed_updateProc hk fun _ h => h
      exact Or.inl (by rwa [reparent_killed, wakeup1_killed] at hold)
  | wait p =>
    cases ht
    exact Or.inl (wait_killed hk)

theorem marked_settled (hg : NamesProcess s (.kill p pid)) (hm : marked s pid = some q) :
    Settled (s.proc q) :=
  hg q (marked_iff.mp hm).1 (marked_iff.mp hm).2

theorem step_freeUnmarked (h : TableOk s) (hf : FreeUnmarked s) (he : Enabled s e)
    (hg : NamesProcess s e) (ht : step s e = .ok t) : FreeUnmarked t := by
  intro q hq
  by_contra hk
  simp only [Bool.not_eq_false] at hk
  by_cases hs : Settled (s.proc q)
  · have hreaped : ¬∀ p, e = .wait p → zombieChild s p ≠ some q :=
      fun hw => hq (step_settled h he ht hs hw)
    push Not at hreaped
    obtain ⟨p, rfl, hz⟩ := hreaped
    cases ht
    rw [wait, hz] at hk
    simp [reap] at hk
  · rcases step_killed ht hk with hold | ⟨p, pid, rfl, hm⟩
    · rw [hf q hs] at hold
      cases hold
    · exact hs (marked_settled hg hm)

theorem killLaw_of (h : TableOk s) (hf : FreeUnmarked s) (hg : NamesProcess s e) :
    KillLaw s e := by
  cases e with
  | kill p pid => exact fun q hm => (marked_settled hg hm).1
  | forkFinish p =>
    intro np hc
    by_contra hk
    simp only [Bool.not_eq_false] at hk
    have hold := fork_killed (Or.inr (Or.inr rfl)) hk
    rw [hf np fun hs => hs.2 (h.embryo p np (by rw [hc]; rfl))] at hold
    cases hold
  | _ => trivial

theorem embryosHeld_update (hh : EmbryosHeld s) (f : Proc → Proc) (c : Control) (n : ℤ)
    (hnew : (f (s.proc np)).state = .embryo → c.reserved = some np)
    (hold : ∀ m, m ≠ np → (s.control p).reserved ≠ some m) :
    EmbryosHeld { setControl (updateProc s np f) p c with nextpid := n } := by
  intro m hm
  change ((updateProc s np f).proc m).state = .embryo at hm
  change ∃ q, ((setControl (updateProc s np f) p c).control q).reserved = some m
  by_cases he : m = np
  · subst he
    simp only [updateProc_self] at hm
    exact ⟨p, by simpa only [setControl_self] using hnew hm⟩
  · simp only [updateProc_of_ne he] at hm
    obtain ⟨q, hq⟩ := hh m hm
    have hqp : q ≠ p := fun hqp => hold m he (hqp ▸ hq)
    exact ⟨q, by simpa only [setControl_of_ne hqp, updateProc_control] using hq⟩

theorem reserved_other {ctl : Control} (hc : s.control p = ctl) (hr : ctl.reserved = some np) :
    ∀ m, m ≠ np → (s.control p).reserved ≠ some m := by
  intro m hm hres
  rw [hc, hr] at hres
  cases hres
  exact hm rfl

theorem step_embryosHeld (hh : EmbryosHeld s) (he : Enabled s e) (ht : step s e = .ok t) :
    EmbryosHeld t := by
  cases step_effect he ht with
  | calm hc =>
    intro np hnp
    obtain ⟨p, hp⟩ := hh np ((hc.embryo np).mp hnp)
    rcases hc.control p with hsame | ⟨hnone, _⟩
    · exact ⟨p, by rw [hsame, hp]⟩
    · rw [hnone] at hp
      cases hp
  | allocated hn =>
    refine embryosHeld_update hh (fun q => { q with state := .embryo, pid := s.nextpid })
      (.allocated _) _ (fun _ => rfl) ?_
    intro m _ hm
    rw [he.2] at hm
    cases hm
  | noStack hc =>
    exact embryosHeld_update hh (fun q => { q with kstack := 0, state := .unused }) .user
      s.nextpid (fun hm => by cases hm) (reserved_other hc rfl)
  | @stacked p np kstack hc _ =>
    exact embryosHeld_update hh (fun q => { q with kstack := kstack }) (.stacked np)
      s.nextpid (fun _ => rfl) (reserved_other hc rfl)
  | noMemory hc =>
    exact embryosHeld_update hh (fun q => { q with pgdir := 0, kstack := 0, state := .unused })
      .user s.nextpid (fun hm => by cases hm) (reserved_other hc rfl)
  | @copied p np pgdir hc _ =>
    exact embryosHeld_update hh (fun q => { q with pgdir := pgdir, parent := some p })
      (.copied np) s.nextpid (fun _ => rfl) (reserved_other hc rfl)
  | forked hc =>
    exact embryosHeld_update hh (fun q => { q with state := .runnable }) .user s.nextpid
      (fun hm => by cases hm) (reserved_other hc rfl)
  | @execed p pgdir hu _ =>
    intro m hm
    have hstate : (s.proc m).state = .embryo := by
      by_cases hq : m = p
      · subst hq
        simpa only [updateProc_self] using hm
      · simpa only [updateProc_of_ne hq] using hm
    exact hh m hstate
  | reaped hz =>
    refine embryosHeld_update hh (fun q => { q with
      kstack := 0, pid := 0, parent := none, killed := false, state := .unused }) .user s.nextpid
      (fun hm => by cases hm) ?_
    intro m _ hm
    rcases he.2 with hc | hc <;> rw [hc] at hm <;> cases hm

theorem Breaks.cons (he : Enabled s e) (ht : step s e = .ok t) (h : Breaks t) : Breaks s := by
  obtain ⟨rest, henabled, hbreak⟩ := h
  refine ⟨e :: rest, ⟨he, ?_⟩, fun hall => hbreak (hall.2 t ht)⟩
  intro u hu
  cases ht.symm.trans hu
  exact henabled

/-- A fork whose slot is marked has enough memory left to return it. -/
theorem fork_breaks (hrun : (s.proc p).state = .running)
    (hc : (s.control p).reserved = some np) (hk : (s.proc np).killed = true) (hne : p ≠ np) :
    Breaks s := by
  have hcopied : ∀ {s : PTable}, (s.proc p).state = .running → s.control p = .copied np →
      (s.proc np).killed = true → Breaks s := by
    intro s hrun hc hk
    refine ⟨[.forkFinish p], ⟨⟨hrun, np, hc⟩, fun _ _ => trivial⟩, ?_⟩
    rintro ⟨hlaw, _⟩
    have hfalse := hlaw np hc
    simp only [forkFinish, hc, setControl_proc, updateProc_self, hk] at hfalse
    cases hfalse
  have hstacked : ∀ {s : PTable}, (s.proc p).state = .running → s.control p = .stacked np →
      (s.proc np).killed = true → Breaks s := by
    intro s hrun hc hk
    refine Breaks.cons (e := .forkMemory p 1) ⟨hrun, np, hc⟩ rfl ?_
    simp only [forkMemory, hc, Nat.one_ne_zero, if_false]
    apply hcopied
    · simpa only [setControl_proc, updateProc_of_ne hne] using hrun
    · exact setControl_self _ _ _
    · simpa only [setControl_proc, updateProc_self] using hk
  cases hctl : s.control p with
  | allocated m =>
    rw [hctl] at hc
    cases hc
    refine Breaks.cons (e := .forkStack p 1) ⟨hrun, np, hctl⟩ rfl ?_
    simp only [forkStack, hctl, Nat.one_ne_zero, if_false]
    apply hstacked
    · simpa only [setControl_proc, updateProc_of_ne hne] using hrun
    · exact setControl_self _ _ _
    · simpa only [setControl_proc, updateProc_self] using hk
  | stacked m =>
    rw [hctl] at hc
    cases hc
    exact hstacked hrun hctl hk
  | copied m =>
    rw [hctl] at hc
    cases hc
    exact hcopied hrun hctl hk
  | user =>
    rw [hctl] at hc
    cases hc
  | waiting =>
    rw [hctl] at hc
    cases hc

theorem fork_awake (h : Invariant s) (hc : (s.control p).reserved = some np) :
    (s.proc p).state = .running ∨ (s.proc p).state = .runnable := by
  have hctl : s.control p ≠ .user := fun hu => by
    rw [hu] at hc
    cases hc
  have halive := h.links.inside p hctl
  cases hs : (s.proc p).state with
  | unused => exact absurd hs halive.1.1
  | embryo => exact absurd hs halive.1.2
  | zombie => exact absurd hs halive.2
  | sleeping =>
    rw [(h.rested p hs hctl).1] at hc
    cases hc
  | running => exact Or.inl rfl
  | runnable => exact Or.inr rfl

theorem awake_breaks (h : TableOk s) (hc : (s.control p).reserved = some np)
    (hk : (s.proc np).killed = true) (hne : p ≠ np)
    (hp : (s.proc p).state = .running ∨ (s.proc p).state = .runnable) : Breaks s := by
  rcases hp with hp | hp
  · exact fork_breaks hp hc hk hne
  · have he : Enabled s (.schedule p) := hp
    obtain ⟨t, ht⟩ := schedule_ok h he
    refine Breaks.cons he ht ?_
    obtain ⟨_, _, ht⟩ := bind_eq_ok.mp ht
    cases ht
    apply fork_breaks _ _ _ hne
    · rw [updateProc_self]
    · rwa [updateProc_control]
    · rw [updateProc_of_ne hne.symm, hk]

/-- A kill that names no process marks a free slot, or one that a fork is about to return. -/
theorem stray_kill_breaks (h : Invariant s) (hh : EmbryosHeld s) (he : Enabled s e)
    (hg : ¬NamesProcess s e) :
    ∃ rest, Along step Enabled s (e :: rest) ∧ ¬Along step KillLaw s (e :: rest) := by
  cases e with
  | kill p pid =>
    simp only [NamesProcess] at hg
    push Not at hg
    obtain ⟨np, hpid, hfirst, hset⟩ := hg
    have hm : marked s pid = some np := marked_iff.mpr ⟨hpid, hfirst⟩
    by_cases hu : (s.proc np).state = .unused
    · exact ⟨[], ⟨he, fun _ _ => trivial⟩, fun hall => hall.1 np hm hu⟩
    · have hembryo : (s.proc np).state = .embryo := by
        by_contra hne
        exact hset ⟨hu, hne⟩
      obtain ⟨q, hq⟩ := hh np hembryo
      have hawake := fork_awake h hq
      have hne : q ≠ np := by
        intro hqn
        rw [hqn, hembryo] at hawake
        rcases hawake with hs | hs <;> cases hs
      have ht : step s (.kill p pid) = .ok (kill s pid) := rfl
      have hbreaks : Breaks (kill s pid) := by
        apply awake_breaks (step_tableOk h.table he ht) _ _ hne _
        · rwa [kill_marked hm, updateProc_control]
        · rw [kill_marked hm, updateProc_self]
        · rwa [kill_marked hm, updateProc_of_ne hne]
      obtain ⟨rest, henabled, hbreak⟩ := hbreaks
      refine ⟨rest, ⟨he, ?_⟩, fun hall => hbreak (hall.2 _ ht)⟩
      intro u hu
      cases ht.symm.trans hu
      exact henabled
  | _ => exact absurd trivial hg

theorem userinit_embryosHeld (pages : FirstPages) : EmbryosHeld (userinit pages) := by
  intro np hnp
  simp only [userinit] at hnp
  split at hnp <;> cases hnp

theorem userinit_freeUnmarked (pages : FirstPages) : FreeUnmarked (userinit pages) := by
  intro q _
  simp only [userinit]
  split <;> rfl

end Lemmas

/-- Marks stay with processes in every run whose kills name processes; and any other kill
breaks the law at once or when the fork at work on the slot goes on. -/
theorem marks_only_processes (pages : FirstPages) :
    (∀ events : List Event, Along step Enabled (userinit pages) events →
      Along step NamesProcess (userinit pages) events →
      Along step KillLaw (userinit pages) events) ∧
    ∀ (events : List Event) (e : Event) (s : PTable),
      Along step Enabled (userinit pages) (events ++ [e]) →
      Execution step (userinit pages) events s → ¬NamesProcess s e →
      ∃ rest, Along step Enabled (userinit pages) (events ++ e :: rest) ∧
        ¬Along step KillLaw (userinit pages) (events ++ e :: rest) := by
  constructor
  · intro events he hg
    have hstep : ∀ s e t, TableOk s ∧ FreeUnmarked s → Enabled s e ∧ NamesProcess s e →
        step s e = .ok t → TableOk t ∧ FreeUnmarked t := fun s e t h hk ht =>
      ⟨step_tableOk h.1 hk.1 ht, step_freeUnmarked h.1 h.2 hk.1 hk.2 ht⟩
    exact along_of_invariant (fun s e h hk => killLaw_of h.1 h.2 hk.2) hstep
      ⟨userinit_tableOk pages, userinit_freeUnmarked pages⟩ (he.and hg)
  · intro events e s he hs hg
    have hstep : ∀ s e t, Invariant s ∧ EmbryosHeld s → Enabled s e → step s e = .ok t →
        Invariant t ∧ EmbryosHeld t := fun s e t h hk ht =>
      ⟨step_invariant h.1 hk ht, step_embryosHeld h.2 hk ht⟩
    have hinv : Invariant s ∧ EmbryosHeld s := (visits_of_invariant (fun _ h => h) hstep
      ⟨userinit_invariant pages, userinit_embryosHeld pages⟩ he.left).last hs
    obtain ⟨rest, henabled, hbreak⟩ := stray_kill_breaks hinv.1 hinv.2 (he.reached hs) hg
    refine ⟨rest, he.left.append ?_, fun hall => hbreak (hall.right hs)⟩
    intro t ht
    cases ht.unique hs
    exact henabled

def bootPages : FirstPages := ⟨20480, 24576, by decide, by decide⟩

/-- Init forks a child and kills it, and collects it when it has exited. -/
def killChild : List Event :=
  [.schedule 0, .forkAlloc 0, .forkStack 0 4096, .forkMemory 0 8192, .forkFinish 0, .kill 0 2,
    .yield 0, .schedule 1, .exit 1, .schedule 0, .wait 0]

theorem marks_only_processes_child : Along step KillLaw (userinit bootPages) killChild :=
  (marks_only_processes bootPages).1 killChild (by decide +kernel) (by decide +kernel)

/-- Pid 0 is what the slots that are free carry. -/
def killZero : List Event :=
  [.schedule 0, .kill 0 0, .forkAlloc 0, .forkStack 0 4096, .forkMemory 0 8192, .forkFinish 0]

theorem kill_zero_marks_next_child :
    ¬∀ (pages : FirstPages) (events : List Event),
      Along step Enabled (userinit pages) events →
      Along step KillLaw (userinit pages) events := by
  intro h
  have hlaw := h bootPages killZero (by decide +kernel)
  have hbreak : ¬Along step KillLaw (userinit bootPages) killZero := by decide +kernel
  exact hbreak hlaw

end KilledProcesses
