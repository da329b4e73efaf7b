import Xv6Gui.SchedulingSafety

/-!
# No missed wakeup

sleep gives up its lock before the process is marked as asleep, and a wakeup in between would
find nobody. While a process is on its way to sleep it holds that lock or ptable.lock, so a
processor that wakes up with the lock held meets each process before the call of sleep, or
asleep.
-/
namespace SleepChannels

open WindowManagerState (ProcId)
open ProcessTable (FirstPages)
open SpinLocks GuardedRuns Scheduling SchedulingSafety

/-! ### What holds of every frame -/

section Frames

variable {C T L X σ : Type} [DecidableEq C] [DecidableEq T] [DecidableEq L] [Fintype C]

/-- The client keeps Q of each frame, and R of the top frame of each thread that waits. -/
structure Keeps (K : Client C T L X σ) (Q R : SpinLocks.Frame T L X → Prop) : Prop where
  move : ∀ f f', Move f f' → Q f → Q f'
  leave : ∀ f e is, f.code = .switchBack :: is → f.phase = .leaving e → Q f →
    Q { f with phase := .away e } ∧ R { f with phase := .away e }
  enter : ∀ f u is, f.code = .switchTo u :: is → f.phase = .start → Q f →
    Q { f.next is with entry := none } ∧ R { f.next is with entry := none }
  op : ∀ c x s e f is, K.exec c x s = .ok e → f.code = .op x :: is → f.phase = .start →
    K.pre x f.locks f.pushed = true → Q f → Q (f.next (e.code ++ is))
  stack : ∀ c x s e t is, K.exec c x s = .ok e → e.stack = some (t, some is) →
    Q ⟨is, .start, [K.ptable], 0, none⟩ ∧ R ⟨is, .start, [K.ptable], 0, none⟩
  request : ∀ t b f r, f.code = [] → allowed K t b f r = true → Q f → Q (f.next r.code)
  handler : Q ⟨[], .start, [], 0, none⟩
  boot : Q ⟨K.boot, .start, [], 0, none⟩
  first : ∀ t is, K.first t = some is →
    Q ⟨is, .start, [K.ptable], 0, none⟩ ∧ R ⟨is, .start, [K.ptable], 0, none⟩

structure Kept (Q R : SpinLocks.Frame T L X → Prop) (s : SpinLocks.State C T L X σ) : Prop where
  all : ∀ t, ∀ f ∈ s.stack t, Q f
  waiting : ∀ t, ¬ onCpu s t → ∀ f fs, s.stack t = f :: fs → R f

variable {K : Client C T L X σ} {Q R : SpinLocks.Frame T L X → Prop}
  {s t : SpinLocks.State C T L X σ} {c : C} {m : Cpu} {f : SpinLocks.Frame T L X}
  {fs gs : List (SpinLocks.Frame T L X)}

omit [DecidableEq L] [Fintype C] in
theorem Kept.put (h : Kept Q R s) (hcur : t.current = s.current)
    (hst : t.stack = s.stack) (hgs : ∀ g ∈ gs, Q g) : Kept Q R (t.put c m gs) := by
  constructor
  · intro u g hg
    by_cases hu : u = t.current c
    · subst hu
      rw [put_stack_self] at hg
      exact hgs g hg
    · rw [put_stack_of_ne hu, hst] at hg
      exact h.all u g hg
  · intro u hu g hs hg
    have hne : u ≠ t.current c := fun e => hu ⟨c, e.symm⟩
    rw [put_stack_of_ne hne, hst] at hg
    refine h.waiting u ?_ g hs hg
    rintro ⟨d, hd⟩
    exact hu ⟨d, by rw [put_current, hcur]; exact hd⟩

omit [DecidableEq L] in
theorem Kept.swtch {u : T} {g : SpinLocks.Frame T L X} (h : Kept Q R s)
    (hg : Q g ∧ R g) (hgs : ∀ g ∈ gs, Q g) (ht : SpinLocks.swtch s c (g :: gs) u = .ok t) :
    Kept Q R t := by
  unfold SpinLocks.swtch at ht
  split at ht
  · cases ht
  rename_i hfree
  obtain ⟨hoff, -⟩ := not_or.mp hfree
  cases ht
  constructor
  · intro v k hk
    change k ∈ Function.update s.stack _ _ v at hk
    by_cases hv : v = s.current c
    · subst hv
      rw [Function.update_self] at hk
      rcases List.mem_cons.mp hk with rfl | hk
      · exact hg.1
      · exact hgs k hk
    · rw [Function.update_of_ne hv] at hk
      exact h.all v k hk
  · intro v hv k ks hk
    have hvu : v ≠ u := by
      rintro rfl
      exact hv ⟨c, Function.update_self ..⟩
    by_cases hvc : v = s.current c
    · subst hvc
      change Function.update s.stack _ _ _ = _ at hk
      rw [Function.update_self] at hk
      cases hk
      exact hg.2
    · change Function.update s.stack _ _ _ = _ at hk
      rw [Function.update_of_ne hvc] at hk
      refine h.waiting v ?_ k ks hk
      rintro ⟨d, hd⟩
      have hdc : d ≠ c := by
        rintro rfl
        exact hvc hd.symm
      exact hv ⟨d, (Function.update_of_ne hdc ..).trans hd⟩

omit [DecidableEq C] [DecidableEq L] in
theorem Kept.restack {o : Option (T × Option (SpinLocks.Code T L X))} (h : Kept Q R s)
    (ho : ∀ u is, o = some (u, some is) →
      Q ⟨is, .start, [K.ptable], 0, none⟩ ∧ R ⟨is, .start, [K.ptable], 0, none⟩)
    (ht : SpinLocks.restack s K.ptable o = .ok t) : Kept Q R t := by
  unfold SpinLocks.restack at ht
  split at ht
  · cases ht
    exact h
  · rename_i u code
    split at ht
    · cases ht
    cases ht
    have hfresh : ∀ g ∈ fresh K.ptable code, Q g ∧ R g := by
      intro g hg
      cases code with
      | none => cases hg
      | some is =>
        cases List.mem_singleton.mp hg
        exact ho u is rfl
    constructor
    · intro v k hk
      change k ∈ Function.update s.stack _ _ v at hk
      by_cases hv : v = u
      · subst hv
        rw [Function.update_self] at hk
        exact (hfresh k hk).1
      · rw [Function.update_of_ne hv] at hk
        exact h.all v k hk
    · intro v hv k ks hk
      by_cases hvu : v = u
      · subst hvu
        change Function.update s.stack _ _ _ = _ at hk
        rw [Function.update_self] at hk
        exact (hfresh k (hk ▸ List.mem_cons_self)).2
      · change Function.update s.stack _ _ _ = _ at hk
        rw [Function.update_of_ne hvu] at hk
        exact h.waiting v hv k ks hk

theorem step_kept (hQ : Keeps K Q R) (hl : SpinLocks.Invariant K s)
    (h : Kept Q R s) {e : SpinLocks.Event C L X} (ht : SpinLocks.step K s e = .ok t) :
    Kept Q R t := by
  have hcons : ∀ {c f fs}, s.stack (s.current c) = f :: fs → Q f ∧ ∀ g ∈ fs, Q g := by
    intro c f fs hstack
    exact List.forall_mem_cons.mp (hstack ▸ h.all (s.current c))
  cases e with
  | step c =>
    obtain ⟨f, fs, hstack, hrun, -⟩ := hl.running c
    obtain ⟨hf, hfs⟩ := hcons hstack
    simp only [SpinLocks.step, hstack] at ht
    cases execute_outcome ht with
    | spin lk is hc => exact h
    | move lock m f' hm =>
      exact h.put (t := { s with lock := lock }) rfl rfl
        (List.forall_mem_cons.mpr ⟨hQ.move f f' hm hf, hfs⟩)
    | leave b is _ hc hp ht => exact h.swtch (hQ.leave f b is hc hp hf) hfs ht
    | enter u is _ hc hp ht => exact h.swtch (hQ.enter f u is hc hp hf) hfs ht
    | op x is e _ hc hp he ht =>
      have htyped := hrun.typed hp
      rw [hc] at htyped
      have hput : Kept Q R ({ s with client := e.client }.put c (s.cpu c)
          (f.next (e.code ++ is) :: fs)) :=
        h.put (t := { s with client := e.client }) rfl rfl
          (List.forall_mem_cons.mpr ⟨hQ.op c x s.client e f is he hc hp htyped.1 hf, hfs⟩)
      exact hput.restack (fun u is hs => hQ.stack c x s.client e u is he hs) ht
  | call c r =>
    obtain ⟨f, fs, hstack, -⟩ := hl.running c
    obtain ⟨hf, hfs⟩ := hcons hstack
    simp only [SpinLocks.step, hstack] at ht
    split at ht
    · rename_i hr
      obtain ⟨hnil, hr⟩ := Bool.and_eq_true_iff.mp hr
      cases ht
      exact h.put rfl rfl (List.forall_mem_cons.mpr
        ⟨hQ.request _ _ f r (List.isEmpty_iff.mp hnil) hr hf, hfs⟩)
    · cases ht
  | interrupt c =>
    simp only [SpinLocks.step] at ht
    split at ht
    · cases ht
      exact h.put rfl rfl (List.forall_mem_cons.mpr ⟨hQ.handler, h.all _⟩)
    · cases ht
  | iret c =>
    obtain ⟨f, fs, hstack, -⟩ := hl.running c
    obtain ⟨-, hfs⟩ := hcons hstack
    simp only [SpinLocks.step, hstack] at ht
    cases fs with
    | nil => cases ht
    | cons g gs =>
      simp only at ht
      split at ht
      · cases ht
        exact h.put rfl rfl hfs
      · cases ht

omit [DecidableEq C] in
theorem initial_kept (hQ : Keeps K Q R) : Kept Q R (initial K) := by
  have hfresh : ∀ t, ∀ g ∈ fresh K.ptable (K.first t), Q g ∧ R g := by
    intro t g hg
    cases hfirst : K.first t with
    | none =>
      rw [hfirst] at hg
      cases hg
    | some is =>
      rw [hfirst] at hg
      cases List.mem_singleton.mp hg
      exact hQ.first t is hfirst
  constructor
  · intro t g hg
    by_cases ht : ∃ c, K.scheduler c = t
    · have hboot : (initial K).stack t = [⟨K.boot, .start, [], 0, none⟩] := if_pos ht
      rw [hboot] at hg
      cases List.mem_singleton.mp hg
      exact hQ.boot
    · have hfirst : (initial K).stack t = fresh K.ptable (K.first t) := if_neg ht
      rw [hfirst] at hg
      exact (hfresh t g hg).1
  · intro t ht g gs hg
    have hfirst : (initial K).stack t = fresh K.ptable (K.first t) := if_neg ht
    rw [hfirst] at hg
    exact (hfresh t g (hg ▸ List.mem_cons_self)).2

theorem reachable_kept (hK : K.Sound) (hQ : Keeps K Q R)
    (h : Reachable (SpinLocks.step K) (initial K) s) : Kept Q R s := by
  have hstep : ∀ s e t, Kept Q R s ∧ SpinLocks.Invariant K s → SpinLocks.step K s e = .ok t →
      Kept Q R t ∧ SpinLocks.Invariant K t := fun s e t hs ht =>
    ⟨step_kept hQ hs.2 hs.1 ht, step_invariant hK hs.2 ht⟩
  exact (GuardedRuns.reachable_invariant hstep ⟨initial_kept hQ, initial_invariant hK⟩ h).1

end Frames

/-! ### On the way to sleep -/

section Sleep

variable {C : Type} [DecidableEq C] [Fintype C]

/-- The code goes on to sleep with the lock lk. -/
def Mentions (lk : ℕ) (is : Scheduling.Code C) : Prop := ∃ chan, .op (.fallAsleep chan lk) ∈ is

def Holds (lk : ℕ) (ls : List Lock) : Prop := .other lk ∈ ls ∨ .ptable ∈ ls

def after (i : Instr (Thread C) Lock Op) (ls : List Lock) : List Lock :=
  match i with
  | .take l => l :: ls
  | .give l => ls.erase l
  | _ => ls

/-- The instructions that another thread may come after. -/
def Instr.hands : Instr (Thread C) Lock Op → Prop
  | .op _ | .switchBack | .switchTo _ => True
  | _ => False

/-- Until the code has slept with lk it holds lk or ptable.lock, and hands nothing over. -/
def Covers (lk : ℕ) : List Lock → Scheduling.Code C → Prop
  | _, [] => True
  | ls, i :: is => (Mentions lk (i :: is) → Holds lk ls) ∧ (Instr.hands i → ¬ Mentions lk is) ∧
    Covers lk (after i ls) is

def CoversFrame (lk : ℕ) (f : Frame C) : Prop :=
  match f.phase, f.code with
  | .taken, .take _ :: is => Covers lk f.locks is
  | _, is => Covers lk f.locks is

variable {lk : ℕ} {ls : List Lock} {i : Instr (Thread C) Lock Op} {is : Scheduling.Code C}
  {f : Frame C} {pages : FirstPages} {s : State C} {c : C} {p : ProcId}

omit [DecidableEq C] [Fintype C] in
theorem Mentions.cons (h : Mentions lk is) : Mentions lk (i :: is) := by
  obtain ⟨chan, h⟩ := h
  exact ⟨chan, List.mem_cons_of_mem _ h⟩

omit [DecidableEq C] [Fintype C] in
theorem mentions_cons (hi : ∀ x, i ≠ .op x) (h : Mentions lk (i :: is)) : Mentions lk is := by
  obtain ⟨chan, h⟩ := h
  exact ⟨chan, (List.mem_cons.mp h).resolve_left fun e => hi _ e.symm⟩

omit [DecidableEq C] [Fintype C] in
theorem mentions_append {js : Scheduling.Code C} :
    Mentions lk (is ++ js) ↔ Mentions lk is ∨ Mentions lk js := by
  simp only [Mentions, List.mem_append, exists_or]

omit [DecidableEq C] [Fintype C] in
theorem covers_holds (h : Covers lk ls is) (hm : Mentions lk is) : Holds lk ls := by
  cases is with
  | nil =>
    obtain ⟨chan, hm⟩ := hm
    cases hm
  | cons i is => exact h.1 hm

omit [DecidableEq C] [Fintype C] in
theorem covers_of_not (h : ¬ Mentions lk is) : Covers lk ls is := by
  induction is generalizing ls with
  | nil => trivial
  | cons i is ih =>
    have hn : ¬ Mentions lk is := fun hm => h hm.cons
    exact ⟨fun hm => absurd hm h, fun _ => hn, ih hn⟩

omit [DecidableEq C] [Fintype C] in
theorem coversFrame_iff (hp : f.phase ≠ .taken) : CoversFrame lk f ↔ Covers lk f.locks f.code := by
  unfold CoversFrame
  split
  · rename_i h _
    exact absurd h hp
  · exact Iff.rfl

omit [DecidableEq C] [Fintype C] in
theorem coversFrame_of_not (h : ¬ Mentions lk f.code) : CoversFrame lk f := by
  unfold CoversFrame
  split
  · rename_i l is _ hc
    rw [hc] at h
    exact covers_of_not fun hm => h hm.cons
  · exact covers_of_not h

omit [DecidableEq C] [Fintype C] in
theorem coversFrame_holds (h : CoversFrame lk f) (hm : Mentions lk f.code) :
    Holds lk f.locks := by
  unfold CoversFrame at h
  split at h
  · rename_i l is _ hc
    rw [hc] at hm
    exact covers_holds h (mentions_cons (by rintro x ⟨⟩) hm)
  · exact covers_holds h hm

omit [DecidableEq C] [Fintype C] in
theorem coversFrame_move {f' : Frame C} (hm : Move f f') (h : CoversFrame lk f) :
    CoversFrame lk f' := by
  have htaken : ∀ {ph : Phase}, ph.inside → ph ≠ .taken := by
    rintro ph hph rfl
    exact hph
  cases hm with
  | within i is hhead hi hcode hlocks hp hp' =>
    rw [coversFrame_iff (htaken hp'), hcode, hlocks]
    exact (coversFrame_iff (htaken hp)).mp h
  | past i hcode hi hp hpt hlocks hp' =>
    rw [coversFrame_iff (by simp [hp']), hlocks]
    cases i with
    | take l =>
      unfold CoversFrame at h
      rw [hpt l rfl, hcode] at h
      exact h
    | pushcli | popcli | sti | checkNcli | checkFlag | test l k =>
      unfold CoversFrame at h
      rw [hcode] at h
      split at h
      · rename_i heq
        cases heq
      · exact h.2.2
    | give l | switchBack | switchTo u | op x => exact hi.elim
  | take l is hhead hcode hp hlocks hp' =>
    have hold := (coversFrame_iff (by simp [hp])).mp h
    rw [hhead] at hold
    unfold CoversFrame
    rw [hp', hcode, hhead, hlocks]
    exact hold.2.2
  | give l hcode hp hlocks hp' =>
    have hold := (coversFrame_iff (by simp [hp])).mp h
    rw [hcode] at hold
    rw [coversFrame_iff (by simp [hp']), hlocks]
    exact hold.2.2
  | back e hcode hp hlocks hp' =>
    have hold := (coversFrame_iff (by simp [hp])).mp h
    rw [hcode] at hold
    rw [coversFrame_iff (by simp [hp']), hlocks]
    exact hold.2.2

omit [DecidableEq C] [Fintype C] in
theorem covers_cons (hh : ¬ Instr.hands i) (hls : Holds lk ls) (h : Covers lk (after i ls) is) :
    Covers lk ls (i :: is) := ⟨fun _ => hls, fun k => absurd k hh, h⟩

omit [DecidableEq C] [Fintype C] in
theorem covers_sleep {chan : ℕ} (h : ¬ Mentions lk is) :
    Covers lk [.other lk] (myproc ++ sleepWith chan lk ++ is) := by
  have hrest : ¬ Mentions lk (sched ++ .op .clearChan :: release .ptable ++
      acquire (.other lk) ++ is) := by
    rintro ⟨chan', hm⟩
    simp [sched, myproc, release, acquire] at hm
    exact h ⟨chan', hm⟩
  have hown : Holds lk [.other lk] := .inl List.mem_cons_self
  have hboth : Holds lk [.ptable, .other lk] := .inr List.mem_cons_self
  have htable : Holds lk ([Lock.ptable, .other lk].erase (.other lk)) := by
    refine .inr ?_
    simp
  have hsleep : Covers lk ([Lock.ptable, .other lk].erase (.other lk))
      (.op (.fallAsleep chan lk) :: (sched ++ .op .clearChan :: release .ptable ++
        acquire (.other lk) ++ is)) := ⟨fun _ => htable, fun _ => hrest, covers_of_not hrest⟩
  have hrelease : Covers lk [.ptable, .other lk] (release (.other lk) ++
      .op (.fallAsleep chan lk) :: (sched ++ .op .clearChan :: release .ptable ++
        acquire (.other lk) ++ is)) :=
    covers_cons id hboth (covers_cons id hboth (covers_cons id hboth (covers_cons id htable
      hsleep)))
  have hacquire := covers_cons (i := .pushcli) id hown (covers_cons (i := .pushcli) id hown
    (covers_cons (i := .test .ptable .acquire) id hown (covers_cons (i := .take .ptable) id hown
      hrelease)))
  unfold sleepWith
  simp only [List.append_assoc, List.cons_append] at hacquire ⊢
  exact covers_cons id hown (covers_cons id hown hacquire)

omit [DecidableEq C] [Fintype C] in
theorem mentions_acquire {l : Lock} : ¬ Mentions lk (acquire l : Scheduling.Code C) := by
  rintro ⟨chan, h⟩
  simp [acquire] at h

omit [DecidableEq C] [Fintype C] in
theorem mentions_release {l : Lock} : ¬ Mentions lk (release l : Scheduling.Code C) := by
  rintro ⟨chan, h⟩
  simp [release] at h

omit [DecidableEq C] [Fintype C] in
theorem mentions_sleepWith {chan lk' : ℕ}
    (h : Mentions lk (sleepWith chan lk' : Scheduling.Code C)) : lk' = lk := by
  obtain ⟨chan', h⟩ := h
  simp [sleepWith, sched, myproc, release, acquire] at h
  exact h.2.symm

omit [DecidableEq C] [Fintype C] in
theorem mentions_of_plain {k : Kernel C} {code : Scheduling.Code C} {e : Scheduling.Effect C}
    (he : plain k code = .ok e) (h : ¬ Mentions lk code) : ¬ Mentions lk e.code := by
  rw [plain_eq_ok he]
  exact h

omit [DecidableEq C] [Fintype C] in
theorem not_mentions_nil : ¬ Mentions lk ([] : Scheduling.Code C) := by
  rintro ⟨chan, hm⟩
  cases hm

theorem scan_mentions {ps : List ProcId} {k : Kernel C} {e : Scheduling.Effect C}
    (he : exec c (.scan ps) k = .ok e) : ¬ Mentions lk e.code := by
  cases ps with
  | nil =>
    refine mentions_of_plain he ?_
    rintro ⟨chan, hm⟩
    simp [release] at hm
  | cons p ps =>
    simp only [exec] at he
    split at he
    · refine mentions_of_plain he ?_
      rintro ⟨chan, hm⟩
      simp at hm
    · split at he
      · cases he
      · cases he
      · refine mentions_of_plain he ?_
        rintro ⟨chan, hm⟩
        simp at hm

theorem clock_mentions {k : Kernel C} {e : Scheduling.Effect C}
    (he : exec c .clock k = .ok e) : ¬ Mentions lk e.code := by
  simp only [exec] at he
  split at he
  · exact mentions_of_plain he not_mentions_nil
  · refine mentions_of_plain he ?_
    split
    · rintro ⟨chan, hm⟩
      simp [yield, sched, myproc, acquire, release] at hm
    · exact not_mentions_nil

theorem look_mentions {k : Kernel C} {e : Scheduling.Effect C}
    (he : exec c .look k = .ok e) : ¬ Mentions lk e.code := by
  obtain ⟨p, -, he⟩ := bind_eq_ok.mp he
  obtain ⟨t, -, he⟩ := bind_eq_ok.mp he
  split at he
  · unfold reap at he
    split at he
    · cases he
    · cases he
      exact mentions_release
  · refine mentions_of_plain he ?_
    split
    · rintro ⟨chan', hm⟩
      simp [sched, myproc] at hm
    · exact mentions_release

theorem alloc_mentions {kstack pgdir : ℕ} {k : Kernel C} {e : Scheduling.Effect C}
    (he : exec c (.alloc kstack pgdir) k = .ok e) : ¬ Mentions lk e.code := by
  obtain ⟨p, -, he⟩ := bind_eq_ok.mp he
  obtain ⟨t, -, he⟩ := bind_eq_ok.mp he
  refine mentions_of_plain he ?_
  split
  · rw [List.append_nil]
    exact mentions_release
  · rintro ⟨chan', hm⟩
    simp [release] at hm

theorem stack_mentions {kstack pgdir : ℕ} {k : Kernel C} {e : Scheduling.Effect C}
    (he : exec c (.stack kstack pgdir) k = .ok e) : ¬ Mentions lk e.code := by
  obtain ⟨p, -, he⟩ := bind_eq_ok.mp he
  obtain ⟨t, -, he⟩ := bind_eq_ok.mp he
  split at he
  · cases he
    rintro ⟨chan', hm⟩
    simp at hm
  · exact mentions_of_plain he not_mentions_nil

theorem memory_mentions {pgdir : ℕ} {k : Kernel C} {e : Scheduling.Effect C}
    (he : exec c (.memory pgdir) k = .ok e) : ¬ Mentions lk e.code := by
  obtain ⟨p, -, he⟩ := bind_eq_ok.mp he
  obtain ⟨t, -, he⟩ := bind_eq_ok.mp he
  split at he
  · refine mentions_of_plain he ?_
    rintro ⟨chan', hm⟩
    simp [acquire, release] at hm
  · cases he
    exact not_mentions_nil
  · exact mentions_of_plain he not_mentions_nil

/-- Only sleep goes on to sleep. -/
theorem exec_mentions {x : Op} {k : Kernel C} {e : Scheduling.Effect C}
    (he : exec c x k = .ok e) (hx : ∀ chan, x ≠ .sleep chan lk) : ¬ Mentions lk e.code := by
  cases x with
  | zombieExit => cases he
  | back =>
    exact mentions_of_plain he not_mentions_nil
  | scheduler =>
    refine mentions_of_plain he ?_
    rintro ⟨chan, hm⟩
    simp at hm
  | loop =>
    refine mentions_of_plain he ?_
    rintro ⟨chan, hm⟩
    simp [acquire] at hm
  | scan ps => exact scan_mentions he
  | clock => exact clock_mentions he
  | sleep chan lk' =>
    simp only [exec] at he
    split at he
    · cases he
    · refine mentions_of_plain he fun hm => ?_
      rcases mentions_append.mp hm with ⟨chan', hm⟩ | hm
      · simp [myproc] at hm
      · exact hx chan (mentions_sleepWith hm ▸ rfl)
  | wakeup chan | kill pid =>
    refine mentions_of_plain he ?_
    rintro ⟨chan', hm⟩
    simp [acquire, release] at hm
  | wait | fork kstack pgdir =>
    refine mentions_of_plain he ?_
    rintro ⟨chan', hm⟩
    simp [myproc, acquire] at hm
  | giveUp | clearChan =>
    obtain ⟨p, -, he⟩ := bind_eq_ok.mp he
    exact mentions_of_plain he not_mentions_nil
  | notRunning =>
    obtain ⟨p, -, he⟩ := bind_eq_ok.mp he
    split at he
    · cases he
    · exact mentions_of_plain he not_mentions_nil
  | wakeup1 chan =>
    obtain ⟨t, -, he⟩ := bind_eq_ok.mp he
    exact mentions_of_plain he not_mentions_nil
  | exit =>
    obtain ⟨p, -, he⟩ := bind_eq_ok.mp he
    split at he
    · cases he
    · refine mentions_of_plain he ?_
      rintro ⟨chan', hm⟩
      simp [sched, myproc, acquire] at hm
  | fallAsleep chan lk' | mark pid | die | ready =>
    obtain ⟨p, -, he⟩ := bind_eq_ok.mp he
    obtain ⟨t, -, he⟩ := bind_eq_ok.mp he
    exact mentions_of_plain he not_mentions_nil
  | look => exact look_mentions he
  | alloc kstack pgdir => exact alloc_mentions he
  | stack kstack pgdir => exact stack_mentions he
  | memory pgdir => exact memory_mentions he

omit [DecidableEq C] [Fintype C] in
theorem mentions_forkret : ¬ Mentions lk (forkret : Scheduling.Code C) := mentions_release

theorem request_mentions {r : Request Lock Op} {v : Thread C} {b : Bool}
    (hr : allowed (kernel pages) v b f r = true) :
    ¬ Mentions lk (r.code : Scheduling.Code C) := by
  cases r with
  | acquire l => exact mentions_acquire
  | release l => exact mentions_release
  | pushcli | popcli =>
    rintro ⟨chan, hm⟩
    simp [Request.code] at hm
  | op x =>
    rintro ⟨chan, hm⟩
    cases Instr.op.inj (List.mem_singleton.mp hm)
    have hx : entry v b (.fallAsleep chan lk) = true := (Bool.and_eq_true _ _ ▸ hr).2
    cases v <;> cases b <;> cases hx

theorem covers_kept (lk : ℕ) : Keeps (kernel (C := C) pages) (CoversFrame lk)
    (fun f => ¬ Mentions lk f.code) where
  move _ _ hm h := coversFrame_move hm h
  leave f e is hc hp h := by
    have hold := (coversFrame_iff (by simp [hp])).mp h
    have hn : ¬ Mentions lk f.code := by
      rw [hc] at hold ⊢
      exact fun hm => hold.2.1 trivial (mentions_cons (by rintro x ⟨⟩) hm)
    exact ⟨coversFrame_of_not hn, hn⟩
  enter f u is hc hp h := by
    have hold := (coversFrame_iff (by simp [hp])).mp h
    rw [hc] at hold
    exact ⟨coversFrame_of_not (hold.2.1 trivial), hold.2.1 trivial⟩
  op c x k e f is he hc hp hpre h := by
    have hold := (coversFrame_iff (by simp [hp])).mp h
    rw [hc] at hold
    have hrest := hold.2.1 trivial
    refine (coversFrame_iff (by simp [Frame.next])).mpr ?_
    by_cases hx : ∃ chan, x = .sleep chan lk
    · obtain ⟨chan, rfl⟩ := hx
      have hlocks : f.locks = [.other lk] := by
        have hpre : (decide (f.locks = [.other lk]) && decide (f.pushed = 0)) = true := hpre
        rw [Bool.and_eq_true, decide_eq_true_eq] at hpre
        exact hpre.1
      simp only [kernel, exec] at he
      split at he
      · cases he
      · cases plain_eq_ok he
        change Covers lk f.locks _
        rw [hlocks]
        exact covers_sleep hrest
    · refine covers_of_not fun hm => ?_
      rcases mentions_append.mp hm with hm | hm
      · exact exec_mentions he (fun chan e => hx ⟨chan, e⟩) hm
      · exact hrest hm
  stack c x k e t is he hs := by
    rw [exec_restacked he hs]
    exact ⟨coversFrame_of_not mentions_forkret, mentions_forkret⟩
  request _ _ f r _ hr _ := coversFrame_of_not (request_mentions hr)
  handler := trivial
  boot := by
    refine coversFrame_of_not ?_
    rintro ⟨chan, hm⟩
    simp [kernel] at hm
  first t is ht := by
    obtain rfl : is = forkret := by
      cases t with
      | sched c => cases ht
      | proc p =>
        change (if p = ProcessTable.initproc then some forkret else none) = some is at ht
        split at ht <;> cases ht
        rfl
    exact ⟨coversFrame_of_not mentions_forkret, mentions_forkret⟩

/-- The process is on its way from the call of sleep with lk to being asleep. -/
def fallingAsleep (s : State C) (p : ProcId) (lk : ℕ) : Prop :=
  ∃ f ∈ s.stack (.proc p), Mentions lk f.code

def asleepOn (s : State C) (p : ProcId) (chan : ℕ) : Prop :=
  (s.client.table.proc p).state = .sleeping ∧
    (s.client.table.proc p).chan = some (.other chan)

theorem not_falling (pages : FirstPages)
    (h : Reachable (SpinLocks.step (kernel pages)) (initial (kernel pages)) s)
    {chan : ℕ} {fs : List (Frame C)} (hstack : s.stack (s.current c) = f :: fs)
    (hp : f.phase = .start) (hc : f.code = .op (.wakeup1 chan) :: is)
    (hlk : .other lk ∈ s.held c) (p : ProcId) : ¬ fallingAsleep s p lk := by
  have hkept := reachable_kept (kernel_sound pages) (covers_kept lk) h
  have hl := SpinLocks.reachable_invariant (kernel_sound pages) h
  obtain ⟨f', fs', hstack', hrun, -⟩ := hl.running c
  rw [hstack] at hstack'
  cases hstack'
  have htyped := hrun.typed hp
  rw [hc] at htyped
  have htable : Lock.ptable ∈ s.held c := by
    rw [held_of_stack hstack]
    simpa [kernel, pre] using htyped.1
  rintro ⟨g, hg, hm⟩
  have hheld := coversFrame_holds (hkept.all _ g hg) hm
  by_cases hon : onCpu s (.proc p)
  · obtain ⟨d, hd⟩ := hon
    obtain ⟨k, ks, hk, -, hks⟩ := hl.running d
    rw [hd] at hk
    rw [hk] at hg
    rcases List.mem_cons.mp hg with rfl | hg
    · rw [← hd] at hk
      have hdc : d = c := by
        rcases hheld with hheld | hheld
        · exact hl.locks.unique _ _ _ (held_of_stack hk ▸ hheld) hlk
        · exact hl.locks.unique _ _ _ (held_of_stack hk ▸ hheld) htable
      subst hdc
      rw [hstack] at hk
      cases hk
      have hold := (coversFrame_iff (by simp [hp])).mp (hkept.all _ f (hstack ▸ List.mem_cons_self))
      rw [hc] at hold hm
      refine hold.2.1 trivial ?_
      obtain ⟨chan', hm⟩ := hm
      refine ⟨chan', (List.mem_cons.mp hm).resolve_left ?_⟩
      rintro ⟨⟩
    · rw [Holds, locks_of_depth (hks g hg).depth] at hheld
      rcases hheld with hheld | hheld <;> cases hheld
  · cases hk : s.stack (.proc p) with
    | nil =>
      rw [hk] at hg
      cases hg
    | cons k ks =>
      rw [hk] at hg
      rcases List.mem_cons.mp hg with rfl | hg
      · exact hkept.waiting _ hon g ks hk hm
      · obtain ⟨-, hks⟩ := hl.suspended _ hon k ks hk
        rw [Holds, locks_of_depth (hks g hg).depth] at hheld
        rcases hheld with hheld | hheld <;> cases hheld

omit [DecidableEq C] [Fintype C] in
theorem not_asleep {t : ProcessTable.PTable} {chan : Option ProcessTable.Chan} :
    ¬ (((ProcessTable.wakeup1 t chan).proc p).state = .sleeping ∧
      ((ProcessTable.wakeup1 t chan).proc p).chan = chan) := by
  simp only [ProcessTable.wakeup1]
  split
  · rintro ⟨h, -⟩
    cases h
  · assumption

/-- Where a processor runs the loop of wakeup with the lock lk held, no process is between the
call of sleep with lk and being asleep, and none stays asleep on the channel. -/
theorem wakeup_not_missed (pages : FirstPages) {t : State C}
    (h : Reachable (SpinLocks.step (kernel pages)) (initial (kernel pages)) s)
    {chan : ℕ} {fs : List (Frame C)} (hstack : s.stack (s.current c) = f :: fs)
    (hp : f.phase = .start) (hc : f.code = .op (.wakeup1 chan) :: is)
    (hlk : .other lk ∈ s.held c) (ht : SpinLocks.step (kernel pages) s (.step c) = .ok t)
    (p : ProcId) : ¬ fallingAsleep s p lk ∧ ¬ asleepOn t p chan := by
  refine ⟨not_falling pages h hstack hp hc hlk p, ?_⟩
  simp only [SpinLocks.step, hstack, execute, hc, hp] at ht
  obtain ⟨e, he, ht⟩ := bind_eq_ok.mp ht
  obtain ⟨u, hu, he⟩ := bind_eq_ok.mp he
  have hstep := tableOp_eq_ok hu
  cases hstep
  cases plain_state he ht
  exact not_asleep

/-- The child sleeps on channel 5 with lock 7. -/
def childSleeps : List (SpinLocks.Event (Fin 2) Lock Op) :=
  childRuns ++ .call cpu1 (.acquire (.other 7)) :: List.replicate 12 (.step cpu1) ++
    .call cpu1 (.op (.sleep 5 7)) :: List.replicate 117 (.step cpu1)

/-- Init takes lock 7 and has come to the loop of wakeup. -/
def initWakes : List (SpinLocks.Event (Fin 2) Lock Op) :=
  childSleeps ++ .call cpu0 (.acquire (.other 7)) :: List.replicate 12 (.step cpu0) ++
    .call cpu0 (.op (.wakeup 5)) :: List.replicate 13 (.step cpu0)

theorem wakeup_not_missed_child : ∃ s t,
    Reachable (SpinLocks.step twoKernels) (initial twoKernels) s ∧
    SpinLocks.step twoKernels s (.step cpu0) = .ok t ∧ asleepOn s 1 5 ∧
      ∀ p, ¬ fallingAsleep s p 7 ∧ ¬ asleepOn t p 5 := by
  obtain ⟨s, hs, hf⟩ := execution_of_map (SpinLocks.step twoKernels) (initial twoKernels)
    initWakes (fun s => (s.stack (s.current cpu0), (s.client.table.proc 1).state,
      (s.client.table.proc 1).chan, (SpinLocks.step twoKernels s (.step cpu0)).map fun _ => ()))
    (b := ([⟨.op (.wakeup1 5) :: release .ptable, .start, [.ptable, .other 7], 0, some true⟩],
      .sleeping, some (.other 5), .ok ())) (by decide +kernel)
  obtain ⟨hstack, hrest⟩ := Prod.mk.inj hf
  obtain ⟨hstate, hrest⟩ := Prod.mk.inj hrest
  obtain ⟨hchan, hstep⟩ := Prod.mk.inj hrest
  obtain ⟨t, ht, -⟩ := map_eq_ok.mp hstep
  refine ⟨s, t, ⟨_, hs⟩, ht, ⟨hstate, hchan⟩, ?_⟩
  have hheld : Lock.other 7 ∈ s.held cpu0 := by
    rw [held_of_stack hstack]
    decide
  exact wakeup_not_missed loaded ⟨_, hs⟩ hstack rfl rfl hheld ht

end Sleep

end SleepChannels
