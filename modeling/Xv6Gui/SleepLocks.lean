import Xv6Gui.WaitLoops
import Xv6Gui.WindowManagerState

/-!
# Sleep locks and the clock

acquiresleep and sys_sleep wait in a loop under a spin lock, for a lock that another process
holds and for ticks. A section under the spin lock is one step: sleep gives the spin lock up and
marks its process as asleep in one.
-/
namespace SleepLocks

open WindowManagerState (Fault)
open GuardedRuns WaitLoops

variable {P : Type} [DecidableEq P]

structure Sleeplock where
  locked : Bool
  pid : ℤ
  deriving DecidableEq, Repr

/-- Where a process is: in acquiresleep, between it and the release, in the test with
holdingsleep that comes before it, or in releasesleep. Whether the lock is its own is history. -/
inductive Call where
  | acquiresleep
  | held
  | holdingsleep (own : Bool)
  | releasesleep
  deriving DecidableEq, Repr

def holdingsleep (lk : Sleeplock) (pid : ℤ) : Bool := lk.locked && lk.pid = pid

/-- brelse, bwrite and iunlock panic, each with its own text, where holdingsleep says no. Here a
release follows the test, as in brelse and iunlock; bwrite leaves that to a later brelse. -/
def sleepLock (pid : P → ℤ) (text : String) : Monitor P Call Sleeplock ℤ Fault where
  turn p a _ lk :=
    match a with
    | .acquiresleep =>
      if lk.locked then .ok ⟨lk, some .acquiresleep, true, false, none⟩
      else .ok ⟨⟨true, pid p⟩, some .held, false, false, none⟩
    | .held => .ok ⟨lk, some (.holdingsleep true), false, false, none⟩
    | .holdingsleep _ =>
      if !holdingsleep lk (pid p) then .error (.panic text)
      else .ok ⟨lk, some .releasesleep, false, false, none⟩
    | .releasesleep => .ok ⟨⟨false, 0⟩, none, false, true, none⟩
  entry a := a = .acquiresleep || a = .holdingsleep false
  disabled := .diverges

def unlocked : Sleeplock := ⟨false, 0⟩

abbrev LockState (P : Type) := WaitLoops.State P Call Sleeplock ℤ

/-- The process has come back from acquiresleep and not yet released the lock. -/
def Holds (s : LockState P) (p : P) : Prop :=
  s.call p = some .held ∨ s.call p = some (.holdingsleep true) ∨ s.call p = some .releasesleep

structure LockInvariant (pid : P → ℤ) (s : LockState P) : Prop where
  unique : ∀ p q, Holds s p → Holds s q → p = q
  locked : s.data.locked = true ↔ ∃ p, Holds s p
  owner : ∀ p, Holds s p → s.data.pid = pid p

section Lock

variable {pid : P → ℤ} {text : String} {s t : LockState P} {p q : P}

omit [DecidableEq P] in
theorem holds_congr (h : t.call q = s.call q) : Holds t q ↔ Holds s q := by
  simp only [Holds, h]

omit [DecidableEq P] in
theorem sleepLock_fair : Fair (sleepLock pid text)
    (fun a lk => a = .acquiresleep ∧ lk.locked = true) where
  sleeps p a k lk o ho hs := by
    cases a with
    | acquiresleep =>
      simp only [sleepLock] at ho
      split at ho
      · rename_i hl
        cases ho
        exact ⟨.acquiresleep, rfl, rfl, hl⟩
      · cases ho
        cases hs
    | held | releasesleep =>
      cases ho
      cases hs
    | holdingsleep own =>
      simp only [sleepLock] at ho
      split at ho <;> cases ho
      cases hs
  wakes p a k lk o b ho hw hb := by
    refine ⟨hb.1, ?_⟩
    cases a with
    | acquiresleep =>
      simp only [sleepLock, hb.2] at ho
      cases ho
      exact hb.2
    | held =>
      cases ho
      exact hb.2
    | releasesleep =>
      cases ho
      cases hw
    | holdingsleep own =>
      simp only [sleepLock] at ho
      split at ho <;> cases ho
      exact hb.2

omit [DecidableEq P] in
/-- A step that changes neither the lock nor who holds it. -/
theorem LockInvariant.same (h : LockInvariant pid s) (hdata : t.data = s.data)
    (hholds : ∀ q, Holds t q ↔ Holds s q) : LockInvariant pid t := by
  refine ⟨fun p q hp hq => ?_, ?_, fun p hp => ?_⟩
  · exact h.unique p q ((hholds p).mp hp) ((hholds q).mp hq)
  · rw [hdata, h.locked]
    exact exists_congr fun q => (hholds q).symm
  · rw [hdata]
    exact h.owner p ((hholds p).mp hp)

theorem run_invariant (h : LockInvariant pid s) {a : Call} (ha : s.call p = some a)
    {o : Turn Call Sleeplock ℤ}
    (ho : (sleepLock pid text).turn p a (s.killed p) s.data = .ok o)
    (hpid : Function.Injective pid) : LockInvariant pid (s.leave p o) := by
  have hother : ∀ q, q ≠ p → (Holds (s.leave p o) q ↔ Holds s q) :=
    fun q hq => holds_congr (leave_call_of_ne hq)
  have hsame : o.data = s.data → (Holds (s.leave p o) p ↔ Holds s p) →
      LockInvariant pid (s.leave p o) := by
    intro hdata hp
    refine h.same hdata fun q => ?_
    by_cases hq : q = p
    · exact hq ▸ hp
    · exact hother q hq
  cases a with
  | acquiresleep =>
    have hnot : ¬ Holds s p := by
      simp [Holds, ha]
    simp only [sleepLock] at ho
    split at ho
    · cases ho
      refine hsame rfl (iff_of_false ?_ hnot)
      simp [Holds, leave_call_self]
    · rename_i hfree
      cases ho
      have hnone : ∀ q, ¬ Holds s q := fun q hq => hfree (h.locked.mpr ⟨q, hq⟩)
      have hself : ∀ q, Holds (s.leave p ⟨⟨true, pid p⟩, some .held, false, false, none⟩) q →
          q = p := by
        intro q hq
        by_contra hne
        exact hnone q ((hother q hne).mp hq)
      refine ⟨fun q q' hq hq' => (hself q hq).trans (hself q' hq').symm, ?_, ?_⟩
      · exact iff_of_true rfl ⟨p, .inl leave_call_self⟩
      · rintro q hq
        rw [hself q hq]
        rfl
  | held =>
    cases ho
    refine hsame rfl (iff_of_true (.inr (.inl leave_call_self)) (.inl ha))
  | holdingsleep own =>
    simp only [sleepLock] at ho
    split at ho
    · cases ho
    · rename_i hh
      cases ho
      have hp : Holds s p := by
        simp only [holdingsleep, Bool.not_eq_true', Bool.not_eq_false, Bool.and_eq_true,
          decide_eq_true_eq] at hh
        obtain ⟨q, hq⟩ := h.locked.mp hh.1
        have := (h.owner q hq).symm.trans hh.2
        exact hpid this ▸ hq
      exact hsame rfl (iff_of_true (.inr (.inr leave_call_self)) hp)
  | releasesleep =>
    cases ho
    have hp : Holds s p := .inr (.inr ha)
    have hnone : ∀ q, ¬ Holds (s.leave p ⟨⟨false, 0⟩, none, false, true, none⟩) q := by
      intro q hq
      by_cases hqp : q = p
      · subst hqp
        simp [Holds, leave_call_self] at hq
      · exact hqp (h.unique q p ((hother q hqp).mp hq) hp)
    refine ⟨fun q _ hq => absurd hq (hnone q), ?_, fun q hq => absurd hq (hnone q)⟩
    exact iff_of_false nofun fun ⟨q, hq⟩ => hnone q hq

theorem step_lockInvariant (hpid : Function.Injective pid) (h : LockInvariant pid s)
    {e : WaitLoops.Event P Call} (ht : step (sleepLock pid text) s e = .ok t) :
    LockInvariant pid t := by
  cases e with
  | begin p a =>
    obtain ⟨hn, he, rfl⟩ := begin_eq_ok ht
    refine h.same rfl fun q => ?_
    by_cases hq : q = p
    · subst hq
      have hentry : a = .acquiresleep ∨ a = .holdingsleep false := by
        simpa [sleepLock] using he
      refine iff_of_false ?_ ?_
      · rcases hentry with rfl | rfl <;> simp [Holds]
      · simp [Holds, hn]
    · exact holds_congr (Function.update_of_ne hq ..)
  | run p =>
    obtain ⟨a, o, ha, -, ho, rfl⟩ := run_eq_ok ht
    exact run_invariant h ha ho hpid
  | kill p =>
    cases ht
    exact h.same rfl fun q => Iff.rfl

theorem reachable_lockInvariant (hpid : Function.Injective pid)
    (h : Reachable (step (sleepLock pid text)) (start P Call ℤ unlocked) s) :
    LockInvariant pid s := by
  refine reachable_invariant (fun _ _ _ h ht => step_lockInvariant hpid h ht) ?_ h
  have hnone : ∀ q, ¬ Holds (start P Call ℤ unlocked) q := by
    simp [Holds, start]
  exact ⟨fun q _ hq => absurd hq (hnone q), iff_of_false nofun fun ⟨q, hq⟩ => hnone q hq,
    fun q hq => absurd hq (hnone q)⟩

/-- At most one process is between acquiresleep and releasesleep, whoever else sleeps, wakes up
or is killed; the two fields tell whether there is one and, since no two have the same pid, which,
so the test before a release panics exactly where the lock is not the caller's; and whoever sleeps
waits for a holder. -/
theorem sleep_lock_exact (pid : P → ℤ) (hpid : Function.Injective pid) (text : String)
    {s : LockState P} (h : Reachable (step (sleepLock pid text)) (start P Call ℤ unlocked) s) :
    (∀ p q, Holds s p → Holds s q → p = q) ∧
      (s.data.locked = true ↔ ∃ p, Holds s p) ∧
      (∀ p, Holds s p → s.data = ⟨true, pid p⟩) ∧
      (∀ p own, s.call p = some (.holdingsleep own) →
        (step (sleepLock pid text) s (.run p) = .error (.panic text) ↔ own = false)) ∧
      ∀ p, s.asleep p = true → s.call p = some .acquiresleep ∧ ∃ q, Holds s q := by
  have hinv := reachable_lockInvariant hpid h
  have hrested := reachable_rested sleepLock_fair h
  have hdata : ∀ p, Holds s p → s.data = ⟨true, pid p⟩ := fun p hp =>
    congrArg₂ Sleeplock.mk (hinv.locked.mpr ⟨p, hp⟩) (hinv.owner p hp)
  refine ⟨hinv.unique, hinv.locked, hdata, fun p own hp => ?_, fun p hp => ?_⟩
  · have hawake : s.asleep p = false := by
      by_contra hs
      obtain ⟨a, ha, rfl, -⟩ := hrested p (by simpa using hs)
      rw [hp] at ha
      cases ha
    have hstep : step (sleepLock pid text) s (.run p) = .error (.panic text) ↔
        holdingsleep s.data (pid p) = false := by
      simp only [step, hp, hawake, sleepLock]
      cases holdingsleep s.data (pid p) <;> simp
    rw [hstep]
    cases own with
    | true =>
      rw [hdata p (.inr (.inl hp))]
      simp [holdingsleep]
    | false =>
      refine iff_of_true ?_ rfl
      by_contra hh
      simp only [holdingsleep, Bool.not_eq_false, Bool.and_eq_true, decide_eq_true_eq] at hh
      obtain ⟨q, hq⟩ := hinv.locked.mp hh.1
      have hqp : q = p := hpid ((hinv.owner q hq).symm.trans hh.2)
      subst hqp
      simp [Holds, hp] at hq
  · obtain ⟨a, ha, rfl, hlocked⟩ := hrested p hp
    exact ⟨ha, hinv.locked.mp hlocked⟩

theorem sleep_lock_exact_waits : ∃ s,
    Reachable (step (sleepLock (P := Fin 2) (fun p => p.val) "brelse")) (start _ _ _ unlocked) s ∧
    s.asleep 1 = true ∧ s.data = ⟨true, 0⟩ ∧ ∃ q, Holds s q := by
  have hpid : Function.Injective fun p : Fin 2 => (p.val : ℤ) := fun p q h =>
    Fin.ext (Int.ofNat.inj h)
  obtain ⟨s, hs, hf⟩ := execution_of_map (step (sleepLock (fun p : Fin 2 => (p.val : ℤ)) "brelse"))
    (start _ _ _ unlocked)
    [.begin 0 .acquiresleep, .begin 1 .acquiresleep, .run 0, .run 1]
    (fun s => (s.asleep 1, s.call 0)) (b := (true, some .held)) (by decide +kernel)
  obtain ⟨hasleep, hheld⟩ := Prod.mk.inj hf
  obtain ⟨-, -, hdata, -, hwaits⟩ := sleep_lock_exact _ hpid "brelse" ⟨_, hs⟩
  exact ⟨s, ⟨_, hs⟩, hasleep, hdata 0 (.inl hheld), (hwaits 1 hasleep).2⟩

end Lock

/-! ### sys_sleep -/

/-- The number of ticks since the start, without a bound, is history. -/
structure Clock where
  ticks : BitVec 32
  count : ℕ
  deriving DecidableEq, Repr

/-- The clock's handler, and sys_sleep(n) before and after its first test; the count at the
first test is history. -/
inductive TimeCall where
  | tick
  | sleep (n : ℤ)
  | waiting (n : ℤ) (ticks0 : BitVec 32) (began : ℕ)
  deriving DecidableEq, Repr

/-- The loop of sys_sleep, whose test is on unsigned numbers. -/
def sleepLoop (killed : Bool) (d : Clock) (n : ℤ) (ticks0 : BitVec 32) (began : ℕ) :
    Turn TimeCall Clock ℤ :=
  if d.ticks - ticks0 < BitVec.ofInt 32 n then
    if killed then ⟨d, none, false, false, some (-1)⟩
    else ⟨d, some (.waiting n ticks0 began), true, false, none⟩
  else ⟨d, none, false, false, some 0⟩

/-- A section of sys_sleep or of the clock's handler under tickslock is one step. A kill comes
before or after it, although kill does not take tickslock: the section reads the flag once. -/
def sysSleep (P : Type) : Monitor P TimeCall Clock ℤ Fault where
  turn _ a killed d :=
    match a with
    | .tick => .ok ⟨⟨d.ticks + 1, d.count + 1⟩, none, false, true, none⟩
    | .sleep n => .ok (sleepLoop killed d n d.ticks d.count)
    | .waiting n ticks0 began => .ok (sleepLoop killed d n ticks0 began)
  entry
    | .tick | .sleep _ => true
    | .waiting _ _ _ => false
  disabled := .diverges

abbrev TimeState (P : Type) := WaitLoops.State P TimeCall Clock ℤ

/-- A call of sys_sleep(n) that began at a tick. -/
def Sleeps (s : TimeState P) (p : P) (n : ℤ) (began : ℕ) : Prop :=
  (s.call p = some (.sleep n) ∧ began = s.data.count) ∨
    ∃ ticks0, s.call p = some (.waiting n ticks0 began)

/-- The time for which sys_sleep(n) sleeps: a negative n stands for a large number. -/
def duration (n : ℤ) : ℕ := (n % 4294967296).toNat

structure TimeInvariant (s : TimeState P) : Prop where
  ticks : s.data.ticks = BitVec.ofNat 32 s.data.count
  began : ∀ p n ticks0 began, s.call p = some (.waiting n ticks0 began) →
    ticks0 = BitVec.ofNat 32 began ∧ began ≤ s.data.count

section Time

variable {s t : TimeState P} {p : P} {n : ℤ} {began : ℕ}

theorem elapsed_lt {d : Clock} (hd : d.ticks = BitVec.ofNat 32 d.count) (hb : began ≤ d.count) :
    d.ticks - BitVec.ofNat 32 began < BitVec.ofInt 32 n ↔
      (d.count - began) % 4294967296 < duration n := by
  rw [hd, BitVec.lt_def, BitVec.toNat_sub, BitVec.toNat_ofNat, BitVec.toNat_ofNat,
    BitVec.toNat_ofInt]
  unfold duration
  omega

theorem sleepLoop_fair {k : Bool} {d : Clock} {ticks0 : BitVec 32} {o : Turn TimeCall Clock ℤ}
    (ho : sleepLoop k d n ticks0 began = o) : o.data = d ∧ o.wakes = false ∧
      (o.asleep = true → o.call = some (.waiting n ticks0 began) ∧
        d.ticks - ticks0 < BitVec.ofInt 32 n) := by
  unfold sleepLoop at ho
  split at ho
  · rename_i hlt
    split at ho <;> subst ho
    · exact ⟨rfl, rfl, nofun⟩
    · exact ⟨rfl, rfl, fun _ => ⟨rfl, hlt⟩⟩
  · subst ho
    exact ⟨rfl, rfl, nofun⟩

/-- Whoever sleeps has time left. -/
def Early (a : TimeCall) (d : Clock) : Prop :=
  ∃ n ticks0 began, a = .waiting n ticks0 began ∧ d.ticks - ticks0 < BitVec.ofInt 32 n

omit [DecidableEq P] in
theorem sysSleep_fair : Fair (sysSleep P) Early where
  sleeps p a k d o ho hs := by
    cases a with
    | tick =>
      cases ho
      cases hs
    | sleep n =>
      obtain ⟨hd, -, hcall⟩ := sleepLoop_fair (Except.ok.inj ho)
      obtain ⟨hcall, hlt⟩ := hcall hs
      exact ⟨_, hcall, n, _, _, rfl, hd ▸ hlt⟩
    | waiting n ticks0 began =>
      obtain ⟨hd, -, hcall⟩ := sleepLoop_fair (Except.ok.inj ho)
      obtain ⟨hcall, hlt⟩ := hcall hs
      exact ⟨_, hcall, n, _, _, rfl, hd ▸ hlt⟩
  wakes p a k d o b ho hw hb := by
    cases a with
    | tick =>
      cases ho
      cases hw
    | sleep n =>
      rw [(sleepLoop_fair (Except.ok.inj ho)).1]
      exact hb
    | waiting n ticks0 began =>
      rw [(sleepLoop_fair (Except.ok.inj ho)).1]
      exact hb

theorem leave_timeInvariant (h : TimeInvariant s) {o : Turn TimeCall Clock ℤ}
    (hd : o.data.ticks = BitVec.ofNat 32 o.data.count) (hc : s.data.count ≤ o.data.count)
    (hcall : ∀ n ticks0 began, o.call = some (.waiting n ticks0 began) →
      ticks0 = BitVec.ofNat 32 began ∧ began ≤ o.data.count) : TimeInvariant (s.leave p o) := by
  refine ⟨hd, fun q n ticks0 began hq => ?_⟩
  by_cases hqp : q = p
  · subst hqp
    exact hcall n ticks0 began (leave_call_self.symm.trans hq)
  · obtain ⟨h0, hb⟩ := h.began q n ticks0 began ((leave_call_of_ne hqp).symm.trans hq)
    exact ⟨h0, hb.trans hc⟩

theorem loop_timeInvariant (h : TimeInvariant s) {k : Bool} {ticks0 : BitVec 32}
    (h0 : ticks0 = BitVec.ofNat 32 began) (hb : began ≤ s.data.count) :
    TimeInvariant (s.leave p (sleepLoop k s.data n ticks0 began)) := by
  have hdata : (sleepLoop k s.data n ticks0 began).data = s.data := (sleepLoop_fair rfl).1
  refine leave_timeInvariant h (by rw [hdata]; exact h.ticks) (by rw [hdata]) ?_
  intro n' t' b' hc
  rw [hdata]
  unfold sleepLoop at hc
  split at hc
  · split at hc <;> cases hc
    exact ⟨h0, hb⟩
  · cases hc

theorem step_timeInvariant (h : TimeInvariant s) {e : WaitLoops.Event P TimeCall}
    (ht : step (sysSleep P) s e = .ok t) : TimeInvariant t := by
  cases e with
  | begin p a =>
    obtain ⟨-, he, rfl⟩ := begin_eq_ok ht
    refine ⟨h.ticks, fun q n ticks0 began hq => ?_⟩
    change Function.update s.call p (some a) q = _ at hq
    by_cases hqp : q = p
    · subst hqp
      rw [Function.update_self] at hq
      cases hq
      cases he
    · rw [Function.update_of_ne hqp] at hq
      exact h.began q n ticks0 began hq
  | run p =>
    obtain ⟨a, o, ha, -, ho, rfl⟩ := run_eq_ok ht
    cases a with
    | tick =>
      cases ho
      refine leave_timeInvariant h ?_ (Nat.le_succ _) nofun
      change s.data.ticks + 1 = BitVec.ofNat 32 (s.data.count + 1)
      rw [h.ticks, BitVec.ofNat_add]
      rfl
    | sleep n =>
      cases ho
      exact loop_timeInvariant h h.ticks le_rfl
    | waiting n ticks0 began =>
      cases ho
      obtain ⟨h0, hb⟩ := h.began p n ticks0 began ha
      exact loop_timeInvariant h h0 hb
  | kill p =>
    cases ht
    exact ⟨h.ticks, h.began⟩

theorem reachable_timeInvariant
    (h : Reachable (step (sysSleep P)) (start P TimeCall ℤ ⟨0, 0⟩) s) : TimeInvariant s := by
  refine reachable_invariant (fun _ _ _ h ht => step_timeInvariant h ht) ?_ h
  refine ⟨rfl, fun p n ticks0 began hp => ?_⟩
  cases hp

/-- In every run of sleepers and clock ticks, past the point where the counter wraps: nobody
sleeps whose time is up, and a section of sys_sleep(n) returns 0 where n ticks, counted modulo
2^32, have come since it began, -1 where they have not and the process has been killed, and
else puts it to sleep. -/
theorem sys_sleep_exact {s t : TimeState P}
    (h : Reachable (step (sysSleep P)) (start P TimeCall ℤ ⟨0, 0⟩) s) :
    (∀ p, s.asleep p = true → ∃ n began, Sleeps s p n began ∧
      (s.data.count - began) % 4294967296 < duration n) ∧
    ∀ p n began, Sleeps s p n began → step (sysSleep P) s (.run p) = .ok t →
      (t.returned p = some 0 ↔ duration n ≤ (s.data.count - began) % 4294967296) ∧
      (t.returned p = some (-1) ↔
        (s.data.count - began) % 4294967296 < duration n ∧ s.killed p = true) ∧
      (t.asleep p = true ↔
        (s.data.count - began) % 4294967296 < duration n ∧ s.killed p = false) := by
  have hinv := reachable_timeInvariant h
  constructor
  · intro p hp
    obtain ⟨a, ha, n, ticks0, began, rfl, hlt⟩ := reachable_rested sysSleep_fair h p hp
    obtain ⟨rfl, hb⟩ := hinv.began p n ticks0 began ha
    exact ⟨n, began, .inr ⟨_, ha⟩, (elapsed_lt hinv.ticks hb).mp hlt⟩
  · intro p n began hp ht
    obtain ⟨a, o, ha, -, ho, rfl⟩ := run_eq_ok ht
    obtain ⟨hb, hloop⟩ : began ≤ s.data.count ∧
        o = sleepLoop (s.killed p) s.data n (BitVec.ofNat 32 began) began := by
      rcases hp with ⟨hp, rfl⟩ | ⟨ticks0, hp⟩
      · cases ha.symm.trans hp
        cases ho
        exact ⟨le_rfl, by rw [hinv.ticks]⟩
      · cases ha.symm.trans hp
        cases ho
        obtain ⟨rfl, hb⟩ := hinv.began p n ticks0 began hp
        exact ⟨hb, rfl⟩
    have hret : (s.leave p o).returned p = o.result := Function.update_self ..
    have hasleep : (s.leave p o).asleep p = o.asleep := if_pos rfl
    rw [hret, hasleep, hloop, ← not_lt, ← elapsed_lt hinv.ticks hb]
    unfold sleepLoop
    by_cases hlt : s.data.ticks - BitVec.ofNat 32 began < BitVec.ofInt 32 n
    · cases s.killed p <;> simp [hlt]
    · simp [hlt]

theorem sys_sleep_exact_negative : ∃ s t, Reachable (step (sysSleep (Fin 2)))
      (start (Fin 2) TimeCall ℤ ⟨0, 0⟩) s ∧
    step (sysSleep (Fin 2)) s (.run 0) = .ok t ∧ s.data.count = 1 ∧ t.asleep 0 = true := by
  obtain ⟨s, hs, hf⟩ := execution_of_map (step (sysSleep (Fin 2)))
    (start (Fin 2) TimeCall ℤ ⟨0, 0⟩)
    [.begin 0 (.sleep (-1)), .run 0, .begin 1 .tick, .run 1]
    (fun s => (s.call 0, s.data.count, s.killed 0, s.asleep 0)) (b := (some (.waiting (-1) 0 0), 1,
      false, false)) (by decide +kernel)
  obtain ⟨hcall, hrest⟩ := Prod.mk.inj hf
  obtain ⟨hcount, hrest⟩ := Prod.mk.inj hrest
  obtain ⟨hkilled, hawake⟩ := Prod.mk.inj hrest
  obtain ⟨t, ht⟩ : ∃ t, step (sysSleep (Fin 2)) s (.run 0) = .ok t := by
    simp only [step, hcall, hawake, sysSleep]
    exact ⟨_, rfl⟩
  refine ⟨s, t, ⟨_, hs⟩, ht, hcount, ?_⟩
  refine ((sys_sleep_exact ⟨_, hs⟩).2 0 (-1) 0 (.inr ⟨_, hcall⟩) ht).2.2.mpr ⟨?_, hkilled⟩
  rw [hcount]
  decide

end Time

end SleepLocks
