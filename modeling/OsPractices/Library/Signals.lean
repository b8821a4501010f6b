import OsPractices.Library.Progress

/-!
# Threads that wait for a signal

Programs in which one thread raises the flag and wakes those that wait for it. The
others print only after that thread has left its section, and none is left asleep.
-/

set_option autoImplicit false

namespace OsPractices.Library

variable {Thread Text : Type} {program : Thread → Code Thread Text} {main last : Thread}
  {machine next : Machine Thread Text} {choice : Choice Thread} {output : Output Thread Text}

/-- One thread raises the flag at the end of its section and broadcasts after that; the
others wait for it. The main thread creates them, and alone waits for their end. -/
structure Signals (program : Thread → Code Thread Text) (main last : Thread) : Prop where
  disciplined : Disciplined program main
  raiser : ∀ thread, .raise ∈ program thread → thread = last
  raises : .raise ∈ program last
  once : ∀ rest, .raise :: rest <:+ program last →
    .raise ∉ rest ∧ .broadcast ∈ rest ∧ prints rest = []
  speaks : prints (program last) ≠ []
  waits : ∀ thread, thread ≠ last → (∃ instr ∈ program thread, instr.quiet = false) →
    .await ∈ program thread
  awake : .await ∉ program last ∧ .await ∉ program main
  unparked : ∀ thread, .arrive ∉ program thread
  children : ∀ thread, thread ≠ main → thread ∈ creates (program main)
  joins : ∀ thread other rest, .join other :: rest <:+ program thread →
    thread = main ∧ other ≠ main ∧ creates rest = []
  apart : last ≠ main

/-- Whoever sleeps will be woken, and whoever has passed has seen the flag raised. -/
structure Machine.Signalled (program : Thread → Code Thread Text) (last : Thread)
    (machine : Machine Thread Text) : Prop where
  raised : machine.flag = false ↔ .raise ∈ machine.left program last
  asleep : ∀ thread code, machine.status thread = .asleep code →
    .broadcast ∈ machine.left program last
  passed : ∀ thread, .await ∈ program thread → .await ∉ machine.left program thread →
    machine.flag = true

theorem asleep_release {status : Status Thread Text} {code : Code Thread Text}
    (asleep : status.release = .asleep code) : status = .asleep code := by
  cases status <;> first | exact asleep | cases asleep

theorem not_asleep_rouse (status : Status Thread Text) (code : Code Thread Text) :
    status.rouse ≠ .asleep code := by
  cases status <;> simp [Status.rouse]

/-- Before it raises the flag, the thread has the broadcast still before it. -/
theorem Signals.broadcast_of_raise (signals : Signals program main last)
    (valid : machine.Valid program) (raise : .raise ∈ machine.left program last) :
    .broadcast ∈ machine.left program last := by
  obtain ⟨front, rest, same⟩ := List.append_of_mem raise
  have suffix : .raise :: rest <:+ machine.left program last := ⟨front, same.symm⟩
  have later := (signals.once rest (suffix.trans (valid.suffix last))).2.1
  exact suffix.mem (List.mem_cons_of_mem _ later)

/-- When it has raised the flag, it has printed all that it prints. -/
theorem Signals.prints_of_raised (signals : Signals program main last)
    {rest : Code Thread Text} (suffix : rest <:+ program last) (raised : .raise ∉ rest) :
    prints rest = [] := by
  obtain ⟨front, after, whole⟩ := List.append_of_mem signals.raises
  have own : .raise :: after <:+ program last := ⟨front, whole.symm⟩
  have none := (signals.once after own).2.2
  rcases List.suffix_or_suffix_of_suffix suffix own with shorter | longer
  · rcases List.suffix_cons_iff.mp shorter with rfl | ⟨gone, rfl⟩
    · exact absurd List.mem_cons_self raised
    · rw [prints_append] at none
      exact (List.append_eq_nil_iff.mp none).2
  · exact absurd (longer.mem List.mem_cons_self) raised

/-! ## What a step does to the flag -/

/-- A thread does its next instruction. -/
structure Does (program : Thread → Code Thread Text) (machine next : Machine Thread Text)
    (thread : Thread) (instr : Instr Thread Text) : Prop where
  left : machine.left program thread = instr :: next.left program thread
  flag : next.flag = true ↔ machine.flag = true ∨ instr = .raise
  pass : instr = .await → machine.flag = true
  asleep : ∀ other code, next.status other = .asleep code →
    machine.status other = .asleep code ∧ instr ≠ .broadcast

theorem Does.suffix {thread : Thread} {instr : Instr Thread Text}
    (does : Does program machine next thread instr) (valid : machine.Valid program) :
    instr :: next.left program thread <:+ program thread := by
  rw [← does.left]
  exact valid.suffix thread

/-- A thread goes to sleep, or comes back from it. -/
structure Stays (program : Thread → Code Thread Text) (machine next : Machine Thread Text)
    (thread : Thread) : Prop where
  left : next.left program thread = machine.left program thread
  flag : next.flag = machine.flag
  asleep : ∀ other code, next.status other = .asleep code →
    machine.status other = .asleep code ∨ machine.flag = false

variable [DecidableEq Thread]

theorem asleep_set {thread other : Thread} {status : Status Thread Text} {code : Code Thread Text}
    (awake : ∀ code, status ≠ .asleep code)
    (asleep : (machine.set thread status).status other = .asleep code) :
    machine.status other = .asleep code := by
  by_cases same : other = thread
  · subst same
    rw [Machine.set_status_self] at asleep
    exact absurd asleep (awake code)
  · rwa [Machine.set_status_of_ne _ _ same] at asleep

/-- No step puts a thread to sleep, but one at which the thread itself waits. -/
theorem Spreads.asleep {thread other : Thread} {status : Status Thread Text}
    {code : Code Thread Text} (spreads : Spreads program machine thread status next.status)
    (awake : ∀ code, status ≠ .asleep code) (asleep : next.status other = .asleep code) :
    machine.status other = .asleep code := by
  generalize next.status = statuses at spreads asleep
  cases spreads with
  | alone _ => exact asleep_set awake asleep
  | release _ => exact asleep_set awake (asleep_release asleep)
  | rouse _ _ => exact absurd asleep (not_asleep_rouse _ _)
  | create _ _ => exact asleep_set awake (asleep_set (by simp) asleep)

theorem Effect.does (valid : machine.Valid program)
    (effect : Effect program machine choice next output) :
    ∃ thread, (∀ other, other ≠ thread → next.left program other = machine.left program other) ∧
      ((∃ instr, Does program machine next thread instr) ∨ Stays program machine next thread) := by
  -- the step leaves the other threads where they are in their code
  have goes {thread : Thread} {instr : Instr Thread Text} {status : Status Thread Text}
      {code : Code Thread Text} (at_ : machine.status thread = .running (instr :: code))
      (spreads : Spreads program machine thread status next.status)
      (isCode : status.left (program thread) = code) (awake : ∀ code, status ≠ .asleep code)
      (flag : next.flag = true ↔ machine.flag = true ∨ instr = .raise)
      (pass : instr = .await → machine.flag = true)
      (rouse : ∀ other code, next.status other = .asleep code → instr ≠ .broadcast) :
      ∃ thread, (∀ other, other ≠ thread → next.left program other = machine.left program other) ∧
        ((∃ instr, Does program machine next thread instr) ∨
          Stays program machine next thread) := by
    obtain ⟨own, others⟩ := spreads.left valid
    refine ⟨thread, others, .inl ⟨instr, ?_, flag, pass, fun other code asleep =>
      ⟨spreads.asleep awake asleep, rouse other code asleep⟩⟩⟩
    rw [left_of_status at_, own, isCode]
    rfl
  have stays {thread : Thread} {status : Status Thread Text}
      (spreads : Spreads program machine thread status next.status)
      (same : status.left (program thread) = machine.left program thread)
      (flag : next.flag = machine.flag)
      (asleep : ∀ other code, next.status other = .asleep code →
        machine.status other = .asleep code ∨ machine.flag = false) :
      ∃ thread, (∀ other, other ≠ thread → next.left program other = machine.left program other) ∧
        ((∃ instr, Does program machine next thread instr) ∨
          Stays program machine next thread) := by
    obtain ⟨own, others⟩ := spreads.left valid
    exact ⟨thread, others, .inr ⟨own.trans same, flag, asleep⟩⟩
  cases effect with
  | full at_ _ => exact goes at_ (.release at_) rfl (by simp) (by simp) (by simp) (by simp)
  | pass at_ raised =>
      exact goes at_ (.alone (by simp [at_])) rfl (by simp) (by simp) (fun _ => raised) (by simp)
  | broadcast at_ =>
      exact goes at_ (.rouse at_ rfl) rfl (by simp) (by simp) (by simp) fun other code asleep =>
        absurd asleep (not_asleep_rouse _ code)
  | create at_ => exact goes at_ (.create at_ rfl) rfl (by simp) (by simp) (by simp) (by simp)
  | @relock thread code at_ _ =>
      have spreads : Spreads program machine thread (.running code)
          (machine.set thread (.running code)).status := .alone (by simp [at_])
      exact stays spreads (left_of_status at_).symm rfl fun other code asleep =>
        .inl (asleep_set (by simp) asleep)
  | @wake thread code at_ =>
      have spreads : Spreads program machine thread (.woken code)
          (machine.set thread (.woken code)).status := .alone (by simp [at_])
      exact stays spreads (left_of_status at_).symm rfl fun other code asleep =>
        .inl (asleep_set (by simp) asleep)
  | @sleep thread code at_ lowered =>
      have spreads : Spreads program machine thread (.asleep (.await :: code))
          (machine.set thread (.asleep (.await :: code))).status := .alone (by simp [at_])
      exact stays spreads (left_of_status at_).symm rfl fun _ _ _ => .inr lowered
  | park at_ _ =>
      exact goes at_ (.alone (by simp [at_])) rfl (by simp) (by simp) (by simp) (by simp)
  | print at_ =>
      exact goes at_ (.alone (by simp [at_])) rfl (by simp) (by simp) (by simp) (by simp)
  | lock at_ _ =>
      exact goes at_ (.alone (by simp [at_])) rfl (by simp) (by simp) (by simp) (by simp)
  | unlock at_ =>
      exact goes at_ (.alone (by simp [at_])) rfl (by simp) (by simp) (by simp) (by simp)
  | initMutex at_ =>
      exact goes at_ (.alone (by simp [at_])) rfl (by simp) (by simp) (by simp) (by simp)
  | initBarrier at_ =>
      exact goes at_ (.alone (by simp [at_])) rfl (by simp) (by simp) (by simp) (by simp)
  | raise at_ =>
      exact goes at_ (.alone (by simp [at_])) rfl (by simp) (by simp) (by simp) (by simp)
  | initCond at_ =>
      exact goes at_ (.alone (by simp [at_])) rfl (by simp) (by simp) (by simp) (by simp)
  | join at_ _ =>
      exact goes at_ (.alone (by simp [at_])) rfl (by simp) (by simp) (by simp) (by simp)

/-! ## Who has seen the flag -/

theorem signalled_initial (signals : Signals program main last) :
    (Machine.initial program main).Signalled program last := by
  refine ⟨?_, fun thread code asleep => ?_, fun thread waits passed => ?_⟩
  · rw [left_initial]
    exact ⟨fun _ => signals.raises, fun _ => rfl⟩
  · by_cases same : thread = main
    · rw [same, Machine.initial_status_main] at asleep
      cases asleep
    · rw [Machine.initial_status_of_ne _ same] at asleep
      cases asleep
  · rw [left_initial] at passed
    exact absurd waits passed

theorem Effect.signalled (signals : Signals program main last) (valid : machine.Valid program)
    (effect : Effect program machine choice next output)
    (signalled : machine.Signalled program last) : next.Signalled program last := by
  obtain ⟨thread, others, ⟨instr, does⟩ | stays⟩ := effect.does valid
  · refine ⟨?_, fun other code asleep => ?_, fun other waits passed => ?_⟩
    · rw [← Bool.not_eq_true, does.flag, not_or, Bool.not_eq_true, signalled.raised]
      by_cases same : thread = last
      · subst same
        rw [does.left, List.mem_cons]
        by_cases isRaise : instr = .raise
        · subst isRaise
          simp [(signals.once _ (does.suffix valid)).1]
        · simp [isRaise, Ne.symm isRaise]
      · have notRaise : instr ≠ .raise := by
          rintro rfl
          exact same (signals.raiser thread ((does.suffix valid).mem List.mem_cons_self))
        rw [others last (Ne.symm same)]
        simp [notRaise]
    · obtain ⟨before, notBroadcast⟩ := does.asleep other code asleep
      have pending := signalled.asleep other code before
      by_cases same : last = thread
      · subst same
        rw [does.left] at pending
        exact (List.mem_cons.mp pending).resolve_left notBroadcast.symm
      · rwa [others last same]
    · rw [does.flag]
      by_cases isAwait : instr = .await
      · exact .inl (does.pass isAwait)
      · refine .inl (signalled.passed other waits fun before => passed ?_)
        by_cases same : other = thread
        · subst same
          rw [does.left] at before
          exact (List.mem_cons.mp before).resolve_left (Ne.symm isAwait)
        · rwa [others other same]
  · have left (other : Thread) : next.left program other = machine.left program other := by
      by_cases same : other = thread
      · rw [same, stays.left]
      · exact others other same
    refine ⟨?_, fun other code asleep => ?_, fun other waits passed => ?_⟩
    · rw [stays.flag, left, signalled.raised]
    · rw [left]
      rcases stays.asleep other code asleep with before | lowered
      · exact signalled.asleep other code before
      · exact signals.broadcast_of_raise valid (signalled.raised.mp lowered)
    · rw [left] at passed
      rw [stays.flag]
      exact signalled.passed other waits passed

/-! ## Who prints first -/

/-- Once a thread has come past the condition, the one that raises the flag has printed
all that it prints, and has left its section or is about to. -/
theorem Machine.Signalled.told (signals : Signals program main last)
    (valid : machine.Valid program) (signalled : machine.Signalled program last)
    {done : List Thread} {part : List Text} (orderly : machine.Orderly program output done part)
    (raised : machine.flag = true) : last ∈ done ∨ machine.owner = some last := by
  by_contra neither
  rw [not_or] at neither
  have untold := orderly.untold last neither.1 neither.2
  have gone : .raise ∉ machine.left program last := fun inside => by
    rw [signalled.raised.mpr inside] at raised
    cases raised
  rw [signals.prints_of_raised (valid.suffix last) gone] at untold
  exact signals.speaks untold.symm

/-- The thread that raises the flag is the first to leave its section. -/
def LedBy (last : Thread) (done : List Thread) : Prop := done = [] ∨ ∃ rest, done = last :: rest

theorem Effect.led (signals : Signals program main last) (valid : machine.Valid program)
    (signalled : machine.Signalled program last)
    (effect : Effect program machine choice next output) (steady : Steady machine choice)
    {printed : Output Thread Text} {done : List Thread} {part : List Text}
    (orderly : machine.Orderly program printed done part) (led : LedBy last done) :
    ∃ done' part', next.Orderly program (printed ++ output) done' part' ∧ LedBy last done' := by
  obtain ⟨done', part', orderly', same | ⟨thread, free, more⟩⟩ :=
    effect.orderly signals.disciplined valid steady orderly
  · exact ⟨done', part', orderly', same ▸ led⟩
  · refine ⟨done', part', orderly', .inr ?_⟩
    have left : thread ∈ done' := by simp [more]
    rcases led with rfl | ⟨rest, rfl⟩
    · by_cases isLast : thread = last
      · exact ⟨[], isLast ▸ more⟩
      · -- any other thread has come past the condition before it has left its section
        have waits := signals.waits thread isLast (orderly'.loud thread left)
        have passed : .await ∉ next.left program thread := fun inside => by
          cases orderly'.quiet thread left _ inside
        have nextValid := effect.valid signals.disciplined valid steady
        have nextSignalled := effect.signalled signals valid signalled
        rcases nextSignalled.told signals nextValid orderly'
            (nextSignalled.passed thread waits passed) with member | holder
        · rw [more] at member
          exact absurd (List.mem_singleton.mp member).symm isLast
        · cases free.symm.trans holder
    · exact ⟨rest ++ [thread], more⟩

/-! ## Runs -/

/-- What holds in every state that is reached. -/
theorem signals_run (signals : Signals program main last) {choices : List (Choice Thread)}
    (session : Session program main choices output machine) :
    machine.Valid program ∧ machine.Signalled program last ∧ machine.Spawning program main ∧
      ∃ done part, machine.Orderly program output done part ∧ LedBy last done := by
  refine @Run.invariant _ _ _ _ _ _ _ _ _ session (fun machine output =>
    machine.Valid program ∧ machine.Signalled program last ∧ machine.Spawning program main ∧
      ∃ done part, machine.Orderly program output done part ∧ LedBy last done)
    ⟨valid_initial signals.disciplined, signalled_initial signals,
      spawning_initial signals.children, [], [], orderly_initial, .inl rfl⟩ ?_
  rintro machine next printed more choice ⟨valid, signalled, spawning, done, part, orderly, led⟩
    steady stepped
  have effect := effect_of_step stepped
  exact ⟨effect.valid signals.disciplined valid steady, effect.signalled signals valid signalled,
    effect.spawning valid spawning, effect.led signals valid signalled steady orderly led⟩

/-- What another thread prints comes after all that the one which raises the flag
prints. -/
theorem Machine.Orderly.first (signals : Signals program main last)
    (valid : machine.Valid program) (signalled : machine.Signalled program last)
    {done : List Thread} {part : List Text} (orderly : machine.Orderly program output done part)
    (led : LedBy last done) {thread : Thread} {text : Text} (member : (thread, text) ∈ output)
    (apart : thread ≠ last) : ∃ rest, output = said program last ++ rest := by
  rw [orderly.output]
  rcases led with rfl | ⟨rest, rfl⟩
  · rw [orderly.output, List.flatMap_nil, List.nil_append] at member
    cases isOwner : machine.owner with
    | none =>
        rw [isOwner] at member
        cases member
    | some holder =>
        rw [isOwner] at member
        obtain ⟨other, inside, same⟩ := List.mem_map.mp member
        obtain ⟨rfl, rfl⟩ := Prod.mk.inj same
        -- the thread is in its section and has printed, so that it has seen the flag raised
        obtain ⟨_, whole⟩ := orderly.inside holder isOwner
        have passed : .await ∉ machine.left program holder := fun inside' => by
          have early := (valid.placed holder).early inside'
          rw [← Machine.left, ← whole] at early
          rw [List.self_eq_append_left.mp early] at inside
          cases inside
        have loud : ∃ instr ∈ program holder, instr.quiet = false := by
          by_contra none
          simp only [not_exists, not_and, Bool.not_eq_false] at none
          rw [prints_of_quiet none, List.append_eq_nil_iff] at whole
          rw [whole.1] at inside
          cases inside
        rcases signalled.told signals valid orderly
            (signalled.passed holder (signals.waits holder apart loud) passed) with gone | same
        · cases gone
        · exact absurd (Option.some.inj (isOwner.symm.trans same)) apart
  · exact ⟨_, by rw [List.flatMap_cons, List.append_assoc]⟩

/-- Such a program comes to rest only when every thread has ended. -/
theorem signals_ends (signals : Signals program main last) (valid : machine.Valid program)
    (signalled : machine.Signalled program last) (spawning : machine.Spawning program main)
    (atRest : machine.AtRest program) (thread : Thread) : machine.status thread = .running [] := by
  obtain ⟨_, blocked⟩ := blocked_of_atRest signals.disciplined valid atRest
  have stuck {thread : Thread} (awake : .await ∉ program thread) :=
    (blocked thread).joins_of_awake valid (signals.unparked thread) (signals.joins thread)
      (valid.not_asleep awake)
  have joins : machine.Joins main := by
    rcases stuck signals.awake.2 with absent | ended | ⟨other, code, at_, running, _, rest⟩
    · exact absurd absent spawning.started
    · exact .inl ended
    · exact .inr ⟨other, code, at_, running, rest⟩
  have lastEnded : machine.left program last = [] := by
    rcases stuck signals.awake.1 with absent | ended | ⟨_, _, _, _, isMain, _⟩
    · exact absurd absent (spawning.created joins signals.apart)
    · exact left_of_status ended
    · exact absurd isMain signals.apart
  refine spawning.ended joins (fun other apart => ?_) thread
  by_cases isAsleep : ∃ code, machine.status other = .asleep code
  · obtain ⟨code, asleep⟩ := isAsleep
    have pending := signalled.asleep other code asleep
    rw [lastEnded] at pending
    cases pending
  · simp only [not_exists] at isAsleep
    rcases (blocked other).joins_of_awake valid (signals.unparked other) (signals.joins other)
      isAsleep with absent | ended | ⟨_, _, _, _, isMain, _⟩
    · exact .inl absent
    · exact .inr ended
    · exact absurd isMain apart

end OsPractices.Library
