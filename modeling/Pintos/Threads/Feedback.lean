import Mathlib.Tactic.Linarith
import Mathlib.Tactic.Ring
import Pintos.Lib.CheckedInt
import Pintos.Lib.Execution
import Pintos.Threads.Kernel

/-!
# The arithmetic of the feedback scheduler

The load average, the recent CPU time of every thread and the priorities that follow from them are
numbers with twelve bits after the point.  All intermediate values fit their types as long as no more
than two thousand threads are ready or running.
-/

namespace Pintos.Threads

open CheckedInt Execution Kernel

/-! ## Fixed-point numbers -/

/-- `F`. -/
abbrev pointFactor : Int := 4096

/-- `HF`. -/
abbrev halfFactor : Int := 2048

def float (number : Int) : Option Int := fit 32 (number * pointFactor)

def round0 (number : Int) : Option Int := fit 32 (number.tdiv pointFactor)

def round (number : Int) : Option Int := do
  if number > 0 then
    round0 (← fit 32 (number + halfFactor))
  else
    round0 (← fit 32 (number - halfFactor))

def addF (first second : Int) : Option Int := fit 32 (first + second)

def subF (first second : Int) : Option Int := fit 32 (first - second)

def mulF (first second : Int) : Option Int := do
  let product ← fit 64 (first * second)
  fit 32 (product.tdiv pointFactor)

def divF (first second : Int) : Option Int := do
  let product ← fit 64 (first * pointFactor)
  if second = 0 then none else fit 32 (product.tdiv second)

def addI (number integer : Int) : Option Int := do addF number (← float integer)

def mulI (number integer : Int) : Option Int := fit 32 (number * integer)

def divI (number integer : Int) : Option Int :=
  if integer = 0 then none else fit 32 (number.tdiv integer)

def frac59 : Option Int := do divI (← float 59) 60

def frac01 : Option Int := do divI (← float 1) 60

theorem frac59_eq : frac59 = some 4027 := by decide

theorem frac01_eq : frac01 = some 68 := by decide

/-! ## The state -/

/-- What the scheduler keeps for a thread. -/
structure Usage where
  nice : Int
  recentCpu : Int
  nativePriority : Int

/-- The number of ticks, `load_avg` and the threads in `all_list`. -/
structure Feedback where
  ticks : Nat
  loadAvg : Int
  threads : List Usage

/-- What happens next.  Threads are named by their places in `all_list`. -/
inductive FeedbackEvent
  /-- A timer interrupt, with the running thread, unless that is the idle thread, and
  `ready_threads`. -/
  | tick (running : Option Nat) (readyThreads : Nat)
  /-- `thread_create` by a thread. -/
  | create (parent : Nat)
  /-- `thread_set_nice` by a thread. -/
  | setNice (thread : Nat) (nice : Int)
  /-- `thread_exit` of a thread. -/
  | exit (thread : Nat)

/-! ## The computations -/

/-- The priority that follows from the recent CPU time and the niceness of a thread, before it is
clamped. -/
def priorityOf (recentCpu nice : Int) : Option Int := do
  round (← subF (← float priMax) (← addF (← divI recentCpu 4) (← mulI (← float nice) 2)))

/-- The thread with its priority computed anew. -/
def Usage.reprioritize (usage : Usage) : Option Usage := do
  let priority ← priorityOf usage.recentCpu usage.nice
  some { usage with nativePriority := clampPriority priority }

/-- The divisor of the decay factor. -/
def decayDivisor (loadAvg : Int) : Option Int := do addI (← mulI loadAvg 2) 1

/-- The decay factor of the recent CPU time. -/
def decayFactor (loadAvg : Int) : Option Int := do
  divF (← mulI loadAvg 2) (← decayDivisor loadAvg)

/-- The thread with its recent CPU time decayed. -/
def Usage.decay (usage : Usage) (loadAvg : Int) : Option Usage := do
  let recentCpu ← addI (← mulF (← decayFactor loadAvg) usage.recentCpu) usage.nice
  some { usage with recentCpu }

/-- The thread after it has run for a tick. -/
def Usage.charge (usage : Usage) : Option Usage := do
  let recentCpu ← addI usage.recentCpu 1
  some { usage with recentCpu }

/-- The load average of the next second. -/
def nextLoad (loadAvg : Int) (running : Option Nat) (readyThreads : Nat) : Option Int := do
  let scaled ← mulF (← frac59) loadAvg
  let runnable ← (match running with
    | none => some (readyThreads : Int)
    | some _ => fit 32 (readyThreads + 1))
  addF scaled (← mulI (← frac01) runnable)

/-- A change of one thread in `all_list`. -/
def changeAt (threads : List Usage) (place : Nat) (change : Usage → Option Usage) :
    Option (List Usage) :=
  match threads[place]? with
  | none => some threads
  | some usage => do some (threads.set place (← change usage))

/-- `thread_tick` with the feedback scheduler, right after `timer_ticks` has gone up by one. -/
def Feedback.threadTick (feedback : Feedback) (running : Option Nat) (readyThreads : Nat) :
    Option Feedback := do
  let feedback ← (if feedback.ticks % 100 = 0 then do
      let loadAvg ← nextLoad feedback.loadAvg running readyThreads
      let threads ← feedback.threads.mapM fun usage => usage.decay loadAvg
      some { feedback with loadAvg, threads }
    else
      some feedback)
  let charged ← (match running with
    | none => some feedback.threads
    | some thread => changeAt feedback.threads thread Usage.charge)
  let threads ← (if feedback.ticks % 4 = 0 then charged.mapM Usage.reprioritize else some charged)
  some { feedback with threads }

/-- The niceness that `thread_set_nice` stores. -/
def clampNice (nice : Int) : Int := if nice < -20 then -20 else if nice > 20 then 20 else nice

def Feedback.threadGetLoadAvg (feedback : Feedback) : Option Int := do
  round0 (← mulI feedback.loadAvg 100)

namespace Feedback

/-- The state after an event; `none` if a value does not fit its type. -/
def handle (feedback : Feedback) : FeedbackEvent → Option Feedback
  | .tick running readyThreads =>
    { feedback with ticks := feedback.ticks + 1 }.threadTick running readyThreads
  | .create parent =>
    match feedback.threads[parent]? with
    | none => some feedback
    | some usage => do
        let child ← { usage with nativePriority := 31 }.reprioritize
        some { feedback with threads := feedback.threads ++ [child] }
  | .setNice thread nice => do
      let threads ← changeAt feedback.threads thread fun usage =>
        { usage with nice := clampNice nice }.reprioritize
      some { feedback with threads }
  | .exit thread => some { feedback with threads := feedback.threads.eraseIdx thread }

/-- The event can happen with at most this many threads ready or running. -/
def Admits (most : Nat) (feedback : Feedback) : FeedbackEvent → Prop
  | .tick none readyThreads => readyThreads ≤ most
  | .tick (some t) readyThreads =>
    t < feedback.threads.length ∧ readyThreads + 1 ≤ most
  | .create parent => parent < feedback.threads.length
  | .setNice t _ => t < feedback.threads.length
  | .exit t => t < feedback.threads.length

instance (most : Nat) (feedback : Feedback) :
    (e : FeedbackEvent) → Decidable (feedback.Admits most e)
  | .tick none _ => inferInstanceAs (Decidable (_ ≤ _))
  | .tick (some _) _ => inferInstanceAs (Decidable (_ ∧ _))
  | .create _ => inferInstanceAs (Decidable (_ < _))
  | .setNice _ _ => inferInstanceAs (Decidable (_ < _))
  | .exit _ => inferInstanceAs (Decidable (_ < _))

def step (most : Nat) (feedback : Feedback) (event : FeedbackEvent) : Option Feedback :=
  if feedback.Admits most event then feedback.handle event else none

def start : Feedback := ⟨0, 0, [⟨0, 0, 31⟩]⟩

end Feedback

/-! ## Bounds of single computations -/

variable {total : Prop} {recentCpu nice loadAvg number : Int} {most : Nat} {usage : Usage}

theorem returns_float (lower : -524288 ≤ number) (upper : number < 524288) :
    Returns total (float number) fun res => res = number * 4096 :=
  returns_fit32 (by simp only [pointFactor]; omega) (by simp only [pointFactor]; omega)

theorem returns_addI {integer : Int} (lower : -524288 ≤ integer) (upper : integer < 524288)
    (lower_sum : -2147483648 ≤ number + integer * 4096)
    (upper_sum : number + integer * 4096 < 2147483648) :
    Returns total (addI number integer) fun res => res = number + integer * 4096 := by
  refine (returns_float lower upper).bind ?_
  rintro _ rfl
  exact returns_fit32 lower_sum upper_sum

theorem returns_mulF {fst snd low high : Int} (lower : low * 4096 ≤ fst * snd)
    (upper : fst * snd ≤ high * 4096) (nonpos : low ≤ 0) (nonneg : 0 ≤ high)
    (low_fits : -2147483648 ≤ low) (high_fits : high < 2147483648) :
    Returns total (mulF fst snd) fun res => low ≤ res ∧ res ≤ high := by
  refine (returns_fit64 (by omega) (by omega)).bind ?_
  rintro _ rfl
  have range : low ≤ (fst * snd).tdiv pointFactor ∧ (fst * snd).tdiv pointFactor ≤ high :=
    tdiv_mem (by decide) lower upper nonpos nonneg
  refine (returns_fit32 (by omega) (by omega)).mono ?_
  rintro _ rfl
  exact range

theorem returns_round (lower : -2147481600 ≤ number) (upper : number < 2147481600) :
    Returns total (round number) fun _ => True := by
  have rounded : ∀ shifted : Int, -2147483648 ≤ shifted → shifted < 2147483648 →
      Returns total (round0 shifted) fun _ => True := by
    intro shifted lower upper
    have range := @tdiv_mem shifted (-524288) 524288 pointFactor (by decide)
      (by simp only [pointFactor]; omega) (by simp only [pointFactor]; omega) (by decide) (by decide)
    exact (returns_fit32 (by omega) (by omega)).mono fun _ _ => trivial
  unfold round
  simp only [halfFactor]
  split
  · refine (returns_fit32 (by omega) (by omega)).bind ?_
    rintro _ rfl
    exact rounded _ (by omega) (by omega)
  · refine (returns_fit32 (by omega) (by omega)).bind ?_
    rintro _ rfl
    exact rounded _ (by omega) (by omega)

theorem clampPriority_mem (prio : Int) :
    priMin ≤ clampPriority prio ∧ clampPriority prio ≤ priMax := by
  unfold clampPriority
  simp only [priMin, priMax]
  omega

theorem clampNice_mem (nice : Int) : -20 ≤ clampNice nice ∧ clampNice nice ≤ 20 := by
  unfold clampNice
  repeat' split
  all_goals omega

theorem returns_priorityOf (lower : -2147483648 ≤ recentCpu) (upper : recentCpu < 2147483648)
    (nice_lower : -20 ≤ nice) (nice_upper : nice ≤ 20) :
    Returns total (priorityOf recentCpu nice) fun _ => True := by
  have quarter := @tdiv_mem recentCpu (-536870912) 536870912 4 (by decide) (by omega) (by omega)
    (by decide) (by decide)
  refine (@returns_float _ priMax (by decide) (by decide)).bind ?_
  rintro _ rfl
  have divides : divI recentCpu 4 = fit 32 (recentCpu.tdiv 4) := if_neg (by decide)
  rw [divides]
  refine (returns_fit32 (by omega) (by omega)).bind ?_
  rintro _ rfl
  refine (returns_float (by omega) (by omega)).bind ?_
  rintro _ rfl
  refine (returns_fit32 (by omega) (by omega)).bind ?_
  rintro _ rfl
  refine (returns_fit32 (by omega) (by omega)).bind ?_
  rintro _ rfl
  refine (returns_fit32 (by simp only [priMax]; omega) (by simp only [priMax]; omega)).bind ?_
  rintro _ rfl
  exact returns_round (by simp only [priMax]; omega) (by simp only [priMax]; omega)

/-! ## The load average -/

/-- The load average with at most this many threads ready or running. -/
def LoadFits (most : Nat) (loadAvg : Int) : Prop := 0 ≤ loadAvg ∧ loadAvg ≤ most * 4096

theorem LoadFits.next {runs : Option Nat} {ready : Nat} (small : most ≤ 2000)
    (load : LoadFits most loadAvg)
    (runnable : ready + (if runs.isSome then 1 else 0) ≤ most) :
    Returns total (nextLoad loadAvg runs ready) (LoadFits most) := by
  obtain ⟨nonneg, upper⟩ := load
  unfold nextLoad
  rw [frac59_eq, frac01_eq]
  refine Returns.bind (.of_some rfl) ?_
  rintro _ rfl
  refine (@returns_mulF _ 4027 loadAvg 0 (4027 * most) (by omega) (by omega) (by decide) (by omega)
    (by decide) (by omega)).bind ?_
  rintro scaled ⟨scaled_nonneg, scaled_le⟩
  have counted : Returns total (match runs with
      | none => some (ready : Int)
      | some _ => fit 32 (ready + 1)) fun count => 0 ≤ count ∧ count ≤ most := by
    cases runs with
    | none =>
      simp only [Option.isSome_none] at runnable
      exact .of_some ⟨by omega, by simpa using runnable⟩
    | some t =>
      simp only [Option.isSome_some, if_true] at runnable
      refine (returns_fit32 (by omega) (by omega)).mono ?_
      rintro _ rfl
      omega
  refine counted.bind ?_
  rintro count ⟨count_nonneg, count_le⟩
  refine Returns.bind (.of_some rfl) ?_
  rintro _ rfl
  refine Returns.bind (returns_fit32 (by omega) (by omega)) ?_
  rintro _ rfl
  refine (returns_fit32 (by omega) (by omega)).mono ?_
  rintro _ rfl
  exact ⟨by omega, by omega⟩

/-- The decay factor is less than one, by more the smaller the load is. -/
def DecayFits (most : Nat) (factor : Int) : Prop :=
  (0 ≤ factor ∧ factor < 4096) ∧ factor * (2 * most + 1) ≤ 2 * most * 4096

theorem LoadFits.divisor (small : most ≤ 2000) (load : LoadFits most loadAvg) :
    Returns total (decayDivisor loadAvg) fun divisor => divisor = loadAvg * 2 + 4096 := by
  obtain ⟨nonneg, upper⟩ := load
  refine (returns_fit32 (by omega) (by omega)).bind ?_
  rintro _ rfl
  refine (returns_addI (by decide) (by decide) (by omega) (by omega)).mono ?_
  rintro _ rfl
  omega

theorem LoadFits.decayFactor (small : most ≤ 2000) (load : LoadFits most loadAvg) :
    Returns total (decayFactor loadAvg) (DecayFits most) := by
  have divisor := @LoadFits.divisor total _ _ small load
  obtain ⟨nonneg, upper⟩ := load
  refine (returns_fit32 (by omega) (by omega)).bind ?_
  rintro _ rfl
  refine divisor.bind ?_
  rintro _ rfl
  refine (returns_fit64 (by simp only [pointFactor]; omega) (by simp only [pointFactor]; omega)).bind ?_
  rintro _ rfl
  rw [if_neg (by omega)]
  have quotient_nonneg : 0 ≤ (loadAvg * 2 * pointFactor).tdiv (loadAvg * 2 + 4096) :=
    Int.tdiv_nonneg (by simp only [pointFactor]; omega) (by omega)
  have product : (loadAvg * 2 * pointFactor).tdiv (loadAvg * 2 + 4096) * (loadAvg * 2 + 4096) ≤
      loadAvg * 2 * 4096 := by
    rw [Int.tdiv_eq_ediv_of_nonneg (by simp only [pointFactor]; omega)]
    exact Int.ediv_mul_le _ (by omega)
  generalize (loadAvg * 2 * pointFactor).tdiv (loadAvg * 2 + 4096) = factor at *
  have below : factor < 4096 := by nlinarith
  have share : factor * (2 * most + 1) ≤ 2 * most * 4096 := by nlinarith
  refine (returns_fit32 (by omega) (by omega)).mono ?_
  rintro _ rfl
  exact ⟨⟨quotient_nonneg, below⟩, share⟩

/-! ## Recent CPU time -/

/-- The bounds of the recent CPU time of a thread when it can grow by this many more ticks until the
next decay. -/
structure Usage.Fits (usage : Usage) (most left : Nat) : Prop where
  nice : -20 ≤ usage.nice ∧ usage.nice ≤ 20
  lower : -20 * (2 * most + 1) * 4096 ≤ usage.recentCpu
  upper : usage.recentCpu ≤ 120 * (2 * most + 1) * 4096 - left * 4096
  priority : priMin ≤ usage.nativePriority ∧ usage.nativePriority ≤ priMax

variable {left : Nat}

theorem Usage.Fits.mono {fewer : Nat} (fits : usage.Fits most left) (le : fewer ≤ left) :
    usage.Fits most fewer where
  __ := fits
  upper := by
    have upper := fits.upper
    omega

section

variable (small : most ≤ 2000)
include small

theorem Usage.Fits.decay (load : LoadFits most loadAvg) (fits : usage.Fits most 0) :
    Returns total (usage.decay loadAvg) fun res => res.Fits most 100 := by
  obtain ⟨nice, lower, upper, prio⟩ := fits
  refine (load.decayFactor small).bind ?_
  rintro factor ⟨⟨factor_nonneg, factor_lt⟩, share⟩
  refine (@returns_mulF _ factor usage.recentCpu (-20 * (2 * most) * 4096) (120 * (2 * most) * 4096)
    ?_ ?_ (by omega) (by omega) (by omega) (by omega)).bind ?_
  · nlinarith
  · nlinarith
  rintro decayed ⟨decayed_lower, decayed_upper⟩
  refine (returns_addI (by omega) (by omega) (by omega) (by omega)).bind ?_
  rintro _ rfl
  exact .of_some ⟨nice, by simp only; omega, by simp only; omega, prio⟩

theorem Usage.Fits.charge (fits : usage.Fits most (left + 1)) :
    Returns total usage.charge fun res => res.Fits most left := by
  obtain ⟨nice, lower, upper, prio⟩ := fits
  refine (returns_addI (by decide) (by decide) (by omega) (by omega)).bind ?_
  rintro _ rfl
  exact .of_some ⟨nice, by simp only; omega, by simp only; omega, prio⟩

theorem Usage.returns_reprioritize (nice : -20 ≤ usage.nice ∧ usage.nice ≤ 20)
    (lower : -20 * (2 * most + 1) * 4096 ≤ usage.recentCpu)
    (upper : usage.recentCpu ≤ 120 * (2 * most + 1) * 4096 - left * 4096) :
    Returns total usage.reprioritize fun res => res.Fits most left := by
  refine (returns_priorityOf (by omega) (by omega) nice.1 nice.2).bind fun prio _ => ?_
  exact .of_some ⟨nice, lower, upper, clampPriority_mem prio⟩

theorem Usage.Fits.reprioritize (fits : usage.Fits most left) :
    Returns total usage.reprioritize fun res => res.Fits most left :=
  returns_reprioritize small fits.nice fits.lower fits.upper

end

theorem returns_changeAt {threads : List Usage} {place : Nat} {change : Usage → Option Usage}
    {post : Usage → Prop} (all : ∀ usage ∈ threads, post usage)
    (changes : ∀ usage ∈ threads, Returns total (change usage) post) :
    Returns total (changeAt threads place change) fun res => ∀ usage ∈ res, post usage := by
  unfold changeAt
  split
  · exact .of_some all
  · next usage found =>
      refine (changes usage (List.mem_of_getElem? found)).bind fun new meets => .of_some ?_
      intro o mem
      rcases List.mem_or_eq_of_mem_set mem with old | rfl
      · exact all o old
      · exact meets

namespace Feedback

/-! ## Runs -/

/-- The number of ticks until just before the next decay. -/
def ticksLeft (feedback : Feedback) : Nat := 99 - feedback.ticks % 100

/-- The invariant with at most this many threads ready or running. -/
structure Valid (most : Nat) (feedback : Feedback) : Prop where
  load : LoadFits most feedback.loadAvg
  threads : ∀ usage ∈ feedback.threads, usage.Fits most feedback.ticksLeft

variable {feedback s' : Feedback} {event : FeedbackEvent}

/-- The part of `thread_tick` that runs once a second leaves room for the ticks to come, the present
one included. -/
theorem Valid.second {runs : Option Nat} {ready : Nat} (small : most ≤ 2000)
    (valid : feedback.Valid most)
    (runnable : ready + (if runs.isSome then 1 else 0) ≤ most) : Returns total
      (if (feedback.ticks + 1) % 100 = 0 then do
        let loadAvg ← nextLoad feedback.loadAvg runs ready
        let threads ← feedback.threads.mapM fun usage => usage.decay loadAvg
        some { feedback with ticks := feedback.ticks + 1, loadAvg, threads }
      else
        some { feedback with ticks := feedback.ticks + 1 })
      fun mid => mid.ticks = feedback.ticks + 1 ∧ LoadFits most mid.loadAvg ∧
        ∀ usage ∈ mid.threads, usage.Fits most (mid.ticksLeft + 1) := by
  split
  · next second =>
      refine (valid.load.next small runnable).bind fun loadAvg load => ?_
      have decayed : Returns total (feedback.threads.mapM fun usage => usage.decay loadAvg)
          fun threads => ∀ usage ∈ threads, usage.Fits most 100 :=
        .mapM fun usage mem =>
          ((valid.threads usage mem).mono (Nat.zero_le _)).decay small load
      refine decayed.bind fun threads fits => .of_some ⟨rfl, load, fun usage mem => ?_⟩
      refine (fits usage mem).mono ?_
      unfold ticksLeft
      omega
  · next ordinary =>
      refine .of_some ⟨rfl, valid.load, fun usage mem => (valid.threads usage mem).mono ?_⟩
      simp only [ticksLeft]
      omega

theorem Valid.tick {runs : Option Nat} {ready : Nat} (small : most ≤ 2000)
    (valid : feedback.Valid most)
    (runnable : ready + (if runs.isSome then 1 else 0) ≤ most) :
    Returns total ({ feedback with ticks := feedback.ticks + 1 }.threadTick runs ready)
      (Valid most) := by
  refine (valid.second small runnable).bind ?_
  rintro mid ⟨_, load, fits⟩
  have charged : Returns total (match runs with
      | none => some mid.threads
      | some t => changeAt mid.threads t Usage.charge)
      fun threads => ∀ usage ∈ threads, usage.Fits most mid.ticksLeft := by
    have kept : ∀ usage ∈ mid.threads, usage.Fits most mid.ticksLeft := fun usage mem =>
      (fits usage mem).mono (Nat.le_succ _)
    cases runs with
    | none => exact .of_some kept
    | some t => exact returns_changeAt kept fun usage mem => (fits usage mem).charge small
  refine charged.bind fun threads fits => ?_
  have updated : Returns total
      (if mid.ticks % 4 = 0 then threads.mapM Usage.reprioritize else some threads)
      fun threads => ∀ usage ∈ threads, usage.Fits most mid.ticksLeft := by
    split
    · exact .mapM fun usage mem => (fits usage mem).reprioritize small
    · exact .of_some fits
  exact updated.bind fun threads fits => .of_some ⟨load, fits⟩

/-- Every event that can happen is handled without overflow and keeps the invariant. -/
theorem Valid.handle (small : most ≤ 2000) (valid : feedback.Valid most)
    (admits : feedback.Admits most event) : Returns total (feedback.handle event) (Valid most) := by
  cases event with
  | tick runs ready =>
    refine valid.tick small ?_
    cases runs with
    | none => simpa [Admits] using admits
    | some t => exact admits.2
  | create parent =>
    rw [Feedback.handle]
    split
    · exact .of_some valid
    · next usage found =>
        have fits := valid.threads usage (List.mem_of_getElem? found)
        have child := @Usage.returns_reprioritize total most { usage with nativePriority := 31 } _
          small fits.nice fits.lower fits.upper
        refine child.bind fun child fits => .of_some ⟨valid.load, fun o mem => ?_⟩
        rcases List.mem_append.mp mem with old | new
        · exact valid.threads o old
        · rw [List.mem_singleton.mp new]
          exact fits
  | setNice t nice =>
    refine (returns_changeAt valid.threads fun usage mem => ?_).bind fun threads fits =>
      .of_some ⟨valid.load, fits⟩
    have fits := valid.threads usage mem
    exact Usage.returns_reprioritize small (clampNice_mem nice) fits.lower fits.upper
  | exit t =>
    exact .of_some ⟨valid.load, fun usage mem =>
      valid.threads usage (List.mem_of_mem_eraseIdx mem)⟩

/-- The bounds of the feedback scheduler with at most this many threads ready or running. -/
structure Bounded (most : Nat) (feedback : Feedback) : Prop where
  loadAvg : 0 ≤ feedback.loadAvg ∧ feedback.loadAvg ≤ most * 2 ^ 12
  divisor : ∃ divisor, decayDivisor feedback.loadAvg = some divisor ∧ 0 < divisor
  decay : ∃ factor, decayFactor feedback.loadAvg = some factor ∧ 0 ≤ factor ∧ factor < 2 ^ 12
  recentCpu : ∀ usage ∈ feedback.threads, -20 * (2 * most + 1) * 2 ^ 12 ≤ usage.recentCpu ∧
      usage.recentCpu ≤ 120 * (2 * most + 1) * 2 ^ 12
  nativePriority : ∀ usage ∈ feedback.threads,
    priMin ≤ usage.nativePriority ∧ usage.nativePriority ≤ priMax
  threadGetLoadAvg : feedback.threadGetLoadAvg.isSome
  handles : ∀ e, feedback.Admits most e → (feedback.handle e).isSome

theorem Valid.bounded (small : most ≤ 2000) (valid : feedback.Valid most) :
    feedback.Bounded most where
  loadAvg := valid.load
  divisor := by
    obtain ⟨_, runs, rfl⟩ := (valid.load.divisor small).exists_of trivial
    have nonneg := valid.load.1
    exact ⟨_, runs, by omega⟩
  decay := by
    obtain ⟨factor, runs, range, _⟩ := (valid.load.decayFactor small).exists_of trivial
    exact ⟨factor, runs, range⟩
  recentCpu usage mem := by
    have fits := valid.threads usage mem
    have upper := fits.upper
    exact ⟨fits.lower, by omega⟩
  nativePriority usage mem := (valid.threads usage mem).priority
  threadGetLoadAvg := by
    obtain ⟨nonneg, upper⟩ := valid.load
    have reads : Returns True feedback.threadGetLoadAvg fun _ => True := by
      refine (returns_fit32 (by omega) (by omega)).bind ?_
      rintro _ rfl
      have range := @tdiv_mem (feedback.loadAvg * 100) 0 (most * 100) pointFactor (by decide)
        (by omega) (by simp only [pointFactor]; omega) (by decide) (by omega)
      exact (returns_fit32 (by omega) (by omega)).mono fun _ _ => trivial
    exact Option.isSome_iff_ne_none.mpr (reads.2 trivial)
  handles event admits :=
    Option.isSome_iff_ne_none.mpr ((@Valid.handle True _ _ _ small valid admits).2 trivial)

theorem Valid.step (small : most ≤ 2000) (valid : feedback.Valid most)
    (steps : feedback.step most event = some s') : s'.Valid most := by
  unfold Feedback.step at steps
  split at steps
  · next admits => exact (@Valid.handle True _ _ _ small valid admits).post_of_eq steps
  · cases steps

theorem valid_start : start.Valid most where
  load := ⟨Int.le_refl 0, by simp only [start]; omega⟩
  threads usage mem := by
    rw [List.mem_singleton.mp mem]
    refine ⟨by decide, ?_, ?_, by decide⟩ <;> simp only [ticksLeft, start] <;> omega

/-- In every run in which at most this many threads, and no more than two thousand, are ready or
running, the arithmetic of the feedback scheduler stays within its bounds and never overflows. -/
theorem feedback_bounded (small : most ≤ 2000) (events : List FeedbackEvent) :
    Along (step most) (Bounded most) start events :=
  along_of_invariant valid_start (fun valid steps => valid.step small steps)
    (fun valid => valid.bounded small) events

theorem feedback_bounded_two : 2 ≤ 2000 ∧ Along (step 2) (Bounded 2) start
    [.create 0, .setNice 0 (-30), .tick (some 0) 1, .tick none 0, .exit 1] :=
  ⟨by decide, feedback_bounded (by decide) _⟩

end Feedback

end Pintos.Threads
