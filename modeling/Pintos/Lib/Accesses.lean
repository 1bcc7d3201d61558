import Mathlib.Logic.Function.Basic

/-!
# Programs that access a memory

A program reads and writes single bytes, sends bytes out, and returns or stops for a reason.  An access
to an address that is not mapped faults.  The run of a program records the addresses that it has
accessed.  What a run does depends on these addresses alone, and it changes nothing else.
-/

namespace Accesses

open Function Option

/-- A memory: the bytes at the mapped addresses, and where they may be written. -/
structure Memory where
  bytes : Nat → Option UInt8
  writable : Nat → Bool

namespace Memory

variable {m : Memory}

/-- The address can be written. -/
def accepts (m : Memory) (address : Nat) : Bool :=
  (m.bytes address).isSome && m.writable address

def set (m : Memory) (address : Nat) (byte : UInt8) : Memory :=
  { m with bytes := update m.bytes address (some byte) }

theorem bytes_set_self {addr : Nat} {byte : UInt8} : (m.set addr byte).bytes addr = some byte :=
  update_self _ _ _

theorem bytes_set_of_ne {addr place : Nat} {byte : UInt8} (o : place ≠ addr) :
    (m.set addr byte).bytes place = m.bytes place :=
  update_of_ne o _ _

/-- Two memories are mapped alike, and have the same bytes in a region. -/
structure AgreeOn (inside : Nat → Prop) (m other : Memory) : Prop where
  mapped : ∀ addr, (m.bytes addr).isSome = (other.bytes addr).isSome
  writable : m.writable = other.writable
  bytes : ∀ addr, inside addr → m.bytes addr = other.bytes addr

theorem AgreeOn.accepts {inside : Nat → Prop} {o : Memory} (agree : AgreeOn inside m o)
    (addr : Nat) : m.accepts addr = o.accepts addr := by
  rw [Memory.accepts, Memory.accepts, agree.mapped, agree.writable]

theorem AgreeOn.set {inside : Nat → Prop} {o : Memory} (agree : AgreeOn inside m o)
    (addr : Nat) (byte : UInt8) :
    AgreeOn inside (m.set addr byte) (o.set addr byte) := by
  refine ⟨?_, agree.writable, ?_⟩
  · intro place
    by_cases same : place = addr
    · subst same
      rw [bytes_set_self, bytes_set_self]
    · rw [bytes_set_of_ne same, bytes_set_of_ne same]
      exact agree.mapped place
  · intro place is_inside
    by_cases same : place = addr
    · subst same
      rw [bytes_set_self, bytes_set_self]
    · rw [bytes_set_of_ne same, bytes_set_of_ne same]
      exact agree.bytes place is_inside

end Memory

/-- A program with reasons to stop and results. -/
inductive Program (Reason Result : Type)
  | done (result : Result)
  | stop (reason : Reason)
  | read (address : Nat) (next : UInt8 → Program Reason Result)
  | write (address : Nat) (byte : UInt8) (next : Program Reason Result)
  | emit (byte : UInt8) (next : Program Reason Result)

/-- How a run ends. -/
inductive Ended (Reason Result : Type)
  | returned (result : Result)
  | faulted
  | stopped (reason : Reason)

/-- The reason for which a run has stopped. -/
def Ended.reason {Reason Result : Type} : Ended Reason Result → Option Reason
  | .stopped reason => some reason
  | .returned _ | .faulted => none

theorem Ended.eq_stopped_of_reason {Reason Result : Type} {ended : Ended Reason Result} {reason : Reason}
    (is_reason : ended.reason = some reason) : ended = .stopped reason := by
  cases ended with
  | stopped o => exact congrArg _ (some.inj is_reason)
  | returned res => cases is_reason
  | faulted => cases is_reason

/-- A run: how it ends, the addresses that it accesses, the bytes that it sends, and what it leaves in
memory. -/
structure Run (Reason Result : Type) where
  ended : Ended Reason Result
  touched : List Nat
  sent : List UInt8
  memory : Memory

namespace Program

variable {Reason Result Final : Type} {m other : Memory} {inside : Nat → Prop}
  {allowed : Reason → Prop} {k : Result → Program Reason Final}
  {p next : Program Reason Result} {addr : Nat} {byte : UInt8}

/-- Continue a program with its result. -/
def andThen : Program Reason Result → (Result → Program Reason Final) → Program Reason Final
  | .done result, k => k result
  | .stop reason, _ => .stop reason
  | .read addr next, k => .read addr fun byte => (next byte).andThen k
  | .write addr byte next, k => .write addr byte (next.andThen k)
  | .emit byte next, k => .emit byte (next.andThen k)

instance : Monad (Program Reason) where
  pure := .done
  bind := andThen

instance : LawfulMonad (Program Reason) := by
  refine LawfulMonad.mk' _ ?_ ?_ ?_
  · intro Result p
    change p.andThen .done = p
    induction p with
    | done result => rfl
    | stop reason => rfl
    | read addr next ih => simp only [andThen, ih]
    | write addr byte next ih => simp only [andThen, ih]
    | emit byte next ih => simp only [andThen, ih]
  · intro Result Final result k
    rfl
  · intro Result Final Last p first second
    change (p.andThen first).andThen second = p.andThen fun result => (first result).andThen second
    induction p with
    | done result => rfl
    | stop reason => rfl
    | read addr next ih => simp only [andThen, ih]
    | write addr byte next ih => simp only [andThen, ih]
    | emit byte next ih => simp only [andThen, ih]

@[simp]
theorem stop_bind (reason : Reason) (k : Result → Program Reason Final) :
    (.stop reason >>= k) = (.stop reason : Program Reason Final) := rfl

/-- The run of a program. -/
def run : Program Reason Result → Memory → Run Reason Result
  | .done result, m => ⟨.returned result, [], [], m⟩
  | .stop reason, m => ⟨.stopped reason, [], [], m⟩
  | .read addr next, m =>
    match m.bytes addr with
    | none => ⟨.faulted, [], [], m⟩
    | some byte =>
      let rest := (next byte).run m
      { rest with touched := addr :: rest.touched }
  | .write addr byte next, m =>
    if m.accepts addr then
      let rest := next.run (m.set addr byte)
      { rest with touched := addr :: rest.touched }
    else
      ⟨.faulted, [], [], m⟩
  | .emit byte next, m =>
    let rest := next.run m
    { rest with sent := byte :: rest.sent }

/-- The run accesses addresses of a region only. -/
def Confined (inside : Nat → Prop) (p : Program Reason Result) (m : Memory) : Prop :=
  ∀ addr ∈ (p.run m).touched, inside addr

/-- The run stops for allowed reasons only. -/
def Allows (allowed : Reason → Prop) (p : Program Reason Result) (m : Memory) : Prop :=
  ∀ reason, (p.run m).ended = .stopped reason → allowed reason

/-! ## Single accesses -/

@[simp]
theorem confined_done (res : Result) : Confined inside (.done res : Program Reason Result) m := by
  intro addr hit
  cases hit

@[simp]
theorem confined_pure (res : Result) : Confined inside (pure res : Program Reason Result) m :=
  confined_done res

@[simp]
theorem confined_stop (reason : Reason) : Confined inside (.stop reason : Program Reason Result) m := by
  intro addr hit
  cases hit

@[simp]
theorem allows_done (res : Result) : Allows allowed (.done res : Program Reason Result) m := by
  intro reason stops
  cases stops

@[simp]
theorem allows_pure (res : Result) : Allows allowed (pure res : Program Reason Result) m :=
  allows_done res

@[simp]
theorem allows_stop (reason : Reason) :
    Allows allowed (.stop reason : Program Reason Result) m ↔ allowed reason := by
  constructor
  · intro allows
    exact allows reason rfl
  · rintro is_allowed _ ⟨⟩
    exact is_allowed

theorem confined_read {next : UInt8 → Program Reason Result} : Confined inside (.read addr next) m ↔
      ∀ byte, m.bytes addr = some byte → inside addr ∧ Confined inside (next byte) m := by
  unfold Confined
  rw [run]
  cases m.bytes addr with
  | none => simp
  | some byte => simp

theorem confined_write : Confined inside (.write addr byte next) m ↔ (m.accepts addr = true →
        inside addr ∧ Confined inside next (m.set addr byte)) := by
  unfold Confined
  rw [run]
  split <;> simp_all

theorem confined_emit : Confined inside (.emit byte next) m ↔ Confined inside next m := Iff.rfl

theorem allows_read {next : UInt8 → Program Reason Result} : Allows allowed (.read addr next) m ↔
      ∀ byte, m.bytes addr = some byte → Allows allowed (next byte) m := by
  unfold Allows
  rw [run]
  cases m.bytes addr with
  | none => simp
  | some byte => simp

theorem allows_write : Allows allowed (.write addr byte next) m ↔
      (m.accepts addr = true → Allows allowed next (m.set addr byte)) := by
  unfold Allows
  rw [run]
  split <;> simp_all

/-! ## Sequences -/

/-- A program followed by another one. -/
theorem run_bind (p : Program Reason Result) (k : Result → Program Reason Final) (m : Memory) :
    (p >>= k).run m =
      match (p.run m).ended with
      | .returned res =>
        let rest := (k res).run (p.run m).memory
        ⟨rest.ended, (p.run m).touched ++ rest.touched, (p.run m).sent ++ rest.sent, rest.memory⟩
      | .faulted =>
        ⟨.faulted, (p.run m).touched, (p.run m).sent, (p.run m).memory⟩
      | .stopped reason =>
        ⟨.stopped reason, (p.run m).touched, (p.run m).sent, (p.run m).memory⟩ := by
  change (p.andThen k).run m = _
  induction p generalizing m with
  | done res => rfl
  | stop reason => rfl
  | read addr next ih =>
    rw [andThen, run, run]
    cases m.bytes addr with
    | none => rfl
    | some byte =>
      simp only [ih byte m]
      cases ((next byte).run m).ended <;> rfl
  | write addr byte next ih =>
    rw [andThen, run, run]
    split
    · simp only [ih (m.set addr byte)]
      cases (next.run (m.set addr byte)).ended <;> rfl
    · rfl
  | emit byte next ih =>
    rw [andThen, run, run]
    simp only [ih m]
    cases (next.run m).ended <;> rfl

theorem confined_bind : Confined inside (p >>= k) m ↔
      Confined inside p m ∧ ∀ res, (p.run m).ended = .returned res →
        Confined inside (k res) (p.run m).memory := by
  unfold Confined
  rw [run_bind]
  cases (p.run m).ended with
  | returned res => simp [or_imp, forall_and]
  | faulted => simp
  | stopped reason => simp

theorem allows_bind : Allows allowed (p >>= k) m ↔
      Allows allowed p m ∧ ∀ res, (p.run m).ended = .returned res →
        Allows allowed (k res) (p.run m).memory := by
  unfold Allows
  rw [run_bind]
  cases (p.run m).ended with
  | returned res => simp
  | faulted => simp
  | stopped reason => simp

/-- What follows never stops. -/
theorem allows_bind_of_continues (goes : ∀ res m, Allows allowed (k res) m) :
    Allows allowed (p >>= k) m ↔ Allows allowed p m := by
  rw [allows_bind]
  exact and_iff_left fun res _ => goes res _

/-! ## Queries -/

/-- The program only reads; it returns the answer, or faults if there is none. -/
structure Answers (p : Program Reason Result) (m : Memory) (answer : Option Result) : Prop where
  unchanged : (p.run m).memory = m
  ended : (p.run m).ended =
    match answer with
    | some result => .returned result
    | none => .faulted

namespace Answers

variable {p : Program Reason Result} {k : Result → Program Reason Final}
  {answer : Option Result}

theorem pure (res : Result) : Answers (pure res : Program Reason Result) m (some res) := ⟨rfl, rfl⟩

theorem returned_iff (answers : Answers p m answer) {res : Result} :
    (p.run m).ended = .returned res ↔ answer = some res := by
  rw [answers.ended]
  cases answer <;> simp

theorem bind {final : Result → Option Final} (fst : Answers p m answer)
    (snd : ∀ res, Answers (k res) m (final res)) :
    Answers (p >>= k) m (answer.bind final) := by
  constructor
  · rw [run_bind, fst.ended]
    cases answer with
    | none => exact fst.unchanged
    | some res =>
      change ((k res).run (p.run m).memory).memory = m
      rw [fst.unchanged]
      exact (snd res).unchanged
  · rw [run_bind, fst.ended]
    cases answer with
    | none => rfl
    | some res =>
      change ((k res).run (p.run m).memory).ended = _
      rw [fst.unchanged]
      exact (snd res).ended

variable (answers : Answers p m answer)
include answers

theorem allows : Allows allowed p m := by
  intro reason stops
  rw [answers.ended] at stops
  cases answer <;> cases stops

theorem allows_bind_iff : Allows allowed (p >>= k) m ↔
      ∀ res, answer = some res → Allows allowed (k res) m := by
  rw [allows_bind]
  simp only [answers.returned_iff, answers.unchanged, answers.allows, true_and]

theorem confined_bind_iff : Confined inside (p >>= k) m ↔ Confined inside p m ∧
      ∀ res, answer = some res → Confined inside (k res) m := by
  rw [confined_bind]
  simp only [answers.returned_iff, answers.unchanged]

end Answers

/-- Read the bytes of a range. -/
def readBytes : Nat → Nat → Program Reason (List UInt8)
  | _, 0 => pure []
  | addr, size + 1 => .read addr fun byte => do
      let rest ← readBytes (addr + 1) size
      pure (byte :: rest)

/-- Send bytes. -/
def emitAll : List UInt8 → Program Reason Unit
  | [] => pure ()
  | byte :: rest => .emit byte (emitAll rest)

/-- Read a string that ends with a null byte; the address space ends after the given number of
addresses, and nothing is mapped there. -/
def readString : Nat → Nat → Program Reason (List UInt8)
  | 0, addr => .read addr fun _ => pure []
  | fuel + 1, addr => .read addr fun byte =>
    if byte = 0 then
      pure []
    else do
      let rest ← readString fuel (addr + 1)
      pure (byte :: rest)

/-! ## What a run depends on -/

/-- A run that stays in a region is the same in every memory that agrees there. -/
theorem Confined.run_eq {p : Program Reason Result} (confined : Confined inside p m)
    (agree : m.AgreeOn inside other) :
    (p.run other).ended = (p.run m).ended ∧ (p.run other).touched = (p.run m).touched ∧
      (p.run other).sent = (p.run m).sent := by
  induction p generalizing m other with
  | done res => exact ⟨rfl, rfl, rfl⟩
  | stop reason => exact ⟨rfl, rfl, rfl⟩
  | read addr next ih =>
    rw [confined_read] at confined
    cases found : m.bytes addr with
    | none =>
      -- Nothing has been accessed, but the other memory is not mapped there either.
      have missing : other.bytes addr = none := by
        rw [← not_isSome_iff_eq_none, ← agree.mapped, found]
        exact Bool.false_ne_true
      simp only [run, found, missing, and_self]
    | some byte =>
      obtain ⟨is_inside, rest⟩ := confined byte found
      have found_there : other.bytes addr = some byte := agree.bytes addr is_inside ▸ found
      obtain ⟨ended, hit, sent⟩ := ih byte rest agree
      simp only [run, found, found_there, ended, hit, sent, and_self]
  | write addr byte next ih =>
    rw [confined_write] at confined
    by_cases accepts : m.accepts addr = true
    · obtain ⟨_, rest⟩ := confined accepts
      obtain ⟨ended, hit, sent⟩ := ih rest (agree.set addr byte)
      simp only [run, ← agree.accepts, accepts, if_true, ended, hit, sent, and_self]
    · simp only [run, ← agree.accepts, if_neg accepts, and_self]
  | emit byte next ih =>
    obtain ⟨ended, hit, sent⟩ := ih confined agree
    simp only [run, ended, hit, sent, and_self]

/-- A run changes only what it accesses. -/
theorem bytes_of_untouched (p : Program Reason Result) {addr : Nat}
    (clean : addr ∉ (p.run m).touched) :
    (p.run m).memory.bytes addr = m.bytes addr := by
  induction p generalizing m with
  | done res => rfl
  | stop reason => rfl
  | read place next ih =>
    rw [run] at clean ⊢
    cases found : m.bytes place with
    | none => rfl
    | some byte =>
      rw [found] at clean
      exact ih byte fun hit => clean (List.mem_cons_of_mem _ hit)
  | write place byte next ih =>
    rw [run] at clean ⊢
    split at clean
    · rename_i accepts
      rw [if_pos accepts]
      obtain ⟨o, rest⟩ := not_or.mp (List.mem_cons.not.mp clean)
      exact (ih rest).trans (Memory.bytes_set_of_ne o)
    · rename_i refuses
      rw [if_neg refuses]
  | emit byte next ih => exact ih clean

end Program

/-! ## Ranges and strings -/

namespace Memory

variable {Reason : Type} {inside : Nat → Prop} {m : Memory}

def range (m : Memory) : Nat → Nat → Option (List UInt8)
  | _, 0 => some []
  | address, size + 1 =>
    (m.bytes address).bind fun byte => (m.range (address + 1) size).map (byte :: ·)

def string (m : Memory) : Nat → Nat → Option (List UInt8)
  | 0, address => (m.bytes address).map fun _ => []
  | fuel + 1, address =>
    (m.bytes address).bind fun byte =>
      if byte = 0 then some [] else (m.string fuel (address + 1)).map (byte :: ·)

end Memory

namespace Program

variable {Reason Result Final : Type} {m : Memory} {inside : Nat → Prop} {bound addr : Nat}

theorem Answers.read {next : UInt8 → Program Reason Result} {final : UInt8 → Option Result} (goes : ∀ byte, m.bytes addr = some byte → Answers (next byte) m (final byte)) :
    Answers (.read addr next) m ((m.bytes addr).bind final) := by
  constructor
  · rw [run]
    cases found : m.bytes addr with
    | none => rfl
    | some byte => exact (goes byte found).unchanged
  · rw [run]
    cases found : m.bytes addr with
    | none => rfl
    | some byte => exact (goes byte found).ended

theorem Answers.map {program : Program Reason Result} {answer : Option Result} {function : Result → Final}
    (answers : Answers program m answer) :
    Answers (program >>= fun res => Pure.pure (function res)) m (answer.map function) := by
  rw [Option.map_eq_bind]
  exact answers.bind fun res => .pure (function res)

theorem answers_emitAll (bytes : List UInt8) :
    Answers (emitAll bytes : Program Reason _) m (some ()) := by
  induction bytes with
  | nil => exact .pure ()
  | cons byte rest ih => exact ⟨ih.unchanged, ih.ended⟩

theorem answers_readBytes (addr size : Nat) :
    Answers (readBytes addr size : Program Reason _) m (m.range addr size) := by
  induction size generalizing addr with
  | zero => exact .pure []
  | succ size ih => exact .read fun byte _ => (ih (addr + 1)).map

theorem answers_readString (fuel addr : Nat) :
    Answers (readString fuel addr : Program Reason _) m (m.string fuel addr) := by
  induction fuel generalizing addr with
  | zero =>
    rw [Memory.string, Option.map_eq_bind]
    exact .read fun byte _ => .pure []
  | succ fuel ih =>
    refine .read fun byte _ => ?_
    split
    · exact .pure []
    · exact (ih (addr + 1)).map

theorem confined_bind_pure {program : Program Reason Result} {function : Result → Final} :
    Confined inside (program >>= fun res => pure (function res)) m ↔ Confined inside program m := by
  rw [confined_bind]
  simp

/-- The accesses to a range get beyond a bound, since all addresses on the way are accessible. -/
def Crosses (accessible : Nat → Bool) (bound addr size : Nat) : Prop :=
  bound - addr < size ∧ ∀ i ≤ bound - addr, accessible (addr + i) = true

theorem not_crosses_zero {accessible : Nat → Bool} : ¬ Crosses accessible bound addr 0 :=
  fun crosses => Nat.not_lt_zero _ crosses.1

/-- The first access of a range, and those that follow. -/
theorem not_crosses_succ {accessible : Nat → Bool} {size : Nat} :
    ¬ Crosses accessible bound addr (size + 1) ↔
      (accessible addr = true → addr < bound ∧ ¬ Crosses accessible bound (addr + 1) size) := by
  rcases Nat.lt_or_ge addr bound with below | above
  · have shorter : bound - addr = bound - (addr + 1) + 1 := by omega
    have crosses_iff : Crosses accessible bound addr (size + 1) ↔
        accessible addr = true ∧ Crosses accessible bound (addr + 1) size := by
      constructor
      · rintro ⟨long, accessible_to⟩
        refine ⟨accessible_to 0 (Nat.zero_le _), by omega, ?_⟩
        intro i within
        have next := accessible_to (i + 1) (by omega)
        rwa [Nat.add_comm i, ← Nat.add_assoc] at next
      · rintro ⟨fst, long, accessible_to⟩
        refine ⟨by omega, ?_⟩
        intro i within
        cases i with
        | zero => exact fst
        | succ i =>
          have next := accessible_to i (by omega)
          rwa [Nat.add_assoc, Nat.add_comm 1] at next
    rw [crosses_iff]
    simp only [not_and, below, true_and]
  · have none_left : bound - addr = 0 := Nat.sub_eq_zero_of_le above
    unfold Crosses
    rw [none_left]
    simp [Nat.not_lt.mpr above]

/-- The number of bytes of a string, with its null byte. -/
def extent (m : Memory) : Nat → Nat → Nat
  | 0, _ => 1
  | fuel + 1, addr => if m.bytes addr = some 0 then 1 else extent m fuel (addr + 1) + 1

theorem confined_readBytes (addr size : Nat) :
    Confined (· < bound) (readBytes addr size : Program Reason _) m ↔
      ¬ Crosses (fun place => (m.bytes place).isSome) bound addr size := by
  induction size generalizing addr with
  | zero => simp [readBytes, not_crosses_zero]
  | succ size ih =>
    rw [readBytes, confined_read, not_crosses_succ, isSome_iff_exists, forall_exists_index]
    simp only [confined_bind_pure, ih]

theorem confined_readString (fuel addr : Nat) :
    Confined (· < bound) (readString fuel addr : Program Reason _) m ↔
      ¬ Crosses (fun place => (m.bytes place).isSome) bound addr (extent m fuel addr) := by
  induction fuel generalizing addr with
  | zero =>
    rw [readString, confined_read, extent, not_crosses_succ, isSome_iff_exists, forall_exists_index]
    simp [not_crosses_zero]
  | succ fuel ih =>
    rw [readString, confined_read, extent]
    split
    · rename_i null
      rw [not_crosses_succ, isSome_iff_exists, forall_exists_index]
      simp [null, not_crosses_zero]
    · rename_i not_null
      rw [not_crosses_succ, isSome_iff_exists, forall_exists_index]
      refine forall_congr' fun byte => imp_congr_right fun found => ?_
      have nonzero : byte ≠ 0 := fun zero => not_null (zero ▸ found)
      rw [if_neg nonzero, confined_bind_pure, ih]

end Program

end Accesses
