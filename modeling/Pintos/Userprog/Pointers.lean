import Pintos.Userprog.Syscall

/-!
# What the pointers of a process lead to

The words that `pop_stack` and `get_user` find, the strings, and the ranges that the handlers read and
write.  For each of the accesses: what it returns, when it stays below `PHYS_BASE`, and when it stops.
-/

namespace Pintos.Userprog

open Accesses Accesses.Program Filesys
open Vm (physBase)

/-- The process is killed, and the kernel goes on. -/
abbrev Killed (reason : Stop) : Prop := reason = .terminated

/-- An address of user memory. -/
abbrev Below (addr : Nat) : Prop := addr < physBase

/-- The number that bytes represent, the lowest first. -/
def wordOf (bytes : List UInt8) : Word :=
  BitVec.ofNat 32 (bytes.foldr (fun byte rest => byte.toNat + 256 * rest) 0)

def wordAt (memory : Memory) (address : Nat) : Option Word := (memory.range address 4).map wordOf

/-- What `pop_stack` returns. -/
def popped (memory : Memory) (esp : Nat) : Option Word :=
  if esp < physBase ∧ esp ≠ 0 then wordAt memory esp else none

/-- What `get_user` returns. -/
def fetched (memory : Memory) (uaddr : Word) : Option Word :=
  if uaddr.toNat < physBase then wordAt memory uaddr.toNat else some (-1)

/-- The string at an address; `some none` is the null pointer. -/
def textAt (memory : Memory) (address : Word) : Option (Option CString) :=
  if address = 0 then
    some none
  else
    (memory.string (2 ^ 32 - address.toNat) address.toNat).map some

/-- Reading a range does not get beyond `PHYS_BASE`. -/
def ReadsBelow (m : Memory) (addr size : Nat) : Prop :=
  ¬ Crosses (fun place => (m.bytes place).isSome) physBase addr size

/-- Writing a range does not get beyond `PHYS_BASE`. -/
def WritesBelow (m : Memory) (addr size : Nat) : Prop :=
  ¬ Crosses m.accepts physBase addr size

/-- Reading the string at an address does not get beyond `PHYS_BASE`. -/
def TextBelow (m : Memory) (addr : Word) : Prop :=
  addr ≠ 0 → ReadsBelow m addr.toNat (extent m (2 ^ 32 - addr.toNat) addr.toNat)

variable {σ α β : Type} {m : Memory} {c : Caller σ} {continuation : Word × Caller σ → Kernel β}

theorem answers_readWord (addr : Nat) : Answers (readWord addr) m (wordAt m addr) :=
  (answers_readBytes addr 4).map

theorem answers_getUser (uaddr : Word) : Answers (getUser uaddr) m (fetched m uaddr) := by
  unfold getUser fetched
  split
  · exact answers_readWord _
  · exact .pure _

theorem answers_userString (addr : Word) : Answers (userString addr) m (textAt m addr) := by
  unfold userString textAt
  split
  · exact .pure _
  · exact (answers_readString _ _).map

theorem textAt_eq_none_iff {addr : Word} : textAt m addr = some none ↔ addr = 0 := by
  unfold textAt
  split
  · rename_i null
    exact ⟨fun _ => null, fun _ => rfl⟩
  · rename_i ne
    refine ⟨fun reads => ?_, fun null => (ne null).elim⟩
    obtain ⟨text, _, is_null⟩ := Option.map_eq_some_iff.mp reads
    cases is_null

/-- A string is read: the null pointer, and what stands at another address. -/
theorem forall_textAt_iff {addr : Word} {goal : Option CString → Prop} :
    (∀ text, textAt m addr = some text → goal text) ↔
      (addr = 0 → goal none) ∧ ∀ text, textAt m addr = some (some text) → goal (some text) := by
  constructor
  · intro holds
    exact ⟨fun null => holds none (textAt_eq_none_iff.mpr null), fun text => holds (some text)⟩
  · rintro ⟨null, ne⟩ (_ | text) reads
    · exact null (textAt_eq_none_iff.mp reads)
    · exact ne text reads

theorem staysBelow_readWord (addr : Nat) :
    Confined Below (readWord addr) m ↔ ReadsBelow m addr 4 := by
  rw [readWord, confined_bind_pure, confined_readBytes]
  rfl

theorem staysBelow_getUser (uaddr : Word) : Confined Below (getUser uaddr) m ↔
      (uaddr.toNat < physBase → ReadsBelow m uaddr.toNat 4) := by
  unfold getUser
  split
  · rename_i below
    rw [staysBelow_readWord]
    exact ⟨fun reads _ => reads, fun reads => reads below⟩
  · rename_i above
    exact ⟨fun _ below => (above below).elim, fun _ => confined_pure _⟩

theorem staysBelow_userString (addr : Word) :
    Confined Below (userString addr) m ↔ TextBelow m addr := by
  unfold userString TextBelow
  split
  · rename_i null
    exact ⟨fun _ ne => (ne null).elim, fun _ => confined_pure _⟩
  · rename_i ne
    rw [confined_bind_pure, confined_readString]
    exact ⟨fun reads _ => reads, fun reads => reads ne⟩

/-! ## The stack -/

/-- The process after one word has been popped. -/
abbrev Caller.next (c : Caller σ) : Caller σ := { c with esp := c.esp + 4 }

theorem popStack_eq (c : Caller σ) : c.popStack = if c.esp < physBase ∧ c.esp ≠ 0 then
        readWord c.esp >>= fun word => pure (word, c.next)
      else
        .stop .terminated := rfl

theorem survives_popStack_bind : Allows Killed (c.popStack >>= continuation) m ↔
      ∀ word, popped m c.esp = some word → Allows Killed (continuation (word, c.next)) m := by
  rw [popStack_eq, popped]
  split
  · have answers : Answers (readWord c.esp >>= fun word => pure (word, c.next)) m
        ((wordAt m c.esp).map fun word => (word, c.next)) := (answers_readWord _).map
    rw [answers.allows_bind_iff]
    simp
  · simp only [reduceCtorEq, false_implies, implies_true, iff_true]
    exact (allows_stop _).mpr rfl

/-- A condition on the next word of the stack and on the process that has popped it. -/
def Popping (m : Memory) (c : Caller σ) (goal : Word → Caller σ → Prop) : Prop :=
  ∀ word, popped m c.esp = some word → goal word c.next

theorem allows_popping {goal : Word → Caller σ → Prop}
    (goes : ∀ word next, Allows Killed (continuation (word, next)) m ↔ goal word next) :
    Allows Killed (c.popStack >>= continuation) m ↔ Popping m c goal := by
  rw [survives_popStack_bind]
  exact forall₂_congr fun word _ => goes word c.next

/-- The first word of the stack lies below `PHYS_BASE`, if it is looked at. -/
def PopsBelow (m : Memory) (esp : Nat) : Prop :=
  esp < physBase → esp ≠ 0 → ReadsBelow m esp 4

theorem staysBelow_popStack_bind :
    Confined Below (c.popStack >>= continuation) m ↔ PopsBelow m c.esp ∧
      ∀ word, popped m c.esp = some word → Confined Below (continuation (word, c.next)) m := by
  rw [popStack_eq, popped, PopsBelow]
  split
  · rename_i user
    have answers : Answers (readWord c.esp >>= fun word => pure (word, c.next)) m
        ((wordAt m c.esp).map fun word => (word, c.next)) := (answers_readWord _).map
    rw [answers.confined_bind_iff, confined_bind_pure, staysBelow_readWord]
    simp [user.1, user.2]
  · rename_i k
    constructor
    · intro _
      exact ⟨fun below ne => (k ⟨below, ne⟩).elim, nofun⟩
    · intro _
      exact confined_stop _

/-! ## Ranges -/

theorem accepts_set {addr : Nat} {byte : UInt8} (ok : m.accepts addr = true) :
    (m.set addr byte).accepts = m.accepts := by
  funext place
  unfold Memory.accepts
  by_cases same : place = addr
  · subst same
    rw [Memory.bytes_set_self]
    rw [Memory.accepts, Bool.and_eq_true] at ok
    rw [ok.1]
    rfl
  · rw [Memory.bytes_set_of_ne same]
    rfl

theorem survives_copyOut (addr : Nat) (bytes : List UInt8) :
    Allows Killed (copyOut addr bytes) m ↔ WritesBelow m addr bytes.length := by
  induction bytes generalizing addr m with
  | nil => simp [copyOut, WritesBelow, not_crosses_zero]
  | cons byte rest ih =>
    rw [copyOut, allows_write, WritesBelow, List.length_cons, not_crosses_succ]
    refine imp_congr_right fun ok => ?_
    split
    · rename_i below
      rw [ih, WritesBelow, accepts_set ok]
      simp only [below, true_and]
    · rename_i above
      simp [above]

theorem staysBelow_copyOut (addr : Nat) (bytes : List UInt8) :
    Confined Below (copyOut addr bytes) m ↔ WritesBelow m addr bytes.length := by
  induction bytes generalizing addr m with
  | nil => simp [copyOut, WritesBelow, not_crosses_zero]
  | cons byte rest ih =>
    rw [copyOut, confined_write, WritesBelow, List.length_cons, not_crosses_succ]
    refine imp_congr_right fun ok => ?_
    split
    · rename_i below
      rw [ih, WritesBelow, accepts_set ok]
    · rename_i above
      simp [above]

theorem survives_putbuf (buf size : Nat) : Allows Killed (putbuf buf size) m := by
  induction size generalizing buf with
  | zero => exact allows_pure _
  | succ size ih => exact allows_read.mpr fun byte _ => ih (buf + 1)

theorem staysBelow_putbuf (buf size : Nat) :
    Confined Below (putbuf buf size) m ↔ ReadsBelow m buf size := by
  induction size generalizing buf with
  | zero => simp [putbuf, ReadsBelow, not_crosses_zero]
  | succ size ih =>
    rw [putbuf, confined_read, ReadsBelow, not_crosses_succ, Option.isSome_iff_exists,
      forall_exists_index]
    simp only [confined_emit, ih, ReadsBelow]

end Pintos.Userprog
