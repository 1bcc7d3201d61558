import Mathlib.Algebra.Group.Nat.Defs
import Mathlib.Data.Option.Basic
import Mathlib.Logic.Function.Basic
import Mathlib.Tactic.Common

/-!
# Page directories

`userprog/pagedir.c` with the packed entries of `threads/pte.h`.  A failed assertion is `none`; the
page that `palloc_get_page` returns for a new page table is part of the call.  The TLB is left out.
-/

namespace Pintos.Pagedir

open Function

abbrev Word := BitVec 32

def physBase : Word := 0xc0000000

def pteAddr : Word := 0xfffff000
def pteP : Word := 0x1
def pteW : Word := 0x2
def pteU : Word := 0x4
def pteA : Word := 0x20
def pteD : Word := 0x40

abbrev IsUserVaddr (vaddr : Word) : Prop := vaddr < physBase

def ptov (paddr : Word) : Option Word :=
  if paddr < physBase then some (paddr + physBase) else none

def vtop (vaddr : Word) : Option Word :=
  if physBase ≤ vaddr then some (vaddr - physBase) else none

def pgOfs (va : Word) : Word := va &&& 0xfff

def pgNo (va : Word) : Word := va >>> 12

def ptNo (va : Word) : Word := (va &&& 0x3ff000) >>> 12

def pdNo (va : Word) : Word := va >>> 22

def pdeCreate (pt : Word) : Option Word := do
  guard (pgOfs pt = 0#32)
  some ((← vtop pt) ||| pteU ||| pteP ||| pteW)

def pdeGetPt (pde : Word) : Option Word := do
  guard (pde &&& pteP ≠ 0#32)
  ptov (pde &&& pteAddr)

def pteCreateKernel (page : Word) (writable : Bool) : Option Word := do
  guard (pgOfs page = 0#32)
  some ((← vtop page) ||| pteP ||| if writable then pteW else 0#32)

def pteCreateUser (page : Word) (writable : Bool) : Option Word := do
  some ((← pteCreateKernel page writable) ||| pteU)

def pteGetPage (pte : Word) : Option Word := ptov (pte &&& pteAddr)

/-- The entries of a page directory, and all page tables by address and index. -/
structure PageDirectory where
  entries : Word → Word
  tables : Word → Word → Word

namespace PageDirectory

/-- The page table entry that a pointer into a page table points to. -/
def get (pd : PageDirectory) (pte : Word × Word) : Word := pd.tables pte.1 pte.2

def set (pd : PageDirectory) (pte : Word × Word) (value : Word) : PageDirectory :=
  { pd with tables := update pd.tables pte.1 (update (pd.tables pte.1) pte.2 value) }

end PageDirectory

def lookupPage (pd : PageDirectory) (vaddr : Word) (create : Bool) (palloc : Option Word) :
    Option (Option (Word × Word) × PageDirectory) := do
  guard (create → IsUserVaddr vaddr)
  if pd.entries (pdNo vaddr) = 0#32 then
    if create then
      match palloc with
      | none => some (none, pd)
      | some page =>
        let pde ← pdeCreate page
        let pt ← pdeGetPt pde
        some (some (pt, ptNo vaddr), { entries := update pd.entries (pdNo vaddr) pde,
                                       tables := update pd.tables page fun _ => 0#32 })
    else
      some (none, pd)
  else
    let pt ← pdeGetPt (pd.entries (pdNo vaddr))
    some (some (pt, ptNo vaddr), pd)

/-- `ram` is `init_ram_pages`. -/
def pagedirSetPage (ram : Word) (pd : PageDirectory) (upage kpage : Word) (writable : Bool)
    (palloc : Option Word) : Option (Bool × PageDirectory) := do
  guard (pgOfs upage = 0#32 ∧ pgOfs kpage = 0#32 ∧ IsUserVaddr upage ∧ (← vtop kpage) >>> 12 < ram)
  match ← lookupPage pd upage true palloc with
  | (some pte, pd) =>
    guard (pd.get pte &&& pteP = 0#32)
    some (true, pd.set pte (← pteCreateUser kpage writable))
  | (none, pd) => some (false, pd)

def pagedirGetPage (pd : PageDirectory) (uaddr : Word) : Option (Option Word) := do
  guard (IsUserVaddr uaddr)
  match ← lookupPage pd uaddr false none with
  | (some pte, _) =>
    if pd.get pte &&& pteP ≠ 0#32 then
      some (some ((← pteGetPage (pd.get pte)) + pgOfs uaddr))
    else
      some none
  | (none, _) => some none

def pagedirClearPage (pd : PageDirectory) (upage : Word) : Option PageDirectory := do
  guard (pgOfs upage = 0#32 ∧ IsUserVaddr upage)
  match ← lookupPage pd upage false none with
  | (some pte, _) =>
    if pd.get pte &&& pteP ≠ 0#32 then some (pd.set pte (pd.get pte &&& ~~~pteP)) else some pd
  | (none, _) => some pd

/-- `pagedir_is_dirty` and `pagedir_is_accessed`. -/
def pagedirIs (flag : Word) (pd : PageDirectory) (vpage : Word) : Option Bool := do
  match ← lookupPage pd vpage false none with
  | (some pte, _) => some (pd.get pte &&& flag ≠ 0#32)
  | (none, _) => some false

/-- `pagedir_set_dirty` and `pagedir_set_accessed`. -/
def pagedirSet (flag : Word) (pd : PageDirectory) (vpage : Word) (value : Bool) :
    Option PageDirectory := do
  match ← lookupPage pd vpage false none with
  | (some pte, _) =>
    if value then
      some (pd.set pte (pd.get pte ||| flag))
    else
      some (pd.set pte (pd.get pte &&& ~~~flag))
  | (none, _) => some pd

def pagedirIsDirty := pagedirIs pteD
def pagedirSetDirty := pagedirSet pteD
def pagedirIsAccessed := pagedirIs pteA
def pagedirSetAccessed := pagedirSet pteA

/-! ## What a page directory is for -/

/-- What is known of a mapped page. -/
structure Mapped where
  kpage : Word
  dirty : Bool
  accessed : Bool

/-- The mapped pages by their number. -/
abbrev Mapping := Word → Option Mapped

inductive Operation where
  | setPage (upage kpage : Word) (writable : Bool) (palloc : Option Word)
  | clearPage (upage : Word)
  | setDirty (upage : Word) (dirty : Bool)
  | setAccessed (upage : Word) (accessed : Bool)

def Operation.upage : Operation → Word
  | setPage upage .. | clearPage upage | setDirty upage _ | setAccessed upage _ => upage

/-- The operation on a page directory; all but `pagedir_set_page` always succeed. -/
def perform (ram : Word) (pd : PageDirectory) : Operation → Option (Bool × PageDirectory)
  | .setPage upage kpage writable palloc => pagedirSetPage ram pd upage kpage writable palloc
  | .clearPage upage => (pagedirClearPage pd upage).map (true, ·)
  | .setDirty upage dirty => (pagedirSetDirty pd upage dirty).map (true, ·)
  | .setAccessed upage accessed => (pagedirSetAccessed pd upage accessed).map (true, ·)

/-- What the operation makes of its page. -/
def Operation.change : Operation → Option Mapped → Option Mapped
  | setPage _ kpage _ _, _ => some { kpage, dirty := false, accessed := false }
  | clearPage _, _ => none
  | setDirty _ dirty, mapped => mapped.map fun page => { page with dirty }
  | setAccessed _ accessed, mapped => mapped.map fun page => { page with accessed }

def Mapping.perform (m : Mapping) (op : Operation) : Mapping :=
  update m (pgNo op.upage) (op.change (m (pgNo op.upage)))

/-- An aligned kernel address. -/
def KernelPage (page : Word) : Prop := pgOfs page = 0#32 ∧ physBase ≤ page

/-- What a caller has to see to: pages are aligned, only an unmapped page is set, and a new page table
is not in use. -/
def Allowed (ram : Word) (pd : PageDirectory) (m : Mapping) (op : Operation) : Prop :=
  pgOfs op.upage = 0#32 ∧ IsUserVaddr op.upage ∧
    match op with
    | .setPage upage kpage _ palloc => m (pgNo upage) = none ∧ KernelPage kpage ∧
        (kpage - physBase) >>> 12 < ram ∧ ∀ pt ∈ palloc, KernelPage pt ∧
          ∀ va, IsUserVaddr va → lookupPage pd va false none ≠ some (some (pt, ptNo va), pd)
    | _ => True

/-- A page directory after a sequence of operations, beside the mapping that it stands for.  It begins
without user pages. -/
inductive Runs (ram : Word) : PageDirectory → Mapping → Prop
  | create {pd : PageDirectory} (user : ∀ va, IsUserVaddr va → pd.entries (pdNo va) = 0#32) :
      Runs ram pd fun _ => none
  | operation {pd pd' : PageDirectory} {m : Mapping} {op : Operation} {done : Bool}
      (earlier : Runs ram pd m) (allowed : Allowed ram pd m op)
      (performed : perform ram pd op = some (done, pd')) :
      Runs ram pd' (if done then m.perform op else m)

/-! ## Packed entries -/

theorem pgNo_eq_iff {va vb : Word} : pgNo va = pgNo vb ↔ pdNo va = pdNo vb ∧ ptNo va = ptNo vb := by
  have low (v : Word) : (ptNo v).toNat = v.toNat / 2 ^ 12 % 2 ^ 10 := by
    rw [ptNo, BitVec.ushiftRight_and_distrib, BitVec.toNat_and, BitVec.toNat_ushiftRight,
      Nat.shiftRight_eq_div_pow]
    exact Nat.and_two_pow_sub_one_eq_mod _ 10
  have high (v : Word) (n : Nat) : (v >>> n).toNat = v.toNat / 2 ^ n := by
    rw [BitVec.toNat_ushiftRight, Nat.shiftRight_eq_div_pow]
  simp only [← BitVec.toNat_inj, low, pdNo, pgNo, high]
  omega

/-- The physical address of a kernel page has no bits among the flags. -/
theorem KernelPage.paddr {page : Word} (kernel : KernelPage page) :
    page - physBase < physBase ∧ (page - physBase) &&& 0xfff = 0#32 := by
  have offset (v : Word) : (v &&& 0xfff).toNat = v.toNat % 2 ^ 12 := by
    rw [BitVec.toNat_and]
    exact Nat.and_two_pow_sub_one_eq_mod _ 12
  have most := page.isLt
  have least : 0xc0000000 ≤ page.toNat := kernel.2
  have value : (page - physBase).toNat = page.toNat - 0xc0000000 := BitVec.toNat_sub_of_le kernel.2
  have align : page.toNat % 2 ^ 12 = 0 := (offset page).symm.trans (congrArg BitVec.toNat kernel.1)
  constructor
  · change (page - physBase).toNat < 0xc0000000
    omega
  · refine BitVec.eq_of_toNat_eq ?_
    rw [offset, value]
    change _ = 0
    omega

section

variable {addr flags pte : Word}

theorem addr_packed (align : addr &&& 0xfff = 0#32) (apart : flags &&& pteAddr = 0#32) :
    (addr ||| flags) &&& pteAddr = addr := by
  have whole : addr &&& (pteAddr ||| 0xfff) = addr := BitVec.and_allOnes
  rw [BitVec.and_or_distrib_left, align, BitVec.or_zero] at whole
  rw [BitVec.and_or_distrib_right, whole, apart, BitVec.or_zero]

theorem flags_packed (mask : Word) (align : addr &&& 0xfff = 0#32) (low : 0xfff &&& mask = mask) :
    (addr ||| flags) &&& mask = flags &&& mask := by
  have zero : addr &&& mask = 0#32 := by rw [← low, ← BitVec.and_assoc, align, BitVec.zero_and]
  rw [BitVec.and_or_distrib_right, zero, BitVec.zero_or]

/-- Setting or clearing a flag leaves the bits of a mask without it. -/
theorem edited_and (mask : Word) (value : Bool) (clears : ~~~flags &&& mask = mask)
    (apart : flags &&& mask = 0#32) :
    (if value then pte ||| flags else pte &&& ~~~flags) &&& mask = pte &&& mask := by
  cases value
  · simp only [Bool.false_eq_true, if_false, BitVec.and_assoc, clears]
  · simp only [if_true, BitVec.and_or_distrib_right, apart, BitVec.or_zero]

theorem edited_and_self (value : Bool) (nonzero : flags ≠ 0#32) :
    decide ((if value then pte ||| flags else pte &&& ~~~flags) &&& flags ≠ 0#32) = value := by
  cases value
  · simp [BitVec.and_assoc]
  · have absorbs : (pte ||| flags) &&& flags = flags := by
      ext i
      simpa using fun set => .inr set
    rw [if_pos rfl, absorbs]
    exact decide_eq_true nonzero

end

theorem pdeCreate_eq {page : Word} (kernel : KernelPage page) :
    ∃ pde, pdeCreate page = some pde ∧ pde ≠ 0#32 ∧ pdeGetPt pde = some page := by
  obtain ⟨below, align⟩ := kernel.paddr
  have addr : ((page - physBase) ||| (pteU ||| pteP ||| pteW)) &&& pteAddr = page - physBase :=
    addr_packed align rfl
  have here : ((page - physBase) ||| (pteU ||| pteP ||| pteW)) &&& pteP ≠ 0#32 := by
    rw [flags_packed pteP align rfl]
    decide
  refine ⟨(page - physBase) ||| (pteU ||| pteP ||| pteW), ?_, ?_, ?_⟩
  · rw [← BitVec.or_assoc, ← BitVec.or_assoc]
    simp only [pdeCreate, kernel.1, guard_true, vtop, if_pos kernel.2]
    rfl
  · intro zero
    exact here (by rw [zero]; rfl)
  · simp only [pdeGetPt, ne_eq, here, not_false_eq_true, guard_true, addr, ptov, if_pos below,
      BitVec.sub_add_cancel]
    rfl

/-- The page table entry of a page. -/
def Agrees (pte : Word) : Option Mapped → Prop
  | none => pte &&& pteP = 0#32
  | some page => pte &&& pteP ≠ 0#32 ∧ pteGetPage pte = some page.kpage ∧
      decide (pte &&& pteD ≠ 0#32) = page.dirty ∧ decide (pte &&& pteA ≠ 0#32) = page.accessed

theorem pteCreateUser_agrees {kpage : Word} (kernel : KernelPage kpage) (writable : Bool) :
    ∃ pte, pteCreateUser kpage writable = some pte ∧
      Agrees pte (some { kpage, dirty := false, accessed := false }) := by
  obtain ⟨below, align⟩ := kernel.paddr
  obtain ⟨flags, is_flags⟩ : ∃ flags, flags = pteP ||| (if writable then pteW else 0#32) ||| pteU :=
    ⟨_, rfl⟩
  refine ⟨(kpage - physBase) ||| flags, ?_, ?_, ?_, ?_⟩
  · rw [is_flags, ← BitVec.or_assoc, ← BitVec.or_assoc]
    simp only [pteCreateUser, pteCreateKernel, kernel.1, guard_true, vtop, if_pos kernel.2]
    rfl
  · rw [flags_packed pteP align rfl, is_flags]
    cases writable <;> decide
  · rw [pteGetPage, addr_packed align (by rw [is_flags]; cases writable <;> rfl), ptov,
      if_pos below, BitVec.sub_add_cancel]
  · rw [flags_packed pteD align rfl, flags_packed pteA align rfl, is_flags]
    cases writable <;> exact ⟨rfl, rfl⟩

theorem Agrees.setDirty {pte : Word} {page : Option Mapped} (agrees : Agrees pte page)
    (value : Bool) : Agrees (if value then pte ||| pteD else pte &&& ~~~pteD)
      (page.map fun page => { page with dirty := value }) := by
  cases page with
  | none => exact (edited_and pteP value rfl rfl).trans agrees
  | some page =>
    obtain ⟨here, kpage, -, accessed⟩ := agrees
    refine ⟨?_, ?_, edited_and_self value (by decide), ?_⟩
    · rwa [edited_and pteP value rfl rfl]
    · rwa [pteGetPage, edited_and pteAddr value rfl rfl]
    · rwa [edited_and pteA value rfl rfl]

theorem Agrees.setAccessed {pte : Word} {page : Option Mapped} (agrees : Agrees pte page)
    (value : Bool) : Agrees (if value then pte ||| pteA else pte &&& ~~~pteA)
      (page.map fun page => { page with accessed := value }) := by
  cases page with
  | none => exact (edited_and pteP value rfl rfl).trans agrees
  | some page =>
    obtain ⟨here, kpage, dirty, -⟩ := agrees
    refine ⟨?_, ?_, ?_, edited_and_self value (by decide)⟩
    · rwa [edited_and pteP value rfl rfl]
    · rwa [pteGetPage, edited_and pteAddr value rfl rfl]
    · rwa [edited_and pteD value rfl rfl]

/-! ## Page tables -/

/-- The page directory says what the mapping says.  `tables` are its page tables, by index; no two are
the same page. -/
structure Refines (tables : Word → Option Word) (pd : PageDirectory) (m : Mapping) : Prop where
  missing : ∀ va, IsUserVaddr va → tables (pdNo va) = none →
    pd.entries (pdNo va) = 0#32 ∧ m (pgNo va) = none
  found : ∀ va pt, IsUserVaddr va → tables (pdNo va) = some pt → pd.entries (pdNo va) ≠ 0#32 ∧
    pdeGetPt (pd.entries (pdNo va)) = some pt ∧ Agrees (pd.tables pt (ptNo va)) (m (pgNo va))
  apart : ∀ va vb, IsUserVaddr va → IsUserVaddr vb → tables (pdNo va) ≠ none →
    tables (pdNo va) = tables (pdNo vb) → pdNo va = pdNo vb

section

variable {tables : Word → Option Word} {pd : PageDirectory} {m : Mapping} {va pt : Word}
  (refines : Refines tables pd m) (user : IsUserVaddr va)
include refines user

theorem Refines.lookupPage_eq {create : Bool} {palloc : Option Word}
    (made : create → tables (pdNo va) ≠ none) : lookupPage pd va create palloc =
      some ((tables (pdNo va)).map (·, ptNo va), pd) := by
  simp only [lookupPage, user, implies_true, guard_true]
  cases table : tables (pdNo va) with
  | none =>
    cases create with
    | false => simp [(refines.missing va user table).1]
    | true => exact absurd table (made rfl)
  | some pt =>
    obtain ⟨nonzero, points, -⟩ := refines.found va pt user table
    simp [nonzero, points]

/-- A store to a page table entry changes one page. -/
theorem Refines.set {value : Word} {page : Option Mapped} (table : tables (pdNo va) = some pt)
    (agrees : Agrees value page) :
    Refines tables (pd.set (pt, ptNo va) value) (update m (pgNo va) page) := by
  refine ⟨fun vb user_b none_b => ?_, fun vb qt user_b table_b => ?_, refines.apart⟩
  · obtain ⟨zero, free⟩ := refines.missing vb user_b none_b
    refine ⟨zero, (update_of_ne ?_ _ _).trans free⟩
    intro same
    rw [(pgNo_eq_iff.mp same).1, table] at none_b
    cases none_b
  · obtain ⟨nonzero, points, agrees_b⟩ := refines.found vb qt user_b table_b
    refine ⟨nonzero, points, ?_⟩
    by_cases same : pgNo vb = pgNo va
    · obtain ⟨same_pd, same_pt⟩ := pgNo_eq_iff.mp same
      obtain rfl : pt = qt := by
        rw [same_pd, table] at table_b
        exact Option.some.inj table_b
      simpa only [PageDirectory.set, same, same_pt, update_self] using agrees
    · have o : ¬ (qt = pt ∧ ptNo vb = ptNo va) := by
        rintro ⟨rfl, same_pt⟩
        refine same (pgNo_eq_iff.mpr ⟨?_, same_pt⟩)
        exact refines.apart vb va user_b user (by simp [table_b]) (table_b.trans table.symm)
      rw [update_of_ne same]
      by_cases same_table : qt = pt
      · subst same_table
        simpa only [PageDirectory.set, update_self, update_of_ne fun h => o ⟨rfl, h⟩] using agrees_b
      · simpa only [PageDirectory.set, update_of_ne same_table] using agrees_b

/-- A new page table maps nothing. -/
theorem Refines.create (missing : tables (pdNo va) = none) {page : Word} (kernel : KernelPage page)
    (fresh : ∀ va, IsUserVaddr va → tables (pdNo va) ≠ some page) :
    ∃ pd', lookupPage pd va true (some page) = some (some (page, ptNo va), pd') ∧
      Refines (update tables (pdNo va) (some page)) pd' m := by
  obtain ⟨pde, makes, nonzero, points⟩ := pdeCreate_eq kernel
  refine ⟨_, by simp [lookupPage, (refines.missing va user missing).1, makes, points, user]; rfl,
    fun vb user_b none_b => ?_, fun vb qt user_b table_b => ?_, fun vb vc user_b user_c some_b same => ?_⟩
  · have o : pdNo vb ≠ pdNo va := by
      intro same
      rw [same, update_self] at none_b
      cases none_b
    rw [update_of_ne o] at none_b
    simpa only [update_of_ne o] using refines.missing vb user_b none_b
  · by_cases same : pdNo vb = pdNo va
    · rw [same, update_self] at table_b
      obtain rfl := Option.some.inj table_b
      rw [← same] at missing
      simp only [same, update_self, (refines.missing vb user_b missing).2]
      exact ⟨nonzero, points, rfl⟩
    · rw [update_of_ne same] at table_b
      have o : qt ≠ page := by
        rintro rfl
        exact fresh vb user_b table_b
      simpa only [update_of_ne same, update_of_ne o] using refines.found vb qt user_b table_b
  · by_cases same_b : pdNo vb = pdNo va <;> by_cases same_c : pdNo vc = pdNo va
    · exact same_b.trans same_c.symm
    · rw [same_b, update_self, update_of_ne same_c] at same
      exact absurd same.symm (fresh vc user_c)
    · rw [same_c, update_self, update_of_ne same_b] at same
      exact absurd same (fresh vb user_b)
    · rw [update_of_ne same_b] at some_b same
      rw [update_of_ne same_c] at same
      exact refines.apart vb vc user_b user_c some_b same

/-! ## Operations -/

theorem Refines.pagedirSet_eq {flag : Word} {value : Bool} {page : Option Mapped}
    (free : m (pgNo va) = none → page = none)
    (edits : ∀ pte, Agrees pte (m (pgNo va)) →
      Agrees (if value then pte ||| flag else pte &&& ~~~flag) page) :
    ∃ pd', pagedirSet flag pd va value = some pd' ∧ Refines tables pd' (update m (pgNo va) page) := by
  unfold pagedirSet
  rw [refines.lookupPage_eq user (by simp)]
  cases table : tables (pdNo va) with
  | none =>
    have missing := (refines.missing va user table).2
    refine ⟨pd, rfl, ?_⟩
    rwa [free missing, ← missing, update_eq_self]
  | some pt =>
    obtain ⟨-, -, agrees⟩ := refines.found va pt user table
    refine ⟨_, ?_, refines.set user table (edits _ agrees)⟩
    cases value <;> rfl

theorem Refines.pagedirClearPage_eq (align : pgOfs va = 0#32) :
    ∃ pd', pagedirClearPage pd va = some pd' ∧ Refines tables pd' (update m (pgNo va) none) := by
  simp only [pagedirClearPage, align, user, and_self, guard_true]
  rw [refines.lookupPage_eq user (by simp)]
  have kept (free : m (pgNo va) = none) : Refines tables pd (update m (pgNo va) none) := by
    rwa [← free, update_eq_self]
  cases table : tables (pdNo va) with
  | none => exact ⟨pd, rfl, kept (refines.missing va user table).2⟩
  | some pt =>
    obtain ⟨-, -, agrees⟩ := refines.found va pt user table
    by_cases here : pd.get (pt, ptNo va) &&& pteP = 0#32
    · refine ⟨pd, by simp [here], kept ?_⟩
      cases mapped : m (pgNo va) with
      | none => rfl
      | some page =>
        rw [mapped] at agrees
        exact absurd here agrees.1
    · refine ⟨_, by simp [here]; rfl, refines.set user table ?_⟩
      exact (BitVec.and_assoc ..).trans BitVec.and_zero

theorem Refines.pagedirSetPage_eq {ram kpage : Word} {writable : Bool} {palloc : Option Word}
    (allowed : Allowed ram pd m (.setPage va kpage writable palloc)) :
    ∃ done pd', pagedirSetPage ram pd va kpage writable palloc = some (done, pd') ∧
      (∃ tables, Refines tables pd'
        (if done then m.perform (.setPage va kpage writable palloc) else m)) ∧
      (done = false → pd' = pd) := by
  obtain ⟨align, -, free, kernel, in_ram, fresh⟩ := allowed
  change pgOfs va = 0#32 at align
  obtain ⟨pte, makes, agrees⟩ := pteCreateUser_agrees kernel writable
  have stores {tables pd' pt} (refines : Refines tables pd' m) (table : tables (pdNo va) = some pt)
      (looked_up : lookupPage pd va true palloc = some (some (pt, ptNo va), pd')) :
      pagedirSetPage ram pd va kpage writable palloc = some (true, pd'.set (pt, ptNo va) pte) := by
    obtain ⟨-, -, absent⟩ := refines.found va pt user table
    rw [free] at absent
    have absent : pd'.get (pt, ptNo va) &&& pteP = 0#32 := absent
    simp [pagedirSetPage, vtop, kernel.1, kernel.2, align, user, in_ram, looked_up, absent, makes]
  cases table : tables (pdNo va) with
  | some pt =>
    have eq := stores refines table (by rw [refines.lookupPage_eq user (by simp [table]), table]; rfl)
    exact ⟨true, _, eq, ⟨_, refines.set user table agrees⟩, by simp⟩
  | none =>
    cases palloc with
    | none =>
      refine ⟨false, pd, ?_, ⟨_, refines⟩, fun _ => rfl⟩
      simp [pagedirSetPage, vtop, kernel.1, kernel.2, align, user, in_ram, lookupPage,
        (refines.missing va user table).1]
    | some page =>
      obtain ⟨is_page, unused⟩ := fresh page rfl
      obtain ⟨pd', looked_up, refines'⟩ := refines.create user table is_page fun vb user_b used =>
        unused vb user_b (by rw [refines.lookupPage_eq user_b (by simp), used]; rfl)
      have table' : update tables (pdNo va) (some page) (pdNo va) = some page := update_self ..
      exact ⟨true, _, stores refines' table' looked_up, ⟨_, refines'.set user table' agrees⟩, by simp⟩

theorem Refines.pagedirGetPage_eq : pagedirGetPage pd va =
    some ((m (pgNo va)).map fun page => page.kpage + pgOfs va) := by
  simp only [pagedirGetPage, user, guard_true]
  rw [refines.lookupPage_eq user (by simp)]
  cases table : tables (pdNo va) with
  | none =>
    rw [(refines.missing va user table).2]
    rfl
  | some pt =>
    obtain ⟨-, -, agrees⟩ := refines.found va pt user table
    change Agrees (pd.get (pt, ptNo va)) _ at agrees
    cases mapped : m (pgNo va) with
    | none =>
      rw [mapped] at agrees
      simp [show pd.get (pt, ptNo va) &&& pteP = 0#32 from agrees]
    | some page =>
      rw [mapped] at agrees
      simp [agrees.1, agrees.2.1]

theorem Refines.bits_eq {page : Mapped} (mapped : m (pgNo va) = some page) :
    pagedirIsDirty pd va = some page.dirty ∧ pagedirIsAccessed pd va = some page.accessed := by
  cases table : tables (pdNo va) with
  | none => exact absurd ((refines.missing va user table).2.symm.trans mapped) (by simp)
  | some pt =>
    obtain ⟨-, -, agrees⟩ := refines.found va pt user table
    rw [mapped] at agrees
    rw [pagedirIsDirty, pagedirIsAccessed, pagedirIs, pagedirIs,
      refines.lookupPage_eq user (by simp), table]
    exact ⟨congrArg some agrees.2.2.1, congrArg some agrees.2.2.2⟩

end

/-- Every allowed operation returns, and the page directory says what the mapping says afterwards. -/
theorem Refines.perform {ram : Word} {tables : Word → Option Word} {pd : PageDirectory} {m : Mapping}
    {op : Operation} (refines : Refines tables pd m) (allowed : Allowed ram pd m op) :
    ∃ done pd', perform ram pd op = some (done, pd') ∧
      (∃ tables, Refines tables pd' (if done then m.perform op else m)) ∧
      (done = false → pd' = pd) := by
  have user := allowed.2.1
  have always {res : Option PageDirectory} : (∃ pd', res = some pd' ∧
      Refines tables pd' (m.perform op)) → ∃ done pd', res.map (true, ·) = some (done, pd') ∧
        (∃ tables, Refines tables pd' (if done then m.perform op else m)) ∧
        (done = false → pd' = pd) := by
    rintro ⟨pd', rfl, next⟩
    exact ⟨true, pd', rfl, ⟨_, next⟩, by simp⟩
  cases op with
  | setPage upage kpage writable palloc => exact refines.pagedirSetPage_eq user allowed
  | clearPage upage => exact always (refines.pagedirClearPage_eq user allowed.1)
  | setDirty upage dirty =>
    refine always (refines.pagedirSet_eq user (fun free => ?_) fun pte agrees =>
      agrees.setDirty dirty)
    exact congrArg (Option.map _) free
  | setAccessed upage accessed =>
    refine always (refines.pagedirSet_eq user (fun free => ?_) fun pte agrees =>
      agrees.setAccessed accessed)
    exact congrArg (Option.map _) free

theorem Runs.refines {ram : Word} {pd : PageDirectory} {m : Mapping} (runs : Runs ram pd m) :
    ∃ tables, Refines tables pd m := by
  induction runs with
  | create empty => exact ⟨fun _ => none, fun va user _ => ⟨empty va user, rfl⟩, by simp, by simp⟩
  | operation prev allowed performed ih =>
    obtain ⟨tables, refines⟩ := ih
    obtain ⟨done, pd', eq, next, -⟩ := refines.perform allowed
    cases performed.symm.trans eq
    exact next

end Pintos.Pagedir
