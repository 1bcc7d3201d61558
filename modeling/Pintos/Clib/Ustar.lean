import Mathlib.Algebra.Group.Nat.Defs
import Mathlib.Data.List.Basic
import Pintos.Lib.Buffer

/-!
# Headers of archives

The functions of `ustar.c` that make and parse the header of a file in an archive.  A header is made by
storing fields, texts in `char` arrays, in zeroed memory.
-/

namespace Pintos.Clib

open List

inductive UstarType
  | regular
  | directory
  | eof
  deriving DecidableEq

/-- The byte of a type in a header; `USTAR_EOF` has none. -/
def UstarType.flag : UstarType → UInt8
  | regular => 48
  | directory => 53
  | eof => 255

/-- What `ustar_parse_header` returns of a header that it accepts. -/
structure UstarEntry where
  fileName : Option (List UInt8)
  type : UstarType
  size : Nat
  deriving DecidableEq

/-! ## Names -/

/-- The loop of `strip_antisocial_prefixes` over `/`, `./` and `../`. -/
def dropPrefixes : List UInt8 → List UInt8
  | 47 :: name => dropPrefixes name
  | 46 :: 47 :: name => dropPrefixes name
  | 46 :: 46 :: 47 :: name => dropPrefixes name
  | name => name

def stripAntisocialPrefixes (name : List UInt8) : List UInt8 :=
  let name := dropPrefixes name
  if name = [] ∨ name = [46, 46] then [46] else name

/-- A name that an extractor can be given. -/
structure Social (name : List UInt8) : Prop where
  nonempty : name ≠ []
  not_parent : name ≠ [46, 46]
  no_root : ∀ rest, name ≠ 47 :: rest
  no_dot : ∀ rest, name ≠ 46 :: 47 :: rest
  no_dots : ∀ rest, name ≠ 46 :: 46 :: 47 :: rest

theorem Social.strip {name : List UInt8} (social : Social name) :
    stripAntisocialPrefixes name = name := by
  have drops : dropPrefixes name = name := by
    rw [dropPrefixes]
    · exact social.no_root
    · exact social.no_dot
    · exact social.no_dots
  rw [stripAntisocialPrefixes, drops, if_neg]
  exact not_or.mpr ⟨social.nonempty, social.not_parent⟩

/-- Names are stripped of all that an extractor cannot be given. -/
theorem social_strip (name : List UInt8) : Social (stripAntisocialPrefixes name) := by
  have drops : ∀ rest, dropPrefixes name ≠ 47 :: rest ∧ dropPrefixes name ≠ 46 :: 47 :: rest ∧
      dropPrefixes name ≠ 46 :: 46 :: 47 :: rest := by
    intro rest
    fun_induction dropPrefixes name with
    | case1 name ih => exact ih
    | case2 name ih => exact ih
    | case3 name ih => exact ih
    | case4 name no_root no_dot no_dots => exact ⟨no_root rest, no_dot rest, no_dots rest⟩
  unfold stripAntisocialPrefixes
  dsimp only
  split_ifs with empty
  · exact ⟨by simp, by simp, by simp, by simp, by simp⟩
  · exact ⟨(not_or.mp empty).1, (not_or.mp empty).2, fun rest => (drops rest).1,
      fun rest => (drops rest).2.1, fun rest => (drops rest).2.2⟩

theorem not_mem_strip {name : List UInt8} (no_nul : 0 ∉ name) :
    0 ∉ stripAntisocialPrefixes name := by
  have drops : 0 ∉ dropPrefixes name := by
    fun_induction dropPrefixes name with
    | case1 name ih => exact ih (by simp_all)
    | case2 name ih => exact ih (by simp_all)
    | case3 name ih => exact ih (by simp_all)
    | case4 name => exact no_nul
  unfold stripAntisocialPrefixes
  dsimp only
  split_ifs
  · decide
  · exact drops

/-! ## Octal fields -/

/-- What `%0<width>o` prints for a value below `8 ^ width`. -/
def octalDigits : Nat → Nat → List UInt8
  | 0, _ => []
  | width + 1, value => octalDigits width (value / 8) ++ [UInt8.ofNat (48 + value % 8)]

/-- `parse_octal_field`, from an offset on with the value so far. -/
def parseOctalField : List UInt8 → Nat → Nat → Option Nat
  | [], _, _ => none
  | c :: field, ofs, value =>
    if 48 ≤ c ∧ c ≤ 55 then
      if (2 ^ 32 - 1) / 8 < value then none
      else parseOctalField field (ofs + 1) ((c.toNat - 48 + value * 8) % 2 ^ 32)
    else if c = 32 ∨ c = 0 then
      if 0 < ofs then some value else none
    else
      none

@[simp]
theorem length_octalDigits (width value : Nat) : (octalDigits width value).length = width := by
  induction width generalizing value with
  | zero => rfl
  | succ width ih => simp [octalDigits, ih]

theorem parseOctalField_digits {width value : Nat} {field : List UInt8} (fits : value < 8 ^ width)
    (small : value < 2 ^ 32) :
    parseOctalField (octalDigits width value ++ field) 0 0 = parseOctalField field width value := by
  induction width generalizing value field with
  | zero =>
    obtain rfl : value = 0 := by simpa using fits
    rfl
  | succ width ih =>
    have digit : (UInt8.ofNat (48 + value % 8)).toNat = 48 + value % 8 := by
      rw [UInt8.toNat_ofNat', Nat.mod_eq_of_lt (by omega)]
    rw [octalDigits, append_assoc, ih (by rw [Nat.pow_succ] at fits; omega) (by omega),
      singleton_append, parseOctalField, if_pos, if_neg (by omega), digit]
    · congr 1
      omega
    · simp only [UInt8.le_iff_toNat_le, digit]
      constructor <;> simp
      omega

/-! ## Fields of a header -/

/-- Bytes are stored from a place on. -/
def store (header : Buffer) (field : Nat × List UInt8) : Buffer :=
  fun i => if field.1 ≤ i ∧ i < field.1 + field.2.length then field.2.getD (i - field.1) 0
    else header i

/-- The bytes of a field. -/
def fieldAt (header : Buffer) (start size : Nat) : List UInt8 :=
  (range size).map fun i => header (start + i)

def calculateChksum (header : Buffer) : Nat :=
  (range 512).foldl (fun chksum i =>
    (chksum + if 148 ≤ i ∧ i < 156 then 32 else (header i).toNat) % 2 ^ 32) 0

/-- The fields that `ustar_make_header` stores before the checksum. -/
def headerFields (name : List UInt8) (type : UstarType) (size : Nat) : List (Nat × List UInt8) :=
  [(0, name), (100, octalDigits 7 (if type = .regular then 0o644 else 0o755)),
    (108, replicate 7 48),
    (116, replicate 7 48),
    (124, octalDigits 11 size),
    (136, octalDigits 11 1136102400),
    (156, [type.flag]),
    -- `ustar`, `00` and twice `root`
    (257, [117, 115, 116, 97, 114]),
    (263, [48, 48]),
    (297, [114, 111, 111, 116]),
    (265, [114, 111, 111, 116])]

/-- `ustar_make_header` for a regular file or a directory. -/
def ustarMakeHeader (name : List UInt8) (type : UstarType) (size : Nat) : Option Buffer :=
  let name := stripAntisocialPrefixes name
  if 99 < name.length then
    none
  else
    let header := (headerFields name type size).foldl store Buffer.zeros
    some (store header (148, octalDigits 7 (calculateChksum header)))

def isAllZeros (block : Buffer) (cnt : Nat) : Bool :=
  (range cnt).all fun i => block i = 0

def ustarParseHeader (header : Buffer) : Except String UstarEntry :=
  if isAllZeros header 512 then
    .ok ⟨none, .eof, 0⟩
  else if fieldAt header 257 6 ≠ [117, 115, 116, 97, 114, 0] then
    .error "not a ustar archive"
  else if fieldAt header 263 2 ≠ [48, 48] then
    .error "invalid ustar version"
  else
    match parseOctalField (fieldAt header 148 8) 0 0 with
    | none => .error "corrupt chksum field"
    | some chksum =>
      if chksum ≠ calculateChksum header then
        .error "checksum mismatch"
      else if header 99 ≠ 0 ∨ header 345 ≠ 0 then
        .error "file name too long"
      else
        let name := stripAntisocialPrefixes ((fieldAt header 0 100).takeWhile (· ≠ 0))
        if header 156 = UstarType.regular.flag then
          match parseOctalField (fieldAt header 124 12) 0 0 with
          | none => .error "corrupt file size field"
          | some size =>
            if 2 ^ 31 - 1 < size then .error "file too large" else .ok ⟨some name, .regular, size⟩
        else if header 156 = UstarType.directory.flag then
          .ok ⟨some name, .directory, 0⟩
        else
          .error "unimplemented file type"

section

variable {header : Buffer} {fields : List (Nat × List UInt8)} {field : Nat × List UInt8}
  {start size i : Nat} {bytes : List UInt8}

theorem store_outside (out : i < field.1 ∨ field.1 + field.2.length ≤ i) :
    store header field i = header i :=
  if_neg (by omega)

theorem store_inside (inside : i < bytes.length) :
    store header (start, bytes) (start + i) = bytes.get ⟨i, inside⟩ := by
  rw [store, if_pos (by dsimp only; omega), Nat.add_sub_cancel_left, getD_eq_getElem _ _ inside, get_eq_getElem]

theorem foldl_store_outside (out : ∀ field ∈ fields, i < field.1 ∨ field.1 + field.2.length ≤ i) :
    fields.foldl store header i = header i := by
  induction fields generalizing header with
  | nil => rfl
  | cons field fields ih =>
    rw [foldl_cons, ih fun later mem => out later (mem_cons_of_mem _ mem),
      store_outside (out field mem_cons_self)]

/-- A field that no other one overlaps holds its text, with zeros behind it. -/
theorem fieldAt_foldl (k : Nat) (stored : fields[k]? = some (start, bytes))
    (fits : bytes.length ≤ size)
    (clear : ∀ field ∈ fields.eraseIdx k, start + size ≤ field.1 ∨ field.1 + field.2.length ≤ start) :
    fieldAt (fields.foldl store Buffer.zeros) start size =
      bytes ++ replicate (size - bytes.length) 0 := by
  obtain ⟨below, is_field⟩ := List.getElem?_eq_some_iff.mp stored
  have split : fields = fields.take k ++ (start, bytes) :: fields.drop (k + 1) := by
    rw [← is_field, getElem_cons_drop, take_append_drop]
  rw [eraseIdx_eq_take_drop_succ] at clear
  refine ext_getElem (by simp [fieldAt]; omega) fun i left right => ?_
  have inside : i < size := by simpa [fieldAt] using left
  have early : ∀ field ∈ fields.take k, start + i < field.1 ∨ field.1 + field.2.length ≤ start + i := by
    intro field mem
    have beside := clear field (mem_append_left _ mem)
    omega
  have late : ∀ field ∈ fields.drop (k + 1),
      start + i < field.1 ∨ field.1 + field.2.length ≤ start + i := by
    intro field mem
    have beside := clear field (mem_append_right _ mem)
    omega
  simp only [fieldAt, getElem_map, getElem_range]
  rw [split, foldl_append, foldl_cons, foldl_store_outside late]
  by_cases in_text : i < bytes.length
  · rw [store_inside in_text, getElem_append_left in_text, get_eq_getElem]
  · rw [store_outside (.inr (by dsimp only; omega)), foldl_store_outside early,
      getElem_append_right (by omega), getElem_replicate]
    rfl

theorem calculateChksum_lt (header : Buffer) : calculateChksum header < 8 ^ 7 := by
  have bounded : ∀ (indices : List Nat) (chksum : Nat), indices.foldl (fun chksum i =>
      (chksum + if 148 ≤ i ∧ i < 156 then 32 else (header i).toNat) % 2 ^ 32) chksum ≤
        chksum + 255 * indices.length := by
    intro indices
    induction indices with
    | nil => simp
    | cons i indices ih =>
      intro chksum
      have byte := (header i).toNat_lt
      have next := ih ((chksum + if 148 ≤ i ∧ i < 156 then 32 else (header i).toNat) % 2 ^ 32)
      rw [foldl_cons, length_cons]
      split_ifs at next ⊢ <;> omega
  have sum := bounded (range 512) 0
  rw [length_range] at sum
  exact Nat.lt_of_le_of_lt sum (by decide)

theorem calculateChksum_store (text : List UInt8) (fits : text.length ≤ 8) :
    calculateChksum (store header (148, text)) = calculateChksum header := by
  unfold calculateChksum
  congr 1
  funext chksum i
  split_ifs with inside
  · rfl
  · rw [store_outside (by simp; omega)]

end

/-- Headers can be parsed, and give back the stripped name, the type and the size of a regular file. -/
theorem ustar_round_trip (name : List UInt8) (type : UstarType) (size : Nat) (no_nul : 0 ∉ name)
    (known : type ≠ .eof) (small : size < 2 ^ 31)
    (short : (stripAntisocialPrefixes name).length ≤ 99) :
    (∃ header ∈ ustarMakeHeader name type size, ustarParseHeader header =
      .ok ⟨some (stripAntisocialPrefixes name), type, if type = .regular then size else 0⟩) ∧
    stripAntisocialPrefixes (stripAntisocialPrefixes name) = stripAntisocialPrefixes name ∧
    Social (stripAntisocialPrefixes name) := by
  have social := social_strip name
  refine ⟨?_, social.strip, social⟩
  have no_nul' := not_mem_strip no_nul
  obtain ⟨name', is_name⟩ : ∃ name', name' = stripAntisocialPrefixes name := ⟨_, rfl⟩
  rw [← is_name] at short social no_nul' ⊢
  rw [ustarMakeHeader, ← is_name, if_neg (by omega)]
  obtain ⟨chksum, is_chksum⟩ :
      ∃ chksum, chksum = calculateChksum ((headerFields name' type size).foldl store Buffer.zeros) :=
    ⟨_, rfl⟩
  have small_chksum : chksum < 8 ^ 7 := is_chksum ▸ calculateChksum_lt _
  dsimp only
  obtain ⟨header, is_header⟩ : ∃ header, header =
      store ((headerFields name' type size).foldl store Buffer.zeros) (148, octalDigits 7 chksum) :=
    ⟨_, rfl⟩
  have checks : calculateChksum header = chksum := by
    rw [is_header, calculateChksum_store _ (by simp), is_chksum]
  rw [← is_chksum, ← is_header]
  refine ⟨header, rfl, ?_⟩
  have stored : header = (headerFields name' type size ++ [(148, octalDigits 7 chksum)]).foldl store
      Buffer.zeros := is_header.trans (foldl_concat ..).symm
  have magic : fieldAt header 257 6 = [117, 115, 116, 97, 114, 0] := by
    rw [stored, fieldAt_foldl 7 rfl (by simp) (by simp [headerFields]; omega)]
    rfl
  have version : fieldAt header 263 2 = [48, 48] := by
    rw [stored, fieldAt_foldl 8 rfl (by simp) (by simp [headerFields]; omega)]
    rfl
  have sum : fieldAt header 148 8 = octalDigits 7 chksum ++ [0] := by
    rw [stored, fieldAt_foldl 11 rfl (by simp) (by simp [headerFields]; omega), length_octalDigits]
    rfl
  have flag : fieldAt header 156 1 = [type.flag] := by
    rw [stored, fieldAt_foldl 6 rfl (by simp) (by simp [headerFields]; omega)]
    rfl
  have length : fieldAt header 124 12 = octalDigits 11 size ++ [0] := by
    rw [stored, fieldAt_foldl 4 rfl (by simp) (by simp [headerFields]; omega), length_octalDigits]
    rfl
  have text : (fieldAt header 0 100).takeWhile (· ≠ 0) = name' := by
    rw [stored, fieldAt_foldl 0 rfl (by omega) (by simp [headerFields])]
    rw [takeWhile_append_of_pos fun c mem => decide_eq_true (ne_of_mem_of_not_mem mem no_nul')]
    simp
  have ends : header 99 = 0 ∧ header 345 = 0 := by
    rw [stored]
    constructor <;> rw [foldl_store_outside (by simp [headerFields]; omega)] <;> rfl
  have nonzero : ¬ isAllZeros header 512 = true := by
    intro zeros
    have fst : header 257 = 117 := (cons.inj magic).1
    have zero := of_decide_eq_true (all_eq_true.mp zeros 257 (mem_range.mpr (by omega)))
    cases zero.symm.trans fst
  have is_flag : header 156 = type.flag := (cons.inj flag).1
  rw [ustarParseHeader, if_neg nonzero, if_neg (not_not.mpr magic), if_neg (not_not.mpr version), sum,
    parseOctalField_digits small_chksum (by omega)]
  have read : parseOctalField [0] 7 chksum = some chksum := rfl
  simp only [read, checks, ends, text, is_flag, social.strip, ne_eq, not_true_eq_false, or_self,
    if_false]
  cases type with
  | regular =>
    have read : parseOctalField [0] 11 size = some size := rfl
    rw [if_pos rfl, length, parseOctalField_digits (by omega) (by omega), read]
    dsimp only
    rw [if_neg (by omega), if_pos rfl]
  | directory => rw [if_neg (by decide), if_pos rfl, if_neg (by decide)]
  | eof => exact absurd rfl known

/-- The header of a file of five bytes. -/
theorem ustar_round_trip_file : (∃ header ∈ ustarMakeHeader [47, 97] .regular 5,
      ustarParseHeader header = .ok ⟨some [97], .regular, 5⟩) ∧
    stripAntisocialPrefixes (stripAntisocialPrefixes [47, 97]) = stripAntisocialPrefixes [47, 97] ∧
    Social (stripAntisocialPrefixes [47, 97]) :=
  ustar_round_trip [47, 97] .regular 5 (by decide) (by decide) (by decide) (by decide)

end Pintos.Clib
