import Mathlib.Logic.Function.Basic
import Mathlib.Tactic.IntervalCases
import Pintos.Lib.Buffer

/-!
# Tokens of a string in place

`strtok_r` of `lib/string.c` on bytes in memory.  The delimiters are a string of their own, so that
writing to the string does not change them.
-/

namespace Pintos.Clib

open Function

/-- The place of the first `c`; after the list stands the terminator. -/
def strchr : List UInt8 → UInt8 → Option Nat
  | [], c => if 0 = c then some 0 else none
  | first :: string, c =>
    if first = c then
      some 0
    else if first = 0 then
      none
    else
      (strchr string c).map (· + 1)

/-- Memory and the variable at `save_ptr`. -/
structure Tokenizer where
  memory : Buffer
  savePtr : Nat

/-- The first loop of `strtok_r`: where it ends, and whether a token begins there. -/
def skipDelimiters (delimiters : List UInt8) (memory : Buffer) : Nat → Nat → Option (Nat × Bool)
  | 0, _ => none
  | fuel + 1, s =>
    if (strchr delimiters (memory s)).isSome then
      if memory s = 0 then some (s, false) else skipDelimiters delimiters memory fuel (s + 1)
    else
      some (s, true)

/-- The second loop of `strtok_r`. -/
def skipToken (delimiters : List UInt8) (memory : Buffer) : Nat → Nat → Option Nat
  | 0, _ => none
  | fuel + 1, s =>
    if (strchr delimiters (memory s)).isNone then
      skipToken delimiters memory fuel (s + 1)
    else
      some s

/-- `strtok_r`, on the string at `s` or on what is saved. -/
def strtokR (delimiters : List UInt8) (fuel : Nat) (s : Option Nat) (t : Tokenizer) :
    Option (Option Nat × Tokenizer) := do
  let (token, found) ← skipDelimiters delimiters t.memory fuel (s.getD t.savePtr)
  if found then
    let s ← skipToken delimiters t.memory fuel token
    if t.memory s ≠ 0 then
      some (some token, { memory := update t.memory s 0, savePtr := s + 1 })
    else
      some (some token, { t with savePtr := s })
  else
    some (none, { t with savePtr := token })

/-- Calls until the first null pointer, all but the first one with a null pointer. -/
def tokenize (delimiters : List UInt8) (fuel : Nat) :
    Nat → Option Nat → Tokenizer → Option (List Nat × Tokenizer)
  | 0, _, _ => none
  | calls + 1, s, t => do
    match ← strtokR delimiters fuel s t with
    | (none, t) => some ([], t)
    | (some token, t) =>
      let (others, t) ← tokenize delimiters fuel calls none t
      some (token :: others, t)

/-! ## One call -/

/-- The string at `s`, with its terminator at `stop`. -/
structure StringAt (memory : Buffer) (s stop : Nat) : Prop where
  le : s ≤ stop
  nonzero : ∀ i, s ≤ i → i < stop → memory i ≠ 0
  ends : memory stop = 0

theorem StringAt.next {memory : Buffer} {s stop : Nat} (string : StringAt memory s stop)
    (inside : memory s ≠ 0) : StringAt memory (s + 1) stop := by
  obtain ⟨le, nonzero, ends⟩ := string
  have ne : s ≠ stop := fun same => inside (same ▸ ends)
  exact ⟨by omega, fun i above => nonzero i (by omega), ends⟩

theorem StringAt.eq_of_zero {memory : Buffer} {s stop : Nat} (string : StringAt memory s stop)
    (ends : memory s = 0) : s = stop := by
  by_contra other
  exact string.nonzero s le_rfl (lt_of_le_of_ne string.le other) ends

/-- A loop over the bytes of a string ends at its terminator or before. -/
theorem StringAt.loop {α : Type} {memory : Buffer} {s stop fuel : Nat} (goes : UInt8 → Prop)
    (body : Nat → Nat → α) (res : Nat → α) (string : StringAt memory s stop)
    (enough : stop < s + fuel) (zero_halts : ¬ goes 0)
    (step : ∀ fuel s, goes (memory s) → body (fuel + 1) s = body fuel (s + 1))
    (halt : ∀ fuel s, ¬ goes (memory s) → body (fuel + 1) s = res s) :
    ∃ last, s ≤ last ∧ (∀ i, s ≤ i → i < last → goes (memory i)) ∧ ¬ goes (memory last) ∧
      StringAt memory last stop ∧ body fuel s = res last := by
  induction fuel generalizing s with
  | zero => exact absurd string.le (by omega)
  | succ fuel ih =>
    by_cases here : goes (memory s)
    · obtain ⟨last, le, old, halts, rest, eq⟩ :=
        ih (string.next fun zero => zero_halts (zero ▸ here)) (by omega)
      refine ⟨last, by omega, fun i above below => ?_, halts, rest, (step _ _ here).trans eq⟩
      obtain rfl | later := Nat.eq_or_lt_of_le above
      · exact here
      · exact old i later below
    · exact ⟨s, le_rfl, fun i above below => absurd above (by omega), here, string, halt _ _ here⟩

variable {delimiters : List UInt8} {memory : Buffer} {s stop fuel : Nat} {t : Tokenizer}
  {p : Option Nat}

theorem strchr_isSome (nonzero : 0 ∉ delimiters) (c : UInt8) :
    (strchr delimiters c).isSome ↔ c = 0 ∨ c ∈ delimiters := by
  induction delimiters with
  | nil =>
    unfold strchr
    split <;> simp_all [eq_comm]
  | cons fst string ih =>
    rw [List.mem_cons, not_or] at nonzero
    simp only [strchr, if_neg (Ne.symm nonzero.1), List.mem_cons]
    split
    · simp_all
    · rename_i o
      rw [Option.isSome_map, ih nonzero.2]
      simp [Ne.symm o]

theorem skipDelimiters_eq (nonzero : 0 ∉ delimiters) (string : StringAt memory s stop)
    (enough : stop < fuel) :
    ∃ fst, s ≤ fst ∧ (∀ i, s ≤ i → i < fst → memory i ∈ delimiters) ∧
      memory fst ∉ delimiters ∧ StringAt memory fst stop ∧
      skipDelimiters delimiters memory fuel s = some (fst, decide (memory fst ≠ 0)) := by
  refine string.loop (· ∈ delimiters) _ (fun s => some (s, decide (memory s ≠ 0))) (by omega)
    nonzero (fun fuel s delimits => ?_) (fun fuel s o => ?_)
  · have ne : memory s ≠ 0 := fun zero => nonzero (zero ▸ delimits)
    rw [skipDelimiters, if_pos ((strchr_isSome nonzero _).mpr (.inr delimits)), if_neg ne]
  · simp only [skipDelimiters, strchr_isSome nonzero, o, or_false]
    split <;> simp_all

theorem skipToken_eq (nonzero : 0 ∉ delimiters) (string : StringAt memory s stop)
    (enough : stop < fuel) :
    ∃ last, s ≤ last ∧ (∀ i, s ≤ i → i < last → memory i ≠ 0 ∧ memory i ∉ delimiters) ∧
      ¬ (memory last ≠ 0 ∧ memory last ∉ delimiters) ∧ StringAt memory last stop ∧
      skipToken delimiters memory fuel s = some last := by
  have goes c : (strchr delimiters c).isNone ↔ c ≠ 0 ∧ c ∉ delimiters := by
    rw [← not_or, ← strchr_isSome nonzero, Option.not_isSome_iff_eq_none, Option.isNone_iff_eq_none]
  refine string.loop (fun c => c ≠ 0 ∧ c ∉ delimiters) _ some (by omega) (by simp)
    (fun fuel s token => ?_) (fun fuel s o => ?_)
  · rw [skipToken, if_pos ((goes _).mpr token)]
  · rw [skipToken, if_neg (mt (goes _).mp o)]

/-- A token of the string at `s`, from its first byte to behind its last one, with delimiters or the
ends of the string around it. -/
structure Token (delimiters : List UInt8) (memory : Buffer) (s stop : Nat) (w : Nat × Nat) :
    Prop where
  nonempty : w.1 < w.2
  first : s ≤ w.1
  last : w.2 ≤ stop
  inside : ∀ i, w.1 ≤ i → i < w.2 → memory i ∉ delimiters
  before : w.1 = s ∨ memory (w.1 - 1) ∈ delimiters
  behind : w.2 = stop ∨ memory w.2 ∈ delimiters

/-- What a call returns, and where it leaves the string. -/
theorem strtokR_cases (nonzero : 0 ∉ delimiters) (starts : p.getD t.savePtr = s)
    (string : StringAt t.memory s stop) (enough : stop < fuel) :
    (strtokR delimiters fuel p t = some (none, { t with savePtr := stop }) ∧
      ∀ w, ¬ Token delimiters t.memory s stop w) ∨
    ∃ w, (Token delimiters t.memory s stop w ∧ ∀ i, s ≤ i → i < w.1 → t.memory i ∈ delimiters) ∧
      strtokR delimiters fuel p t = some (some w.1,
        { memory := update t.memory w.2 0, savePtr := min (w.2 + 1) stop }) := by
  unfold strtokR
  rw [starts]
  obtain ⟨fst, le, skipped, no_delimiter, rest, eq⟩ := skipDelimiters_eq nonzero string enough
  rw [eq]
  by_cases ends : t.memory fst = 0
  · obtain rfl := rest.eq_of_zero ends
    refine .inl ⟨by simp [ends], fun w token => ?_⟩
    exact token.inside w.1 le_rfl token.nonempty
      (skipped w.1 token.first (lt_of_lt_of_le token.nonempty token.last))
  · obtain ⟨last, least, within, halts, tail, eq⟩ := skipToken_eq nonzero rest enough
    have behind : last = stop ∨ t.memory last ∈ delimiters := by
      by_contra neither
      rw [not_or] at neither
      exact halts ⟨fun zero => neither.1 (tail.eq_of_zero zero), neither.2⟩
    have ne_nil : fst ≠ last := by
      rintro rfl
      exact halts ⟨ends, no_delimiter⟩
    refine .inr ⟨(fst, last), ⟨⟨by dsimp only; omega, le, tail.le,
      fun i above below => (within i above below).2, ?_, behind⟩, skipped⟩, ?_⟩
    · by_cases same : fst = s
      · exact .inl same
      · exact .inr (skipped _ (by dsimp only; omega) (by dsimp only; omega))
    · by_cases final : last = stop
      · subst final
        have kept : update t.memory last 0 = t.memory := update_eq_self_iff.mpr tail.ends.symm
        simp [ends, eq, tail.ends, kept]
      · have inside := tail.nonzero last le_rfl (lt_of_le_of_ne tail.le final)
        have next : min (last + 1) stop = last + 1 := by
          have := tail.le
          omega
        simp [ends, eq, inside, next]

/-! ## All calls -/

/-- A token that begins inside of another one is the same. -/
theorem Token.eq {w v : Nat × Nat} (token : Token delimiters memory s stop w)
    (o : Token delimiters memory s stop v) (least : w.1 ≤ v.1) (within : v.1 < w.2) : v = w := by
  have fst : v.1 = w.1 := by
    by_contra ne
    have fst := token.first
    rcases o.before with here | delimits
    · omega
    · exact token.inside (v.1 - 1) (by omega) (by omega) delimits
  have last : v.2 = w.2 := by
    have ne_nil := o.nonempty
    have := token.last
    have := o.last
    rcases lt_trichotomy v.2 w.2 with less | same | more
    · exact absurd (o.behind.resolve_left (by omega)) (token.inside _ (by omega) less)
    · exact same
    · exact absurd (token.behind.resolve_left (by omega)) (o.inside _ (by omega) more)
  exact Prod.ext fst last

theorem token_rest {w v : Nat × Nat} (token : Token delimiters memory s stop w) :
    Token delimiters (update memory w.2 0) (min (w.2 + 1) stop) stop v ↔
      Token delimiters memory s stop v ∧ w.2 < v.1 := by
  have same i (above : w.2 < i) : update memory w.2 0 i = memory i := update_of_ne (by omega) _ _
  have ne_nil := token.nonempty
  have fst := token.first
  constructor
  · rintro ⟨ne, least, most, inside, old, behind⟩
    refine ⟨⟨ne, by omega, most, fun i above => same i (by omega) ▸ inside i above, .inr ?_,
      same v.2 (by omega) ▸ behind⟩, by omega⟩
    by_cases next : v.1 = w.2 + 1
    · rw [next]
      exact token.behind.resolve_left (by omega)
    · exact same (v.1 - 1) (by omega) ▸ old.resolve_left (by omega)
  · rintro ⟨⟨ne, least, most, inside, old, behind⟩, later⟩
    refine ⟨ne, by omega, most, fun i above => (same i (by omega)).symm ▸ inside i above, ?_,
      (same v.2 (by omega)).symm ▸ behind⟩
    by_cases next : v.1 = w.2 + 1
    · exact .inl (by omega)
    · exact .inr ((same (v.1 - 1) (by omega)).symm ▸ old.resolve_left (by omega))

/-- A token, or a token of the rest of the string. -/
theorem token_iff {w v : Nat × Nat} (token : Token delimiters memory s stop w)
    (skipped : ∀ i, s ≤ i → i < w.1 → memory i ∈ delimiters) : Token delimiters memory s stop v ↔
      v = w ∨ Token delimiters (update memory w.2 0) (min (w.2 + 1) stop) stop v := by
  rw [token_rest token]
  constructor
  · intro o
    have least : w.1 ≤ v.1 := by
      by_contra less
      exact o.inside v.1 le_rfl o.nonempty (skipped _ o.first (by omega))
    by_cases within : v.1 < w.2
    · exact .inl (token.eq o least within)
    · have ne_nil := o.nonempty
      have last := o.last
      have later : w.2 ≠ v.1 := fun same => o.inside v.1 le_rfl ne_nil
        (same ▸ token.behind.resolve_left (by omega))
      exact .inr ⟨o, by omega⟩
  · rintro (rfl | ⟨o, -⟩)
    · exact token
    · exact o

/-- The string at `s` taken apart. -/
structure Tokenized (delimiters : List UInt8) (memory : Buffer) (s stop : Nat)
    (tokens : List (Nat × Nat)) (final : Buffer) : Prop where
  ordered : tokens.Pairwise fun w v => w.2 < v.1
  exactly : ∀ w, w ∈ tokens ↔ Token delimiters memory s stop w
  inPlace : ∀ w ∈ tokens, StringAt final w.1 w.2 ∧ ∀ i, w.1 ≤ i → i < w.2 → final i = memory i
  outside : ∀ i, i < s ∨ stop < i → final i = memory i

/-- All tokens are returned and terminated in place. -/
theorem tokenize_eq {calls : Nat} (nonzero : 0 ∉ delimiters) (starts : p.getD t.savePtr = s)
    (string : StringAt t.memory s stop) (enough : stop < fuel) (enough_calls : stop < s + calls) :
    ∃ tokens final, tokenize delimiters fuel calls p t = some (tokens.map Prod.fst, final) ∧
      Tokenized delimiters t.memory s stop tokens final.memory ∧
      final.savePtr = stop ∧ final.memory stop = 0 := by
  induction calls generalizing p t s with
  | zero => exact absurd string.le (by omega)
  | succ calls ih =>
    unfold tokenize
    obtain ⟨eq, no_token⟩ | ⟨w, ⟨token, skipped⟩, eq⟩ := strtokR_cases nonzero starts string enough
    · rw [eq]
      refine ⟨[], _, rfl, ⟨.nil, fun w => ?_, by simp, fun _ _ => rfl⟩, rfl, string.ends⟩
      exact iff_of_false List.not_mem_nil (no_token w)
    · obtain ⟨ne_nil, first, last, -⟩ := id token
      have kept i (ne : i ≠ w.2) : update t.memory w.2 0 i = t.memory i := update_of_ne ne _ _
      have string' : StringAt (update t.memory w.2 0) (min (w.2 + 1) stop) stop := by
        refine ⟨by omega, fun i above below => ?_, ?_⟩
        · exact kept i (by omega) ▸ string.nonzero i (by omega) below
        · rw [update_apply, string.ends, ite_self]
      obtain ⟨tokens, final, rest_eq, rest, saved, ends⟩ := @ih (min (w.2 + 1) stop)
        ⟨update t.memory w.2 0, _⟩ none rfl string' (by omega)
      dsimp only at rest
      have behind v (mem : v ∈ tokens) : w.2 < v.1 :=
        ((token_rest token).mp ((rest.exactly v).mp mem)).2
      rw [eq]
      refine ⟨w :: tokens, final, by simp [rest_eq], ⟨?_, fun v => ?_, ?_, ?_⟩, saved, ends⟩
      · exact List.pairwise_cons.mpr ⟨behind, rest.ordered⟩
      · rw [List.mem_cons, rest.exactly, token_iff token skipped]
      · intro v mem
        rcases List.mem_cons.mp mem with rfl | later
        · have same i (above : v.1 ≤ i) (below : i < v.2) : final.memory i = t.memory i :=
            (rest.outside i (.inl (by omega))).trans (kept i (by omega))
          refine ⟨⟨ne_nil.le, fun i above below => ?_, ?_⟩, same⟩
          · exact same i above below ▸ string.nonzero i (by omega) (by omega)
          · by_cases whole : v.2 = stop
            · rw [whole, ends]
            · rw [rest.outside v.2 (.inl (by omega)), update_self]
        · have after := behind v later
          obtain ⟨terminated, same⟩ := rest.inPlace v later
          exact ⟨terminated, fun i above below => (same i above below).trans (kept i (by omega))⟩
      · intro i out
        exact (rest.outside i (by omega)).trans (kept i (by omega))

/-- `strtok_r` returns exactly the tokens, in order and terminated in place; it writes nothing outside
of the string, and from then on it returns null pointers and changes nothing. -/
theorem strtokR_returns_tokens (delimiters : List UInt8) (nonzero : 0 ∉ delimiters) (t : Tokenizer)
    (s stop fuel calls : Nat) (string : StringAt t.memory s stop) (enough : stop < fuel)
    (enough_calls : stop < s + calls) :
    ∃ tokens final, tokenize delimiters fuel calls (some s) t = some (tokens.map Prod.fst, final) ∧
      Tokenized delimiters t.memory s stop tokens final.memory ∧
      strtokR delimiters fuel none final = some (none, final) := by
  obtain ⟨tokens, final, eq, tokenized, saved, ends⟩ :=
    tokenize_eq nonzero (p := some s) rfl string enough enough_calls
  refine ⟨tokens, final, eq, tokenized, ?_⟩
  have ended : StringAt final.memory stop stop := ⟨le_rfl, fun i above below => by omega, ends⟩
  obtain ⟨again, -⟩ | ⟨w, ⟨token, -⟩, -⟩ := strtokR_cases nonzero (p := none) saved ended enough
  · rw [again, ← saved]
  · have := token.nonempty
    have := token.first
    have := token.last
    omega

theorem strtokR_returns_token : ∃ tokens final,
    tokenize [32] 3 3 (some 0) ⟨fun i => [32, 97].getD i 0, 0⟩ = some (tokens.map Prod.fst, final) ∧
      Tokenized [32] (fun i => [32, 97].getD i 0) 0 2 tokens final.memory ∧
      strtokR [32] 3 none final = some (none, final) :=
  strtokR_returns_tokens [32] (by decide) ⟨fun i => [32, 97].getD i 0, 0⟩ 0 2 3 3
    ⟨by decide, fun i _ below => by interval_cases i <;> decide, rfl⟩ (by decide) (by decide)

end Pintos.Clib
