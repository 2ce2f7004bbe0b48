import ArithTree.Proofs.Memo
import ArithTree.Proofs.Offsets
import Mathlib

/-!
# The search on byte positions is safe

Every call of the search on bytes gets a span that lies between two characters of the text, and no
call has an empty span unless the text is empty (`Call.Sound`). So the search does on bytes what it
does on characters, without a panic (`mirrored`), and parsing gives the same trees and errors
(`parseInput_eq`).
-/

namespace ArithTree.Parser.Bytes

/-- The span of the attempt is shorter than that of the attempt that asks for it, or as long, and
the rule is tighter. -/
def Decreases (a : Attempt) (caller : Option Attempt) : Prop :=
  ∀ b ∈ caller, Prod.Lex (· < ·) (· < ·) (a.stop - a.start, a.rule.looseness)
    (b.stop - b.start, b.rule.looseness)

/-- The span of a call lies in the text, between characters, and is not empty unless the text is;
from one attempt at a rule to the next within it, spans and rules decrease. -/
structure Call.Sound (text : String) (call : Call) : Prop where
  ordered : call.start ≤ call.stop
  bounded : call.stop ≤ text.utf8ByteSize
  nonempty : text ≠ "" → call.start < call.stop
  left : (⟨call.start⟩ : String.Pos.Raw).IsValid text
  right : (⟨call.stop⟩ : String.Pos.Raw).IsValid text
  decreases : ∀ r caller, call.routine = .rule r caller →
    Decreases ⟨r, call.start, call.stop⟩ caller

/-- The search on bytes is where the search on characters is, and has got there by sound calls. -/
structure Follows (input : Array Char) (s : Run) (t : Search) : Prop where
  store : s.search.store = t.store
  failures : ∀ r i j, i ≤ input.size → j ≤ input.size →
    s.search.failures.contains ⟨r, offset input i, offset input j⟩ = t.failures.contains ⟨r, i, j⟩
  calls : ∀ call ∈ s.calls, call.Sound (String.ofList input.toList)

/-- The outcome on bytes is the result on characters, and the calls `before` are still recorded. -/
def Matches (input : Array Char) (before : List Call) (outcome : Outcome)
    (result : Option NodeId × Search) : Prop :=
  ∃ s, outcome = .ok (result.1, s) ∧ Follows input s result.2 ∧ before <:+ s.calls

theorem Matches.mono {input : Array Char} {before before' : List Call} {outcome : Outcome}
    {result : Option NodeId × Search} (h : Matches input before' outcome result)
    (hbefore : before <:+ before') : Matches input before outcome result := by
  obtain ⟨s, hs, hfollows, hcalls⟩ := h
  exact ⟨s, hs, hfollows, hbefore.trans hcalls⟩

/-- Once more has been recorded, what had been recorded before is still there. -/
theorem Matches.entered {input : Array Char} {s : Run} {routine : Routine} {start stop : Nat}
    {outcome : Outcome} {result : Option NodeId × Search}
    (h : Matches input (s.enter routine start stop).calls outcome result) :
    Matches input s.calls outcome result :=
  h.mono (List.suffix_cons _ _)

/-- An attempt at a span of characters, as one at its bytes. -/
abbrev inBytes (input : Array Char) (r : Rule) (i j : Nat) : Attempt :=
  ⟨r, offset input i, offset input j⟩

/-- A rule does on the bytes of a span what the attempt does on its characters, and is recorded. -/
def Mirrored (input : Array Char) (memoize : Bool) (r : Rule) (caller : Option Attempt)
    (i j : Nat) :
    Prop :=
  ∀ s t, Follows input s t → Matches input
    (s.enter (.rule r caller) (offset input i) (offset input j)).calls
    (rule (String.ofList input.toList) memoize r caller (offset input i) (offset input j) s)
    (Search.attempt input memoize r i j t)

/-- A span of characters that may be asked for. -/
structure Covers (input : Array Char) (i j : Nat) : Prop where
  ordered : i ≤ j
  bounded : j ≤ input.size
  nonempty : input.size ≠ 0 → i < j

section

variable {input : Array Char} {s : Run} {t : Search} {i j : Nat}

/-! ## Spans -/

/-- A span inside another one is shorter, in bytes as in characters. -/
theorem offset_sub_lt {i' j' : Nat} (hi : i ≤ i') (hij : i' ≤ j') (hj : j' ≤ j)
    (hshorter : j' - i' < j - i) (hsize : j ≤ input.size) :
    offset input j' - offset input i' < offset input j - offset input i := by
  have hstart : offset input i ≤ offset input i' := offset_le hi (by omega)
  have hspan : offset input i' ≤ offset input j' := offset_le hij (by omega)
  have hstop : offset input j' ≤ offset input j := offset_le hj hsize
  by_cases hlt : i < i'
  · have : offset input i < offset input i' := offset_lt hlt (by omega)
    omega
  · have : offset input j' < offset input j := offset_lt (by omega) hsize
    omega

/-- A call with a span of characters is sound. -/
theorem Covers.sound (h : Covers input i j) (routine : Routine)
    (hdecreases : ∀ r caller, routine = .rule r caller → Decreases (inBytes input r i j) caller) :
    Call.Sound (String.ofList input.toList) ⟨routine, offset input i, offset input j⟩ where
  ordered := offset_le h.ordered h.bounded
  bounded := offset_size input ▸ offset_le h.bounded (Nat.le_refl _)
  nonempty hne := by
    refine offset_lt (h.nonempty fun hsize => hne ?_) h.bounded
    rw [Array.toList_eq_nil_iff.mpr (Array.eq_empty_of_size_eq_zero hsize)]
  left := (isValid_iff _).mpr ⟨i, Nat.le_trans h.ordered h.bounded, rfl⟩
  right := (isValid_iff _).mpr ⟨j, h.bounded, rfl⟩
  decreases := hdecreases

/-! ## Single steps -/

theorem Follows.enter (h : Follows input s t) {routine : Routine} {start stop : Nat}
    (hcall : Call.Sound (String.ofList input.toList) ⟨routine, start, stop⟩) :
    Follows input (s.enter routine start stop) t where
  store := h.store
  failures := h.failures
  calls call hmem := by
    rcases List.mem_cons.mp hmem with rfl | hmem
    · exact hcall
    · exact h.calls call hmem

theorem Follows.append (h : Follows input s t) (parent child : NodeId) :
    Follows input (s.append parent child) (t.append parent child) where
  store := congrArg (Store.append · parent child) h.store
  failures := h.failures
  calls := h.calls

theorem Follows.remove (h : Follows input s t) (id : NodeId) :
    Follows input (s.remove id) (t.remove id) where
  store := congrArg (Store.remove · id) h.store
  failures := h.failures
  calls := h.calls

/-- An attempt is remembered on both sides; no other span of characters has the same offsets. -/
theorem Follows.remember (h : Follows input s t) (r : Rule) (hi : i ≤ input.size)
    (hj : j ≤ input.size) :
    Follows input (s.remember ⟨r, offset input i, offset input j⟩) (t.remember ⟨r, i, j⟩) where
  store := h.store
  failures r' i' j' hi' hj' := by
    simp only [Run.remember, Search.remember, Std.HashSet.contains_insert,
      h.failures r' i' j' hi' hj']
    congr 1
    rw [Bool.eq_iff_iff, beq_iff_eq, beq_iff_eq, Attempt.mk.injEq, Attempt.mk.injEq]
    constructor
    · rintro ⟨rfl, hstart, hstop⟩
      exact ⟨rfl, offset_inj hi hi' hstart, offset_inj hj hj' hstop⟩
    · rintro ⟨rfl, rfl, rfl⟩
      exact ⟨rfl, rfl, rfl⟩
  calls := h.calls

theorem Follows.foldl_append (parent : NodeId) (below : List NodeId) : ∀ {s : Run} {t : Search},
    Follows input s t → Follows input (below.foldl (fun s child => s.append parent child) s)
        (below.foldl (fun t child => t.append parent child) t) ∧
      (below.foldl (fun s child => s.append parent child) s).calls = s.calls := by
  induction below with
  | nil => exact fun h => ⟨h, rfl⟩
  | cons child below ih => exact fun h => ih (h.append parent child)

/-- A new node gets the same handle on both sides. -/
theorem Follows.join (h : Follows input s t) (label : Label) (below : List NodeId) :
    Matches input s.calls (.ok (s.join label below)) (some (t.insert label).1,
      below.foldl (fun search child => search.append (t.insert label).1 child)
        (t.insert label).2) := by
  have hinsert : s.search.store.insert label none = t.store.insert label none := by rw [h.store]
  have hnew : Follows input { s with search := (s.search.insert label).2 } (t.insert label).2 := by
    refine ⟨?_, h.failures, h.calls⟩
    show (s.search.store.insert label none).2 = (t.store.insert label none).2
    rw [hinsert]
  have hid : (s.search.insert label).1 = (t.insert label).1 := by
    show (s.search.store.insert label none).1 = (t.store.insert label none).1
    rw [hinsert]
  have hjoin : s.join label below = (some (t.insert label).1,
      below.foldl (fun s child => s.append (t.insert label).1 child)
        { s with search := (s.search.insert label).2 }) := by
    rw [← hid]
    rfl
  obtain ⟨hfollows, hcalls⟩ := hnew.foldl_append (t.insert label).1 below
  exact ⟨_, congrArg Except.ok hjoin, hfollows, [], hcalls.symm⟩

/-! ## The routines -/

variable {memoize : Bool}

/-- What a rule does when nothing is known about the span. -/
def body (text : String) (memoize : Bool) (r : Rule) (start stop : Nat) (s : Run) : Outcome :=
  match r with
  | .chain c => binary text memoize c start stop s
  | .grouping => grouping text memoize start stop s

theorem rule_eq (text : String) (memoize : Bool) (r : Rule) (caller : Option Attempt)
    (start stop : Nat) (s : Run) : rule text memoize r caller start stop s =
      if memoize && s.search.failures.contains ⟨r, start, stop⟩ then
        .ok (none, s.enter (.rule r caller) start stop)
      else do
        let (found, s) ← body text memoize r start stop (s.enter (.rule r caller) start stop)
        match found with
        | some id => return (some id, s)
        | none => return (none, if memoize then s.remember ⟨r, start, stop⟩ else s) := by
  rw [rule]
  cases r <;> rfl

/-- Skipping what is known to fail and remembering what has failed. -/
theorem mirrored_of_body {r : Rule} {caller : Option Attempt} (hcovers : Covers input i j)
    (hdecreases : Decreases (inBytes input r i j) caller)
    (hbody : ∀ s t, Follows input s t →
      Matches input s.calls
        (body (String.ofList input.toList) memoize r (offset input i) (offset input j) s)
        (Search.body input memoize r i j t)) : Mirrored input memoize r caller i j := by
  intro s t h
  have hentered := h.enter <| hcovers.sound (.rule r caller) fun r' caller' hr => by
    cases hr
    exact hdecreases
  have hi : i ≤ input.size := Nat.le_trans hcovers.ordered hcovers.bounded
  rw [rule_eq, Search.attempt_eq, h.failures r i j hi hcovers.bounded]
  split
  · exact ⟨_, rfl, hentered, List.suffix_rfl⟩
  · obtain ⟨s', hs', hfollows, hcalls⟩ := hbody _ _ hentered
    rw [hs']
    generalize Search.body input memoize r i j t = result at hfollows ⊢
    obtain ⟨_ | id, t'⟩ := result
    · cases memoize with
      | false => exact ⟨s', rfl, hfollows, hcalls⟩
      | true => exact ⟨_, rfl, hfollows.remember r hi hcovers.bounded, hcalls⟩
    · exact ⟨s', rfl, hfollows, hcalls⟩

theorem literal_matches (hcovers : Covers input i j) (h : Follows input s t) :
    Matches input s.calls (literal (String.ofList input.toList) (offset input i) (offset input j) s)
      (Search.literal input i j t) := by
  have hentered := h.enter (hcovers.sound .literal fun _ _ hr => by cases hr)
  have htoken : (input.extract i j).toList = span input i j := rfl
  rw [literal, slice_offset hcovers.ordered hcovers.bounded, Search.literal,
    Literal.ofChars?, htoken]
  simp only [bind, Except.bind]
  cases Literal.parse? (String.ofList (span input i j)) with
  | none => exact Matches.entered ⟨_, rfl, hentered, List.suffix_rfl⟩
  | some l => exact (hentered.join (.literal l) []).entered

theorem minus_of_le {a b : Nat} (h : b ≤ a) : minus a b = .ok ⟨a - b, Nat.sub_add_cancel h⟩ :=
  dif_pos h

theorem utf8Size_of_lt {a : Char} (ha : a.toNat < 128) : a.utf8Size = 1 :=
  Char.utf8Size_eq_one_iff.mpr (UInt32.le_iff_toNat_le.mpr (Nat.le_of_lt_succ ha))

/-- A symbol at the first byte of a span is its first character. -/
theorem exists_byteAt_first (hij : i < j) (hj : j ≤ input.size) {a : Char} (ha : a.toNat < 128) :
    ∃ byte, byteAt (String.ofList input.toList) (offset input i) = .ok byte ∧
      (byte = a.toUInt8 ↔ input[i]? = some a) := by
  have hi : i < input.size := Nat.lt_of_lt_of_le hij hj
  obtain ⟨byte, hbyte, hiff⟩ := exists_byteAt (offset_lt hi (Nat.le_refl _)) ha
  refine ⟨byte, hbyte, hiff.trans ?_⟩
  constructor
  · rintro ⟨k, hk, hget⟩
    have hlt := (Array.getElem?_eq_some_iff.mp hget).1
    rwa [offset_inj hi.le hlt.le hk]
  · exact fun hget => ⟨i, rfl, hget⟩

/-- A symbol at the last byte of a span is its last character. -/
theorem exists_byteAt_last (hij : i < j) (hj : j ≤ input.size) {a : Char} (ha : a.toNat < 128) :
    ∃ byte, byteAt (String.ofList input.toList) (offset input j - 1) = .ok byte ∧
      (byte = a.toUInt8 ↔ input[j - 1]? = some a) := by
  have hpos := offset_lt hij hj
  have hsub : offset input j - 1 + 1 = offset input j := Nat.sub_add_cancel (by omega)
  have hin : offset input j - 1 < offset input input.size := by
    have := offset_le hj (Nat.le_refl _)
    omega
  obtain ⟨byte, hbyte, hiff⟩ := exists_byteAt hin ha
  refine ⟨byte, hbyte, hiff.trans ?_⟩
  constructor
  · rintro ⟨k, hk, hget⟩
    have hlt := (Array.getElem?_eq_some_iff.mp hget).1
    have hnext : offset input (k + 1) = offset input j := by
      rw [offset_succ hget, utf8Size_of_lt ha, ← hk, hsub]
    rwa [← offset_inj hlt hj hnext]
  · intro hget
    have hnext := offset_succ hget
    rw [Nat.sub_add_cancel (Nat.one_le_of_lt hij), utf8Size_of_lt ha] at hnext
    exact ⟨j - 1, by rw [hnext, Nat.add_sub_cancel], hget⟩

/-- A span of bytes in parentheses is a span of characters in parentheses. -/
theorem parens?_offset (hcovers : Covers input i j) :
    (∃ last, parens? (String.ofList input.toList) (offset input i) (offset input j) =
      .ok (some last) ∧
      last.val = offset input (j - 1) ∧ i + 2 < j ∧ input[i]? = some '(' ∧
      input[j - 1]? = some ')') ∨
    (parens? (String.ofList input.toList) (offset input i) (offset input j) = .ok none ∧
      ¬ (i + 2 < j ∧ input[i]? = some '(' ∧ input[j - 1]? = some ')')) := by
  have hj := hcovers.bounded
  have hle := offset_le hcovers.ordered hj
  rw [parens?, minus_of_le hle]
  by_cases hlong : 3 ≤ offset input j - offset input i
  · have hlt : i < j := by
      rcases Nat.eq_or_lt_of_le hcovers.ordered with rfl | hlt
      · omega
      · exact hlt
    obtain ⟨first, hfirst, hopen⟩ := exists_byteAt_first hlt hj (a := '(') (by decide)
    obtain ⟨final, hfinal, hclose⟩ := exists_byteAt_last hlt hj (a := ')') (by decide)
    simp only [bind, Except.bind, hlong, hfirst, hfinal, dif_pos,
      minus_of_le (show 1 ≤ offset input j by omega)]
    by_cases hparens : first = '('.toUInt8 ∧ final = ')'.toUInt8
    · rw [if_pos hparens.1, if_pos hparens.2]
      have hget := hclose.mp hparens.2
      have hfirst := offset_succ (hopen.mp hparens.1)
      have hfinal := offset_succ hget
      rw [Nat.sub_add_cancel (Nat.one_le_of_lt hlt), utf8Size_of_lt (by decide)] at hfinal
      rw [utf8Size_of_lt (by decide)] at hfirst
      have hinner : i + 2 < j := by
        by_contra hshort
        have := offset_le (show j - 1 ≤ i + 1 by omega) (Nat.lt_of_lt_of_le hlt hj)
        omega
      exact Or.inl ⟨_, rfl, Nat.sub_eq_of_eq_add hfinal, hinner, hopen.mp hparens.1, hget⟩
    · refine Or.inr ⟨?_, fun h => hparens ⟨hopen.mpr h.2.1, hclose.mpr h.2.2⟩⟩
      by_cases hfirst : first = '('.toUInt8
      · rw [if_pos hfirst, if_neg fun h => hparens ⟨hfirst, h⟩]
        rfl
      · rw [if_neg hfirst]
        rfl
  · refine Or.inr ⟨?_, fun h => hlong ?_⟩
    · simp only [bind, Except.bind, hlong]
      rfl
    · have := add_le_offset hcovers.ordered hj
      omega

theorem grouping_matches (hcovers : Covers input i j)
    (hinner : i + 2 < j → Mirrored input memoize (.chain .addition)
      (some (inBytes input .grouping i j)) (i + 1) (j - 1)) (h : Follows input s t) :
    Matches input s.calls
      (grouping (String.ofList input.toList) memoize (offset input i) (offset input j) s)
      (Search.grouping input memoize i j t) := by
  have hentered := h.enter (hcovers.sound .grouping fun _ _ hr => by cases hr)
  refine Matches.mono ?_ (List.suffix_cons ⟨.grouping, offset input i, offset input j⟩ s.calls)
  rw [grouping, Search.grouping]
  rcases parens?_offset hcovers with ⟨last, hparens, hlast, hchars⟩ | ⟨hparens, hchars⟩
  · obtain ⟨last, hspan⟩ := last
    obtain rfl : last = offset input (j - 1) := hlast
    have hopen : offset input i + 1 = offset input (i + 1) := (offset_succ hchars.2.1).symm
    have hinside := (hinner hchars.1 _ _ hentered).entered
    rw [if_pos hchars]
    generalize Search.attempt input memoize (.chain .addition) (i + 1) (j - 1) t =
      result at hinside ⊢
    obtain ⟨s', hs', hfollows, hkept⟩ := hinside
    simp only [hparens, bind, Except.bind, hopen, hs']
    obtain ⟨_ | inner, t'⟩ := result
    · exact (literal_matches hcovers hfollows).mono hkept
    · exact (hfollows.join (.compound .group) [inner]).mono hkept
  · rw [hparens, if_neg hchars]
    exact literal_matches hcovers hentered

/-- A byte up to the start of a character is that of a symbol when it starts this character, which
is the symbol. -/
theorem exists_byteAt_upto {k p : Nat} (hk : k < input.size) (hafter : offset input k < p)
    (hbefore : p ≤ offset input (k + 1)) (hp : p < offset input input.size) {a : Char}
    (ha : a.toNat < 128) : ∃ byte, byteAt (String.ofList input.toList) p = .ok byte ∧
      (byte = a.toUInt8 ↔ p = offset input (k + 1) ∧ input[k + 1]? = some a) := by
  obtain ⟨byte, hbyte, hiff⟩ := exists_byteAt hp ha
  refine ⟨byte, hbyte, hiff.trans ?_⟩
  constructor
  · rintro ⟨l, rfl, hget⟩
    have hl := (Array.getElem?_eq_some_iff.mp hget).1
    have hkl : k < l := by
      by_contra hle
      exact absurd (offset_le (Nat.le_of_not_lt hle) hk.le) (Nat.not_le.mpr hafter)
    rcases Nat.eq_or_lt_of_le (Nat.succ_le_of_lt hkl) with rfl | hlt
    · exact ⟨rfl, hget⟩
    · exact absurd (offset_lt hlt hl.le) (Nat.not_lt.mpr hbefore)
  · rintro ⟨rfl, hget⟩
    exact ⟨k + 1, rfl, hget⟩

/-- A character that is not the symbol is skipped. -/
theorem splits_skip {c : Chain} {skipped : Nat} (h : input[i + skipped + 1]? ≠ some c.symbol) :
    Search.splits input memoize c i j skipped t =
      Search.splits input memoize c i j (skipped + 1) t := by
  rw [Search.splits.eq_def]
  by_cases hlt : i + skipped + 1 + 1 < j
  · simp only [if_pos hlt, if_neg h]
  · rw [Search.splits.eq_def]
    simp only [if_neg hlt, if_neg (show ¬ i + (skipped + 1) + 1 + 1 < j by omega)]

theorem symbol_lt (c : Chain) : c.symbol.toNat < 128 := by
  cases c <;> decide

/-- **Loop lemma.** The next byte to look at is the first one of the next character to look at, or
it comes before this character and is that of no symbol. -/
theorem splits_matches {c : Chain} (hij : i < j) (hj : j ≤ input.size)
    (hshorter : ∀ r i' j', i ≤ i' → i' < j' → j' ≤ j → j' - i' < j - i →
      Mirrored input memoize r (some (inBytes input (.chain c) i j)) i' j')
    (htighter : Mirrored input memoize c.tighter (some (inBytes input (.chain c) i j)) i j)
    (last : { last // last + 1 = offset input j }) (bytes chars : Nat) (hchars : i + chars < j)
    (hafter : offset input (i + chars) < offset input i + bytes + 1)
    (hbefore : offset input i + bytes + 1 ≤ offset input (i + chars + 1))
    (s : Run) (t : Search) (h : Follows input s t) :
    Matches input s.calls (splits (String.ofList input.toList) memoize c (offset input i)
        (offset input j) last bytes s) (Search.splits input memoize c i j chars t) := by
  have hlastj := last.property
  have hend := offset_le hj (Nat.le_refl _)
  rw [splits]
  by_cases hlast : offset input i + bytes + 1 < last
  · obtain ⟨byte, hbyte, hiff⟩ := exists_byteAt_upto (by omega) hafter hbefore (by omega)
      (symbol_lt c)
    -- the next byte, after one that starts a character
    have next {s : Run} {t : Search} (h : Follows input s t)
        (hstart : offset input i + bytes + 1 = offset input (i + chars + 1)) :
        Matches input s.calls (splits (String.ofList input.toList) memoize c (offset input i)
          (offset input j) last (bytes + 1) s)
          (Search.splits input memoize c i j (chars + 1) t) := by
      have hchars' : i + (chars + 1) < j := by
        by_contra hle
        have := offset_le (show j ≤ i + chars + 1 by omega)
          (show i + chars + 1 ≤ input.size by omega)
        omega
      have hnext := offset_lt_succ (Nat.lt_of_lt_of_le hchars' hj)
      refine splits_matches hij hj hshorter htighter last (bytes + 1) (chars + 1) hchars'
        ?_ ?_ s t h
      · rw [show i + (chars + 1) = i + chars + 1 from rfl, ← hstart]
        omega
      · rw [show i + (chars + 1) = i + chars + 1 from rfl] at hnext ⊢
        omega
    simp only [if_pos hlast, hbyte, bind, Except.bind]
    by_cases hsymbol : byte = c.symbol.toUInt8
    · -- the symbol starts here and takes one byte, so both sides are spans of characters
      obtain ⟨hstart, hget⟩ := hiff.mp hsymbol
      have hnext := offset_succ hget
      rw [utf8Size_of_lt (symbol_lt c), ← hstart] at hnext
      have hin : i + chars + 1 + 1 < j := by
        by_contra hle
        have := offset_le (show j ≤ i + chars + 1 + 1 by omega)
          (Array.getElem?_eq_some_iff.mp hget).1
        omega
      rw [if_pos hsymbol, Search.splits.eq_def]
      simp only [if_pos hin, if_pos hget]
      have hleft := (hshorter (.chain c) i (i + chars + 1) (Nat.le_refl _) (by omega) (by omega)
        (by omega) s t h).entered
      rw [← hstart] at hleft
      generalize Search.attempt input memoize (.chain c) i (i + chars + 1) t = left at hleft ⊢
      obtain ⟨s₁, hs₁, h₁, hkept₁⟩ := hleft
      obtain ⟨_ | left, t₁⟩ := left
      · simp only [hs₁]
        exact (next h₁ hstart).mono hkept₁
      · have hright := ((hshorter c.tighter (i + chars + 1 + 1) j (by omega) hin (Nat.le_refl _)
          (by omega) s₁ t₁ h₁).entered).mono hkept₁
        rw [hnext] at hright
        simp only [hs₁]
        generalize Search.attempt input memoize c.tighter (i + chars + 1 + 1) j t₁ =
          right at hright ⊢
        obtain ⟨s₂, hs₂, h₂, hkept₂⟩ := hright
        obtain ⟨_ | right, t₂⟩ := right
        · simp only [hs₂]
          exact (next (h₂.remove left) hstart).mono hkept₂
        · simp only [hs₂, slice_offset hij.le hj]
          exact (h₂.join (.compound c.operator) [left, right]).mono hkept₂
    · rw [if_neg hsymbol]
      by_cases hstart : offset input i + bytes + 1 = offset input (i + chars + 1)
      · rw [splits_skip fun hget => hsymbol (hiff.mpr ⟨hstart, hget⟩)]
        exact next h hstart
      · -- inside a longer character only the search on bytes goes on
        exact splits_matches hij hj hshorter htighter last (bytes + 1) chars hchars (by omega)
          (by omega) s t h
  · have hdone : ¬ i + chars + 1 + 1 < j := by
      intro hlt
      have := offset_lt hlt hj
      have := offset_lt_succ (show i + chars + 1 < input.size by omega)
      omega
    rw [Search.splits.eq_def]
    simp only [if_neg hlast, if_neg hdone]
    exact (htighter s t h).entered
termination_by offset input j - bytes

theorem binary_matches {c : Chain} (hcovers : Covers input i j)
    (hshorter : ∀ r i' j', i ≤ i' → i' < j' → j' ≤ j → j' - i' < j - i →
      Mirrored input memoize r (some (inBytes input (.chain c) i j)) i' j')
    (htighter : Mirrored input memoize c.tighter (some (inBytes input (.chain c) i j)) i j)
    (h : Follows input s t) :
    Matches input s.calls
      (binary (String.ofList input.toList) memoize c (offset input i) (offset input j) s)
      (Search.splits input memoize c i j 0 t) := by
  have hentered := h.enter (hcovers.sound (.binary c) fun _ _ hr => by cases hr)
  refine Matches.mono ?_ (List.suffix_cons ⟨.binary c, offset input i, offset input j⟩ s.calls)
  have hj := hcovers.bounded
  have hbytes := add_le_offset hcovers.ordered hj
  rw [binary, minus_of_le (offset_le hcovers.ordered hj)]
  simp only [bind, Except.bind]
  by_cases hlong : 2 < offset input j - offset input i
  · have hij : i < j := by
      rcases Nat.eq_or_lt_of_le hcovers.ordered with rfl | hij
      · omega
      · exact hij
    have hnext := offset_lt_succ (Nat.lt_of_lt_of_le hij hj)
    simp only [if_pos hlong, minus_of_le (show 1 ≤ offset input j by omega)]
    exact splits_matches hij hj hshorter htighter _ 0 0 hij (Nat.lt_succ_self _) hnext _ t hentered
  · rw [Search.splits.eq_def]
    simp only [if_neg hlong, if_neg (show ¬ i + 0 + 1 + 1 < j by omega)]
    exact (htighter _ t hentered).entered

/-- **The search on bytes is the search on characters.** On a span of characters a rule does not
panic and ends where the attempt on characters ends. -/
theorem mirrored (input : Array Char) (memoize : Bool) (r : Rule) (caller : Option Attempt)
    (i j : Nat)
    (hcovers : Covers input i j) (hdecreases : Decreases (inBytes input r i j) caller) :
    Mirrored input memoize r caller i j := by
  have shorter (outer r : Rule) (i' j' : Nat) (hi : i ≤ i') (hij : i' < j') (hj : j' ≤ j)
      (hlt : j' - i' < j - i) :
      Mirrored input memoize r (some (inBytes input outer i j)) i' j' := by
    refine mirrored input memoize r _ i' j' ⟨hij.le, Nat.le_trans hj hcovers.bounded,
      fun _ => hij⟩ ?_
    intro a ha
    obtain rfl := Option.mem_some.mp ha
    exact Prod.Lex.left _ _ (offset_sub_lt hi hij.le hj hlt hcovers.bounded)
  have grouping_level (caller : Option Attempt)
      (hdecreases : Decreases (inBytes input .grouping i j) caller) :
      Mirrored input memoize .grouping caller i j :=
    mirrored_of_body hcovers hdecreases fun s t h => grouping_matches hcovers
      (fun hlong => shorter _ _ _ _ (by omega) (by omega) (by omega) (by omega)) h
  have chain_level {c : Chain}
    (htighter : ∀ caller, Decreases (inBytes input c.tighter i j) caller →
      Mirrored input memoize c.tighter caller i j) (caller : Option Attempt)
      (hdecreases : Decreases (inBytes input (.chain c) i j) caller) :
      Mirrored input memoize (.chain c) caller i j := by
    refine mirrored_of_body hcovers hdecreases fun s t h =>
      binary_matches hcovers (shorter (.chain c)) (htighter _ fun a ha => ?_) h
    obtain rfl := Option.mem_some.mp ha
    exact Prod.Lex.right _ c.looseness_tighter
  have multiplication_level := chain_level (c := .multiplication) grouping_level
  cases r with
  | grouping => exact grouping_level caller hdecreases
  | chain c =>
    cases c with
    | multiplication => exact multiplication_level caller hdecreases
    | addition => exact chain_level (c := .addition) multiplication_level caller hdecreases
termination_by j - i

end

/-! ## Parsing -/

theorem follows_initial (input : Array Char) : Follows input .initial .initial where
  store := rfl
  failures _ _ _ _ _ := by simp [Run.initial, Search.initial]
  calls _ h := by cases h

theorem parseInput_eq (options : ParserOptions) (text : String) (input : List Char) :
    ∃ calls, parseInput options text (String.ofList input) =
        .ok (Parser.parseInput options text input, calls) ∧
      (∀ call ∈ calls, call.Sound (String.ofList input)) ∧
      ⟨.rule (.chain .addition) none, 0, (String.ofList input).utf8ByteSize⟩ ∈ calls := by
  have hcovers : Covers input.toArray 0 input.toArray.size :=
    ⟨Nat.zero_le _, Nat.le_refl _, Nat.pos_of_ne_zero⟩
  have hwhole := mirrored input.toArray options.memoize (.chain .addition) none 0 input.toArray.size
    hcovers (fun a ha => by cases ha) .initial .initial (follows_initial _)
  rw [offset_zero, offset_size, List.toList_toArray] at hwhole
  rw [Parser.parseInput, derive?, parseInput]
  generalize Search.attempt input.toArray options.memoize (.chain .addition) 0 input.toArray.size
    Search.initial = result at hwhole ⊢
  obtain ⟨s, hs, hfollows, hcalls⟩ := hwhole
  have hrecorded := hcalls.subset (List.mem_cons_self ..)
  have hsound := hfollows.calls
  rw [List.toList_toArray] at hsound
  obtain ⟨_ | root, t⟩ := result
  · rw [hs]
    exact ⟨s.calls, rfl, hsound, hrecorded⟩
  · rw [hs]
    refine ⟨s.calls, ?_, hsound, hrecorded⟩
    have hstore : s.search.store = t.store := hfollows.store
    simp only [← hstore]
    rfl

/-- **Parsing never panics.** For every text and all options, parsing on bytes ends without a panic
and gives the tree or the error that parsing gives. Every call that is made on the way has a span
between two characters of the text without its blanks, in order and not empty unless this text is
empty; and from one attempt at a rule to those it asks for, the length of the span decreases, or the
length is the same and the rule gets tighter. Unless the text is refused for its length, the whole
of it is asked for a sum. -/
theorem parse_never_panics (options : ParserOptions) (text : String) :
    let input := String.ofList (Text.withoutBlanks text.toList)
    ∃ calls, parse options text = .ok (Parser.parse options text, calls) ∧
      (∀ call ∈ calls, call.Sound input) ∧
      (options.Admits input.length →
        ⟨.rule (.chain .addition) none, 0, input.utf8ByteSize⟩ ∈ calls) := by
  intro input
  obtain ⟨calls, hparse, hsound, hwhole⟩ :=
    parseInput_eq options text (Text.withoutBlanks text.toList)
  have hlength : input.length = (Text.withoutBlanks text.toList).length := String.length_ofList
  unfold parse Parser.parse
  rw [hlength]
  cases hmax : options.maxLength with
  | none => exact ⟨calls, hparse, hsound, fun _ => hwhole⟩
  | some max =>
    by_cases hlong : max < (Text.withoutBlanks text.toList).length
    · refine ⟨[], ?_, fun _ h => (by cases h), fun hadmits => ?_⟩
      · simp only [String.length_ofList, if_pos hlong]
      · exact absurd hlong (Nat.not_lt.mpr (hadmits max hmax))
    · refine ⟨calls, ?_, hsound, fun _ => hwhole⟩
      simp only [String.length_ofList, if_neg hlong, hparse]

/-- The letter after the symbol takes two bytes, so the four bytes of the text are three characters,
which the limit allows. -/
theorem parse_never_panics_accent : ∃ calls,
    parse ⟨true, some 3⟩ "a + é" = .ok (.error (.invalid "a + é"), calls) ∧
      (∀ call ∈ calls, call.Sound "a+é") ∧ ⟨.rule (.chain .addition) none, 0, 4⟩ ∈ calls := by
  have hinput : String.ofList (Text.withoutBlanks "a + é".toList) = "a+é" := by decide +kernel
  have hrefused : Parser.parse ⟨true, some 3⟩ "a + é" = .error (.invalid "a + é") := by cbv
  obtain ⟨calls, hparse, hsound, hwhole⟩ := parse_never_panics ⟨true, some 3⟩ "a + é"
  rw [hinput] at hsound hwhole
  rw [hrefused] at hparse
  refine ⟨calls, hparse, hsound, hwhole fun max hmax => ?_⟩
  cases hmax
  decide +kernel

end ArithTree.Parser.Bytes
