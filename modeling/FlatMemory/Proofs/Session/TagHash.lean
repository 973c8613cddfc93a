import FlatMemory.Proofs.Token.Octets
import FlatMemory.Session.ClassTag
import Mathlib.Data.Nat.Bitwise

/-! # The hash of a class name

A step of the hash turns the 28 bits of its state and flips six of them by the code of a character.
Turning can be undone, and different characters have different codes.  So a step is one to one in the
state and in the character, and names that differ in one character have different ids. -/

namespace FlatMemory

open List Option

namespace ClassTag

variable {state other code : Nat} {c d : Char} {text : Text}

def isNamePart (c : Char) : Bool := c.isAlphanum || c == '_' || c == '>'

theorem rotate_eq (bound : state < 2 ^ 28) :
    rotate state = 2 ^ 3 * (state % 2 ^ 25) + state / 2 ^ 25 := by
  have low : state &&& 0x1FFFFFF = state % 2 ^ 25 := Nat.and_two_pow_sub_one_eq_mod state 25
  have high : state / 2 ^ 25 < 2 ^ 3 := by omega
  rw [rotate, low, Nat.shiftRight_eq_div_pow, ← Nat.shiftLeft_add_eq_or_of_lt high,
    Nat.shiftLeft_eq, Nat.mul_comm]

theorem rotate_lt (bound : state < 2 ^ 28) : rotate state < 2 ^ 28 := by
  have turned := rotate_eq bound
  omega

/-- Turning back. -/
theorem rotate_back (bound : state < 2 ^ 28) :
    2 ^ 25 * (rotate state % 2 ^ 3) + rotate state / 2 ^ 3 = state := by
  have high : state / 2 ^ 25 < 2 ^ 3 := by omega
  rw [rotate_eq bound, Nat.mul_add_mod, Nat.mod_eq_of_lt high,
    Nat.mul_add_div (by decide), Nat.div_eq_of_lt high, Nat.add_zero, Nat.div_add_mod]

/-- A character and its code, by number. -/
theorem charCode?_cases (coded : charCode? c = some code) :
    65 ≤ c.toNat ∧ c.toNat ≤ 90 ∧ code = c.toNat - 65 ∨
    97 ≤ c.toNat ∧ c.toNat ≤ 122 ∧ code = c.toNat - 97 + 26 ∨
    48 ≤ c.toNat ∧ c.toNat ≤ 57 ∧ code = c.toNat - 48 + 52 ∨
    c.toNat = 95 ∧ code = 62 ∨ c.toNat = 62 ∧ code = 63 := by
  delta charCode? Char.isUpper Char.isLower Char.isDigit at coded
  simp only [Bool.and_eq_true, decide_eq_true_eq, ge_iff_le, UInt32.le_iff_toNat_le] at coded
  split at coded
  · next upper => exact .inl ⟨upper.1, upper.2, (Option.some.inj coded).symm⟩
  split at coded
  · next lower => exact .inr (.inl ⟨lower.1, lower.2, (Option.some.inj coded).symm⟩)
  split at coded
  · next digit => exact .inr (.inr (.inl ⟨digit.1, digit.2, (Option.some.inj coded).symm⟩))
  split at coded
  · next underscore =>
    exact .inr (.inr (.inr (.inl ⟨by rw [underscore]; rfl, (Option.some.inj coded).symm⟩)))
  split at coded
  · next arrow => exact .inr (.inr (.inr (.inr ⟨by rw [arrow]; rfl, (Option.some.inj coded).symm⟩)))
  · cases coded

theorem charCode?_lt (coded : charCode? c = some code) : code < 2 ^ 6 := by
  have cases := charCode?_cases coded
  omega

theorem charCode?_inj (coded : charCode? c = some code) (otherCoded : charCode? d = some code) :
    c = d := by
  have cases := charCode?_cases coded
  have otherCases := charCode?_cases otherCoded
  exact Char.toNat_inj.1 (by omega)

theorem isSome_charCode? (c : Char) : (charCode? c).isSome = isNamePart c := by
  unfold charCode? isNamePart Char.isAlphanum Char.isAlpha
  grind

theorem isNamePart_ascii : AsciiOnly isNamePart := by
  intro c isPart
  obtain ⟨code, coded⟩ := isSome_iff_exists.1 ((isSome_charCode? c).trans isPart)
  have cases := charCode?_cases coded
  omega

theorem step_lt (bound : state < 2 ^ 28) (coded : charCode? c = some code) :
    rotate state ^^^ code < 2 ^ 28 :=
  Nat.xor_lt_two_pow (rotate_lt bound)
    (Nat.lt_of_lt_of_le (charCode?_lt coded) (Nat.pow_le_pow_right (by decide) (by decide)))

theorem isSome_hashFrom (state : Nat) (text : Text) :
    (hashFrom state text).isSome = true ↔ ∀ c ∈ text, isNamePart c = true := by
  induction text generalizing state with
  | nil => simp [hashFrom]
  | cons c text ih =>
    rw [forall_mem_cons, ← isSome_charCode?, hashFrom]
    cases charCode? c with
    | none => simp
    | some code => simp [ih]

theorem hashFrom_lt {hash : Nat} (bound : state < 2 ^ 28) (hashed : hashFrom state text = some hash) :
    hash < 2 ^ 28 := by
  induction text generalizing state with
  | nil =>
    cases hashed
    exact bound
  | cons c text ih =>
    obtain ⟨code, coded, hashed⟩ := bind_eq_some_iff.1 hashed
    exact ih (step_lt bound coded) hashed

/-- A difference of the states is not lost again, however long the text is. -/
theorem hashFrom_inj {hash : Nat} (bound : state < 2 ^ 28) (otherBound : other < 2 ^ 28)
    (hashed : hashFrom state text = some hash) (otherHashed : hashFrom other text = some hash) :
    state = other := by
  induction text generalizing state other with
  | nil => exact Option.some.inj (hashed.trans otherHashed.symm)
  | cons c text ih =>
    obtain ⟨code, coded, hashed⟩ := bind_eq_some_iff.1 hashed
    rw [hashFrom, coded] at otherHashed
    have turned := ih (step_lt bound coded) (step_lt otherBound coded) hashed otherHashed
    rw [← rotate_back bound, Nat.xor_left_injective turned, rotate_back otherBound]

theorem hashFrom_append (state : Nat) (front back : Text) :
    hashFrom state (front ++ back) = (hashFrom state front).bind (hashFrom · back) := by
  induction front generalizing state with
  | nil => rfl
  | cons c front ih =>
    simp only [cons_append, hashFrom, ih, bind, bind_assoc]

/-- Behind a common front two characters lead to different states. -/
theorem hashFrom_ne {front back : Text} (bound : state < 2 ^ 28)
    (spelled : ∀ x ∈ front ++ c :: back, isNamePart x = true) (isPart : isNamePart d = true)
    (differ : c ≠ d) : hashFrom state (front ++ c :: back) ≠ hashFrom state (front ++ d :: back) := by
  obtain ⟨frontSpelled, backSpelled⟩ := forall_mem_append.1 spelled
  obtain ⟨middle, reached⟩ := isSome_iff_exists.1 ((isSome_hashFrom state front).2 frontSpelled)
  obtain ⟨hash, hashed⟩ := isSome_iff_exists.1 ((isSome_hashFrom middle _).2 backSpelled)
  have small := hashFrom_lt bound reached
  obtain ⟨code, coded, hashed⟩ := bind_eq_some_iff.1 hashed
  obtain ⟨otherCode, otherCoded⟩ :=
    isSome_iff_exists.1 ((isSome_charCode? d).trans isPart)
  intro same
  rw [hashFrom_append, hashFrom_append, reached] at same
  simp only [bind_some, hashFrom, coded, otherCoded, bind, hashed] at same
  have codes := hashFrom_inj (step_lt small coded) (step_lt small otherCoded) hashed same.symm
  rw [Nat.xor_right_injective codes] at coded
  exact differ (charCode?_inj coded otherCoded)

/-- Texts of one length that differ at a single place. -/
theorem exists_split_of_differ {first second : Text} (lengths : first.length = second.length)
    (one : ∃! position : Nat, first[position]? ≠ second[position]?) :
    ∃ front c d back, c ≠ d ∧ first = front ++ c :: back ∧ second = front ++ d :: back := by
  obtain ⟨position, differ, only⟩ := one
  have inside : position < first.length := by
    by_contra outside
    rw [getElem?_eq_none (by omega), getElem?_eq_none (by omega)] at differ
    exact differ rfl
  have otherInside : position < second.length := lengths ▸ inside
  have changed : second = first.set position second[position] := by
    refine ext_getElem? fun place => ?_
    rw [getElem?_set]
    split
    · next here => rw [← here, getElem?_eq_getElem otherInside]
    · next away => exact (Decidable.not_not.1 fun apart => away (only place apart).symm).symm
  have kept := set_getElem_self inside
  rw [set_eq_take_append_cons_drop, if_pos inside] at changed kept
  refine ⟨first.take position, first[position], second[position], first.drop (position + 1), ?_,
    kept.symm, changed⟩
  intro same
  rw [getElem?_eq_getElem inside, getElem?_eq_getElem otherInside, same] at differ
  exact differ rfl

theorem isSome_hash? (name : String) : (hash? name).isSome = true ↔
    Text.byteLength name.toList < 2 ^ 32 ∧ ∀ c ∈ name.toList, isNamePart c = true := by
  rw [hash?]
  split
  · next short => simpa [isSome_hashFrom] using fun _ => short
  · next long => simpa using fun short => absurd short long

/-- The names that have a hash are those of fewer than `2 ^ 32` bytes without other characters.  A
hash has 28 bits, and names of one length that differ in a single character have different hashes. -/
theorem hash_separates (name : String) :
    ((hash? name).isSome = true ↔
      Text.byteLength name.toList < 2 ^ 32 ∧ ∀ c ∈ name.toList, isNamePart c = true) ∧
    (∀ id, hash? name = some id → id < 2 ^ 28) ∧
    ∀ other : String, Text.byteLength name.toList < 2 ^ 32 →
      (∀ c ∈ name.toList, isNamePart c = true) → (∀ c ∈ other.toList, isNamePart c = true) →
      name.length = other.length →
      (∃! position : Nat, name.toList[position]? ≠ other.toList[position]?) →
        hash? name ≠ hash? other := by
  have started : ∀ length, length &&& 0xFFFFFFF < 2 ^ 28 := fun length =>
    Nat.and_lt_two_pow length (by decide)
  refine ⟨isSome_hash? name, fun id hashed => ?_, fun other short spelled otherSpelled lengths one => ?_⟩
  · rw [hash?] at hashed
    split at hashed
    · exact hashFrom_lt (started _) hashed
    · cases hashed
  have sizes : Text.byteLength name.toList = Text.byteLength other.toList := by
    rw [Text.byteLength_ascii fun c member => isNamePart_ascii c (spelled c member),
      Text.byteLength_ascii fun c member => isNamePart_ascii c (otherSpelled c member)]
    exact lengths
  obtain ⟨front, c, d, back, differ, isName, isOther⟩ := exists_split_of_differ lengths one
  rw [isName] at spelled
  rw [isOther] at otherSpelled
  have fits : Text.byteLength name.toList < UInt32.size := short
  rw [hash?, hash?, ← sizes, if_pos fits, if_pos fits, isName, isOther]
  exact hashFrom_ne (started _) spelled (otherSpelled d (by simp)) differ

theorem hash_separates_sample :
    (hash? "B>L").isSome = true ∧ (∃! position : Nat, "B>L".toList[position]? ≠ "B>M".toList[position]?) ∧
      hash? "B>L" ≠ hash? "B>M" := by
  have spelled : ∀ c ∈ "B>L".toList, isNamePart c = true := all_eq_true.1 (by decide)
  have otherSpelled : ∀ c ∈ "B>M".toList, isNamePart c = true := all_eq_true.1 (by decide)
  have short : Text.byteLength "B>L".toList < 2 ^ 32 := by decide
  have one : ∃! position : Nat, "B>L".toList[position]? ≠ "B>M".toList[position]? := by
    refine ⟨2, by decide, fun position differ => ?_⟩
    obtain _ | _ | _ | position := position
    · exact absurd rfl differ
    · exact absurd rfl differ
    · rfl
    · exact absurd rfl differ
  obtain ⟨hashed, _, separates⟩ := hash_separates "B>L"
  exact ⟨hashed.2 ⟨short, spelled⟩, one, separates "B>M" short spelled otherSpelled rfl one⟩

end ClassTag

end FlatMemory
