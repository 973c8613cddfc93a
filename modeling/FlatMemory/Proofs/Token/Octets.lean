import FlatMemory.Proofs.Text.Trie
import FlatMemory.Proofs.Token.Shape
import FlatMemory.Token.Cursor
import Mathlib.Data.List.Induction

/-! # Bytes of a text

An ASCII character is its own byte, and no byte of another character is an ASCII character.  So a
search for ASCII characters finds in the bytes what it finds in the text. -/

namespace FlatMemory

open List

variable {c : Char}

def AsciiOnly (p : Char → Bool) : Prop := ∀ c, p c = true → c.toNat < 128

theorem AsciiOnly.false {p : Char → Bool} (ascii : AsciiOnly p) (wide : ¬ c.toNat < 128) :
    p c = false := by
  cases found : p c with
  | false => rfl
  | true => exact absurd (ascii c found) wide

namespace Lexeme

theorem ascii_isIdentPart : AsciiOnly isIdentPart := by
  intro c part
  have := isIdentPart_range part
  omega

theorem ascii_isIdentStart : AsciiOnly isIdentStart :=
  fun c start => ascii_isIdentPart c (isIdentPart_of_isIdentStart start)

theorem ascii_isDigit : AsciiOnly Char.isDigit :=
  fun c digit => ascii_isIdentPart c (isIdentPart_of_isDigit digit)

theorem ascii_isHexDigit : AsciiOnly isHexDigit :=
  fun c digit => ascii_isIdentPart c (isIdentPart_of_isHexDigit digit)

theorem ascii_isSpace : AsciiOnly isSpace := by
  intro c space
  simp only [isSpace, Bool.or_eq_true, beq_iff_eq] at space
  rcases space with ((rfl | rfl) | rfl) | rfl <;> decide

end Lexeme

namespace Text

variable {d : Char}

@[simp] theorem octets_nil : octets [] = [] := rfl

@[simp] theorem octets_append (first second : Text) :
    octets (first ++ second) = octets first ++ octets second := by
  simp [octets]

theorem toNat_ofUInt8 (b : UInt8) : (Char.ofUInt8 b).toNat = b.toNat := by
  change b.toUInt32.toNat = b.toNat
  simp

theorem octets_ascii (ascii : c.toNat < 128) (cs : Text) :
    octets (c :: cs) = c :: octets cs := by
  have code : c.val.toNat ≤ 127 := Nat.le_of_lt_succ ascii
  have same : Char.ofUInt8 (UInt8.ofNat c.val.toNat) = c := by
    apply Char.toNat_inj.1
    rw [toNat_ofUInt8, UInt8.toNat_ofNat']
    exact Nat.mod_eq_of_lt (Nat.lt_of_lt_of_le ascii (by decide))
  have encoded : String.utf8EncodeChar c = [UInt8.ofNat c.val.toNat] := if_pos code
  rw [octets, flatMap_cons, encoded, map_singleton, same, singleton_append]
  rfl

theorem octets_wide (wide : ¬ c.toNat < 128) (cs : Text) :
    ∃ b bytes, octets (c :: cs) = b :: (bytes ++ octets cs) ∧
      ∀ d ∈ b :: bytes, ¬ d.toNat < 128 := by
  have code : ¬ c.val.toNat ≤ 127 := fun low => wide (Nat.lt_succ_of_le low)
  have high : ∀ b ∈ String.utf8EncodeChar c, ¬ b.toNat < 128 := by
    unfold String.utf8EncodeChar
    dsimp only
    rw [if_neg code]
    intro b member
    split at member
    · simp only [mem_cons, not_mem_nil, or_false] at member
      rcases member with rfl | rfl <;> rw [UInt8.toNat_ofNat'] <;> omega
    split at member
    · simp only [mem_cons, not_mem_nil, or_false] at member
      rcases member with rfl | rfl | rfl <;> rw [UInt8.toNat_ofNat'] <;> omega
    · simp only [mem_cons, not_mem_nil, or_false] at member
      rcases member with rfl | rfl | rfl | rfl <;> rw [UInt8.toNat_ofNat'] <;> omega
  cases encoded : String.utf8EncodeChar c with
  | nil =>
    have width := String.length_utf8EncodeChar c
    rw [encoded] at width
    exact absurd width.symm (Nat.ne_of_gt (Char.utf8Size_pos c))
  | cons b bytes =>
    refine ⟨Char.ofUInt8 b, bytes.map Char.ofUInt8, by simp [octets, encoded], ?_⟩
    intro d member
    rw [← map_cons, ← encoded] at member
    obtain ⟨source, isSource, rfl⟩ := mem_map.1 member
    rw [toNat_ofUInt8]
    exact high source isSource

theorem length_octets (text : Text) : (octets text).length = byteLength text := by
  induction text with
  | nil => rfl
  | cons c cs ih =>
    rw [← singleton_append, octets_append, length_append, ih]
    simp [octets, byteLength]

theorem byteLength_ascii {text : Text} (ascii : ∀ c ∈ text, c.toNat < 128) :
    byteLength text = text.length := by
  induction text with
  | nil => rfl
  | cons c cs ih =>
    have width := length_octets (c :: cs)
    rw [octets_ascii (ascii c mem_cons_self), length_cons, length_octets,
      ih fun d member => ascii d (mem_cons_of_mem _ member)] at width
    exact width.symm

section Classes

variable {p : Char → Bool} (ascii : AsciiOnly p) {text : Text}

include ascii

theorem octets_free (free : ∀ c ∈ text, p c = false) : ∀ b ∈ octets text, p b = false := by
  induction text with
  | nil => simp
  | cons c cs ih =>
    have later := ih fun d member => free d (mem_cons_of_mem _ member)
    by_cases low : c.toNat < 128
    · rw [octets_ascii low]
      intro b member
      rcases mem_cons.1 member with rfl | member
      · exact free b mem_cons_self
      · exact later b member
    · obtain ⟨first, bytes, split, high⟩ := octets_wide low cs
      rw [split, ← cons_append]
      intro b member
      rcases mem_append.1 member with member | member
      · exact ascii.false (high b member)
      · exact later b member

theorem takeWhile_octets (text : Text) : (octets text).takeWhile p = text.takeWhile p := by
  induction text with
  | nil => rfl
  | cons c cs ih =>
    by_cases low : c.toNat < 128
    · rw [octets_ascii low, takeWhile_cons, takeWhile_cons, ih]
    · obtain ⟨first, bytes, split, high⟩ := octets_wide low cs
      rw [split, takeWhile_cons_of_neg (by simp [ascii.false (high first mem_cons_self)]),
        takeWhile_cons_of_neg (by simp [ascii.false low])]

theorem findIdx?_octets_none (free : ∀ c ∈ text, p c = false) : (octets text).findIdx? p = none :=
  findIdx?_eq_none_iff.2 (octets_free ascii free)

theorem findIdx?_octets_some {front : Text} (rest : Text) (free : ∀ c ∈ front, p c = false)
    (found : p c = true) :
    (octets (front ++ c :: rest)).findIdx? p = some front.byteLength := by
  rw [octets_append, octets_ascii (ascii c found), findIdx?_append,
    findIdx?_octets_none ascii free, findIdx?_cons, if_pos found, length_octets]
  simp

end Classes

def lead (text : Text) : Char := ((octets text)[0]?).getD '\x00'

theorem lead_ascii (ascii : c.toNat < 128) (cs : Text) : lead (c :: cs) = c := by
  rw [lead, octets_ascii ascii]
  rfl

theorem lead_wide (wide : ¬ c.toNat < 128) (cs : Text) :
    ¬ (lead (c :: cs)).toNat < 128 := by
  obtain ⟨b, bytes, split, high⟩ := octets_wide wide cs
  rw [lead, split]
  exact high b mem_cons_self

theorem class_lead {p : Char → Bool} (ascii : AsciiOnly p) (zero : p '\x00' = false)
    (text : Text) : p (lead text) = text.head?.any p := by
  cases text with
  | nil => exact zero
  | cons c cs =>
    by_cases low : c.toNat < 128
    · rw [lead_ascii low]
      rfl
    · rw [ascii.false (lead_wide low cs)]
      exact (ascii.false low).symm

theorem lead_eq_iff (ascii : d.toNat < 128) (notZero : d ≠ '\x00') (text : Text) :
    lead text = d ↔ ∃ cs, text = d :: cs := by
  have isClass : AsciiOnly (· == d) := by
    intro c same
    rw [eq_of_beq same]
    exact ascii
  have found := class_lead isClass (by simpa using notZero.symm) text
  rw [Bool.eq_iff_iff, beq_iff_eq] at found
  rw [found]
  cases text <;> simp

theorem count_octets (text : Text) : (octets text).count '\n' = lineBreaks text := by
  induction text with
  | nil => rfl
  | cons c cs ih =>
    by_cases low : c.toNat < 128
    · rw [octets_ascii low, count_cons, ih, lineBreaks, lineBreaks, count_cons]
    · obtain ⟨b, bytes, split, high⟩ := octets_wide low cs
      have none : (b :: bytes).count '\n' = 0 :=
        count_eq_zero_of_not_mem fun member => high _ member (by decide)
      have other : c ≠ '\n' := by
        rintro rfl
        exact low (by decide)
      rw [split, ← cons_append, count_append, none, ih, Nat.zero_add, lineBreaks,
        lineBreaks, count_cons_of_ne other]

theorem getLast?_octets (ascii : d.toNat < 128) (text : Text) :
    (octets text).getLast? = some d ↔ text.getLast? = some d := by
  induction text using List.reverseRecOn with
  | nil => simp
  | append_singleton front c _ =>
    rw [octets_append, getLast?_concat, Option.some.injEq]
    by_cases low : c.toNat < 128
    · rw [octets_ascii low, octets_nil, getLast?_concat, Option.some.injEq]
    · obtain ⟨b, bytes, split, high⟩ := octets_wide low []
      rw [octets_nil, append_nil] at split
      rw [split, getLast?_append, getLast?_eq_some_getLast (by simp), Option.some_or,
        Option.some.injEq]
      constructor
      · intro last
        exact absurd ascii (last ▸ high _ (getLast_mem (by simp)))
      · rintro rfl
        exact absurd ascii low

end Text

namespace Trie

variable {trie : Trie Char}

def starts : Trie Char → List Char
  | empty => []
  | edge label _ _ beside => label :: starts beside

theorem longestMatch_of_not_start (absent : c ∉ trie.starts) (cs : Text) :
    trie.longestMatch (c :: cs) = 0 := by
  induction trie with
  | empty => rfl
  | edge label wordEnds below beside _ ih =>
    simp only [starts, mem_cons, not_or] at absent
    rw [longestMatch, if_neg (Ne.symm absent.1), ih absent.2]

theorem longestMatch_octets (ascii : trie.all (fun c => c.toNat < 128) = true) (text : Text) :
    trie.longestMatch text.octets = trie.longestMatch text := by
  induction trie generalizing text with
  | empty => rfl
  | edge label wordEnds below beside ihBelow ihBeside =>
    simp only [Trie.all, Bool.and_eq_true, decide_eq_true_eq] at ascii
    obtain ⟨⟨low, lowBelow⟩, lowBeside⟩ := ascii
    cases text with
    | nil => rfl
    | cons c cs =>
      have later := ihBeside lowBeside (c :: cs)
      by_cases isLow : c.toNat < 128
      · rw [Text.octets_ascii isLow] at later ⊢
        rw [longestMatch, longestMatch, ihBelow lowBelow, later]
      · obtain ⟨b, bytes, split, high⟩ := Text.octets_wide isLow cs
        rw [split] at later ⊢
        have notByte : label ≠ b := fun same => high b mem_cons_self (same ▸ low)
        have notChar : label ≠ c := fun same => isLow (same ▸ low)
        rw [longestMatch, longestMatch, if_neg notByte, if_neg notChar, later]

end Trie

namespace Operator

theorem trie_ascii : trie.all (fun c => c.toNat < 128) = true := by decide

theorem longestMatch_nodes (bytes : List Char) : nodes.longestMatch bytes = trie.longestMatch bytes := by
  rw [nodes, trie, NodeTrie.longestMatch_eq_longest, Trie.longestMatch_eq]

theorem mem_starts (start : c ∈ trie.starts) : c ∈ '/' :: Cursor.operatorStarts := by
  have all : (trie.starts.all fun c => c ∈ '/' :: Cursor.operatorStarts) = true := by decide
  exact of_decide_eq_true (all_eq_true.1 all c start)

end Operator

end FlatMemory
