import FlatMemory.Text.Trie
import Mathlib.Data.List.Induction

/-! # Longest match in a trie

A trie is read as the words that end in it.  An insertion adds its word and no other, and a search
finds the longest of these words that the input starts with.

In an array a word leads to a place.  Different words lead to different places, also while the array
grows, so a mark that is set for a word is found by that word alone. -/

namespace FlatMemory

variable {α : Type}

/-- The longest of some words is known by a bound for all of them and a word that reaches it. -/
theorem eq_longest [DecidableEq α] {words : List (List α)} {input : List α} {n : Nat}
    (bound : ∀ word ∈ words, word <+: input → word.length ≤ n)
    (reached : n ≠ 0 → ∃ word ∈ words, word <+: input ∧ word.length = n) :
    n = ((words.filter fun word => word.isPrefixOf input).map List.length).max?.getD 0 := by
  have listed : ∀ m, m ∈ (words.filter fun word => word.isPrefixOf input).map List.length ↔
      ∃ word ∈ words, word <+: input ∧ word.length = m := by
    intro m
    simp [and_assoc]
  cases longest : ((words.filter fun word => word.isPrefixOf input).map List.length).max? with
  | none =>
    have none := List.max?_eq_none_iff.1 longest
    refine Decidable.byContradiction fun found => ?_
    have member := (listed n).2 (reached found)
    rw [none] at member
    cases member
  | some m =>
    obtain ⟨member, greatest⟩ := List.max?_eq_some_iff.1 longest
    obtain ⟨word, isWord, starts, rfl⟩ := (listed m).1 member
    refine Nat.le_antisymm ?_ (bound word isWord starts)
    by_cases found : n = 0
    · omega
    · exact greatest _ ((listed n).2 (reached found))

namespace Trie

variable [DecidableEq α]

def holds : Trie α → List α → Bool
  | empty, _ => false
  | edge _ _ _ _, [] => false
  | edge label wordEnds below beside, a :: word =>
    if label = a then word.isEmpty && wordEnds || holds below word else holds beside (a :: word)

theorem not_holds_nil (trie : Trie α) : trie.holds [] = false := by
  cases trie <;> rfl

theorem holds_ofWord (word other : List α) :
    (ofWord word).holds other = true ↔ word ≠ [] ∧ other = word := by
  induction word generalizing other with
  | nil => simp [ofWord, holds]
  | cons a word ih =>
    cases other with
    | nil => simp [not_holds_nil]
    | cons b other =>
      rw [ofWord, holds]
      by_cases same : a = b
      · subst same
        cases word with
        | nil => simp [ofWord, holds]
        | cons c word => simp [ih]
      · simp [same, holds, eq_comm]

theorem holds_insert (trie : Trie α) (word other : List α) :
    (trie.insert word).holds other = true ↔
      trie.holds other = true ∨ word ≠ [] ∧ other = word := by
  fun_induction insert trie word generalizing other with
  | case1 trie => simp
  | case2 a word =>
    rw [holds_ofWord]
    simp [holds]
  | case3 wordEnds below beside a word ih =>
    cases other with
    | nil => simp [not_holds_nil]
    | cons b other =>
      rw [holds, holds]
      by_cases same : a = b
      · subst same
        cases word with
        | nil => cases other <;> simp [ih, not_holds_nil]
        | cons c word => cases other <;> simp [ih]
      · simp [same, Ne.symm same]
  | case4 label wordEnds below beside a word differs ih =>
    cases other with
    | nil => simp [not_holds_nil]
    | cons b other =>
      rw [holds, holds]
      by_cases same : label = b
      · subst same
        simp [differs]
      · rw [if_neg same, if_neg same, ih]

theorem holds_ofWords (words : List (List α)) (word : List α) :
    (ofWords words).holds word = true ↔ word ≠ [] ∧ word ∈ words := by
  have added : ∀ trie : Trie α, (words.foldl insert trie).holds word = true ↔
      trie.holds word = true ∨ word ≠ [] ∧ word ∈ words := by
    induction words with
    | nil => simp
    | cons first words ih =>
      intro trie
      rw [List.foldl_cons, ih, holds_insert, List.mem_cons, or_assoc]
      constructor
      · rintro (held | ⟨nonempty, rfl⟩ | later)
        · exact .inl held
        · exact .inr ⟨nonempty, .inl rfl⟩
        · exact .inr ⟨later.1, .inr later.2⟩
      · rintro (held | ⟨nonempty, rfl | later⟩)
        · exact .inl held
        · exact .inr (.inl ⟨nonempty, rfl⟩)
        · exact .inr (.inr ⟨nonempty, later⟩)
  rw [ofWords, added]
  simp [holds]

theorem holds_edge {a : α} {wordEnds : Bool} {below beside : Trie α} {word : List α} :
    (edge a wordEnds below beside).holds (a :: word) = true ↔
      word = [] ∧ wordEnds = true ∨ below.holds word = true := by
  rw [holds, if_pos rfl, Bool.or_eq_true, Bool.and_eq_true, List.isEmpty_iff]

/-- No word of the trie that the input starts with is longer than what a search finds. -/
theorem length_le_longestMatch {trie : Trie α} {input word : List α} (held : trie.holds word = true)
    (starts : word <+: input) : word.length ≤ trie.longestMatch input := by
  induction word generalizing trie input with
  | nil => exact Nat.zero_le _
  | cons b word ih =>
    obtain ⟨input, rfl⟩ : ∃ later, input = b :: later := by
      obtain ⟨rest, rfl⟩ := starts
      exact ⟨word ++ rest, rfl⟩
    replace starts := (List.cons_prefix_cons.1 starts).2
    induction trie with
    | empty => cases held
    | edge label wordEnds below beside _ beyond =>
      rw [longestMatch]
      by_cases same : label = b
      · subst same
        rw [if_pos rfl]
        rcases holds_edge.1 held with ⟨rfl, rfl⟩ | below
        · split <;> simp
        · have short := ih below starts
          split
          · next none =>
            obtain rfl : word = [] := List.length_eq_zero_iff.1 (by omega)
            simp [not_holds_nil] at below
          · simp only [List.length_cons]
            omega
      · rw [if_neg same]
        rw [holds, if_neg same] at held
        exact beyond held

/-- What a search finds is the length of a word of the trie that the input starts with. -/
theorem exists_of_longestMatch {trie : Trie α} {input : List α} (found : trie.longestMatch input ≠ 0) :
    ∃ word, trie.holds word = true ∧ word <+: input ∧ word.length = trie.longestMatch input := by
  fun_induction longestMatch trie input with
  | case1 => exact absurd rfl found
  | case2 => exact absurd rfl found
  | case3 below beside a input none ih => exact ⟨[a], holds_edge.2 (.inl ⟨rfl, rfl⟩), by simp, rfl⟩
  | case4 => exact absurd rfl found
  | case5 wordEnds below beside a input n some ih =>
    obtain ⟨word, held, starts, length⟩ := ih (by omega)
    refine ⟨a :: word, ?_, List.cons_prefix_cons.2 ⟨rfl, starts⟩, ?_⟩
    · exact holds_edge.2 (.inr held)
    · rw [List.length_cons, length, some]
  | case6 label wordEnds below beside a input differs ih =>
    obtain ⟨word, held, starts, length⟩ := ih found
    refine ⟨word, ?_, starts, length⟩
    cases word with
    | nil => simp [not_holds_nil] at held
    | cons b later =>
      obtain ⟨rfl, _⟩ := List.cons_prefix_cons.1 starts
      rw [holds, if_neg differs, held]

theorem longestMatch_eq (words : List (List α)) (input : List α) :
    (ofWords words).longestMatch input =
      ((words.filter fun word => word.isPrefixOf input).map List.length).max?.getD 0 := by
  refine eq_longest (fun word member starts => ?_) fun found => ?_
  · by_cases nonempty : word = []
    · simp [nonempty]
    · exact length_le_longestMatch ((holds_ofWords words word).2 ⟨nonempty, member⟩) starts
  · obtain ⟨word, held, starts, length⟩ := exists_of_longestMatch found
    exact ⟨word, ((holds_ofWords words word).1 held).2, starts, length⟩

end Trie

/-! ### Nodes in an array -/

namespace NodeTrie

open List

theorem getElem?_grow (trie : NodeTrie α) (place : trie.Place) (a : α) (i : Nat) :
    (trie.grow place a).nodes[i]? =
      if i = place then trie.nodes[i]?.map fun node =>
        { node with edges := node.edges ++ [(a, trie.nodes.size)] }
      else if i = trie.nodes.size then some ⟨[], false⟩ else trie.nodes[i]? := by
  have inside := place.isLt
  rw [grow, Array.getElem?_modify, Array.getElem?_push]
  grind

theorem getElem?_mark (trie : NodeTrie α) (place : trie.Place) (i : Nat) :
    (trie.mark place).nodes[i]? = if i = place then
      trie.nodes[i]?.map fun node => { node with wordEnds := true } else trie.nodes[i]? := by
  rw [mark, Array.getElem?_modify]
  grind

def ends (trie : NodeTrie α) (i : Nat) : Bool := trie.nodes[i]?.any TrieNode.wordEnds

theorem ends_grow (trie : NodeTrie α) (place : trie.Place) (a : α) (i : Nat) :
    (trie.grow place a).ends i = trie.ends i := by
  unfold ends
  rw [getElem?_grow]
  split
  · cases trie.nodes[i]? <;> rfl
  · split
    · next atEnd => simp [atEnd]
    · rfl

theorem ends_mark (trie : NodeTrie α) (place : trie.Place) (i : Nat) :
    (trie.mark place).ends i = true ↔ trie.ends i = true ∨ i = place := by
  unfold ends
  rw [getElem?_mark]
  split
  · next here => simp [here]
  · next other => simp [other]

variable [DecidableEq α] {trie : NodeTrie α} {place : trie.Place} {a : α} {word front : List α}
  {i n : Nat}

def next? (trie : NodeTrie α) (i : Nat) (a : α) : Option Nat :=
  trie.nodes[i]?.bind fun node => (node.edges.find? fun edge => edge.1 = a).map Prod.snd

theorem map_child? (trie : NodeTrie α) (place : trie.Place) (a : α) :
    (trie.child? place a).map Fin.val = trie.next? place a := by
  rw [child?, next?, Array.getElem?_eq_getElem place.isLt, Option.map_pmap, Option.pmap_eq_map]
  rfl

theorem next?_lt (leads : trie.next? i a = some n) : n < trie.nodes.size := by
  obtain ⟨node, here, leads⟩ := Option.bind_eq_some_iff.1 leads
  obtain ⟨edge, found, rfl⟩ := Option.map_eq_some_iff.1 leads
  exact trie.linked node (Array.mem_of_getElem? here) edge (mem_of_find?_eq_some found)

def place? (trie : NodeTrie α) (word : List α) : Option Nat := word.foldlM trie.next? 0

theorem place?_append (trie : NodeTrie α) (front rest : List α) :
    trie.place? (front ++ rest) = (trie.place? front).bind (rest.foldlM trie.next? ·) := by
  rw [place?, foldlM_append]
  rfl

theorem place?_concat (trie : NodeTrie α) (word : List α) (a : α) :
    trie.place? (word ++ [a]) = (trie.place? word).bind (trie.next? · a) := by
  rw [place?_append]
  simp

theorem place?_lt (leads : trie.place? word = some i) : i < trie.nodes.size := by
  rcases word.eq_nil_or_concat with rfl | ⟨word, a, same⟩
  · cases leads
    exact trie.rooted
  · rw [same, concat_eq_append, place?_concat] at leads
    obtain ⟨_, _, leads⟩ := Option.bind_eq_some_iff.1 leads
    exact next?_lt leads

def Parted (trie : NodeTrie α) : Prop :=
  ∀ ⦃word other i⦄, trie.place? word = some i → trie.place? other = some i → word = other

def Holds (trie : NodeTrie α) (word : List α) : Prop :=
  ∃ i, trie.place? word = some i ∧ trie.ends i = true

/-! #### Growth -/

theorem next?_grow (fresh : trie.next? place a = none) (i : Nat) (b : α) :
    (trie.grow place a).next? i b =
      if i = place ∧ b = a then some trie.nodes.size else trie.next? i b := by
  unfold next? at fresh ⊢
  rw [getElem?_grow]
  by_cases here : i = place
  · subst here
    rw [if_pos rfl]
    rw [Array.getElem?_eq_getElem place.isLt] at fresh ⊢
    simp only [Option.bind_some, Option.map_some, Option.map_eq_none_iff] at fresh ⊢
    rw [find?_append]
    by_cases same : b = a
    · subst same
      simp [fresh]
    · simp [same, Ne.symm same]
  · have other : ¬ (i = place ∧ b = a) := fun both => here both.1
    rw [if_neg here, if_neg other]
    split
    · next atEnd => simp [atEnd]
    · rfl

/-- The new place is where one word more leads, and every other word leads where it did. -/
theorem place?_grow (fresh : trie.next? place a = none) :
    (trie.grow place a).place? word = some i ↔ trie.place? word = some i ∨
      i = trie.nodes.size ∧ ∃ front, word = front ++ [a] ∧ trie.place? front = some place.val := by
  have beyond : ∀ b, trie.next? trie.nodes.size b = none := by simp [next?]
  induction word using reverseRecOn generalizing i with
  | nil => simp [place?]
  | append_singleton word b ih =>
    simp only [place?_concat, Option.bind_eq_some_iff, ih, next?_grow fresh]
    constructor
    · rintro ⟨j, old | ⟨rfl, _⟩, leads⟩
      · split at leads
        · next here =>
          obtain ⟨rfl, rfl⟩ := here
          exact .inr ⟨(Option.some.inj leads).symm, word, rfl, old⟩
        · exact .inl ⟨j, old, leads⟩
      · have outside : trie.nodes.size ≠ place := Nat.ne_of_gt place.isLt
        rw [if_neg fun both => outside both.1, beyond] at leads
        cases leads
    · rintro (⟨j, old, leads⟩ | ⟨rfl, front, same, old⟩)
      · refine ⟨j, .inl old, ?_⟩
        rw [if_neg]
        · exact leads
        · rintro ⟨rfl, rfl⟩
          rw [fresh] at leads
          cases leads
      · obtain ⟨rfl, last⟩ := append_inj' same rfl
        obtain ⟨rfl, _⟩ := cons.inj last
        exact ⟨place, .inl old, if_pos ⟨rfl, rfl⟩⟩

theorem Parted.grow (parted : trie.Parted) (fresh : trie.next? place a = none) :
    (trie.grow place a).Parted := by
  intro word other i leads otherLeads
  rw [place?_grow fresh] at leads otherLeads
  rcases leads with old | ⟨rfl, front, rfl, old⟩
  · have inside := place?_lt old
    rcases otherLeads with otherOld | ⟨rfl, _⟩
    · exact parted old otherOld
    · exact absurd inside (Nat.lt_irrefl _)
  · rcases otherLeads with otherOld | ⟨_, otherFront, rfl, otherOld⟩
    · exact absurd (place?_lt otherOld) (Nat.lt_irrefl _)
    · rw [parted old otherOld]

theorem holds_grow (fresh : trie.next? place a = none) :
    (trie.grow place a).Holds word ↔ trie.Holds word := by
  simp only [Holds, place?_grow fresh, ends_grow]
  constructor
  · rintro ⟨i, old | ⟨rfl, _⟩, marked⟩
    · exact ⟨i, old, marked⟩
    · simp [ends] at marked
  · rintro ⟨i, old, marked⟩
    exact ⟨i, .inl old, marked⟩

/-! #### Marks -/

theorem place?_mark (trie : NodeTrie α) (place : trie.Place) (word : List α) :
    (trie.mark place).place? word = trie.place? word := by
  have next : (trie.mark place).next? = trie.next? := by
    funext i a
    unfold next?
    rw [getElem?_mark]
    split
    · cases trie.nodes[i]? <;> rfl
    · rfl
  rw [place?, place?, next]

theorem Parted.mark (parted : trie.Parted) : (trie.mark place).Parted := by
  intro word other i leads otherLeads
  rw [place?_mark] at leads otherLeads
  exact parted leads otherLeads

/-- No other word is found at the place that is marked. -/
theorem Parted.holds_mark (parted : trie.Parted) (leads : trie.place? front = some place.val) :
    (trie.mark place).Holds word ↔ trie.Holds word ∨ word = front := by
  simp only [Holds, place?_mark, ends_mark]
  constructor
  · rintro ⟨i, here, marked | rfl⟩
    · exact .inl ⟨i, here, marked⟩
    · exact .inr (parted here leads)
  · rintro (⟨i, here, marked⟩ | rfl)
    · exact ⟨i, here, .inl marked⟩
    · exact ⟨place, leads, .inr rfl⟩

/-! #### Insertion -/

/-- Insertion goes on at the place that the front of the word leads to. -/
theorem Parted.insertFrom (parted : trie.Parted) (leads : trie.place? front = some place.val)
    (rest : List α) :
    (trie.insertFrom place rest).Parted ∧
      ∀ word, (trie.insertFrom place rest).Holds word ↔ trie.Holds word ∨ word = front ++ rest := by
  induction rest generalizing trie front with
  | nil =>
    rw [append_nil]
    exact ⟨parted.mark, fun word => parted.holds_mark leads⟩
  | cons a rest ih =>
    have step := map_child? trie place a
    unfold NodeTrie.insertFrom
    rw [← singleton_append, ← append_assoc]
    cases found : trie.child? place a with
    | some next =>
      rw [found] at step
      refine ih parted ?_
      rw [place?_concat, leads]
      exact step.symm
    | none =>
      rw [found] at step
      have fresh : trie.next? place a = none := step.symm
      have there : (trie.grow place a).place? (front ++ [a]) = some trie.nodes.size :=
        (place?_grow fresh).2 (.inr ⟨rfl, front, rfl, leads⟩)
      have grown := @ih (trie.grow place a) ⟨trie.nodes.size, place?_lt there⟩ _ (parted.grow fresh) there
      exact ⟨grown.1, fun word => (grown.2 word).trans (or_congr_left (holds_grow fresh))⟩

theorem parted_initial : (initial : NodeTrie α).Parted ∧ ∀ word, ¬ (initial : NodeTrie α).Holds word := by
  have next : ∀ i a, (initial : NodeTrie α).next? i a = none := by
    intro i a
    cases i <;> simp [next?, initial]
  constructor
  · intro word other i leads otherLeads
    have empty : ∀ word, (initial : NodeTrie α).place? word = some i → word = [] := by
      intro word leads
      cases word with
      | nil => rfl
      | cons a word => simp [place?, next] at leads
    rw [empty word leads, empty other otherLeads]
  · rintro word ⟨i, _, marked⟩
    cases i <;> simp [ends, initial] at marked

theorem holds_iff_mem (words : List (List α)) (word : List α) :
    (ofWords words).Holds word ↔ word ∈ words := by
  have added : ∀ trie : NodeTrie α, trie.Parted →
      ((words.foldl insert trie).Holds word ↔ trie.Holds word ∨ word ∈ words) := by
    induction words with
    | nil => simp
    | cons first words ih =>
      intro trie parted
      have start : trie.place? [] = some trie.root.val := rfl
      obtain ⟨later, inserted⟩ := parted.insertFrom start first
      rw [foldl_cons, ih (trie.insert first) later, NodeTrie.insert, inserted, nil_append, mem_cons,
        or_assoc]
  rw [ofWords, added _ parted_initial.1]
  simp [parted_initial.2]

/-! #### Search -/

/-- What a search finds behind a front: at least what it had found before and every word it comes
by, and no more than one of these. -/
theorem search_spec {depth longest : Nat} (leads : trie.place? front = some place.val)
    (short : longest ≤ depth) (input : List α) :
    longest ≤ trie.search place depth longest input ∧
    (∀ word, word <+: input → word ≠ [] → trie.Holds (front ++ word) →
      depth + word.length ≤ trie.search place depth longest input) ∧
    (trie.search place depth longest input = longest ∨ ∃ word, word <+: input ∧
      trie.Holds (front ++ word) ∧ depth + word.length = trie.search place depth longest input) := by
  induction input generalizing place front depth longest with
  | nil =>
    refine ⟨Nat.le_refl _, fun word starts nonempty => ?_, .inl rfl⟩
    exact absurd (prefix_nil.1 starts) nonempty
  | cons a input ih =>
    have step := map_child? trie place a
    rw [search]
    cases found : trie.child? place a with
    | none =>
      rw [found] at step
      refine ⟨Nat.le_refl _, fun word starts nonempty held => ?_, .inl rfl⟩
      obtain ⟨b, word, rfl⟩ := exists_cons_of_ne_nil nonempty
      obtain ⟨rfl, _⟩ := cons_prefix_cons.1 starts
      obtain ⟨i, there, _⟩ := held
      rw [place?_append, leads, Option.bind_some, foldlM_cons, ← step] at there
      cases there
    | some next =>
      rw [found] at step
      have there : trie.place? (front ++ [a]) = some next.val := by
        rw [place?_concat, leads]
        exact step.symm
      have here : trie.Holds (front ++ [a]) ↔ trie.nodes[next].wordEnds = true := by
        simp [Holds, there, ends]
      have between : longest ≤ (if trie.nodes[next].wordEnds then depth + 1 else longest) ∧
          (if trie.nodes[next].wordEnds then depth + 1 else longest) ≤ depth + 1 := by
        split <;> omega
      obtain ⟨kept, bound, attained⟩ := ih there between.2
      simp only [append_assoc, singleton_append] at bound attained
      dsimp only
      refine ⟨?_, fun word starts nonempty held => ?_, ?_⟩
      · exact Nat.le_trans between.1 kept
      · obtain ⟨b, word, rfl⟩ := exists_cons_of_ne_nil nonempty
        obtain ⟨rfl, behind⟩ := cons_prefix_cons.1 starts
        by_cases last : word = []
        · subst last
          rw [if_pos (here.1 held)] at kept ⊢
          exact kept
        · have later := bound word behind last held
          rw [length_cons]
          omega
      · rcases attained with same | ⟨word, starts, held, length⟩
        · rw [same]
          split
          · next ends => exact .inr ⟨[a], by simp, here.2 ends, rfl⟩
          · exact .inl rfl
        · refine .inr ⟨a :: word, cons_prefix_cons.2 ⟨rfl, starts⟩, held, ?_⟩
          rw [length_cons]
          omega

/-- The words of an array are found as those of a tree are. -/
theorem longestMatch_eq_longest (words : List (List α)) (input : List α) :
    (ofWords words).longestMatch input =
      ((words.filter fun word => word.isPrefixOf input).map List.length).max?.getD 0 := by
  have start : (ofWords words).place? [] = some (ofWords words).root.val := rfl
  obtain ⟨_, bound, attained⟩ := search_spec start (Nat.le_refl 0) input
  refine eq_longest (fun word member starts => ?_) fun found => ?_
  · by_cases nonempty : word = []
    · simp [nonempty]
    · have short := bound word starts nonempty ((holds_iff_mem words word).2 member)
      rwa [Nat.zero_add] at short
  · obtain ⟨word, starts, held, length⟩ := attained.resolve_left found
    rw [Nat.zero_add] at length
    exact ⟨word, (holds_iff_mem words word).1 held, starts, length⟩

/-- An array of nodes that some words were added to one by one, and the tree of these words, find the
length of the longest of them that the input starts with, or 0 where there is none. -/
theorem longestMatch_ofWords (words : List (List α)) (input : List α) :
    (ofWords words).longestMatch input =
        ((words.filter fun word => word.isPrefixOf input).map List.length).max?.getD 0 ∧
      (Trie.ofWords words).longestMatch input = (ofWords words).longestMatch input :=
  ⟨longestMatch_eq_longest words input, by rw [longestMatch_eq_longest, Trie.longestMatch_eq]⟩

end NodeTrie

end FlatMemory
