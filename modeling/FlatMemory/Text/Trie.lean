import FlatMemory.Text.Basic

/-! # Tries with longest match

A trie is a list of labelled edges.  Each edge says whether a word ends with it, holds the trie
below it and is followed by the edges beside it.

The same words can be kept in an array of nodes that grows at its end while words are added: an edge
gives the place of the node it leads to. -/

namespace FlatMemory

inductive Trie (α : Type) where
  | empty
  | edge (label : α) (wordEnds : Bool) (below beside : Trie α)

namespace Trie

variable {α : Type}

def ofWord : List α → Trie α
  | [] => empty
  | a :: word => edge a word.isEmpty (ofWord word) empty

variable [DecidableEq α]

def insert : Trie α → List α → Trie α
  | trie, [] => trie
  | empty, a :: word => ofWord (a :: word)
  | edge label wordEnds below beside, a :: word =>
    if label = a then
      edge label (wordEnds || word.isEmpty) (insert below word) beside
    else
      edge label wordEnds below (insert beside (a :: word))

def ofWords (words : List (List α)) : Trie α := words.foldl insert empty

/-- Length of the longest non-empty word of the trie that the input starts with, or 0. -/
def longestMatch : Trie α → List α → Nat
  | empty, _ => 0
  | edge _ _ _ _, [] => 0
  | edge label wordEnds below beside, a :: input =>
    if label = a then
      match longestMatch below input with
      | 0 => if wordEnds then 1 else 0
      | n + 1 => n + 2
    else longestMatch beside (a :: input)

end Trie

structure TrieNode (α : Type) where
  edges : List (α × Nat)
  wordEnds : Bool

/-- A trie in an array, the root first.  Every edge leads to a node of the array. -/
structure NodeTrie (α : Type) where
  nodes : Array (TrieNode α)
  rooted : 0 < nodes.size
  linked : ∀ node ∈ nodes, ∀ edge ∈ node.edges, edge.2 < nodes.size

namespace NodeTrie

variable {α : Type}

abbrev Place (trie : NodeTrie α) : Type := Fin trie.nodes.size

def root (trie : NodeTrie α) : trie.Place := ⟨0, trie.rooted⟩

def initial : NodeTrie α := ⟨#[⟨[], false⟩], Nat.zero_lt_one, by simp⟩

/-- Add a node at the end of the array, and an edge to it. -/
def grow (trie : NodeTrie α) (place : trie.Place) (a : α) : NodeTrie α where
  nodes := (trie.nodes.push ⟨[], false⟩).modify place fun node =>
    { node with edges := node.edges ++ [(a, trie.nodes.size)] }
  rooted := by simp
  linked := by
    intro node member edge isEdge
    rw [Array.size_modify, Array.size_push]
    obtain ⟨i, inside, rfl⟩ := Array.mem_iff_getElem.1 member
    rw [Array.getElem_modify, Array.getElem_push] at isEdge
    have old : ∀ (here : i < trie.nodes.size), edge ∈ trie.nodes[i].edges →
        edge.2 < trie.nodes.size + 1 := fun here isEdge =>
      Nat.lt_succ_of_lt (trie.linked _ (Array.getElem_mem here) _ isEdge)
    split at isEdge
    · next same =>
      have here : i < trie.nodes.size := same ▸ place.isLt
      rw [dif_pos here, List.mem_append, List.mem_singleton] at isEdge
      rcases isEdge with isEdge | rfl
      · exact old here isEdge
      · exact Nat.lt_succ_self _
    · split at isEdge
      · next here => exact old here isEdge
      · cases isEdge

theorem size_grow (trie : NodeTrie α) (place : trie.Place) (a : α) :
    (trie.grow place a).nodes.size = trie.nodes.size + 1 := by
  simp [grow]

/-- A word ends here. -/
def mark (trie : NodeTrie α) (place : trie.Place) : NodeTrie α where
  nodes := trie.nodes.modify place fun node => { node with wordEnds := true }
  rooted := by
    rw [Array.size_modify]
    exact trie.rooted
  linked := by
    intro node member edge isEdge
    rw [Array.size_modify]
    obtain ⟨i, inside, rfl⟩ := Array.mem_iff_getElem.1 member
    rw [Array.size_modify] at inside
    refine trie.linked _ (Array.getElem_mem inside) edge ?_
    rw [Array.getElem_modify] at isEdge
    split at isEdge
    · exact isEdge
    · exact isEdge

variable [DecidableEq α]

def child? (trie : NodeTrie α) (place : trie.Place) (a : α) : Option trie.Place :=
  (trie.nodes[place].edges.find? fun edge => edge.1 = a).pmap (fun edge inside => ⟨edge.2, inside⟩)
    fun edge found => trie.linked _ (Array.getElem_mem place.isLt) edge (List.mem_of_find?_eq_some found)

/-- Walk down along a word and add what is missing. -/
def insertFrom (trie : NodeTrie α) (place : trie.Place) : List α → NodeTrie α
  | [] => trie.mark place
  | a :: word =>
    match trie.child? place a with
    | some next => insertFrom trie next word
    | none =>
      insertFrom (trie.grow place a) ⟨trie.nodes.size, by rw [size_grow]; exact Nat.lt_succ_self _⟩ word

def insert (trie : NodeTrie α) (word : List α) : NodeTrie α := trie.insertFrom trie.root word

def ofWords (words : List (List α)) : NodeTrie α := words.foldl insert initial

/-- Walk down along an input, so many labels deep and with the length of the longest word so far. -/
def search (trie : NodeTrie α) (place : trie.Place) (depth longest : Nat) : List α → Nat
  | [] => longest
  | a :: input =>
    match trie.child? place a with
    | none => longest
    | some next =>
      search trie next (depth + 1) (if trie.nodes[next].wordEnds then depth + 1 else longest) input

def longestMatch (trie : NodeTrie α) (input : List α) : Nat := trie.search trie.root 0 0 input

end NodeTrie

end FlatMemory
