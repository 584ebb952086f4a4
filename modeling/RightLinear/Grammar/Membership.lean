import RightLinear.Grammar.Basic
import RightLinear.Text.Uppercase

/-!
# Membership in the language of a grammar

A word is recognised by a search for a derivation, depth first, alternatives in
order. What is left of the word together with the nonterminal that has to derive
it is searched once: when the search comes to the same pair again, finished or
not, it turns back. A pair is remembered by the number of bytes that are left,
which tells the ends of one word apart.

* `Goal`: what is left of a word, and what has to derive it.
* `Grammar.search`: the search, with the goals still to pursue on a stack.
* `Grammar.accepts`: the verdict; words with an uppercase character are refused
  unread.
-/

namespace RightLinear

/-- The number of bytes of a word in UTF-8. -/
def byteLength : Word → Nat
  | [] => 0
  | c :: w => c.utf8Size + byteLength w

/-- An end of a word, and the nonterminal that has to derive it; without a
nonterminal nothing may be left. -/
structure Goal (w : Word) where
  rest : Word
  name? : Option Name
  suffix : rest <:+ w

namespace Goal

variable {w : Word}

/-- The goal after a terminal, if what is left begins with it. -/
def after? (goal : Goal w) (text : Word) (name? : Option Name) : Option (Goal w) :=
  if text <+: goal.rest then
    some ⟨goal.rest.drop text.length, name?, (List.drop_suffix _ _).trans goal.suffix⟩
  else none

/-- The goals that the alternatives of a nonterminal lead to, in order. -/
def next (goal : Goal w) (bodies : List Body) : List (Goal w) :=
  bodies.filterMap fun body => goal.after? body.text body.continuation?

end Goal

/-- The goals searched so far, by the number of bytes left and the nonterminal. -/
abbrev Explored := List (Nat × Name)

namespace Grammar

/-- All that can be searched on the way through a word: its ends, each with every
nonterminal that has alternatives. -/
def searchable (G : Grammar) (w : Word) : Explored :=
  (List.range (w.length + 1)).flatMap fun place =>
    G.nonterminals.map fun name => (byteLength (w.drop place), name)

/-- How much can still be searched. -/
def unexplored (G : Grammar) (w : Word) (explored : Explored) : Nat :=
  ((G.searchable w).filter (· ∉ explored)).length

theorem mem_nonterminals_of_bodies_ne_nil {G : Grammar} {name : Name}
    (h : G.bodies name ≠ []) : name ∈ G.nonterminals := by
  unfold bodies production? at h
  cases found : G.productions.find? (·.left = name) with
  | none => simp [found] at h
  | some p =>
    have named : p.left = name := by simpa using List.find?_some found
    exact List.mem_map.mpr ⟨p, List.mem_of_find?_eq_some found, named⟩

theorem mem_searchable {G : Grammar} {w rest : Word} {name : Name} (suffix : rest <:+ w)
    (h : G.bodies name ≠ []) : (byteLength rest, name) ∈ G.searchable w := by
  obtain ⟨before, rfl⟩ := suffix
  refine List.mem_flatMap.mpr ⟨before.length, ?_, List.mem_map.mpr ⟨name, ?_, ?_⟩⟩
  · exact List.mem_range.mpr (by rw [List.length_append]; omega)
  · exact mem_nonterminals_of_bodies_ne_nil h
  · rw [List.drop_left]

theorem unexplored_cons (G : Grammar) (w : Word) (explored : Explored) (key : Nat × Name) :
    G.unexplored w (key :: explored) =
      (((G.searchable w).filter (· ∉ explored)).filter (· ≠ key)).length := by
  rw [unexplored, List.filter_filter]
  congr 2
  funext k
  simp [List.mem_cons, not_or]

theorem unexplored_cons_le {G : Grammar} {w : Word} {explored : Explored} {key : Nat × Name} :
    G.unexplored w (key :: explored) ≤ G.unexplored w explored := by
  rw [unexplored_cons]
  exact List.length_filter_le _ _

theorem unexplored_cons_lt {G : Grammar} {w : Word} {explored : Explored} {key : Nat × Name}
    (searchable : key ∈ G.searchable w) (fresh : key ∉ explored) :
    G.unexplored w (key :: explored) < G.unexplored w explored := by
  rw [unexplored_cons]
  refine List.length_filter_lt_length_iff_exists.mpr ⟨key, ?_, by simp⟩
  exact List.mem_filter.mpr ⟨searchable, by simpa using fresh⟩

/-- Whether one of the goals on a stack is reached, where explored goals are not
searched again. -/
def search (G : Grammar) (w : Word) (explored : Explored) : List (Goal w) → Bool
  | [] => false
  | ⟨rest, none, _⟩ :: pending => rest.isEmpty || G.search w explored pending
  | ⟨rest, some name, suffix⟩ :: pending =>
    if (byteLength rest, name) ∈ explored then G.search w explored pending
    else
      G.search w ((byteLength rest, name) :: explored)
        (Goal.next ⟨rest, some name, suffix⟩ (G.bodies name) ++ pending)
termination_by pending => (G.unexplored w explored, pending.length)
decreasing_by
  · exact Prod.Lex.right _ (Nat.lt_succ_self _)
  · exact Prod.Lex.right _ (Nat.lt_succ_self _)
  · next fresh =>
    by_cases none : G.bodies name = []
    · rw [none, Goal.next, List.filterMap_nil, List.nil_append]
      rcases Nat.lt_or_eq_of_le unexplored_cons_le with fewer | same
      · exact Prod.Lex.left _ _ fewer
      · rw [same]
        exact Prod.Lex.right _ (Nat.lt_succ_self _)
    · exact Prod.Lex.left _ _ (unexplored_cons_lt (mem_searchable suffix none) fresh)

/-- Whether the start symbol derives a word that has no uppercase character. -/
def accepts (G : Grammar) (w : Word) : Bool :=
  !w.any Text.isUppercase && G.search w [] [⟨w, some G.start, List.suffix_refl w⟩]

end Grammar

end RightLinear
