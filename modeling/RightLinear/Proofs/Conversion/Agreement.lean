import RightLinear.Proofs.Conversion.AutomatonFile

/-!
# Where a grammar and its automaton disagree

The recogniser of a grammar refuses words with an uppercase character unread, on the
ground that no such word is derived. For the reader of grammar files a character is
uppercase if it is one of `A` to `Z`, though, so every other uppercase letter may
stand in a terminal. The automaton of the grammar reads such a letter as it reads any
other, and the words that hold one are just those about which the two disagree.

* `Grammar.mem_terminals_of_derives`: derived words are made of terminals.
* `Grammar.not_isUpper_of_mem_terminals`: which characters terminals hold.
* `Grammar.accepts_ne_toAutomaton_iff`: the words about which the verdicts differ.
-/

namespace RightLinear

namespace Grammar

variable {G : Grammar} {text : List Char} {w : Word}

theorem mem_terminals_of_mem_bodies {name : Name} {body : Body} (mem : body ∈ G.bodies name) :
    ∀ c ∈ body.text, c ∈ G.terminals :=
  fun _ inText => mem_terminals.mpr ⟨_, mem_rules.mpr mem, inText⟩

/-- A derived word is made of characters of terminals. -/
theorem mem_terminals_of_derives {name : Name} (derives : G.Derives name w) :
    ∀ c ∈ w, c ∈ G.terminals := by
  induction derives with
  | empty _ => exact fun _ none => absurd none List.not_mem_nil
  | terminal mem => exact mem_terminals_of_mem_bodies mem
  | continued mem _ ih =>
    intro c inWord
    rcases List.mem_append.mp inWord with first | later
    · exact mem_terminals_of_mem_bodies mem c first
    · exact ih c later

theorem not_isUpper_of_mem_terminals (isRead : read text = .ok G) {c : Char}
    (mem : c ∈ G.terminals) : c.isUpper = false := by
  obtain ⟨rule, inRules, inText⟩ := mem_terminals.mp mem
  obtain ⟨word, spelled, _⟩ := (fromFile_of_read isRead).spelled rule inRules
  simpa using spelled.not_isUpper c inText

/-- A grammar that was read and its automaton disagree about the derived words with an
uppercase character beyond `A` to `Z`, and so agree about all words if no terminal holds
such a character. -/
theorem accepts_ne_toAutomaton_iff (isRead : read text = .ok G) :
    (∀ w, G.accepts w ≠ G.toAutomaton.accepts w ↔
      G.Derives G.start w ∧ ∃ c ∈ w, Text.isUppercase c = true ∧ c.isUpper = false) ∧
    ((∀ c ∈ G.terminals, Text.isUppercase c = false) →
      ∀ w, G.accepts w = G.toAutomaton.accepts w) := by
  have differ : ∀ w, G.accepts w ≠ G.toAutomaton.accepts w ↔
      G.Derives G.start w ∧ ∃ c ∈ w, Text.isUppercase c = true ∧ c.isUpper = false := by
    intro w
    cases upper : w.any Text.isUppercase with
    | false =>
      refine iff_of_false (fun h => h (accepts_toAutomaton_of_lower upper).symm) ?_
      rintro ⟨_, c, inWord, uppercase, _⟩
      exact absurd uppercase (List.any_eq_false.mp upper c inWord)
    | true =>
      obtain ⟨c, inWord, uppercase⟩ := List.any_eq_true.mp upper
      rw [accepts_of_uppercase upper, ne_comm, Ne, Bool.not_eq_false, toAutomaton_accepts_iff]
      refine ⟨fun derives => ⟨derives, c, inWord, uppercase, ?_⟩, And.left⟩
      exact not_isUpper_of_mem_terminals isRead (mem_terminals_of_derives derives c inWord)
  refine ⟨differ, fun lower w => ?_⟩
  by_contra other
  obtain ⟨derives, c, inWord, uppercase, _⟩ := (differ w).mp other
  rw [lower c (mem_terminals_of_derives derives c inWord)] at uppercase
  cases uppercase

/-- Lowercase beyond `a` to `z` is no exception. -/
theorem accepts_ne_toAutomaton_iff_of_lower :
    let G := ofLines [orSign 'é']
    read "S -> a | 'é'\n".toList = .ok G ∧ (∀ c ∈ G.terminals, Text.isUppercase c = false) ∧
      G.accepts ['é'] = true ∧ G.toAutomaton.accepts ['é'] = true := by
  intro G
  have isRead : read "S -> a | 'é'\n".toList = .ok G := read_orSign (by decide) (by decide)
  have lower : ∀ c ∈ G.terminals, Text.isUppercase c = false :=
    List.all_iff_forall_prop.mp (by decide)
  have derives : G.Derives ['S'] ['é'] := .terminal (by decide)
  have accepted := toAutomaton_accepts_iff.mpr derives
  exact ⟨isRead, lower, ((accepts_ne_toAutomaton_iff isRead).2 lower _).trans accepted, accepted⟩

/-- An uppercase letter that is quoted as a terminal is read by the automaton and refused
by the recogniser. -/
theorem accepts_of_accented :
    let G := ofLines [orSign 'É']
    read "S -> a | 'É'\n".toList = .ok G ∧ G.accepts ['É'] = false ∧
      G.toAutomaton.accepts ['É'] = true := by
  intro G
  have derives : G.Derives ['S'] ['É'] := .terminal (by decide)
  exact ⟨read_orSign (by decide) (by decide), accepts_of_uppercase (by decide),
    toAutomaton_accepts_iff.mpr derives⟩

end Grammar

end RightLinear
