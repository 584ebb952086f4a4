import RightLinear.Proofs.Grammar.Walk

/-!
# What the budget of a random derivation allows

Draws are a way to walk: each step of a walk can be brought about by a number of its own,
and a fair source brings about some walk. So what can be drawn is what can be walked, and
the two halves of the budget decide what that is. In the first half every alternative that
continues with a defined nonterminal can be applied, so a derivation that is over by then
can be drawn. From half of the budget on a derivation ends as soon as it can; where every
nonterminal can end it, it is over with the first step of the second half. Steps are natural
numbers, and twice the number of a step is compared with the budget: in such a derivation it
exceeds the budget by one at most.

* `Grammar.Guides`: numbers that lead a derivation along a walk.
* `Grammar.Walks.exists_guides`, `Grammar.exists_guides_of_fair`: where they come from.
* `Grammar.exists_numbers_of_derivesIn`: every word can be drawn.
* `Grammar.sampleWord_of_endings`: derivations that always end.
-/

namespace RightLinear

namespace Grammar

variable {G : Grammar} {start name current next : Name} {body : Body} {bodies : List Body}
  {budget left steps : Nat} {error : Option SamplingError} {numbers others : List UInt32}

/-! ## Guided walks -/

/-- Whatever is drawn afterwards, the numbers lead a derivation along a walk and none is
left of them. -/
def Guides (G : Grammar) (start : Name) (budget : Nat) (numbers : List UInt32) (left : Nat)
    (current : Name) (bodies : List Body) (error : Option SamplingError) : Prop :=
  ∀ applied more taken, G.walkFrom start budget left current applied ⟨numbers ++ more, taken⟩ =
    ⟨applied.reverse ++ bodies, error, ⟨more, taken + numbers.length⟩⟩

theorem guides_exhausted :
    G.Guides start budget [] 0 current [] (some (.noTerminatingDerivation start)) := by
  intro applied more taken
  rw [walkFrom, List.append_nil]
  rfl

theorem guides_stuck (none : G.liveBodies current = []) :
    G.Guides start budget [] (left + 1) current []
      (some (.undefinedNonterminal (G.missingName current))) := by
  intro applied more taken
  have nothing : G.candidates budget left current = [] := by
    refine List.eq_nil_iff_forall_not_mem.mpr fun body mem => ?_
    exact absurd (mem_candidates.mp mem).1 (none ▸ List.not_mem_nil)
  rw [walkFrom, chooseBody_liveBodies, nothing, List.append_nil]
  rfl

theorem guides_ended (choice : Draws.Settles numbers (G.candidates budget left current) body)
    (ends : body.continuation? = none) :
    G.Guides start budget numbers (left + 1) current [body] none := by
  intro applied more taken
  rw [walkFrom, chooseBody_liveBodies, choice]
  dsimp only
  rw [ends, List.reverse_cons]

theorem guides_onward (choice : Draws.Settles numbers (G.candidates budget left current) body)
    (onward : body.continuation? = some next)
    (rest : G.Guides start budget others left next bodies error) :
    G.Guides start budget (numbers ++ others) (left + 1) current (body :: bodies) error := by
  intro applied more taken
  rw [walkFrom, chooseBody_liveBodies, List.append_assoc, choice]
  dsimp only
  rw [onward]
  dsimp only
  rw [rest, List.reverse_cons, List.append_assoc, List.singleton_append, List.length_append,
    Nat.add_assoc]

theorem Guides.walks (guides : G.Guides start budget numbers left current bodies error) :
    G.Walks start budget left current bodies error := by
  obtain ⟨others, same, walks⟩ := exists_walks G start budget left current [] ⟨numbers ++ [], 0⟩
  rw [guides, List.reverse_nil, List.nil_append] at same walks
  cases same
  exact walks

theorem Guides.sampleWord (guides : G.Guides start budget numbers budget start bodies error)
    (more : List UInt32) : G.sampleWord start budget (.ofList (numbers ++ more)) =
      (error.elim (.ok (bodies.flatMap Body.text)) .error, ⟨more, numbers.length⟩) := by
  rw [Grammar.sampleWord, walk, Draws.ofList, guides, Nat.zero_add]
  rfl

/-- A choice is made among so few alternatives that one draw can tell them apart. -/
theorem length_candidates_le (few : ∀ name ∈ G.nonterminals, (G.bodies name).length < UInt32.size) :
    (G.candidates budget left name).length ≤ UInt32.size := by
  have live : (G.liveBodies name).length ≤ UInt32.size := by
    refine Nat.le_trans (List.length_filter_le _ _) ?_
    by_cases none : G.bodies name = []
    · rw [none]
      exact Nat.zero_le _
    · exact Nat.le_of_lt (few name (mem_nonterminals_of_bodies_ne_nil none))
  rw [candidates]
  split
  · exact Nat.le_trans (List.length_filter_le _ _) live
  · exact live

/-- Every walk can be brought about, with one number for each alternative that it applies. -/
theorem Walks.exists_guides (few : ∀ name ∈ G.nonterminals, (G.bodies name).length < UInt32.size)
    (walks : G.Walks start budget left current bodies error) :
    ∃ numbers, numbers.length = bodies.length ∧
      G.Guides start budget numbers left current bodies error := by
  induction walks with
  | exhausted => exact ⟨[], rfl, guides_exhausted⟩
  | stuck none => exact ⟨[], rfl, guides_stuck none⟩
  | ended candidate ends =>
    obtain ⟨number, choice⟩ := Draws.exists_settles candidate (length_candidates_le few)
    exact ⟨[number], rfl, guides_ended choice ends⟩
  | onward candidate onward rest ih =>
    obtain ⟨number, choice⟩ := Draws.exists_settles candidate (length_candidates_le few)
    obtain ⟨numbers, length, guides⟩ := ih
    exact ⟨[number] ++ numbers, congrArg (· + 1) length, guides_onward choice onward guides⟩

/-- Some first numbers of a fair source lead a derivation to its end. -/
theorem exists_guides_of_fair (G : Grammar) (start : Name) (budget left : Nat) (current : Name)
    {source : Stream' UInt32} (fair : Draws.Fair source) :
    ∃ k bodies error, G.Guides start budget (source.take k) left current bodies error := by
  induction left generalizing current source with
  | zero => exact ⟨0, [], _, guides_exhausted⟩
  | succ left ih =>
    by_cases none : G.liveBodies current = []
    · exact ⟨0, [], _, guides_stuck none⟩
    · have some : G.candidates budget left current ≠ [] := candidates_ne_nil none
      obtain ⟨k, body, choice⟩ := fair.exists_take_settles some
      cases onward : body.continuation? with
      | none => exact ⟨k, [body], .none, guides_ended choice onward⟩
      | some next =>
        obtain ⟨j, bodies, error, guides⟩ := ih next (fair.drop k)
        refine ⟨k + j, body :: bodies, error, ?_⟩
        rw [Stream'.take_add]
        exact guides_onward choice onward guides

/-! ## The first half -/

theorem DerivesIn.bodies_ne_nil {w : Word} (derives : G.DerivesIn steps name w) :
    G.bodies name ≠ [] := by
  cases derives with
  | empty mem => exact List.ne_nil_of_mem mem
  | terminal mem => exact List.ne_nil_of_mem mem
  | continued mem rest => exact List.ne_nil_of_mem mem

/-- A step of the first half of the budget is there to be taken, and does not yet prefer to end. -/
theorem exists_early (within : left ≤ budget) (enough : 2 * (budget - left + 1) ≤ budget + 1) :
    ∃ later, left = later + 1 ∧ ¬ Halfway budget later := by
  refine ⟨left - 1, by omega, ?_⟩
  unfold Halfway
  omega

/-- A derivation that is over before half of the budget is used is a walk: all its alternatives
are live, and none of its steps is one that prefers to end. -/
theorem DerivesIn.exists_walks {w : Word} (derives : G.DerivesIn steps name w) (start : Name)
    (within : left ≤ budget) (enough : 2 * (budget - left + steps) ≤ budget + 1) :
    ∃ bodies, bodies.length = steps ∧ bodies.flatMap Body.text = w ∧
      G.Walks start budget left name bodies none := by
  induction derives generalizing left with
  | empty mem =>
    obtain ⟨later, rfl, early⟩ := exists_early within enough
    have candidate := mem_candidates_of_early (live_of_ends mem rfl) early
    exact ⟨[.empty], rfl, rfl, .ended candidate rfl⟩
  | @terminal name text mem =>
    obtain ⟨later, rfl, early⟩ := exists_early within enough
    have candidate := mem_candidates_of_early (live_of_ends mem rfl) early
    exact ⟨[.terminal text], rfl, List.flatMap_singleton .., .ended candidate rfl⟩
  | @continued steps name next text rest mem derives ih =>
    obtain ⟨later, rfl, early⟩ := exists_early within (by omega)
    have live : Body.continued text next ∈ G.liveBodies name := by
      refine mem_liveBodies.mpr ⟨mem, fun other onward => ?_⟩
      cases onward
      exact derives.bodies_ne_nil
    have laterWithin : later ≤ budget := Nat.le_of_succ_le within
    obtain ⟨bodies, length, texts, walks⟩ := ih laterWithin (by omega)
    refine ⟨.continued text next :: bodies, congrArg (· + 1) length, ?_,
      .onward (mem_candidates_of_early live early) rfl walks⟩
    rw [List.flatMap_cons, texts]
    rfl

/-- Every word that is derived in some number of steps can be drawn, one number for each step,
if the budget is at least twice that number less one. -/
theorem exists_numbers_of_derivesIn {w : Word}
    (few : ∀ name ∈ G.nonterminals, (G.bodies name).length < UInt32.size)
    (derives : G.DerivesIn steps start w) (enough : 2 * steps - 1 ≤ budget) :
    ∃ numbers : List UInt32, numbers.length = steps ∧ ∀ more,
      G.sampleWord start budget (.ofList (numbers ++ more)) = (.ok w, ⟨more, steps⟩) := by
  -- the last step is number `steps - 1`, and twice that is less than the budget
  obtain ⟨bodies, rfl, rfl, walks⟩ := derives.exists_walks start (Nat.le_refl budget) (by omega)
  obtain ⟨numbers, length, guides⟩ := Walks.exists_guides few walks
  refine ⟨numbers, length, fun more => ?_⟩
  rw [guides.sampleWord, length]
  rfl

/-- The shortest budget for a derivation of three steps, past an undefined nonterminal. -/
theorem exists_numbers_of_derivesIn_of_dangling :
    let G := ofRules ['S'] [(['S'], .continued ['a'] ['X']), (['S'], .continued ['b'] ['S']),
      (['S'], .continued [] ['T']), (['T'], .empty), (['S'], .terminal ['c'])]
    G.DerivesIn 3 ['S'] ['b'] ∧ ∃ numbers : List UInt32, numbers.length = 3 ∧ ∀ more,
      G.sampleWord ['S'] 5 (.ofList (numbers ++ more)) = (.ok ['b'], ⟨more, 3⟩) := by
  intro G
  have ends : G.DerivesIn 1 ['T'] [] := .empty (by decide)
  have silently : G.DerivesIn 2 ['S'] ([] ++ []) := .continued (by decide) ends
  have derives : G.DerivesIn 3 ['S'] (['b'] ++ ([] ++ [])) := .continued (by decide) silently
  exact ⟨derives, exists_numbers_of_derivesIn (by decide) derives (by decide)⟩

/-! ## The second half -/

/-- Where every nonterminal can end a derivation, a walk that has not yet used more than half
of the budget ends with a word, at the latest with the first step of the second half. -/
theorem Walks.ends_of_endings
    (endings : ∀ name ∈ G.nonterminals, ∃ body ∈ G.bodies name, body.continuation? = none)
    (enough : 2 ≤ budget) (walks : G.Walks start budget left current bodies error)
    (defined : current ∈ G.nonterminals) (within : left ≤ budget)
    (early : budget - left ≤ (budget + 1) / 2) :
    error = none ∧ budget - left + bodies.length ≤ (budget + 1) / 2 + 1 := by
  induction walks with
  | exhausted => omega
  | @stuck left current none =>
    obtain ⟨body, mem, ends⟩ := endings current defined
    exact absurd (live_of_ends mem ends) (none ▸ List.not_mem_nil)
  | ended candidate ends => exact ⟨rfl, Nat.succ_le_succ early⟩
  | @onward left current next body bodies error candidate onward rest ih =>
    obtain ⟨live, settled⟩ := mem_candidates.mp candidate
    -- a step of the second half would have ended the walk
    have before : ¬ Halfway budget left := by
      intro late
      obtain ⟨other, mem, ends⟩ := endings current defined
      rw [settled late ⟨other, live_of_ends mem ends, ends⟩] at onward
      cases onward
    have nextDefined := mem_nonterminals_of_bodies_ne_nil ((mem_liveBodies.mp live).2 next onward)
    unfold Halfway at before
    obtain ⟨finished, short⟩ := ih nextDefined (by omega) (by omega)
    rw [List.length_cons]
    exact ⟨finished, by omega⟩

/-- Where every nonterminal with a production can end a derivation, each derivation from such a
nonterminal gives a word, after at most one step more than half of the budget, rounded up. Of an
endless source, which may have to be searched for a number that chooses, some first numbers are
read if it is fair. -/
theorem sampleWord_of_endings
    (endings : ∀ name ∈ G.nonterminals, ∃ body ∈ G.bodies name, body.continuation? = none)
    (defined : start ∈ G.nonterminals) (enough : 2 ≤ budget) :
    (∀ draws, (∃ w, (G.sampleWord start budget draws).1 = .ok w) ∧
        (G.walk start budget draws).applied.length ≤ (budget + 1) / 2 + 1) ∧
      ∀ source, Draws.Fair source → ∃ k w, ∀ more,
        G.sampleWord start budget (.ofList (source.take k ++ more)) = (.ok w, ⟨more, k⟩) := by
  have whole : budget - budget ≤ (budget + 1) / 2 := by omega
  refine ⟨fun draws => ?_, fun source fair => ?_⟩
  · obtain ⟨finished, short⟩ := (walks_walk G start budget draws).ends_of_endings endings enough
      defined (Nat.le_refl budget) whole
    refine ⟨⟨_, sampleWord_eq_ok_iff.mpr ⟨finished, rfl⟩⟩, ?_⟩
    rwa [Nat.sub_self, Nat.zero_add] at short
  · obtain ⟨k, bodies, error, guides⟩ := exists_guides_of_fair G start budget budget start fair
    obtain ⟨rfl, -⟩ := guides.walks.ends_of_endings endings enough defined
      (Nat.le_refl budget) whole
    refine ⟨k, bodies.flatMap Body.text, fun more => ?_⟩
    rw [guides.sampleWord, Stream'.length_take]
    rfl

/-- Zeros choose the alternative that goes on as long as they may: the bound is reached. Zeros
for ever do the same. -/
theorem sampleWord_of_endings_of_zeros :
    let G := ofRules ['S'] [(['S'], .continued ['a'] ['S']), (['S'], .continued ['b'] ['X']),
      (['S'], .terminal ['c'])]
    let zeros := ([] : List UInt32) ++ₛ Stream'.const 0
    (∀ name ∈ G.nonterminals, ∃ body ∈ G.bodies name, body.continuation? = none) ∧
      ['S'] ∈ G.nonterminals ∧
      (G.sampleWord ['S'] 3 (.ofList [])).1 = .ok ['a', 'a', 'c'] ∧
      (G.walk ['S'] 3 (.ofList [])).applied.length ≤ 3 ∧
      Draws.Fair zeros ∧ ∃ k w, ∀ more,
        G.sampleWord ['S'] 3 (.ofList (zeros.take k ++ more)) = (.ok w, ⟨more, k⟩) := by
  intro G zeros
  have endings : ∀ name ∈ G.nonterminals, ∃ body ∈ G.bodies name, body.continuation? = none := by
    decide
  have defined : ['S'] ∈ G.nonterminals := by decide
  obtain ⟨finite, endless⟩ := sampleWord_of_endings endings defined (by decide : 2 ≤ 3)
  have fair : Draws.Fair zeros := Draws.fair_zeros []
  exact ⟨endings, defined, by decide, (finite _).2, fair, endless zeros fair⟩

end Grammar

end RightLinear
