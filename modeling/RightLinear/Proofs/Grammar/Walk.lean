import RightLinear.Proofs.Grammar.Draws
import RightLinear.Proofs.Grammar.Membership
import RightLinear.Proofs.Grammar.Recursion
import RightLinear.Proofs.Grammar.Rules

/-!
# What random derivations come to

One step of a random derivation either finds nothing to choose from, or applies one of its
candidates and is then at its end or at another nonterminal. `Grammar.Walks` says this and
nothing about random numbers: every derivation is one of these walks, whatever it draws,
so what a word or an error tells is read off the walk.

* `Grammar.candidates`, `Grammar.mem_candidates`: what a step chooses from.
* `Grammar.Walks`, `Grammar.exists_walks`: what a derivation does.
* `Grammar.derives_of_sampleWord`: the words.
* `Grammar.sampleWord_eq_error`: the errors.
-/

namespace RightLinear

namespace Grammar

variable {G : Grammar} {start name current next : Name} {body : Body} {bodies : List Body}
  {budget left : Nat} {error : Option SamplingError} {draws : Draws}

/-! ## Candidates -/

theorem mem_liveBodies :
    body ∈ G.liveBodies current ↔
      body ∈ G.bodies current ∧ ∀ next, body.continuation? = some next → G.bodies next ≠ [] := by
  rw [liveBodies, List.mem_filter]
  refine and_congr_right fun _ => ?_
  cases body.continuation? with
  | none => simp
  | some next => simp [bodies_eq_nil_iff]

theorem live_of_ends (mem : body ∈ G.bodies name) (ends : body.continuation? = none) :
    body ∈ G.liveBodies name := by
  refine mem_liveBodies.mpr ⟨mem, fun next onward => ?_⟩
  rw [ends] at onward
  cases onward

/-- Half of the budget is used when, after the next step, `left` steps are to go. -/
abbrev Halfway (budget left : Nat) : Prop := budget ≤ (budget - (left + 1)) * 2

/-- The alternatives that the next step chooses from, with `left` steps to go after it:
from half of the budget on those that end the derivation, if there are any. -/
def candidates (G : Grammar) (budget left : Nat) (name : Name) : List Body :=
  let ending := (G.liveBodies name).filter fun body => body.continuation?.isNone
  if decide (Halfway budget left) && !ending.isEmpty then ending else G.liveBodies name

theorem chooseBody_liveBodies :
    chooseBody (G.liveBodies name) (Halfway budget left) draws =
      draws.choose (G.candidates budget left name) := by
  rw [chooseBody, candidates]
  split
  · rfl
  · rfl

/-- From half of the budget on only alternatives that end are candidates, if the name has any. -/
theorem mem_candidates : body ∈ G.candidates budget left name ↔
    body ∈ G.liveBodies name ∧ (Halfway budget left →
      (∃ other ∈ G.liveBodies name, other.continuation? = none) → body.continuation? = none) := by
  rw [candidates]
  split
  · next late =>
    rw [Bool.and_eq_true, decide_eq_true_iff, Bool.not_eq_true', List.isEmpty_eq_false_iff] at late
    obtain ⟨other, mem⟩ := List.exists_mem_of_ne_nil _ late.2
    rw [List.mem_filter, Option.isNone_iff_eq_none] at mem
    rw [List.mem_filter, Option.isNone_iff_eq_none]
    exact and_congr_right fun _ => ⟨fun ends _ _ => ends, fun ends => ends late.1 ⟨other, mem⟩⟩
  · next early =>
    refine ⟨fun live => ⟨live, fun late => ?_⟩, fun live => live.1⟩
    rintro ⟨other, mem, ends⟩
    refine absurd ?_ early
    rw [Bool.and_eq_true, decide_eq_true_iff, Bool.not_eq_true', List.isEmpty_eq_false_iff]
    exact ⟨late, List.ne_nil_of_mem
      (List.mem_filter.mpr ⟨mem, Option.isNone_iff_eq_none.mpr ends⟩)⟩

theorem mem_candidates_of_early (live : body ∈ G.liveBodies name) (early : ¬ Halfway budget left) :
    body ∈ G.candidates budget left name :=
  mem_candidates.mpr ⟨live, fun late => absurd late early⟩

theorem candidates_ne_nil (live : G.liveBodies name ≠ []) :
    G.candidates budget left name ≠ [] := by
  rw [candidates]
  split
  · next late =>
    rw [Bool.and_eq_true, Bool.not_eq_true', List.isEmpty_eq_false_iff] at late
    exact late.2
  · exact live

/-! ## Walks -/

/-- A walk from a nonterminal with `left` of `budget` steps to go: the alternatives that it
applies, and why it ends without a word if it does. -/
inductive Walks (G : Grammar) (start : Name) (budget : Nat) :
    Nat → Name → List Body → Option SamplingError → Prop
  | exhausted {current : Name} :
    Walks G start budget 0 current [] (some (.noTerminatingDerivation start))
  | stuck {left : Nat} {current : Name} : G.liveBodies current = [] →
    Walks G start budget (left + 1) current []
      (some (.undefinedNonterminal (G.missingName current)))
  | ended {left : Nat} {current : Name} {body : Body} :
    body ∈ G.candidates budget left current → body.continuation? = none →
    Walks G start budget (left + 1) current [body] none
  | onward {left : Nat} {current next : Name} {body : Body} {bodies : List Body}
      {error : Option SamplingError} :
    body ∈ G.candidates budget left current → body.continuation? = some next →
    Walks G start budget left next bodies error →
    Walks G start budget (left + 1) current (body :: bodies) error

/-- Whatever is drawn, a derivation is a walk. -/
theorem exists_walks (G : Grammar) (start : Name) (budget left : Nat) (current : Name)
    (applied : List Body) (draws : Draws) :
    ∃ bodies, (G.walkFrom start budget left current applied draws).applied =
        applied.reverse ++ bodies ∧
      G.Walks start budget left current bodies
        (G.walkFrom start budget left current applied draws).error := by
  fun_induction walkFrom G start budget left current applied draws with
  | case1 current applied draws => exact ⟨[], (List.append_nil _).symm, .exhausted⟩
  | case2 left current applied draws step rest none =>
    -- nothing is chosen, so there are no candidates, and so nothing is live
    rw [chooseBody_liveBodies] at none
    refine ⟨[], (List.append_nil _).symm, .stuck ?_⟩
    by_contra some
    exact candidates_ne_nil some (Draws.eq_nil_of_choose (congrArg Prod.fst none))
  | case3 left current applied draws step body rest chosen ends =>
    rw [chooseBody_liveBodies] at chosen
    exact ⟨[body], List.reverse_cons,
      .ended (Draws.mem_of_choose (congrArg Prod.fst chosen)) ends⟩
  | case4 left current applied draws step body rest chosen next onward ih =>
    rw [chooseBody_liveBodies] at chosen
    obtain ⟨bodies, same, walks⟩ := ih
    have mem := Draws.mem_of_choose (congrArg Prod.fst chosen)
    refine ⟨body :: bodies, ?_, .onward mem onward walks⟩
    rw [same, List.reverse_cons, List.append_assoc, List.singleton_append]

/-- The derivation of a sample word is a walk from its nonterminal with the whole budget. -/
theorem walks_walk (G : Grammar) (start : Name) (budget : Nat) (draws : Draws) :
    G.Walks start budget budget start (G.walk start budget draws).applied
      (G.walk start budget draws).error := by
  obtain ⟨bodies, same, walks⟩ := exists_walks G start budget budget start [] draws
  rw [List.reverse_nil, List.nil_append] at same
  rw [walk, same]
  exact walks

/-! ## Words -/

/-- A walk that ends derives the word of its alternatives, each of them one step. -/
theorem Walks.derivesIn (walks : G.Walks start budget left current bodies none) :
    bodies.length ≤ left ∧
      G.DerivesIn bodies.length current (bodies.flatMap Body.text) := by
  generalize finished : (none : Option SamplingError) = error at walks
  induction walks with
  | exhausted => cases finished
  | stuck none => cases finished
  | @ended left current body candidate ends =>
    have mem := (mem_liveBodies.mp (mem_candidates.mp candidate).1).1
    refine ⟨Nat.succ_le_succ left.zero_le, ?_⟩
    cases body with
    | empty => exact .empty mem
    | terminal text =>
      rw [List.flatMap_singleton]
      exact .terminal mem
    | continued text next => cases ends
  | @onward left current next body bodies error candidate onward rest ih =>
    obtain ⟨short, derives⟩ := ih finished
    have mem := (mem_liveBodies.mp (mem_candidates.mp candidate).1).1
    refine ⟨Nat.succ_le_succ short, ?_⟩
    cases body with
    | empty => cases onward
    | terminal text => cases onward
    | continued text other =>
      cases onward
      exact .continued mem derives

theorem sampleWord_eq_ok_iff {w : Word} : (G.sampleWord start budget draws).1 = .ok w ↔
    (G.walk start budget draws).error = none ∧ (G.walk start budget draws).word = w := by
  rw [sampleWord]
  cases (G.walk start budget draws).error with
  | none => exact ⟨fun same => ⟨rfl, Except.ok.inj same⟩, fun same => congrArg _ same.2⟩
  | some error => exact ⟨nofun, nofun⟩

theorem sampleWord_eq_error_iff {error : SamplingError} :
    (G.sampleWord start budget draws).1 = .error error ↔
      (G.walk start budget draws).error = some error := by
  rw [sampleWord]
  cases (G.walk start budget draws).error with
  | none => exact ⟨nofun, nofun⟩
  | some other =>
    exact ⟨fun same => congrArg _ (Except.error.inj same),
      fun same => congrArg _ (Option.some.inj same)⟩

/-- A sample word is derived in no more steps than allowed. So a sample word of the start
symbol is accepted unless it has an uppercase character. -/
theorem derives_of_sampleWord {w : Word} (sampled : (G.sampleWord start budget draws).1 = .ok w) :
    (∃ steps ≤ budget, G.DerivesIn steps start w) ∧
      (start = G.start → w.any Text.isUppercase = false → G.accepts w = true) := by
  obtain ⟨finished, rfl⟩ := sampleWord_eq_ok_iff.mp sampled
  have walks := walks_walk G start budget draws
  rw [finished] at walks
  obtain ⟨short, derives⟩ := walks.derivesIn
  refine ⟨⟨_, short, derives⟩, ?_⟩
  rintro rfl lower
  exact (accepts_of_lower lower).mpr (derives_iff_exists_derivesIn.mpr ⟨_, derives⟩)

/-- The second of three numbers is passed over, and the third ends the derivation. -/
theorem derives_of_sampleWord_of_passed :
    let G := ofRules ['S'] [(['S'], .continued ['a'] ['S']), (['S'], .continued ['b'] ['X']),
      (['S'], .empty), (['S'], .terminal ['c'])]
    let draws := Draws.ofList [0, 0xFFFFFFFF, 0xAAAAAAAB]
    (G.sampleWord ['S'] 5 draws).1 = .ok ['a', 'c'] ∧
      (∃ steps ≤ 5, G.DerivesIn steps ['S'] ['a', 'c']) ∧ G.accepts ['a', 'c'] = true := by
  intro G draws
  have sampled : (G.sampleWord ['S'] 5 draws).1 = .ok ['a', 'c'] := by decide
  obtain ⟨derives, accepted⟩ := derives_of_sampleWord sampled
  exact ⟨sampled, derives, accepted rfl (by decide)⟩

/-! ## Errors -/

/-- Where nothing can be chosen, the blamed nonterminal has no alternatives: the current one
has none itself, or every nonterminal that it continues with has none. -/
theorem undefined_missingName (none : G.liveBodies current = []) :
    G.bodies (G.missingName current) = [] ∧ G.Leads current (G.missingName current) := by
  have blocked : ∀ body ∈ G.bodies current, ∃ next, body.continuation? = some next ∧
      G.bodies next = [] := by
    intro body mem
    by_contra live
    push Not at live
    exact absurd (mem_liveBodies.mpr ⟨mem, live⟩) (none ▸ List.not_mem_nil)
  rw [missingName]
  cases found : (G.bodies current).findSome? Body.continuation? with
  | none =>
    refine ⟨List.eq_nil_iff_forall_not_mem.mpr fun body mem => ?_, .refl⟩
    obtain ⟨next, same, _⟩ := blocked body mem
    rw [List.findSome?_eq_none_iff.mp found body mem] at same
    cases same
  | some name =>
    obtain ⟨body, mem, same⟩ := List.exists_of_findSome?_eq_some found
    obtain ⟨next, same', undefined⟩ := blocked body mem
    rw [same] at same'
    cases same'
    exact ⟨undefined, .single (continues_iff.mpr ⟨body, mem, same⟩)⟩

/-- A walk that stops for want of alternatives blames a nonterminal that has none and that its
own nonterminal leads to. -/
theorem Walks.of_undefinedNonterminal
    (walks : G.Walks start budget left current bodies (some (.undefinedNonterminal name))) :
    G.bodies name = [] ∧ G.Leads current name := by
  generalize failed : some (SamplingError.undefinedNonterminal name) = error at walks
  induction walks with
  | exhausted => cases failed
  | stuck none =>
    cases failed
    exact undefined_missingName none
  | ended candidate ends => cases failed
  | onward candidate onward rest ih =>
    obtain ⟨undefined, leads⟩ := ih failed
    have mem := (mem_liveBodies.mp (mem_candidates.mp candidate).1).1
    exact ⟨undefined, .head (continues_iff.mpr ⟨_, mem, onward⟩) leads⟩

theorem undefined_of_sampleWord
    (failed : (G.sampleWord start budget draws).1 = .error (.undefinedNonterminal name)) :
    G.bodies name = [] ∧ G.Leads start name := by
  have walks := walks_walk G start budget draws
  rw [sampleWord_eq_error_iff.mp failed] at walks
  exact walks.of_undefinedNonterminal

/-- Alternatives that are applied one after another lead from one nonterminal to another:
each belongs to the nonterminal that the one before continues with. -/
inductive LeadsBy (G : Grammar) : Name → List Body → Name → Prop
  | refl {name : Name} : LeadsBy G name [] name
  | head {name next last : Name} {body : Body} {bodies : List Body} :
    body ∈ G.bodies name → body.continuation? = some next → LeadsBy G next bodies last →
    LeadsBy G name (body :: bodies) last

/-- A walk that runs out of steps has applied an alternative in each, and each continues
with a nonterminal that has alternatives. -/
theorem Walks.of_noTerminatingDerivation
    (walks : G.Walks start budget left current bodies (some (.noTerminatingDerivation name))) :
    name = start ∧ bodies.length = left ∧
      (∀ body ∈ bodies, ∃ next ∈ G.nonterminals, body.continuation? = some next) ∧
      ∃ last, G.LeadsBy current bodies last := by
  generalize failed : some (SamplingError.noTerminatingDerivation name) = error at walks
  induction walks with
  | @exhausted current =>
    cases failed
    exact ⟨rfl, rfl, fun body mem => absurd mem List.not_mem_nil, current, .refl⟩
  | stuck none => cases failed
  | ended candidate ends => cases failed
  | onward candidate onward rest ih =>
    obtain ⟨same, length, onwards, last, leads⟩ := ih failed
    obtain ⟨mem, live⟩ := mem_liveBodies.mp (mem_candidates.mp candidate).1
    have defined := mem_nonterminals_of_bodies_ne_nil (live _ onward)
    exact ⟨same, congrArg (· + 1) length,
      List.forall_mem_cons.mpr ⟨⟨_, defined, onward⟩, onwards⟩, last, .head mem onward leads⟩

/-- A nonterminal that is blamed has no production, and it is the one that the derivation
began with or some alternative on the way continues with it. A derivation that is given up
has taken every step that it was allowed. -/
theorem sampleWord_eq_error (G : Grammar) (start : Name) (budget : Nat) (draws : Draws) :
    (∀ name, (G.sampleWord start budget draws).1 = .error (.undefinedNonterminal name) →
      name ∉ G.nonterminals ∧ (name = start ∨
        ∃ left, G.Leads start left ∧ ∃ body ∈ G.bodies left, body.continuation? = some name)) ∧
    ∀ name, (G.sampleWord start budget draws).1 = .error (.noTerminatingDerivation name) →
      name = start ∧ (G.walk start budget draws).applied.length = budget ∧
        (∀ body ∈ (G.walk start budget draws).applied,
          ∃ next ∈ G.nonterminals, body.continuation? = some next) ∧
        ∃ last, G.LeadsBy start (G.walk start budget draws).applied last := by
  refine ⟨fun name failed => ?_, fun name failed => ?_⟩
  · obtain ⟨undefined, leads⟩ := undefined_of_sampleWord failed
    refine ⟨fun listed => bodies_ne_nil_of_mem_nonterminals listed undefined, ?_⟩
    rcases Relation.ReflTransGen.cases_tail leads with same | ⟨left, before, continues⟩
    · exact Or.inl same
    · exact Or.inr ⟨left, before, continues_iff.mp continues⟩
  · have walks := walks_walk G start budget draws
    rw [sampleWord_eq_error_iff.mp failed] at walks
    exact walks.of_noTerminatingDerivation

/-- Zeros choose the first alternative for ever. Another number leads to a nonterminal whose
only alternative continues with an undefined one. -/
theorem sampleWord_eq_error_of_dangling :
    let G := ofRules ['S'] [(['S'], .continued ['a'] ['S']), (['S'], .continued ['b'] ['T']),
      (['T'], .continued ['c'] ['X'])]
    (G.sampleWord ['S'] 4 (.ofList [])).1 = .error (.noTerminatingDerivation ['S']) ∧
      (G.walk ['S'] 4 (.ofList [])).applied.length = 4 ∧
      (G.sampleWord ['S'] 4 (.ofList [0x80000000])).1 = .error (.undefinedNonterminal ['X']) ∧
      ['X'] ∉ G.nonterminals ∧ (['X'] = ['S'] ∨ ∃ left, G.Leads ['S'] left ∧
        ∃ body ∈ G.bodies left, body.continuation? = some ['X']) := by
  intro G
  have endless : (G.sampleWord ['S'] 4 (.ofList [])).1 =
      .error (.noTerminatingDerivation ['S']) := by decide
  have stuck : (G.sampleWord ['S'] 4 (.ofList [0x80000000])).1 =
      .error (.undefinedNonterminal ['X']) := by decide
  exact ⟨endless, ((sampleWord_eq_error G ['S'] 4 _).2 _ endless).2.1, stuck,
    (sampleWord_eq_error G ['S'] 4 _).1 _ stuck⟩

end Grammar

end RightLinear
