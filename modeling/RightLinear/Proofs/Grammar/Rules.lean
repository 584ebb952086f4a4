import Mathlib.Data.List.Induction
import RightLinear.Grammar.Basic

/-!
# Grammars made of alternatives

A grammar is made by adding alternatives one after another, and a nonterminal
that comes again joins its production. Which alternatives a nonterminal ends up
with depends only on its own entries in the list, and a list that already stands
in the order of a grammar's productions gives that grammar back.

* `Grammar.mem_rules`: the alternatives in order and the alternatives by name.
* `Grammar.bodies_ofRules`: the alternatives of a nonterminal.
* `Grammar.rules_ofRules_perm`: nothing is lost and nothing is added.
* `Grammar.ofRules_rules`: the alternatives of a grammar make it again.
-/

namespace RightLinear

namespace Grammar

variable {start left name : Name} {body : Body} {rules : List (Name × Body)}

theorem eq_of_productions_eq {G H : Grammar} (sameStart : G.start = H.start)
    (same : G.productions = H.productions) : G = H := by
  cases G
  cases H
  simp only at sameStart same
  subst sameStart same
  rfl

/-! ## All alternatives -/

section

variable {G : Grammar}

/-- Among productions with different names each is found by its name. -/
theorem find?_left_eq_some {l : List Production} (nodup : (l.map Production.left).Nodup)
    {p : Production} (mem : p ∈ l) : l.find? (·.left = p.left) = some p := by
  induction l with
  | nil => cases mem
  | cons q l ih =>
    obtain ⟨fresh, nodup⟩ := List.nodup_cons.mp nodup
    rcases List.mem_cons.mp mem with rfl | later
    · exact List.find?_cons_of_pos (by simp)
    · have other : q.left ≠ p.left := fun same =>
        fresh (same ▸ List.mem_map_of_mem later)
      rw [List.find?_cons_of_neg (by simpa using other)]
      exact ih nodup later

/-- The rules of a grammar are its alternatives, each with its name. -/
theorem mem_rules {left : Name} {body : Body} :
    (left, body) ∈ G.rules ↔ body ∈ G.bodies left := by
  simp only [rules, List.mem_flatMap, List.mem_map, Prod.mk.injEq]
  refine ⟨fun h => ?_, fun inBodies => ?_⟩
  · obtain ⟨p, mem, _, inBodies, rfl, rfl⟩ := h
    rw [bodies, production?, find?_left_eq_some G.nodup mem]
    exact inBodies
  · unfold bodies production? at inBodies
    cases found : G.productions.find? (·.left = left) with
    | none =>
      rw [found] at inBodies
      exact absurd inBodies List.not_mem_nil
    | some p =>
      rw [found] at inBodies
      have named : p.left = left := by simpa using List.find?_some found
      exact ⟨p, List.mem_of_find?_eq_some found, body, inBodies, named, rfl⟩

theorem mem_terminals {c : Char} : c ∈ G.terminals ↔ ∃ rule ∈ G.rules, c ∈ rule.2.text := by
  rw [terminals, List.mem_eraseDups, List.mem_flatMap]

theorem mem_rules_of_mem_productions {p : Production} (mem : p ∈ G.productions)
    (inBodies : body ∈ p.bodies) : (p.left, body) ∈ G.rules :=
  List.mem_flatMap.mpr ⟨p, mem, List.mem_map_of_mem inBodies⟩

theorem bodies_ne_nil_of_mem_nonterminals (listed : name ∈ G.nonterminals) :
    G.bodies name ≠ [] := by
  obtain ⟨p, mem, rfl⟩ := List.mem_map.mp listed
  obtain ⟨body, inBodies⟩ := List.exists_mem_of_ne_nil _ (G.bodies_ne_nil p mem)
  exact List.ne_nil_of_mem (mem_rules.mp (mem_rules_of_mem_productions mem inBodies))

end

/-! ## The view by nonterminal -/

@[simp] theorem start_foldl_addBody (G : Grammar) :
    (rules.foldl (fun G rule => G.addBody rule.1 rule.2) G).start = G.start := by
  induction rules generalizing G with
  | nil => rfl
  | cons rule rules ih => rw [List.foldl_cons, ih, start_addBody]

@[simp] theorem start_ofRules : (ofRules start rules).start = start := start_foldl_addBody _

/-- The alternatives of a name are those that were added under it, in order. -/
theorem bodies_foldl_addBody (named : ∀ rule ∈ rules, rule.1 ≠ []) (G : Grammar) :
    (rules.foldl (fun G rule => G.addBody rule.1 rule.2) G).bodies name =
      G.bodies name ++ (rules.filter (·.1 = name)).map Prod.snd := by
  induction rules generalizing G with
  | nil => exact (List.append_nil _).symm
  | cons rule rules ih =>
    have namedRest : ∀ r ∈ rules, r.1 ≠ [] := fun r mem => named r (List.mem_cons_of_mem _ mem)
    rw [List.foldl_cons, ih namedRest, bodies_addBody G (named rule List.mem_cons_self),
      List.append_assoc]
    by_cases same : rule.1 = name
    · rw [if_pos same.symm, List.filter_cons_of_pos (by simpa using same)]
      rfl
    · rw [if_neg fun eq => same eq.symm, List.filter_cons_of_neg (by simpa using same)]
      rfl

/-- The alternatives of a nonterminal are its own entries of the list, in
order. -/
theorem bodies_ofRules (named : ∀ rule ∈ rules, rule.1 ≠ []) :
    (ofRules start rules).bodies name = (rules.filter (·.1 = name)).map Prod.snd :=
  bodies_foldl_addBody named (new start)

theorem mem_bodies_ofRules (named : ∀ rule ∈ rules, rule.1 ≠ []) :
    body ∈ (ofRules start rules).bodies name ↔ (name, body) ∈ rules := by
  rw [bodies_ofRules named, List.mem_map]
  refine ⟨fun h => ?_, fun mem => ?_⟩
  · obtain ⟨⟨left, _⟩, mem, rfl⟩ := h
    obtain ⟨inRules, same⟩ := List.mem_filter.mp mem
    obtain rfl : left = name := by simpa using same
    exact inRules
  · exact ⟨(name, body), List.mem_filter.mpr ⟨mem, by simp⟩, rfl⟩

theorem nonterminals_addBody {G : Grammar} (named : left ≠ []) :
    (G.addBody left body).nonterminals =
      if left ∈ G.nonterminals then G.nonterminals else G.nonterminals ++ [left] := by
  rw [nonterminals, addBody, dif_neg named]
  exact map_left_insertBody G.productions

/-- Added alternatives bring their nonterminals in the order in which they would stand
alone, those left out that there are already. -/
theorem nonterminals_foldl_addBody (named : ∀ rule ∈ rules, rule.1 ≠ []) (G : Grammar) :
    (rules.foldl (fun G rule => G.addBody rule.1 rule.2) G).nonterminals =
      G.nonterminals ++ (ofRules start rules).nonterminals.filter (· ∉ G.nonterminals) := by
  -- the last alternative decides, since it comes after all nonterminals on both sides
  induction rules using List.reverseRecOn with
  | nil => exact (List.append_nil _).symm
  | append_singleton rules rule ih =>
    have namedLast : rule.1 ≠ [] := named rule (List.mem_append_right _ List.mem_cons_self)
    have onward := ih fun r mem => named r (List.mem_append_left _ mem)
    have appended : ∀ H : Grammar, ((rules ++ [rule]).foldl
        (fun G rule => G.addBody rule.1 rule.2) H) =
          (rules.foldl (fun G rule => G.addBody rule.1 rule.2) H).addBody rule.1 rule.2 :=
      fun H => List.foldl_append
    rw [ofRules, appended, appended, ← ofRules, nonterminals_addBody namedLast,
      nonterminals_addBody namedLast, onward]
    by_cases old : rule.1 ∈ G.nonterminals
    · rw [if_pos (List.mem_append_left _ old)]
      split
      · rfl
      · rw [List.filter_append, List.filter_cons_of_neg (by simpa using old), List.filter_nil,
          List.append_nil]
    · by_cases new : rule.1 ∈ (ofRules start rules).nonterminals
      · rw [if_pos new, if_pos]
        exact List.mem_append_right _ (List.mem_filter.mpr ⟨new, by simpa using old⟩)
      · rw [if_neg new, if_neg, List.filter_append, List.filter_cons_of_pos (by simpa using old),
          List.filter_nil, List.append_assoc]
        rw [List.mem_append, List.mem_filter, not_or, not_and_or]
        exact ⟨old, Or.inl new⟩

/-! ## The list of productions -/

theorem productions_foldl_addBody (named : ∀ rule ∈ rules, rule.1 ≠ []) (G : Grammar) :
    (rules.foldl (fun G rule => G.addBody rule.1 rule.2) G).productions =
      rules.foldl (fun l rule => insertBody rule.1 rule.2 l) G.productions := by
  induction rules generalizing G with
  | nil => rfl
  | cons rule rules ih =>
    have namedRest : ∀ r ∈ rules, r.1 ≠ [] := fun r mem => named r (List.mem_cons_of_mem _ mem)
    rw [List.foldl_cons, List.foldl_cons, ih namedRest]
    rw [addBody, dif_neg (named rule List.mem_cons_self)]

/-- A further alternative is one further rule, wherever it comes to stand. -/
theorem perm_insertBody (l : List Production) :
    ((insertBody left body l).flatMap fun p => p.bodies.map (p.left, ·)).Perm
      ((l.flatMap fun p => p.bodies.map (p.left, ·)) ++ [(left, body)]) := by
  induction l with
  | nil => exact .refl _
  | cons p l ih =>
    rw [insertBody]
    split
    · next same =>
      subst same
      simp only [List.flatMap_cons, List.map_append, List.append_assoc]
      exact List.perm_append_comm.append_left _
    · rw [List.flatMap_cons, List.flatMap_cons, List.append_assoc]
      exact ih.append_left _

/-- Adding alternatives only brings those of one nonterminal together. -/
theorem rules_ofRules_perm (named : ∀ rule ∈ rules, rule.1 ≠ []) :
    (ofRules start rules).rules.Perm rules := by
  have gathered : ∀ l : List Production,
      ((rules.foldl (fun l rule => insertBody rule.1 rule.2 l) l).flatMap
        fun p => p.bodies.map (p.left, ·)).Perm
      ((l.flatMap fun p => p.bodies.map (p.left, ·)) ++ rules) := by
    clear named
    induction rules with
    | nil => exact fun l => (List.append_nil _) ▸ .refl _
    | cons rule rules ih =>
      intro l
      have one := (@perm_insertBody rule.1 rule.2 l).append_right rules
      rw [List.append_assoc] at one
      exact (ih _).trans one
  rw [Grammar.rules, ofRules, productions_foldl_addBody named]
  exact gathered []

/-! ## The alternatives of a grammar, added again -/

theorem insertBody_of_not_mem {l : List Production} (fresh : left ∉ l.map Production.left) :
    insertBody left body l = l ++ [⟨left, [body]⟩] := by
  induction l with
  | nil => rfl
  | cons p l ih =>
    rw [List.map_cons, List.mem_cons, not_or] at fresh
    rw [insertBody, if_neg fun same => fresh.1 same.symm, ih fresh.2, List.cons_append]

theorem insertBody_append_last {l : List Production} {bodies : List Body}
    (fresh : left ∉ l.map Production.left) :
    insertBody left body (l ++ [⟨left, bodies⟩]) = l ++ [⟨left, bodies ++ [body]⟩] := by
  induction l with
  | nil => rw [List.nil_append, insertBody, if_pos rfl, List.nil_append]
  | cons p l ih =>
    rw [List.map_cons, List.mem_cons, not_or] at fresh
    rw [List.cons_append, insertBody, if_neg fun same => fresh.1 same.symm, ih fresh.2,
      List.cons_append]

theorem foldl_insertBody_last {l : List Production} {bodies more : List Body}
    (fresh : left ∉ l.map Production.left) :
    (more.map (left, ·)).foldl (fun l rule => insertBody rule.1 rule.2 l)
      (l ++ [⟨left, bodies⟩]) = l ++ [⟨left, bodies ++ more⟩] := by
  induction more generalizing bodies with
  | nil => rw [List.append_nil]; rfl
  | cons body more ih =>
    rw [List.map_cons, List.foldl_cons, insertBody_append_last fresh, ih, List.append_assoc,
      List.singleton_append]

theorem foldl_insertBody_production {l : List Production} {p : Production}
    (fresh : p.left ∉ l.map Production.left) (nonempty : p.bodies ≠ []) :
    (p.bodies.map (p.left, ·)).foldl (fun l rule => insertBody rule.1 rule.2 l) l = l ++ [p] := by
  obtain ⟨left, bodies⟩ := p
  cases bodies with
  | nil => exact absurd rfl nonempty
  | cons body more =>
    rw [List.map_cons, List.foldl_cons, insertBody_of_not_mem fresh, foldl_insertBody_last fresh,
      List.singleton_append]

/-- Rules that are added production by production give the productions again. -/
theorem foldl_insertBody_productions {later : List Production}
    (nonempty : ∀ p ∈ later, p.bodies ≠ []) {l : List Production}
    (nodup : ((l ++ later).map Production.left).Nodup) :
    (later.flatMap fun p => p.bodies.map (p.left, ·)).foldl
      (fun l rule => insertBody rule.1 rule.2 l) l = l ++ later := by
  induction later generalizing l with
  | nil => exact (List.append_nil l).symm
  | cons p later ih =>
    have fresh : p.left ∉ l.map Production.left := by
      rw [List.map_append, List.map_cons] at nodup
      exact fun mem => (List.nodup_append.mp nodup).2.2 _ mem _ List.mem_cons_self rfl
    rw [List.flatMap_cons, List.foldl_append,
      foldl_insertBody_production fresh (nonempty p List.mem_cons_self),
      ih (fun q mem => nonempty q (List.mem_cons_of_mem _ mem)), List.append_assoc]
    · rfl
    · rwa [List.append_assoc, List.singleton_append]

theorem left_ne_nil_of_mem_rules {G : Grammar} {rule : Name × Body} (mem : rule ∈ G.rules) :
    rule.1 ≠ [] := by
  obtain ⟨p, memProductions, inBodies⟩ := List.mem_flatMap.mp mem
  obtain ⟨body, _, rfl⟩ := List.mem_map.mp inBodies
  exact G.left_ne_nil p memProductions

/-- The alternatives of a grammar, added in order under any start symbol, make its
productions again. -/
theorem productions_ofRules_rules (G : Grammar) :
    (ofRules start G.rules).productions = G.productions := by
  rw [ofRules, productions_foldl_addBody fun rule => left_ne_nil_of_mem_rules]
  exact foldl_insertBody_productions G.bodies_ne_nil (l := []) G.nodup

theorem ofRules_rules (G : Grammar) : ofRules G.start G.rules = G :=
  eq_of_productions_eq start_ofRules (productions_ofRules_rules G)

/-- The first production is for the nonterminal of the first alternative. -/
theorem head?_nonterminals_ofRules (named : ∀ rule ∈ rules, rule.1 ≠ []) :
    (ofRules start rules).nonterminals.head? = rules.head?.map Prod.fst := by
  have kept : ∀ (rules : List (Name × Body)) (p : Production) (l : List Production),
      ((rules.foldl (fun l rule => insertBody rule.1 rule.2 l) (p :: l)).map
        Production.left).head? = some p.left := by
    intro rules
    induction rules with
    | nil => exact fun _ _ => rfl
    | cons rule rules ih =>
      intro p l
      rw [List.foldl_cons, insertBody]
      split
      · exact ih ⟨p.left, _⟩ l
      · exact ih p _
  rw [nonterminals, ofRules, productions_foldl_addBody named]
  cases rules with
  | nil => rfl
  | cons rule rules => exact kept rules ⟨rule.1, [rule.2]⟩ []

end Grammar

end RightLinear
