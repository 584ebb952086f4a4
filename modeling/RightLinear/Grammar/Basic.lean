import RightLinear.Word

/-!
# Right-linear grammars

A production gives a nonterminal its alternatives, each of them empty, a
terminal, or a terminal followed by one nonterminal. Productions stay in the
order in which their nonterminals first appeared, and alternatives in the order
in which they were added: this is the order in which a grammar is shown and in
which an automaton numbers its states.

* `Grammar.addBody`: the one operation that makes a grammar larger.
* `Grammar.bodies`: the alternatives of a nonterminal, the view under which
  derivations are defined; `bodies_addBody` says how it grows.
-/

namespace RightLinear

/-- The name of a nonterminal. -/
abbrev Name := List Char

/-- One alternative of a production. -/
inductive Body where
  /-- The empty word. -/
  | empty
  /-- A terminal that ends the derivation. -/
  | terminal (text : Word)
  /-- A terminal after which the derivation continues with a nonterminal. -/
  | continued (text : Word) (next : Name)
deriving DecidableEq, Repr

namespace Body

/-- The word that an alternative contributes to a derivation. -/
def text : Body → Word
  | empty => []
  | terminal text | continued text _ => text

/-- The nonterminal with which a derivation continues, if any. -/
def continuation? : Body → Option Name
  | continued _ next => some next
  | _ => none

end Body

/-- A nonterminal and its alternatives. -/
structure Production where
  left : Name
  bodies : List Body
deriving DecidableEq, Repr

/-- A right-linear grammar. Each nonterminal has one production at most, with one
alternative at least, and no production is for the empty name. -/
structure Grammar where
  start : Name
  productions : List Production
  nodup : (productions.map Production.left).Nodup
  bodies_ne_nil : ∀ p ∈ productions, p.bodies ≠ []
  left_ne_nil : ∀ p ∈ productions, p.left ≠ []
deriving DecidableEq, Repr

namespace Grammar

/-- The grammar without productions. -/
def new (start : Name) : Grammar :=
  ⟨start, [], .nil, fun _ h => absurd h List.not_mem_nil, fun _ h => absurd h List.not_mem_nil⟩

/-- The production of a nonterminal. -/
def production? (G : Grammar) (name : Name) : Option Production :=
  G.productions.find? (·.left = name)

/-- The alternatives of a nonterminal; a nonterminal without production has
none. -/
def bodies (G : Grammar) (name : Name) : List Body :=
  (G.production? name).elim [] Production.bodies

/-- The nonterminals with a production, in order. -/
def nonterminals (G : Grammar) : List Name := G.productions.map Production.left

/-- Whether a nonterminal has a production. -/
def defines (G : Grammar) (name : Name) : Bool := (G.production? name).isSome

/-- All alternatives, each with its nonterminal, in order. -/
def rules (G : Grammar) : List (Name × Body) :=
  G.productions.flatMap fun p => p.bodies.map (p.left, ·)

/-- The nonterminals that some alternative continues with but that have no
production, in order of first use. -/
def undefinedNonterminals (G : Grammar) : List Name :=
  ((G.rules.filterMap (·.2.continuation?)).filter fun name => !G.defines name).eraseDups

/-- The characters of all terminals, in order of first use. -/
def terminals (G : Grammar) : List Char := (G.rules.flatMap (·.2.text)).eraseDups

/-! ## Adding alternatives -/

/-- The productions with one more alternative: it joins the production of its
nonterminal, or begins a new one at the end. -/
def insertBody (left : Name) (body : Body) : List Production → List Production
  | [] => [⟨left, [body]⟩]
  | p :: rest =>
    if p.left = left then ⟨p.left, p.bodies ++ [body]⟩ :: rest
    else p :: insertBody left body rest

section

variable {left : Name} {body : Body}

/-- The names keep their order, and a name that is new comes last. -/
theorem map_left_insertBody :
    ∀ l : List Production, (insertBody left body l).map Production.left =
      if left ∈ l.map Production.left then l.map Production.left
      else l.map Production.left ++ [left]
  | [] => rfl
  | p :: rest => by
    unfold insertBody
    split
    · next same => simp [same]
    · next other =>
      rw [List.map_cons, map_left_insertBody rest]
      have : ¬ left = p.left := fun h => other h.symm
      split <;> simp_all

/-- A production with a further alternative was there before, or it is the one of this name and
ends with the alternative. -/
theorem mem_insertBody {p : Production} :
    ∀ {l : List Production}, p ∈ insertBody left body l →
      p ∈ l ∨ p.left = left ∧ ∃ before, p.bodies = before ++ [body]
  | [], h => by
    obtain rfl := List.mem_singleton.mp h
    exact Or.inr ⟨rfl, [], rfl⟩
  | q :: rest, h => by
    unfold insertBody at h
    split at h
    · next same =>
      rcases List.mem_cons.mp h with rfl | h
      · exact Or.inr ⟨same, _, rfl⟩
      · exact Or.inl (List.mem_cons_of_mem _ h)
    · rcases List.mem_cons.mp h with rfl | h
      · exact Or.inl List.mem_cons_self
      · exact (mem_insertBody h).imp_left (List.mem_cons_of_mem _)

/-- Adding an alternative keeps the nonterminals distinct. -/
theorem nodup_insertBody {l : List Production} (h : (l.map Production.left).Nodup) :
    ((insertBody left body l).map Production.left).Nodup := by
  rw [map_left_insertBody]
  split
  · exact h
  · next fresh =>
    refine List.nodup_append.mpr ⟨h, by simp, fun a ha b hb => ?_⟩
    rintro rfl
    exact fresh (List.mem_singleton.mp hb ▸ ha)

/-- A further alternative comes last among those of its name, and other names keep theirs. -/
theorem find?_insertBody (name : Name) :
    ∀ l : List Production,
      ((insertBody left body l).find? (·.left = name)).elim [] Production.bodies =
        (l.find? (·.left = name)).elim [] Production.bodies ++
          if name = left then [body] else []
  | [] => by
    by_cases h : name = left
    · simp [insertBody, h]
    · have : ¬ left = name := fun e => h e.symm
      simp [insertBody, h, this]
  | p :: rest => by
    have ih := find?_insertBody name rest
    unfold insertBody
    split
    · next same =>
      by_cases h : left = name
      · simp [same, h]
      · have : ¬ name = left := fun e => h e.symm
        simp [same, h, this]
    · next other =>
      by_cases h : p.left = name
      · have : ¬ name = left := fun e => other (h.trans e)
        simp [h, this]
      · simpa [h] using ih

end

/-- The grammar with one more alternative. An alternative for the empty name is
dropped. -/
def addBody (G : Grammar) (left : Name) (body : Body) : Grammar :=
  if named : left = [] then G
  else
    { start := G.start
      productions := insertBody left body G.productions
      nodup := nodup_insertBody G.nodup
      bodies_ne_nil := fun p h => by
        rcases mem_insertBody h with h | ⟨_, before, eq⟩
        · exact G.bodies_ne_nil p h
        · simp [eq]
      left_ne_nil := fun p h => by
        rcases mem_insertBody h with h | ⟨eq, _⟩
        · exact G.left_ne_nil p h
        · exact eq ▸ named }

/-- The grammar of a list of alternatives, added in order. -/
def ofRules (start : Name) (rules : List (Name × Body)) : Grammar :=
  rules.foldl (fun G rule => G.addBody rule.1 rule.2) (new start)

@[simp] theorem bodies_new (start name : Name) : (new start).bodies name = [] := rfl

@[simp] theorem start_addBody (G : Grammar) (left : Name) (body : Body) :
    (G.addBody left body).start = G.start := by
  unfold addBody; split <;> rfl

/-- An added alternative comes last in its nonterminal and touches no other. -/
theorem bodies_addBody (G : Grammar) {left : Name} (named : left ≠ []) (body : Body)
    (name : Name) :
    (G.addBody left body).bodies name =
      G.bodies name ++ if name = left then [body] else [] := by
  simp only [addBody, dif_neg named, bodies, production?]
  exact find?_insertBody name G.productions

/-! ## Two small grammars -/

/-- The grammar of the empty word alone. -/
def emptyWord : Grammar := (new ['S']).addBody ['S'] .empty

/-- A sample grammar, for `aaa`, then any word over `a` and `b`, then `bbb`. -/
def sample : Grammar :=
  ofRules ['S']
    [(['S'], .continued ['a'] ['A']), (['A'], .continued ['a'] ['B']),
      (['B'], .continued ['a'] ['C']), (['C'], .continued ['a'] ['C']),
      (['C'], .continued ['b'] ['C']), (['C'], .continued ['b'] ['D']),
      (['D'], .continued ['b'] ['E']), (['E'], .terminal ['b'])]

end Grammar

end RightLinear
