import RightLinear.Proofs.Automaton.Elimination

/-!
# Paths around an eliminated place

A path is given here by its edges, one beginning where the one before it ends, and its
words are those of the labels one after another. An elimination takes all edges of a
place away. It puts edges around the place for what has led through it, so that between
two other places the paths together have the words they had.

* `Routes.Leads`, `Routes.reads_iff_exists_leads`: paths by their edges.
* `Routes.apart_eliminate`: the eliminated place is left alone.
* `Routes.EdgeMap.eliminate`: the edges are a map again.
* `Routes.eliminate_reroutes`: all of it together.
-/

namespace RightLinear.Routes

variable {routes : Routes} {path : List Route} {stop s t : Stop} {w : Word}

/-! ## Paths by their edges -/

/-- The edges of a path lead, one after another, from one place to another. -/
inductive Leads (routes : Routes) : Stop → List Route → Stop → Prop
  | nil {s : Stop} : Leads routes s [] s
  | cons {r : Route} {path : List Route} {t : Stop} :
    r ∈ routes → Leads routes r.target path t → Leads routes r.source (r :: path) t

/-- What can be read between two places is what the labels of some path between them
denote one after another. -/
theorem reads_iff_exists_leads :
    Reads routes s w t ↔
      ∃ path, routes.Leads s path t ∧ (Expr.concat (path.map Route.label)).Denotes w := by
  constructor
  · intro reads
    induction reads with
    | nil => exact ⟨[], .nil, .concatNil⟩
    | @cons r _ _ _ mem denotes _ ih =>
      obtain ⟨path, leads, rest⟩ := ih
      exact ⟨r :: path, .cons mem leads, .concatCons denotes rest⟩
  · intro h
    obtain ⟨path, leads, denotes⟩ := h
    induction leads generalizing w with
    | nil =>
      obtain rfl := Expr.denotes_concat_nil.mp denotes
      exact .nil
    | cons mem _ ih =>
      obtain ⟨u, v, rfl, first, rest⟩ := Expr.denotes_concat_cons.mp denotes
      exact .cons mem first (ih rest)

/-! ## The place that is left alone -/

theorem mem_ends_around {e : Stop × Stop} (mem : e ∈ ends (routes.around stop)) :
    e.1 ≠ stop ∧ e.2 ≠ stop := by
  obtain ⟨r, among, rfl⟩ := List.mem_map.mp mem
  obtain ⟨before, -, into, after, -, out, rfl⟩ := mem_around.mp among
  exact ⟨into.1, out.2⟩

/-- No edge touches a place that is eliminated. -/
theorem apart_eliminate :
    ∀ r ∈ routes.eliminate stop, r.source ≠ stop ∧ r.target ≠ stop := by
  intro r mem
  have joined : (r.source, r.target) ∈ ends (routes.eliminate stop) :=
    List.mem_map.mpr ⟨r, mem, rfl⟩
  rcases mem_ends_addAll.mp joined with kept | rerouted
  · obtain ⟨old, among, same⟩ := List.mem_map.mp kept
    obtain ⟨sameSource, sameTarget⟩ := Prod.mk.inj same
    have apart := (List.mem_filter.mp among).2
    rw [Bool.and_eq_true, decide_eq_true_eq, decide_eq_true_eq] at apart
    exact ⟨sameSource ▸ apart.1, sameTarget ▸ apart.2⟩
  · exact mem_ends_around rerouted

/-! ## Edges as a map -/

/-- Between two places there is one edge at most, and every label has a word. -/
structure EdgeMap (routes : Routes) : Prop where
  distinct : (ends routes).Nodup
  inhabited : ∀ r ∈ routes, ∃ w, r.label.Denotes w

theorem EdgeMap.eliminate (map : routes.EdgeMap) (stop : Stop) :
    (routes.eliminate stop).EdgeMap :=
  ⟨nodup_ends_eliminate map.distinct, labels_eliminate Expr.stable_inhabited map.inhabited⟩

/-! ## One elimination -/

/-- After an elimination no edge touches the place, the paths between two other places have
together the words that they had before, and edges that were a map are a map again. -/
theorem eliminate_reroutes (routes : Routes) (stop : Stop) :
    (∀ r ∈ routes.eliminate stop, r.source ≠ stop ∧ r.target ≠ stop) ∧
    (∀ s t, s ≠ stop → t ≠ stop → ∀ w,
      (∃ path, (routes.eliminate stop).Leads s path t ∧
          (Expr.concat (path.map Route.label)).Denotes w) ↔
        ∃ path, routes.Leads s path t ∧ (Expr.concat (path.map Route.label)).Denotes w) ∧
    (routes.EdgeMap → (routes.eliminate stop).EdgeMap) := by
  refine ⟨apart_eliminate, fun s t source target w => ?_, fun map => map.eliminate stop⟩
  rw [← reads_iff_exists_leads, ← reads_iff_exists_leads]
  exact reads_eliminate source target

/-- Two visits with two laps between them are read around the place, where an edge of the
rerouted paths lies beside an old one. -/
theorem eliminate_reroutes_of_laps :
    let routes : Routes :=
      [⟨.state 1, .state 0, .literal 'a'⟩, ⟨.state 0, .state 0, .literal 'b'⟩,
        ⟨.state 0, .state 1, .literal 'c'⟩, ⟨.state 1, .state 2, .literal 'd'⟩,
        ⟨.state 0, .state 2, .literal 'e'⟩]
    let w := ['a', 'b', 'b', 'c', 'a', 'e']
    Stop.state 1 ≠ .state 0 ∧ Stop.state 2 ≠ .state 0 ∧ routes.EdgeMap ∧
    (routes.eliminate (.state 0)).EdgeMap ∧
    ∃ path, (routes.eliminate (.state 0)).Leads (.state 1) path (.state 2) ∧
      (Expr.concat (path.map Route.label)).Denotes w := by
  intro routes w
  have source : Stop.state 1 ≠ .state 0 := by decide
  have target : Stop.state 2 ≠ .state 0 := by decide
  have map : routes.EdgeMap := by
    refine ⟨by decide, fun r mem => ?_⟩
    simp only [routes, List.mem_cons, List.not_mem_nil, or_false] at mem
    rcases mem with rfl | rfl | rfl | rfl | rfl
    all_goals exact ⟨_, .literal⟩
  have reads : Reads routes (.state 1) w (.state 2) := by
    have step {s t : Stop} {c : Char} {v : Word} (mem : ⟨s, t, .literal c⟩ ∈ routes)
        (rest : Reads routes t v (.state 2)) : Reads routes s (c :: v) (.state 2) :=
      .cons mem .literal rest
    refine step (t := .state 0) (by decide) (step (t := .state 0) (by decide) ?_)
    refine step (t := .state 0) (by decide) (step (t := .state 1) (by decide) ?_)
    exact step (t := .state 0) (by decide) (step (by decide) .nil)
  obtain ⟨-, kept, again⟩ := eliminate_reroutes routes (.state 0)
  exact ⟨source, target, map, again map,
    (kept _ _ source target w).mpr (reads_iff_exists_leads.mp reads)⟩

end RightLinear.Routes
