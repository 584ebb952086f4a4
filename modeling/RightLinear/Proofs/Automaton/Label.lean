import Mathlib.Data.List.Nodup
import RightLinear.Proofs.Automaton.Elimination

/-!
# Labels after an elimination

Edges of which there is one at most between two places are a table of labels. An
elimination changes the table entry by entry: what was between two other places is still
there, and beside it what leads into the eliminated place, around it and out of it.

* `Routes.label?_eq_some_iff`, `Routes.label?_addAll`: the table of some edges.
* `Routes.loop_eq`, `Routes.label?_around`: what leads around a place.
* `Routes.label?_eliminate`: the table after an elimination.
* `Automaton.plainRoutes`, `Automaton.label?_routes_of_mem`: the table of an automaton.
-/

namespace RightLinear

namespace Routes

variable {routes more : Routes} {route : Route} {stop s t : Stop} {e : Expr}

/-! ## Tables -/

theorem label?_nil : label? [] s t = none := rfl

theorem label?_cons :
    label? (route :: routes) s t =
      if route.source = s ∧ route.target = t then some route.label else routes.label? s t := by
  rw [label?, List.find?_cons]
  split
  · next here =>
    rw [Bool.and_eq_true, decide_eq_true_eq, decide_eq_true_eq] at here
    rw [if_pos here, Option.map_some]
  · next apart =>
    have apart : ¬(route.source = s ∧ route.target = t) := by simpa using apart
    rw [if_neg apart, label?]

theorem label?_eq_none_iff : routes.label? s t = none ↔ (s, t) ∉ ends routes := by
  induction routes with
  | nil => exact iff_of_true rfl List.not_mem_nil
  | cons r routes ih =>
    rw [label?_cons, ends, List.map_cons, List.mem_cons, ← ends, not_or, ← ih, Prod.mk.injEq]
    split
    · next here =>
      exact iff_of_false (Option.some_ne_none _) fun h => h.1 ⟨here.1.symm, here.2.symm⟩
    · next apart => exact (and_iff_right fun h => apart ⟨h.1.symm, h.2.symm⟩).symm

/-- Where there is one edge at most between two places, its label is in the table. -/
theorem label?_eq_some_iff (distinct : (ends routes).Nodup) :
    routes.label? s t = some e ↔ ⟨s, t, e⟩ ∈ routes := by
  induction routes with
  | nil => exact iff_of_false nofun List.not_mem_nil
  | cons r routes ih =>
    obtain ⟨alone, distinct⟩ := List.nodup_cons.mp distinct
    rw [label?_cons, List.mem_cons]
    split
    · next here =>
      obtain ⟨rfl, rfl⟩ := here
      have once : ⟨r.source, r.target, e⟩ ∉ routes := fun mem =>
        alone (List.mem_map.mpr ⟨_, mem, rfl⟩)
      rw [or_iff_left once, Option.some.injEq]
      exact ⟨fun same => same ▸ rfl, fun same => congrArg Route.label same.symm⟩
    · next apart =>
      rw [ih distinct]
      exact (or_iff_right fun same => apart ⟨congrArg Route.source same.symm,
        congrArg Route.target same.symm⟩).symm

/-- An added edge widens one entry of the table, or makes one. -/
theorem label?_add :
    (add route routes).label? s t =
      Option.merge Expr.or (routes.label? s t) (label? [route] s t) := by
  induction routes with
  | nil => exact (Option.merge_none_left ..).symm
  | cons r routes ih =>
    unfold add
    split
    · next parallel =>
      rw [label?_cons, label?_cons, label?_cons, parallel.1, parallel.2]
      split
      · rfl
      · exact (Option.merge_none_right ..).symm
    · next apart =>
      rw [label?_cons, label?_cons, ih]
      split
      · next here =>
        obtain ⟨rfl, rfl⟩ := here
        have other : ¬(route.source = r.source ∧ route.target = r.target) :=
          fun h => apart ⟨h.1.symm, h.2.symm⟩
        rw [label?_cons, if_neg other]
        rfl
      · rfl

/-- Added edges widen the table entry by entry. -/
theorem label?_addAll (distinct : (ends more).Nodup) :
    (addAll routes more).label? s t =
      Option.merge Expr.or (routes.label? s t) (more.label? s t) := by
  induction more generalizing routes with
  | nil => exact (Option.merge_none_right ..).symm
  | cons r more ih =>
    obtain ⟨alone, distinct⟩ := List.nodup_cons.mp distinct
    rw [addAll, List.foldl_cons, ← addAll, ih distinct, label?_add, label?_cons, label?_cons]
    split
    · next here =>
      obtain ⟨rfl, rfl⟩ := here
      rw [label?_eq_none_iff.mpr alone, Option.merge_none_right]
    · rw [label?_nil, Option.merge_none_right]

/-- Labels that are all the same expression are joined to that expression, if a union with itself
leaves it as it is. -/
theorem eq_of_label?_addAll (idem : e.or e = e)
    (old : ∀ f, routes.label? s t = some f → f = e)
    (new : ∀ r ∈ more, r.source = s → r.target = t → r.label = e) :
    ∀ f, (addAll routes more).label? s t = some f → f = e := by
  induction more generalizing routes with
  | nil => exact old
  | cons r more ih =>
    obtain ⟨first, later⟩ := List.forall_mem_cons.mp new
    refine ih (fun f found => ?_) later
    rw [label?_add, label?_cons] at found
    split at found
    · next here =>
      rw [first here.1 here.2] at found
      cases before : routes.label? s t with
      | none =>
        rw [before] at found
        exact (Option.some.inj found).symm
      | some g =>
        rw [before, old g before] at found
        exact (Option.some.inj found).symm.trans idem
    · rw [label?_nil, Option.merge_none_right] at found
      exact old f found

/-- Between two places where every edge has one label, the table has that label if there is
such an edge at all. -/
theorem label?_addAll_of_same (idem : e.or e = e)
    (same : ∀ r ∈ more, r.source = s → r.target = t → r.label = e) :
    (addAll [] more).label? s t = if (s, t) ∈ ends more then some e else none := by
  have table : (s, t) ∈ ends (addAll [] more) ↔ (s, t) ∈ ends more :=
    mem_ends_addAll.trans (or_iff_right List.not_mem_nil)
  split
  · next present =>
    cases found : (addAll [] more).label? s t with
    | none => exact absurd (table.mpr present) (label?_eq_none_iff.mp found)
    | some f => rw [eq_of_label?_addAll idem (fun _ none => by cases none) same f found]
  · next absent => exact label?_eq_none_iff.mpr fun mem => absent (table.mp mem)

/-! ## Ways around a place -/

/-- The laps around a place are the repetition of the loop in the table, if there is one. -/
theorem loop_eq (distinct : (ends routes).Nodup) :
    routes.loop stop = (routes.label? stop stop).elim .epsilon Expr.repeated := by
  have among : (ends (routes.filter fun r => r.source = stop && r.target = stop)).Nodup :=
    distinct.sublist (List.filter_sublist.map _)
  have same : ∀ r ∈ routes.filter fun r => r.source = stop && r.target = stop,
      (r.source, r.target) = (stop, stop) := by
    intro r mem
    have here := (List.mem_filter.mp mem).2
    rw [Bool.and_eq_true, decide_eq_true_eq, decide_eq_true_eq] at here
    rw [here.1, here.2]
  unfold loop label?
  rw [← List.head?_filter]
  cases loops : routes.filter fun r => r.source = stop && r.target = stop with
  | nil => rfl
  | cons r rest =>
    cases rest with
    | nil => rfl
    | cons other rest =>
      rw [loops] at among same
      obtain ⟨first, second⟩ := List.forall_mem_cons.mp same
      refine absurd (List.mem_map.mpr ⟨other, List.mem_cons_self, ?_⟩) (List.nodup_cons.mp among).1
      exact (second other List.mem_cons_self).trans first.symm

/-- Edges into a place have different sources. -/
theorem nodup_sources (distinct : (ends routes).Nodup) :
    ((routes.filter fun r => r.source ≠ stop && r.target = stop).map Route.source).Nodup := by
  refine List.Nodup.of_map (·, stop) ?_
  rw [List.map_map]
  refine (List.map_congr_left fun r mem => ?_) ▸ distinct.sublist (List.filter_sublist.map _)
  have into := (Bool.and_eq_true_iff.mp (List.mem_filter.mp mem).2).2
  exact congrArg (r.source, ·) (of_decide_eq_true into)

/-- Edges out of a place have different targets. -/
theorem nodup_targets (distinct : (ends routes).Nodup) :
    ((routes.filter fun r => r.source = stop && r.target ≠ stop).map Route.target).Nodup := by
  refine List.Nodup.of_map (stop, ·) ?_
  rw [List.map_map]
  refine (List.map_congr_left fun r mem => ?_) ▸ distinct.sublist (List.filter_sublist.map _)
  have out := (Bool.and_eq_true_iff.mp (List.mem_filter.mp mem).2).1
  exact congrArg (·, r.target) (of_decide_eq_true out)

/-- There is one way around a place at most for each way in and each way out. -/
theorem nodup_ends_around (distinct : (ends routes).Nodup) :
    (ends (routes.around stop)).Nodup := by
  have pairs := (@nodup_sources routes stop distinct).product (@nodup_targets routes stop distinct)
  simpa only [ends, around, List.map_flatMap, List.map_map, SProd.sprod, List.product,
    List.flatMap_map, Function.comp_def] using pairs

/-- The table of the ways around a place, for each way in and each way out. -/
theorem label?_around (distinct : (ends routes).Nodup) (source : s ≠ stop) (target : t ≠ stop) :
    label? (routes.around stop) s t =
      (routes.label? s stop).bind fun into => (routes.label? stop t).map fun out =>
        (into.followedBy (routes.loop stop)).followedBy out := by
  refine Option.ext fun e => ?_
  rw [label?_eq_some_iff (nodup_ends_around distinct), mem_around, Option.bind_eq_some_iff]
  simp only [Option.map_eq_some_iff, label?_eq_some_iff distinct]
  refine ⟨fun h => ?_, fun h => ?_⟩
  · obtain ⟨before, memBefore, into, after, memAfter, out, eq⟩ := h
    obtain ⟨rfl, rfl, rfl⟩ := Route.mk.inj eq
    exact ⟨before.label, into.2 ▸ memBefore, after.label, out.1 ▸ memAfter, rfl⟩
  · obtain ⟨into, memBefore, out, memAfter, rfl⟩ := h
    exact ⟨_, memBefore, ⟨source, rfl⟩, _, memAfter, ⟨rfl, target⟩, rfl⟩

theorem label?_without (distinct : (ends routes).Nodup) (source : s ≠ stop)
    (target : t ≠ stop) :
    label? (routes.filter fun r => r.source ≠ stop && r.target ≠ stop) s t =
      routes.label? s t := by
  refine Option.ext fun e => ?_
  rw [label?_eq_some_iff (distinct.sublist (List.filter_sublist.map _)),
    label?_eq_some_iff distinct, List.mem_filter, Bool.and_eq_true, decide_eq_true_eq,
    decide_eq_true_eq]
  exact and_iff_left ⟨source, target⟩

/-- The table after an elimination: between two other places the label is widened by what
leads into the eliminated place, around it and out of it. -/
theorem label?_eliminate (distinct : (ends routes).Nodup) (source : s ≠ stop)
    (target : t ≠ stop) :
    (routes.eliminate stop).label? s t =
      Option.merge Expr.or (routes.label? s t)
        ((routes.label? s stop).bind fun into => (routes.label? stop t).map fun out =>
          (into.followedBy (routes.loop stop)).followedBy out) := by
  rw [eliminate, label?_addAll (nodup_ends_around distinct), label?_without distinct source target,
    label?_around distinct source target]

end Routes

/-! ## The table of an automaton -/

namespace Automaton

open Routes

variable {A : Automaton} {initial : State} {route : Route} {s t : Stop} {e : Expr}

/-- The edges of an automaton before edges between the same places are joined. -/
def plainRoutes (A : Automaton) (initial : State) : List Route :=
  ⟨.start, .state initial.id, .epsilon⟩ ::
    (A.transitions.flatMap fun t => t.symbols.toList.map fun c =>
      ⟨.state t.source, .state t.target, .literal c⟩) ++
    A.finalStates.map fun s => ⟨.state s.id, .accept, .epsilon⟩

/-- There is an edge for each move, and the first and the last ones. -/
theorem mem_plainRoutes :
    route ∈ A.plainRoutes initial ↔
      route = ⟨.start, .state initial.id, .epsilon⟩ ∨
        (∃ p c q, A.Joins p c q ∧ route = ⟨.state p, .state q, .literal c⟩) ∨
        ∃ p, A.IsFinal p ∧ route = ⟨.state p, .accept, .epsilon⟩ := by
  rw [plainRoutes, List.mem_append, List.mem_cons, or_assoc]
  refine or_congr_right (or_congr ?_ ?_)
  · simp only [List.mem_flatMap, List.mem_map, Joins]
    refine ⟨fun h => ?_, fun h => ?_⟩
    · obtain ⟨r, mem, c, symbol, rfl⟩ := h
      exact ⟨r.source, c, r.target, ⟨r, mem, rfl, symbol, rfl⟩, rfl⟩
    · obtain ⟨_, c, _, ⟨r, mem, rfl, symbol, rfl⟩, rfl⟩ := h
      exact ⟨r, mem, c, symbol, rfl⟩
  · simp only [List.mem_map, finalStates, List.mem_filter, IsFinal]
    refine ⟨fun h => ?_, fun h => ?_⟩
    · obtain ⟨p, ⟨mem, final⟩, rfl⟩ := h
      exact ⟨p.id, ⟨p, mem, rfl, final⟩, rfl⟩
    · obtain ⟨_, ⟨p, mem, rfl, final⟩, rfl⟩ := h
      exact ⟨p, ⟨mem, final⟩, rfl⟩

/-- Between two places where all edges have one label, so has the table. -/
theorem label?_routes_of_mem (idem : e.or e = e) (mem : ⟨s, t, e⟩ ∈ A.plainRoutes initial)
    (same : ∀ f, ⟨s, t, f⟩ ∈ A.plainRoutes initial → f = e) :
    (A.routes initial).label? s t = some e := by
  have table := @label?_addAll_of_same (A.plainRoutes initial) s t e idem
    fun r among source target => same r.label (source ▸ target ▸ among)
  have present : (s, t) ∈ ends (A.plainRoutes initial) := List.mem_map.mpr ⟨_, mem, rfl⟩
  exact table.trans (if_pos present)

theorem label?_routes_of_not_mem (none : ∀ f, ⟨s, t, f⟩ ∉ A.plainRoutes initial) :
    (A.routes initial).label? s t = .none := by
  refine label?_eq_none_iff.mpr fun mem => ?_
  rcases mem_ends_addAll.mp mem with absent | present
  · exact List.not_mem_nil absent
  · obtain ⟨r, among, same⟩ := List.mem_map.mp present
    obtain ⟨rfl, rfl⟩ := Prod.mk.inj same
    exact none r.label among

end Automaton

end RightLinear
