import RightLinear.Automaton.Elimination
import RightLinear.Expr.Simplified
import RightLinear.Proofs.Automaton.Simulation
import RightLinear.Proofs.Expr.Language

/-!
# Eliminating states keeps the words of all other paths

Edges are looked at through the steps they allow (`Routes.Steps`): a step reads a
word of the label of some edge. Whether an edge is new or widens another one does
not show there. A path through an eliminated place is cut at its visits: what
reads into the place, the laps around it and what reads out of it are one step of
the reduced edges.

* `Routes.steps_eliminate`, `Routes.reads_eliminate`: one elimination.
* `Routes.Proper`: between two places there is one edge at most.
* `Automaton.reads_routes`: paths along the edges of an automaton are its runs.
* `Automaton.denotes_of_toExpr`, `Automaton.toExpr_eq_emptyLanguage`: the expression
  that is left after all eliminations, and when none is left.
-/

namespace RightLinear

namespace Routes

variable {routes more : Routes} {route : Route} {stop s t : Stop} {u v w : Word}

/-! ## Steps -/

/-- An edge between two places whose label denotes a word. -/
def Steps (routes : Routes) (s : Stop) (u : Word) (t : Stop) : Prop :=
  ∃ r ∈ routes, r.source = s ∧ r.target = t ∧ r.label.Denotes u

theorem steps_cons {r : Route} :
    Steps (r :: routes) s u t ↔
      (r.source = s ∧ r.target = t ∧ r.label.Denotes u) ∨ Steps routes s u t :=
  List.exists_mem_cons_iff _ _ _

theorem steps_append {others : Routes} :
    Steps (routes ++ others) s u t ↔ Steps routes s u t ∨ Steps others s u t := by
  simp only [Steps, List.mem_append, or_and_right, exists_or]

theorem steps_without :
    Steps (routes.filter fun r => r.source ≠ stop && r.target ≠ stop) s u t ↔
      s ≠ stop ∧ t ≠ stop ∧ Steps routes s u t := by
  simp only [Steps, List.mem_filter, Bool.and_eq_true, decide_eq_true_eq]
  refine ⟨fun h => ?_, fun h => ?_⟩
  · obtain ⟨r, ⟨mem, source, target⟩, rfl, rfl, denotes⟩ := h
    exact ⟨source, target, r, mem, rfl, rfl, denotes⟩
  · obtain ⟨source, target, r, mem, rfl, rfl, denotes⟩ := h
    exact ⟨r, ⟨mem, source, target⟩, rfl, rfl, denotes⟩

/-- It makes no difference to steps whether an edge is new or widens another. -/
theorem steps_add :
    Steps (add route routes) s u t ↔
      Steps routes s u t ∨ route.source = s ∧ route.target = t ∧ route.label.Denotes u := by
  induction routes with
  | nil =>
    refine ⟨fun h => Or.inr ?_, fun h => ?_⟩
    · obtain ⟨r, mem, denotes⟩ := h
      exact List.mem_singleton.mp mem ▸ denotes
    · exact ⟨route, List.mem_singleton.mpr rfl, h.resolve_left fun none =>
        absurd none.choose_spec.1 List.not_mem_nil⟩
  | cons r routes ih =>
    unfold add
    split
    · next parallel =>
      rw [steps_cons, steps_cons]
      dsimp only
      rw [Expr.denotes_or, parallel.1, parallel.2]
      refine ⟨fun h => ?_, fun h => ?_⟩
      · rcases h with ⟨atSource, atTarget, old | new⟩ | later
        · exact Or.inl (Or.inl ⟨atSource, atTarget, old⟩)
        · exact Or.inr ⟨atSource, atTarget, new⟩
        · exact Or.inl (Or.inr later)
      · rcases h with (⟨atSource, atTarget, old⟩ | later) | ⟨atSource, atTarget, new⟩
        · exact Or.inl ⟨atSource, atTarget, Or.inl old⟩
        · exact Or.inr later
        · exact Or.inl ⟨atSource, atTarget, Or.inr new⟩
    · rw [steps_cons, steps_cons, ih, or_assoc]

theorem steps_addAll :
    Steps (addAll routes more) s u t ↔ Steps routes s u t ∨ Steps more s u t := by
  induction more generalizing routes with
  | nil =>
    refine ⟨Or.inl, fun h => h.resolve_right fun none => ?_⟩
    obtain ⟨r, mem, _⟩ := none
    exact absurd mem List.not_mem_nil
  | cons r more ih =>
    rw [addAll, List.foldl_cons, ← addAll, ih, steps_add, steps_cons, or_assoc]

/-! ## Laps -/

/-- The words of any number of loops at a place. -/
inductive Laps (routes : Routes) (stop : Stop) : Word → Prop
  | nil : Laps routes stop []
  | cons {u v : Word} : Steps routes stop u stop → Laps routes stop v → Laps routes stop (u ++ v)

theorem denotes_foldl_or {e : Expr} {labels : List Expr} :
    (labels.foldl Expr.or e).Denotes w ↔ ∃ label ∈ e :: labels, label.Denotes w := by
  induction labels generalizing e with
  | nil => simp only [List.foldl_nil, List.mem_singleton, exists_eq_left]
  | cons f labels ih =>
    rw [List.foldl_cons, ih, List.exists_mem_cons_iff, Expr.denotes_or, List.exists_mem_cons_iff,
      List.exists_mem_cons_iff, or_assoc]

/-- The label of the loops denotes the words of any number of laps. -/
theorem denotes_loop : (routes.loop stop).Denotes w ↔ Laps routes stop w := by
  have labelled : ∀ {u},
      (∃ label ∈ (routes.filter fun r => r.source = stop && r.target = stop).map Route.label,
        label.Denotes u) ↔ Steps routes stop u stop := by
    intro u
    simp only [Steps, List.mem_map, List.mem_filter, Bool.and_eq_true, decide_eq_true_eq]
    refine ⟨fun h => ?_, fun h => ?_⟩
    · obtain ⟨_, ⟨r, ⟨mem, atSource, atTarget⟩, rfl⟩, denotes⟩ := h
      exact ⟨r, mem, atSource, atTarget, denotes⟩
    · obtain ⟨r, mem, atSource, atTarget, denotes⟩ := h
      exact ⟨_, ⟨r, ⟨mem, atSource, atTarget⟩, rfl⟩, denotes⟩
  unfold loop
  split
  · next none =>
    rw [Expr.denotes_epsilon]
    refine ⟨fun h => h ▸ .nil, fun h => ?_⟩
    cases h with
    | nil => rfl
    | cons step _ =>
      rw [← labelled, none] at step
      obtain ⟨_, mem, _⟩ := step
      exact absurd mem List.not_mem_nil
  · next label labels eq =>
    have once : ∀ {u}, (labels.foldl Expr.or label).Denotes u ↔ Steps routes stop u stop := by
      intro u
      rw [denotes_foldl_or, ← eq, labelled]
    rw [Expr.denotes_repeated]
    refine ⟨fun h => ?_, fun h => ?_⟩
    · exact h.star_induction (P := Laps routes stop) .nil fun first rest =>
        .cons (once.mp first) rest
    · induction h with
      | nil => exact .starNil
      | cons step _ ih => exact .starCons (once.mpr step) ih

/-! ## One elimination -/

/-- A way through a place: into it, around it and out of it. -/
def Through (routes : Routes) (stop s : Stop) (w : Word) (t : Stop) : Prop :=
  ∃ u v x, w = u ++ v ++ x ∧ Steps routes s u stop ∧ Laps routes stop v ∧ Steps routes stop x t

theorem mem_around :
    route ∈ routes.around stop ↔
      ∃ before ∈ routes, (before.source ≠ stop ∧ before.target = stop) ∧
        ∃ after ∈ routes, (after.source = stop ∧ after.target ≠ stop) ∧
          route = ⟨before.source, after.target,
            (before.label.followedBy (routes.loop stop)).followedBy after.label⟩ := by
  simp only [around, List.mem_flatMap, List.mem_map, List.mem_filter, Bool.and_eq_true,
    decide_eq_true_eq, and_assoc, eq_comm (a := route)]

theorem denotes_around {before after : Expr} :
    ((before.followedBy (routes.loop stop)).followedBy after).Denotes w ↔
      ∃ u v x, w = u ++ v ++ x ∧ before.Denotes u ∧ Laps routes stop v ∧ after.Denotes x := by
  simp only [Expr.denotes_followedBy, denotes_loop]
  refine ⟨fun h => ?_, fun h => ?_⟩
  · obtain ⟨_, x, rfl, ⟨u, v, rfl, into, laps⟩, out⟩ := h
    exact ⟨u, v, x, rfl, into, laps, out⟩
  · obtain ⟨u, v, x, rfl, into, laps, out⟩ := h
    exact ⟨u ++ v, x, rfl, ⟨u, v, rfl, into, laps⟩, out⟩

/-- The edges around a place allow the steps that lead through it between other places. -/
theorem steps_around :
    Steps (routes.around stop) s w t ↔ s ≠ stop ∧ t ≠ stop ∧ Through routes stop s w t := by
  refine ⟨fun h => ?_, fun h => ?_⟩
  · obtain ⟨r, mem, rfl, rfl, denotes⟩ := h
    obtain ⟨before, memBefore, ends, after, memAfter, ends', rfl⟩ := mem_around.mp mem
    obtain ⟨u, v, x, rfl, into, laps, out⟩ := denotes_around.mp denotes
    exact ⟨ends.1, ends'.2, u, v, x, rfl, ⟨before, memBefore, rfl, ends.2, into⟩, laps,
      after, memAfter, ends'.1, rfl, out⟩
  · obtain ⟨source, target, u, v, x, rfl, into, laps, out⟩ := h
    obtain ⟨before, memBefore, rfl, atStop, into⟩ := into
    obtain ⟨after, memAfter, fromStop, rfl, out⟩ := out
    exact ⟨_, mem_around.mpr ⟨before, memBefore, ⟨source, atStop⟩, after, memAfter,
      ⟨fromStop, target⟩, rfl⟩, rfl, rfl, denotes_around.mpr ⟨u, v, x, rfl, into, laps, out⟩⟩

/-- A step of the reduced edges avoids the place, or leads through it. -/
theorem steps_eliminate :
    Steps (routes.eliminate stop) s w t ↔
      s ≠ stop ∧ t ≠ stop ∧ (Steps routes s w t ∨ Through routes stop s w t) := by
  rw [eliminate, steps_addAll, steps_without, steps_around, and_or_left, and_or_left]

theorem Reads.step (step : Steps routes s u t) {m : Stop} (rest : Reads routes t v m) :
    Reads routes s (u ++ v) m := by
  obtain ⟨r, mem, rfl, rfl, denotes⟩ := step
  exact .cons mem denotes rest

theorem reads_iff :
    Reads routes s w t ↔
      (w = [] ∧ s = t) ∨ ∃ u v m, w = u ++ v ∧ Steps routes s u m ∧ Reads routes m v t := by
  refine ⟨fun h => ?_, fun h => ?_⟩
  · cases h with
    | nil => exact Or.inl ⟨rfl, rfl⟩
    | cons mem denotes rest => exact Or.inr ⟨_, _, _, rfl, ⟨_, mem, rfl, rfl, denotes⟩, rest⟩
  · rcases h with ⟨rfl, rfl⟩ | ⟨u, v, m, rfl, step, rest⟩
    · exact .nil
    · exact .step step rest

theorem Laps.reads (laps : Laps routes stop u) (rest : Reads routes stop v t) :
    Reads routes stop (u ++ v) t := by
  induction laps with
  | nil => exact rest
  | cons step _ ih =>
    rw [List.append_assoc]
    exact .step step ih

theorem reads_of_reads_eliminate (h : Reads (routes.eliminate stop) s w t) :
    Reads routes s w t := by
  induction h with
  | nil => exact .nil
  | cons mem denotes _ ih =>
    obtain ⟨-, -, kept | through⟩ := steps_eliminate.mp ⟨_, mem, rfl, rfl, denotes⟩
    · exact .step kept ih
    · obtain ⟨u, v, x, rfl, into, laps, out⟩ := through
      rw [List.append_assoc, List.append_assoc]
      exact .step into (laps.reads (.step out ih))

/-- What a path from the place itself reads: laps, a way out, and a reduced path. -/
theorem reads_cut (h : Reads routes s w t) (target : t ≠ stop) :
    (s ≠ stop → Reads (routes.eliminate stop) s w t) ∧
      (s = stop → ∃ m u v x, w = u ++ v ++ x ∧ Laps routes stop u ∧ m ≠ stop ∧
        Steps routes stop v m ∧ Reads (routes.eliminate stop) m x t) := by
  induction h with
  | nil => exact ⟨fun _ => .nil, fun here => absurd here target⟩
  | @cons r u v t mem denotes _ ih =>
    -- the rest may begin at the place itself, where the reduced edges have no path
    obtain ⟨outside, inside⟩ := ih target
    have step : Steps routes r.source u r.target := ⟨r, mem, rfl, rfl, denotes⟩
    by_cases visit : r.target = stop
    · obtain ⟨m, u', v', x, rfl, laps, leaves, out, rest⟩ := inside visit
      rw [visit] at step
      refine ⟨fun source => ?_, fun here => ?_⟩
      · rw [← List.append_assoc, ← List.append_assoc]
        exact .step (steps_eliminate.mpr
          ⟨source, leaves, Or.inr ⟨u, u', v', rfl, step, laps, out⟩⟩) rest
      · rw [here] at step
        exact ⟨m, u ++ u', v', x, by simp only [List.append_assoc], .cons step laps, leaves,
          out, rest⟩
    · refine ⟨fun source => ?_, fun here => ?_⟩
      · exact .step (steps_eliminate.mpr ⟨source, visit, Or.inl step⟩) (outside visit)
      · rw [here] at step
        exact ⟨r.target, [], u, v, rfl, .nil, visit, step, outside visit⟩

/-- Between other places the reduced edges read the same words. -/
theorem reads_eliminate (source : s ≠ stop) (target : t ≠ stop) :
    Reads (routes.eliminate stop) s w t ↔ Reads routes s w t :=
  ⟨reads_of_reads_eliminate, fun h => (reads_cut h target).1 source⟩

/-! ## What every elimination keeps -/

/-- The places that each edge joins. -/
def ends (routes : Routes) : List (Stop × Stop) := routes.map fun r => (r.source, r.target)

/-- An added edge joins places that were joined before, or it comes last. -/
theorem ends_add :
    ends (add route routes) =
      if (route.source, route.target) ∈ ends routes then ends routes
      else ends routes ++ [(route.source, route.target)] := by
  induction routes with
  | nil => rfl
  | cons r routes ih =>
    unfold add
    split
    · next parallel =>
      have present : (route.source, route.target) ∈ ends (r :: routes) :=
        parallel.1 ▸ parallel.2 ▸ List.mem_cons_self
      rw [if_pos present]
      rfl
    · next apart =>
      have other : (route.source, route.target) ≠ (r.source, r.target) := fun eq =>
        apart ⟨congrArg Prod.fst eq.symm, congrArg Prod.snd eq.symm⟩
      have cons (l : Routes) : ends (r :: l) = (r.source, r.target) :: ends l := rfl
      simp only [cons, ih, List.mem_cons, other, false_or]
      split <;> rfl

theorem mem_ends_add {e : Stop × Stop} :
    e ∈ ends (add route routes) ↔ e ∈ ends routes ∨ e = (route.source, route.target) := by
  rw [ends_add]
  split
  · next present => exact ⟨Or.inl, fun h => h.elim id fun same => same ▸ present⟩
  · rw [List.mem_append, List.mem_singleton]

theorem mem_ends_addAll {e : Stop × Stop} :
    e ∈ ends (addAll routes more) ↔ e ∈ ends routes ∨ e ∈ ends more := by
  induction more generalizing routes with
  | nil => exact ⟨Or.inl, fun h => h.resolve_right List.not_mem_nil⟩
  | cons r more ih =>
    rw [addAll, List.foldl_cons, ← addAll, ih, mem_ends_add, or_assoc, ends, ends, ends,
      List.map_cons, List.mem_cons]

theorem nodup_ends_add (distinct : (ends routes).Nodup) : (ends (add route routes)).Nodup := by
  rw [ends_add]
  split
  · exact distinct
  · next new =>
    refine List.nodup_append.mpr ⟨distinct, List.pairwise_singleton _ _, ?_⟩
    intro a mem b memB
    rw [List.mem_singleton.mp memB]
    exact fun eq => new (eq ▸ mem)

theorem nodup_ends_addAll (distinct : (ends routes).Nodup) :
    (ends (addAll routes more)).Nodup := by
  induction more generalizing routes with
  | nil => exact distinct
  | cons r more ih => exact ih (nodup_ends_add distinct)

theorem nodup_ends_eliminate (distinct : (ends routes).Nodup) :
    (ends (routes.eliminate stop)).Nodup :=
  nodup_ends_addAll (distinct.sublist (List.filter_sublist.map _))

section Labels

variable {P : Expr → Prop} (stable : Expr.Stable P)

include stable

/-- What the operations keep of expressions holds of all labels after a route is added, if it held
of them and of the label that is added. -/
theorem labels_add (old : ∀ r ∈ routes, P r.label) (new : P route.label) :
    ∀ r ∈ add route routes, P r.label := by
  induction routes with
  | nil =>
    intro r mem
    exact List.mem_singleton.mp mem ▸ new
  | cons first routes ih =>
    obtain ⟨head, tail⟩ := List.forall_mem_cons.mp old
    unfold add
    split
    · exact List.forall_mem_cons.mpr ⟨stable.or head new, tail⟩
    · exact List.forall_mem_cons.mpr ⟨head, ih tail⟩

theorem labels_addAll (old : ∀ r ∈ routes, P r.label) (new : ∀ r ∈ more, P r.label) :
    ∀ r ∈ addAll routes more, P r.label := by
  induction more generalizing routes with
  | nil => exact old
  | cons r more ih =>
    obtain ⟨first, later⟩ := List.forall_mem_cons.mp new
    exact ih (labels_add stable old first) later

/-- Whatever the operations keep of all labels holds of the laps around a place as well. -/
theorem label_loop (all : ∀ r ∈ routes, P r.label) : P (routes.loop stop) := by
  have labelled : ∀ label ∈
      (routes.filter fun r => r.source = stop && r.target = stop).map Route.label, P label := by
    intro label mem
    obtain ⟨r, among, rfl⟩ := List.mem_map.mp mem
    exact all r (List.mem_filter.mp among).1
  unfold loop
  split
  · exact stable.epsilon
  · next label labels eq =>
    obtain ⟨head, tail⟩ := List.forall_mem_cons.mp (eq ▸ labelled)
    clear eq labelled
    refine stable.repeated ?_
    induction labels generalizing label with
    | nil => exact head
    | cons e labels ih =>
      obtain ⟨second, tail⟩ := List.forall_mem_cons.mp tail
      exact ih (label.or e) (stable.or head second) tail

theorem labels_eliminate (all : ∀ r ∈ routes, P r.label) :
    ∀ r ∈ routes.eliminate stop, P r.label := by
  refine labels_addAll stable (fun r mem => all r (List.mem_filter.mp mem).1) fun r mem => ?_
  obtain ⟨before, memBefore, -, after, memAfter, -, rfl⟩ := mem_around.mp mem
  exact stable.followedBy
    (stable.followedBy (all before memBefore) (label_loop stable all)) (all after memAfter)

end Labels

/-- No two edges join the same places, and the labels are simplified trees. -/
structure Proper (routes : Routes) : Prop where
  distinct : (ends routes).Nodup
  built : ∀ r ∈ routes, r.label.Built

theorem Proper.addAll (proper : Proper routes) (built : ∀ r ∈ more, r.label.Built) :
    Proper (addAll routes more) :=
  ⟨nodup_ends_addAll proper.distinct, labels_addAll Expr.stable_built proper.built built⟩

theorem Proper.eliminate (proper : Proper routes) (stop : Stop) :
    Proper (routes.eliminate stop) :=
  ⟨nodup_ends_eliminate proper.distinct, labels_eliminate Expr.stable_built proper.built⟩

theorem built_label? (built : ∀ r ∈ routes, r.label.Built) {e : Expr}
    (h : routes.label? s t = some e) : e.Built := by
  obtain ⟨r, found, rfl⟩ := Option.map_eq_some_iff.mp h
  exact built r (List.mem_of_find?_eq_some found)

theorem mem_ends (step : Steps routes s u t) : (s, t) ∈ ends routes := by
  obtain ⟨r, mem, rfl, rfl, -⟩ := step
  exact List.mem_map_of_mem mem

/-- Between two places there is one edge at most, so its label has all the words. -/
theorem steps_iff_label? (distinct : (ends routes).Nodup) :
    Steps routes s w t ↔ ∃ e, routes.label? s t = some e ∧ e.Denotes w := by
  induction routes with
  | nil =>
    refine ⟨fun h => ?_, fun h => ?_⟩
    · obtain ⟨_, mem, _⟩ := h
      exact absurd mem List.not_mem_nil
    · obtain ⟨_, none, _⟩ := h
      cases none
  | cons r routes ih =>
    obtain ⟨alone, distinct⟩ := List.nodup_cons.mp distinct
    rw [steps_cons, label?, List.find?_cons]
    by_cases here : r.source = s ∧ r.target = t
    · obtain ⟨rfl, rfl⟩ := here
      have none : ¬ Steps routes r.source w r.target := fun step => alone (mem_ends step)
      simp [none]
    · have apart : (decide (r.source = s) && decide (r.target = t)) = false := by
        simpa using here
      rw [apart, ← label?, ← ih distinct]
      exact or_iff_right fun h => here ⟨h.1, h.2.1⟩

/-! ## All eliminations -/

theorem reads_foldl_eliminate {ids : List Nat} :
    Reads (ids.foldl (fun routes id => routes.eliminate (.state id)) routes) .start w .accept ↔
      Reads routes .start w .accept := by
  induction ids generalizing routes with
  | nil => exact Iff.rfl
  | cons id ids ih =>
    rw [List.foldl_cons, ih, reads_eliminate Stop.noConfusion Stop.noConfusion]

theorem Proper.foldl_eliminate (proper : Proper routes) (ids : List Nat) :
    Proper (ids.foldl (fun routes id => routes.eliminate (.state id)) routes) := by
  induction ids generalizing routes with
  | nil => exact proper
  | cons id ids ih => exact ih (proper.eliminate _)

/-- The places that an edge leads from are not eliminated, and an old edge leads from
them; the same holds of the places that an edge leads to. -/
theorem steps_foldl_eliminate {ids : List Nat}
    (step : Steps (ids.foldl (fun routes id => routes.eliminate (.state id)) routes) s u t) :
    (∀ id ∈ ids, s ≠ .state id ∧ t ≠ .state id) ∧
      (∃ v m, Steps routes s v m) ∧ ∃ m v, Steps routes m v t := by
  induction ids generalizing routes with
  | nil => exact ⟨fun _ mem => absurd mem List.not_mem_nil, ⟨u, t, step⟩, s, u, step⟩
  | cons id ids ih =>
    obtain ⟨others, ⟨v, m, leaves⟩, m', v', enters⟩ := ih step
    obtain ⟨source, -, leaves⟩ := steps_eliminate.mp leaves
    obtain ⟨-, target, enters⟩ := steps_eliminate.mp enters
    refine ⟨List.forall_mem_cons.mpr ⟨⟨source, target⟩, others⟩, ?_, ?_⟩
    · rcases leaves with kept | ⟨x, _, _, _, into, _⟩
      · exact ⟨v, m, kept⟩
      · exact ⟨x, _, into⟩
    · rcases enters with kept | ⟨_, _, x, _, _, _, out⟩
      · exact ⟨m', v', kept⟩
      · exact ⟨_, x, out⟩

end Routes

/-! ## The edges of an automaton -/

namespace Automaton

open Routes

variable {A : Automaton} {initial : State} {w : Word} {e : Expr}

theorem proper_routes : Proper (A.routes initial) := by
  have none : Proper [] := ⟨List.Pairwise.nil, fun _ mem => absurd mem List.not_mem_nil⟩
  refine none.addAll fun r mem => ?_
  rcases List.mem_append.mp mem with early | final
  · rcases List.mem_cons.mp early with rfl | mem
    · exact .epsilon
    · obtain ⟨t, -, mem⟩ := List.mem_flatMap.mp mem
      obtain ⟨c, -, rfl⟩ := List.mem_map.mp mem
      exact .literal
  · obtain ⟨p, -, rfl⟩ := List.mem_map.mp final
    exact .epsilon

/-- The edges of an automaton allow its moves, the empty word from the beginning to the initial
state, and the empty word from the final states to the end. -/
theorem steps_routes {s t : Stop} {u : Word} :
    Steps (A.routes initial) s u t ↔
      (s = .start ∧ t = .state initial.id ∧ u = []) ∨
        (∃ p c q, s = .state p ∧ t = .state q ∧ u = [c] ∧ A.Joins p c q) ∨
        ∃ p, s = .state p ∧ t = .accept ∧ u = [] ∧ A.IsFinal p := by
  have none : ¬ Steps [] s u t := fun ⟨_, mem, _⟩ => List.not_mem_nil mem
  rw [routes, steps_addAll, or_iff_right none, steps_append, steps_cons, or_assoc]
  refine or_congr ?_ (or_congr ?_ ?_)
  · rw [Expr.denotes_epsilon, eq_comm (a := Stop.start), eq_comm (b := t)]
  · simp only [Steps, List.mem_flatMap, List.mem_map, Joins]
    refine ⟨fun h => ?_, fun h => ?_⟩
    · obtain ⟨_, ⟨r, mem, c, symbol, rfl⟩, rfl, rfl, denotes⟩ := h
      exact ⟨r.source, c, r.target, rfl, rfl, Expr.denotes_literal.mp denotes, r, mem, rfl,
        symbol, rfl⟩
    · obtain ⟨_, c, _, rfl, rfl, rfl, r, mem, rfl, symbol, rfl⟩ := h
      exact ⟨_, ⟨r, mem, c, symbol, rfl⟩, rfl, rfl, .literal⟩
  · simp only [Steps, List.mem_map, IsFinal, finalStates, List.mem_filter]
    refine ⟨fun h => ?_, fun h => ?_⟩
    · obtain ⟨_, ⟨p, ⟨mem, final⟩, rfl⟩, rfl, rfl, denotes⟩ := h
      exact ⟨p.id, rfl, rfl, Expr.denotes_epsilon.mp denotes, p, mem, rfl, final⟩
    · obtain ⟨_, rfl, rfl, rfl, p, mem, rfl, final⟩ := h
      exact ⟨_, ⟨p, ⟨mem, final⟩, rfl⟩, rfl, rfl, .epsilon⟩

/-- Nothing leads away from the end. -/
theorem reads_accept {t : Stop} (h : Reads (A.routes initial) .accept w t) : w = [] := by
  rcases reads_iff.mp h with ⟨none, -⟩ | ⟨u, v, m, -, step, -⟩
  · exact none
  · rcases steps_routes.mp step with ⟨source, -⟩ | ⟨_, _, _, source, -⟩ | ⟨_, source, -⟩ <;>
      cases source

/-- What is read from a state to the end is what paths from it to a final state read. -/
theorem reads_state {p : Nat} :
    Reads (A.routes initial) (.state p) w .accept ↔ ∃ q, A.Path p w q ∧ A.IsFinal q := by
  refine ⟨fun h => ?_, fun h => ?_⟩
  · generalize here : Stop.state p = s, there : Stop.accept = t at h
    induction h generalizing p with
    | nil => cases here.trans there.symm
    | cons mem denotes rest ih =>
      rcases steps_routes.mp ⟨_, mem, rfl, rfl, denotes⟩ with
        ⟨source, -⟩ | ⟨_, c, q, source, target, rfl, joins⟩ | ⟨_, source, target, rfl, final⟩
      · cases here.trans source
      · cases here.trans source
        obtain ⟨q', path, final⟩ := ih target.symm there
        exact ⟨q', .cons joins path, final⟩
      · cases here.trans source
        rw [target] at rest
        obtain rfl := reads_accept rest
        exact ⟨p, .nil, final⟩
  · obtain ⟨q, path, final⟩ := h
    induction path with
    | nil => exact .step (steps_routes.mpr (Or.inr (Or.inr ⟨_, rfl, rfl, rfl, final⟩))) .nil
    | @cons p q _ c w joins _ ih =>
      exact .step (u := [c])
        (steps_routes.mpr (Or.inr (Or.inl ⟨p, c, q, rfl, rfl, rfl, joins⟩))) (ih final)

/-- What is read from the beginning to the end are the accepted words. -/
theorem reads_routes (h : A.initialState? = some initial) :
    Reads (A.routes initial) .start w .accept ↔ A.accepts w = true := by
  have begins : Reads (A.routes initial) .start w .accept ↔
      Reads (A.routes initial) (.state initial.id) w .accept := by
    refine ⟨fun reads => ?_, fun reads => ?_⟩
    · rcases reads_iff.mp reads with ⟨-, impossible⟩ | ⟨u, v, m, rfl, step, rest⟩
      · cases impossible
      · rcases steps_routes.mp step with
          ⟨-, rfl, rfl⟩ | ⟨_, _, _, source, -⟩ | ⟨_, source, -⟩
        · exact rest
        · cases source
        · cases source
    · exact .step (steps_routes.mpr (Or.inl ⟨rfl, rfl, rfl⟩)) reads
  rw [begins, reads_state, accepts_iff_exists_path]
  have isStart := isStart_of_initialState? h
  refine ⟨fun reads => ?_, fun accepted => ?_⟩
  · obtain ⟨q, path, final⟩ := reads
    exact ⟨_, q, isStart, path, final⟩
  · obtain ⟨p, q, start, path, final⟩ := accepted
    obtain rfl := isStart.unique start
    exact ⟨q, path, final⟩

/-! ## The last edge -/

/-- The edges that are left when all states are eliminated. -/
def reduced (A : Automaton) (initial : State) : Routes :=
  A.allIds.toList.foldl (fun routes id => routes.eliminate (.state id)) (A.routes initial)

theorem mem_allIds {id : Nat} :
    id ∈ A.allIds ↔
      (∃ s ∈ A.states, s.id = id) ∨ ∃ t ∈ A.transitions, t.source = id ∨ t.target = id := by
  simp only [allIds, OrderedSet.mem_ofList, List.mem_append, List.mem_map, List.mem_flatMap,
    List.mem_cons, List.not_mem_nil, or_false, eq_comm (b := id)]

theorem mem_allIds_of_joins {p q : Nat} {c : Char} (h : A.Joins p c q) :
    p ∈ A.allIds ∧ q ∈ A.allIds := by
  obtain ⟨t, mem, source, -, target⟩ := h
  exact ⟨mem_allIds.mpr (Or.inr ⟨t, mem, Or.inl source⟩),
    mem_allIds.mpr (Or.inr ⟨t, mem, Or.inr target⟩)⟩

/-- Only the beginning and the end are left, so an edge leads from one to the other. -/
theorem ends_of_steps_reduced (h : A.initialState? = some initial) {s t : Stop} {u : Word}
    (step : Steps (A.reduced initial) s u t) : s = .start ∧ t = .accept := by
  obtain ⟨others, ⟨v, m, leaves⟩, m', v', enters⟩ := steps_foldl_eliminate step
  have gone {id : Nat} (mem : id ∈ A.allIds) : s ≠ .state id ∧ t ≠ .state id := others id mem
  obtain ⟨⟨first, memFirst, -, isFirst⟩, -⟩ := isStart_of_initialState? h
  refine ⟨?_, ?_⟩
  · rcases steps_routes.mp leaves with ⟨source, -⟩ | ⟨_, _, _, source, -, -, joins⟩ |
      ⟨_, source, -, -, p, mem, id, -⟩
    · exact source
    · exact absurd source (gone (mem_allIds_of_joins joins).1).1
    · exact absurd source (gone (mem_allIds.mpr (Or.inl ⟨p, mem, id⟩))).1
  · rcases steps_routes.mp enters with ⟨-, target, -⟩ | ⟨_, _, _, -, target, -, joins⟩ |
      ⟨_, -, target, -⟩
    · exact absurd target (gone (mem_allIds.mpr (Or.inl ⟨first, memFirst, isFirst⟩))).2
    · exact absurd target (gone (mem_allIds_of_joins joins).2).2
    · exact target

theorem reads_reduced (h : A.initialState? = some initial) :
    Reads (A.reduced initial) .start w .accept ↔ Steps (A.reduced initial) .start w .accept := by
  refine ⟨fun reads => ?_, fun step => ?_⟩
  · rcases reads_iff.mp reads with ⟨-, impossible⟩ | ⟨u, v, m, rfl, step, rest⟩
    · cases impossible
    · obtain ⟨-, rfl⟩ := ends_of_steps_reduced h step
      rcases reads_iff.mp rest with ⟨rfl, -⟩ | ⟨_, _, _, -, further, -⟩
      · rw [List.append_nil]
        exact step
      · cases (ends_of_steps_reduced h further).1
  · exact List.append_nil w ▸ .step step .nil

theorem steps_reduced (h : A.initialState? = some initial) :
    Steps (A.reduced initial) .start w .accept ↔ A.accepts w = true := by
  rw [← reads_reduced h, reduced, reads_foldl_eliminate, reads_routes h]

theorem accepts_iff_label? (h : A.initialState? = some initial) :
    A.accepts w = true ↔
      ∃ e, (A.reduced initial).label? .start .accept = some e ∧ e.Denotes w := by
  rw [← steps_reduced h]
  exact steps_iff_label? (proper_routes.foldl_eliminate _).distinct

/-! ## The expression -/

theorem toExpr_cases :
    (A.initialState? = none ∧ A.toExpr = .error .noInitialState) ∨
      ∃ initial, A.initialState? = some initial ∧
        A.toExpr = ((A.reduced initial).label? .start .accept).elim
          (.error .emptyLanguage) .ok := by
  unfold toExpr
  cases A.initialState? with
  | none => exact Or.inl ⟨rfl, rfl⟩
  | some initial => exact Or.inr ⟨initial, rfl, rfl⟩

theorem label?_of_toExpr (h : A.toExpr = .ok e) :
    ∃ initial, A.initialState? = some initial ∧
      (A.reduced initial).label? .start .accept = some e := by
  rcases toExpr_cases (A := A) with ⟨-, eq⟩ | ⟨initial, some, eq⟩
  · cases h.symm.trans eq
  · refine ⟨initial, some, ?_⟩
    rw [h] at eq
    cases label : (A.reduced initial).label? .start .accept with
    | none => rw [label] at eq; cases eq
    | some f => rw [label] at eq; cases eq; rfl

theorem toExpr_eq_noInitialState :
    A.toExpr = .error .noInitialState ↔ A.initialState? = none := by
  rcases toExpr_cases (A := A) with ⟨none, eq⟩ | ⟨initial, some, eq⟩
  · exact iff_of_true eq none
  · refine iff_of_false (fun h => ?_) (by rw [some]; exact Option.some_ne_none _)
    rw [eq] at h
    cases label : (A.reduced initial).label? .start .accept <;> rw [label] at h <;> cases h

theorem built_of_toExpr (h : A.toExpr = .ok e) : e.Built := by
  obtain ⟨_, -, label⟩ := label?_of_toExpr h
  exact built_label? (proper_routes.foldl_eliminate _).built label

theorem denotes_of_toExpr (h : A.toExpr = .ok e) : e.Denotes w ↔ A.accepts w = true := by
  obtain ⟨_, some, label⟩ := label?_of_toExpr h
  rw [accepts_iff_label? some, label]
  simp only [Option.some.injEq, exists_eq_left']

/-- Without an edge from the beginning to the end no word is accepted; with one,
its label has a word. -/
theorem toExpr_eq_emptyLanguage (h : A.initialState? ≠ none) :
    A.toExpr = .error .emptyLanguage ↔ ∀ w, A.accepts w = false := by
  rcases toExpr_cases (A := A) with ⟨none, -⟩ | ⟨initial, some, eq⟩
  · exact absurd none h
  · cases label : (A.reduced initial).label? .start .accept with
    | none =>
      rw [label] at eq
      refine iff_of_true eq fun w => Bool.eq_false_iff.mpr fun accepted => ?_
      obtain ⟨e, labelled, -⟩ := (accepts_iff_label? some).mp accepted
      cases label.symm.trans labelled
    | some e =>
      rw [label] at eq
      obtain ⟨w, denotes⟩ := (built_of_toExpr eq).exists_denotes
      refine iff_of_false (fun h => ?_) fun never => ?_
      · cases eq.symm.trans h
      · cases ((denotes_of_toExpr eq).mp denotes).symm.trans (never w)

theorem toExpr_eq_error {error : ConversionError} (h : A.toExpr = .error error) :
    error = .noInitialState ∨ error = .emptyLanguage := by
  rcases toExpr_cases (A := A) with ⟨-, eq⟩ | ⟨initial, -, eq⟩
  · cases eq.symm.trans h
    exact Or.inl rfl
  · rw [h] at eq
    cases label : (A.reduced initial).label? .start .accept <;> rw [label] at eq <;> cases eq
    exact Or.inr rfl

end Automaton

end RightLinear
