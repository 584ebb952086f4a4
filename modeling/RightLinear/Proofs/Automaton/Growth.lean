import Mathlib.Algebra.Ring.Nat
import RightLinear.Proofs.Automaton.Label
import RightLinear.Proofs.Expr.Laws
import RightLinear.Proofs.Expr.Size

/-!
# Patterns much longer than automata

Where states lead to all later ones, elimination doubles the label of the way to the next
state each time: what leads there is what led there before, and beside it the same once
more with a further character. The pattern has twice the characters with each state, while
it is hardly nested more deeply.

* `Automaton.forward`: states that lead to all later ones.
* `Automaton.toExpr_forward`: its expression.
* `Expr.weigh_rising`, `Expr.depth_rising_le`: how long the expression is, and how deeply it
  is nested.
-/

namespace RightLinear

/-! ## The expression -/

namespace Expr

/-- A character, and beside what there is so far the same followed by the character, so many
times. -/
def rising (c : Char) : Nat → Expr
  | 0 => literal c
  | n + 1 => (rising c n).or ((rising c n).followedBy (literal c))

variable {c : Char} {e : Expr}

theorem built_rising (c : Char) (n : Nat) : (rising c n).Built := by
  induction n with
  | zero => exact .literal
  | succ n ih => exact .or ih (.followedBy ih .literal)

theorem not_isAlt_followedBy_literal : ¬ (e.followedBy (literal c)).isAlt := by
  unfold followedBy
  cases e.sequenceItems with
  | nil => exact Bool.false_ne_true
  | cons first rest =>
    rw [ofSequence_of_two (by simp [sequenceItems])]
    exact Bool.false_ne_true

/-- What is followed by a character is none of the items that it has. -/
theorem weigh_or_followedBy_literal (simplified : e.Simplified) (weight : Char → Nat) :
    (e.or (e.followedBy (literal c))).weigh weight = 2 * e.weigh weight + weight c := by
  have new : e.followedBy (literal c) ∉ e.alternativeItems := by
    intro mem
    have longer : (e.followedBy (literal c)).weigh (fun _ => 1) ≤
        weighAll (fun _ => 1) e.alternativeItems := weigh_le_of_mem mem
    rw [weigh_followedBy, weighAll_alternativeItems, weigh] at longer
    omega
  have distinct :
      (e.alternativeItems ++ (e.followedBy (literal c)).alternativeItems).Nodup := by
    rw [alternativeItems_eq_self not_isAlt_followedBy_literal, List.nodup_append]
    refine ⟨simplified.branches.distinct, List.nodup_singleton _, fun f mem g only same => ?_⟩
    rw [List.mem_singleton.mp only] at same
    exact new (same ▸ mem)
  rw [weigh_or distinct, weigh_followedBy, weigh]
  omega

/-- The characters double with each step. -/
theorem weigh_rising (c : Char) (n : Nat) (weight : Char → Nat) :
    (rising c n).weigh weight = (2 ^ (n + 1) - 1) * weight c := by
  induction n with
  | zero => exact (Nat.one_mul _).symm
  | succ n ih =>
    have positive : 0 < 2 ^ (n + 1) := Nat.two_pow_pos _
    have double : 2 ^ (n + 1 + 1) - 1 = 2 * (2 ^ (n + 1) - 1) + 1 := by
      rw [Nat.pow_succ 2 (n + 1)]
      omega
    rw [rising, weigh_or_followedBy_literal (built_rising c n).simplified, ih, double,
      Nat.add_mul, Nat.mul_assoc, Nat.one_mul]

theorem depth_rising_le (c : Char) (n : Nat) : (rising c n).depth ≤ 2 * n := by
  induction n with
  | zero => exact Nat.zero_le _
  | succ n ih =>
    have sequence := @depth_followedBy_le (rising c n) (literal c)
    have choice := @depth_or_le (rising c n) ((rising c n).followedBy (literal c))
    have character : (literal c).depth = 0 := rfl
    rw [rising]
    omega

end Expr

/-! ## The automaton -/

namespace Automaton

open Routes

variable {c : Char} {k n : Nat} {routes : Routes} {e : Expr}

/-- States up to `n`, of which each leads to all later ones, from the first to the last. -/
def forward (c : Char) (n : Nat) : Automaton where
  states := (List.range (n + 1)).map fun id => ⟨id, .origin, id = 0, id = n⟩
  transitions := (List.range (n + 1)).flatMap fun q =>
    (List.range q).map fun p => ⟨q * q + p, p, q, .singleton c⟩

theorem joins_forward {p q : Nat} {d : Char} :
    (forward c n).Joins p d q ↔ p < q ∧ q ≤ n ∧ d = c := by
  simp only [Joins, forward, List.mem_flatMap, List.mem_map, List.mem_range]
  refine ⟨fun h => ?_, fun h => ?_⟩
  · obtain ⟨_, ⟨q, inside, p, below, rfl⟩, rfl, symbol, rfl⟩ := h
    exact ⟨below, Nat.le_of_lt_succ inside, OrderedSet.mem_singleton.mp symbol⟩
  · obtain ⟨below, inside, rfl⟩ := h
    exact ⟨_, ⟨q, Nat.lt_succ_of_le inside, p, below, rfl⟩, rfl,
      OrderedSet.mem_singleton.mpr rfl, rfl⟩

theorem isFinal_forward {p : Nat} : (forward c n).IsFinal p ↔ p = n := by
  simp only [IsFinal, forward, List.mem_map, List.mem_range]
  refine ⟨fun h => ?_, fun same => ?_⟩
  · obtain ⟨_, ⟨p, -, rfl⟩, rfl, final⟩ := h
    exact of_decide_eq_true final
  · subst same
    exact ⟨_, ⟨p, Nat.lt_succ_self p, rfl⟩, rfl, decide_eq_true rfl⟩

theorem isStart_forward : (forward c n).IsStart 0 := by
  refine ⟨⟨_, List.mem_map.mpr ⟨0, List.mem_range.mpr (Nat.succ_pos n), rfl⟩, rfl, rfl⟩, ?_⟩
  exact fun _ _ _ => Nat.zero_le _

/-- The ids are those of the states, and no transition joins others. -/
theorem mem_allIds_forward {id : Nat} : id ∈ (forward c n).allIds ↔ id < n + 1 := by
  rw [mem_allIds]
  refine ⟨fun h => ?_, fun inside => ?_⟩
  · rcases h with ⟨_, mem, rfl⟩ | ⟨t, mem, ends⟩
    · obtain ⟨id, inside, rfl⟩ := List.mem_map.mp mem
      exact List.mem_range.mp inside
    · obtain ⟨q, inside, among⟩ := List.mem_flatMap.mp mem
      obtain ⟨p, below, rfl⟩ := List.mem_map.mp among
      rcases ends with rfl | rfl
      · exact Nat.lt_trans (List.mem_range.mp below) (List.mem_range.mp inside)
      · exact List.mem_range.mp inside
  · exact Or.inl ⟨_, List.mem_map.mpr ⟨id, List.mem_range.mpr inside, rfl⟩, rfl⟩

theorem allIds_forward : (forward c n).allIds.toList = List.range (n + 1) := by
  have same : (forward c n).allIds = ⟨List.range (n + 1), List.pairwise_lt_range⟩ :=
    OrderedSet.ext fun id => mem_allIds_forward.trans List.mem_range.symm
  rw [same]

/-! ## Eliminating its states -/

/-- The table without the first `k` states, but for what leads from the beginning of words:
each of the others leads to all later ones, and the last to the end. -/
structure Rest (c : Char) (n k : Nat) (routes : Routes) : Prop where
  distinct : (ends routes).Nodup
  onward : ∀ p q, k ≤ p → p < q → q ≤ n →
    routes.label? (.state p) (.state q) = some (.literal c)
  back : ∀ p q, k ≤ q → q ≤ p → routes.label? (.state p) (.state q) = none
  stay : ∀ p, k ≤ p → p < n → routes.label? (.state p) .accept = none
  leave : routes.label? (.state n) .accept = some .epsilon

/-- Nothing leads back, so an elimination leaves the rest of the table as it is. -/
theorem Rest.eliminate (rest : Rest c n k routes) (inside : k < n) :
    Rest c n (k + 1) (routes.eliminate (.state k)) := by
  have apart : ∀ {p}, k + 1 ≤ p → Stop.state p ≠ .state k := by
    intro p later same
    cases same
    exact Nat.not_succ_le_self k later
  have kept : ∀ {p t}, k + 1 ≤ p → t ≠ .state k →
      (routes.eliminate (.state k)).label? (.state p) t = routes.label? (.state p) t := by
    intro p t later target
    rw [label?_eliminate rest.distinct (apart later) target,
      rest.back p k (Nat.le_refl k) (Nat.le_of_succ_le later), Option.bind_none,
      Option.merge_none_right]
  refine ⟨nodup_ends_eliminate rest.distinct, fun p q later below inside => ?_,
    fun p q later above => ?_, fun p later below => ?_, ?_⟩
  · rw [kept later (apart (Nat.le_trans later (Nat.le_of_lt below)))]
    exact rest.onward p q (Nat.le_of_succ_le later) below inside
  · rw [kept (Nat.le_trans later above) (apart later)]
    exact rest.back p q (Nat.le_of_succ_le later) above
  · rw [kept later Stop.noConfusion]
    exact rest.stay p (Nat.le_of_succ_le later) below
  · rw [kept inside Stop.noConfusion]
    exact rest.leave

theorem Rest.loop_eq (rest : Rest c n k routes) : routes.loop (.state k) = .epsilon := by
  rw [Routes.loop_eq rest.distinct, rest.back k k (Nat.le_refl k) (Nat.le_refl k)]
  rfl

/-- What leads to the eliminated state leads to each later one with a further character. -/
theorem Rest.label?_eliminate_state (rest : Rest c n k routes) (simplified : e.Simplified)
    (entry : routes.label? .start (.state k) = some e) {q : Nat} (later : k < q)
    (inside : q ≤ n) :
    (routes.eliminate (.state k)).label? .start (.state q) =
      Option.merge Expr.or (routes.label? .start (.state q))
        (some (e.followedBy (.literal c))) := by
  have apart : Stop.state q ≠ .state k := fun same =>
    Nat.ne_of_gt later (Stop.state.inj same)
  rw [label?_eliminate rest.distinct Stop.noConfusion apart, entry,
    rest.onward k q (Nat.le_refl k) later inside, Option.bind_some, Option.map_some,
    rest.loop_eq, simplified.followedBy_epsilon]

theorem Rest.label?_eliminate_accept (rest : Rest c n k routes) (inside : k < n)
    (none : routes.label? .start .accept = none) :
    (routes.eliminate (.state k)).label? .start .accept = .none := by
  rw [label?_eliminate rest.distinct Stop.noConfusion Stop.noConfusion, none,
    rest.stay k (Nat.le_refl k) inside]
  exact congrArg (Option.merge Expr.or .none) (Option.bind_fun_none _)

/-! ## The table of its states -/

variable {initial : State}

/-- The edges are those to later states, the one to the first state and the one from the last. -/
theorem mem_plainRoutes_forward {r : Route} :
    r ∈ (forward c n).plainRoutes initial ↔
      r = ⟨.start, .state initial.id, .epsilon⟩ ∨
        (∃ p q, p < q ∧ q ≤ n ∧ r = ⟨.state p, .state q, .literal c⟩) ∨
        r = ⟨.state n, .accept, .epsilon⟩ := by
  simp only [mem_plainRoutes, joins_forward, isFinal_forward, exists_eq_left]
  refine or_congr_right (or_congr_left ⟨fun h => ?_, fun h => ?_⟩)
  · obtain ⟨p, _, q, ⟨below, inside, rfl⟩, eq⟩ := h
    exact ⟨p, q, below, inside, eq⟩
  · obtain ⟨p, q, below, inside, eq⟩ := h
    exact ⟨p, c, q, ⟨below, inside, rfl⟩, eq⟩

/-- Before any elimination each state leads to all later ones, and the last to the end. -/
theorem rest_routes_forward : Rest c n 0 ((forward c n).routes initial) := by
  refine ⟨proper_routes.distinct, fun p q _ below inside => ?_, fun p q _ above => ?_,
    fun p _ below => ?_, ?_⟩
  · refine label?_routes_of_mem (Expr.Simplified.literal.or_of_subset fun _ mem => mem)
      (mem_plainRoutes_forward.mpr (Or.inr (Or.inl ⟨p, q, below, inside, rfl⟩))) fun f mem => ?_
    rcases mem_plainRoutes_forward.mp mem with same | ⟨_, _, _, _, same⟩ | same
    · cases same
    · exact congrArg Route.label same
    · cases same
  · refine label?_routes_of_not_mem fun f mem => ?_
    rcases mem_plainRoutes_forward.mp mem with same | ⟨_, _, below, _, same⟩ | same
    · cases same
    · cases same
      exact Nat.not_lt_of_le above below
    · cases same
  · refine label?_routes_of_not_mem fun f mem => ?_
    rcases mem_plainRoutes_forward.mp mem with same | ⟨_, _, _, _, same⟩ | same
    · cases same
    · cases same
    · cases same
      exact Nat.lt_irrefl _ below
  · refine label?_routes_of_mem (Expr.Simplified.epsilon.or_of_subset fun _ mem => mem)
      (mem_plainRoutes_forward.mpr (Or.inr (Or.inr rfl))) fun f mem => ?_
    rcases mem_plainRoutes_forward.mp mem with same | ⟨_, _, _, _, same⟩ | same
    · cases same
    · cases same
    · exact congrArg Route.label same

theorem label?_routes_first (first : initial.id = 0) :
    ((forward c n).routes initial).label? .start (.state 0) = some .epsilon := by
  refine label?_routes_of_mem (Expr.Simplified.epsilon.or_of_subset fun _ mem => mem)
    (mem_plainRoutes_forward.mpr (Or.inl (by rw [first]))) fun f mem => ?_
  rcases mem_plainRoutes_forward.mp mem with same | ⟨_, _, _, _, same⟩ | same
  · exact congrArg Route.label same
  · cases same
  · cases same

theorem label?_routes_others {t : Stop} (first : initial.id = 0) (other : t ≠ .state 0) :
    ((forward c n).routes initial).label? .start t = none := by
  refine label?_routes_of_not_mem fun f mem => ?_
  rcases mem_plainRoutes_forward.mp mem with same | ⟨_, _, _, _, same⟩ | same
  · rw [first] at same
    exact other (congrArg Route.target same)
  · cases same
  · cases same

/-- After `k` eliminations and one more all later states have the label of `k` steps. -/
theorem labels_forward (first : initial.id = 0) (inside : k < n) :
    let routes := (List.range (k + 1)).foldl (fun routes id => routes.eliminate (.state id))
      ((forward c n).routes initial)
    Rest c n (k + 1) routes ∧
      (∀ q, k < q → q ≤ n → routes.label? .start (.state q) = some (Expr.rising c k)) ∧
      routes.label? .start .accept = none := by
  induction k with
  | zero =>
    have rest : Rest c n 0 ((forward c n).routes initial) := rest_routes_forward
    refine ⟨rest.eliminate inside, fun q later inside => ?_,
      rest.label?_eliminate_accept inside (label?_routes_others first Stop.noConfusion)⟩
    have other : Stop.state q ≠ .state 0 := fun same =>
      Nat.ne_of_gt later (Stop.state.inj same)
    rw [List.range_one, List.foldl_cons, List.foldl_nil,
      rest.label?_eliminate_state .epsilon (label?_routes_first first) later inside,
      label?_routes_others first other]
    rfl
  | succ k ih =>
    obtain ⟨rest, entries, none⟩ := ih (Nat.lt_of_succ_lt inside)
    rw [List.range_succ, List.foldl_append, List.foldl_cons, List.foldl_nil]
    refine ⟨rest.eliminate inside, fun q later inside' => ?_,
      rest.label?_eliminate_accept inside none⟩
    have entry := entries (k + 1) (Nat.lt_succ_self k) (Nat.le_of_lt inside)
    rw [rest.label?_eliminate_state (Expr.built_rising c k).simplified entry later inside',
      entries q (Nat.lt_of_succ_lt later) inside']
    rfl

/-- The last state is reached by the label of as many steps as there are states between. -/
theorem toExpr_forward (c : Char) (n : Nat) :
    (forward c (n + 1)).toExpr = .ok (Expr.rising c n) := by
  rcases toExpr_cases (A := forward c (n + 1)) with ⟨none, -⟩ | ⟨initial, found, eq⟩
  · have start := map_id_initialState?.mpr (isStart_forward (c := c) (n := n + 1))
    rw [none] at start
    cases start
  · have first : initial.id = 0 := (isStart_of_initialState? found).unique isStart_forward
    obtain ⟨rest, entries, none⟩ := @labels_forward c n (n + 1) initial first (Nat.lt_succ_self n)
    have entry := entries (n + 1) (Nat.lt_succ_self n) (Nat.le_refl _)
    have last : ((forward c (n + 1)).reduced initial).label? .start .accept =
        some (Expr.rising c n) := by
      rw [reduced, allIds_forward, List.range_succ, List.foldl_append, List.foldl_cons,
        List.foldl_nil, label?_eliminate rest.distinct Stop.noConfusion Stop.noConfusion, none,
        entry, rest.leave, rest.loop_eq]
      simp only [Option.bind_some, Option.map_some, Option.merge_none_left,
        (Expr.built_rising c n).simplified.followedBy_epsilon]
    rw [eq, last]
    rfl

end Automaton

end RightLinear
