import Mathlib.Order.Lattice.Nat
import RightLinear.Proofs.Conversion.Order

/-!
# Which failure comes first

A grammar that leads to a nonterminal without alternatives and to one that leads to
itself fails in one way or the other, and the order of its alternatives decides in which.
If the first alternatives always stay on the way to a recursion, they come back to a
nonterminal that is being written out. If they come nearer to a nonterminal without
alternatives at every step, none of them comes back before it is met.

* `Grammar.favour`: chosen alternatives in front of the others.
* `Grammar.exists_rearranged_cycle`, `Grammar.exists_rearranged_undefined`: orders in
  which either failure comes first.
* `Grammar.exists_rearranged_of_dangles_of_loops`: what that does to the pattern.
-/

namespace RightLinear

namespace Grammar

variable {G : Grammar} {first : Name → Body} {name n : Name} {p : Production}
  {available : List Production} {body : Body} {bodies : List Body}
  {engine : Pattern.Engine}

/-! ## Chosen alternatives -/

/-- An alternative in front of the others, if it is one of them. -/
def bringFront (body : Body) (bodies : List Body) : List Body :=
  if body ∈ bodies then body :: bodies.erase body else bodies

theorem perm_bringFront : bodies.Perm (bringFront body bodies) := by
  rw [bringFront]
  split
  · next mem => exact List.perm_cons_erase mem
  · exact .refl _

/-- The grammar with one alternative of each nonterminal in front of its others. -/
def favour (G : Grammar) (first : Name → Body) : Grammar where
  start := G.start
  productions := G.productions.map fun p => ⟨p.left, bringFront (first p.left) p.bodies⟩
  nodup := by
    rw [List.map_map]
    exact G.nodup
  bodies_ne_nil := by
    refine List.forall_mem_map.mpr fun p mem none => G.bodies_ne_nil p mem ?_
    exact List.perm_nil.mp (none ▸ perm_bringFront)
  left_ne_nil := List.forall_mem_map.mpr G.left_ne_nil

theorem rearranged_favour : G.Rearranged (G.favour first) where
  start := rfl
  productions :=
    List.forall₂_map_right_iff.mpr (List.forall₂_same.mpr fun _ _ => ⟨rfl, perm_bringFront⟩)

theorem exists_bodies_of_mem_favour (mem : p ∈ (G.favour first).productions)
    (chosen : first p.left ∈ G.bodies p.left) : ∃ others, p.bodies = first p.left :: others := by
  obtain ⟨q, inG, rfl⟩ := List.mem_map.mp mem
  rw [bodies_of_mem inG] at chosen
  exact ⟨_, if_pos chosen⟩

/-! ## A recursion first -/

/-- A nonterminal from which the first alternatives never come to an end. -/
theorem expand_favour_eq_cycle {P : Name → Prop}
    (onward : ∀ n, P n → first n ∈ G.bodies n ∧
      ∃ next, (first n).continuation? = some next ∧ P next)
    (known : ∀ p ∈ available, p ∈ (G.favour first).productions) (here : P name) :
    ∃ m, (G.favour first).expand available name = .error (.cycle m) := by
  fun_induction expand (G.favour first) available name with
  | case1 available name none =>
    have some : G.bodies name ≠ [] := List.ne_nil_of_mem (onward name here).1
    have defined : (G.favour first).defines name = true := by
      refine Bool.of_not_eq_false fun undefined => some ?_
      exact List.perm_nil.mp (bodies_eq_nil_iff.mpr undefined ▸ rearranged_favour.bodies_perm name)
    exact ⟨name, by rw [if_pos defined]⟩
  | case2 available name p rest taken ih =>
    obtain ⟨mem, rfl, others⟩ := takeProduction?_eq_some taken
    obtain ⟨chosen, next, continues, there⟩ := onward p.left here
    obtain ⟨later, eq⟩ := exists_bodies_of_mem_favour (known p mem) chosen
    obtain ⟨m, failed⟩ := ih next (fun q inRest => known q (others q inRest)) there
    refine ⟨m, ?_⟩
    rw [eq, expandBodies_cons_of_error continues failed]
    rfl

/-- Some order of the alternatives leads to a nonterminal that leads to itself first. -/
theorem exists_rearranged_cycle (loops : G.Loops) :
    ∃ H, G.Rearranged H ∧ ∃ n, H.toPattern engine = .error (.cycle n) := by
  obtain ⟨n, leads, recurs⟩ := loops
  have further : ∀ name, ∃ body, (∃ m, G.Leads name m ∧ G.Recurs m) → body ∈ G.bodies name ∧
      ∃ next, body.continuation? = some next ∧ ∃ m, G.Leads next m ∧ G.Recurs m := by
    intro name
    by_cases here : ∃ m, G.Leads name m ∧ G.Recurs m
    · obtain ⟨m, leads, recurs⟩ := here
      have step : ∃ next, G.Continues name next ∧ G.Leads next m := by
        rcases Relation.ReflTransGen.cases_head leads with rfl | step
        · exact Relation.TransGen.head'_iff.mp recurs
        · exact step
      obtain ⟨next, continues, leadsNext⟩ := step
      obtain ⟨body, mem, onward⟩ := continues_iff.mp continues
      exact ⟨body, fun _ => ⟨mem, next, onward, m, leadsNext, recurs⟩⟩
    · exact ⟨.empty, fun found => absurd found here⟩
  choose first onward using further
  have start : ∃ m, G.Leads G.start m ∧ G.Recurs m := ⟨n, leads, recurs⟩
  obtain ⟨m, failed⟩ := expand_favour_eq_cycle onward (fun _ mem => mem) start
  exact ⟨G.favour first, rearranged_favour, m, toPattern_of_error failed⟩

/-! ## A nonterminal without alternatives first -/

/-- A nonterminal without alternatives is a number of steps away. -/
def EndsIn (G : Grammar) : Nat → Name → Prop
  | 0, name => G.bodies name = []
  | steps + 1, name => ∃ next, G.Continues name next ∧ G.EndsIn steps next

theorem exists_endsIn (leads : G.Leads name n) (none : G.bodies n = []) :
    ∃ steps, G.EndsIn steps name := by
  induction leads using Relation.ReflTransGen.head_induction_on with
  | refl => exact ⟨0, none⟩
  | head continues _ ih =>
    obtain ⟨steps, ends⟩ := ih
    exact ⟨steps + 1, _, continues, ends⟩

/-- A nonterminal from which the first alternatives come nearer and nearer to one without
alternatives. What is set aside is farther away. -/
theorem expand_favour_eq_undefined {P : Name → Prop} {distance : Name → Nat}
    (onward : ∀ n, P n → G.bodies n ≠ [] → first n ∈ G.bodies n ∧
      ∃ next, (first n).continuation? = some next ∧ P next ∧ distance next < distance n)
    (known : ∀ p ∈ available, p ∈ (G.favour first).productions)
    (farther : ∀ p ∈ (G.favour first).productions, p ∉ available →
      distance name < distance p.left) (here : P name) :
    ∃ m, (G.favour first).expand available name = .error (.undefinedNonterminal m) := by
  fun_induction expand (G.favour first) available name with
  | case1 available name none =>
    have undefined : (G.favour first).defines name = false := by
      refine Bool.eq_false_iff.mpr fun defined => ?_
      obtain ⟨p, mem, rfl⟩ := defines_iff.mp defined
      refine absurd (farther p mem fun inAvailable => ?_) (Nat.lt_irrefl _)
      exact left_ne_of_takeProduction?_eq_none none p inAvailable rfl
    exact ⟨name, by rw [undefined]; rfl⟩
  | case2 available name p rest taken ih =>
    have split := takeProduction?_perm taken
    obtain ⟨mem, rfl, others⟩ := takeProduction?_eq_some taken
    have some : G.bodies p.left ≠ [] := by
      obtain ⟨q, inG, same⟩ := List.mem_map.mp (known p mem)
      rw [← same, bodies_of_mem inG]
      exact G.bodies_ne_nil q inG
    obtain ⟨chosen, next, continues, there, nearer⟩ := onward p.left here some
    obtain ⟨later, eq⟩ := exists_bodies_of_mem_favour (known p mem) chosen
    have fartherNow : ∀ q ∈ (G.favour first).productions, q ∉ rest →
        distance next < distance q.left := by
      intro q inG gone
      by_cases wasThere : q ∈ available
      · rcases List.mem_cons.mp (split.mem_iff.mp wasThere) with rfl | still
        · exact nearer
        · exact absurd still gone
      · exact Nat.lt_trans nearer (farther q inG wasThere)
    obtain ⟨m, failed⟩ := ih next (fun q inRest => known q (others q inRest)) fartherNow there
    refine ⟨m, ?_⟩
    rw [eq, expandBodies_cons_of_error continues failed]
    rfl

/-- Some order of the alternatives leads to a nonterminal without alternatives first. -/
theorem exists_rearranged_undefined (dangles : G.Dangles) :
    ∃ H, G.Rearranged H ∧ ∃ n, H.toPattern engine = .error (.undefinedNonterminal n) := by
  obtain ⟨n, leads, none⟩ := dangles
  let distance (name : Name) : Nat := sInf {steps | G.EndsIn steps name}
  have nearer : ∀ name, ∃ body, (∃ steps, G.EndsIn steps name) → G.bodies name ≠ [] →
      body ∈ G.bodies name ∧ ∃ next, body.continuation? = some next ∧
        (∃ steps, G.EndsIn steps next) ∧ distance next < distance name := by
    intro name
    by_cases here : (∃ steps, G.EndsIn steps name) ∧ G.bodies name ≠ []
    · obtain ⟨ends, some⟩ := here
      have least : G.EndsIn (distance name) name := Nat.sInf_mem ends
      cases steps : distance name with
      | zero =>
        rw [steps] at least
        exact absurd least some
      | succ steps' =>
        rw [steps] at least
        obtain ⟨next, continues, endsNext⟩ := least
        obtain ⟨body, mem, onward⟩ := continues_iff.mp continues
        have close : distance next ≤ steps' := Nat.sInf_le endsNext
        exact ⟨body, fun _ _ => ⟨mem, next, onward, ⟨steps', endsNext⟩, Nat.lt_succ_of_le close⟩⟩
    · exact ⟨.empty, fun ends some => absurd ⟨ends, some⟩ here⟩
  choose first onward using nearer
  have start : ∃ steps, G.EndsIn steps G.start := exists_endsIn leads none
  obtain ⟨m, failed⟩ := expand_favour_eq_undefined onward (fun _ mem => mem)
    (fun _ mem gone => absurd mem gone) start
  exact ⟨G.favour first, rearranged_favour, m, toPattern_of_error failed⟩

/-- With both failures in reach, one order of the alternatives refuses the grammar and
another one goes on to the pattern of its automaton. -/
theorem exists_rearranged_of_dangles_of_loops (dangles : G.Dangles) (loops : G.Loops) :
    (∃ H, G.Rearranged H ∧ ∃ n, H.toPatternOrClosure engine = .error (.undefinedNonterminal n)) ∧
      ∃ H, G.Rearranged H ∧ H.toPatternOrClosure engine = H.toClosure engine := by
  constructor
  · obtain ⟨H, rearranged, n, failed⟩ := exists_rearranged_undefined dangles
    exact ⟨H, rearranged, n, by rw [toPatternOrClosure, failed]⟩
  · obtain ⟨H, rearranged, n, failed⟩ := exists_rearranged_cycle loops
    exact ⟨H, rearranged, toPatternOrClosure_of_cycle failed⟩

end Grammar

end RightLinear
