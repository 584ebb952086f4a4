import RightLinear.Grammar.Derivation
import RightLinear.Grammar.Membership

/-!
# The search for a derivation decides derivability

The search turns back at a goal it has come to before, also when it is still busy
with that goal. So that a goal was given up says nothing on its own account, and
completeness is a statement about the whole of a failed search: what it explored
is closed under the alternatives (`Grammar.Closed`), and no derivation leads out
of a closed set.

* `eq_of_suffix_of_byteLength_eq`: the number of bytes left tells what is left.
* `Grammar.succeeds_of_search`: a search that succeeds has a goal that succeeds.
* `Grammar.exists_closed_of_search_eq_false`, `Grammar.Closed.not_mem_of_derives`:
  a search that fails has none.
* `Grammar.search_start_iff`: the search from one nonterminal.
-/

namespace RightLinear

/-! ## Ends of a word -/

theorem byteLength_append (u v : Word) : byteLength (u ++ v) = byteLength u + byteLength v := by
  induction u with
  | nil => rw [List.nil_append, byteLength, Nat.zero_add]
  | cons c u ih => rw [List.cons_append, byteLength, ih, byteLength, Nat.add_assoc]

theorem eq_nil_of_byteLength_eq_zero {u : Word} (h : byteLength u = 0) : u = [] := by
  cases u with
  | nil => rfl
  | cons c u =>
    have positive := Char.utf8Size_pos c
    rw [byteLength] at h
    omega

theorem eq_of_suffix_of_byteLength_eq {u v w : Word} (left : u <:+ w) (right : v <:+ w)
    (same : byteLength u = byteLength v) : u = v := by
  rcases List.suffix_or_suffix_of_suffix left right with ⟨before, rfl⟩ | ⟨before, rfl⟩
  all_goals
    rw [byteLength_append] at same
    have none : before = [] := eq_nil_of_byteLength_eq_zero (by omega)
    rw [none, List.nil_append]

namespace Goal

variable {w : Word}

/-- What is left is derived by the nonterminal, or nothing is left if there is no
nonterminal. -/
def Succeeds (G : Grammar) (goal : Goal w) : Prop := G.DerivesFrom goal.name? goal.rest

/-- A goal is left behind a text if what is still to be derived begins with the text. -/
theorem after?_eq_some {goal after : Goal w} {text : Word} {name? : Option Name} :
    goal.after? text name? = some after ↔ goal.rest = text ++ after.rest ∧ after.name? = name? := by
  obtain ⟨rest, next?, suffix⟩ := after
  unfold after?
  split
  · next begins =>
    obtain ⟨tail, split⟩ := begins
    rw [Option.some.injEq, Goal.mk.injEq, ← split, List.drop_left, List.append_cancel_left_eq]
    exact and_congr_right fun _ => eq_comm
  · next begins =>
    refine ⟨fun h => (Option.some_ne_none _ h.symm).elim, fun h => ?_⟩
    exact (begins ⟨rest, h.1.symm⟩).elim

theorem mem_next {goal after : Goal w} {bodies : List Body} :
    after ∈ goal.next bodies ↔
      ∃ body ∈ bodies, goal.rest = body.text ++ after.rest ∧ after.name? = body.continuation? := by
  simp only [next, List.mem_filterMap, after?_eq_some]

end Goal

namespace Grammar

variable {G : Grammar} {w : Word}

/-- A name derives what is left if one of the goals after its alternatives succeeds. -/
theorem derives_iff_exists_next {rest : Word} {name : Name} {suffix : rest <:+ w} :
    G.Derives name rest ↔
      ∃ goal ∈ Goal.next ⟨rest, some name, suffix⟩ (G.bodies name), goal.Succeeds G := by
  rw [derives_iff_exists_body]
  refine ⟨fun h => ?_, fun h => ?_⟩
  · obtain ⟨body, mem, tail, rfl, derives⟩ := h
    have shorter : tail <:+ w := (List.suffix_append body.text tail).trans suffix
    exact ⟨⟨tail, body.continuation?, shorter⟩, Goal.mem_next.mpr ⟨body, mem, rfl, rfl⟩, derives⟩
  · obtain ⟨⟨tail, next?, shorter⟩, leads, derives⟩ := h
    obtain ⟨body, mem, split, continues⟩ := Goal.mem_next.mp leads
    dsimp only at split continues
    subst continues
    exact ⟨body, mem, tail, split, derives⟩

/-! ## Soundness -/

/-- A search that succeeds has come to a goal that does. The induction follows the search. -/
theorem succeeds_of_search {explored : Explored} {pending : List (Goal w)}
    (found : G.search w explored pending = true) : ∃ goal ∈ pending, goal.Succeeds G := by
  fun_induction search G w explored pending with
  | case1 => cases found
  | case2 explored rest suffix pending ih =>
    rcases Bool.or_eq_true_iff.mp found with nothing | later
    · exact ⟨_, List.mem_cons_self, List.isEmpty_iff.mp nothing⟩
    · obtain ⟨goal, mem, succeeds⟩ := ih later
      exact ⟨goal, List.mem_cons_of_mem _ mem, succeeds⟩
  | case3 explored rest name suffix pending seen ih =>
    obtain ⟨goal, mem, succeeds⟩ := ih found
    exact ⟨goal, List.mem_cons_of_mem _ mem, succeeds⟩
  | case4 explored rest name suffix pending fresh ih =>
    obtain ⟨goal, mem, succeeds⟩ := ih found
    rcases List.mem_append.mp mem with ahead | later
    · exact ⟨_, List.mem_cons_self, derives_iff_exists_next.mpr ⟨goal, ahead, succeeds⟩⟩
    · exact ⟨goal, List.mem_cons_of_mem _ later, succeeds⟩

/-! ## Completeness -/

/-- A goal needs no more search: it is explored, or it is missed. -/
def Settled (explored : Explored) : Goal w → Prop
  | ⟨rest, none, _⟩ => rest ≠ []
  | ⟨rest, some name, _⟩ => (byteLength rest, name) ∈ explored

/-- Whatever an explored goal leads to is settled or on the stack. -/
def Closed (G : Grammar) (explored : Explored) (pending : List (Goal w)) : Prop :=
  ∀ rest name (suffix : rest <:+ w), (byteLength rest, name) ∈ explored →
    ∀ goal ∈ Goal.next ⟨rest, some name, suffix⟩ (G.bodies name),
      Settled explored goal ∨ goal ∈ pending

theorem Settled.cons {explored : Explored} {key : Nat × Name} {goal : Goal w}
    (h : Settled explored goal) : Settled (key :: explored) goal := by
  obtain ⟨rest, _ | name, suffix⟩ := goal
  · exact h
  · exact List.mem_cons_of_mem _ h

theorem Settled.or_mem_of_or_mem_cons {explored : Explored} {goal other : Goal w}
    {pending : List (Goal w)} (settled : Settled explored goal)
    (h : Settled explored other ∨ other ∈ goal :: pending) :
    Settled explored other ∨ other ∈ pending := by
  rcases h with done | onStack
  · exact Or.inl done
  · rcases List.mem_cons.mp onStack with rfl | later
    · exact Or.inl settled
    · exact Or.inr later

/-- A settled goal can leave the stack. -/
theorem Closed.pop {explored : Explored} {goal : Goal w} {pending : List (Goal w)}
    (closed : Closed G explored (goal :: pending)) (settled : Settled explored goal) :
    Closed G explored pending := fun rest name suffix mem after leads =>
  settled.or_mem_of_or_mem_cons (closed rest name suffix mem after leads)

/-- A goal whose alternatives take its place on the stack becomes explored. -/
theorem Closed.push {explored : Explored} {rest : Word} {name : Name} {suffix : rest <:+ w}
    {pending : List (Goal w)}
    (closed : Closed G explored (⟨rest, some name, suffix⟩ :: pending)) :
    Closed G ((byteLength rest, name) :: explored)
      (Goal.next ⟨rest, some name, suffix⟩ (G.bodies name) ++ pending) := by
  intro other name' suffix' mem after leads
  rcases List.mem_cons.mp mem with same | before
  · obtain ⟨bytes, rfl⟩ := Prod.mk.inj same
    obtain rfl := eq_of_suffix_of_byteLength_eq suffix' suffix bytes
    exact Or.inr (List.mem_append_left _ leads)
  · rcases closed other name' suffix' before after leads with done | onStack
    · exact Or.inl done.cons
    · rcases List.mem_cons.mp onStack with rfl | later
      · exact Or.inl List.mem_cons_self
      · exact Or.inr (List.mem_append_right _ later)

/-- A search that fails has explored a closed set in which all goals of its stack
are settled. -/
theorem exists_closed_of_search_eq_false {explored : Explored} {pending : List (Goal w)}
    (closed : Closed G explored pending) (failed : G.search w explored pending = false) :
    ∃ final, Closed G final ([] : List (Goal w)) ∧
      ∀ goal : Goal w, Settled explored goal ∨ goal ∈ pending → Settled final goal := by
  fun_induction search G w explored pending with
  | case1 explored =>
    exact ⟨explored, closed, fun goal h => h.resolve_right List.not_mem_nil⟩
  | case2 explored rest suffix pending ih =>
    obtain ⟨nonempty, later⟩ := Bool.or_eq_false_iff.mp failed
    have missed : Settled explored ⟨rest, none, suffix⟩ := by
      intro same
      subst same
      cases nonempty
    obtain ⟨final, finalClosed, settles⟩ := ih (closed.pop missed) later
    exact ⟨final, finalClosed, fun goal h => settles goal (missed.or_mem_of_or_mem_cons h)⟩
  | case3 explored rest name suffix pending seen ih =>
    have settled : Settled explored ⟨rest, some name, suffix⟩ := seen
    obtain ⟨final, finalClosed, settles⟩ := ih (closed.pop settled) failed
    exact ⟨final, finalClosed, fun goal h => settles goal (settled.or_mem_of_or_mem_cons h)⟩
  | case4 explored rest name suffix pending fresh ih =>
    obtain ⟨final, finalClosed, settles⟩ := ih closed.push failed
    refine ⟨final, finalClosed, fun goal h => settles goal ?_⟩
    rcases h with done | onStack
    · exact Or.inl done.cons
    · rcases List.mem_cons.mp onStack with rfl | later
      · exact Or.inl List.mem_cons_self
      · exact Or.inr (List.mem_append_right _ later)

/-- No derivation begins at a goal of a closed set: it would have to leave the
set, by its last alternative at the latest. -/
theorem Closed.not_mem_of_derives {explored : Explored}
    (closed : Closed G explored ([] : List (Goal w))) {name : Name} {rest : Word}
    (derives : G.Derives name rest) : rest <:+ w → (byteLength rest, name) ∉ explored := by
  have settled : ∀ {rest name suffix}, (byteLength rest, name) ∈ explored →
      ∀ goal ∈ Goal.next (w := w) ⟨rest, some name, suffix⟩ (G.bodies name),
        Settled explored goal := fun seen goal leads =>
    (closed _ _ _ seen goal leads).resolve_right List.not_mem_nil
  induction derives with
  | @empty name mem =>
    intro suffix seen
    have leads : (⟨[], none, List.nil_suffix⟩ : Goal w) ∈
        Goal.next ⟨[], some name, suffix⟩ (G.bodies name) :=
      Goal.mem_next.mpr ⟨_, mem, rfl, rfl⟩
    exact settled seen _ leads rfl
  | @terminal name text mem =>
    intro suffix seen
    have leads : (⟨[], none, List.nil_suffix⟩ : Goal w) ∈
        Goal.next ⟨text, some name, suffix⟩ (G.bodies name) :=
      Goal.mem_next.mpr ⟨_, mem, (List.append_nil text).symm, rfl⟩
    exact settled seen _ leads rfl
  | @continued name next text rest mem _ ih =>
    intro suffix seen
    have shorter : rest <:+ w := (List.suffix_append text rest).trans suffix
    have leads : (⟨rest, some next, shorter⟩ : Goal w) ∈
        Goal.next ⟨text ++ rest, some name, suffix⟩ (G.bodies name) :=
      Goal.mem_next.mpr ⟨_, mem, rfl, rfl⟩
    exact ih shorter (settled seen _ leads)

/-! ## The verdict -/

/-- A search from the first goal finds out whether the word is derived. When it fails, what has
been explored is closed, and a derivation cannot leave it. -/
theorem search_start_iff {name : Name} :
    G.search w [] [⟨w, some name, List.suffix_refl w⟩] = true ↔ G.Derives name w := by
  refine ⟨fun found => ?_, fun derives => ?_⟩
  · obtain ⟨goal, mem, succeeds⟩ := succeeds_of_search found
    obtain rfl := List.mem_singleton.mp mem
    exact succeeds
  · refine Bool.of_not_eq_false fun failed => ?_
    have nothing : Closed G ([] : Explored) [⟨w, some name, List.suffix_refl w⟩] :=
      fun _ _ _ mem => absurd mem List.not_mem_nil
    obtain ⟨final, closed, settles⟩ :=
      exists_closed_of_search_eq_false nothing failed
    exact closed.not_mem_of_derives derives (List.suffix_refl w)
      (settles _ (Or.inr List.mem_cons_self))

theorem accepts_of_lower (lower : w.any Text.isUppercase = false) :
    G.accepts w = true ↔ G.Derives G.start w := by
  rw [accepts, lower, Bool.not_false, Bool.true_and, search_start_iff]

theorem accepts_of_uppercase (upper : w.any Text.isUppercase = true) : G.accepts w = false := by
  rw [accepts, upper]
  rfl

/-- The recogniser accepts the words without an uppercase character that the start
symbol derives. -/
theorem accepts_iff_derives (G : Grammar) (w : Word) :
    G.accepts w = true ↔ w.any Text.isUppercase = false ∧ G.Derives G.start w := by
  rw [accepts, Bool.and_eq_true, search_start_iff, Bool.not_eq_true']

end Grammar

end RightLinear
