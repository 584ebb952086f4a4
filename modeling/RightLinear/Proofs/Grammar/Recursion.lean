import Mathlib.Logic.Relation
import RightLinear.Proofs.Expr.Size
import RightLinear.Proofs.Grammar.Expansion

/-!
# Which grammars can be written out

Every nonterminal on the way to the one that is written out leads to it, and these are
the nonterminals whose productions are set aside. So a production that is missing where
it is needed belongs to a nonterminal that leads to itself, or to none at all. The
alternatives beside the way do not show: what they set aside is set aside for them alone,
and a nonterminal that two alternatives share is no recursion.

* `Grammar.Leads`, `Grammar.Recurs`: where alternatives continue to, and back.
* `Grammar.expand_eq_error`: what a failure says.
* `Grammar.not_recurs_of_expand`: what a text says.
* `Grammar.toPattern_classified`: which grammars have a pattern, and how the others fail.
* `Grammar.toPattern_of_long`: a grammar without recursion whose text is too long.
-/

namespace RightLinear

namespace Grammar

variable {G : Grammar} {name next n : Name} {p q : Production}
  {available rest : List Production} {text : List Char} {texts : List (List Char)}
  {body : Body} {bodies : List Body} {error : ConversionError}
  {write : Name → Except ConversionError (List Char)}

/-- Alternatives continue from one nonterminal to another, in any number of steps. -/
abbrev Leads (G : Grammar) : Name → Name → Prop := Relation.ReflTransGen G.Continues

/-- Alternatives continue from a nonterminal back to it, in one step or more. -/
def Recurs (G : Grammar) (name : Name) : Prop := Relation.TransGen G.Continues name name

theorem continues_iff :
    G.Continues name next ↔ ∃ body ∈ G.bodies name, body.continuation? = some next := by
  refine ⟨fun h => ?_, fun h => ?_⟩
  · obtain ⟨text, mem⟩ := h
    exact ⟨_, mem, rfl⟩
  · obtain ⟨body, mem, same⟩ := h
    cases body with
    | empty => cases same
    | terminal text => cases same
    | continued text other =>
      cases same
      exact ⟨text, mem⟩

/-! ## Productions that are set aside -/

/-- Only the production that is taken is set aside. -/
theorem takeProduction?_perm (taken : takeProduction? name available = some (p, rest)) :
    available.Perm (p :: rest) := by
  induction available generalizing rest with
  | nil => cases taken
  | cons q available ih =>
    unfold takeProduction? at taken
    split at taken
    · cases taken
      exact .refl _
    · obtain ⟨found, eq, same⟩ := Option.map_eq_some_iff.mp taken
      cases same
      exact ((ih eq).cons q).trans (.swap _ _ _)

theorem left_ne_of_takeProduction?_eq_none (none : takeProduction? name available = none) :
    ∀ p ∈ available, p.left ≠ name := by
  induction available with
  | nil => exact fun p mem => absurd mem List.not_mem_nil
  | cons q available ih =>
    unfold takeProduction? at none
    split at none
    · cases none
    · next other => exact List.forall_mem_cons.mpr ⟨other, ih (Option.map_eq_none_iff.mp none)⟩

theorem defines_iff : G.defines name = true ↔ ∃ p ∈ G.productions, p.left = name := by
  rw [defines, production?, List.find?_isSome]
  simp

theorem bodies_eq_nil_iff : G.bodies name = [] ↔ G.defines name = false := by
  rw [defines, Grammar.bodies]
  cases found : G.production? name with
  | none => exact iff_of_true rfl rfl
  | some p =>
    refine iff_of_false (G.bodies_ne_nil p (List.mem_of_find?_eq_some found)) fun undefined => ?_
    cases undefined

/-! ## Alternatives -/

/-- Alternatives fail with the first of them that does. -/
theorem expandBodies_cons_eq_error (h : expandBodies write (body :: bodies) = .error error) :
    (∃ next, body.continuation? = some next ∧ write next = .error error) ∨
      expandBodies write bodies = .error error := by
  rw [expandBodies] at h
  have later : ∀ {tail : List Char},
      (do return (Pattern.escape body.text ++ tail) :: (← expandBodies write bodies)) =
        Except.error error → expandBodies write bodies = .error error := by
    intro tail failed
    cases others : expandBodies write bodies with
    | error _ =>
      rw [others] at failed
      cases failed
      rfl
    | ok _ => rw [others] at failed; cases failed
  cases next : body.continuation? with
  | none =>
    rw [next] at h
    exact Or.inr (later h)
  | some next' =>
    rw [next] at h
    dsimp only at h
    cases tail : write next' with
    | error _ =>
      rw [tail] at h
      cases h
      exact Or.inl ⟨next', rfl, tail⟩
    | ok tail' =>
      rw [tail] at h
      exact Or.inr (later h)

theorem expandBodies_cons_of_error (onward : body.continuation? = some next)
    (failed : write next = .error error) :
    expandBodies write (body :: bodies) = .error error := by
  rw [expandBodies, onward]
  dsimp only
  rw [failed]
  rfl

/-- A failure of alternatives is that of a nonterminal that one of them continues with. -/
theorem expandBodies_eq_error (h : expandBodies write bodies = .error error) :
    ∃ body ∈ bodies, ∃ next, body.continuation? = some next ∧ write next = .error error := by
  induction bodies with
  | nil => cases h
  | cons body bodies ih =>
    rcases expandBodies_cons_eq_error h with ⟨next, same, failed⟩ | later
    · exact ⟨body, List.mem_cons_self, next, same, failed⟩
    · obtain ⟨other, mem, found⟩ := ih later
      exact ⟨other, List.mem_cons_of_mem _ mem, found⟩

theorem exists_write_of_expandBodies (h : expandBodies write bodies = .ok texts) :
    ∀ body ∈ bodies, ∀ next, body.continuation? = some next → ∃ tail, write next = .ok tail := by
  induction bodies generalizing texts with
  | nil => exact fun body mem => absurd mem List.not_mem_nil
  | cons body bodies ih =>
    obtain ⟨tail, others, follows, more, -⟩ := expandBodies_cons h
    refine List.forall_mem_cons.mpr ⟨fun next same => ⟨tail, ?_⟩, ih more⟩
    rw [same] at follows
    exact follows

/-! ## Failures -/

/-- A failure names a nonterminal on the way that has no alternatives or leads to itself.
The productions that are set aside are those of nonterminals that lead here. -/
theorem expand_eq_error (known : ∀ p ∈ available, p ∈ G.productions)
    (aside : ∀ p ∈ G.productions, p ∉ available → Relation.TransGen G.Continues p.left name)
    (h : G.expand available name = .error error) :
    (∃ n, error = .undefinedNonterminal n ∧ G.Leads name n ∧ G.bodies n = []) ∨
      ∃ n, error = .cycle n ∧ G.Leads name n ∧ G.Recurs n := by
  fun_induction expand G available name with
  | case1 available name none =>
    cases h
    cases defined : G.defines name with
    | false => exact Or.inl ⟨name, rfl, .refl, bodies_eq_nil_iff.mpr defined⟩
    | true =>
      obtain ⟨p, mem, rfl⟩ := defines_iff.mp defined
      refine Or.inr ⟨p.left, rfl, .refl, aside p mem fun here => ?_⟩
      exact left_ne_of_takeProduction?_eq_none none p here rfl
  | case2 available name p rest taken ih =>
    have split := takeProduction?_perm taken
    obtain ⟨mem, rfl, others⟩ := takeProduction?_eq_some taken
    cases expanded : expandBodies (fun next => G.expand rest next) p.bodies with
    | ok texts => rw [expanded] at h; cases h
    | error failed =>
      rw [expanded] at h
      cases h
      obtain ⟨body, inBodies, next, same, failed⟩ := expandBodies_eq_error expanded
      have onward : G.Continues p.left next :=
        continues_iff.mpr ⟨body, bodies_of_mem (known p mem) ▸ inBodies, same⟩
      have asideNow : ∀ q ∈ G.productions, q ∉ rest →
          Relation.TransGen G.Continues q.left next := by
        intro q inG gone
        by_cases wasThere : q ∈ available
        · rcases List.mem_cons.mp (split.mem_iff.mp wasThere) with rfl | still
          · exact .single onward
          · exact absurd still gone
        · exact (aside q inG wasThere).tail onward
      refine (ih next (fun q later => known q (others q later)) asideNow failed).imp ?_ ?_
      · intro found
        obtain ⟨n, same, leads, undefined⟩ := found
        exact ⟨n, same, .head onward leads, undefined⟩
      · intro found
        obtain ⟨n, same, leads, recurs⟩ := found
        exact ⟨n, same, .head onward leads, recurs⟩

/-! ## Texts -/

/-- A nonterminal that is written out leads only to nonterminals that have a production
and do not lead to themselves. -/
theorem not_recurs_of_expand (known : ∀ p ∈ available, p ∈ G.productions)
    (distinct : (available.map Production.left).Nodup)
    (h : G.expand available name = .ok text) (leads : G.Leads name n) :
    n ∈ available.map Production.left ∧ ¬ G.Recurs n := by
  fun_induction expand G available name generalizing text n with
  | case1 => cases h
  | case2 available name p rest taken ih =>
    have split := takeProduction?_perm taken
    obtain ⟨mem, rfl, others⟩ := takeProduction?_eq_some taken
    obtain ⟨gone, distinctRest⟩ :=
      List.nodup_cons.mp ((split.map Production.left).nodup_iff.mp distinct)
    have onward : ∀ {next m}, G.Continues p.left next → G.Leads next m →
        m ∈ rest.map Production.left ∧ ¬ G.Recurs m := by
      intro next m continues leads
      obtain ⟨body, inBodies, same⟩ := continues_iff.mp continues
      rw [bodies_of_mem (known p mem)] at inBodies
      cases expanded : expandBodies (fun next => G.expand rest next) p.bodies with
      | error _ => rw [expanded] at h; cases h
      | ok texts =>
        obtain ⟨tail, written⟩ := exists_write_of_expandBodies expanded body inBodies next same
        exact ih next (fun q later => known q (others q later)) distinctRest written leads
    rcases Relation.ReflTransGen.cases_head leads with rfl | ⟨next, continues, further⟩
    · refine ⟨List.mem_map_of_mem mem, fun recurs => ?_⟩
      obtain ⟨next, continues, back⟩ := Relation.TransGen.head'_iff.mp recurs
      exact gone (onward continues back).1
    · obtain ⟨inRest, straight⟩ := onward continues further
      obtain ⟨q, later, rfl⟩ := List.mem_map.mp inRest
      exact ⟨List.mem_map_of_mem (others q later), straight⟩

/-! ## The pattern -/

/-- In a grammar that can be written out the start symbol leads only to nonterminals that
have alternatives and do not lead to themselves. -/
theorem straight_of_expand (h : G.expand G.productions G.start = .ok text) :
    ∀ n, G.Leads G.start n → G.bodies n ≠ [] ∧ ¬ G.Recurs n := by
  intro n leads
  obtain ⟨inG, straight⟩ := not_recurs_of_expand (fun _ mem => mem) G.nodup h leads
  refine ⟨fun none => ?_, straight⟩
  obtain ⟨p, mem, rfl⟩ := List.mem_map.mp inG
  rw [bodies_of_mem mem] at none
  exact G.bodies_ne_nil p mem none

/-- A grammar is written out, or it fails for a nonterminal. -/
theorem expand_cases (engine : Pattern.Engine) (G : Grammar) :
    (∃ n, G.toPattern engine = .error (.undefinedNonterminal n) ∧
      G.Leads G.start n ∧ G.bodies n = []) ∨
    (∃ n, G.toPattern engine = .error (.cycle n) ∧ G.Leads G.start n ∧ G.Recurs n) ∨
    (∀ n, G.Leads G.start n → G.bodies n ≠ [] ∧ ¬ G.Recurs n) ∧
      ∃ text p, G.expand G.productions G.start = .ok text ∧ Pattern.parse? text = some p ∧
        G.toPattern engine = Pattern.checked engine text := by
  cases expanded : G.expand G.productions G.start with
  | error error =>
    have failed := @toPattern_of_error G _ engine expanded
    rcases expand_eq_error (fun _ mem => mem) (fun _ mem gone => absurd mem gone) expanded with
      ⟨n, rfl, found⟩ | ⟨n, rfl, found⟩
    · exact Or.inl ⟨n, failed, found⟩
    · exact Or.inr (Or.inl ⟨n, failed, found⟩)
  | ok text =>
    obtain ⟨p, parsed, -⟩ := parse?_expand expanded
    exact Or.inr (Or.inr
      ⟨straight_of_expand expanded, text, p, rfl, parsed, toPattern_of_ok expanded⟩)

/-- A grammar has no pattern if a nonterminal that the start symbol leads to has no
alternatives or leads to itself, and then the failure names such a nonterminal. Any other
grammar has one, unless it is nested too deeply or takes more space than the engine has for a
pattern, alone or between the marks. -/
theorem toPattern_classified (engine : Pattern.Engine) (G : Grammar) :
    ((∃ n, G.Leads G.start n ∧ (G.bodies n = [] ∨ G.Recurs n)) →
      ∃ n, G.toPattern engine = .error (.undefinedNonterminal n) ∨
        G.toPattern engine = .error (.cycle n)) ∧
    (∀ n, G.toPattern engine = .error (.undefinedNonterminal n) →
      G.Leads G.start n ∧ G.bodies n = []) ∧
    (∀ n, G.toPattern engine = .error (.cycle n) → G.Leads G.start n ∧ G.Recurs n) ∧
    ((∀ n, G.Leads G.start n → G.bodies n ≠ [] ∧ ¬ G.Recurs n) →
      ∃ text p, G.expand G.productions G.start = .ok text ∧ Pattern.parse? text = some p ∧
        (G.toPattern engine = .ok text ↔ p.height ≤ 248 ∧ engine.Fits text) ∧
        ((∃ message, G.toPattern engine = .error (.invalidPattern message)) ↔
          248 < p.height ∨ ¬ engine.Fits text)) := by
  rcases expand_cases engine G with ⟨n, failed, leads, none⟩ | ⟨n, failed, leads, recurs⟩ |
    ⟨straight, text, p, expanded, parsed, written⟩
  · refine ⟨fun _ => ⟨n, Or.inl failed⟩, fun m h => ?_, fun m h => ?_, fun all => ?_⟩
    · cases failed.symm.trans h
      exact ⟨leads, none⟩
    · cases failed.symm.trans h
    · exact absurd none (all n leads).1
  · refine ⟨fun _ => ⟨n, Or.inr failed⟩, fun m h => ?_, fun m h => ?_, fun all => ?_⟩
    · cases failed.symm.trans h
    · cases failed.symm.trans h
      exact ⟨leads, recurs⟩
    · exact absurd recurs (all n leads).2
  · have refused : ∀ {error}, G.toPattern engine = .error error →
        ∃ message, error = .invalidPattern message := by
      intro error h
      obtain ⟨refusal, -, same⟩ := Pattern.checked_eq_error (written.symm.trans h)
      exact ⟨_, same⟩
    refine ⟨fun h => ?_, fun m h => ?_, fun m h => ?_, fun _ => ?_⟩
    · obtain ⟨n, leads, none | recurs⟩ := h
      · exact absurd none (straight n leads).1
      · exact absurd recurs (straight n leads).2
    · obtain ⟨_, other⟩ := refused h
      cases other
    · obtain ⟨_, other⟩ := refused h
      cases other
    · refine ⟨text, p, expanded, parsed, ?_, ?_⟩
      · rw [written, Pattern.checked_eq_ok parsed]
        exact and_iff_right rfl
      · rw [written]
        exact Pattern.exists_checked_eq_error_iff parsed

/-- The text of a grammar with one rule is that of its terminal. -/
theorem expand_single (text : List Char) :
    let G := ofRules ['S'] [(['S'], .terminal text)]
    G.expand G.productions G.start = .ok (Pattern.escape text) := by
  intro G
  have taken : takeProduction? G.start G.productions =
      some (⟨['S'], [.terminal text]⟩, []) := rfl
  rw [expand, taken]
  exact congrArg Except.ok (List.append_nil _)

/-- A single terminal of so many characters is no recursion and not nested, but the engine
does not have the space for it. -/
theorem toPattern_of_long :
    let G := ofRules ['S'] [(['S'], .terminal (List.replicate 100000 '𝑎'))]
    (∀ n, G.Leads G.start n → G.bodies n ≠ [] ∧ ¬ G.Recurs n) ∧
    G.toPattern .counting =
      .error (.invalidPattern "Compiled regex exceeds size limit of 10485760 bytes.") ∧
    ∃ text p, G.expand G.productions G.start = .ok text ∧ Pattern.parse? text = some p ∧
      p.height ≤ 248 := by
  intro G
  have expanded := expand_single (List.replicate 100000 '𝑎')
  have long : 327674 < 100000 * '𝑎'.utf8Size := by decide
  obtain ⟨height, refused⟩ := Expr.compile_counting_escape_of_long long
  have parsed := Expr.parse?_render (@Expr.printable_spelled (List.replicate 100000 '𝑎'))
  rw [Expr.render_spelled] at parsed
  refine ⟨straight_of_expand expanded, ?_, _, _, expanded, parsed, height⟩
  rw [toPattern_of_ok expanded, Pattern.checked, refused]
  rfl

end Grammar

end RightLinear
