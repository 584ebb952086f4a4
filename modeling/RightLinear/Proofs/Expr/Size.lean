import RightLinear.Proofs.Expr.Tree
import RightLinear.Proofs.Pattern.Size

/-!
# The size of printed expressions

An expression is printed with each of its characters once, and nothing but characters adds
to the program of the printed text, so the program of an expression is as big as the
characters that it lists take. Groups make the tree of the text higher than the expression,
but not more than three times as high.

* `Expr.weigh`, `Expr.depth`: the characters of an expression, and how deeply it is nested.
* `Expr.tally_tree`, `Expr.height_tree_le`: the tree of an expression.
* `Expr.compile_counting_render_of_big`: an expression with too many characters.
-/

namespace RightLinear

open Pattern

namespace Expr

variable {e f : Expr} {items others : List Expr} {text : List Char}

/-! ## Characters and nesting -/

section Weight

variable (weight : Char → Nat)

mutual

/-- The weights of all characters that an expression lists. -/
def weigh : Expr → Nat
  | epsilon => 0
  | literal c => weight c
  | concat items => weighAll items
  | alt items => weighAll items
  | star inner => weigh inner

/-- The weights of all characters that some expressions list. -/
def weighAll : List Expr → Nat
  | [] => 0
  | e :: items => weigh e + weighAll items

end

end Weight

mutual

/-- How deeply an expression is nested. -/
def depth : Expr → Nat
  | epsilon | literal _ => 0
  | concat items => depthAll items + 1
  | alt items => depthAll items + 1
  | star inner => depth inner + 1

/-- How deeply the deepest of some expressions is nested. -/
def depthAll : List Expr → Nat
  | [] => 0
  | e :: items => max (depth e) (depthAll items)

end

/-! ## The tree of an expression -/

theorem tree_of_not_isAlt (sequence : e.isAlt = false) : e.tree = .ofSequence e.pieces := by
  cases e with
  | alt items => cases sequence
  | epsilon | literal | concat | star => rfl

section Tally

variable {weight : Atom → Nat} {times : Count → Nat}

mutual

theorem tally_pieces (once : times ⟨0, none⟩ = 1) :
    ∀ e : Expr, tallyAll weight times e.pieces = e.weigh fun c => weight (.literal c)
  | epsilon => rfl
  | literal c => Nat.add_zero _
  | concat items => tally_allPieces once items
  | alt items => by
    rw [pieces, tallyAll, tally, tally_ofBranches, tally_allBranches once items, tallyAll,
      Nat.add_zero, weigh]
  | star inner => by
    rw [pieces, tallyAll, tally, once, tally_unit once inner, tallyAll, Nat.one_mul,
      Nat.add_zero, weigh]

theorem tally_unit (once : times ⟨0, none⟩ = 1) :
    ∀ e : Expr, e.unit.tally weight times = e.weigh fun c => weight (.literal c)
  | epsilon => rfl
  | literal c => rfl
  | concat items => by rw [unit, tally, tally_ofSequence, tally_allPieces once items, weigh]
  | alt items => by rw [unit, tally, tally_ofBranches, tally_allBranches once items, weigh]
  | star inner => by rw [unit, tally, tally, once, tally_unit once inner, Nat.one_mul, weigh]

theorem tally_allPieces (once : times ⟨0, none⟩ = 1) :
    ∀ items : List Expr,
      tallyAll weight times (allPieces items) = weighAll (fun c => weight (.literal c)) items
  | [] => rfl
  | e :: items => by
    rw [allPieces, tallyAll_append, tally_pieces once e, tally_allPieces once items, weighAll]

theorem tally_allBranches (once : times ⟨0, none⟩ = 1) :
    ∀ items : List Expr,
      tallyAll weight times (allBranches items) = weighAll (fun c => weight (.literal c)) items
  | [] => rfl
  | e :: items => by
    rw [allBranches, tallyAll, tally_ofSequence, tally_pieces once e,
      tally_allBranches once items, weighAll]

end

/-- The tree of an expression lists the characters of the expression, and nothing else that
weighs anything. -/
theorem tally_tree (once : times ⟨0, none⟩ = 1) :
    e.tree.tally weight times = e.weigh fun c => weight (.literal c) := by
  cases e with
  | alt items => exact tally_ofBranches.trans (tally_allBranches once items)
  | epsilon | literal | concat | star =>
    rw [tree_of_not_isAlt rfl, tally_ofSequence, tally_pieces once]

end Tally

mutual

theorem weigh_zero : ∀ e : Expr, e.weigh (fun _ => 0) = 0
  | epsilon => rfl
  | literal _ => rfl
  | concat items => weighAll_zero items
  | alt items => weighAll_zero items
  | star inner => weigh_zero inner

theorem weighAll_zero : ∀ items : List Expr, weighAll (fun _ => 0) items = 0
  | [] => rfl
  | e :: items => by rw [weighAll, weigh_zero e, weighAll_zero items]

end

/-- A program has a state for each byte of the characters, and the four around them. -/
theorem states_tree : e.tree.states = e.weigh Char.utf8Size + 4 := by
  have bytes : e.tree.tally Atom.bytes Count.copies = e.weigh Char.utf8Size := tally_tree rfl
  have marks : e.tree.tally Atom.marks (fun _ => 1) = e.weigh fun _ => 0 := tally_tree rfl
  rw [states, bytes, marks, weigh_zero]

mutual

/-- Each level of an expression costs a group, a choice and a sequence at most. -/
theorem heightAll_pieces_le : ∀ e : Expr, heightAll e.pieces ≤ 3 * e.depth
  | epsilon => Nat.zero_le _
  | literal c => Nat.zero_le _
  | concat items => by
    have items := heightAll_allPieces_le items
    rw [pieces, depth]
    omega
  | alt items => by
    have branches := heightAll_allBranches_le items
    have choice := @height_ofBranches_le (allBranches items)
    rw [pieces, heightAll, heightAll, height, depth]
    omega
  | star inner => by
    have inner := height_unit_le inner
    rw [pieces, heightAll, heightAll, height, depth]
    omega

/-- Under a repetition there may be one more group, and the repetition of the next level. -/
theorem height_unit_le : ∀ e : Expr, e.unit.height ≤ 3 * e.depth + 2
  | epsilon => by decide
  | literal c => Nat.zero_le _
  | concat items => by
    have items' := heightAll_allPieces_le items
    have sequence := @height_ofSequence_le (allPieces items)
    rw [unit, height, depth]
    omega
  | alt items => by
    have branches := heightAll_allBranches_le items
    have choice := @height_ofBranches_le (allBranches items)
    rw [unit, height, depth]
    omega
  | star inner => by
    have inner := height_unit_le inner
    rw [unit, height, height, depth]
    omega

theorem heightAll_allPieces_le :
    ∀ items : List Expr, heightAll (allPieces items) ≤ 3 * depthAll items
  | [] => Nat.zero_le _
  | e :: items => by
    have first := heightAll_pieces_le e
    have rest := heightAll_allPieces_le items
    rw [allPieces, heightAll_append, depthAll]
    omega

theorem heightAll_allBranches_le :
    ∀ items : List Expr, heightAll (allBranches items) ≤ 3 * depthAll items + 1
  | [] => Nat.zero_le _
  | e :: items => by
    have first := heightAll_pieces_le e
    have sequence := @height_ofSequence_le e.pieces
    have rest := heightAll_allBranches_le items
    rw [allBranches, heightAll, depthAll]
    omega

end

/-- Groups make a tree higher than the expression, by no more than this. -/
theorem height_tree_le : e.tree.height ≤ 3 * e.depth + 1 := by
  cases e with
  | alt items =>
    have branches := heightAll_allBranches_le items
    have choice := @height_ofBranches_le (allBranches items)
    rw [tree, Expr.branches, depth]
    omega
  | epsilon | literal | concat | star =>
    rw [tree_of_not_isAlt rfl]
    exact Nat.le_trans height_ofSequence_le (Nat.succ_le_succ (heightAll_pieces_le _))

/-! ## The operations -/

section Operations

variable {weight : Char → Nat}

theorem weighAll_append :
    weighAll weight (items ++ others) = weighAll weight items + weighAll weight others := by
  induction items with
  | nil => exact (Nat.zero_add _).symm
  | cons e items ih => rw [List.cons_append, weighAll, ih, weighAll, Nat.add_assoc]

theorem weigh_le_of_mem (mem : e ∈ items) : e.weigh weight ≤ weighAll weight items := by
  obtain ⟨before, behind, rfl⟩ := List.append_of_mem mem
  rw [weighAll_append, weighAll]
  omega

theorem weigh_ofSequence : (ofSequence items).weigh weight = weighAll weight items := by
  unfold ofSequence
  split
  · rfl
  · rfl
  · rw [weigh]

theorem weigh_ofAlternatives : (ofAlternatives items).weigh weight = weighAll weight items := by
  unfold ofAlternatives
  split
  · rfl
  · rw [weigh]

theorem weighAll_sequenceItems : weighAll weight e.sequenceItems = e.weigh weight := by
  cases e with
  | epsilon | concat => rfl
  | literal | alt | star => exact Nat.add_zero _

theorem weighAll_alternativeItems : weighAll weight e.alternativeItems = e.weigh weight := by
  cases e with
  | alt => rfl
  | epsilon | literal | concat | star => exact Nat.add_zero _

/-- Only the empty word is dropped from a choice, and it weighs nothing. -/
theorem weighAll_dropEpsilon : weighAll weight (dropEpsilon items) = weighAll weight items := by
  induction items with
  | nil => rfl
  | cons e items ih =>
    unfold dropEpsilon at ih ⊢
    rw [List.filter_cons]
    split
    · rw [weighAll, ih, weighAll]
    · next none =>
      obtain rfl : e = epsilon := by simpa using none
      rw [ih, weighAll, weigh, Nat.zero_add]

theorem weighAll_absorbEpsilon :
    weighAll weight (absorbEpsilon items) = weighAll weight items := by
  unfold absorbEpsilon
  split
  · exact weighAll_dropEpsilon
  · rfl

theorem weigh_followedBy :
    (e.followedBy f).weigh weight = e.weigh weight + f.weigh weight := by
  rw [followedBy, weigh_ofSequence, weighAll_append, weighAll_sequenceItems,
    weighAll_sequenceItems]

/-- A choice between different items lists all their characters. -/
theorem weigh_or (distinct : (e.alternativeItems ++ f.alternativeItems).Nodup) :
    (e.or f).weigh weight = e.weigh weight + f.weigh weight := by
  rw [or_eq, weigh_ofAlternatives, kept, weighAll_absorbEpsilon, eraseDups_eq_self distinct,
    weighAll_append, weighAll_alternativeItems, weighAll_alternativeItems]

end Operations

theorem depthAll_append : depthAll (items ++ others) = max (depthAll items) (depthAll others) := by
  induction items with
  | nil => exact (Nat.zero_max _).symm
  | cons e items ih => rw [List.cons_append, depthAll, ih, depthAll, Nat.max_assoc]

theorem depth_le_of_mem (mem : e ∈ items) : e.depth ≤ depthAll items := by
  obtain ⟨before, behind, rfl⟩ := List.append_of_mem mem
  rw [depthAll_append, depthAll]
  omega

theorem depthAll_le {bound : Nat} (each : ∀ e ∈ items, e.depth ≤ bound) :
    depthAll items ≤ bound := by
  induction items with
  | nil => exact Nat.zero_le _
  | cons e items ih =>
    obtain ⟨first, rest⟩ := List.forall_mem_cons.mp each
    exact Nat.max_le.mpr ⟨first, ih rest⟩

theorem depth_ofSequence_le : (ofSequence items).depth ≤ depthAll items + 1 := by
  unfold ofSequence
  split
  · exact Nat.zero_le _
  · exact Nat.le_succ_of_le (depth_le_of_mem (List.mem_singleton_self _))
  · exact Nat.le_of_eq (by rw [depth])

theorem depth_ofAlternatives_le : (ofAlternatives items).depth ≤ depthAll items + 1 := by
  unfold ofAlternatives
  split
  · exact Nat.le_succ_of_le (depth_le_of_mem (List.mem_singleton_self _))
  · exact Nat.le_of_eq (by rw [depth])

theorem depthAll_sequenceItems_le : depthAll e.sequenceItems ≤ e.depth := by
  cases e with
  | epsilon => exact Nat.zero_le _
  | concat => exact Nat.le_succ _
  | literal | alt | star => exact Nat.le_of_eq (Nat.max_zero _)

theorem depthAll_alternativeItems_le : depthAll e.alternativeItems ≤ e.depth := by
  cases e with
  | alt => exact Nat.le_succ _
  | epsilon | literal | concat | star => exact Nat.le_of_eq (Nat.max_zero _)

theorem depth_followedBy_le : (e.followedBy f).depth ≤ max e.depth f.depth + 1 := by
  have first := @depthAll_sequenceItems_le e
  have second := @depthAll_sequenceItems_le f
  refine Nat.le_trans depth_ofSequence_le (Nat.succ_le_succ ?_)
  rw [depthAll_append]
  omega

theorem depth_or_le : (e.or f).depth ≤ max e.depth f.depth + 1 := by
  refine Nat.le_trans depth_ofAlternatives_le (Nat.succ_le_succ (depthAll_le fun g mem => ?_))
  rcases List.mem_append.mp (mem_of_mem_kept mem) with mem | mem
  · have := Nat.le_trans (depth_le_of_mem mem) depthAll_alternativeItems_le
    omega
  · have := Nat.le_trans (depth_le_of_mem mem) depthAll_alternativeItems_le
    omega

/-! ## Expressions that are too big -/

/-- An expression that is not nested too deeply is refused for its size if its characters take
more bytes than there are states for them and for the marks. -/
theorem compile_counting_render_of_big (printable : e.Printable) (low : e.depth ≤ 82)
    (big : 327674 < e.weigh Char.utf8Size) :
    e.tree.height ≤ 248 ∧
      Pattern.compile .counting e.render = .error (.oversized sizeLimit) := by
  have height : e.tree.height ≤ 248 := Nat.le_trans height_tree_le (by omega)
  refine ⟨height, compile_counting_of_big (parse?_render printable) height ?_⟩
  rw [states_tree]
  omega

/-! ## Sequences of characters -/

/-- The sequence of the characters of a text. -/
def spelled (text : List Char) : Expr := concat (text.map literal)

theorem render_spelled : (spelled text).render = Pattern.escape text := by
  change renderSequence (text.map literal) = _
  induction text with
  | nil => rfl
  | cons c text ih => rw [List.map_cons, renderSequence, ih]; rfl

theorem printable_spelled : (spelled text).Printable := by
  refine .concat fun e mem => ?_
  obtain ⟨c, -, rfl⟩ := List.mem_map.mp mem
  exact .literal

theorem weigh_spelled_replicate {weight : Char → Nat} {c : Char} {n : Nat} :
    (spelled (List.replicate n c)).weigh weight = n * weight c := by
  change weighAll weight ((List.replicate n c).map literal) = _
  induction n with
  | zero => exact (Nat.zero_mul _).symm
  | succ n ih =>
    rw [List.replicate_succ, List.map_cons, weighAll, ih, weigh, Nat.succ_mul, Nat.add_comm]

theorem depth_spelled_le : (spelled text).depth ≤ 1 := by
  refine Nat.succ_le_succ (depthAll_le fun e mem => ?_)
  obtain ⟨c, -, rfl⟩ := List.mem_map.mp mem
  exact Nat.le_refl 0

/-- A repeated character is too long for a pattern if it takes too many bytes. -/
theorem compile_counting_escape_of_long {c : Char} {n : Nat} (long : 327674 < n * c.utf8Size) :
    (spelled (List.replicate n c)).tree.height ≤ 248 ∧
      Pattern.compile .counting (Pattern.escape (List.replicate n c)) =
        .error (.oversized sizeLimit) := by
  rw [← render_spelled]
  refine compile_counting_render_of_big printable_spelled
    (Nat.le_trans depth_spelled_le (by decide)) ?_
  rw [weigh_spelled_replicate]
  exact long

end Expr

end RightLinear
