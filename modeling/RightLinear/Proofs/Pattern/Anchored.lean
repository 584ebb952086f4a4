import RightLinear.ConversionError
import RightLinear.Proofs.Pattern.Matching

/-!
# The pattern of a whole word

A pattern is compiled in a group between the marks for the beginning and the end.
Its own groups are closed before that group is, so its tree stands there as it was
read alone, only two levels deeper. What the compiled pattern finds anywhere in a
word is then what the tree matches from the beginning to the end.

* `Pattern.parse?_anchor`: the tree of the anchored text.
* `Pattern.compile_eq_ok_iff`, `Pattern.compile_eq_error`: compiling, by the tree of the text
  alone and the space that it takes.
* `Pattern.checked_eq_ok`, `Pattern.exists_checked_eq_error_iff`: texts that were written as
  patterns.
* `Pattern.accepts?_eq`: the verdict on a word, by the matches of that tree.
-/

namespace RightLinear.Pattern

variable {w : Word} {text more : List Char} {p q : Pattern} {token : Token}
  {tokens : List Token} {engine : Engine} {refusal : Refusal} {error : ConversionError}

/-! ## Open groups -/

/-- What has been read of a group, with some branches before it. -/
def Frame.after (before : List Pattern) (frame : Frame) : Frame :=
  ⟨frame.branches ++ before, frame.items⟩

theorem Frame.after_nil {frame : Frame} : frame.after [] = frame := by
  rw [after, List.append_nil]

namespace Stack

/-- The open groups after some more tokens. -/
def run? (stack : Stack) (tokens : List Token) : Option Stack :=
  tokens.foldlM step? stack

/-- The open groups where some others are open around them and the outermost of them has
some branches already. -/
def within (before : List Pattern) (below : List Frame) : Frame → List Frame → Stack
  | frame, [] => (frame.after before, below)
  | frame, around :: outer =>
    (frame, (within before below around outer).1 :: (within before below around outer).2)

variable {stack : Stack} {frame frame' : Frame} {outer outer' below : List Frame}
  {before : List Pattern}

theorem run?_cons : run? stack (token :: tokens) = (step? stack token).bind (run? · tokens) :=
  List.foldlM_cons

theorem run?_append {more : List Token} :
    run? stack (tokens ++ more) = (run? stack tokens).bind (run? · more) :=
  List.foldlM_append

/-- A token looks neither below the groups that it closes nor at finished branches. -/
theorem step?_within (h : step? (frame, outer) token = some (frame', outer')) :
    step? (within before below frame outer) token =
      some (within before below frame' outer') := by
  cases token with
  | opening =>
    cases h
    cases outer <;> rfl
  | closing =>
    cases outer with
    | nil => cases h
    | cons around outer =>
      cases h
      cases outer' <;> rfl
  | bar =>
    cases h
    cases outer <;> rfl
  | atom a =>
    cases h
    cases outer <;> rfl
  | repeated count =>
    obtain ⟨branches, items⟩ := frame
    cases items with
    | nil => cases h
    | cons p items =>
      cases h
      cases outer <;> rfl

/-- What tokens do to open groups they do inside of others as well, and to a group with finished
branches. -/
theorem run?_within (h : run? (frame, outer) tokens = some (frame', outer')) :
    run? (within before below frame outer) tokens =
      some (within before below frame' outer') := by
  induction tokens generalizing frame outer with
  | nil =>
    cases h
    rfl
  | cons token tokens ih =>
    rw [run?_cons] at h ⊢
    obtain ⟨⟨middle, around⟩, step, rest⟩ := Option.bind_eq_some_iff.mp h
    rw [step?_within step]
    exact ih rest

end Stack

/-- Tokens form a tree if they leave one group open, which is the whole. -/
theorem ofTokens?_eq_some :
    ofTokens? tokens = some p ↔
      ∃ frame, Stack.run? (.fresh, []) tokens = some (frame, []) ∧ frame.toPattern = p := by
  unfold ofTokens? Stack.run?
  split
  · next frame eq =>
    rw [eq]
    simp
  · next other =>
    refine ⟨fun h => ?_, fun h => ?_⟩
    · cases h
    · obtain ⟨frame, eq, -⟩ := h
      exact absurd eq (other frame)

theorem parse?_eq_some :
    parse? text = some p ↔
      ∃ tokens, Token.readAll? text = some tokens ∧ ofTokens? tokens = some p :=
  Option.bind_eq_some_iff

/-! ## Feasible counts -/

/-- What has been read of a group is feasible. -/
def Frame.Feasible (frame : Frame) : Prop :=
  (∀ p ∈ frame.branches, p.Feasible) ∧ ∀ p ∈ frame.items, p.Feasible

theorem feasible_ofSequence {items : List Pattern} (h : ∀ p ∈ items, p.Feasible) :
    (ofSequence items).Feasible := by
  unfold ofSequence
  split
  · exact .empty
  · exact h _ (List.mem_singleton_self _)
  · exact .concat h

theorem feasible_ofBranches {branches : List Pattern} (h : ∀ p ∈ branches, p.Feasible) :
    (ofBranches branches).Feasible := by
  unfold ofBranches
  split
  · exact h _ (List.mem_singleton_self _)
  · exact .alt h

namespace Frame

variable {frame : Frame}

theorem Feasible.fresh : Feasible .fresh :=
  ⟨fun _ mem => absurd mem List.not_mem_nil, fun _ mem => absurd mem List.not_mem_nil⟩

theorem Feasible.push (feasible : frame.Feasible) (item : p.Feasible) :
    (frame.push p).Feasible :=
  ⟨feasible.1, List.forall_mem_cons.mpr ⟨item, feasible.2⟩⟩

theorem Feasible.finish (feasible : frame.Feasible) : frame.finish.Feasible := by
  refine ⟨List.forall_mem_cons.mpr ⟨feasible_ofSequence fun p mem => ?_, feasible.1⟩,
    fun _ mem => absurd mem List.not_mem_nil⟩
  exact feasible.2 p (List.mem_reverse.mp mem)

theorem Feasible.toPattern (feasible : frame.Feasible) : frame.toPattern.Feasible :=
  feasible_ofBranches fun p mem => feasible.finish.1 p (List.mem_reverse.mp mem)

end Frame

/-- What has been read of all open groups is feasible. -/
def Stack.Feasible (stack : Stack) : Prop :=
  stack.1.Feasible ∧ ∀ frame ∈ stack.2, frame.Feasible

/-- A token with a feasible count leaves the open groups feasible. -/
theorem Stack.Feasible.step? {stack stack' : Stack} (feasible : stack.Feasible)
    (counts : token.Feasible) (h : stack.step? token = some stack') : stack'.Feasible := by
  obtain ⟨frame, outer⟩ := stack
  obtain ⟨inner, around⟩ := feasible
  cases token with
  | opening =>
    cases h
    exact ⟨.fresh, List.forall_mem_cons.mpr ⟨inner, around⟩⟩
  | closing =>
    cases outer with
    | nil => cases h
    | cons next outer =>
      cases h
      obtain ⟨first, rest⟩ := List.forall_mem_cons.mp around
      exact ⟨first.push (.group inner.toPattern), rest⟩
  | bar =>
    cases h
    exact ⟨inner.finish, around⟩
  | atom a =>
    cases h
    exact ⟨inner.push .atom, around⟩
  | repeated count =>
    obtain ⟨branches, items⟩ := frame
    cases items with
    | nil => cases h
    | cons p items =>
      cases h
      obtain ⟨first, rest⟩ := List.forall_mem_cons.mp inner.2
      exact ⟨⟨inner.1, List.forall_mem_cons.mpr ⟨.repeated counts first, rest⟩⟩, around⟩

/-- A stack stays feasible while tokens with feasible counts are read. -/
theorem Stack.Feasible.run? {stack stack' : Stack} (feasible : stack.Feasible)
    (counts : ∀ token ∈ tokens, token.Feasible) (h : stack.run? tokens = some stack') :
    stack'.Feasible := by
  induction tokens generalizing stack with
  | nil =>
    cases h
    exact feasible
  | cons token tokens ih =>
    rw [run?_cons] at h
    obtain ⟨middle, step, rest⟩ := Option.bind_eq_some_iff.mp h
    obtain ⟨first, later⟩ := List.forall_mem_cons.mp counts
    exact ih (feasible.step? first step) later rest

/-- Whatever can be read has feasible counts. -/
theorem feasible_of_parse? (h : parse? text = some p) : p.Feasible := by
  obtain ⟨tokens, read, tree⟩ := parse?_eq_some.mp h
  obtain ⟨frame, run, rfl⟩ := ofTokens?_eq_some.mp tree
  have start : Stack.Feasible (.fresh, []) :=
    ⟨.fresh, fun _ mem => absurd mem List.not_mem_nil⟩
  exact (start.run? (Token.feasible_of_readAll? read) run).1.toPattern

/-! ## The anchored pattern -/

/-- A tree in a group between the marks for the beginning and the end. -/
def anchored (p : Pattern) : Pattern := concat [atom .textStart, group p, atom .textEnd]

theorem height_anchored : (anchored p).height = p.height + 2 := by
  simp [anchored, height, heightAll, Atom.height]

/-- The tokens of a text stand in the anchored text as they are. -/
theorem readAll?_anchor (h : Token.readAll? text = some tokens) :
    Token.readAll? (anchor text) =
      some (.atom .textStart :: .opening :: (tokens ++ [.closing, .atom .textEnd])) := by
  have eq : anchor text = '^' :: '(' :: ('?' :: ':' :: (text ++ [')', '$'])) := by
    rw [anchor, List.append_assoc]
    rfl
  have closing : Token.readAll? [')', '$'] = some [.closing, .atom .textEnd] := by
    rw [Token.readAll?_cons rfl, Token.readAll?_cons rfl, Token.readAll?_nil]
    rfl
  rw [eq, Token.readAll?_cons rfl, Token.readAll?_cons rfl, Token.readAll?_append (Or.inl rfl) h,
    closing]
  rfl

theorem parse?_anchor (h : parse? text = some p) : parse? (anchor text) = some (anchored p) := by
  obtain ⟨tokens, read, tree⟩ := parse?_eq_some.mp h
  obtain ⟨frame, run, rfl⟩ := ofTokens?_eq_some.mp tree
  refine parse?_eq_some.mpr ⟨_, readAll?_anchor read, ofTokens?_eq_some.mpr ?_⟩
  refine ⟨⟨[], [atom .textEnd, group frame.toPattern, atom .textStart]⟩, ?_, rfl⟩
  have inside : Stack.run? (.fresh, [Frame.push .fresh (atom .textStart)]) tokens =
      some (frame.after [], [Frame.push .fresh (atom .textStart)]) := Stack.run?_within run
  rw [Frame.after_nil] at inside
  rw [Stack.run?_cons, Stack.step?, Option.bind_some, Stack.run?_cons, Stack.step?,
    Option.bind_some, Stack.run?_append]
  exact (congrArg (Option.bind · _) inside).trans rfl

/-! ## What an engine compiles -/

/-- A text is compiled if it has a tree that is low enough and small enough. -/
theorem read_eq_ok :
    read engine text = .ok p ↔
      parse? text = some p ∧ p.height ≤ heightLimit ∧ engine.size text ≤ sizeLimit := by
  unfold read
  cases parse? text with
  | none => exact iff_of_false nofun fun h => nomatch h.1
  | some tree =>
    simp only [Option.some.injEq]
    split
    · next high =>
      refine iff_of_false nofun fun h => ?_
      obtain ⟨rfl, low, -⟩ := h
      exact absurd high (Nat.not_lt_of_le low)
    · next low =>
      split
      · next big => exact iff_of_false nofun fun h => Nat.not_lt_of_le h.2.2 big
      · next small =>
        rw [Except.ok.injEq]
        refine ⟨fun same => ?_, And.left⟩
        exact ⟨same, same ▸ Nat.le_of_not_lt low, Nat.le_of_not_lt small⟩

/-- The two reasons to refuse a text that has a tree. -/
theorem read_eq_error (parsed : parse? text = some p) (h : read engine text = .error refusal) :
    refusal = .malformed (engine.complaint text) ∧ heightLimit < p.height ∨
      refusal = .oversized sizeLimit ∧ sizeLimit < engine.size text := by
  rw [read, parsed] at h
  dsimp only at h
  split at h
  · next high => exact Or.inl ⟨(Except.error.inj h).symm, high⟩
  · split at h
    · next big => exact Or.inr ⟨(Except.error.inj h).symm, big⟩
    · cases h

theorem compile_eq_ok :
    compile engine text = .ok q ↔
      (∃ p, read engine text = .ok p) ∧ read engine (anchor text) = .ok q := by
  unfold compile
  cases read engine text with
  | error refusal => exact iff_of_false nofun fun h => nomatch h.1
  | ok p => exact ⟨fun h => ⟨⟨p, rfl⟩, h⟩, And.right⟩

/-- A text that has a tree is compiled, with the tree two levels deeper, unless it is too high
or takes too much space. -/
theorem compile_eq_ok_iff (parsed : parse? text = some p) :
    compile engine text = .ok q ↔ q = anchored p ∧ p.height ≤ 248 ∧ engine.Fits text := by
  have deeper : p.height + 2 ≤ heightLimit ↔ p.height ≤ 248 := by unfold heightLimit; omega
  rw [compile_eq_ok]
  simp only [read_eq_ok, parsed, parse?_anchor parsed, Option.some.injEq, Engine.Fits]
  refine ⟨fun h => ?_, fun h => ?_⟩
  · obtain ⟨⟨_, rfl, -, alone⟩, rfl, low, whole⟩ := h
    rw [height_anchored, deeper] at low
    exact ⟨rfl, low, alone, whole⟩
  · obtain ⟨rfl, low, alone, whole⟩ := h
    have lower := deeper.mpr low
    rw [height_anchored]
    exact ⟨⟨p, rfl, Nat.le_trans (Nat.le_add_right _ 2) lower, alone⟩, rfl, lower, whole⟩

theorem exists_compile_iff (parsed : parse? text = some p) :
    (∃ q, compile engine text = .ok q) ↔ p.height ≤ 248 ∧ engine.Fits text := by
  simp only [compile_eq_ok_iff parsed, exists_eq_left]

/-- A text that has a tree is refused as malformed only if the tree is too high, and otherwise
only for the space that it takes, alone or between the marks. -/
theorem compile_eq_error (parsed : parse? text = some p)
    (h : compile engine text = .error refusal) :
    (∃ complaint, refusal = .malformed complaint) ∧ 248 < p.height ∨
      refusal = .oversized sizeLimit ∧ ¬ engine.Fits text := by
  unfold compile at h
  split at h
  · next alone =>
    cases h
    rcases read_eq_error parsed alone with ⟨rfl, high⟩ | ⟨rfl, big⟩
    · exact Or.inl ⟨⟨_, rfl⟩, Nat.lt_trans (by decide) high⟩
    · exact Or.inr ⟨rfl, fun fits => Nat.not_lt_of_le fits.1 big⟩
  · rcases read_eq_error (parse?_anchor parsed) h with ⟨rfl, high⟩ | ⟨rfl, big⟩
    · rw [height_anchored, heightLimit] at high
      exact Or.inl ⟨⟨_, rfl⟩, by omega⟩
    · exact Or.inr ⟨rfl, fun fits => Nat.not_lt_of_le fits.2 big⟩

/-- What is written as a pattern is either kept or refused with the engine's message. -/
theorem checked_eq_ok (parsed : parse? text = some p) :
    checked engine text = .ok more ↔ more = text ∧ p.height ≤ 248 ∧ engine.Fits text := by
  rw [← exists_compile_iff parsed, checked]
  cases compile engine text with
  | error refusal => exact iff_of_false nofun fun h => nomatch h.2
  | ok q => exact ⟨fun h => ⟨(Except.ok.inj h).symm, q, rfl⟩, fun h => by rw [h.1]⟩

theorem checked_eq_error (h : checked engine text = .error error) :
    ∃ refusal, compile engine text = .error refusal ∧ error = .invalidPattern refusal.message := by
  rw [checked] at h
  split at h
  · cases h
  · next refused => exact ⟨_, refused, (Except.error.inj h).symm⟩

/-- Among texts that have a tree the engine refuses those that are too high or too big. -/
theorem exists_checked_eq_error_iff (parsed : parse? text = some p) :
    (∃ message, checked engine text = .error (.invalidPattern message)) ↔
      248 < p.height ∨ ¬ engine.Fits text := by
  rw [← Nat.not_le, ← Decidable.not_and_iff_not_or_not]
  cases eq : checked engine text with
  | ok more =>
    exact iff_of_false nofun fun h => h ((checked_eq_ok parsed).mp eq).2
  | error error =>
    obtain ⟨refusal, -, rfl⟩ := checked_eq_error eq
    refine iff_of_true ⟨_, rfl⟩ fun fine => ?_
    cases eq.symm.trans ((checked_eq_ok parsed).mpr ⟨rfl, fine⟩)

/-! ## Verdicts -/

/-- Between the marks a match can begin and end only where the word does. -/
theorem exists_matches_anchored :
    (∃ i j, i ≤ w.length ∧ Matches w (anchored p) i j) ↔ MatchesWhole p w := by
  refine ⟨fun h => ?_, fun h => ?_⟩
  · obtain ⟨i, j, -, matched⟩ := h
    obtain ⟨_, first, matched⟩ := matchesSequence_cons.mp (matches_concat.mp matched)
    obtain ⟨_, second, matched⟩ := matchesSequence_cons.mp matched
    obtain ⟨_, third, -⟩ := matchesSequence_cons.mp matched
    cases first
    cases third
    exact matches_group.mp second
  · exact ⟨0, w.length, Nat.zero_le _, .concat (.cons .textStart (.cons (.group h)
      (.cons .textEnd .nil)))⟩

theorem exists_compile_of_accepts? {verdict : Bool}
    (h : accepts? engine text w = some verdict) : ∃ q, compile engine text = .ok q := by
  rw [accepts?] at h
  cases eq : compile engine text with
  | error refusal => rw [eq] at h; cases h
  | ok q => exact ⟨q, rfl⟩

/-- The verdict on a word is whether the tree matches all of it. -/
theorem accepts?_eq (h : parse? text = some p) (low : p.height ≤ 248)
    (fits : engine.Fits text) :
    ∃ verdict, accepts? engine text w = some verdict ∧ (verdict = true ↔ MatchesWhole p w) := by
  have compiled := (compile_eq_ok_iff h).mpr ⟨rfl, low, fits⟩
  refine ⟨_, by rw [accepts?, compiled]; rfl, ?_⟩
  rw [matchesSomewhere_iff (feasible_of_parse? (parse?_anchor h)), exists_matches_anchored]

end RightLinear.Pattern
