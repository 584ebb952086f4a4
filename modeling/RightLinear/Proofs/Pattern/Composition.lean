import RightLinear.Proofs.Pattern.Anchored
import RightLinear.Proofs.Pattern.Language

/-!
# Patterns put together from texts

Whoever writes patterns joins texts, and has to know which tree the joined text
is read as. Two notions answer that for texts that stand alone or in front of
others: a text adds items to whatever sequence it stands in, or it gives the
branches of a whole choice. Only a question mark behind such a text could change
how it is read, so none may follow.

* `Pattern.Adds`, `Pattern.Gives`: the items and the branches of a text.
* `Pattern.Adds.append`, `Pattern.Gives.group`, `Pattern.Adds.star`,
  `Pattern.Gives.bar`: joining texts.
* `Pattern.Gives.parse?`: the tree of a text on its own.
* `Pattern.WritesChoice`, `Pattern.Describes.exists_accepts?`: texts for languages.
-/

namespace RightLinear.Pattern

variable {text more : List Char} {tokens others : List Token}
  {items later branches : List Pattern} {p : Pattern} {c : Char}

/-! ## Tokens of joined texts -/

/-- The text is read as these tokens, unless a question mark follows. -/
def Spells (text : List Char) (tokens : List Token) : Prop :=
  ∀ rest : List Char, rest.head? ≠ some '?' →
    (text ++ rest).head? ≠ some '?' ∧
      Token.readAll? (text ++ rest) = (Token.readAll? rest).map (tokens ++ ·)

namespace Spells

theorem nil : Spells [] [] := fun rest quiet => ⟨quiet, by simp⟩

theorem append (first : Spells text tokens) (second : Spells more others) :
    Spells (text ++ more) (tokens ++ others) := by
  intro rest quiet
  have ⟨quiet, read⟩ := second rest quiet
  have ⟨head, whole⟩ := first (more ++ rest) quiet
  rw [List.append_assoc]
  refine ⟨head, ?_⟩
  rw [whole, read, Option.map_map]
  simp only [Function.comp_def, List.append_assoc]

theorem escapeChar : Spells (escapeChar c) [.atom (.literal c)] := by
  intro rest _
  refine ⟨?_, Token.readAll?_escapeChar⟩
  unfold Pattern.escapeChar
  split
  · exact fun same => nomatch Option.some.inj same
  · next plain =>
    intro same
    obtain rfl : c = '?' := Option.some.inj same
    exact plain (by decide)

theorem bar : Spells ['|'] [.bar] := by
  intro rest _
  refine ⟨by simp, ?_⟩
  exact Token.readAll?_cons rfl

theorem star : Spells ['*'] [.repeated ⟨0, none⟩] := by
  intro rest quiet
  refine ⟨by simp, Token.readAll?_cons ?_⟩
  cases rest with
  | nil => rfl
  | cons d rest =>
    have lazy : d ≠ '?' := fun eq => quiet (by rw [eq]; rfl)
    simp [Token.next?, dropLazy, lazy]

/-- Parentheses around a text are read as a group of its tokens. -/
theorem group (inner : Spells text tokens) :
    Spells ('(' :: text ++ [')']) (.opening :: tokens ++ [.closing]) := by
  intro rest _
  have ⟨head, read⟩ := inner (')' :: rest) (by simp)
  refine ⟨by simp, ?_⟩
  have opening : Token.next? '(' (text ++ ')' :: rest) = some (.opening, text ++ ')' :: rest) := by
    change Token.ofGroup? (text ++ ')' :: rest) = _
    unfold Token.ofGroup?
    split
    · next eq => rw [eq] at head; exact absurd rfl head
    · next eq => rw [eq] at head; exact absurd rfl head
    · rfl
  have closing : Token.readAll? (')' :: rest) = (Token.readAll? rest).map (.closing :: ·) :=
    Token.readAll?_cons rfl
  rw [List.append_assoc, List.cons_append, List.singleton_append, Token.readAll?_cons opening, read,
    closing, Option.map_map, Option.map_map]
  simp only [Function.comp_def, List.append_assoc, List.cons_append, List.nil_append]

theorem readAll? (spells : Spells text tokens) : Token.readAll? text = some tokens := by
  have read := (spells [] (by simp)).2
  rw [List.append_nil, Token.readAll?_nil, Option.map_some, List.append_nil] at read
  exact read

end Spells

/-! ## What tokens add to an open group -/

/-- The tokens add these items to the branch that is being read. -/
def Pushes (tokens : List Token) (items : List Pattern) : Prop :=
  ∀ (frame : Frame) (outer : List Frame),
    Stack.run? (frame, outer) tokens =
      some ({ frame with items := items.reverse ++ frame.items }, outer)

/-- The tokens are read as these branches, where a branch begins. -/
def Branches (tokens : List Token) (branches : List Pattern) : Prop :=
  ∀ (before : List Pattern) (outer : List Frame),
    ∃ frame, Stack.run? (⟨before, []⟩, outer) tokens = some (frame, outer) ∧
      frame.finish.branches = branches.reverse ++ before

theorem Pushes.append (first : Pushes tokens items) (second : Pushes others later) :
    Pushes (tokens ++ others) (items ++ later) := by
  intro frame outer
  rw [Stack.run?_append, first, Option.bind_some, second]
  simp only [List.reverse_append, List.append_assoc]

theorem Pushes.star (inner : Pushes tokens [p]) :
    Pushes (tokens ++ [.repeated ⟨0, none⟩]) [repeated ⟨0, none⟩ p] := by
  intro frame outer
  rw [Stack.run?_append, inner]
  rfl

theorem Pushes.group (inner : Branches tokens branches) :
    Pushes (.opening :: tokens ++ [.closing]) [group (ofBranches branches)] := by
  intro frame outer
  obtain ⟨last, run, finished⟩ := inner [] (frame :: outer)
  have tree : last.toPattern = ofBranches branches := by
    rw [Frame.toPattern, finished, List.append_nil, List.reverse_reverse]
  rw [List.cons_append, Stack.run?_cons, Stack.step?, Option.bind_some, Stack.run?_append]
  change Option.bind (Stack.run? (⟨[], []⟩, frame :: outer) tokens) _ = _
  rw [run, Option.bind_some, Stack.run?_cons, Stack.step?, tree]
  rfl

theorem Branches.single (h : Pushes tokens items) : Branches tokens [ofSequence items] := by
  intro before outer
  refine ⟨_, h _ _, ?_⟩
  simp [Frame.finish]

theorem Branches.bar (first : Pushes tokens items) (rest : Branches others branches) :
    Branches (tokens ++ .bar :: others) (ofSequence items :: branches) := by
  intro before outer
  obtain ⟨frame, run, finished⟩ := rest (ofSequence items :: before) outer
  refine ⟨frame, ?_, ?_⟩
  · rw [Stack.run?_append, first, Option.bind_some, Stack.run?_cons, Stack.step?, Option.bind_some]
    simp only [Frame.finish, List.append_nil, List.reverse_reverse]
    exact run
  · rw [finished, List.reverse_cons, List.append_assoc, List.singleton_append]

theorem Branches.ofTokens? (h : Branches tokens branches) :
    ofTokens? tokens = some (ofBranches branches) := by
  obtain ⟨frame, run, finished⟩ := h [] []
  refine ofTokens?_eq_some.mpr ⟨frame, run, ?_⟩
  rw [Frame.toPattern, finished, List.append_nil, List.reverse_reverse]

/-! ## Joined texts -/

/-- The text adds these items to the sequence that it stands in. -/
def Adds (text : List Char) (items : List Pattern) : Prop :=
  ∃ tokens, Spells text tokens ∧ Pushes tokens items

/-- The text is a choice between these branches. -/
def Gives (text : List Char) (branches : List Pattern) : Prop :=
  ∃ tokens, Spells text tokens ∧ Branches tokens branches

theorem Adds.nil : Adds [] [] := ⟨[], .nil, fun _ _ => rfl⟩

theorem Adds.append (first : Adds text items) (second : Adds more later) :
    Adds (text ++ more) (items ++ later) := by
  obtain ⟨_, spells, pushes⟩ := first
  obtain ⟨_, spells', pushes'⟩ := second
  exact ⟨_, spells.append spells', pushes.append pushes'⟩

theorem Adds.escapeChar : Adds (escapeChar c) [atom (.literal c)] :=
  ⟨_, .escapeChar, fun _ _ => rfl⟩

theorem Adds.star (inner : Adds text [p]) : Adds (text ++ ['*']) [repeated ⟨0, none⟩ p] := by
  obtain ⟨_, spells, pushes⟩ := inner
  exact ⟨_, spells.append .star, pushes.star⟩

theorem Gives.single (h : Adds text items) : Gives text [ofSequence items] := by
  obtain ⟨_, spells, pushes⟩ := h
  exact ⟨_, spells, .single pushes⟩

theorem Gives.bar (first : Adds text items) (rest : Gives more branches) :
    Gives (text ++ '|' :: more) (ofSequence items :: branches) := by
  obtain ⟨_, spells, pushes⟩ := first
  obtain ⟨_, spells', pushes'⟩ := rest
  exact ⟨_, spells.append (Spells.bar.append spells'), .bar pushes pushes'⟩

theorem Gives.group (inner : Gives text branches) :
    Adds ('(' :: text ++ [')']) [group (ofBranches branches)] := by
  obtain ⟨_, spells, pushes⟩ := inner
  exact ⟨_, spells.group, .group pushes⟩

theorem Gives.parse? (h : Gives text branches) : parse? text = some (ofBranches branches) := by
  obtain ⟨_, spells, pushes⟩ := h
  exact parse?_eq_some.mpr ⟨_, spells.readAll?, pushes.ofTokens?⟩

/-! ## Texts for languages -/

variable {L M : Language}

/-- The text is a single item that matches the words of a language. -/
def WritesItem (text : List Char) (L : Language) : Prop :=
  ∃ p, Adds text [p] ∧ p.Describes L

/-- The text is a part of a sequence that matches the words of a language. -/
def WritesSequence (text : List Char) (L : Language) : Prop :=
  ∃ items, Adds text items ∧ DescribeInTurn items L

/-- The text is a choice that matches the words of a language. -/
def WritesChoice (text : List Char) (L : Language) : Prop :=
  ∃ branches, Gives text branches ∧ DescribeTogether branches L

theorem WritesItem.literal : WritesItem (Pattern.escapeChar c) fun u => u = [c] :=
  ⟨_, .escapeChar, describes_literal⟩

theorem WritesItem.sequence (item : WritesItem text L) : WritesSequence text L := by
  obtain ⟨p, adds, describes⟩ := item
  exact ⟨[p], adds, describeInTurn_singleton.mpr describes⟩

theorem WritesSequence.nil : WritesSequence [] fun u => u = [] :=
  ⟨[], .nil, describeInTurn_nil⟩

theorem WritesSequence.append (first : WritesSequence text L) (second : WritesSequence more M) :
    WritesSequence (text ++ more) fun w => ∃ u v, w = u ++ v ∧ L u ∧ M v := by
  obtain ⟨_, adds, describe⟩ := first
  obtain ⟨_, adds', describe'⟩ := second
  exact ⟨_, adds.append adds', describe.append describe'⟩

theorem WritesSequence.congr (writes : WritesSequence text L) (same : ∀ u, L u ↔ M u) :
    WritesSequence text M := by
  rwa [funext fun u => propext (same u)] at writes

theorem WritesSequence.escape : WritesSequence (Pattern.escape text) fun u => u = text := by
  induction text with
  | nil => exact .nil
  | cons c text ih =>
    refine (WritesItem.literal.sequence.append ih).congr fun u => ⟨fun h => ?_, fun h => ?_⟩
    · obtain ⟨_, _, rfl, rfl, rfl⟩ := h
      rfl
    · exact ⟨[c], text, h, rfl, rfl⟩

theorem WritesSequence.choice (writes : WritesSequence text L) : WritesChoice text L := by
  obtain ⟨items, adds, describe⟩ := writes
  exact ⟨_, .single adds, (describeTogether_nil.cons describe.ofSequence).congr (by simp)⟩

theorem WritesChoice.bar (first : WritesSequence text L) (rest : WritesChoice more M) :
    WritesChoice (text ++ '|' :: more) fun u => L u ∨ M u := by
  obtain ⟨_, adds, describe⟩ := first
  obtain ⟨_, gives, describe'⟩ := rest
  exact ⟨_, .bar adds gives, describe'.cons describe.ofSequence⟩

theorem WritesChoice.group (inner : WritesChoice text L) :
    WritesItem ('(' :: text ++ [')']) L := by
  obtain ⟨_, gives, describe⟩ := inner
  exact ⟨_, gives.group, describe.ofBranches.group⟩

theorem WritesChoice.congr (writes : WritesChoice text L) (same : ∀ u, L u ↔ M u) :
    WritesChoice text M := by
  rwa [funext fun u => propext (same u)] at writes

theorem WritesChoice.parse? (writes : WritesChoice text L) :
    ∃ p, Pattern.parse? text = some p ∧ p.Describes L := by
  obtain ⟨_, gives, describe⟩ := writes
  exact ⟨_, gives.parse?, describe.ofBranches⟩

/-- A text whose tree describes a language is a pattern for the words of that language. -/
theorem Describes.exists_accepts? {engine : Engine} (describes : p.Describes L)
    (parsed : Pattern.parse? text = some p) (low : p.height ≤ 248) (fits : engine.Fits text)
    (w : Word) : ∃ verdict, accepts? engine text w = some verdict ∧ (verdict = true ↔ L w) := by
  obtain ⟨verdict, accepted, matched⟩ := accepts?_eq parsed low fits (w := w)
  exact ⟨verdict, accepted, matched.trans describes.matchesWhole⟩

end RightLinear.Pattern
