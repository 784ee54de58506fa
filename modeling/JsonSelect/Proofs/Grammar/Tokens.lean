import Mathlib.Data.List.Chain
import Mathlib.Tactic.Common
import JsonSelect.Proofs.Grammar.Locality

/-!
# Tokens of a path

A path is written with bare names, dots, double dots and indexers.  Apart from what two tokens
side by side would merge into, and from a name directly behind an indexer, they may follow each
other in any order (`Token.MayPrecede`), and every such sequence is read: each name and each
indexer gives one selector, and a name is a descent exactly if there is a double dot behind the
name before it.

What the reader of segments remembers is a matter of the tokens before (`descends`,
`endsWithIndexer`), so that one token at a time moves from the text to the tokens before
(`readSegments_token`).  Where the text goes on after an indexer with a name after all, the name
is refused at its first character.
-/

namespace JsonSelect

variable {limit : Nat}

/-- A token of a path.  The body of an indexer ends with its closer, and `selector` is what it is
read as when nothing follows. -/
inductive Token (limit : Nat) where
  | name (characters : List Char) (ne_nil : characters ≠ [])
    (plain : ∀ c ∈ characters, c ∉ ['.', '[', ']', '(', ')', ' '])
  | dot
  | dots
  | indexer (opening : Char) (body : List Char) (selector : Selector)
    (opens : opening = '[' ∨ opening = '(')
    (accepted : readIndexer (conditionReader limit limit) (closerOf opening) body =
      .ok (selector, []))

namespace Token

/-- How a token is written. -/
def text : Token limit → List Char
  | name characters _ _ => characters
  | dot => ['.']
  | dots => ['.', '.']
  | indexer opening body _ _ _ => opening :: body

def isName : Token limit → Bool
  | name _ _ _ => true
  | _ => false

def isDots : Token limit → Bool
  | dots => true
  | _ => false

def isIndexer : Token limit → Bool
  | indexer _ _ _ _ _ => true
  | _ => false

/-- The selector that a token stands for, if it stands for one. -/
def selector? (descending : Bool) : Token limit → Option Selector
  | name characters _ _ => some (bareName descending characters)
  | indexer _ _ selector _ _ => some selector
  | dot | dots => none

/-- Which token may stand directly before which: two names would be one, a dot would start a
double dot with the dot behind it, and a name behind an indexer lacks a dot. -/
def MayPrecede : Token limit → Token limit → Prop
  | name _ _ _, name _ _ _ => False
  | dot, dot => False
  | dot, dots => False
  | indexer _ _ _ _ _, name _ _ _ => False
  | _, _ => True

/-- Which token may stand directly behind the `$` of an expression. -/
def MayFollowRoot : Token limit → Prop
  | dot | dots => True
  | indexer opening _ _ _ _ => opening = '['
  | name _ _ _ => False

/-- Whether a token that stands before `rest` ends there. -/
def EndsBefore : Token limit → List Char → Prop
  | name _ _ _, rest => ∀ c ∈ rest.head?, isNameChar false c = false
  | dot, rest => rest.head? ≠ some '.'
  | _, _ => True

end Token

/-- The text of some tokens. -/
def tokensText (tokens : List (Token limit)) : List Char :=
  tokens.flatMap Token.text

/-- Whether a name behind the given tokens is a descent: there is a double dot behind the last
name among them. -/
def descends (before : List (Token limit)) : Bool :=
  (before.reverse.takeWhile fun token => !token.isName).any Token.isDots

/-- Whether the last of some tokens is an indexer. -/
def endsWithIndexer (before : List (Token limit)) : Bool :=
  before.getLast?.any Token.isIndexer

/-- The selectors of some tokens that stand behind others. -/
def selectorsAfter : (before tokens : List (Token limit)) → List Selector
  | _, [] => []
  | before, token :: tokens =>
    (token.selector? (descends before)).toList ++ selectorsAfter (before ++ [token]) tokens

/-- What stands before the tokens of an expression: a `$`, if the first token may follow it, or
nothing, if the tokens do not start with a `$` themselves. -/
inductive RootOf (tokens : List (Token limit)) : List Char → Prop
  | rooted (h : ∀ first ∈ tokens.head?, first.MayFollowRoot) : RootOf tokens ['$']
  | rootless (h : (tokensText tokens).head? ≠ some '$') : RootOf tokens []

theorem tokensText_cons (token : Token limit) (tokens : List (Token limit)) :
    tokensText (token :: tokens) = token.text ++ tokensText tokens := by
  rw [tokensText, List.flatMap_cons, tokensText]

/-! ### The tokens before -/

section

variable {before : List (Token limit)}

theorem descends_nil : descends ([] : List (Token limit)) = false :=
  rfl

theorem endsWithIndexer_nil : endsWithIndexer ([] : List (Token limit)) = false :=
  rfl

/-- A double dot starts a descent, and a name ends it. -/
theorem descends_concat (token : Token limit) :
    descends (before ++ [token]) = (!token.isName && (token.isDots || descends before)) := by
  rw [descends, descends, List.reverse_append, List.reverse_singleton, List.singleton_append]
  cases hname : token.isName with
  | true => simp [hname]
  | false => simp [hname]

/-- An indexer is at the end if it is the last token. -/
theorem endsWithIndexer_concat (token : Token limit) :
    endsWithIndexer (before ++ [token]) = token.isIndexer := by
  simp [endsWithIndexer]

/-- If the last of some tokens is an indexer, then it is one of them. -/
theorem exists_isIndexer_of_endsWithIndexer (h : endsWithIndexer before = true) :
    ∃ last, before.getLast? = some last ∧ last.isIndexer = true := by
  cases hlast : before.getLast? with
  | none => simp [endsWithIndexer, hlast] at h
  | some last => exact ⟨last, rfl, by simpa [endsWithIndexer, hlast] using h⟩

end

/-! ### One token -/

/-- Every token has at least one character, and none starts with a space. -/
theorem Token.exists_text_eq (token : Token limit) :
    ∃ c rest, token.text = c :: rest ∧ c ≠ ' ' := by
  cases token with
  | name characters ne_nil plain =>
    obtain ⟨c, rest, rfl⟩ := List.exists_cons_of_ne_nil ne_nil
    refine ⟨c, rest, rfl, ?_⟩
    rintro rfl
    exact plain ' ' List.mem_cons_self (by simp)
  | dot => exact ⟨'.', [], rfl, by decide⟩
  | dots => exact ⟨'.', ['.'], rfl, by decide⟩
  | indexer opening body selector opens accepted =>
    refine ⟨opening, body, rfl, ?_⟩
    rcases opens with rfl | rfl <;> decide

/-- There is no name directly behind an indexer. -/
theorem Token.MayPrecede.isName_eq_false {token next : Token limit} (h : token.MayPrecede next)
    (hindexer : token.isIndexer = true) : next.isName = false := by
  cases token with
  | name => contradiction
  | dot => contradiction
  | dots => contradiction
  | indexer =>
    cases next with
    | name => exact absurd h id
    | dot => rfl
    | dots => rfl
    | indexer => rfl

/-- Every token ends where the text does. -/
theorem Token.endsBefore_nil (token : Token limit) : token.EndsBefore [] := by
  cases token with
  | name =>
    rintro c ⟨⟩
  | dot => rintro ⟨⟩
  | dots => exact trivial
  | indexer => exact trivial

/-- An indexer ends with its closer. -/
theorem Token.endsBefore_of_isIndexer {token : Token limit} (h : token.isIndexer = true)
    (rest : List Char) : token.EndsBefore rest := by
  cases token with
  | name => contradiction
  | dot => contradiction
  | dots => contradiction
  | indexer => exact trivial

/-- What may follow the `$` of an expression starts with a dot or a bracket. -/
theorem Token.MayFollowRoot.head?_eq {token : Token limit} (h : token.MayFollowRoot)
    (rest : List Char) : ∀ c ∈ (token.text ++ rest).head?, c = '.' ∨ c = '[' := by
  cases token with
  | name => exact absurd h id
  | dot =>
    rintro c ⟨⟩
    exact Or.inl rfl
  | dots =>
    rintro c ⟨⟩
    exact Or.inl rfl
  | indexer =>
    rintro c ⟨⟩
    exact Or.inr h

/-- A token ends before each one that may follow it. -/
theorem Token.MayPrecede.endsBefore {token next : Token limit} (h : token.MayPrecede next)
    (rest : List Char) : token.EndsBefore (next.text ++ rest) := by
  cases token with
  | name characters ne_nil plain =>
    cases next with
    | name => exact absurd h id
    | dot =>
      rintro c ⟨⟩
      rfl
    | dots =>
      rintro c ⟨⟩
      rfl
    | indexer opening body selector opens accepted =>
      rintro c ⟨⟩
      rcases opens with rfl | rfl <;> rfl
  | dot =>
    cases next with
    | name characters ne_nil plain =>
      obtain ⟨c, more, rfl⟩ := List.exists_cons_of_ne_nil ne_nil
      rintro ⟨⟩
      exact plain '.' List.mem_cons_self (by simp)
    | dot => exact absurd h id
    | dots => exact absurd h id
    | indexer opening body selector opens accepted =>
      rintro ⟨⟩
      rcases opens with hopen | hopen <;> exact absurd hopen (by decide)
  | dots => exact trivial
  | indexer => exact trivial

section

variable {before tokens : List (Token limit)} {token : Token limit} {rest : List Char}

/-- One token moves to the tokens before. -/
theorem readSegments_token (hprev : endsWithIndexer before = true → token.isName = false)
    (hrest : token.EndsBefore rest) :
    readSegments (conditionReader limit limit) false (descends before) (endsWithIndexer before)
        (token.text ++ rest) =
      (readSegments (conditionReader limit limit) false (descends (before ++ [token]))
        (endsWithIndexer (before ++ [token])) rest).map fun (selectors, rest) =>
          ((token.selector? (descends before)).toList ++ selectors, rest) := by
  rw [descends_concat, endsWithIndexer_concat]
  cases token with
  | name characters ne_nil plain =>
    have hindexer : endsWithIndexer before = false := by
      cases hbefore : endsWithIndexer before with
      | true => exact absurd (hprev hbefore) (by simp [Token.isName])
      | false => rfl
    have hname : ∀ c ∈ characters, isNameChar false c = true := fun c hc =>
      isNameChar_eq_true_iff.mpr ⟨plain c hc, by simp⟩
    rw [hindexer]
    exact readSegments_name ne_nil hname hrest
  | dot => exact (readSegments_dot hrest).trans (congrFun Except.map_id _).symm
  | dots => exact readSegments_dots.trans (congrFun Except.map_id _).symm
  | indexer opening body selector opens accepted =>
    have hread : readIndexer (conditionReader limit limit) (closerOf opening) (body ++ rest) =
        .ok (selector, rest) := by
      obtain ⟨consumed, hbody, hmore⟩ :=
        selfDelimiting_readIndexer (looksOneAhead_conditionReader limit limit) _ accepted
      rw [List.append_nil] at hbody
      exact hbody ▸ (hmore rest trivial).2
    rw [Token.text, List.cons_append, readSegments_opener opens, hread]
    rfl

/-- The tokens of a path are read one after the other. -/
theorem readSegments_tokensText (before : List (Token limit))
    (hchain : (before ++ tokens).IsChain Token.MayPrecede)
    (hlast : ∀ last ∈ tokens.getLast?, last.EndsBefore rest) :
    readSegments (conditionReader limit limit) false (descends before) (endsWithIndexer before)
        (tokensText tokens ++ rest) =
      (readSegments (conditionReader limit limit) false (descends (before ++ tokens))
        (endsWithIndexer (before ++ tokens)) rest).map fun (selectors, rest) =>
          (selectorsAfter before tokens ++ selectors, rest) := by
  induction tokens generalizing before with
  | nil =>
    rw [List.append_nil]
    exact (congrFun Except.map_id _).symm
  | cons token tokens ih =>
    obtain ⟨-, htokens, hprev⟩ := List.isChain_append.mp hchain
    have hindexer : endsWithIndexer before = true → token.isName = false := by
      intro hbefore
      obtain ⟨last, hmem, hlast⟩ := exists_isIndexer_of_endsWithIndexer hbefore
      exact (hprev last hmem token rfl).isName_eq_false hlast
    have hends : token.EndsBefore (tokensText tokens ++ rest) := by
      cases tokens with
      | nil => exact hlast token rfl
      | cons next tokens =>
        rw [tokensText_cons, List.append_assoc]
        exact (List.isChain_cons_cons.mp htokens).1.endsBefore _
    have hmore : ∀ last ∈ tokens.getLast?, last.EndsBefore rest := by
      intro last hmem
      apply hlast
      rw [List.getLast?_cons, Option.mem_def.mp hmem]
      rfl
    rw [List.append_cons] at hchain ⊢
    rw [tokensText_cons, List.append_assoc, readSegments_token hindexer hends, ih _ hchain hmore,
      selectorsAfter]
    -- The selector of the first token goes in front of those of the others.
    cases readSegments (conditionReader limit limit) false (descends (before ++ [token] ++ tokens))
        (endsWithIndexer (before ++ [token] ++ tokens)) rest with
    | error failure => rfl
    | ok read => exact congrArg Except.ok (Prod.ext (List.append_assoc ..).symm rfl)

end

/-! ### Whole expressions -/

section

variable {tokens : List (Token limit)} {root : List Char}

/-- What stands before the tokens of an expression is no part of the path. -/
theorem readExpression_of_rootOf (hroot : RootOf tokens root) (tail : List Char)
    (htail : tokens = [] → tail = []) :
    readExpression limit (root ++ (tokensText tokens ++ tail)) =
      readWholePath limit (tokensText tokens ++ tail) := by
  cases tokens with
  | nil =>
    rw [htail rfl]
    cases hroot with
    | rooted =>
      apply readExpression_root
      rintro c ⟨⟩
    | rootless => rfl
  | cons first tokens =>
    rw [tokensText_cons, List.append_assoc]
    cases hroot with
    | rooted h => exact readExpression_root ((h first rfl).head?_eq _)
    | rootless h =>
      obtain ⟨c, more, htext, hspace⟩ := first.exists_text_eq
      rw [tokensText_cons, htext] at h
      rw [htext]
      apply readExpression_of_head?
      · rintro ⟨⟩
        exact hspace rfl
      · exact h

section

variable (hchain : tokens.IsChain Token.MayPrecede)

include hchain

/-- A path that consists of tokens is read as the selectors they stand for. -/
theorem readWholePath_tokensText :
    readWholePath limit (tokensText tokens ++ []) = .ok (selectorsAfter [] tokens) := by
  have hread := readSegments_tokensText [] hchain fun last _ => last.endsBefore_nil
  rw [descends_nil, endsWithIndexer_nil, readSegments_nil] at hread
  rw [readWholePath, hread]
  exact congrArg Except.ok (List.append_nil _)

/-- A name behind the indexer that ends a path is refused. -/
theorem readWholePath_tokensText_name (hindexer : endsWithIndexer tokens = true) {c : Char}
    (hc : c ∉ ['.', '[', ']', '(', ')', ' ']) (more : List Char) :
    readWholePath limit (tokensText tokens ++ c :: more) =
      .error ⟨.unexpectedAfterIndexer c, c :: more⟩ := by
  obtain ⟨last, hlast, hlastIndexer⟩ := exists_isIndexer_of_endsWithIndexer hindexer
  have hends : ∀ token ∈ tokens.getLast?, token.EndsBefore (c :: more) := by
    intro token htoken
    obtain rfl := Option.some.inj (hlast.symm.trans htoken)
    exact last.endsBefore_of_isIndexer hlastIndexer (c :: more)
  have hname : isNameChar false c = true := isNameChar_eq_true_iff.mpr ⟨hc, by simp⟩
  have hread := readSegments_tokensText [] hchain hends
  rw [descends_nil, endsWithIndexer_nil, List.nil_append, hindexer,
    readSegments_name_afterIndexer hname] at hread
  rw [readWholePath, hread]
  rfl

end

end

/-- Every sequence of tokens is read as the selectors that it stands for, whether or not there is
a `$` in front.  Where a name follows that lacks a dot, it is refused at its first character,
whatever stands behind that. -/
theorem compileWithin_tokensText {tokens : List (Token limit)} {root : List Char}
    (hroot : RootOf tokens root) (hchain : tokens.IsChain Token.MayPrecede) :
    compileWithin limit (String.ofList (root ++ tokensText tokens)) =
        .ok (selectorsAfter [] tokens) ∧
      (endsWithIndexer tokens = true → ∀ c more, c ∉ ['.', '[', ']', '(', ')', ' '] →
        compileWithin limit (String.ofList (root ++ (tokensText tokens ++ c :: more))) =
          .error ⟨.unexpectedAfterIndexer c, (root ++ tokensText tokens).length⟩) := by
  constructor
  · have hread := readExpression_of_rootOf hroot [] fun _ => rfl
    rw [readWholePath_tokensText hchain, List.append_nil] at hread
    rw [compileWithin, String.toList_ofList, hread]
    rfl
  · intro hindexer c more hc
    have hne : tokens = [] → c :: more = [] := by
      rintro rfl
      contradiction
    have hread := readExpression_of_rootOf hroot (c :: more) hne
    rw [readWholePath_tokensText_name hchain hindexer hc] at hread
    have hposition : (root ++ (tokensText tokens ++ c :: more)).length - (c :: more).length =
        (root ++ tokensText tokens).length := by
      rw [← List.append_assoc, List.length_append, Nat.add_sub_cancel]
    rw [compileWithin, String.toList_ofList, hread]
    exact congrArg Except.error (congrArg (PathError.mk _) hposition)

/-- The double dot makes `a` a descent, although an indexer and a dot lie between. -/
theorem compileWithin_tokensText_descent :
    compileWithin 1 "$..[*].a('b')" =
        .ok [.element none, .descent (some "a"), .member (some "b")] ∧
      compileWithin 1 "$..[*].a('b')c.d" = .error ⟨.unexpectedAfterIndexer 'c', 13⟩ := by
  let tokens : List (Token 1) :=
    [.dots, .indexer '[' ['*', ']'] (.element none) (Or.inl rfl) rfl, .dot,
      .name ['a'] (List.cons_ne_nil _ _) (by simp),
      .indexer '(' ['\'', 'b', '\'', ')'] (.member (some "b")) (Or.inr rfl) rfl]
  have hroot : RootOf tokens ['$'] := by
    apply RootOf.rooted
    rintro first ⟨⟩
    exact trivial
  have hchain : tokens.IsChain Token.MayPrecede := by
    simp [tokens, Token.MayPrecede]
  obtain ⟨hread, hname⟩ := compileWithin_tokensText hroot hchain
  exact ⟨hread, hname rfl 'c' ['.', 'd'] (by decide)⟩

end JsonSelect
