import Mathlib.Tactic.Common
import JsonSelect.Grammar.Path
import JsonSelect.Cursor.Trace

/-!
# Proper traces

`TraceEvent.Proper` says what has to be true of an entry in the trace of a reading, and
`Cursor.Leads` that a reading has gone from one cursor to another with proper entries only and
without ever going back.

`Agrees` relates a traced reader to an outcome of the grammar: from a cursor within the text the
traced reader ends, leads on to a cursor within the text, and its result corresponds to the outcome.
The relation passes through the steps of a traced reader, so each of them has its own rule
(`Agrees.advance`, `Agrees.record`, `Agrees.bind` and so on).
-/

namespace JsonSelect

variable {α β γ : Type}

/-! ### Proper traces -/

/-- A condition whose reading started at the first position has been read up to another one: the `@`
behind the spaces at its front has been passed, and a character that is no space has been found. -/
def IsBehindCondition (text : List Char) (first position : Nat) : Prop :=
  (∃ start, first ≤ start ∧ start < position ∧ text[start]? = some '@' ∧
      ∀ index, first ≤ index → index < start → text[index]? = some ' ') ∧
    ∃ c, text[position]? = some c ∧ c ≠ ' '

/-- What has to be true of a text when an event happens at a position.  A text is taken between
positions in the right order, and there are three slots.  A path is complete at the end of the
text, and otherwise stands at a character that goes on with no segment.  An indexer stands at its
closer, behind its opener.  A condition leaves the depth as it was, and has been read as a whole if
it was successful. -/
def TraceEvent.Proper (text : List Char) (position : Nat) : TraceEvent → Prop
  | moved => True
  | taken first last => first ≤ last ∧ last ≤ text.length
  | stored slot => slot ≤ 2
  | path inFilter complete =>
    (complete = true → position = text.length) ∧
      (complete = false → ∃ c, text[position]? = some c ∧
        (c ∈ [']', ')', ' '] ∨ inFilter = true ∧ c ∈ ['=', '<', '!', '>']))
  | indexer opening first =>
    first < position ∧ text[first]? = some opening ∧ text[position]? = some (closerOf opening)
  | condition successful first before after =>
    after = before ∧ (successful = true → IsBehindCondition text first position)

namespace Cursor

variable {text : List Char} {cursor after last : Cursor}

/-- Whether the cursor stands in a text or at its end. -/
def InText (text : List Char) (cursor : Cursor) : Prop :=
  cursor.place.text = text ∧ cursor.position ≤ text.length

/-- One cursor leads to another one: the reading between them has stayed in the text and has never
gone back, its entries are proper, and the depth is again what it was. -/
structure Leads (text : List Char) (cursor after : Cursor) : Prop where
  inText : after.InText text
  depth_eq : after.depth = cursor.depth
  exists_entries : ∃ entries, after.trace = cursor.trace ++ entries ∧
    (cursor.position :: entries.map TraceEntry.position ++ [after.position]).Pairwise (· ≤ ·) ∧
    ∀ entry ∈ entries, entry.event.Proper text entry.position

/-- What remains are the characters from the position on. -/
theorem InText.rest_eq (h : cursor.InText text) : cursor.rest = text.drop cursor.position := by
  rw [← h.1]
  rfl

/-- The position and what remains make up the text. -/
theorem InText.position_add_length (h : cursor.InText text) :
    cursor.position + cursor.rest.length = text.length := by
  rw [h.rest_eq, List.length_drop]
  exact Nat.add_sub_of_le h.2

/-- The current character stands at the position. -/
theorem InText.getElem?_position (h : cursor.InText text) :
    text[cursor.position]? = cursor.rest.head? := by
  rw [h.rest_eq, List.head?_drop]

/-- What is true of the current character. -/
theorem forall_head?_rest {P : Char → Prop} {c : Char} {rest : List Char}
    (hrest : cursor.rest = c :: rest) (h : P c) : ∀ d ∈ cursor.rest.head?, P d := by
  rw [hrest]
  rintro _ ⟨⟩
  exact h

/-- The first character that remains is the current one. -/
theorem current?_eq_head? (cursor : Cursor) : cursor.place.current? = cursor.rest.head? := by
  rw [rest, Place.rest, List.head?_drop]
  rfl

/-- The character at some distance is one of those that remain. -/
theorem peek?_eq_getElem? (cursor : Cursor) (offset : Nat) :
    cursor.place.peek? offset = cursor.rest[offset]? := by
  rw [rest, Place.rest, List.getElem?_drop]
  rfl

/-- A reading that does nothing. -/
theorem Leads.refl (h : cursor.InText text) : cursor.Leads text cursor := by
  refine ⟨h, rfl, [], (List.append_nil _).symm, ?_, ?_⟩
  · simp
  · simp

/-- Sorted positions behind a position that none of the first ones exceeds. -/
theorem pairwise_le_append {positions more : List Nat} {middle : Nat}
    (h : (positions ++ [middle]).Pairwise (· ≤ ·)) (h' : (middle :: more).Pairwise (· ≤ ·)) :
    (positions ++ more).Pairwise (· ≤ ·) := by
  obtain ⟨hpositions, -, hbefore⟩ := List.pairwise_append.mp h
  obtain ⟨hbehind, hmore⟩ := List.pairwise_cons.mp h'
  refine List.pairwise_append.mpr ⟨hpositions, hmore, ?_⟩
  intro position hp next hn
  exact Nat.le_trans (hbefore position hp middle (List.mem_singleton_self _)) (hbehind next hn)

/-- A reading goes on where another one has led to. -/
theorem Leads.trans (h : cursor.Leads text after) (h' : after.Leads text last) :
    cursor.Leads text last := by
  obtain ⟨-, hdepth, entries, htrace, hsorted, hproper⟩ := h
  obtain ⟨hin, hdepth', entries', htrace', hsorted', hproper'⟩ := h'
  refine ⟨hin, hdepth'.trans hdepth, entries ++ entries', ?_, ?_, ?_⟩
  · rw [htrace', htrace, List.append_assoc]
  · rw [List.map_append, ← List.cons_append, List.append_assoc]
    exact pairwise_le_append hsorted hsorted'
  · intro entry hentry
    rcases List.mem_append.mp hentry with hentry | hentry
    · exact hproper entry hentry
    · exact hproper' entry hentry

/-- A reading does not go back. -/
theorem Leads.position_le (h : cursor.Leads text after) : cursor.position ≤ after.position := by
  obtain ⟨-, -, entries, -, hsorted, -⟩ := h
  exact List.rel_of_pairwise_cons hsorted (List.mem_append_right _ (List.mem_singleton_self _))

/-- A reading at another depth, after which the depth is counted back. -/
theorem Leads.restoreDepth {depth : Nat} (h : { cursor with depth }.Leads text after) :
    cursor.Leads text { after with depth := cursor.depth } :=
  ⟨h.inText, rfl, h.exists_entries⟩

/-- Leaving a proper entry behind. -/
theorem leads_record {event : TraceEvent} (h : cursor.InText text)
    (hproper : event.Proper text cursor.position) : cursor.Leads text (cursor.record event) := by
  refine ⟨h, rfl, [⟨event, cursor.position⟩], rfl, ?_, ?_⟩
  · simp [record, position]
  · simpa using hproper

/-- Moving forward within the text. -/
theorem leads_moveTo {place : Place} (htext : place.text = text)
    (hle : cursor.position ≤ place.position) (hlength : place.position ≤ text.length) :
    cursor.Leads text (cursor.moveTo place) := by
  refine ⟨⟨htext, hlength⟩, rfl, [⟨.moved, place.position⟩], rfl, ?_, ?_⟩
  · simpa [moveTo, record, position] using hle
  · simp [TraceEvent.Proper]

end Cursor

/-! ### Agreement with the readers of the grammar -/

/-- After a step that succeeds, the next one starts from the cursor that has been left. -/
theorem bind_apply_of_ok {reader : Traced α} {next : α → Traced β} {cursor after : Cursor} {a : α}
    (h : reader cursor = some (.ok a, after)) : (reader >>= next) cursor = next a after := by
  change (reader cursor).bind _ = _
  rw [h]
  rfl

/-- After a step that fails, nothing follows. -/
theorem bind_apply_of_error {reader : Traced α} {next : α → Traced β} {cursor after : Cursor}
    {error : PathError} (h : reader cursor = some (.error error, after)) :
    (reader >>= next) cursor = some (.error error, after) := by
  change (reader cursor).bind _ = _
  rw [h]
  rfl

/-- Whether the result of a traced reader, with the cursor that it leaves, corresponds to an outcome
of the grammar: both have failed with the same cause at the same place, or what has been read
corresponds as is asked for. -/
def Corresponds (text : List Char) (reads : α → β → Cursor → Prop) :
    Except Failure α → Except PathError β → Cursor → Prop
  | .ok a, .ok b, after => reads a b after
  | .error failure, .error error, _ => error = failure.toError text.length
  | _, _, _ => False

/-- What has been read may correspond in another sense, also at another cursor. -/
theorem Corresponds.imp {text : List Char} {outcome : Except Failure α}
    {result : Except PathError β} {reads reads' : α → β → Cursor → Prop} {after after' : Cursor}
    (h : Corresponds text reads outcome result after)
    (himp : ∀ a b, reads a b after → reads' a b after') :
    Corresponds text reads' outcome result after' := by
  rcases outcome with failure | a <;> rcases result with error | b
  · exact h
  · exact h.elim
  · exact h.elim
  · exact himp a b h

/-- From a cursor within the text, the traced reader ends, leads on, and comes to a result that
corresponds to the outcome. -/
def Agrees (text : List Char) (reader : Traced β) (cursor : Cursor) (outcome : Except Failure α)
    (reads : α → β → Cursor → Prop) : Prop :=
  cursor.InText text → ∃ result after, reader cursor = some (result, after) ∧
    cursor.Leads text after ∧ Corresponds text reads outcome result after

/-- The traced reader has read the same, and what remains is the same. -/
def Leaves (read : α × List Char) (value : α) (after : Cursor) : Prop :=
  value = read.1 ∧ after.rest = read.2

/-- The traced reader has read the same, and stands at the closer before what remains. -/
def StopsBefore (close : Char) (read : α × List Char) (value : α) (after : Cursor) : Prop :=
  value = read.1 ∧ after.rest = close :: read.2

/-- The traced reader has read the same and has left the cursor where it was. -/
def Stays (cursor : Cursor) (read value : α) (after : Cursor) : Prop :=
  value = read ∧ after.place = cursor.place

section

variable {text : List Char} {cursor after : Cursor} {outcome : Except Failure α}
  {reads : α → γ → Cursor → Prop} {next : β → Traced γ}

/-- That the cursor stands in the text may be assumed. -/
theorem Agrees.of_inText {reader : Traced γ}
    (h : cursor.InText text → Agrees text reader cursor outcome reads) :
    Agrees text reader cursor outcome reads :=
  fun hin => h hin hin

/-- A result without a step. -/
theorem Agrees.pure {a : α} {c : γ} (h : reads a c cursor) :
    Agrees text (pure c) cursor (.ok a) reads :=
  fun hin => ⟨.ok c, cursor, rfl, .refl hin, h⟩

/-- A failure at a position of the text. -/
theorem Agrees.failAt {cause : Cause} {position : Nat} (h : position ≤ text.length) :
    Agrees text (Traced.failAt cause position) cursor (.error ⟨cause, text.drop position⟩)
      reads := by
  intro hin
  refine ⟨.error ⟨cause, position⟩, cursor, rfl, .refl hin, ?_⟩
  simp only [Corresponds, Failure.toError, List.length_drop]
  congr
  omega

/-- A failure at the cursor. -/
theorem Agrees.fail {cause : Cause} {rest : List Char} (hrest : cursor.rest = rest) :
    Agrees text (Traced.fail cause) cursor (.error ⟨cause, rest⟩) reads := by
  intro hin
  refine ⟨.error ⟨cause, cursor.position⟩, cursor, rfl, .refl hin, ?_⟩
  have hposition := hin.position_add_length
  simp only [Corresponds, Failure.toError, ← hrest]
  congr
  omega

/-- What has been read may correspond in a weaker sense, and to something that is computed from
it. -/
theorem Agrees.map {α' : Type} {outcome : Except Failure α'} {reader : Traced γ}
    {reads' : α' → γ → Cursor → Prop} (h : Agrees text reader cursor outcome reads') (f : α' → α)
    (hf : ∀ a c after, cursor.Leads text after → reads' a c after → reads (f a) c after) :
    Agrees text reader cursor (outcome.map f) reads := by
  intro hin
  obtain ⟨result, after, hrun, hleads, hresult⟩ := h hin
  refine ⟨result, after, hrun, hleads, ?_⟩
  rcases outcome with failure | a <;> rcases result with error | c
  · exact hresult
  · exact hresult.elim
  · exact hresult.elim
  · exact hf a c after hleads hresult

/-- What has been read may correspond in another sense as well. -/
theorem Agrees.imp {reader : Traced γ} {reads' : α → γ → Cursor → Prop}
    (h : Agrees text reader cursor outcome reads')
    (himp : ∀ a c after, cursor.Leads text after → reads' a c after → reads a c after) :
    Agrees text reader cursor outcome reads := by
  intro hin
  obtain ⟨result, after, hrun, hleads, hresult⟩ := h hin
  exact ⟨result, after, hrun, hleads, hresult.imp fun a c => himp a c after hleads⟩

/-- A traced reader goes on where another one has led to. -/
theorem Agrees.bind {α' : Type} {outcome : Except Failure α'} {reader : Traced β}
    {reads' : α' → β → Cursor → Prop} (h : Agrees text reader cursor outcome reads')
    {f : α' → Except Failure α}
    (hnext : ∀ a b after, outcome = .ok a → cursor.Leads text after → reads' a b after →
      Agrees text (next b) after (f a) reads) :
    Agrees text (reader >>= next) cursor (outcome.bind f) reads := by
  intro hin
  obtain ⟨result, middle, hrun, hleads, hresult⟩ := h hin
  rcases outcome with failure | a <;> rcases result with error | b
  · exact ⟨.error error, middle, bind_apply_of_error hrun, hleads, hresult⟩
  · exact hresult.elim
  · exact hresult.elim
  · obtain ⟨result, after, hrun', hleads', hresult'⟩ :=
      hnext a b middle rfl hleads hresult hleads.inText
    refine ⟨result, after, ?_, hleads.trans hleads', hresult'⟩
    rw [bind_apply_of_ok hrun, hrun']

/-- Something is computed from what has been read, after further steps. -/
theorem Agrees.bindMap {α' : Type} {outcome : Except Failure α'} {reader : Traced β}
    {reads' : α' → β → Cursor → Prop} (h : Agrees text reader cursor outcome reads')
    {f : α' → α}
    (hnext : ∀ a b after, cursor.Leads text after → reads' a b after →
      Agrees text (next b) after (.ok (f a)) reads) :
    Agrees text (reader >>= next) cursor (outcome.map f) reads := by
  have hmap : outcome.map f = outcome.bind fun a => .ok (f a) := by
    cases outcome <;> rfl
  rw [hmap]
  exact h.bind fun a b after _ => hnext a b after

/-- A traced reader that agrees with no reader of the grammar is passed. -/
theorem Agrees.andThen {reader : Traced β} {reads' : Unit → β → Cursor → Prop}
    (h : Agrees text reader cursor (.ok ()) reads')
    (hnext : ∀ b after, cursor.Leads text after → reads' () b after →
      Agrees text (next b) after outcome reads) :
    Agrees text (reader >>= next) cursor outcome reads :=
  h.bind (f := fun _ => outcome) fun _ b after _ => hnext b after

/-- Further steps keep what has been read. -/
theorem Agrees.bindSelf {reader : Traced β} {reads' : α → β → Cursor → Prop}
    (h : Agrees text reader cursor outcome reads')
    (hnext : ∀ a b after, cursor.Leads text after → reads' a b after →
      Agrees text (next b) after (.ok a) reads) :
    Agrees text (reader >>= next) cursor outcome reads := by
  have hbind := h.bindMap (f := id) hnext
  rwa [show outcome.map id = outcome by cases outcome <;> rfl] at hbind

/-! ### Steps that agree with no reader -/

/-- A step that only moves the cursor, or leaves an entry, or looks around. -/
theorem Agrees.step {first : Traced β} {value : β} (hrun : first cursor = some (.ok value, after))
    (hleads : cursor.InText text → cursor.Leads text after)
    (h : cursor.Leads text after → Agrees text (next value) after outcome reads) :
    Agrees text (first >>= next) cursor outcome reads := by
  intro hin
  have hfirst := hleads hin
  obtain ⟨result, last, hrun', hleads', hresult⟩ := h hfirst hfirst.inText
  exact ⟨result, last, (bind_apply_of_ok hrun).trans hrun', hfirst.trans hleads', hresult⟩

/-- Asking for the position. -/
theorem Agrees.position {next : Nat → Traced γ}
    (h : Agrees text (next cursor.position) cursor outcome reads) :
    Agrees text (Traced.position >>= next) cursor outcome reads :=
  Agrees.step rfl .refl fun _ => h

theorem Agrees.depth {next : Nat → Traced γ}
    (h : Agrees text (next cursor.depth) cursor outcome reads) :
    Agrees text (Traced.depth >>= next) cursor outcome reads :=
  Agrees.step rfl .refl fun _ => h

/-- Looking at the current character. -/
theorem Agrees.current? {next : Option Char → Traced γ}
    (h : Agrees text (next cursor.rest.head?) cursor outcome reads) :
    Agrees text (Traced.current? >>= next) cursor outcome reads := by
  rw [← Cursor.current?_eq_head?] at h
  exact Agrees.step rfl .refl fun _ => h

/-- Looking at a character further on. -/
theorem Agrees.peek? {next : Option Char → Traced γ} {offset : Nat}
    (h : Agrees text (next cursor.rest[offset]?) cursor outcome reads) :
    Agrees text (Traced.peek? offset >>= next) cursor outcome reads := by
  rw [← Cursor.peek?_eq_getElem?] at h
  exact Agrees.step rfl .refl fun _ => h

/-- There has to be a current character, and there may be none. -/
theorem Agrees.ensure {next : Char → Traced γ} {cause : Cause}
    (hnil : cursor.rest = [] → outcome = .error ⟨cause, []⟩)
    (hcons : ∀ c rest, cursor.rest = c :: rest → Agrees text (next c) cursor outcome reads) :
    Agrees text (Traced.ensure cause >>= next) cursor outcome reads := by
  have hcurrent : Traced.current? cursor = some (.ok cursor.rest.head?, cursor) := by
    rw [← Cursor.current?_eq_head?]
    rfl
  cases hrest : cursor.rest with
  | nil =>
    rw [hrest] at hcurrent
    rw [hnil hrest]
    have hensure : Traced.ensure cause cursor = Traced.fail cause cursor :=
      bind_apply_of_ok hcurrent
    have hfail : Agrees text (Traced.ensure cause) cursor
        (.error ⟨cause, []⟩ : Except Failure α) fun _ _ _ => False := by
      unfold Agrees
      rw [hensure]
      exact Agrees.fail hrest
    exact hfail.bind (f := Except.ok) fun _ _ _ _ _ hread => hread.elim
  | cons c rest =>
    rw [hrest] at hcurrent
    exact Agrees.step (bind_apply_of_ok hcurrent) .refl fun _ => hcons c rest hrest

/-- An entry is left. -/
theorem Agrees.record {next : Unit → Traced γ} {event : TraceEvent}
    (hproper : cursor.InText text → event.Proper text cursor.position)
    (h : ∀ after, cursor.Leads text after → after.place = cursor.place →
      Agrees text (next ()) after outcome reads) :
    Agrees text (Traced.record event >>= next) cursor outcome reads :=
  Agrees.step rfl (fun hin => Cursor.leads_record hin (hproper hin)) fun hleads => h _ hleads rfl

/-- One character is passed. -/
theorem Agrees.advance {next : Unit → Traced γ} {c : Char} {rest : List Char}
    (hrest : cursor.rest = c :: rest)
    (h : ∀ after, cursor.Leads text after → after.rest = rest →
      after.position = cursor.position + 1 → Agrees text (next ()) after outcome reads) :
    Agrees text (Traced.advance >>= next) cursor outcome reads := by
  refine Agrees.step rfl ?_ fun hleads => h _ hleads ?_ rfl
  · intro hin
    refine Cursor.leads_moveTo hin.1 (Nat.le_succ _) ?_
    have hlength := hin.position_add_length
    rw [hrest, List.length_cons] at hlength
    change cursor.position + 1 ≤ text.length
    omega
  · change cursor.place.advance.rest = rest
    rw [Place.rest_advance]
    exact congrArg List.tail hrest

/-- Spaces are passed. -/
theorem Agrees.skipSpaces {next : Unit → Traced γ}
    (h : ∀ after, cursor.Leads text after → after.rest = JsonSelect.skipSpaces cursor.rest →
      Agrees text (next ()) after outcome reads) :
    Agrees text (Traced.skipSpaces >>= next) cursor outcome reads := by
  refine Agrees.step rfl ?_ fun hleads => h _ hleads (Place.rest_skipSpaces _)
  intro hin
  refine Cursor.leads_moveTo hin.1 (Nat.le_add_right _ _) ?_
  have hspaces := (List.takeWhile_sublist (p := (· == ' ')) (l := cursor.rest)).length_le
  rw [← hin.position_add_length]
  exact Nat.add_le_add_left hspaces _

/-- A word is passed if the text goes on with it. -/
theorem Agrees.afterWord {next : Bool → Traced γ} {word : String}
    (hyes : ∀ after, cursor.Leads text after → cursor.rest = word.toList ++ after.rest →
      Agrees text (next true) after outcome reads)
    (hno : ¬ word.toList <+: cursor.rest → Agrees text (next false) cursor outcome reads) :
    Agrees text (Traced.afterWord word >>= next) cursor outcome reads := by
  have hget : (get : Traced Cursor) cursor = some (.ok cursor, cursor) := rfl
  cases hword : cursor.place.afterWord? word with
  | none =>
    have hrun : Traced.afterWord word cursor = some (.ok false, cursor) := by
      unfold Traced.afterWord
      rw [bind_apply_of_ok hget, hword]
      rfl
    refine Agrees.step hrun .refl fun _ => hno ?_
    simpa [Place.afterWord?, Cursor.rest] using hword
  | some place =>
    have hrun : Traced.afterWord word cursor = some (.ok true, cursor.moveTo place) := by
      unfold Traced.afterWord
      rw [bind_apply_of_ok hget, hword]
      rfl
    have hrest : cursor.rest = word.toList ++ place.rest := Place.rest_of_afterWord? hword
    obtain rfl : place = { cursor.place with position := cursor.position + word.length } := by
      unfold Place.afterWord? at hword
      split at hword
      · exact (Option.some.inj hword).symm
      · contradiction
    refine Agrees.step hrun ?_ fun hleads => hyes _ hleads hrest
    intro hin
    refine Cursor.leads_moveTo hin.1 (Nat.le_add_right _ _) ?_
    have hlength := hin.position_add_length
    rw [hrest, List.length_append, String.length_toList] at hlength
    change cursor.position + word.length ≤ text.length
    omega

/-- A word is taken from the position at which it starts to the one at which it ends. -/
theorem Agrees.textBetween {next : String → Traced γ} {first last : Nat} {word more : List Char}
    (hword : text.drop first = word ++ more) (hlast : first + word.length = last)
    (hlength : last ≤ text.length)
    (h : ∀ after, cursor.Leads text after → after.place = cursor.place →
      Agrees text (next (String.ofList word)) after outcome reads) :
    Agrees text (Traced.textBetween first last >>= next) cursor outcome reads := by
  apply Agrees.of_inText
  intro hin
  have hbetween : cursor.place.between first last = String.ofList word := by
    rw [Place.between, hin.1, List.drop_take, hword, ← hlast, Nat.add_sub_cancel_left,
      List.take_left]
  have hle : first ≤ last := hlast ▸ Nat.le_add_right first word.length
  exact Agrees.step (congrArg (fun value => some (Except.ok value, _)) hbetween)
    (fun hin => Cursor.leads_record hin ⟨hle, hlength⟩) fun hleads => h _ hleads rfl

end

end JsonSelect
