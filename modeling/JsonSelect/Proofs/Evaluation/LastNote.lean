import Mathlib.Tactic.Common
import JsonSelect.Proofs.Evaluation.Strictness

/-!
# The note on a missing match

When a strict evaluation fails for lack of a match, that is noted, and nothing is evaluated
afterwards.  In the events of a selector the note stands right before the error, and there are no
other notes of that kind (`Announced`).  Putting events in a row and expanding them keeps this, so
it is true of whole paths.  Since events are consumed up to the first error, the notes of an
evaluation are those on queued selectors, followed by the note on the error that ends it.

Conditions are tested by lenient evaluations, in which no error is announced.  So the notes made
in a filter are all on queued selectors.

That nothing happens after an error is a matter of what is computed at all: events behind the one
that fails can be replaced by others without any effect (`consumed_of_toList_eq_append`).
-/

namespace JsonSelect

/-! ### Notes up to the first error -/

/-- The notes among some events up to the first error. -/
def notesBefore : List Event → List Note
  | [] => []
  | .note entry :: rest => entry :: notesBefore rest
  | .found _ :: rest => notesBefore rest
  | .failed _ :: _ => []

namespace Event

/-- Consuming events makes their notes up to the first error. -/
theorem notes_eq_notesBefore (events : LazyList Event) :
    notes events = notesBefore events.toList := by
  unfold notes upToFailure
  induction events with
  | nil => rfl
  | cons event rest ih =>
    have htail := ih ()
    rw [LazyList.filter_cons, LazyList.toList_cons]
    cases event with
    | note entry =>
      simp only [notesBefore, ← htail]
      simp [note?, node?, isFailure, error?, LazyList.upTo_cons]
    | found node => exact htail
    | failed error => simp [note?, node?, isFailure, error?, LazyList.upTo_cons, notesBefore]

/-- The notes of a search are among its events. -/
theorem note_mem_of_mem_search {accepts : Json → Bool} {events : LazyList Event} {entry : Note}
    (h : entry ∈ (search accepts events).1) : .note entry ∈ events.toList := by
  unfold search at h
  induction events with
  | nil => contradiction
  | cons event rest ih =>
    rw [LazyList.filter_cons] at h
    rw [LazyList.toList_cons]
    cases event with
    | note other =>
      simp only [node?, Option.all_none, if_true, LazyList.upTo_cons, note?, Option.isNone_some,
        Bool.false_eq_true, if_false, List.filterMap_cons, List.mem_cons] at h
      rcases h with rfl | h
      · exact List.mem_cons_self
      · exact List.mem_cons_of_mem _ (ih () h)
    | found node =>
      cases haccepts : accepts node with
      | true => simp [node?, note?, LazyList.upTo_cons, haccepts] at h
      | false =>
        simp only [node?, Option.all_some, haccepts, Bool.false_eq_true, if_false] at h
        exact List.mem_cons_of_mem _ (ih () h)
    | failed error => simp [node?, note?, LazyList.upTo_cons] at h

end Event

/-! ### Announced errors -/

/-- Notes that are all on queued selectors. -/
def OnlyQueued (notes : List Note) : Prop :=
  ∀ entry ∈ notes, ∃ kind, entry = .queued kind

/-- Events of an evaluation in which an error for lack of a match follows right after the note on
it.  All other notes are on queued selectors, and such errors need strictness. -/
inductive Announced (strict : Bool) : List Event → Prop where
  | nil : Announced strict []
  | found (node : Json) {rest : List Event} (h : Announced strict rest) :
    Announced strict (.found node :: rest)
  | queued (kind : Selector.Kind) {rest : List Event} (h : Announced strict rest) :
    Announced strict (.note (.queued kind) :: rest)
  /-- There is no match, and that is an error. -/
  | missing (error : EvaluationError) (hs : strict = true) (hn : error.isNoMatch = true)
    {rest : List Event} (h : Announced strict rest) :
    Announced strict (.note (.noMatch error) :: .failed error :: rest)
  /-- A slice stands still. -/
  | stuck {rest : List Event} (h : Announced strict rest) :
    Announced strict (.failed .zeroStep :: rest)

namespace Announced

variable {strict : Bool} {events more : List Event}

/-- Events in a row. -/
theorem append (h : Announced strict events) (h' : Announced strict more) :
    Announced strict (events ++ more) := by
  induction h with
  | nil => exact h'
  | found node _ ih => exact .found node ih
  | queued kind _ ih => exact .queued kind ih
  | missing error hs hn _ ih => exact .missing error hs hn ih
  | stuck _ ih => exact .stuck ih

/-- The events of some elements in a row. -/
theorem flatMap {α : Type} {next : α → List Event} (elements : List α)
    (h : ∀ element, Announced strict (next element)) :
    Announced strict (elements.flatMap next) := by
  induction elements with
  | nil => exact .nil
  | cons element rest ih =>
    rw [List.flatMap_cons]
    exact (h element).append ih

/-- Expanding the nodes that are found leaves each error behind its note. -/
theorem expand {source : LazyList Event} {next : Json → LazyList Event}
    (h : Announced strict source.toList) (hnext : ∀ node, Announced strict (next node).toList) :
    Announced strict (Event.expand next source).toList := by
  rw [Event.expand, LazyList.toList_flatMap]
  generalize source.toList = events at h
  induction h with
  | nil => exact .nil
  | found node _ ih => exact (hnext node).append ih
  | queued kind _ ih => exact .queued kind ih
  | missing error hs hn _ ih => exact .missing error hs hn ih
  | stuck _ ih => exact .stuck ih

/-- Some nodes that are found. -/
theorem map_found (nodes : List Json) : Announced strict (nodes.map .found) := by
  induction nodes with
  | nil => exact .nil
  | cons node rest ih => exact .found node ih

/-- Some notes on queued selectors. -/
theorem map_note {notes : List Note} (h : OnlyQueued notes) :
    Announced strict (notes.map .note) := by
  induction notes with
  | nil => exact .nil
  | cons entry rest ih =>
    obtain ⟨⟨kind, rfl⟩, hrest⟩ := List.forall_mem_cons.mp h
    exact .queued kind (ih hrest)

/-- Without strictness all notes are on queued selectors. -/
theorem exists_queued_of_mem {entry : Note} (h : Announced false events)
    (hmem : .note entry ∈ events) : ∃ kind, entry = .queued kind := by
  induction h with
  | nil => contradiction
  | found node _ ih => exact ih (by simpa using hmem)
  | queued kind _ ih =>
    rcases List.mem_cons.mp hmem with heq | hrest
    · exact ⟨kind, Event.note.inj heq⟩
    · exact ih hrest
  | missing error hs => exact absurd hs Bool.false_ne_true
  | stuck _ ih => exact ih (by simpa using hmem)

/-- The notes up to the first error are on queued selectors, and the last one is on that error if
it is for lack of a match. -/
theorem exists_notesBefore_eq (h : Announced strict events) :
    ∃ kinds : List Selector.Kind, notesBefore events = kinds.map .queued ++
      ((drained (events.filterMap Event.item?)).2.filter EvaluationError.isNoMatch).toList.map
        .noMatch := by
  induction h with
  | nil => exact ⟨[], rfl⟩
  | found node _ ih => exact ih
  | queued kind _ ih =>
    obtain ⟨kinds, hkinds⟩ := ih
    exact ⟨kind :: kinds, congrArg (Note.queued kind :: ·) hkinds⟩
  | missing error hs hn _ ih =>
    refine ⟨[], ?_⟩
    simp [notesBefore, List.filterMap_cons, Event.item?, drained, Option.filter_some, hn]
  | stuck _ ih => exact ⟨[], rfl⟩

end Announced

/-! ### Selectors and conditions -/

/-- Before an evaluation, selectors are queued and nothing else is noted. -/
theorem onlyQueued_queueNotes (path : List Selector) : OnlyQueued (queueNotes path) := by
  intro entry hmem
  obtain ⟨selector, -, rfl⟩ := List.mem_map.mp hmem
  exact ⟨selector.kind, rfl⟩

/-- Each outcome of a selector at a node is announced as it should be. -/
theorem NodeOutcome.announced {events : Bool → LazyList Event} (h : NodeOutcome events)
    (strict : Bool) : Announced strict (events strict).toList := by
  cases h with
  | found nodes h =>
    rw [h, foundAll, LazyList.toList_ofList]
    exact .map_found nodes
  | missing error hn h =>
    rw [h, noMatch, LazyList.toList_ofList]
    cases strict with
    | false => exact .nil
    | true => exact .missing error rfl hn .nil
  | stuck h =>
    rw [h, LazyList.toList_ofList]
    exact .stuck .nil

/-- A descent finds nodes and does nothing else. -/
theorem announced_descentEvents (strict : Bool) (name : Option String) (node : Json) :
    Announced strict (descentEvents name node).toList := by
  have hfound (entries : List Entry) :
      Announced strict (entries.map fun entry => Event.found entry.2) := by
    have hnodes : entries.map (fun entry => Event.found entry.2) =
        (entries.map Prod.snd).map .found := List.map_map.symm
    rw [hnodes]
    exact .map_found _
  cases name with
  | none =>
    rw [descentEvents, LazyList.toList_cons, LazyList.toList_map]
    exact .found node (hfound _)
  | some name =>
    rw [descentEvents, LazyList.toList_map]
    exact hfound _

/-- A test makes its notes, and then its child is found or not. -/
theorem announced_verdictEvents {strict : Bool} {child : Json} {verdict : Verdict}
    (h : OnlyQueued verdict.1) : Announced strict (verdictEvents child verdict).toList := by
  rw [verdictEvents, LazyList.toList_ofList]
  refine (Announced.map_note h).append ?_
  cases verdict.2 with
  | false => exact .nil
  | true => exact .found child .nil

/-- A lenient evaluation that is searched announces nothing. -/
theorem onlyQueued_judge {operator : Operator} {literal : Option Literal}
    {events : Unit → LazyList Event} (h : Announced false (events ()).toList) :
    OnlyQueued (judge operator literal events).1 := by
  have hsearch (accepts : Json → Bool) : OnlyQueued (Event.search accepts (events ())).1 := by
    intro entry hmem
    exact h.exists_queued_of_mem (Event.note_mem_of_mem_search hmem)
  have hnone : OnlyQueued [] := by
    simp [OnlyQueued]
  cases operator with
  | present => exact hsearch _
  | _ =>
    cases literal with
    | none => exact hnone
    | some literal => exact hsearch _

mutual

/-- A selector announces its errors at a node. -/
theorem Selector.announced_events (strict : Bool) (selector : Selector) (node : Json) :
    Announced strict (selector.events strict node).toList := by
  cases selector with
  | member name => exact (matchOutcome_memberEvents name node).nodeOutcome.announced strict
  | descent name => exact announced_descentEvents strict name node
  | element index => exact (matchOutcome_elementEvents index node).nodeOutcome.announced strict
  | elements indexes =>
    rw [Selector.events, LazyList.toList_flatMap]
    exact .flatMap _ fun index =>
      (matchOutcome_elementEvents (some index) node).nodeOutcome.announced strict
  | slice start stop step => exact (nodeOutcome_sliceEvents start stop step node).announced strict
  | filter conditions =>
    rw [Selector.events, LazyList.toList_flatMap]
    exact .flatMap _ fun child =>
      announced_verdictEvents (onlyQueued_testConditions conditions child)
termination_by structural selector

/-- A path announces its errors, and leaves those before it announced. -/
theorem announced_pathEvents (strict : Bool) (path : List Selector) {events : LazyList Event}
    (h : Announced strict events.toList) :
    Announced strict (pathEvents strict path events).toList := by
  cases path with
  | nil => exact h
  | cons selector rest =>
    have hstage : ∀ node, Announced strict (selector.events strict node).toList :=
      selector.announced_events strict
    exact announced_pathEvents strict rest (h.expand hstage)
termination_by structural path

/-- The test of a condition announces nothing. -/
theorem Condition.onlyQueued_test (condition : Condition) (child : Json) :
    OnlyQueued (condition.test child).1 := by
  cases condition with
  | mk path operator literal =>
    have hroot : Announced false (LazyList.ofList [Event.found child]).toList := .found child .nil
    have hpath := announced_pathEvents false path hroot
    have hjudge : OnlyQueued (judge operator literal fun _ =>
        pathEvents false path (.ofList [.found child])).1 := onlyQueued_judge hpath
    exact List.forall_mem_append.mpr ⟨onlyQueued_queueNotes path, hjudge⟩
termination_by structural condition

/-- So do the tests of several conditions. -/
theorem onlyQueued_testConditions (conditions : List Condition) (child : Json) :
    OnlyQueued (testConditions conditions child).1 := by
  cases conditions with
  | nil => simp [testConditions, OnlyQueued]
  | cons condition rest =>
    have hhere := condition.onlyQueued_test child
    have hrest := onlyQueued_testConditions rest child
    rw [testConditions]
    rcases hverdict : condition.test child with ⟨notes, _ | _⟩ <;> rw [hverdict] at hhere
    · exact hhere
    · exact List.forall_mem_append.mpr ⟨hhere, hrest⟩
termination_by structural conditions

end

/-! ### Events behind an error -/

/-- What follows the first error among some items is not drained. -/
theorem drained_append_of_error {items : List Item} {error : EvaluationError}
    (h : (drained items).2 = some error) (more : List Item) :
    drained (items ++ more) = drained items := by
  induction items with
  | nil => contradiction
  | cons item rest ih =>
    cases item with
    | ok node => rw [List.cons_append, drained, drained, ih h]
    | error other => rfl

/-- Nor is anything noted there. -/
theorem notesBefore_append_of_error {events : List Event} {error : EvaluationError}
    (h : (drained (events.filterMap Event.item?)).2 = some error) (more : List Event) :
    notesBefore (events ++ more) = notesBefore events := by
  induction events with
  | nil => contradiction
  | cons event rest ih =>
    cases event with
    | note entry => rw [List.cons_append, notesBefore, notesBefore, ih h]
    | found node => exact ih h
    | failed other => rfl

/-- All that is seen of events when they are consumed to their end: the notes that are made, the
nodes that are found, and the error at the end. -/
def Event.consumed (events : LazyList Event) : List Note × List Json × Option EvaluationError :=
  (Event.notes events, Event.drain events)

/-- All that is seen of a sequence when it is consumed to its end. -/
def Nodes.consumed (nodes : Nodes) : List Note × List Json × Option EvaluationError :=
  Event.consumed (nodes.pending ())

/-- Events that fail are consumed in the same way whatever follows them. -/
theorem consumed_of_toList_eq_append {events front : LazyList Event} {back : List Event}
    {error : EvaluationError} (hlist : events.toList = front.toList ++ back)
    (hfail : (Event.drain front).2 = some error) :
    Event.consumed events = Event.consumed front := by
  rw [Event.drain_eq_drained, Event.items] at hfail
  simp only [Event.consumed, Event.notes_eq_notesBefore, Event.drain_eq_drained, Event.items,
    hlist, List.filterMap_append]
  rw [notesBefore_append_of_error hfail, drained_append_of_error hfail]

section

variable {strict : Bool} {path : List Selector} {error : EvaluationError}

/-- What a path makes of events in a row it makes of each part of them. -/
theorem toList_pathEvents_append {events front back : LazyList Event}
    (h : events.toList = front.toList ++ back.toList) :
    (pathEvents strict path events).toList =
      (pathEvents strict path front).toList ++ (pathEvents strict path back).toList := by
  induction path generalizing events front back with
  | nil => exact h
  | cons selector rest ih =>
    apply ih
    simp only [Event.expand, LazyList.toList_flatMap, h, List.flatMap_append]

/-- Where a path fails on some events, it does not look at what follows them. -/
theorem consumed_pathEvents_append {events : LazyList Event}
    (hfail : (Event.drain (pathEvents strict path events)).2 = some error)
    (next : Unit → LazyList Event) :
    Event.consumed (pathEvents strict path (events.append next)) =
      Event.consumed (pathEvents strict path events) :=
  consumed_of_toList_eq_append (toList_pathEvents_append (LazyList.toList_append events next)) hfail

/-- An error passes through the selectors of a path as it is, and nothing is noted. -/
theorem consumed_pathEvents_failed (error : EvaluationError) (later : Unit → LazyList Event) :
    Event.consumed (pathEvents strict path (.cons (.failed error) later)) =
      ([], [], some error) := by
  have hfailed (path : List Selector) :
      pathEvents strict path (.ofList [.failed error]) = .ofList [.failed error] := by
    induction path with
    | nil => rfl
    | cons selector rest ih => exact ih
  have hfail : (Event.drain (pathEvents strict path (.ofList [.failed error]))).2 =
      some error := by
    rw [hfailed, Event.drain_eq_drained]
    rfl
  calc Event.consumed (pathEvents strict path (.cons (.failed error) later))
    _ = Event.consumed (pathEvents strict path (.ofList [.failed error])) :=
      consumed_pathEvents_append hfail later
    _ = ([], [], some error) := by
      rw [hfailed, Event.consumed, Event.notes_eq_notesBefore, Event.drain_eq_drained]
      rfl

/-- Where an evaluation fails in the first events of its first selector, it does so as well if that
selector gives more events after them. -/
theorem consumed_evaluate_cons {selector selector' : Selector} {root root' : Json}
    {back : LazyList Event} (hkind : selector'.kind = selector.kind)
    (hlist : (selector'.events strict root').toList =
      (selector.events strict root).toList ++ back.toList)
    (hfail : (evaluate strict (selector :: path) root).drain.2 = some error) :
    (evaluate strict (selector' :: path) root').consumed =
      (evaluate strict (selector :: path) root).consumed := by
  have hstage (selector : Selector) (root : Json) :
      (Event.expand (selector.events strict) (.ofList [.found root])).toList =
        (selector.events strict root).toList := by
    rw [Event.expand, LazyList.toList_flatMap]
    exact List.append_nil _
  have hevents : (Event.expand (selector'.events strict) (.ofList [.found root'])).toList =
      (Event.expand (selector.events strict) (.ofList [.found root])).toList ++ back.toList := by
    rw [hstage, hstage, hlist]
  have hpath : (pathEvents strict (selector' :: path) (.ofList [.found root'])).toList =
      (pathEvents strict (selector :: path) (.ofList [.found root])).toList ++
        (pathEvents strict path back).toList :=
    @toList_pathEvents_append strict path _ _ _ hevents
  have hrun : ((evaluate strict (selector' :: path) root').pending ()).toList =
      ((evaluate strict (selector :: path) root).pending ()).toList ++
        (pathEvents strict path back).toList := by
    simp only [evaluate, LazyList.toList_append, hpath, List.append_assoc, queueNotes,
      List.map_cons, hkind]
  exact consumed_of_toList_eq_append hrun hfail

/-- A filter does not test the children behind those on which the evaluation fails. -/
theorem consumed_evaluate_filter {conditions : List Condition} {root root' : Json}
    {later : List Json}
    (hfail : (evaluate strict (.filter conditions :: path) root).drain.2 = some error)
    (hchildren : root'.children = root.children ++ later) :
    (evaluate strict (.filter conditions :: path) root').consumed =
      (evaluate strict (.filter conditions :: path) root).consumed := by
  have hlist : ((Selector.filter conditions).events strict root').toList =
      ((Selector.filter conditions).events strict root).toList ++
        ((LazyList.ofList later).flatMap fun child =>
          verdictEvents child (testConditions conditions child)).toList := by
    simp only [Selector.events, LazyList.toList_flatMap, LazyList.toList_ofList, hchildren,
      List.flatMap_append]
  exact consumed_evaluate_cons rfl hlist hfail

/-- Nor are the indexes looked up that come after those at which it fails. -/
theorem consumed_evaluate_elements {indexes : List Int64} {root : Json}
    (hfail : (evaluate strict (.elements indexes :: path) root).drain.2 = some error)
    (later : List Int64) :
    (evaluate strict (.elements (indexes ++ later) :: path) root).consumed =
      (evaluate strict (.elements indexes :: path) root).consumed := by
  have hlist : ((Selector.elements (indexes ++ later)).events strict root).toList =
      ((Selector.elements indexes).events strict root).toList ++
        ((Selector.elements later).events strict root).toList := by
    simp only [Selector.events, LazyList.toList_flatMap, LazyList.toList_ofList,
      List.flatMap_append]
  exact consumed_evaluate_cons rfl hlist hfail

end

/-! ### Lines of the log -/

/-- Whether a line of the log is on a missing match. -/
def IsNoMatchLine (line : String) : Prop :=
  ∃ text, line = "TRACE no match: " ++ text

/-- That a selector is queued does not say that there is no match. -/
theorem not_isNoMatchLine_queued (kind : Selector.Kind) :
    ¬IsNoMatchLine (Note.queued kind).line := by
  rintro ⟨text, h⟩
  have hline : (Note.queued kind).line = "TRACE queueing " ++ (kind.name ++ " filter") :=
    String.append_assoc
  have hqueued : ("TRACE queueing " ++ (kind.name ++ " filter")).toList[6]? = some 'q' := by
    rw [String.toList_append]
    rfl
  have hmissing : ("TRACE no match: " ++ text).toList[6]? = some 'n' := by
    rw [String.toList_append]
    rfl
  rw [← hline, h, hmissing] at hqueued
  contradiction

/-- Notes of queued selectors do not say that there is no match. -/
theorem OnlyQueued.not_isNoMatchLine {notes : List Note} (h : OnlyQueued notes) {line : String}
    (hline : line ∈ notes.map Note.line) : ¬IsNoMatchLine line := by
  obtain ⟨entry, hentry, rfl⟩ := List.mem_map.mp hline
  obtain ⟨kind, rfl⟩ := h entry hentry
  exact not_isNoMatchLine_queued kind

/-- The notes of an evaluation are on queued selectors, and the last one is on the error that ends
it if that is for lack of a match. -/
theorem exists_notes_evaluate_eq (strict : Bool) (path : List Selector) (root : Json) :
    ∃ kinds : List Selector.Kind, (evaluate strict path root).notes = kinds.map .queued ++
      ((evaluate strict path root).drain.2.filter EvaluationError.isNoMatch).toList.map
        .noMatch := by
  have hroot : Announced strict (LazyList.ofList [Event.found root]).toList := .found root .nil
  have hevents : Announced strict ((evaluate strict path root).pending ()).toList := by
    rw [evaluate, LazyList.toList_append, LazyList.toList_ofList]
    exact (Announced.map_note (onlyQueued_queueNotes path)).append
      (announced_pathEvents strict path hroot)
  rw [Nodes.notes, Nodes.drain, Event.notes_eq_notesBefore, Event.drain_eq_drained]
  exact hevents.exists_notesBefore_eq

/-- None of the lines that an evaluation leaves in the log is on a missing match, but for the last
one if such an error ends the evaluation. -/
theorem exists_lines_evaluate_eq (strict : Bool) (path : List Selector) (root : Json) :
    ∃ earlier : List String, (∀ line ∈ earlier, ¬IsNoMatchLine line) ∧
      (evaluate strict path root).notes.map Note.line = earlier ++
        ((evaluate strict path root).drain.2.filter EvaluationError.isNoMatch).toList.map
          fun error => "TRACE no match: " ++ error.message := by
  obtain ⟨kinds, hnotes⟩ := exists_notes_evaluate_eq strict path root
  have hqueued : OnlyQueued (kinds.map .queued) := by
    simp [OnlyQueued]
  refine ⟨(kinds.map Note.queued).map Note.line, fun _ => hqueued.not_isNoMatchLine, ?_⟩
  rw [hnotes, List.map_append, List.map_map (f := Note.noMatch)]
  rfl

/-- There is a line on a missing match exactly if such an error ends the evaluation. -/
theorem exists_isNoMatchLine_iff (strict : Bool) (path : List Selector) (root : Json) :
    (∃ line ∈ (evaluate strict path root).notes.map Note.line, IsNoMatchLine line) ↔
      ∃ error, (evaluate strict path root).drain.2 = some error ∧ error.isNoMatch = true := by
  obtain ⟨earlier, hearlier, hlines⟩ := exists_lines_evaluate_eq strict path root
  rw [hlines]
  constructor
  · rintro ⟨line, hline, hmissing⟩
    rcases List.mem_append.mp hline with hline | hline
    · exact absurd hmissing (hearlier line hline)
    · obtain ⟨error, herror, -⟩ := List.mem_map.mp hline
      exact ⟨error, Option.filter_eq_some_iff.mp (Option.mem_toList.mp herror)⟩
  · rintro ⟨error, herror⟩
    have hlast := Option.mem_toList.mpr (Option.filter_eq_some_iff.mpr herror)
    exact ⟨_, List.mem_append_right _ (List.mem_map_of_mem hlast), error.message, rfl⟩

/-- The lines that an evaluation leaves in the log are none on a missing match, and then one with
the text of the error that ends it if that error is for lack of a match; tests of conditions leave
no such line.  Nothing is evaluated after an error is raised: what the path is given after the
events at which it fails, the later children that a filter would test, the later indexes that would
be looked up and the later selectors that the error passes through make no difference. -/
theorem lines_evaluate (strict : Bool) (path : List Selector) (root : Json) :
    (∃ earlier : List String, (∀ line ∈ earlier, ¬IsNoMatchLine line) ∧
      (evaluate strict path root).notes.map Note.line = earlier ++
        ((evaluate strict path root).drain.2.filter EvaluationError.isNoMatch).toList.map
          fun error => "TRACE no match: " ++ error.message) ∧
    ((∃ line ∈ (evaluate strict path root).notes.map Note.line, IsNoMatchLine line) ↔
      ∃ error, (evaluate strict path root).drain.2 = some error ∧ error.isNoMatch = true) ∧
    (∀ conditions child, ∀ line ∈ (testConditions conditions child).1.map Note.line,
      ¬IsNoMatchLine line) ∧
    (∀ events error, (Event.drain (pathEvents strict path events)).2 = some error →
      ∀ next, Event.consumed (pathEvents strict path (events.append next)) =
        Event.consumed (pathEvents strict path events)) ∧
    (∀ conditions error, (evaluate strict (.filter conditions :: path) root).drain.2 = some error →
      ∀ root' later, root'.children = root.children ++ later →
        (evaluate strict (.filter conditions :: path) root').consumed =
          (evaluate strict (.filter conditions :: path) root).consumed) ∧
    (∀ indexes error, (evaluate strict (.elements indexes :: path) root).drain.2 = some error →
      ∀ later, (evaluate strict (.elements (indexes ++ later) :: path) root).consumed =
        (evaluate strict (.elements indexes :: path) root).consumed) ∧
    ∀ error later, Event.consumed (pathEvents strict path (.cons (.failed error) later)) =
      ([], [], some error) :=
  ⟨exists_lines_evaluate_eq strict path root, exists_isNoMatchLine_iff strict path root,
    fun conditions child _ => (onlyQueued_testConditions conditions child).not_isNoMatchLine,
    fun _ _ => consumed_pathEvents_append, fun _ _ hfail _ _ => consumed_evaluate_filter hfail,
    fun _ _ => consumed_evaluate_elements, consumed_pathEvents_failed⟩

/-- The second of three indexes is missing, after a child of the first element has been tested; and
the first of two nodes has no slices, by itself or as a child that a filter lets through. -/
theorem lines_evaluate_missing_index :
    let path : List Selector := [.filter [.mk [.member (some "a")] .present none]]
    let slice : List Selector := [.slice none none none]
    let root : Json := .array [.array [.object [("a", .null)]], .array [.null]]
    (evaluate true (.elements [0, 7] :: path) root).drain.2 = some (.indexOutOfBounds 7) ∧
      (evaluate true (.elements [0, 7, 1] :: path) root).consumed =
        (evaluate true (.elements [0, 7] :: path) root).consumed ∧
      (evaluate true (.elements [0, 7] :: path) root).notes =
        [.queued .elements, .queued .filter, .queued .member, .noMatch (.indexOutOfBounds 7)] ∧
      (Event.drain (pathEvents true slice (.ofList [.found .null]))).2 =
        some (.sliceNotValid .null) ∧
      Event.consumed (pathEvents true slice (.ofList [.found .null, .found root])) =
        Event.consumed (pathEvents true slice (.ofList [.found .null])) ∧
      (evaluate true (.filter [] :: slice) (.array [.null])).drain.2 =
        some (.sliceNotValid .null) ∧
      (evaluate true (.filter [] :: slice) (.array [.null, root])).consumed =
        (evaluate true (.filter [] :: slice) (.array [.null])).consumed := by
  intro path slice root
  have hindex : (evaluate true (.elements [0, 7] :: path) root).drain.2 =
      some (.indexOutOfBounds 7) := rfl
  have hevent : (Event.drain (pathEvents true slice (.ofList [.found .null]))).2 =
      some (.sliceNotValid .null) := rfl
  have hchild : (evaluate true (.filter [] :: slice) (.array [.null])).drain.2 =
      some (.sliceNotValid .null) := rfl
  obtain ⟨-, -, -, -, -, hindexes, -⟩ := lines_evaluate true path root
  obtain ⟨-, -, -, hevents, hchildren, -⟩ := lines_evaluate true slice (.array [.null])
  exact ⟨hindex, hindexes [0, 7] _ hindex [1], rfl, hevent,
    hevents (.ofList [.found .null]) _ hevent fun _ => .ofList [.found root], hchild,
    hchildren [] _ hchild (.array [.null, root]) [root] rfl⟩

end JsonSelect
